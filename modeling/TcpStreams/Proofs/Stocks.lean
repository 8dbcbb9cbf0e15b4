import TcpStreams.Proofs.Counting

/-!
# Stocks

What waits in a half-stream is in order whatever was sent: no page is empty, none holds more than fits, and
a page that holds anything new is never cut away altogether.  None of this needs a window.  Segments may carry
any numbers, and pages may stand in an order that means nothing; a page is cut against a single number, and on
a page of at most `Page.capacity` bytes no way round the circle is as short as the page itself.

* `Page.Stocked`: what holds of a page that waits; `Page.Stocked.cut_lt`: what is cut off is shorter than it.
* `HalfStream.Proper`: what holds of a half-stream whatever moves it makes.
* `Arrival.fillings`: the pages that the work on a segment fills, and with what.
* `Arrival.Safe`: the work on a segment never reaches beyond its payload or a page.
* `Arrival.safe`: that holds of every segment, if what waits is stocked and the arena keeps blank pages.
-/

namespace TcpStreams

/-! ## Pages -/

/-- A page that may wait: it is not empty, and holds no more than fits. -/
structure Page.Stocked (page : Page) : Prop where
  /-- It holds a byte at least. -/
  pos : 0 < page.size
  /-- It holds no more than fits. -/
  le : page.size ≤ Page.capacity

namespace Page.Stocked

variable {page : Page} {next : SeqNum}

/-- **A cut is shorter than the page**, if the page holds anything from `next` on. -/
theorem cut_lt (h : page.Stocked) (hb : Backlog.isBehind next page = false) :
    (page.seq.distance next).toNat < page.size := by
  have hpos := h.pos
  have hle : page.size ≤ 1900 := h.le
  have hseq := page.seq.toNat_lt
  have hnext := next.toNat_lt
  have hahead : 0 < next.distance page.stop := by simpa [Backlog.isBehind] using hb
  -- both distances are positive, and together they are the size of the page but for whole circles
  revert hahead
  rw [Page.stop, SeqNum.distance, SeqNum.distance, SeqNum.toNat_advance, Int.bmod_def, Int.bmod_def]
  split <;> split <;> omega

theorem cutTo (h : page.Stocked) (hb : Backlog.isBehind next page = false) :
    (Backlog.cutTo next page).Stocked := by
  have hlt := h.cut_lt hb
  have hle := h.le
  refine ⟨?_, ?_⟩
  · rw [Backlog.cutTo, size_dropFront]
    omega
  · rw [Backlog.cutTo, size_dropFront]
    omega

end Page.Stocked

/-- A chunk that carries a stocked page. -/
def Chunk.Held (chunk : Chunk) : Prop := ∃ page, chunk.source = .page page ∧ page.Stocked

/-! ## Half-streams -/

namespace HalfStream

variable {h h' : HalfStream} {leaps : Bool} {cs : List Chunk} {page : Page} {rest : List Page}

/-- Every page that waits is stocked, and the stream has begun if the next number is known. -/
structure Stocked (h : HalfStream) : Prop where
  /-- Every page that waits is stocked. -/
  pages : ∀ page ∈ h.pages, page.Stocked
  /-- The stream has begun if the next number is known. -/
  begun : h.next ≠ none → h.phase ≠ .unstarted

/-- What holds of a half-stream whatever moves it makes.  Draining, leaping and closing are moves. -/
structure Proper (h : HalfStream) : Prop where
  /-- What waits is stocked. -/
  stocked : h.Stocked
  /-- Whatever moves it makes, the pages that wait are stocked, and what is cut off the front of one that
  holds anything new is shorter than the page. -/
  cuts : ∀ cs h', Moves true h cs h' → ∀ page ∈ h'.pages, page.Stocked ∧ ∀ next, h'.next = some next →
    Backlog.isBehind next page = false → (page.seq.distance next).toNat < page.size

theorem stocked_new (d : Direction) : (new d).Stocked :=
  ⟨List.forall_mem_nil _, fun hnext => absurd rfl hnext⟩

theorem stocked_trimmed (hpage : page.Stocked) (hb : h.isBehind page = false) :
    (h.trimmed page).Stocked := by
  cases hn : h.next with
  | none =>
      rw [trimmed_none hn]
      exact hpage
  | some next =>
      rw [isBehind_some hn] at hb
      rw [trimmed_some hn]
      exact hpage.cutTo hb

/-! ### Moves -/

theorem Move.stocked (hm : Move leaps h cs h') (hp : ∀ page ∈ h.pages, page.Stocked) :
    (∀ page ∈ h'.pages, page.Stocked) ∧ ∀ k ∈ cs, k.Held := by
  cases hm with
  | free hpages _ =>
      rw [hpages] at hp
      exact ⟨(List.forall_mem_cons.1 hp).2, List.forall_mem_nil _⟩
  | trim hpages hb =>
      rw [hpages] at hp
      obtain ⟨hfirst, hrest⟩ := List.forall_mem_cons.1 hp
      exact ⟨List.forall_mem_cons.2 ⟨stocked_trimmed hfirst hb, hrest⟩, List.forall_mem_nil _⟩
  | hand hpages hb _ _ =>
      rw [hpages] at hp
      obtain ⟨hfirst, hrest⟩ := List.forall_mem_cons.1 hp
      exact ⟨hrest, List.forall_mem_singleton.2 ⟨_, rfl, stocked_trimmed hfirst hb⟩⟩

theorem Moves.stocked (hm : Moves leaps h cs h') (hp : ∀ page ∈ h.pages, page.Stocked) :
    (∀ page ∈ h'.pages, page.Stocked) ∧ ∀ k ∈ cs, k.Held := by
  induction hm with
  | refl _ => exact ⟨hp, List.forall_mem_nil _⟩
  | head hmove _ ih =>
      obtain ⟨hp', hfirst⟩ := hmove.stocked hp
      obtain ⟨hp'', hrest⟩ := ih hp'
      exact ⟨hp'', List.forall_mem_append.2 ⟨hfirst, hrest⟩⟩

/-- **Stocked pages stay so**, whatever moves their half-stream makes. -/
theorem Stocked.proper (h₀ : h.Stocked) : h.Proper := by
  refine ⟨h₀, fun cs h' hm page hp => ?_⟩
  have hstocked := (hm.stocked h₀.pages).1 page hp
  exact ⟨hstocked, fun next _ hb => hstocked.cut_lt hb⟩

/-! ### Steps -/

theorem Stocked.drain (h₀ : h.Stocked) : h.drain.value.Stocked ∧ ∀ k ∈ h.drain.chunks, k.Held := by
  obtain ⟨hpages, hchunks⟩ := h.drain_moves.stocked h₀.pages
  refine ⟨⟨hpages, fun hnext => ?_⟩, hchunks⟩
  rw [phase_drain]
  refine h₀.begun fun hn => ?_
  rw [drain_of_none hn] at hnext
  exact hnext hn

theorem begun_phase (phase : Phase) : phase.begun ≠ .unstarted := by
  cases phase <;> decide

theorem Stocked.leap (h₀ : h.Stocked) : h.leap.value.1.Stocked ∧ ∀ k ∈ h.leap.chunks, k.Held := by
  obtain ⟨hpages, hchunks⟩ := h.leap_moves.stocked h₀.pages
  refine ⟨⟨hpages, ?_⟩, hchunks⟩
  have hbegun := h₀.begun
  clear hpages hchunks h₀
  generalize hp : h.pages = pages
  induction pages generalizing h with
  | nil =>
      rw [leap_of_empty hp]
      exact hbegun
  | cons page rest ih =>
      cases hb : h.isBehind page with
      | true =>
          rw [(leap_of_behind hp hb).1]
          exact ih (h := { h with pages := rest }) hbegun rfl
      | false =>
          -- whoever hands a page on has begun, and draining does not undo that
          rw [(leap_of_front hp hb).1, phase_drain]
          exact fun _ => begun_phase h.phase

theorem Stocked.close (h₀ : h.Stocked) : h.close.value.Stocked ∧ ∀ k ∈ h.close.chunks, k.Held := by
  obtain ⟨h', hm, -, hvalue⟩ := h.close_moves
  obtain ⟨hpages, hchunks⟩ := hm.stocked h₀.pages
  have hclosed : Phase.closed ≠ .unstarted := by decide
  rw [hvalue]
  exact ⟨⟨hpages, fun _ => hclosed⟩, hchunks⟩

theorem Stocked.lose (h₀ : h.Stocked) (hp : h.pages = page :: rest) : (h.lose page rest).Stocked := by
  have hpages := h₀.pages
  rw [hp] at hpages
  refine ⟨(List.forall_mem_cons.1 hpages).2, fun hnext => h₀.begun fun hn => hnext ?_⟩
  simp [HalfStream.lose, hn]

theorem Stocked.shed {y : Yield HalfStream} (h₀ : h.Stocked) (hy : h.shed? = some y) :
    y.value.Stocked := by
  obtain ⟨page, rest, hp, hvalue, -⟩ := shed?_some hy
  exact hvalue ▸ h₀.lose hp

theorem Stocked.hold (h₀ : h.Stocked) (hpage : page.Stocked) : (h.hold page).Stocked := by
  refine ⟨fun q hq => ?_, h₀.begun⟩
  rcases Backlog.mem_insert.1 hq with rfl | hq
  · exact hpage
  · exact h₀.pages q hq

theorem Stocked.drop (h₀ : h.Stocked) (bytes : Nat) : (h.drop bytes).value.Stocked :=
  ⟨h₀.pages, h₀.begun⟩

theorem Stocked.pass (h₀ : h.Stocked) (len offset : Nat) :
    (h.pass len offset).value.Stocked ∧
      ∀ k ∈ (h.pass len offset).chunks, k.source = .payload ⟨offset, len⟩ := by
  unfold HalfStream.pass
  cases hn : h.next with
  | none => exact ⟨h₀, List.forall_mem_nil _⟩
  | some next =>
      have hbegun := h₀.begun (hn ▸ Option.some_ne_none next)
      exact ⟨⟨h₀.pages, fun _ => hbegun⟩, List.forall_mem_singleton.2 rfl⟩

/-- The arrival of a segment leaves the pages alone, and begins the stream with an empty chunk at most. -/
theorem Stocked.arrive (h₀ : h.Stocked) (segment : Segment) :
    (h.arrive segment).value.1.Stocked ∧
      ∀ k ∈ (h.arrive segment).chunks, k.source = .payload ⟨0, 0⟩ := by
  have hstarted : Phase.started ≠ .unstarted := by decide
  simp only [HalfStream.arrive, Yield.andThen, synchronize, List.append_nil]
  split
  · split
    · exact ⟨⟨h₀.pages, fun _ => hstarted⟩, List.forall_mem_singleton.2 rfl⟩
    · exact ⟨⟨h₀.pages, fun _ => hstarted⟩, List.forall_mem_nil _⟩
  · exact ⟨⟨h₀.pages, h₀.begun⟩, List.forall_mem_nil _⟩

end HalfStream

/-! ## Connections -/

namespace Connection

variable {c c' : Connection} {d : Direction} {h : HalfStream} {y : Yield Connection}

/-- Every page that waits, in either direction, is stocked. -/
def Stocked (c : Connection) : Prop := ∀ d, (c.half d).Stocked

/-- Either half-stream is proper. -/
def Proper (c : Connection) : Prop := ∀ d, (c.half d).Proper

theorem Stocked.proper (hc : c.Stocked) : c.Proper := fun d => (hc d).proper

theorem stocked_new (flow : FlowId) (opener : Endpoint) (stream now : Nat) :
    (new flow opener stream now).Stocked := by
  intro d
  rw [half_new]
  exact HalfStream.stocked_new d

theorem Stocked.setHalf (hc : c.Stocked) (hh : h.Stocked) : (c.setHalf d h).Stocked := by
  intro e
  by_cases he : d = e
  · subst he
    rw [half_setHalf]
    exact hh
  · rw [half_setHalf_ne _ _ he]
    exact hc e

theorem stocked_leapIn (hc : c.Stocked) (d : Direction) :
    (c.leapIn d).value.1.Stocked ∧ ∀ k ∈ (c.leapIn d).chunks, k.Held := by
  obtain ⟨hhalf, hchunks⟩ := (hc d).leap
  exact ⟨hc.setHalf hhalf, hchunks⟩

theorem stocked_leap (hc : c.Stocked) (d : Direction) :
    (c.leap d).value.1.Stocked ∧ ∀ k ∈ (c.leap d).chunks, k.Held := by
  have hfirst := stocked_leapIn hc d
  cases hm : (c.half d).leap.value.2 with
  | true =>
      obtain ⟨hvalue, hchunks⟩ := leap_of_moved hm
      rw [hvalue, hchunks]
      exact hfirst
  | false =>
      obtain ⟨hvalue, hchunks⟩ := leap_of_not_moved hm
      obtain ⟨hsecond, hheld⟩ := stocked_leapIn hfirst.1 d.opposite
      rw [hvalue, hchunks]
      exact ⟨hsecond, List.forall_mem_append.2 ⟨hfirst.2, hheld⟩⟩

theorem stocked_relieveWithin (limit : Nat) (d : Direction) (fuel : Nat) (hc : c.Stocked) :
    (relieveWithin limit d fuel c).value.Stocked ∧
      ∀ k ∈ (relieveWithin limit d fuel c).chunks, k.Held := by
  induction fuel generalizing c with
  | zero => exact ⟨hc, List.forall_mem_nil _⟩
  | succ fuel ih =>
      unfold relieveWithin
      split
      · obtain ⟨hleap, hheld⟩ := stocked_leap hc d
        cases hm : (c.leap d).value.2 with
        | true =>
            obtain ⟨hrest, hheld'⟩ := ih hleap
            simp only [Yield.andThen, hm, if_true]
            exact ⟨hrest, List.forall_mem_append.2 ⟨hheld, hheld'⟩⟩
        | false =>
            simp only [Yield.andThen, hm, Bool.false_eq_true, if_false, List.append_nil]
            exact ⟨hleap, hheld⟩
      · exact ⟨hc, List.forall_mem_nil _⟩

/-- At every moment of a relief the pages that wait are stocked. -/
theorem stocked_reliefMoments (limit : Nat) (d : Direction) (fuel : Nat) (hc : c.Stocked) :
    ∀ m ∈ c.reliefMoments limit d fuel, m.connection.Stocked := by
  induction fuel generalizing c with
  | zero => exact List.forall_mem_singleton.2 hc
  | succ fuel ih =>
      have hfirst := (stocked_leapIn hc d).1
      have hsecond := (stocked_leapIn hfirst d.opposite).1
      unfold reliefMoments
      split
      · cases hm : (c.leapIn d).value.2 with
        | true =>
            simp only [hm, if_true]
            exact List.forall_mem_cons.2 ⟨hfirst, ih hfirst⟩
        | false =>
            simp only [hm, Bool.false_eq_true, if_false]
            refine List.forall_mem_cons.2 ⟨hfirst, List.forall_mem_cons.2 ⟨hsecond, ?_⟩⟩
            split
            · exact ih hsecond
            · exact List.forall_mem_singleton.2 hsecond
      · exact List.forall_mem_singleton.2 hc

theorem stocked_closeIn (hc : c.Stocked) (d : Direction) :
    (c.closeIn d).value.Stocked ∧ ∀ k ∈ (c.closeIn d).chunks, k.Held := by
  cases hclosed : (c.half d).isClosed with
  | true =>
      simp only [closeIn, onHalf, hclosed, if_true, Yield.map]
      exact ⟨hc.setHalf (hc d), List.forall_mem_nil _⟩
  | false =>
      obtain ⟨hhalf, hchunks⟩ := (hc d).close
      simp only [closeIn, onHalf, hclosed, Bool.false_eq_true, if_false, Yield.map]
      exact ⟨hc.setHalf hhalf, hchunks⟩

/-- **Closing hands on nothing but stocked pages.** -/
theorem stocked_close (hc : c.Stocked) : c.close.value.Stocked ∧ ∀ k ∈ c.close.chunks, k.Held := by
  obtain ⟨hfirst, hheld⟩ := stocked_closeIn hc .forward
  obtain ⟨hsecond, hheld'⟩ := stocked_closeIn hfirst .reverse
  rw [close_eq]
  exact ⟨hsecond, List.forall_mem_append.2 ⟨hheld, hheld'⟩⟩

theorem Sheds.stocked (h : Sheds c c') (hc : c.Stocked) : c'.Stocked := by
  induction h with
  | refl _ => exact hc
  | @head c _ d page rest hp _ ih => exact ih (hc.setHalf ((hc d).lose hp))

end Connection

/-! ## The work on a segment -/

/-- A source whose bytes are there, while a payload of `len` bytes is worked on: a stretch of the payload, or
a stocked page. -/
def Source.Within (len : Nat) : Source → Prop
  | .payload span => span.start ≤ span.stop ∧ span.stop ≤ len
  | .page held => held.Stocked

theorem Chunk.Held.within {chunk : Chunk} (h : chunk.Held) (len : Nat) : chunk.source.Within len := by
  obtain ⟨page, hsource, hpage⟩ := h
  rw [hsource]
  exact hpage

/-- A page that is filled with a part of a payload. -/
structure Filling where
  /-- The page. -/
  page : Page
  /-- The part of the payload. -/
  span : Span

/-- The part is not empty, lies in a payload of `len` bytes, and fits on the page. -/
structure Filling.Fits (len : Nat) (filling : Filling) : Prop where
  /-- It is not empty. -/
  nonempty : filling.span.start < filling.span.stop
  /-- It lies in the payload. -/
  within : filling.span.stop ≤ len
  /-- It fits on the page. -/
  room : filling.page.size + filling.span.size ≤ Page.capacity

/-- A page filled with what fits is stocked. -/
theorem Filling.Fits.stocked {payload : List UInt8} {filling : Filling} (h : filling.Fits payload.length) :
    (filling.page.fill (filling.span.slice payload)).Stocked := by
  have hsize : (filling.span.slice payload).length = filling.span.size := by
    have hwithin := h.within
    rw [Span.slice, List.length_take, List.length_drop, Span.size]
    omega
  have hnonempty : 0 < filling.span.size := Nat.sub_pos_of_lt h.nonempty
  refine ⟨?_, ?_⟩
  · rw [Page.size_fill, hsize]
    omega
  · rw [Page.size_fill, hsize]
    exact h.room

namespace Work

variable {limit len : Nat} {locked : List FlowId} {d : Direction} {start seq : SeqNum}
  {payload : List UInt8} {segment : Segment} {w : Work}

/-- The pages that are filled while parts of a payload are stored. -/
def fillings (limit : Nat) (locked : List FlowId) (d : Direction) (start : SeqNum)
    (payload : List UInt8) : List Portion → Work → List Filling
  | [], _ => []
  | portion :: rest, w =>
    match (w.relieve limit d).obtain locked d (start.advance portion.span.start) with
    | (_, none) => []
    | (w, some page) =>
      let filled := page.fill (portion.span.slice payload)
      let w := w.onHalf d fun h => { value := h.hold filled }
      ⟨page, portion.span⟩ :: fillings limit locked d start payload rest w

/-- What holds throughout the work on a segment with a payload of `len` bytes. -/
structure Stocked (len : Nat) (w : Work) : Prop where
  /-- The pages that wait in the connection of the segment are stocked. -/
  connection : w.connection.Stocked
  /-- So are those of the others. -/
  entries : ∀ e ∈ w.entries, e.connection.Stocked
  /-- The arena keeps blank pages. -/
  blank : w.arena.Blank
  /-- The bytes of every chunk are there. -/
  chunks : ∀ k ∈ w.chunks, k.source.Within len

theorem Stocked.absorb {y : Yield Connection} (h : w.Stocked len) (hvalue : y.value.Stocked)
    (hchunks : ∀ k ∈ y.chunks, k.source.Within len) : (w.absorb y).Stocked len :=
  ⟨hvalue, h.entries, h.blank.giveAll y.freed, List.forall_mem_append.2 ⟨h.chunks, hchunks⟩⟩

theorem Stocked.onHalf {f : HalfStream → Yield HalfStream} (h : w.Stocked len)
    (hvalue : (f (w.connection.half d)).value.Stocked)
    (hchunks : ∀ k ∈ (f (w.connection.half d)).chunks, k.source.Within len) :
    (w.onHalf d f).Stocked len := h.absorb (h.connection.setHalf hvalue) hchunks

theorem Stocked.relieve (h : w.Stocked len) (limit : Nat) (d : Direction) :
    (w.relieve limit d).Stocked len ∧ ∀ m ∈ w.reliefMoments limit d, m.connection.Stocked := by
  obtain ⟨hvalue, hheld⟩ := Connection.stocked_relieveWithin limit d w.connection.pageCount h.connection
  exact ⟨h.absorb hvalue fun k hk => (hheld k hk).within len,
    Connection.stocked_reliefMoments limit d _ h.connection⟩

/-- A half-stream that gives up pages stays stocked at every step. -/
theorem stocked_shedTrail (seq : SeqNum) (fuel : Nat) {h : HalfStream} (h₀ : h.Stocked) (arena : Arena) :
    ∀ h' ∈ h.shedTrail seq fuel arena, h'.Stocked := by
  induction fuel generalizing h arena with
  | zero => exact List.forall_mem_nil _
  | succ fuel ih =>
      rw [HalfStream.shedTrail]
      cases hy : h.shed? with
      | none => exact List.forall_mem_nil _
      | some y =>
          refine List.forall_mem_cons.2 ⟨h₀.shed hy, ?_⟩
          split
          · exact List.forall_mem_nil _
          · exact ih (h₀.shed hy) _

/-- A request for a page leaves everything stocked, and a page that it comes to is blank. -/
theorem Stocked.obtain (h : w.Stocked len) (locked : List FlowId) (d : Direction) (seq : SeqNum) :
    (w.obtain locked d seq).1.Stocked len ∧
      (∀ page, (w.obtain locked d seq).2 = some page → page = ⟨seq, []⟩) ∧
      ∀ m ∈ w.obtainMoments locked d seq, m.connection.Stocked := by
  obtain ⟨hblank, hpage⟩ := obtain_blank h.blank locked d seq
  have hhalf := obtain_keep (J := HalfStream.Stocked) (fun hpages h₀ => h₀.lose hpages) w locked d seq
    (h.connection d)
  refine ⟨⟨?_, fun e' he' => ?_, hblank, ?_⟩, hpage, ?_⟩
  · rw [connection_obtain]
    exact h.connection.setHalf hhalf
  · obtain ⟨e, he, c', rfl, hsheds⟩ :=
      Reassembly.exists_left_of_mem (w.entries_obtain locked d seq) he'
    exact hsheds.stocked (h.entries e he)
  · rw [chunks_obtain]
    exact h.chunks
  · unfold obtainMoments
    split
    · exact List.forall_mem_nil _
    · simp only
      split
      · exact List.forall_mem_nil _
      · refine List.forall_mem_map.2 fun h' hh' => h.connection.setHalf ?_
        exact stocked_shedTrail seq _ (h.connection d) _ h' hh'

/-- The parts that are stored fit on the pages that they are stored on, and everything stays stocked. -/
theorem Stocked.store (h : w.Stocked payload.length) (limit : Nat) (locked : List FlowId) (d : Direction)
    (start : SeqNum) (ps : List Portion)
    (hps : ∀ p ∈ ps, p.span.start < p.span.stop ∧ p.span.stop ≤ payload.length ∧
      p.span.size ≤ Page.capacity) :
    (store limit locked d start payload ps w).Stocked payload.length ∧
      (∀ m ∈ storeMoments limit locked d start payload ps w, m.connection.Stocked) ∧
      ∀ filling ∈ fillings limit locked d start payload ps w, filling.Fits payload.length := by
  induction ps generalizing w with
  | nil => exact ⟨h, List.forall_mem_nil _, List.forall_mem_nil _⟩
  | cons p rest ih =>
      obtain ⟨hrelieved, hrelief⟩ := h.relieve limit d
      obtain ⟨hobtained, hpage, hrequest⟩ :=
        hrelieved.obtain locked d (start.advance p.span.start)
      obtain ⟨⟨hnonempty, hwithin, hsize⟩, hrest⟩ := List.forall_mem_cons.1 hps
      rw [Work.store, storeMoments, fillings]
      generalize (w.relieve limit d).obtain locked d (start.advance p.span.start) = out
        at hobtained hpage
      obtain ⟨w', page?⟩ := out
      cases page? with
      | none =>
          have hdropped : (w'.onHalf d fun h =>
              h.drop (p.pieceStop - p.span.start)).Stocked payload.length :=
            hobtained.onHalf (f := fun h => h.drop (p.pieceStop - p.span.start))
              ((hobtained.connection d).drop _) (List.forall_mem_nil _)
          refine ⟨hdropped, List.forall_mem_append.2 ⟨hrelief, List.forall_mem_append.2 ⟨hrequest, ?_⟩⟩,
            List.forall_mem_nil _⟩
          exact List.forall_mem_singleton.2 hdropped.connection
      | some page =>
          -- a page that is handed out is blank, so any portion fits on it
          obtain rfl := hpage page rfl
          have hfits : Filling.Fits payload.length ⟨⟨start.advance p.span.start, []⟩, p.span⟩ :=
            ⟨hnonempty, hwithin, (Nat.zero_add _).symm ▸ hsize⟩
          have hheld := hobtained.onHalf (d := d)
            (f := fun h => { value := h.hold (Page.fill ⟨_, []⟩ (p.span.slice payload)) })
            ((hobtained.connection d).hold hfits.stocked) (List.forall_mem_nil _)
          obtain ⟨hstored, hmoments, hfillings⟩ := ih hheld hrest
          refine ⟨hstored, List.forall_mem_append.2 ⟨hrelief, List.forall_mem_append.2 ⟨hrequest, ?_⟩⟩,
            List.forall_mem_cons.2 ⟨hfits, hfillings⟩⟩
          exact List.forall_mem_cons.2 ⟨hheld.connection, hmoments⟩

theorem Stocked.arrived (h : w.Stocked segment.payload.length) (d : Direction) :
    (w.arrived d segment).Stocked segment.payload.length := by
  obtain ⟨hvalue, hchunks⟩ := (h.connection d).arrive segment
  refine h.absorb (h.connection.setHalf hvalue) fun k hk => ?_
  rw [hchunks k hk]
  exact ⟨Nat.le_refl _, Nat.zero_le _⟩

/-- Data in order begins within its payload. -/
theorem lt_of_inOrder {offset : Nat} (hfit : w.fit d segment = .inOrder offset) :
    offset < segment.payload.length := by
  rw [fit_eq] at hfit
  obtain ⟨next, -, -, -, hlt⟩ := Fit.of_inOrder hfit
  exact hlt

/-- The portions of data ahead lie in its payload, none is empty, and each fits on a page. -/
theorem portions_fit {pieces : List Span} (hfit : w.fit d segment = .ahead pieces) :
    ∀ p ∈ pieces.flatMap Span.portions, p.span.start < p.span.stop ∧
      p.span.stop ≤ segment.payload.length ∧ p.span.size ≤ Page.capacity := by
  intro p hp
  obtain ⟨hlt, hle⟩ := portions_bounds hfit p hp
  obtain ⟨piece, -, hp⟩ := List.mem_flatMap.1 hp
  exact ⟨hlt, hle, (Span.mem_portions hp).2.2.2.2⟩

theorem Stocked.placed (h : w.Stocked segment.payload.length) (limit : Nat) (locked : List FlowId)
    (d : Direction) :
    (w.placed limit locked d segment).Stocked segment.payload.length ∧
      ∀ m ∈ w.placeMoments limit locked d segment, m.connection.Stocked := by
  have harrived := h.arrived d
  unfold placeMoments Work.placed
  cases hfit : w.fit d segment with
  | empty | behind | covered => exact ⟨harrived, List.forall_mem_singleton.2 harrived.connection⟩
  | inOrder offset =>
      obtain ⟨hvalue, hchunks⟩ :=
        (harrived.connection d).pass segment.payload.length offset
      have hpassed := harrived.onHalf (f := fun h => h.pass segment.payload.length offset) hvalue
        fun k hk => by
          rw [hchunks k hk]
          exact ⟨Nat.le_of_lt (lt_of_inOrder hfit), Nat.le_refl _⟩
      exact ⟨hpassed, List.forall_mem_cons.2
        ⟨harrived.connection, List.forall_mem_singleton.2 hpassed.connection⟩⟩
  | ahead pieces =>
      obtain ⟨hstored, hmoments, -⟩ := harrived.store limit locked d segment.payloadSeq
        (pieces.flatMap Span.portions) (portions_fit hfit)
      exact ⟨hstored, List.forall_mem_cons.2 ⟨harrived.connection, hmoments⟩⟩

/-- **The work on a segment keeps everything stocked**, at every moment. -/
theorem Stocked.accept (h : w.Stocked segment.payload.length) (limit : Nat) (locked : List FlowId)
    (d : Direction) :
    (w.accept limit locked d segment).Stocked segment.payload.length ∧
      ∀ m ∈ w.acceptMoments limit locked d segment, m.connection.Stocked := by
  obtain ⟨hplaced, hplacing⟩ := h.placed limit locked d
  obtain ⟨hdrain, hheld⟩ := (hplaced.connection d).drain
  have hdrained := hplaced.onHalf hdrain fun k hk => (hheld k hk).within _
  obtain ⟨hsettled, hrelief⟩ := hdrained.relieve limit d
  rw [acceptMoments, accept_eq]
  cases segment.flags.closes with
  | false =>
      exact ⟨hsettled, List.forall_mem_append.2 ⟨hplacing, List.forall_mem_cons.2
        ⟨hdrained.connection, List.forall_mem_append.2 ⟨hrelief, List.forall_mem_nil _⟩⟩⟩⟩
  | true =>
      obtain ⟨hclose, hheld'⟩ := (hsettled.connection d).close
      have hclosed := hsettled.onHalf hclose fun k hk => (hheld' k hk).within _
      exact ⟨hclosed, List.forall_mem_append.2 ⟨hplacing, List.forall_mem_cons.2
        ⟨hdrained.connection, List.forall_mem_append.2
          ⟨hrelief, List.forall_mem_singleton.2 hclosed.connection⟩⟩⟩⟩

end Work

/-! ## Arrivals -/

namespace Arrival

/-- The pages that the work on a segment fills, and with what. -/
def fillings (a : Arrival) : List Filling :=
  if a.half.isClosed then []
  else
    match a.fit with
    | .ahead pieces =>
      Work.fillings a.config.pagesPerConnection a.locked a.direction a.segment.payloadSeq
        a.segment.payload (pieces.flatMap Span.portions) (a.before.arrived a.direction a.segment)
    | .empty | .behind | .inOrder _ | .covered => []

/-- The work on a segment never reaches beyond its payload or a page. -/
structure Safe (a : Arrival) : Prop where
  /-- Data in order begins within the payload. -/
  inOrder : ∀ offset, a.fit = .inOrder offset → offset < a.segment.payload.length
  /-- Data ahead is cut into portions that lie in the payload, up to the end of their piece at most. -/
  ahead : ∀ pieces, a.fit = .ahead pieces → ∀ p ∈ pieces.flatMap Span.portions,
    p.span.start < p.span.stop ∧ p.span.stop ≤ p.pieceStop ∧ p.pieceStop ≤ a.segment.payload.length
  /-- What pages are filled with is there, and fits. -/
  fillings : ∀ filling ∈ a.fillings, filling.Fits a.segment.payload.length
  /-- The bytes of every chunk are there. -/
  chunks : ∀ k ∈ a.work.chunks, k.source.Within a.segment.payload.length
  /-- The connection that the segment finds is proper. -/
  found : a.connection.Proper
  /-- It is so at every moment. -/
  moments : ∀ m ∈ a.moments, m.connection.Proper
  /-- So are the others, whatever they gave up. -/
  others : ∀ e ∈ a.work.entries, e.connection.Proper

variable {a : Arrival}

theorem stocked_work (h : a.before.Stocked a.segment.payload.length) :
    a.work.Stocked a.segment.payload.length ∧ ∀ m ∈ a.moments, m.connection.Stocked := by
  cases hclosed : a.half.isClosed with
  | true =>
      obtain ⟨hconnection, hentries, harena, hchunks⟩ := work_of_closed hclosed
      refine ⟨⟨hconnection ▸ h.connection, hentries ▸ h.entries, harena ▸ h.blank, ?_⟩, ?_⟩
      · rw [hchunks]
        exact List.forall_mem_nil _
      · rw [moments, if_pos hclosed]
        exact List.forall_mem_nil _
  | false =>
      rw [work_of_open hclosed, moments, hclosed]
      exact h.accept _ _ _

/-- **The work on a segment is safe**, whatever numbers it carries, if what waits is stocked and the arena
keeps blank pages. -/
theorem safe (h : a.before.Stocked a.segment.payload.length) : a.Safe := by
  obtain ⟨hwork, hmoments⟩ := stocked_work h
  refine ⟨fun _ => Work.lt_of_inOrder, ?_, ?_, hwork.chunks, h.connection.proper,
    fun m hm => (hmoments m hm).proper, fun e he => (hwork.entries e he).proper⟩
  · intro pieces hfit p hp
    obtain ⟨piece, hpiece, hp⟩ := List.mem_flatMap.1 hp
    obtain ⟨-, hlt, hle, hstop, -⟩ := Span.mem_portions hp
    exact ⟨hlt, hle, hstop ▸ (Work.pieces_bounds hfit piece hpiece).2⟩
  · unfold fillings
    split
    · exact List.forall_mem_nil _
    · split
      · next pieces hfit =>
          exact ((h.arrived _).store _ _ _ _ (pieces.flatMap Span.portions)
            (Work.portions_fit hfit)).2.2
      all_goals exact List.forall_mem_nil _

end Arrival
end TcpStreams
