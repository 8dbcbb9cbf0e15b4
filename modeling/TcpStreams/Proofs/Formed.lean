import TcpStreams.Proofs.Halves
import TcpStreams.Proofs.Kinship
import TcpStreams.Proofs.Storing

/-!
# The form of a half-stream

Whatever reassemblers share a state, whatever their settings, and however many pages there are: between
calls the pages that wait in a half-stream lie in order, apart from each other and beyond the next
byte wanted.  While a segment is worked in this does not hold.  A SYN may set the first number beyond
pages that wait, and storing goes on with pieces that were cut for a position long passed.  What does
hold all the while is that pages lie apart and that what is yet to be stored fits between them; the
next drain makes a half-stream formed out of that, and leaps and lost pages keep it so.

* `HalfStream.WellFormed`: the form of a half-stream between calls.
* `HalfStream.Stowing`: what holds while portions are stored, under any limit.
* `Work.store_keep`: what the steps of storing keep, storing keeps, whatever the arena says.
* `HalfStream.Formed.leap`, `HalfStream.Formed.lose`: what keeps a half-stream formed.
* `Reassembly.halves_wellFormed`: every half-stream has that form, in every state.
-/

namespace TcpStreams

open Backlog (Spread Clear)
open Connection (Sheds)

/-- Pages that are spread out lie one after the other. -/
theorem Backlog.Spread.pairwise {base : SeqNum} {top lo : Nat} {pages : List Page}
    (h : Spread base top lo pages) : pages.Pairwise fun p q => p.hi base ≤ q.lo base := by
  induction pages generalizing lo with
  | nil => exact List.Pairwise.nil
  | cons page rest ih => exact List.pairwise_cons.2 ⟨fun q hq => h.head_le hq, ih h.2.2.2⟩

namespace HalfStream

variable {base start : SeqNum} {payload : List UInt8} {leaps : Bool} {h h' : HalfStream}
  {cs : List Chunk} {page : Page} {rest : List Page} {p : Portion} {ps : List Portion}

/-- The form of a half-stream between calls, told by sequence numbers alone. -/
structure WellFormed (h : HalfStream) : Prop where
  /-- The numbers of the pages go up. -/
  ascending : h.pages.Pairwise fun p q => p.seq.precedes q.seq = true
  /-- No two pages hold a byte of the same number. -/
  disjoint : h.pages.Pairwise fun p q =>
    ∀ i < p.size, ∀ j < q.size, p.seq.advance i ≠ q.seq.advance j
  /-- No page is empty, and none holds more than a page can. -/
  sizes : ∀ page ∈ h.pages, 0 < page.size ∧ page.size ≤ Page.capacity
  /-- As long as the half-stream is open, it has begun exactly if the next number is known. -/
  begun : h.isClosed = false → (h.phase = .unstarted ↔ h.next = none)
  /-- Nothing waits once it is over. -/
  closed : h.isClosed = true → h.pages = []
  /-- No start mark is due. -/
  startDue : h.startDue = false
  /-- Every page begins beyond the next byte wanted, but for the first one if a skip mark is due: that
  one may begin with it. -/
  ahead : ∀ next, h.next = some next → (∀ page ∈ h.pages, next.precedes page.seq = true) ∨
    h.skipDue = true ∧ ∃ page rest, h.pages = page :: rest ∧ page.seq = next ∧
      ∀ q ∈ rest, next.precedes q.seq = true

/-- Every page begins beyond the next byte wanted. -/
def Cleared (base : SeqNum) (h : HalfStream) : Prop :=
  h.next ≠ none → ∀ page ∈ h.pages, h.pos base < page.lo base

/-! ## Phases -/

/-- As long as a half-stream is open, it has begun exactly if the next number is known. -/
def PhaseFits (h : HalfStream) : Prop :=
  h.isClosed = false → (h.phase = .unstarted ↔ h.next = none)

/-- Handing pages on changes the phase of no half-stream, nor forgets the next number. -/
theorem handOnPages_keeps (h : HalfStream) (pages : List Page) :
    (h.handOnPages pages).1.phase = h.phase ∧
      ((h.handOnPages pages).1.next = none ↔ h.next = none ∧ pages = []) := by
  induction pages generalizing h with
  | nil => simp [handOnPages]
  | cons page rest ih =>
      obtain ⟨hphase, hnext⟩ := ih (h.handOn (.page page) page.seq page.size).1
      refine ⟨hphase, ?_⟩
      simp only [handOnPages, hnext]
      simp [handOn]

/-- Draining leaves the phase as it is. -/
theorem phase_drain (h : HalfStream) : h.drain.value.phase = h.phase := by
  cases hn : h.next with
  | none => rw [drain_of_none hn]
  | some next =>
      simp only [HalfStream.drain, hn]
      exact (handOnPages_keeps _ _).1

theorem PhaseFits.drain (hf : h.PhaseFits) : h.drain.value.PhaseFits := by
  cases hn : h.next with
  | none =>
      rw [drain_of_none hn]
      exact hf
  | some next =>
      obtain ⟨-, hnext⟩ := handOnPages_keeps
        { h with pages := (Backlog.run next h.pages).waiting } (Backlog.run next h.pages).ready
      simp only [hn] at hnext
      have hsome : h.drain.value.next ≠ none := by
        simp [HalfStream.drain, hn, hnext]
      intro hopen
      rw [isClosed, phase_drain] at hopen
      rw [phase_drain, hf hopen, hn]
      simp [hsome]

/-- A half-stream that leaps has begun afterwards, and knows the next number. -/
theorem phaseFits_turn (h : HalfStream) (page : Page) (rest : List Page) :
    (h.turn h.phase.begun page rest).1.PhaseFits := by
  intro _
  have hphase : h.phase.begun ≠ .unstarted := by cases h.phase <;> decide
  simp [turn, handOn, hphase]

theorem PhaseFits.leap (hf : h.PhaseFits) : h.leap.value.1.PhaseFits := by
  generalize hp : h.pages = pages
  induction pages generalizing h with
  | nil =>
      rw [(leap_of_nil hp).1]
      exact hf
  | cons page rest ih =>
      cases hb : h.isBehind page with
      | true =>
          rw [(leap_of_behind hp hb).1]
          exact ih (h := { h with pages := rest }) hf rfl
      | false =>
          rw [(leap_of_front hp hb).1]
          exact (phaseFits_turn h _ rest).drain

theorem PhaseFits.lose (hf : h.PhaseFits) : (h.lose page rest).PhaseFits := by
  intro hopen
  refine (hf hopen).trans ?_
  simp [HalfStream.lose]

/-! ## Sizes and marks -/

/-- What does not depend on where pages lie: a page holds no more than it can, a start mark is not due,
and the phase fits. -/
structure Shaped (h : HalfStream) : Prop where
  /-- No page holds more than a page can. -/
  sizes : ∀ page ∈ h.pages, page.size ≤ Page.capacity
  /-- No start mark is due. -/
  startDue : h.startDue = false
  /-- The phase fits. -/
  phase : h.PhaseFits

theorem size_trimmed (h : HalfStream) (page : Page) : (h.trimmed page).size ≤ page.size := by
  cases hn : h.next with
  | none => rw [trimmed_none hn]
  | some next =>
      rw [trimmed_some hn, Backlog.cutTo, Page.size_dropFront]
      exact Nat.sub_le ..

/-- Moves make no page larger, and no start mark due. -/
theorem Moves.sizes (hm : Moves leaps h cs h')
    (hs : (∀ page ∈ h.pages, page.size ≤ Page.capacity) ∧ h.startDue = false) :
    (∀ page ∈ h'.pages, page.size ≤ Page.capacity) ∧ h'.startDue = false := by
  induction hm with
  | refl _ => exact hs
  | head hmove _ ih =>
      refine ih ?_
      obtain ⟨hsizes, hstart⟩ := hs
      cases hmove with
      | free hp _ => exact ⟨fun q hq => hsizes q (hp ▸ List.mem_cons_of_mem _ hq), hstart⟩
      | @trim page rest hp _ =>
          refine ⟨fun q hq => ?_, hstart⟩
          rcases List.mem_cons.1 hq with rfl | hq
          · exact Nat.le_trans (size_trimmed _ page) (hsizes page (hp ▸ List.mem_cons_self ..))
          · exact hsizes q (hp ▸ List.mem_cons_of_mem _ hq)
      | hand hp _ _ _ => exact ⟨fun q hq => hsizes q (hp ▸ List.mem_cons_of_mem _ hq), rfl⟩

namespace Shaped

theorem moves (hs : h.Shaped) (hm : Moves leaps h cs h') (hphase : h'.PhaseFits) : h'.Shaped :=
  ⟨(hm.sizes ⟨hs.sizes, hs.startDue⟩).1, (hm.sizes ⟨hs.sizes, hs.startDue⟩).2, hphase⟩

theorem drain (hs : h.Shaped) : h.drain.value.Shaped := hs.moves h.drain_moves hs.phase.drain

theorem leap (hs : h.Shaped) : h.leap.value.1.Shaped := hs.moves h.leap_moves hs.phase.leap

theorem lose (hs : h.Shaped) (hpages : h.pages = page :: rest) : (h.lose page rest).Shaped :=
  ⟨fun q hq => hs.sizes q (hpages ▸ List.mem_cons_of_mem _ hq), hs.startDue, hs.phase.lose⟩

theorem hold (hs : h.Shaped) (hsize : page.size ≤ Page.capacity) : (h.hold page).Shaped := by
  refine ⟨fun q hq => ?_, hs.startDue, hs.phase⟩
  rcases Backlog.mem_insert.1 hq with rfl | hq
  · exact hsize
  · exact hs.sizes q hq

/-- Data that goes through at once leaves nothing out of shape. -/
theorem taken {segment : Segment} {accepted : List Cell} (hs : h.Shaped)
    (htaken : h.Taken segment accepted h' cs) : h'.Shaped := by
  cases htaken with
  | nothing _ _ _ => exact ⟨hs.sizes, hs.startDue, hs.phase⟩
  | begun _ _ _ => exact ⟨hs.sizes, rfl, fun _ => by simp⟩
  | passed hn _ _ _ _ =>
      refine ⟨hs.sizes, rfl, fun hopen => (hs.phase hopen).trans ?_⟩
      simp [hn]

end Shaped

/-! ## While portions are stored -/

/-- Whatever the limit and whoever gave pages up: pages lie apart, and the portions that are yet to be
stored fit between them. -/
structure Stowing (base start : SeqNum) (payload : List UInt8) (h : HalfStream)
    (ps : List Portion) : Prop where
  /-- The half-stream is placed. -/
  placed : Placed base h
  /-- It is in shape. -/
  shaped : h.Shaped
  /-- The portions lie between its pages. -/
  laid : Laid base start payload h.pages ps
  /-- Each ends with the piece that it comes from or before, and fits on a page. -/
  fits : ∀ p ∈ ps, p.span.stop ≤ p.pieceStop ∧ p.span.size ≤ Page.capacity

namespace Stowing

theorem moves (hs : Stowing base start payload h ps) (hm : Moves leaps h cs h') (hsh : h'.Shaped) :
    Stowing base start payload h' ps where
  placed := hs.placed.moves hm
  shaped := hsh
  laid := ⟨hs.laid.bounds, hs.laid.order, fun p hp => hm.clear hs.placed (hs.laid.clear p hp),
    hs.laid.whole⟩
  fits := hs.fits

theorem leap (hs : Stowing base start payload h ps) : Stowing base start payload h.leap.value.1 ps :=
  hs.moves h.leap_moves hs.shaped.leap

theorem lose (hs : Stowing base start payload h ps) (hpages : h.pages = page :: rest) :
    Stowing base start payload (h.lose page rest) ps where
  placed := hs.placed.lose hpages
  shaped := hs.shaped.lose hpages
  laid := hs.laid.subset (hpages ▸ List.subset_cons_self ..)
  fits := hs.fits

/-- The first portion gets its page. -/
theorem hold (hs : Stowing base start payload h (p :: ps))
    (hw : base.offset start + payload.length ≤ SeqNum.reach) :
    Stowing base start payload (h.hold (p.page start payload)) ps := by
  have hmem : p ∈ p :: ps := List.mem_cons_self ..
  have hbounds := hs.laid.bounds p hmem
  have hsize := @Portion.size_page start payload p hbounds.2
  obtain ⟨hlo, hhi⟩ := p.lo_hi_page hw hbounds
  refine ⟨hs.placed.hold ?_ ?_ ?_, hs.shaped.hold ?_, hs.laid.insert hw,
    fun q hq => hs.fits q (List.mem_cons_of_mem _ hq)⟩
  · rw [hsize, Span.size]
    omega
  · rw [hhi, Portion.hi]
    omega
  · rw [hlo, hhi]
    exact hs.laid.clear p hmem
  · rw [hsize]
    exact (hs.fits p hmem).2

/-- What is ahead is stored by a half-stream whose pages lie apart. -/
theorem of_ahead (ht : Tidy base h) (hs : h.Shaped)
    (hw : base.offset start + payload.length ≤ SeqNum.reach) {pieces : List Span}
    (hfit : Fit.of h.next h.pages start payload.length = .ahead pieces) :
    Stowing base start payload h (pieces.flatMap Span.portions) where
  placed := ht.placed
  shaped := hs
  laid := (Calm.of_ahead ht hw hfit).laid
  fits p hp := by
    obtain ⟨piece, -, hp⟩ := List.mem_flatMap.1 hp
    obtain ⟨-, -, hstop, -, hsize⟩ := Span.mem_portions hp
    exact ⟨hstop, hsize⟩

end Stowing

/-- What the steps of storing keep, whoever gives pages up and whether or not there is one in the end: a
property `K` of the half-stream and of the portions that are yet to be stored.  Afterwards `J` holds. -/
structure KeptAnywhere (start : SeqNum) (payload : List UInt8) (K : HalfStream → List Portion → Prop)
    (J : HalfStream → Prop) : Prop where
  /-- A leap keeps it. -/
  leap : ∀ {h ps}, K h ps → K h.leap.value.1 ps
  /-- So does giving the first page up. -/
  lose : ∀ {h page rest ps}, h.pages = page :: rest → K h ps → K (h.lose page rest) ps
  /-- So does putting the first portion on a page. -/
  hold : ∀ {h p ps}, K h (p :: ps) → K (h.hold (p.page start payload)) ps
  /-- When there is no page, the rest of a piece is counted as given up. -/
  drop : ∀ {h p ps}, K h (p :: ps) → J (h.drop (p.pieceStop - p.span.start)).value
  /-- Everything is stored. -/
  done : ∀ {h}, K h [] → J h

/-- **Storing leaves pages apart**, under any limit. -/
theorem Stowing.kept (hw : base.offset start + payload.length ≤ SeqNum.reach) :
    KeptAnywhere start payload (Stowing base start payload) fun h => Placed base h ∧ h.Shaped where
  leap hs := hs.leap
  lose hpages hs := hs.lose hpages
  hold hs := hs.hold hw
  drop hs := ⟨⟨hs.placed.spread, hs.placed.pos_le⟩, ⟨hs.shaped.sizes, hs.shaped.startDue, hs.shaped.phase⟩⟩
  done hs := ⟨hs.placed, hs.shaped⟩

/-! ## Between calls -/

/-- The form of a half-stream between calls, told by offsets in a window. -/
structure Formed (base : SeqNum) (h : HalfStream) : Prop where
  /-- The half-stream is tidy. -/
  tidy : Tidy base h
  /-- It is in shape. -/
  shaped : h.Shaped
  /-- Unless a skip mark is due, every page begins beyond the next byte wanted. -/
  cleared : h.skipDue = false → h.Cleared base

theorem cleared_of_nil (hp : h.pages = []) : h.Cleared base := by
  intro _ page hpage
  rw [hp] at hpage
  cases hpage

namespace Formed

theorem new (d : Direction) : Formed base (HalfStream.new d) where
  tidy := tidy_new d
  shaped := ⟨(fun _ hp => nomatch hp), rfl, fun _ => by simp [HalfStream.new]⟩
  cleared _ := cleared_of_nil rfl

/-- **Draining makes a half-stream formed.** -/
theorem of_drain (hp : Placed base h) (hs : h.Shaped) :
    Formed base h.drain.value ∧ h.drain.value.Cleared base := by
  obtain ⟨htidy, hfront⟩ := hp.drain
  have hcleared : h.drain.value.Cleared base := by
    intro hn
    refine hfront fun hnone => hn ?_
    rw [drain_of_none hnone]
    exact hnone
  exact ⟨⟨htidy, hs.drain, fun _ => hcleared⟩, hcleared⟩

/-- **A leap keeps a half-stream formed**, since it ends in a drain. -/
theorem leap (hf : Formed base h) : Formed base h.leap.value.1 ∧
    (h.Cleared base → h.leap.value.1.Cleared base) := by
  cases hp : h.pages with
  | nil =>
      rw [(leap_of_nil hp).1]
      exact ⟨hf, id⟩
  | cons page rest =>
      have hb := hf.tidy.not_behind (hp ▸ List.mem_cons_self ..)
      have hmove : Moves true h _ (h.turn h.phase.begun (h.trimmed page) rest).1 :=
        .single (.hand hp hb (Phase.isClosed_begun _) nofun)
      obtain ⟨hformed, hcleared⟩ := of_drain (hf.tidy.moves hmove).placed
        (hf.shaped.moves hmove (phaseFits_turn h _ rest))
      rw [(leap_of_front hp hb).1]
      exact ⟨hformed, fun _ => hcleared⟩

/-- **Giving the first page up keeps a half-stream formed**: the page after it may begin with the next
byte wanted from then on, but then a skip mark is due. -/
theorem lose (hf : Formed base h) (hpages : h.pages = page :: rest) :
    Formed base (h.lose page rest) where
  tidy := hf.tidy.lose hpages
  shaped := hf.shaped.lose hpages
  cleared hskip hn := by
    simp only [HalfStream.lose, Bool.or_eq_false_iff, Option.isSome_eq_false_iff,
      Option.isNone_iff_eq_none] at hskip
    simp [HalfStream.lose, hskip.2] at hn

/-- The end of the stream comes after moves that leave no page. -/
theorem ended (hf : Formed base h) (hm : Moves leaps h cs h') (hp : h'.pages = []) :
    Formed base { h' with phase := .closed } := by
  obtain ⟨hsizes, hstart⟩ := hm.sizes ⟨hf.shaped.sizes, hf.shaped.startDue⟩
  have ht := hf.tidy.moves hm
  exact ⟨⟨ht.spread, ht.pos_le⟩, ⟨hsizes, hstart, nofun⟩, fun _ => cleared_of_nil hp⟩

/-- What is ahead is stored by a half-stream that is formed, however often it has been counted. -/
theorem stowing (hf : Formed base h) {counters : Counters} {pieces : List Span}
    (hw : base.offset start + payload.length ≤ SeqNum.reach)
    (hfit : Fit.of h.next h.pages start payload.length = .ahead pieces) :
    Stowing base start payload { h with counters } (pieces.flatMap Span.portions) :=
  Stowing.of_ahead (h := { h with counters }) ⟨hf.tidy.spread, hf.tidy.pos_le⟩
    ⟨hf.shaped.sizes, hf.shaped.startDue, hf.shaped.phase⟩ hw hfit

/-- A number before a page in the window precedes that of the page. -/
theorem precedes (hf : Formed base h) {s : SeqNum} (hpage : page ∈ h.pages)
    (hlt : base.offset s < page.lo base) : s.precedes page.seq = true := by
  obtain ⟨-, -, hhi⟩ := hf.tidy.spread.mem hpage
  have hle := page.lo_le_hi base
  rw [Page.lo] at hlt hle
  exact (SeqNum.precedes_iff_offset (by omega) (by omega)).2 hlt

/-- What offsets say about a half-stream, its sequence numbers say. -/
theorem wellFormed (hf : Formed base h) (hclosed : h.isClosed = true → h.pages = []) :
    h.WellFormed := by
  have hreach : SeqNum.reach = 0x7fffffff := rfl
  have hmem := fun q (hq : q ∈ h.pages) => hf.tidy.spread.mem hq
  refine {
    ascending := hf.tidy.spread.pairwise.imp_of_mem fun {p q} hp hq hle => ?_
    disjoint := hf.tidy.spread.pairwise.imp_of_mem fun {p q} hp hq hle => ?_
    sizes := fun page hp => ⟨(hmem page hp).2.1, hf.shaped.sizes page hp⟩
    begun := hf.shaped.phase
    closed := hclosed
    startDue := hf.shaped.startDue
    ahead := fun next hn => ?_ }
  · have hlt : p.lo base < p.hi base := Nat.lt_add_of_pos_right (hmem p hp).2.1
    exact hf.precedes hq (Nat.lt_of_lt_of_le hlt hle)
  · intro i hi j hj heq
    have hphi := (hmem p hp).2.2
    have hqhi := (hmem q hq).2.2
    simp only [Page.hi, Page.lo] at hphi hqhi hle
    have hlo := SeqNum.offset_advance base p.seq (n := i) (by omega)
    have hlo' := SeqNum.offset_advance base q.seq (n := j) (by omega)
    rw [heq] at hlo
    omega
  · have hbegun : h.next ≠ none := hn ▸ Option.some_ne_none next
    cases hskip : h.skipDue with
    | false =>
        refine Or.inl fun page hp => hf.precedes hp ?_
        rw [← pos_some hn]
        exact hf.cleared hskip hbegun page hp
    | true =>
        cases hp : h.pages with
        | nil => exact Or.inl fun _ hq => absurd hq List.not_mem_nil
        | cons page rest =>
            have hs := hf.tidy.spread
            rw [hp, pos_some hn] at hs
            obtain ⟨hlo, hsize, hhi, hrest⟩ := hs
            -- whatever comes after the first page comes after its first byte
            have hlater : ∀ q ∈ rest, next.precedes q.seq = true := by
              intro q hq
              refine hf.precedes (hp ▸ List.mem_cons_of_mem _ hq) ?_
              have := (hrest.mem hq).1
              rw [Page.hi] at this
              omega
            by_cases heq : base.offset next = page.lo base
            · exact Or.inr ⟨rfl, page, rest, rfl, (SeqNum.offset_inj.1 heq).symm, hlater⟩
            · refine Or.inl fun q hq => ?_
              rcases List.mem_cons.1 hq with rfl | hq
              · exact hf.precedes (hp ▸ List.mem_cons_self ..) (by omega)
              · exact hlater q hq

end Formed
end HalfStream

/-! ## The work on a segment -/

open HalfStream (Formed KeptAnywhere Placed Stowing)

variable {ceiling limit k : Nat} {d : Direction} {base : SeqNum}

namespace Work

variable {w : Work} {locked : List FlowId} {start : SeqNum} {payload : List UInt8}
  {ps : List Portion} {K : HalfStream → List Portion → Prop} {J : HalfStream → Prop}

/-- **What its steps keep, storing keeps**, whatever the arena says. -/
theorem store_keep (hK : KeptAnywhere start payload K J) (hb : w.arena.Blank)
    (h : K (w.connection.half d) ps) :
    J ((store limit locked d start payload ps w).connection.half d) := by
  induction ps generalizing w with
  | nil => exact hK.done h
  | cons p rest ih =>
      have hrelieved : K ((w.relieve limit d).connection.half d) (p :: rest) :=
        Connection.relieve_keep (J := fun h => K h (p :: rest)) (fun _ h => hK.leap h) limit d d h
      have hgiven : (w.relieve limit d).arena.Blank := hb.giveAll _
      have hasked := obtain_keep (J := fun h => K h (p :: rest)) (fun hpages h => hK.lose hpages h)
        (w.relieve limit d) locked d (start.advance p.span.start) hrelieved
      obtain ⟨hblank, hpage⟩ := obtain_blank hgiven locked d (start.advance p.span.start)
      rw [store]
      generalize (w.relieve limit d).obtain locked d (start.advance p.span.start) = out at *
      obtain ⟨w', page?⟩ := out
      cases page? with
      | none =>
          simp only [half_onHalf]
          exact hK.drop hasked
      | some page =>
          obtain rfl := hpage page rfl
          refine ih (hblank.giveAll _) ?_
          rw [half_onHalf]
          exact hK.hold hasked

/-- Unless data is ahead, all of it goes through at once, whatever the arena says. -/
theorem placed_taken (hc : w.connection.Consistent) (hopen : (w.connection.half d).isClosed = false)
    (limit : Nat) (locked : List FlowId) (segment : Segment) :
    (∃ pieces counters, w.fit d segment = .ahead pieces ∧
        (w.arrived d segment).connection.half d = { w.connection.half d with counters } ∧
        counters.discarded = (w.connection.half d).counters.discarded ∧
        (segment.flags.isSyn = true → (w.connection.half d).next ≠ none)) ∨
      ∃ accepted cs, (w.connection.half d).Taken segment accepted
        ((w.placed limit locked d segment).connection.half d) cs := by
  -- nothing is asked of the arena, so that it may as well be another one
  let w' : Work := { w with entries := [], arena := .ofCeiling 1 }
  have hs : w'.Sound 1 :=
    ⟨Arena.sound_ofCeiling 1, List.forall_mem_nil _, hc.sane Nat.one_pos⟩
  rcases placed_cases hs hopen limit locked segment with
    ⟨pieces, counters, hfit, hhalf, hcounters, hsyn, -⟩ | ⟨new, -, hahead, htaken⟩
  · exact Or.inl ⟨pieces, counters, hfit, hhalf, hcounters, hsyn⟩
  · have hsame : (w'.placed limit locked d segment).connection =
        (w.placed limit locked d segment).connection := by
      have hfit : w'.fit d segment = w.fit d segment := rfl
      rw [placed, placed, hfit]
      cases hf : w.fit d segment with
      | empty | behind | covered | inOrder _ => rfl
      | ahead pieces => exact absurd (hfit.trans hf) (hahead pieces)
    rw [hsame] at htaken
    exact Or.inr ⟨_, _, htaken⟩

end Work

namespace Arrival

variable {a : Arrival}

/-- In the other direction the work on a segment keeps a half-stream formed. -/
theorem formed_of_ne (hd : a.direction ≠ d) (hf : Formed base (a.connection.half d)) :
    Formed base (a.work.connection.half d) := by
  cases hclosed : a.half.isClosed with
  | true =>
      rw [(work_of_closed hclosed).1]
      exact hf
  | false =>
      obtain rfl := Connection.ne_iff_eq_opposite.1 hd
      rw [work_of_open hclosed]
      exact Work.half_opposite_accept (fun _ hf => hf.leap.1) hf

/-- **What the place that a segment's data finds keeps**, whatever the arena says: `J` must hold once data
went through at once or is stored, where `K` is kept meanwhile. -/
theorem placed_keep {K : HalfStream → List Portion → Prop} {J : HalfStream → Prop}
    (hK : a.segment.payload ≠ [] → KeptAnywhere a.segment.payloadSeq a.segment.payload K J)
    (hb : a.state.arena.Blank) (hc : a.connection.Consistent) (hopen : a.half.isClosed = false)
    (hahead : ∀ {pieces : List Span} {counters : Counters}, a.segment.payload ≠ [] →
      Fit.of a.half.next a.half.pages a.segment.payloadSeq a.segment.payload.length = .ahead pieces →
      counters.discarded = a.half.counters.discarded →
      (a.segment.flags.isSyn = true → a.half.next ≠ none) →
      K { a.half with counters } (pieces.flatMap Span.portions))
    (htaken : ∀ {accepted h' cs}, a.half.Taken a.segment accepted h' cs → J h') :
    J ((a.before.placed a.config.pagesPerConnection a.locked a.direction
      a.segment).connection.half a.direction) := by
  rcases Work.placed_taken (w := a.before) hc hopen a.config.pagesPerConnection a.locked a.segment with
    ⟨pieces, counters, hfit, hhalf, hcounters, hsyn⟩ | ⟨accepted, cs, hdata⟩
  · have hfit' := hfit
    rw [Work.fit_eq, hhalf] at hfit'
    have hne : a.segment.payload ≠ [] := List.ne_nil_of_length_pos (Fit.of_ahead hfit').1
    simp only [Work.placed, hfit]
    refine Work.store_keep (hK hne) (hb.giveAll _) ?_
    rw [hhalf]
    exact hahead hne hfit' hcounters hsyn
  · exact htaken hdata

/-- Once its data has found its place, the half-stream makes moves, and ends if the segment ends it. -/
theorem work_settles (hopen : a.half.isClosed = false) :
    ∃ h cs, HalfStream.Moves true ((a.before.placed a.config.pagesPerConnection a.locked a.direction
        a.segment).connection.half a.direction) cs h ∧
      (a.work.connection.half a.direction = h ∨
        h.pages = [] ∧ a.work.connection.half a.direction = { h with phase := .closed }) := by
  obtain ⟨cs, hmoves⟩ : ∃ cs, HalfStream.Moves true ((a.before.placed a.config.pagesPerConnection a.locked
      a.direction a.segment).connection.half a.direction) cs ((a.before.settled a.config.pagesPerConnection
        a.locked a.direction a.segment).connection.half a.direction) := by
    refine Connection.relieve_keep (J := fun h => ∃ cs, HalfStream.Moves true _ cs h) ?_ _ _ _ ?_
    · rintro h ⟨cs, hm⟩
      exact ⟨_, hm.trans h.leap_moves⟩
    · rw [Work.half_onHalf]
      exact ⟨_, (HalfStream.drain_moves _).leaping⟩
  rw [work_of_open hopen, Work.accept_eq]
  split
  · obtain ⟨h', hm, hp, hv⟩ := ((a.before.settled a.config.pagesPerConnection a.locked a.direction
      a.segment).connection.half a.direction).close_moves
    rw [Work.half_onHalf]
    exact ⟨h', _, hmoves.trans hm, Or.inr ⟨hp, hv⟩⟩
  · exact ⟨_, cs, hmoves, Or.inl rfl⟩

/-- Finding a place for the data of a segment leaves pages apart. -/
theorem placed_shaped (hb : a.state.arena.Blank) (hc : a.connection.Consistent)
    (hopen : a.half.isClosed = false) (hw : a.InWindow base) (hf : Formed base a.half) :
    let w := a.before.placed a.config.pagesPerConnection a.locked a.direction a.segment
    Placed base (w.connection.half a.direction) ∧ (w.connection.half a.direction).Shaped := by
  have hbegins : a.half.next = none ∧ a.segment.flags.isSyn = true → a.BeginsStream :=
    fun hb => ⟨hopen, hb⟩
  refine placed_keep (J := fun h => Placed base h ∧ h.Shaped)
    (fun hne => Stowing.kept (hw (Or.inr hne))) hb hc hopen ?_ ?_
  · intro pieces counters hne hfit _ _
    exact hf.stowing (hw (Or.inr hne)) hfit
  · exact fun htaken =>
      ⟨htaken.placed hf.tidy.placed fun hd => hw (hd.imp_left hbegins), hf.shaped.taken htaken⟩

/-- **The half-stream that a segment arrives at is formed afterwards**, and every page begins beyond the
next byte wanted, whatever the arena says. -/
theorem work_formed (hb : a.state.arena.Blank) (hc : a.connection.Consistent) (hw : a.InWindow base)
    (hf : Formed base a.half) :
    Formed base (a.work.connection.half a.direction) ∧
      (a.work.connection.half a.direction).Cleared base := by
  cases hclosed : a.half.isClosed with
  | true =>
      rw [(work_of_closed hclosed).1]
      exact ⟨hf, HalfStream.cleared_of_nil (hc.closed a.direction hclosed)⟩
  | false =>
      obtain ⟨hplaced, hshaped⟩ := placed_shaped hb hc hclosed hw hf
      -- the drain makes it formed, and relief keeps it so
      have hsettled : Formed base ((a.before.settled a.config.pagesPerConnection a.locked a.direction
            a.segment).connection.half a.direction) ∧
          ((a.before.settled a.config.pagesPerConnection a.locked a.direction
            a.segment).connection.half a.direction).Cleared base := by
        refine Connection.relieve_keep (J := fun h => Formed base h ∧ h.Cleared base)
          (fun h hf => ⟨hf.1.leap.1, hf.1.leap.2 hf.2⟩) _ _ _ ?_
        rw [Work.half_onHalf]
        exact Formed.of_drain hplaced hshaped
      rw [work_of_open hclosed, Work.accept_eq]
      split
      · obtain ⟨h', hm, hp, hv⟩ := ((a.before.settled a.config.pagesPerConnection a.locked a.direction
          a.segment).connection.half a.direction).close_moves
        rw [Work.half_onHalf, hv]
        exact ⟨hsettled.1.ended hm hp, HalfStream.cleared_of_nil hp⟩
      · exact hsettled

end Arrival

namespace Reassembly

/-- **The form of half-streams.** Whatever calls are made, by however many reassemblers and with
whatever settings: as long as the segments of one direction of a stream lie in a window, its half-stream
has the form that it should, in every state.  When a segment has been worked in there, every page begins
beyond the next byte wanted, so if the first page begins with it, that is because others made the
half-stream give up the page before. -/
theorem halves_wellFormed (calls : List Call)
    (hwindow : ∀ a ∈ ((fresh ceiling).history calls).arrivalsAt k d, a.InWindow base) :
    (∀ c ∈ ((fresh ceiling).history calls).state.connections, c.stream = k →
        (c.half d).WellFormed) ∧
      ∀ a ∈ ((fresh ceiling).history calls).arrivalsAt k d, ∀ next,
        (a.work.connection.half d).next = some next →
        ∀ page ∈ (a.work.connection.half d).pages, next.precedes page.seq = true := by
  have hup := @Upheld.history ceiling k
    (fun c as _ => Formed base (c.half d) ∧ ∀ a ∈ as,
      Formed base (a.work.connection.half d) ∧ (a.work.connection.half d).Cleared base)
    d calls ?_ ?_ ?_ ?_
  · refine ⟨fun c hc hk => ?_, fun a ha next hn page hpage => ?_⟩
    · exact (hup.live c hc hk).1.wellFormed ((hup.sound.sane c hc).closed d)
    · rcases hup.exists_or_fresh with ⟨c, -, hafter⟩ | ⟨hnone, -⟩
      · obtain ⟨hf, hcleared⟩ := hafter a ha
        have hlt := hcleared (hn ▸ Option.some_ne_none next) page hpage
        rw [HalfStream.pos_some hn] at hlt
        exact hf.precedes hpage hlt
      · rw [hnone] at ha
        cases ha
  · intro flow opener now
    rw [Connection.half_new]
    exact ⟨.new d, fun _ ha => nomatch ha⟩
  · rintro a ha hs hk as ds ⟨hf, hafter⟩
    by_cases hd : a.direction = d
    · subst hd
      have hat : a ∈ ((fresh ceiling).history calls).arrivalsAt k a.direction :=
        List.mem_filter.2 ⟨ha, decide_eq_true ⟨hk, rfl⟩⟩
      have hworked := Arrival.work_formed hs.arena.blank hs.connection.consistent (hwindow a hat) hf
      exact ⟨hworked.1, Upheld.forall_mem_arrived hafter fun _ => hworked⟩
    · rw [if_neg hd, List.append_nil]
      exact ⟨Arrival.formed_of_ne hd hf, hafter⟩
  · refine fun _ _ _ _ => Or.inl ?_
    rintro x x' as ds hsheds ⟨hf, hafter⟩
    exact ⟨hsheds.keep (fun hf hp => hf.lose hp) hf, hafter⟩
  · rintro c as ds hs ⟨hf, hafter⟩
    obtain ⟨-, -, hhalf⟩ := Connection.close_moves hs
    obtain ⟨h', hm, hp, hv⟩ := hhalf d
    refine ⟨?_, hafter⟩
    rw [hv]
    exact hf.ended hm hp

/-- Calls that make a connection give up a page to another one, so that its next page begins with the next
byte wanted. -/
def callsThatEvict : List Call :=
  [.ofSegment 4 9 .syn [97], .ofSegment 4 12 ⟨0⟩ [99], .ofSegment 4 13 ⟨0⟩ [100],
    { fails := fun _ => false
      now := 0
      action := .receive { pagesPerConnection := 3 } [] ⟨.v4 3, .v4 4⟩
        { srcPort := 1, dstPort := 2, seq := .ofNat 12, flags := ⟨0⟩, payload := [98] } }]

theorem halves_wellFormed_after_eviction :
    (∀ a ∈ ((fresh 2).history callsThatEvict).arrivalsAt 0 .forward, a.InWindow (.ofNat 10)) ∧
    ((fresh 2).history callsThatEvict).state.connections.map
        (fun c => (c.stream, c.forward.next, c.forward.skipDue, c.forward.pages)) =
      [(0, some (.ofNat 13), true, [⟨.ofNat 13, [100]⟩]), (1, none, false, [⟨.ofNat 12, [98]⟩])] ∧
    ∀ c ∈ ((fresh 2).history callsThatEvict).state.connections, c.stream = 0 →
      (c.half .forward).WellFormed :=
  ⟨by decide, by decide, (halves_wellFormed callsThatEvict
    (by decide : ∀ a ∈ ((fresh 2).history callsThatEvict).arrivalsAt 0 .forward,
      a.InWindow (.ofNat 10))).1⟩

end Reassembly

end TcpStreams
