import TcpStreams.Proofs.Halves
import TcpStreams.Proofs.Placing

/-!
# Storing under pressure

While data is stored page after page, the connection may leap to keep below its limit, and the arena
may run dry, so that the half-stream gives up its own pages.  That moves the position, which the
pieces were cut for.  There are two regimes:

* As long as the half-stream gave no page up it is *calm*: what is yet to be stored lies between its
  pages and from the position on.  A leap does not pass any of it, since a page that was just stored
  comes before it.
* Once the half-stream gave a page up, every further page costs it one, so the number of pages does
  not change and there are no leaps any more.  It is *loose*: pages and portions lie on either side
  of the position, and what lies behind it is lost to the next drain.

A request is refused only while the half-stream is calm and holds nothing.

* `HalfStream.Calm.leap`, `HalfStream.Loose.lose`: what one step does in either regime.
* `Work.reaches_store`: what every step keeps, holds once all is stored.
-/

namespace TcpStreams

open Backlog (Clear Covers)

variable {base start : SeqNum} {payload : List UInt8}

namespace Portion

/-- The offset of the first byte of a portion. -/
def lo (base start : SeqNum) (p : Portion) : Nat := base.offset start + p.span.start

/-- The offset after the last byte of a portion. -/
def hi (base start : SeqNum) (p : Portion) : Nat := base.offset start + p.span.stop

/-- The page that holds a portion. -/
def page (start : SeqNum) (payload : List UInt8) (p : Portion) : Page :=
  ⟨start.advance p.span.start, p.span.slice payload⟩

variable {p : Portion}

theorem size_page (hp : p.span.stop ≤ payload.length) : (p.page start payload).size = p.span.size :=
  Span.length_slice hp

/-- The page of a portion lies where the portion does. -/
theorem lo_hi_page (hw : base.offset start + payload.length ≤ SeqNum.reach)
    (hp : p.span.start < p.span.stop ∧ p.span.stop ≤ payload.length) :
    (p.page start payload).lo base = p.lo base start ∧
      (p.page start payload).hi base = p.hi base start := by
  have hreach : SeqNum.reach = 0x7fffffff := rfl
  have hlo : (p.page start payload).lo base = p.lo base start :=
    SeqNum.offset_advance base start (by omega)
  refine ⟨hlo, ?_⟩
  rw [Page.hi, hlo, size_page hp.2, lo, hi, Span.size]
  omega

/-- A page between two pieces lies between their portions. -/
theorem exists_between {pages : List Page} {piece piece' : Span} {p' : Portion}
    (hbetween : ∃ q ∈ pages, base.offset start + piece.stop ≤ q.lo base ∧
      q.hi base ≤ base.offset start + piece'.start)
    (hp : p ∈ piece.portions) (hp' : p' ∈ piece'.portions) :
    ∃ q ∈ pages, p.hi base start ≤ q.lo base ∧ q.hi base ≤ p'.lo base start := by
  obtain ⟨q, hq, hlo, hhi⟩ := hbetween
  obtain ⟨-, -, hstop, hpstop, -⟩ := Span.mem_portions hp
  obtain ⟨hstart, -, -, -, -⟩ := Span.mem_portions hp'
  refine ⟨q, hq, ?_, ?_⟩
  · rw [hi]
    omega
  · rw [lo]
    omega

end Portion

namespace HalfStream

/-- Portions that are yet to be stored lie one after the other, in the payload, and between the
pages. -/
structure Laid (base start : SeqNum) (payload : List UInt8) (pages : List Page)
    (ps : List Portion) : Prop where
  /-- The portions lie in the payload. -/
  bounds : ∀ p ∈ ps, p.span.start < p.span.stop ∧ p.span.stop ≤ payload.length
  /-- They lie one after the other. -/
  order : ps.Pairwise fun p q => p.hi base start ≤ q.lo base start
  /-- No page reaches into them. -/
  clear : ∀ p ∈ ps, Clear base pages (p.lo base start) (p.hi base start)
  /-- What is left of one piece ends where the piece ends. -/
  whole : ∀ {p : Portion} {rest : List Portion}, (p :: rest) <:+ ps →
    (∀ q ∈ rest, q.pieceStop = p.pieceStop) →
    p.span.size + (rest.map fun q => q.span.size).sum = p.pieceStop - p.span.start

/-- Portions are yet to be stored from the position on, and what is stored already lies between any
two pieces that they come from. -/
structure Calm (base start : SeqNum) (payload : List UInt8) (h : HalfStream) (ps : List Portion) :
    Prop where
  /-- The half-stream is tidy. -/
  tidy : Tidy base h
  /-- The portions lie between its pages. -/
  laid : Laid base start payload h.pages ps
  /-- They lie from the position on. -/
  pos_le : ∀ p ∈ ps, h.pos base ≤ p.lo base start
  /-- A page lies between any two pieces. -/
  apart : ps.Pairwise fun p q => p.pieceStop = q.pieceStop ∨
    ∃ between ∈ h.pages, p.hi base start ≤ between.lo base ∧ between.hi base ≤ q.lo base start

/-- Pages and portions lie on either side of the position. -/
structure Loose (base start : SeqNum) (payload : List UInt8) (h : HalfStream) (ps : List Portion) :
    Prop where
  /-- The half-stream is placed. -/
  placed : Placed base h
  /-- The portions lie between its pages. -/
  laid : Laid base start payload h.pages ps
  /-- No page lies across the position. -/
  pages : ∀ page ∈ h.pages, page.hi base ≤ h.pos base ∨ h.pos base ≤ page.lo base
  /-- Nor does a portion. -/
  portions : ∀ p ∈ ps, p.hi base start ≤ h.pos base ∨ h.pos base ≤ p.lo base start

variable {h h' : HalfStream} {pages : List Page} {p : Portion} {ps : List Portion}

namespace Laid

theorem lo_lt_hi (hl : Laid base start payload pages ps) (hp : p ∈ ps) :
    p.lo base start < p.hi base start := Nat.add_lt_add_left (hl.bounds p hp).1 _

/-- The first portion gets its page. -/
theorem insert (hl : Laid base start payload pages (p :: ps))
    (hw : base.offset start + payload.length ≤ SeqNum.reach) :
    Laid base start payload (Backlog.insert (p.page start payload) pages) ps := by
  obtain ⟨hfirst, horder⟩ := List.pairwise_cons.1 hl.order
  obtain ⟨-, hhi⟩ := p.lo_hi_page hw (hl.bounds p (List.mem_cons_self ..))
  refine ⟨fun q hq => hl.bounds q (List.mem_cons_of_mem _ hq), horder, fun q hq => ?_,
    fun hrest => hl.whole (hrest.trans (List.suffix_cons ..))⟩
  intro page hpage
  rcases Backlog.mem_insert.1 hpage with rfl | hpage
  · rw [hhi]
    exact Or.inl (hfirst q hq)
  · exact hl.clear q (List.mem_cons_of_mem _ hq) page hpage

theorem subset {pages' : List Page} (hl : Laid base start payload pages ps) (hsub : pages' ⊆ pages) :
    Laid base start payload pages' ps :=
  ⟨hl.bounds, hl.order, fun p hp => (hl.clear p hp).subset hsub, hl.whole⟩

end Laid

/-! ## Calm half-streams -/

namespace Calm

/-- A calm half-stream is loose. -/
theorem loose (hc : Calm base start payload h ps) : Loose base start payload h ps where
  placed := hc.tidy.placed
  laid := hc.laid
  pages _ hp := Or.inr (hc.tidy.spread.mem hp).1
  portions p hp := Or.inr (hc.pos_le p hp)

/-- What is ahead is stored by a calm half-stream. -/
theorem of_ahead (ht : Tidy base h) (hw : base.offset start + payload.length ≤ SeqNum.reach)
    {pieces : List Span} (hfit : Fit.of h.next h.pages start payload.length = .ahead pieces) :
    Calm base start payload h (pieces.flatMap Span.portions) := by
  obtain ⟨-, rfl, hnext⟩ := Fit.of_ahead hfit
  have hs : base.offset start ≤ SeqNum.reach := Nat.le_trans (Nat.le_add_right _ _) hw
  have hportion : ∀ p ∈ (Backlog.gaps start payload.length 0 h.pages).flatMap Span.portions,
      ∃ piece ∈ Backlog.gaps start payload.length 0 h.pages, p ∈ piece.portions ∧
        piece.start ≤ p.span.start ∧ p.span.start < p.span.stop ∧ p.span.stop ≤ piece.stop := by
    intro p hp
    obtain ⟨piece, hpiece, hp⟩ := List.mem_flatMap.1 hp
    obtain ⟨h₁, h₂, h₃, h₄, -⟩ := Span.mem_portions hp
    exact ⟨piece, hpiece, hp, h₁, h₂, h₄ ▸ h₃⟩
  have hpieces := @Backlog.gaps_pairwise base start payload.length 0 h.pages ht.spread.apart hs
  refine ⟨ht, ⟨?_, ?_, ?_, ?_⟩, ?_, ?_⟩
  · intro p hp
    obtain ⟨piece, hpiece, -, -, hlt, hle⟩ := hportion p hp
    exact ⟨hlt, Nat.le_trans hle (Backlog.gaps_bounds hpiece).2.2⟩
  · refine List.pairwise_flatMap.2 ⟨?_, ?_⟩
    · intro piece _
      exact (Span.portions_pairwise piece).imp fun hle => Nat.add_le_add_left hle _
    · refine hpieces.imp ?_
      intro piece piece' hbetween p hp p' hp'
      obtain ⟨q, -, hlo, hhi⟩ := Portion.exists_between hbetween hp hp'
      exact Nat.le_trans hlo (Nat.le_trans (q.lo_le_hi base) hhi)
  · intro p hp
    obtain ⟨piece, hpiece, -, hlo, -, hhi⟩ := hportion p hp
    exact (Backlog.clear_of_mem_gaps ht.spread (Nat.le_refl _) hs hpiece).mono
      (Nat.add_le_add_left hlo _) (Nat.add_le_add_left hhi _)
  · refine fun hsuffix hsame => Span.sum_flatMap_portions ?_ hsuffix hsame
    refine hpieces.imp_of_mem ?_
    rintro piece piece' - hpiece' ⟨q, -, hlo, hhi⟩
    have hq := q.lo_le_hi base
    have hlt := Backlog.gaps_bounds hpiece'
    omega
  · intro p _
    cases hn : h.next with
    | none =>
        rw [pos_none hn]
        exact Nat.zero_le _
    | some next =>
        have hpos := ht.pos_le
        have hlead := hnext next hn
        rw [pos_some hn] at hpos ⊢
        rw [SeqNum.distance_eq_offset_sub hpos hs] at hlead
        rw [Portion.lo]
        omega
  · refine List.pairwise_flatMap.2 ⟨?_, ?_⟩
    · intro piece _
      refine List.pairwise_of_forall_mem_list fun p hp q hq => Or.inl ?_
      rw [(Span.mem_portions hp).2.2.2.1, (Span.mem_portions hq).2.2.2.1]
    · exact hpieces.imp fun hbetween p hp p' hp' =>
        Or.inr (Portion.exists_between hbetween hp hp')

/-- **A leap over pages before the portions keeps a half-stream calm.** -/
theorem leap (hc : Calm base start payload h ps) {page : Page} {rest : List Page}
    (hpages : h.pages = page :: rest) (hbefore : ∀ p ∈ ps, page.hi base ≤ p.lo base start) :
    Calm base start payload h.leap.value.1 ps ∧ h.leap.value.2 = true := by
  have hmem : page ∈ h.pages := hpages ▸ List.mem_cons_self ..
  have hb := hc.tidy.not_behind hmem
  have hmoves := h.leap_moves
  rw [(leap_of_front hpages hb).1, hc.tidy.trimmed_eq hmem] at hmoves ⊢
  generalize hturn : (h.turn h.phase.begun page rest).1 = h₁ at *
  have hhi := (hc.tidy.spread.mem hmem).2.2
  have hpos : h₁.pos base = page.hi base := hturn ▸ pos_turn hhi
  have hrest : h₁.pages = rest := by rw [← hturn, turn, handOn]
  have hlaid : Laid base start payload h₁.pages ps :=
    hc.laid.subset (by rw [hrest, hpages]; exact List.subset_cons_self ..)
  have htidy : Tidy base h₁ := by
    refine ⟨?_, hpos ▸ hhi⟩
    have hs := hc.tidy.spread
    rw [hpages] at hs
    rw [hpos, hrest]
    exact hs.2.2.2
  -- draining stops before the first byte of any portion
  have hstop := fun p (hp : p ∈ ps) => h₁.drain_moves.upTo htidy.placed (z := p.lo base start)
    (hpos ▸ hbefore p hp) ((hlaid.clear p hp).not_covers (hlaid.lo_lt_hi hp))
  refine ⟨⟨hc.tidy.moves hmoves, ⟨hlaid.bounds, hlaid.order, fun p hp =>
    h₁.drain_moves.clear htidy.placed (hlaid.clear p hp), hlaid.whole⟩, fun p hp => (hstop p hp).1, ?_⟩, rfl⟩
  refine hc.apart.imp_of_mem ?_
  rintro p q hp _ (heq | ⟨between, hmem', hlo, hhi'⟩)
  · exact Or.inl heq
  · have hp' := hbefore p hp
    have hlt := hlaid.lo_lt_hi hp
    refine Or.inr ⟨between, (hstop p hp).2.2 between ?_ (by omega), hlo, hhi'⟩
    rw [hpages] at hmem'
    rw [hrest]
    rcases List.mem_cons.1 hmem' with rfl | hmem'
    · have := between.lo_le_hi base
      omega
    · exact hmem'

/-- The first portion gets its page, which then lies before the others. -/
theorem hold (hc : Calm base start payload h (p :: ps))
    (hw : base.offset start + payload.length ≤ SeqNum.reach) :
    Calm base start payload (h.hold (p.page start payload)) ps ∧
      ∃ q ∈ (h.hold (p.page start payload)).pages, ∀ p ∈ ps, q.hi base ≤ p.lo base start := by
  have hmem : p ∈ p :: ps := List.mem_cons_self ..
  have hbounds := hc.laid.bounds p hmem
  obtain ⟨hlo, hhi⟩ := p.lo_hi_page hw hbounds
  have hlt := hc.laid.lo_lt_hi hmem
  have hsize : 0 < (p.page start payload).size := by
    rw [p.size_page hbounds.2, Span.size]
    omega
  have hle : p.hi base start ≤ SeqNum.reach := by
    rw [Portion.hi]
    omega
  have hin : p.page start payload ∈ (h.hold (p.page start payload)).pages :=
    Backlog.mem_insert.2 (Or.inl rfl)
  refine ⟨⟨?_, hc.laid.insert hw, fun q hq => hc.pos_le q (List.mem_cons_of_mem _ hq), ?_⟩, _, hin, ?_⟩
  · refine hc.tidy.hold ?_ hsize (hhi ▸ hle) ?_
    · rw [hlo]
      exact hc.pos_le p hmem
    · rw [hlo, hhi]
      exact hc.laid.clear p hmem
  · refine (List.pairwise_cons.1 hc.apart).2.imp ?_
    rintro q r (heq | ⟨page, hpage, hbetween⟩)
    · exact Or.inl heq
    · exact Or.inr ⟨page, Backlog.mem_insert.2 (Or.inr hpage), hbetween⟩
  · rw [hhi]
    exact fun q hq => (List.pairwise_cons.1 hc.laid.order).1 q hq

/-- All the portions get their pages. -/
theorem holdAll (hc : Calm base start payload h ps)
    (hw : base.offset start + payload.length ≤ SeqNum.reach) :
    Calm base start payload
      { h with pages := Backlog.insertAll (ps.map (Portion.page start payload)) h.pages } [] := by
  induction ps generalizing h with
  | nil => exact hc
  | cons p rest ih => exact ih (hc.hold hw).1

/-- If nothing is stored, all portions come from one piece. -/
theorem pieceStop_eq (hc : Calm base start payload h (p :: ps)) (hpages : h.pages = []) :
    ∀ q ∈ ps, q.pieceStop = p.pieceStop := by
  intro q hq
  rcases (List.pairwise_cons.1 hc.apart).1 q hq with heq | ⟨page, hpage, -⟩
  · exact heq.symm
  · rw [hpages] at hpage
    cases hpage

end Calm

/-! ## Loose half-streams -/

namespace Loose

/-- Giving the first page up keeps a half-stream loose. -/
theorem lose (hl : Loose base start payload h ps) {page : Page} {rest : List Page}
    (hpages : h.pages = page :: rest) : Loose base start payload (h.lose page rest) ps := by
  have hmem : page ∈ h.pages := hpages ▸ List.mem_cons_self ..
  have hsub : rest ⊆ h.pages := hpages ▸ List.subset_cons_self ..
  have hhi := (hl.placed.spread.mem hmem).2.2
  have hpos := @pos_lose base h page rest hl.placed.pos_le hhi
  refine ⟨hl.placed.lose hpages, hl.laid.subset hsub, ?_, ?_⟩
  · intro q hq
    have hqpos := hl.pages q (hsub hq)
    have hqlo := hl.placed.spread
    rw [hpages] at hqlo
    have hqlo := hqlo.head_le hq
    rw [hpos]
    split <;> omega
  · intro p hp
    have hppos := hl.portions p hp
    have hclear := hl.laid.clear p hp page hmem
    have hlt := page.lo_le_hi base
    rw [hpos]
    split <;> omega

/-- The first portion gets its page. -/
theorem hold (hl : Loose base start payload h (p :: ps))
    (hw : base.offset start + payload.length ≤ SeqNum.reach) :
    Loose base start payload (h.hold (p.page start payload)) ps := by
  have hmem : p ∈ p :: ps := List.mem_cons_self ..
  have hbounds := hl.laid.bounds p hmem
  obtain ⟨hlo, hhi⟩ := p.lo_hi_page hw hbounds
  refine ⟨hl.placed.hold ?_ ?_ ?_, hl.laid.insert hw, ?_,
    fun q hq => hl.portions q (List.mem_cons_of_mem _ hq)⟩
  · rw [p.size_page hbounds.2, Span.size]
    omega
  · rw [hhi, Portion.hi]
    omega
  · rw [hlo, hhi]
    exact hl.laid.clear p hmem
  · intro page hpage
    rcases Backlog.mem_insert.1 hpage with rfl | hpage
    · rw [hlo, hhi]
      exact hl.portions p hmem
    · exact hl.pages page hpage

/-- Refusal of a page changes nothing but a count. -/
theorem drop (hl : Loose base start payload h ps) (bytes : Nat) :
    Loose base start payload (h.drop bytes).value [] := by
  refine ⟨⟨hl.placed.spread, hl.placed.pos_le⟩, ⟨nofun, List.Pairwise.nil, nofun, ?_⟩, hl.pages, nofun⟩
  exact fun hsuffix => nomatch List.eq_nil_of_suffix_nil hsuffix

end Loose

/-- What the steps of storing keep: a property of the half-stream, of the portions that are yet to be
stored, and of the chunks handed on. -/
structure KeptStoring (base start : SeqNum) (payload : List UInt8)
    (J : HalfStream → List Portion → List Delivery → Prop) : Prop where
  /-- A leap of a calm half-stream keeps it. -/
  leap : ∀ {h h' cs ps ds}, Calm base start payload h ps → Calm base start payload h' ps →
    Moves true h cs h' → J h ps ds → J h' ps (ds ++ cs.map (Chunk.delivery payload))
  /-- Putting the first portion on a page keeps it. -/
  hold : ∀ {h p ps ds}, Loose base start payload h (p :: ps) → J h (p :: ps) ds →
    J (h.hold (p.page start payload)) ps ds
  /-- Giving a page up keeps it, where the half-stream is tidy or has lost bytes already. -/
  lose : ∀ {h page rest ps ds}, Loose base start payload h ps → h.pages = page :: rest →
    Tidy base h ∨ (h.next ≠ none → h.skipDue = true) → J h ps ds → J (h.lose page rest) ps ds
  /-- Counting the rest of a piece as given up keeps it. -/
  drop : ∀ {h p ps ds}, Loose base start payload h (p :: ps) →
    p.span.size + (ps.map fun q => q.span.size).sum = p.pieceStop - p.span.start →
    J h (p :: ps) ds → J (h.drop (p.pieceStop - p.span.start)).value [] ds

end HalfStream

/-! ## The two regimes -/

namespace Work

open HalfStream (Calm Loose KeptStoring Moves Tidy)

variable {ceiling limit : Nat} {d : Direction} {w w' : Work} {locked : List FlowId} {p : Portion}
  {ps : List Portion} {J : HalfStream → List Portion → List Delivery → Prop} {ds : List Delivery}

/-- The regimes in which portions are stored. -/
inductive Storing (base start : SeqNum) (payload : List UInt8) (limit : Nat) (locked : List FlowId)
    (d : Direction) (ps : List Portion) (w : Work) : Prop
  /-- No page was given up yet.  If the connection has reached its limit, then with a page that comes
  before the portions. -/
  | calm : Calm base start payload (w.connection.half d) ps → w.connection.pageCount ≤ limit →
      (w.connection.pageCount = limit → ∃ page ∈ (w.connection.half d).pages,
        ∀ p ∈ ps, page.hi base ≤ p.lo base start) →
      Storing base start payload limit locked d ps w
  /-- The half-stream has given a page up, and lives on its own pages. -/
  | loose : Loose base start payload (w.connection.half d) ps →
      ((w.connection.half d).next ≠ none → (w.connection.half d).skipDue = true) →
      (w.connection.half d).pages ≠ [] → w.connection.pageCount < limit → w.Drained locked →
      Storing base start payload limit locked d ps w

theorem relieve_of_lt (h : w.connection.pageCount < limit) : w.relieve limit d = w := by
  rw [relieve, Connection.relieve_of_lt d h]
  obtain ⟨connection, entries, arena, chunks, notes⟩ := w
  simp only [absorb, List.append_nil, Arena.giveAll_nil]

/-- **Relief stays in its regime**, and leaves room for one page more. -/
theorem Storing.relieve (hK : KeptStoring base start payload J) (hlimit : 0 < limit)
    (hs : w.Sound ceiling) (hst : w.Storing base start payload limit locked d ps)
    (hJ : J (w.connection.half d) ps ds) :
    ∃ new, Leads ceiling d new w (w.relieve limit d) ∧
      (w.relieve limit d).Storing base start payload limit locked d ps ∧
      (w.relieve limit d).connection.pageCount < limit ∧
      J ((w.relieve limit d).connection.half d) ps
        (ds ++ (Chunk.ofDirection d new).map (Chunk.delivery payload)) := by
  by_cases hlt : w.connection.pageCount < limit
  · rw [relieve_of_lt hlt]
    refine ⟨[], .refl hs, hst, hlt, ?_⟩
    rw [Chunk.ofDirection_nil, List.map_nil, List.append_nil]
    exact hJ
  · cases hst with
    | loose _ _ _ hcount _ => exact absurd hcount hlt
    | calm hc hle hfull =>
        have heq : w.connection.pageCount = limit := by omega
        have hcount := w.connection.pageCount_relieve d hlimit
        obtain ⟨last, hlast, hbefore⟩ := hfull heq
        obtain ⟨page, rest, hpages⟩ := List.exists_cons_of_ne_nil (List.ne_nil_of_mem hlast)
        -- the first page ends no later than the one that was just stored
        have hfirst : page.hi base ≤ last.hi base := by
          have hspread := hc.tidy.spread
          rw [hpages] at hspread hlast
          rcases List.mem_cons.1 hlast with rfl | hlast
          · exact Nat.le_refl _
          · exact Nat.le_trans (hspread.head_le hlast) (last.lo_le_hi base)
        obtain ⟨hc', hmoved⟩ := hc.leap hpages fun p hp => Nat.le_trans hfirst (hbefore p hp)
        obtain ⟨hv, hcs⟩ := Connection.relieve_at_limit heq hmoved
        have hmoves := (w.connection.half d).leap_moves
        have hhalf : (w.relieve limit d).connection.half d = (w.connection.half d).leap.value.1 := by
          show (w.connection.relieve limit d).value.half d = _
          rw [hv, Connection.half_setHalf]
        have hself : Chunk.ofDirection d (w.connection.half d).leap.chunks =
            (w.connection.half d).leap.chunks :=
          Chunk.ofDirection_eq_self fun c hmem =>
            (hmoves.direction.2.2 c hmem).trans (hs.connection.sided d)
        refine ⟨_, leads_relieve hs limit, .calm ?_ (Nat.le_of_lt hcount) ?_, hcount, ?_⟩
        · rw [hhalf]
          exact hc'
        · exact fun hc => absurd hc (Nat.ne_of_lt hcount)
        · rw [hhalf, hcs, hself]
          exact hK.leap hc hc' hmoves hJ

/-! ## One portion -/

/-- Filling a page adds it to the half-stream that the request left. -/
theorem connection_fillPage (w : Work) (p : Portion) :
    (w.fillPage locked d start payload p).connection =
      (w.obtain locked d (start.advance p.span.start)).1.connection.setHalf d
        (((w.obtain locked d (start.advance p.span.start)).1.connection.half d).hold
          (p.page start payload)) := rfl

theorem pageCount_hold (c : Connection) (page : Page) :
    (c.setHalf d ((c.half d).hold page)).pageCount = c.pageCount + 1 := by
  rw [Connection.pageCount_setHalf, Connection.pageCount_eq c d]
  simp only [HalfStream.pageCount, HalfStream.hold, Backlog.length_insert]
  omega

theorem pageCount_lose {c : Connection} {page : Page} {rest : List Page}
    (h : (c.half d).pages = page :: rest) :
    (c.setHalf d ((c.half d).lose page rest)).pageCount + 1 = c.pageCount := by
  rw [Connection.pageCount_setHalf, Connection.pageCount_eq c d]
  simp only [HalfStream.pageCount, HalfStream.lose, h, List.length_cons]
  omega

/-- **A portion that gets its page** leads from one regime to the same or to the loose one. -/
theorem Storing.fillPage (hK : KeptStoring base start payload J)
    (hw : base.offset start + payload.length ≤ SeqNum.reach) (hs : w.Sound ceiling)
    (hst : w.Storing base start payload limit locked d (p :: ps))
    (hcount : w.connection.pageCount < limit)
    (hsome : (w.obtain locked d (start.advance p.span.start)).2 ≠ none)
    (hJ : J (w.connection.half d) (p :: ps) ds) :
    (w.fillPage locked d start payload p).Storing base start payload limit locked d ps ∧
      J ((w.fillPage locked d start payload p).connection.half d) ps ds := by
  have hcases := (obtain_cases hs locked d (start.advance p.span.start)).1
  have hconn := @connection_fillPage start payload d locked w p
  have hloose : Loose base start payload (w.connection.half d) (p :: ps) := by
    cases hst with
    | calm hc _ _ => exact hc.loose
    | loose hl _ _ _ _ => exact hl
  generalize (w.obtain locked d (start.advance p.span.start)).2 = r at *
  cases hcases with
  | refused _ _ => exact absurd rfl hsome
  | granted hsame hwet =>
      cases hst with
      | loose _ _ _ _ hdrained => exact absurd hdrained hwet
      | calm hc _ _ =>
          rw [hsame] at hconn
          obtain ⟨hc', hfull⟩ := hc.hold hw
          rw [hconn, Connection.half_setHalf]
          refine ⟨.calm ?_ ?_ ?_, hK.hold hloose hJ⟩
          · rw [hconn, Connection.half_setHalf]
            exact hc'
          · rw [hconn, pageCount_hold]
            exact hcount
          · rw [hconn, Connection.half_setHalf]
            exact fun _ => hfull
  | @own page rest hp hlost hdrained =>
      rw [hlost, Connection.half_setHalf] at hconn
      have hwhy : Tidy base (w.connection.half d) ∨ ((w.connection.half d).next ≠ none →
          (w.connection.half d).skipDue = true) := by
        cases hst with
        | calm hc _ _ => exact Or.inl hc.tidy
        | loose _ hskip _ _ _ => exact Or.inr hskip
      have hloose' := hloose.lose hp
      rw [hconn, Connection.half_setHalf]
      refine ⟨.loose ?_ ?_ ?_ ?_ ?_, hK.hold hloose' (hK.lose hloose hp hwhy hJ)⟩
      · rw [hconn, Connection.half_setHalf]
        exact hloose'.hold hw
      · rw [hconn, Connection.half_setHalf]
        intro hn
        cases hnext : (w.connection.half d).next with
        | none => simp [HalfStream.hold, HalfStream.lose, hnext] at hn
        | some next => simp [HalfStream.hold, HalfStream.lose, hnext]
      · rw [hconn, Connection.half_setHalf]
        exact List.ne_nil_of_mem (Backlog.mem_insert.2 (Or.inl rfl))
      · have hsize := pageCount_hold (d := d)
          (w.connection.setHalf d ((w.connection.half d).lose page rest)) (p.page start payload)
        rw [Connection.half_setHalf] at hsize
        rw [hconn, hsize, pageCount_lose hp]
        exact hcount
      · refine ⟨hdrained.spent, ?_⟩
        have hflow := hdrained.dry
        rw [hlost] at hflow
        rw [hconn, Connection.flow_setHalf]
        exact hflow

/-- **A portion that is refused a page** finds a half-stream that holds none, so it is the rest of
the last piece that is given up. -/
theorem Storing.refuse (hK : KeptStoring base start payload J) (hs : w.Sound ceiling)
    (hst : w.Storing base start payload limit locked d (p :: ps))
    (hnone : (w.obtain locked d (start.advance p.span.start)).2 = none)
    (hJ : J (w.connection.half d) (p :: ps) ds) :
    J ((w.refuse locked d start p).connection.half d) [] ds ∧
      Loose base start payload ((w.refuse locked d start p).connection.half d) [] := by
  have hcases := (obtain_cases hs locked d (start.advance p.span.start)).1
  rw [hnone] at hcases
  cases hcases with
  | refused hpages hsame =>
      cases hst with
      | loose _ _ hne _ _ => exact absurd hpages hne
      | calm hc _ _ =>
          have hhalf : (w.refuse locked d start p).connection.half d =
              ((w.connection.half d).drop (p.pieceStop - p.span.start)).value := by
            rw [Work.refuse, half_onHalf, hsame]
          rw [hhalf]
          exact ⟨hK.drop hc.loose (hc.laid.whole (List.suffix_refl _) (hc.pieceStop_eq hpages)) hJ,
            hc.loose.drop _⟩

/-- A step comes before what is reached. -/
theorem Leads.reaches {J : HalfStream → List Delivery → Prop} {new : List Chunk} {w'' : Work}
    (h : Leads ceiling d new w w')
    (hrest : Reaches ceiling d payload J
      (ds ++ (Chunk.ofDirection d new).map (Chunk.delivery payload)) w' w'') :
    Reaches ceiling d payload J ds w w'' := by
  obtain ⟨new', hlead, hJ⟩ := hrest
  refine ⟨_, h.trans hlead, ?_⟩
  rw [Chunk.ofDirection_append, List.map_append, ← List.append_assoc]
  exact hJ

/-- **Storing keeps what its steps keep.** -/
theorem reaches_store (hK : KeptStoring base start payload J)
    (hw : base.offset start + payload.length ≤ SeqNum.reach) (hlimit : 0 < limit)
    (hs : w.Sound ceiling) (hopen : (w.connection.half d).isClosed = false)
    (hst : w.Storing base start payload limit locked d ps) (hJ : J (w.connection.half d) ps ds) :
    Reaches ceiling d payload (fun h ds => J h [] ds ∧ Loose base start payload h []) ds w
      (store limit locked d start payload ps w) := by
  induction ps generalizing w ds with
  | nil =>
      refine ⟨[], .refl hs, ?_⟩
      rw [Chunk.ofDirection_nil, List.map_nil, List.append_nil]
      cases hst with
      | calm hc _ _ => exact ⟨hJ, hc.loose⟩
      | loose hl _ _ _ _ => exact ⟨hJ, hl⟩
  | cons p rest ih =>
      have hopen' : ((w.relieve limit d).connection.half d).isClosed = false :=
        ((Connection.relieve_onward hs.connection.sided limit d).moves d).direction.2.1.trans hopen
      obtain ⟨new, hlead, hst', hcount, hJ'⟩ := hst.relieve hK hlimit hs hJ
      refine hlead.reaches ?_
      rcases @store_cons ceiling limit d w locked start payload hlead.sound p rest with
        ⟨hsome, hceil, heq⟩ | ⟨hnone, heq⟩
      · have hbounds : p.span.start < p.span.stop ∧ p.span.stop ≤ payload.length := by
          cases hst' with
          | calm hc _ _ => exact hc.laid.bounds p (List.mem_cons_self ..)
          | loose hl _ _ _ _ => exact hl.laid.bounds p (List.mem_cons_self ..)
        obtain ⟨hfill, hchanges⟩ := @leads_fillPage ceiling d _ locked start payload hlead.sound
          hceil hopen' p hbounds
        obtain ⟨hst'', hJ''⟩ := hst'.fillPage hK hw hlead.sound hcount (by rw [hsome]; nofun) hJ'
        rw [heq]
        refine hfill.reaches ?_
        rw [Chunk.ofDirection_nil, List.map_nil, List.append_nil]
        exact ih hfill.sound (hchanges.direction.2.trans hopen') hst'' hJ''
      · rw [heq]
        refine ⟨[], (@leads_refuse ceiling d _ locked start payload hlead.sound p).1, ?_⟩
        rw [Chunk.ofDirection_nil, List.map_nil, List.append_nil]
        exact hst'.refuse hK hlead.sound hnone hJ'

/-- **Data that is ahead is stored in these regimes.** -/
theorem reaches_ahead {segment : Segment} {pieces : List Span} {counters : Counters}
    (hK : KeptStoring base segment.payloadSeq segment.payload J)
    (hw : base.offset segment.payloadSeq + segment.payload.length ≤ SeqNum.reach)
    (hlimit : 0 < limit) (hopen : (w.connection.half d).isClosed = false)
    (ht : Tidy base (w.connection.half d)) (hcount : w.connection.pageCount < limit)
    (hfit : w.fit d segment = .ahead pieces)
    (hhalf : (w.arrived d segment).connection.half d = { w.connection.half d with counters })
    (hlead : Leads ceiling d [] w (w.arrived d segment))
    (hJ : J { w.connection.half d with counters } (pieces.flatMap Span.portions) ds) :
    Reaches ceiling d segment.payload
      (fun h ds => J h [] ds ∧ Loose base segment.payloadSeq segment.payload h []) ds w
      (w.placed limit locked d segment) := by
  have ht' : Tidy base ((w.arrived d segment).connection.half d) := by
    rw [hhalf]
    exact ⟨ht.spread, ht.pos_le⟩
  have hcalm : Calm base segment.payloadSeq segment.payload
      ((w.arrived d segment).connection.half d) (pieces.flatMap Span.portions) :=
    .of_ahead ht' hw (by rw [← fit_eq, hfit])
  have hcount' : (w.arrived d segment).connection.pageCount < limit := by
    have hsame : (w.arrived d segment).connection =
        w.connection.setHalf d ((w.arrived d segment).connection.half d) := by
      rw [half_arrived]
      rfl
    rw [hsame, Connection.pageCount_setHalf, hhalf]
    rw [Connection.pageCount_eq _ d] at hcount
    exact hcount
  have hopen' : ((w.arrived d segment).connection.half d).isClosed = false := by
    rw [hhalf]
    exact hopen
  rw [placed, hfit]
  refine hlead.reaches ?_
  rw [Chunk.ofDirection_nil, List.map_nil, List.append_nil]
  exact reaches_store hK hw hlimit hlead.sound hopen'
    (.calm hcalm (Nat.le_of_lt hcount') fun h => absurd h (Nat.ne_of_lt hcount')) (hhalf ▸ hJ)

end Work

/-! ## A segment -/

namespace Arrival

open HalfStream (KeptStoring Move Placed Tidy)

variable {ceiling : Nat} {a : Arrival} {J : HalfStream → List Delivery → Prop}
  {K : HalfStream → List Portion → List Delivery → Prop} {ds : List Delivery}

/-- **What the work on a segment keeps.** It must hold once data went through at once or is stored, where
`K` is kept meanwhile, and afterwards be kept by moves and by the end of the stream. -/
theorem work_keeps (hs : a.before.Sound ceiling) (hopen : a.half.isClosed = false)
    (hw : a.InWindow base) (hlimit : 0 < a.config.pagesPerConnection)
    (hcount : a.connection.pageCount < a.config.pagesPerConnection) (ht : Tidy base a.half)
    (hK : base.offset a.segment.payloadSeq + a.segment.payload.length ≤ SeqNum.reach →
      KeptStoring base a.segment.payloadSeq a.segment.payload K)
    (hahead : ∀ {pieces : List Span} {counters : Counters},
      base.offset a.segment.payloadSeq + a.segment.payload.length ≤ SeqNum.reach →
      Fit.of a.half.next a.half.pages a.segment.payloadSeq a.segment.payload.length = .ahead pieces →
      counters.discarded = a.half.counters.discarded →
      (a.segment.flags.isSyn = true → a.half.next ≠ none) →
      K { a.half with counters } (pieces.flatMap Span.portions) ds)
    (hstored : ∀ {h ds}, K h [] ds → J h ds)
    (htaken : ∀ {accepted h' cs}, a.half.Taken a.segment accepted h' cs →
      J h' (ds ++ cs.map (Chunk.delivery a.segment.payload)))
    (hmove : ∀ {h h' cs ds}, Placed base h → Move true h cs h' → J h ds →
      J h' (ds ++ cs.map (Chunk.delivery a.segment.payload)))
    (hclose : ∀ {h ds}, J h ds → h.pages = [] → J { h with phase := .closed } ds) :
    Tidy base (a.work.connection.half a.direction) ∧
      J (a.work.connection.half a.direction) (ds ++ a.deliveries a.direction) := by
  have hplaced : Work.Reaches ceiling a.direction a.segment.payload
      (fun h ds => Placed base h ∧ J h ds) ds a.before
      (a.before.placed a.config.pagesPerConnection a.locked a.direction a.segment) := by
    rcases @Work.placed_cases ceiling a.direction a.before hs hopen a.config.pagesPerConnection
      a.locked a.segment with
      ⟨pieces, counters, hfit, hhalf, hcounters, hsyn, hlead⟩ | ⟨new, hlead, -, hdata⟩
    · have hfit' := hfit
      rw [Work.fit_eq, hhalf] at hfit'
      have hin := hw (Or.inr (List.ne_nil_of_length_pos (Fit.of_ahead hfit').1))
      obtain ⟨new, hlead', hkept, hloose⟩ := Work.reaches_ahead (w := a.before) (hK hin) hin hlimit
        hopen ht hcount hfit hhalf hlead (hahead hin hfit' hcounters hsyn)
      exact ⟨new, hlead', hloose.placed, hstored hkept⟩
    · exact ⟨new, hlead,
        hdata.placed ht.placed fun hc => hw (hc.imp_left fun hb => ⟨hopen, hb⟩), htaken hdata⟩
  refine of_reaches (J := fun h ds => Tidy base h ∧ J h ds) hopen
    (Work.reaches_accept hplaced ?_ ?_ ?_)
  · rintro h ds ⟨hp, hJ⟩
    refine ⟨hp.drain.1, (h.drain_moves.keep (J := fun h ds => Placed base h ∧ J h ds) ?_ ⟨hp, hJ⟩).2⟩
    exact fun hJ hm => ⟨(hJ.1.move hm).1, hmove hJ.1 hm.leaping hJ.2⟩
  · rintro h h' cs ds ⟨ht, hJ⟩ hm
    exact ⟨ht.move hm, hmove ht.placed hm hJ⟩
  · rintro h ds ⟨ht, hJ⟩ hp
    exact ⟨⟨ht.spread, ht.pos_le⟩, hclose hJ hp⟩

end Arrival
end TcpStreams
