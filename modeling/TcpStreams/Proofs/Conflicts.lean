import TcpStreams.Proofs.Retained

/-!
# Data that contradicts other data

Segments may hold different bytes for the same place in the stream.  Two rules decide which one is handed
over.  Bytes that wait keep what arrived first: later segments are cut to the pieces that no page covers.
Bytes that go through at once are those of the segment being worked in, even where pages with other bytes
wait.

* `Arrival.firstByte`: the byte of the first segment that holds one at an offset.
* `Arrival.Overrides`: the bytes of a segment that go before what waits.
* `HalfStream.Keeps`: what arrived lies behind the position or waits.
* `HalfStream.Decided.move`: a move hands on the bytes that arrived first.
* `Reassembly.conflicts_resolved`: which byte is handed over, and that what waits stays what it is.
-/

namespace TcpStreams

open Backlog (Covers)

/-! ## The byte at an offset -/

/-- The byte at an offset, of data that begins at the offset `lo`. -/
def byteAt (lo : Nat) (bytes : List UInt8) (x : Nat) : Option UInt8 :=
  if lo ≤ x then bytes[x - lo]? else none

section ByteAt

variable {lo n x : Nat} {bytes : List UInt8} {b : UInt8}

theorem byteAt_ne_none_iff : byteAt lo bytes x ≠ none ↔ lo ≤ x ∧ x < lo + bytes.length := by
  unfold byteAt
  split
  · rw [Ne, List.getElem?_eq_none_iff]
    omega
  · simp only [ne_eq, not_true_eq_false, false_iff]
    omega

theorem bounds_of_byteAt (h : byteAt lo bytes x = some b) : lo ≤ x ∧ x < lo + bytes.length :=
  byteAt_ne_none_iff.1 (h ▸ Option.some_ne_none b)

/-- What is left of data once its front is cut off lies where it lay. -/
theorem byteAt_drop (h : lo + n ≤ x) : byteAt (lo + n) (bytes.drop n) x = byteAt lo bytes x := by
  have hindex : n + (x - (lo + n)) = x - lo := by omega
  rw [byteAt, byteAt, if_pos h, if_pos (by omega), List.getElem?_drop, hindex]

theorem byteAt_of_take {k : Nat} (h : byteAt lo (bytes.take k) x = some b) :
    byteAt lo bytes x = some b := by
  have hbounds := bounds_of_byteAt h
  rw [List.length_take] at hbounds
  rw [byteAt, if_pos hbounds.1] at h ⊢
  rwa [List.getElem?_take_of_lt (by omega)] at h

/-- A part of data lies where it lay in the whole. -/
theorem byteAt_of_slice {span : Span} (h : byteAt (lo + span.start) (span.slice bytes) x = some b) :
    byteAt lo bytes x = some b := by
  have h := byteAt_of_take h
  rwa [byteAt_drop (bounds_of_byteAt h).1] at h

end ByteAt

/-- The byte that a page holds at an offset. -/
def Page.byteAt (base : SeqNum) (page : Page) (x : Nat) : Option UInt8 :=
  TcpStreams.byteAt (page.lo base) page.bytes x

/-- The byte that a chunk holds at an offset. -/
def Delivery.byteAt (base : SeqNum) (y : Delivery) (x : Nat) : Option UInt8 :=
  TcpStreams.byteAt (y.lo base) y.bytes x

namespace Arrival

/-- The byte that a segment holds at an offset. -/
def byteAt (base : SeqNum) (a : Arrival) (x : Nat) : Option UInt8 :=
  TcpStreams.byteAt (base.offset a.segment.payloadSeq) a.segment.payload x

/-- The byte at an offset of the first segment that holds one. -/
def firstByte (base : SeqNum) (as : List Arrival) (x : Nat) : Option UInt8 :=
  as.findSome? fun a => a.byteAt base x

/-- The byte at an offset goes before one that waits: the segment holds it, and begins the stream or, with
the next byte wanted known, does not begin beyond that one. -/
def Overrides (base : SeqNum) (a : Arrival) (x : Nat) : Prop :=
  a.half.isClosed = false ∧ a.Holds base x ∧
    (a.BeginsStream ∨ a.half.next ≠ none ∧ base.offset a.segment.payloadSeq ≤ a.half.pos base)

instance (base : SeqNum) (a : Arrival) (x : Nat) : Decidable (a.Overrides base x) :=
  inferInstanceAs (Decidable (_ ∧ (_ ∧ _) ∧ _))

variable {base : SeqNum} {as as' : List Arrival} {a : Arrival} {x : Nat} {b : UInt8}

theorem byteAt_ne_none_iff : a.byteAt base x ≠ none ↔ a.Holds base x :=
  TcpStreams.byteAt_ne_none_iff

/-- What is first stays first. -/
theorem firstByte_append (h : firstByte base as x = some b) (as' : List Arrival) :
    firstByte base (as ++ as') x = some b := by
  rw [firstByte] at h
  rw [firstByte, List.findSome?_append, h, Option.some_or]

/-- Where no segment held a byte, that of the next one is first. -/
theorem firstByte_snoc_of_none (h : firstByte base as x = none) :
    firstByte base (as ++ [a]) x = a.byteAt base x := by
  rw [firstByte] at h
  rw [firstByte, List.findSome?_append, h, Option.none_or, List.findSome?_singleton]

/-- A byte that some segment holds arrived before or is held by the last one. -/
theorem firstByte_snoc_ne_none (h : firstByte base (as ++ [a]) x ≠ none) :
    firstByte base as x ≠ none ∨ a.Holds base x := by
  cases hfirst : firstByte base as x with
  | some b => exact Or.inl (Option.some_ne_none b)
  | none =>
      rw [firstByte_snoc_of_none hfirst] at h
      exact Or.inr (byteAt_ne_none_iff.1 h)

end Arrival

/-- The bytes of a chunk are those of a segment of `current` where that one goes before what waits, and
those that arrived first elsewhere. -/
def Delivery.Resolved (base : SeqNum) (current : List Arrival) (first : Nat → Option UInt8)
    (y : Delivery) : Prop :=
  ∀ x, y.lo base ≤ x → x < y.hi base →
    (∀ a ∈ current, a.Overrides base x → y.byteAt base x = a.byteAt base x) ∧
    ((∀ a ∈ current, ¬ a.Overrides base x) → y.byteAt base x = first x)

/-- What was decided by the segments so far stays so, whatever comes later. -/
theorem Delivery.Resolved.append {base : SeqNum} {current as : List Arrival} {y : Delivery}
    (h : y.Resolved base current (Arrival.firstByte base as)) (rest : List Arrival) :
    y.Resolved base current (Arrival.firstByte base (as ++ rest)) := by
  intro x hlo hhi
  obtain ⟨hover, hfirst⟩ := h x hlo hhi
  refine ⟨hover, fun hnone => ?_⟩
  obtain ⟨b, hb⟩ := Option.ne_none_iff_exists'.1 (byteAt_ne_none_iff.2 ⟨hlo, hhi⟩)
  have hb : y.byteAt base x = some b := hb
  rw [hb, Arrival.firstByte_append ((hfirst hnone).symm.trans hb) rest]

namespace HalfStream

variable {base start : SeqNum} {payload : List UInt8} {held : Nat → Prop} {leaps : Bool}
  {first : Nat → Option UInt8} {current : List Arrival} {h h' : HalfStream} {cs : List Chunk}
  {page : Page} {extra : List Page}

/-! ## Nothing is lost -/

/-- The bytes `held` lie behind the position, or wait on a page or on one of `extra`, which are yet to be
stored. -/
def Keeps (base : SeqNum) (held : Nat → Prop) (extra : List Page) (h : HalfStream) : Prop :=
  ∀ x, held x → x < h.pos base ∨ Covers base extra x ∨ Covers base h.pages x

/-- Only the pages and the position matter. -/
theorem Keeps.congr (hk : h.Keeps base held extra) (hpages : h'.pages = h.pages)
    (hnext : h'.next = h.next) : h'.Keeps base held extra := by
  have hpos : h'.pos base = h.pos base := by simp only [pos, hnext]
  unfold Keeps
  rw [hpages, hpos]
  exact hk

/-- **Moves keep what lies behind the position or waits**, even those over a gap. -/
theorem Keeps.move (hk : h.Keeps base held extra) (hp : Placed base h) (hm : Move leaps h cs h') :
    h'.Keeps base held extra := by
  intro x hx
  have hle := (hp.move hm).2
  have hold := hk x hx
  cases hm with
  | @free page rest hpages hb =>
      obtain ⟨hsize, hhi⟩ := hp.head hpages
      have hend := (isBehind_iff hp.pos_le hhi hsize).1 hb
      rw [hpages, Backlog.covers_cons] at hold
      rcases hold with hpos | hextra | ⟨-, hlt⟩ | hrest
      · exact Or.inl hpos
      · exact Or.inr (Or.inl hextra)
      · exact Or.inl (Nat.lt_of_lt_of_le hlt hend)
      · exact Or.inr (Or.inr hrest)
  | @trim page rest hpages hb =>
      obtain ⟨-, hhi⟩ := hp.head hpages
      have hlo' := lo_trimmed hp.pos_le hhi hb
      have hhi' := hi_trimmed hp.pos_le hhi hb
      rw [hpages, Backlog.covers_cons] at hold
      rw [Backlog.covers_cons, hlo', hhi']
      rcases hold with hpos | hextra | ⟨hlo, hlt⟩ | hrest
      · exact Or.inl hpos
      · exact Or.inr (Or.inl hextra)
      · by_cases hbehind : x < h.pos base
        · exact Or.inl hbehind
        · exact Or.inr (Or.inr (Or.inl ⟨by omega, hlt⟩))
      · exact Or.inr (Or.inr (Or.inr hrest))
  | @hand page rest phase hpages hb _ _ =>
      obtain ⟨-, hhi⟩ := hp.head hpages
      have hhi' := hi_trimmed hp.pos_le hhi hb
      have hpos' := @pos_turn base h phase (h.trimmed page) rest (hhi' ▸ hhi)
      rw [hpages, Backlog.covers_cons] at hold
      rcases hold with hpos | hextra | ⟨-, hlt⟩ | hrest
      · exact Or.inl (Nat.lt_of_lt_of_le hpos hle)
      · exact Or.inr (Or.inl hextra)
      · refine Or.inl ?_
        rw [hpos', hhi']
        exact hlt
      · exact Or.inr (Or.inr hrest)

/-- A page that is stored waits. -/
theorem Keeps.hold (hk : h.Keeps base held (page :: extra)) : (h.hold page).Keeps base held extra := by
  intro x hx
  have hcovers : Covers base (h.hold page).pages x ↔
      (page.lo base ≤ x ∧ x < page.hi base) ∨ Covers base h.pages x := by
    simp only [Covers, HalfStream.hold, Backlog.mem_insert, or_and_right, exists_or, exists_eq_left]
  rw [hcovers]
  rcases hk x hx with hpos | hextra | hpages
  · exact Or.inl hpos
  · rcases Backlog.covers_cons.1 hextra with hpage | hextra
    · exact Or.inr (Or.inr (Or.inl hpage))
    · exact Or.inr (Or.inl hextra)
  · exact Or.inr (Or.inr (Or.inr hpages))

/-- Data that is ahead lies behind the position, waits, or is among the portions to store. -/
theorem keeps_ahead (hp : Placed base h) (hw : base.offset start + payload.length ≤ SeqNum.reach)
    {pieces : List Span} (hfit : Fit.of h.next h.pages start payload.length = .ahead pieces) :
    h.Keeps base (fun x => base.offset start ≤ x ∧ x < base.offset start + payload.length)
      ((pieces.flatMap Span.portions).map (Portion.page start payload)) := by
  intro x hx
  by_cases hpos : x < h.pos base
  · exact Or.inl hpos
  rcases exists_span hp hw hx (Nat.le_of_not_lt hpos) with hc | ⟨piece, hpiece, hlo, hhi⟩
  · exact Or.inr (Or.inr hc)
  rw [hfit] at hpiece
  have hpiece : piece ∈ pieces := hpiece
  obtain ⟨-, rfl, -⟩ := Fit.of_ahead hfit
  have hbounds := (Backlog.gaps_bounds hpiece).2
  obtain ⟨p, hp, hplo, hphi⟩ := @Span.exists_portion piece (x - base.offset start) ⟨by omega, by omega⟩
  obtain ⟨-, hlt, hle, heq, -⟩ := Span.mem_portions hp
  obtain ⟨hplo', hphi'⟩ := p.lo_hi_page hw ⟨hlt, by omega⟩
  refine Or.inr (Or.inl ⟨p.page start payload,
    List.mem_map_of_mem (List.mem_flatMap.2 ⟨piece, hpiece, hp⟩), ?_, ?_⟩)
  · rw [hplo', Portion.lo]
    omega
  · rw [hphi', Portion.hi]
    omega

/-- Data that no place is found for lies behind the position, or waits. -/
theorem keeps_nothing (hp : Placed base h)
    (hw : payload ≠ [] → base.offset start + payload.length ≤ SeqNum.reach)
    (hspans : (Fit.of h.next h.pages start payload.length).spans payload.length = []) :
    h.Keeps base (fun x => base.offset start ≤ x ∧ x < base.offset start + payload.length) [] := by
  intro x hx
  by_cases hpos : x < h.pos base
  · exact Or.inl hpos
  have hne : payload ≠ [] := List.ne_nil_of_length_pos (by omega)
  rcases exists_span hp (hw hne) hx (Nat.le_of_not_lt hpos) with hc | ⟨span, hspan, -⟩
  · exact Or.inr (Or.inr hc)
  · rw [hspans] at hspan
    cases hspan

/-- Data that goes through at once lies behind the position then. -/
theorem Handed.past {segment : Segment} {accepted : List Cell} {y : Delivery}
    (hy : h.Handed segment accepted h' y) (hpos : h.pos base ≤ SeqNum.reach)
    (hin : (h.next = none ∧ segment.flags.isSyn = true) ∨ segment.payload ≠ [] →
      base.offset segment.payloadSeq + segment.payload.length ≤ SeqNum.reach) {x : Nat}
    (hlo : base.offset segment.payloadSeq ≤ x)
    (hhi : x < base.offset segment.payloadSeq + segment.payload.length) : x < h'.pos base := by
  have hend := hy.pos_eq (hy.hi_le hpos hin)
  have hbegin : h.pos base ≤ y.lo base := hy.pos_le_lo
  have hsize : y.lo base ≤ y.hi base := Nat.le_add_right ..
  by_cases hbehind : x < h.pos base
  · omega
  · rw [hend]
    exact ((hy.mem_iff hpos hin x).2 ⟨⟨hlo, hhi⟩, Nat.le_of_not_lt hbehind⟩).2

/-! ## What arrived first waits -/

/-- What arrived at an open half-stream lies behind the position or waits, what waits arrived first, and what
goes before it lies behind the position.  The pages `extra` are yet to be stored. -/
structure Decided (base : SeqNum) (first : Nat → Option UInt8) (current : List Arrival)
    (extra : List Page) (h : HalfStream) : Prop where
  /-- What arrived lies behind the position or waits. -/
  keeps : h.isClosed = false → h.Keeps base (fun x => first x ≠ none) extra
  /-- The bytes that wait arrived first. -/
  waiting : ∀ page ∈ extra ++ h.pages, ∀ x b, page.byteAt base x = some b → first x = some b
  /-- What goes before that was handed over. -/
  past : ∀ a ∈ current, ∀ x, a.Overrides base x → x < h.pos base

theorem decided_new (d : Direction) : (new d).Decided base (Arrival.firstByte base []) [] [] where
  keeps _ _ hx := absurd rfl hx
  waiting _ hp := absurd hp List.not_mem_nil
  past _ ha := absurd ha List.not_mem_nil

/-- What is left of a page lies where it lay. -/
theorem byteAt_trimmed {x : Nat} {b : UInt8} (hpos : h.pos base ≤ SeqNum.reach)
    (hp : page.hi base ≤ SeqNum.reach) (hb : h.isBehind page = false)
    (hx : (h.trimmed page).byteAt base x = some b) : page.byteAt base x = some b := by
  have hlo := lo_trimmed hpos hp hb
  rw [Page.byteAt, hlo] at hx
  cases hn : h.next with
  | none =>
      rw [trimmed_none hn, pos_none hn, Nat.max_eq_left (Nat.zero_le _)] at hx
      exact hx
  | some next =>
      have hfrom := (bounds_of_byteAt hx).1
      rw [pos_some hn] at hpos hx hfrom
      have hmax : max (page.lo base) (base.offset next) =
          page.lo base + (base.offset next - page.lo base) := by omega
      rw [trimmed_some hn, Backlog.cutTo, Page.toNat_distance base hpos hp, hmax] at hx
      rwa [Page.dropFront, byteAt_drop (hmax ▸ hfrom)] at hx

namespace Decided

/-- Only the pages, the position and whether the half-stream is over matter. -/
theorem congr (hs : h.Decided base first current extra) (hpages : h'.pages = h.pages)
    (hnext : h'.next = h.next) (hclosed : h'.isClosed = false → h.isClosed = false) :
    h'.Decided base first current extra where
  keeps hopen := (hs.keeps (hclosed hopen)).congr hpages hnext
  waiting := by
    rw [hpages]
    exact hs.waiting
  past := by
    have hpos : h'.pos base = h.pos base := by simp only [pos, hnext]
    rw [hpos]
    exact hs.past

/-- **A move hands on the bytes that arrived first**, and they all lie beyond what goes before them. -/
theorem move (hs : h.Decided base first current extra) (hp : Placed base h) (hm : Move leaps h cs h')
    (payload : List UInt8) : h'.Decided base first current extra ∧
      ∀ y ∈ cs.map (Chunk.delivery payload), y.Resolved base current first := by
  have hle := (hp.move hm).2
  have hkeeps : h'.isClosed = false → h'.Keeps base (fun x => first x ≠ none) extra :=
    fun hopen => (hs.keeps (hm.direction.2.1.symm.trans hopen)).move hp hm
  have hpast : ∀ a ∈ current, ∀ x, a.Overrides base x → x < h'.pos base :=
    fun a ha x hx => Nat.lt_of_lt_of_le (hs.past a ha x hx) hle
  have hwaiting := hs.waiting
  cases hm with
  | @free page rest hpages hb =>
      refine ⟨⟨hkeeps, fun q hq => hwaiting q ?_, hpast⟩, nofun⟩
      rw [hpages]
      exact (List.Sublist.append_left (List.sublist_cons_self page rest) extra).subset hq
  | @trim page rest hpages hb =>
      obtain ⟨-, hhi⟩ := hp.head hpages
      rw [hpages] at hwaiting
      refine ⟨⟨hkeeps, fun q hq => ?_, hpast⟩, nofun⟩
      rcases List.mem_append.1 hq with hq | hq
      · exact hwaiting q (List.mem_append_left _ hq)
      · rcases List.mem_cons.1 hq with rfl | hq
        · exact fun x b hx => hwaiting page (List.mem_append_right _ (List.mem_cons_self ..)) x b
            (byteAt_trimmed hp.pos_le hhi hb hx)
        · exact hwaiting q (List.mem_append_right _ (List.mem_cons_of_mem _ hq))
  | @hand page rest phase hpages hb _ _ =>
      obtain ⟨-, hhi⟩ := hp.head hpages
      have hlo' := lo_trimmed hp.pos_le hhi hb
      rw [hpages] at hwaiting
      refine ⟨⟨hkeeps, fun q hq => hwaiting q ?_, hpast⟩, ?_⟩
      · exact (List.Sublist.append_left (List.sublist_cons_self page rest) extra).subset hq
      · intro y hy x hlo hx
        obtain rfl := List.mem_singleton.1 hy
        -- the chunk begins at the position or beyond it
        have hlo : (h.trimmed page).lo base ≤ x := hlo
        refine ⟨fun a ha hover => ?_, fun _ => ?_⟩
        · have := hs.past a ha x hover
          omega
        · obtain ⟨b, hb'⟩ := Option.ne_none_iff_exists'.1
            (TcpStreams.byteAt_ne_none_iff.2 (⟨hlo, hx⟩ : (h.trimmed page).lo base ≤ x ∧ x < _))
          exact hb'.trans (hwaiting page (List.mem_append_right _ (List.mem_cons_self ..)) x b
            (byteAt_trimmed hp.pos_le hhi hb hb')).symm

theorem moves (hs : h.Decided base first current extra) (hp : Placed base h)
    (hm : Moves leaps h cs h') (payload : List UInt8) : h'.Decided base first current extra ∧
      ∀ y ∈ cs.map (Chunk.delivery payload), y.Resolved base current first := by
  induction hm with
  | refl _ => exact ⟨hs, nofun⟩
  | head hmove _ ih =>
      obtain ⟨hs', hfirst⟩ := hs.move hp hmove payload
      obtain ⟨hs'', hrest⟩ := ih hs' (hp.move hmove).1
      refine ⟨hs'', fun y hy => ?_⟩
      rw [List.map_append] at hy
      rcases List.mem_append.1 hy with hy | hy
      · exact hfirst y hy
      · exact hrest y hy

/-- A page that is stored waits. -/
theorem hold (hs : h.Decided base first current (page :: extra)) :
    (h.hold page).Decided base first current extra where
  keeps hopen := (hs.keeps hopen).hold
  waiting q hq := by
    refine hs.waiting q ?_
    rcases List.mem_append.1 hq with hq | hq
    · exact List.mem_append_left _ (List.mem_cons_of_mem _ hq)
    · rcases Backlog.mem_insert.1 hq with rfl | hq
      · exact List.mem_append_left _ (List.mem_cons_self ..)
      · exact List.mem_append_right _ hq
  past := hs.past

/-- The end of the stream changes nothing about it. -/
theorem closed (hs : h.Decided base first current extra) :
    ({ h with phase := .closed } : HalfStream).Decided base first current extra :=
  hs.congr rfl rfl nofun

end Decided

/-- A page that is given up counts. -/
theorem Placed.discarded_lose {rest : List Page} (hp : Placed base h) (hpages : h.pages = page :: rest) :
    h.counters.discarded < (h.lose page rest).counters.discarded := by
  have hsize := (hp.head hpages).1
  simp only [HalfStream.lose, Counters.addDiscard]
  omega

/-- So does the rest of a piece. -/
theorem discarded_drop (h : HalfStream) {p : Portion} (hlt : p.span.start < p.pieceStop) :
    h.counters.discarded < (h.drop (p.pieceStop - p.span.start)).value.counters.discarded := by
  simp only [HalfStream.drop, Counters.addDiscard]
  omega

/-- What is settled while portions are stored, and the chunks that leaps hand on meanwhile. -/
def Storable (base start : SeqNum) (payload : List UInt8) (first : Nat → Option UInt8)
    (current : List Arrival) (h : HalfStream) (ps : List Portion) (ds : List Delivery) : Prop :=
  h.counters.discarded = 0 →
    h.Decided base first current (ps.map (Portion.page start payload)) ∧
      ∀ y ∈ ds, y.Resolved base current first

/-- As long as nothing is given up, storing leaves everything settled. -/
theorem storable_kept (base start : SeqNum) (payload : List UInt8) (first : Nat → Option UInt8)
    (current : List Arrival) :
    KeptStoring base start payload (Storable base start payload first current) where
  leap {h h' cs ps ds} hc _ hm hJ := by
    intro hzero
    obtain ⟨hs, hds⟩ := hJ (hm.discarded_eq.symm.trans hzero)
    obtain ⟨hs', hcs⟩ := hs.moves hc.tidy.placed hm payload
    refine ⟨hs', fun y hy => ?_⟩
    rcases List.mem_append.1 hy with hy | hy
    · exact hds y hy
    · exact hcs y hy
  hold _ hJ := fun hzero => (hJ hzero).imp_left Decided.hold
  lose hl hpages _ _ := fun hzero => absurd hzero (Nat.ne_zero_of_lt (hl.placed.discarded_lose hpages))
  drop {h p _ _} hl hsum _ := by
    intro hzero
    have hbounds := hl.laid.bounds p (List.mem_cons_self ..)
    rw [Span.size] at hsum
    exact absurd hzero (Nat.ne_zero_of_lt (h.discarded_drop (by omega)))

end HalfStream

/-! ## Segments -/

namespace Arrival

open HalfStream (Decided Storable Tidy)

variable {ceiling : Nat} {base : SeqNum} {a : Arrival} {as : List Arrival}

/-- At an open half-stream, data and a SYN that begins the stream lie in the window. -/
theorem InWindow.of_open (hw : a.InWindow base) (hopen : a.half.isClosed = false) :
    (a.half.next = none ∧ a.segment.flags.isSyn = true) ∨ a.segment.payload ≠ [] →
      base.offset a.segment.payloadSeq + a.segment.payload.length ≤ SeqNum.reach :=
  fun hc => hw (hc.imp_left fun hb => ⟨hopen, hb⟩)

/-- Data that goes before what waits does not lie ahead. -/
theorem not_overrides_of_ahead (ht : Tidy base a.half) (hin : a.segment.payload ≠ [] →
      base.offset a.segment.payloadSeq + a.segment.payload.length ≤ SeqNum.reach)
    {pieces : List Span}
    (hfit : Fit.of a.half.next a.half.pages a.segment.payloadSeq a.segment.payload.length =
      .ahead pieces)
    (hsyn : a.segment.flags.isSyn = true → a.half.next ≠ none) (x : Nat) :
    ¬ a.Overrides base x := by
  rintro ⟨-, -, ⟨-, hn, hisSyn⟩ | ⟨hn, hle⟩⟩
  · exact hsyn hisSyn hn
  · obtain ⟨next, hnext⟩ := Option.ne_none_iff_exists'.1 hn
    obtain ⟨hlen, -, hahead⟩ := Fit.of_ahead hfit
    have hreach := hin (List.ne_nil_of_length_pos hlen)
    have hpos := ht.pos_le
    have hlead := hahead next hnext
    rw [HalfStream.pos_some hnext] at hle hpos
    rw [SeqNum.distance_eq_offset_sub hpos (by omega)] at hlead
    omega

/-- The bytes of the pieces that are yet to be stored arrive first. -/
theorem decided_ahead (hopen : a.half.isClosed = false) (ht : Tidy base a.half)
    (hw : base.offset a.segment.payloadSeq + a.segment.payload.length ≤ SeqNum.reach)
    (hs : a.half.Decided base (firstByte base as) [] []) {pieces : List Span}
    (hfit : Fit.of a.half.next a.half.pages a.segment.payloadSeq a.segment.payload.length =
      .ahead pieces)
    (hsyn : a.segment.flags.isSyn = true → a.half.next ≠ none) :
    a.half.Decided base (firstByte base (as ++ [a])) [a]
      ((pieces.flatMap Span.portions).map (Portion.page a.segment.payloadSeq a.segment.payload)) where
  keeps _ := by
    intro x hx
    rcases firstByte_snoc_ne_none hx with hold | hnew
    · rcases hs.keeps hopen x hold with hpos | hnone | hpages
      · exact Or.inl hpos
      · obtain ⟨_, hp, -⟩ := hnone
        exact absurd hp List.not_mem_nil
      · exact Or.inr (Or.inr hpages)
    · exact HalfStream.keeps_ahead ht.placed hw hfit x hnew
  waiting page hpage x b hx := by
    rcases List.mem_append.1 hpage with hpage | hpage
    · obtain ⟨p, hp, rfl⟩ := List.mem_map.1 hpage
      have hcalm := HalfStream.Calm.of_ahead ht hw hfit
      have hbounds := hcalm.laid.bounds p hp
      obtain ⟨hlo, hhi⟩ := p.lo_hi_page hw hbounds
      obtain ⟨hxlo, hxhi⟩ := bounds_of_byteAt hx
      rw [← Page.size, ← Page.hi, hhi] at hxhi
      rw [hlo] at hxlo
      -- nobody held this byte before, or it would not be among the pieces
      have hnone : firstByte base as x = none := by
        by_contra hne
        have hpos := hcalm.pos_le p hp
        rcases hs.keeps hopen x hne with hbehind | ⟨_, hq, -⟩ | ⟨q, hq, hqlo, hqhi⟩
        · omega
        · exact absurd hq List.not_mem_nil
        · have := hcalm.laid.clear p hp q hq
          omega
      rw [firstByte_snoc_of_none hnone]
      rw [Page.byteAt, hlo, Portion.lo] at hx
      exact byteAt_of_slice hx
    · exact firstByte_append (hs.waiting page (List.mem_append_right _ hpage) x b hx) _
  past y hy x hx := by
    obtain rfl := List.mem_singleton.1 hy
    exact absurd hx (not_overrides_of_ahead ht (fun _ => hw) hfit hsyn x)

/-- Data that does not lie ahead and for which no place is found lies behind the position or waits. -/
theorem decided_nothing (hopen : a.half.isClosed = false) (ht : Tidy base a.half)
    (hw : a.InWindow base) (hs : a.half.Decided base (firstByte base as) [] [])
    (hspans : (Fit.of a.half.next a.half.pages a.segment.payloadSeq a.segment.payload.length).spans
      a.segment.payload.length = [])
    (hsyn : a.segment.flags.isSyn = true → a.half.next ≠ none) :
    a.half.Decided base (firstByte base (as ++ [a])) [a] [] where
  keeps _ := by
    intro x hx
    rcases firstByte_snoc_ne_none hx with hold | hnew
    · exact hs.keeps hopen x hold
    · exact HalfStream.keeps_nothing ht.placed (fun hne => hw (Or.inr hne)) hspans x hnew
  waiting page hpage x b hx := firstByte_append (hs.waiting page hpage x b hx) _
  past y hy x hx := by
    obtain rfl := List.mem_singleton.1 hy
    obtain ⟨-, ⟨hlo, hhi⟩, ⟨-, hn, hisSyn⟩ | ⟨hn, hle⟩⟩ := hx
    · exact absurd hn (hsyn hisSyn)
    · by_contra hbeyond
      -- the next byte wanted is among the data, which would go through
      obtain ⟨next, hnext⟩ := Option.ne_none_iff_exists'.1 hn
      have hreach := hw (Or.inr (List.ne_nil_of_length_pos (by omega)))
      have hpos := ht.pos_le
      rw [HalfStream.pos_some hnext] at hle hpos hbeyond
      have hlead : next.distance y.segment.payloadSeq =
          (base.offset y.segment.payloadSeq : Int) - base.offset next :=
        SeqNum.distance_eq_offset_sub hpos (by omega)
      rw [hnext] at hspans
      unfold Fit.of at hspans
      simp only [hlead] at hspans
      rw [if_neg (by omega), if_neg (by omega), if_neg (by omega)] at hspans
      cases hspans

/-- Data that goes through at once is handed over as it is, and then lies behind the position. -/
theorem decided_handed (hopen : a.half.isClosed = false) (ht : Tidy base a.half)
    (hw : a.InWindow base) (hs : a.half.Decided base (firstByte base as) [] [])
    {accepted : List Cell} {h' : HalfStream} {y : Delivery}
    (hy : a.half.Handed a.segment accepted h' y) :
    h'.Decided base (firstByte base (as ++ [a])) [a] [] ∧
      y.Resolved base [a] (firstByte base (as ++ [a])) := by
  have hin := hw.of_open hopen
  have hend := hy.pos_eq (hy.hi_le ht.pos_le hin)
  have hbegin : a.half.pos base ≤ y.lo base := hy.pos_le_lo
  have hsize : y.lo base ≤ y.hi base := Nat.le_add_right ..
  have hmem := hy.mem_iff ht.pos_le hin
  -- all that the segment holds lies behind the new position
  have hpast : ∀ x, a.Holds base x → x < h'.pos base :=
    fun x hx => hy.past ht.pos_le hin hx.1 hx.2
  refine ⟨⟨fun _ x hx => ?_, fun page hpage x b hx => ?_, fun z hz x hx => ?_⟩, ?_⟩
  · rcases firstByte_snoc_ne_none hx with hold | hnew
    · rcases hs.keeps hopen x hold with hpos | hextra | hpages
      · exact Or.inl (by omega)
      · exact Or.inr (Or.inl hextra)
      · exact Or.inr (Or.inr (hy.pages ▸ hpages))
    · exact Or.inl (hpast x hnew)
  · rw [hy.pages] at hpage
    exact firstByte_append (hs.waiting page hpage x b hx) _
  · obtain rfl := List.mem_singleton.1 hz
    exact hpast x hx.2.1
  · intro x hlo hhi
    obtain ⟨hholds, hpos⟩ := (hmem x).1 ⟨hlo, hhi⟩
    have hsame : (a.BeginsStream ∨ a.half.next ≠ none ∧
        base.offset a.segment.payloadSeq ≤ a.half.pos base) ∧
          y.byteAt base x = a.byteAt base x := by
      cases hn : a.half.next with
      | none =>
          obtain ⟨hsyn, hseq, hbytes, -, -⟩ := hy.begun hn
          refine ⟨Or.inl ⟨hopen, hn, hsyn⟩, ?_⟩
          rw [Delivery.byteAt, Delivery.lo, hseq, hbytes]
          rfl
      | some next =>
          obtain ⟨hdist, hlt, hseq, hbytes, -, -⟩ := hy.passed next hn
          have hreach := hin (Or.inr (List.ne_nil_of_length_pos (by omega)))
          have hle := ht.pos_le
          rw [HalfStream.pos_some hn] at hle hpos ⊢
          rw [SeqNum.distance_eq_offset_sub hle (by omega)] at hdist hlt
          have hsplit : base.offset next = base.offset a.segment.payloadSeq +
              ((base.offset a.segment.payloadSeq : Int) - base.offset next).natAbs := by omega
          refine ⟨Or.inr ⟨Option.some_ne_none next, by omega⟩, ?_⟩
          rw [SeqNum.distance_eq_offset_sub hle (by omega)] at hbytes
          generalize ((base.offset a.segment.payloadSeq : Int) - base.offset next).natAbs = n at *
          rw [hsplit] at hpos
          rw [Delivery.byteAt, Delivery.lo, hseq, hbytes, hsplit]
          exact byteAt_drop hpos
    refine ⟨fun z hz _ => ?_, fun hnone => ?_⟩
    · obtain rfl := List.mem_singleton.1 hz
      exact hsame.2
    · exact absurd ⟨hopen, hholds, hsame.1⟩ (hnone a (List.mem_singleton_self a))

/-- **Working a segment in leaves everything settled**, and hands over its own bytes where they go before what
waits, and those that arrived first elsewhere. -/
theorem work_resolved (hsound : a.before.Sound ceiling) (hw : a.InWindow base) (hg : a.Granted)
    (hcount : a.connection.pageCount < a.config.pagesPerConnection) (hun : a.connection.Unscathed)
    (ht : Tidy base a.half) (hs : a.half.Decided base (firstByte base as) [] []) :
    Tidy base (a.work.connection.half a.direction) ∧
      (a.work.connection.half a.direction).Decided base (firstByte base (as ++ [a])) [a] [] ∧
      ∀ y ∈ a.deliveries a.direction, y.Resolved base [a] (firstByte base (as ++ [a])) := by
  cases hclosed : a.half.isClosed with
  | true =>
      obtain ⟨hconn, -, -, hchunks⟩ := work_of_closed hclosed
      rw [deliveries, hconn, hchunks, Chunk.ofDirection_nil, List.map_nil]
      refine ⟨ht, ⟨?_, ?_, ?_⟩, fun _ hy => absurd hy List.not_mem_nil⟩
      · exact fun hopen => absurd hopen (ne_false_of_eq_true hclosed)
      · exact fun page hpage x b hx => firstByte_append (hs.waiting page hpage x b hx) _
      · intro z hz x hx
        obtain rfl := List.mem_singleton.1 hz
        exact absurd hx.1 (ne_false_of_eq_true hclosed)
  | false =>
      have hworked := @work_keeps base ceiling a
        (fun h ds => h.counters.discarded = 0 →
          h.Decided base (firstByte base (as ++ [a])) [a] [] ∧
            ∀ y ∈ ds, y.Resolved base [a] (firstByte base (as ++ [a])))
        (Storable base a.segment.payloadSeq a.segment.payload (firstByte base (as ++ [a])) [a])
        [] hsound hclosed hw (Nat.lt_of_le_of_lt (Nat.zero_le _) hcount) hcount ht
        (fun _ => HalfStream.storable_kept ..) ?_ ?_ ?_ ?_ ?_
      · exact ⟨hworked.1, hworked.2 ((hg.spares hsound).2 hun a.direction)⟩
      · intro pieces counters hin hfit _ hsyn _
        have hs' := decided_ahead hclosed ht hin hs hfit hsyn
        exact ⟨hs'.congr rfl rfl id, fun _ hy => absurd hy List.not_mem_nil⟩
      · exact fun hJ => hJ
      · intro accepted h' cs htaken _
        rcases htaken.handed with ⟨counters, -, hcs, hh, -, hsyn, hspans⟩ | ⟨y, hcs, hy⟩
        · subst hcs hh
          exact ⟨(decided_nothing hclosed ht hw hs hspans hsyn).congr rfl rfl id,
            fun _ hy => absurd hy List.not_mem_nil⟩
        · obtain ⟨hs', hres⟩ := decided_handed hclosed ht hw hs hy
          rw [hcs]
          refine ⟨hs', fun z hz => ?_⟩
          obtain rfl := List.mem_singleton.1 hz
          exact hres
      · intro h h' cs ds hp hm hJ hzero
        obtain ⟨hs, hds⟩ := hJ ((HalfStream.Moves.single hm).discarded_eq.symm.trans hzero)
        obtain ⟨hs', hcs⟩ := hs.move hp hm a.segment.payload
        refine ⟨hs', fun y hy => ?_⟩
        rcases List.mem_append.1 hy with hy | hy
        · exact hds y hy
        · exact hcs y hy
      · exact fun hJ _ hzero => (hJ hzero).imp_left Decided.closed

end Arrival

/-! ## Histories -/

open HalfStream (Decided Tidy)

variable {ceiling k : Nat} {d : Direction} {base : SeqNum} {c : Connection} {as : List Arrival}
  {current : List Arrival}

/-- One direction of a connection is settled, and nothing was given up. -/
structure Connection.Decided (base : SeqNum) (d : Direction) (current : List Arrival) (c : Connection)
    (as : List Arrival) : Prop where
  /-- Nothing was given up. -/
  unscathed : c.Unscathed
  /-- The half-stream is tidy. -/
  tidy : Tidy base (c.half d)
  /-- What arrived is settled. -/
  half : (c.half d).Decided base (Arrival.firstByte base as) current []

namespace Connection

theorem decided_new (base : SeqNum) (d : Direction) (flow : FlowId) (opener : Endpoint)
    (stream now : Nat) : (Connection.new flow opener stream now).Decided base d [] [] := by
  refine ⟨unscathed_new flow opener stream now, ?_, ?_⟩
  · rw [half_new]
    exact HalfStream.tidy_new d
  · rw [half_new]
    exact HalfStream.decided_new d

namespace Decided

/-- Once a call is over there is no current segment any more. -/
theorem rest (hs : c.Decided base d current as) : c.Decided base d [] as :=
  ⟨hs.unscathed, hs.tidy, hs.half.keeps, hs.half.waiting, fun _ ha => absurd ha List.not_mem_nil⟩

/-- Winding a connection up hands over the bytes that arrived first. -/
theorem close (hs : c.Decided base d current as) (hsane : c.Sane ceiling) :
    c.close.value.Decided base d current as ∧
      ∀ y ∈ (Chunk.ofDirection d c.close.chunks).map (Chunk.delivery []),
        y.Resolved base current (Arrival.firstByte base as) := by
  obtain ⟨-, -, hhalf⟩ := close_moves hsane
  obtain ⟨h', hm, -, hv⟩ := hhalf d
  obtain ⟨hsettled, hcs⟩ := hs.half.moves hs.tidy.placed hm []
  have htidy := hs.tidy.moves hm
  refine ⟨⟨hs.unscathed.close hsane, ?_, ?_⟩, hcs⟩
  · rw [hv]
    exact ⟨htidy.spread, htidy.pos_le⟩
  · rw [hv]
    exact hsettled.closed

/-- Working a segment in leaves the direction settled, whichever direction it travels in. -/
theorem work {a : Arrival} (hs : a.connection.Decided base d [] as) (hsound : a.before.Sound ceiling)
    (hw : a.direction = d → a.InWindow base) (hg : a.Granted)
    (hcount : a.connection.pageCount < a.config.pagesPerConnection) :
    a.work.connection.Decided base d (if a.direction = d then [a] else [])
        (as ++ if a.direction = d then [a] else []) ∧
      ∀ y ∈ a.deliveries d, y.Resolved base (if a.direction = d then [a] else [])
        (Arrival.firstByte base (as ++ if a.direction = d then [a] else [])) := by
  have hun := (hg.spares hsound).2 hs.unscathed
  by_cases hd : a.direction = d
  · simp only [if_pos hd]
    subst hd
    obtain ⟨htidy, hhalf, hds⟩ := Arrival.work_resolved hsound (hw rfl) hg hcount hs.unscathed
      hs.tidy hs.half
    exact ⟨⟨hun, htidy, hhalf⟩, hds⟩
  · simp only [if_neg hd, List.append_nil]
    have hm := Arrival.moves_of_ne hsound hd
    obtain ⟨hhalf, hds⟩ := hs.half.moves hs.tidy.placed hm a.segment.payload
    exact ⟨⟨hun, hs.tidy.moves hm, hhalf⟩, hds⟩

end Decided
end Connection

namespace Reassembly

/-- What arrived in the beginning of a history comes first in all of it. -/
theorem exists_arrivals_append (s : Reassembly) (before after : List Call) :
    ∃ rest, (s.history (before ++ after)).arrivals = (s.history before).arrivals ++ rest := by
  induction after using List.reverseRecOn with
  | nil => exact ⟨[], by rw [List.append_nil, List.append_nil]⟩
  | append_singleton after call ih =>
      obtain ⟨rest, hrest⟩ := ih
      refine ⟨rest ++ (s.history (before ++ after)).state.arrivals call, ?_⟩
      rw [← List.append_assoc, history_snoc, History.extend, hrest, List.append_assoc]

theorem exists_arrivalsAt_append (s : Reassembly) (before after : List Call) (k : Nat)
    (d : Direction) : ∃ rest,
      (s.history (before ++ after)).arrivalsAt k d = (s.history before).arrivalsAt k d ++ rest := by
  obtain ⟨rest, hrest⟩ := s.exists_arrivals_append before after
  exact ⟨_, by rw [History.arrivalsAt, hrest, List.filter_append]; rfl⟩

/-- The segments of a history that keeps to its limits: no request for a page is refused, every connection is
found below its limit, and one direction lies in a window. -/
structure Spacious (k : Nat) (d : Direction) (base : SeqNum) (as : List Arrival) : Prop where
  /-- No request for a page is refused. -/
  granted : ∀ a ∈ as, a.Granted
  /-- The connection is found below its limit. -/
  below : ∀ a ∈ as, a.stream = k → a.connection.pageCount < a.config.pagesPerConnection
  /-- The segments of the direction lie in the window. -/
  window : ∀ a ∈ as, a.stream = k → a.direction = d → a.InWindow base

theorem decided_history (calls : List Call)
    (hall : Spacious k d base ((fresh ceiling).history calls).arrivals) :
    Upheld ceiling k (fun c as _ => c.Decided base d [] as) (fun _ => True)
      ((fresh ceiling).history calls).state (((fresh ceiling).history calls).arrivalsAt k d)
      (((fresh ceiling).history calls).deliveries k d) := by
  refine Upheld.history calls ?_ ?_ ?_ ?_
  · exact fun flow opener now => Connection.decided_new base d flow opener k now
  · intro a ha hs hk as ds hP
    exact (hP.work hs (hall.window a ha hk) (hall.granted a ha) (hall.below a ha hk)).1.rest
  · exact fun a ha hs _ => Or.inr ((hall.granted a ha).spares hs).1
  · exact fun hs hP => (hP.close hs).1

/-- One more call hands over the bytes of the segment that it brings where they go before what waits, and those
that arrived first elsewhere. -/
theorem resolved_extend (calls : List Call) (call : Call)
    (hall : Spacious k d base ((fresh ceiling).history (calls ++ [call])).arrivals) :
    ∀ y ∈ (((fresh ceiling).history calls).state.perform call.fails call.now call.action).handed k d,
      y.Resolved base
        ((((fresh ceiling).history calls).state.arrivals call).filter fun a =>
          a.stream = k ∧ a.direction = d)
        (Arrival.firstByte base (((fresh ceiling).history (calls ++ [call])).arrivalsAt k d)) := by
  rw [history_snoc] at hall ⊢
  have hold := decided_history calls
    ⟨fun a ha => hall.granted a (List.mem_append_left _ ha),
      fun a ha => hall.below a (List.mem_append_left _ ha),
      fun a ha => hall.window a (List.mem_append_left _ ha)⟩
  generalize (fresh ceiling).history calls = r at *
  -- what the call adds comes after all that was there
  have hup := @Upheld.extend ceiling k
    (fun c as ds => c.Decided base d (as.drop (r.arrivalsAt k d).length) as ∧
      ∀ y ∈ ds.drop (r.deliveries k d).length,
        y.Resolved base (as.drop (r.arrivalsAt k d).length) (Arrival.firstByte base as))
    (fun _ => True) d r call (hold.imp ?_) ?_ ?_ ?_ ?_ ?_ ?_
  · rcases hup.exists_or_fresh with ⟨c, -, hds⟩ | ⟨-, hnone⟩
    · rw [r.arrivalsAt_extend, r.deliveries_extend, List.drop_left, List.drop_left] at hds
      rw [r.arrivalsAt_extend]
      exact hds
    · rw [r.deliveries_extend] at hnone
      rw [(List.append_eq_nil_iff.1 hnone).2]
      exact nofun
  · intro c hc
    rw [List.drop_length, List.drop_length]
    exact ⟨hc, nofun⟩
  · intro flow opener now
    rw [List.drop_nil, List.drop_nil]
    exact ⟨⟨Connection.decided_new base d flow opener k now, nofun⟩, trivial⟩
  · intro a ha hs hk hP
    have ha' : a ∈ (r.extend call).arrivals := List.mem_append_right _ ha
    rw [List.drop_left, List.drop_left]
    exact hP.1.rest.work hs (hall.window a ha' hk) (hall.granted a ha') (hall.below a ha' hk)
  · exact fun a ha hs _ => Or.inr ((hall.granted a (List.mem_append_right _ ha)).spares hs).1
  · intro c as ds hs hP
    obtain ⟨hsettled, hcs⟩ := hP.1.close hs
    refine ⟨hsettled, fun y hy => ?_⟩
    rw [List.drop_append] at hy
    rcases List.mem_append.1 hy with hy | hy
    · exact hP.2 y hy
    · exact hcs y (List.drop_subset _ _ hy)
  · exact fun _ _ => trivial
  · exact fun _ _ _ _ _ _ => trivial

/-- What keeps to the limits in the end did so in the beginning. -/
theorem Spacious.of_append {before after : List Call}
    (hall : Spacious k d base ((fresh ceiling).history (before ++ after)).arrivals) :
    Spacious k d base ((fresh ceiling).history before).arrivals := by
  obtain ⟨rest, hrest⟩ := (fresh ceiling).exists_arrivals_append before after
  rw [hrest] at hall
  exact ⟨fun a ha => hall.granted a (List.mem_append_left _ ha),
    fun a ha => hall.below a (List.mem_append_left _ ha),
    fun a ha => hall.window a (List.mem_append_left _ ha)⟩

/-- **Contradictions are resolved by two rules.** Let segments of one direction of a stream, whose bytes may
contradict each other, lie in a window, let no request for a page be refused, and let every connection be
found below its limit.

Then whatever a call hands over holds, at every offset, the byte of the segment that the call works in, if
that one goes before what waits; and if not, the byte of the first segment ever that held one there.  What
waits between calls is what arrived first, and so no later segment changes it. -/
theorem conflicts_resolved (calls : List Call)
    (hall : Spacious k d base ((fresh ceiling).history calls).arrivals) :
    let first := Arrival.firstByte base (((fresh ceiling).history calls).arrivalsAt k d)
    (∀ before call after, calls = before ++ call :: after →
      let s := ((fresh ceiling).history before).state
      ∀ y ∈ (s.perform call.fails call.now call.action).handed k d,
        y.Resolved base ((s.arrivals call).filter fun a => a.stream = k ∧ a.direction = d) first) ∧
    ∀ before after, calls = before ++ after →
      ∀ c ∈ ((fresh ceiling).history before).state.connections, c.stream = k →
        ∀ page ∈ (c.half d).pages, ∀ x b, page.byteAt base x = some b → first x = some b := by
  intro first
  refine ⟨?_, ?_⟩
  · rintro before call after rfl
    rw [List.append_cons] at hall
    have hresolved := resolved_extend before call hall.of_append
    obtain ⟨rest, hrest⟩ := (fresh ceiling).exists_arrivalsAt_append (before ++ [call]) after k d
    intro s y hy
    simp only [first]
    rw [List.append_cons, hrest]
    exact (hresolved y hy).append rest
  · rintro before after rfl c hc hk page hpage x b hx
    obtain ⟨rest, hrest⟩ := (fresh ceiling).exists_arrivalsAt_append before after k d
    have hdecided := (decided_history before hall.of_append).live c hc hk
    simp only [first]
    rw [hrest]
    exact Arrival.firstByte_append (hdecided.half.waiting page hpage x b hx) rest

/-- Calls with segments that contradict each other, at 12 and at 13. -/
def callsThatContradict : List Call :=
  [.ofSegment 8 9 .syn [], .ofSegment 8 13 ⟨0⟩ [1], .ofSegment 8 12 ⟨0⟩ [2, 3, 4],
    .ofSegment 8 10 ⟨0⟩ [5, 6, 7]]

theorem conflicts_resolved_over_waiting :
    Spacious 0 .forward (.ofNat 0) ((fresh 8).history callsThatContradict).arrivals ∧
      (((fresh 8).history callsThatContradict).deliveries 0 .forward).map Delivery.bytes =
        [[], [5, 6, 7], [1], [4]] ∧
      let first := Arrival.firstByte (.ofNat 0)
        (((fresh 8).history callsThatContradict).arrivalsAt 0 .forward)
      [10, 11, 12, 13, 14].map first = [some 5, some 6, some 2, some 1, some 4] ∧
      (∀ before call after, callsThatContradict = before ++ call :: after →
        let s := ((fresh 8).history before).state
        ∀ y ∈ (s.perform call.fails call.now call.action).handed 0 .forward,
          y.Resolved (.ofNat 0)
            ((s.arrivals call).filter fun a => a.stream = 0 ∧ a.direction = .forward) first) ∧
      ∀ before after, callsThatContradict = before ++ after →
        ∀ c ∈ ((fresh 8).history before).state.connections, c.stream = 0 →
          ∀ page ∈ (c.half .forward).pages, ∀ x b, page.byteAt (.ofNat 0) x = some b →
            first x = some b := by
  have hall : Spacious 0 .forward (.ofNat 0) ((fresh 8).history callsThatContradict).arrivals :=
    ⟨by decide, by decide, by decide⟩
  exact ⟨hall, by decide, by decide, conflicts_resolved callsThatContradict hall⟩

end Reassembly
end TcpStreams
