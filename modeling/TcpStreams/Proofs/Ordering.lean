import TcpStreams.Proofs.Halves
import TcpStreams.Proofs.Tidy

/-!
# Ordered delivery

However little can be kept waiting, and whatever is given up, skipped or flushed: as long as the
segments of one direction of a stream quote one line of bytes inside a window, the chunks handed over
quote it too, and each of them begins where the one before it ended or later.  Nothing is assumed of
the settings: the reassemblers may disagree about them from call to call.

* `HalfStream.Ordered`: what holds between calls, and after every step of a call.
* `Reassembly.deliveries_ordered`: chunks quote the line, one after the other.
-/

namespace TcpStreams

/-- The data of the segment is what `line` holds at its offset from `base`. -/
def Arrival.Quotes (base : SeqNum) (line : List UInt8) (a : Arrival) : Prop :=
  a.segment.payload <+: line.drop (base.offset a.segment.payloadSeq)

instance (base : SeqNum) (line : List UInt8) (a : Arrival) : Decidable (a.Quotes base line) :=
  inferInstanceAs (Decidable (_ <+: _))

namespace HalfStream

variable {base : SeqNum} {line : List UInt8} {h h' : HalfStream} {ds : List Delivery}

/-- What waits quotes the line, and so does what was handed on, in order and up to the position. -/
structure Ordered (base : SeqNum) (line : List UInt8) (h : HalfStream) (ds : List Delivery) :
    Prop where
  /-- What waits lies in the window. -/
  pages_le : ∀ page ∈ h.pages, page.hi base ≤ SeqNum.reach
  /-- What waits quotes the line. -/
  pages : ∀ page ∈ h.pages, page.bytes <+: line.drop (page.lo base)
  /-- The position lies in the window. -/
  pos_le : h.pos base ≤ SeqNum.reach
  /-- Before the stream has begun nothing was handed on. -/
  idle : h.next = none → ds = []
  /-- What was handed on quotes the line. -/
  bytes : ∀ x ∈ ds, x.bytes <+: line.drop (x.lo base)
  /-- It was handed on in order. -/
  order : ds.Pairwise fun x y => x.hi base ≤ y.lo base
  /-- All of it lies before the position. -/
  before : ∀ x ∈ ds, x.hi base ≤ h.pos base

namespace Ordered

theorem new (d : Direction) : Ordered base line (HalfStream.new d) [] where
  pages_le _ h := nomatch h
  pages _ h := nomatch h
  pos_le := Nat.zero_le _
  idle _ := rfl
  bytes _ h := nomatch h
  order := List.Pairwise.nil
  before _ h := nomatch h

/-- One more chunk is handed on, from the position on or later. -/
theorem snoc (ho : Ordered base line h ds) {x : Delivery} {next : SeqNum}
    (hsub : h'.pages ⊆ h.pages) (hnext : h'.next = some next) (hlo : h.pos base ≤ x.lo base)
    (hhi : base.offset next = x.hi base) (hle : x.hi base ≤ SeqNum.reach)
    (hbytes : x.bytes <+: line.drop (x.lo base)) : Ordered base line h' (ds ++ [x]) := by
  have hpos : h'.pos base = x.hi base := (pos_some hnext).trans hhi
  refine ⟨fun p hp => ho.pages_le p (hsub hp), fun p hp => ho.pages p (hsub hp), hpos ▸ hle, ?_, ?_,
    ?_, ?_⟩
  · intro hnone
    rw [hnext] at hnone
    cases hnone
  · intro y hy
    rcases List.mem_append.1 hy with hy | hy
    · exact ho.bytes y hy
    · obtain rfl := List.mem_singleton.1 hy
      exact hbytes
  · refine List.pairwise_append.2 ⟨ho.order, List.pairwise_singleton _ _, ?_⟩
    intro y hy z hz
    obtain rfl := List.mem_singleton.1 hz
    exact Nat.le_trans (ho.before y hy) hlo
  · intro y hy
    rw [hpos]
    rcases List.mem_append.1 hy with hy | hy
    · have hxy := ho.before y hy
      have hx : x.lo base ≤ x.hi base := Nat.le_add_right _ _
      omega
    · obtain rfl := List.mem_singleton.1 hy
      exact Nat.le_refl _

/-- Moves keep a half-stream ordered. -/
theorem move (ho : Ordered base line h ds) {leaps : Bool} {cs : List Chunk}
    (hm : Move leaps h cs h') (payload : List UInt8) :
    Ordered base line h' (ds ++ cs.map (Chunk.delivery payload)) := by
  cases hm with
  | free hp hb =>
      rw [List.map_nil, List.append_nil]
      have hsub : _ ⊆ h.pages := hp ▸ List.subset_cons_self ..
      exact { ho with
        pages_le := fun p hp => ho.pages_le p (hsub hp)
        pages := fun p hp => ho.pages p (hsub hp) }
  | @trim page rest hp hb =>
      have hmem : page ∈ h.pages := hp ▸ List.mem_cons_self ..
      have hsub : rest ⊆ h.pages := hp ▸ List.subset_cons_self ..
      have hhi := ho.pages_le page hmem
      rw [List.map_nil, List.append_nil]
      refine { ho with pages_le := ?_, pages := ?_ }
      · intro p hp
        rcases List.mem_cons.1 hp with rfl | hp
        · rw [hi_trimmed ho.pos_le hhi hb]
          exact hhi
        · exact ho.pages_le p (hsub hp)
      · intro p hp
        rcases List.mem_cons.1 hp with rfl | hp
        · exact bytes_trimmed ho.pos_le hhi hb (ho.pages page hmem)
        · exact ho.pages p (hsub hp)
  | @hand page rest phase hp hb _ _ =>
      have hmem : page ∈ h.pages := hp ▸ List.mem_cons_self ..
      have hsub : rest ⊆ h.pages := hp ▸ List.subset_cons_self ..
      have hhi := ho.pages_le page hmem
      have hlo' := lo_trimmed ho.pos_le hhi hb
      have hhi' := hi_trimmed ho.pos_le hhi hb
      have hle : (h.trimmed page).hi base ≤ SeqNum.reach := Nat.le_trans (Nat.le_of_eq hhi') hhi
      refine ho.snoc hsub rfl ?_ (Page.offset_stop hle) hle
        (bytes_trimmed ho.pos_le hhi hb (ho.pages page hmem))
      show h.pos base ≤ (h.trimmed page).lo base
      omega

/-- Giving a page up keeps a half-stream ordered. -/
theorem lose (ho : Ordered base line h ds) {page : Page} {rest : List Page}
    (hp : h.pages = page :: rest) : Ordered base line (h.lose page rest) ds := by
  have hsub : rest ⊆ h.pages := hp ▸ List.subset_cons_self ..
  have hhi := ho.pages_le page (hp ▸ List.mem_cons_self ..)
  have hpos' := @pos_lose base h page rest ho.pos_le hhi
  refine ⟨fun p hp => ho.pages_le p (hsub hp), fun p hp => ho.pages p (hsub hp), ?_, ?_, ho.bytes,
    ho.order, ?_⟩
  · rw [hpos']
    have := ho.pos_le
    split <;> omega
  · intro hnone
    refine ho.idle ?_
    exact Option.map_eq_none_iff.1 hnone
  · intro x hx
    have hxpos := ho.before x hx
    rw [hpos']
    split
    case isTrue hnone =>
      rw [ho.idle hnone] at hx
      cases hx
    case isFalse => omega

/-- So does every change while data is stored that quotes the line. -/
theorem change (ho : Ordered base line h ds) {start : SeqNum} {payload : List UInt8}
    {cs : List Chunk} (hw : base.offset start + payload.length ≤ SeqNum.reach)
    (hq : payload <+: line.drop (base.offset start)) (hc : Change start payload h cs h') :
    Ordered base line h' (ds ++ cs.map (Chunk.delivery payload)) := by
  cases hc with
  | move hm => exact ho.move hm payload
  | lose hp =>
      rw [List.map_nil, List.append_nil]
      exact ho.lose hp
  | drop _ =>
      rw [List.map_nil, List.append_nil]
      exact { ho with }
  | @hold span hlt hstop =>
      rw [List.map_nil, List.append_nil]
      have hlen := Span.length_slice hstop
      have hadv := SeqNum.offset_advance base start (n := span.start)
        (by rw [SeqNum.reach] at hw; omega)
      have hlo : Page.lo base ⟨start.advance span.start, span.slice payload⟩ =
          base.offset start + span.start := hadv
      refine { ho with pages_le := ?_, pages := ?_ }
      · intro p hp
        rcases Backlog.mem_insert.1 hp with rfl | hp
        · rw [Page.hi, hlo, Page.size, hlen, Span.size]
          omega
        · exact ho.pages_le p hp
      · intro p hp
        rcases Backlog.mem_insert.1 hp with rfl | hp
        · rw [hlo, ← List.drop_drop]
          exact (List.take_prefix _ _).trans (hq.drop _)
        · exact ho.pages p hp

/-- The arrival of a segment keeps a half-stream ordered. -/
theorem arrive (ho : Ordered base line h ds) {segment : Segment}
    (hw : (h.next = none ∧ segment.flags.isSyn = true) ∨ segment.payload ≠ [] →
      base.offset segment.payloadSeq + segment.payload.length ≤ SeqNum.reach) :
    Ordered base line (h.arrive segment).value.1
      (ds ++ (h.arrive segment).chunks.map (Chunk.delivery segment.payload)) := by
  have hnoted := h.arrive_noted segment
  generalize (h.arrive segment).value.1 = h' at *
  generalize (h.arrive segment).chunks = cs at *
  cases hnoted with
  | counted _ _ =>
      rw [List.map_nil, List.append_nil]
      exact { ho with }
  | greeted hsyn hn hp _ =>
      have hle := hw (Or.inl ⟨hn, hsyn⟩)
      have hbytes : Source.bytes segment.payload (.payload ⟨0, 0⟩) = [] := rfl
      refine ho.snoc (List.Subset.refl _) rfl ?_ ?_ ?_ ?_
      · rw [pos_none hn]
        exact Nat.zero_le _
      · rw [SeqNum.advance_zero]
        rfl
      · exact Nat.le_trans (Nat.le_add_right _ _) hle
      · exact List.nil_prefix
  | begun hsyn hn hp _ =>
      have hle := hw (Or.inl ⟨hn, hsyn⟩)
      rw [List.map_nil, List.append_nil]
      refine { ho with pos_le := Nat.le_trans (Nat.le_add_right _ _) hle, idle := nofun, before := ?_ }
      rw [ho.idle hn]
      exact fun _ hx => nomatch hx

/-- Data in order keeps a half-stream ordered. -/
theorem pass (ho : Ordered base line h ds) {start next : SeqNum} {payload : List UInt8}
    {offset : Nat} (hw : base.offset start + payload.length ≤ SeqNum.reach)
    (hq : payload <+: line.drop (base.offset start)) (hn : h.next = some next)
    (hlead : next.distance start ≤ 0) (hoffset : offset = (next.distance start).natAbs)
    (hlt : offset < payload.length) :
    Ordered base line (h.pass payload.length offset).value
      (ds ++ (h.pass payload.length offset).chunks.map (Chunk.delivery payload)) := by
  obtain ⟨hv, hc⟩ := pass_some hn payload.length offset
  have hpos := ho.pos_le
  rw [pos_some hn] at hpos
  have hdist := SeqNum.distance_eq_offset_sub hpos (b := start) (by omega)
  have hnext : base.offset next = base.offset start + offset := by omega
  have hlen : (Span.slice ⟨offset, payload.length⟩ payload).length = payload.length - offset :=
    Span.length_slice (Nat.le_refl _)
  have hadv := SeqNum.offset_advance base next (n := payload.length - offset)
    (by rw [SeqNum.reach] at hw; omega)
  rw [hv, hc]
  refine ho.snoc (List.Subset.refl _) rfl ?_ ?_ ?_ ?_
  · rw [pos_some hn]
    exact Nat.le_refl _
  · rw [hadv]
    exact congrArg (base.offset next + ·) hlen.symm
  · show base.offset next + (Span.slice ⟨offset, payload.length⟩ payload).length ≤ SeqNum.reach
    omega
  · show Span.slice ⟨offset, payload.length⟩ payload <+: line.drop (base.offset next)
    rw [hnext, ← List.drop_drop]
    exact (List.take_prefix _ _).trans (hq.drop _)

end Ordered
end HalfStream

/-! ## Segments -/

open HalfStream (Ordered)

variable {ceiling k : Nat} {d : Direction} {base : SeqNum} {line : List UInt8}

/-- Finding a place for the data of a segment keeps its half-stream ordered. -/
theorem Work.placed_ordered {w : Work} {segment : Segment} {ds : List Delivery}
    (hs : w.Sound ceiling) (hopen : (w.connection.half d).isClosed = false)
    (hw : ((w.connection.half d).next = none ∧ segment.flags.isSyn = true) ∨ segment.payload ≠ [] →
      base.offset segment.payloadSeq + segment.payload.length ≤ SeqNum.reach)
    (hq : segment.payload <+: line.drop (base.offset segment.payloadSeq))
    (ho : Ordered base line (w.connection.half d) ds) (limit : Nat) (locked : List FlowId) :
    Reaches ceiling d segment.payload (Ordered base line) ds w
      (w.placed limit locked d segment) := by
  have harrived := reaches_arrived (J := Ordered base line) hs hopen (ho.arrive hw)
  obtain ⟨hlead, -, hopen'⟩ := leads_arrived hs hopen segment
  rw [placed]
  cases hfit : w.fit d segment with
  | empty | behind | covered => exact harrived
  | inOrder offset =>
      obtain ⟨hpass, hcs⟩ := @leads_pass ceiling d _ hlead.sound segment.payload.length offset
      rw [fit_eq] at hfit
      obtain ⟨next, hn, hdist, hoffset, hlt⟩ := Fit.of_inOrder hfit
      have hne : segment.payload ≠ [] := List.ne_nil_of_length_pos (by omega)
      exact harrived.onHalf hpass hcs fun ho =>
        ho.pass (hw (Or.inr hne)) hq hn hdist hoffset hlt
  | ahead pieces =>
      obtain ⟨new, hstore, hchanges⟩ := @store_changes ceiling limit d _ locked segment.payloadSeq
        segment.payload _ hlead.sound hopen' (portions_bounds hfit)
      rw [fit_eq] at hfit
      have hne : segment.payload ≠ [] := List.ne_nil_of_length_pos (Fit.of_ahead hfit).1
      exact harrived.trans hstore fun ho =>
        hchanges.keep (fun ho hc => ho.change (hw (Or.inr hne)) hq hc) ho

/-- Working a segment in keeps its half-stream ordered. -/
theorem Arrival.work_ordered {a : Arrival} {ds : List Delivery} (hs : a.before.Sound ceiling)
    (hw : a.InWindow base) (hq : a.Quotes base line) (ho : Ordered base line a.half ds) :
    Ordered base line (a.work.connection.half a.direction) (ds ++ a.deliveries a.direction) := by
  cases hclosed : a.half.isClosed with
  | true =>
      obtain ⟨hconn, -, -, hchunks⟩ := work_of_closed hclosed
      rw [deliveries, hconn, hchunks, Chunk.ofDirection_nil, List.map_nil, List.append_nil]
      exact ho
  | false =>
      have hw : (a.half.next = none ∧ a.segment.flags.isSyn = true) ∨ a.segment.payload ≠ [] →
          base.offset a.segment.payloadSeq + a.segment.payload.length ≤ SeqNum.reach :=
        fun hc => hw (hc.imp_left fun hb => ⟨hclosed, hb⟩)
      refine of_reaches hclosed (Work.reaches_accept
        (Work.placed_ordered hs hclosed hw hq ho a.config.pagesPerConnection a.locked)
        (fun ho => ?_) (fun ho hm => ho.move hm _) fun ho _ => { ho with })
      exact (HalfStream.drain_moves _).keep (fun ho hm => ho.move hm _) ho

namespace Reassembly

/-- Order is kept by everything but a segment. -/
theorem kept_ordered (ceiling : Nat) (d : Direction) (base : SeqNum) (line : List UInt8) :
    Kept ceiling d (fun _ => True) fun h _ ds => Ordered base line h ds where
  new _ _ _ _ := trivial
  newHalf := .new d
  move ho hm payload := ho.move hm payload
  lose ho hp := ho.lose hp
  sheds _ _ := trivial
  closed ho _ := { ho with }
  close _ _ := trivial

/-- **Ordered delivery.** If the segments of one direction of a stream quote one line of bytes inside
a window, so do the chunks that are handed over, each at the offset of its number, and each chunk
begins where the one before it ended or later.  So no offset is handed over twice or out of order, and
every byte handed over is one of this direction of this stream. -/
theorem deliveries_ordered (calls : List Call)
    (hline : ∀ a ∈ ((fresh ceiling).history calls).arrivalsAt k d,
      a.InWindow base ∧ a.Quotes base line) :
    (∀ x ∈ ((fresh ceiling).history calls).deliveries k d,
        x.bytes <+: line.drop (x.lo base)) ∧
      (((fresh ceiling).history calls).deliveries k d).Pairwise
        fun x y => x.hi base ≤ y.lo base := by
  have hup := (kept_ordered ceiling d base line).history (k := k) calls (fun _ _ _ _ h => h) (by
    intro a ha hs as ds hP
    obtain ⟨hw, hq⟩ := hline a ha
    obtain ⟨-, hat⟩ := List.mem_filter.1 ha
    obtain ⟨hk, rfl⟩ := of_decide_eq_true hat
    exact Arrival.work_ordered hs hw hq hP.2)
  rcases hup.exists_or_fresh with ⟨c, -, ho⟩ | ⟨-, hds⟩
  · exact ⟨ho.bytes, ho.order⟩
  · rw [hds]
    exact ⟨(fun _ hx => nomatch hx), List.Pairwise.nil⟩

/-- Calls by two reassemblers, one of which leaps over every gap. -/
def callsOverGaps : List Call :=
  [.ofSegment 2 14 ⟨0⟩ [101, 102], .ofSegment 2 9 .syn [97], .ofSegment 1 11 ⟨0⟩ [98],
    .ofSegment 1 17 ⟨0⟩ [104], .ofSegment 2 12 ⟨0⟩ [99, 100, 101]]

/-- The line that their segments quote. -/
def lineOverGaps : List UInt8 := [97, 98, 99, 100, 101, 102, 103, 104]

theorem deliveries_ordered_over_gaps :
    (∀ a ∈ ((fresh 2).history callsOverGaps).arrivalsAt 0 .forward,
      a.InWindow (.ofNat 10) ∧ a.Quotes (.ofNat 10) lineOverGaps) ∧
    (((fresh 2).history callsOverGaps).deliveries 0 .forward).map Delivery.bytes =
      [[97], [98], [101, 102], [104]] ∧
    (∀ x ∈ ((fresh 2).history callsOverGaps).deliveries 0 .forward,
      x.bytes <+: lineOverGaps.drop (x.lo (.ofNat 10))) ∧
    (((fresh 2).history callsOverGaps).deliveries 0 .forward).Pairwise
      fun x y => x.hi (.ofNat 10) ≤ y.lo (.ofNat 10) :=
  ⟨by decide, by decide, deliveries_ordered callsOverGaps (by decide)⟩

end Reassembly
end TcpStreams
