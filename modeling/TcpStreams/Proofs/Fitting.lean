import TcpStreams.Proofs.Placing

/-!
# What a fit says

In a window the fit of a segment is exact: it tells where the data lies, next to the number wanted and
to the pages that wait, and the pieces of data that has to wait are just what no page holds yet.

* `Backlog.gaps_pieces`: the gaps of a stretch are the pieces of it that no page holds.
* `Fit.of_cases`: the five places where data can lie, and the fit of each.
* `Fit.of_exact`: a fit is exact.
* `HalfStream.arrive_exact`: so is the fit that a half-stream comes to for a segment, and the counters
  go up as it says.
-/

namespace TcpStreams

variable {base : SeqNum} {pages : List Page} {len : Nat}

namespace Backlog

variable {start : SeqNum}

/-- `Pieces base pages start len pieces`: the stretches that `pages` leave of `len` bytes from `start`
on, in ascending order. -/
structure Pieces (base : SeqNum) (pages : List Page) (start : SeqNum) (len : Nat)
    (pieces : List Span) : Prop where
  /-- None is empty, and all of them lie within the bytes. -/
  bounds : ∀ p ∈ pieces, p.start < p.stop ∧ p.stop ≤ len
  /-- Each ends before the next one begins. -/
  ascending : pieces.Pairwise fun p p' => p.stop ≤ p'.start
  /-- They do not touch, as long as no page is empty. -/
  separate : (∀ page ∈ pages, 0 < page.size) → pieces.Pairwise fun p p' => p.stop < p'.start
  /-- Together they are what no page holds. -/
  exact : ∀ i, (∃ p ∈ pieces, p.start ≤ i ∧ i < p.stop) ↔
    i < len ∧ ¬ Covers base pages (base.offset start + i)

/-- **The gaps of a stretch are the pieces of it that no page holds.** -/
theorem gaps_pieces (h : Apart base SeqNum.reach pages) (hs : base.offset start ≤ SeqNum.reach)
    (len : Nat) : Pieces base pages start len (gaps start len 0 pages) := by
  have hbetween := @gaps_pairwise base start len 0 _ h hs
  refine ⟨fun p hp => (gaps_bounds hp).2, ?_, ?_, ?_⟩
  · refine hbetween.imp ?_
    rintro p p' ⟨q, -, hlo, hhi⟩
    have hq := q.lo_le_hi base
    omega
  · intro hsize
    refine hbetween.imp ?_
    rintro p p' ⟨q, hq, hlo, hhi⟩
    have hpos : q.lo base < q.hi base := Nat.lt_add_of_pos_right (hsize q hq)
    omega
  · intro i
    rw [mem_gaps_iff h hs]
    simp

/-- Pages leave nothing of a stretch exactly if they hold all of it. -/
theorem gaps_eq_nil_iff (h : Apart base SeqNum.reach pages)
    (hs : base.offset start ≤ SeqNum.reach) :
    gaps start len 0 pages = [] ↔ ∀ i < len, Covers base pages (base.offset start + i) := by
  have hpieces := gaps_pieces h hs len
  constructor
  · intro hnil i hi
    by_contra hc
    obtain ⟨p, hp, -⟩ := (hpieces.exact i).2 ⟨hi, hc⟩
    rw [hnil] at hp
    cases hp
  · intro hall
    refine List.eq_nil_iff_forall_not_mem.2 fun p hp => ?_
    have hb := hpieces.bounds p hp
    have hfree := (hpieces.exact p.start).1 ⟨p, hp, Nat.le_refl _, hb.1⟩
    exact hfree.2 (hall p.start hfree.1)

end Backlog

namespace Fit

variable {next : Option SeqNum} {start : SeqNum}

/-- Whether nothing is done with the data of a segment. -/
def isIgnored : Fit → Bool
  | empty | behind | covered => true
  | inOrder _ | ahead _ => false

/-- Whether the data of a segment, or a part of it, has to wait. -/
def isAhead : Fit → Bool
  | ahead _ => true
  | empty | behind | covered | inOrder _ => false

/-- `Exact base next pages start len fit`: the fit tells where `len` bytes from `start` on lie, with
`next` wanted and `pages` waiting. -/
structure Exact (base : SeqNum) (next : Option SeqNum) (pages : List Page) (start : SeqNum)
    (len : Nat) (fit : Fit) : Prop where
  /-- Data is in order at the offset where the next byte wanted is. -/
  inOrder_iff : ∀ k, fit = inOrder k ↔ k < len ∧ next = some (start.advance k)
  /-- Data is ignored if there is none, if it ends before the next byte wanted, or if it begins beyond
  that and all of it waits already. -/
  isIgnored_iff : fit.isIgnored = true ↔ len = 0 ∨
    (∃ n, next = some n ∧ base.offset start + len ≤ base.offset n) ∨
    ((∀ n, next = some n → base.offset n < base.offset start) ∧
      ∀ i < len, Backlog.Covers base pages (base.offset start + i))
  /-- All other data is ahead. -/
  isAhead_iff : fit.isAhead = true ↔ (∀ n, next = some n → base.offset n < base.offset start) ∧
    ∃ i < len, ¬ Backlog.Covers base pages (base.offset start + i)
  /-- What waits of it is what does not wait yet. -/
  pieces : ∀ ps, fit = ahead ps → Backlog.Pieces base pages start len ps

/-- A fit is empty exactly if there is no data. -/
theorem of_eq_empty_iff : of next pages start len = empty ↔ len = 0 := by
  have hwaiting : waiting pages start len ≠ empty := by
    unfold waiting
    split <;> nofun
  constructor
  · intro h
    by_contra hlen
    unfold of at h
    rw [if_neg hlen] at h
    cases next with
    | none => exact hwaiting h
    | some n =>
        simp only at h
        split at h
        · exact hwaiting h
        · split at h <;> cases h
  · intro hlen
    unfold of
    rw [if_pos hlen]

/-- The fit of data that lies ahead. -/
theorem waiting_cases (h : Backlog.Apart base SeqNum.reach pages)
    (hs : base.offset start ≤ SeqNum.reach) (len : Nat) :
    ((∀ i < len, Backlog.Covers base pages (base.offset start + i)) ∧
        waiting pages start len = covered) ∨
      ((∃ i < len, ¬ Backlog.Covers base pages (base.offset start + i)) ∧
        waiting pages start len = ahead (Backlog.gaps start len 0 pages)) := by
  have hnil := @Backlog.gaps_eq_nil_iff base _ len start h hs
  unfold waiting
  split
  · rename_i hgaps
    exact Or.inl ⟨hnil.1 hgaps, rfl⟩
  · rename_i hgaps
    refine Or.inr ⟨?_, rfl⟩
    by_contra hall
    push Not at hall
    exact hgaps (hnil.2 hall)

/-- **The five places where data can lie.** -/
theorem of_cases (h : Backlog.Apart base SeqNum.reach pages)
    (hnext : ∀ n, next = some n → base.offset n ≤ SeqNum.reach)
    (hin : base.offset start + len ≤ SeqNum.reach) :
    (len = 0 ∧ of next pages start len = empty) ∨
      (∃ n, 0 < len ∧ next = some n ∧ base.offset start + len ≤ base.offset n ∧
        of next pages start len = behind) ∨
      (∃ n k, next = some n ∧ k < len ∧ base.offset n = base.offset start + k ∧
        of next pages start len = inOrder k) ∨
      ((∀ n, next = some n → base.offset n < base.offset start) ∧
        (∀ i < len, Backlog.Covers base pages (base.offset start + i)) ∧ 0 < len ∧
        of next pages start len = covered) ∨
      ((∀ n, next = some n → base.offset n < base.offset start) ∧
        (∃ i < len, ¬ Backlog.Covers base pages (base.offset start + i)) ∧
        of next pages start len = ahead (Backlog.gaps start len 0 pages)) := by
  have hs : base.offset start ≤ SeqNum.reach := Nat.le_trans (Nat.le_add_right ..) hin
  unfold of
  by_cases hlen : len = 0
  · rw [if_pos hlen]
    exact Or.inl ⟨hlen, rfl⟩
  · have hpos : 0 < len := Nat.pos_of_ne_zero hlen
    rw [if_neg hlen]
    cases next with
    | none =>
        rcases waiting_cases h hs len with ⟨hall, hw⟩ | ⟨hsome, hw⟩
        · exact Or.inr (Or.inr (Or.inr (Or.inl ⟨nofun, hall, hpos, hw⟩)))
        · exact Or.inr (Or.inr (Or.inr (Or.inr ⟨nofun, hsome, hw⟩)))
    | some n =>
        simp only [SeqNum.distance_eq_offset_sub (hnext n rfl) hs]
        by_cases hlead : base.offset n < base.offset start
        · have hbefore : ∀ m, some n = some m → base.offset m < base.offset start := by
            intro m hm
            obtain rfl := Option.some.inj hm
            exact hlead
          rw [if_pos (by omega)]
          rcases waiting_cases h hs len with ⟨hall, hw⟩ | ⟨hsome, hw⟩
          · exact Or.inr (Or.inr (Or.inr (Or.inl ⟨hbefore, hall, hpos, hw⟩)))
          · exact Or.inr (Or.inr (Or.inr (Or.inr ⟨hbefore, hsome, hw⟩)))
        · rw [if_neg (by omega)]
          by_cases hend : base.offset start + len ≤ base.offset n
          · rw [if_pos (by omega)]
            exact Or.inr (Or.inl ⟨n, hpos, rfl, hend, rfl⟩)
          · rw [if_neg (by omega)]
            exact Or.inr (Or.inr (Or.inl ⟨n, _, rfl, by omega, by omega, rfl⟩))

/-! ### Each fit is exact at its place -/

section Places

variable {n : SeqNum} {k : Nat}

theorem exact_empty (base : SeqNum) (next : Option SeqNum) (pages : List Page) (start : SeqNum) :
    Exact base next pages start 0 empty := by
  refine ⟨fun k => by simp, by simp [isIgnored], by simp [isAhead], fun ps h => ?_⟩
  cases h

/-- The offset of a byte of data in a window. -/
theorem offset_byte (hin : base.offset start + len ≤ SeqNum.reach) (hk : k < len) :
    base.offset (start.advance k) = base.offset start + k := by
  rw [SeqNum.reach] at hin
  exact SeqNum.offset_advance base start (by omega)

/-- Data beyond the next byte wanted does not hold it. -/
theorem next_ne_of_before (hin : base.offset start + len ≤ SeqNum.reach)
    (hbefore : ∀ n, next = some n → base.offset n < base.offset start) (hk : k < len) :
    next ≠ some (start.advance k) := by
  intro hkn
  have hlt := hbefore _ hkn
  rw [offset_byte hin hk] at hlt
  omega

theorem exact_behind (hin : base.offset start + len ≤ SeqNum.reach)
    (hend : base.offset start + len ≤ base.offset n) : Exact base (some n) pages start len behind := by
  refine ⟨fun k => ⟨fun h => ?_, fun h => ?_⟩, ⟨fun _ => ?_, fun _ => rfl⟩, ⟨fun h => ?_, fun h => ?_⟩,
    fun ps h => ?_⟩
  · cases h
  · obtain ⟨hk, hkn⟩ := h
    have hbyte := offset_byte hin hk
    rw [← Option.some.inj hkn] at hbyte
    omega
  · exact Or.inr (Or.inl ⟨n, rfl, hend⟩)
  · cases h
  · have hlt := h.1 n rfl
    omega
  · cases h

theorem exact_inOrder (hin : base.offset start + len ≤ SeqNum.reach) (hk : k < len)
    (hn : base.offset n = base.offset start + k) :
    Exact base (some n) pages start len (inOrder k) := by
  refine ⟨fun i => ⟨fun h => ?_, fun h => ?_⟩, ⟨fun h => ?_, fun h => ?_⟩, ⟨fun h => ?_, fun h => ?_⟩,
    fun ps h => ?_⟩
  · obtain rfl := Fit.inOrder.inj h
    exact ⟨hk, congrArg some (SeqNum.offset_inj.1 (hn.trans (offset_byte hin hk).symm))⟩
  · obtain ⟨hi, hwanted⟩ := h
    have hbyte := offset_byte hin hi
    rw [← Option.some.inj hwanted] at hbyte
    congr 1
    omega
  · cases h
  · rcases h with hzero | ⟨m, hm, hle⟩ | ⟨hlt, -⟩
    · omega
    · obtain rfl := Option.some.inj hm
      omega
    · have := hlt n rfl
      omega
  · cases h
  · have hlt := h.1 n rfl
    omega
  · cases h

theorem exact_covered (hin : base.offset start + len ≤ SeqNum.reach)
    (hbefore : ∀ n, next = some n → base.offset n < base.offset start)
    (hall : ∀ i < len, Backlog.Covers base pages (base.offset start + i)) :
    Exact base next pages start len covered := by
  refine ⟨fun k => ⟨fun h => ?_, fun h => ?_⟩, ⟨fun _ => ?_, fun _ => rfl⟩, ⟨fun h => ?_, fun h => ?_⟩,
    fun ps h => ?_⟩
  · cases h
  · exact absurd h.2 (next_ne_of_before hin hbefore h.1)
  · exact Or.inr (Or.inr ⟨hbefore, hall⟩)
  · cases h
  · obtain ⟨-, i, hi, hfree⟩ := h
    exact absurd (hall i hi) hfree
  · cases h

theorem exact_ahead (h : Backlog.Apart base SeqNum.reach pages)
    (hin : base.offset start + len ≤ SeqNum.reach)
    (hbefore : ∀ n, next = some n → base.offset n < base.offset start)
    (hsome : ∃ i < len, ¬ Backlog.Covers base pages (base.offset start + i)) :
    Exact base next pages start len (ahead (Backlog.gaps start len 0 pages)) := by
  refine ⟨fun k => ⟨fun h => ?_, fun h => ?_⟩, ⟨fun h => ?_, fun h => ?_⟩,
    ⟨fun _ => ⟨hbefore, hsome⟩, fun _ => rfl⟩, fun ps heq => ?_⟩
  · cases h
  · exact absurd h.2 (next_ne_of_before hin hbefore h.1)
  · cases h
  · obtain ⟨i, hi, hfree⟩ := hsome
    rcases h with hzero | ⟨m, hm, hle⟩ | ⟨-, hall⟩
    · omega
    · have := hbefore m hm
      omega
    · exact absurd (hall i hi) hfree
  · obtain rfl := Fit.ahead.inj heq
    exact Backlog.gaps_pieces h (Nat.le_trans (Nat.le_add_right ..) hin) len

end Places

/-- **A fit is exact.** -/
theorem of_exact (h : Backlog.Apart base SeqNum.reach pages)
    (hnext : ∀ n, next = some n → base.offset n ≤ SeqNum.reach)
    (hin : base.offset start + len ≤ SeqNum.reach) :
    Exact base next pages start len (of next pages start len) := by
  rcases of_cases h hnext hin with ⟨rfl, hof⟩ | ⟨n, -, rfl, hend, hof⟩ |
    ⟨n, k, rfl, hk, hn, hof⟩ | ⟨hbefore, hall, -, hof⟩ | ⟨hbefore, hsome, hof⟩
  all_goals rw [hof]
  · exact exact_empty ..
  · exact exact_behind hin hend
  · exact exact_inOrder hin hk hn
  · exact exact_covered hin hbefore hall
  · exact exact_ahead h hin hbefore hsome

end Fit

namespace HalfStream

variable {h : HalfStream} {segment : Segment}

/-- The next byte wanted once a segment has come: a SYN says which one it is, if nothing has so far. -/
def wanted (h : HalfStream) (segment : Segment) : Option SeqNum :=
  if segment.flags.isSyn && h.next.isNone then some segment.payloadSeq else h.next

theorem synchronize_wanted (h : HalfStream) (segment : Segment) :
    (h.synchronize segment).value.next = h.wanted segment ∧
      (h.synchronize segment).value.pages = h.pages ∧
      (h.synchronize segment).value.counters = h.counters.addSegment := by
  cases hsyn : segment.flags.isSyn && h.next.isNone with
  | true =>
      simp only [synchronize, wanted, hsyn, if_true]
      cases segment.payload.isEmpty with
      | true => exact ⟨congrArg some (SeqNum.advance_zero _), rfl, rfl⟩
      | false => exact ⟨rfl, rfl, rfl⟩
  | false =>
      simp only [synchronize, wanted, hsyn, Bool.false_eq_true, if_false]
      exact ⟨trivial, trivial, trivial⟩

/-- The fit that a half-stream comes to. -/
theorem fit_arrive (h : HalfStream) (segment : Segment) :
    (h.arrive segment).value.2 =
      Fit.of (h.wanted segment) h.pages segment.payloadSeq segment.payload.length := by
  obtain ⟨hnext, hpages, -⟩ := h.synchronize_wanted segment
  rw [arrive, Yield.andThen, hnext, hpages]

/-- **Placement is exact.** The pages of a half-stream are in order and apart, and they, the next byte
wanted and a segment lie in a window.  Then the fit of the segment is exact, with the number wanted that
a SYN may have set.  The segment is counted as one that has to wait if it is ahead, as a retransmission
if it has data and is ignored, and otherwise as neither. -/
theorem arrive_exact (hpages : Backlog.Apart base SeqNum.reach h.pages)
    (hnext : ∀ n, h.next = some n → base.offset n ≤ SeqNum.reach)
    (hin : base.offset segment.payloadSeq + segment.payload.length ≤ SeqNum.reach) :
    Fit.Exact base (h.wanted segment) h.pages segment.payloadSeq segment.payload.length
        (h.arrive segment).value.2 ∧
      (h.arrive segment).value.1.counters =
        { h.counters with
          segments := h.counters.segments + 1
          buffered := h.counters.buffered +
            if (h.arrive segment).value.2.isAhead then 1 else 0
          retransmissions := h.counters.retransmissions +
            if (h.arrive segment).value.2.isIgnored && !segment.payload.isEmpty then 1 else 0 } := by
  obtain ⟨-, -, hcounters⟩ := h.synchronize_wanted segment
  have hwanted : ∀ n, h.wanted segment = some n → base.offset n ≤ SeqNum.reach := by
    intro n hn
    rw [wanted] at hn
    split at hn
    · obtain rfl := Option.some.inj hn
      omega
    · exact hnext n hn
  have hfit := h.fit_arrive segment
  refine ⟨hfit ▸ Fit.of_exact hpages hwanted hin, ?_⟩
  have hcount : (h.arrive segment).value.1.counters =
      (h.arrive segment).value.2.count h.counters.addSegment := by
    rw [← hcounters]
    rfl
  rw [hcount]
  have hempty : (h.arrive segment).value.2 = .empty ↔ segment.payload.isEmpty = true := by
    rw [hfit, Fit.of_eq_empty_iff, List.length_eq_zero_iff, List.isEmpty_iff]
  cases hf : (h.arrive segment).value.2 with
  | empty =>
      rw [hempty.1 hf]
      rfl
  | behind | covered =>
      have hdata : segment.payload.isEmpty = false := by
        rw [Bool.eq_false_iff, Ne, ← hempty, hf]
        nofun
      rw [hdata]
      rfl
  | inOrder k => rfl
  | ahead pieces => rfl

/-- A half-stream that waits for the last number before they begin anew, and for what lies between its
three pages. -/
def aroundZero : HalfStream :=
  { direction := .forward
    phase := .started
    next := some (.ofNat 0xffffffff)
    pages := [⟨.ofNat 1, [97, 98]⟩, ⟨.ofNat 3, [99]⟩, ⟨.ofNat 6, [100, 101]⟩] }

/-- A segment that reaches over all of them. -/
def overPages : Segment :=
  { srcPort := 1, dstPort := 2, seq := .ofNat 0, flags := ⟨0⟩
    payload := [102, 97, 98, 99, 103, 104, 100, 101, 105] }

theorem arrive_exact_between_pages :
    (aroundZero.arrive overPages).value.2 = .ahead [⟨0, 1⟩, ⟨4, 6⟩, ⟨8, 9⟩] ∧
    Fit.Exact (.ofNat 0xfffffff0) (aroundZero.wanted overPages) aroundZero.pages
      overPages.payloadSeq overPages.payload.length (aroundZero.arrive overPages).value.2 ∧
    (aroundZero.arrive overPages).value.1.counters.buffered = 1 :=
  have hexact := @arrive_exact (.ofNat 0xfffffff0) aroundZero overPages
    ⟨by decide, by decide⟩
    (by
      intro n hn
      obtain rfl := Option.some.inj hn
      decide)
    (by decide)
  ⟨by decide, hexact.1, by decide⟩

end HalfStream

end TcpStreams
