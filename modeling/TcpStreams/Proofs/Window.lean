import TcpStreams.Backlog

/-!
# Sequence numbers in a window

Sequence numbers go round, so they have no order of their own.  Inside a *window*, fewer than
`2 ^ 31` consecutive numbers going up from a `base`, they do: a number is as good as its offset from
the base, and the signed distance between two numbers is the difference of their offsets.  Everything
that is proved about the order of stream bytes is proved in such a window.

* `SeqNum.distance_eq_offset_sub`: distances are differences of offsets.
* `SeqNum.offset_advance`: advancing adds to the offset.
* `Page.lo` and `Page.hi`: the offsets between which a page lies, and what cutting off its front
  does to them.
-/

namespace TcpStreams

namespace SeqNum

/-- How far a number lies ahead of `base`, going up. -/
def offset (base s : SeqNum) : Nat := (s.toNat + (0x100000000 - base.toNat)) % 0x100000000

/-- The greatest offset in a window. -/
def reach : Nat := 0x7fffffff

/-- Going up by its offset leads from the base to the number. -/
theorem advance_offset (base s : SeqNum) : base.advance (base.offset s) = s := by
  have hb := base.toNat_lt
  have hs := s.toNat_lt
  rw [← toNat_inj, toNat_advance, offset]
  omega

theorem offset_inj {base a b : SeqNum} : base.offset a = base.offset b ↔ a = b := by
  refine ⟨fun h => ?_, fun h => h ▸ rfl⟩
  rw [← base.advance_offset a, h, base.advance_offset]

theorem offset_self (base : SeqNum) : base.offset base = 0 := by
  have hb := base.toNat_lt
  rw [offset]
  omega

/-- Advancing a number adds to its offset, as long as that does not go round. -/
theorem offset_advance (base s : SeqNum) {n : Nat} (h : base.offset s + n < 0x100000000) :
    base.offset (s.advance n) = base.offset s + n := by
  have hb := base.toNat_lt
  have hs := s.toNat_lt
  revert h
  rw [offset, offset, toNat_advance]
  omega

theorem offset_advance_self (base : SeqNum) {n : Nat} (h : n < 0x100000000) :
    base.offset (base.advance n) = n := by
  rw [offset_advance _ _ (by rw [offset_self]; omega), offset_self, Nat.zero_add]

/-- A window that begins `n` bytes later has offsets smaller by `n`. -/
theorem offset_advance_base {base s : SeqNum} {n : Nat} (h : n ≤ base.offset s) :
    (base.advance n).offset s = base.offset s - n := by
  have hb := base.toNat_lt
  have hs := s.toNat_lt
  revert h
  rw [offset, offset, toNat_advance]
  omega

/-- **In a window the distance is the difference of the offsets.** -/
theorem distance_eq_offset_sub {base a b : SeqNum} (ha : base.offset a ≤ reach)
    (hb : base.offset b ≤ reach) : a.distance b = (base.offset b : Int) - base.offset a := by
  have hbase := base.toNat_lt
  have hra := a.toNat_lt
  have hrb := b.toNat_lt
  revert ha hb
  rw [distance, Int.bmod_def, offset, offset, reach]
  intro ha hb
  split <;> omega

/-- Between two positions of one stream the distance is their difference, however far the stream has
gone round. -/
theorem distance_advance_advance (origin : SeqNum) {m n : Nat} (hm : m ≤ n + reach)
    (hn : n ≤ m + reach) : (origin.advance m).distance (origin.advance n) = (n : Int) - m := by
  have ho := origin.toNat_lt
  revert hm hn
  rw [distance, Int.bmod_def, toNat_advance, toNat_advance, reach]
  intro hm hn
  split <;> omega

/-- A distance that is not positive leads back. -/
theorem advance_natAbs_distance {a b : SeqNum} (h : a.distance b ≤ 0) :
    b.advance (a.distance b).natAbs = a := by
  have ha := a.toNat_lt
  have hb := b.toNat_lt
  rw [← toNat_inj, toNat_advance]
  revert h
  rw [distance, Int.bmod_def]
  split <;> omega

theorem precedes_iff_offset {base a b : SeqNum} (ha : base.offset a ≤ reach)
    (hb : base.offset b ≤ reach) : a.precedes b = true ↔ base.offset a < base.offset b := by
  rw [precedes, decide_eq_true_eq, distance_eq_offset_sub ha hb]
  omega

end SeqNum

/-! ## Pages in a window -/

namespace Page

variable {base : SeqNum}

/-- The offset of the first byte of a page. -/
def lo (base : SeqNum) (page : Page) : Nat := base.offset page.seq

/-- The offset after the last byte of a page. -/
def hi (base : SeqNum) (page : Page) : Nat := page.lo base + page.size

theorem lo_le_hi (base : SeqNum) (page : Page) : page.lo base ≤ page.hi base := Nat.le_add_right _ _

theorem offset_stop {page : Page} (h : page.hi base ≤ SeqNum.reach) :
    base.offset page.stop = page.hi base := by
  refine SeqNum.offset_advance _ _ ?_
  rw [hi, lo, SeqNum.reach] at h
  omega

/-- A page is behind a number exactly if it ends there or before. -/
theorem isBehind_iff {page : Page} {next : SeqNum} (hn : base.offset next ≤ SeqNum.reach)
    (hp : page.hi base ≤ SeqNum.reach) :
    Backlog.isBehind next page = true ↔ page.hi base ≤ base.offset next := by
  have hstop := offset_stop hp
  rw [Backlog.isBehind, decide_eq_true_eq, SeqNum.distance_eq_offset_sub hn (by omega), hstop]
  omega

/-- What a page is cut by to begin no earlier than at a number. -/
theorem toNat_distance (base : SeqNum) {page : Page} {next : SeqNum} (hn : base.offset next ≤ SeqNum.reach)
    (hp : page.hi base ≤ SeqNum.reach) :
    (page.seq.distance next).toNat = base.offset next - page.lo base := by
  have hlo := page.lo_le_hi base
  rw [SeqNum.distance_eq_offset_sub (by rw [← lo]; omega) hn, lo]
  omega

theorem lo_cutTo {page : Page} {next : SeqNum} (hn : base.offset next < page.hi base)
    (hp : page.hi base ≤ SeqNum.reach) :
    (Backlog.cutTo next page).lo base = max (page.lo base) (base.offset next) := by
  have hlo := page.lo_le_hi base
  rw [hi] at hn hp
  have hsize : min (base.offset next - page.lo base) page.size
      = base.offset next - page.lo base := by omega
  rw [Backlog.cutTo, toNat_distance base (by omega) (by rw [hi]; omega), dropFront, lo,
    hsize]
  rw [SeqNum.reach] at hp
  rw [SeqNum.offset_advance _ _ (by rw [← lo]; omega), ← lo]
  omega

theorem hi_cutTo {page : Page} {next : SeqNum} (hn : base.offset next < page.hi base)
    (hp : page.hi base ≤ SeqNum.reach) : (Backlog.cutTo next page).hi base = page.hi base := by
  rw [hi, lo_cutTo hn hp, Backlog.cutTo, size_dropFront,
    toNat_distance base (by omega) hp, hi]
  rw [hi] at hn
  omega

/-- A page that begins at a number or beyond it is not cut there. -/
theorem cutTo_eq_self {page : Page} {next : SeqNum} (hn : base.offset next ≤ page.lo base)
    (hp : page.hi base ≤ SeqNum.reach) : Backlog.cutTo next page = page := by
  have hlo := page.lo_le_hi base
  rw [Backlog.cutTo, toNat_distance base (by omega) hp,
    Nat.sub_eq_zero_of_le hn, dropFront_zero]

/-- A page begins as many bytes earlier in a window as the window begins later. -/
theorem lo_advance {page : Page} {n : Nat} (h : n ≤ page.lo base) :
    page.lo (base.advance n) = page.lo base - n := SeqNum.offset_advance_base h

theorem hi_advance {page : Page} {n : Nat} (h : n ≤ page.lo base) :
    page.hi (base.advance n) = page.hi base - n := by
  rw [hi, lo_advance h, hi]
  omega

end Page

end TcpStreams
