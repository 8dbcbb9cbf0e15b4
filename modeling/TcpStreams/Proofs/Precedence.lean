import Mathlib.Data.Set.CoeSort
import Mathlib.Order.RelIso.Basic
import TcpStreams.Proofs.Spread

/-!
# The order of sequence numbers

Sequence numbers go round, so whether one precedes another is not an order of all of them: three numbers
a third of the way round apart precede each other in turn.  What goes wrong is in one place.  A signed
distance changes its sign with its direction, except between two numbers that are *antipodal*, exactly
half-way round from each other: that way is `-2 ^ 31` in both directions, so that each of the two follows
the other and neither precedes it.  A window of `2 ^ 31` numbers has no antipodal ones, and there they are
ordered like the integers that they stand for.

* `SeqNum.raw_advance`, `SeqNum.distance_eq_toInt`: advancing is addition of machine words, and the distance
  is their difference, read with a sign.
* `SeqNum.distance_eq_neg_iff`: distances in opposite directions, and where they do not cancel.
* `SeqNum.window_strictTotalOrder`: the numbers of a window, in the order of their offsets.
* `Backlog.pairwise_insert`: what an insertion keeps; from it `Ascending.insert` and `Ascending.insertAll`.
* `SeqNum.window_ordered`: all of this, for every number, every window and every backlog in it.
-/

namespace TcpStreams

namespace SeqNum

variable {a b base : SeqNum}

/-! ## Machine words -/

/-- Advancing adds machine words, which go round. -/
theorem raw_advance (a : SeqNum) (n : Nat) : (a.advance n).raw = a.raw + UInt32.ofNat n := by
  rw [advance, ofNat, UInt32.ofNat_add, toNat, UInt32.ofNat_toNat]

/-- The distance is the difference of machine words, which go round, read as a number with a sign. -/
theorem distance_eq_toInt (a b : SeqNum) : a.distance b = (b.raw - a.raw).toInt32.toInt := by
  have ha := a.toNat_lt
  have hb := b.toNat_lt
  have hsub : (b.raw - a.raw).toNat = (0x100000000 - a.toNat + b.toNat) % 0x100000000 :=
    UInt32.toNat_sub ..
  rw [← Int32.toInt_toBitVec, UInt32.toBitVec_toInt32, BitVec.toInt_eq_toNat_bmod,
    UInt32.toNat_toBitVec, hsub, distance, Int.bmod_def, Int.bmod_def]
  split <;> split <;> omega

/-! ## Half-way round -/

/-- Whether two numbers are exactly half-way round from each other. -/
def Antipodal (a b : SeqNum) : Prop := b = a.advance 0x80000000

instance : DecidableRel Antipodal := fun a b =>
  inferInstanceAs (Decidable (b = a.advance 0x80000000))

theorem Antipodal.symm (h : Antipodal a b) : Antipodal b a := by
  have ha := a.toNat_lt
  rw [h, Antipodal, advance_advance, ← toNat_inj, toNat_advance]
  omega

/-- Only half the way round has the least of all distances. -/
theorem antipodal_iff_distance : Antipodal a b ↔ a.distance b = -0x80000000 := by
  have ha := a.toNat_lt
  have hb := b.toNat_lt
  rw [Antipodal, ← toNat_inj, toNat_advance, distance, Int.bmod_def]
  split <;> omega

/-- **The way back is as long as the way there**, in the other direction, exactly if that is not half the
way round. -/
theorem distance_eq_neg_iff : a.distance b = -b.distance a ↔ ¬ Antipodal a b := by
  have ha := a.toNat_lt
  have hb := b.toNat_lt
  rw [antipodal_iff_distance, distance, distance, Int.bmod_def, Int.bmod_def]
  split <;> split <;> omega

theorem Antipodal.not_precedes (h : Antipodal a b) : a.precedes b = false := by
  rw [precedes, antipodal_iff_distance.1 h]
  rfl

theorem Antipodal.follows (h : Antipodal a b) : a.follows b = true := by
  rw [SeqNum.follows, antipodal_iff_distance.1 h]
  rfl

/-- One number follows another if that one precedes it, and the other way round, exactly if they are not
antipodal. -/
theorem follows_eq_precedes_iff : a.follows b = b.precedes a ↔ ¬ Antipodal a b := by
  constructor
  · intro heq h
    rw [h.follows, h.symm.not_precedes] at heq
    cases heq
  · intro h
    rw [SeqNum.follows, precedes, distance_eq_neg_iff.2 h]
    exact decide_eq_decide.2 (by omega)

/-! ## Windows -/

/-- The `2 ^ 31` numbers that go up from a base. -/
def window (base : SeqNum) : Set SeqNum := { s | ∃ n < 0x80000000, s = base.advance n }

theorem mem_window_iff {s : SeqNum} : s ∈ window base ↔ base.offset s ≤ reach := by
  rw [reach]
  constructor
  · rintro ⟨n, hn, rfl⟩
    rw [offset_advance_self base (by omega)]
    omega
  · intro h
    exact ⟨base.offset s, by omega, (base.advance_offset s).symm⟩

/-- In a window the numbers precede each other as their offsets do. -/
theorem precedes_iff_of_mem (ha : a ∈ window base) (hb : b ∈ window base) :
    a.precedes b = true ↔ base.offset a < base.offset b :=
  precedes_iff_offset (mem_window_iff.1 ha) (mem_window_iff.1 hb)

theorem not_precedes_iff_of_mem (ha : a ∈ window base) (hb : b ∈ window base) :
    a.precedes b = false ↔ base.offset b ≤ base.offset a := by
  rw [← Bool.not_eq_true, precedes_iff_of_mem ha hb, Nat.not_lt]

/-- The numbers of a window among the natural numbers, each at its offset. -/
def offsetEmbedding (base : SeqNum) :
    (fun s t : window base => s.1.precedes t.1 = true) ↪r ((· < ·) : Nat → Nat → Prop) where
  toFun s := base.offset s.1
  inj' _ _ h := Subtype.ext (offset_inj.1 h)
  map_rel_iff' := @fun s t => (precedes_iff_of_mem s.2 t.2).symm

/-- **In a window the numbers are totally ordered.** -/
theorem window_strictTotalOrder (base : SeqNum) :
    IsStrictTotalOrder (window base) fun s t => s.1.precedes t.1 = true :=
  (offsetEmbedding base).isStrictTotalOrder

-- beyond a window they are not: these three precede each other in turn
example : (ofNat 0).precedes (ofNat 0x55555555) = true ∧
    (ofNat 0x55555555).precedes (ofNat 0xaaaaaaaa) = true ∧
    (ofNat 0xaaaaaaaa).precedes (ofNat 0) = true := by decide

/-- **And they are ordered like their offsets**, with the same distances between them. -/
theorem window_offsets {n m : Nat} (hn : n < 0x80000000) (hm : m < 0x80000000) :
    ((base.advance n).precedes (base.advance m) = true ↔ n < m) ∧
      (base.advance n).distance (base.advance m) = (m : Int) - n := by
  have hdistance : (base.advance n).distance (base.advance m) = (m : Int) - n :=
    distance_advance_advance base (by rw [reach]; omega) (by rw [reach]; omega)
  refine ⟨?_, hdistance⟩
  rw [precedes, hdistance, decide_eq_true_eq]
  omega

end SeqNum

/-! ## Insertions into a window -/

namespace Backlog

open SeqNum (window)

variable {base : SeqNum} {page : Page} {pages : List Page}

/-- **A page is put before the first one with a larger number**, or at the end if there is none. -/
theorem insert_eq_insertIdx (page : Page) (pages : List Page) :
    insert page pages = pages.insertIdx (pages.findIdx fun p => page.seq.precedes p.seq) page := by
  induction pages with
  | nil => rfl
  | cons p rest ih =>
      rw [insert, List.findIdx_cons]
      cases page.seq.precedes p.seq with
      | true => rfl
      | false => exact congrArg (p :: ·) ih

/-- **What an insertion keeps.** Let a relation hold between the pages of a backlog in their order.  It
still does after an insertion if it holds from every page that the new one does not precede to the new one,
and from the new one to every page that it precedes and to all that come after such a page. -/
theorem pairwise_insert {R : Page → Page → Prop} (hpages : pages.Pairwise R)
    (hbefore : ∀ p ∈ pages, page.seq.precedes p.seq = false → R p page)
    (hafter : ∀ p ∈ pages, page.seq.precedes p.seq = true → R page p)
    (hlater : ∀ p ∈ pages, ∀ q ∈ pages, R page p → R p q → R page q) :
    (insert page pages).Pairwise R := by
  induction pages with
  | nil => exact List.pairwise_singleton R page
  | cons p rest ih =>
      obtain ⟨hp, hrest⟩ := List.pairwise_cons.1 hpages
      have hmem : p ∈ p :: rest := List.mem_cons_self ..
      rw [insert]
      split
      · next hprec =>
          refine List.pairwise_cons.2 ⟨fun q hq => ?_, hpages⟩
          have hpage : R page p := hafter p hmem hprec
          rcases List.mem_cons.1 hq with rfl | hq
          · exact hpage
          · exact hlater p hmem q (List.mem_cons_of_mem _ hq) hpage (hp q hq)
      · next hprec =>
          refine List.pairwise_cons.2 ⟨fun q hq => ?_, ih hrest ?_ ?_ ?_⟩
          · rcases mem_insert.1 hq with rfl | hq
            · exact hbefore p hmem (Bool.eq_false_iff.2 hprec)
            · exact hp q hq
          · exact fun q hq => hbefore q (List.mem_cons_of_mem _ hq)
          · exact fun q hq => hafter q (List.mem_cons_of_mem _ hq)
          · exact fun q hq r hr => hlater q (List.mem_cons_of_mem _ hq) r (List.mem_cons_of_mem _ hr)

/-- Pages in the order of their numbers: none precedes one that stands before it. -/
def Ascending (pages : List Page) : Prop :=
  pages.Pairwise fun p q => q.seq.precedes p.seq = false

/-- Pages in the order of their numbers, no two of which have the same one. -/
def StrictlyAscending (pages : List Page) : Prop :=
  pages.Pairwise fun p q => p.seq.precedes q.seq = true

/-- One insertion keeps pages ascending. -/
theorem Ascending.insert (h : Ascending pages) (hpage : page.seq ∈ window base)
    (hpages : ∀ p ∈ pages, p.seq ∈ window base) : Ascending (Backlog.insert page pages) := by
  refine pairwise_insert h (fun p _ hprec => hprec) (fun p hp hprec => ?_)
    (fun p hp q hq hpagep hpq => ?_)
  · rw [SeqNum.precedes_iff_of_mem hpage (hpages p hp)] at hprec
    rw [SeqNum.not_precedes_iff_of_mem (hpages p hp) hpage]
    exact Nat.le_of_lt hprec
  · rw [SeqNum.not_precedes_iff_of_mem (hpages p hp) hpage] at hpagep
    rw [SeqNum.not_precedes_iff_of_mem (hpages q hq) (hpages p hp)] at hpq
    rw [SeqNum.not_precedes_iff_of_mem (hpages q hq) hpage]
    exact Nat.le_trans hpagep hpq

/-- And it keeps them strictly ascending, if it brings a new number. -/
theorem StrictlyAscending.insert (h : StrictlyAscending pages) (hpage : page.seq ∈ window base)
    (hpages : ∀ p ∈ pages, p.seq ∈ window base) (hnew : ∀ p ∈ pages, p.seq ≠ page.seq) :
    StrictlyAscending (Backlog.insert page pages) := by
  refine pairwise_insert h (fun p hp hprec => ?_) (fun p _ hprec => hprec)
    (fun p hp q hq hpagep hpq => ?_)
  · rw [SeqNum.not_precedes_iff_of_mem hpage (hpages p hp)] at hprec
    rw [SeqNum.precedes_iff_of_mem (hpages p hp) hpage]
    exact Nat.lt_of_le_of_ne hprec fun heq => hnew p hp (SeqNum.offset_inj.1 heq)
  · rw [SeqNum.precedes_iff_of_mem hpage (hpages p hp)] at hpagep
    rw [SeqNum.precedes_iff_of_mem (hpages p hp) (hpages q hq)] at hpq
    rw [SeqNum.precedes_iff_of_mem hpage (hpages q hq)]
    exact Nat.lt_trans hpagep hpq

/-- Any number of insertions keep pages ascending. -/
theorem Ascending.insertAll {new : List Page} (h : Ascending pages)
    (hnew : ∀ p ∈ new, p.seq ∈ window base) (hpages : ∀ p ∈ pages, p.seq ∈ window base) :
    Ascending (Backlog.insertAll new pages) := by
  induction new generalizing pages with
  | nil => exact h
  | cons page rest ih =>
      have hpage : page.seq ∈ window base := hnew page (List.mem_cons_self ..)
      refine ih (h.insert hpage hpages) (fun p hp => hnew p (List.mem_cons_of_mem _ hp)) fun p hp => ?_
      rcases mem_insert.1 hp with rfl | hp
      · exact hpage
      · exact hpages p hp

end Backlog

namespace SeqNum

open Backlog (Ascending StrictlyAscending)

/-- **In a window sequence numbers are ordered like integers.** Advancing adds machine words, which go round;
by fewer than `2 ^ 31` bytes it leads exactly that far away.  The distance is the difference of machine words,
read as a number with a sign, which is at least `-2 ^ 31` and below `2 ^ 31`.

The distance between two numbers changes its sign with its direction, and one number follows another just if
that one precedes it, exactly if the two are not half-way round from each other.  If they are, both distances
are `-2 ^ 31`: neither of the two precedes the other, and each follows the other.

In every window of `2 ^ 31` numbers it is a strict total order which number precedes which, namely the order
of their offsets from its base, and the distances are the differences of the offsets.

So let a page and the pages of a backlog have their numbers in a window.  An insertion puts the page before
the first one with a larger number.  It keeps the backlog ascending, and strictly ascending if the number is
not there yet; and any number of insertions keep it ascending. -/
theorem window_ordered :
    (∀ (a : SeqNum) (n : Nat),
      (a.advance n).raw = a.raw + UInt32.ofNat n ∧ (n < 0x80000000 → a.distance (a.advance n) = n)) ∧
    (∀ a b : SeqNum,
      a.distance b = (b.raw - a.raw).toInt32.toInt ∧
      -0x80000000 ≤ a.distance b ∧ a.distance b < 0x80000000 ∧
      (a.distance b = -b.distance a ↔ ¬ Antipodal a b) ∧
      (a.follows b = b.precedes a ↔ ¬ Antipodal a b) ∧
      (Antipodal a b → a.distance b = -0x80000000 ∧ b.distance a = -0x80000000 ∧
        a.precedes b = false ∧ b.precedes a = false ∧ a.follows b = true ∧ b.follows a = true)) ∧
    ∀ base : SeqNum,
      IsStrictTotalOrder (window base) (fun s t => s.1.precedes t.1 = true) ∧
      (∀ n m : Nat, n < 0x80000000 → m < 0x80000000 →
        ((base.advance n).precedes (base.advance m) = true ↔ n < m) ∧
        (base.advance n).distance (base.advance m) = (m : Int) - n) ∧
      ∀ pages : List Page, (∀ p ∈ pages, p.seq ∈ window base) →
        (∀ page : Page, page.seq ∈ window base →
          Backlog.insert page pages =
            pages.insertIdx (pages.findIdx fun p => page.seq.precedes p.seq) page ∧
          (Ascending pages → Ascending (Backlog.insert page pages)) ∧
          (StrictlyAscending pages → (∀ p ∈ pages, p.seq ≠ page.seq) →
            StrictlyAscending (Backlog.insert page pages))) ∧
        ∀ new : List Page, (∀ p ∈ new, p.seq ∈ window base) →
          Ascending pages → Ascending (Backlog.insertAll new pages) := by
  refine ⟨fun a n => ⟨a.raw_advance n, a.distance_advance⟩,
    fun a b => ⟨a.distance_eq_toInt b, (a.distance_bounds b).1, (a.distance_bounds b).2,
      distance_eq_neg_iff, follows_eq_precedes_iff, fun h => ?_⟩,
    fun base => ⟨window_strictTotalOrder base, fun n m hn hm => window_offsets hn hm,
      fun pages hpages => ⟨fun page hpage => ?_, fun new hnew h => h.insertAll hnew hpages⟩⟩⟩
  · exact ⟨antipodal_iff_distance.1 h, antipodal_iff_distance.1 h.symm, h.not_precedes,
      h.symm.not_precedes, h.follows, h.symm.follows⟩
  · exact ⟨Backlog.insert_eq_insertIdx page pages, fun h => h.insert hpage hpages,
      fun h hnew => h.insert hpage hpages hnew⟩

/-- Three pages in the window from the last number but one, which goes on beyond zero. -/
def pagesAroundZero : List Page := [⟨ofNat 0xfffffffe, [97]⟩, ⟨ofNat 1, [98]⟩, ⟨ofNat 0x7ffffffd, [99]⟩]

theorem window_ordered_around_zero :
    let base := ofNat 0xfffffffe
    let page : Page := ⟨ofNat 0, [100]⟩
    base.distance (base.advance 0x7fffffff) = 0x7fffffff ∧
      Antipodal base (ofNat 0x7ffffffe) ∧ base.follows (ofNat 0x7ffffffe) = true ∧
      (ofNat 0x7ffffffe).follows base = true ∧
      ((base.advance 1).precedes (base.advance 3) = true ↔ 1 < 3) ∧
      page.seq ∈ window base ∧ (∀ p ∈ pagesAroundZero, p.seq ∈ window base) ∧
      StrictlyAscending pagesAroundZero ∧ StrictlyAscending (Backlog.insert page pagesAroundZero) ∧
      (Backlog.insert page pagesAroundZero).map (fun p => p.seq.toNat) = [0xfffffffe, 0, 1, 0x7ffffffd] ∧
      Ascending (Backlog.insertAll pagesAroundZero.reverse [page, page]) := by
  intro base page
  have hpage : page.seq ∈ window base := mem_window_iff.2 (by decide)
  have hpages : ∀ p ∈ pagesAroundZero, p.seq ∈ window base := by
    have hoffsets : ∀ p ∈ pagesAroundZero, base.offset p.seq ≤ reach := by decide
    exact fun p hp => mem_window_iff.2 (hoffsets p hp)
  have hstrict : StrictlyAscending pagesAroundZero := by
    unfold StrictlyAscending
    decide
  have hantipodal : Antipodal base (ofNat 0x7ffffffe) := by decide
  obtain ⟨hadvance, hboundary, hwindow⟩ := window_ordered
  obtain ⟨-, -, -, -, -, hboth⟩ := hboundary base (ofNat 0x7ffffffe)
  obtain ⟨-, -, -, -, hfollows, hfollows'⟩ := hboth hantipodal
  obtain ⟨-, hoffsets, hinsert⟩ := hwindow base
  obtain ⟨-, -, hstrictly⟩ := (hinsert pagesAroundZero hpages).1 page hpage
  have htwice : ∀ p ∈ [page, page], p.seq ∈ window base := by
    intro p hp
    obtain rfl : p = page := by simpa using hp
    exact hpage
  have hascending : Ascending [page, page] := by
    unfold Ascending
    decide
  exact ⟨(hadvance base 0x7fffffff).2 (by decide), hantipodal, hfollows, hfollows',
    (hoffsets 1 3 (by decide) (by decide)).1, hpage, hpages, hstrict,
    hstrictly hstrict (by decide), by decide,
    (hinsert [page, page] htwice).2 _ (fun p hp => hpages p (List.mem_reverse.1 hp)) hascending⟩

end SeqNum

end TcpStreams
