import Mathlib.Data.Nat.Basic
import Mathlib.Tactic.ByContra
import Mathlib.Tactic.Tauto
import TcpStreams.Proofs.Window

/-!
# Backlogs in a window

In a window a backlog is *spread*: its pages lie one after the other, none is empty and no two
overlap.  This is the form in which the operations on backlogs mean what their names say.

* `Backlog.Spread.insert`: a page put into a free stretch leaves the backlog spread.
* `Backlog.gaps_cons`: what the gaps are, told by offsets in the window.
* `Backlog.mem_gaps_iff`: the gaps of a stretch of numbers are exactly what no page covers.
* `Backlog.gaps_pairwise`: the gaps lie one after the other, and a page lies between any two.
-/

namespace TcpStreams
namespace Backlog

variable {base : SeqNum} {top : Nat}

/-- Pages that lie one after the other from the offset `lo` up to the offset `top`, none of them
empty and no two overlapping. -/
def Spread (base : SeqNum) (top : Nat) : Nat → List Page → Prop
  | _, [] => True
  | lo, page :: rest =>
    lo ≤ page.lo base ∧ 0 < page.size ∧ page.hi base ≤ top ∧ Spread base top (page.hi base) rest

/-- Pages in ascending order, no two overlapping and none of them ending beyond the offset `top`.
Some may be empty. -/
def Apart (base : SeqNum) (top : Nat) (pages : List Page) : Prop :=
  (pages.Pairwise fun p q => p.hi base ≤ q.lo base) ∧ ∀ page ∈ pages, page.hi base ≤ top

/-- Whether some page holds the byte at an offset. -/
def Covers (base : SeqNum) (pages : List Page) (x : Nat) : Prop :=
  ∃ page ∈ pages, page.lo base ≤ x ∧ x < page.hi base

/-- Whether no page holds a byte from the offset `x` up to the offset `y`. -/
def Clear (base : SeqNum) (pages : List Page) (x y : Nat) : Prop :=
  ∀ page ∈ pages, page.hi base ≤ x ∨ y ≤ page.lo base

theorem Clear.cons {page : Page} {pages : List Page} {x y : Nat}
    (hp : page.hi base ≤ x ∨ y ≤ page.lo base) (h : Clear base pages x y) :
    Clear base (page :: pages) x y := by
  intro q hq
  rcases List.mem_cons.1 hq with rfl | hq
  · exact hp
  · exact h q hq

theorem Clear.subset {pages pages' : List Page} {x y : Nat} (h : Clear base pages x y)
    (hsub : pages' ⊆ pages) : Clear base pages' x y := fun q hq => h q (hsub hq)

theorem Clear.mono {pages : List Page} {x y x' y' : Nat} (h : Clear base pages x y) (hx : x ≤ x')
    (hy : y' ≤ y) : Clear base pages x' y' := by
  intro q hq
  have := h q hq
  omega

theorem covers_cons {page : Page} {pages : List Page} {x : Nat} :
    Covers base (page :: pages) x ↔
      (page.lo base ≤ x ∧ x < page.hi base) ∨ Covers base pages x := by
  simp only [Covers, List.mem_cons, exists_eq_or_imp]

/-- What pages cover in a window that begins later, but not beyond any of them. -/
theorem covers_advance {pages : List Page} {n x : Nat} (h : ∀ page ∈ pages, n ≤ page.lo base) :
    Covers (base.advance n) pages x ↔ Covers base pages (n + x) := by
  unfold Covers
  refine exists_congr fun page => and_congr_right fun hp => ?_
  have hle := page.lo_le_hi base
  rw [Page.lo_advance (h page hp), Page.hi_advance (h page hp)]
  have := h page hp
  omega

/-- What lies between the pages is not covered. -/
theorem Clear.not_covers {pages : List Page} {x y : Nat} (h : Clear base pages x y) (hlt : x < y) :
    ¬ Covers base pages x := by
  rintro ⟨q, hq, hlo, hhi⟩
  have := h q hq
  omega

namespace Apart

variable {page : Page} {pages : List Page}

theorem mono {top' : Nat} (h : Apart base top pages) (hle : top ≤ top') :
    Apart base top' pages := ⟨h.1, fun q hq => le_trans (h.2 q hq) hle⟩

/-- The first page ends before any other begins, and the others are apart. -/
theorem cons (h : Apart base top (page :: pages)) :
    (∀ q ∈ pages, page.hi base ≤ q.lo base) ∧ page.hi base ≤ top ∧ Apart base top pages := by
  obtain ⟨hhead, htail⟩ := List.pairwise_cons.1 h.1
  exact ⟨hhead, h.2 page (List.mem_cons_self ..),
    htail, fun q hq => h.2 q (List.mem_cons_of_mem _ hq)⟩

end Apart

/-! ## Spread backlogs -/

namespace Spread

theorem mono {lo lo' : Nat} {pages : List Page} (h : Spread base top lo pages) (hle : lo' ≤ lo) :
    Spread base top lo' pages := by
  cases pages with
  | nil => trivial
  | cons page rest => exact ⟨le_trans hle h.1, h.2⟩

theorem mem {lo : Nat} {pages : List Page} (h : Spread base top lo pages) {page : Page}
    (hp : page ∈ pages) : lo ≤ page.lo base ∧ 0 < page.size ∧ page.hi base ≤ top := by
  induction pages generalizing lo with
  | nil => cases hp
  | cons q rest ih =>
      obtain ⟨hlo, hsize, hhi, hrest⟩ := h
      rcases List.mem_cons.1 hp with rfl | hp
      · exact ⟨hlo, hsize, hhi⟩
      · obtain ⟨h1, h2, h3⟩ := ih hrest hp
        have := q.lo_le_hi base
        exact ⟨by omega, h2, h3⟩

/-- Pages that are spread out stay so in a window that begins later, but not beyond the first one. -/
theorem advance {lo n : Nat} {pages : List Page} (h : Spread base top lo pages) (hn : n ≤ lo) :
    Spread (base.advance n) top (lo - n) pages := by
  induction pages generalizing lo with
  | nil => trivial
  | cons page rest ih =>
      obtain ⟨hlo, hsize, hhi, hrest⟩ := h
      have hle : n ≤ page.lo base := le_trans hn hlo
      have hrest' := ih hrest (le_trans hle (page.lo_le_hi base))
      rw [← Page.hi_advance hle] at hrest'
      refine ⟨?_, hsize, ?_, hrest'⟩
      · rw [Page.lo_advance hle]
        omega
      · rw [Page.hi_advance hle]
        omega

/-- The first page ends before any other begins. -/
theorem head_le {lo : Nat} {page q : Page} {rest : List Page}
    (h : Spread base top lo (page :: rest)) (hq : q ∈ rest) : page.hi base ≤ q.lo base :=
  (h.2.2.2.mem hq).1

/-- Pages that are spread out are apart. -/
theorem apart {lo : Nat} {pages : List Page} (h : Spread base top lo pages) :
    Apart base top pages := by
  refine ⟨?_, fun page hp => (h.mem hp).2.2⟩
  induction pages generalizing lo with
  | nil => exact List.Pairwise.nil
  | cons page rest ih => exact List.pairwise_cons.2 ⟨fun q hq => h.head_le hq, ih h.2.2.2⟩

/-- **Putting a page into a free stretch keeps a backlog spread.** -/
theorem insert {lo : Nat} {page : Page} {pages : List Page} (h : Spread base top lo pages)
    (hlo : lo ≤ page.lo base) (hsize : 0 < page.size) (hhi : page.hi base ≤ top)
    (hclear : Clear base pages (page.lo base) (page.hi base)) (htop : top ≤ SeqNum.reach) :
    Spread base top lo (Backlog.insert page pages) := by
  induction pages generalizing lo with
  | nil => exact ⟨hlo, hsize, hhi, trivial⟩
  | cons q rest ih =>
      obtain ⟨hqlo, hqsize, hqhi, hrest⟩ := h
      have hple := page.lo_le_hi base
      have hqle := q.lo_le_hi base
      have hq := hclear q (List.mem_cons_self ..)
      have hprec : page.seq.precedes q.seq = true ↔ page.lo base < q.lo base :=
        SeqNum.precedes_iff_offset (by rw [← Page.lo]; omega) (by rw [← Page.lo]; omega)
      rw [Backlog.insert]
      by_cases hlt : page.lo base < q.lo base
      · rw [if_pos (hprec.2 hlt)]
        have hqpos : q.lo base < q.hi base := Nat.lt_add_of_pos_right hqsize
        exact ⟨hlo, hsize, hhi, by omega, hqsize, hqhi, hrest⟩
      · rw [if_neg (fun h => hlt (hprec.1 h))]
        have hpos : page.lo base < page.hi base := Nat.lt_add_of_pos_right hsize
        exact ⟨hqlo, hqsize, hqhi,
          ih hrest (by omega) (hclear.subset (List.subset_cons_self ..))⟩

end Spread

theorem mem_insert {page q : Page} {pages : List Page} :
    q ∈ insert page pages ↔ q = page ∨ q ∈ pages := by
  induction pages with
  | nil => simp [insert]
  | cons p rest ih =>
      rw [insert]
      split
      · simp
      · rw [List.mem_cons, ih, List.mem_cons]
        tauto

theorem insert_perm (page : Page) (pages : List Page) :
    (insert page pages).Perm (page :: pages) := by
  induction pages with
  | nil => exact List.Perm.refl _
  | cons p rest ih =>
      rw [insert]
      split
      · exact List.Perm.refl _
      · exact (ih.cons p).trans (List.Perm.swap page p rest)

theorem length_insert (page : Page) (pages : List Page) :
    (insert page pages).length = pages.length + 1 := (insert_perm page pages).length_eq

/-- Puts several pages into their places, one after the other. -/
def insertAll (new pages : List Page) : List Page := new.foldl (fun pages page => insert page pages) pages

theorem mem_insertAll {q : Page} {new pages : List Page} :
    q ∈ insertAll new pages ↔ q ∈ new ∨ q ∈ pages := by
  induction new generalizing pages with
  | nil => simp [insertAll]
  | cons page rest ih =>
      rw [insertAll, List.foldl_cons, ← insertAll, ih, mem_insert, List.mem_cons]
      tauto

theorem covers_insertAll {new pages : List Page} {x : Nat} :
    Covers base (insertAll new pages) x ↔ Covers base new x ∨ Covers base pages x := by
  simp only [Covers, mem_insertAll, or_and_right, exists_or]

theorem length_insertAll (new pages : List Page) :
    (insertAll new pages).length = pages.length + new.length := by
  induction new generalizing pages with
  | nil => rfl
  | cons page rest ih =>
      rw [insertAll, List.foldl_cons, ← insertAll, ih, length_insert, List.length_cons]
      omega

/-! ## Gaps -/

/-- From where the first page ends, only the rest counts. -/
theorem covers_cons_of_le {page : Page} {rest : List Page} {x : Nat} (h : page.hi base ≤ x) :
    Covers base (page :: rest) x ↔ Covers base rest x := by
  rw [covers_cons]
  exact or_iff_right fun hx => absurd hx.2 (Nat.not_lt.2 h)

/-- Up to there, only the first page counts. -/
theorem covers_cons_of_lt {page : Page} {rest : List Page} {x : Nat}
    (hrest : ∀ q ∈ rest, page.hi base ≤ q.lo base) (h : x < page.hi base) :
    Covers base (page :: rest) x ↔ page.lo base ≤ x := by
  rw [covers_cons]
  refine ⟨?_, fun hlo => Or.inl ⟨hlo, h⟩⟩
  rintro (⟨hlo, -⟩ | ⟨q, hq, hlo, -⟩)
  · exact hlo
  · -- the rest covers nothing before the page ends
    exact absurd (le_trans (hrest q hq) hlo) (Nat.not_le.2 h)

/-- Gaps are not empty, begin at the cursor or beyond it, and end within the stretch. -/
theorem gaps_bounds {start : SeqNum} {len cursor : Nat} {pages : List Page} {piece : Span}
    (h : piece ∈ gaps start len cursor pages) :
    cursor ≤ piece.start ∧ piece.start < piece.stop ∧ piece.stop ≤ len := by
  induction pages generalizing cursor with
  | nil =>
      rw [gaps] at h
      split at h
      · obtain rfl := List.mem_singleton.1 h
        exact ⟨le_refl _, ‹_›, le_refl _⟩
      · cases h
  | cons page rest ih =>
      rw [gaps] at h
      split at h
      · cases h
      · simp only at h
        split at h
        · exact ih h
        · split at h
          · rcases List.mem_cons.1 h with rfl | h
            · simp only
              omega
            · have := ih h
              omega
          · have := ih h
            omega

/-- Where a page lies, seen from a number in the window. -/
theorem distance_page {start : SeqNum} {page : Page} (hs : base.offset start ≤ SeqNum.reach)
    (hp : page.hi base ≤ SeqNum.reach) :
    start.distance page.seq = (page.lo base : Int) - base.offset start := by
  have hlo := page.lo_le_hi base
  exact SeqNum.distance_eq_offset_sub hs (by rw [← Page.lo]; omega)

/-- The gaps between pages, told by offsets in the window. -/
theorem gaps_cons {start : SeqNum} {page : Page} (hs : base.offset start ≤ SeqNum.reach)
    (hp : page.hi base ≤ SeqNum.reach) (len cursor : Nat) (rest : List Page) :
    gaps start len cursor (page :: rest) =
      if len ≤ cursor then []
      else if page.hi base ≤ base.offset start + cursor then gaps start len cursor rest
      else if base.offset start + cursor < page.lo base then
        ⟨cursor, min (page.lo base - base.offset start) len⟩ ::
          gaps start len (page.hi base - base.offset start) rest
      else gaps start len (page.hi base - base.offset start) rest := by
  have hend : (page.lo base : Int) - base.offset start + page.size
      = page.hi base - base.offset start := by
    rw [Page.hi]
    omega
  have hbehind : (page.hi base : Int) - base.offset start ≤ cursor ↔
      page.hi base ≤ base.offset start + cursor := by omega
  have hgap : (cursor : Int) < page.lo base - base.offset start ↔
      base.offset start + cursor < page.lo base := by omega
  have hstart : ((page.lo base : Int) - base.offset start).toNat =
      page.lo base - base.offset start := by omega
  have hstop : ((page.hi base : Int) - base.offset start).toNat =
      page.hi base - base.offset start := by omega
  simp only [gaps, distance_page hs hp, hend, hbehind, hgap, hstart, hstop]

/-- **The gaps of a stretch are exactly the offsets in it that no page covers.** -/
theorem mem_gaps_iff {start : SeqNum} {len cursor : Nat} {pages : List Page}
    (h : Apart base SeqNum.reach pages) (hs : base.offset start ≤ SeqNum.reach) (i : Nat) :
    (∃ piece ∈ gaps start len cursor pages, piece.start ≤ i ∧ i < piece.stop) ↔
      cursor ≤ i ∧ i < len ∧ ¬ Covers base pages (base.offset start + i) := by
  induction pages generalizing cursor with
  | nil =>
      rw [gaps]
      by_cases hc : cursor < len
      · simp [hc, Covers]
      · simp [hc, Covers]
        omega
  | cons page rest ih =>
      obtain ⟨hhead, hhi, hrest⟩ := h.cons
      have hle := page.lo_le_hi base
      have htail := fun c => @ih c hrest
      rw [gaps_cons hs hhi]
      by_cases hlt : base.offset start + i < page.hi base
      · rw [covers_cons_of_lt hhead hlt]
        split
        · simp
          omega
        · split
          · rw [htail]
            omega
          · split
            · simp only [List.mem_cons, exists_eq_or_imp, htail]
              omega
            · rw [htail]
              omega
      · rw [covers_cons_of_le (Nat.le_of_not_lt hlt)]
        split
        · simp
          omega
        · split
          · rw [htail]
          · split
            · simp only [List.mem_cons, exists_eq_or_imp, htail]
              grind
            · rw [htail]
              grind

/-- No page reaches into a gap. -/
theorem clear_of_mem_gaps {start : SeqNum} {len cursor lo : Nat} {pages : List Page}
    (h : Spread base top lo pages) (htop : top ≤ SeqNum.reach)
    (hs : base.offset start ≤ SeqNum.reach) {piece : Span}
    (hp : piece ∈ gaps start len cursor pages) :
    Clear base pages (base.offset start + piece.start) (base.offset start + piece.stop) := by
  have hb := gaps_bounds hp
  intro q hq
  by_contra hc
  have hsize := (h.mem hq).2.1
  have hpos : q.lo base < q.hi base := Nat.lt_add_of_pos_right hsize
  -- the first offset that both would hold
  have hz := (mem_gaps_iff (h.apart.mono htop) hs
    (max piece.start (q.lo base - base.offset start))).1 ⟨piece, hp, by omega, by omega⟩
  exact hz.2.2 ⟨q, hq, by omega, by omega⟩

/-- **Between any two gaps lies a page.** -/
theorem gaps_pairwise {start : SeqNum} {len cursor : Nat} {pages : List Page}
    (h : Apart base SeqNum.reach pages) (hs : base.offset start ≤ SeqNum.reach) :
    (gaps start len cursor pages).Pairwise fun p p' => ∃ q ∈ pages,
      base.offset start + p.stop ≤ q.lo base ∧ q.hi base ≤ base.offset start + p'.start := by
  induction pages generalizing cursor with
  | nil =>
      rw [gaps]
      split
      · exact List.pairwise_singleton _ _
      · exact List.Pairwise.nil
  | cons page rest ih =>
      obtain ⟨-, hhi, hrest⟩ := h.cons
      have htail : ∀ c, (gaps start len c rest).Pairwise fun p p' => ∃ q ∈ page :: rest,
          base.offset start + p.stop ≤ q.lo base ∧ q.hi base ≤ base.offset start + p'.start := by
        intro c
        refine (@ih c hrest).imp ?_
        rintro p p' ⟨q, hq, h1, h2⟩
        exact ⟨q, List.mem_cons_of_mem _ hq, h1, h2⟩
      rw [gaps_cons hs hhi]
      split
      · exact List.Pairwise.nil
      · split
        · exact htail _
        · split
          · refine List.pairwise_cons.2 ⟨fun p' hp' => ?_, htail _⟩
            -- what follows begins no earlier than where the first page ends
            have hb := gaps_bounds hp'
            exact ⟨page, List.mem_cons_self .., by simp only; omega, by omega⟩
          · exact htail _

end Backlog
end TcpStreams
