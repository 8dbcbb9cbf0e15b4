import Mathlib.Algebra.GroupWithZero.Nat
import Mathlib.Data.List.Basic
import TcpStreams.Work.Portion
import TcpStreams.Proofs.Window

/-!
# Bytes and their numbers

A *cell* is a byte with its sequence number.  What a payload brings and what a page holds are lists
of cells, and cutting a payload into pieces and pieces into portions neither loses a cell nor makes
one.

* `cells_append`: the cells of data put together.
* `Span.portions_cons`: a piece is its first portion and the portions of the rest.
* `Span.flatMap_portions`: the portions of a piece hold the cells of the piece.
-/

namespace TcpStreams

/-- A byte of a stream and its number. -/
abbrev Cell := SeqNum × UInt8

/-- The cells of data that begins at a number. -/
def cells (seq : SeqNum) : List UInt8 → List Cell
  | [] => []
  | byte :: rest => (seq, byte) :: cells (seq.advance 1) rest

theorem length_cells (seq : SeqNum) (data : List UInt8) : (cells seq data).length = data.length := by
  induction data generalizing seq with
  | nil => rfl
  | cons byte rest ih => rw [cells, List.length_cons, ih, List.length_cons]

/-- The cells of data put together. -/
theorem cells_append (seq : SeqNum) (xs ys : List UInt8) :
    cells seq (xs ++ ys) = cells seq xs ++ cells (seq.advance xs.length) ys := by
  induction xs generalizing seq with
  | nil => rw [List.nil_append, cells, List.nil_append, List.length_nil, SeqNum.advance_zero]
  | cons byte rest ih =>
      rw [List.cons_append, cells, cells, ih, SeqNum.advance_advance, List.cons_append,
        List.length_cons, Nat.add_comm 1]

/-- In a window a cell lies where its data lies. -/
theorem offset_of_mem_cells {base seq : SeqNum} {data : List UInt8} {cell : Cell}
    (h : cell ∈ cells seq data) (hw : base.offset seq + data.length < 0x100000000) :
    base.offset seq ≤ base.offset cell.1 ∧ base.offset cell.1 < base.offset seq + data.length := by
  induction data generalizing seq with
  | nil => cases h
  | cons byte rest ih =>
      rw [List.length_cons] at hw ⊢
      rcases List.mem_cons.1 h with rfl | h
      · exact ⟨Nat.le_refl _, Nat.lt_add_of_pos_right (Nat.succ_pos _)⟩
      · have hadv := SeqNum.offset_advance base seq (n := 1) (by omega)
        have := ih h (by omega)
        omega

/-- The cells of a page. -/
def Page.cells (page : Page) : List Cell := TcpStreams.cells page.seq page.bytes

theorem Page.length_cells (page : Page) : page.cells.length = page.size :=
  TcpStreams.length_cells _ _

/-- Cutting off the front of a page parts its cells. -/
theorem Page.cells_dropFront (page : Page) (n : Nat) :
    page.cells = TcpStreams.cells page.seq (page.bytes.take n) ++ (page.dropFront n).cells := by
  have hsplit := cells_append page.seq (page.bytes.take n) (page.bytes.drop n)
  rw [List.take_append_drop, List.length_take] at hsplit
  rw [Page.cells, hsplit]
  rfl

/-! ## Stretches of a payload -/

namespace Span

variable {start : SeqNum} {payload : List UInt8}

/-- The cells at a stretch of a payload whose first byte has the number `start`. -/
def cells (start : SeqNum) (payload : List UInt8) (span : Span) : List Cell :=
  TcpStreams.cells (start.advance span.start) (span.slice payload)

theorem length_slice {span : Span} (h : span.stop ≤ payload.length) :
    (span.slice payload).length = span.size := by
  rw [slice, List.length_take, List.length_drop, size]
  omega

theorem slice_from (payload : List UInt8) (a : Nat) :
    slice ⟨a, payload.length⟩ payload = payload.drop a := by
  rw [slice, size, ← List.length_drop, List.take_length]

theorem slice_all (payload : List UInt8) : slice ⟨0, payload.length⟩ payload = payload := by
  rw [slice_from, List.drop_zero]

/-- Two stretches that meet hold what the whole stretch holds. -/
theorem cells_split {a b c : Nat} (hab : a ≤ b) (hbc : b ≤ c) (hc : c ≤ payload.length) :
    cells start payload ⟨a, c⟩ = cells start payload ⟨a, b⟩ ++ cells start payload ⟨b, c⟩ := by
  have hlen : (slice ⟨a, b⟩ payload).length = b - a := length_slice (by simp only; omega)
  have hslice : slice ⟨a, c⟩ payload = slice ⟨a, b⟩ payload ++ slice ⟨b, c⟩ payload := by
    simp only [slice, size]
    have hdrop : payload.drop b = (payload.drop a).drop (b - a) := by
      rw [List.drop_drop, Nat.add_sub_cancel' hab]
    have hsize : c - a = (b - a) + (c - b) := by omega
    rw [hdrop, hsize, List.take_add]
  rw [cells, hslice, cells_append, hlen, SeqNum.advance_advance]
  have hadd : a + (b - a) = b := by omega
  simp only [cells, hadd]

/-! ## Portions -/

theorem portions_nil {piece : Span} (h : piece.stop ≤ piece.start) : piece.portions = [] := by
  have hsize : piece.size = 0 := Nat.sub_eq_zero_of_le h
  rw [portions, hsize]
  rfl

/-- **A piece is its first portion and the portions of the rest.** -/
theorem portions_cons {a b : Nat} (h : a < b) : portions ⟨a, b⟩ =
    ⟨⟨a, min (a + Page.capacity) b⟩, b⟩ :: portions ⟨a + Page.capacity, b⟩ := by
  have hcap : Page.capacity = 1900 := rfl
  have hcount : (b - a + (Page.capacity - 1)) / Page.capacity =
      (b - (a + Page.capacity) + (Page.capacity - 1)) / Page.capacity + 1 := by
    rw [hcap]
    omega
  simp only [portions, size]
  rw [hcount, List.range_succ_eq_map, List.map_cons, List.map_map]
  simp only [Nat.zero_mul, Nat.add_zero, List.cons.injEq, true_and]
  refine List.map_congr_left fun i _ => ?_
  have hstart : a + (i + 1) * Page.capacity = a + Page.capacity + i * Page.capacity := by
    rw [Nat.add_mul, Nat.one_mul]
    omega
  simp only [Function.comp, Nat.succ_eq_add_one, hstart]

/-- What is proved of no portions, and of a first portion from what holds of the rest, holds of the
portions of every piece. -/
theorem portions_induction {P : Span → List Portion → Prop}
    (nil : ∀ a b, b ≤ a → P ⟨a, b⟩ [])
    (cons : ∀ a b, a < b → P ⟨a + Page.capacity, b⟩ (portions ⟨a + Page.capacity, b⟩) →
      P ⟨a, b⟩ (⟨⟨a, min (a + Page.capacity) b⟩, b⟩ :: portions ⟨a + Page.capacity, b⟩))
    (piece : Span) : P piece piece.portions := by
  obtain ⟨a, b⟩ := piece
  have hcap : Page.capacity = 1900 := rfl
  generalize hn : b - a = n
  induction n using Nat.strongRecOn generalizing a with
  | ind n ih =>
      by_cases h : a < b
      · rw [portions_cons h]
        exact cons a b h (ih (b - (a + Page.capacity)) (by omega) _ rfl)
      · have hle : b ≤ a := Nat.le_of_not_lt h
        rw [portions_nil hle]
        exact nil a b hle

/-- A portion is not empty, fits on a page, and lies in its piece. -/
theorem mem_portions {piece : Span} {portion : Portion} (h : portion ∈ piece.portions) :
    piece.start ≤ portion.span.start ∧ portion.span.start < portion.span.stop ∧
      portion.span.stop ≤ portion.pieceStop ∧ portion.pieceStop = piece.stop ∧
      portion.span.size ≤ Page.capacity := by
  have hcap : Page.capacity = 1900 := rfl
  revert h
  refine portions_induction (P := fun piece ps => portion ∈ ps → piece.start ≤ portion.span.start ∧
      portion.span.start < portion.span.stop ∧ portion.span.stop ≤ portion.pieceStop ∧
      portion.pieceStop = piece.stop ∧ portion.span.size ≤ Page.capacity) ?_ ?_ piece
  · intro a b _ h
    cases h
  · intro a b hlt ih h
    rcases List.mem_cons.1 h with rfl | h
    · have hmin : min (a + Page.capacity) b ≤ b := Nat.min_le_right ..
      refine ⟨Nat.le_refl _, ?_, hmin, rfl, ?_⟩
      · exact Nat.lt_min.2 ⟨Nat.lt_add_of_pos_right (by decide), hlt⟩
      · simp only [size]
        omega
    · obtain ⟨h₁, h₂⟩ := ih h
      exact ⟨Nat.le_trans (Nat.le_add_right ..) h₁, h₂⟩

/-- Every offset of a piece lies in one of its portions. -/
theorem exists_portion {piece : Span} {i : Nat} (hi : piece.start ≤ i ∧ i < piece.stop) :
    ∃ p ∈ piece.portions, p.span.start ≤ i ∧ i < p.span.stop := by
  revert hi
  refine portions_induction (P := fun piece ps => piece.start ≤ i ∧ i < piece.stop →
    ∃ p ∈ ps, p.span.start ≤ i ∧ i < p.span.stop) ?_ ?_ piece
  · intro a b hle hi
    simp only at hi
    omega
  · intro a b hlt ih hi
    simp only at hi
    by_cases hfirst : i < a + Page.capacity
    · exact ⟨_, List.mem_cons_self .., hi.1, Nat.lt_min.2 ⟨hfirst, hi.2⟩⟩
    · obtain ⟨p, hp, hin⟩ := ih ⟨Nat.le_of_not_lt hfirst, hi.2⟩
      exact ⟨p, List.mem_cons_of_mem _ hp, hin⟩

/-- The portions of a piece lie one after the other. -/
theorem portions_pairwise (piece : Span) :
    piece.portions.Pairwise fun p q => p.span.stop ≤ q.span.start := by
  refine portions_induction (P := fun _ ps => ps.Pairwise fun p q => p.span.stop ≤ q.span.start)
    ?_ ?_ piece
  · exact fun _ _ _ => List.Pairwise.nil
  · intro a b hlt ih
    refine List.pairwise_cons.2 ⟨fun q hq => ?_, ih⟩
    exact Nat.le_trans (Nat.min_le_left ..) (mem_portions hq).1

/-- **The portions of a piece hold the cells of the piece.** -/
theorem flatMap_portions (piece : Span) (h : piece.stop ≤ payload.length) :
    (piece.portions.flatMap fun p => p.span.cells start payload) = piece.cells start payload := by
  have hcap : Page.capacity = 1900 := rfl
  revert h
  refine portions_induction (P := fun piece ps => piece.stop ≤ payload.length →
    (ps.flatMap fun p => p.span.cells start payload) = piece.cells start payload) ?_ ?_ piece
  · intro a b hle _
    have hsize : size ⟨a, b⟩ = 0 := Nat.sub_eq_zero_of_le hle
    rw [List.flatMap_nil, cells, slice, hsize, List.take_zero]
    rfl
  · intro a b hlt ih hb
    rw [List.flatMap_cons, ih hb]
    by_cases hfit : a + Page.capacity ≤ b
    · rw [Nat.min_eq_left hfit]
      exact (cells_split (by omega) hfit hb).symm
    · rw [Nat.min_eq_right (by omega)]
      have hsize : size ⟨a + Page.capacity, b⟩ = 0 := Nat.sub_eq_zero_of_le (by simp only; omega)
      rw [cells, cells, slice, slice, hsize, List.take_zero]
      exact List.append_nil _

/-- The portions of a piece are as long as the piece. -/
theorem sum_size_portions (piece : Span) : (piece.portions.map fun p => p.span.size).sum = piece.size := by
  refine portions_induction (P := fun piece ps => (ps.map fun p => p.span.size).sum = piece.size)
    ?_ ?_ piece
  · intro a b hle
    exact (Nat.sub_eq_zero_of_le hle).symm
  · intro a b hlt ih
    rw [List.map_cons, List.sum_cons, ih]
    simp only [size]
    omega

/-- In the portions of a piece nothing is left out and the last one ends where the piece ends. -/
theorem sum_portions {piece : Span} {portion : Portion} {rest : List Portion}
    (h : (portion :: rest) <:+ piece.portions) :
    portion.span.size + (rest.map fun p => p.span.size).sum
      = portion.pieceStop - portion.span.start := by
  have hcap : Page.capacity = 1900 := rfl
  revert h
  refine portions_induction (P := fun piece ps => (portion :: rest) <:+ ps →
    portion.span.size + (rest.map fun p => p.span.size).sum
      = portion.pieceStop - portion.span.start) ?_ ?_ piece
  · intro a b _ h
    have := List.eq_nil_of_suffix_nil h
    cases this
  · intro a b hlt ih h
    rcases List.suffix_cons_iff.1 h with heq | h
    · obtain ⟨rfl, rfl⟩ := List.cons.inj heq
      rw [sum_size_portions]
      simp only [size]
      omega
    · exact ih h

/-- The portions of several pieces are as long as the pieces. -/
theorem sum_size_flatMap_portions (pieces : List Span) :
    ((pieces.flatMap portions).map fun p => p.span.size).sum = (pieces.map size).sum := by
  induction pieces with
  | nil => rfl
  | cons piece pieces ih =>
      rw [List.flatMap_cons, List.map_append, List.sum_append, sum_size_portions, ih, List.map_cons,
        List.sum_cons]

/-- Where the portions of some pieces part, those of one piece do. -/
theorem exists_flatMap_portions {pieces : List Span} {stored behind : List Portion} {portion : Portion}
    (h : pieces.flatMap portions = stored ++ portion :: behind) :
    ∃ earlier piece later rest, pieces = earlier ++ piece :: later ∧
      (portion :: rest) <:+ piece.portions ∧ behind = rest ++ later.flatMap portions := by
  induction pieces generalizing stored with
  | nil =>
      have := congrArg List.length h
      simp at this
  | cons piece pieces ih =>
      rw [List.flatMap_cons] at h
      rcases List.append_eq_append_iff.1 h with ⟨stored', -, hright⟩ | ⟨left, hleft, hright⟩
      · obtain ⟨earlier, piece', later, rest, rfl, hsuffix, hbehind⟩ := ih hright
        exact ⟨piece :: earlier, piece', later, rest, rfl, hsuffix, hbehind⟩
      · cases left with
        | nil =>
            obtain ⟨earlier, piece', later, rest, rfl, hsuffix, hbehind⟩ := @ih [] hright.symm
            exact ⟨piece :: earlier, piece', later, rest, rfl, hsuffix, hbehind⟩
        | cons p rest =>
            obtain ⟨rfl, hbehind⟩ := List.cons.inj hright
            exact ⟨[], piece, pieces, rest, rfl, ⟨stored, hleft.symm⟩, hbehind⟩

/-- What is left of one piece, of all the portions there were, ends where the piece ends. -/
theorem sum_flatMap_portions {pieces : List Span} {portion : Portion} {rest : List Portion}
    (hstops : pieces.Pairwise fun a b => a.stop < b.stop)
    (h : (portion :: rest) <:+ pieces.flatMap portions)
    (hsame : ∀ q ∈ rest, q.pieceStop = portion.pieceStop) :
    portion.span.size + (rest.map fun p => p.span.size).sum
      = portion.pieceStop - portion.span.start := by
  obtain ⟨taken, heq⟩ := h
  obtain ⟨earlier, piece, later, left, rfl, hsuffix, hrest⟩ := exists_flatMap_portions heq.symm
  have hstop := (mem_portions (hsuffix.subset (List.mem_cons_self ..))).2.2.2.1
  -- the portions of later pieces end elsewhere
  have hnone : later.flatMap portions = [] := by
    refine List.eq_nil_iff_forall_not_mem.2 fun q hq => ?_
    obtain ⟨piece', hpiece', hq'⟩ := List.mem_flatMap.1 hq
    have hqstop := (mem_portions hq').2.2.2.1
    have hqsame := hsame q (hrest ▸ List.mem_append_right _ hq)
    have hlt := List.rel_of_pairwise_cons (List.pairwise_append.1 hstops).2.1 hpiece'
    omega
  rw [hrest, hnone, List.append_nil]
  exact sum_portions hsuffix

end Span
end TcpStreams
