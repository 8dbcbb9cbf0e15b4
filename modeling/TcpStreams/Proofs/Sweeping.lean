import Mathlib.Data.List.Basic
import TcpStreams.Proofs.Cells
import TcpStreams.Proofs.Storing

/-!
# What lies behind the position

When the position moves over pages that wait, part of what they hold is *stale*: it lies before the
next byte wanted, and the next drain gives it back.  The rest is what a half-stream still holds.

* `HalfStream.count_swept`: every byte held is stale or still held.
* `HalfStream.Placed.swept`: draining does as if the stale bytes had been given back before.
* `HalfStream.Loose.stale_eq`: after storing under pressure whole pages are stale.
-/

namespace TcpStreams
namespace HalfStream

/-- The bytes held, with their numbers. -/
def held (h : HalfStream) : List Cell := h.pages.flatMap Page.cells

/-- The part of a page that lies before the next byte wanted. -/
def stalePart (h : HalfStream) (page : Page) : List Cell :=
  if h.isBehind page then page.cells
  else
    match h.next with
    | none => []
    | some next => cells page.seq (page.bytes.take (page.seq.distance next).toNat)

/-- The bytes held that lie before the next byte wanted. -/
def stale (h : HalfStream) : List Cell := h.pages.flatMap h.stalePart

/-- The half-stream without the bytes that lie before the next byte wanted. -/
def swept (h : HalfStream) : HalfStream :=
  { h with pages := (h.pages.filter fun page => !h.isBehind page).map h.trimmed }

variable {base : SeqNum} {h : HalfStream} {page : Page}

/-- What is left of a page is its front and what is new on it. -/
theorem cells_trimmed (hb : h.isBehind page = false) :
    page.cells = h.stalePart page ++ (h.trimmed page).cells := by
  cases hn : h.next with
  | none => simp [stalePart, trimmed, hb, hn]
  | some next =>
      simp only [stalePart, trimmed, hb, hn, Backlog.cutTo, Bool.false_eq_true, if_false]
      exact page.cells_dropFront _

/-- **Every byte held is stale or still held.** -/
theorem count_swept (h : HalfStream) (x : Cell) :
    h.held.count x = h.stale.count x + h.swept.held.count x := by
  simp only [held, stale, swept]
  induction h.pages with
  | nil => rfl
  | cons page rest ih =>
      cases hb : h.isBehind page with
      | true =>
          have hpart : h.stalePart page = page.cells := by simp [stalePart, hb]
          simp only [List.flatMap_cons, List.count_append, hb, Bool.not_true, Bool.false_eq_true,
            not_false_eq_true, List.filter_cons_of_neg, hpart]
          omega
      | false =>
          have hcells := cells_trimmed hb
          simp only [List.flatMap_cons, List.count_append, hb, Bool.not_false, List.filter_cons_of_pos,
            List.map_cons]
          rw [hcells, List.count_append]
          omega

/-- Stale bytes lie where the pages do, before the position. -/
theorem offset_of_mem_stale (hp : Placed base h) {x : Cell} (hx : x ∈ h.stale) :
    ∃ page ∈ h.pages, page.lo base ≤ base.offset x.1 ∧ base.offset x.1 < page.hi base ∧
      base.offset x.1 < h.pos base := by
  have hreach : SeqNum.reach = 0x7fffffff := rfl
  obtain ⟨page, hmem, hx⟩ := List.mem_flatMap.1 hx
  obtain ⟨-, hsize, hhi⟩ := hp.spread.mem hmem
  have hhi' : base.offset page.seq + page.bytes.length ≤ SeqNum.reach := hhi
  refine ⟨page, hmem, ?_⟩
  unfold stalePart at hx
  split at hx
  · rename_i hb
    obtain ⟨hlo, hlt⟩ := @offset_of_mem_cells base _ _ _ hx (by omega)
    have hend := (isBehind_iff hp.pos_le hhi hsize).1 hb
    exact ⟨hlo, hlt, Nat.lt_of_lt_of_le hlt hend⟩
  · cases hn : h.next with
    | none =>
        rw [hn] at hx
        cases hx
    | some next =>
        have hpos := hp.pos_le
        rw [pos_some hn] at hpos ⊢
        simp only [hn, Page.toNat_distance base hpos hhi] at hx
        have hlen : (page.bytes.take (base.offset next - page.lo base)).length ≤
            base.offset next - page.lo base := List.length_take_le _ _
        have hlen' : (page.bytes.take (base.offset next - page.lo base)).length ≤
            page.bytes.length := List.length_take_le' _ _
        obtain ⟨hlo, hlt⟩ := @offset_of_mem_cells base _ _ _ hx (by omega)
        have hlo' : page.lo base ≤ base.offset x.1 := hlo
        rw [← Page.lo] at hlt
        refine ⟨hlo', ?_, by omega⟩
        rw [Page.hi, Page.size]
        omega

/-- A tidy half-stream holds nothing stale. -/
theorem Tidy.swept_eq (ht : Tidy base h) : h.swept = h := by
  have hfilter : (h.pages.filter fun page => !h.isBehind page) = h.pages :=
    List.filter_eq_self.2 fun page hp => by simp [ht.not_behind hp]
  have hmap : h.pages.map h.trimmed = h.pages := by
    rw [List.map_congr_left fun page hp => ht.trimmed_eq hp, List.map_id']
  simp only [swept, hfilter, hmap]

/-- Cutting the first page before draining makes no difference. -/
theorem drain_trimmed {rest : List Page} (hpages : h.pages = page :: rest)
    (hb : h.isBehind page = false)
    (ht : Tidy base { h with pages := h.trimmed page :: rest }) :
    h.drain.value = ({ h with pages := h.trimmed page :: rest } : HalfStream).drain.value ∧
      h.drain.chunks = ({ h with pages := h.trimmed page :: rest } : HalfStream).drain.chunks := by
  have hmem : h.trimmed page ∈ ({ h with pages := h.trimmed page :: rest } : HalfStream).pages :=
    List.mem_cons_self ..
  have hb' : h.isBehind (h.trimmed page) = false := ht.not_behind hmem
  have hagain : h.trimmed (h.trimmed page) = h.trimmed page := ht.trimmed_eq hmem
  have hsame : ({ h with pages := h.trimmed page :: rest } : HalfStream).trimmed
      (h.trimmed page) = h.trimmed page := hagain
  by_cases hn : h.next = none
  · rw [drain_of_none hn, drain_of_none (h := { h with pages := h.trimmed page :: rest }) hn,
      trimmed_none hn, ← hpages]
    exact ⟨rfl, rfl⟩
  · obtain ⟨next, hn⟩ := Option.ne_none_iff_exists'.1 hn
    by_cases hseq : (h.trimmed page).seq = next
    · have hseq' := hn.trans (congrArg some hseq.symm)
      obtain ⟨hv, hc⟩ := drain_of_follow hpages hb hseq'
      obtain ⟨hv', hc'⟩ := @drain_of_follow { h with pages := h.trimmed page :: rest } _ rest rfl hb'
        (hseq'.trans (congrArg (fun p : Page => some p.seq) hagain.symm))
      rw [hv, hc, hv', hc', hsame]
      exact ⟨rfl, rfl⟩
    · obtain ⟨hv, hc⟩ := drain_of_gap hpages hb hn hseq
      obtain ⟨hv', hc'⟩ := @drain_of_gap { h with pages := h.trimmed page :: rest } _ rest next rfl hb'
        hn (fun hc => hseq ((congrArg Page.seq hagain).symm.trans hc))
      rw [hv, hc, hv', hc', hsame]
      exact ⟨rfl, rfl⟩

/-- **Draining does as if the stale bytes had been given back before.** -/
theorem Placed.swept (hp : Placed base h) : Tidy base h.swept ∧
    h.drain.value = h.swept.drain.value ∧ h.drain.chunks = h.swept.drain.chunks := by
  generalize hpages : h.pages = pages
  induction pages generalizing h with
  | nil =>
      have hsame : h.swept = h := by
        obtain ⟨direction, phase, next, pages, startDue, skipDue, counters⟩ := h
        subst hpages
        rfl
      rw [hsame]
      refine ⟨⟨?_, hp.pos_le⟩, rfl, rfl⟩
      rw [hpages]
      trivial
  | cons page rest ih =>
      obtain ⟨hsize, hhi⟩ := hp.head hpages
      cases hb : h.isBehind page with
      | true =>
          have hsame : h.swept = ({ h with pages := rest } : HalfStream).swept := by
            simp only [HalfStream.swept, hpages]
            rw [List.filter_cons_of_neg (by simp [hb])]
            rfl
          have hplaced := (hp.move (@Move.free false _ _ _ hpages hb)).1
          obtain ⟨hv, hc⟩ := drain_of_behind hpages hb
          obtain ⟨htidy, hv', hc'⟩ := ih hplaced rfl
          rw [hsame, hv, hc]
          exact ⟨htidy, hv', hc'⟩
      | false =>
          -- the first page that is not behind is cut, and the others lie beyond the position
          have hplaced := (hp.move (@Move.trim false _ _ _ hpages hb)).1
          have hlo' := lo_trimmed hp.pos_le hhi hb
          have hle : h.pos base ≤ (h.trimmed page).lo base := by omega
          obtain ⟨-, hsize', hhi', hrest⟩ := hplaced.spread
          have htidy : Tidy base { h with pages := h.trimmed page :: rest } :=
            ⟨⟨hle, hsize', hhi', hrest⟩, hp.pos_le⟩
          have hmem : h.trimmed page ∈
              ({ h with pages := h.trimmed page :: rest } : HalfStream).pages :=
            List.mem_cons_self ..
          have hb' : h.isBehind (h.trimmed page) = false := htidy.not_behind hmem
          have hagain : h.trimmed (h.trimmed page) = h.trimmed page := htidy.trimmed_eq hmem
          have hlist : ((page :: rest).filter fun p => !h.isBehind p).map h.trimmed =
              ((h.trimmed page :: rest).filter fun p => !h.isBehind p).map h.trimmed := by
            simp [hb, hb', hagain]
          have hsame : h.swept =
              ({ h with pages := h.trimmed page :: rest } : HalfStream).swept := by
            simp only [HalfStream.swept, hpages]
            exact congrArg (fun pages => { h with pages }) hlist
          rw [hsame, htidy.swept_eq]
          exact ⟨htidy, drain_trimmed hpages hb htidy⟩

/-- **After storing under pressure whole pages are stale.** -/
theorem Loose.stale_eq {start : SeqNum} {payload : List UInt8} {ps : List Portion}
    (hl : Loose base start payload h ps) :
    h.stale = (h.pages.filter h.isBehind).flatMap Page.cells := by
  have hpart : ∀ page ∈ h.pages, h.stalePart page = if h.isBehind page then page.cells else [] := by
    intro page hmem
    unfold stalePart
    split
    · rfl
    · rename_i hb
      cases hn : h.next with
      | none => rfl
      | some next =>
          obtain ⟨-, hsize, hhi⟩ := hl.placed.spread.mem hmem
          have hpos := hl.placed.pos_le
          have hside := hl.pages page hmem
          have hnot := mt (isBehind_iff hl.placed.pos_le hhi hsize).2 hb
          rw [pos_some hn] at hpos hside hnot
          have hzero : (page.seq.distance next).toNat = 0 := by
            rw [Page.toNat_distance base hpos hhi]
            omega
          simp only [hzero, List.take_zero]
          rfl
  rw [stale]
  revert hpart
  induction h.pages with
  | nil => exact fun _ => rfl
  | cons page rest ih =>
      intro hpart
      have hfirst := hpart page (List.mem_cons_self ..)
      have hrest := ih fun q hq => hpart q (List.mem_cons_of_mem _ hq)
      rw [List.flatMap_cons, hfirst, hrest]
      cases hb : h.isBehind page with
      | true => simp [hb]
      | false => simp [hb]

end HalfStream
end TcpStreams
