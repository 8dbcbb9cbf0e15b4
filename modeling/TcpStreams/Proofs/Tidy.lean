import Mathlib.Data.List.Infix
import TcpStreams.Proofs.Moves

/-!
# Half-streams in a window

In a window everything that waits has an offset, and so has the next byte wanted, the *position* of
the half-stream.  A half-stream is *placed* if its pages are spread out in the window, and *tidy* if
none of them reaches back before its position.  Between calls half-streams are tidy; a SYN, data in
order and giving pages up can leave pages behind, which the next drain clears away.

* `HalfStream.Within`: what waits lies in a window, in whatever order; every move keeps that.
* `HalfStream.Tidy.move`: moves keep a half-stream tidy and lead up.
* `HalfStream.Placed.drain`: draining makes a placed half-stream tidy.
* `HalfStream.Moves.upTo`: draining stops where no page covers the next byte.
-/

namespace TcpStreams
namespace HalfStream

open Backlog (Spread Covers Clear)

variable {base : SeqNum} {leaps : Bool} {h h' : HalfStream} {cs : List Chunk}

/-- The offset of the next byte wanted, zero as long as none is known. -/
def pos (base : SeqNum) (h : HalfStream) : Nat :=
  match h.next with
  | none => 0
  | some next => base.offset next

theorem pos_none (hn : h.next = none) : h.pos base = 0 := by
  rw [pos, hn]

theorem pos_some {next : SeqNum} (hn : h.next = some next) : h.pos base = base.offset next := by
  rw [pos, hn]

/-- At position zero the number wanted next is the one where the window begins. -/
theorem eq_base_of_pos {next : SeqNum} (hn : h.next = some next) (hpos : h.pos base = 0) :
    next = base := by
  rw [pos_some hn, ← SeqNum.offset_self base] at hpos
  exact SeqNum.offset_inj.1 hpos

/-! ## Pages and the position -/

theorem lo_trimmed {page : Page} (hpos : h.pos base ≤ SeqNum.reach)
    (hp : page.hi base ≤ SeqNum.reach) (hb : h.isBehind page = false) :
    (h.trimmed page).lo base = max (page.lo base) (h.pos base) := by
  cases hn : h.next with
  | none => rw [trimmed_none hn, pos_none hn, Nat.max_eq_left (Nat.zero_le _)]
  | some next =>
      rw [pos_some hn] at hpos
      have hlt : base.offset next < page.hi base := by
        rw [isBehind_some hn] at hb
        by_contra hc
        rw [(Page.isBehind_iff hpos hp).2 (by omega)] at hb
        cases hb
      rw [trimmed_some hn, pos_some hn, Page.lo_cutTo hlt hp]

theorem hi_trimmed {page : Page} (hpos : h.pos base ≤ SeqNum.reach)
    (hp : page.hi base ≤ SeqNum.reach) (hb : h.isBehind page = false) :
    (h.trimmed page).hi base = page.hi base := by
  cases hn : h.next with
  | none => rw [trimmed_none hn]
  | some next =>
      rw [pos_some hn] at hpos
      have hlt : base.offset next < page.hi base := by
        rw [isBehind_some hn] at hb
        by_contra hc
        rw [(Page.isBehind_iff hpos hp).2 (by omega)] at hb
        cases hb
      rw [trimmed_some hn, Page.hi_cutTo hlt hp]

/-- A page with bytes on it is behind exactly if it ends at the position or before. -/
theorem isBehind_iff {page : Page} (hpos : h.pos base ≤ SeqNum.reach)
    (hp : page.hi base ≤ SeqNum.reach) (hsize : 0 < page.size) :
    h.isBehind page = true ↔ page.hi base ≤ h.pos base := by
  cases hn : h.next with
  | none =>
      rw [isBehind, hn, pos_none hn, Page.hi]
      refine ⟨fun hb => absurd hb Bool.false_ne_true, ?_⟩
      omega
  | some next =>
      rw [pos_some hn] at hpos ⊢
      rw [isBehind_some hn, Page.isBehind_iff hpos hp]

/-- What is new on a page is the rest of what the page holds. -/
theorem bytes_trimmed {page : Page} {line : List UInt8} (hpos : h.pos base ≤ SeqNum.reach)
    (hp : page.hi base ≤ SeqNum.reach) (hb : h.isBehind page = false)
    (hbytes : page.bytes <+: line.drop (page.lo base)) :
    (h.trimmed page).bytes <+: line.drop ((h.trimmed page).lo base) := by
  rw [lo_trimmed hpos hp hb]
  cases hn : h.next with
  | none =>
      rw [trimmed_none hn, pos_none hn, Nat.max_eq_left (Nat.zero_le _)]
      exact hbytes
  | some next =>
      rw [pos_some hn] at hpos ⊢
      have hmax : max (page.lo base) (base.offset next) =
          page.lo base + (base.offset next - page.lo base) := by omega
      rw [trimmed_some hn, Backlog.cutTo, Page.toNat_distance base hpos hp, hmax,
        ← List.drop_drop]
      exact hbytes.drop _

/-- A page that begins at the position or beyond it is not cut. -/
theorem trimmed_eq_self {page : Page} (hlo : h.pos base ≤ page.lo base)
    (hp : page.hi base ≤ SeqNum.reach) : h.trimmed page = page := by
  cases hn : h.next with
  | none => rw [trimmed_none hn]
  | some next =>
      rw [pos_some hn] at hlo
      rw [trimmed_some hn, Page.cutTo_eq_self hlo hp]

/-- After a page was handed on the position is where it ends. -/
theorem pos_turn {phase : Phase} {page : Page} {rest : List Page}
    (hp : page.hi base ≤ SeqNum.reach) : (h.turn phase page rest).1.pos base = page.hi base :=
  Page.offset_stop hp

/-- Giving a page up leads past it, if it is known where the stream is. -/
theorem pos_lose {page : Page} {rest : List Page} (hpos : h.pos base ≤ SeqNum.reach)
    (hp : page.hi base ≤ SeqNum.reach) : (h.lose page rest).pos base =
      if h.next = none then 0 else max (h.pos base) (page.hi base) := by
  cases hn : h.next with
  | none =>
      rw [if_pos rfl, pos_none]
      rw [lose, hn]
      rfl
  | some next =>
      have hstop := Page.offset_stop hp
      rw [pos_some hn] at hpos ⊢
      have hnext : (h.lose page rest).next =
          some (if next.precedes page.stop then page.stop else next) := by
        rw [lose, hn]
        rfl
      rw [if_neg nofun, pos_some hnext]
      have hiff := @SeqNum.precedes_iff_offset base next page.stop hpos (by omega)
      by_cases hlt : base.offset next < base.offset page.stop
      · rw [if_pos (hiff.2 hlt)]
        omega
      · rw [if_neg fun hc => hlt (hiff.1 hc)]
        omega

/-! ## What waits in a window -/

/-- The next byte wanted lies in the window that begins at `base`, and so does all that waits. -/
structure Within (base : SeqNum) (h : HalfStream) : Prop where
  /-- The position lies in the window. -/
  pos_le : h.pos base ≤ SeqNum.reach
  /-- So does every page. -/
  hi_le : ∀ page ∈ h.pages, page.hi base ≤ SeqNum.reach

theorem within_new (base : SeqNum) (d : Direction) : (new d).Within base := ⟨Nat.zero_le _, nofun⟩

/-- A move leads up, in every window. -/
theorem Within.move (hw : h.Within base) (hm : Move leaps h cs h') :
    h'.Within base ∧ h.pos base ≤ h'.pos base := by
  obtain ⟨hpos, hhi⟩ := hw
  cases hm with
  | free hp hb =>
      rw [hp] at hhi
      exact ⟨⟨hpos, fun q hq => hhi q (List.mem_cons_of_mem _ hq)⟩, Nat.le_refl _⟩
  | trim hp hb =>
      rw [hp] at hhi
      have hfirst := hhi _ (List.mem_cons_self ..)
      refine ⟨⟨hpos, fun q hq => ?_⟩, Nat.le_refl _⟩
      rcases List.mem_cons.1 hq with rfl | hq
      · rw [hi_trimmed hpos hfirst hb]
        exact hfirst
      · exact hhi q (List.mem_cons_of_mem _ hq)
  | @hand page rest phase hp hb hc hn =>
      rw [hp] at hhi
      have hfirst := hhi _ (List.mem_cons_self ..)
      have hlo' := lo_trimmed hpos hfirst hb
      have hhi' := hi_trimmed hpos hfirst hb
      have hle := (h.trimmed page).lo_le_hi base
      have hpos' := @pos_turn base h phase _ rest (Nat.le_trans (Nat.le_of_eq hhi') hfirst)
      refine ⟨⟨?_, fun q hq => hhi q (List.mem_cons_of_mem _ hq)⟩, ?_⟩
      · rw [hpos', hhi']
        exact hfirst
      · rw [hpos']
        omega

theorem Within.moves (hw : h.Within base) (hm : Moves leaps h cs h') :
    h'.Within base ∧ h.pos base ≤ h'.pos base := by
  induction hm with
  | refl _ => exact ⟨hw, Nat.le_refl _⟩
  | head hmove _ ih =>
      obtain ⟨hw', hle⟩ := hw.move hmove
      obtain ⟨hw'', hle'⟩ := ih hw'
      exact ⟨hw'', Nat.le_trans hle hle'⟩

/-- Giving a page up leads up. -/
theorem Within.lose (hw : h.Within base) {page : Page} {rest : List Page}
    (hp : h.pages = page :: rest) :
    (h.lose page rest).Within base ∧ h.pos base ≤ (h.lose page rest).pos base := by
  have hpos := hw.pos_le
  have hhi := hw.hi_le
  rw [hp] at hhi
  have hfirst := hhi page (List.mem_cons_self ..)
  have hlost := @pos_lose base h page rest hpos hfirst
  refine ⟨⟨?_, fun q hq => hhi q (List.mem_cons_of_mem _ hq)⟩, ?_⟩
  · rw [hlost]
    split <;> omega
  · rw [hlost]
    split
    · next hn => rw [pos_none hn]
    · exact Nat.le_max_left ..

/-! ## Placed and tidy half-streams -/

/-- The pages are spread out in the window, and the position lies in it. -/
structure Placed (base : SeqNum) (h : HalfStream) : Prop where
  /-- The pages are spread out. -/
  spread : Spread base SeqNum.reach 0 h.pages
  /-- The position lies in the window. -/
  pos_le : h.pos base ≤ SeqNum.reach

/-- The pages are spread out in the window from the position on. -/
structure Tidy (base : SeqNum) (h : HalfStream) : Prop where
  /-- The pages are spread out from the position on. -/
  spread : Spread base SeqNum.reach (h.pos base) h.pages
  /-- The position lies in the window. -/
  pos_le : h.pos base ≤ SeqNum.reach

theorem Tidy.placed (ht : Tidy base h) : Placed base h :=
  ⟨ht.spread.mono (Nat.zero_le _), ht.pos_le⟩

theorem Placed.head (hp : Placed base h) {page : Page} {rest : List Page}
    (hpages : h.pages = page :: rest) : 0 < page.size ∧ page.hi base ≤ SeqNum.reach :=
  (hp.spread.mem (hpages ▸ List.mem_cons_self ..)).2

theorem tidy_new (d : Direction) : Tidy base (new d) := ⟨trivial, Nat.zero_le _⟩

/-- A tidy half-stream has no page with nothing new. -/
theorem Tidy.not_behind (ht : Tidy base h) {page : Page} (hp : page ∈ h.pages) :
    h.isBehind page = false := by
  obtain ⟨hlo, hsize, hhi⟩ := ht.spread.mem hp
  rw [Bool.eq_false_iff]
  intro hb
  rw [isBehind_iff ht.pos_le hhi hsize, Page.hi] at hb
  omega

/-- A tidy half-stream has no page with anything old. -/
theorem Tidy.trimmed_eq (ht : Tidy base h) {page : Page} (hp : page ∈ h.pages) :
    h.trimmed page = page :=
  trimmed_eq_self (ht.spread.mem hp).1 (ht.spread.mem hp).2.2

theorem Placed.within (hp : Placed base h) : h.Within base :=
  ⟨hp.pos_le, fun _ hmem => (hp.spread.mem hmem).2.2⟩

/-- A move keeps a half-stream placed. -/
theorem Placed.move (hp : Placed base h) (hm : Move leaps h cs h') :
    Placed base h' ∧ h.pos base ≤ h'.pos base := by
  obtain ⟨hwithin, hle⟩ := hp.within.move hm
  refine ⟨⟨?_, hwithin.pos_le⟩, hle⟩
  obtain ⟨hs, hpos⟩ := hp
  cases hm with
  | free hpages hb | hand hpages hb hc hn =>
      rw [hpages] at hs
      exact hs.2.2.2.mono (Nat.zero_le _)
  | trim hpages hb =>
      rw [hpages] at hs
      obtain ⟨-, hsize, hhi, hrest⟩ := hs
      have hlo' := lo_trimmed hpos hhi hb
      have hhi' := hi_trimmed hpos hhi hb
      have hlt : ¬ _ ≤ _ := fun hc => by
        rw [(isBehind_iff hpos hhi hsize).2 hc] at hb
        cases hb
      refine ⟨Nat.zero_le _, ?_, ?_, ?_⟩
      · rw [Page.hi, Page.hi, hlo'] at hhi'
        rw [Page.hi] at hlt
        omega
      · rw [hhi']
        exact hhi
      · rw [hhi']
        exact hrest

theorem Placed.moves (hp : Placed base h) (hm : Moves leaps h cs h') : Placed base h' := by
  induction hm with
  | refl _ => exact hp
  | head hmove _ ih => exact ih (hp.move hmove).1

/-- **A move keeps a half-stream tidy.** -/
theorem Tidy.move (ht : Tidy base h) (hm : Move leaps h cs h') : Tidy base h' := by
  have hplaced := (ht.placed.move hm).1
  refine ⟨?_, hplaced.pos_le⟩
  cases hm with
  | free hpages hb =>
      have hs := ht.spread
      rw [hpages] at hs
      exact hs.2.2.2.mono (le_trans hs.1 (Page.lo_le_hi _ _))
  | trim hpages hb =>
      have hs := ht.spread
      rw [ht.trimmed_eq (hpages ▸ List.mem_cons_self ..), ← hpages]
      exact hs
  | @hand page rest phase hpages hb hc hn =>
      have hs := ht.spread
      have htrim : h.trimmed page = page := ht.trimmed_eq (hpages ▸ List.mem_cons_self ..)
      rw [hpages] at hs
      rw [htrim, pos_turn hs.2.2.1]
      exact hs.2.2.2

theorem Tidy.moves (ht : Tidy base h) (hm : Moves leaps h cs h') : Tidy base h' := by
  induction hm with
  | refl _ => exact ht
  | head hmove _ ih => exact ih (ht.move hmove)

/-- Giving a page up keeps a half-stream placed. -/
theorem Placed.lose (hp : Placed base h) {page : Page} {rest : List Page}
    (hpages : h.pages = page :: rest) : Placed base (h.lose page rest) := by
  have hs := hp.spread
  rw [hpages] at hs
  exact ⟨hs.2.2.2.mono (Nat.zero_le _), (hp.within.lose hpages).1.pos_le⟩

/-- Giving a page up keeps a half-stream tidy. -/
theorem Tidy.lose (ht : Tidy base h) {page : Page} {rest : List Page}
    (hpages : h.pages = page :: rest) : Tidy base (h.lose page rest) := by
  refine ⟨?_, (ht.placed.lose hpages).pos_le⟩
  have hs := ht.spread
  rw [hpages] at hs
  obtain ⟨hlo, hsize, hhi, hrest⟩ := hs
  rw [pos_lose ht.pos_le hhi]
  rw [Page.hi] at hrest
  refine hrest.mono ?_
  split
  · exact Nat.zero_le _
  · rw [Page.hi]
    omega

/-- A page that fits between the others keeps a half-stream placed. -/
theorem Placed.hold (hp : Placed base h) {page : Page} (hsize : 0 < page.size)
    (hhi : page.hi base ≤ SeqNum.reach)
    (hclear : Clear base h.pages (page.lo base) (page.hi base)) : Placed base (h.hold page) :=
  ⟨hp.spread.insert (Nat.zero_le _) hsize hhi hclear (Nat.le_refl _), hp.pos_le⟩

/-- A page that fits between the others, from the position on, keeps a half-stream tidy. -/
theorem Tidy.hold (ht : Tidy base h) {page : Page} (hlo : h.pos base ≤ page.lo base)
    (hsize : 0 < page.size) (hhi : page.hi base ≤ SeqNum.reach)
    (hclear : Clear base h.pages (page.lo base) (page.hi base)) : Tidy base (h.hold page) :=
  ⟨ht.spread.insert hlo hsize hhi hclear (Nat.le_refl _), ht.pos_le⟩

/-! ## Draining -/

/-- **Draining makes a placed half-stream tidy**, and no page that is left continues the stream. -/
theorem Placed.drain (hp : Placed base h) : Tidy base h.drain.value ∧
    (h.next ≠ none → ∀ page ∈ h.drain.value.pages, h.drain.value.pos base < page.lo base) := by
  generalize hpages : h.pages = pages
  induction pages generalizing h with
  | nil =>
      rw [(drain_of_nil hpages).1]
      refine ⟨⟨?_, hp.pos_le⟩, ?_⟩
      · rw [hpages]
        trivial
      · rw [hpages]
        exact fun _ _ hmem => nomatch hmem
  | cons page rest ih =>
      obtain ⟨hs, hpos⟩ := hp
      cases hn : h.next with
      | none =>
          rw [drain_of_none hn]
          refine ⟨⟨?_, hpos⟩, fun hc => absurd rfl hc⟩
          rw [pos_none hn]
          exact hs
      | some next =>
          have hplaced : Placed base h := ⟨hs, hpos⟩
          cases hb : h.isBehind page with
          | true =>
              have hrest := (hplaced.move (@Move.free false _ _ _ hpages hb)).1
              rw [(drain_of_behind hpages hb).1]
              obtain ⟨htidy, hfront⟩ := ih hrest rfl
              exact ⟨htidy, fun _ => hfront (hn ▸ nofun)⟩
          | false =>
              by_cases hseq : (h.trimmed page).seq = next
              · have hseq := hn.trans (congrArg some hseq.symm)
                have hrest := (hplaced.move (@Move.hand true _ _ _ _ hpages hb rfl nofun)).1
                rw [(drain_of_follow hpages hb hseq).1]
                obtain ⟨htidy, hfront⟩ := ih hrest rfl
                exact ⟨htidy, fun _ => hfront nofun⟩
              · have hlo := lo_trimmed hpos (hs.mem (hpages ▸ List.mem_cons_self ..)).2.2 hb
                have hle : h.pos base ≤ (h.trimmed page).lo base := by omega
                have htrim := (hplaced.move (@Move.trim false _ _ _ hpages hb)).1
                rw [(drain_of_gap hpages hb hn hseq).1]
                obtain ⟨-, hsize, hhi, hrest⟩ := htrim.spread
                refine ⟨⟨⟨hle, hsize, hhi, hrest⟩, hpos⟩, ?_⟩
                intro _ q hq
                -- the first page begins elsewhere, and the others after it
                have hne : h.pos base ≠ (h.trimmed page).lo base := by
                  rw [pos_some hn, Page.lo]
                  exact fun hc => hseq (SeqNum.offset_inj.1 hc).symm
                have hposeq : ({ h with pages := h.trimmed page :: rest } : HalfStream).pos base
                    = h.pos base := rfl
                rw [hposeq]
                rcases List.mem_cons.1 hq with rfl | hq
                · omega
                · have := htrim.spread.head_le hq
                  have := (h.trimmed page).lo_le_hi base
                  omega

/-- What lies between the pages stays between them, whatever is handed on. -/
theorem Moves.clear {x y : Nat} (hp : Placed base h) (hm : Moves leaps h cs h')
    (hc : Clear base h.pages x y) : Clear base h'.pages x y := by
  induction hm with
  | refl _ => exact hc
  | head hmove _ ih =>
      refine ih (hp.move hmove).1 ?_
      cases hmove with
      | free hpages hb =>
          rw [hpages] at hc
          exact hc.subset (List.subset_cons_self ..)
      | trim hpages hb =>
          rw [hpages] at hc
          have hhi := (hp.spread.mem (hpages ▸ List.mem_cons_self ..)).2.2
          have hlo' := lo_trimmed hp.pos_le hhi hb
          have hhi' := hi_trimmed hp.pos_le hhi hb
          refine Clear.cons ?_ (hc.subset (List.subset_cons_self ..))
          have := hc _ (List.mem_cons_self ..)
          omega
      | hand hpages hb _ _ =>
          rw [hpages] at hc
          exact hc.subset (List.subset_cons_self ..)

/-- Without a leap, a move does not go past an offset that no page covers, and the pages beyond it
stay. -/
theorem Move.upTo {z : Nat} (hp : Placed base h) (hm : Move false h cs h')
    (hz : h.pos base ≤ z) (hc : ¬ Covers base h.pages z) :
    h'.pos base ≤ z ∧ ¬ Covers base h'.pages z ∧ ∀ q ∈ h.pages, z ≤ q.lo base → q ∈ h'.pages := by
  have hrest : ∀ {page rest}, h.pages = page :: rest → ¬ Covers base rest z := by
    rintro page rest hpages ⟨q, hq, hc'⟩
    exact hc ⟨q, hpages ▸ List.mem_cons_of_mem _ hq, hc'⟩
  cases hm with
  | @free page rest hpages hb =>
      obtain ⟨hsize, hhi⟩ := hp.head hpages
      rw [isBehind_iff hp.pos_le hhi hsize, Page.hi] at hb
      refine ⟨hz, hrest hpages, fun q hq hzq => ?_⟩
      rw [hpages] at hq
      rcases List.mem_cons.1 hq with rfl | hq
      · omega
      · exact hq
  | @trim page rest hpages hb =>
      obtain ⟨hsize, hhi⟩ := hp.head hpages
      have hlo' := lo_trimmed hp.pos_le hhi hb
      have hhi' := hi_trimmed hp.pos_le hhi hb
      refine ⟨hz, ?_, fun q hq hzq => ?_⟩
      · rintro ⟨q, hq, hqlo, hqhi⟩
        rcases List.mem_cons.1 hq with rfl | hq
        · exact hc ⟨page, hpages ▸ List.mem_cons_self .., by omega, by omega⟩
        · exact hrest hpages ⟨q, hq, hqlo, hqhi⟩
      · rw [hpages] at hq
        rcases List.mem_cons.1 hq with rfl | hq
        · rw [trimmed_eq_self (le_trans hz hzq) hhi]
          exact List.mem_cons_self ..
        · exact List.mem_cons_of_mem _ hq
  | @hand page rest phase hpages hb hclosed hn =>
      obtain ⟨hsize, hhi⟩ := hp.head hpages
      have hlo' := lo_trimmed hp.pos_le hhi hb
      have hhi' := hi_trimmed hp.pos_le hhi hb
      have hposeq : h.pos base = (h.trimmed page).lo base := pos_some (hn rfl)
      have hpast : page.hi base ≤ z := by
        by_contra hlt
        exact hc ⟨page, hpages ▸ List.mem_cons_self .., by omega, by omega⟩
      rw [pos_turn (Nat.le_trans (Nat.le_of_eq hhi') hhi), hhi']
      refine ⟨hpast, hrest hpages, fun q hq hzq => ?_⟩
      rw [hpages] at hq
      rcases List.mem_cons.1 hq with rfl | hq
      · rw [Page.hi] at hpast
        omega
      · exact hq

/-- **Without a leap, moves do not go past an offset that no page covers**, and the pages beyond it
stay. -/
theorem Moves.upTo {z : Nat} (hp : Placed base h) (hm : Moves false h cs h')
    (hz : h.pos base ≤ z) (hc : ¬ Covers base h.pages z) :
    h'.pos base ≤ z ∧ ¬ Covers base h'.pages z ∧ ∀ q ∈ h.pages, z ≤ q.lo base → q ∈ h'.pages := by
  induction hm with
  | refl _ => exact ⟨hz, hc, fun _ hq _ => hq⟩
  | head hmove _ ih =>
      obtain ⟨hz', hc', hstay⟩ := hmove.upTo hp hz hc
      obtain ⟨hz'', hc'', hstay'⟩ := ih (hp.move hmove).1 hz' hc'
      exact ⟨hz'', hc'', fun q hq hzq => hstay' q (hstay q hq hzq) hzq⟩

/-- **Without a leap, a move alters nothing about what lies behind the position or waits.** -/
theorem Move.covers (hp : Placed base h) (hm : Move false h cs h') (x : Nat) :
    (x < h'.pos base ∨ Covers base h'.pages x) ↔ (x < h.pos base ∨ Covers base h.pages x) := by
  cases hm with
  | free hpages hb =>
      obtain ⟨hsize, hhi⟩ := hp.head hpages
      have hend := (isBehind_iff hp.pos_le hhi hsize).1 hb
      rw [hpages, Backlog.covers_cons, ← or_assoc]
      refine or_congr_left ?_
      show x < h.pos base ↔ _
      omega
  | trim hpages hb =>
      obtain ⟨hsize, hhi⟩ := hp.head hpages
      have hlo' := lo_trimmed hp.pos_le hhi hb
      have hhi' := hi_trimmed hp.pos_le hhi hb
      rw [hpages, Backlog.covers_cons, Backlog.covers_cons, ← or_assoc, ← or_assoc]
      refine or_congr_left ?_
      show x < h.pos base ∨ _ ↔ _
      omega
  | @hand page rest phase hpages hb _ hn =>
      obtain ⟨hsize, hhi⟩ := hp.head hpages
      have hlo' := lo_trimmed hp.pos_le hhi hb
      have hhi' := hi_trimmed hp.pos_le hhi hb
      have hle := (h.trimmed page).lo_le_hi base
      have hpos : h.pos base = (h.trimmed page).lo base := pos_some (hn rfl)
      rw [hpages, Backlog.covers_cons, ← or_assoc,
        pos_turn (Nat.le_trans (Nat.le_of_eq hhi') hhi)]
      refine or_congr_left ?_
      omega

end HalfStream
end TcpStreams
