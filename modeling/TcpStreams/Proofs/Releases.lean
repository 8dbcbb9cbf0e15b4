import TcpStreams.Proofs.Conflicts

/-!
# What is released

Draining, leaping and closing all look for what is new on the pages that wait: the pages behind the
position go back as they are, and the others are handed on from the position on.  They differ in how far
they go.  Draining stops at the first byte that no page holds, leaping passes one gap to begin with, and
closing passes every gap.

* `HalfStream.spent`, `HalfStream.news`: what is behind the position, and what is not.
* `HalfStream.announced`: the chunks that hand pages on, with their marks.
* `Backlog.FirstGap`: where a gap-free run of pages ends.
* `HalfStream.releases_exact`: what draining, leaping and closing hand on, give back and leave.
-/

namespace TcpStreams

open Backlog (Spread Covers)

variable {base : SeqNum}

/-! ## Pages that are handed on -/

/-- The chunks that hand on pages of a half-stream that wants `next`, one each.  A chunk is marked if it does
not begin where the one before it ended, and the first one also if that is due. -/
def Chunk.handing (d : Direction) (next : Option SeqNum) (skip start : Bool) : List Page → List Chunk
  | [] => []
  | page :: rest =>
    { direction := d, seq := page.seq, skip := skip || next != some page.seq, start
      source := .page page } :: handing d (some page.stop) false false rest

namespace Backlog

/-- The first offset from `x` on that no page covers. -/
structure FirstGap (base : SeqNum) (pages : List Page) (x stop : Nat) : Prop where
  /-- It is not before `x`. -/
  le : x ≤ stop
  /-- All before it are covered. -/
  covered : ∀ y, x ≤ y → y < stop → Covers base pages y
  /-- It is not. -/
  clear : ¬ Covers base pages stop

variable {page : Page} {rest pages : List Page} {x stop lo : Nat}

/-- A page behind `x` does not matter. -/
theorem FirstGap.cons_of_le (hg : FirstGap base rest x stop) (hle : page.hi base ≤ x) :
    FirstGap base (page :: rest) x stop where
  le := hg.le
  covered y hy hlt := (covers_cons_of_le (Nat.le_trans hle hy)).2 (hg.covered y hy hlt)
  clear hc := hg.clear ((covers_cons_of_le (Nat.le_trans hle hg.le)).1 hc)

/-- A page that covers `x` leads to where it ends. -/
theorem FirstGap.cons (hg : FirstGap base rest (page.hi base) stop) (hlo : page.lo base ≤ x)
    (hlt : x < page.hi base) : FirstGap base (page :: rest) x stop where
  le := Nat.le_trans (Nat.le_of_lt hlt) hg.le
  covered y hy hlt := by
    by_cases hpage : y < page.hi base
    · exact covers_cons.2 (Or.inl ⟨Nat.le_trans hlo hy, hpage⟩)
    · exact covers_cons.2 (Or.inr (hg.covered y (Nat.le_of_not_lt hpage) hlt))
  clear hc := hg.clear ((covers_cons_of_le hg.le).1 hc)

/-- If all pages lie beyond `x`, the gap is there. -/
theorem FirstGap.here (h : ∀ page ∈ pages, x < page.lo base) : FirstGap base pages x x where
  le := Nat.le_refl x
  covered _ hle hlt := absurd hlt (Nat.not_lt.2 hle)
  clear := by
    rintro ⟨page, hp, hle, -⟩
    exact absurd hle (Nat.not_le.2 (h page hp))

end Backlog

namespace HalfStream

open Backlog (FirstGap)

variable {h : HalfStream} {page : Page} {rest : List Page} {stop : Nat}

/-- The chunks that hand pages of a half-stream on. -/
def announced (h : HalfStream) (pages : List Page) : List Chunk :=
  Chunk.handing h.direction h.next h.skipDue h.startDue pages

/-- The pages that wait behind the position. -/
def spent (base : SeqNum) (h : HalfStream) : List Page :=
  h.pages.filter fun page => page.hi base ≤ h.pos base

/-- What is new on the pages that wait: those that are not behind the position, from the position on. -/
def news (base : SeqNum) (h : HalfStream) : List Page :=
  (h.pages.filter fun page => h.pos base < page.hi base).map h.trimmed

section News

theorem news_of_nil (hp : h.pages = []) : h.spent base = [] ∧ h.news base = [] := by
  rw [spent, news, hp]
  exact ⟨rfl, rfl⟩

/-- A page behind the position holds nothing new. -/
theorem news_of_behind (hp : Placed base h) (hpages : h.pages = page :: rest)
    (hb : h.isBehind page = true) : page.hi base ≤ h.pos base ∧
      h.spent base = page :: ({ h with pages := rest } : HalfStream).spent base ∧
      h.news base = ({ h with pages := rest } : HalfStream).news base := by
  obtain ⟨hsize, hhi⟩ := hp.head hpages
  have hend := (isBehind_iff hp.pos_le hhi hsize).1 hb
  refine ⟨hend, ?_, ?_⟩
  · rw [spent, hpages, List.filter_cons, if_pos (decide_eq_true hend)]
    rfl
  · rw [news, hpages, List.filter_cons, if_neg (by simpa using hend)]
    rfl

/-- A page that is not behind the position is new from there on, and so are all that follow it. -/
theorem news_of_front (hp : Placed base h) (hpages : h.pages = page :: rest)
    (hb : h.isBehind page = false) : h.pos base < page.hi base ∧ h.spent base = [] ∧
      h.news base = h.trimmed page :: rest := by
  obtain ⟨hsize, hhi⟩ := hp.head hpages
  have hend : h.pos base < page.hi base := by
    by_contra hc
    rw [(isBehind_iff hp.pos_le hhi hsize).2 (Nat.le_of_not_lt hc)] at hb
    cases hb
  have hspread := hp.spread
  rw [hpages] at hspread
  have hrest : ∀ q ∈ rest, h.pos base < q.lo base ∧ h.pos base < q.hi base := by
    intro q hq
    have := hspread.head_le hq
    have := q.lo_le_hi base
    omega
  have hall : ∀ q ∈ page :: rest, h.pos base < q.hi base := by
    intro q hq
    rcases List.mem_cons.1 hq with rfl | hq
    · exact hend
    · exact (hrest q hq).2
  refine ⟨hend, ?_, ?_⟩
  · rw [spent, hpages, List.filter_eq_nil_iff]
    intro q hq
    simpa using hall q hq
  · rw [news, hpages, List.filter_eq_self.2 fun q hq => decide_eq_true (hall q hq), List.map_cons]
    congr 1
    refine (List.map_congr_left fun q hq => ?_).trans (List.map_id rest)
    have hmem : q ∈ h.pages := hpages ▸ List.mem_cons_of_mem _ hq
    exact trimmed_eq_self (Nat.le_of_lt (hrest q hq).1) (hp.spread.mem hmem).2.2

/-- All that waits at a tidy half-stream is new. -/
theorem Tidy.news_eq (ht : Tidy base h) : h.spent base = [] ∧ h.news base = h.pages := by
  cases hpages : h.pages with
  | nil => exact news_of_nil hpages
  | cons page rest =>
      have hmem : page ∈ h.pages := hpages ▸ List.mem_cons_self ..
      obtain ⟨-, hspent, hnews⟩ := news_of_front ht.placed hpages (ht.not_behind hmem)
      rw [ht.trimmed_eq hmem] at hnews
      exact ⟨hspent, hnews⟩

/-- What is new is spread out from the position on, and holds every byte that waits there. -/
theorem news_spread (hp : Placed base h) : Spread base SeqNum.reach (h.pos base) (h.news base) ∧
    ∀ x b, (∃ page ∈ h.news base, page.byteAt base x = some b) ↔
      h.pos base ≤ x ∧ ∃ page ∈ h.pages, page.byteAt base x = some b := by
  generalize hpages : h.pages = pages
  induction pages generalizing h with
  | nil =>
      rw [(news_of_nil hpages).2]
      exact ⟨trivial, by simp⟩
  | cons page rest ih =>
      obtain ⟨hsize, hhi⟩ := hp.head hpages
      cases hb : h.isBehind page with
      | true =>
          obtain ⟨hend, -, hnews⟩ := news_of_behind hp hpages hb
          have hrest := (hp.move (@Move.free false _ _ _ hpages hb)).1
          obtain ⟨hspread, hbytes⟩ := ih hrest rfl
          rw [hnews]
          refine ⟨hspread, fun x b => (hbytes x b).trans (and_congr_right fun hle => ?_)⟩
          -- the page that is behind holds nothing from the position on
          have hnone : page.byteAt base x ≠ some b := fun hx => by
            have hlt : x < page.hi base := (bounds_of_byteAt hx).2
            have hle : h.pos base ≤ x := hle
            omega
          simp only [List.mem_cons, exists_eq_or_imp, hnone, false_or]
      | false =>
          obtain ⟨hend, -, hnews⟩ := news_of_front hp hpages hb
          have hlo' := lo_trimmed hp.pos_le hhi hb
          have hhi' := hi_trimmed hp.pos_le hhi hb
          have hspread := hp.spread
          rw [hpages] at hspread
          rw [hnews]
          refine ⟨⟨by omega, ?_, hhi' ▸ hhi, hhi' ▸ hspread.2.2.2⟩, fun x b => ?_⟩
          · have hlen : page.hi base = page.lo base + page.size := rfl
            rw [Page.hi, hlo'] at hhi'
            omega
          · simp only [List.mem_cons, exists_eq_or_imp]
            constructor
            · rintro (hx | ⟨q, hq, hx⟩)
              · have hle := (bounds_of_byteAt hx).1
                exact ⟨by omega, Or.inl (byteAt_trimmed hp.pos_le hhi hb hx)⟩
              · have hle : q.lo base ≤ x := (bounds_of_byteAt hx).1
                have hbetween := hspread.head_le hq
                exact ⟨by omega, Or.inr ⟨q, hq, hx⟩⟩
            · rintro ⟨hle, hx | hx⟩
              · refine Or.inl ?_
                obtain ⟨hlo, hlt⟩ := bounds_of_byteAt hx
                have hlt : x < page.hi base := hlt
                obtain ⟨b', hb'⟩ := Option.ne_none_iff_exists'.1
                  ((@byteAt_ne_none_iff ((h.trimmed page).lo base) x (h.trimmed page).bytes).2
                    ⟨by omega, Nat.lt_of_lt_of_eq hlt hhi'.symm⟩)
                have hsame := hx.symm.trans (byteAt_trimmed hp.pos_le hhi hb hb')
                exact hb'.trans hsame.symm
              · exact Or.inr hx

end News

/-! ## Draining -/

/-- What draining leads to: up to `stop`, what is new is handed on. -/
structure Drained (base : SeqNum) (h : HalfStream) (stop : Nat) : Prop where
  /-- The pages behind the position go back. -/
  freed : h.drain.freed = h.spent base
  /-- The others are handed on as far as they continue the stream. -/
  chunks : h.drain.chunks = h.announced ((h.news base).filter fun page => page.hi base ≤ stop)
  /-- The later ones are left as they are, and the stream goes on where those end. -/
  value : ∃ counters, h.drain.value =
    { h with
      pages := h.pages.filter fun page => stop ≤ page.lo base
      next := some (base.advance stop)
      startDue := h.startDue && decide (stop = h.pos base)
      skipDue := h.skipDue && decide (stop = h.pos base)
      counters }

/-- Where a page is behind the position, draining gives it back before anything else. -/
theorem freed_drain_of_behind (hp : h.pages = page :: rest) (hb : h.isBehind page = true) :
    h.drain.freed = page :: ({ h with pages := rest } : HalfStream).drain.freed := by
  rw [drain_eq_of_behind hp hb]
  rfl

/-- A page that is handed on is not given back. -/
theorem freed_drain_of_follow (hp : h.pages = page :: rest) (hb : h.isBehind page = false)
    (hs : h.next = some (h.trimmed page).seq) (phase : Phase) :
    h.drain.freed = (h.turn phase (h.trimmed page) rest).1.drain.freed := by
  rw [drain_eq_of_follow hp hb hs]
  rfl

theorem freed_drain_of_gap (hp : h.pages = page :: rest) (hb : h.isBehind page = false)
    {next : SeqNum} (hn : h.next = some next) (hs : (h.trimmed page).seq ≠ next) :
    h.drain.freed = [] := by
  rw [drain_eq_of_gap hp hb hn hs]

/-- Once a page was handed on, what is left is tidy, and the position is where it ends. -/
theorem turned (hp : Placed base h) (hpages : h.pages = page :: rest) (hb : h.isBehind page = false)
    (phase : Phase) : Tidy base (h.turn phase (h.trimmed page) rest).1 ∧
      (h.turn phase (h.trimmed page) rest).1.pos base = page.hi base := by
  obtain ⟨-, hhi⟩ := hp.head hpages
  have hhi' := hi_trimmed hp.pos_le hhi hb
  have hpos := @pos_turn base h phase (h.trimmed page) rest (hhi' ▸ hhi)
  have hspread := hp.spread
  rw [hpages] at hspread
  refine ⟨⟨?_, ?_⟩, hpos.trans hhi'⟩
  · rw [hpos, hhi']
    exact hspread.2.2.2
  · rw [hpos, hhi']
    exact hhi

/-- The next number wanted is the one at the position. -/
theorem next_eq_advance {next : SeqNum} (hn : h.next = some next) :
    h.next = some (base.advance (h.pos base)) := by
  rw [hn, pos_some hn, SeqNum.advance_offset]

/-- Where nothing is handed on, nothing but the pages changes. -/
theorem Drained.of_idle {next : SeqNum} (hn : h.next = some next) (hfreed : h.drain.freed = h.spent base)
    (hchunks : h.drain.chunks = []) (hnews : ∀ page ∈ h.news base, h.pos base < page.hi base)
    (hvalue : h.drain.value = { h with pages := h.pages.filter fun page => h.pos base ≤ page.lo base }) :
    Drained base h (h.pos base) where
  freed := hfreed
  chunks := by
    rw [hchunks, List.filter_eq_nil_iff.2 fun page hp => by simpa using hnews page hp]
    rfl
  value := by
    refine ⟨h.counters, ?_⟩
    rw [hvalue, ← next_eq_advance hn, decide_eq_true rfl, Bool.and_true, Bool.and_true]

/-- **Draining hands on the gap-free run of what is new from the position on.** -/
theorem Placed.drained (hp : Placed base h) (hn : h.next ≠ none) :
    ∃ stop, FirstGap base h.pages (h.pos base) stop ∧ Drained base h stop := by
  generalize hpages : h.pages = pages
  induction pages generalizing h with
  | nil =>
      obtain ⟨next, hnext⟩ := Option.ne_none_iff_exists'.1 hn
      obtain ⟨hvalue, hchunks⟩ := drain_of_nil hpages
      obtain ⟨hspent, hnews⟩ := @news_of_nil base h hpages
      refine ⟨h.pos base, .here fun _ hmem => absurd hmem List.not_mem_nil,
        .of_idle hnext ?_ hchunks ?_ ?_⟩
      · rw [hspent]
        simp only [HalfStream.drain, hnext, hpages, Backlog.run]
      · rw [hnews]
        exact fun _ hmem => absurd hmem List.not_mem_nil
      · rw [hvalue, hpages, List.filter_nil, ← hpages]
  | cons page rest ih =>
      obtain ⟨hsize, hhi⟩ := hp.head hpages
      have hlen : page.hi base = page.lo base + page.size := rfl
      cases hb : h.isBehind page with
      | true =>
          obtain ⟨hend, hspent, hnews⟩ := news_of_behind hp hpages hb
          have hrest := (hp.move (@Move.free false _ _ _ hpages hb)).1
          obtain ⟨stop, hgap, hfreed, hchunks, counters, hvalue⟩ := ih hrest hn rfl
          have hle : h.pos base ≤ stop := hgap.le
          refine ⟨stop, hgap.cons_of_le hend, ?_, ?_, counters, ?_⟩
          · rw [freed_drain_of_behind hpages hb, hfreed, hspent]
          · rw [(drain_of_behind hpages hb).2, hchunks, hnews]
            rfl
          · rw [(drain_of_behind hpages hb).1, hvalue, hpages, List.filter_cons,
              if_neg (by simp only [decide_eq_true_eq]; omega)]
            rfl
      | false =>
          obtain ⟨next, hnext⟩ := Option.ne_none_iff_exists'.1 hn
          obtain ⟨hend, hspent, hnews⟩ := news_of_front hp hpages hb
          have hlo' := lo_trimmed hp.pos_le hhi hb
          have hhi' := hi_trimmed hp.pos_le hhi hb
          by_cases hseq : (h.trimmed page).seq = next
          · -- the page continues the stream
            have hs : h.next = some (h.trimmed page).seq := hnext.trans (congrArg some hseq.symm)
            have hposeq : h.pos base = (h.trimmed page).lo base := pos_some hs
            obtain ⟨htidy, hpos⟩ := turned hp hpages hb h.phase
            obtain ⟨hspent', hnews'⟩ := htidy.news_eq
            obtain ⟨stop, hgap, hfreed, hchunks, counters, hvalue⟩ :=
              ih htidy.placed (Option.some_ne_none _) rfl
            rw [hpos] at hgap
            have hle := hgap.le
            refine ⟨stop, hgap.cons (by omega) hend, ?_, ?_, counters, ?_⟩
            · rw [freed_drain_of_follow hpages hb hs, hfreed, hspent', hspent]
            · rw [(drain_of_follow hpages hb hs).2, hchunks, hnews', hnews, List.filter_cons,
                if_pos (by rw [hhi']; exact decide_eq_true hle)]
              rfl
            · rw [(drain_of_follow hpages hb hs).1, hvalue, hpages, List.filter_cons,
                if_neg (by simp only [decide_eq_true_eq]; omega),
                decide_eq_false (by omega : ¬ stop = h.pos base), Bool.and_false, Bool.and_false]
              rfl
          · -- a gap lies before the page
            have hne : h.pos base ≠ (h.trimmed page).lo base := by
              rw [pos_some hnext, Page.lo]
              exact fun hc => hseq (SeqNum.offset_inj.1 hc).symm
            have hbeyond : ∀ q ∈ page :: rest, h.pos base < q.lo base := by
              have hspread := hp.spread
              rw [hpages] at hspread
              intro q hq
              rcases List.mem_cons.1 hq with rfl | hq
              · omega
              · have := hspread.head_le hq
                omega
            obtain ⟨hvalue, hchunks⟩ := drain_of_gap hpages hb hnext hseq
            have htrim : h.trimmed page = page :=
              trimmed_eq_self (Nat.le_of_lt (hbeyond page (List.mem_cons_self ..))) hhi
            refine ⟨h.pos base, .here hbeyond, .of_idle hnext ?_ hchunks ?_ ?_⟩
            · rw [freed_drain_of_gap hpages hb hnext hseq, hspent]
            · rw [hnews, htrim]
              intro q hq
              exact Nat.lt_of_lt_of_le (hbeyond q hq) (q.lo_le_hi base)
            · rw [hvalue, htrim, hpages, List.filter_eq_self.2
                fun q hq => decide_eq_true (Nat.le_of_lt (hbeyond q hq))]

/-- Without a leap no chunk but the first is marked, and that one only if it is due. -/
theorem Moves.unmarked {h' : HalfStream} {cs : List Chunk} (hm : Moves false h cs h')
    (hskip : h.skipDue = false) : ∀ c ∈ cs, c.skip = false := by
  induction hm with
  | refl _ => exact fun _ hc => absurd hc List.not_mem_nil
  | head hmove _ ih =>
      cases hmove with
      | free _ _ | trim _ _ => exact ih hskip
      | hand _ _ _ hn =>
          intro c hc
          rcases List.mem_cons.1 hc with rfl | hc
          · simp only [turn, handOn, hskip, hn rfl, bne_self_eq_false, Bool.or_false]
          · exact ih rfl c hc

/-! ## Leaping -/

/-- What leaping to the first page of what is new leads to: up to `stop`, what is new is handed on. -/
structure Leapt (base : SeqNum) (h : HalfStream) (first : Page) (stop : Nat) : Prop where
  /-- The pages behind the position go back. -/
  freed : h.leap.freed = h.spent base
  /-- The others are handed on as far as they continue the first one. -/
  chunks : h.leap.chunks = h.announced ((h.news base).filter fun page => page.hi base ≤ stop)
  /-- The first chunk is marked if that is due, or if it is not the one that is wanted. -/
  marked : ∃ c cs, h.leap.chunks = c :: cs ∧
    (c.skip = true ↔ h.skipDue = true ∨ h.next ≠ some first.seq) ∧ ∀ c ∈ cs, c.skip = false
  /-- The later ones are left as they are, and the stream, which has begun, goes on where those end. -/
  value : ∃ counters, h.leap.value =
    ({ h with
      phase := h.phase.begun
      pages := h.pages.filter fun page => stop ≤ page.lo base
      next := some (base.advance stop)
      startDue := false
      skipDue := false
      counters }, true)

/-- What leaping leads to where nothing is new: the pages go back, and that is all. -/
structure Stayed (base : SeqNum) (h : HalfStream) : Prop where
  /-- The pages behind the position go back, which are all there are. -/
  freed : h.leap.freed = h.spent base
  /-- Nothing is handed on. -/
  chunks : h.leap.chunks = []
  /-- No page is left. -/
  value : h.leap.value = ({ h with pages := [] }, false)

theorem freed_leap_of_behind (hp : h.pages = page :: rest) (hb : h.isBehind page = true) :
    h.leap.freed = page :: ({ h with pages := rest } : HalfStream).leap.freed := by
  rw [leap_eq_of_behind hp hb]
  rfl

theorem freed_leap_of_front (hp : h.pages = page :: rest) (hb : h.isBehind page = false) :
    h.leap.freed = (h.turn h.phase.begun (h.trimmed page) rest).1.drain.freed := by
  rw [leap_eq_of_front hp hb]
  rfl

/-- **Leaping hands on the first gap-free run of what is new**, if there is one. -/
theorem Placed.leapt (hp : Placed base h) : (h.news base = [] → Stayed base h) ∧
    ∀ first later, h.news base = first :: later →
      ∃ stop, FirstGap base h.pages (first.lo base) stop ∧ Leapt base h first stop := by
  generalize hpages : h.pages = pages
  induction pages generalizing h with
  | nil =>
      obtain ⟨hvalue, hchunks⟩ := leap_of_nil hpages
      obtain ⟨hspent, hnews⟩ := @news_of_nil base h hpages
      refine ⟨fun _ => ⟨?_, hchunks, ?_⟩, fun first later hfirst => ?_⟩
      · rw [hspent, leap_of_empty hpages]
      · rw [hvalue, ← hpages]
      · rw [hnews] at hfirst
        cases hfirst
  | cons page rest ih =>
      obtain ⟨hsize, hhi⟩ := hp.head hpages
      have hlen : page.hi base = page.lo base + page.size := rfl
      cases hb : h.isBehind page with
      | true =>
          obtain ⟨hend, hspent, hnews⟩ := news_of_behind hp hpages hb
          have hrest := (hp.move (@Move.free false _ _ _ hpages hb)).1
          obtain ⟨hvalue, hchunks⟩ := leap_of_behind hpages hb
          have hfreed := freed_leap_of_behind hpages hb
          obtain ⟨hstayed, hleapt⟩ := ih hrest rfl
          refine ⟨fun hnone => ?_, fun first later hfirst => ?_⟩
          · obtain ⟨hfreed', hchunks', hvalue'⟩ := hstayed (hnews ▸ hnone)
            exact ⟨by rw [hfreed, hfreed', hspent], hchunks.trans hchunks', hvalue.trans hvalue'⟩
          · rw [hnews] at hfirst
            have hfrom : h.pos base ≤ first.lo base :=
              ((news_spread hrest).1.mem (hfirst ▸ List.mem_cons_self ..)).1
            obtain ⟨stop, hgap, hfreed', hchunks', hmarked, counters, hvalue'⟩ :=
              hleapt first later hfirst
            have hle := hgap.le
            refine ⟨stop, hgap.cons_of_le (Nat.le_trans hend hfrom), ?_, ?_, hchunks ▸ hmarked,
              counters, ?_⟩
            · rw [hfreed, hfreed', hspent]
            · rw [hchunks, hchunks', hnews]
              rfl
            · rw [hvalue, hvalue', hpages, List.filter_cons,
                if_neg (by simp only [decide_eq_true_eq]; omega)]
      | false =>
          obtain ⟨hend, hspent, hnews⟩ := news_of_front hp hpages hb
          have hlo' := lo_trimmed hp.pos_le hhi hb
          have hhi' := hi_trimmed hp.pos_le hhi hb
          obtain ⟨htidy, hpos⟩ := turned hp hpages hb h.phase.begun
          obtain ⟨hspent', hnews'⟩ := htidy.news_eq
          obtain ⟨hvalue, hchunks⟩ := leap_of_front hpages hb
          obtain ⟨stop, hgap, hfreed', hchunks', counters, hvalue'⟩ :=
            htidy.placed.drained (Option.some_ne_none _)
          rw [hpos] at hgap
          have hle := hgap.le
          refine ⟨fun hnone => absurd (hnews.symm.trans hnone) (List.cons_ne_nil _ _),
            fun first later hfirst => ?_⟩
          obtain rfl := (List.cons.inj (hnews.symm.trans hfirst)).1
          refine ⟨stop, hgap.cons (by omega) (by omega), ?_, ?_, ⟨_, _, hchunks, ?_, ?_⟩, counters, ?_⟩
          · rw [freed_leap_of_front hpages hb, hfreed', hspent', hspent]
          · rw [hchunks, hchunks', hnews', hnews, List.filter_cons,
              if_pos (by rw [hhi']; exact decide_eq_true hle)]
            rfl
          · simp only [turn, handOn, Bool.or_eq_true, bne_iff_ne, ne_eq]
          · exact (drain_moves _).unmarked rfl
          · rw [hvalue, hvalue', hpages, List.filter_cons,
              if_neg (by simp only [decide_eq_true_eq]; omega)]
            rfl

/-! ## Closing -/

/-- What closing leads to: all that is new is handed on. -/
structure Swept (base : SeqNum) (h : HalfStream) : Prop where
  /-- The pages behind the position go back. -/
  freed : h.close.freed = h.spent base
  /-- The others are handed on. -/
  chunks : h.close.chunks = h.announced (h.news base)
  /-- No page is left, and the stream is over. -/
  value : ∃ counters, h.close.value =
    { h with
      phase := .closed
      pages := []
      next := ((h.news base).getLast?.map Page.stop).or h.next
      startDue := h.startDue && (h.news base).isEmpty
      skipDue := h.skipDue && (h.news base).isEmpty
      counters }

/-- Sweeping over pages hands on what is new on them. -/
theorem sweep_released (h : HalfStream) (pages : List Page) (hp : Placed base { h with pages }) :
    (h.sweep pages).freed = ({ h with pages } : HalfStream).spent base ∧
      (h.sweep pages).chunks = h.announced (({ h with pages } : HalfStream).news base) ∧
      ∃ phase counters, (h.sweep pages).value =
        { h with
          phase
          next := ((({ h with pages } : HalfStream).news base).getLast?.map Page.stop).or h.next
          startDue := h.startDue && (({ h with pages } : HalfStream).news base).isEmpty
          skipDue := h.skipDue && (({ h with pages } : HalfStream).news base).isEmpty
          counters } := by
  induction pages generalizing h with
  | nil =>
      refine ⟨rfl, rfl, h.phase, h.counters, ?_⟩
      simp only [sweep, news, List.filter_nil, List.map_nil, List.getLast?_nil, Option.map_none,
        Option.none_or, List.isEmpty_nil, Bool.and_true]
  | cons page rest ih =>
      cases hb : h.isBehind page with
      | true =>
          obtain ⟨-, hspent, hnews⟩ := news_of_behind hp rfl hb
          obtain ⟨hfreed, hchunks, hvalue⟩ :=
            ih h (hp.move (@Move.free false { h with pages := page :: rest } _ _ rfl hb)).1
          have hsweep : h.sweep (page :: rest) =
              { h.sweep rest with freed := page :: (h.sweep rest).freed } := by
            cases hn : h.next with
            | none => rw [isBehind, hn] at hb; cases hb
            | some next =>
                rw [isBehind_some hn] at hb
                simp only [sweep, hn, hb, if_true]
          rw [hsweep, hspent, hnews]
          exact ⟨congrArg _ hfreed, hchunks, hvalue⟩
      | false =>
          obtain ⟨-, hspent, hnews⟩ := news_of_front hp rfl hb
          obtain ⟨htidy, -⟩ := turned hp rfl hb h.phase.begun
          obtain ⟨hspent', hnews'⟩ := htidy.news_eq
          obtain ⟨hfreed, hchunks, phase, counters, hvalue⟩ :=
            ih (h.jump (h.trimmed page)).value htidy.placed
          have hsweep : h.sweep (page :: rest) = (h.jump (h.trimmed page)).andThen
              fun h => h.sweep rest := by
            cases hn : h.next with
            | none => simp only [sweep, hn, trimmed]
            | some next =>
                rw [isBehind_some hn] at hb
                simp only [sweep, hn, hb, Bool.false_eq_true, if_false, trimmed]
          -- the half-stream that holds the rest is the one that is left once the page was handed on
          have hnews' : ({ (h.jump (h.trimmed page)).value with pages := rest } : HalfStream).news base
              = rest := hnews'
          rw [hnews'] at hchunks hvalue
          rw [hsweep, hspent, hnews]
          refine ⟨hfreed.trans hspent', ?_, phase, counters, ?_⟩
          · show (h.jump (h.trimmed page)).chunks ++ _ = _
            rw [hchunks]
            rfl
          · refine hvalue.trans ?_
            cases rest with
            | nil =>
                simp only [List.isEmpty_cons, Bool.and_false]
                rfl
            | cons q later =>
                simp only [List.isEmpty_cons, Bool.and_false, List.getLast?_cons_cons]
                rfl

/-- **Closing hands on all that is new.** -/
theorem Placed.swept_all (hp : Placed base h) : Swept base h := by
  obtain ⟨hfreed, hchunks, phase, counters, hvalue⟩ :=
    sweep_released { h with pages := [] } h.pages hp
  refine ⟨?_, ?_, counters, ?_⟩
  · simp only [close, Yield.andThen, List.append_nil]
    exact hfreed
  · simp only [close, Yield.andThen, List.append_nil]
    exact hchunks
  · simp only [close, Yield.andThen, hvalue]

/-- **What draining, leaping and closing release.** Let the pages of a half-stream be spread out in a window
that also holds the next byte wanted, if that is known.  What is new on them is what lies from there on,
in order and once.  Draining does nothing if it is not known; otherwise it gives the pages behind it back,
hands on what is new up to the first byte that no page holds, goes on there, and leaves the later pages as
they are.  Leaping gives the same pages back, comes to nothing exactly if nothing is new, and otherwise
hands on what is new from the first page on up to the first gap after it; only its first chunk can be
marked.  Closing gives the same pages back and hands on all that is new, over every gap, each chunk marked
that does not begin where the one before it ended. -/
theorem releases_exact (hp : Placed base h) :
    (Spread base SeqNum.reach (h.pos base) (h.news base) ∧
      ∀ x b, (∃ page ∈ h.news base, page.byteAt base x = some b) ↔
        h.pos base ≤ x ∧ ∃ page ∈ h.pages, page.byteAt base x = some b) ∧
    (h.next = none → h.drain = { value := h }) ∧
    (h.next ≠ none → ∃ stop, FirstGap base h.pages (h.pos base) stop ∧ Drained base h stop) ∧
    (h.leap.value.2 = false ↔ h.news base = []) ∧
    (h.news base = [] → Stayed base h) ∧
    (∀ first later, h.news base = first :: later →
      ∃ stop, FirstGap base h.pages (first.lo base) stop ∧ Leapt base h first stop) ∧
    Swept base h := by
  obtain ⟨hstayed, hleapt⟩ := hp.leapt
  refine ⟨news_spread hp, drain_of_none, hp.drained, ⟨fun hfalse => ?_, fun hnone => ?_⟩, hstayed,
    hleapt, hp.swept_all⟩
  · cases hnews : h.news base with
    | nil => rfl
    | cons first later =>
        obtain ⟨stop, -, hl⟩ := hleapt first later hnews
        obtain ⟨counters, hvalue⟩ := hl.value
        rw [hvalue] at hfalse
        cases hfalse
  · rw [(hstayed hnone).value]

/-- A half-stream that wants a byte in the middle of its second page, with a gap before its fourth, around the
number zero. -/
def astride : HalfStream :=
  { direction := .forward
    phase := .started
    next := some (.ofNat 0xffffffff)
    pages :=
      [⟨.ofNat 0xfffffffb, [1, 2]⟩, ⟨.ofNat 0xfffffffe, [3, 4, 5]⟩, ⟨.ofNat 1, [6]⟩, ⟨.ofNat 5, [7]⟩]
    skipDue := true }

theorem releases_exact_astride :
    Placed (.ofNat 0xfffffff0) astride ∧
    astride.drain.freed = [⟨.ofNat 0xfffffffb, [1, 2]⟩] ∧
    astride.drain.chunks.map (fun c => (c.seq, c.skip, c.source)) =
      [(.ofNat 0xffffffff, true, .page ⟨.ofNat 0xffffffff, [4, 5]⟩),
        (.ofNat 1, false, .page ⟨.ofNat 1, [6]⟩)] ∧
    astride.close.chunks.map (fun c => (c.seq, c.skip)) =
      [(.ofNat 0xffffffff, true), (.ofNat 1, false), (.ofNat 5, true)] ∧
    (∃ stop, FirstGap (.ofNat 0xfffffff0) astride.pages (astride.pos (.ofNat 0xfffffff0)) stop ∧
      Drained (.ofNat 0xfffffff0) astride stop) ∧
    Swept (.ofNat 0xfffffff0) astride := by
  have hp : Placed (.ofNat 0xfffffff0) astride :=
    ⟨by simp only [Spread, astride]; decide, by decide⟩
  obtain ⟨-, -, hdrained, -, -, -, hswept⟩ := releases_exact hp
  exact ⟨hp, by decide, by decide, by decide, hdrained (by decide), hswept⟩

end HalfStream
end TcpStreams
