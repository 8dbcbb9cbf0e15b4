import TcpStreams.Proofs.Stocks

/-!
# Loops

Where data is stored, handed on or given up, the same is done again and again until there is nothing left to
do.  Written as loops, all of this comes to its end and leads to what the definitions say: cutting a piece,
which the definition does at once; draining and closing, which walk down the backlog once; and relief and
reclaiming, which are told how often they may go on.  But for cutting, no loop makes more passes than pages
wait.

* `Loop.Ends`: a loop that ends, and after how many passes.
* `Span.portions_end`: a piece is cut, portion by portion.
* `HalfStream.drain_ends`: draining, page by page.
* `HalfStream.close_ends`: closing, run by run.
* `Connection.relieve_ends`: relief, leap by leap.
* `reclaim_ends`: reclaiming, page by page.
* `LoopsEnd`: all of them.
-/

namespace TcpStreams

/-- `Loop.Ends pass n a b`: a loop that starts at `a` goes on after `n` passes and ends after the next one,
with `b`. -/
inductive Loop.Ends {α β : Type} (pass : α → β ⊕ α) : Nat → α → β → Prop
  /-- A pass is the last one. -/
  | last {a : α} {b : β} : pass a = .inl b → Ends pass 0 a b
  /-- A pass leads to another one. -/
  | next {n : Nat} {a a' : α} {b : β} : pass a = .inr a' → Ends pass n a' b → Ends pass (n + 1) a b

theorem Loop.Ends.of_eq {α β : Type} {pass : α → β ⊕ α} {n : Nat} {a a' : α} {b : β}
    (h : Ends pass n a' b) (heq : pass a = pass a') : Ends pass n a b := by
  cases h with
  | last hlast => exact .last (heq.trans hlast)
  | next hnext hrest => exact .next (heq.trans hnext) hrest

/-! ## Cutting -/

namespace Span

/-- A pass of cutting a piece that ends at `stop`: from where the last portion ended, the next one takes what
fits on a page.  It is the last pass if that was the end of the piece. -/
def cutPass (stop : Nat) : Nat × List Portion → List Portion ⊕ Nat × List Portion
  | (start, ps) =>
    if start < stop then
      let size := min (stop - start) Page.capacity
      .inr (start + size, ps ++ [⟨⟨start, start + size⟩, stop⟩])
    else .inl ps

/-- Where a pass begins does not matter from the end of the piece on. -/
theorem cutPass_min (start stop : Nat) (ps : List Portion) :
    cutPass stop (min start stop, ps) = cutPass stop (start, ps) := by
  by_cases h : start < stop
  · rw [Nat.min_eq_left (Nat.le_of_lt h)]
  · rw [Nat.min_eq_right (Nat.le_of_not_lt h)]
    simp [cutPass, h]

/-- **Cutting a piece comes to its end**, portion by portion. -/
theorem portions_end (piece : Span) :
    Loop.Ends (cutPass piece.stop) piece.portions.length (piece.start, []) piece.portions := by
  suffices hends : ∀ ps, Loop.Ends (cutPass piece.stop) piece.portions.length (piece.start, ps)
      (ps ++ piece.portions) from hends []
  refine portions_induction (P := fun piece qs => ∀ ps,
    Loop.Ends (cutPass piece.stop) qs.length (piece.start, ps) (ps ++ qs)) ?_ ?_ piece
  · intro a b hle ps
    rw [List.append_nil]
    exact .last (if_neg (Nat.not_lt.2 hle))
  · intro a b hlt ih ps
    have hstop : a + min (b - a) Page.capacity = min (a + Page.capacity) b := by omega
    have hpass : cutPass b (a, ps) =
        .inr (min (a + Page.capacity) b, ps ++ [⟨⟨a, min (a + Page.capacity) b⟩, b⟩]) := by
      simp [cutPass, hlt, hstop]
    have hrest := (ih (ps ++ [⟨⟨a, min (a + Page.capacity) b⟩, b⟩])).of_eq (cutPass_min _ b _)
    rw [List.append_assoc] at hrest
    exact .next hpass hrest

end Span

/-! ## Draining -/

namespace HalfStream

variable {h : HalfStream} {page : Page} {rest : List Page}

/-- A pass of draining: what is not new goes, and the page that is wanted next is handed on.  It is the last
one if there is no such page. -/
def drainPass (y : Yield HalfStream) : Yield HalfStream ⊕ Yield HalfStream :=
  match y.value.next with
  | none => .inl y
  | some next =>
    let settled := y.andThen settle
    match settled.value.pages with
    | [] => .inl settled
    | page :: rest =>
      if page.seq = next then .inr (settled.andThen fun h => h.follow page rest) else .inl settled

theorem settle_of_nil (hp : h.pages = []) : h.settle = { value := h } := by
  obtain ⟨direction, phase, next, pages, startDue, skipDue, counters⟩ := h
  subst hp
  cases next with
  | none => rfl
  | some next => rfl

theorem drainPass_of_none {y : Yield HalfStream} (hn : y.value.next = none) : drainPass y = .inl y := by
  rw [drainPass, hn]

theorem drainPass_of_nil {y : Yield HalfStream} (hp : y.value.pages = []) : drainPass y = .inl y := by
  cases hn : y.value.next with
  | none => exact drainPass_of_none hn
  | some next =>
      have hidle := Yield.andThen_of_idle (settle_of_nil hp)
      simp [drainPass, hn, hidle, hp]

/-- Within a pass, a page that is not new goes before anything else is looked at. -/
theorem drainPass_of_behind {y : Yield HalfStream} (hp : y.value.pages = page :: rest)
    (hb : y.value.isBehind page = true) : drainPass y = drainPass (y.andThen fun h => h.free page rest) := by
  have hsettle : y.andThen settle = (y.andThen fun h => h.free page rest).andThen settle := by
    rw [Yield.andThen_assoc]
    exact Yield.andThen_congr (settle_of_behind hp hb)
  have hnext : (y.andThen fun h => h.free page rest).value.next = y.value.next := rfl
  rw [drainPass, drainPass, hsettle, hnext]
  cases hn : y.value.next with
  | none => rw [isBehind, hn] at hb; cases hb
  | some next => rfl

theorem drainPass_of_front {y : Yield HalfStream} {next : SeqNum} (hn : y.value.next = some next)
    (hp : y.value.pages = page :: rest) (hb : y.value.isBehind page = false) :
    drainPass y =
      if (y.value.trimmed page).seq = next then
        .inr (y.andThen fun h => h.follow (h.trimmed page) rest)
      else .inl (y.andThen fun h => { value := { h with pages := h.trimmed page :: rest } }) := by
  have hsettle : y.andThen settle =
      y.andThen fun h => { value := { h with pages := h.trimmed page :: rest } } :=
    Yield.andThen_congr (settle_of_front hp hb)
  simp only [drainPass, hn, hsettle]
  simp [Yield.andThen, follow]

/-- Draining goes on page by page, after whatever was done before. -/
theorem drain_ends_after (y : Yield HalfStream) :
    ∃ n ≤ y.value.pageCount, Loop.Ends drainPass n y (y.andThen drain) := by
  generalize hp : y.value.pages = pages
  have hcount : y.value.pageCount = pages.length := congrArg List.length hp
  rw [hcount]
  clear hcount
  induction pages generalizing y with
  | nil =>
      rw [Yield.andThen_of_idle (drain_of_empty hp)]
      exact ⟨0, Nat.le_refl _, .last (drainPass_of_nil hp)⟩
  | cons page rest ih =>
      cases hn : y.value.next with
      | none =>
          rw [Yield.andThen_of_idle (drain_of_none hn)]
          exact ⟨0, Nat.zero_le _, .last (drainPass_of_none hn)⟩
      | some next =>
          cases hb : y.value.isBehind page with
          | true =>
              -- within a pass, a page that is not new goes before anything else is looked at
              obtain ⟨n, hle, hends⟩ := ih (y.andThen fun h => h.free page rest) rfl
              have hdrain : y.andThen drain = y.andThen fun h => (h.free page rest).andThen drain :=
                Yield.andThen_congr (drain_eq_of_behind hp hb)
              rw [Yield.andThen_assoc, ← hdrain] at hends
              exact ⟨n, Nat.le_succ_of_le hle, hends.of_eq (drainPass_of_behind hp hb)⟩
          | false =>
              have hpass := drainPass_of_front hn hp hb
              by_cases hs : (y.value.trimmed page).seq = next
              · obtain ⟨n, hle, hends⟩ := ih (y.andThen fun h => h.follow (h.trimmed page) rest) rfl
                have hdrain : y.andThen drain =
                    y.andThen fun h => (h.follow (h.trimmed page) rest).andThen drain :=
                  Yield.andThen_congr (drain_eq_of_follow hp hb (hs ▸ hn))
                rw [if_pos hs] at hpass
                rw [Yield.andThen_assoc, ← hdrain] at hends
                exact ⟨n + 1, Nat.succ_le_succ hle, .next hpass hends⟩
              · rw [if_neg hs, ← Yield.andThen_congr (drain_eq_of_gap hp hb hn hs)] at hpass
                exact ⟨0, Nat.zero_le _, .last hpass⟩

/-- **Draining comes to its end**, page by page. -/
theorem drain_ends (h : HalfStream) :
    ∃ n ≤ h.pageCount, Loop.Ends drainPass n { value := h } h.drain := drain_ends_after { value := h }

/-! ## Closing -/

/-- The half-stream once everything that waits is handed on. -/
def emptied (h : HalfStream) : Yield HalfStream := ({ h with pages := [] } : HalfStream).sweep h.pages

/-- The half-stream once it is over. -/
def shut (h : HalfStream) : Yield HalfStream :=
  { value := { h with phase := .closed }, notes := [.closed h.direction] }

/-- A pass of closing: a leap.  It is the last one if there was nothing to leap to. -/
def closePass (y : Yield HalfStream) : Yield HalfStream ⊕ Yield HalfStream :=
  let leapt := y.andThen leap
  if leapt.value.2 then .inr (leapt.map Prod.fst) else .inl (leapt.map Prod.fst)

theorem close_eq (h : HalfStream) : h.close = h.emptied.andThen shut := rfl

theorem emptied_of_nil (hp : h.pages = []) : h.emptied = { value := h } := by
  obtain ⟨direction, phase, next, pages, startDue, skipDue, counters⟩ := h
  subst hp
  rfl

theorem emptied_of_behind (hp : h.pages = page :: rest) (hb : h.isBehind page = true) :
    h.emptied = (h.free page rest).andThen emptied := by
  cases hn : h.next with
  | none => rw [isBehind, hn] at hb; cases hb
  | some next =>
      rw [isBehind_some hn] at hb
      simp [emptied, free, Yield.andThen, hn, hp, sweep, hb]

theorem emptied_of_front (hp : h.pages = page :: rest) (hb : h.isBehind page = false) :
    h.emptied = (({ h with pages := rest } : HalfStream).jump (h.trimmed page)).andThen emptied := by
  cases hn : h.next with
  | none => simp [emptied, Yield.andThen, hn, hp, sweep, trimmed, jump, handOn]
  | some next =>
      rw [isBehind_some hn] at hb
      simp [emptied, Yield.andThen, hn, hp, sweep, hb, trimmed, jump, handOn]

/-- A page that is wanted next is handed on without a mark, once the stream has begun. -/
theorem jump_of_next (hbegun : h.phase ≠ .unstarted) (hn : h.next = some page.seq) :
    ({ h with pages := rest } : HalfStream).jump page = h.follow page rest := by
  have hphase : h.phase.begun = h.phase := by
    cases hphase : h.phase with
    | unstarted => exact absurd hphase hbegun
    | started | closed => rfl
  simp [jump, follow, hn, hphase, hbegun]

/-- A page that is not cut to the number wanted next is not cut at all. -/
theorem trimmed_of_gap {next : SeqNum} (hpage : page.Stocked) (hn : h.next = some next)
    (hb : h.isBehind page = false) (hs : (h.trimmed page).seq ≠ next) : h.trimmed page = page := by
  rw [isBehind_some hn] at hb
  rw [trimmed_some hn] at hs ⊢
  have hlt := hpage.cut_lt hb
  by_cases hahead : 0 ≤ page.seq.distance next
  · refine absurd ?_ hs
    rw [Backlog.cutTo, Page.dropFront, Nat.min_eq_left (Nat.le_of_lt hlt)]
    exact SeqNum.advance_distance page.seq next hahead
  · rw [Backlog.cutTo, Int.toNat_of_nonpos (by omega), Page.dropFront_zero]

theorem Stocked.free (h₀ : h.Stocked) (hp : h.pages = page :: rest) : (h.free page rest).value.Stocked := by
  have hpages := h₀.pages
  rw [hp] at hpages
  exact ⟨(List.forall_mem_cons.1 hpages).2, h₀.begun⟩

theorem Stocked.jump (h₀ : h.Stocked) (hp : h.pages = page :: rest) (q : Page) :
    (({ h with pages := rest } : HalfStream).jump q).value.Stocked :=
  ⟨(h₀.free hp).pages, fun _ => begun_phase h.phase⟩

/-- Draining first makes no difference to what is handed on in the end. -/
theorem emptied_drain (h₀ : h.Stocked) : h.drain.andThen emptied = h.emptied := by
  generalize hp : h.pages = pages
  induction pages generalizing h with
  | nil =>
      rw [drain_of_empty hp]
      simp [Yield.andThen]
  | cons page rest ih =>
      cases hn : h.next with
      | none =>
          rw [drain_of_none hn]
          simp [Yield.andThen]
      | some next =>
          cases hb : h.isBehind page with
          | true =>
              rw [drain_eq_of_behind hp hb, emptied_of_behind hp hb, Yield.andThen_assoc]
              exact Yield.andThen_congr (ih (h₀.free hp) rfl)
          | false =>
              by_cases hs : (h.trimmed page).seq = next
              · have hs := hn.trans (congrArg some hs.symm)
                have hbegun := h₀.begun (hn ▸ Option.some_ne_none next)
                have hjump := h₀.jump hp (h.trimmed page)
                rw [drain_eq_of_follow hp hb hs, emptied_of_front hp hb, jump_of_next hbegun hs,
                  Yield.andThen_assoc]
                rw [jump_of_next hbegun hs] at hjump
                exact Yield.andThen_congr (ih hjump rfl)
              · have hpage := h₀.pages page (hp ▸ List.mem_cons_self ..)
                rw [drain_eq_of_gap hp hb hn hs, trimmed_of_gap hpage hn hb hs, ← hp]
                simp [Yield.andThen]

/-- Neither does a leap. -/
theorem emptied_leap (h₀ : h.Stocked) : (h.leap.map Prod.fst).andThen emptied = h.emptied := by
  generalize hp : h.pages = pages
  induction pages generalizing h with
  | nil =>
      rw [leap_of_empty hp]
      simp [Yield.andThen, Yield.map]
  | cons page rest ih =>
      cases hb : h.isBehind page with
      | true =>
          have hleap : h.leap.map Prod.fst = (h.free page rest).andThen fun h => h.leap.map Prod.fst := by
            rw [leap_eq_of_behind hp hb]
            rfl
          rw [hleap, emptied_of_behind hp hb, Yield.andThen_assoc]
          exact Yield.andThen_congr (ih (h₀.free hp) rfl)
      | false =>
          have hleap : h.leap.map Prod.fst =
              (({ h with pages := rest } : HalfStream).jump (h.trimmed page)).andThen drain := by
            rw [leap_eq_of_front hp hb]
            rfl
          rw [hleap, emptied_of_front hp hb, Yield.andThen_assoc]
          exact Yield.andThen_congr (emptied_drain (h₀.jump hp (h.trimmed page)))

/-- Closing goes on leap by leap, after whatever was done before. -/
theorem close_ends_after (y : Yield HalfStream) (h₀ : y.value.Stocked) :
    ∃ n ≤ y.value.pageCount, Loop.Ends closePass n y (y.andThen emptied) := by
  generalize hcount : y.value.pageCount = count
  induction count using Nat.strong_induction_on generalizing y with
  | _ count ih =>
      have hleap : (y.andThen leap).map Prod.fst = y.andThen fun h => h.leap.map Prod.fst := rfl
      have hemptied : (y.andThen fun h => h.leap.map Prod.fst).andThen emptied = y.andThen emptied := by
        rw [Yield.andThen_assoc]
        exact Yield.andThen_congr (emptied_leap h₀)
      cases hm : y.value.leap.value.2 with
      | false =>
          have hpages : y.value.leap.value.1.pages = [] :=
            List.eq_nil_of_length_eq_zero (y.value.pageCount_leap.2 hm)
          have hpass : closePass y = .inl (y.andThen fun h => h.leap.map Prod.fst) :=
            if_neg (ne_true_of_eq_false hm)
          rw [← hemptied, Yield.andThen_of_idle (emptied_of_nil hpages)]
          exact ⟨0, Nat.zero_le _, .last hpass⟩
      | true =>
          have hpass : closePass y = .inr (y.andThen fun h => h.leap.map Prod.fst) := if_pos hm
          have hpos : 0 < y.value.pageCount := Nat.pos_of_ne_zero fun hzero => by
            rw [leap_of_empty (List.eq_nil_of_length_eq_zero hzero)] at hm
            cases hm
          have hlt := y.value.pageCount_leap.1 hpos
          obtain ⟨n, hn, hends⟩ :=
            ih _ (hcount ▸ hlt) (y.andThen fun h => h.leap.map Prod.fst) h₀.leap.1 rfl
          rw [hemptied] at hends
          refine ⟨n + 1, ?_, .next hpass hends⟩
          exact hcount ▸ Nat.succ_le_of_lt (Nat.lt_of_le_of_lt hn hlt)

/-- **Closing comes to its end**: it drains, leaps until there is nothing to leap to, and is over. -/
theorem close_ends (h₀ : h.Stocked) :
    ∃ n ≤ h.pageCount, ∃ y, Loop.Ends closePass n h.drain y ∧ h.close = y.andThen shut := by
  obtain ⟨n, hn, hends⟩ := close_ends_after h.drain h₀.drain.1
  rw [emptied_drain h₀] at hends
  exact ⟨n, Nat.le_trans hn h.drain_moves.pageCount_le, h.emptied, hends, close_eq h⟩

end HalfStream

/-! ## Relief -/

namespace Connection

variable {c : Connection} {limit : Nat} {d : Direction}

/-- A pass of relief: a leap, as long as `limit` pages or more wait.  It is the last one if there was nothing
to leap to. -/
def reliefPass (limit : Nat) (d : Direction) (y : Yield Connection) :
    Yield Connection ⊕ Yield Connection :=
  if limit ≤ y.value.pageCount then
    let leapt := y.andThen fun c => c.leap d
    if leapt.value.2 then .inr (leapt.map Prod.fst) else .inl (leapt.map Prod.fst)
  else .inl y

/-- Nothing leaps where nothing waits. -/
theorem leap_of_empty (hempty : c.pageCount = 0) (d : Direction) : c.leap d = { value := (c, false) } := by
  have hhalf : ∀ d, (c.half d).pages = [] := by
    intro d
    rw [pageCount_eq c d] at hempty
    exact List.eq_nil_of_length_eq_zero (Nat.eq_zero_of_add_eq_zero_right hempty)
  have hleapIn : ∀ d, c.leapIn d = { value := (c, false) } := by
    intro d
    simp only [leapIn, HalfStream.leap_of_empty (hhalf d), Yield.map, setHalf_half]
  rw [leap_eq, hleapIn]
  simp only [Yield.andThen, Bool.false_eq_true, if_false, hleapIn, List.append_nil]

/-- Relief that may leap as often as pages wait goes on until it is done. -/
theorem relieveWithin_ends (limit : Nat) (d : Direction) (fuel : Nat) (y : Yield Connection)
    (hfuel : y.value.pageCount ≤ fuel) : ∃ n ≤ y.value.pageCount,
      Loop.Ends (reliefPass limit d) n y (y.andThen (relieveWithin limit d fuel)) := by
  induction fuel generalizing y with
  | zero =>
      have hempty := Nat.eq_zero_of_le_zero hfuel
      refine ⟨0, Nat.zero_le _, .last ?_⟩
      unfold reliefPass
      split
      · have hnothing := leap_of_empty hempty d
        simp [Yield.andThen, Yield.map, hnothing, relieveWithin]
      · exact congrArg Sum.inl (Yield.andThen_of_idle rfl).symm
  | succ fuel ih =>
      by_cases hlimit : limit ≤ y.value.pageCount
      · cases hm : (y.value.leap d).value.2 with
        | true =>
            -- a leap that moves takes a page away
            have hpos : 0 < y.value.pageCount := Nat.pos_of_ne_zero fun hempty => by
              rw [leap_of_empty hempty] at hm
              cases hm
            have hlt := (pageCount_leap y.value d hpos).1
            let leapt : Yield Connection := (y.andThen fun c => c.leap d).map Prod.fst
            have hcount : leapt.value.pageCount < y.value.pageCount := hlt
            obtain ⟨n, hn, hends⟩ := ih leapt (by omega)
            have hpass : reliefPass limit d y = .inr leapt := by
              unfold reliefPass
              rw [if_pos hlimit]
              exact if_pos hm
            have hsame : leapt.andThen (relieveWithin limit d fuel) =
                y.andThen (relieveWithin limit d (fuel + 1)) := by
              simp [leapt, Yield.andThen, Yield.map, relieveWithin, hlimit, hm]
            exact ⟨n + 1, by omega, hsame ▸ .next hpass hends⟩
        | false =>
            refine ⟨0, Nat.zero_le _, .last ?_⟩
            simp [reliefPass, Yield.andThen, Yield.map, relieveWithin, hlimit, hm]
      · refine ⟨0, Nat.zero_le _, .last ?_⟩
        simp [reliefPass, Yield.andThen, relieveWithin, hlimit]

/-- **Relief comes to its end**: it leaps until fewer pages wait than the limit or there is nothing to leap
to, at most as often as pages wait. -/
theorem relieve_ends (c : Connection) (limit : Nat) (d : Direction) : ∃ n ≤ c.pageCount,
    Loop.Ends (reliefPass limit d) n { value := c } (c.relieve limit d) :=
  relieveWithin_ends limit d c.pageCount { value := c } (Nat.le_refl _)

end Connection

/-! ## Reclaiming -/

/-- A pass of reclaiming: a page is given up, and the arena is asked again.  It is the last one if there was
none to give up, or if the arena hands one out. -/
def reclaimPass {α : Type} (shed? : α → Option (Yield α)) (remarks : List Note) (seq : SeqNum)
    (claim : Claim α) : Claim α ⊕ Claim α :=
  match shed? claim.value with
  | none => .inl claim
  | some y =>
    let arena := claim.arena.giveAll y.freed
    let notes := claim.notes ++ (y.notes ++ remarks)
    match arena.take? seq with
    | some (page, arena) => .inl { value := y.value, arena, notes, page := some page }
    | none => .inr { value := y.value, arena, notes }

section Reclaim

variable {α : Type} {m : α → Nat} {shed? : α → Option (Yield α)}

theorem reclaim_ends_within (hshed : ∀ {a y}, shed? a = some y → m y.value < m a) (remarks : List Note)
    (seq : SeqNum) (fuel : Nat) (a : α) (arena : Arena) (notes : List Note) (hfuel : m a ≤ fuel) :
    let claim := reclaim shed? remarks seq fuel a arena
    ∃ n ≤ m a, Loop.Ends (reclaimPass shed? remarks seq) n { value := a, arena, notes }
      { claim with notes := notes ++ claim.notes } := by
  induction fuel generalizing a arena notes with
  | zero =>
      have hnone : shed? a = none := by
        cases hy : shed? a with
        | none => rfl
        | some y =>
            have := hshed hy
            omega
      refine ⟨0, Nat.zero_le _, .last ?_⟩
      simp [reclaimPass, hnone, reclaim]
  | succ fuel ih =>
      cases hy : shed? a with
      | none =>
          refine ⟨0, Nat.zero_le _, .last ?_⟩
          simp [reclaimPass, hy, reclaim]
      | some y =>
          have hlt := hshed hy
          cases ht : (arena.giveAll y.freed).take? seq with
          | some out =>
              obtain ⟨page, left⟩ := out
              refine ⟨0, Nat.zero_le _, .last ?_⟩
              simp [reclaimPass, hy, ht, reclaim]
          | none =>
              obtain ⟨n, hn, hends⟩ := ih y.value (arena.giveAll y.freed)
                (notes ++ (y.notes ++ remarks)) (by omega)
              have hpass : reclaimPass shed? remarks seq { value := a, arena, notes } =
                  .inr { value := y.value, arena := arena.giveAll y.freed
                         notes := notes ++ (y.notes ++ remarks) } := by
                simp [reclaimPass, hy, ht]
              refine ⟨n + 1, by omega, .next hpass ?_⟩
              simpa [reclaim, hy, ht] using hends

/-- **Reclaiming comes to its end**: pages are given up until the arena hands one out or there are none left,
at most as many as there are. -/
theorem reclaim_ends (hshed : ∀ {a y}, shed? a = some y → m y.value < m a) (remarks : List Note)
    (seq : SeqNum) (a : α) (arena : Arena) : ∃ n ≤ m a,
      Loop.Ends (reclaimPass shed? remarks seq) n { value := a, arena }
        (reclaim shed? remarks seq (m a) a arena) := by
  have hends := reclaim_ends_within hshed remarks seq (m a) a arena [] (Nat.le_refl _)
  simpa using hends

end Reclaim

theorem Connection.pageCount_shed_lt {c : Connection} {y : Yield Connection} (hy : c.shed? = some y) :
    y.value.pageCount < c.pageCount := by
  have hpos : 0 < c.pageCount := Nat.pos_of_ne_zero fun hempty => by
    rw [shed?_of_empty hempty] at hy
    cases hy
  have hcount := pageCount_shed hy
  obtain ⟨d, page, rest, notes, -, -, hshed⟩ := shed?_of_pos hpos
  rw [hshed] at hy
  obtain rfl := Option.some.inj hy
  exact Nat.lt_of_succ_le (Nat.le_of_eq hcount)

theorem HalfStream.pageCount_shed_lt {h : HalfStream} {y : Yield HalfStream} (hy : h.shed? = some y) :
    y.value.pageCount < h.pageCount := by
  have hcount := pageCount_shed hy
  obtain ⟨page, rest, -, -, hfreed⟩ := shed?_some hy
  rw [hfreed] at hcount
  exact Nat.lt_of_succ_le (Nat.le_of_eq hcount)

/-! ## All loops -/

/-- Every loop of reassembly comes to its end, and leads to what the definitions say. -/
structure LoopsEnd : Prop where
  /-- Data that has to wait is cut into portions, as many passes as there are portions. -/
  cut : ∀ piece : Span,
    Loop.Ends (Span.cutPass piece.stop) piece.portions.length (piece.start, []) piece.portions
  /-- What continues the stream is handed on. -/
  drain : ∀ h : HalfStream, ∃ n ≤ h.pageCount, Loop.Ends HalfStream.drainPass n { value := h } h.drain
  /-- A stream is closed. -/
  close : ∀ h : HalfStream, h.Stocked → ∃ n ≤ h.pageCount, ∃ y,
    Loop.Ends HalfStream.closePass n h.drain y ∧ h.close = y.andThen HalfStream.shut
  /-- A connection gets below its limit. -/
  relieve : ∀ (c : Connection) limit d, ∃ n ≤ c.pageCount,
    Loop.Ends (Connection.reliefPass limit d) n { value := c } (c.relieve limit d)
  /-- A connection gives up pages, as long as the arena refuses one. -/
  evict : ∀ (c : Connection) remarks seq arena, ∃ n ≤ c.pageCount,
    Loop.Ends (reclaimPass Connection.shed? remarks seq) n { value := c, arena }
      (reclaim Connection.shed? remarks seq c.pageCount c arena)
  /-- A half-stream gives up pages, as long as the arena refuses one. -/
  shed : ∀ (h : HalfStream) remarks seq arena, ∃ n ≤ h.pageCount,
    Loop.Ends (reclaimPass HalfStream.shed? remarks seq) n { value := h, arena }
      (reclaim HalfStream.shed? remarks seq h.pageCount h arena)

/-- **Every loop comes to its end.** -/
theorem loops_end : LoopsEnd where
  cut := Span.portions_end
  drain := HalfStream.drain_ends
  close _ h₀ := HalfStream.close_ends h₀
  relieve := Connection.relieve_ends
  evict c remarks seq arena := reclaim_ends Connection.pageCount_shed_lt remarks seq c arena
  shed h remarks seq arena := reclaim_ends HalfStream.pageCount_shed_lt remarks seq h arena

end TcpStreams
