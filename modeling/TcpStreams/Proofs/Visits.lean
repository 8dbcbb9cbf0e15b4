import TcpStreams.Proofs.Breakdowns

/-!
# Visits

A conversation is visited by every segment of it and whenever it is looked up.  When it was last active
is known from the list of the visits alone, and so is the order in which conversations were last active.
Whatever the other calls do, whichever consumers break down and whatever the clock reads, a registry has
both right for the connections that are live.

* `Visit.latest`: the visits that were not followed by another one of the same conversation.
* `Registry.activity`: what a registry says about the last activity of its connections.
* `Session.activity_after`: it says what the visits say.
-/

namespace TcpStreams

/-- A conversation that was visited, and when. -/
abbrev Visit := FlowId × Nat

namespace Visit

variable {v w : Visit} {vs : List Visit}

/-- The visits that were not followed by another one of the same conversation. -/
def latest : List Visit → List Visit
  | [] => []
  | v :: rest => if v.1 ∈ rest.map Prod.fst then latest rest else v :: latest rest

/-- A visit takes the place of all others of its conversation. -/
theorem latest_snoc (vs : List Visit) (v : Visit) :
    latest (vs ++ [v]) = (latest vs).filter (fun w => decide (w.1 ≠ v.1)) ++ [v] := by
  induction vs with
  | nil => rfl
  | cons w rest ih =>
      have hlater : w.1 ∈ (rest ++ [v]).map Prod.fst ↔ w.1 ∈ rest.map Prod.fst ∨ w.1 = v.1 := by simp
      rw [List.cons_append, latest, latest, ih]
      by_cases hrest : w.1 ∈ rest.map Prod.fst
      · rw [if_pos (hlater.2 (Or.inl hrest)), if_pos hrest]
      · by_cases hsame : w.1 = v.1
        · rw [if_pos (hlater.2 (Or.inr hsame)), if_neg hrest, List.filter_cons_of_neg (by simp [hsame])]
        · rw [if_neg fun h => (hlater.1 h).elim hrest hsame, if_neg hrest,
            List.filter_cons_of_pos (by simp [hsame]), List.cons_append]

theorem latest_sublist (vs : List Visit) : (latest vs).Sublist vs := by
  induction vs with
  | nil => exact .slnil
  | cons v rest ih =>
      rw [latest]
      split
      · exact ih.cons v
      · exact ih.cons_cons v

/-- **The last visit of a conversation** is the one after which there was none. -/
theorem mem_latest_iff : v ∈ latest vs ↔
    ∃ earlier later, vs = earlier ++ v :: later ∧ ∀ w ∈ later, w.1 ≠ v.1 := by
  induction vs with
  | nil => simp [latest]
  | cons w rest ih =>
      constructor
      · intro h
        rw [latest] at h
        split at h
        · obtain ⟨earlier, later, rfl, hlater⟩ := ih.1 h
          exact ⟨w :: earlier, later, rfl, hlater⟩
        · next hlast =>
            rcases List.mem_cons.1 h with rfl | h
            · exact ⟨[], rest, rfl, fun x hx hsame => hlast (hsame ▸ List.mem_map_of_mem hx)⟩
            · obtain ⟨earlier, later, rfl, hlater⟩ := ih.1 h
              exact ⟨w :: earlier, later, rfl, hlater⟩
      · rintro ⟨earlier, later, heq, hlater⟩
        rw [latest]
        cases earlier with
        | nil =>
            obtain ⟨rfl, rfl⟩ := List.cons.inj heq
            have hlast : w.1 ∉ rest.map Prod.fst := by
              rintro hmem
              obtain ⟨x, hx, hsame⟩ := List.mem_map.1 hmem
              exact hlater x hx hsame
            rw [if_neg hlast]
            exact List.mem_cons_self ..
        | cons x earlier =>
            obtain ⟨rfl, rfl⟩ := List.cons.inj heq
            have hmem := ih.2 ⟨earlier, later, rfl, hlater⟩
            split
            · exact hmem
            · exact List.mem_cons_of_mem _ hmem

/-- A conversation has one last visit. -/
theorem nodup_latest (vs : List Visit) : ((latest vs).map Prod.fst).Nodup := by
  induction vs with
  | nil => exact List.nodup_nil
  | cons v rest ih =>
      rw [latest]
      split
      · exact ih
      · next hlast =>
          exact List.nodup_cons.2 ⟨fun h => hlast ((latest_sublist rest).map Prod.fst |>.subset h), ih⟩

/-- Some of the last visits, in their order, are those of their conversations. -/
theorem eq_filter_latest {vs ws : List Visit} (h : ws.Sublist (latest vs)) :
    ws = (latest vs).filter fun v => decide (v.1 ∈ ws.map Prod.fst) := by
  have hnodup := nodup_latest vs
  revert h hnodup
  generalize latest vs = ls
  intro h hnodup
  induction h with
  | slnil => rfl
  | @cons ws ls v hsub ih =>
      obtain ⟨hfirst, hrest⟩ := List.nodup_cons.1 hnodup
      have hnot : v.1 ∉ ws.map Prod.fst := fun hmem => hfirst ((hsub.map Prod.fst).subset hmem)
      rw [List.filter_cons_of_neg (by simpa using hnot)]
      exact ih hrest
  | @cons_cons ws ls v hsub ih =>
      obtain ⟨hfirst, hrest⟩ := List.nodup_cons.1 hnodup
      have hothers : ∀ w ∈ ls, w.1 ≠ v.1 := fun w hw hsame => hfirst (hsame ▸ List.mem_map_of_mem hw)
      rw [List.filter_cons_of_pos (by simp)]
      refine congrArg _ ((ih hrest).trans (List.filter_congr fun w hw => ?_))
      simp [hothers w hw]

end Visit

/-! ## What a registry says -/

/-- The conversations of the live connections, and when each was last active. -/
def Registry.activity (r : Registry) : List Visit := r.entries.map fun e => (e.flow, e.lastUsed)

namespace Registry

variable {r : Registry}

theorem fst_activity (r : Registry) : r.activity.map Prod.fst = r.flows := by
  rw [activity, List.map_map]
  rfl

/-- A connection that goes takes its last visit along. -/
theorem activity_erase (r : Registry) (flow : FlowId) :
    (r.erase flow).activity = r.activity.filter fun v => decide (v.1 ≠ flow) := by
  rw [activity, activity, erase, List.filter_map]
  rfl

/-- A connection that takes the place of another takes over its last visit. -/
theorem activity_replace (r : Registry) (c : Connection) : (r.replace c).activity = r.activity := by
  rw [activity, activity, replace, List.map_map]
  refine List.map_congr_left fun e _ => ?_
  simp only [Function.comp]
  split
  · next h => rw [h]; rfl
  · rfl

end Registry

/-- The work on a segment leaves the last visits as they are. -/
theorem Arrival.activity_worked (a : Arrival) :
    a.worked.registry.activity = a.state.registry.activity :=
  Reassembly.map_eq_of_forall₂ a.continues_work.2.2.2 fun _ _ h => by
    rw [Entry.flow, h.continues.connection.kin.flow, h.continues.lastUsed]
    rfl

namespace Reassembly

open Visit (latest)

variable {s : Reassembly} {vs : List Visit} {fails : Event → Bool}

/-- A look-up is a visit, and the last one so far. -/
theorem activity_lookUp (h : s.registry.activity.Sublist (latest vs)) (fails : Event → Bool)
    (flow : FlowId) (src : Endpoint) (now : Nat) :
    (s.lookUp fails flow src now).state.registry.activity.Sublist (latest (vs ++ [(flow, now)])) := by
  have hothers : (s.registry.erase flow).activity.Sublist
      ((latest vs).filter fun w => decide (w.1 ≠ flow)) := by
    rw [Registry.activity_erase]
    exact h.filter _
  rw [Visit.latest_snoc, lookUp, Registry.visit]
  cases hentry : s.registry.entry? flow with
  | some entry =>
      have hflow := s.registry.flow_of_found flow hentry
      rw [← hflow] at hothers ⊢
      simp only [Registry.activity, List.map_append, List.map_singleton]
      exact hothers.append (List.Sublist.refl _)
  | none =>
      -- nobody has to go
      have hsame : s.registry.activity = (s.registry.erase flow).activity := by
        rw [Registry.activity_erase, List.filter_eq_self.2 fun v hv => ?_]
        obtain ⟨e, he, rfl⟩ := List.mem_map.1 hv
        have := List.find?_eq_none.1 hentry e he
        simpa using this
      simp only
      split
      · exact (hsame ▸ hothers : s.registry.activity.Sublist _).trans (List.sublist_append_left ..)
      · simp only [Registry.insert, Registry.activity, List.map_append, List.map_singleton]
        exact (hsame ▸ hothers : s.registry.activity.Sublist _).append (List.Sublist.refl _)

/-- Nobody is visited by these steps: connections go at most. -/
theorem activity_handOver (fails : Event → Bool) (c : Connection) (payload : List UInt8)
    (chunks : List Chunk) (s : Reassembly) :
    (s.handOver fails c payload chunks).state.registry.activity.Sublist s.registry.activity := by
  rw [registry_handOver, Registry.activity_replace]

theorem activity_erase_sublist (r : Registry) (flow : FlowId) :
    (r.erase flow).activity.Sublist r.activity := by
  rw [Registry.activity_erase]
  exact List.filter_sublist

theorem activity_conclude (fails : Event → Bool) (c : Connection) (s : Reassembly) :
    (s.conclude fails c).state.registry.activity.Sublist s.registry.activity := by
  rcases registry_conclude fails c s with heq | heq
  · rw [heq]
  · rw [heq]
    exact activity_erase_sublist ..

theorem activity_finish (fails : Event → Bool) (a : Arrival) :
    (a.finish fails).state.registry.activity.Sublist a.state.registry.activity := by
  have hhanded : (a.worked.handOver fails a.work.connection a.segment.payload
      a.work.chunks).state.registry.activity.Sublist a.state.registry.activity :=
    a.activity_worked ▸ activity_handOver ..
  refine Outcome.state_andThen
    (P := fun s => s.registry.activity.Sublist a.state.registry.activity) hhanded fun _ _ => ?_
  split
  · exact (activity_conclude ..).trans hhanded
  · exact hhanded

theorem activity_windUp (fails : Event → Bool) (flow : FlowId) (s : Reassembly) :
    (s.windUp fails flow).state.registry.activity.Sublist s.registry.activity := by
  rw [windUp]
  cases s.registry.find? flow with
  | none => exact List.Sublist.refl _
  | some c =>
      have hhanded := activity_handOver fails c.close.value [] c.close.chunks
        { s with arena := s.arena.giveAll c.close.freed }
      refine Outcome.state_andThen
        (P := fun s' => s'.registry.activity.Sublist s.registry.activity) hhanded fun _ _ => ?_
      have hdone := (activity_conclude fails c.close.value _).trans hhanded
      exact Outcome.state_andThen (P := fun s' => s'.registry.activity.Sublist s.registry.activity)
        hdone fun _ _ => hdone

theorem activity_windUpAll (fails : Event → Bool) (flows : List FlowId) (s : Reassembly) :
    (s.windUpAll fails flows).state.registry.activity.Sublist s.registry.activity :=
  windUpAll_keeps (P := fun s' => s'.registry.activity.Sublist s.registry.activity)
    (fun s' flow h => (activity_windUp fails flow s').trans h) (.refl _) flows

theorem activity_flushBefore (fails : Event → Bool) (cutoff : Nat) (s : Reassembly) :
    (s.flushBefore fails cutoff).state.registry.activity.Sublist s.registry.activity :=
  Outcome.state_andThen (P := fun s' => s'.registry.activity.Sublist s.registry.activity)
    (activity_windUpAll ..) fun _ _ => activity_windUpAll ..

end Reassembly

/-- The conversation that an action visits. -/
def Action.visited : Action → Option FlowId
  | .receive _ _ path segment => some (segment.flow path)
  | .lookUp flow _ => some flow
  | .flushAll _ | .flushBefore _ | .flushIdle _ | .remove _ => none

namespace Reassembly

open Visit (latest)

variable {s : Reassembly} {vs : List Visit}

/-- **A call visits one conversation at most**; the last visits of the others are what they were, if they
are still live. -/
theorem activity_perform (h : s.registry.activity.Sublist (latest vs)) (fails : Event → Bool) (now : Nat)
    (action : Action) :
    (s.perform fails now action).state.registry.activity.Sublist
      (latest (vs ++ (action.visited.map fun flow => (flow, now)).toList)) := by
  -- without a visit, connections go at most
  have hquiet : ∀ {s' : Reassembly}, action.visited = none →
      s'.registry.activity.Sublist s.registry.activity → s'.registry.activity.Sublist
        (latest (vs ++ (action.visited.map fun flow => (flow, now)).toList)) := by
    intro s' hnone hsub
    rw [hnone, Option.map_none, Option.toList_none, List.append_nil]
    exact hsub.trans h
  cases action with
  | receive config locked path segment =>
      have hvisited := activity_lookUp h fails (segment.flow path) (segment.src path) now
      show (s.receive fails config locked path segment now).state.registry.activity.Sublist _
      cases hres : (s.lookUp fails (segment.flow path) (segment.src path) now).result with
      | error call =>
          rw [(@receive_of_error s fails config locked path segment now call hres).2.1]
          exact hvisited
      | ok c =>
          obtain ⟨a, -, hstate, -, hfinish, -⟩ :=
            @receive_of_ok s fails config locked path segment now c hres
          rw [hfinish]
          exact (activity_finish fails a).trans (hstate ▸ hvisited)
  | lookUp flow src => exact activity_lookUp h fails flow src now
  | flushAll order => exact hquiet rfl (activity_windUpAll ..)
  | flushBefore cutoff => exact hquiet rfl (activity_flushBefore ..)
  | flushIdle config =>
      refine hquiet rfl ?_
      show (s.flushIdle fails config now).state.registry.activity.Sublist _
      rcases s.flushIdle_cases fails config now with heq | ⟨cutoff, heq⟩
      · rw [heq]
        exact List.Sublist.refl _
      · rw [heq]
        exact activity_flushBefore ..
  | remove flow =>
      refine hquiet rfl ?_
      show (s.remove flow).state.registry.activity.Sublist _
      rw [remove]
      cases s.registry.find? flow with
      | none => exact List.Sublist.refl _
      | some c => exact activity_erase_sublist ..

end Reassembly

/-! ## Sessions -/

/-- The visit that a turn makes to a conversation of a registry. -/
def Turn.visit? (registry : Nat) (t : Turn) : Option Visit :=
  match t.deed with
  | .act r _ action => if r = registry then action.visited.map fun flow => (flow, t.now) else none
  | .take .. | .give .. => none

theorem Turn.visit?_act (registry : Nat) (fails : Event → Bool) (now i arena : Nat) (action : Action) :
    Turn.visit? registry ⟨fails, now, .act i arena action⟩ =
      if i = registry then action.visited.map fun flow => (flow, now) else none := rfl

namespace Session

open Visit (latest)

variable {s : Session} {t : Turn} {ts : List Turn} {vs : List Visit} {registry : Nat}

/-- The visits to the conversations of a registry in the course of a list of turns. -/
def visits (registry : Nat) (ts : List Turn) : List Visit := ts.filterMap (Turn.visit? registry)

theorem activity_turn (h : (s.registry registry).activity.Sublist (latest vs)) (t : Turn) :
    ((s.turn t).session.registry registry).activity.Sublist
      (latest (vs ++ (t.visit? registry).toList)) := by
  obtain ⟨fails, now, deed⟩ := t
  cases deed with
  | act i arena action =>
      rw [turn_act]
      rcases s.registry_report i arena now ((s.state i arena).perform fails now action) registry with
        ⟨rfl, heq⟩ | ⟨-, heq⟩ | ⟨hne, heq⟩
      · rw [heq, Turn.visit?_act, if_pos rfl]
        exact Reassembly.activity_perform h fails now action
      · rw [heq]
        exact List.nil_sublist _
      · rw [heq, Turn.visit?_act, if_neg (Ne.symm hne), Option.toList_none, List.append_nil]
        exact h
  | take arena seq =>
      have hsame : (s.takePage arena seq).session.registry registry = s.registry registry := by
        simp only [Session.registry, (s.takePage_keeps arena seq).1]
      rw [Turn.visit?, Option.toList_none, List.append_nil]
      exact hsame ▸ h
  | give arena slots =>
      have hsame : (s.givePages arena slots).1.registry registry = s.registry registry := by
        simp only [Session.registry, (givePages_keeps arena slots s).1]
      rw [Turn.visit?, Option.toList_none, List.append_nil]
      exact hsame ▸ h

/-- **A registry has the last activity of its connections right**, and the order of it. -/
theorem activity_after (registry : Nat) (ts : List Turn)
    (h : (s.registry registry).activity.Sublist (latest vs)) :
    ((s.after ts).registry registry).activity.Sublist (latest (vs ++ visits registry ts)) := by
  induction ts generalizing s vs with
  | nil =>
      rw [visits, List.filterMap_nil, List.append_nil]
      exact h
  | cons t rest ih =>
      have hrest := ih (activity_turn h t)
      have hvisits : visits registry (t :: rest) = (t.visit? registry).toList ++ visits registry rest := by
        rw [visits, List.filterMap_cons]
        cases t.visit? registry <;> rfl
      rw [hvisits, ← List.append_assoc]
      exact hrest

/-- In every registry no two connections are about one conversation. -/
theorem distinct_after (registries : Nat) (ceilings : List Nat) (ts : List Turn) (r arena : Nat) :
    (((fresh registries ceilings).after ts).state r arena).DistinctFlows := by
  have hactivity := @activity_after (fresh registries ceilings) [] r ts (by
    rw [registry_fresh]
    exact List.nil_sublist _)
  have hflows := hactivity.map Prod.fst
  rw [Registry.fst_activity] at hflows
  rw [Reassembly.DistinctFlows, Reassembly.connections, List.map_map]
  exact hflows.nodup (Visit.nodup_latest _)

/-- From the beginning on, the last activities of the live connections are the last visits of their
conversations. -/
theorem activity_eq (registries : Nat) (ceilings : List Nat) (registry : Nat) (ts : List Turn) :
    let r := ((fresh registries ceilings).after ts).registry registry
    r.activity = (latest (visits registry ts)).filter fun v => decide (v.1 ∈ r.flows) := by
  intro r
  have hactivity := @activity_after (fresh registries ceilings) [] registry ts (by
    rw [registry_fresh]
    exact List.nil_sublist _)
  rw [List.nil_append] at hactivity
  rw [← Registry.fst_activity]
  exact Visit.eq_filter_latest hactivity

/-- So a live connection was last active when its conversation was visited last. -/
theorem exists_last_visit (registries : Nat) (ceilings : List Nat) (registry : Nat) (ts : List Turn)
    {v : Visit} (hv : v ∈ (((fresh registries ceilings).after ts).registry registry).activity) :
    ∃ earlier later, visits registry ts = earlier ++ v :: later ∧ ∀ w ∈ later, w.1 ≠ v.1 := by
  rw [activity_eq] at hv
  exact Visit.mem_latest_iff.1 (List.mem_filter.1 hv).1

end Session
end TcpStreams
