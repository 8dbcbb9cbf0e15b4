import Mathlib.Data.List.Sort
import TcpStreams.Proofs.Flushing

/-!
# The order of activity

A registry says which of its connections were left alone for longest: in the order of their ticks, which no
two of them share, or by the times of their last visits, which may be the same for several.  As long as the
clock does not go back, both agree: the connections that are idle are the first ones in the order.

The order does not depend on how the entries are stored.  Whatever order they are found in, putting them in
the order of their ticks gives the entries as the registry keeps them.

* `Visit.LeftBefore`: one conversation was left alone before another one.
* `Registry.byTick`: entries put in the order of their ticks.
* `Session.order_of_activity`: what a registry lists is that order, after every list of turns.
-/

namespace TcpStreams

/-! ## Which conversation was left alone first -/

namespace Visit

variable {vs : List Visit} {a b : FlowId}

/-- After the last visit to `a` there was another one to `b`. -/
def LeftBefore (vs : List Visit) (a b : FlowId) : Prop :=
  ∃ earlier time later, vs = earlier ++ (a, time) :: later ∧ (∀ v ∈ later, v.1 ≠ a) ∧
    b ∈ later.map Prod.fst

/-- A visit before all others does not change which conversation was left alone first. -/
theorem LeftBefore.cons (v : Visit) (h : LeftBefore vs a b) : LeftBefore (v :: vs) a b := by
  obtain ⟨earlier, time, later, rfl, hlast, hb⟩ := h
  exact ⟨v :: earlier, time, later, rfl, hlast, hb⟩

/-- **The last visits stand in the order** in which the conversations were left alone. -/
theorem pairwise_latest (vs : List Visit) : ((latest vs).map Prod.fst).Pairwise (LeftBefore vs) := by
  induction vs with
  | nil => exact .nil
  | cons v rest ih =>
      have hrest : ((latest rest).map Prod.fst).Pairwise (LeftBefore (v :: rest)) :=
        ih.imp fun h => h.cons v
      rw [latest]
      split
      · exact hrest
      · next hlast =>
          refine List.pairwise_cons.2 ⟨fun b hb => ?_, hrest⟩
          have hlater : ∀ w ∈ rest, w.1 ≠ v.1 := fun w hw hsame =>
            hlast (hsame ▸ List.mem_map_of_mem hw)
          exact ⟨[], v.2, rest, rfl, hlater, ((latest_sublist rest).map Prod.fst).subset hb⟩

/-- The visits before a time come first, if the clock never went back. -/
theorem filter_before_isPrefix {vs : List Visit} (h : (vs.map Prod.snd).Pairwise (· ≤ ·))
    (cutoff : Nat) : vs.filter (fun v => decide (v.2 < cutoff)) <+: vs := by
  induction vs with
  | nil => exact List.prefix_rfl
  | cons v rest ih =>
      obtain ⟨hfirst, hrest⟩ := List.pairwise_cons.1 h
      by_cases hv : v.2 < cutoff
      · rw [List.filter_cons_of_pos (by simpa using hv)]
        exact (List.prefix_cons_inj v).2 (ih hrest)
      · have hnone : (v :: rest).filter (fun w => decide (w.2 < cutoff)) = [] := by
          refine List.filter_eq_nil_iff.2 fun w hw => ?_
          have hle : v.2 ≤ w.2 := by
            rcases List.mem_cons.1 hw with rfl | hw
            · exact Nat.le_refl _
            · exact hfirst _ (List.mem_map_of_mem hw)
          have hlate : ¬ w.2 < cutoff := by omega
          simpa using hlate
        rw [hnone]
        exact List.nil_prefix

end Visit

/-! ## Entries in the order of their ticks -/

namespace Registry

variable {r : Registry} {flow : FlowId} {cutoff : Nat}

/-- Entries put in the order of their ticks. -/
def byTick (entries : List Entry) : List Entry :=
  entries.mergeSort fun a b => decide (a.lastTick ≤ b.lastTick)

theorem pairwise_byTick (entries : List Entry) :
    (byTick entries).Pairwise fun a b => a.lastTick ≤ b.lastTick := by
  have hsorted := @List.pairwise_mergeSort Entry (fun a b => decide (a.lastTick ≤ b.lastTick))
    (fun a b c hab hbc => by simp only [decide_eq_true_eq] at hab hbc ⊢; omega)
    (fun a b => by simp only [Bool.or_eq_true, decide_eq_true_eq]; omega) entries
  exact hsorted.imp fun h => of_decide_eq_true h

/-- The ticks of an ordered registry are distinct. -/
theorem Ordered.nodup (h : r.Ordered) : r.ticks.Nodup := h.increasing.imp Nat.ne_of_lt

/-- Two entries of an ordered registry with the same tick are one. -/
theorem Ordered.eq_of_lastTick (h : r.Ordered) {x y : Entry} (hx : x ∈ r.entries) (hy : y ∈ r.entries)
    (hsame : x.lastTick = y.lastTick) : x = y :=
  List.inj_on_of_nodup_map h.nodup hx hy hsame

/-- **Where the entries are found does not matter**: some of them, put in the order of their ticks, stand as
the registry keeps them. -/
theorem Ordered.byTick_filter (h : r.Ordered) {found : List Entry} (hfound : found.Perm r.entries)
    (p : Entry → Bool) : byTick (found.filter p) = r.entries.filter p := by
  have hperm : (byTick (found.filter p)).Perm (r.entries.filter p) :=
    (List.mergeSort_perm ..).trans (hfound.filter p)
  have hkept : (r.entries.filter p).Pairwise fun a b => a.lastTick ≤ b.lastTick :=
    ((List.pairwise_map.1 h.increasing).imp Nat.le_of_lt).filter p
  refine List.Perm.eq_of_pairwise (fun x y hx hy hxy hyx => ?_) (pairwise_byTick _) hkept hperm
  have hx : x ∈ r.entries := (List.mem_filter.1 (hperm.mem_iff.1 hx)).1
  exact h.eq_of_lastTick hx (List.mem_filter.1 hy).1 (Nat.le_antisymm hxy hyx)

/-- A conversation is listed if it has a live connection. -/
theorem mem_flows_iff : flow ∈ r.flows ↔ (r.find? flow).isSome := by
  rw [find?, Option.isSome_map, entry?, List.find?_isSome, flows, List.mem_map]
  simp only [decide_eq_true_eq]

theorem flowsExcept_eq (r : Registry) (flow : FlowId) :
    r.flowsExcept flow = (r.entries.filter fun e => decide (e.flow ≠ flow)).map Entry.flow := by
  rw [flowsExcept, flows, List.filter_map]
  rfl

/-- The idle conversations are those last visited before a time. -/
theorem idleFlows_eq (r : Registry) (cutoff : Nat) :
    r.idleFlows cutoff = (r.activity.filter fun v => decide (v.2 < cutoff)).map Prod.fst := by
  rw [activity, List.filter_map, List.map_map]
  rfl

theorem mem_idleFlows_iff :
    flow ∈ r.idleFlows cutoff ↔ ∃ time, (flow, time) ∈ r.activity ∧ time < cutoff := by
  rw [idleFlows_eq, List.mem_map]
  constructor
  · rintro ⟨v, hv, rfl⟩
    obtain ⟨hv, hlt⟩ := List.mem_filter.1 hv
    exact ⟨v.2, hv, of_decide_eq_true hlt⟩
  · rintro ⟨time, hv, hlt⟩
    exact ⟨(flow, time), List.mem_filter.2 ⟨hv, decide_eq_true hlt⟩, rfl⟩

end Registry

/-! ## Sessions -/

namespace Session

open Visit (latest LeftBefore)
open Registry (byTick)

variable {s : Session} {registry : Nat}

theorem ordered_turn (h : (s.registry registry).Ordered) (t : Turn) :
    ((s.turn t).session.registry registry).Ordered := by
  rcases s.registry_turn t registry with ⟨arena, action, -, hacted⟩ | hsame
  · rw [hacted]
    exact Reassembly.lasting_ordered.perform (s := s.state registry arena) h t.fails t.now action
      fun _ _ => trivial
  · exact hsame ▸ h

/-- Every run leaves the connections of every registry in the order of their last activity. -/
theorem ordered_after (h : (s.registry registry).Ordered) (ts : List Turn) :
    ((s.after ts).registry registry).Ordered := by
  induction ts generalizing s with
  | nil => exact h
  | cons t rest ih => exact ih (ordered_turn h t)

/-- A live connection was last active at a time exactly if that is the time of the last visit to its
conversation. -/
theorem mem_activity_iff (registries : Nat) (ceilings : List Nat) (registry : Nat) (ts : List Turn)
    (v : Visit) :
    let r := ((fresh registries ceilings).after ts).registry registry
    v ∈ r.activity ↔ (r.find? v.1).isSome ∧
      ∃ earlier later, visits registry ts = earlier ++ v :: later ∧ ∀ w ∈ later, w.1 ≠ v.1 := by
  intro r
  rw [activity_eq, List.mem_filter, Visit.mem_latest_iff, decide_eq_true_eq, Registry.mem_flows_iff]
  exact and_comm

/-- **Recency and idleness agree.** Let any number of reassemblers and other parties look connections up,
work segments in, take connections out and flush them, on registries and arenas that they share in any way,
and let consumers break down in any calls, also in those that open a stream.  Let the clock not go back
between the visits to the conversations of a registry.  Then at every moment:

No two connections of the registry have the same tick, and none has a later one than the registry.

The conversations other than one are listed once each, in the order in which they were left alone: after the
last visit to one there was another visit to every one that is listed behind it.

The conversations that are idle since a time are those whose last visit was before it.  They come first in
the list of all.

Both lists are what sorting by the ticks makes of the entries, in whatever order they are found. -/
theorem order_of_activity (registries : Nat) (ceilings : List Nat) (turns : List Turn) (registry : Nat)
    (hclock : ((visits registry turns).map Prod.snd).Pairwise (· ≤ ·)) :
    let r := ((fresh registries ceilings).after turns).registry registry
    let past := visits registry turns
    (r.ticks.Nodup ∧ ∀ tick ∈ r.ticks, tick ≤ r.tick) ∧
      (∀ flow, (r.flowsExcept flow).Nodup ∧
        (∀ other, other ∈ r.flowsExcept flow ↔ (r.find? other).isSome ∧ other ≠ flow) ∧
        (r.flowsExcept flow).Pairwise (LeftBefore past)) ∧
      (∀ cutoff,
        (∀ other, other ∈ r.idleFlows cutoff ↔ (r.find? other).isSome ∧
          ∃ earlier time later, past = earlier ++ (other, time) :: later ∧
            (∀ v ∈ later, v.1 ≠ other) ∧ time < cutoff) ∧
        r.idleFlows cutoff <+: r.flows) ∧
      ∀ found : List Entry, found.Perm r.entries →
        (∀ flow, r.flowsExcept flow =
          (byTick (found.filter fun e => decide (e.flow ≠ flow))).map Entry.flow) ∧
        ∀ cutoff, r.idleFlows cutoff =
          (byTick (found.filter fun e => decide (e.lastUsed < cutoff))).map Entry.flow := by
  intro r past
  have hordered : r.Ordered := ordered_after (by rw [registry_fresh]; exact Registry.ordered_empty) turns
  have hactivity : r.activity.Sublist (latest past) := by
    rw [show r.activity = _ from activity_eq registries ceilings registry turns]
    exact List.filter_sublist
  have hflows : r.flows.Sublist ((latest past).map Prod.fst) := by
    rw [← Registry.fst_activity]
    exact hactivity.map Prod.fst
  have hexcept : ∀ flow, (r.flowsExcept flow).Sublist r.flows := fun flow => List.filter_sublist
  refine ⟨⟨hordered.nodup, hordered.reached⟩, fun flow => ⟨?_, fun other => ?_, ?_⟩,
    fun cutoff => ⟨fun other => ?_, ?_⟩, fun found hfound => ⟨fun flow => ?_, fun cutoff => ?_⟩⟩
  · exact (Visit.nodup_latest past).sublist ((hexcept flow).trans hflows)
  · rw [Registry.flowsExcept, List.mem_filter, Registry.mem_flows_iff, decide_eq_true_eq]
  · exact (Visit.pairwise_latest past).sublist ((hexcept flow).trans hflows)
  · rw [Registry.mem_idleFlows_iff]
    constructor
    · rintro ⟨time, hv, hlt⟩
      obtain ⟨hlive, earlier, later, heq, hlast⟩ :=
        (mem_activity_iff registries ceilings registry turns _).1 hv
      exact ⟨hlive, earlier, time, later, heq, hlast, hlt⟩
    · rintro ⟨hlive, earlier, time, later, heq, hlast, hlt⟩
      exact ⟨time, (mem_activity_iff registries ceilings registry turns _).2
        ⟨hlive, earlier, later, heq, hlast⟩, hlt⟩
  · rw [Registry.idleFlows_eq, ← Registry.fst_activity]
    have htimes : (r.activity.map Prod.snd).Pairwise (· ≤ ·) :=
      hclock.sublist ((hactivity.trans (Visit.latest_sublist past)).map Prod.snd)
    exact (Visit.filter_before_isPrefix htimes cutoff).map Prod.fst
  · rw [Registry.flowsExcept_eq, hordered.byTick_filter hfound]
  · rw [Registry.idleFlows, hordered.byTick_filter hfound]

/-- The conversation of a client is looked up, at a time. -/
def visitAt (now : Nat) (client : UInt16) (fails : Event → Bool := fun _ => false) : Turn where
  fails
  now
  deed := .act 0 0 (.lookUp (flowOf client) (Host.endpoint (.v4 1) client))

/-- Four clients.  The consumer of the second one breaks down at once; its stream begins later, is taken out,
and begins again at the time of a visit to the first one. -/
def turnsOfVisits : List Turn :=
  [visitAt 1 1000, visitAt 1 1001 fun _ => true, visitAt 2 1001, visitAt 2 1002, visitAt 3 1000,
    { now := 3, deed := .act 0 0 (.remove (flowOf 1001)) }, visitAt 3 1001, visitAt 4 1003]

theorem order_of_activity_of_visits :
    ((visits 0 turnsOfVisits).map Prod.snd).Pairwise (· ≤ ·) ∧
      let r := ((fresh 1 [1]).after turnsOfVisits).registry 0
      r.ticks.Nodup ∧ r.ticks = [4, 5, 6, 7] ∧ r.tick = 7 ∧
        r.flowsExcept (flowOf 1000) = [1002, 1001, 1003].map flowOf ∧
        (r.flowsExcept (flowOf 1000)).Pairwise (LeftBefore (visits 0 turnsOfVisits)) ∧
        r.idleFlows 4 = [1002, 1000, 1001].map flowOf ∧ r.idleFlows 4 <+: r.flows ∧
        r.idleFlows 4 = (byTick (r.entries.reverse.filter fun e => decide (e.lastUsed < 4))).map Entry.flow := by
  have hclock : ((visits 0 turnsOfVisits).map Prod.snd).Pairwise (· ≤ ·) := by decide
  obtain ⟨⟨hticks, -⟩, hexcept, hidle, hfound⟩ := order_of_activity 1 [1] turnsOfVisits 0 hclock
  exact ⟨hclock, hticks, by decide, by decide, by decide, (hexcept _).2.2, by decide, (hidle 4).2,
    (hfound _ (List.reverse_perm _)).2 4⟩

end Session
end TcpStreams
