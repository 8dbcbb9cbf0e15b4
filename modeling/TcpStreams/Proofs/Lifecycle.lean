import Mathlib.Data.List.Perm.Basic
import TcpStreams.Proofs.Calls
import TcpStreams.Proofs.Rolls
import TcpStreams.Proofs.Turns

/-!
# The life of a stream

As long as no consumer breaks down, every stream begins once, is handed chunks once for every segment of
its conversation, and is over at most once: in the call in which both directions come to an end, or in a
flush.  Then its connection is gone, and the next segment of the conversation begins another stream.  A
connection that is removed is never over.

* `Reassembly.Proceeds`: what consumers see in a call, and which streams live afterwards.
* `Reassembly.Underway`: no two connections are about one conversation, and none is over, between calls.
* `Reassembly.Underway.perform`: every call proceeds so.
* `Session.stream_lifecycle`: the lives of all streams, in every run of any number of reassemblers.
-/

namespace TcpStreams

open Connection (Kin)

/-- A call to a consumer, as an incident in the life of a stream. -/
def Event.incident : Event → Incident FlowId
  | opened n flow => .opened flow n
  | delivered n flow chunks => .delivered flow n chunks
  | completed n flow => .completed flow n

/-- Whether an action winds a live connection up, going by its last activity. -/
def Action.windsUp (now : Nat) : Action → Entry → Bool
  | .flushAll _, _ => true
  | .flushBefore cutoff, entry => decide (entry.lastUsed < cutoff)
  | .flushIdle config, entry =>
    match config.idleSpan with
    | none => false
    | some span => decide (span ≤ now) && decide (entry.lastUsed < now - span)
  | .receive .., _ | .lookUp .., _ | .remove .., _ => false

namespace Reassembly

variable {s s' : Reassembly} {fails : Event → Bool} {flow : FlowId} {src : Endpoint} {now n : Nat}
  {c c' : Connection}

/-! ## Who lives where -/

/-- The stream of the live connection of a conversation. -/
def streamOf (s : Reassembly) (flow : FlowId) : Option Nat :=
  (s.registry.find? flow).map Connection.stream

/-- The streams that live, and the number of the next one. -/
def roll (s : Reassembly) : Roll FlowId where
  live := s.streamOf
  next := s.nextStream

/-- The conversations of the live connections, each with its stream. -/
def roster (s : Reassembly) : List (FlowId × Nat) := s.connections.map fun c => (c.flow, c.stream)

theorem fst_roster (s : Reassembly) : s.roster.map Prod.fst = s.connections.map Connection.flow := by
  rw [roster, List.map_map]
  rfl

theorem streamOf_eq_some (hd : s.DistinctFlows) : s.streamOf flow = some n ↔ (flow, n) ∈ s.roster := by
  refine ⟨fun h => ?_, fun h => ?_⟩
  · obtain ⟨c, hc, rfl⟩ := Option.map_eq_some_iff.1 h
    obtain ⟨hmem, rfl⟩ := find?_eq_some hc
    exact List.mem_map_of_mem (f := fun c => (c.flow, c.stream)) hmem
  · obtain ⟨c, hc, heq⟩ := List.mem_map.1 h
    obtain ⟨rfl, rfl⟩ := Prod.mk.inj heq
    rw [streamOf, find?_of_mem hd hc]
    rfl

/-- Whose conversations have which streams is all that counts. -/
theorem streamOf_of_perm (hd : s.DistinctFlows) (h : s'.roster.Perm s.roster) :
    s'.DistinctFlows ∧ s'.streamOf = s.streamOf := by
  have hd' : s'.DistinctFlows := by
    have hfst := h.map Prod.fst
    rw [fst_roster, fst_roster] at hfst
    exact hfst.nodup_iff.2 hd
  refine ⟨hd', funext fun flow => Option.ext fun n => ?_⟩
  rw [streamOf_eq_some hd', streamOf_eq_some hd, h.mem_iff]

theorem streamOf_erase (h : s'.registry = s.registry.erase flow) :
    s'.streamOf = Function.update s.streamOf flow none := by
  funext other
  rw [streamOf, h, Registry.find?_erase, Function.update_apply]
  split <;> rfl

/-- **Between calls** no two connections are about one conversation, and none has both directions over. -/
structure Underway (s : Reassembly) : Prop where
  /-- The conversations of the connections are distinct. -/
  distinct : s.DistinctFlows
  /-- A direction of every connection is open. -/
  going : ∀ c ∈ s.connections, c.isOver = false

theorem underway_empty (arena : Arena) (nextStream : Nat) : Underway ⟨{}, arena, nextStream⟩ :=
  ⟨List.nodup_nil, fun _ hc => absurd hc List.not_mem_nil⟩

/-- A connection goes. -/
theorem Underway.erase (hs : s.Underway) (h : s'.registry = s.registry.erase flow) : s'.Underway := by
  refine ⟨hs.distinct.erase h, fun c hc => hs.going c ?_⟩
  rw [connections_erase s' h] at hc
  exact (List.mem_filter.1 hc).1

/-- A connection that continues the one of its conversation takes its place. -/
theorem Underway.replace (hs : s.Underway) (hc : c ∈ s.connections) (hkin : Kin c c')
    (hover : c'.isOver = false) (h : s'.registry = s.registry.replace c') :
    s'.Underway ∧ s'.streamOf = s.streamOf := by
  have hconn := connections_replaced s' h
  have hroster : s'.roster = s.roster := by
    rw [roster, roster, hconn, List.map_map]
    refine List.map_congr_left fun x hx => ?_
    simp only [Function.comp]
    split
    · next hxf =>
        rw [List.inj_on_of_nodup_map hs.distinct hx hc (hxf.trans hkin.flow), hkin.flow, hkin.stream]
    · rfl
  obtain ⟨hd, hstreams⟩ := streamOf_of_perm hs.distinct (.of_eq hroster)
  refine ⟨⟨hd, fun x hx => ?_⟩, hstreams⟩
  rw [hconn] at hx
  obtain ⟨y, hy, rfl⟩ := List.mem_map.1 hx
  split
  · exact hover
  · exact hs.going y hy

/-- A connection is there once it was looked up; it gets the next stream if it was not there before. -/
theorem Underway.lookUp (hs : s.Underway) (hok : ∀ event, fails event = false) (flow : FlowId)
    (src : Endpoint) (now : Nat) :
    let o := s.lookUp fails flow src now
    o.state.Underway ∧ o.state.roll = s.roll.enrol flow ∧
      o.events = (if (s.streamOf flow).isNone then [.opened (s.roll.streamAt flow) flow] else []) ∧
      ∃ c ∈ o.state.connections, o.result = .ok c ∧ c.flow = flow ∧
        c.stream = s.roll.streamAt flow := by
  cases h : s.registry.find? flow with
  | some c =>
      obtain ⟨hres, hevents, hperm, -, hnext⟩ :=
        @lookUp_known s fails flow src now c hs.distinct h
      obtain ⟨hd, hstreams⟩ := streamOf_of_perm hs.distinct
        (hperm.map fun c : Connection => (c.flow, c.stream))
      obtain ⟨hc, hflow⟩ := find?_eq_some h
      have hlive : s.streamOf flow = some c.stream := congrArg (Option.map Connection.stream) h
      have henrol : s.roll.enrol flow = s.roll := by
        rw [Roll.enrol, show s.roll.live flow = _ from hlive]
      refine ⟨⟨hd, fun x hx => hs.going x (hperm.mem_iff.1 hx)⟩, ?_, ?_, c, hperm.mem_iff.2 hc, hres,
        hflow, ?_⟩
      · rw [henrol, roll, roll, hstreams, hnext]
      · rw [hevents, hlive]
        rfl
      · rw [Roll.streamAt, show s.roll.live flow = _ from hlive]
        rfl
  | none =>
      obtain ⟨hres, hevents, hconn, -, hnext⟩ := @lookUp_new s fails flow src now hok h
      have hlive : s.streamOf flow = none := congrArg (Option.map Connection.stream) h
      have hat : s.roll.streamAt flow = s.nextStream := by
        rw [Roll.streamAt, show s.roll.live flow = _ from hlive]
        rfl
      have hfound := (@lookUp_opened s fails flow now h src).2.2.2
      have hstreams : (s.lookUp fails flow src now).state.streamOf =
          Function.update s.streamOf flow (some s.nextStream) := by
        funext other
        rw [streamOf, hfound, hok, Function.update_apply]
        split <;> rfl
      refine ⟨⟨hs.distinct.opened h hconn, fun x hx => ?_⟩, ?_, ?_, _, ?_, hres, rfl, hat.symm⟩
      · rw [hconn] at hx
        rcases List.mem_append.1 hx with hx | hx
        · exact hs.going x hx
        · rw [List.mem_singleton.1 hx]
          rfl
      · rw [Roll.enrol, show s.roll.live flow = _ from hlive, roll, hstreams, hnext]
        rfl
      · rw [hevents, hlive, hat]
        rfl
      · rw [hconn]
        exact List.mem_append_right _ (List.mem_singleton_self _)

/-- **What a segment that arrived leads to**: its connection is handed chunks, and goes if it is over. -/
theorem Underway.finish {a : Arrival} (hs : a.state.Underway) (hok : ∀ event, fails event = false)
    (hc : a.connection ∈ a.state.connections) :
    (a.finish fails).state.Underway ∧
      (a.finish fails).state.roll =
        (if a.work.connection.isOver then a.state.roll.put a.connection.flow none else a.state.roll) ∧
      (a.finish fails).events =
        .delivered a.stream a.connection.flow
          (a.work.chunks.map (Chunk.delivery a.segment.payload)) ::
            if a.work.connection.isOver then [.completed a.stream a.connection.flow] else [] := by
  obtain ⟨hkin, -, -, hentries⟩ := a.continues_work
  obtain ⟨hstate, -, hevents⟩ := Arrival.finish_of_calm hok a
  -- the others are what they were, but for pages given up
  have hconns : List.Forall₂ Connection.Continues a.state.connections a.worked.connections := by
    rw [connections, connections, List.forall₂_map_left_iff, List.forall₂_map_right_iff]
    exact hentries.imp fun _ _ h => h.continues.connection
  have hroster : a.worked.roster = a.state.roster :=
    map_eq_of_forall₂ hconns fun _ _ h => by rw [h.kin.flow, h.kin.stream]
  obtain ⟨hd, hstreams⟩ := streamOf_of_perm hs.distinct (.of_eq hroster)
  have hworked : a.worked.Underway := by
    refine ⟨hd, fun x hx => ?_⟩
    obtain ⟨y, hy, hcont⟩ := exists_left_of_mem hconns hx
    rw [hcont.isOver]
    exact hs.going y hy
  obtain ⟨x, hx, hcont⟩ := exists_right_of_mem hconns hc
  have hkin' : Kin x a.work.connection := hcont.kin.symm.trans hkin
  rw [hevents, hkin.flow, hkin.stream, ← Arrival.stream]
  cases hover : a.work.connection.isOver with
  | true =>
      have hregistry : (a.finish fails).state.registry = a.worked.registry.erase a.connection.flow := by
        rw [hstate, hover, if_pos rfl, ← hkin.flow]
        exact Registry.erase_replace _ _
      have hnext : (a.finish fails).state.nextStream = a.state.nextStream := by
        rw [hstate, hover]
        rfl
      refine ⟨hworked.erase hregistry, ?_, rfl⟩
      rw [if_pos rfl, roll, streamOf_erase hregistry, hstreams, hnext]
      rfl
  | false =>
      have hregistry : (a.finish fails).state.registry =
          a.worked.registry.replace a.work.connection := by
        rw [hstate, hover]
        rfl
      have hnext : (a.finish fails).state.nextStream = a.state.nextStream := by
        rw [hstate, hover]
        rfl
      obtain ⟨hsame, hstreams'⟩ := hworked.replace hx hkin' hover hregistry
      refine ⟨hsame, ?_, rfl⟩
      rw [roll, hstreams', hstreams, hnext]
      rfl

/-! ## Winding up -/

/-- What the consumer of a connection sees when it is wound up. -/
def ending (c : Connection) : List Event :=
  [.delivered c.stream c.flow (c.close.chunks.map (Chunk.delivery [])), .completed c.stream c.flow]

/-- Some connections are wound up: each is handed what waits in it, is over, and goes. -/
structure WindsUp {α : Type} (s : Reassembly) (cs : List Connection) (o : Outcome α) : Prop where
  /-- The others stay. -/
  underway : o.state.Underway
  /-- The streams of the connections are gone. -/
  roll : o.state.roll = s.roll.clear (cs.map Connection.flow)
  /-- Their consumers saw it, one after the other. -/
  events : o.events = cs.flatMap ending

theorem windsUp_nil {α : Type} (hs : s.Underway) (a : α) : s.WindsUp [] (answer a s) := ⟨hs, rfl, rfl⟩

theorem WindsUp.congr {α β : Type} {cs : List Connection} {o : Outcome α} {o' : Outcome β}
    (h : s.WindsUp cs o) (hstate : o'.state = o.state) (hevents : o'.events = o.events) :
    s.WindsUp cs o' := by
  refine ⟨?_, ?_, ?_⟩
  · rw [hstate]
    exact h.underway
  · rw [hstate]
    exact h.roll
  · rw [hevents]
    exact h.events

theorem Underway.windUp (hs : s.Underway) (hok : ∀ event, fails event = false)
    (hc : c ∈ s.connections) :
    s.WindsUp [c] (s.windUp fails c.flow) ∧
      (s.windUp fails c.flow).state.connections =
        s.connections.filter fun x => decide (x.flow ≠ c.flow) := by
  obtain ⟨hstate, -, hevents⟩ := windUp_known hok (find?_of_mem hs.distinct hc)
  obtain ⟨hkin, -⟩ := c.close_ends
  have hregistry : (s.windUp fails c.flow).state.registry = s.registry.erase c.flow := by
    rw [hstate, ← hkin.flow]
    exact Registry.erase_replace _ _
  have hnext : (s.windUp fails c.flow).state.nextStream = s.nextStream := by rw [hstate]
  refine ⟨⟨hs.erase hregistry, ?_, ?_⟩, connections_erase _ hregistry⟩
  · rw [Reassembly.roll, streamOf_erase hregistry, hnext, List.map_singleton, Roll.clear_cons]
    simp [Roll.clear, Roll.put, Reassembly.roll]
  · rw [hevents, hkin.flow, hkin.stream]
    rfl

theorem Underway.windUpAll (hs : s.Underway) (hok : ∀ event, fails event = false)
    {cs : List Connection} (hcs : ∀ c ∈ cs, c ∈ s.connections)
    (hd : (cs.map Connection.flow).Nodup) :
    s.WindsUp cs (s.windUpAll fails (cs.map Connection.flow)) := by
  induction cs generalizing s with
  | nil => exact windsUp_nil hs 0
  | cons c rest ih =>
      obtain ⟨hfirst, hrest⟩ := List.nodup_cons.1 hd
      obtain ⟨hwound, hconn⟩ := hs.windUp hok (hcs c (List.mem_cons_self ..))
      obtain ⟨hstate, hmore, -⟩ := windUpAll_cons hok c.flow (rest.map Connection.flow) s
      -- the others are still there
      have hleft : ∀ x ∈ rest, x ∈ (s.windUp fails c.flow).state.connections := fun x hx => by
        rw [hconn, List.mem_filter, decide_eq_true_iff]
        exact ⟨hcs x (List.mem_cons_of_mem _ hx), fun hf => hfirst (hf ▸ List.mem_map_of_mem hx)⟩
      have hlater := ih hwound.underway hleft hrest
      refine ⟨?_, ?_, ?_⟩
      · rw [List.map_cons, hstate]
        exact hlater.underway
      · rw [List.map_cons, hstate, hlater.roll, hwound.roll, List.map_singleton, Roll.clear_cons,
          Roll.clear_cons]
        simp [Roll.clear]
      · rw [List.map_cons, hmore, hlater.events, hwound.events]
        simp

/-- Live connections that are listed once are about different conversations. -/
theorem nodup_of_subperm (hd : s.DistinctFlows) {cs : List Connection} (hcs : cs.Subperm s.connections) :
    (cs.map Connection.flow).Nodup := by
  obtain ⟨part, hperm, hsub⟩ := hcs
  exact (hperm.map _).nodup_iff.1 ((hsub.map _).nodup hd)

/-- The connections in an order of choice of their conversations. -/
def connectionsIn (s : Reassembly) (order : List FlowId) : List Connection :=
  (s.registry.flowsIn order).filterMap s.registry.find?

theorem connectionsIn_perm (hd : s.DistinctFlows) (order : List FlowId) :
    (s.connectionsIn order).Perm s.connections := by
  have hall : s.registry.flows.filterMap s.registry.find? = s.connections := by
    rw [show s.registry.flows = s.connections.map Connection.flow from (List.map_map ..).symm,
      List.filterMap_map]
    exact (List.filterMap_congr fun c hc => find?_of_mem hd hc).trans List.filterMap_some
  rw [← hall]
  exact (s.registry.flowsIn_perm order).filterMap _

theorem map_flow_connectionsIn (hd : s.DistinctFlows) (order : List FlowId) :
    (s.connectionsIn order).map Connection.flow = s.registry.flowsIn order := by
  rw [connectionsIn, List.map_filterMap, List.filterMap_congr (g := some) fun flow hflow => ?_,
    List.filterMap_some]
  obtain ⟨entry, hentry, rfl⟩ := List.mem_map.1 ((s.registry.flowsIn_perm order).subset hflow)
  rw [Entry.flow, find?_of_mem hd (List.mem_map_of_mem hentry)]
  rfl

/-- The connections that an action winds up, in the order in which it does. -/
def woundUp (s : Reassembly) (now : Nat) : Action → List Connection
  | .flushAll order => s.connectionsIn order
  | action => (s.registry.entries.filter (action.windsUp now)).map Entry.connection

/-- Live connections are wound up, and none of them twice. -/
theorem woundUp_subperm (hd : s.DistinctFlows) (now : Nat) (action : Action) :
    (s.woundUp now action).Subperm s.connections := by
  cases action with
  | flushAll order => exact (connectionsIn_perm hd order).subperm
  | _ => exact (List.filter_sublist.map _).subperm

theorem Underway.nodup_woundUp (hs : s.Underway) (now : Nat) (action : Action) :
    ((s.woundUp now action).map Connection.flow).Nodup :=
  nodup_of_subperm hs.distinct (woundUp_subperm hs.distinct now action)

/-- Every connection is wound up. -/
theorem Underway.flushAll (hs : s.Underway) (hok : ∀ event, fails event = false) (order : List FlowId)
    (now : Nat) : s.WindsUp (s.woundUp now (.flushAll order)) (s.flushAll fails order) := by
  have hsub := woundUp_subperm hs.distinct now (.flushAll order)
  have hwound := hs.windUpAll hok (fun _ hc => hsub.subset hc) (hs.nodup_woundUp now _)
  rwa [show (s.woundUp now (.flushAll order)).map Connection.flow = s.registry.flowsIn order from
    map_flow_connectionsIn hs.distinct order] at hwound

/-- The connections without activity since a time are wound up. -/
theorem Underway.flushBefore (hs : s.Underway) (hok : ∀ event, fails event = false) (cutoff now : Nat) :
    s.WindsUp (s.woundUp now (.flushBefore cutoff)) (s.flushBefore fails cutoff) := by
  have hsub := woundUp_subperm hs.distinct now (.flushBefore cutoff)
  have hflows : s.registry.idleFlows cutoff =
      (s.woundUp now (.flushBefore cutoff)).map Connection.flow := (List.map_map ..).symm
  have hwound := hs.windUpAll hok (fun _ hc => hsub.subset hc) (hs.nodup_woundUp now _)
  rw [← hflows] at hwound
  rw [Reassembly.flushBefore, Outcome.andThen]
  split
  · exact hwound.congr rfl rfl
  · exact hwound.congr rfl (List.append_nil _)

/-- The connections that were idle for too long are wound up. -/
theorem Underway.flushIdle (hs : s.Underway) (hok : ∀ event, fails event = false) (config : Config)
    (now : Nat) : s.WindsUp (s.woundUp now (.flushIdle config)) (s.flushIdle fails config now) := by
  have hidle : ∀ span, config.idleSpan = some span → span ≤ now →
      s.woundUp now (.flushIdle config) = s.woundUp now (.flushBefore (now - span)) := by
    intro span hspan hle
    refine congrArg (List.map Entry.connection) (List.filter_congr fun e _ => ?_)
    simp only [Action.windsUp, hspan, hle, decide_true, Bool.true_and]
  have hbusy : (∀ span, config.idleSpan = some span → ¬span ≤ now) →
      s.woundUp now (.flushIdle config) = [] := by
    intro hnot
    refine List.map_eq_nil_iff.2 (List.filter_eq_nil_iff.2 fun e _ => ?_)
    simp only [Action.windsUp]
    cases hspan : config.idleSpan with
    | none => nofun
    | some span => simp [hnot span hspan]
  rw [Reassembly.flushIdle]
  cases hspan : config.idleSpan with
  | none =>
      rw [hbusy fun span h => by rw [hspan] at h; cases h]
      exact windsUp_nil hs 0
  | some span =>
      simp only
      split
      · next hle =>
          rw [hidle span hspan hle]
          exact hs.flushBefore hok _ now
      · next hle =>
          rw [hbusy fun span' h => by rw [hspan] at h; cases h; exact hle]
          exact windsUp_nil hs 0

/-! ## Calls -/

/-- The incidents of a call: what consumers see, and a connection that is removed. -/
def incidents (s : Reassembly) (call : Call) : List (Incident FlowId) :=
  (s.perform call.fails call.now call.action).events.map Event.incident ++
    match call.action with
    | .remove flow => (s.streamOf flow).toList.map (.removed flow)
    | _ => []

/-- **What consumers see in a call**, and which streams live afterwards.

A segment arrives at the stream of its conversation, which begins if there is none.  That stream is handed
chunks once, and no other is.  It is over if the segment ends its direction and the other one is over
already; then it is gone.

A flush hands every stream that it winds up chunks once; each is over right afterwards, and gone.

A connection that is removed is gone, and its consumer is not told. -/
def Proceeds (s : Reassembly) (call : Call) : Prop :=
  let o := s.perform call.fails call.now call.action
  let opening (flow : FlowId) : List Event :=
    if (s.streamOf flow).isNone then [.opened (s.roll.streamAt flow) flow] else []
  match call.action with
  | .receive _ _ path segment =>
    let flow := segment.flow path
    let n := s.roll.streamAt flow
    ∃ a, s.arrivals call = [a] ∧ a.segment = segment ∧ a.connection.flow = flow ∧ a.stream = n ∧
      a.connection.isOver = false ∧
      a.work.connection.isOver = (segment.flags.closes && !a.half.isClosed &&
        (a.connection.half a.direction.opposite).isClosed) ∧
      o.events = opening flow ++
        .delivered n flow (a.work.chunks.map (Chunk.delivery segment.payload)) ::
          (if a.work.connection.isOver then [.completed n flow] else []) ∧
      o.state.roll =
        if a.work.connection.isOver then (s.roll.enrol flow).put flow none else s.roll.enrol flow
  | .flushAll _ | .flushBefore _ | .flushIdle _ => s.WindsUp (s.woundUp call.now call.action) o
  | .lookUp flow _ => o.events = opening flow ∧ o.state.roll = s.roll.enrol flow
  | .remove flow => o.events = [] ∧ o.state.roll = s.roll.put flow none

theorem isOver_eq (c : Connection) (d : Direction) :
    c.isOver = ((c.half d).isClosed && (c.half d.opposite).isClosed) := by
  cases d with
  | forward => rfl
  | reverse => exact Bool.and_comm ..

theorem segment_of_arrivals {config : Config} {locked : List FlowId} {path : Route}
    {segment : Segment} {a : Arrival}
    (h : s.arrivals ⟨fails, now, .receive config locked path segment⟩ = [a]) : a.segment = segment := by
  simp only [arrivals] at h
  split at h
  · obtain rfl := List.singleton_inj.1 h
    rfl
  · cases h

/-- **Every call proceeds so**, and leaves no connection that is over. -/
theorem Underway.perform (hs : s.Underway) {call : Call} (hok : ∀ event, call.fails event = false) :
    (s.perform call.fails call.now call.action).state.Underway ∧ s.Proceeds call := by
  obtain ⟨fails, now, action⟩ := call
  cases action with
  | receive config locked path segment =>
      show (s.receive fails config locked path segment now).state.Underway ∧ _
      obtain ⟨a, harr, hstate, hres, hreceive, -, hevents⟩ := @receive_of_calm s fails now config locked
        path segment hok hs.distinct
      obtain ⟨hunder, hroll, hopening, c, hc, hfound, hflow, hstream⟩ :=
        hs.lookUp hok (segment.flow path) (segment.src path) now
      obtain rfl := Except.ok.inj (hfound.symm.trans hres)
      rw [← hstate] at hunder hroll hc
      obtain ⟨hafter, hroll', htold⟩ := hunder.finish hok hc
      have hsegment := segment_of_arrivals harr
      have hgoing := hunder.going _ hc
      obtain ⟨-, hown, hother, -⟩ := a.continues_work
      rw [hreceive]
      refine ⟨hafter, a, harr, hsegment, hflow, hstream, hgoing, ?_, ?_, ?_⟩
      · rw [isOver_eq _ a.direction] at hgoing ⊢
        rw [hown, hother, hsegment]
        rw [← Arrival.half] at hgoing
        revert hgoing
        cases a.half.isClosed <;> cases (a.connection.half a.direction.opposite).isClosed <;> simp
      · show (s.receive fails config locked path segment now).events = _
        rw [hevents, hopening, htold, hsegment, hflow, Arrival.stream, hstream]
      · show (s.receive fails config locked path segment now).state.roll = _
        rw [hreceive, hroll', hroll, hflow]
  | flushAll order =>
      have hwound := hs.flushAll hok order now
      exact ⟨hwound.underway, hwound.congr rfl rfl⟩
  | flushBefore cutoff =>
      have hwound := hs.flushBefore hok cutoff now
      exact ⟨hwound.underway, hwound.congr rfl rfl⟩
  | flushIdle config =>
      have hwound := hs.flushIdle hok config now
      exact ⟨hwound.underway, hwound.congr rfl rfl⟩
  | lookUp flow src =>
      obtain ⟨hunder, hroll, hopening, -⟩ := hs.lookUp hok flow src now
      exact ⟨hunder, hopening, hroll⟩
  | remove flow =>
      show (s.remove flow).state.Underway ∧ (s.remove flow).events = [] ∧ (s.remove flow).state.roll = _
      rw [remove]
      cases h : s.registry.find? flow with
      | none =>
          have hlive : s.streamOf flow = none := congrArg (Option.map Connection.stream) h
          exact ⟨hs, rfl, (Roll.put_of_live hlive).symm⟩
      | some c =>
          refine ⟨hs.erase rfl, rfl, ?_⟩
          rw [roll, streamOf_erase rfl]
          rfl

/-- The incidents of flushed streams are steps of the roll. -/
theorem run_ending (hs : s.DistinctFlows) {cs : List Connection} (hcs : ∀ c ∈ cs, c ∈ s.connections)
    (hd : (cs.map Connection.flow).Nodup) {ρ : Roll FlowId}
    (hρ : ∀ c ∈ cs, ρ.live c.flow = s.streamOf c.flow) :
    ρ.Run ((cs.flatMap ending).map Event.incident) (ρ.clear (cs.map Connection.flow)) := by
  induction cs generalizing ρ with
  | nil => exact .refl ρ
  | cons c rest ih =>
      obtain ⟨hfirst, hrest⟩ := List.nodup_cons.1 hd
      have hlive : ρ.live c.flow = some c.stream := by
        rw [hρ c (List.mem_cons_self ..), streamOf, find?_of_mem hs (hcs c (List.mem_cons_self ..))]
        rfl
      rw [List.map_cons, Roll.clear_cons]
      refine .step (.concludes hlive _) (ih (fun x hx => hcs x (List.mem_cons_of_mem _ hx)) hrest ?_)
      intro x hx
      have hne : x.flow ≠ c.flow := fun hf => hfirst (hf ▸ List.mem_map_of_mem hx)
      rw [← hρ x (List.mem_cons_of_mem _ hx)]
      exact Function.update_of_ne hne ..

/-- **The incidents of a call** are steps of the roll. -/
theorem Underway.run (hs : s.Underway) {call : Call} (h : s.Proceeds call) :
    s.roll.Run (s.incidents call) (s.perform call.fails call.now call.action).state.roll := by
  obtain ⟨fails, now, action⟩ := call
  have hopening : ∀ flow, ((if (s.streamOf flow).isNone then
      [Event.opened (s.roll.streamAt flow) flow] else []).map Event.incident) =
      if (s.roll.live flow).isNone then [.opened flow (s.roll.streamAt flow)] else [] := by
    intro flow
    show _ = if (s.streamOf flow).isNone then _ else _
    split <;> rfl
  have hflush : ∀ {action : Action} {o : Outcome Answer}, s.WindsUp (s.woundUp now action) o →
      s.roll.Run (o.events.map Event.incident) o.state.roll := by
    intro action o hwound
    have hsub := woundUp_subperm hs.distinct now action
    rw [hwound.events, hwound.roll]
    exact run_ending hs.distinct (fun _ hc => hsub.subset hc) (hs.nodup_woundUp now action) fun _ _ => rfl
  cases action with
  | receive config locked path segment =>
      obtain ⟨a, -, -, -, -, -, -, hevents, hroll⟩ := h
      have hlive := s.roll.live_enrol (segment.flow path)
      rw [incidents, hevents, hroll, List.append_nil, List.map_append, hopening]
      refine (Roll.Run.enrol s.roll (segment.flow path)).trans ?_
      cases a.work.connection.isOver with
      | true => exact .single (.concludes hlive _)
      | false => exact .single (.hands hlive _)
  | flushAll order | flushBefore cutoff | flushIdle config =>
      rw [incidents, List.append_nil]
      exact hflush h
  | lookUp flow src =>
      obtain ⟨hevents, hroll⟩ := h
      rw [incidents, hevents, hroll, List.append_nil, hopening]
      exact .enrol s.roll flow
  | remove flow =>
      obtain ⟨hevents, hroll⟩ := h
      have hincidents : s.incidents ⟨fails, now, .remove flow⟩ =
          (s.streamOf flow).toList.map (.removed flow) := by
        rw [incidents, hevents]
        rfl
      rw [hincidents, hroll]
      cases hlive : s.streamOf flow with
      | some n => exact .single (.removes hlive)
      | none =>
          rw [Roll.put_of_live hlive]
          exact .refl _

end Reassembly
/-! ## Sessions -/

namespace Session

variable {s s' : Session} {t : Turn} {ts : List Turn} {registries arenas : Nat}

/-- The stream of the live connection of a conversation in a registry. -/
def streamAt (s : Session) (registry : Nat) (flow : FlowId) : Option Nat :=
  ((s.registry registry).find? flow).map Connection.stream

/-- The streams that live in the registries, and the number of the next one. -/
def roll (s : Session) : Roll (Nat × FlowId) where
  live place := s.streamAt place.1 place.2
  next := s.nextStream

/-- The incidents of a turn, each with the registry in which it happens. -/
def turnIncidents (s : Session) (t : Turn) : List (Incident (Nat × FlowId)) :=
  match t.deed with
  | .act registry arena action =>
    ((s.state registry arena).incidents ⟨t.fails, t.now, action⟩).map (Incident.map (Prod.mk registry))
  | .take .. | .give .. => []

/-- The incidents of a list of turns. -/
def incidents (s : Session) : List Turn → List (Incident (Nat × FlowId))
  | [] => []
  | t :: rest => s.turnIncidents t ++ (s.turn t).session.incidents rest

/-- **What consumers see in a turn**, and which streams live afterwards.  An action proceeds in its registry,
and leaves the streams of the others as they are; pages that are taken or given back directly are nothing
that a consumer sees. -/
def Proceeds (s : Session) (t : Turn) : Prop :=
  match t.deed with
  | .act registry arena action =>
    let o := (s.state registry arena).perform t.fails t.now action
    (s.state registry arena).Proceeds ⟨t.fails, t.now, action⟩ ∧ (s.turn t).events = o.events ∧
      ∀ r flow, (s.turn t).session.streamAt r flow =
        if r = registry then o.state.streamOf flow else s.streamAt r flow
  | .take .. | .give .. => (s.turn t).events = [] ∧ (s.turn t).session.roll = s.roll

/-- The connections of every registry are under way. -/
structure Underway (registries : Nat) (s : Session) : Prop where
  /-- There are so many registries. -/
  registries : s.registries.length = registries
  /-- In each, no two connections are about one conversation, and none is over. -/
  underway : ∀ r ∈ s.registries, ∀ arena n, Reassembly.Underway ⟨r, arena, n⟩

theorem underway_fresh (registries : Nat) (ceilings : List Nat) :
    (fresh registries ceilings).Underway registries := by
  refine ⟨List.length_replicate, fun r hr arena n => ?_⟩
  rw [List.eq_of_mem_replicate hr]
  exact Reassembly.underway_empty arena n

theorem Underway.congr (h : s.Underway registries) (hregistries : s'.registries = s.registries) :
    s'.Underway registries :=
  ⟨hregistries ▸ h.registries, hregistries ▸ h.underway⟩

theorem Underway.state (h : s.Underway registries) (registry arena : Nat) :
    (s.state registry arena).Underway := by
  by_cases hlt : registry < s.registries.length
  · refine h.underway _ ?_ _ _
    rw [Session.registry, List.getD_eq_getElem?_getD, List.getElem?_eq_getElem hlt]
    exact List.getElem_mem hlt
  · have hnone : s.registry registry = {} := by
      rw [Session.registry, List.getD_eq_getElem?_getD, List.getElem?_eq_none (Nat.le_of_not_lt hlt)]
      rfl
    rw [Session.state, hnone]
    exact Reassembly.underway_empty ..

theorem roll_congr (hregistries : s'.registries = s.registries) (hnext : s'.nextStream = s.nextStream) :
    s'.roll = s.roll := by
  simp only [roll, streamAt, registry, hregistries, hnext]

/-- What an action on a registry leaves there is found there; the other registries are what they were. -/
theorem streamAt_report (s : Session) {registry : Nat} (hlt : registry < s.registries.length)
    (arena now : Nat) (o : Outcome Answer) (r : Nat) (flow : FlowId) :
    (s.report registry arena now o).session.streamAt r flow =
      if r = registry then o.state.streamOf flow else s.streamAt r flow := by
  rw [streamAt, s.registry_report_of_lt hlt]
  split <;> rfl

/-- Steps of the roll of one registry are steps of the roll of all. -/
theorem run_report {registry arena : Nat} (hlt : registry < s.registries.length) (now : Nat)
    {o : Outcome Answer} {is : List (Incident FlowId)}
    (hrun : (s.state registry arena).roll.Run is o.state.roll) :
    s.roll.Run (is.map (Incident.map (Prod.mk registry)))
      (s.report registry arena now o).session.roll := by
  obtain ⟨ρ, hlifted, hpart, hothers⟩ := hrun.lift (σ := s.roll) (f := Prod.mk registry)
    (fun _ _ h => (Prod.mk.inj h).2) ⟨fun _ => rfl, rfl⟩
  have hρ : ρ = (s.report registry arena now o).session.roll := by
    obtain ⟨live, next⟩ := ρ
    rw [roll, Roll.mk.injEq]
    refine ⟨funext fun place => ?_, hpart.next⟩
    obtain ⟨r, flow⟩ := place
    rw [s.streamAt_report hlt]
    by_cases hr : r = registry
    · subst hr
      rw [if_pos rfl]
      exact hpart.live flow
    · rw [if_neg hr]
      exact hothers (r, flow) fun _ heq => hr (Prod.mk.inj heq).1.symm
  rw [← hρ]
  exact hlifted

/-- **A turn in which no consumer breaks down** proceeds so, and its incidents are steps of the roll. -/
theorem Underway.turn (h : s.Underway registries) (hcalm : t.Calm)
    (hin : t.deed.Within registries arenas) :
    (s.turn t).session.Underway registries ∧ s.Proceeds t ∧
      s.roll.Run (s.turnIncidents t) (s.turn t).session.roll := by
  obtain ⟨fails, now, deed⟩ := t
  cases deed with
  | take arena seq =>
      obtain ⟨hregistries, hnext, hevents⟩ := s.takePage_keeps arena seq
      have hroll := roll_congr hregistries hnext
      refine ⟨h.congr hregistries, ⟨hevents, hroll⟩, ?_⟩
      show s.roll.Run [] (s.takePage arena seq).session.roll
      rw [hroll]
      exact .refl _
  | give arena slots =>
      obtain ⟨hregistries, hnext⟩ := givePages_keeps arena slots s
      have hroll := roll_congr hregistries hnext
      refine ⟨h.congr hregistries, ⟨rfl, hroll⟩, ?_⟩
      show s.roll.Run [] (s.givePages arena slots).1.roll
      rw [hroll]
      exact .refl _
  | act registry arena action =>
      obtain ⟨hlt, -⟩ : registry < registries ∧ arena < arenas := hin
      obtain ⟨hafter, hproceeds⟩ :=
        @Reassembly.Underway.perform _ (h.state registry arena) ⟨fails, now, action⟩ hcalm
      have hrun := (h.state registry arena).run hproceeds
      have hstreams := s.streamAt_report (h.registries ▸ hlt) arena now
        ((s.state registry arena).perform fails now action)
      refine ⟨⟨?_, ?_⟩, ⟨hproceeds, rfl, hstreams⟩, run_report (h.registries ▸ hlt) now hrun⟩
      · exact List.length_set.trans h.registries
      · intro r hr arena n
        rcases List.mem_or_eq_of_mem_set hr with hr | rfl
        · exact h.underway r hr arena n
        · exact ⟨hafter.distinct, hafter.going⟩

/-- **The incidents of a run** are steps of the roll. -/
theorem Underway.after (h : s.Underway registries) (hcalm : ∀ t ∈ ts, t.Calm)
    (hin : ∀ t ∈ ts, t.deed.Within registries arenas) :
    (s.after ts).Underway registries ∧ s.roll.Run (s.incidents ts) (s.after ts).roll := by
  induction ts generalizing s with
  | nil => exact ⟨h, .refl _⟩
  | cons t rest ih =>
      obtain ⟨hunder, -, hfirst⟩ := h.turn (hcalm t (List.mem_cons_self ..))
        (hin t (List.mem_cons_self ..))
      obtain ⟨hend, hrest⟩ := ih hunder (fun t ht => hcalm t (List.mem_cons_of_mem _ ht))
        fun t ht => hin t (List.mem_cons_of_mem _ ht)
      exact ⟨hend, hfirst.trans hrest⟩

/-- In the beginning there is no connection in any registry. -/
theorem registry_fresh (registries : Nat) (ceilings : List Nat) (r : Nat) :
    (fresh registries ceilings).registry r = {} := by
  rw [registry, fresh, List.getD_eq_getElem?_getD, List.getElem?_replicate]
  split <;> rfl

theorem roll_fresh (registries : Nat) (ceilings : List Nat) :
    (fresh registries ceilings).roll = { live := fun _ => none, next := 0 } := by
  rw [roll, Roll.mk.injEq]
  refine ⟨funext fun place => ?_, rfl⟩
  rw [streamAt, registry_fresh]
  rfl

/-- **The life of a stream.** Let any number of reassemblers and other parties share registries and arenas,
and let no consumer break down.  After any list of turns, every stream has led a life: it began, it was
handed chunks, and it goes on, is over since it was last handed chunks, or was removed.  It goes on if
and only if it is the stream of a live connection, of the conversation with which it began.  No two
connections of a registry are about one conversation, and none has both directions over.  And every
further turn proceeds as it should: a segment hands chunks to the stream of its conversation alone, and
the stream is over, and gone, if and only if the segment ends the last direction; a flush hands chunks
to a stream once before that is over; a removed stream is gone unheard. -/
theorem stream_lifecycle (registries : Nat) (ceilings : List Nat) (turns : List Turn)
    (hcalm : ∀ t ∈ turns, t.Calm)
    (hin : ∀ t ∈ turns, t.deed.Within registries ceilings.length) :
    let first := fresh registries ceilings
    let s := first.after turns
    (∀ n, ∃ place, Life n (Incident.about n (first.incidents turns)) place ∧
      (∀ registry flow, s.streamAt registry flow = some n ↔ place = some (registry, flow)) ∧
      (n < s.nextStream ↔ Incident.about n (first.incidents turns) ≠ [])) ∧
    (∀ registry arena, (s.state registry arena).Underway) ∧
    ∀ t, t.Calm → t.deed.Within registries ceilings.length → s.Proceeds t := by
  obtain ⟨hunder, hrun⟩ := (underway_fresh registries ceilings).after hcalm hin
  rw [roll_fresh] at hrun
  have hlives := hrun.chronicle Roll.chronicle_nil
  rw [List.nil_append] at hlives
  refine ⟨fun n => ?_, hunder.state, fun t ht hwithin => (hunder.turn ht hwithin).2.1⟩
  obtain ⟨place, hlife, hplace, hbegun⟩ := hlives n
  exact ⟨place, hlife, fun registry flow => hplace (registry, flow), hbegun⟩

/-- A conversation comes to its end, goes on in another stream, and is removed; it is followed in another
registry as well, where it is flushed. -/
def turnsOfLives : List Turn :=
  [.ofSegment 0 1000 80 10 .fin [97], .ofSegment 0 80 1000 20 .fin [], .ofSegment 0 1000 80 30 ⟨0⟩ [98],
    .ofSegment 1 1000 80 30 .syn [99],
    { deed := .act 0 0 (.remove (.of (Host.endpoint (.v4 1) 1000) (Host.endpoint (.v4 1) 80))) },
    { deed := .act 1 0 .flushAll }, .ofSegment 0 1000 80 40 .syn []]

theorem stream_lifecycle_of_four :
    (∀ t ∈ turnsOfLives, t.Calm) ∧ (∀ t ∈ turnsOfLives, t.deed.Within 2 1) ∧
      let incidents := (fresh 2 [8]).incidents turnsOfLives
      let s := (fresh 2 [8]).after turnsOfLives
      (s.nextStream, incidents.length) = (4, 13) ∧
        (∃ place, Life 1 (Incident.about 1 incidents) place) ∧
        (s.state 0 0).Underway ∧ s.Proceeds (.ofSegment 0 80 1000 50 .rst [100]) := by
  have hcalm : ∀ t ∈ turnsOfLives, t.Calm := by simp [turnsOfLives, Turn.ofSegment, Turn.Calm]
  have hin : ∀ t ∈ turnsOfLives, t.deed.Within 2 1 := by decide
  obtain ⟨hlives, hunder, hnext⟩ := stream_lifecycle 2 [8] turnsOfLives hcalm hin
  obtain ⟨place, hlife, -⟩ := hlives 1
  exact ⟨hcalm, hin, by decide, ⟨place, hlife⟩, hunder 0 0, hnext _ (fun _ => rfl) (by decide)⟩

end Session
end TcpStreams
