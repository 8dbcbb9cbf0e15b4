import TcpStreams.Proofs.Kinship
import TcpStreams.Proofs.Accounts

/-!
# Calls in which no consumer breaks down

What the calls of a reassembler lead to, in closed form, when no consumer breaks down: which connections
are live afterwards, what the consumers saw, and which pages went back to the arena.

* `Registry.find?_erase`, `Registry.find?_insert`, `Registry.find?_replace`: who is found in a registry
  after each of its operations.
* `Reassembly.lookUp_found`, `Reassembly.lookUp_opened`: who is found once a conversation was looked up,
  whether or not its consumer breaks down.
* `Reassembly.lookUp_known`, `Reassembly.lookUp_new`: a connection is found, or opened.
* `Arrival.finish_of_calm`: the chunks of a segment are handed over, and a stream that is over is
  concluded.
* `Reassembly.windUp_known`: a connection is closed, its chunks are handed over, its stream is concluded.
-/

namespace TcpStreams

/-! ## Finding connections -/

namespace Registry

variable (r : Registry) (flow other : FlowId) (c : Connection)

/-- The record found is that of the conversation sought. -/
theorem flow_of_found {e : Entry} (h : r.entry? flow = some e) : e.flow = flow := by
  have := List.find?_some h
  exact of_decide_eq_true this

theorem find?_erase : (r.erase other).find? flow = if flow = other then none else r.find? flow := by
  rw [find?, Registry.entry?, erase, List.find?_filter]
  split
  · next h =>
      subst h
      rw [List.find?_eq_none.2 fun e _ => by simp]
      rfl
  · next h =>
      rw [find?, Registry.entry?]
      congr 2
      funext e
      by_cases he : e.flow = flow
      · simp [he, h]
      · simp [he]

theorem visit_eq (now : Nat) :
    (r.visit other now).1 = r.find? other ∧ (r.visit other now).2.find? flow = r.find? flow := by
  rw [visit]
  cases he : r.entry? other with
  | none => exact ⟨by rw [find?, he]; rfl, rfl⟩
  | some entry =>
      have hfound : r.find? other = some entry.connection := by rw [find?, he]; rfl
      have hflow : entry.connection.flow = other := r.flow_of_found other he
      refine ⟨hfound.symm, ?_⟩
      have hrest := r.find?_erase flow other
      rw [find?, Registry.entry?] at hrest ⊢
      rw [List.find?_append, Option.map_or, hrest]
      by_cases h : flow = other
      · rw [if_pos h, h, hfound]
        simp [Entry.flow, hflow]
      · rw [if_neg h]
        simp [Entry.flow, hflow, Ne.symm h]

theorem find?_insert (h : r.find? c.flow = none) (now : Nat) :
    (r.insert c now).find? flow = if flow = c.flow then some c else r.find? flow := by
  rw [find?, Registry.entry?, insert, List.find?_append, Option.map_or]
  show (r.find? flow).or _ = _
  split
  · next heq =>
      rw [heq, h]
      simp [Entry.flow]
  · next heq => simp [Entry.flow, Ne.symm heq]

theorem find?_replace :
    (r.replace c).find? flow =
      if flow = c.flow then (r.find? flow).map fun _ => c else r.find? flow := by
  have hsame : ∀ e : Entry, decide ((if e.flow = c.flow then { e with connection := c } else e).flow =
      flow) = decide (e.flow = flow) := by
    intro e
    split
    · next h => rw [h]; rfl
    · rfl
  rw [find?, Registry.entry?, replace, List.find?_map]
  simp only [Function.comp_def, hsame]
  show Option.map _ (Option.map _ (r.entry? flow)) = _
  rw [find?]
  cases he : r.entry? flow with
  | none => simp
  | some e =>
      have hflow := r.flow_of_found flow he
      simp only [Option.map_some, hflow]
      split <;> rfl

theorem erase_replace : (r.replace c).erase c.flow = r.erase c.flow := by
  rw [erase, erase, replace]
  congr 1
  induction r.entries with
  | nil => rfl
  | cons e rest ih =>
      by_cases he : e.connection.flow = c.flow <;> simpa [Entry.flow, he] using ih

end Registry

namespace Reassembly

variable {s : Reassembly} {fails : Event → Bool} {flow : FlowId} {src : Endpoint} {now : Nat}
  {c c' : Connection}

/-! ## The connections of a state -/

theorem find?_eq_some (h : s.registry.find? flow = some c) : c ∈ s.connections ∧ c.flow = flow := by
  obtain ⟨e, he, rfl⟩ := Option.map_eq_some_iff.1 h
  exact ⟨List.mem_map_of_mem (List.mem_of_find?_eq_some he), s.registry.flow_of_found flow he⟩

theorem find?_eq_none (h : s.registry.find? flow = none) : ∀ c ∈ s.connections, c.flow ≠ flow := by
  intro c hc hf
  obtain ⟨e, he, rfl⟩ := List.mem_map.1 hc
  exact List.find?_eq_none.1 (Option.map_eq_none_iff.1 h) e he (decide_eq_true hf)

theorem find?_of_mem (hd : s.DistinctFlows) (hc : c ∈ s.connections) :
    s.registry.find? c.flow = some c := by
  cases h : s.registry.find? c.flow with
  | none => exact absurd rfl (find?_eq_none h c hc)
  | some c' =>
      obtain ⟨hc', hf⟩ := find?_eq_some h
      rw [List.inj_on_of_nodup_map hd hc' hc hf]

/-- The connection of a conversation goes. -/
theorem connections_erase (s' : Reassembly) (h : s'.registry = s.registry.erase flow) :
    s'.connections = s.connections.filter fun c => decide (c.flow ≠ flow) := by
  rw [connections, connections, h, Registry.erase, List.filter_map]
  rfl

/-- A connection takes the place of that of its conversation. -/
theorem connections_replaced (s' : Reassembly) (h : s'.registry = s.registry.replace c') :
    s'.connections = s.connections.map fun c => if c.flow = c'.flow then c' else c := by
  rw [connections, connections, h, Registry.replace, List.map_map, List.map_map]
  refine List.map_congr_left fun e _ => ?_
  simp only [Function.comp]
  by_cases he : e.connection.flow = c'.flow <;> simp [Entry.flow, he]

/-- The connection of a conversation goes. -/
theorem DistinctFlows.erase (hd : s.DistinctFlows) {s' : Reassembly}
    (h : s'.registry = s.registry.erase flow) : s'.DistinctFlows := by
  rw [DistinctFlows, connections_erase s' h]
  exact (List.filter_sublist.map _).nodup hd

/-- A connection of a conversation that has none is added. -/
theorem DistinctFlows.opened (hd : s.DistinctFlows) {s' : Reassembly}
    (hnone : s.registry.find? c.flow = none) (h : s'.connections = s.connections ++ [c]) :
    s'.DistinctFlows := by
  rw [DistinctFlows, h, List.map_append, List.nodup_append]
  refine ⟨hd, List.nodup_singleton _, fun f hf g hg heq => ?_⟩
  obtain ⟨x, hx, rfl⟩ := List.mem_map.1 hf
  obtain rfl := List.mem_singleton.1 hg
  exact find?_eq_none hnone x hx heq

/-! ## Looking a connection up -/

/-- A connection that is there is found. -/
theorem lookUp_found (h : s.registry.find? flow = some c) (src : Endpoint) :
    let o := s.lookUp fails flow src now
    o.result = .ok c ∧ o.events = [] ∧ o.state.nextStream = s.nextStream ∧
      ∀ other, o.state.registry.find? other = s.registry.find? other := by
  have hvisit := fun other => s.registry.visit_eq other flow now
  rw [lookUp]
  generalize s.registry.visit flow now = visited at hvisit
  obtain ⟨found, registry⟩ := visited
  obtain rfl : found = some c := (hvisit flow).1.trans h
  exact ⟨rfl, rfl, rfl, fun other => (hvisit other).2⟩

/-- One that is not is opened with the next stream, unless its consumer breaks down. -/
theorem lookUp_opened (h : s.registry.find? flow = none) (src : Endpoint) :
    let o := s.lookUp fails flow src now
    let opened := Event.opened s.nextStream flow
    let c := Connection.new flow src s.nextStream now
    o.result = (if fails opened then .error opened.call else .ok c) ∧ o.events = [opened] ∧
      o.state.nextStream = s.nextStream + 1 ∧
      ∀ other, o.state.registry.find? other =
        if other = flow then (if fails opened then none else some c) else s.registry.find? other := by
  have hvisit := fun other => s.registry.visit_eq other flow now
  rw [lookUp]
  generalize s.registry.visit flow now = visited at hvisit
  obtain ⟨found, registry⟩ := visited
  obtain rfl : found = none := (hvisit flow).1.trans h
  have hsame : ∀ other, registry.find? other = s.registry.find? other := fun other => (hvisit other).2
  cases hf : fails (.opened s.nextStream flow) with
  | true =>
      simp only [hf, if_true, true_and]
      intro other
      rw [hsame]
      split
      · next heq => rw [heq, h]
      · rfl
  | false =>
      simp only [hf, Bool.false_eq_true, if_false, true_and]
      intro other
      rw [← hsame]
      exact registry.find?_insert other _ ((hsame flow).trans h) now

/-- A connection that is live is found; only its activity changes. -/
theorem lookUp_known (hd : s.DistinctFlows) (h : s.registry.find? flow = some c) :
    (s.lookUp fails flow src now).result = .ok c ∧
      (s.lookUp fails flow src now).events = [] ∧
      (s.lookUp fails flow src now).state.connections.Perm s.connections ∧
      (s.lookUp fails flow src now).state.arena = s.arena ∧
      (s.lookUp fails flow src now).state.nextStream = s.nextStream := by
  obtain ⟨hmem, hflow⟩ := find?_eq_some h
  obtain ⟨e, he, rfl⟩ := Option.map_eq_some_iff.1 h
  have hperm := Upheld.touch_perm hd hmem hflow
  simp only [lookUp, Registry.visit, he, true_and, and_true]
  rw [connections, List.filter_map] at hperm
  simp only [connections, List.map_append]
  exact hperm

theorem distinct_lookUp (hd : s.DistinctFlows) (fails : Event → Bool) (flow : FlowId) (src : Endpoint)
    (now : Nat) : (s.lookUp fails flow src now).state.DistinctFlows := by
  cases hfind : s.registry.find? flow with
  | some c =>
      obtain ⟨-, -, hperm, -⟩ := @lookUp_known s fails flow src now c hd hfind
      exact (hperm.map Connection.flow).nodup_iff.2 hd
  | none =>
      have hentry : s.registry.entry? flow = none := Option.map_eq_none_iff.1 hfind
      simp only [lookUp, Registry.visit, hentry]
      split
      · exact hd
      · refine hd.opened (c := Connection.new flow src s.nextStream now) hfind ?_
        simp [connections, Registry.insert]

/-- One that is not is opened, with the next stream. -/
theorem lookUp_new (hok : ∀ event, fails event = false) (h : s.registry.find? flow = none) :
    (s.lookUp fails flow src now).result = .ok (Connection.new flow src s.nextStream now) ∧
      (s.lookUp fails flow src now).events = [.opened s.nextStream flow] ∧
      (s.lookUp fails flow src now).state.connections =
        s.connections ++ [Connection.new flow src s.nextStream now] ∧
      (s.lookUp fails flow src now).state.arena = s.arena ∧
      (s.lookUp fails flow src now).state.nextStream = s.nextStream + 1 := by
  have he : s.registry.entry? flow = none := Option.map_eq_none_iff.1 h
  simp only [lookUp, Registry.visit, he, hok, Bool.false_eq_true, if_false, true_and, and_true]
  rw [connections, Registry.insert, List.map_append]
  rfl

/-! ## Handing over and concluding -/

/-- Chunks are handed over, and the consumer comes through. -/
theorem handOver_of_returns {c' : Connection} {payload : List UInt8} {chunks : List Chunk}
    (h : fails (.delivered c'.stream c'.flow (chunks.map (Chunk.delivery payload))) = false) :
    s.handOver fails c' payload chunks =
      { state := { s with registry := s.registry.replace c'
                          arena := s.arena.giveAll (Chunk.pages chunks) }
        result := .ok ()
        events := [.delivered c'.stream c'.flow (chunks.map (Chunk.delivery payload))] } := by
  simp only [handOver, h, Bool.false_eq_true, if_false]
  rfl

/-- Chunks are handed over, and the consumer breaks down. -/
theorem handOver_of_breaks {c' : Connection} {payload : List UInt8} {chunks : List Chunk}
    (h : fails (.delivered c'.stream c'.flow (chunks.map (Chunk.delivery payload))) = true) :
    s.handOver fails c' payload chunks =
      { state := { s with registry := s.registry.replace c' }
        result := .error .delivery
        events := [.delivered c'.stream c'.flow (chunks.map (Chunk.delivery payload))] } := by
  simp only [handOver, h, if_true]
  rfl

/-- A stream is concluded, and the consumer comes through. -/
theorem conclude_of_returns (h : fails (.completed c.stream c.flow) = false) :
    s.conclude fails c =
      { state := { s with registry := s.registry.erase c.flow, arena := s.arena.giveAll c.pages }
        result := .ok ()
        events := [.completed c.stream c.flow]
        notes := [.completed c.flow] } := by
  simp only [conclude, h, Bool.false_eq_true, if_false]

/-- What came through was handed over. -/
theorem handOver_of_ok {c' : Connection} {payload : List UInt8} {chunks : List Chunk} {u : Unit}
    (h : (s.handOver fails c' payload chunks).result = .ok u) :
    s.handOver fails c' payload chunks =
      { state := { s with registry := s.registry.replace c'
                          arena := s.arena.giveAll (Chunk.pages chunks) }
        result := .ok ()
        events := [.delivered c'.stream c'.flow (chunks.map (Chunk.delivery payload))] } := by
  refine handOver_of_returns (eq_false_of_ne_true fun hbreaks => ?_)
  rw [handOver_of_breaks hbreaks] at h
  cases h

/-- What came through was concluded. -/
theorem conclude_of_ok {u : Unit} (h : (s.conclude fails c).result = .ok u) :
    s.conclude fails c =
      { state := { s with registry := s.registry.erase c.flow, arena := s.arena.giveAll c.pages }
        result := .ok ()
        events := [.completed c.stream c.flow]
        notes := [.completed c.flow] } := by
  refine conclude_of_returns (eq_false_of_ne_true fun hbreaks => ?_)
  simp only [conclude, hbreaks, if_true] at h
  cases h

theorem handOver_of_calm (hok : ∀ event, fails event = false) (c' : Connection)
    (payload : List UInt8) (chunks : List Chunk) (s : Reassembly) :
    s.handOver fails c' payload chunks =
      { state := { s with registry := s.registry.replace c'
                          arena := s.arena.giveAll (Chunk.pages chunks) }
        result := .ok ()
        events := [.delivered c'.stream c'.flow (chunks.map (Chunk.delivery payload))] } :=
  handOver_of_returns (hok _)

theorem conclude_of_calm (hok : ∀ event, fails event = false) (c' : Connection) (s : Reassembly) :
    s.conclude fails c' =
      { state := { s with registry := s.registry.erase c'.flow
                          arena := s.arena.giveAll c'.pages }
        result := .ok ()
        events := [.completed c'.stream c'.flow]
        notes := [.completed c'.flow] } := conclude_of_returns (hok _)

end Reassembly

/-- What a segment that arrived leaves of its connection: its stream is concluded if both directions are
over, and it waits for more if not. -/
theorem Arrival.finish_of_calm {fails : Event → Bool} (hok : ∀ event, fails event = false)
    (a : Arrival) :
    let c := a.work.connection
    let handed : Reassembly :=
      { a.worked with registry := a.worked.registry.replace c
                      arena := a.worked.arena.giveAll (Chunk.pages a.work.chunks) }
    (a.finish fails).state =
        (if c.isOver then { handed with registry := handed.registry.erase c.flow
                                        arena := handed.arena.giveAll c.pages } else handed) ∧
      (a.finish fails).result = .ok () ∧
      (a.finish fails).events =
        .delivered c.stream c.flow (a.work.chunks.map (Chunk.delivery a.segment.payload)) ::
          if c.isOver then [.completed c.stream c.flow] else [] := by
  simp only [finish, Reassembly.handOver_of_calm hok, Outcome.after, Outcome.andThen]
  cases a.work.connection.isOver with
  | true => simp only [if_true, Reassembly.conclude_of_calm hok, List.singleton_append, and_self]
  | false => exact ⟨rfl, rfl, rfl⟩

namespace Reassembly

variable {s : Reassembly} {fails : Event → Bool} {flow : FlowId} {now : Nat} {c : Connection}
  {config : Config} {locked : List FlowId} {path : Route} {segment : Segment}

/-- The conversations of the connections are what they were before the work on a segment. -/
theorem distinct_worked {a : Arrival} (hd : a.state.DistinctFlows)
    (hc : a.connection ∈ a.state.connections) :
    a.worked.DistinctFlows ∧ ∃ c ∈ a.worked.connections, c.flow = a.work.connection.flow := by
  obtain ⟨hkin, -, -, hentries⟩ := a.continues_work
  have hflows : a.worked.connections.map Connection.flow = a.state.connections.map Connection.flow := by
    rw [connections, connections, List.map_map, List.map_map]
    exact map_eq_of_forall₂ hentries fun _ _ h => h.continues.connection.kin.flow
  constructor
  · rw [DistinctFlows, hflows]
    exact hd
  · have hmem := List.mem_map_of_mem (f := Connection.flow) hc
    rw [← hflows, ← hkin.flow] at hmem
    exact List.mem_map.1 hmem

/-- **A segment is worked in**: it arrives at the connection found or opened for it. -/
theorem receive_of_calm (hok : ∀ event, fails event = false)
    (hd : s.DistinctFlows) :
    ∃ a, s.arrivals ⟨fails, now, .receive config locked path segment⟩ = [a] ∧
      a.state = (s.lookUp fails (segment.flow path) (segment.src path) now).state ∧
      (s.lookUp fails (segment.flow path) (segment.src path) now).result = .ok a.connection ∧
      (s.receive fails config locked path segment now).state = (a.finish fails).state ∧
      (s.receive fails config locked path segment now).result = .ok () ∧
      (s.receive fails config locked path segment now).events =
        (s.lookUp fails (segment.flow path) (segment.src path) now).events ++
          (a.finish fails).events := by
  obtain ⟨c, hres⟩ : ∃ c, (s.lookUp fails (segment.flow path) (segment.src path) now).result = .ok c := by
    cases h : s.registry.find? (segment.flow path) with
    | none => exact ⟨_, (lookUp_new hok h).1⟩
    | some c => exact ⟨c, (lookUp_known hd h).1⟩
  let a : Arrival :=
    { config, locked, segment, connection := c, direction := c.directionFrom (segment.src path)
      state := (s.lookUp fails (segment.flow path) (segment.src path) now).state }
  refine ⟨a, ?_, rfl, hres, ?_, ?_, ?_⟩
  · simp only [arrivals, hres, a]
  · rw [receive, Outcome.andThen, hres]
    rfl
  · rw [receive, Outcome.andThen, hres]
    exact (Arrival.finish_of_calm hok a).2.1
  · rw [receive, Outcome.andThen, hres]
    rfl

/-- Winding up does nothing about a conversation that is not live. -/
theorem windUp_unknown (h : s.registry.find? flow = none) :
    s.windUp fails flow = answer false s := by
  rw [windUp, h]

/-- **A connection is wound up**: it is closed, its chunks are handed over, its stream is concluded. -/
theorem windUp_known (hok : ∀ event, fails event = false) (h : s.registry.find? flow = some c) :
    let c' := c.close.value
    (s.windUp fails flow).state =
        { s with
          registry := (s.registry.replace c').erase c'.flow
          arena := ((s.arena.giveAll c.close.freed).giveAll (Chunk.pages c.close.chunks)).giveAll
            c'.pages } ∧
      (s.windUp fails flow).result = .ok true ∧
      (s.windUp fails flow).events =
        [.delivered c'.stream c'.flow (c.close.chunks.map (Chunk.delivery [])),
          .completed c'.stream c'.flow] := by
  simp only [windUp, h, handOver_of_calm hok, conclude_of_calm hok, Outcome.after, Outcome.andThen,
    answer, List.append_nil, List.singleton_append, and_self]

/-- Winding several connections up goes on with the others unless it fails with the first. -/
theorem windUpAll_of_ok {found : Bool} (h : (s.windUp fails flow).result = .ok found)
    (rest : List FlowId) :
    let s' := (s.windUp fails flow).state
    (s.windUpAll fails (flow :: rest)).state = (s'.windUpAll fails rest).state ∧
      (s.windUpAll fails (flow :: rest)).events =
        (s.windUp fails flow).events ++ (s'.windUpAll fails rest).events := by
  rw [windUpAll, Outcome.andThen, h]
  simp only [Outcome.andThen]
  cases ((s.windUp fails flow).state.windUpAll fails rest).result with
  | error call => exact ⟨rfl, rfl⟩
  | ok count => exact ⟨rfl, congrArg _ (List.append_nil _)⟩

/-- Winding several connections up, one after the other. -/
theorem windUpAll_cons (hok : ∀ event, fails event = false) (flow : FlowId) (rest : List FlowId)
    (s : Reassembly) :
    (s.windUpAll fails (flow :: rest)).state = ((s.windUp fails flow).state.windUpAll fails rest).state ∧
      (s.windUpAll fails (flow :: rest)).events = (s.windUp fails flow).events ++
        ((s.windUp fails flow).state.windUpAll fails rest).events ∧
      ∃ n, ((s.windUp fails flow).state.windUpAll fails rest).result = .ok n := by
  have hfound : ∀ (s : Reassembly) flow, ∃ found, (s.windUp fails flow).result = .ok found := by
    intro s flow
    cases h : s.registry.find? flow with
    | none => exact ⟨false, by rw [windUp_unknown h]; rfl⟩
    | some c => exact ⟨true, (windUp_known hok h).2.1⟩
  have hcount : ∀ (rest : List FlowId) (s : Reassembly),
      ∃ n, (s.windUpAll fails rest).result = .ok n := by
    intro rest
    induction rest with
    | nil => exact fun s => ⟨0, rfl⟩
    | cons flow rest ih =>
        intro s
        obtain ⟨found, hf⟩ := hfound s flow
        obtain ⟨n, hn⟩ := ih (s.windUp fails flow).state
        refine ⟨if found then n + 1 else n, ?_⟩
        simp only [windUpAll, Outcome.andThen, hf, hn, answer]
  obtain ⟨found, hf⟩ := hfound s flow
  obtain ⟨hstate, hevents⟩ := windUpAll_of_ok hf rest
  exact ⟨hstate, hevents, hcount rest (s.windUp fails flow).state⟩

end Reassembly
end TcpStreams
