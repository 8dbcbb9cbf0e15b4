import TcpStreams.Reassembly

/-!
# Actions

Every call that changes the state of reassembly, as a value.  Several reassemblers at work on one
state are told apart by the settings in their actions.
-/

namespace TcpStreams

/-- A call that changes the state of reassembly. -/
inductive Action where
  /-- A reassembler works a segment in, while some connections are in use elsewhere. -/
  | receive (config : Config) (locked : List FlowId) (path : Route) (segment : Segment)
  /-- A reassembler winds up every connection, in an order of choice. -/
  | flushAll (order : List FlowId := [])
  /-- A reassembler winds up the connections without activity since a time. -/
  | flushBefore (cutoff : Nat)
  /-- A reassembler winds up the connections that were idle for too long. -/
  | flushIdle (config : Config)
  /-- A connection is looked up, and opened if need be. -/
  | lookUp (flow : FlowId) (src : Endpoint)
  /-- A connection is taken out unfinished. -/
  | remove (flow : FlowId)

/-- What an action answers. -/
inductive Answer where
  /-- Nothing. -/
  | done
  /-- A number of connections. -/
  | count (n : Nat)
  /-- A connection. -/
  | connection (c : Connection)
  /-- Whether there was a connection. -/
  | found (b : Bool)

/-- The outcome with its answer put into another form. -/
def Outcome.map {α β : Type} (f : α → β) (o : Outcome α) : Outcome β :=
  { state := o.state, result := o.result.map f, events := o.events, notes := o.notes }

/-- Performs an action at a time. -/
def Reassembly.perform (fails : Event → Bool) (now : Nat) (s : Reassembly) :
    Action → Outcome Answer
  | .receive config locked path segment =>
    (s.receive fails config locked path segment now).map fun _ => .done
  | .flushAll order => (s.flushAll fails order).map .count
  | .flushBefore cutoff => (s.flushBefore fails cutoff).map .count
  | .flushIdle config => (s.flushIdle fails config now).map .count
  | .lookUp flow src => (s.lookUp fails flow src now).map .connection
  | .remove flow => (s.remove flow).map .found

end TcpStreams
