import TcpStreams.Connection

/-!
# Registries

The live connections, at most one for a conversation, in the order of their last activity: the one
that was touched longest ago comes first.  Every look-up that may open a connection is one tick of the
registry; a connection keeps the tick and the time of its last look-up.

* `Registry.flowsIn_perm`, `Registry.flowsIn_of_perm`: the live conversations can be had in every order.
-/

namespace TcpStreams

/-- A live connection and its last activity. -/
structure Entry where
  /-- The connection. -/
  connection : Connection
  /-- The time of its last activity. -/
  lastUsed : Nat
  /-- The tick of its last activity. -/
  lastTick : Nat
deriving DecidableEq

/-- The conversation that an entry is about. -/
def Entry.flow (entry : Entry) : FlowId := entry.connection.flow

/-- The live connections. -/
structure Registry where
  /-- The entries, the least recently active first. -/
  entries : List Entry := []
  /-- The number of look-ups so far that could have opened a connection. -/
  tick : Nat := 0
deriving DecidableEq

namespace Registry

/-- The entry of a conversation. -/
def entry? (r : Registry) (flow : FlowId) : Option Entry :=
  r.entries.find? fun entry => decide (entry.flow = flow)

/-- The connection of a conversation. -/
def find? (r : Registry) (flow : FlowId) : Option Connection :=
  (r.entry? flow).map Entry.connection

/-- The registry without the connection of a conversation. -/
def erase (r : Registry) (flow : FlowId) : Registry :=
  { r with entries := r.entries.filter fun entry => decide (entry.flow ≠ flow) }

/-- Looks a conversation up for activity at time `now`; a connection found becomes the most recently
active one. -/
def visit (r : Registry) (flow : FlowId) (now : Nat) : Option Connection × Registry :=
  let tick := r.tick + 1
  match r.entry? flow with
  | none => (none, { r with tick })
  | some entry =>
    let entry := { entry with lastUsed := now, lastTick := tick }
    (some entry.connection, { entries := (r.erase flow).entries ++ [entry], tick })

/-- Adds a connection as the most recently active one. -/
def insert (r : Registry) (connection : Connection) (now : Nat) : Registry :=
  { r with entries := r.entries ++ [{ connection, lastUsed := now, lastTick := r.tick }] }

/-- Puts a connection in the place of the one of the same conversation. -/
def replace (r : Registry) (connection : Connection) : Registry :=
  { r with
    entries := r.entries.map fun entry =>
      if entry.flow = connection.flow then { entry with connection } else entry }

/-- The conversations, the least recently active first. -/
def flows (r : Registry) : List FlowId := r.entries.map Entry.flow

/-- The conversations in an order of choice: in the one given if it is an order of just these, or else
the least recently active first. -/
def flowsIn (r : Registry) (order : List FlowId) : List FlowId :=
  if order.Perm r.flows then order else r.flows

/-- The conversations other than one, the least recently active first. -/
def flowsExcept (r : Registry) (flow : FlowId) : List FlowId :=
  r.flows.filter fun other => decide (other ≠ flow)

/-- The conversations without activity since a time, the least recently active first. -/
def idleFlows (r : Registry) (cutoff : Nat) : List FlowId :=
  (r.entries.filter fun entry => decide (entry.lastUsed < cutoff)).map Entry.flow

/-- The number of live connections. -/
def size (r : Registry) : Nat := r.entries.length

/-- The live connections in the order of their conversations. -/
def sorted (r : Registry) : List Connection :=
  (r.entries.map Entry.connection).mergeSort fun a b => (a.flow.compare b.flow).isLE

/-- In any order of choice they are the same conversations. -/
theorem flowsIn_perm (r : Registry) (order : List FlowId) : (r.flowsIn order).Perm r.flows := by
  rw [flowsIn]
  split
  · assumption
  · exact .refl _

/-- Every order of the conversations can be chosen. -/
theorem flowsIn_of_perm {r : Registry} {order : List FlowId} (h : order.Perm r.flows) :
    r.flowsIn order = order := if_pos h

end Registry

end TcpStreams
