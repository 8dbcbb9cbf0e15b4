import TcpStreams.Config
import TcpStreams.Event
import TcpStreams.Work

/-!
# Reassembly

The state that reassemblers share, and what they do with it: `Reassembly.receive` works one segment
in, the flushes wind up the connections that nothing more is expected on.

Every call works on the state, tells the consumers, and writes the log; an `Outcome` holds all three.
A consumer that breaks down ends the call: the outcome is the state reached by then, and names the
kind of call that failed.

* `Reassembly.receive` hands every segment's chunks over in one delivery, and concludes the stream
  when both directions are over.
* `Reassembly.windUp` closes a connection, hands over all that waits in one delivery, and concludes
  the stream.
-/

namespace TcpStreams

/-- What reassemblers share. -/
structure Reassembly where
  /-- The live connections. -/
  registry : Registry
  /-- The pages. -/
  arena : Arena
  /-- The number of the next stream. -/
  nextStream : Nat := 0

/-- What a call led to. -/
structure Outcome (α : Type) where
  /-- The state that the call reached. -/
  state : Reassembly
  /-- The answer, or the kind of call in which a consumer broke down. -/
  result : Except ConsumerCall α
  /-- What the consumers saw. -/
  events : List Event := []
  /-- The log records. -/
  notes : List Note := []

namespace Outcome

variable {α β : Type}

/-- Goes on with the answer, unless a consumer broke down. -/
def andThen (o : Outcome α) (f : α → Reassembly → Outcome β) : Outcome β :=
  match o.result with
  | .error call => { state := o.state, result := .error call, events := o.events, notes := o.notes }
  | .ok a =>
    let next := f a o.state
    { next with events := o.events ++ next.events, notes := o.notes ++ next.notes }

/-- An outcome with more log records before its own. -/
def after (notes : List Note) (o : Outcome α) : Outcome α :=
  { o with notes := notes ++ o.notes }

end Outcome

namespace Reassembly

/-- Does nothing but answer. -/
def answer {α : Type} (a : α) (s : Reassembly) : Outcome α := { state := s, result := .ok a }

variable (fails : Event → Bool)

/-! ## Calls to a consumer -/

/-- The connection of a conversation, opened with `src` as its opener if there is none.  A stream
whose consumer breaks down at once leaves no connection behind. -/
def lookUp (flow : FlowId) (src : Endpoint) (now : Nat) (s : Reassembly) : Outcome Connection :=
  match s.registry.visit flow now with
  | (some connection, registry) =>
    { state := { s with registry }, result := .ok connection }
  | (none, registry) =>
    let stream := s.nextStream
    let event := Event.opened stream flow
    let s := { s with registry, nextStream := stream + 1 }
    let events := [event]
    let notes := [Note.opened flow]
    if fails event then { state := s, result := .error event.call, events, notes }
    else
      let connection := Connection.new flow src stream now
      { state := { s with registry := registry.insert connection now }
        result := .ok connection, events, notes }

/-- Hands chunks over in one delivery.  Their pages go back to the arena afterwards; if the consumer
breaks down they are lost. -/
def handOver (connection : Connection) (payload : List UInt8) (chunks : List Chunk)
    (s : Reassembly) : Outcome Unit :=
  let event :=
    Event.delivered connection.stream connection.flow (chunks.map (Chunk.delivery payload))
  let s := { s with registry := s.registry.replace connection }
  let events := [event]
  if fails event then { state := s, result := .error event.call, events }
  else
    let pages := chunks.filterMap fun chunk => chunk.source.page?
    { state := { s with arena := s.arena.giveAll pages }, result := .ok (), events }

/-- Tells the consumer that its stream is over, and forgets the connection, unless the consumer breaks
down. -/
def conclude (connection : Connection) (s : Reassembly) : Outcome Unit :=
  let event := Event.completed connection.stream connection.flow
  let events := [event]
  if fails event then { state := s, result := .error event.call, events }
  else
    { state :=
        { s with
          registry := s.registry.erase connection.flow
          arena := s.arena.giveAll connection.pages }
      result := .ok ()
      events
      notes := [.completed connection.flow] }

/-! ## A segment -/

/-- Works a segment in for a connection that was looked up.  For a direction that is over there is
nothing to do. -/
def workIn (config : Config) (locked : List FlowId) (direction : Direction) (segment : Segment)
    (connection : Connection) (s : Reassembly) : Work :=
  let work : Work := { connection, entries := s.registry.entries, arena := s.arena }
  if (connection.half direction).isClosed then
    { work with notes := [.ignored connection.flow direction segment.seq] }
  else work.accept config.pagesPerConnection locked direction segment

/-- Works one captured segment in at time `now`, while the connections of `locked` are in use
elsewhere. -/
def receive (config : Config) (locked : List FlowId) (path : Route) (segment : Segment) (now : Nat)
    (s : Reassembly) : Outcome Unit :=
  let src := segment.src path
  (lookUp fails (segment.flow path) src now s).andThen fun connection s =>
    let work := s.workIn config locked (connection.directionFrom src) segment connection
    let s :=
      { s with registry := { s.registry with entries := work.entries }, arena := work.arena }
    ((handOver fails work.connection segment.payload work.chunks s).after work.notes).andThen
      fun _ s =>
        if work.connection.isOver then conclude fails work.connection s else answer () s

/-! ## Flushes -/

/-- Winds up the connection of a conversation, if there is one. -/
def windUp (flow : FlowId) (s : Reassembly) : Outcome Bool :=
  match s.registry.find? flow with
  | none => answer false s
  | some connection =>
    let y := connection.close
    let s := { s with arena := s.arena.giveAll y.freed }
    ((handOver fails y.value [] y.chunks s).after y.notes).andThen fun _ s =>
      (conclude fails y.value s).andThen fun _ s => answer true s

/-- Winds up the connections of several conversations and counts them. -/
def windUpAll : List FlowId → Reassembly → Outcome Nat
  | [], s => answer 0 s
  | flow :: rest, s =>
    (windUp fails flow s).andThen fun found s =>
      (windUpAll rest s).andThen fun count s => answer (if found then count + 1 else count) s

/-- Winds up every connection, in an order of choice, and counts them. -/
def flushAll (order : List FlowId) (s : Reassembly) : Outcome Nat :=
  windUpAll fails (s.registry.flowsIn order) s

/-- Winds up the connections without activity since a time and counts them. -/
def flushBefore (cutoff : Nat) (s : Reassembly) : Outcome Nat :=
  (windUpAll fails (s.registry.idleFlows cutoff) s).andThen fun count s =>
    { state := s
      result := .ok count
      notes := if 0 < count then [.flushedIdle count] else [] }

/-- Winds up the connections that have been idle for longer than the timeout at time `now`, and
counts them.  There are none without a timeout, or if it reaches back to before time began. -/
def flushIdle (config : Config) (now : Nat) (s : Reassembly) : Outcome Nat :=
  match config.idleSpan with
  | none => answer 0 s
  | some span => if span ≤ now then flushBefore fails (now - span) s else answer 0 s

/-! ## Taking a connection out -/

/-- Takes a connection out unfinished.  Its pages go back to the arena, its consumer is not told.  The
answer says whether there was one. -/
def remove (flow : FlowId) (s : Reassembly) : Outcome Bool :=
  match s.registry.find? flow with
  | none => answer false s
  | some connection =>
    { state :=
        { s with
          registry := s.registry.erase flow
          arena := s.arena.giveAll connection.pages }
      result := .ok true
      notes := [.removed flow] }

end Reassembly

end TcpStreams
