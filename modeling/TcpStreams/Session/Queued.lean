import TcpStreams.Session.Timeline
import TcpStreams.Worker

/-!
# Queued sessions

A worker and a single caller that waits, after every request, until the worker has served it.  The
session is over once the worker is stopped.
-/

namespace TcpStreams

/-- A worker and the clock of its caller. -/
structure QueuedSession where
  /-- The worker. -/
  worker : Worker
  /-- The clock. -/
  timeline : Timeline := {}

/-- A command of a queued session. -/
inductive QueuedCommand where
  /-- A segment is sent. -/
  | receive (path : Route) (segment : Segment)
  /-- Every connection is to be wound up, in an order of choice. -/
  | flushAll (order : List FlowId := [])
  /-- The connections without activity since a mark are to be wound up. -/
  | flushOlder (mark : Nat)
  /-- The time is marked. -/
  | mark
  /-- The worker is stopped, and winds up what is left in an order of choice. -/
  | stop (order : List FlowId := [])

/-- The reply to a command of a queued session. -/
inductive QueuedReply where
  /-- Nothing to tell. -/
  | nothing
  /-- A number. -/
  | number (n : Nat)
  /-- The command failed. -/
  | fault (fault : Fault)

/-- What a command of a queued session led to. -/
structure QueuedReport where
  /-- The session after it. -/
  session : QueuedSession
  /-- The reply. -/
  reply : QueuedReply
  /-- What the consumers saw. -/
  events : List Event := []
  /-- The log records. -/
  notes : List Note := []

namespace QueuedSession

/-- A session with a worker that has seen nothing. -/
def start (config : Config) (capacity : Nat) : Except Fault QueuedSession :=
  (Worker.start config capacity).map fun worker => { worker }

/-- Sends a request and waits until it is served. -/
def call (fails : Event → Bool) (s : QueuedSession) (request : Request) : QueuedReport :=
  let service := s.worker.call fails s.timeline.now request
  { session := { s with worker := service.worker }
    reply :=
      match service.answer with
      | .error fault => .fault fault
      | .ok none => .nothing
      | .ok (some count) => .number count
    events := service.events
    notes := service.notes }

/-- Performs a command at the time of the step under way. -/
def execute (fails : Event → Bool) (s : QueuedSession) : QueuedCommand → QueuedReport
  | .receive path segment => s.call fails (.receive path segment)
  | .flushAll order => s.call fails (.flushAll order)
  | .flushOlder mark => s.call fails (.flushBefore (s.timeline.timeOf mark))
  | .mark =>
    let (timeline, index) := s.timeline.mark
    { session := { s with timeline }, reply := .number index }
  | .stop order =>
    let service := s.worker.stop fails s.timeline.now order
    { session := { s with worker := service.worker }
      reply :=
        match service.answer with
        | .error fault => .fault fault
        | .ok count => .number count
      events := service.events
      notes := service.notes }

/-- Performs a command; time moves on. -/
def step (fails : Event → Bool) (s : QueuedSession) (command : QueuedCommand) : QueuedReport :=
  let report := s.execute fails command
  { report with
    session := { report.session with timeline := report.session.timeline.advance } }

/-- Performs commands in order, each with the consumers that break down in it, up to the one that
stops the worker. -/
def run (s : QueuedSession) : List ((Event → Bool) × QueuedCommand) → List QueuedReport
  | [] => []
  | (fails, command) :: rest =>
    let report := s.step fails command
    match command with
    | .stop _ => [report]
    | _ => report :: report.session.run rest

end QueuedSession

end TcpStreams
