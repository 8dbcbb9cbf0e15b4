import TcpStreams.Fault
import TcpStreams.Reassembly.Action

/-!
# Workers

A reassembler behind a bounded queue.  Callers submit requests, the worker serves them in the order
in which they were submitted, and replies to those that await an answer.

A worker in which a consumer breaks down is gone: the request under way and all that are queued are
lost, every answer still awaited is `Fault.queueClosed`, and so is every answer from then on.

* `Worker.submit` and `Worker.serve` are the two steps that may alternate in any way.
* `Worker.stop` serves what is queued and winds up every connection that is left.
-/

namespace TcpStreams

/-- What a worker is asked to do. -/
inductive Request where
  /-- Work a segment in; no answer is awaited. -/
  | receive (path : Route) (segment : Segment)
  /-- Wind up every connection, in an order of choice, and count them. -/
  | flushAll (order : List FlowId := [])
  /-- Wind up the connections without activity since a time and count them. -/
  | flushBefore (cutoff : Nat)
deriving DecidableEq

namespace Request

/-- Whether an answer is awaited. -/
def isAwaited : Request → Bool
  | receive .. => false
  | flushAll _ | flushBefore _ => true

/-- The action that a request asks for, with no connection in use elsewhere. -/
def action (config : Config) : Request → Action
  | receive path segment => .receive config [] path segment
  | flushAll order => .flushAll order
  | flushBefore cutoff => .flushBefore cutoff

end Request

/-- The number that a flush answers. -/
def Answer.size : Answer → Nat
  | .count n => n
  | .done | .connection _ | .found _ => 0

/-- A reassembler behind a queue. -/
structure Worker where
  /-- The settings of the reassembler. -/
  config : Config
  /-- The number of requests that may be queued. -/
  capacity : Nat
  /-- The state that it works on. -/
  state : Reassembly
  /-- The requests queued, each with its ticket. -/
  queue : List (Nat × Request) := []
  /-- The ticket of the next request. -/
  nextTicket : Nat := 0
  /-- Whether the worker is there. -/
  alive : Bool := true
  /-- The answers given so far, by ticket. -/
  answers : List (Nat × Except Fault Nat) := []

/-- What becomes of a request that is submitted. -/
inductive Submission where
  /-- It is queued under this ticket. -/
  | queued (ticket : Nat)
  /-- The queue is full; it may be submitted again. -/
  | full
  /-- The worker is gone. -/
  | refused (fault : Fault)

/-- What a worker did. -/
structure Service (α : Type) where
  /-- The worker afterwards. -/
  worker : Worker
  /-- The answer. -/
  answer : α
  /-- What the consumers saw. -/
  events : List Event := []
  /-- The log records. -/
  notes : List Note := []

namespace Worker

/-- A worker with an empty state whose queue holds at least one request. -/
def start (config : Config) (capacity : Nat) : Except Fault Worker :=
  config.check.map fun _ =>
    { config
      capacity := max capacity 1
      state := { registry := {}, arena := Arena.ofCeiling config.totalPages } }

/-- Puts a request at the end of the queue. -/
def submit (w : Worker) (request : Request) : Worker × Submission :=
  if w.alive = false then (w, .refused .queueClosed)
  else if w.capacity ≤ w.queue.length then (w, .full)
  else
    ({ w with queue := w.queue ++ [(w.nextTicket, request)], nextTicket := w.nextTicket + 1 },
      .queued w.nextTicket)

/-- The worker after a consumer broke down: what was queued is lost. -/
def lost (w : Worker) (queue : List (Nat × Request)) : Worker :=
  let awaited := queue.filter fun (_, request) => request.isAwaited
  let answers := awaited.map fun (ticket, _) => (ticket, .error Fault.queueClosed)
  { w with queue := [], alive := false, answers := w.answers ++ answers }

/-- Serves the first request of the queue, if there is one.

To take it out and to perform it is one step, so a request keeps its place in the queue until it is
done.  A queue in which the place is free again as soon as the request is taken out has room for one
more while a request is under way: there may be `capacity + 1` in all, here only `capacity`.  That
makes a difference to how long a caller waits, and none to the order of the requests. -/
def serve (fails : Event → Bool) (now : Nat) (w : Worker) : Service Unit :=
  match w.queue with
  | [] => { worker := w, answer := () }
  | (ticket, request) :: rest =>
    let o := w.state.perform fails now (request.action w.config)
    let w := { w with state := o.state }
    let worker :=
      match o.result with
      | .error _ => w.lost ((ticket, request) :: rest)
      | .ok answer =>
        let answers := if request.isAwaited then [(ticket, .ok answer.size)] else []
        { w with queue := rest, answers := w.answers ++ answers }
    { worker, answer := (), events := o.events, notes := o.notes }

/-- Serves so many requests, or all there are. -/
def serveMany (fails : Event → Bool) (now : Nat) : Nat → Worker → Service Unit
  | 0, w => { worker := w, answer := () }
  | count + 1, w =>
    let first := w.serve fails now
    let others := serveMany fails now count first.worker
    { others with
      events := first.events ++ others.events
      notes := first.notes ++ others.notes }

/-- The answer given to a ticket so far. -/
def answerTo (w : Worker) (ticket : Nat) : Option (Except Fault Nat) :=
  w.answers.lookup ticket

/-- Submits a request and lets the worker serve all that is queued.  The answer is the one awaited,
or `none` if none is. -/
def call (fails : Event → Bool) (now : Nat) (w : Worker) (request : Request) :
    Service (Except Fault (Option Nat)) :=
  match w.submit request with
  | (w, .refused fault) => { worker := w, answer := .error fault }
  | (w, .full) => { worker := w, answer := .ok none }
  | (w, .queued ticket) =>
    let service := serveMany fails now w.queue.length w
    let answer :=
      match service.worker.answerTo ticket with
      | none => .ok none
      | some answer => answer.map some
    { worker := service.worker, answer, events := service.events, notes := service.notes }

/-- Serves all that is queued, winds up every connection that is left, in an order of choice, and ends
the worker.  The answer is the number of those connections. -/
def stop (fails : Event → Bool) (now : Nat) (w : Worker) (order : List FlowId := []) :
    Service (Except Fault Nat) :=
  let service := serveMany fails now w.queue.length w
  let w := service.worker
  if w.alive = false then
    { worker := w, answer := .error .queueClosed, events := service.events, notes := service.notes }
  else
    let o := w.state.flushAll fails order
    let worker := { w with state := o.state, alive := false }
    let events := service.events ++ o.events
    let notes := service.notes ++ o.notes
    match o.result with
    | .error _ => { worker, answer := .error .queueClosed, events, notes }
    | .ok count => { worker, answer := .ok count, events, notes := notes ++ [.stopped count] }

end Worker

end TcpStreams
