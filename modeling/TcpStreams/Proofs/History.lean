import Mathlib.Data.List.Induction
import TcpStreams.Reassembly.Action
import TcpStreams.Proofs.Placing

/-!
# Histories

What happened since reassembly began: the segments that arrived, each with what it found, and what the
consumers saw.  The order of the calls, their times, the settings of the reassemblers that make them
and the consumers that break down are all left open; statements about every run are statements about
`Reassembly.history` for every list of calls.

* `Reassembly.windUpAll_induction`: what holds of winding up one connection holds of winding up several.
* `Reassembly.arrivals`: the segment that a call brings to a connection, if it does.
* `Reassembly.history`: what a list of calls leads to.
* `History.deliveries`, `History.arrivalsAt`: what concerns one direction of one stream.
* `Arrival.BeginsStream`, `Arrival.InWindow`: a SYN that sets the first number, and a segment that keeps
  to a window.
-/

namespace TcpStreams

/-- A call that changes the state of reassembly. -/
structure Call where
  /-- The calls to consumers in which they would break down. -/
  fails : Event → Bool
  /-- The time. -/
  now : Nat
  /-- What the call does. -/
  action : Action

/-- A call in which a reassembler works in a segment that one endpoint sends to another, and no consumer
breaks down. -/
def Call.ofSegment (pagesPerConnection seq : Nat) (flags : Flags) (payload : List UInt8) : Call where
  fails _ := false
  now := 0
  action := .receive { pagesPerConnection } [] ⟨.v4 1, .v4 2⟩
    { srcPort := 1, dstPort := 2, seq := SeqNum.ofNat seq, flags, payload }

/-- A segment that arrives at a half-stream. -/
structure Arrival where
  /-- The settings of the reassembler that works it in. -/
  config : Config
  /-- The conversations that are in use elsewhere. -/
  locked : List FlowId
  /-- What the reassemblers share, with the connection of the segment looked up. -/
  state : Reassembly
  /-- The connection of the segment. -/
  connection : Connection
  /-- The direction that the segment travels in. -/
  direction : Direction
  /-- The segment. -/
  segment : Segment

namespace Arrival

/-- The stream that the data of the segment goes to. -/
def stream (a : Arrival) : Nat := a.connection.stream

/-- The half-stream that the segment finds. -/
def half (a : Arrival) : HalfStream := a.connection.half a.direction

/-- The work before it begins. -/
def before (a : Arrival) : Work :=
  { connection := a.connection, entries := a.state.registry.entries, arena := a.state.arena }

/-- The work on the segment. -/
def work (a : Arrival) : Work :=
  a.state.workIn a.config a.locked a.direction a.segment a.connection

/-- The chunks of a direction that the segment leads to, as they are handed over. -/
def deliveries (a : Arrival) (d : Direction) : List Delivery :=
  (Chunk.ofDirection d a.work.chunks).map (Chunk.delivery a.segment.payload)

/-- Work on a segment for a direction that is over does nothing but log. -/
theorem work_of_closed {a : Arrival} (h : a.half.isClosed = true) :
    a.work.connection = a.connection ∧ a.work.entries = a.state.registry.entries ∧
      a.work.arena = a.state.arena ∧ a.work.chunks = [] := by
  rw [half] at h
  simp only [work, Reassembly.workIn, h, if_true, and_self]

theorem work_of_open {a : Arrival} (h : a.half.isClosed = false) :
    a.work = a.before.accept a.config.pagesPerConnection a.locked a.direction a.segment := by
  rw [half] at h
  rw [work, Reassembly.workIn, if_neg (ne_true_of_eq_false h)]
  rfl

end Arrival

/-- The chunks of one direction of a stream that a consumer is handed in a call. -/
def Event.deliveries (stream : Nat) (d : Direction) : Event → List Delivery
  | .delivered stream' _ chunks =>
    if stream' = stream then chunks.filter fun x => x.direction = d else []
  | .opened .. | .completed .. => []

/-- The chunks of one direction of a stream that a consumer was handed in a call. -/
def Outcome.handed {α : Type} (o : Outcome α) (stream : Nat) (d : Direction) : List Delivery :=
  o.events.flatMap (Event.deliveries stream d)

theorem Outcome.andThen_ok {α β : Type} {o : Outcome α} {f : α → Reassembly → Outcome β} {a : α}
    (h : o.result = .ok a) (stream : Nat) (d : Direction) :
    (o.andThen f).state = (f a o.state).state ∧
      (o.andThen f).handed stream d = o.handed stream d ++ (f a o.state).handed stream d := by
  rw [Outcome.andThen, h]
  exact ⟨rfl, List.flatMap_append ..⟩

theorem Outcome.andThen_error {α β : Type} {o : Outcome α} {f : α → Reassembly → Outcome β}
    {call : ConsumerCall} (h : o.result = .error call) (stream : Nat) (d : Direction) :
    (o.andThen f).state = o.state ∧ (o.andThen f).handed stream d = o.handed stream d := by
  rw [Outcome.andThen, h]
  exact ⟨rfl, rfl⟩

/-- What holds after a step, and after all that can follow it, holds after both. -/
theorem Outcome.state_andThen {α β : Type} {P : Reassembly → Prop} {o : Outcome α}
    {f : α → Reassembly → Outcome β} (ho : P o.state)
    (hf : ∀ a, o.result = .ok a → P (f a o.state).state) : P (o.andThen f).state := by
  cases hres : o.result with
  | error call =>
      rw [(Outcome.andThen_error hres 0 .forward).1]
      exact ho
  | ok a =>
      rw [(Outcome.andThen_ok hres 0 .forward).1]
      exact hf a hres

/-! ## Several connections wound up -/

namespace Reassembly

section WindUpAll

variable {P : Reassembly → Prop} {s : Reassembly} {fails : Event → Bool}

/-- What winding up one connection keeps, winding up several keeps. -/
theorem windUpAll_keeps (hkeeps : ∀ s flow, P s → P (s.windUp fails flow).state) (hs : P s)
    (flows : List FlowId) : P (s.windUpAll fails flows).state := by
  induction flows generalizing s with
  | nil => exact hs
  | cons flow rest ih =>
      have hfirst := hkeeps s flow hs
      refine Outcome.state_andThen hfirst fun _ _ => ?_
      exact Outcome.state_andThen (ih hfirst) fun _ _ => ih hfirst

/-- **What holds of winding up one connection holds of winding up several**, if it holds of an answer, and
of one step after the other where it holds of both.  The states in which it does so are those of `P`. -/
theorem windUpAll_induction {R : ∀ {α : Type}, Reassembly → Outcome α → Prop}
    (hkeeps : ∀ s flow, P s → P (s.windUp fails flow).state)
    (hanswer : ∀ {α : Type} (a : α) s, P s → R s (answer a s))
    (hwindUp : ∀ s flow, P s → R s (s.windUp fails flow))
    (handThen : ∀ {α β : Type} {s} {o : Outcome α} {f : α → Reassembly → Outcome β}, R s o →
      (∀ a, o.result = .ok a → R o.state (f a o.state)) → R s (o.andThen f))
    (hs : P s) (flows : List FlowId) : R s (s.windUpAll fails flows) := by
  induction flows generalizing s with
  | nil => exact hanswer 0 s hs
  | cons flow rest ih =>
      have hfirst := hkeeps s flow hs
      have hrest := windUpAll_keeps hkeeps hfirst rest
      refine handThen (hwindUp s flow hs) fun found _ => ?_
      exact handThen (ih hfirst) fun count _ => hanswer _ _ hrest

end WindUpAll

end Reassembly

/-! ## What happened -/

namespace Reassembly

/-- The segment that a call brings to a connection, if it does: a segment that opens a connection for
whose stream the consumer breaks down at once comes to none. -/
def arrivals (s : Reassembly) (call : Call) : List Arrival :=
  match call.action with
  | .receive config locked path segment =>
    let o := s.lookUp call.fails (segment.flow path) (segment.src path) call.now
    match o.result with
    | .ok connection =>
      [{ config, locked, state := o.state, connection
         direction := connection.directionFrom (segment.src path), segment }]
    | .error _ => []
  | _ => []

/-- Flushing what is idle does nothing, or flushes what is older than some moment. -/
theorem flushIdle_cases (s : Reassembly) (fails : Event → Bool) (config : Config) (now : Nat) :
    s.flushIdle fails config now = answer 0 s ∨
      ∃ cutoff, s.flushIdle fails config now = s.flushBefore fails cutoff := by
  unfold flushIdle
  cases config.idleSpan with
  | none => exact Or.inl rfl
  | some span =>
      simp only
      split
      · exact Or.inr ⟨now - span, rfl⟩
      · exact Or.inl rfl

/-- A segment that arrives finds its connection looked up. -/
theorem mem_arrivals {s : Reassembly} {call : Call} {a : Arrival} (ha : a ∈ s.arrivals call) :
    ∃ path, call.action = .receive a.config a.locked path a.segment ∧
      (s.lookUp call.fails (a.segment.flow path) (a.segment.src path) call.now).state = a.state ∧
      (s.lookUp call.fails (a.segment.flow path) (a.segment.src path) call.now).result =
        .ok a.connection ∧
      a.direction = a.connection.directionFrom (a.segment.src path) := by
  obtain ⟨fails, now, action⟩ := call
  cases action with
  | receive config locked path segment =>
      rw [arrivals] at ha
      simp only at ha
      split at ha
      case h_1 c hres =>
        obtain rfl := List.mem_singleton.1 ha
        exact ⟨path, rfl, rfl, hres, rfl⟩
      case h_2 => cases ha
  | _ => cases ha

end Reassembly

namespace Arrival

/-- The shared state once the segment is worked in, but for its own connection. -/
def worked (a : Arrival) : Reassembly :=
  { a.state with
    registry := { a.state.registry with entries := a.work.entries }
    arena := a.work.arena }

/-- What the segment leads to: its chunks are handed over, and a stream that is over is concluded. -/
def finish (fails : Event → Bool) (a : Arrival) : Outcome Unit :=
  ((a.worked.handOver fails a.work.connection a.segment.payload a.work.chunks).after
    a.work.notes).andThen fun _ s =>
      if a.work.connection.isOver then s.conclude fails a.work.connection
      else Reassembly.answer () s

end Arrival

namespace Reassembly

variable {s : Reassembly} {fails : Event → Bool} {config : Config} {locked : List FlowId}
  {path : Route} {segment : Segment} {now : Nat}

/-- The connection of a segment is looked up, and then the segment arrives. -/
theorem receive_of_ok {c : Connection}
    (h : (s.lookUp fails (segment.flow path) (segment.src path) now).result = .ok c) :
    ∃ a, s.arrivals ⟨fails, now, .receive config locked path segment⟩ = [a] ∧
      a.state = (s.lookUp fails (segment.flow path) (segment.src path) now).state ∧
      a.connection = c ∧
      (s.receive fails config locked path segment now).state = (a.finish fails).state ∧
      ∀ stream d, (s.receive fails config locked path segment now).handed stream d =
        (s.lookUp fails (segment.flow path) (segment.src path) now).handed stream d ++
          (a.finish fails).handed stream d := by
  refine ⟨{ config, locked, segment, connection := c,
            direction := c.directionFrom (segment.src path)
            state := (s.lookUp fails (segment.flow path) (segment.src path) now).state },
    ?_, rfl, rfl, ?_, ?_⟩
  · simp only [arrivals, h]
  · rw [receive, (Outcome.andThen_ok h 0 .forward).1]
    rfl
  · intro stream d
    rw [receive, (Outcome.andThen_ok h stream d).2]
    rfl

/-- A segment that opens a connection in vain does not arrive. -/
theorem receive_of_error {call : ConsumerCall}
    (h : (s.lookUp fails (segment.flow path) (segment.src path) now).result = .error call) :
    s.arrivals ⟨fails, now, .receive config locked path segment⟩ = [] ∧
      (s.receive fails config locked path segment now).state =
        (s.lookUp fails (segment.flow path) (segment.src path) now).state ∧
      ∀ stream d, (s.receive fails config locked path segment now).handed stream d =
        (s.lookUp fails (segment.flow path) (segment.src path) now).handed stream d := by
  rw [receive]
  exact ⟨by simp only [arrivals, h], (Outcome.andThen_error h 0 .forward).1,
    fun stream d => (Outcome.andThen_error h stream d).2⟩

end Reassembly

/-- What happened since reassembly began. -/
structure History where
  /-- The state reached. -/
  state : Reassembly
  /-- The segments that arrived. -/
  arrivals : List Arrival
  /-- What the consumers saw. -/
  events : List Event

namespace History

/-- What happened once one more call is made. -/
def extend (r : History) (call : Call) : History :=
  let o := r.state.perform call.fails call.now call.action
  { state := o.state
    arrivals := r.arrivals ++ r.state.arrivals call
    events := r.events ++ o.events }

/-- The chunks of one direction of a stream, in the order in which they were handed over. -/
def deliveries (r : History) (stream : Nat) (d : Direction) : List Delivery :=
  r.events.flatMap (Event.deliveries stream d)

/-- The segments that arrived in one direction of a stream. -/
def arrivalsAt (r : History) (stream : Nat) (d : Direction) : List Arrival :=
  r.arrivals.filter fun a => a.stream = stream ∧ a.direction = d

theorem arrivalsAt_extend (r : History) (call : Call) (stream : Nat) (d : Direction) :
    (r.extend call).arrivalsAt stream d = r.arrivalsAt stream d ++
      (r.state.arrivals call).filter fun a => a.stream = stream ∧ a.direction = d :=
  List.filter_append ..

theorem deliveries_extend (r : History) (call : Call) (stream : Nat) (d : Direction) :
    (r.extend call).deliveries stream d = r.deliveries stream d ++
      (r.state.perform call.fails call.now call.action).handed stream d :=
  List.flatMap_append ..

end History

/-- What a list of calls leads to. -/
def Reassembly.history (s : Reassembly) (calls : List Call) : History :=
  calls.foldl History.extend { state := s, arrivals := [], events := [] }

namespace Reassembly

/-- The state in which reassembly begins: there is no connection yet, and no page is out. -/
def fresh (ceiling : Nat) : Reassembly := { registry := {}, arena := Arena.ofCeiling ceiling }

theorem history_snoc (s : Reassembly) (calls : List Call) (call : Call) :
    s.history (calls ++ [call]) = (s.history calls).extend call := by
  rw [history, List.foldl_append]
  rfl

end Reassembly

/-! ## Segments and chunks in a window -/

/-- The segment is the SYN that sets the first number of its half-stream. -/
def Arrival.BeginsStream (a : Arrival) : Prop :=
  a.half.isClosed = false ∧ a.half.next = none ∧ a.segment.flags.isSyn = true

instance (a : Arrival) : Decidable a.BeginsStream := inferInstanceAs (Decidable (_ ∧ _ ∧ _))

/-- The data of the segment, and the first number if it sets it, lie in the window that begins at
`base`. -/
def Arrival.InWindow (base : SeqNum) (a : Arrival) : Prop :=
  a.BeginsStream ∨ a.segment.payload ≠ [] →
    base.offset a.segment.payloadSeq + a.segment.payload.length ≤ SeqNum.reach

instance (base : SeqNum) (a : Arrival) : Decidable (a.InWindow base) :=
  inferInstanceAs (Decidable (_ → _))

namespace Delivery

/-- The offset of the first byte of a chunk. -/
def lo (base : SeqNum) (x : Delivery) : Nat := base.offset x.seq

/-- The offset after the last byte of a chunk. -/
def hi (base : SeqNum) (x : Delivery) : Nat := x.lo base + x.bytes.length

end Delivery

end TcpStreams
