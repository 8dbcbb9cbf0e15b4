import TcpStreams.Chunk
import TcpStreams.Flow

/-!
# Events

What the consumers see.  Every conversation gets a stream of its own, numbered in the order in which
they begin; the consumer is told when a stream begins, what it brings, and when it is over.  A
consumer may break down in any such call, just after it took notice of it.
-/

namespace TcpStreams

/-- A call to a consumer. -/
inductive Event where
  /-- A stream begins. -/
  | opened (stream : Nat) (flow : FlowId)
  /-- Chunks of a stream are handed over; there may be none. -/
  | delivered (stream : Nat) (flow : FlowId) (chunks : List Delivery)
  /-- A stream is over. -/
  | completed (stream : Nat) (flow : FlowId)
deriving DecidableEq

/-- The kinds of calls to a consumer. -/
inductive ConsumerCall where
  /-- A stream begins. -/
  | opening
  /-- Chunks are handed over. -/
  | delivery
  /-- A stream is over. -/
  | completion
deriving DecidableEq

namespace Event

/-- The kind of the call. -/
def call : Event → ConsumerCall
  | opened .. => .opening
  | delivered .. => .delivery
  | completed .. => .completion

/-- The stream that the call is about. -/
def stream : Event → Nat
  | opened stream _ | delivered stream _ _ | completed stream _ => stream

/-- The conversation that the call is about. -/
def flow : Event → FlowId
  | opened _ flow | delivered _ flow _ | completed _ flow => flow

end Event

end TcpStreams
