import TcpStreams.Direction
import TcpStreams.Page

/-!
# Chunks

A chunk is a run of stream bytes on its way to the consumer.  While a segment is worked on, the bytes
are not copied: a chunk refers to a stretch of the segment's payload or carries a page.  Handed over,
it becomes a `Delivery`, which holds the bytes themselves.
-/

namespace TcpStreams

/-- A stretch of offsets into a payload, from `start` up to but not including `stop`. -/
structure Span where
  /-- The first offset. -/
  start : Nat
  /-- The offset after the last one. -/
  stop : Nat
deriving DecidableEq

namespace Span

/-- The number of offsets in the stretch. -/
def size (span : Span) : Nat := span.stop - span.start

/-- The bytes of a payload at these offsets. -/
def slice (span : Span) (payload : List UInt8) : List UInt8 :=
  (payload.drop span.start).take span.size

end Span

/-- Where the bytes of a chunk are. -/
inductive Source where
  /-- At a stretch of the payload being worked on. -/
  | payload (span : Span)
  /-- On a page, which goes back to the arena once its bytes are handed over. -/
  | page (page : Page)
deriving DecidableEq

/-- The bytes found at a source. -/
def Source.bytes (payload : List UInt8) : Source → List UInt8
  | .payload span => span.slice payload
  | .page held => held.bytes

/-- The page behind a source, if there is one. -/
def Source.page? : Source → Option Page
  | .payload _ => none
  | .page held => some held

/-- A run of stream bytes handed to the consumer. -/
structure Delivery where
  /-- The direction that the bytes travelled in. -/
  direction : Direction
  /-- The number of the first byte. -/
  seq : SeqNum
  /-- Whether bytes before these are missing and will never come. -/
  skip : Bool
  /-- Whether these bytes follow a SYN that was seen. -/
  start : Bool
  /-- The bytes. -/
  bytes : List UInt8
deriving DecidableEq

/-- A run of stream bytes not handed over yet. -/
structure Chunk where
  /-- The direction that the bytes travelled in. -/
  direction : Direction
  /-- The number of the first byte. -/
  seq : SeqNum
  /-- Whether bytes before these are missing and will never come. -/
  skip : Bool
  /-- Whether these bytes follow a SYN that was seen. -/
  start : Bool
  /-- Where the bytes are. -/
  source : Source
deriving DecidableEq

/-- The chunk as it is handed over while `payload` is being worked on. -/
def Chunk.delivery (payload : List UInt8) (chunk : Chunk) : Delivery where
  direction := chunk.direction
  seq := chunk.seq
  skip := chunk.skip
  start := chunk.start
  bytes := chunk.source.bytes payload

end TcpStreams
