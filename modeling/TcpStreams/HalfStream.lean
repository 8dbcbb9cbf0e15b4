import TcpStreams.Chunk
import TcpStreams.Counters

/-!
# Half-streams

One direction of a connection: how far its bytes have been handed over, the pages that wait for a gap
before them to fill, and the marks that the next chunk will carry.
-/

namespace TcpStreams

/-- The life of a half-stream. -/
inductive Phase where
  /-- It is not known where the stream begins. -/
  | unstarted
  /-- The stream has begun, at a SYN or at the first byte that was waiting. -/
  | started
  /-- A FIN or RST was seen, or the connection was flushed. -/
  | closed
deriving DecidableEq

namespace Phase

/-- Whether the stream has begun and is still open. -/
def isStarted (phase : Phase) : Bool := phase == started

/-- Whether the stream is over. -/
def isClosed (phase : Phase) : Bool := phase == closed

/-- The phase with the stream begun, if it had not. -/
def begun : Phase → Phase
  | unstarted => started
  | phase => phase

end Phase

/-- One direction of a connection. -/
structure HalfStream where
  /-- Which direction it is. -/
  direction : Direction
  /-- Where it is in its life. -/
  phase : Phase := .unstarted
  /-- The number of the next byte to hand over, once it is known. -/
  next : Option SeqNum := none
  /-- The pages that wait. -/
  pages : List Page := []
  /-- Whether the next chunk is the first after a SYN. -/
  startDue : Bool := false
  /-- Whether bytes before the next chunk are lost. -/
  skipDue : Bool := false
  /-- What it has been through. -/
  counters : Counters := {}
deriving DecidableEq

namespace HalfStream

/-- A half-stream that has seen nothing. -/
def new (direction : Direction) : HalfStream := { direction }

/-- Whether the half-stream is over. -/
def isClosed (h : HalfStream) : Bool := h.phase.isClosed

/-- The number of pages that wait. -/
def pageCount (h : HalfStream) : Nat := h.pages.length

/-- The number of bytes that wait. -/
def byteCount (h : HalfStream) : Nat := h.pages.foldr (fun page count => page.size + count) 0

/-- Hands on `size` bytes from `seq` on as the next chunk, which carries the marks that are due. -/
def handOn (h : HalfStream) (source : Source) (seq : SeqNum) (size : Nat) : HalfStream × Chunk :=
  ({ h with
      next := some (seq.advance size)
      startDue := false
      skipDue := false
      counters := h.counters.addDelivery size h.skipDue },
   { direction := h.direction, seq, skip := h.skipDue, start := h.startDue, source })

/-- Hands on pages, one chunk each. -/
def handOnPages (h : HalfStream) : List Page → HalfStream × List Chunk
  | [] => (h, [])
  | page :: rest =>
    let (h, chunk) := h.handOn (.page page) page.seq page.size
    let (h, chunks) := h.handOnPages rest
    (h, chunk :: chunks)

end HalfStream

end TcpStreams
