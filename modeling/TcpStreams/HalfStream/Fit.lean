import TcpStreams.Backlog
import TcpStreams.HalfStream
import TcpStreams.Segment
import TcpStreams.Yield

/-!
# How a segment fits

Where the data of a segment belongs, seen from the half-stream that it arrives at: behind what was
handed over, right where the next byte is wanted, or ahead of it.  Data ahead is cut into the pieces
that no waiting page covers.

* `Fit.of` decides it from the next number wanted and the pages alone.
* `HalfStream.arrive` counts the segment, lets a SYN set the first number, and records the fit.
-/

namespace TcpStreams

/-- Where the data of a segment belongs. -/
inductive Fit where
  /-- The segment has no data. -/
  | empty
  /-- All of it lies behind the next byte wanted. -/
  | behind
  /-- The next byte wanted is the one at this offset. -/
  | inOrder (offset : Nat)
  /-- It lies ahead, and every byte is waiting already. -/
  | covered
  /-- It lies ahead, and these pieces of it are not waiting yet. -/
  | ahead (pieces : List Span)
deriving DecidableEq

namespace Fit

/-- The fit of data that lies ahead. -/
def waiting (pages : List Page) (start : SeqNum) (len : Nat) : Fit :=
  match Backlog.gaps start len 0 pages with
  | [] => covered
  | pieces => ahead pieces

/-- The fit of `len` bytes from `start` on, with `next` wanted and `pages` waiting. -/
def of (next : Option SeqNum) (pages : List Page) (start : SeqNum) (len : Nat) : Fit :=
  if len = 0 then empty
  else
    match next with
    | none => waiting pages start len
    | some next =>
      let lead := next.distance start
      if 0 < lead then waiting pages start len
      else if len ≤ lead.natAbs then behind
      else inOrder lead.natAbs

/-- The counters with a segment of this fit counted. -/
def count : Fit → Counters → Counters
  | behind, c | covered, c => c.addRetransmission
  | ahead _, c => c.addBuffered
  | empty, c | inOrder _, c => c

/-- What the log says about `len` bytes from `start` on that fit so. -/
def notes (direction : Direction) (start : SeqNum) (len : Nat) : Fit → List Note
  | behind => [.retransmitted direction start len]
  | covered => [.alreadyBuffered direction start]
  | ahead pieces => [.buffering direction len start pieces.length]
  | empty | inOrder _ => []

end Fit

namespace HalfStream

/-- Counts a segment.  If it carries a SYN and no number is wanted yet, its data begins the stream;
without data, an empty chunk tells the consumer so at once. -/
def synchronize (h : HalfStream) (segment : Segment) : Yield HalfStream :=
  let start := segment.payloadSeq
  let h := { h with counters := h.counters.addSegment }
  if segment.flags.isSyn && h.next.isNone then
    let h := { h with next := some start, phase := .started, startDue := true, skipDue := false }
    let notes := [Note.origin h.direction start]
    if segment.payload.isEmpty then
      let (h, chunk) := h.handOn (.payload ⟨0, 0⟩) start 0
      { value := h, chunks := [chunk], notes }
    else { value := h, notes }
  else { value := h }

/-- Takes note of a segment and decides how its data fits. -/
def arrive (h : HalfStream) (segment : Segment) : Yield (HalfStream × Fit) :=
  (h.synchronize segment).andThen fun h =>
    let start := segment.payloadSeq
    let len := segment.payload.length
    let fit := Fit.of h.next h.pages start len
    { value := ({ h with counters := fit.count h.counters }, fit)
      notes := fit.notes h.direction start len }

end HalfStream

end TcpStreams
