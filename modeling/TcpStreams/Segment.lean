import TcpStreams.SeqNum
import TcpStreams.Flags
import TcpStreams.Flow

/-!
# Segments

A captured TCP segment, decoded.  The hosts stand in the packet around it, so they come in as a
`Route`.
-/

namespace TcpStreams

/-- A captured TCP segment. -/
structure Segment where
  /-- The port that sent it. -/
  srcPort : UInt16
  /-- The port that it was sent to. -/
  dstPort : UInt16
  /-- The sequence number in its header. -/
  seq : SeqNum
  /-- Its flags. -/
  flags : Flags
  /-- Its data. -/
  payload : List UInt8
deriving DecidableEq

namespace Segment

/-- The endpoint that sent the segment. -/
def src (segment : Segment) (route : Route) : Endpoint := route.src.endpoint segment.srcPort

/-- The endpoint that the segment was sent to. -/
def dst (segment : Segment) (route : Route) : Endpoint := route.dst.endpoint segment.dstPort

/-- The conversation that the segment belongs to. -/
def flow (segment : Segment) (route : Route) : FlowId :=
  FlowId.of (segment.src route) (segment.dst route)

/-- The number of the first byte of the payload: a SYN takes up a number of its own. -/
def payloadSeq (segment : Segment) : SeqNum :=
  if segment.flags.isSyn then segment.seq.advance 1 else segment.seq

end Segment

end TcpStreams
