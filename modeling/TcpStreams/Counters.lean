/-!
# Counters

What one direction of a connection has been through, in numbers.  The counters never overflow; they
are reported as 64-bit words.
-/

namespace TcpStreams

/-- The counters of one direction of a connection. -/
structure Counters where
  /-- The segments that arrived while the direction was open. -/
  segments : Nat := 0
  /-- Those of them whose data had to wait. -/
  buffered : Nat := 0
  /-- Those of them that brought no new data. -/
  retransmissions : Nat := 0
  /-- The bytes handed to the consumer. -/
  delivered : Nat := 0
  /-- The bytes given up for want of pages. -/
  discarded : Nat := 0
  /-- The chunks handed over with a skip mark. -/
  skips : Nat := 0
deriving DecidableEq

namespace Counters

/-- Counts a segment that arrived. -/
def addSegment (c : Counters) : Counters := { c with segments := c.segments + 1 }

/-- Counts a segment whose data has to wait. -/
def addBuffered (c : Counters) : Counters := { c with buffered := c.buffered + 1 }

/-- Counts a segment without new data. -/
def addRetransmission (c : Counters) : Counters :=
  { c with retransmissions := c.retransmissions + 1 }

/-- Counts a chunk of `bytes` bytes, with a skip mark or without. -/
def addDelivery (c : Counters) (bytes : Nat) (skip : Bool) : Counters :=
  { c with
    delivered := c.delivered + bytes
    skips := if skip then c.skips + 1 else c.skips }

/-- Counts `bytes` bytes given up. -/
def addDiscard (c : Counters) (bytes : Nat) : Counters :=
  { c with discarded := c.discarded + bytes }

/-- The counters in the order of their fields, as 64-bit words. -/
def words (c : Counters) : List UInt64 :=
  [c.segments, c.buffered, c.retransmissions, c.delivered, c.discarded, c.skips].map UInt64.ofNat

end Counters

end TcpStreams
