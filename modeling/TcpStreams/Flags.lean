/-!
# Control flags

The flag byte of a segment.  Reassembly looks at three of its bits: SYN opens a direction of a
connection, FIN and RST close it.
-/

namespace TcpStreams

/-- The flag byte of a segment. -/
structure Flags where
  /-- The eight bits as they stand in the header. -/
  bits : UInt8
deriving DecidableEq

namespace Flags

/-- The sender has no more data. -/
def fin : Flags := ⟨0x01⟩

/-- The sender announces the number of its first byte. -/
def syn : Flags := ⟨0x02⟩

/-- The sender gives the connection up. -/
def rst : Flags := ⟨0x04⟩

/-- Whether every flag of `other` is set. -/
def contains (flags other : Flags) : Bool := flags.bits &&& other.bits == other.bits

/-- All flags of either. -/
def union (flags other : Flags) : Flags := ⟨flags.bits ||| other.bits⟩

/-- Whether SYN is set. -/
def isSyn (flags : Flags) : Bool := flags.contains syn

/-- Whether FIN is set. -/
def isFin (flags : Flags) : Bool := flags.contains fin

/-- Whether RST is set. -/
def isRst (flags : Flags) : Bool := flags.contains rst

/-- Whether the segment is the last one of its direction. -/
def closes (flags : Flags) : Bool := flags.isFin || flags.isRst

end Flags

end TcpStreams
