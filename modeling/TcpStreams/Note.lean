import TcpStreams.Direction
import TcpStreams.Flow
import TcpStreams.SeqNum

/-!
# Log records

What reassembly reports about its own work.  A record is kept as the thing that happened; its level
and its wording are decided here and nowhere else.
-/

namespace TcpStreams

/-- How much a log record matters. -/
inductive Level where
  /-- Something may have been lost. -/
  | warn
  /-- A stage in the life of a connection. -/
  | debug
  /-- A detail of one segment. -/
  | trace
deriving DecidableEq

/-- The name of a level. -/
def Level.name : Level → String
  | warn => "WARN"
  | debug => "DEBUG"
  | trace => "TRACE"

/-- A log record. -/
inductive Note where
  /-- A SYN set the number of the first byte of a direction. -/
  | origin (direction : Direction) (seq : SeqNum)
  /-- A direction without a SYN begins at the first byte that is waiting. -/
  | adopted (direction : Direction) (seq : SeqNum)
  /-- The data of a segment lies behind what was delivered. -/
  | retransmitted (direction : Direction) (seq : SeqNum) (bytes : Nat)
  /-- The data of a segment is waiting already. -/
  | alreadyBuffered (direction : Direction) (seq : SeqNum)
  /-- The data of a segment has to wait, all but what is waiting already. -/
  | buffering (direction : Direction) (bytes : Nat) (seq : SeqNum) (pieces : Nat)
  /-- A page of waiting data is given up. -/
  | shed (direction : Direction) (bytes : Nat) (seq : SeqNum)
  /-- The rest of a piece of the segment is given up. -/
  | dropped (direction : Direction) (bytes : Nat)
  /-- A direction is closed. -/
  | closed (direction : Direction)
  /-- A segment arrived for a direction that is closed. -/
  | ignored (flow : FlowId) (direction : Direction) (seq : SeqNum)
  /-- A connection gave up a page for another one. -/
  | evicted (flow victim : FlowId)
  /-- A connection was opened. -/
  | opened (flow : FlowId)
  /-- A connection was taken out unfinished. -/
  | removed (flow : FlowId)
  /-- A connection is finished. -/
  | completed (flow : FlowId)
  /-- Connections were flushed because they were idle. -/
  | flushedIdle (count : Nat)
  /-- A worker stopped and flushed what was left. -/
  | stopped (count : Nat)
deriving DecidableEq

namespace Note

/-- The level of a log record. -/
def level : Note → Level
  | retransmitted .. | alreadyBuffered .. | buffering .. => .trace
  | shed .. | dropped .. | evicted .. => .warn
  | origin .. | adopted .. | closed .. | ignored .. | opened .. | removed .. | completed ..
  | flushedIdle .. | stopped .. => .debug

/-- The wording of a log record. -/
def text : Note → String
  | origin d seq => s!"{d.name} stream origin at {seq.text}"
  | adopted d seq => s!"{d.name} adopting origin at {seq.text}"
  | retransmitted d seq bytes =>
    s!"{d.name} dropping retransmission at {seq.text} ({bytes} bytes)"
  | alreadyBuffered d seq => s!"{d.name} segment at {seq.text} already buffered"
  | buffering d bytes seq pieces =>
    s!"{d.name} buffering {bytes} bytes at {seq.text} in {pieces} piece(s)"
  | shed d bytes seq =>
    s!"{d.name} discarding {bytes} buffered bytes at {seq.text} under memory pressure"
  | dropped d bytes => s!"{d.name} dropping {bytes} incoming bytes, page budget exhausted"
  | closed d => s!"{d.name} closed"
  | ignored flow d seq =>
    s!"{flow.text}: {d.name} already closed, ignoring segment at {seq.text}"
  | evicted flow victim => s!"{flow.text}: evicted buffered data from {victim.text}"
  | opened flow => s!"new connection {flow.text}"
  | removed flow => s!"removed connection {flow.text}"
  | completed flow => s!"{flow.text}: reassembly complete"
  | flushedIdle count => s!"flushed {count} idle connection(s)"
  | stopped count => s!"reassembly task stopping, flushed {count} connection(s)"

end Note

end TcpStreams
