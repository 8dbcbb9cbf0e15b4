import TcpStreams.HalfStream.Fit
import TcpStreams.Work.Portion
import TcpStreams.Work.Reclaim

/-!
# Work on a segment

While a segment is worked on, its connection is taken out of the registry: what becomes of it, of the
other connections and of the arena is a `Work`, which also collects the chunks to hand over at the
end.

Data that has to wait needs pages.  If the arena refuses one, other connections give up theirs, the
least recently active one first and those that are locked left out; only then the half-stream that
the segment belongs to gives up its own.

* `Work.obtain` gets a page by these rules.
* `Work.accept` does everything that a segment asks for.
-/

namespace TcpStreams

/-- What a segment's connection and everything around it have become so far. -/
structure Work where
  /-- The connection of the segment. -/
  connection : Connection
  /-- The entries of the registry; that of the segment's connection is left alone. -/
  entries : List Entry
  /-- The arena. -/
  arena : Arena
  /-- The chunks to hand over. -/
  chunks : List Chunk := []
  /-- The log records. -/
  notes : List Note := []

namespace Work

/-! ## Steps on the connection -/

/-- Takes in what a step on the connection led to. -/
def absorb (w : Work) (y : Yield Connection) : Work :=
  { w with
    connection := y.value
    arena := w.arena.giveAll y.freed
    chunks := w.chunks ++ y.chunks
    notes := w.notes ++ y.notes }

/-- Works on the half-stream of a direction. -/
def onHalf (w : Work) (d : Direction) (f : HalfStream → Yield HalfStream) : Work :=
  w.absorb (w.connection.onHalf d f)

/-- Lets the connection leap until fewer than `limit` pages wait. -/
def relieve (w : Work) (limit : Nat) (d : Direction) : Work :=
  w.absorb (w.connection.relieve limit d)

/-- Gets a page for the bytes from `seq` on, from the arena, from another connection or from the
half-stream itself. -/
def obtain (w : Work) (locked : List FlowId) (d : Direction) (seq : SeqNum) :
    Work × Option Page :=
  match w.arena.take? seq with
  | some (page, arena) => ({ w with arena }, some page)
  | none =>
    let claim := evict w.connection.flow locked seq w.entries w.arena
    let w :=
      { w with entries := claim.value, arena := claim.arena, notes := w.notes ++ claim.notes }
    match claim.page with
    | some page => (w, some page)
    | none =>
      let half := w.connection.half d
      let claim := reclaim HalfStream.shed? [] seq half.pageCount half w.arena
      ({ w with
          connection := w.connection.setHalf d claim.value
          arena := claim.arena
          notes := w.notes ++ claim.notes },
        claim.page)

/-- Lets parts of a payload wait, one page each, where offset zero has the number `start`.  The
connection keeps below its limit before every page.  If a page cannot be had, the rest of the piece
counts as dropped, and nothing more is stored. -/
def store (limit : Nat) (locked : List FlowId) (d : Direction) (start : SeqNum)
    (payload : List UInt8) : List Portion → Work → Work
  | [], w => w
  | portion :: rest, w =>
    let w := w.relieve limit d
    match w.obtain locked d (start.advance portion.span.start) with
    | (w, none) => w.onHalf d fun h => h.drop (portion.pieceStop - portion.span.start)
    | (w, some page) =>
      let page := page.fill (portion.span.slice payload)
      let w := w.onHalf d fun h => { value := h.hold page }
      store limit locked d start payload rest w

/-! ## The whole of a segment -/

/-- Does what the place of a segment's data asks for. -/
def apply (w : Work) (limit : Nat) (locked : List FlowId) (d : Direction) (segment : Segment) :
    Fit → Work
  | .inOrder offset => w.onHalf d fun h => h.pass segment.payload.length offset
  | .ahead pieces =>
    store limit locked d segment.payloadSeq segment.payload (pieces.flatMap Span.portions) w
  | .empty | .behind | .covered => w

/-- Works a segment in that travels in direction `d`: its data goes through or waits, what can
follow it follows, the connection gets below its limit, and a FIN or RST ends the half-stream. -/
def accept (w : Work) (limit : Nat) (locked : List FlowId) (d : Direction) (segment : Segment) :
    Work :=
  let arrival := (w.connection.half d).arrive segment
  let w := w.absorb (arrival.map fun (h, _) => w.connection.setHalf d h)
  let w := w.apply limit locked d segment arrival.value.2
  let w := w.onHalf d HalfStream.drain
  let w := w.relieve limit d
  if segment.flags.closes then w.onHalf d HalfStream.close else w

end Work

end TcpStreams
