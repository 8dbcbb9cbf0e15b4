import TcpStreams.Flow
import TcpStreams.HalfStream.Delivery
import TcpStreams.HalfStream.Shedding

/-!
# Connections

The two half-streams of a conversation.  The endpoint heard first sends the forward one.

* `Connection.relieve` lets half-streams leap until fewer pages wait than a limit.
* `Connection.shed?` gives up the first waiting page, of the forward half-stream if it has one.
-/

namespace TcpStreams

/-- A conversation that is being followed. -/
structure Connection where
  /-- The conversation. -/
  flow : FlowId
  /-- The endpoint that was heard first. -/
  opener : Endpoint
  /-- The number of the stream that its data goes to. -/
  stream : Nat
  /-- When it was opened. -/
  openedAt : Nat
  /-- The bytes that the opener sends. -/
  forward : HalfStream
  /-- The bytes that the opener receives. -/
  reverse : HalfStream
deriving DecidableEq

namespace Connection

/-- A connection on which nothing was sent yet. -/
def new (flow : FlowId) (opener : Endpoint) (stream openedAt : Nat) : Connection where
  flow := flow
  opener := opener
  stream := stream
  openedAt := openedAt
  forward := HalfStream.new .forward
  reverse := HalfStream.new .reverse

/-- The direction of what `src` sends. -/
def directionFrom (c : Connection) (src : Endpoint) : Direction :=
  if src = c.opener then .forward else .reverse

/-- The half-stream of a direction. -/
def half (c : Connection) : Direction → HalfStream
  | .forward => c.forward
  | .reverse => c.reverse

/-- The connection with another half-stream in a direction. -/
def setHalf (c : Connection) (d : Direction) (h : HalfStream) : Connection :=
  match d with
  | .forward => { c with forward := h }
  | .reverse => { c with reverse := h }

/-- The number of pages that wait in either direction. -/
def pageCount (c : Connection) : Nat := c.forward.pageCount + c.reverse.pageCount

/-- Whether both directions are over. -/
def isOver (c : Connection) : Bool := c.forward.isClosed && c.reverse.isClosed

/-- The pages that wait, the forward ones first. -/
def pages (c : Connection) : List Page := c.forward.pages ++ c.reverse.pages

/-- Works on the half-stream of a direction. -/
def onHalf (c : Connection) (d : Direction) (f : HalfStream → Yield HalfStream) :
    Yield Connection :=
  (f (c.half d)).map (c.setHalf d)

/-- Lets the half-stream of a direction leap or, if no page waits there, the other one.  The answer
says whether either did. -/
def leap (c : Connection) (d : Direction) : Yield (Connection × Bool) :=
  let leapIn (c : Connection) (d : Direction) : Yield (Connection × Bool) :=
    (c.half d).leap.map fun (h, moved) => (c.setHalf d h, moved)
  (leapIn c d).andThen fun (c, moved) =>
    if moved then { value := (c, true) } else leapIn c d.opposite

/-- Leaps at most so many times, as long as `limit` pages or more wait. -/
def relieveWithin (limit : Nat) (d : Direction) : Nat → Connection → Yield Connection
  | 0, c => { value := c }
  | fuel + 1, c =>
    if limit ≤ c.pageCount then
      (c.leap d).andThen fun (c, moved) =>
        if moved then relieveWithin limit d fuel c else { value := c }
    else { value := c }

/-- Leaps until fewer than `limit` pages wait.  Every leap takes a page away, so there are no more
leaps than pages. -/
def relieve (c : Connection) (limit : Nat) (d : Direction) : Yield Connection :=
  relieveWithin limit d c.pageCount c

/-- Gives up the first waiting page of the forward half-stream or, if it has none, of the other. -/
def shed? (c : Connection) : Option (Yield Connection) :=
  match c.forward.shed? with
  | some y => some (y.map (c.setHalf .forward))
  | none => c.reverse.shed?.map fun y => y.map (c.setHalf .reverse)

/-- Ends the half-streams that are still open, the forward one first. -/
def close (c : Connection) : Yield Connection :=
  let closeIn (c : Connection) (d : Direction) : Yield Connection :=
    c.onHalf d fun h => if h.isClosed then { value := h } else h.close
  (closeIn c .forward).andThen fun c => closeIn c .reverse

end Connection

end TcpStreams
