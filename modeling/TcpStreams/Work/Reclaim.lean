import TcpStreams.Arena
import TcpStreams.Registry

/-!
# Reclaiming pages

When an arena refuses a page, waiting data is given up, one page at a time, until it hands one out:
first by other connections, the least recently active one first and those that are locked left out.

* `reclaim` asks whoever can give pages up.
* `evict` asks one connection after the other.
-/

namespace TcpStreams

/-- What giving up pages led to. -/
structure Claim (α : Type) where
  /-- What the pages were given up by. -/
  value : α
  /-- The arena. -/
  arena : Arena
  /-- The log records. -/
  notes : List Note := []
  /-- The page that the arena then handed out, if it did. -/
  page : Option Page := none

/-- Gives up pages one at a time, at most so many, until the arena hands one out.  The remarks
follow every page given up in the log. -/
def reclaim {α : Type} (shed? : α → Option (Yield α)) (remarks : List Note) (seq : SeqNum) :
    Nat → α → Arena → Claim α
  | 0, a, arena => { value := a, arena }
  | fuel + 1, a, arena =>
    match shed? a with
    | none => { value := a, arena }
    | some y =>
      let arena := arena.giveAll y.freed
      let notes := y.notes ++ remarks
      match arena.take? seq with
      | some (page, arena) => { value := y.value, arena, notes, page := some page }
      | none =>
        let claim := reclaim shed? remarks seq fuel y.value arena
        { claim with notes := notes ++ claim.notes }

/-- Reclaims a page for `flow` from the connections of other conversations, in order. -/
def evict (flow : FlowId) (locked : List FlowId) (seq : SeqNum) :
    List Entry → Arena → Claim (List Entry)
  | [], arena => { value := [], arena }
  | entry :: rest, arena =>
    if entry.flow = flow ∨ entry.flow ∈ locked then
      let claim := evict flow locked seq rest arena
      { claim with value := entry :: claim.value }
    else
      let victim := entry.connection
      let claim :=
        reclaim Connection.shed? [.evicted flow entry.flow] seq victim.pageCount victim arena
      let entry := { entry with connection := claim.value }
      match claim.page with
      | some page => { value := entry :: rest, arena := claim.arena, notes := claim.notes, page }
      | none =>
        let further := evict flow locked seq rest claim.arena
        { further with value := entry :: further.value, notes := claim.notes ++ further.notes }

end TcpStreams
