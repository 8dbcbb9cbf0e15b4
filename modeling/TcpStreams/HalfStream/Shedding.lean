import TcpStreams.HalfStream
import TcpStreams.Yield

/-!
# Giving data up

When the arena has no page left, waiting data or new data has to go.  A half-stream that gives up
its first page will not wait for those bytes any more, and marks the next chunk; one that does not
know yet where it begins has nothing to mark, since a SYN may still set the first number beyond them.
-/

namespace TcpStreams
namespace HalfStream

/-- Gives up the first page that waits, if there is one. -/
def shed? (h : HalfStream) : Option (Yield HalfStream) :=
  match h.pages with
  | [] => none
  | page :: rest =>
    let stop := page.stop
    some {
      value :=
        { h with
          pages := rest
          next := h.next.map fun next => if next.precedes stop then stop else next
          skipDue := h.skipDue || h.next.isSome
          counters := h.counters.addDiscard page.size }
      freed := [page]
      notes := [.shed h.direction page.size page.seq] }

/-- Counts new data that is given up for want of a page. -/
def drop (h : HalfStream) (bytes : Nat) : Yield HalfStream :=
  { value := { h with counters := h.counters.addDiscard bytes }
    notes := [.dropped h.direction bytes] }

end HalfStream
end TcpStreams
