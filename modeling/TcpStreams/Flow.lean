import TcpStreams.Address.Text

/-!
# Flows

A `Route` is where a packet came from and went to; a `FlowId` names the conversation that the packet
belongs to, whichever way it went.

* `FlowId.of_comm`: the two endpoints of a conversation name it in either order.
-/

namespace TcpStreams

/-- The hosts that a captured packet went between. -/
structure Route where
  /-- The host that sent it. -/
  src : Host
  /-- The host that it was sent to. -/
  dst : Host
deriving DecidableEq

/-- The way back. -/
def Route.reverse (route : Route) : Route := ⟨route.dst, route.src⟩

/-- The name of a conversation: its two endpoints, the lower one first. -/
structure FlowId where
  /-- The endpoint that comes first in the order of endpoints. -/
  low : Endpoint
  /-- The endpoint that comes last. -/
  high : Endpoint
  /-- The endpoints stand in order. -/
  low_le_high : low.rank ≤ high.rank
deriving DecidableEq

namespace FlowId

/-- The conversation between two endpoints. -/
def of (a b : Endpoint) : FlowId :=
  if h : a.rank ≤ b.rank then ⟨a, b, h⟩ else ⟨b, a, by omega⟩

/-- The order of flows: by the lower endpoint, then by the higher one. -/
def compare (x y : FlowId) : Ordering :=
  (Ord.compare x.low.rank y.low.rank).then (Ord.compare x.high.rank y.high.rank)

/-- The text of a flow. -/
def text (flow : FlowId) : String := flow.low.text ++ " <-> " ++ flow.high.text

/-- The two endpoints of a conversation name it in either order. -/
theorem of_comm (a b : Endpoint) : of a b = of b a := by
  unfold of
  split <;> split
  · have h : a = b := Endpoint.rank_inj.1 (by omega)
    subst h
    rfl
  · rfl
  · rfl
  · omega

end FlowId

end TcpStreams
