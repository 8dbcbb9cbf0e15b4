/-!
# Directions

The two directions of a connection, seen from the endpoint that was heard first.
-/

namespace TcpStreams

/-- A direction of a connection. -/
inductive Direction where
  /-- From the endpoint that sent the first segment seen. -/
  | forward
  /-- Towards that endpoint. -/
  | reverse
deriving DecidableEq

namespace Direction

/-- The other direction. -/
def opposite : Direction → Direction
  | forward => reverse
  | reverse => forward

/-- The place of the direction among the two, counted from zero. -/
def index : Direction → Nat
  | forward => 0
  | reverse => 1

/-- The name of the direction in log records. -/
def name : Direction → String
  | forward => "Forward"
  | reverse => "Reverse"

theorem opposite_opposite (d : Direction) : d.opposite.opposite = d := by
  cases d <;> rfl

theorem opposite_ne (d : Direction) : d.opposite ≠ d := by
  cases d <;> nofun

end Direction

end TcpStreams
