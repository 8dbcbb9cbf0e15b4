/-!
# Timelines

The clock of a session.  It moves on by one nanosecond with every step, so the time of a step lies
after everything before it and before everything after it; a mark keeps the time of its step.
-/

namespace TcpStreams

/-- A clock and the times marked on it. -/
structure Timeline where
  /-- The time of the step under way. -/
  now : Nat := 0
  /-- The times marked, in order. -/
  marks : List Nat := []

namespace Timeline

/-- Moves on to the next step. -/
def advance (t : Timeline) : Timeline := { t with now := t.now + 1 }

/-- Marks the time of the step under way; the answer is the index of the mark. -/
def mark (t : Timeline) : Timeline × Nat :=
  ({ t with marks := t.marks ++ [t.now] }, t.marks.length)

/-- The time of a mark; a mark not set yet lies before everything. -/
def timeOf (t : Timeline) (index : Nat) : Nat := t.marks.getD index 0

end Timeline

end TcpStreams
