import TcpStreams.Chunk
import TcpStreams.Note

/-!
# Yields

Work on the waiting data of a connection gives off chunks for the consumer, pages that go back to the
arena, and log records.  A `Yield` is the result of such work together with what it gave off, each in
order.

* `Yield.andThen_assoc`: what a sequence of steps gives off does not depend on how it is grouped.
-/

namespace TcpStreams

/-- A result together with what the work on it gave off. -/
structure Yield (α : Type) where
  /-- The result. -/
  value : α
  /-- The chunks for the consumer. -/
  chunks : List Chunk := []
  /-- The pages that go back to the arena. -/
  freed : List Page := []
  /-- The log records. -/
  notes : List Note := []

namespace Yield

variable {α β γ : Type}

/-- Goes on with the result; what both steps give off is put together. -/
def andThen (y : Yield α) (f : α → Yield β) : Yield β :=
  let next := f y.value
  { value := next.value
    chunks := y.chunks ++ next.chunks
    freed := y.freed ++ next.freed
    notes := y.notes ++ next.notes }

/-- Changes the result only. -/
def map (f : α → β) (y : Yield α) : Yield β :=
  { value := f y.value, chunks := y.chunks, freed := y.freed, notes := y.notes }

/-- What a sequence of steps gives off does not depend on how it is grouped. -/
theorem andThen_assoc (y : Yield α) (f : α → Yield β) (g : β → Yield γ) :
    (y.andThen f).andThen g = y.andThen fun a => (f a).andThen g := by
  simp [andThen, List.append_assoc]

/-- What matters of a step is what it does to the result at hand. -/
theorem andThen_congr {y : Yield α} {f g : α → Yield β} (h : f y.value = g y.value) :
    y.andThen f = y.andThen g := by
  simp [andThen, h]

/-- A step that does nothing changes nothing. -/
theorem andThen_of_idle {y : Yield α} {f : α → Yield α} (h : f y.value = { value := y.value }) :
    y.andThen f = y := by
  simp [andThen, h]

end Yield

end TcpStreams
