import TcpStreams.Chunk

/-!
# Portions

A piece of a payload that has to wait is cut into parts that fit on a page, each but the last one
filling it.
-/

namespace TcpStreams

/-- A part of a piece that fits on one page. -/
structure Portion where
  /-- The offsets of the part. -/
  span : Span
  /-- The offset where the whole piece ends. -/
  pieceStop : Nat
deriving DecidableEq

/-- Cuts a piece into parts that fit on a page, each but the last one filling it. -/
def Span.portions (piece : Span) : List Portion :=
  (List.range ((piece.size + (Page.capacity - 1)) / Page.capacity)).map fun i =>
    let start := piece.start + i * Page.capacity
    ⟨⟨start, min (start + Page.capacity) piece.stop⟩, piece.stop⟩

end TcpStreams
