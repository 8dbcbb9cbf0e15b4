import TcpStreams.SeqNum

/-!
# Pages

Data that cannot be delivered yet waits in pages: runs of stream bytes with the number of the first
one.  A page holds up to `Page.capacity` bytes; whoever fills it cuts the data to size.

* `Page.size_fill`, `Page.size_dropFront`: what filling a page and cutting off its front do to its size.
-/

namespace TcpStreams

/-- A run of stream bytes. -/
structure Page where
  /-- The number of the first byte. -/
  seq : SeqNum
  /-- The bytes. -/
  bytes : List UInt8
deriving DecidableEq

namespace Page

/-- The number of bytes that a page has room for. -/
def capacity : Nat := 1900

/-- A page without bytes, as it comes out of nowhere. -/
def blank : Page := ⟨SeqNum.ofNat 0, []⟩

/-- The number of bytes on the page. -/
def size (page : Page) : Nat := page.bytes.length

/-- The number that follows the last byte. -/
def stop (page : Page) : SeqNum := page.seq.advance page.size

/-- The room left on the page. -/
def room (page : Page) : Nat := capacity - page.size

/-- The page with more bytes at its end. -/
def fill (page : Page) (data : List UInt8) : Page :=
  { page with bytes := page.bytes ++ data }

/-- The page without its first `n` bytes, or without any if it has fewer. -/
def dropFront (page : Page) (n : Nat) : Page :=
  ⟨page.seq.advance (min n page.size), page.bytes.drop n⟩

/-- The page as it goes back to be used again: no bytes, and the number zero. -/
def reset (page : Page) : Page :=
  { page with seq := SeqNum.ofNat 0, bytes := [] }

theorem size_fill (page : Page) (data : List UInt8) :
    (page.fill data).size = page.size + data.length := by
  simp [fill, size]

theorem size_dropFront (page : Page) (n : Nat) : (page.dropFront n).size = page.size - n := by
  simp [dropFront, size]

theorem dropFront_zero (page : Page) : page.dropFront 0 = page := by
  simp [dropFront, SeqNum.advance_zero]

end Page

end TcpStreams
