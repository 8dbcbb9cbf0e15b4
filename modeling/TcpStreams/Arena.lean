import TcpStreams.Page

/-!
# Page arenas

An arena hands out pages, counts how many are out, and hands out no more once their number has
reached its ceiling.  Pages that come back are blanked and kept for the next request, the one that
came back last going out first.  An arena does not know its pages apart: a page may come back to
another arena than the one that it went out of, and the count of pages out never falls below zero.
-/

namespace TcpStreams

/-- A bounded store of pages. -/
structure Arena where
  /-- The pages that came back and wait for the next request. -/
  free : List Page := []
  /-- The number of pages handed out. -/
  inUse : Nat := 0
  /-- The number of pages that may be out at once. -/
  ceiling : Nat
deriving DecidableEq

namespace Arena

/-- An arena none of whose pages is out yet. -/
def ofCeiling (ceiling : Nat) : Arena := { ceiling }

/-- Whether no further page is handed out. -/
def isSpent (arena : Arena) : Bool := decide (arena.ceiling ≤ arena.inUse)

/-- Hands out a page for the bytes from `seq` on, unless the arena is exhausted. -/
def take? (arena : Arena) (seq : SeqNum) : Option (Page × Arena) :=
  if arena.isSpent then none
  else
    match arena.free with
    | [] => some ({ Page.blank with seq }, { arena with inUse := arena.inUse + 1 })
    | page :: free => some ({ page with seq }, { arena with free, inUse := arena.inUse + 1 })

/-- Takes a page back. -/
def give (arena : Arena) (page : Page) : Arena :=
  { arena with free := page.reset :: arena.free, inUse := arena.inUse - 1 }

/-- Takes several pages back, in order. -/
def giveAll (arena : Arena) (pages : List Page) : Arena := pages.foldl give arena

theorem giveAll_nil (arena : Arena) : arena.giveAll [] = arena := rfl

theorem giveAll_append (arena : Arena) (xs ys : List Page) :
    arena.giveAll (xs ++ ys) = (arena.giveAll xs).giveAll ys := by
  simp [giveAll]

/-- An arena refuses a page exactly when it is exhausted. -/
theorem take?_eq_none_iff {arena : Arena} {seq : SeqNum} :
    arena.take? seq = none ↔ arena.isSpent = true := by
  unfold take?
  split
  · simp_all
  · split <;> simp_all

end Arena

end TcpStreams
