import TcpStreams.Chunk

/-!
# Backlogs

The pages of a half-stream that wait, in the order of their sequence numbers.  That order is only
meaningful between numbers less than `2 ^ 31` apart; for data wider than that a backlog is whatever
the insertions made of it, and every operation still has its say on it.

* `Backlog.insert` puts a page into its place.
* `Backlog.gaps` finds what a backlog does not cover of a stretch of numbers.
* `Backlog.settle` and `Backlog.run` part a backlog at the number that is wanted next, and at the end
  of the gap-free run from there.
-/

namespace TcpStreams
namespace Backlog

/-- Puts a page into its place: before the first page that it precedes. -/
def insert (page : Page) : List Page → List Page
  | [] => [page]
  | p :: rest => if page.seq.precedes p.seq then page :: p :: rest else p :: insert page rest

/-- The offsets from `cursor` up to `len` that no page covers, where offset zero has the number
`start`.  A page that ends at or before the cursor covers nothing more. -/
def gaps (start : SeqNum) (len cursor : Nat) : List Page → List Span
  | [] => if cursor < len then [⟨cursor, len⟩] else []
  | page :: rest =>
    if len ≤ cursor then []
    else
      let pageStart := start.distance page.seq
      let pageStop := pageStart + page.size
      if pageStop ≤ cursor then gaps start len cursor rest
      else
        let tail := gaps start len pageStop.toNat rest
        if (cursor : Int) < pageStart then ⟨cursor, min pageStart.toNat len⟩ :: tail else tail

/-- Whether a page holds nothing from the number `next` on. -/
def isBehind (next : SeqNum) (page : Page) : Bool := decide (next.distance page.stop ≤ 0)

/-- The page without the bytes before the number `next`. -/
def cutTo (next : SeqNum) (page : Page) : Page := page.dropFront (page.seq.distance next).toNat

/-- Parts the pages in front that hold nothing from `next` on from the others, the first of which is
cut to begin no earlier. -/
def settle (next : SeqNum) : List Page → List Page × List Page
  | [] => ([], [])
  | page :: rest =>
    if isBehind next page then
      let (behind, kept) := settle next rest
      (page :: behind, kept)
    else ([], cutTo next page :: rest)

/-- A backlog parted at a number that is wanted next. -/
structure Run where
  /-- The pages that hold nothing new. -/
  behind : List Page
  /-- The pages that continue the stream without a gap, each cut to begin where it is wanted. -/
  ready : List Page
  /-- The pages beyond the first gap. -/
  waiting : List Page

/-- Parts a backlog at the number wanted next and at the end of the gap-free run from there. -/
def run (next : SeqNum) : List Page → Run
  | [] => ⟨[], [], []⟩
  | page :: rest =>
    if isBehind next page then
      let r := run next rest
      { r with behind := page :: r.behind }
    else
      let page := cutTo next page
      if page.seq = next then
        let r := run page.stop rest
        { r with ready := page :: r.ready }
      else ⟨[], [], page :: rest⟩

end Backlog
end TcpStreams
