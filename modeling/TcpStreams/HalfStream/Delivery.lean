import TcpStreams.Backlog
import TcpStreams.HalfStream
import TcpStreams.Yield

/-!
# Handing data over

How a half-stream moves on: data in order goes straight through, pages that continue the stream
follow it, and where nothing more can be waited for the stream leaps over the gap before the first
page.

* `HalfStream.drain` hands on the gap-free run of pages at the next number wanted.
* `HalfStream.leap` hands on the first run of pages there is, over whatever gap lies before it.
* `HalfStream.close` hands on every page, over every gap, and ends the stream.
-/

namespace TcpStreams

namespace HalfStream

/-- Keeps a page until its turn comes. -/
def hold (h : HalfStream) (page : Page) : HalfStream :=
  { h with pages := Backlog.insert page h.pages }

/-- Hands on the payload from `offset` on, where the next byte wanted is. -/
def pass (h : HalfStream) (len offset : Nat) : Yield HalfStream :=
  match h.next with
  | none => { value := h }
  | some next =>
    let (h, chunk) := h.handOn (.payload ⟨offset, len⟩) next (len - offset)
    { value := h, chunks := [chunk] }

/-- Hands on every page that continues the stream without a gap. -/
def drain (h : HalfStream) : Yield HalfStream :=
  match h.next with
  | none => { value := h }
  | some next =>
    let run := Backlog.run next h.pages
    let (h, chunks) := { h with pages := run.waiting }.handOnPages run.ready
    { value := h, chunks, freed := run.behind }

/-- Gives back the pages, and the front of the first page kept, that hold nothing new. -/
def settle (h : HalfStream) : Yield HalfStream :=
  match h.next with
  | none => { value := h }
  | some next =>
    let (behind, kept) := Backlog.settle next h.pages
    { value := { h with pages := kept }, freed := behind }

/-- Hands on a page as the next chunk, marked if that leaves a gap.  A stream that has not begun
begins with it. -/
def jump (h : HalfStream) (page : Page) : Yield HalfStream :=
  let notes := if h.phase = .unstarted then [Note.adopted h.direction page.seq] else []
  let h := { h with skipDue := h.skipDue || h.next != some page.seq, phase := h.phase.begun }
  let (h, chunk) := h.handOn (.page page) page.seq page.size
  { value := h, chunks := [chunk], notes }

/-- Hands on the first page that waits and those that continue it.  The answer says whether there
was one. -/
def leap (h : HalfStream) : Yield (HalfStream × Bool) :=
  h.settle.andThen fun h =>
    match h.pages with
    | [] => { value := (h, false) }
    | page :: rest => (({ h with pages := rest }.jump page).andThen drain).map fun h => (h, true)

/-- Hands on, one after the other, all of `pages` that holds anything new. -/
def sweep (h : HalfStream) : List Page → Yield HalfStream
  | [] => { value := h }
  | page :: rest =>
    match h.next with
    | none => (h.jump page).andThen fun h => h.sweep rest
    | some next =>
      if Backlog.isBehind next page then
        let y := h.sweep rest
        { y with freed := page :: y.freed }
      else
        (h.jump (Backlog.cutTo next page)).andThen fun h => h.sweep rest

/-- Hands on everything that waits and ends the stream. -/
def close (h : HalfStream) : Yield HalfStream :=
  ({ h with pages := [] }.sweep h.pages).andThen fun h =>
    { value := { h with phase := .closed }, notes := [.closed h.direction] }

end HalfStream

end TcpStreams
