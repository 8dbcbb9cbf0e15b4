import TcpStreams.Proofs.Moves
import TcpStreams.HalfStream.Delivery
import TcpStreams.HalfStream.Fit
import TcpStreams.HalfStream.Shedding

/-!
# Shifted numbers

Only how far sequence numbers are apart matters, and never where they lie: if all numbers of a half-stream
and of the segments that arrive at it move by one constant, everything that it does is the same but for
that constant.  A consumer sees no numbers, so it cannot tell.

* `SeqNum.distance_shift`: distances do not change.
* `Page.shift`, `HalfStream.shift`, `Segment.shift`: the numbers moved by a constant.
* `Delivery.blind`, `Chunk.blind`: what is left of a chunk for those who see no numbers.
* `Yield.Shifted`: two pieces of work that differ by shifted numbers only.
* `HalfStream.shifted_leap`, `HalfStream.shifted_close`, `HalfStream.shifted_arrive` and others: the
  operations of a half-stream do the same to shifted numbers.
-/

namespace TcpStreams

namespace SeqNum

theorem advance_comm (a : SeqNum) (m n : Nat) : (a.advance m).advance n = (a.advance n).advance m := by
  rw [advance_advance, advance_advance, Nat.add_comm]

theorem advance_inj {a b : SeqNum} (c : Nat) : a.advance c = b.advance c ↔ a = b := by
  have ha := a.toNat_lt
  have hb := b.toNat_lt
  rw [← toNat_inj, ← toNat_inj, toNat_advance, toNat_advance]
  omega

/-- **Distances do not change** when both numbers move by a constant. -/
theorem distance_shift (a b : SeqNum) (c : Nat) :
    (a.advance c).distance (b.advance c) = a.distance b := by
  have ha := a.toNat_lt
  have hb := b.toNat_lt
  rw [distance, distance, Int.bmod_def, Int.bmod_def, toNat_advance, toNat_advance]
  omega

theorem precedes_shift (a b : SeqNum) (c : Nat) :
    (a.advance c).precedes (b.advance c) = a.precedes b := by
  rw [precedes, precedes, distance_shift]

end SeqNum

/-! ## Pages and chunks -/

namespace Page

/-- The page with its number moved by a constant. -/
def shift (c : Nat) (page : Page) : Page := { page with seq := page.seq.advance c }

/-- The page without its number. -/
def blind (page : Page) : Page := { page with seq := .ofNat 0 }

theorem stop_shift (c : Nat) (page : Page) : (page.shift c).stop = page.stop.advance c :=
  SeqNum.advance_comm ..

theorem dropFront_shift (c : Nat) (page : Page) (n : Nat) :
    (page.shift c).dropFront n = (page.dropFront n).shift c :=
  congrArg (Page.mk · _) (SeqNum.advance_comm ..)

end Page

/-- The source without the number of its page. -/
def Source.blind : Source → Source
  | payload span => payload span
  | page held => page held.blind

theorem Source.bytes_blind (payload : List UInt8) (source : Source) :
    source.blind.bytes payload = source.bytes payload := by
  cases source <;> rfl

/-- What a consumer sees of a chunk: everything but its number. -/
def Delivery.blind (x : Delivery) : Delivery := { x with seq := .ofNat 0 }

/-- The chunk without its number. -/
def Chunk.blind (chunk : Chunk) : Chunk :=
  { chunk with seq := .ofNat 0, source := chunk.source.blind }

theorem Chunk.blind_delivery (payload : List UInt8) (chunk : Chunk) :
    (chunk.delivery payload).blind = chunk.blind.delivery payload := by
  rw [delivery, delivery, Delivery.blind, blind]
  exact congrArg _ (Source.bytes_blind payload chunk.source).symm

/-! ## Backlogs -/

namespace Backlog

variable (c : Nat) (next start : SeqNum) (page : Page) (pages : List Page)

theorem isBehind_shift : isBehind (next.advance c) (page.shift c) = isBehind next page := by
  rw [isBehind, isBehind, Page.stop_shift, SeqNum.distance_shift]

theorem cutTo_shift : cutTo (next.advance c) (page.shift c) = (cutTo next page).shift c := by
  rw [cutTo, cutTo, ← Page.dropFront_shift, Page.shift, SeqNum.distance_shift]

theorem insert_shift :
    insert (page.shift c) (pages.map (Page.shift c)) = (insert page pages).map (Page.shift c) := by
  induction pages with
  | nil => rfl
  | cons p rest ih =>
      have hfirst : (page.shift c).seq.precedes (p.shift c).seq = page.seq.precedes p.seq :=
        SeqNum.precedes_shift ..
      rw [List.map_cons, insert, insert, hfirst]
      split
      · rfl
      · rw [ih, List.map_cons]

theorem gaps_shift (len cursor : Nat) :
    gaps (start.advance c) len cursor (pages.map (Page.shift c)) = gaps start len cursor pages := by
  induction pages generalizing cursor with
  | nil => rfl
  | cons p rest ih =>
      have hstart : (start.advance c).distance (p.shift c).seq = start.distance p.seq :=
        SeqNum.distance_shift ..
      have hsize : (p.shift c).size = p.size := rfl
      simp only [List.map_cons, gaps, hstart, hsize, ih]

theorem settle_shift :
    settle (next.advance c) (pages.map (Page.shift c)) =
      ((settle next pages).1.map (Page.shift c), (settle next pages).2.map (Page.shift c)) := by
  induction pages with
  | nil => rfl
  | cons p rest ih =>
      simp only [List.map_cons, settle, isBehind_shift, cutTo_shift, ih]
      split <;> rfl

/-- The run with its numbers moved by a constant. -/
def Run.shift (r : Run) : Run :=
  ⟨r.behind.map (Page.shift c), r.ready.map (Page.shift c), r.waiting.map (Page.shift c)⟩

theorem run_shift :
    run (next.advance c) (pages.map (Page.shift c)) = (run next pages).shift c := by
  induction pages generalizing next with
  | nil => rfl
  | cons p rest ih =>
      have hwanted : ((cutTo next p).shift c).seq = next.advance c ↔ (cutTo next p).seq = next :=
        SeqNum.advance_inj c
      simp only [List.map_cons, run, isBehind_shift, cutTo_shift, hwanted, Page.stop_shift, ih]
      split
      · rfl
      · split <;> rfl

end Backlog

theorem Fit.of_shift (c : Nat) (next : Option SeqNum) (pages : List Page) (start : SeqNum) (len : Nat) :
    Fit.of (next.map fun n => n.advance c) (pages.map (Page.shift c)) (start.advance c) len =
      Fit.of next pages start len := by
  cases next with
  | none => simp only [Option.map_none, of, waiting, Backlog.gaps_shift]
  | some next => simp only [Option.map_some, of, waiting, Backlog.gaps_shift, SeqNum.distance_shift]

/-! ## Yields -/

/-- Two pieces of work that differ by shifted numbers only: what comes out of one is, shifted by `f`, what
comes out of the other, and chunks and pages given off are the same but for their numbers. -/
structure Yield.Shifted {α : Type} (f : α → α) (y y' : Yield α) : Prop where
  /-- The results differ by shifted numbers. -/
  value : y'.value = f y.value
  /-- The chunks are the same but for their numbers. -/
  chunks : y'.chunks.map Chunk.blind = y.chunks.map Chunk.blind
  /-- As many pages go back. -/
  freed : y'.freed.length = y.freed.length

namespace Yield.Shifted

variable {α β : Type} {f : α → α} {g : β → β} {y y' : Yield α}

theorem pure (a : α) : Shifted f { value := a } { value := f a } := ⟨rfl, rfl, rfl⟩

theorem andThen {k k' : α → Yield β} (h : Shifted f y y') (hk : ∀ a, Shifted g (k a) (k' (f a))) :
    Shifted g (y.andThen k) (y'.andThen k') := by
  have hnext := hk y.value
  rw [← h.value] at hnext
  refine ⟨hnext.value, ?_, ?_⟩
  · simp only [Yield.andThen, List.map_append, h.chunks, hnext.chunks]
  · simp only [Yield.andThen, List.length_append, h.freed, hnext.freed]

theorem map {m m' : α → β} (h : Shifted f y y') (hm : ∀ a, m' (f a) = g (m a)) :
    Shifted g (y.map m) (y'.map m') :=
  ⟨(congrArg m' h.value).trans (hm _), h.chunks, h.freed⟩

end Yield.Shifted

/-! ## Half-streams -/

/-- The segment with its number moved by a constant. -/
def Segment.shift (c : Nat) (segment : Segment) : Segment :=
  { segment with seq := segment.seq.advance c }

theorem Segment.payloadSeq_shift (c : Nat) (segment : Segment) :
    (segment.shift c).payloadSeq = segment.payloadSeq.advance c := by
  rw [payloadSeq, payloadSeq, show (segment.shift c).flags = segment.flags from rfl]
  split
  · exact SeqNum.advance_comm ..
  · rfl

namespace HalfStream

open Yield (Shifted)

/-- The half-stream with its numbers moved by a constant. -/
def shift (c : Nat) (h : HalfStream) : HalfStream :=
  { h with next := h.next.map fun n => n.advance c, pages := h.pages.map (Page.shift c) }

variable (c : Nat) (h : HalfStream)

theorem next_shift : (h.shift c).next = h.next.map fun n => n.advance c := rfl

theorem pageCount_shift : (h.shift c).pageCount = h.pageCount := List.length_map ..

theorem byteCount_shift : (h.shift c).byteCount = h.byteCount := by
  rw [byteCount, byteCount, shift, List.foldr_map]
  rfl

theorem hold_shift (page : Page) : (h.shift c).hold (page.shift c) = (h.hold page).shift c := by
  simp only [hold, shift, Backlog.insert_shift]

theorem handOn_shift (source source' : Source) (hsource : source'.blind = source.blind) (seq : SeqNum)
    (size : Nat) :
    ((h.shift c).handOn source' (seq.advance c) size).1 = (h.handOn source seq size).1.shift c ∧
      ((h.shift c).handOn source' (seq.advance c) size).2.blind = (h.handOn source seq size).2.blind := by
  simp only [handOn, shift, Option.map_some, SeqNum.advance_comm seq c size, Chunk.blind, hsource,
    and_self]

theorem handOnPages_shift (pages : List Page) :
    ((h.shift c).handOnPages (pages.map (Page.shift c))).1 = (h.handOnPages pages).1.shift c ∧
      ((h.shift c).handOnPages (pages.map (Page.shift c))).2.map Chunk.blind =
        (h.handOnPages pages).2.map Chunk.blind := by
  induction pages generalizing h with
  | nil => exact ⟨rfl, rfl⟩
  | cons page rest ih =>
      obtain ⟨hhalf, hchunk⟩ := h.handOn_shift c (.page page) (.page (page.shift c)) rfl
        page.seq page.size
      obtain ⟨hlast, hchunks⟩ := ih (h.handOn (.page page) page.seq page.size).1
      rw [← hhalf] at hlast hchunks
      exact ⟨hlast, List.cons_eq_cons.2 ⟨hchunk, hchunks⟩⟩

theorem shifted_pass (len offset : Nat) :
    Shifted (shift c) (h.pass len offset) ((h.shift c).pass len offset) := by
  obtain ⟨direction, phase, next, pages, startDue, skipDue, counters⟩ := h
  cases next with
  | none => exact .pure _
  | some next =>
      obtain ⟨hhalf, hchunk⟩ := handOn_shift c
        ⟨direction, phase, some next, pages, startDue, skipDue, counters⟩
        (.payload ⟨offset, len⟩) _ rfl next (len - offset)
      exact ⟨hhalf, List.cons_eq_cons.2 ⟨hchunk, rfl⟩, rfl⟩

theorem shifted_drain : Shifted (shift c) h.drain (h.shift c).drain := by
  obtain ⟨direction, phase, next, pages, startDue, skipDue, counters⟩ := h
  cases next with
  | none => exact .pure _
  | some next =>
      have hrun := Backlog.run_shift c next pages
      obtain ⟨hhalf, hchunks⟩ := handOnPages_shift c
        ⟨direction, phase, some next, (Backlog.run next pages).waiting, startDue, skipDue, counters⟩
        (Backlog.run next pages).ready
      simp only [drain, shift, Option.map_some, hrun]
      exact ⟨hhalf, hchunks, List.length_map ..⟩

theorem shifted_settle : Shifted (shift c) h.settle (h.shift c).settle := by
  obtain ⟨direction, phase, next, pages, startDue, skipDue, counters⟩ := h
  cases next with
  | none => exact .pure _
  | some next =>
      simp only [settle, shift, Option.map_some, Backlog.settle_shift]
      exact ⟨rfl, rfl, List.length_map ..⟩

theorem shifted_jump (page : Page) :
    Shifted (shift c) (h.jump page) ((h.shift c).jump (page.shift c)) := by
  have hgap : ((h.shift c).next != some (page.shift c).seq) = (h.next != some page.seq) := by
    rw [next_shift]
    cases h.next with
    | none => rfl
    | some next => simp [Page.shift, bne, SeqNum.advance_inj]
  have hmarked :
      { h.shift c with
        skipDue := (h.shift c).skipDue || (h.shift c).next != some (page.shift c).seq
        phase := (h.shift c).phase.begun } =
      ({ h with skipDue := h.skipDue || h.next != some page.seq, phase := h.phase.begun }).shift c := by
    rw [hgap]
    rfl
  obtain ⟨hhalf, hchunk⟩ := handOn_shift c
    { h with skipDue := h.skipDue || h.next != some page.seq, phase := h.phase.begun }
    (.page page) (.page (page.shift c)) rfl page.seq page.size
  rw [jump, jump, hmarked]
  exact ⟨hhalf, List.cons_eq_cons.2 ⟨hchunk, rfl⟩, rfl⟩

theorem shifted_leap : Shifted (Prod.map (shift c) id) h.leap (h.shift c).leap := by
  refine (h.shifted_settle c).andThen fun h => ?_
  obtain ⟨direction, phase, next, pages, startDue, skipDue, counters⟩ := h
  cases pages with
  | nil => exact .pure (_, false)
  | cons page rest =>
      have hjump := shifted_jump c ⟨direction, phase, next, rest, startDue, skipDue, counters⟩ page
      exact (hjump.andThen fun h => h.shifted_drain c).map fun _ => rfl

theorem shifted_sweep (pages : List Page) :
    Shifted (shift c) (h.sweep pages) ((h.shift c).sweep (pages.map (Page.shift c))) := by
  induction pages generalizing h with
  | nil => exact .pure h
  | cons page rest ih =>
      rw [List.map_cons, sweep, sweep]
      cases hn : h.next with
      | none =>
          rw [next_shift, hn]
          exact (h.shifted_jump c page).andThen ih
      | some next =>
          rw [next_shift, hn]
          simp only [Option.map_some, Backlog.isBehind_shift, Backlog.cutTo_shift]
          split
          · exact ⟨(ih h).value, (ih h).chunks, congrArg (· + 1) (ih h).freed⟩
          · exact (h.shifted_jump c (Backlog.cutTo next page)).andThen ih

theorem shifted_close : Shifted (shift c) h.close (h.shift c).close :=
  (shifted_sweep c { h with pages := [] } h.pages).andThen fun _ => ⟨rfl, rfl, rfl⟩

theorem shifted_synchronize (segment : Segment) :
    Shifted (shift c) (h.synchronize segment) ((h.shift c).synchronize (segment.shift c)) := by
  have hnone : (h.shift c).next.isNone = h.next.isNone := Option.isNone_map
  simp only [synchronize, Segment.payloadSeq_shift]
  rw [show (segment.shift c).flags = segment.flags from rfl,
    show (segment.shift c).payload = segment.payload from rfl, hnone]
  split
  · split
    · obtain ⟨hhalf, hchunk⟩ := handOn_shift c
        { h with
          counters := h.counters.addSegment, next := some segment.payloadSeq, phase := .started
          startDue := true, skipDue := false }
        (.payload ⟨0, 0⟩) _ rfl segment.payloadSeq 0
      exact ⟨hhalf, List.cons_eq_cons.2 ⟨hchunk, rfl⟩, rfl⟩
    · exact ⟨rfl, rfl, rfl⟩
  · exact ⟨rfl, rfl, rfl⟩

theorem shifted_arrive (segment : Segment) :
    Shifted (Prod.map (shift c) id) (h.arrive segment) ((h.shift c).arrive (segment.shift c)) := by
  rw [arrive, arrive]
  refine (h.shifted_synchronize c segment).andThen fun h => ⟨?_, rfl, rfl⟩
  have hfit : Fit.of (h.shift c).next (h.shift c).pages (segment.shift c).payloadSeq
      (segment.shift c).payload.length =
      Fit.of h.next h.pages segment.payloadSeq segment.payload.length := by
    rw [Segment.payloadSeq_shift]
    exact Fit.of_shift ..
  simp only [hfit]
  rfl

theorem shifted_drop (bytes : Nat) : Shifted (shift c) (h.drop bytes) ((h.shift c).drop bytes) :=
  ⟨rfl, rfl, rfl⟩

/-- Giving a page up does the same to shifted numbers. -/
theorem shifted_shed : Option.Rel (Shifted (shift c)) h.shed? (h.shift c).shed? := by
  obtain ⟨direction, phase, next, pages, startDue, skipDue, counters⟩ := h
  cases pages with
  | nil => exact .none
  | cons page rest =>
      refine .some ⟨?_, rfl, rfl⟩
      cases next with
      | none => rfl
      | some next =>
          simp only [shift, Option.map_some, Page.stop_shift, SeqNum.precedes_shift]
          split <;> rfl

end HalfStream
end TcpStreams
