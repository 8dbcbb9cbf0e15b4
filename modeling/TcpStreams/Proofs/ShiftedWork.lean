import TcpStreams.Proofs.Calls
import TcpStreams.Proofs.Shifts

/-!
# Work on shifted numbers

The numbers of a connection moved by one constant in each direction.  The work on a segment does the same to
shifted numbers, evictions from other connections included: arenas only count pages, and blank those that
come back.

* `Connection.shift`, `Entry.shift`: the numbers of a connection moved.
* `Work.Shifted`: two pieces of work that differ by shifted numbers only.
* `Work.Shifted.accept`: working a shifted segment in.
-/

namespace TcpStreams

open Yield (Shifted)

/-- A constant for every direction of every conversation.  What is forward depends on who opened the
connection, so the constants may depend on that as well. -/
abbrev Offsets := FlowId → Endpoint → Direction → Nat

variable {σ : Offsets}

/-! ## Connections -/

namespace Connection

/-- The constant for a direction of a connection. -/
def offset (σ : Offsets) (c : Connection) (d : Direction) : Nat := σ c.flow c.opener d

/-- The connection with its numbers moved by the constants of its directions. -/
def shift (σ : Offsets) (c : Connection) : Connection :=
  { c with
    forward := c.forward.shift (c.offset σ .forward)
    reverse := c.reverse.shift (c.offset σ .reverse) }

variable (c : Connection) (d : Direction)

theorem half_shift : (c.shift σ).half d = (c.half d).shift (c.offset σ d) := by cases d <;> rfl

theorem shift_setHalf (h : HalfStream) :
    (c.setHalf d h).shift σ = (c.shift σ).setHalf d (h.shift (c.offset σ d)) := by cases d <;> rfl

theorem offset_setHalf (h : HalfStream) (e : Direction) :
    (c.setHalf d h).offset σ e = c.offset σ e := by cases d <;> rfl

theorem pageCount_shift : (c.shift σ).pageCount = c.pageCount := by
  rw [pageCount, pageCount, shift, HalfStream.pageCount_shift, HalfStream.pageCount_shift]

theorem isOver_shift : (c.shift σ).isOver = c.isOver := rfl

theorem length_pages_shift : (c.shift σ).pages.length = c.pages.length := by
  simp only [pages, List.length_append]
  exact c.pageCount_shift

theorem shifted_onHalf {f f' : HalfStream → Yield HalfStream}
    (hf : Shifted (HalfStream.shift (c.offset σ d)) (f (c.half d))
      (f' ((c.half d).shift (c.offset σ d)))) :
    Shifted (shift σ) (c.onHalf d f) ((c.shift σ).onHalf d f') := by
  rw [onHalf, onHalf, half_shift]
  exact hf.map fun h => (c.shift_setHalf d h).symm

theorem shifted_leapIn : Shifted (Prod.map (shift σ) id) (c.leapIn d) ((c.shift σ).leapIn d) := by
  rw [leapIn, leapIn, half_shift]
  exact ((c.half d).shifted_leap _).map fun h => congrArg (·, h.2) (c.shift_setHalf d h.1).symm

theorem shifted_leap : Shifted (Prod.map (shift σ) id) (c.leap d) ((c.shift σ).leap d) := by
  rw [leap_eq, leap_eq]
  refine (c.shifted_leapIn d).andThen fun x => ?_
  obtain ⟨c, moved⟩ := x
  cases moved with
  | true => exact .pure (c, true)
  | false => exact c.shifted_leapIn d.opposite

theorem shifted_relieve (limit : Nat) :
    Shifted (shift σ) (c.relieve limit d) ((c.shift σ).relieve limit d) := by
  rw [relieve, relieve, pageCount_shift]
  generalize c.pageCount = fuel
  induction fuel generalizing c with
  | zero => exact .pure c
  | succ fuel ih =>
      rw [relieveWithin, relieveWithin, pageCount_shift]
      split
      · refine (c.shifted_leap d).andThen fun x => ?_
        obtain ⟨c, moved⟩ := x
        cases moved with
        | true => exact ih c
        | false => exact .pure c
      · exact .pure c

/-- Giving a page up does the same to shifted numbers. -/
theorem shifted_shed : Option.Rel (Shifted (shift σ)) c.shed? (c.shift σ).shed? := by
  have hforward := c.forward.shifted_shed (c.offset σ .forward)
  have hreverse := c.reverse.shifted_shed (c.offset σ .reverse)
  rw [shed?, shed?]
  simp only [shift]
  revert hforward hreverse
  generalize c.forward.shed? = f, (c.forward.shift (c.offset σ .forward)).shed? = f',
    c.reverse.shed? = r, (c.reverse.shift (c.offset σ .reverse)).shed? = r'
  rintro (hy | _) hreverse
  · exact .some (hy.map fun h => (c.shift_setHalf .forward h).symm)
  · cases hreverse with
    | none => exact .none
    | some hy => exact .some (hy.map fun h => (c.shift_setHalf .reverse h).symm)

theorem shifted_close : Shifted (shift σ) c.close (c.shift σ).close := by
  have hcloseIn : ∀ (c : Connection) d, Shifted (shift σ) (c.closeIn d) ((c.shift σ).closeIn d) := by
    intro c d
    refine c.shifted_onHalf d ?_
    rw [show ((c.half d).shift (c.offset σ d)).isClosed = (c.half d).isClosed from rfl]
    split
    · exact .pure _
    · exact (c.half d).shifted_close _
  rw [close_eq, close_eq]
  exact (hcloseIn c .forward).andThen fun c => hcloseIn c .reverse

end Connection

/-! ## Requests for pages -/

/-- Arenas blank the pages that come back: only their number counts. -/
theorem Arena.giveAll_congr {pages pages' : List Page} (h : pages'.length = pages.length)
    (arena : Arena) : arena.giveAll pages' = arena.giveAll pages := by
  induction pages generalizing arena pages' with
  | nil => rw [List.length_eq_zero_iff.1 h]
  | cons page rest ih =>
      obtain ⟨page', rest', rfl⟩ := List.exists_cons_of_length_eq_add_one h
      exact ih (Nat.succ.inj h) (arena.give page)

theorem Arena.take?_shift (arena : Arena) (seq : SeqNum) (c : Nat) :
    arena.take? (seq.advance c) = (arena.take? seq).map (Prod.map (Page.shift c) id) := by
  rw [take?, take?]
  split
  · rfl
  · split <;> rfl

/-- The entry with the numbers of its connection moved. -/
def Entry.shift (σ : Offsets) (entry : Entry) : Entry :=
  { entry with connection := entry.connection.shift σ }

/-- Two requests for a page that differ by shifted numbers only. -/
structure Claim.Shifted {α : Type} (f : α → α) (c : Nat) (claim claim' : Claim α) : Prop where
  /-- What gave pages up differs by shifted numbers. -/
  value : claim'.value = f claim.value
  /-- The arena is the same. -/
  arena : claim'.arena = claim.arena
  /-- The page, if there is one, differs by its number. -/
  page : claim'.page = claim.page.map (Page.shift c)

theorem shifted_reclaim {α : Type} {f : α → α} {shed? : α → Option (Yield α)}
    (hshed : ∀ a, Option.Rel (Shifted f) (shed? a) (shed? (f a))) (remarks : List Note) (seq : SeqNum)
    (c fuel : Nat) (a : α) (arena : Arena) :
    Claim.Shifted f c (reclaim shed? remarks seq fuel a arena)
      (reclaim shed? remarks (seq.advance c) fuel (f a) arena) := by
  induction fuel generalizing a arena with
  | zero => exact ⟨rfl, rfl, rfl⟩
  | succ fuel ih =>
      rw [reclaim, reclaim]
      have hgiven := hshed a
      revert hgiven
      generalize shed? a = r, shed? (f a) = r'
      rintro (hy | _)
      · simp only [Arena.giveAll_congr hy.freed, Arena.take?_shift]
        split
        · next heq =>
            rw [heq]
            exact ⟨hy.value, rfl, rfl⟩
        · next y _ _ heq =>
            have hrest := ih y.value (arena.giveAll y.freed)
            rw [← hy.value] at hrest
            rw [heq]
            exact ⟨hrest.value, hrest.arena, hrest.page⟩
      · exact ⟨rfl, rfl, rfl⟩

theorem shifted_evict (flow : FlowId) (locked : List FlowId) (seq : SeqNum) (c : Nat)
    (entries : List Entry) (arena : Arena) :
    Claim.Shifted (List.map (Entry.shift σ)) c (evict flow locked seq entries arena)
      (evict flow locked (seq.advance c) (entries.map (Entry.shift σ)) arena) := by
  induction entries generalizing arena with
  | nil => exact ⟨rfl, rfl, rfl⟩
  | cons entry rest ih =>
      have hflow : (entry.shift σ).flow = entry.flow := rfl
      rw [List.map_cons, evict, evict, hflow]
      split
      · have hrest := ih arena
        exact ⟨congrArg (entry.shift σ :: ·) hrest.value, hrest.arena, hrest.page⟩
      · have hclaim := shifted_reclaim (Connection.shifted_shed (σ := σ)) [.evicted flow entry.flow] seq c
          entry.connection.pageCount entry.connection arena
        simp only [show (entry.shift σ).connection = entry.connection.shift σ from rfl,
          Connection.pageCount_shift, hclaim.page, hclaim.value, hclaim.arena]
        cases hp : (reclaim Connection.shed? [.evicted flow entry.flow] seq entry.connection.pageCount
          entry.connection arena).page with
        | some page => exact ⟨rfl, rfl, rfl⟩
        | none =>
            have hrest := ih (reclaim Connection.shed? [.evicted flow entry.flow] seq
              entry.connection.pageCount entry.connection arena).arena
            exact ⟨congrArg (_ :: ·) hrest.value, hrest.arena, hrest.page⟩

/-! ## The work on a segment -/

namespace Work

/-- Two pieces of work that differ by shifted numbers only. -/
structure Shifted (σ : Offsets) (w w' : Work) : Prop where
  /-- The connections differ by shifted numbers. -/
  connection : w'.connection = w.connection.shift σ
  /-- So do the others. -/
  entries : w'.entries = w.entries.map (Entry.shift σ)
  /-- The arena is the same. -/
  arena : w'.arena = w.arena
  /-- The chunks are the same but for their numbers. -/
  chunks : w'.chunks.map Chunk.blind = w.chunks.map Chunk.blind

namespace Shifted

variable {w w' : Work} {limit : Nat} {locked : List FlowId} {d : Direction}

theorem absorb (hw : Shifted σ w w') {y y' : Yield Connection}
    (hy : Yield.Shifted (Connection.shift σ) y y') : Shifted σ (w.absorb y) (w'.absorb y') := by
  refine ⟨hy.value, hw.entries, ?_, ?_⟩
  · simp only [Work.absorb, hw.arena, Arena.giveAll_congr hy.freed]
  · simp only [Work.absorb, List.map_append, hw.chunks, hy.chunks]

theorem onHalf (hw : Shifted σ w w') {f f' : HalfStream → Yield HalfStream} {c : Nat}
    (hc : w.connection.offset σ d = c)
    (hf : ∀ h, Yield.Shifted (HalfStream.shift c) (f h) (f' (h.shift c))) :
    Shifted σ (w.onHalf d f) (w'.onHalf d f') := by
  rw [Work.onHalf, Work.onHalf, hw.connection]
  refine hw.absorb (w.connection.shifted_onHalf d ?_)
  rw [hc]
  exact hf _

theorem relieve (hw : Shifted σ w w') (limit : Nat) (d : Direction) :
    Shifted σ (w.relieve limit d) (w'.relieve limit d) := by
  rw [Work.relieve, Work.relieve, hw.connection]
  exact hw.absorb (w.connection.shifted_relieve d limit)

theorem obtain_page (hw : Shifted σ w w') (locked : List FlowId) (d : Direction) (seq : SeqNum) :
    Shifted σ (w.obtain locked d seq).1
        (w'.obtain locked d (seq.advance (w.connection.offset σ d))).1 ∧
      (w'.obtain locked d (seq.advance (w.connection.offset σ d))).2 =
        (w.obtain locked d seq).2.map (Page.shift (w.connection.offset σ d)) := by
  generalize hc : w.connection.offset σ d = c
  rw [Work.obtain, Work.obtain, hw.arena, Arena.take?_shift]
  cases ht : w.arena.take? seq with
  | some out => exact ⟨⟨hw.connection, hw.entries, rfl, hw.chunks⟩, rfl⟩
  | none =>
      have hflow : w'.connection.flow = w.connection.flow := by
        rw [hw.connection]
        rfl
      have hevict := shifted_evict (σ := σ) w.connection.flow locked seq c w.entries w.arena
      simp only [Option.map_none, hflow, hw.entries]
      rw [hevict.page]
      cases hp : (evict w.connection.flow locked seq w.entries w.arena).page with
      | some page => exact ⟨⟨hw.connection, hevict.value, hevict.arena, hw.chunks⟩, rfl⟩
      | none =>
          have hhalf : w'.connection.half d = (w.connection.half d).shift c := by
            rw [hw.connection, Connection.half_shift, hc]
          have hclaim := shifted_reclaim (HalfStream.shifted_shed c) [] seq c
            (w.connection.half d).pageCount (w.connection.half d)
            (evict w.connection.flow locked seq w.entries w.arena).arena
          simp only [Option.map_none, hhalf, HalfStream.pageCount_shift, hevict.arena, hclaim.page, and_true]
          refine ⟨?_, hevict.value, hclaim.arena, hw.chunks⟩
          rw [hclaim.value, hw.connection, Connection.shift_setHalf, hc]

theorem store {start : SeqNum} {payload : List UInt8} (ps : List Portion) (hw : Shifted σ w w')
    {c : Nat} (hc : w.connection.offset σ d = c) :
    Shifted σ (Work.store limit locked d start payload ps w)
      (Work.store limit locked d (start.advance c) payload ps w') := by
  induction ps generalizing w w' with
  | nil => exact hw
  | cons p rest ih =>
      -- the constants are those of the connection, which stays the one that it is
      have hkept : ∀ {v : Work}, Connection.Kin w.connection v.connection →
          v.connection.offset σ d = c := fun hkin => by
        rw [← hc, Connection.offset, Connection.offset, hkin.flow, hkin.opener]
      have hrelieved := (continues_relieve w limit d).connection.kin
      obtain ⟨hgot, hpage⟩ := (hw.relieve limit d).obtain_page locked d (start.advance p.span.start)
      have hobtained := hrelieved.trans (continues_obtain (w.relieve limit d) locked d
        (start.advance p.span.start)).connection.kin
      rw [hkept hrelieved, SeqNum.advance_comm] at hgot hpage
      rw [Work.store, Work.store]
      generalize (w.relieve limit d).obtain locked d (start.advance p.span.start) = o at *
      generalize (w'.relieve limit d).obtain locked d ((start.advance c).advance p.span.start) = o' at *
      obtain ⟨v, page⟩ := o
      obtain ⟨v', page'⟩ := o'
      obtain rfl : page' = page.map (Page.shift c) := hpage
      cases page with
      | none => exact hgot.onHalf (hkept hobtained) fun h => h.shifted_drop c _
      | some page =>
          refine ih (hgot.onHalf (hkept hobtained) fun h => ?_)
            (hkept (hobtained.trans (Connection.kin_setHalf _ _ _)))
          exact ⟨h.hold_shift c (page.fill (p.span.slice payload)), rfl, rfl⟩

/-- **Working a shifted segment in** does the same to shifted numbers. -/
theorem accept (hw : Shifted σ w w') {c : Nat} (hc : w.connection.offset σ d = c)
    (segment : Segment) :
    Shifted σ (w.accept limit locked d segment) (w'.accept limit locked d (segment.shift c)) := by
  have harrive : Yield.Shifted (Prod.map (HalfStream.shift c) id) ((w.connection.half d).arrive segment)
      ((w'.connection.half d).arrive (segment.shift c)) := by
    rw [hw.connection, Connection.half_shift, hc]
    exact (w.connection.half d).shifted_arrive c segment
  have harrived : Shifted σ (w.arrived d segment) (w'.arrived d (segment.shift c)) := by
    refine hw.absorb (harrive.map fun x => ?_)
    rw [hw.connection, Connection.shift_setHalf, hc]
    rfl
  have hfit : w'.fit d (segment.shift c) = w.fit d segment := by
    rw [fit, fit, harrive.value]
    rfl
  have hc' : (w.arrived d segment).connection.offset σ d = c :=
    (Connection.offset_setHalf ..).trans hc
  have hplaced : Shifted σ (w.placed limit locked d segment)
      (w'.placed limit locked d (segment.shift c)) := by
    rw [placed, placed, hfit]
    cases w.fit d segment with
    | empty | behind | covered => exact harrived
    | inOrder offset => exact harrived.onHalf hc' fun h => h.shifted_pass c _ offset
    | ahead pieces =>
        simp only [apply, Segment.payloadSeq_shift]
        exact harrived.store _ hc'
  have hsettled : Shifted σ (w.settled limit locked d segment)
      (w'.settled limit locked d (segment.shift c)) :=
    (hplaced.onHalf rfl fun h => h.shifted_drain _).relieve limit d
  rw [accept_eq, accept_eq, show (segment.shift c).flags = segment.flags from rfl]
  split
  · exact hsettled.onHalf rfl fun h => h.shifted_close _
  · exact hsettled

end Shifted
end Work
end TcpStreams
