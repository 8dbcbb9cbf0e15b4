import TcpStreams.Proofs.Granted
import TcpStreams.Proofs.Kinship

/-!
# A segment that is refused no page

What becomes of a connection while the arena refuses nothing depends on the connection and the segment
alone: not on the arena, not on the pages that it hands out, and not on the other connections.  Nor does
the number of its stream matter.

* `Connection.welcome`: what a segment makes of its connection, and the chunks that it hands over.
* `Work.accept_of_granted`, `Arrival.work_of_granted`: the work on a segment makes that of it.
* `Connection.welcome_renumber`, `Connection.close_renumber`: the same happens to a stream with another
  number.
-/

namespace TcpStreams

namespace Connection

/-! ## What a segment makes of its connection -/

/-- Lets parts of a payload wait, each on a page of its own. -/
def stow (limit : Nat) (d : Direction) (start : SeqNum) (payload : List UInt8) :
    List Portion → Connection → Yield Connection
  | [], c => { value := c }
  | p :: rest, c =>
    (c.relieve limit d).andThen fun c =>
      stow limit d start payload rest (c.setHalf d ((c.half d).hold (p.page start payload)))

/-- Does what the place of a segment's data asks for. -/
def place (limit : Nat) (d : Direction) (segment : Segment) (c : Connection) : Fit → Yield Connection
  | .inOrder offset => c.onHalf d fun h => h.pass segment.payload.length offset
  | .ahead pieces =>
    stow limit d segment.payloadSeq segment.payload (pieces.flatMap Span.portions) c
  | .empty | .behind | .covered => { value := c }

/-- Counts a segment and decides how its data fits. -/
def greet (d : Direction) (segment : Segment) (c : Connection) : Yield (Connection × Fit) :=
  ((c.half d).arrive segment).map fun x => (c.setHalf d x.1, x.2)

/-- What comes after the data of a segment found its place. -/
def settleDown (limit : Nat) (d : Direction) (closes : Bool) (c : Connection) : Yield Connection :=
  (c.onHalf d HalfStream.drain).andThen fun c =>
    (c.relieve limit d).andThen fun c =>
      if closes then c.onHalf d HalfStream.close else { value := c }

/-- What a segment makes of its connection if it is refused no page. -/
def welcome (limit : Nat) (d : Direction) (segment : Segment) (c : Connection) : Yield Connection :=
  if (c.half d).isClosed then { value := c }
  else
    (c.greet d segment).andThen fun x =>
      (x.1.place limit d segment x.2).andThen fun c => c.settleDown limit d segment.flags.closes

end Connection

namespace Work

variable {ceiling limit : Nat} {d : Direction} {w w' w'' : Work} {locked : List FlowId}
  {start : SeqNum} {payload : List UInt8} {segment : Segment}

/-- A piece of work that makes of the connection, and hands over, what `y` says. -/
structure Makes (w : Work) (y : Yield Connection) (w' : Work) : Prop where
  /-- What becomes of the connection. -/
  connection : w'.connection = y.value
  /-- What is handed over. -/
  chunks : w'.chunks = w.chunks ++ y.chunks

theorem Makes.refl (w : Work) : Makes w { value := w.connection } w := ⟨rfl, (List.append_nil _).symm⟩

theorem makes_absorb (w : Work) (y : Yield Connection) : Makes w y (w.absorb y) := ⟨rfl, rfl⟩

theorem Makes.andThen {y : Yield Connection} {f : Connection → Yield Connection} (h : Makes w y w')
    (h' : Makes w' (f w'.connection) w'') : Makes w (y.andThen f) w'' := by
  rw [h.connection] at h'
  refine ⟨h'.connection, ?_⟩
  rw [h'.chunks, h.chunks, List.append_assoc]
  rfl

theorem makes_store {ps : List Portion} (hs : w.arena.Sound ceiling)
    (hg : Granted limit locked d start payload ps w) :
    Makes w (w.connection.stow limit d start payload ps)
      (store limit locked d start payload ps w) := by
  induction ps generalizing w with
  | nil => exact .refl w
  | cons p rest ih =>
      obtain ⟨hspent, hg⟩ := hg
      obtain ⟨hstore, hconn, -, hchunks, hsound, -⟩ :=
        @store_of_granted ceiling limit d w locked start payload hs hspent p rest
      have hrest := ih hsound hg
      rw [hconn] at hrest
      rw [hstore, Connection.stow]
      refine (makes_absorb w (w.connection.relieve limit d)).andThen ⟨hrest.connection, ?_⟩
      rw [hrest.chunks, hchunks]
      rfl

/-- **Working a segment in** makes of the connection what the segment makes of it. -/
theorem accept_of_granted (hs : w.arena.Sound ceiling) (hopen : (w.connection.half d).isClosed = false)
    (hg : Granted limit locked d segment.payloadSeq segment.payload (w.fit d segment).portions
      (w.arrived d segment)) :
    Makes w (w.connection.welcome limit d segment) (w.accept limit locked d segment) := by
  have hplaced : Makes (w.arrived d segment)
      ((w.arrived d segment).connection.place limit d segment (w.fit d segment))
      (w.placed limit locked d segment) := by
    rw [placed]
    cases hfit : w.fit d segment with
    | empty | behind | covered => exact .refl _
    | inOrder offset => exact makes_absorb _ _
    | ahead pieces =>
        rw [hfit] at hg
        exact makes_store (hs.giveAll _) hg
  have hafter : Makes (w.placed limit locked d segment)
      ((w.placed limit locked d segment).connection.settleDown limit d segment.flags.closes)
      (w.accept limit locked d segment) := by
    refine (makes_absorb _ _).andThen ((makes_absorb _ _).andThen ?_)
    rw [accept_eq]
    split
    · exact makes_absorb _ _
    · exact .refl _
  have hboth := hplaced.andThen hafter
  rw [Connection.welcome, if_neg (ne_true_of_eq_false hopen)]
  refine ⟨hboth.connection, ?_⟩
  rw [hboth.chunks]
  exact List.append_assoc ..

end Work

/-- **A segment that arrives** and is refused no page makes of its connection what it would make of it anywhere,
and leaves the others as they are. -/
theorem Arrival.work_of_granted {ceiling : Nat} {a : Arrival} (hg : a.Granted)
    (hs : a.before.Sound ceiling) :
    Work.Makes a.before (a.connection.welcome a.config.pagesPerConnection a.direction a.segment) a.work ∧
      a.work.entries = a.state.registry.entries := by
  have hentries := (hg.spares hs).1
  cases hclosed : a.half.isClosed with
  | true =>
      obtain ⟨hconn, -, -, hchunks⟩ := work_of_closed hclosed
      rw [Connection.welcome, if_pos (show (a.connection.half a.direction).isClosed = true from hclosed)]
      exact ⟨⟨hconn, hchunks⟩, hentries⟩
  | false =>
      have hmakes := Work.accept_of_granted hs.arena hclosed (hg hclosed)
      rw [← work_of_open hclosed] at hmakes
      exact ⟨hmakes, hentries⟩

/-! ## Numbers of streams -/

namespace Yield

variable {α β γ : Type}

theorem map_andThen (y : Yield α) (f : α → β) (g : β → Yield γ) :
    (y.map f).andThen g = y.andThen fun a => g (f a) := rfl

theorem andThen_map (y : Yield α) (g : α → Yield β) (f : β → γ) :
    (y.andThen g).map f = y.andThen fun a => (g a).map f := rfl

end Yield

namespace Connection

/-- The connection with its data going to the stream that `ρ` says. -/
def renumber (ρ : Nat → Nat) (c : Connection) : Connection := { c with stream := ρ c.stream }

variable (ρ : Nat → Nat) (c : Connection) (limit : Nat) (d : Direction)

theorem half_renumber : (c.renumber ρ).half d = c.half d := by cases d <;> rfl

theorem setHalf_renumber (h : HalfStream) :
    (c.renumber ρ).setHalf d h = (c.setHalf d h).renumber ρ := by cases d <;> rfl

theorem onHalf_renumber (f : HalfStream → Yield HalfStream) :
    (c.renumber ρ).onHalf d f = (c.onHalf d f).map (renumber ρ) := by
  simp only [onHalf, half_renumber, Yield.map, setHalf_renumber]

theorem leapIn_renumber :
    (c.renumber ρ).leapIn d = (c.leapIn d).map (Prod.map (renumber ρ) id) := by
  simp only [leapIn, half_renumber, Yield.map, setHalf_renumber, Prod.map, id]

theorem leap_renumber : (c.renumber ρ).leap d = (c.leap d).map (Prod.map (renumber ρ) id) := by
  rw [leap_eq, leap_eq, leapIn_renumber, Yield.map_andThen, Yield.andThen_map]
  congr 1
  funext x
  obtain ⟨c, moved⟩ := x
  cases moved with
  | true => rfl
  | false => exact c.leapIn_renumber ρ d.opposite

theorem relieve_renumber : (c.renumber ρ).relieve limit d = (c.relieve limit d).map (renumber ρ) := by
  have hcount : ∀ c : Connection, (c.renumber ρ).pageCount = c.pageCount := fun _ => rfl
  rw [relieve, relieve, hcount]
  generalize c.pageCount = fuel
  induction fuel generalizing c with
  | zero => rfl
  | succ fuel ih =>
      rw [relieveWithin, relieveWithin, hcount]
      split
      · rw [leap_renumber, Yield.map_andThen, Yield.andThen_map]
        congr 1
        funext x
        obtain ⟨c, moved⟩ := x
        cases moved with
        | true => exact ih c
        | false => rfl
      · rfl

theorem close_renumber : (c.renumber ρ).close = c.close.map (renumber ρ) := by
  have hcloseIn : ∀ (c : Connection) d, (c.renumber ρ).closeIn d = (c.closeIn d).map (renumber ρ) :=
    fun c d => c.onHalf_renumber ρ d _
  rw [close_eq, close_eq, hcloseIn, Yield.map_andThen, Yield.andThen_map]
  exact congrArg ((c.closeIn .forward).andThen ·) (funext fun c => hcloseIn c .reverse)

theorem stow_renumber (start : SeqNum) (payload : List UInt8) (ps : List Portion) :
    (c.renumber ρ).stow limit d start payload ps =
      (c.stow limit d start payload ps).map (renumber ρ) := by
  induction ps generalizing c with
  | nil => rfl
  | cons p rest ih =>
      rw [stow, stow, relieve_renumber, Yield.map_andThen, Yield.andThen_map]
      congr 1
      funext c
      rw [half_renumber, setHalf_renumber]
      exact ih _

/-- **What a segment makes of its connection** does not depend on the number of the stream. -/
theorem welcome_renumber (segment : Segment) :
    (c.renumber ρ).welcome limit d segment = (c.welcome limit d segment).map (renumber ρ) := by
  have hplace : ∀ (c : Connection) fit,
      (c.renumber ρ).place limit d segment fit = (c.place limit d segment fit).map (renumber ρ) := by
    intro c fit
    cases fit with
    | empty | behind | covered => rfl
    | inOrder offset => exact c.onHalf_renumber ρ d fun h => h.pass segment.payload.length offset
    | ahead pieces => exact c.stow_renumber ρ limit d _ _ _
  have hsettle : ∀ (c : Connection) closes,
      (c.renumber ρ).settleDown limit d closes = (c.settleDown limit d closes).map (renumber ρ) := by
    intro c closes
    rw [settleDown, settleDown, onHalf_renumber, Yield.map_andThen, Yield.andThen_map]
    congr 1
    funext c
    rw [relieve_renumber, Yield.map_andThen, Yield.andThen_map]
    congr 1
    funext c
    cases closes with
    | true => exact c.onHalf_renumber ρ d _
    | false => rfl
  have hgreet : (c.renumber ρ).greet d segment =
      (c.greet d segment).map (Prod.map (renumber ρ) id) := by
    simp only [greet, half_renumber, Yield.map, setHalf_renumber, Prod.map, id]
  rw [welcome, welcome, half_renumber]
  split
  · rfl
  · rw [hgreet, Yield.map_andThen, Yield.andThen_map]
    congr 1
    funext x
    rw [Yield.andThen_map, show (Prod.map (renumber ρ) id x).1 = x.1.renumber ρ from rfl, hplace,
      Yield.map_andThen]
    congr 1
    exact funext fun c => hsettle c _

end Connection
end TcpStreams
