import TcpStreams.Proofs.Enduring

/-!
# Limits of connections

A reassembler gives every connection that it works on a limit of pages.  The limit is not one that the
connection always keeps: a reassembler with a greater one may have let more pages wait.  But from the first
time on that a connection is relieved, no more wait than the limit, and when the call is over, fewer.

What becomes of a connection while a segment is worked in is told moment by moment, by recursion along the
work itself.  From one moment to the next a page is kept, which adds one, or pages go: a leap, a drain and
the end of a half-stream take them away one by one, and giving up takes away the first.

* `Moment`: the connection of a segment at one moment of the work, and what was done last.
* `Arrival.moments`: all the moments of the work on a segment.
* `Moment.Steady`: only keeping a page adds one, and only below the limit.
* `Session.pages_limited`: what holds of the pages of connections in every session.
-/

namespace TcpStreams

/-! ## Moments -/

/-- What was done to the connection of a segment last. -/
inductive Stage where
  /-- The segment was taken note of. -/
  | arrived
  /-- Data in order went through. -/
  | passed
  /-- A half-stream leapt, or had nowhere to leap to. -/
  | leapt
  /-- The connection was brought below its limit. -/
  | relieved
  /-- The half-stream gave its first page up. -/
  | shed
  /-- A page was kept. -/
  | held
  /-- The rest of a piece was given up. -/
  | dropped
  /-- What continues the stream was handed on. -/
  | drained
  /-- The half-stream ended. -/
  | closed
deriving DecidableEq

/-- A moment of the work on a segment. -/
structure Moment where
  /-- What was done last. -/
  stage : Stage
  /-- The connection of the segment. -/
  connection : Connection

/-- The number of pages that wait at a moment. -/
def Moment.count (m : Moment) : Nat := m.connection.pageCount

/-- The moments of a relief that leaps at most so many times: every leap of a half-stream, and the end. -/
def Connection.reliefMoments (limit : Nat) (d : Direction) : Nat → Connection → List Moment
  | 0, c => [⟨.relieved, c⟩]
  | fuel + 1, c =>
    if limit ≤ c.pageCount then
      let first := (c.leapIn d).value
      if first.2 then ⟨.leapt, first.1⟩ :: reliefMoments limit d fuel first.1
      else
        let second := (first.1.leapIn d.opposite).value
        ⟨.leapt, first.1⟩ :: ⟨.leapt, second.1⟩ ::
          if second.2 then reliefMoments limit d fuel second.1 else [⟨.relieved, second.1⟩]
    else [⟨.relieved, c⟩]

/-- What becomes of a half-stream that gives up pages, at most so many, until the arena hands one out. -/
def HalfStream.shedTrail (seq : SeqNum) : Nat → HalfStream → Arena → List HalfStream
  | 0, _, _ => []
  | fuel + 1, h, arena =>
    match h.shed? with
    | none => []
    | some y =>
      let arena := arena.giveAll y.freed
      y.value :: if (arena.take? seq).isSome then [] else shedTrail seq fuel y.value arena

namespace Work

/-- The moments of a relief. -/
def reliefMoments (w : Work) (limit : Nat) (d : Direction) : List Moment :=
  w.connection.reliefMoments limit d w.connection.pageCount

/-- The moments of a request for a page: the half-stream gives up pages if no other connection has any. -/
def obtainMoments (w : Work) (locked : List FlowId) (d : Direction) (seq : SeqNum) : List Moment :=
  if (w.arena.take? seq).isSome then []
  else
    let claim := evict w.connection.flow locked seq w.entries w.arena
    if claim.page.isSome then []
    else
      let half := w.connection.half d
      (half.shedTrail seq half.pageCount claim.arena).map fun h => ⟨.shed, w.connection.setHalf d h⟩

/-- The moments while parts of a payload are stored. -/
def storeMoments (limit : Nat) (locked : List FlowId) (d : Direction) (start : SeqNum)
    (payload : List UInt8) : List Portion → Work → List Moment
  | [], _ => []
  | portion :: rest, w =>
    let relieved := w.relieve limit d
    let seq := start.advance portion.span.start
    let further :=
      match relieved.obtain locked d seq with
      | (w, none) =>
        let w := w.onHalf d fun h => h.drop (portion.pieceStop - portion.span.start)
        [⟨.dropped, w.connection⟩]
      | (w, some page) =>
        let page := page.fill (portion.span.slice payload)
        let w := w.onHalf d fun h => { value := h.hold page }
        ⟨.held, w.connection⟩ :: storeMoments limit locked d start payload rest w
    w.reliefMoments limit d ++ (relieved.obtainMoments locked d seq ++ further)

/-- The moments until the data of a segment has found its place. -/
def placeMoments (w : Work) (limit : Nat) (locked : List FlowId) (d : Direction) (segment : Segment) :
    List Moment :=
  ⟨.arrived, (w.arrived d segment).connection⟩ ::
    match w.fit d segment with
    | .inOrder _ => [⟨.passed, (w.placed limit locked d segment).connection⟩]
    | .ahead pieces =>
      storeMoments limit locked d segment.payloadSeq segment.payload (pieces.flatMap Span.portions)
        (w.arrived d segment)
    | .empty | .behind | .covered => []

/-- The moments of the work on a segment. -/
def acceptMoments (w : Work) (limit : Nat) (locked : List FlowId) (d : Direction) (segment : Segment) :
    List Moment :=
  let drained := (w.placed limit locked d segment).onHalf d HalfStream.drain
  let settled := w.settled limit locked d segment
  w.placeMoments limit locked d segment ++ ⟨.drained, drained.connection⟩ ::
    (drained.reliefMoments limit d ++
      if segment.flags.closes then [⟨.closed, (settled.onHalf d HalfStream.close).connection⟩] else [])

end Work

/-- The moments of the work on a segment that arrived.  For a direction that is over there is nothing to
do. -/
def Arrival.moments (a : Arrival) : List Moment :=
  if a.half.isClosed then []
  else a.before.acceptMoments a.config.pagesPerConnection a.locked a.direction a.segment

/-! ## From one moment to the next -/

namespace Moment

variable {limit n : Nat} {c c' c'' : Connection} {m : Moment} {ms ms' : List Moment}

/-- `Steady limit n ms`: after `n` pages wait, a moment at which more wait than before comes only from a page
that is kept, which adds one, below the limit; and whenever a connection was relieved, it is below. -/
def Steady (limit : Nat) : Nat → List Moment → Prop
  | _, [] => True
  | n, m :: rest =>
    (m.count ≤ n ∨ m.stage = .held ∧ n < limit ∧ m.count = n + 1) ∧
      (m.stage = .relieved → m.count < limit) ∧ Steady limit m.count rest

/-- The connection at the last of some moments, if it was `c` before. -/
def final (c : Connection) (ms : List Moment) : Connection := ms.foldl (fun _ m => m.connection) c

theorem final_append : final c (ms ++ ms') = final (final c ms) ms' := List.foldl_append

theorem getLast?_eq_final (hne : ms ≠ []) :
    ms.getLast?.map connection = some (final c ms) := by
  obtain rfl | ⟨rest, m, rfl⟩ := ms.eq_nil_or_concat
  · exact absurd rfl hne
  · rw [List.concat_eq_append, List.getLast?_concat, final_append]
    rfl

/-- `Tells limit c ms c'`: moments that lead from `c` to `c'`, and are steady. -/
structure Tells (limit : Nat) (c : Connection) (ms : List Moment) (c' : Connection) : Prop where
  /-- The moments are steady. -/
  steady : Steady limit c.pageCount ms
  /-- The last one is the end. -/
  final : final c ms = c'

namespace Steady

theorem append (h : Steady limit c.pageCount ms)
    (h' : Steady limit (Moment.final c ms).pageCount ms') : Steady limit c.pageCount (ms ++ ms') := by
  induction ms generalizing c with
  | nil => exact h'
  | cons m rest ih => exact ⟨h.1, h.2.1, ih (c := m.connection) h.2.2 h'⟩

/-- **No moment at which the limit is kept is followed by one at which it is not.** -/
theorem below (h : Steady limit n ms) (hn : n ≤ limit) : ∀ m ∈ ms, m.count ≤ limit := by
  induction ms generalizing n with
  | nil => exact fun _ hm => nomatch hm
  | cons m rest ih =>
      obtain ⟨hstep, -, hrest⟩ := h
      have hm : m.count ≤ limit := by omega
      intro m' hm'
      rcases List.mem_cons.1 hm' with rfl | hm'
      · exact hm
      · exact ih hrest hm m' hm'

theorem pairwise (h : Steady limit n ms) :
    ms.Pairwise fun m m' => m.count ≤ limit → m'.count ≤ limit := by
  induction ms generalizing n with
  | nil => exact List.Pairwise.nil
  | cons m rest ih =>
      obtain ⟨-, -, hrest⟩ := h
      exact List.pairwise_cons.2 ⟨fun m' hm' hm => hrest.below hm m' hm', ih hrest⟩

theorem relieved (h : Steady limit n ms) : ∀ m ∈ ms, m.stage = .relieved → m.count < limit := by
  induction ms generalizing n with
  | nil => exact fun _ hm => nomatch hm
  | cons m rest ih =>
      obtain ⟨-, hrelieved, hrest⟩ := h
      intro m' hm'
      rcases List.mem_cons.1 hm' with rfl | hm'
      · exact hrelieved
      · exact ih hrest m' hm'

end Steady

namespace Tells

theorem refl (limit : Nat) (c : Connection) : Tells limit c [] c := ⟨trivial, rfl⟩

theorem trans (h : Tells limit c ms c') (h' : Tells limit c' ms' c'') :
    Tells limit c (ms ++ ms') c'' := by
  obtain ⟨hsteady, rfl⟩ := h
  obtain ⟨hsteady', rfl⟩ := h'
  exact ⟨hsteady.append hsteady', final_append⟩

/-- If the limit is kept before, it is kept in the end. -/
theorem pageCount_le (h : Tells limit c ms c') (hc : c.pageCount ≤ limit) : c'.pageCount ≤ limit := by
  obtain ⟨hsteady, rfl⟩ := h
  induction ms generalizing c with
  | nil => exact hc
  | cons m rest ih => exact ih (c := m.connection) (hsteady.below hc m (List.mem_cons_self ..)) hsteady.2.2

/-- A step after which no more pages wait. -/
theorem step {stage : Stage} (hstage : stage ≠ .relieved) (hle : c'.pageCount ≤ c.pageCount)
    (h : Tells limit c' ms c'') : Tells limit c (⟨stage, c'⟩ :: ms) c'' :=
  ⟨⟨Or.inl hle, fun hs => absurd hs hstage, h.steady⟩, h.final⟩

/-- A page is kept. -/
theorem hold (hlt : c.pageCount < limit) (hcount : c'.pageCount = c.pageCount + 1)
    (h : Tells limit c' ms c'') : Tells limit c (⟨.held, c'⟩ :: ms) c'' :=
  ⟨⟨Or.inr ⟨rfl, hlt, hcount⟩, nofun, h.steady⟩, h.final⟩

/-- The end of a relief. -/
theorem relieved (hlt : c.pageCount < limit) : Tells limit c [⟨.relieved, c⟩] c :=
  ⟨⟨Or.inl (Nat.le_refl _), fun _ => hlt, trivial⟩, rfl⟩

end Tells

end Moment

open Moment (Tells)

/-! ## The moments of the steps -/

namespace Connection

variable {limit : Nat} {d : Direction}

/-- The moments of a relief. -/
theorem reliefMoments_tell (hlimit : 0 < limit) (d : Direction) (fuel : Nat) (c : Connection)
    (hfuel : c.pageCount ≤ fuel) :
    Tells limit c (c.reliefMoments limit d fuel) (relieveWithin limit d fuel c).value := by
  induction fuel generalizing c with
  | zero => exact .relieved (Nat.lt_of_le_of_lt hfuel hlimit)
  | succ fuel ih =>
      rw [reliefMoments, relieveWithin]
      split
      case isFalse hlt => exact .relieved (Nat.lt_of_not_le hlt)
      case isTrue hle =>
        obtain ⟨hlt, hzero⟩ := pageCount_leap c d (Nat.lt_of_lt_of_le hlimit hle)
        have hfirst := c.pageCount_leapIn_add d
        have hsecond := (c.leapIn d).value.1.pageCount_leapIn_add d.opposite
        cases hm : (c.leapIn d).value.2 with
        | true =>
            have hleap : (c.leap d).value = ((c.leapIn d).value.1, true) := (leap_of_moved hm).1
            simp only [Yield.andThen, hleap, hm, if_true] at hlt ⊢
            exact .step (by decide) (by omega) (ih _ (by omega))
        | false =>
            have hleap : (c.leap d).value = ((c.leapIn d).value.1.leapIn d.opposite).value :=
              (leap_of_not_moved hm).1
            simp only [Yield.andThen, hleap, hm, Bool.false_eq_true, if_false] at hlt hzero ⊢
            refine .step (by decide) (by omega) (.step (by decide) (by omega) ?_)
            cases hm' : ((c.leapIn d).value.1.leapIn d.opposite).value.2 with
            | true =>
                simp only [if_true]
                exact ih _ (by omega)
            | false =>
                simp only [Bool.false_eq_true, if_false]
                exact .relieved (by rw [hzero hm']; exact hlimit)

/-- A relief comes to an end. -/
theorem exists_relieved (limit : Nat) (d : Direction) (fuel : Nat) (c : Connection) :
    ∃ m ∈ c.reliefMoments limit d fuel, m.stage = .relieved := by
  induction fuel generalizing c with
  | zero => exact ⟨_, List.mem_singleton_self _, rfl⟩
  | succ fuel ih =>
      rw [reliefMoments]
      split
      · simp only
        split
        · obtain ⟨m, hm, hstage⟩ := ih (c.leapIn d).value.1
          exact ⟨m, List.mem_cons_of_mem _ hm, hstage⟩
        · split
          · obtain ⟨m, hm, hstage⟩ := ih ((c.leapIn d).value.1.leapIn d.opposite).value.1
            exact ⟨m, List.mem_cons_of_mem _ (List.mem_cons_of_mem _ hm), hstage⟩
          · exact ⟨_, List.mem_cons_of_mem _ (List.mem_cons_of_mem _ (List.mem_singleton_self _)), rfl⟩
      · exact ⟨_, List.mem_singleton_self _, rfl⟩

end Connection

namespace Work

variable {limit : Nat} {locked : List FlowId} {d : Direction} {start : SeqNum} {payload : List UInt8}
  {segment : Segment} {w : Work}

theorem reliefMoments_tell (hlimit : 0 < limit) (w : Work) (d : Direction) :
    Tells limit w.connection (w.reliefMoments limit d) (w.relieve limit d).connection :=
  Connection.reliefMoments_tell hlimit d _ _ (Nat.le_refl _)

/-- The moments at which a half-stream gives pages up. -/
theorem shedTrail_tells (limit : Nat) (c : Connection) (d : Direction) (seq : SeqNum) (fuel : Nat)
    (h : HalfStream) (arena : Arena) :
    Tells limit (c.setHalf d h) ((h.shedTrail seq fuel arena).map fun h => ⟨.shed, c.setHalf d h⟩)
      (c.setHalf d (reclaim HalfStream.shed? [] seq fuel h arena).value) := by
  induction fuel generalizing h arena with
  | zero => exact .refl _ _
  | succ fuel ih =>
      rw [HalfStream.shedTrail, reclaim]
      cases hy : h.shed? with
      | none => exact .refl _ _
      | some y =>
          obtain ⟨page, rest, hp, hv, -⟩ := HalfStream.shed?_some hy
          have hle : (c.setHalf d y.value).pageCount ≤ (c.setHalf d h).pageCount := by
            rw [Connection.pageCount_setHalf, Connection.pageCount_setHalf, hv]
            simp only [HalfStream.pageCount, HalfStream.lose, hp, List.length_cons]
            omega
          refine .step (by decide) hle ?_
          simp only
          cases (arena.giveAll y.freed).take? seq with
          | some out => exact .refl _ _
          | none => exact ih y.value _

/-- The moments of a request for a page. -/
theorem obtainMoments_tell (limit : Nat) (w : Work) (locked : List FlowId) (d : Direction)
    (seq : SeqNum) :
    Tells limit w.connection (w.obtainMoments locked d seq) (w.obtain locked d seq).1.connection := by
  rw [obtainMoments, obtain]
  cases w.arena.take? seq with
  | some out => exact .refl _ _
  | none =>
      simp only [Option.isSome_none, Bool.false_eq_true, if_false]
      cases (evict w.connection.flow locked seq w.entries w.arena).page with
      | some page => exact .refl _ _
      | none =>
          have htrail := shedTrail_tells limit w.connection d seq (w.connection.half d).pageCount
            (w.connection.half d) (evict w.connection.flow locked seq w.entries w.arena).arena
          rw [Connection.setHalf_half] at htrail
          exact htrail

/-- A request for a page makes no page wait that did not. -/
theorem pageCount_obtain_le (w : Work) (locked : List FlowId) (d : Direction) (seq : SeqNum) :
    (w.obtain locked d seq).1.connection.pageCount ≤ w.connection.pageCount :=
  (obtainMoments_tell _ w locked d seq).pageCount_le (Nat.le_refl _)

/-- The moments while parts of a payload are stored. -/
theorem storeMoments_tell (hlimit : 0 < limit) (ps : List Portion) (w : Work) :
    Tells limit w.connection (storeMoments limit locked d start payload ps w)
      (store limit locked d start payload ps w).connection := by
  induction ps generalizing w with
  | nil => exact .refl _ _
  | cons p rest ih =>
      have hobtain := obtainMoments_tell limit (w.relieve limit d) locked d
        (start.advance p.span.start)
      have hle := pageCount_obtain_le (w.relieve limit d) locked d (start.advance p.span.start)
      have hlt : (w.relieve limit d).connection.pageCount < limit :=
        Connection.pageCount_relieve _ d hlimit
      rw [storeMoments, store]
      refine (reliefMoments_tell hlimit w d).trans (hobtain.trans ?_)
      generalize (w.relieve limit d).obtain locked d (start.advance p.span.start) = out at hle ⊢
      obtain ⟨w', page?⟩ := out
      cases page? with
      | none =>
          refine .step (by decide) (Nat.le_of_eq ?_) (.refl _ _)
          exact (Connection.pageCount_setHalf ..).trans (Connection.pageCount_eq _ d).symm
      | some page => exact .hold (Nat.lt_of_le_of_lt hle hlt) (pageCount_hold _ _) (ih _)

/-- The moments until the data of a segment has found its place. -/
theorem placeMoments_tell (hlimit : 0 < limit) (w : Work) (segment : Segment) :
    Tells limit w.connection (w.placeMoments limit locked d segment)
      (w.placed limit locked d segment).connection := by
  rw [placeMoments, placed]
  refine .step (by decide) (Nat.le_of_eq (pageCount_arrived w d segment)) ?_
  cases w.fit d segment with
  | empty | behind | covered => exact .refl _ _
  | inOrder offset =>
      refine .step (by decide) (Nat.le_of_eq ?_) (.refl _ _)
      refine (Connection.pageCount_setHalf ..).trans ?_
      rw [Connection.pageCount_eq _ d]
      simp only [HalfStream.pass]
      split <;> rfl
  | ahead pieces => exact storeMoments_tell hlimit _ _

/-- **The moments of the work on a segment** lead to what becomes of its connection, and are steady. -/
theorem acceptMoments_tell (hlimit : 0 < limit) (w : Work) (segment : Segment) :
    Tells limit w.connection (w.acceptMoments limit locked d segment)
      (w.accept limit locked d segment).connection := by
  have hdrained := ((w.placed limit locked d segment).connection.half d).drain_moves.pageCount_le
  have hsettled := reliefMoments_tell hlimit
    ((w.placed limit locked d segment).onHalf d HalfStream.drain) d
  rw [acceptMoments, accept_eq]
  refine (placeMoments_tell hlimit w segment).trans (.step (by decide) ?_ (hsettled.trans ?_))
  · refine Nat.le_trans (Nat.le_of_eq (Connection.pageCount_setHalf ..)) ?_
    rw [Connection.pageCount_eq _ d]
    exact Nat.add_le_add_right hdrained _
  · cases segment.flags.closes with
    | false => exact .refl _ _
    | true =>
        obtain ⟨h', -, hp, hv⟩ :=
          ((w.settled limit locked d segment).connection.half d).close_moves
        refine .step (by decide) ?_ (.refl _ _)
        refine Nat.le_trans (Nat.le_of_eq (Connection.pageCount_setHalf ..)) ?_
        have hzero : HalfStream.pageCount { h' with phase := .closed } = 0 := by
          rw [HalfStream.pageCount, hp, List.length_nil]
        rw [hv, hzero, Connection.pageCount_eq _ d, Nat.zero_add]
        exact Nat.le_add_left ..

end Work

namespace Arrival

variable {a : Arrival} {limit : Nat}

/-- What a limit of pages means for a segment that arrived. -/
structure Limited (a : Arrival) (limit : Nat) : Prop where
  /-- The moments end in what becomes of the connection. -/
  last : a.moments.getLast?.map Moment.connection = some a.work.connection
  /-- Its connection is relieved at least once. -/
  relieved : ∃ m ∈ a.moments, m.stage = .relieved
  /-- Whenever it was relieved, fewer pages wait than the limit. -/
  below : ∀ m ∈ a.moments, m.stage = .relieved → m.count < limit
  /-- From the first time on that it was relieved, never more wait than the limit. -/
  within : a.moments.Pairwise fun m m' => m.stage = .relieved → m'.count ≤ limit
  /-- In the end fewer wait than the limit. -/
  ends : a.work.connection.pageCount < limit

/-- **The work on a segment keeps to the limit**, however many pages waited before. -/
theorem limited_of_open (hlimit : 0 < a.config.pagesPerConnection) (hopen : a.half.isClosed = false) :
    a.Limited a.config.pagesPerConnection := by
  have htells := @Work.acceptMoments_tell _ a.locked a.direction hlimit a.before a.segment
  have hmoments : a.moments =
      a.before.acceptMoments a.config.pagesPerConnection a.locked a.direction a.segment := by
    rw [moments, hopen]
    rfl
  rw [← hmoments, ← work_of_open hopen] at htells
  refine ⟨?_, ?_, htells.steady.relieved, ?_, ?_⟩
  · rw [Moment.getLast?_eq_final (c := a.before.connection), htells.final]
    rw [hmoments, Work.acceptMoments, Work.placeMoments]
    exact List.cons_ne_nil _ _
  · rw [hmoments, Work.acceptMoments]
    obtain ⟨m, hm, hstage⟩ := Connection.exists_relieved a.config.pagesPerConnection a.direction _
      ((a.before.placed a.config.pagesPerConnection a.locked a.direction a.segment).onHalf a.direction
        HalfStream.drain).connection
    refine ⟨m, List.mem_append_right _ (List.mem_cons_of_mem _ (List.mem_append_left _ hm)), hstage⟩
  · refine htells.steady.pairwise.imp_of_mem fun hm _ hkeep hstage => hkeep ?_
    exact Nat.le_of_lt (htells.steady.relieved _ hm hstage)
  · rw [work_of_open hopen]
    exact Work.pageCount_accept _ hlimit

end Arrival

/-! ## Connections between calls -/

namespace Reassembly

variable {limit : Nat} {s : Reassembly}

/-- A call that brings a segment to a connection leaves the state that the segment leads to. -/
theorem state_of_arrives {call : Call} {a : Arrival} (ha : a ∈ s.arrivals call) :
    (s.perform call.fails call.now call.action).state = (a.finish call.fails).state := by
  obtain ⟨path, haction, -, hres, -⟩ := mem_arrivals ha
  obtain ⟨fails, now, action⟩ := call
  obtain rfl : action = _ := haction
  obtain ⟨a', harrivals, -, -, hstate, -⟩ :=
    @receive_of_ok s fails a.config a.locked path a.segment now a.connection hres
  rw [harrivals, List.mem_singleton] at ha
  exact ha ▸ hstate

/-- **Reassemblers with one limit keep every connection below it.** -/
theorem lasting_limited (hlimit : 0 < limit) :
    Lasting (Hosts fun c => c.pageCount < limit) fun a => a.config.pagesPerConnection = limit := by
  refine lasting_hosts (fun _ _ _ _ => hlimit) ?_ ?_ ?_
  · rintro a - - rfl hcount
    exact Arrival.pageCount_work hlimit hcount
  · exact fun hsheds hcount => Nat.lt_of_le_of_lt hsheds.pageCount_le hcount
  · intro c _ hcount
    have hclose := c.pageCount_close_add
    omega

end Reassembly

/-! ## Sessions -/

/-- Every segment that the turn brings to a registry comes with a limit. -/
def Turn.HasLimit (t : Turn) (registry limit : Nat) : Prop :=
  ∀ arena config locked path segment,
    t.deed = .act registry arena (.receive config locked path segment) →
      config.pagesPerConnection = limit

namespace Session

variable {s : Session} {t : Turn} {ts : List Turn} {registry limit : Nat}

/-- **A turn keeps the connections of a registry below a limit** that its segments come with. -/
theorem limited_turn (hs : s.Kempt) (hlimit : 0 < limit) (ht : t.HasLimit registry limit)
    (h : ∀ flow c, s.connectionAt registry flow = some c → c.pageCount < limit) :
    ∀ flow c, (s.turn t).session.connectionAt registry flow = some c → c.pageCount < limit := by
  refine hosts_turn (Reassembly.lasting_limited hlimit) hs h ?_
  rintro fails now arena action rfl a ha
  obtain ⟨path, haction, -⟩ := Reassembly.mem_arrivals ha
  exact ht arena a.config a.locked path a.segment (congrArg _ haction)

/-- **So does a run.** -/
theorem limited_after (hs : s.Kempt) (hlimit : 0 < limit) (ht : ∀ t ∈ ts, t.HasLimit registry limit)
    (h : ∀ flow c, s.connectionAt registry flow = some c → c.pageCount < limit) :
    ∀ flow c, (s.after ts).connectionAt registry flow = some c → c.pageCount < limit := by
  induction ts generalizing s with
  | nil => exact h
  | cons t rest ih =>
      exact ih (kempt_turn hs t) (fun t ht' => ht t (List.mem_cons_of_mem _ ht'))
        (limited_turn hs hlimit (ht t (List.mem_cons_self ..)) h)

/-- So does a run from the beginning on. -/
theorem limited_of_fresh {registries : Nat} {ceilings : List Nat} (hlimit : 0 < limit)
    (ht : ∀ t ∈ ts, t.HasLimit registry limit) :
    ∀ flow c, ((fresh registries ceilings).after ts).connectionAt registry flow = some c →
      c.pageCount < limit := by
  refine limited_after (kempt_fresh registries ceilings) hlimit ht fun flow c hc => ?_
  rw [connectionAt, registry_fresh] at hc
  cases hc

/-- **The pages of a connection are limited.** Let any number of reassemblers and other parties share
registries and arenas of any ceilings, let consumers break down in any calls, and let segments carry any
numbers.

When a reassembler works in a segment for a direction that is open, its connection is relieved at least
once; from then on never more pages wait than the reassembler's limit, and in the end fewer, however many
waited before.  That is how the connection stays if it stays at all.

So if all reassemblers of a registry have the same limit, fewer pages wait in every connection between their
calls. -/
theorem pages_limited (registries : Nat) (ceilings : List Nat) (turns : List Turn) :
    let s := (fresh registries ceilings).after turns
    (∀ fails now registry arena action,
      ∀ a ∈ s.turnArrivals ⟨fails, now, .act registry arena action⟩,
        a.half.isClosed = false → 0 < a.config.pagesPerConnection →
          a.Limited a.config.pagesPerConnection ∧
            ∀ c, (s.turn ⟨fails, now, .act registry arena action⟩).session.connectionAt registry
              a.connection.flow = some c → c = a.work.connection) ∧
    ∀ registry limit, 0 < limit → (∀ t ∈ turns, t.HasLimit registry limit) →
      ∀ flow c, s.connectionAt registry flow = some c → c.pageCount < limit := by
  intro s
  refine ⟨?_, ?_⟩
  · intro fails now registry arena action a ha hopen hlimit
    refine ⟨Arrival.limited_of_open hlimit hopen, fun c hc => ?_⟩
    have hstate := @Reassembly.state_of_arrives _ ⟨fails, now, action⟩ a ha
    rcases s.connectionAt_report registry arena now
      ((s.state registry arena).perform fails now action) hc with ⟨-, hfound⟩ | ⟨hne, -⟩
    · rw [hstate] at hfound
      rcases a.find?_finish fails hfound with ⟨-, heq⟩ | ⟨hne, -⟩
      · exact heq
      · exact absurd rfl hne
    · exact absurd rfl hne
  · exact fun registry limit hlimit ht => limited_of_fresh hlimit ht

/-- A turn of a reassembler with a limit, for a byte of one stream. -/
def turnUnder (limit seq : Nat) : Turn where
  deed := .act 0 0 (.receive { pagesPerConnection := limit } [] ⟨.v4 1, .v4 2⟩
    { srcPort := 1, dstPort := 2, seq := .ofNat seq, flags := ⟨0⟩, payload := [97] })

/-- Three pages wait that a limit of four lets wait. -/
def turnsUnderFour : List Turn := [turnUnder 4 10, turnUnder 4 20, turnUnder 4 30]

theorem pages_limited_under_a_smaller_one :
    let s := (fresh 1 [9]).after turnsUnderFour
    (s.turnArrivals (turnUnder 2 40)).map (fun a => (a.connection.pageCount,
        a.moments.map fun m => (m.stage, m.count))) =
      [(3, [(.arrived, 3), (.leapt, 2), (.leapt, 1), (.relieved, 1), (.held, 2), (.drained, 2),
        (.leapt, 1), (.relieved, 1)])] ∧
    (∀ a ∈ s.turnArrivals (turnUnder 2 40), a.Limited 2) ∧
    ∀ flow c, s.connectionAt 0 flow = some c → c.pageCount < 4 := by
  intro s
  obtain ⟨hturn, hrun⟩ := pages_limited 1 [9] turnsUnderFour
  have hopen : ∀ a ∈ s.turnArrivals (turnUnder 2 40),
      a.half.isClosed = false ∧ a.config.pagesPerConnection = 2 := by decide
  refine ⟨by decide, ?_, hrun 0 4 (by decide) ?_⟩
  · intro a ha
    obtain ⟨hhalf, hlimit⟩ := hopen a ha
    have hlimited := (hturn _ _ _ _ _ a ha hhalf (by rw [hlimit]; decide)).1
    rwa [hlimit] at hlimited
  · intro t ht arena config locked path segment hdeed
    simp only [turnsUnderFour, List.mem_cons, List.not_mem_nil, or_false] at ht
    rcases ht with rfl | rfl | rfl <;> cases hdeed <;> rfl

end Session

end TcpStreams
