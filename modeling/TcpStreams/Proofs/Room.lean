import TcpStreams.Proofs.Halves
import TcpStreams.Proofs.Storing

/-!
# Room to spare

The work on a segment that meets with no scarcity: the arena hands out every page that the data of the
segment needs, and the connection stays below its limit all the while.  Then storing only puts pages
into their places, there is no leap, and nobody gives a page up.

* `Arrival.demand`: the number of pages that the data of a segment needs.
* `Work.store_of_room`: with room to spare, storing only puts pages into their places.
* `Work.accept_of_room`: nothing but what can follow follows the data that found its place.
* `Arrival.half_of_ne`, `Arrival.entries_work`: the other direction and the other connections stay as
  they are.
-/

namespace TcpStreams

/-- The parts of data that have to wait, each of which needs a page. -/
def Fit.portions : Fit → List Portion
  | ahead pieces => pieces.flatMap Span.portions
  | empty | behind | inOrder _ | covered => []

/-- The number of pages that the data of the segment needs. -/
def Arrival.demand (a : Arrival) : Nat :=
  if a.half.isClosed then 0 else (a.before.fit a.direction a.segment).portions.length

theorem Connection.setHalf_setHalf (c : Connection) (d : Direction) (h h' : HalfStream) :
    (c.setHalf d h).setHalf d h' = c.setHalf d h' := by
  cases d <;> rfl

/-! ## The arena -/

theorem Arena.inUse_giveAll_le (arena : Arena) (pages : List Page) :
    (arena.giveAll pages).inUse ≤ arena.inUse := by
  induction pages generalizing arena with
  | nil => exact Nat.le_refl _
  | cons page rest ih => exact Nat.le_trans (ih (arena.give page)) (Nat.sub_le ..)

namespace Work

variable {ceiling limit : Nat} {d : Direction} {w : Work} {locked : List FlowId} {start : SeqNum}
  {payload : List UInt8} {ps : List Portion} {segment : Segment}

/-- An arena that is not exhausted hands out a page. -/
theorem obtain_of_room (hs : w.arena.Sound ceiling) (hroom : w.arena.inUse < ceiling) (d : Direction)
    (locked : List FlowId) (seq : SeqNum) :
    ∃ arena, w.obtain locked d seq = ({ w with arena }, some ⟨seq, []⟩) ∧ arena.Sound ceiling ∧
      arena.inUse = w.arena.inUse + 1 := by
  unfold obtain
  cases ht : w.arena.take? seq with
  | none =>
      have hspent := Arena.take?_eq_none_iff.1 ht
      rw [Arena.isSpent, decide_eq_true_eq, hs.ceiling_eq] at hspent
      omega
  | some out =>
      obtain ⟨page, arena⟩ := out
      obtain ⟨rfl, hs', hcount⟩ := hs.take? ht
      exact ⟨arena, rfl, hs', hcount⟩

/-! ## Storing -/

/-- A portion that gets its page from the arena only goes into its place. -/
theorem fillPage_of_room (hs : w.arena.Sound ceiling) (hroom : w.arena.inUse < ceiling) (p : Portion) :
    (w.fillPage locked d start payload p).connection = w.connection.setHalf d
        ((w.connection.half d).hold (p.page start payload)) ∧
      (w.fillPage locked d start payload p).chunks = w.chunks ∧
      (w.fillPage locked d start payload p).arena.Sound ceiling ∧
      (w.fillPage locked d start payload p).arena.inUse = w.arena.inUse + 1 ∧
      ∀ limit rest, w.connection.pageCount < limit →
        store limit locked d start payload (p :: rest) w =
          store limit locked d start payload rest (w.fillPage locked d start payload p) := by
  obtain ⟨arena, heq, hs', hcount⟩ := obtain_of_room hs hroom d locked (start.advance p.span.start)
  unfold fillPage
  rw [heq]
  refine ⟨rfl, List.append_nil _, hs', hcount, fun limit rest hlt => ?_⟩
  rw [store, relieve_of_lt hlt]
  simp only [heq]
  rfl

/-- **With room to spare, storing only puts pages into their places.** -/
theorem store_of_room (hs : w.arena.Sound ceiling)
    (hlimit : w.connection.pageCount + ps.length < limit)
    (harena : w.arena.inUse + ps.length ≤ ceiling) :
    (store limit locked d start payload ps w).connection = w.connection.setHalf d
        { w.connection.half d with
          pages := Backlog.insertAll (ps.map (Portion.page start payload))
            (w.connection.half d).pages } ∧
      (store limit locked d start payload ps w).chunks = w.chunks := by
  induction ps generalizing w with
  | nil => exact ⟨(w.connection.setHalf_half d).symm, rfl⟩
  | cons p rest ih =>
      rw [List.length_cons] at hlimit harena
      obtain ⟨hconn, hchunks, hs', hinUse, hstore⟩ :=
        @fillPage_of_room ceiling d w locked start payload hs (by omega) p
      have hcount := pageCount_hold (d := d) w.connection (p.page start payload)
      obtain ⟨hconn', hchunks'⟩ := ih hs' (by rw [hconn, hcount]; omega) (by omega)
      rw [hstore limit rest (by omega), hconn', hchunks', hchunks, hconn, Connection.half_setHalf,
        Connection.setHalf_setHalf]
      exact ⟨rfl, rfl⟩

/-- As long as the arena hands out pages, the other connections are left alone. -/
theorem entries_store (hs : w.arena.Sound ceiling) (harena : w.arena.inUse + ps.length ≤ ceiling) :
    (store limit locked d start payload ps w).entries = w.entries := by
  induction ps generalizing w with
  | nil => rfl
  | cons p rest ih =>
      rw [List.length_cons] at harena
      have hs' : (w.relieve limit d).arena.Sound ceiling := hs.giveAll _
      have hle : (w.relieve limit d).arena.inUse ≤ w.arena.inUse := Arena.inUse_giveAll_le ..
      obtain ⟨arena, heq, hs'', hinUse⟩ :=
        obtain_of_room hs' (by omega) d locked (start.advance p.span.start)
      rw [store]
      simp only [heq]
      refine ih hs'' ?_
      show arena.inUse + rest.length ≤ ceiling
      omega

/-! ## A segment -/

theorem arena_arrived (hs : w.arena.Sound ceiling) (d : Direction) (segment : Segment) :
    (w.arrived d segment).arena.Sound ceiling ∧
      (w.arrived d segment).arena.inUse ≤ w.arena.inUse :=
  ⟨hs.giveAll _, Arena.inUse_giveAll_le ..⟩

/-- The arrival of a segment leaves the number of pages as it is. -/
theorem pageCount_arrived (w : Work) (d : Direction) (segment : Segment) :
    (w.arrived d segment).connection.pageCount = w.connection.pageCount := by
  have hconn : (w.arrived d segment).connection =
      w.connection.setHalf d ((w.connection.half d).arrive segment).value.1 := rfl
  have hpages := (arrive_keeps (w.connection.half d) segment).1
  rw [hconn, Connection.pageCount_setHalf, Connection.pageCount_eq w.connection d]
  simp only [HalfStream.pageCount, hpages]

/-- **With room to spare, data finds its place in its own half-stream**, and the connection stays below
its limit. -/
theorem placed_of_room (hs : w.arena.Sound ceiling)
    (hlimit : w.connection.pageCount + (w.fit d segment).portions.length < limit)
    (harena : w.arena.inUse + (w.fit d segment).portions.length ≤ ceiling) :
    (w.placed limit locked d segment).connection.half d.opposite =
        w.connection.half d.opposite ∧
      (w.placed limit locked d segment).connection.pageCount < limit ∧
      ∀ pieces, w.fit d segment = .ahead pieces →
        (w.placed limit locked d segment).connection.half d =
          { (w.arrived d segment).connection.half d with
            pages := Backlog.insertAll
              ((pieces.flatMap Span.portions).map (Portion.page segment.payloadSeq segment.payload))
              ((w.arrived d segment).connection.half d).pages } ∧
        (w.placed limit locked d segment).chunks = (w.arrived d segment).chunks := by
  obtain ⟨hs', hinUse⟩ := arena_arrived hs d segment
  have hcount := pageCount_arrived w d segment
  have hother : (w.arrived d segment).connection.half d.opposite = w.connection.half d.opposite :=
    Connection.half_setHalf_ne _ _ d.opposite_ne.symm
  unfold placed
  cases hfit : w.fit d segment with
  | empty | behind | covered =>
      rw [hfit, Fit.portions, List.length_nil] at hlimit
      refine ⟨hother, ?_, nofun⟩
      show (w.arrived d segment).connection.pageCount < limit
      omega
  | inOrder offset =>
      rw [hfit, Fit.portions, List.length_nil] at hlimit
      have hpages : ∀ h : HalfStream, (h.pass segment.payload.length offset).value.pageCount =
          h.pageCount := by
        intro h
        unfold HalfStream.pass
        split <;> rfl
      refine ⟨(Connection.half_setHalf_ne _ _ d.opposite_ne.symm).trans hother, ?_, nofun⟩
      show ((w.arrived d segment).connection.setHalf d _).pageCount < limit
      rw [Connection.pageCount_setHalf, hpages, ← Connection.pageCount_eq _ d]
      omega
  | ahead pieces =>
      rw [hfit, Fit.portions] at hlimit harena
      obtain ⟨hstore, hchunks⟩ := @store_of_room ceiling limit d (w.arrived d segment) locked segment.payloadSeq
        segment.payload (pieces.flatMap Span.portions) hs' (by omega) (by omega)
      show (store limit locked d _ _ _ _).connection.half _ = _ ∧
        (store limit locked d _ _ _ _).connection.pageCount < limit ∧ ∀ pieces', _ →
          (store limit locked d _ _ _ _).connection.half d = _ ∧
          (store limit locked d _ _ _ _).chunks = _
      rw [hstore, hchunks, Connection.half_setHalf_ne _ _ d.opposite_ne.symm, Connection.half_setHalf,
        Connection.pageCount_setHalf]
      refine ⟨hother, ?_, ?_⟩
      · rw [Connection.pageCount_eq _ d] at hcount
        simp only [HalfStream.pageCount, Backlog.length_insertAll, List.length_map] at hcount hlimit ⊢
        omega
      · intro pieces' heq
        obtain rfl := Fit.ahead.inj heq
        exact ⟨rfl, rfl⟩

/-- Draining is what is left to do for a segment that does not end the stream, if the connection is
below its limit. -/
theorem settled_of_lt
    (hlt : (w.placed limit locked d segment).connection.pageCount < limit) :
    w.settled limit locked d segment =
      (w.placed limit locked d segment).onHalf d HalfStream.drain := by
  refine relieve_of_lt (Nat.lt_of_le_of_lt ?_ hlt)
  show ((w.placed limit locked d segment).connection.setHalf d _).pageCount ≤ _
  rw [Connection.pageCount_setHalf, Connection.pageCount_eq _ d]
  exact Nat.add_le_add_right (HalfStream.drain_moves _).pageCount_le _

/-- **With room to spare**, only what can follow follows the data that found its place, and the other
direction stays as it is. -/
theorem accept_of_room (hs : w.arena.Sound ceiling)
    (hlimit : w.connection.pageCount + (w.fit d segment).portions.length < limit)
    (harena : w.arena.inUse + (w.fit d segment).portions.length ≤ ceiling) :
    (w.accept limit locked d segment).connection.half d.opposite = w.connection.half d.opposite ∧
      (segment.flags.closes = false → w.accept limit locked d segment =
        (w.placed limit locked d segment).onHalf d HalfStream.drain) := by
  obtain ⟨hother, hlt, -⟩ := @placed_of_room ceiling limit d w locked segment hs hlimit harena
  rw [accept_eq, settled_of_lt hlt]
  have hdrained : ((w.placed limit locked d segment).onHalf d HalfStream.drain).connection.half
      d.opposite = w.connection.half d.opposite :=
    (Connection.half_setHalf_ne _ _ d.opposite_ne.symm).trans hother
  cases hcloses : segment.flags.closes with
  | true => exact ⟨(Connection.half_setHalf_ne _ _ d.opposite_ne.symm).trans hdrained, nofun⟩
  | false => exact ⟨hdrained, fun _ => rfl⟩

/-- As long as the arena hands out pages, the other connections are left alone. -/
theorem entries_accept (hs : w.arena.Sound ceiling)
    (harena : w.arena.inUse + (w.fit d segment).portions.length ≤ ceiling) :
    (w.accept limit locked d segment).entries = w.entries := by
  obtain ⟨hs', hinUse⟩ := arena_arrived hs d segment
  have hplaced : (w.placed limit locked d segment).entries = w.entries := by
    unfold placed
    cases hfit : w.fit d segment with
    | empty | behind | covered | inOrder _ => rfl
    | ahead pieces =>
        rw [hfit, Fit.portions] at harena
        exact entries_store hs' (by omega)
  rw [accept_eq]
  split <;> exact hplaced

end Work

/-! ## Arrivals -/

namespace Arrival

variable {ceiling : Nat} {a : Arrival} {d : Direction}

theorem demand_of_open (hopen : a.half.isClosed = false) :
    a.demand = (a.before.fit a.direction a.segment).portions.length := by
  rw [demand, if_neg (ne_true_of_eq_false hopen)]

/-- With room to spare, the work on a segment leaves the other direction as it is. -/
theorem half_of_ne (hs : a.before.Sound ceiling) (hd : a.direction ≠ d)
    (hlimit : a.connection.pageCount + a.demand < a.config.pagesPerConnection)
    (harena : a.state.arena.inUse + a.demand ≤ a.state.arena.ceiling) :
    a.work.connection.half d = a.connection.half d ∧ a.deliveries d = [] := by
  have hhalf : a.work.connection.half d = a.connection.half d := by
    cases hclosed : a.half.isClosed with
    | true => rw [(work_of_closed hclosed).1]
    | false =>
        obtain rfl := Connection.ne_iff_eq_opposite.1 hd
        rw [demand_of_open hclosed] at hlimit harena
        rw [work_of_open hclosed]
        exact (Work.accept_of_room (w := a.before) hs.arena hlimit
          (hs.arena.ceiling_eq ▸ harena)).1
  refine ⟨hhalf, ?_⟩
  have hmoves := moves_of_ne hs hd
  rw [deliveries, hmoves.chunks_eq_nil (by rw [hhalf]), List.map_nil]

/-- As long as the arena hands out pages, the other connections are left alone. -/
theorem entries_work (hs : a.before.Sound ceiling)
    (harena : a.state.arena.inUse + a.demand ≤ a.state.arena.ceiling) :
    a.work.entries = a.state.registry.entries := by
  cases hclosed : a.half.isClosed with
  | true => exact (work_of_closed hclosed).2.1
  | false =>
      rw [demand_of_open hclosed] at harena
      rw [work_of_open hclosed]
      exact Work.entries_accept (w := a.before) hs.arena (hs.arena.ceiling_eq ▸ harena)

end Arrival
end TcpStreams
