import TcpStreams.Proofs.Room

/-!
# Granted requests

The arena never refuses a page: then nobody is asked to give one up, the other connections stay as they
are, and no byte is given up in either direction, however often the connection leaps to keep below its
limit.

* `Work.Granted`, `Arrival.Granted`: no request is refused while a segment is worked in.
* `Arrival.granted_of_room`: so it is if there are pages enough from the start.
* `Reassembly.unscathed_of_granted`: where no request is refused, nothing is given up.
-/

namespace TcpStreams

open Connection (Sheds)

/-- A sound arena is exhausted exactly if as many pages are out as may be. -/
theorem Arena.Sound.isSpent_eq_false_iff {ceiling : Nat} {arena : Arena} (hs : arena.Sound ceiling) :
    arena.isSpent = false ↔ arena.inUse < ceiling := by
  simp [Arena.isSpent, hs.ceiling_eq]

/-- Moves give no byte up. -/
theorem HalfStream.Moves.discarded_eq {leaps : Bool} {h h' : HalfStream} {cs : List Chunk}
    (hm : Moves leaps h cs h') : h'.counters.discarded = h.counters.discarded := by
  induction hm with
  | refl _ => rfl
  | head hmove _ ih =>
      refine ih.trans ?_
      cases hmove with
      | free _ _ | trim _ _ | hand _ _ _ _ => rfl

/-- Neither does data that goes through at once. -/
theorem HalfStream.Taken.discarded_eq {h h' : HalfStream} {segment : Segment} {accepted : List Cell}
    {cs : List Chunk} (htaken : h.Taken segment accepted h' cs) :
    h'.counters.discarded = h.counters.discarded := by
  cases htaken with
  | nothing _ _ hcount | begun _ _ hcount | passed _ _ _ _ hcount => exact hcount

/-! ## While portions are stored -/

namespace Work

variable {ceiling limit : Nat} {d : Direction} {w : Work} {locked : List FlowId} {start : SeqNum}
  {payload : List UInt8} {p : Portion} {ps : List Portion} {segment : Segment}

/-- The arena hands out every page that is asked for while portions are stored. -/
def Granted (limit : Nat) (locked : List FlowId) (d : Direction) (start : SeqNum)
    (payload : List UInt8) : List Portion → Work → Prop
  | [], _ => True
  | p :: rest, w =>
    (w.relieve limit d).arena.isSpent = false ∧
      Granted limit locked d start payload rest
        ((w.relieve limit d).fillPage locked d start payload p)

/-- Whether it does can be told by storing them. -/
def decideGranted (limit : Nat) (locked : List FlowId) (d : Direction) (start : SeqNum)
    (payload : List UInt8) : ∀ (ps : List Portion) (w : Work),
      Decidable (Granted limit locked d start payload ps w)
  | [], _ => inferInstanceAs (Decidable True)
  | p :: rest, w =>
    have := decideGranted limit locked d start payload rest
      ((w.relieve limit d).fillPage locked d start payload p)
    inferInstanceAs (Decidable (_ ∧ _))

instance : Decidable (Granted limit locked d start payload ps w) :=
  decideGranted limit locked d start payload ps w

/-- A portion whose page the arena hands out goes into its place, and nothing else happens but the relief
before it. -/
theorem store_of_granted (hs : w.arena.Sound ceiling)
    (hspent : (w.relieve limit d).arena.isSpent = false) (p : Portion) (rest : List Portion) :
    let w' := (w.relieve limit d).fillPage locked d start payload p
    store limit locked d start payload (p :: rest) w = store limit locked d start payload rest w' ∧
      w'.connection = (w.relieve limit d).connection.setHalf d
        (((w.relieve limit d).connection.half d).hold (p.page start payload)) ∧
      w'.entries = w.entries ∧ w'.chunks = (w.relieve limit d).chunks ∧ w'.arena.Sound ceiling ∧
      w'.arena.inUse = (w.relieve limit d).arena.inUse + 1 := by
  have hs' : (w.relieve limit d).arena.Sound ceiling := hs.giveAll _
  obtain ⟨arena, heq, hsound, hinUse⟩ := obtain_of_room hs' (hs'.isSpent_eq_false_iff.1 hspent) d
    locked (start.advance p.span.start)
  simp only [fillPage, store, heq]
  exact ⟨rfl, rfl, rfl, List.append_nil _, hsound, hinUse⟩

/-- If there are enough pages from the start, none is refused. -/
theorem granted_of_room (hs : w.arena.Sound ceiling) (hroom : w.arena.inUse + ps.length ≤ ceiling) :
    Granted limit locked d start payload ps w := by
  induction ps generalizing w with
  | nil => trivial
  | cons p rest ih =>
      rw [List.length_cons] at hroom
      have hs' : (w.relieve limit d).arena.Sound ceiling := hs.giveAll _
      have hle : (w.relieve limit d).arena.inUse ≤ w.arena.inUse := Arena.inUse_giveAll_le ..
      have hspent : (w.relieve limit d).arena.isSpent = false :=
        hs'.isSpent_eq_false_iff.2 (by omega)
      obtain ⟨-, -, -, -, hsound, hinUse⟩ :=
        @store_of_granted ceiling limit d w locked start payload hs hspent p rest
      exact ⟨hspent, ih hsound (by omega)⟩

/-- Where the arena hands out every page, the other connections are left alone, and nothing is given up
in either direction. -/
theorem store_spares (hs : w.arena.Sound ceiling)
    (hg : Granted limit locked d start payload ps w) :
    (store limit locked d start payload ps w).entries = w.entries ∧
      ∀ e, ((store limit locked d start payload ps w).connection.half e).counters.discarded =
        (w.connection.half e).counters.discarded := by
  induction ps generalizing w with
  | nil => exact ⟨rfl, fun _ => rfl⟩
  | cons p rest ih =>
      obtain ⟨hspent, hg⟩ := hg
      obtain ⟨hstore, hconn, hentries, -, hsound, -⟩ :=
        @store_of_granted ceiling limit d w locked start payload hs hspent p rest
      obtain ⟨hentries', hdiscarded⟩ := ih hsound hg
      rw [hstore]
      refine ⟨hentries'.trans hentries, fun e => (hdiscarded e).trans ?_⟩
      -- neither the relief nor the page that is filled gives anything up
      have hrelieved : ((w.relieve limit d).connection.half e).counters.discarded =
          (w.connection.half e).counters.discarded :=
        Connection.relieve_keep
          (J := fun h => h.counters.discarded = (w.connection.half e).counters.discarded)
          (fun h hsame => h.leap_moves.discarded_eq.trans hsame) limit d e rfl
      rw [hconn, ← hrelieved]
      by_cases he : d = e
      · subst he
        rw [Connection.half_setHalf]
        rfl
      · rw [Connection.half_setHalf_ne _ _ he]

/-! ## A segment -/

/-- The arrival of a segment gives nothing up. -/
theorem discarded_arrive (h : HalfStream) (segment : Segment) :
    (h.arrive segment).value.1.counters.discarded = h.counters.discarded := by
  have hnoted := h.arrive_noted segment
  generalize (h.arrive segment).value.1 = h' at *
  generalize (h.arrive segment).chunks = cs at *
  cases hnoted with
  | counted _ hcount | greeted _ _ _ hcount | begun _ _ _ hcount => exact hcount

/-- A step on one half-stream that gives nothing up. -/
theorem discarded_onHalf {f : HalfStream → Yield HalfStream}
    (hf : ∀ h : HalfStream, (f h).value.counters.discarded = h.counters.discarded) (w : Work)
    (d e : Direction) : ((w.onHalf d f).connection.half e).counters.discarded =
      (w.connection.half e).counters.discarded := by
  by_cases he : d = e
  · subst he
    rw [half_onHalf, hf]
  · exact congrArg (fun h : HalfStream => h.counters.discarded) (Connection.half_setHalf_ne _ _ he)

/-- **Where the arena hands out every page**, the other connections are left alone while a segment is
worked in, and nothing is given up in either direction. -/
theorem accept_spares (hs : w.arena.Sound ceiling)
    (hg : Granted limit locked d segment.payloadSeq segment.payload (w.fit d segment).portions
      (w.arrived d segment)) :
    (w.accept limit locked d segment).entries = w.entries ∧
      ∀ e, ((w.accept limit locked d segment).connection.half e).counters.discarded =
        (w.connection.half e).counters.discarded := by
  have harrived : ∀ e, ((w.arrived d segment).connection.half e).counters.discarded =
      (w.connection.half e).counters.discarded :=
    discarded_onHalf (f := fun h => (h.arrive segment).map Prod.fst)
      (fun h => discarded_arrive h segment) w d
  have hplaced : (w.placed limit locked d segment).entries = w.entries ∧
      ∀ e, ((w.placed limit locked d segment).connection.half e).counters.discarded =
        (w.connection.half e).counters.discarded := by
    rw [placed]
    cases hfit : w.fit d segment with
    | empty | behind | covered => exact ⟨rfl, harrived⟩
    | inOrder offset =>
        refine ⟨rfl, fun e => (discarded_onHalf ?_ _ d e).trans (harrived e)⟩
        intro h
        simp only [HalfStream.pass]
        split <;> rfl
    | ahead pieces =>
        rw [hfit, Fit.portions] at hg
        obtain ⟨hentries, hdiscarded⟩ := store_spares (hs.giveAll _) hg
        exact ⟨hentries, fun e => (hdiscarded e).trans (harrived e)⟩
  have hsettled : ∀ e, ((w.settled limit locked d segment).connection.half e).counters.discarded =
      (w.connection.half e).counters.discarded := by
    intro e
    refine Connection.relieve_keep
      (J := fun h => h.counters.discarded = (w.connection.half e).counters.discarded)
      (fun h hsame => h.leap_moves.discarded_eq.trans hsame) limit d e ?_
    exact (discarded_onHalf (fun h => h.drain_moves.discarded_eq) _ d e).trans (hplaced.2 e)
  rw [accept_eq]
  split
  · refine ⟨hplaced.1, fun e => (discarded_onHalf ?_ _ d e).trans (hsettled e)⟩
    intro h
    obtain ⟨h', hm, -, hv⟩ := h.close_moves
    rw [hv]
    exact hm.discarded_eq
  · exact ⟨hplaced.1, hsettled⟩

end Work

/-! ## Histories -/

/-- The arena hands out every page that is asked for while the segment is worked in. -/
def Arrival.Granted (a : Arrival) : Prop :=
  a.half.isClosed = false →
    Work.Granted a.config.pagesPerConnection a.locked a.direction a.segment.payloadSeq
      a.segment.payload (a.before.fit a.direction a.segment).portions
      (a.before.arrived a.direction a.segment)

instance (a : Arrival) : Decidable a.Granted := inferInstanceAs (Decidable (_ → _))

variable {ceiling : Nat}

/-- Nothing was given up in either direction. -/
def Connection.Unscathed (c : Connection) : Prop := ∀ d, (c.half d).counters.discarded = 0

namespace Arrival

variable {a : Arrival}

/-- If there are enough pages from the start, none is refused. -/
theorem granted_of_room (hs : a.before.Sound ceiling)
    (hroom : a.state.arena.inUse + a.demand ≤ ceiling) : a.Granted := by
  intro hopen
  obtain ⟨hsound, hle⟩ := Work.arena_arrived (w := a.before) hs.arena a.direction a.segment
  rw [demand_of_open hopen] at hroom
  exact Work.granted_of_room hsound (Nat.le_trans (Nat.add_le_add_right hle _) hroom)

/-- Where no request is refused, the other connections are left alone, and nothing is given up. -/
theorem Granted.spares (hg : a.Granted) (hs : a.before.Sound ceiling) :
    a.work.entries = a.state.registry.entries ∧
      (a.connection.Unscathed → a.work.connection.Unscathed) := by
  cases hclosed : a.half.isClosed with
  | true =>
      obtain ⟨hconn, hentries, -, -⟩ := work_of_closed hclosed
      rw [hconn]
      exact ⟨hentries, id⟩
  | false =>
      obtain ⟨hentries, hdiscarded⟩ := Work.accept_spares hs.arena (hg hclosed)
      rw [work_of_open hclosed]
      exact ⟨hentries, fun hc e => (hdiscarded e).trans (hc e)⟩

end Arrival

namespace Connection

theorem unscathed_new (flow : FlowId) (opener : Endpoint) (stream now : Nat) :
    (Connection.new flow opener stream now).Unscathed := by
  intro d
  cases d <;> rfl

/-- Winding a connection up gives nothing up. -/
theorem Unscathed.close {c : Connection} (hc : c.Unscathed) (hs : c.Sane ceiling) :
    c.close.value.Unscathed := by
  intro d
  obtain ⟨-, -, hhalf⟩ := close_moves hs
  obtain ⟨h', hm, -, hv⟩ := hhalf d
  rw [hv]
  exact hm.discarded_eq.trans (hc d)

end Connection

/-- **Where no request is refused, nothing is given up**, neither by a live connection nor while a segment
is worked in. -/
theorem Reassembly.unscathed_of_granted (calls : List Call)
    (hg : ∀ a ∈ ((fresh ceiling).history calls).arrivals, a.Granted) :
    (∀ c ∈ ((fresh ceiling).history calls).state.connections, c.Unscathed) ∧
      ∀ a ∈ ((fresh ceiling).history calls).arrivals, a.work.connection.Unscathed := by
  have hup := fun k d => @Upheld.history ceiling k
    (fun c as _ => c.Unscathed ∧ ∀ a ∈ as, a.work.connection.Unscathed) d calls ?_ ?_ ?_ ?_
  · refine ⟨fun c hc => ((hup c.stream .forward).live c hc rfl).1, fun a ha => ?_⟩
    have hat : a ∈ ((fresh ceiling).history calls).arrivalsAt a.stream a.direction :=
      List.mem_filter.2 ⟨ha, decide_eq_true ⟨rfl, rfl⟩⟩
    rcases (hup a.stream a.direction).exists_or_fresh with ⟨-, -, hafter⟩ | ⟨hnone, -⟩
    · exact hafter a hat
    · rw [hnone] at hat
      cases hat
  · exact fun flow opener now => ⟨Connection.unscathed_new flow opener k now, fun _ ha => nomatch ha⟩
  · rintro a ha hs - as ds ⟨hc, hafter⟩
    have hworked := ((hg a ha).spares hs).2 hc
    exact ⟨hworked, Upheld.forall_mem_arrived hafter fun _ => hworked⟩
  · exact fun a ha hs _ => Or.inr ((hg a ha).spares hs).1
  · exact fun hs hP => ⟨hP.1.close hs, hP.2⟩

end TcpStreams
