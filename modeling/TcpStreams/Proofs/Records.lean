import TcpStreams.Proofs.Tallies

/-!
# What the log says is lost

Whatever is given up is recorded in the log: each page, and what is left of a piece when no room can be made.
Nothing else in the log says that bytes are lost.  So the log of a run lists all losses, with their sizes, in
the order in which they come about.

* `Note.loss?`: the number of bytes that a record says are lost.
* `Records notes xs`: a log records these losses and no others.
* `Arrival.records_work`: the log of the work on a segment does.
* `Session.records_after`: so does the log of a run.
-/

namespace TcpStreams

/-- The number of bytes that a log record says are lost, if it does. -/
def Note.loss? : Note → Option Nat
  | .shed _ bytes _ | .dropped _ bytes => some bytes
  | .origin .. | .adopted .. | .retransmitted .. | .alreadyBuffered .. | .buffering .. | .closed ..
  | .ignored .. | .evicted .. | .opened .. | .removed .. | .completed .. | .flushedIdle .. | .stopped .. =>
    none

/-- A log records these losses, in order, and no others. -/
def Records (notes : List Note) (xs : List Loss) : Prop :=
  notes.filterMap Note.loss? = xs.map fun x => x.source.size

namespace Records

variable {notes notes' : List Note} {xs ys : List Loss}

theorem nil : Records [] [] := rfl

theorem append (h : Records notes xs) (h' : Records notes' ys) : Records (notes ++ notes') (xs ++ ys) := by
  rw [Records, List.filterMap_append, List.map_append, h, h']

/-- A log without records of losses. -/
theorem of_silent (h : ∀ note ∈ notes, note.loss? = none) : Records notes [] :=
  List.filterMap_eq_nil_iff.2 h

/-- Records of no losses may come before others. -/
theorem silent_append (h : Records notes []) (h' : Records notes' xs) : Records (notes ++ notes') xs :=
  h.append h'

/-- Or after them. -/
theorem append_silent (h : Records notes xs) (h' : Records notes' []) : Records (notes ++ notes') xs :=
  List.append_nil xs ▸ h.append h'

end Records

/-! ## Half-streams and connections -/

namespace HalfStream

variable {h : HalfStream}

theorem notes_drain (h : HalfStream) : h.drain.notes = [] := by
  rw [drain]
  cases h.next <;> rfl

theorem records_jump (h : HalfStream) (page : Page) : Records (h.jump page).notes [] := by
  simp only [jump]
  split <;> rfl

theorem records_leap (h : HalfStream) : Records h.leap.notes [] := by
  have hsettle : h.settle.notes = [] := by
    rw [settle]
    cases h.next <;> rfl
  rw [leap, Yield.andThen, hsettle]
  refine Records.nil.append ?_
  cases h.settle.value.pages with
  | nil => rfl
  | cons page rest =>
      simp only [Yield.map, Yield.andThen, notes_drain]
      exact (records_jump _ page).append .nil

theorem records_sweep (pages : List Page) (h : HalfStream) : Records (h.sweep pages).notes [] := by
  induction pages generalizing h with
  | nil => rfl
  | cons page rest ih =>
      rw [sweep]
      cases h.next with
      | none => exact (records_jump h page).append (ih _)
      | some next =>
          simp only
          split
          · exact ih h
          · exact (records_jump h _).append (ih _)

theorem records_close (h : HalfStream) : Records h.close.notes [] :=
  (records_sweep h.pages _).append rfl

theorem records_arrive (h : HalfStream) (segment : Segment) : Records (h.arrive segment).notes [] := by
  have hfit : ∀ (fit : Fit) (d : Direction) (start : SeqNum) (len : Nat),
      Records (fit.notes d start len) [] := fun fit _ _ _ => by cases fit <;> rfl
  have hsynchronize : Records (h.synchronize segment).notes [] := by
    simp only [synchronize]
    split
    · split <;> rfl
    · rfl
  exact hsynchronize.append (hfit ..)

theorem notes_pass (h : HalfStream) (len offset : Nat) : (h.pass len offset).notes = [] := by
  rw [pass]
  cases h.next <;> rfl

/-- The record of a page given up tells its size. -/
theorem records_shed {y : Yield HalfStream} (hy : h.shed? = some y) (stream : Nat) (d : Direction) :
    Records y.notes (h.offer stream d) := by
  rw [shed?] at hy
  rw [offer]
  cases hp : h.pages with
  | nil =>
      rw [hp] at hy
      cases hy
  | cons page rest =>
      rw [hp] at hy
      obtain rfl := Option.some.inj hy
      rfl

end HalfStream

namespace Connection

variable {c : Connection}

theorem records_leap (c : Connection) (d : Direction) : Records (c.leap d).notes [] := by
  have hfirst := (c.half d).records_leap
  cases hmoved : (c.half d).leap.value.2 with
  | true =>
      simp only [leap, Yield.andThen, Yield.map, hmoved, if_true, List.append_nil]
      exact hfirst
  | false =>
      simp only [leap, Yield.andThen, Yield.map, hmoved, Bool.false_eq_true, if_false]
      exact hfirst.append (HalfStream.records_leap _)

theorem records_relieve (c : Connection) (limit : Nat) (d : Direction) :
    Records (c.relieve limit d).notes [] := by
  rw [relieve]
  generalize c.pageCount = fuel
  induction fuel generalizing c with
  | zero => exact .nil
  | succ fuel ih =>
      rw [relieveWithin]
      split
      · refine (c.records_leap d).append ?_
        generalize (c.leap d).value = out
        obtain ⟨c', moved⟩ := out
        cases moved with
        | true => exact ih c'
        | false => exact .nil
      · exact .nil

theorem records_close (c : Connection) : Records c.close.notes [] := by
  have hcloseIn : ∀ (c : Connection) (d : Direction), Records (c.closeIn d).notes [] := by
    intro c d
    simp only [closeIn, onHalf, Yield.map]
    split
    · exact .nil
    · exact HalfStream.records_close _
  exact (hcloseIn c .forward).append (hcloseIn _ .reverse)

theorem records_shed {y : Yield Connection} (hy : c.shed? = some y) : Records y.notes c.offer := by
  rw [shed?] at hy
  rw [offer]
  cases hforward : c.forward.shed? with
  | some z =>
      rw [hforward] at hy
      obtain rfl := Option.some.inj hy
      have hrecords := HalfStream.records_shed hforward c.stream .forward
      obtain ⟨page, rest, hp, -⟩ := HalfStream.shed?_some hforward
      rw [hp]
      exact hrecords
  | none =>
      rw [hforward] at hy
      obtain ⟨z, hz, rfl⟩ := Option.map_eq_some_iff.1 hy
      have hp : c.forward.pages = [] := by
        rw [HalfStream.shed?] at hforward
        split at hforward
        · assumption
        · cases hforward
      rw [hp]
      exact HalfStream.records_shed hz c.stream .reverse

end Connection

/-! ## The work on a segment -/

theorem records_reclaim {α : Type} {shed? : α → Option (Yield α)} {offer : α → List Loss}
    (hshed : ∀ {a y}, shed? a = some y → Records y.notes (offer a)) {remarks : List Note}
    (hremarks : Records remarks []) (seq : SeqNum) (fuel : Nat) (a : α) (arena : Arena) :
    Records (reclaim shed? remarks seq fuel a arena).notes (reclaimLosses shed? offer seq fuel a arena) := by
  induction fuel generalizing a arena with
  | zero => exact .nil
  | succ fuel ih =>
      rw [reclaim, reclaimLosses]
      cases hy : shed? a with
      | none => exact .nil
      | some y =>
          have hfirst := (hshed hy).append_silent hremarks
          simp only
          cases (arena.giveAll y.freed).take? seq with
          | some out =>
              simp only [List.append_nil]
              exact hfirst
          | none => exact hfirst.append (ih y.value _)

theorem records_evict (flow : FlowId) (locked : List FlowId) (seq : SeqNum) (entries : List Entry)
    (arena : Arena) :
    Records (evict flow locked seq entries arena).notes (evictLosses flow locked seq entries arena) := by
  induction entries generalizing arena with
  | nil => exact .nil
  | cons entry rest ih =>
      rw [evict, evictLosses]
      split
      · exact ih arena
      · have hclaim : Records (reclaim Connection.shed? [.evicted flow entry.flow] seq
            entry.connection.pageCount entry.connection arena).notes (reclaimLosses Connection.shed?
            Connection.offer seq entry.connection.pageCount entry.connection arena) :=
          records_reclaim Connection.records_shed (.of_silent (by simp [Note.loss?])) seq _ _ arena
        simp only
        generalize reclaim Connection.shed? [.evicted flow entry.flow] seq entry.connection.pageCount
          entry.connection arena = claim at *
        cases claim.page with
        | some page =>
            simp only [List.append_nil]
            exact hclaim
        | none => exact hclaim.append (ih claim.arena)

namespace Work

variable {w w' w'' : Work} {limit : Nat} {locked : List FlowId} {d : Direction} {start : SeqNum}
  {payload : List UInt8} {segment : Segment} {xs ys : List Loss}

/-- What the work adds to the log records these losses. -/
def Logs (w : Work) (xs : List Loss) (w' : Work) : Prop :=
  ∃ notes, w'.notes = w.notes ++ notes ∧ Records notes xs

theorem Logs.refl (w : Work) : w.Logs [] w := ⟨[], (List.append_nil _).symm, .nil⟩

theorem Logs.trans (h : w.Logs xs w') (h' : w'.Logs ys w'') : w.Logs (xs ++ ys) w'' := by
  obtain ⟨notes, hnotes, hrecords⟩ := h
  obtain ⟨notes', hnotes', hrecords'⟩ := h'
  exact ⟨notes ++ notes', by rw [hnotes', hnotes, List.append_assoc], hrecords.append hrecords'⟩

/-- A step that loses nothing. -/
theorem Logs.step (h : w.Logs xs w') (h' : w'.Logs [] w'') : w.Logs xs w'' :=
  List.append_nil xs ▸ h.trans h'

theorem logs_absorb {y : Yield Connection} (h : Records y.notes xs) : w.Logs xs (w.absorb y) :=
  ⟨y.notes, rfl, h⟩

theorem logs_relieve (w : Work) (limit : Nat) (d : Direction) : w.Logs [] (w.relieve limit d) :=
  logs_absorb (w.connection.records_relieve limit d)

theorem logs_obtain (w : Work) (locked : List FlowId) (d : Direction) (seq : SeqNum) :
    w.Logs (w.obtainLosses locked d seq) (w.obtain locked d seq).1 := by
  rw [obtain, obtainLosses]
  cases w.arena.take? seq with
  | some out => exact ⟨[], (List.append_nil _).symm, .nil⟩
  | none =>
      have hevict := records_evict w.connection.flow locked seq w.entries w.arena
      simp only
      generalize evict w.connection.flow locked seq w.entries w.arena = claim at *
      cases claim.page with
      | some page =>
          simp only [List.append_nil]
          exact ⟨claim.notes, rfl, hevict⟩
      | none =>
          have hclaim : Records (reclaim HalfStream.shed? [] seq (w.connection.half d).pageCount
              (w.connection.half d) claim.arena).notes (reclaimLosses HalfStream.shed?
              (HalfStream.offer w.connection.stream d) seq (w.connection.half d).pageCount
              (w.connection.half d) claim.arena) :=
            records_reclaim (fun hy => HalfStream.records_shed hy _ d) .nil seq _ _ claim.arena
          exact ⟨claim.notes ++ _, (List.append_assoc ..), hevict.append hclaim⟩

/-- **Storing parts of a payload** records what is given up meanwhile. -/
theorem logs_store (ps : List Portion) (w : Work) :
    w.Logs (storeLosses limit locked d start payload ps w) (store limit locked d start payload ps w) := by
  induction ps generalizing w with
  | nil => exact .refl w
  | cons p rest ih =>
      have hobtain := (logs_relieve w limit d).trans
        (logs_obtain (w.relieve limit d) locked d (start.advance p.span.start))
      rw [store, storeLosses]
      generalize (w.relieve limit d).obtain locked d (start.advance p.span.start) = out at *
      obtain ⟨w', page?⟩ := out
      cases page? with
      | none => exact hobtain.trans ⟨_, rfl, rfl⟩
      | some page =>
          have hheld : w'.Logs [] (w'.onHalf d fun h =>
              { value := h.hold (page.fill (p.span.slice payload)) }) := logs_absorb .nil
          exact hobtain.trans (hheld.trans (ih _))

/-- **Working a segment in** records what is given up for it. -/
theorem logs_accept (w : Work) (limit : Nat) (locked : List FlowId) (d : Direction) (segment : Segment) :
    w.Logs (w.acceptLosses limit locked d segment) (w.accept limit locked d segment) := by
  have harrived : w.Logs [] (w.arrived d segment) := logs_absorb (HalfStream.records_arrive _ segment)
  have hplaced : w.Logs (w.acceptLosses limit locked d segment) (w.placed limit locked d segment) := by
    rw [placed, acceptLosses]
    refine harrived.trans ?_
    cases w.fit d segment with
    | empty | behind | covered => exact .refl _
    | inOrder offset =>
        refine logs_absorb ?_
        show Records (HalfStream.pass _ _ offset).notes []
        rw [HalfStream.notes_pass]
        exact .nil
    | ahead pieces => exact logs_store _ _
  have hdrained : w.Logs (w.acceptLosses limit locked d segment)
      ((w.placed limit locked d segment).onHalf d HalfStream.drain) := by
    refine hplaced.step (logs_absorb ?_)
    show Records (HalfStream.drain _).notes []
    rw [HalfStream.notes_drain]
    exact .nil
  have hsettled := hdrained.step (logs_relieve _ limit d)
  rw [accept_eq]
  split
  · exact hsettled.step (logs_absorb (HalfStream.records_close _))
  · exact hsettled

end Work

/-- **The log of the work on a segment** records what is given up for it. -/
theorem Arrival.records_work (a : Arrival) : Records a.work.notes a.losses := by
  cases hclosed : a.half.isClosed with
  | true =>
      rw [losses, if_pos hclosed]
      rw [half] at hclosed
      simp only [work, Reassembly.workIn, hclosed, if_true]
      rfl
  | false =>
      obtain ⟨notes, hnotes, hrecords⟩ :=
        a.before.logs_accept a.config.pagesPerConnection a.locked a.direction a.segment
      rw [losses, if_neg (ne_true_of_eq_false hclosed), work_of_open hclosed, hnotes]
      exact hrecords

/-! ## Calls -/

theorem Outcome.records_andThen {α β : Type} {o : Outcome α} {f : α → Reassembly → Outcome β}
    {xs : List Loss} (ho : Records o.notes xs)
    (hf : ∀ a, o.result = .ok a → Records (f a o.state).notes []) : Records (o.andThen f).notes xs := by
  rw [Outcome.andThen]
  cases hres : o.result with
  | error call => exact ho
  | ok a => exact ho.append_silent (hf a hres)

namespace Reassembly

variable {s : Reassembly} {fails : Event → Bool}

theorem notes_handOver (fails : Event → Bool) (c : Connection) (payload : List UInt8)
    (chunks : List Chunk) (s : Reassembly) : (s.handOver fails c payload chunks).notes = [] := by
  rw [handOver]
  split <;> rfl

theorem records_conclude (fails : Event → Bool) (c : Connection) (s : Reassembly) :
    Records (s.conclude fails c).notes [] := by
  rw [conclude]
  split <;> rfl

theorem records_lookUp (s : Reassembly) (fails : Event → Bool) (flow : FlowId) (src : Endpoint)
    (now : Nat) : Records (s.lookUp fails flow src now).notes [] := by
  rw [lookUp]
  split
  · rfl
  · simp only
    split <;> rfl

theorem records_finish (fails : Event → Bool) (a : Arrival) : Records (a.finish fails).notes a.losses := by
  refine Outcome.records_andThen ?_ fun _ _ => ?_
  · show Records (a.work.notes ++ Outcome.notes _) _
    rw [notes_handOver]
    exact a.records_work.append_silent .nil
  · split
    · exact records_conclude ..
    · exact .nil

theorem records_windUp (fails : Event → Bool) (flow : FlowId) (s : Reassembly) :
    Records (s.windUp fails flow).notes [] := by
  rw [windUp]
  cases s.registry.find? flow with
  | none => exact .nil
  | some c =>
      refine Outcome.records_andThen ?_ fun _ _ => ?_
      · show Records (c.close.notes ++ Outcome.notes _) _
        rw [notes_handOver]
        exact c.records_close.append .nil
      · exact Outcome.records_andThen (records_conclude ..) fun _ _ => .nil

theorem records_windUpAll (fails : Event → Bool) (flows : List FlowId) (s : Reassembly) :
    Records (s.windUpAll fails flows).notes [] :=
  windUpAll_induction (P := fun _ => True) (R := fun _ o => Records o.notes []) (fun _ _ _ => trivial)
    (fun _ _ _ => .nil) (fun s flow _ => records_windUp fails flow s) Outcome.records_andThen trivial flows

theorem records_flushBefore (fails : Event → Bool) (cutoff : Nat) (s : Reassembly) :
    Records (s.flushBefore fails cutoff).notes [] := by
  refine Outcome.records_andThen (records_windUpAll ..) fun _ _ => ?_
  simp only
  split <;> rfl

/-- **The log of a call** records what is given up for the segment that it brings, if it brings one. -/
theorem perform_records (s : Reassembly) (call : Call) :
    Records (s.perform call.fails call.now call.action).notes
      ((s.arrivals call).flatMap Arrival.losses) := by
  obtain ⟨fails, now, action⟩ := call
  cases action with
  | receive config locked path segment =>
      have hlookUp := s.records_lookUp fails (segment.flow path) (segment.src path) now
      show Records (s.receive fails config locked path segment now).notes _
      rw [receive, Outcome.andThen, arrivals]
      simp only
      cases (s.lookUp fails (segment.flow path) (segment.src path) now).result with
      | error call => exact hlookUp
      | ok c =>
          have hfinish := records_finish fails
            { config, locked, segment, connection := c
              direction := c.directionFrom (segment.src path)
              state := (s.lookUp fails (segment.flow path) (segment.src path) now).state }
          rw [List.flatMap_singleton]
          exact hlookUp.silent_append hfinish
  | lookUp flow src => exact s.records_lookUp fails flow src now
  | flushAll order => exact records_windUpAll ..
  | flushBefore cutoff => exact records_flushBefore ..
  | flushIdle config =>
      show Records (s.flushIdle fails config now).notes []
      rcases s.flushIdle_cases fails config now with heq | ⟨cutoff, heq⟩
      · rw [heq]
        exact .nil
      · rw [heq]
        exact records_flushBefore ..
  | remove flow =>
      show Records (s.remove flow).notes []
      rw [remove]
      cases s.registry.find? flow <;> rfl

end Reassembly

/-! ## Sessions -/

namespace Session

theorem records_turn (s : Session) (t : Turn) :
    Records (s.turn t).notes ((s.turnArrivals t).flatMap Arrival.losses) := by
  obtain ⟨fails, now, deed⟩ := t
  cases deed with
  | act registry arena action => exact (s.state registry arena).perform_records ⟨fails, now, action⟩
  | take arena seq =>
      show Records (s.takePage arena seq).notes []
      rw [takePage]
      split <;> rfl
  | give arena slots => exact .nil

/-- **The log of a run** records all losses and nothing else that is lost. -/
theorem records_after (ts : List Turn) (s : Session) :
    Records ((s.reports ts).flatMap Report.notes) ((s.arrivals ts).flatMap Arrival.losses) := by
  induction ts generalizing s with
  | nil => exact .nil
  | cons t rest ih =>
      rw [reports, arrivals, List.flatMap_cons, List.flatMap_append]
      exact (s.records_turn t).append (ih _)

end Session
end TcpStreams
