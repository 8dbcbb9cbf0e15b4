import TcpStreams.Proofs.ShiftedWork
import TcpStreams.Proofs.Turns

/-!
# Where the numbers lie does not matter

Adding a constant to all sequence numbers that travel in one direction of a conversation, another one for every
other direction, changes nothing that anyone could tell: consumers see the same, the replies are the same,
the same pages wait, and every number kept is the old one plus the constant.  In particular it does not
matter where numbers wrap around.

* `Session.shift`, `Reply.shift`: the numbers of all connections moved.
* `Session.translate`: turns whose segments have their numbers moved.
* `Session.numbers_translate`: the translated turns lead to the same.
-/

namespace TcpStreams

variable {σ : Offsets}

/-! ## Registries -/

namespace Registry

/-- The registry with the numbers of its connections moved. -/
def shift (σ : Offsets) (r : Registry) : Registry := { r with entries := r.entries.map (Entry.shift σ) }

variable (r : Registry) (flow : FlowId)

theorem entry?_shift :
    Registry.entry? (r.shift σ) flow = (r.entry? flow).map (Entry.shift σ) := by
  rw [Registry.entry?, Registry.entry?, shift, List.find?_map]
  rfl

theorem find?_shift : (r.shift σ).find? flow = (r.find? flow).map (Connection.shift σ) := by
  rw [find?, find?, entry?_shift, Option.map_map, Option.map_map]
  rfl

theorem erase_shift : (r.shift σ).erase flow = (r.erase flow).shift σ := by
  simp only [erase, shift, List.filter_map]
  rfl

theorem visit_shift (now : Nat) :
    (r.shift σ).visit flow now =
      ((r.visit flow now).1.map (Connection.shift σ), (r.visit flow now).2.shift σ) := by
  rw [visit, visit, entry?_shift]
  cases r.entry? flow with
  | none => rfl
  | some entry =>
      simp only [Option.map_some, erase_shift]
      simp only [shift, List.map_append]
      rfl

theorem insert_shift (c : Connection) (now : Nat) :
    (r.shift σ).insert (c.shift σ) now = (r.insert c now).shift σ := by
  simp only [insert, shift, List.map_append]
  rfl

theorem replace_shift (c : Connection) :
    (r.shift σ).replace (c.shift σ) = (r.replace c).shift σ := by
  simp only [replace, shift, List.map_map]
  congr 1
  refine List.map_congr_left fun e _ => ?_
  have hflow : (e.shift σ).flow = (c.shift σ).flow ↔ e.flow = c.flow := Iff.rfl
  simp only [Function.comp, hflow]
  split <;> rfl

theorem flows_shift : (r.shift σ).flows = r.flows := List.map_map ..

theorem flowsIn_shift (order : List FlowId) : (r.shift σ).flowsIn order = r.flowsIn order := by
  rw [flowsIn, flowsIn, flows_shift]

theorem idleFlows_shift (cutoff : Nat) : (r.shift σ).idleFlows cutoff = r.idleFlows cutoff := by
  rw [idleFlows, idleFlows, shift, List.filter_map, List.map_map]
  rfl

end Registry

/-! ## Outcomes -/

/-- What a consumer sees of a call: everything but the numbers of chunks. -/
def Event.blind : Event → Event
  | opened n flow => opened n flow
  | delivered n flow chunks => delivered n flow (chunks.map Delivery.blind)
  | completed n flow => completed n flow

/-- The state with the numbers of all connections moved. -/
def Reassembly.shift (σ : Offsets) (s : Reassembly) : Reassembly :=
  { s with registry := s.registry.shift σ }

/-- Two outcomes that differ by shifted numbers only. -/
structure Outcome.Shifted {α : Type} (σ : Offsets) (g : α → α) (o o' : Outcome α) : Prop where
  /-- The states differ by shifted numbers. -/
  state : o'.state = o.state.shift σ
  /-- So do the results. -/
  result : o'.result = o.result.map g
  /-- The consumers see the same. -/
  events : o'.events.map Event.blind = o.events.map Event.blind

namespace Outcome.Shifted

variable {α β : Type} {g : α → α} {g' : β → β} {o o' : Outcome α}

theorem andThen {k k' : α → Reassembly → Outcome β} (h : Shifted σ g o o')
    (hk : ∀ a, o.result = .ok a → Shifted σ g' (k a o.state) (k' (g a) (o.state.shift σ))) :
    Shifted σ g' (o.andThen k) (o'.andThen k') := by
  rw [Outcome.andThen, Outcome.andThen, h.result, h.state]
  cases hr : o.result with
  | error call => exact ⟨rfl, rfl, h.events⟩
  | ok a =>
      have hnext := hk a hr
      refine ⟨hnext.state, hnext.result, ?_⟩
      simp only [Except.map, List.map_append, h.events, hnext.events]

theorem after {notes notes' : List Note} (h : Shifted σ g o o') :
    Shifted σ g (o.after notes) (o'.after notes') := ⟨h.state, h.result, h.events⟩

theorem map {m : α → β} (h : Shifted σ g o o') (hm : ∀ a, m (g a) = g' (m a)) :
    Shifted σ g' (o.map m) (o'.map m) := by
  refine ⟨h.state, ?_, h.events⟩
  rw [Outcome.map, Outcome.map, h.result]
  cases o.result with
  | error call => rfl
  | ok a => exact congrArg _ (hm a)

end Outcome.Shifted

namespace Reassembly

open Outcome (Shifted)

variable {fails : Event → Bool} (s : Reassembly)

theorem shifted_answer {α : Type} {g : α → α} {a a' : α} (h : a' = g a) :
    Shifted σ g (answer a s) (answer a' (s.shift σ)) := ⟨rfl, congrArg _ h, rfl⟩

theorem shifted_lookUp (flow : FlowId) (src : Endpoint) (now : Nat) :
    Shifted σ (Connection.shift σ) (s.lookUp fails flow src now)
      ((s.shift σ).lookUp fails flow src now) := by
  rw [lookUp, lookUp, show (s.shift σ).registry = s.registry.shift σ from rfl, Registry.visit_shift]
  generalize s.registry.visit flow now = visited
  obtain ⟨found, registry⟩ := visited
  cases found with
  | some c => exact ⟨rfl, rfl, rfl⟩
  | none =>
      cases hf : fails (.opened s.nextStream flow) with
      | true =>
        simp only [Option.map_none, shift, hf, if_true]
        exact ⟨rfl, rfl, rfl⟩
      | false =>
        have hinsert := registry.insert_shift (σ := σ) (Connection.new flow src s.nextStream now) now
        simp only [Option.map_none, shift, hf, Bool.false_eq_true, if_false]
        exact ⟨congrArg (Reassembly.mk · s.arena (s.nextStream + 1)) hinsert, rfl, rfl⟩

theorem shifted_handOver (hblind : ∀ event, fails event.blind = fails event) (c : Connection)
    (payload : List UInt8) {chunks chunks' : List Chunk}
    (hchunks : chunks'.map Chunk.blind = chunks.map Chunk.blind) :
    Shifted σ id (s.handOver fails c payload chunks)
      ((s.shift σ).handOver fails (c.shift σ) payload chunks') := by
  have hseen : ∀ chunks : List Chunk, (Event.delivered c.stream c.flow
      (chunks.map (Chunk.delivery payload))).blind =
        .delivered c.stream c.flow ((chunks.map Chunk.blind).map (Chunk.delivery payload)) := by
    intro chunks
    simp only [Event.blind, List.map_map]
    congr 1
    exact List.map_congr_left fun x _ => x.blind_delivery payload
  have hevent : (Event.delivered c.stream c.flow (chunks'.map (Chunk.delivery payload))).blind =
      (Event.delivered c.stream c.flow (chunks.map (Chunk.delivery payload))).blind := by
    rw [hseen, hseen, hchunks]
  have hpages : (chunks'.filterMap fun x => x.source.page?).length =
      (chunks.filterMap fun x => x.source.page?).length := by
    have hcount : ∀ chunks : List Chunk, (chunks.filterMap fun x => x.source.page?).length =
        ((chunks.map Chunk.blind).filterMap fun x => x.source.page?).length := by
      intro chunks
      rw [List.filterMap_map, List.length_filterMap_eq_countP, List.length_filterMap_eq_countP]
      refine List.countP_congr fun x _ => ?_
      cases hx : x.source <;> simp [Chunk.blind, Source.blind, Source.page?, hx]
    rw [hcount chunks, hcount chunks', hchunks]
  have hfails : fails (.delivered c.stream c.flow (chunks'.map (Chunk.delivery payload))) =
      fails (.delivered c.stream c.flow (chunks.map (Chunk.delivery payload))) := by
    rw [← hblind, hevent, hblind]
  have hreplace := s.registry.replace_shift (σ := σ) c
  simp only [handOver, show (c.shift σ).stream = c.stream from rfl,
    show (c.shift σ).flow = c.flow from rfl, hfails, shift, hreplace, Arena.giveAll_congr hpages]
  split
  · exact ⟨rfl, rfl, congrArg ([·]) hevent⟩
  · exact ⟨rfl, rfl, congrArg ([·]) hevent⟩

theorem shifted_conclude (c : Connection) :
    Shifted σ id (s.conclude fails c) ((s.shift σ).conclude fails (c.shift σ)) := by
  have herase := s.registry.erase_shift (σ := σ) c.flow
  simp only [conclude, show (c.shift σ).stream = c.stream from rfl,
    show (c.shift σ).flow = c.flow from rfl, shift, herase,
    Arena.giveAll_congr c.length_pages_shift]
  split
  · exact ⟨rfl, rfl, rfl⟩
  · exact ⟨rfl, rfl, rfl⟩

/-! ## Segments -/

/-- The endpoint that is the opener of a conversation once `src` is heard in it. -/
def openerFor (s : Reassembly) (flow : FlowId) (src : Endpoint) : Endpoint :=
  ((s.registry.find? flow).map Connection.opener).getD src

/-- The constant for what an endpoint sends in a conversation. -/
def offsetFor (σ : Offsets) (s : Reassembly) (flow : FlowId) (src : Endpoint) : Nat :=
  σ flow (s.openerFor flow src) (if src = s.openerFor flow src then .forward else .reverse)

/-- The direction of what an endpoint sends is that of the connection looked up. -/
theorem offset_of_lookUp {flow : FlowId} {src : Endpoint} {now : Nat} {c : Connection}
    (h : (s.lookUp fails flow src now).result = .ok c) :
    c.offset σ (c.directionFrom src) = s.offsetFor σ flow src := by
  have hopener : c.flow = flow ∧ c.opener = s.openerFor flow src := by
    rw [openerFor]
    rw [lookUp, Registry.visit] at h
    cases he : s.registry.entry? flow with
    | some entry =>
        simp only [he] at h
        obtain rfl := Except.ok.inj h
        have hfound : s.registry.find? flow = some entry.connection :=
          congrArg (Option.map Entry.connection) he
        rw [hfound]
        exact ⟨(find?_eq_some hfound).2, rfl⟩
    | none =>
        have hnone : s.registry.find? flow = none := congrArg (Option.map Entry.connection) he
        simp only [he] at h
        split at h
        · cases h
        · obtain rfl := Except.ok.inj h
          rw [hnone]
          exact ⟨rfl, rfl⟩
  rw [Connection.offset, Connection.directionFrom, offsetFor, hopener.1, hopener.2]

theorem shifted_workIn (config : Config) (locked : List FlowId) (d : Direction) (segment : Segment)
    (c : Connection) :
    Work.Shifted σ (s.workIn config locked d segment c)
      ((s.shift σ).workIn config locked d (segment.shift (c.offset σ d)) (c.shift σ)) := by
  have hstart : Work.Shifted σ { connection := c, entries := s.registry.entries, arena := s.arena }
      { connection := c.shift σ, entries := (s.shift σ).registry.entries, arena := (s.shift σ).arena } :=
    ⟨rfl, rfl, rfl, rfl⟩
  rw [workIn, workIn, Connection.half_shift]
  show Work.Shifted σ (if (c.half d).isClosed = true then _ else _)
    (if (c.half d).isClosed = true then _ else _)
  split
  · exact ⟨rfl, rfl, rfl, rfl⟩
  · exact hstart.accept rfl segment

theorem shifted_receive (hblind : ∀ event, fails event.blind = fails event) (config : Config)
    (locked : List FlowId) (path : Route) (segment : Segment) (now : Nat) :
    Shifted σ id (s.receive fails config locked path segment now)
      ((s.shift σ).receive fails config locked path
        (segment.shift (s.offsetFor σ (segment.flow path) (segment.src path))) now) := by
  generalize hc : s.offsetFor σ (segment.flow path) (segment.src path) = c
  rw [receive, receive]
  refine (s.shifted_lookUp (segment.flow path) (segment.src path) now).andThen fun conn hconn => ?_
  have hwork := (s.lookUp fails (segment.flow path) (segment.src path) now).state.shifted_workIn
    (σ := σ) config locked (conn.directionFrom (segment.src path)) segment conn
  rw [s.offset_of_lookUp hconn, hc] at hwork
  generalize (s.lookUp fails (segment.flow path) (segment.src path) now).state = s' at hwork ⊢
  have hdirection : (conn.shift σ).directionFrom ((segment.shift c).src path) =
      conn.directionFrom (segment.src path) := rfl
  simp only [hdirection, hwork.connection, hwork.entries, hwork.arena]
  refine (Outcome.Shifted.after (shifted_handOver
    { s' with
      registry := { s'.registry with entries := (s'.workIn config locked _ segment conn).entries }
      arena := (s'.workIn config locked _ segment conn).arena }
    hblind _ segment.payload hwork.chunks)).andThen fun _ _ => ?_
  rw [Connection.isOver_shift]
  split
  · exact shifted_conclude _ _
  · exact shifted_answer _ rfl

/-! ## Flushes and removals -/

theorem shifted_windUp (hblind : ∀ event, fails event.blind = fails event) (flow : FlowId) :
    Shifted σ id (s.windUp fails flow) ((s.shift σ).windUp fails flow) := by
  rw [windUp, windUp, show (s.shift σ).registry = s.registry.shift σ from rfl, Registry.find?_shift]
  cases s.registry.find? flow with
  | none => exact s.shifted_answer rfl
  | some c =>
      have hclose := c.shifted_close (σ := σ)
      simp only [Option.map_some, hclose.value, shift, Arena.giveAll_congr hclose.freed]
      refine (Outcome.Shifted.after (shifted_handOver
        { s with arena := s.arena.giveAll c.close.freed } hblind c.close.value [] hclose.chunks)).andThen
          fun _ _ => ?_
      exact (shifted_conclude _ _).andThen fun _ _ => shifted_answer _ rfl

theorem shifted_windUpAll (hblind : ∀ event, fails event.blind = fails event) (flows : List FlowId) :
    Shifted σ id (s.windUpAll fails flows) ((s.shift σ).windUpAll fails flows) := by
  induction flows generalizing s with
  | nil => exact s.shifted_answer rfl
  | cons flow rest ih =>
      exact (s.shifted_windUp hblind flow).andThen fun _ _ =>
        (ih _).andThen fun _ _ => shifted_answer _ rfl

theorem shifted_flushBefore (hblind : ∀ event, fails event.blind = fails event) (cutoff : Nat) :
    Shifted σ id (s.flushBefore fails cutoff) ((s.shift σ).flushBefore fails cutoff) := by
  rw [flushBefore, flushBefore, show (s.shift σ).registry = s.registry.shift σ from rfl,
    Registry.idleFlows_shift]
  exact (s.shifted_windUpAll hblind _).andThen fun _ _ => ⟨rfl, rfl, rfl⟩

theorem shifted_flushAll (hblind : ∀ event, fails event.blind = fails event) (order : List FlowId) :
    Shifted σ id (s.flushAll fails order) ((s.shift σ).flushAll fails order) := by
  rw [flushAll, flushAll, show (s.shift σ).registry = s.registry.shift σ from rfl,
    Registry.flowsIn_shift]
  exact s.shifted_windUpAll hblind _

theorem shifted_flushIdle (hblind : ∀ event, fails event.blind = fails event) (config : Config)
    (now : Nat) : Shifted σ id (s.flushIdle fails config now) ((s.shift σ).flushIdle fails config now) := by
  rw [flushIdle, flushIdle]
  cases config.idleSpan with
  | none => exact s.shifted_answer rfl
  | some span =>
      simp only
      split
      · exact s.shifted_flushBefore hblind _
      · exact s.shifted_answer rfl

theorem shifted_remove (flow : FlowId) :
    Shifted σ id (s.remove flow) ((s.shift σ).remove flow) := by
  rw [remove, remove, show (s.shift σ).registry = s.registry.shift σ from rfl, Registry.find?_shift]
  cases s.registry.find? flow with
  | none => exact s.shifted_answer rfl
  | some c =>
      have herase := s.registry.erase_shift (σ := σ) flow
      simp only [Option.map_some, shift, herase, Arena.giveAll_congr c.length_pages_shift]
      exact ⟨rfl, rfl, rfl⟩

end Reassembly

/-! ## Actions -/

/-- The answer with its numbers moved. -/
def Answer.shift (σ : Offsets) : Answer → Answer
  | done => done
  | count n => count n
  | connection c => connection (c.shift σ)
  | found b => found b

/-- The action with the number of its segment moved by the constant for its direction. -/
def Action.shift (σ : Offsets) (s : Reassembly) : Action → Action
  | receive config locked path segment =>
    receive config locked path
      (segment.shift (s.offsetFor σ (segment.flow path) (segment.src path)))
  | flushAll order => flushAll order
  | flushBefore cutoff => flushBefore cutoff
  | flushIdle config => flushIdle config
  | lookUp flow src => lookUp flow src
  | remove flow => remove flow

/-- **An action on shifted numbers** leads to the same but for shifted numbers. -/
theorem Reassembly.shifted_perform {fails : Event → Bool}
    (hblind : ∀ event, fails event.blind = fails event) (s : Reassembly) (now : Nat) (action : Action) :
    Outcome.Shifted σ (Answer.shift σ) (s.perform fails now action)
      ((s.shift σ).perform fails now (action.shift σ s)) := by
  cases action with
  | receive config locked path segment =>
      exact (s.shifted_receive hblind config locked path segment now).map fun _ => rfl
  | flushAll order => exact (s.shifted_flushAll hblind order).map fun _ => rfl
  | flushBefore cutoff => exact (s.shifted_flushBefore hblind cutoff).map fun _ => rfl
  | flushIdle config => exact (s.shifted_flushIdle hblind config now).map fun _ => rfl
  | lookUp flow src => exact (s.shifted_lookUp flow src now).map fun _ => rfl
  | remove flow => exact (s.shifted_remove flow).map fun _ => rfl

/-! ## Sessions -/

/-- Whether a consumer breaks down does not depend on what it cannot see, the numbers of chunks. -/
def Turn.Blind (turn : Turn) : Prop := ∀ event, turn.fails event.blind = turn.fails event

/-- The reply with its numbers moved. -/
def Reply.shift (σ : Offsets) : Reply → Reply
  | connection c => connection (c.shift σ)
  | reply => reply

namespace Session

/-- The session with the numbers of all connections moved.  Arenas, slots and clock stay as they are. -/
def shift (σ : Offsets) (s : Session) : Session :=
  { s with registries := s.registries.map (Registry.shift σ) }

/-- The turn with the number of its segment moved by the constant for its direction. -/
def translateTurn (σ : Offsets) (s : Session) (t : Turn) : Turn :=
  match t.deed with
  | .act registry arena action =>
    { t with deed := .act registry arena (action.shift σ (s.state registry arena)) }
  | .take .. | .give .. => t

/-- The turns with the numbers of their segments moved, each by the constant for its direction. -/
def translate (σ : Offsets) (s : Session) : List Turn → List Turn
  | [] => []
  | t :: rest => s.translateTurn σ t :: (s.turn t).session.translate σ rest

end Session

/-- What a report says once the numbers are moved: the session and the reply with their numbers moved, and
the same events, as far as consumers can see them. -/
structure Report.Shifted (σ : Offsets) (report report' : Report) : Prop where
  /-- The sessions differ by shifted numbers. -/
  session : report'.session = report.session.shift σ
  /-- So do the replies. -/
  reply : report'.reply = report.reply.shift σ
  /-- The consumers see the same. -/
  events : report'.events.map Event.blind = report.events.map Event.blind

namespace Session

variable (s : Session)

theorem registry_shift (registry : Nat) :
    (s.shift σ).registry registry = (s.registry registry).shift σ := by
  rw [Session.registry, Session.registry, shift, List.getD_eq_getElem?_getD,
    List.getD_eq_getElem?_getD, List.getElem?_map]
  cases s.registries[registry]? <;> rfl

theorem state_shift (registry arena : Nat) :
    (s.shift σ).state registry arena = (s.state registry arena).shift σ := by
  rw [state, state, registry_shift]
  rfl

theorem shifted_takePage (arena : Nat) (seq : SeqNum) :
    (s.takePage arena seq).Shifted σ ((s.shift σ).takePage arena seq) := by
  rw [takePage, takePage, show (s.shift σ).arena arena = s.arena arena from rfl]
  cases (s.arena arena).take? seq with
  | none => exact ⟨rfl, rfl, rfl⟩
  | some out => exact ⟨rfl, rfl, rfl⟩

theorem givePages_shift (arena : Nat) (slots : List Nat) :
    (s.shift σ).givePages arena slots =
      ((s.givePages arena slots).1.shift σ, (s.givePages arena slots).2) := by
  induction slots generalizing s with
  | nil => rfl
  | cons slot rest ih =>
      rw [givePages, givePages, show (s.shift σ).slots = s.slots from rfl]
      cases s.slots.getD slot none with
      | none => exact ih s
      | some page =>
          have hrest := ih
            { s with
              arenas := s.arenas.set arena ((s.arena arena).give page), slots := s.slots.set slot none }
          exact congrArg (fun p => (p.1, p.2 + 1)) hrest

/-- **A turn with shifted numbers** leads to the same but for shifted numbers. -/
theorem shifted_turn {t : Turn} (hblind : t.Blind) :
    (s.turn t).Shifted σ ((s.shift σ).turn (s.translateTurn σ t)) := by
  obtain ⟨fails, now, deed⟩ := t
  cases deed with
  | take arena seq => exact s.shifted_takePage arena seq
  | give arena slots =>
      have hgiven := s.givePages_shift (σ := σ) arena slots
      refine ⟨congrArg Prod.fst hgiven, ?_, rfl⟩
      show Reply.number ((s.shift σ).givePages arena slots).2 = Reply.number (s.givePages arena slots).2
      rw [hgiven]
  | act registry arena action =>
      have hperform := (s.state registry arena).shifted_perform (σ := σ) hblind now action
      rw [← s.state_shift] at hperform
      rw [turn_act, translateTurn, turn_act]
      generalize (s.state registry arena).perform fails now action = o at hperform ⊢
      generalize ((s.shift σ).state registry arena).perform fails now
        (action.shift σ (s.state registry arena)) = o' at hperform ⊢
      refine ⟨?_, ?_, hperform.events⟩
      · simp only [report, hperform.state, shift, List.map_set]
        rfl
      · simp only [report, hperform.result]
        cases o.result with
        | error call => rfl
        | ok answer => cases answer <;> rfl

/-- **Translated turns** lead to the same but for shifted numbers. -/
theorem shifted_reports {turns : List Turn}
    (hblind : ∀ t ∈ turns, t.Blind) :
    List.Forall₂ (Report.Shifted σ) (s.reports turns) ((s.shift σ).reports (s.translate σ turns)) ∧
      (s.shift σ).after (s.translate σ turns) = (s.after turns).shift σ := by
  induction turns generalizing s with
  | nil => exact ⟨.nil, rfl⟩
  | cons t rest ih =>
      have hfirst := s.shifted_turn (σ := σ) (hblind t (List.mem_cons_self ..))
      obtain ⟨hreports, hafter⟩ := ih (s.turn t).session fun t ht =>
        hblind t (List.mem_cons_of_mem _ ht)
      rw [← hfirst.session] at hreports hafter
      exact ⟨.cons hfirst hreports, hafter⟩

theorem shift_fresh (registries : Nat) (ceilings : List Nat) :
    (fresh registries ceilings).shift σ = fresh registries ceilings := by
  rw [shift, fresh, List.map_replicate]
  rfl

/-- **Where the numbers lie does not matter.** Let any number of reassemblers and other parties share
registries and arenas, with consumers that may break down.  Move the number of every segment by a constant
of its direction of its conversation.  Then turn by turn the consumers see the same, the replies are the
same, and the sessions are the same but for the numbers of the connections: the arenas do not change, nor
does a conversation that is live, its counters, or the bytes that wait in it; every number wanted and
every number of a page that waits is the old one plus the constant. -/
theorem numbers_translate (σ : Offsets) (registries : Nat) (ceilings : List Nat) (turns : List Turn)
    (hblind : ∀ t ∈ turns, t.Blind) :
    let first := fresh registries ceilings
    let moved := first.translate σ turns
    List.Forall₂ (Report.Shifted σ) (first.reports turns) (first.reports moved) ∧
      (first.after moved).arenas = (first.after turns).arenas ∧
      ∀ registry flow, Option.Rel
        (fun c c' : Connection => c'.stream = c.stream ∧ c'.opener = c.opener ∧
          ∀ d, (c'.half d).phase = (c.half d).phase ∧ (c'.half d).counters = (c.half d).counters ∧
            (c'.half d).pageCount = (c.half d).pageCount ∧
            (c'.half d).byteCount = (c.half d).byteCount ∧
            (c'.half d).pages.map Page.bytes = (c.half d).pages.map Page.bytes ∧
            (c'.half d).next =
              (c.half d).next.map (fun n => n.advance (σ flow c.opener d)) ∧
            (c'.half d).pages.map Page.seq =
              (c.half d).pages.map fun page => page.seq.advance (σ flow c.opener d))
        (((first.after turns).registry registry).find? flow)
        (((first.after moved).registry registry).find? flow) := by
  obtain ⟨hreports, hafter⟩ := (fresh registries ceilings).shifted_reports (σ := σ) hblind
  rw [shift_fresh] at hreports hafter
  refine ⟨hreports, by rw [hafter]; rfl, fun registry flow => ?_⟩
  rw [hafter, registry_shift, Registry.find?_shift]
  cases h : (((fresh registries ceilings).after turns).registry registry).find? flow with
  | none => exact .none
  | some c =>
      have hflow := (Reassembly.find?_eq_some (s := ((fresh registries ceilings).after turns).state registry 0)
        h).2
      refine .some ⟨rfl, rfl, fun d => ?_⟩
      rw [Connection.half_shift, Connection.offset, hflow]
      refine ⟨rfl, rfl, HalfStream.pageCount_shift .., HalfStream.byteCount_shift .., ?_, rfl, ?_⟩
      · exact List.map_map ..
      · exact List.map_map ..

/-- Constants that carry the numbers of a conversation beyond the largest one. -/
def offsetsAcross : Offsets := fun _ _ d =>
  match d with
  | .forward => 0xfffffff8
  | .reverse => 0xffffffff

/-- Two endpoints send to each other; one of them sends ahead. -/
def turnsBothWays : List Turn :=
  [.ofSegment 0 1000 80 4 .syn [97, 98], .ofSegment 0 80 1000 1 .syn [], .ofSegment 0 1000 80 9 ⟨0⟩ [99],
    .ofSegment 0 80 1000 2 ⟨0⟩ [100], .ofSegment 0 1000 80 7 ⟨0⟩ [101]]

theorem numbers_translate_across :
    (∀ t ∈ turnsBothWays, t.Blind) ∧
      let first := fresh 1 [4]
      let moved := first.translate offsetsAcross turnsBothWays
      (first.after moved).arenas = (first.after turnsBothWays).arenas ∧
        ((first.after turnsBothWays).registry 0).entries.map (fun e => e.connection.forward.pages) =
          [[⟨.ofNat 9, [99]⟩]] ∧
        ((first.after moved).registry 0).entries.map (fun e => e.connection.forward.pages) =
          [[⟨.ofNat 1, [99]⟩]] := by
  have hblind : ∀ t ∈ turnsBothWays, t.Blind := by simp [turnsBothWays, Turn.ofSegment, Turn.Blind]
  obtain ⟨-, harenas, -⟩ := numbers_translate offsetsAcross 1 [4] turnsBothWays hblind
  exact ⟨hblind, harenas, by decide, by decide⟩

end Session
end TcpStreams
