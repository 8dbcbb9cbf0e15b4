import TcpStreams.Proofs.Loops

/-!
# Safety

Reassembly never fails by itself.  Whatever segments arrive, with whatever numbers, and whoever shares the
registries and the arenas: every loop comes to its end, no step reaches beyond a payload or a page, and a call
that fails has met a consumer that broke down.

* `Outcome.Honest`: a failure names a consumer that broke down.
* `Reassembly.Stocked`: what every call leaves of the shared state.
* `Session.reassembly_safe`: every turn of every session.
-/

namespace TcpStreams

/-! ## What a call leaves -/

namespace Registry

variable {r : Registry} {c : Connection}

/-- Every page that waits in a live connection is stocked. -/
def Stocked (r : Registry) : Prop := ∀ e ∈ r.entries, e.connection.Stocked

theorem Stocked.find? {flow : FlowId} (h : r.Stocked) (hc : r.find? flow = some c) : c.Stocked := by
  obtain ⟨e, he, rfl⟩ := Option.map_eq_some_iff.1 hc
  exact h e (List.mem_of_find?_eq_some he)

theorem Stocked.erase (h : r.Stocked) (flow : FlowId) : (r.erase flow).Stocked :=
  fun e he => h e (List.mem_filter.1 he).1

theorem Stocked.insert (h : r.Stocked) (hc : c.Stocked) (now : Nat) : (r.insert c now).Stocked :=
  List.forall_mem_append.2 ⟨h, List.forall_mem_singleton.2 hc⟩

theorem Stocked.replace (h : r.Stocked) (hc : c.Stocked) : (r.replace c).Stocked := by
  refine List.forall_mem_map.2 fun e he => ?_
  split
  · exact hc
  · exact h e he

theorem Stocked.visit (h : r.Stocked) (flow : FlowId) (now : Nat) : (r.visit flow now).2.Stocked := by
  unfold Registry.visit
  cases he : r.entry? flow with
  | none => exact h
  | some e =>
      refine List.forall_mem_append.2 ⟨h.erase flow, List.forall_mem_singleton.2 ?_⟩
      exact h e (List.mem_of_find?_eq_some he)

end Registry

namespace Reassembly

variable {s : Reassembly} {c : Connection} {fails : Event → Bool} {flow : FlowId} {payload : List UInt8}
  {chunks : List Chunk}

/-- Every page that waits is stocked, and the pages kept are blank. -/
structure Stocked (s : Reassembly) : Prop where
  /-- Every page that waits is stocked. -/
  registry : s.registry.Stocked
  /-- The pages kept are blank. -/
  blank : s.arena.Blank

theorem Stocked.lookUp (h : s.Stocked) (fails : Event → Bool) (flow : FlowId) (src : Endpoint)
    (now : Nat) : (s.lookUp fails flow src now).state.Stocked := by
  have hvisit := h.registry.visit flow now
  unfold Reassembly.lookUp
  generalize s.registry.visit flow now = visited at hvisit
  obtain ⟨found, registry⟩ := visited
  cases found with
  | some c => exact ⟨hvisit, h.blank⟩
  | none =>
      simp only
      split
      · exact ⟨hvisit, h.blank⟩
      · exact ⟨hvisit.insert (Connection.stocked_new flow src s.nextStream now) now, h.blank⟩

theorem Stocked.handOver (h : s.Stocked) (hc : c.Stocked) (fails : Event → Bool) (payload : List UInt8)
    (chunks : List Chunk) : (s.handOver fails c payload chunks).state.Stocked := by
  unfold Reassembly.handOver
  simp only
  split
  · exact ⟨h.registry.replace hc, h.blank⟩
  · exact ⟨h.registry.replace hc, h.blank.giveAll _⟩

theorem Stocked.conclude (h : s.Stocked) (fails : Event → Bool) (c : Connection) :
    (s.conclude fails c).state.Stocked := by
  unfold Reassembly.conclude
  simp only
  split
  · exact h
  · exact ⟨h.registry.erase c.flow, h.blank.giveAll _⟩

theorem Stocked.before {a : Arrival} (h : a.state.Stocked) (hc : a.connection.Stocked) :
    a.before.Stocked a.segment.payload.length :=
  ⟨hc, h.registry, h.blank, List.forall_mem_nil _⟩

/-- **Every call leaves nothing but stocked pages**, and blank ones in the arena. -/
theorem lasting_stocked : Lasting Stocked where
  lookUp h := h.lookUp
  finish {_ call} _ a ha _ h := by
    have hc : a.connection.Stocked := h.registry.find? (find?_arrived ha)
    have hwork := (Arrival.stocked_work (h.before hc)).1
    have hworked : a.worked.Stocked := ⟨hwork.entries, hwork.blank⟩
    have hhanded := hworked.handOver hwork.connection call.fails a.segment.payload a.work.chunks
    refine Outcome.state_andThen hhanded fun _ _ => ?_
    split
    · exact hhanded.conclude _ _
    · exact hhanded
  windUp {s} h fails flow := by
    unfold windUp
    cases hc : s.registry.find? flow with
    | none => exact h
    | some c =>
        have hgiven : Stocked { s with arena := s.arena.giveAll c.close.freed } :=
          ⟨h.registry, h.blank.giveAll _⟩
        have hclose := (Connection.stocked_close (h.registry.find? hc)).1
        have hhanded := hgiven.handOver hclose fails [] c.close.chunks
        refine Outcome.state_andThen hhanded fun _ _ => ?_
        have hdone := hhanded.conclude fails c.close.value
        exact Outcome.state_andThen hdone fun _ _ => hdone
  remove {s} h flow := by
    unfold remove
    cases s.registry.find? flow with
    | none => exact h
    | some c => exact ⟨h.registry.erase flow, h.blank.giveAll _⟩

end Reassembly

/-! ## What a call tells -/

/-- If chunks are handed over, they were made of stocked pages alone. -/
def Event.OfPages : Event → Prop
  | .delivered _ _ ds =>
    ∃ chunks : List Chunk, ds = chunks.map (Chunk.delivery []) ∧ ∀ k ∈ chunks, k.Held
  | .opened .. | .completed .. => True

/-- A step of a call that fails names a consumer that broke down, and what the consumers see is as `Told` has
it. -/
structure Outcome.Honest {α : Type} (fails : Event → Bool) (Told : Event → Prop) (o : Outcome α) :
    Prop where
  /-- A failure is that of a consumer. -/
  blames : ∀ call, o.result = .error call → ∃ event ∈ o.events, fails event = true ∧ event.call = call
  /-- What the consumers see. -/
  told : ∀ event ∈ o.events, Told event

namespace Outcome

variable {α β : Type} {fails : Event → Bool} {Told Told' : Event → Prop} {o : Outcome α}

theorem Honest.mono (h : o.Honest fails Told) (hT : ∀ event, Told event → Told' event) :
    o.Honest fails Told' := ⟨h.blames, fun event he => hT event (h.told event he)⟩

theorem Honest.after (h : o.Honest fails Told) (notes : List Note) : (o.after notes).Honest fails Told :=
  ⟨h.blames, h.told⟩

/-- A step that answers is honest if what it tells is. -/
theorem honest_of_ok {a : α} (hok : o.result = .ok a) (htold : ∀ event ∈ o.events, Told event) :
    o.Honest fails Told := by
  refine ⟨fun call herror => ?_, htold⟩
  rw [hok] at herror
  cases herror

/-- A step that fails with the one call that it makes is honest. -/
theorem honest_of_error {event : Event} (hfails : fails event = true)
    (herror : o.result = .error event.call) (hevents : o.events = [event]) (htold : Told event) :
    o.Honest fails Told := by
  refine ⟨fun call herror' => ?_, hevents ▸ List.forall_mem_singleton.2 htold⟩
  rw [herror, Except.error.injEq] at herror'
  exact ⟨event, hevents ▸ List.mem_singleton_self event, hfails, herror'⟩

theorem Honest.map (h : o.Honest fails Told) (f : α → β) : (o.map f).Honest fails Told := by
  refine ⟨fun call herror => h.blames call ?_, h.told⟩
  cases hres : o.result with
  | ok a =>
      simp only [Outcome.map, hres] at herror
      cases herror
  | error call' =>
      simp only [Outcome.map, hres] at herror
      cases herror
      rfl

/-- **One step after the other** is honest if both are. -/
theorem Honest.andThen {f : α → Reassembly → Outcome β} (h : o.Honest fails Told)
    (hf : ∀ a, o.result = .ok a → (f a o.state).Honest fails Told) : (o.andThen f).Honest fails Told := by
  cases hres : o.result with
  | error call =>
      rw [Outcome.andThen, hres]
      refine ⟨fun call' herror => ?_, h.told⟩
      cases herror
      exact h.blames call hres
  | ok a =>
      have hthen := hf a hres
      rw [Outcome.andThen, hres]
      refine ⟨fun call herror => ?_, List.forall_mem_append.2 ⟨h.told, hthen.told⟩⟩
      obtain ⟨event, he, hfails, hcall⟩ := hthen.blames call herror
      exact ⟨event, List.mem_append_right _ he, hfails, hcall⟩

end Outcome

namespace Reassembly

variable {s : Reassembly} {c : Connection} {fails : Event → Bool} {Told : Event → Prop} {flow : FlowId}
  {call : Call}

theorem honest_lookUp (s : Reassembly) (fails : Event → Bool) (flow : FlowId) (src : Endpoint) (now : Nat) :
    (s.lookUp fails flow src now).Honest fails Event.OfPages := by
  unfold lookUp
  cases hvisit : s.registry.visit flow now with
  | mk found registry =>
      cases found with
      | some c => exact Outcome.honest_of_ok rfl (List.forall_mem_nil _)
      | none =>
          simp only
          split
          · next hfails => exact Outcome.honest_of_error hfails rfl rfl trivial
          · exact Outcome.honest_of_ok rfl (List.forall_mem_singleton.2 trivial)

theorem honest_handOver (s : Reassembly) {payload : List UInt8} {chunks : List Chunk}
    (htold : Told (.delivered c.stream c.flow (chunks.map (Chunk.delivery payload)))) :
    (s.handOver fails c payload chunks).Honest fails Told := by
  unfold handOver
  simp only
  split
  · next hfails => exact Outcome.honest_of_error hfails rfl rfl htold
  · exact Outcome.honest_of_ok rfl (List.forall_mem_singleton.2 htold)

theorem honest_conclude (s : Reassembly) (c : Connection) :
    (s.conclude fails c).Honest fails Event.OfPages := by
  unfold conclude
  simp only
  split
  · next hfails => exact Outcome.honest_of_error hfails rfl rfl trivial
  · exact Outcome.honest_of_ok rfl (List.forall_mem_singleton.2 trivial)

theorem honest_answer {α : Type} (a : α) : (answer a s).Honest fails Told :=
  Outcome.honest_of_ok rfl (List.forall_mem_nil _)

theorem honest_finish (a : Arrival) :
    (a.finish fails).Honest fails fun event => event.OfPages ∨ event = a.delivery := by
  have hhanded : (a.worked.handOver fails a.work.connection a.segment.payload a.work.chunks).Honest fails
      fun event => event.OfPages ∨ event = a.delivery := honest_handOver a.worked (Or.inr rfl)
  refine (hhanded.after a.work.notes).andThen fun _ _ => ?_
  split
  · exact (honest_conclude _ _).mono fun _ => Or.inl
  · exact honest_answer ()

/-- What the consumers see in a call: chunks made of pages alone, or those that its segment led to. -/
def Tells (s : Reassembly) (call : Call) (event : Event) : Prop :=
  event.OfPages ∨ ∃ a ∈ s.arrivals call, event = a.delivery

theorem honest_receive (s : Reassembly) (fails : Event → Bool) (config : Config) (locked : List FlowId)
    (path : Route) (segment : Segment) (now : Nat) :
    (s.receive fails config locked path segment now).Honest fails
      (s.Tells ⟨fails, now, .receive config locked path segment⟩) := by
  have hlookUp : (s.lookUp fails (segment.flow path) (segment.src path) now).Honest fails
      (s.Tells ⟨fails, now, .receive config locked path segment⟩) :=
    (honest_lookUp s fails (segment.flow path) (segment.src path) now).mono fun _ => Or.inl
  unfold receive
  refine hlookUp.andThen fun c hres => ?_
  let a : Arrival :=
    { config, locked, segment, connection := c
      direction := c.directionFrom (segment.src path)
      state := (s.lookUp fails (segment.flow path) (segment.src path) now).state }
  have ha : a ∈ s.arrivals ⟨fails, now, .receive config locked path segment⟩ := by
    simp only [arrivals, hres]
    exact List.mem_singleton_self a
  exact (honest_finish a).mono fun _ htold => htold.imp_right fun heq => ⟨a, ha, heq⟩

/-- **Winding up hands over nothing but pages.** -/
theorem honest_windUp (h : s.Stocked) (fails : Event → Bool) (flow : FlowId) :
    (s.windUp fails flow).Honest fails Event.OfPages := by
  unfold windUp
  cases hc : s.registry.find? flow with
  | none => exact honest_answer false
  | some c =>
      have hheld := (Connection.stocked_close (h.registry.find? hc)).2
      have hhanded := @honest_handOver c.close.value fails Event.OfPages
        { s with arena := s.arena.giveAll c.close.freed } [] c.close.chunks ⟨_, rfl, hheld⟩
      refine (hhanded.after c.close.notes).andThen fun _ _ => ?_
      exact (honest_conclude _ _).andThen fun _ _ => honest_answer true

theorem honest_windUpAll (h : s.Stocked) (fails : Event → Bool) (flows : List FlowId) :
    (s.windUpAll fails flows).Honest fails Event.OfPages :=
  windUpAll_induction (P := Stocked) (R := fun _ o => o.Honest fails Event.OfPages)
    (fun _ flow h => lasting_stocked.windUp h fails flow) (fun a _ _ => honest_answer a)
    (fun _ flow h => honest_windUp h fails flow) Outcome.Honest.andThen h flows

theorem honest_flushBefore (h : s.Stocked) (fails : Event → Bool) (cutoff : Nat) :
    (s.flushBefore fails cutoff).Honest fails Event.OfPages :=
  (honest_windUpAll h fails _).andThen fun _ _ =>
    Outcome.honest_of_ok rfl (List.forall_mem_nil _)

/-- **Every call is honest.** -/
theorem perform_honest (h : s.Stocked) (call : Call) :
    (s.perform call.fails call.now call.action).Honest call.fails (s.Tells call) := by
  obtain ⟨fails, now, action⟩ := call
  have hpages : ∀ {event : Event}, event.OfPages → s.Tells ⟨fails, now, action⟩ event := Or.inl
  cases action with
  | receive config locked path segment =>
      exact (honest_receive s fails config locked path segment now).map _
  | flushAll order => exact ((honest_windUpAll h fails _).map _).mono fun _ => hpages
  | flushBefore cutoff => exact ((honest_flushBefore h fails cutoff).map _).mono fun _ => hpages
  | flushIdle config =>
      refine Outcome.Honest.map ?_ _
      rcases s.flushIdle_cases fails config now with heq | ⟨cutoff, heq⟩
      · rw [heq]
        exact honest_answer 0
      · rw [heq]
        exact (honest_flushBefore h fails cutoff).mono fun _ => hpages
  | lookUp flow src => exact ((honest_lookUp s fails flow src now).map _).mono fun _ => hpages
  | remove flow =>
      refine Outcome.Honest.map ?_ _
      unfold remove
      cases s.registry.find? flow with
      | none => exact honest_answer false
      | some c => exact Outcome.honest_of_ok rfl (List.forall_mem_nil _)

/-- A segment that arrives is worked in safely, and its chunks are handed over in the same call. -/
theorem arrives_safe (h : s.Stocked) (hd : s.DistinctFlows) {a : Arrival} (ha : a ∈ s.arrivals call) :
    a.Safe ∧ a.delivery ∈ (s.perform call.fails call.now call.action).events := by
  have hstocked := lasting_stocked.arrives h ha
  have hc : a.connection.Stocked := hstocked.registry.find? (find?_arrived ha)
  refine ⟨Arrival.safe (hstocked.before hc), ?_⟩
  rw [(perform_of_arrives hd ha).2.2]
  refine List.mem_append_right _ ?_
  cases hbreaks : call.fails a.delivery with
  | true =>
      rw [(Arrival.finish_of_breaks hbreaks).2.2]
      exact List.mem_singleton_self _
  | false =>
      rw [(Arrival.finish_of_returns hbreaks).2]
      exact List.mem_cons_self ..

end Reassembly

/-! ## Sessions -/

namespace Session

variable {s : Session} {t : Turn}

/-- What waits in a session stays stocked in every turn. -/
theorem stocked_turn (h : ∀ r, (s.registry r).Stocked) (hkempt : s.Kempt) (t : Turn) :
    ∀ r, ((s.turn t).session.registry r).Stocked := by
  intro r
  rcases s.registry_turn t r with ⟨arena, action, -, hacted⟩ | hsame
  · have hstate : (s.state r arena).Stocked := ⟨h r, blank_arena hkempt.blank arena⟩
    rw [hacted]
    exact (Reassembly.lasting_stocked.perform hstate t.fails t.now action fun _ _ => trivial).registry
  · exact hsame ▸ h r

/-- **What waits in a session is stocked at every moment.** -/
theorem stocked_after (registries : Nat) (ceilings : List Nat) (turns : List Turn) (r : Nat) :
    (((fresh registries ceilings).after turns).registry r).Stocked := by
  induction turns using List.reverseRecOn generalizing r with
  | nil =>
      show ((fresh registries ceilings).registry r).Stocked
      rw [registry_fresh]
      exact List.forall_mem_nil _
  | append_singleton turns t ih =>
      rw [after_append]
      exact stocked_turn ih (kempt_after registries ceilings turns) t r

/-- A reply that a consumer broke down is that of an outcome in which one did. -/
theorem result_of_failed {registry arena now : Nat} {o : Outcome Answer} {call : ConsumerCall}
    (h : (s.report registry arena now o).reply = .failed call) : o.result = .error call := by
  unfold report at h
  cases hres : o.result with
  | error call' =>
      simp only [hres, Reply.failed.injEq] at h
      rw [h]
  | ok answer =>
      simp only [hres] at h
      cases answer <;> cases h

/-- What a turn does in a session in which what waits is stocked. -/
structure Upright (s : Session) (t : Turn) : Prop where
  /-- A segment that arrives is worked in safely, and its chunks are handed over at once. -/
  arrivals : ∀ a ∈ s.turnArrivals t, a.Safe ∧ a.delivery ∈ (s.turn t).events
  /-- Whatever else is handed over is made of pages alone. -/
  told : ∀ event ∈ (s.turn t).events, event.OfPages ∨ ∃ a ∈ s.turnArrivals t, event = a.delivery
  /-- A turn that fails has met a consumer that broke down. -/
  blames : ∀ call, (s.turn t).reply = .failed call →
    ∃ event ∈ (s.turn t).events, t.fails event = true ∧ event.call = call

theorem upright_turn (h : ∀ r, (s.registry r).Stocked) (hkempt : s.Kempt)
    (hd : ∀ r arena, (s.state r arena).DistinctFlows) (t : Turn) : s.Upright t := by
  obtain ⟨fails, now, deed⟩ := t
  cases deed with
  | act registry arena action =>
      have hstate : (s.state registry arena).Stocked := ⟨h registry, blank_arena hkempt.blank arena⟩
      have hhonest := Reassembly.perform_honest hstate ⟨fails, now, action⟩
      exact ⟨fun a ha => Reassembly.arrives_safe hstate (hd registry arena) ha, hhonest.told,
        fun call hfailed => hhonest.blames call (result_of_failed hfailed)⟩
  | take arena seq =>
      have hevents : (s.takePage arena seq).events = [] := (s.takePage_keeps arena seq).2.2
      have hreply : ∀ call, (s.takePage arena seq).reply ≠ .failed call := by
        intro call hfailed
        unfold takePage at hfailed
        split at hfailed <;> cases hfailed
      refine ⟨List.forall_mem_nil _, ?_, fun call hfailed => absurd hfailed (hreply call)⟩
      show ∀ event ∈ (s.takePage arena seq).events, _
      rw [hevents]
      exact List.forall_mem_nil _
  | give arena slots =>
      exact ⟨List.forall_mem_nil _, List.forall_mem_nil _, fun call hfailed => by cases hfailed⟩

/-- **Reassembly never fails by itself.** Let any number of reassemblers and other parties share registries
and arenas of any ceilings, let consumers break down in any calls, and let segments carry any numbers and
flags, whatever arrived before.

Every turn ends: the loops that it is made of come to their ends, and everything else walks down a list.  A
turn that fails has met a consumer that broke down in a call that it was told of.

The work on a segment never reaches beyond its payload or a page.  Data in order begins within the payload;
data ahead is cut into portions that lie in it; a page is filled with bytes that are there, with one at least,
and never beyond its capacity; and the bytes of every chunk are there.  At no moment, in no connection, waits
an empty page or one that holds more than fits, and whatever moves a half-stream makes, what it cuts off the
front of a page is shorter than the page.

All chunks that a segment leads to are handed over in the same call.  Whatever else is handed over, by a flush
or by any other call, is made of pages alone. -/
theorem reassembly_safe (registries : Nat) (ceilings : List Nat) (turns : List Turn) (t : Turn) :
    let s := (fresh registries ceilings).after turns
    (∀ r flow c, s.connectionAt r flow = some c → c.Proper) ∧ s.Upright t ∧ LoopsEnd := by
  intro s
  have hstocked : ∀ r, (s.registry r).Stocked := stocked_after registries ceilings turns
  have hupright : s.Upright t := upright_turn hstocked (kempt_after registries ceilings turns)
    (fun r arena => (parted_after registries ceilings turns r arena).distinct) t
  exact ⟨fun r flow c hc => ((hstocked r).find? hc).proper, hupright, loops_end⟩

/-- Two pages wait whose numbers are `2 ^ 31` apart, so that neither precedes the other. -/
def turnsOfOpposites : List Turn :=
  [.ofSegment 0 1000 80 0 ⟨0⟩ [97], .ofSegment 0 1000 80 0x80000000 ⟨0⟩ [98, 99, 100]]

/-- The stream begins with the first byte of the second one, and the consumer breaks down when it is handed
the chunks. -/
def turnOfOrigin : Turn :=
  { Turn.ofSegment 0 1000 80 0x7fffffff .syn [98] with fails := fun event => event.call == .delivery }

theorem reassembly_safe_between_opposites :
    let s := (fresh 1 [2]).after turnsOfOpposites
    let report := s.turn turnOfOrigin
    (((fresh 1 [2]).arrivals turnsOfOpposites).map fun a =>
        a.fillings.map fun filling => (filling.page.size, filling.span)) = [[(0, ⟨0, 1⟩)], [(0, ⟨0, 3⟩)]] ∧
      ((s.turnArrivals turnOfOrigin).map fun a => a.work.chunks.map Chunk.source) =
        [[.payload ⟨0, 1⟩, .page ⟨.ofNat 0x80000001, [99, 100]⟩]] ∧
      (∀ a ∈ s.turnArrivals turnOfOrigin, a.Safe ∧ a.delivery ∈ report.events) ∧
      report.reply = .failed .delivery ∧
      ∃ event ∈ report.events, turnOfOrigin.fails event = true ∧ event.call = .delivery := by
  intro s report
  obtain ⟨-, hupright, -⟩ := reassembly_safe 1 [2] turnsOfOpposites turnOfOrigin
  have hfailed : report.reply = .failed .delivery := by rfl
  exact ⟨by decide, by decide, hupright.arrivals, hfailed, hupright.blames .delivery hfailed⟩

end Session
end TcpStreams
