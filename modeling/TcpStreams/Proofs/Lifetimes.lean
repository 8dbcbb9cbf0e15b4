import TcpStreams.Proofs.Ageing
import TcpStreams.Proofs.Visits

/-!
# Lifetimes

Every half-stream of a live connection goes one way, from its beginning to its end, whatever the parties of
a session do: whichever arenas and registries they share, however little the arenas hold, and whichever
consumers break down.

* `Outcome.Ages`: a step of a call lets the connections age, and hands nothing on for those that are over.
* `Reassembly.perform_ages`: every call opens a connection at most, and then does so.
* `Session.Placed`: no stream lives in two places.
* `Session.Ages`: what a run makes of the live connections.
* `Session.half_streams_advance`: what becomes of a half-stream between any two moments of its life.
-/

namespace TcpStreams

open Connection (Sided Sheds)

/-! ## The connection of a conversation -/

/-- Where the connections of entries became other ones of the same conversations, so did the connection of
each. -/
theorem Registry.find?_of_forall₂ {R : Connection → Connection → Prop}
    (hflow : ∀ {c c'}, R c c' → c'.flow = c.flow) {r r' : Registry} {flow : FlowId} {c' : Connection}
    (h : List.Forall₂ (fun e e' : Entry => ∃ x, e' = { e with connection := x } ∧ R e.connection x)
      r.entries r'.entries) (hc : r'.find? flow = some c') : ∃ c, r.find? flow = some c ∧ R c c' := by
  obtain ⟨entries, tick⟩ := r
  obtain ⟨entries', tick'⟩ := r'
  simp only [Registry.find?, Registry.entry?] at h hc ⊢
  induction h with
  | nil => cases hc
  | @cons e e' rest rest' hfirst _ ih =>
      obtain ⟨x, rfl, hx⟩ := hfirst
      have hsame : ({ e with connection := x } : Entry).flow = e.flow := hflow hx
      simp only [List.find?_cons, hsame] at hc ⊢
      cases he : decide (e.flow = flow) with
      | true =>
          simp only [he, Option.map_some] at hc ⊢
          obtain rfl := Option.some.inj hc
          exact ⟨_, rfl, hx⟩
      | false =>
          simp only [he] at hc ⊢
          exact ih hc

/-- Where pages were given up at most, the connection of a conversation is what it was, but for pages. -/
theorem Registry.find?_of_sheds {r r' : Registry} {flow : FlowId} {c' : Connection}
    (h : List.Forall₂ Entry.Sheds r.entries r'.entries) (hc : r'.find? flow = some c') :
    ∃ c, r.find? flow = some c ∧ c.Sheds c' :=
  find?_of_forall₂ (R := Sheds) (fun hx => hx.kin.flow) h hc

/-- A direction of a stream in which nothing is expected: where the stream lives, that half-stream is
over. -/
def Registry.Ceased (r : Registry) (k : Nat) (d : Direction) : Prop :=
  ∀ flow c, r.find? flow = some c → c.stream = k → (c.half d).Finished

/-- The half-streams know their directions, and the arena keeps blank pages. -/
structure Reassembly.Kempt (s : Reassembly) : Prop where
  /-- The half-streams of every connection know their directions. -/
  sided : ∀ flow c, s.registry.find? flow = some c → c.Sided
  /-- The pages kept are blank. -/
  blank : s.arena.Blank

/-- A step of a call lets the connections age, where all that arrives in a direction `d` of a stream `k`
lies in the windows of `W k d`. -/
structure Outcome.Ages {α : Type} (W : Nat → Direction → SeqNum → Prop) (s : Reassembly)
    (o : Outcome α) : Prop where
  /-- No stream begins. -/
  next : o.state.nextStream = s.nextStream
  /-- The arena keeps blank pages. -/
  blank : o.state.arena.Blank
  /-- A connection that is live afterwards was so before. -/
  live : ∀ flow c', o.state.registry.find? flow = some c' →
    ∃ c cs, s.registry.find? flow = some c ∧ c.Ages (W c.stream) cs c'
  /-- Nothing is handed over for a direction that was over. -/
  silent : ∀ k d, s.registry.Ceased k d → o.handed k d = []

namespace Outcome

variable {α β : Type} {W : Nat → Direction → SeqNum → Prop} {s : Reassembly} {o : Outcome α}

theorem Ages.kempt (h : o.Ages W s) (hs : s.Kempt) : o.state.Kempt := by
  refine ⟨fun flow c' hc' => ?_, h.blank⟩
  obtain ⟨c, cs, hc, hages⟩ := h.live flow c' hc'
  exact hages.sided (hs.sided flow c hc)

theorem Ages.ceased (h : o.Ages W s) {k : Nat} {d : Direction} (hk : s.registry.Ceased k d) :
    o.state.registry.Ceased k d := by
  intro flow c' hc' hstream
  obtain ⟨c, cs, hc, hages⟩ := h.live flow c' hc'
  have hfinished := hk flow c hc (hages.kin.stream.symm.trans hstream)
  rw [(hages.half d).rests hfinished]
  exact hfinished

theorem ages_of_same (hblank : s.arena.Blank) (hstate : o.state = s)
    (hquiet : ∀ k d, o.handed k d = []) : o.Ages W s := by
  refine ⟨by rw [hstate], hstate ▸ hblank, fun flow c hc => ?_, fun k d _ => hquiet k d⟩
  rw [hstate] at hc
  exact ⟨c, [], hc, .refl _ c⟩

theorem ages_answer (hblank : s.arena.Blank) (a : α) : (Reassembly.answer a s).Ages W s :=
  ages_of_same hblank rfl fun _ _ => rfl

/-- If every step lets the connections age, so do all of them. -/
theorem Ages.andThen {f : α → Reassembly → Outcome β} (h : o.Ages W s)
    (hf : ∀ a, o.result = .ok a → (f a o.state).Ages W o.state) : (o.andThen f).Ages W s := by
  cases hres : o.result with
  | error call =>
      have herror := fun k d => @andThen_error _ _ o f call hres k d
      have hstate := (herror 0 .forward).1
      refine ⟨hstate ▸ h.next, hstate ▸ h.blank, hstate ▸ h.live, fun k d hk => ?_⟩
      rw [(herror k d).2]
      exact h.silent k d hk
  | ok a =>
      have hok := fun k d => @andThen_ok _ _ o f a hres k d
      have hstate := (hok 0 .forward).1
      have hnext := hf a hres
      refine ⟨hstate ▸ hnext.next.trans h.next, hstate ▸ hnext.blank, fun flow c'' hc'' => ?_,
        fun k d hk => ?_⟩
      · rw [hstate] at hc''
        obtain ⟨c', cs', hc', hages'⟩ := hnext.live flow c'' hc''
        obtain ⟨c, cs, hc, hages⟩ := h.live flow c' hc'
        rw [hages.kin.stream] at hages'
        exact ⟨c, cs ++ cs', hc, hages.trans hages'⟩
      · rw [(hok k d).2, h.silent k d hk, hnext.silent k d (h.ceased hk)]
        rfl

/-- What counts is the state reached and what was handed over. -/
theorem Ages.congr {o' : Outcome β} (h : o.Ages W s) (hstate : o'.state = o.state)
    (hevents : o'.events = o.events) : o'.Ages W s := by
  refine ⟨hstate ▸ h.next, hstate ▸ h.blank, hstate ▸ h.live, fun k d hk => ?_⟩
  rw [handed, hevents]
  exact h.silent k d hk

end Outcome

namespace Reassembly

variable {W : Nat → Direction → SeqNum → Prop} {s s' s₁ : Reassembly} {fails : Event → Bool}
  {flow : FlowId} {c c' : Connection} {k : Nat} {d : Direction}

/-! ## Steps of a call -/

/-- **Handing over.** A connection has aged, and others have given up pages. -/
theorem ages_handOver (s' : Reassembly) {chunks : List Chunk} (hblank : s'.arena.Blank)
    (hc : s.registry.find? flow = some c) (hages : c.Ages (W c.stream) chunks c')
    (hsheds : List.Forall₂ Entry.Sheds s.registry.entries s'.registry.entries)
    (hnext : s'.nextStream = s.nextStream) (payload : List UInt8) :
    (s'.handOver fails c' payload chunks).Ages W s := by
  have hkeeps : (s'.handOver fails c' payload chunks).state.nextStream = s'.nextStream ∧
      (s'.handOver fails c' payload chunks).state.arena.Blank := by
    simp only [handOver]
    split
    · exact ⟨rfl, hblank⟩
    · exact ⟨rfl, hblank.giveAll _⟩
  refine ⟨hkeeps.1.trans hnext, hkeeps.2, fun other x hx => ?_, fun k d hk => ?_⟩
  · rw [registry_handOver, Registry.find?_replace] at hx
    split at hx
    · next hother =>
        obtain ⟨-, -, rfl⟩ := Option.map_eq_some_iff.1 hx
        rw [hother, hages.kin.flow, (find?_eq_some hc).2]
        exact ⟨c, chunks, hc, hages⟩
    · obtain ⟨y, hy, hshed⟩ := Registry.find?_of_sheds hsheds hx
      exact ⟨y, [], hy, hshed.ages _⟩
  · rw [Upheld.handed_handOver]
    split
    · next hstream =>
        rw [hages.silent d (hk flow c hc (hages.kin.stream.symm.trans hstream))]
        rfl
    · rfl

/-- A connection that is found where one was taken out was there before. -/
theorem find?_of_erase {r : Registry} {other : FlowId} (hc : (r.erase flow).find? other = some c) :
    r.find? other = some c := by
  rw [Registry.find?_erase] at hc
  split at hc
  · cases hc
  · exact hc

/-- So it is where a stream was concluded. -/
theorem find?_of_conclude (hc : (s.conclude fails c').state.registry.find? flow = some c) :
    s.registry.find? flow = some c := by
  rcases registry_conclude fails c' s with heq | heq
  · exact heq ▸ hc
  · exact find?_of_erase (heq ▸ hc)

theorem ages_conclude (hblank : s.arena.Blank) (c : Connection) : (s.conclude fails c).Ages W s := by
  have hkeeps : (s.conclude fails c).state.nextStream = s.nextStream ∧
      (s.conclude fails c).state.arena.Blank ∧ ∀ k d, (s.conclude fails c).handed k d = [] := by
    simp only [conclude]
    split
    · exact ⟨rfl, hblank, fun _ _ => rfl⟩
    · exact ⟨rfl, hblank.giveAll _, fun _ _ => rfl⟩
  exact ⟨hkeeps.1, hkeeps.2.1, fun flow x hx => ⟨x, [], find?_of_conclude hx, .refl _ x⟩,
    fun k d _ => hkeeps.2.2 k d⟩

theorem ages_finish {a : Arrival} (hs : a.state.Kempt)
    (hc : a.state.registry.find? flow = some a.connection)
    (hW : ∀ base, W a.stream a.direction base → a.InWindow base) : (a.finish fails).Ages W a.state := by
  have hwork : a.before.Ages (W a.stream) a.work :=
    Arrival.ages_work (hs.sided _ _ hc) hs.blank hW
  obtain ⟨cs, hchunks, hages⟩ := hwork.connection
  obtain rfl : a.work.chunks = cs := hchunks
  have hhanded : (a.worked.handOver fails a.work.connection a.segment.payload a.work.chunks).Ages W
      a.state := ages_handOver a.worked (hwork.blank hs.blank) hc hages hwork.entries rfl _
  refine Outcome.Ages.andThen (hhanded.congr rfl rfl) fun _ _ => ?_
  split
  · exact ages_conclude hhanded.blank _
  · exact Outcome.ages_answer hhanded.blank ()

theorem ages_windUp (hs : s.Kempt) (flow : FlowId) : (s.windUp fails flow).Ages W s := by
  rw [windUp]
  cases hc : s.registry.find? flow with
  | none => exact Outcome.ages_answer hs.blank false
  | some c =>
      have hhanded : (({ s with arena := s.arena.giveAll c.close.freed } : Reassembly).handOver fails
          c.close.value [] c.close.chunks).Ages W s :=
        ages_handOver { s with arena := s.arena.giveAll c.close.freed } (hs.blank.giveAll _) hc
          (Connection.ages_close _ (hs.sided _ _ hc)) (Work.sheds_refl _) rfl []
      refine Outcome.Ages.andThen (hhanded.congr rfl rfl) fun _ _ => ?_
      refine Outcome.Ages.andThen (ages_conclude hhanded.blank _) fun _ _ => ?_
      exact Outcome.ages_answer (ages_conclude (W := W) hhanded.blank _).blank true

theorem ages_windUpAll (hs : s.Kempt) (flows : List FlowId) : (s.windUpAll fails flows).Ages W s :=
  windUpAll_induction (P := Kempt) (R := fun s o => o.Ages W s)
    (fun _ flow hs => (ages_windUp (W := W) hs flow).kempt hs)
    (fun a _ hs => Outcome.ages_answer hs.blank a) (fun _ flow hs => ages_windUp hs flow)
    Outcome.Ages.andThen hs flows

theorem ages_flushBefore (hs : s.Kempt) (cutoff : Nat) : (s.flushBefore fails cutoff).Ages W s := by
  have hall : (s.windUpAll fails (s.registry.idleFlows cutoff)).Ages W s := ages_windUpAll hs _
  exact hall.andThen fun _ _ => Outcome.ages_of_same hall.blank rfl fun _ _ => rfl

theorem ages_remove (hs : s.Kempt) (flow : FlowId) : (s.remove flow).Ages W s := by
  rw [remove]
  cases hc : s.registry.find? flow with
  | none => exact Outcome.ages_answer hs.blank false
  | some c =>
      exact ⟨rfl, hs.blank.giveAll _, fun other x hx => ⟨x, [], find?_of_erase hx, .refl _ x⟩,
        fun _ _ _ => rfl⟩

/-! ## Calls -/

/-- `Opens opened s s'`: the conversation `opened`, if there is one, gets a connection with the next stream, and
no other does. -/
structure Opens (opened : Option FlowId) (s s' : Reassembly) : Prop where
  /-- Streams are numbered upwards. -/
  begun : s.nextStream ≤ s'.nextStream
  /-- The arena is left alone. -/
  arena : s'.arena = s.arena
  /-- A connection that is live afterwards was so before, or it is the new one. -/
  live : ∀ flow c, s'.registry.find? flow = some c → s.registry.find? flow = some c ∨
    opened = some flow ∧ s.nextStream < s'.nextStream ∧
      ∃ opener now, c = Connection.new flow opener s.nextStream now

theorem Opens.refl (s : Reassembly) : s.Opens none s :=
  ⟨Nat.le_refl _, rfl, fun _ _ hc => Or.inl hc⟩

theorem Opens.kempt {opened : Option FlowId} (h : s.Opens opened s') (hs : s.Kempt) : s'.Kempt := by
  refine ⟨fun flow c hc => ?_, h.arena ▸ hs.blank⟩
  rcases h.live flow c hc with hc | ⟨-, -, opener, now, rfl⟩
  · exact hs.sided flow c hc
  · intro d
    rw [Connection.half_new]
    rfl

/-- Looking a conversation up opens its connection if there is none, and hands nothing over. -/
theorem opens_lookUp (s : Reassembly) (fails : Event → Bool) (flow : FlowId) (src : Endpoint) (now : Nat) :
    s.Opens (some flow) (s.lookUp fails flow src now).state ∧
      ∀ k d, (s.lookUp fails flow src now).handed k d = [] := by
  have harena : (s.lookUp fails flow src now).state.arena = s.arena := by
    rw [lookUp]
    split
    · rfl
    · simp only
      split <;> rfl
  cases hfind : s.registry.find? flow with
  | some c =>
      obtain ⟨-, hevents, hnext, hsame⟩ := @lookUp_found s fails flow now c hfind src
      refine ⟨⟨Nat.le_of_eq hnext.symm, harena, fun other x hx => Or.inl ?_⟩, fun k d => ?_⟩
      · rwa [hsame] at hx
      · rw [Outcome.handed, hevents]
        rfl
  | none =>
      obtain ⟨-, hevents, hnext, hfound⟩ := @lookUp_opened s fails flow now hfind src
      have hlt : s.nextStream < (s.lookUp fails flow src now).state.nextStream :=
        hnext ▸ Nat.lt_succ_self _
      refine ⟨⟨Nat.le_of_lt hlt, harena, fun other x hx => ?_⟩, fun k d => ?_⟩
      · rw [hfound] at hx
        split at hx
        · next hother =>
            split at hx
            · cases hx
            · obtain rfl := Option.some.inj hx
              exact Or.inr ⟨congrArg some hother.symm, hlt, src, now, by rw [hother]⟩
        · exact Or.inl hx
      · rw [Outcome.handed, hevents]
        rfl

/-- The connection that was looked up is found. -/
theorem find?_of_lookUp {src : Endpoint} {now : Nat}
    (hres : (s.lookUp fails flow src now).result = .ok c) :
    (s.lookUp fails flow src now).state.registry.find? flow = some c := by
  cases hfind : s.registry.find? flow with
  | some x =>
      obtain ⟨hfound, -, -, hsame⟩ := @lookUp_found s fails flow now x hfind src
      rw [hsame, hfind, Except.ok.inj (hfound.symm.trans hres)]
  | none =>
      obtain ⟨hopened, -, -, hfound⟩ := @lookUp_opened s fails flow now hfind src
      rw [hfound, if_pos rfl]
      rw [hopened] at hres
      split at hres
      · cases hres
      · next hreturns => rw [if_neg hreturns, Except.ok.inj hres]

/-- So is the connection that a segment arrives at. -/
theorem find?_arrived {call : Call} {a : Arrival} (ha : a ∈ s.arrivals call) :
    a.state.registry.find? a.connection.flow = some a.connection := by
  obtain ⟨path, -, hstate, hres, -⟩ := mem_arrivals ha
  have hlive := find?_of_lookUp hres
  rw [hstate] at hlive
  exact (find?_eq_some hlive).2 ▸ hlive

/-- A call that looks nothing up lets the connections age and opens none. -/
theorem ages_of_unvisited (hs : s.Kempt) (now : Nat) {action : Action} (hquiet : action.visited = none) :
    (s.perform fails now action).Ages W s := by
  cases action with
  | receive config locked path segment => cases hquiet
  | lookUp flow src => cases hquiet
  | flushAll order =>
      have hall : (s.flushAll fails order).Ages W s := ages_windUpAll hs _
      exact hall.congr rfl rfl
  | flushBefore cutoff =>
      have hall : (s.flushBefore fails cutoff).Ages W s := ages_flushBefore hs cutoff
      exact hall.congr rfl rfl
  | flushIdle config =>
      have hall : (s.flushIdle fails config now).Ages W s := by
        rcases s.flushIdle_cases fails config now with heq | ⟨cutoff, heq⟩
        · rw [heq]
          exact Outcome.ages_answer hs.blank 0
        · rw [heq]
          exact ages_flushBefore hs cutoff
      exact hall.congr rfl rfl
  | remove flow =>
      have hremoved : (s.remove flow).Ages W s := ages_remove hs flow
      exact hremoved.congr rfl rfl

/-- **Every call** opens a connection at most, and then lets all of them age. -/
theorem perform_ages (hs : s.Kempt) (call : Call)
    (hW : ∀ a ∈ s.arrivals call, ∀ base, W a.stream a.direction base → a.InWindow base) :
    ∃ opened s', s.Opens opened s' ∧ (s.perform call.fails call.now call.action).Ages W s' := by
  obtain ⟨fails, now, action⟩ := call
  cases action with
  | receive config locked path segment =>
      obtain ⟨hopens, hquiet⟩ := s.opens_lookUp fails (segment.flow path) (segment.src path) now
      have hkempt := hopens.kempt hs
      refine ⟨_, _, hopens, ?_⟩
      show Outcome.Ages W _ ((s.receive fails config locked path segment now).map fun _ => Answer.done)
      cases hres : (s.lookUp fails (segment.flow path) (segment.src path) now).result with
      | error call =>
          obtain ⟨-, hstate, hhanded⟩ :=
            @receive_of_error s fails config locked path segment now call hres
          exact Outcome.ages_of_same hkempt.blank hstate fun k d => (hhanded k d).trans (hquiet k d)
      | ok c =>
          obtain ⟨a, harr, ha, hac, hstate, hhanded⟩ :=
            @receive_of_ok s fails config locked path segment now c hres
          rw [← ha] at hkempt ⊢
          have hfound : a.state.registry.find? (segment.flow path) = some a.connection := by
            rw [ha, hac]
            exact find?_of_lookUp hres
          have hfinish : (a.finish fails).Ages W a.state :=
            ages_finish hkempt hfound (hW a (harr ▸ List.mem_singleton_self a))
          refine ⟨hstate ▸ hfinish.next, hstate ▸ hfinish.blank, hstate ▸ hfinish.live, fun k d hk => ?_⟩
          refine (hhanded k d).trans ?_
          rw [hquiet, hfinish.silent k d hk]
          rfl
  | lookUp flow src =>
      obtain ⟨hopens, hquiet⟩ := s.opens_lookUp fails flow src now
      exact ⟨_, _, hopens, Outcome.ages_of_same (hopens.kempt hs).blank rfl hquiet⟩
  | flushAll order | flushBefore cutoff | flushIdle config | remove flow =>
      exact ⟨none, s, .refl s, ages_of_unvisited hs now rfl⟩

end Reassembly
/-! ## Sessions -/

namespace Session

variable {W : Nat → Direction → SeqNum → Prop} {s s' s'' : Session} {t : Turn} {ts : List Turn}
  {registry arena r r' k : Nat} {flow flow' : FlowId} {c c' : Connection} {d : Direction}

/-- The live connection of a conversation in a registry. -/
def connectionAt (s : Session) (registry : Nat) (flow : FlowId) : Option Connection :=
  (s.registry registry).find? flow

/-- What holds of a session from its beginning on. -/
structure Kempt (s : Session) : Prop where
  /-- The half-streams of every connection know their directions. -/
  sided : ∀ r flow c, s.connectionAt r flow = some c → c.Sided
  /-- Every arena keeps blank pages. -/
  blank : ∀ arena ∈ s.arenas, arena.Blank
  /-- Streams are numbered in the order in which they begin. -/
  below : ∀ r flow c, s.connectionAt r flow = some c → c.stream < s.nextStream
  /-- No stream lives in two places. -/
  once : ∀ r flow c r' flow' c', s.connectionAt r flow = some c → s.connectionAt r' flow' = some c' →
    c.stream = c'.stream → r = r' ∧ flow = flow'

theorem kempt_fresh (registries : Nat) (ceilings : List Nat) : (fresh registries ceilings).Kempt := by
  have hnone : ∀ r flow, (fresh registries ceilings).connectionAt r flow = none := fun r flow => by
    rw [connectionAt, registry_fresh]
    rfl
  refine ⟨?_, ?_, ?_, ?_⟩
  · intro r flow c hc
    rw [hnone] at hc
    cases hc
  · intro arena ha
    obtain ⟨ceiling, -, rfl⟩ := List.mem_map.1 ha
    exact Arena.blank_ofCeiling ceiling
  · intro r flow c hc
    rw [hnone] at hc
    cases hc
  · intro r flow c r' flow' c' hc
    rw [hnone] at hc
    cases hc

theorem blank_arena (h : ∀ arena ∈ s.arenas, arena.Blank) (index : Nat) : (s.arena index).Blank := by
  rw [Session.arena, List.getD_eq_getElem?_getD]
  cases ha : s.arenas[index]? with
  | none => exact Arena.blank_ofCeiling 0
  | some arena => exact h arena (List.mem_of_getElem? ha)

theorem Kempt.state (h : s.Kempt) (registry arena : Nat) : (s.state registry arena).Kempt :=
  ⟨h.sided registry, blank_arena h.blank arena⟩

/-- A connection that begins with a stream which has not begun yet. -/
def Begins (s : Session) (flow : FlowId) (c : Connection) : Prop :=
  ∃ opener n now, s.nextStream ≤ n ∧ c = Connection.new flow opener n now

/-- What a run makes of the live connections: those that are live afterwards were so before, or began since,
and they have aged. -/
structure Ages (W : Nat → Direction → SeqNum → Prop) (s s' : Session) : Prop where
  /-- Streams are numbered upwards. -/
  begun : s.nextStream ≤ s'.nextStream
  /-- Every connection has aged. -/
  live : ∀ r flow c', s'.connectionAt r flow = some c' → ∃ c cs,
    (s.connectionAt r flow = some c ∨ s.Begins flow c) ∧ c.Ages (W c.stream) cs c'

theorem Ages.refl (W : Nat → Direction → SeqNum → Prop) (s : Session) : Ages W s s :=
  ⟨Nat.le_refl _, fun _ _ c hc => ⟨c, [], Or.inl hc, .refl _ c⟩⟩

theorem Ages.trans (h : Ages W s s') (h' : Ages W s' s'') : Ages W s s'' := by
  refine ⟨Nat.le_trans h.begun h'.begun, fun r flow c'' hc'' => ?_⟩
  obtain ⟨c', cs', hc', hages'⟩ := h'.live r flow c'' hc''
  rcases hc' with hc' | ⟨opener, n, now, hle, rfl⟩
  · obtain ⟨c, cs, hc, hages⟩ := h.live r flow c' hc'
    rw [hages.kin.stream] at hages'
    exact ⟨c, cs ++ cs', hc, hages.trans hages'⟩
  · exact ⟨_, cs', Or.inr ⟨opener, n, now, Nat.le_trans h.begun hle, rfl⟩, hages'⟩

/-- A stream that had begun has aged in its place. -/
theorem Ages.of_begun (h : Ages W s s') (hc' : s'.connectionAt r flow = some c')
    (hbegun : c'.stream < s.nextStream) :
    ∃ c cs, s.connectionAt r flow = some c ∧ c.Ages (W c.stream) cs c' := by
  obtain ⟨c, cs, hc | ⟨opener, n, now, hle, rfl⟩, hages⟩ := h.live r flow c' hc'
  · exact ⟨c, cs, hc, hages⟩
  · have hstream : c'.stream = n := hages.kin.stream
    omega

/-- Where registries and streams are the same, nothing has happened to the connections. -/
theorem connectionAt_congr (h : s'.registries = s.registries) (r : Nat) (flow : FlowId) :
    s'.connectionAt r flow = s.connectionAt r flow := by
  simp only [connectionAt, Session.registry, h]

/-- Only one registry is changed by an action. -/
theorem connectionAt_report (s : Session) (registry arena now : Nat) (o : Outcome Answer)
    (hc : (s.report registry arena now o).session.connectionAt r flow = some c) :
    r = registry ∧ o.state.registry.find? flow = some c ∨
      r ≠ registry ∧ s.connectionAt r flow = some c := by
  rw [connectionAt] at hc ⊢
  rcases s.registry_report registry arena now o r with
    ⟨heq, hreg⟩ | ⟨-, hreg⟩ | ⟨hne, hreg⟩
  · exact Or.inl ⟨heq, hreg ▸ hc⟩
  · rw [hreg] at hc
    cases hc
  · exact Or.inr ⟨hne, hreg ▸ hc⟩

/-- No turn opens a registry, and none takes one away. -/
theorem length_registries_turn (s : Session) (t : Turn) :
    (s.turn t).session.registries.length = s.registries.length := by
  obtain ⟨fails, now, deed⟩ := t
  cases deed with
  | act registry arena action => exact List.length_set
  | take arena seq => exact congrArg List.length (s.takePage_keeps arena seq).1
  | give arena slots => exact congrArg List.length (givePages_keeps arena slots s).1

theorem length_registries_after (registries : Nat) (ceilings : List Nat) (ts : List Turn) :
    ((fresh registries ceilings).after ts).registries.length = registries := by
  have hafter : ∀ s : Session, (s.after ts).registries.length = s.registries.length := by
    induction ts with
    | nil => exact fun _ => rfl
    | cons t rest ih => exact fun s => (ih (s.turn t).session).trans (s.length_registries_turn t)
  exact (hafter _).trans List.length_replicate

/-- **A call on a registry** leaves the session kempt, and lets its connections age. -/
theorem Kempt.report (h : s.Kempt) {opened : Option FlowId} {after : Reassembly} {o : Outcome Answer}
    (hopens : (s.state registry arena).Opens opened after) (hages : o.Ages W after) (now : Nat) :
    (s.report registry arena now o).session.Kempt ∧
      Ages W s (s.report registry arena now o).session := by
  have hnext : s.nextStream ≤ o.state.nextStream := hages.next ▸ hopens.begun
  -- where a connection that is live afterwards comes from
  have horigin : ∀ r flow c', (s.report registry arena now o).session.connectionAt r flow = some c' →
      ∃ c cs, c.Ages (W c.stream) cs c' ∧ (s.connectionAt r flow = some c ∨
        (r = registry ∧ opened = some flow) ∧ s.nextStream < o.state.nextStream ∧
          ∃ opener now, c = Connection.new flow opener s.nextStream now) := by
    intro r flow c' hc'
    rcases s.connectionAt_report registry arena now o hc' with ⟨rfl, hfound⟩ | ⟨-, hfound⟩
    · obtain ⟨c, cs, hc, haged⟩ := hages.live flow c' hfound
      refine ⟨c, cs, haged, ?_⟩
      rcases hopens.live flow c hc with hc | ⟨hopened, hlt, hnew⟩
      · exact Or.inl hc
      · exact Or.inr ⟨⟨rfl, hopened⟩, hages.next ▸ hlt, hnew⟩
    · exact ⟨c', [], .refl _ c', Or.inl hfound⟩
  refine ⟨⟨?_, ?_, ?_, ?_⟩, ⟨hnext, ?_⟩⟩
  · intro r flow c' hc'
    obtain ⟨c, cs, haged, hc | ⟨-, -, opener, now, rfl⟩⟩ := horigin r flow c' hc'
    · exact haged.sided (h.sided r flow c hc)
    · refine haged.sided fun d => ?_
      rw [Connection.half_new]
      rfl
  · intro x hx
    rcases List.mem_or_eq_of_mem_set hx with hx | rfl
    · exact h.blank x hx
    · exact hages.blank
  · intro r flow c' hc'
    obtain ⟨c, cs, haged, hc | ⟨-, hlt, opener, now, rfl⟩⟩ := horigin r flow c' hc'
    · rw [haged.kin.stream]
      exact Nat.lt_of_lt_of_le (h.below r flow c hc) hnext
    · rw [haged.kin.stream]
      exact hlt
  · intro r flow c r' flow' c' hc hc' hsame
    obtain ⟨x, xs, haged, hx⟩ := horigin r flow c hc
    obtain ⟨x', xs', haged', hx'⟩ := horigin r' flow' c' hc'
    rw [haged.kin.stream, haged'.kin.stream] at hsame
    rcases hx with hx | ⟨⟨rfl, hopened⟩, -, opener, now, rfl⟩
    · rcases hx' with hx' | ⟨-, -, opener, now, rfl⟩
      · exact h.once r flow x r' flow' x' hx hx' hsame
      · exact absurd hsame (Nat.ne_of_lt (h.below r flow x hx))
    · rcases hx' with hx' | ⟨⟨rfl, hopened'⟩, -⟩
      · exact absurd hsame.symm (Nat.ne_of_lt (h.below r' flow' x' hx'))
      · exact ⟨rfl, Option.some.inj (hopened.symm.trans hopened')⟩
  · intro r flow c' hc'
    obtain ⟨c, cs, haged, hc | ⟨-, -, opener, now, hnew⟩⟩ := horigin r flow c' hc'
    · exact ⟨c, cs, Or.inl hc, haged⟩
    · exact ⟨c, cs, Or.inr ⟨opener, s.nextStream, now, Nat.le_refl _, hnew⟩, haged⟩

/-- Where only arenas and slots are touched, nothing happens to the connections. -/
theorem Kempt.traded (h : s.Kempt) (hregistries : s'.registries = s.registries)
    (hnext : s'.nextStream = s.nextStream) (hblank : ∀ arena ∈ s'.arenas, arena.Blank) :
    s'.Kempt ∧ Ages W s s' := by
  have hsame := connectionAt_congr hregistries
  refine ⟨⟨?_, hblank, ?_, ?_⟩, ⟨Nat.le_of_eq hnext.symm, ?_⟩⟩
  · intro r flow c hc
    rw [hsame] at hc
    exact h.sided r flow c hc
  · intro r flow c hc
    rw [hsame] at hc
    rw [hnext]
    exact h.below r flow c hc
  · intro r flow c r' flow' c' hc hc'
    rw [hsame] at hc hc'
    exact h.once r flow c r' flow' c' hc hc'
  · intro r flow c hc
    rw [hsame] at hc
    exact ⟨c, [], Or.inl hc, .refl _ c⟩

theorem blank_takePage (h : ∀ arena ∈ s.arenas, arena.Blank) (index : Nat) (seq : SeqNum) :
    ∀ arena ∈ (s.takePage index seq).session.arenas, arena.Blank := by
  rw [takePage]
  cases ht : (s.arena index).take? seq with
  | none => exact h
  | some out =>
      obtain ⟨page, left⟩ := out
      intro arena ha
      rcases List.mem_or_eq_of_mem_set ha with ha | rfl
      · exact h arena ha
      · exact ((blank_arena h index).take? ht).2

theorem blank_givePages (h : ∀ arena ∈ s.arenas, arena.Blank) (index : Nat) (slots : List Nat) :
    ∀ arena ∈ (s.givePages index slots).1.arenas, arena.Blank := by
  induction slots generalizing s with
  | nil => exact h
  | cons slot rest ih =>
      rw [givePages]
      cases s.slots.getD slot none with
      | none => exact ih h
      | some page =>
          refine @ih { s with arenas := s.arenas.set index ((s.arena index).give page)
                              slots := s.slots.set slot none } fun arena ha => ?_
          rcases List.mem_or_eq_of_mem_set ha with ha | rfl
          · exact h arena ha
          · exact (blank_arena h index).give page

/-- Nothing is expected in a direction of a stream, whichever registry the stream lives in. -/
def Ceased (s : Session) (k : Nat) (d : Direction) : Prop := ∀ r, (s.registry r).Ceased k d

/-- It stays so once the stream has begun. -/
theorem Ages.ceased (h : Ages W s s') (hbegun : k < s.nextStream) (hk : s.Ceased k d) :
    s'.Ceased k d := by
  rintro r flow c' hc' rfl
  obtain ⟨c, cs, hc, hages⟩ := h.of_begun hc' hbegun
  have hfinished := hk r flow c hc hages.kin.stream.symm
  rw [(hages.half d).rests hfinished]
  exact hfinished

/-- **A turn** leaves the session kempt and lets its connections age, if the segments that arrive lie in
their windows.  Nothing is handed over for a direction that was over. -/
theorem Kempt.turn (h : s.Kempt)
    (hW : ∀ a ∈ s.turnArrivals t, ∀ base, W a.stream a.direction base → a.InWindow base) :
    (s.turn t).session.Kempt ∧ Ages W s (s.turn t).session ∧
      ∀ k d, k < s.nextStream → s.Ceased k d →
        (s.turn t).events.flatMap (Event.deliveries k d) = [] := by
  obtain ⟨fails, now, deed⟩ := t
  cases deed with
  | act registry arena action =>
      obtain ⟨opened, after, hopens, hages⟩ :=
        Reassembly.perform_ages (h.state registry arena) ⟨fails, now, action⟩ hW
      obtain ⟨hkempt, haged⟩ := h.report hopens hages now
      refine ⟨hkempt, haged, fun k d hbegun hk => hages.silent k d fun flow c hc hstream => ?_⟩
      rcases hopens.live flow c hc with hc | ⟨-, -, opener, now', rfl⟩
      · exact hk registry flow c hc hstream
      · exact absurd hstream (Nat.ne_of_gt hbegun)
  | take arena seq =>
      obtain ⟨hregistries, hnext, hevents⟩ := s.takePage_keeps arena seq
      obtain ⟨hkempt, haged⟩ :=
        h.traded (W := W) hregistries hnext (blank_takePage h.blank arena seq)
      refine ⟨hkempt, haged, fun k d _ _ => ?_⟩
      show (s.takePage arena seq).events.flatMap _ = []
      rw [hevents]
      rfl
  | give arena slots =>
      obtain ⟨hregistries, hnext⟩ := givePages_keeps arena slots s
      obtain ⟨hkempt, haged⟩ :=
        h.traded (W := W) hregistries hnext (blank_givePages h.blank arena slots)
      exact ⟨hkempt, haged, fun _ _ _ _ => rfl⟩

/-- **So does a run.** -/
theorem Kempt.after (h : s.Kempt)
    (hW : ∀ a ∈ s.arrivals ts, ∀ base, W a.stream a.direction base → a.InWindow base) :
    (s.after ts).Kempt ∧ Ages W s (s.after ts) ∧ ∀ k d, k < s.nextStream → s.Ceased k d →
      ((s.reports ts).flatMap Report.events).flatMap (Event.deliveries k d) = [] := by
  induction ts generalizing s with
  | nil => exact ⟨h, .refl W s, fun _ _ _ _ => rfl⟩
  | cons t rest ih =>
      obtain ⟨hkempt, hfirst, hquiet⟩ := h.turn (W := W) (t := t) fun a ha =>
        hW a (List.mem_append_left _ ha)
      obtain ⟨hend, hrest, hsilent⟩ := ih hkempt fun a ha => hW a (List.mem_append_right _ ha)
      refine ⟨hend, hfirst.trans hrest, fun k d hbegun hk => ?_⟩
      have hlater := hsilent k d (Nat.lt_of_lt_of_le hbegun hfirst.begun) (hfirst.ceased hbegun hk)
      rw [reports, List.flatMap_cons, List.flatMap_append, hquiet k d hbegun hk, hlater]
      rfl

/-- Whatever arrives, a run leaves the session kempt. -/
theorem kempt_turn (h : s.Kempt) (t : Turn) : (s.turn t).session.Kempt :=
  (h.turn (W := fun _ _ _ => False) fun _ _ _ => False.elim).1

theorem kempt_after (registries : Nat) (ceilings : List Nat) (ts : List Turn) :
    ((fresh registries ceilings).after ts).Kempt :=
  ((kempt_fresh registries ceilings).after (W := fun _ _ _ => False) fun _ _ _ => False.elim).1

theorem arrivals_append (ts us : List Turn) (s : Session) :
    s.arrivals (ts ++ us) = s.arrivals ts ++ (s.after ts).arrivals us := by
  induction ts generalizing s with
  | nil => rfl
  | cons t rest ih =>
      rw [List.cons_append, arrivals, arrivals, ih (s.turn t).session, List.append_assoc]
      rfl

/-- **A half-stream goes one way.** Let any number of reassemblers and other parties share registries and
arenas of any ceilings, let pages be taken and given back directly, and let consumers break down in any
calls.  Take a live connection at any moment, either of its directions, and any later moment.

If the stream of the connection is live then, it is in the same place, and its half-stream has only moved
forward: it has not fallen back to an earlier phase, and a next number that was known is known.  Where the
data of the direction and its SYN lie in one window, that number has not moved backwards.

If the half-stream was over, nothing of it has changed, and its consumer has not been handed anything of the
direction in between, whether or not the connection is still live. -/
theorem half_streams_advance (registries : Nat) (ceilings : List Nat) (turns more : List Turn) :
    let first := fresh registries ceilings
    let s := first.after turns
    let s' := s.after more
    ∀ r flow c, s.connectionAt r flow = some c → ∀ d,
      (∀ r' flow' c', s'.connectionAt r' flow' = some c' → c'.stream = c.stream →
        (r' = r ∧ flow' = flow) ∧
        Phase.Leads (c.half d).phase (c'.half d).phase ∧
        (∀ next, (c.half d).next = some next → ∃ next', (c'.half d).next = some next' ∧
          ∀ base, (∀ a ∈ first.arrivals (turns ++ more), a.stream = c.stream → a.direction = d →
              a.InWindow base) →
            base.offset next ≤ base.offset next' ∧ base.offset next' ≤ SeqNum.reach) ∧
        ((c.half d).isClosed = true → c'.half d = c.half d)) ∧
      ((c.half d).isClosed = true →
        ((s.reports more).flatMap Report.events).flatMap (Event.deliveries c.stream d) = []) := by
  intro first s s' r flow c hc d
  -- the windows in which all the segments of a direction lie
  let W : Nat → Direction → SeqNum → Prop := fun k d base =>
    ∀ a ∈ first.arrivals (turns ++ more), a.stream = k → a.direction = d → a.InWindow base
  have hall : ∀ a ∈ first.arrivals (turns ++ more), ∀ base, W a.stream a.direction base →
      a.InWindow base := fun a ha base hbase => hbase a ha rfl rfl
  rw [arrivals_append] at hall
  obtain ⟨hkempt, hpast, -⟩ := (kempt_fresh registries ceilings).after (W := W) fun a ha =>
    hall a (List.mem_append_left _ ha)
  obtain ⟨-, hsince, hsilent⟩ := hkempt.after (W := W) fun a ha => hall a (List.mem_append_right _ ha)
  have hbegun := hkempt.below r flow c hc
  -- the connection began since the session did, so nothing waits in a direction that is over
  have hborn : (HalfStream.new d).Ages (W c.stream d) (c.half d) := by
    obtain ⟨c₀, cs, hlive | ⟨opener, n, now, -, rfl⟩, hages⟩ := hpast.live r flow c hc
    · rw [connectionAt, registry_fresh] at hlive
      cases hlive
    · have hhalf := hages.half d
      rwa [Connection.half_new, ← hages.kin.stream] at hhalf
  have hfinished : (c.half d).isClosed = true → (c.half d).Finished := hborn.finished rfl
  refine ⟨fun r' flow' c' hc' hstream => ?_, fun hclosed => ?_⟩
  · obtain ⟨x, cs, hx, hages⟩ := hsince.of_begun hc' (hstream ▸ hbegun)
    obtain ⟨rfl, rfl⟩ := hkempt.once r' flow' x r flow c hx hc (hages.kin.stream.symm.trans hstream)
    obtain rfl : x = c := Option.some.inj (hx.symm.trans hc)
    have hhalf := hages.half d
    refine ⟨⟨rfl, rfl⟩, hhalf.phase, fun next hnext => ?_, fun hclosed => hhalf.rests (hfinished hclosed)⟩
    obtain ⟨next', hnext'⟩ := Option.ne_none_iff_exists'.1 (hhalf.known (hnext ▸ nofun))
    refine ⟨next', hnext', fun base hbase => ?_⟩
    obtain ⟨hwithin, -⟩ := hborn.upward base hbase (HalfStream.within_new base d)
    obtain ⟨hwithin', hle⟩ := hhalf.upward base hbase hwithin
    have hreach := hwithin'.pos_le
    rw [HalfStream.pos_some hnext, HalfStream.pos_some hnext'] at hle
    rw [HalfStream.pos_some hnext'] at hreach
    exact ⟨hle, hreach⟩
  · refine hsilent c.stream d hbegun fun r' flow' x hx hstream => ?_
    obtain ⟨rfl, rfl⟩ := hkempt.once r' flow' x r flow c hx hc hstream
    obtain rfl : x = c := Option.some.inj (hx.symm.trans hc)
    exact hfinished hclosed

/-- A stream begins, a page of it waits beyond a gap, and its other direction is over. -/
def turnsToGap : List Turn :=
  [.ofSegment 0 1000 80 10 .syn [97], .ofSegment 0 80 1000 20 .fin [], .ofSegment 0 1000 80 13 ⟨0⟩ [100]]

/-- Another conversation takes the only page, and segments arrive in both directions. -/
def turnsBeyondGap : List Turn :=
  [.ofSegment 0 1001 80 50 ⟨0⟩ [99], .ofSegment 0 80 1000 21 ⟨0⟩ [98], .ofSegment 0 1000 80 14 ⟨0⟩ [101]]

theorem half_streams_advance_beyond_a_gap :
    let flow := FlowId.of (Host.endpoint (.v4 1) 1000) (Host.endpoint (.v4 1) 80)
    let first := fresh 1 [1]
    let s := first.after turnsToGap
    let s' := s.after turnsBeyondGap
    ∃ c c', s.connectionAt 0 flow = some c ∧ s'.connectionAt 0 flow = some c' ∧ c'.stream = c.stream ∧
      Phase.Leads c.forward.phase c'.forward.phase ∧
      c.forward.next = some (.ofNat 12) ∧ c'.forward.next = some (.ofNat 15) ∧
      (SeqNum.ofNat 10).offset (.ofNat 12) ≤ (SeqNum.ofNat 10).offset (.ofNat 15) ∧
      c.reverse.isClosed = true ∧ c'.reverse = c.reverse ∧
      ((s.reports turnsBeyondGap).flatMap Report.events).flatMap (Event.deliveries c.stream .reverse) =
        [] := by
  intro flow first s s'
  obtain ⟨c, hc⟩ : ∃ c, s.connectionAt 0 flow = some c := Option.isSome_iff_exists.1 (by decide)
  obtain ⟨c', hc'⟩ : ∃ c, s'.connectionAt 0 flow = some c := Option.isSome_iff_exists.1 (by decide)
  have hbefore : (s.connectionAt 0 flow).map (fun c => (c.stream, c.forward.next, c.reverse.isClosed)) =
      some (0, some (.ofNat 12), true) := by decide
  have hafter : (s'.connectionAt 0 flow).map (fun c => (c.stream, c.forward.next)) =
      some (0, some (.ofNat 15)) := by decide
  rw [hc, Option.map_some, Option.some.injEq, Prod.mk.injEq, Prod.mk.injEq] at hbefore
  rw [hc', Option.map_some, Option.some.injEq, Prod.mk.injEq] at hafter
  obtain ⟨hstream, hnext, hclosed⟩ := hbefore
  obtain ⟨hstream', hnext'⟩ := hafter
  have hsame : c'.stream = c.stream := hstream'.trans hstream.symm
  have hwindow : ∀ a ∈ first.arrivals (turnsToGap ++ turnsBeyondGap), a.stream = 0 →
      a.direction = .forward → a.InWindow (.ofNat 10) := by decide
  obtain ⟨hforward, -⟩ := half_streams_advance 1 [1] turnsToGap turnsBeyondGap 0 flow c hc .forward
  obtain ⟨hreverse, hsilent⟩ := half_streams_advance 1 [1] turnsToGap turnsBeyondGap 0 flow c hc .reverse
  obtain ⟨-, hphase, hup, -⟩ := hforward 0 flow c' hc' hsame
  obtain ⟨-, -, -, hrests⟩ := hreverse 0 flow c' hc' hsame
  obtain ⟨next', hfound, hle⟩ := hup _ hnext
  obtain rfl : next' = .ofNat 15 := Option.some.inj (hfound.symm.trans hnext')
  rw [hstream] at hle
  exact ⟨c, c', hc, hc', hsame, hphase, hnext, hnext', (hle _ hwindow).1, hclosed, hrests hclosed,
    hsilent hclosed⟩

end Session
end TcpStreams
