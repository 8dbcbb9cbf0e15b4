import TcpStreams.Proofs.Calls

/-!
# Recency

The registry keeps its connections in the order of their last activity, and every look-up is one tick
later than the one before.  So the ticks of the live connections are distinct and increase along the
registry, whatever the calls are and whichever consumers break down.

* `Reassembly.Lasting`: a property of the shared state that every step of a call keeps, and therefore
  every history; `Reassembly.Lasting.of_parts`: what is enough for that.
* `Registry.Ordered`: the order of a registry.
* `Reassembly.ordered_history`: every history keeps to it.
-/

namespace TcpStreams

/-! ## Lasting properties -/

namespace Reassembly

/-- A property of the shared state that every step of a call keeps, as long as the segments that arrive are
as `Admits` has them. -/
structure Lasting (P : Reassembly → Prop) (Admits : Arrival → Prop := fun _ => True) : Prop where
  /-- A connection is looked up. -/
  lookUp : ∀ {s}, P s → ∀ fails flow src now, P (s.lookUp fails flow src now).state
  /-- A segment that arrived is worked in. -/
  finish : ∀ {s} {call : Call}, P s → ∀ a ∈ s.arrivals call, Admits a → P a.state →
    P (a.finish call.fails).state
  /-- A connection is wound up. -/
  windUp : ∀ {s}, P s → ∀ fails flow, P (s.windUp fails flow).state
  /-- A connection is taken out. -/
  remove : ∀ {s}, P s → ∀ flow, P (s.remove flow).state

namespace Lasting

variable {P : Reassembly → Prop} {Admits : Arrival → Prop} {s : Reassembly}

/-- A property is kept by every step if it is by the parts that the steps have in common. -/
theorem of_parts
    (hlookUp : ∀ {s}, P s → ∀ fails flow src now, P (s.lookUp fails flow src now).state)
    (hwork : ∀ a : Arrival, P a.state → P a.worked)
    (hgive : ∀ {s : Reassembly}, P s → ∀ pages, P { s with arena := s.arena.giveAll pages })
    (hhand : ∀ {s}, P s → ∀ fails c payload chunks, P (s.handOver fails c payload chunks).state)
    (hconclude : ∀ {s}, P s → ∀ fails c, P (s.conclude fails c).state)
    (hremove : ∀ {s}, P s → ∀ flow, P (s.remove flow).state) : Lasting P where
  lookUp := hlookUp
  finish {_ call} _ a _ _ h := by
    have hhanded := hhand (hwork a h) call.fails a.work.connection a.segment.payload a.work.chunks
    refine Outcome.state_andThen hhanded fun _ _ => ?_
    split
    · exact hconclude hhanded _ _
    · exact hhanded
  windUp {s} h fails flow := by
    rw [Reassembly.windUp]
    cases s.registry.find? flow with
    | none => exact h
    | some c =>
        have hhanded := hhand (hgive h c.close.freed) fails c.close.value [] c.close.chunks
        refine Outcome.state_andThen hhanded fun _ _ => ?_
        have hdone := hconclude hhanded fails c.close.value
        exact Outcome.state_andThen hdone fun _ _ => hdone
  remove := hremove

/-- A segment that arrives finds the property as the look-up left it. -/
theorem arrives (h : Lasting P Admits) (hs : P s) {call : Call} {a : Arrival} (ha : a ∈ s.arrivals call) :
    P a.state := by
  obtain ⟨path, -, hstate, -⟩ := mem_arrivals ha
  exact hstate ▸ h.lookUp hs _ _ _ _

theorem receive (h : Lasting P Admits) (hs : P s) (fails : Event → Bool) (config : Config)
    (locked : List FlowId) (path : Route) (segment : Segment) (now : Nat)
    (ha : ∀ a ∈ s.arrivals ⟨fails, now, .receive config locked path segment⟩, Admits a) :
    P (s.receive fails config locked path segment now).state := by
  cases hres : (s.lookUp fails (segment.flow path) (segment.src path) now).result with
  | error call =>
      rw [(@receive_of_error s fails config locked path segment now call hres).2.1]
      exact h.lookUp hs _ _ _ _
  | ok c =>
      obtain ⟨a, harr, -, -, hstate, -⟩ :=
        @receive_of_ok s fails config locked path segment now c hres
      have harrives : a ∈ s.arrivals ⟨fails, now, .receive config locked path segment⟩ :=
        harr ▸ List.mem_singleton_self a
      rw [hstate]
      exact h.finish hs a harrives (ha a harrives) (h.arrives hs harrives)

theorem windUpAll (h : Lasting P Admits) (hs : P s) (fails : Event → Bool) (flows : List FlowId) :
    P (s.windUpAll fails flows).state :=
  windUpAll_keeps (P := P) (fun _ flow hs => h.windUp hs fails flow) hs flows

theorem flushBefore (h : Lasting P Admits) (hs : P s) (fails : Event → Bool) (cutoff : Nat) :
    P (s.flushBefore fails cutoff).state :=
  Outcome.state_andThen (h.windUpAll hs fails _) fun _ _ => h.windUpAll hs fails _

/-- Every call keeps the property. -/
theorem perform (h : Lasting P Admits) (hs : P s) (fails : Event → Bool) (now : Nat) (action : Action)
    (ha : ∀ a ∈ s.arrivals ⟨fails, now, action⟩, Admits a) :
    P (s.perform fails now action).state := by
  cases action with
  | receive config locked path segment => exact h.receive hs fails config locked path segment now ha
  | flushAll order => exact h.windUpAll hs fails _
  | flushBefore cutoff => exact h.flushBefore hs fails cutoff
  | flushIdle config =>
      show P (s.flushIdle fails config now).state
      rcases s.flushIdle_cases fails config now with heq | ⟨cutoff, heq⟩
      · rw [heq]
        exact hs
      · rw [heq]
        exact h.flushBefore hs fails cutoff
  | lookUp flow src => exact h.lookUp hs fails flow src now
  | remove flow => exact h.remove hs flow

/-- So does every history. -/
theorem history (h : Lasting P) (hs : P s) (calls : List Call) : P (s.history calls).state := by
  induction calls using List.reverseRecOn with
  | nil => exact hs
  | append_singleton calls call ih =>
      rw [history_snoc]
      exact h.perform ih call.fails call.now call.action fun _ _ => trivial

end Lasting

end Reassembly

/-! ## The order of a registry -/

namespace Registry

variable {r : Registry}

/-- The ticks of the last activities, in the order of the entries. -/
def ticks (r : Registry) : List Nat := r.entries.map Entry.lastTick

/-- The entries stand in the order of their last activity, and none was active after the last
look-up. -/
structure Ordered (r : Registry) : Prop where
  /-- Every connection was active before those that stand behind it. -/
  increasing : r.ticks.Pairwise (· < ·)
  /-- None was active after the last look-up. -/
  reached : ∀ t ∈ r.ticks, t ≤ r.tick

theorem ordered_empty : ({} : Registry).Ordered := ⟨.nil, nofun⟩

/-- The order is one of the ticks alone, and entries may go. -/
theorem Ordered.sublist {r' : Registry} (h : r.Ordered) (hticks : r'.ticks.Sublist r.ticks)
    (htick : r.tick ≤ r'.tick) : r'.Ordered :=
  ⟨h.increasing.sublist hticks, fun t ht => Nat.le_trans (h.reached t (hticks.subset ht)) htick⟩

/-- An entry that is active in the tick of the registry, when no other was so far, comes last. -/
theorem Ordered.snoc (h : r.Ordered) {es : List Entry} {entry : Entry}
    (hes : (es.map Entry.lastTick).Sublist r.ticks) (hlast : entry.lastTick = r.tick + 1) :
    Ordered { entries := es ++ [entry], tick := r.tick + 1 } := by
  have hticks : ticks { entries := es ++ [entry], tick := r.tick + 1 } =
      es.map Entry.lastTick ++ [r.tick + 1] := by
    rw [ticks, List.map_append, List.map_singleton, hlast]
  constructor
  · rw [hticks, List.pairwise_append]
    refine ⟨h.increasing.sublist hes, List.pairwise_singleton .., fun t ht u hu => ?_⟩
    rw [List.mem_singleton.1 hu]
    exact Nat.lt_succ_of_le (h.reached t (hes.subset ht))
  · intro t ht
    rw [hticks, List.mem_append, List.mem_singleton] at ht
    rcases ht with ht | rfl
    · exact Nat.le_succ_of_le (h.reached t (hes.subset ht))
    · exact Nat.le_refl _

theorem ticks_erase_sublist (r : Registry) (flow : FlowId) :
    (r.erase flow).ticks.Sublist r.ticks := List.filter_sublist.map _

/-- A connection that takes the place of another keeps its activity. -/
theorem ticks_replace (r : Registry) (c : Connection) : (r.replace c).ticks = r.ticks := by
  rw [ticks, ticks, replace, List.map_map]
  refine List.map_congr_left fun e _ => ?_
  simp only [Function.comp]
  split <;> rfl

end Registry

/-- What the work on a segment leaves as it is: the ticks of all connections. -/
theorem Arrival.ticks_work (a : Arrival) :
    a.work.entries.map Entry.lastTick = a.state.registry.ticks :=
  Reassembly.map_eq_of_forall₂ a.continues_work.2.2.2 fun _ _ h => h.continues.lastTick

namespace Reassembly

open Registry (Ordered)

variable {s : Reassembly}

theorem registry_handOver (fails : Event → Bool) (c : Connection) (payload : List UInt8)
    (chunks : List Chunk) (s : Reassembly) :
    (s.handOver fails c payload chunks).state.registry = s.registry.replace c := by
  simp only [handOver]
  split <;> rfl

/-- Concluding a stream leaves the registry as it is, or without the connection of the stream. -/
theorem registry_conclude (fails : Event → Bool) (c : Connection) (s : Reassembly) :
    (s.conclude fails c).state.registry = s.registry ∨
      (s.conclude fails c).state.registry = s.registry.erase c.flow := by
  simp only [conclude]
  split
  · exact Or.inl rfl
  · exact Or.inr rfl

theorem ordered_handOver (h : s.registry.Ordered) (fails : Event → Bool) (c : Connection)
    (payload : List UInt8) (chunks : List Chunk) :
    (s.handOver fails c payload chunks).state.registry.Ordered := by
  rw [registry_handOver]
  exact h.sublist (by rw [Registry.ticks_replace]) (Nat.le_refl _)

theorem ordered_conclude (h : s.registry.Ordered) (fails : Event → Bool) (c : Connection) :
    (s.conclude fails c).state.registry.Ordered := by
  rcases registry_conclude fails c s with heq | heq
  · rw [heq]
    exact h
  · rw [heq]
    exact h.sublist (s.registry.ticks_erase_sublist _) (Nat.le_refl _)

theorem ordered_lookUp (h : s.registry.Ordered) (fails : Event → Bool) (flow : FlowId)
    (src : Endpoint) (now : Nat) : (s.lookUp fails flow src now).state.registry.Ordered := by
  rw [lookUp, Registry.visit]
  cases s.registry.entry? flow with
  | some entry => exact h.snoc (s.registry.ticks_erase_sublist flow) rfl
  | none =>
      simp only
      split
      · exact h.sublist (List.Sublist.refl _) (Nat.le_succ _)
      · exact h.snoc (List.Sublist.refl _) rfl

/-- **The order of the connections is that of their last activity**, after every step of a call. -/
theorem lasting_ordered : Lasting fun s => s.registry.Ordered := by
  refine Lasting.of_parts ordered_lookUp ?_ (fun h _ => h) ordered_handOver ordered_conclude ?_
  · intro a h
    exact h.sublist (by rw [← a.ticks_work]; exact List.Sublist.refl _) (Nat.le_refl _)
  · intro s h flow
    rw [remove]
    cases s.registry.find? flow with
    | none => exact h
    | some c => exact h.sublist (s.registry.ticks_erase_sublist flow) (Nat.le_refl _)

/-- Every history leaves the connections in the order of their last activity. -/
theorem ordered_history (ceiling : Nat) (calls : List Call) :
    ((fresh ceiling).history calls).state.registry.Ordered :=
  lasting_ordered.history Registry.ordered_empty calls

end Reassembly
end TcpStreams
