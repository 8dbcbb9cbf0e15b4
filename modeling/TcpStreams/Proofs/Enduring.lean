import TcpStreams.Proofs.Lifetimes

/-!
# What lasts in live connections

Of a live connection four things can become: a segment of its conversation is worked in, it gives pages up to
others, it is wound up, and it goes.  So what holds of new connections and is kept by the first three holds of
every live connection at every moment, whoever shares the registries and the arenas, however little the arenas
hold, and whichever consumers break down.

* `Reassembly.Hosts`: a property of every live connection.
* `Reassembly.lasting_hosts`: what is enough for every call to keep it.
* `Session.hosts_turn`: so does every turn.
* `Session.formed_of_fresh`: half-streams are formed, wherever their pages come from.
-/

namespace TcpStreams

open Connection (Sheds)
open HalfStream (Formed)

/-! ## One call -/

/-- What a segment leaves of a live connection: of its own what the work made of it, and of others what they
were but for pages given up. -/
theorem Arrival.find?_finish (a : Arrival) (fails : Event → Bool) {flow : FlowId} {c : Connection}
    (hc : (a.finish fails).state.registry.find? flow = some c) :
    flow = a.connection.flow ∧ c = a.work.connection ∨
      flow ≠ a.connection.flow ∧ ∃ c₀, a.state.registry.find? flow = some c₀ ∧ c₀.Sheds c := by
  obtain ⟨hkin, -, -, hsheds⟩ := a.continues_work
  have hhanded : (a.worked.handOver fails a.work.connection a.segment.payload
      a.work.chunks).state.registry.find? flow = some c →
      flow = a.connection.flow ∧ c = a.work.connection ∨
        flow ≠ a.connection.flow ∧ ∃ c₀, a.state.registry.find? flow = some c₀ ∧ c₀.Sheds c := by
    intro hx
    rw [Reassembly.registry_handOver, Registry.find?_replace, hkin.flow] at hx
    split at hx
    · next hflow =>
        obtain ⟨-, -, rfl⟩ := Option.map_eq_some_iff.1 hx
        exact Or.inl ⟨hflow, rfl⟩
    · next hflow => exact Or.inr ⟨hflow, Registry.find?_of_sheds hsheds hx⟩
  revert hc
  refine Outcome.state_andThen (P := fun s => s.registry.find? flow = some c → _) hhanded
    fun _ _ hc => ?_
  split at hc
  · exact hhanded (Reassembly.find?_of_conclude hc)
  · exact hhanded hc

namespace Reassembly

variable {Q : Connection → Prop} {Admits : Arrival → Prop} {s : Reassembly} {fails : Event → Bool}
  {flow other : FlowId} {c : Connection}

/-- What winding a connection up leaves of a live connection: of others what they were, and of that one what
closing it made of it, if its consumer broke down. -/
theorem find?_of_windUp (hc : (s.windUp fails flow).state.registry.find? other = some c) :
    s.registry.find? other = some c ∨ ∃ c₀, s.registry.find? flow = some c₀ ∧ c = c₀.close.value := by
  rw [windUp] at hc
  cases hfind : s.registry.find? flow with
  | none =>
      rw [hfind] at hc
      exact Or.inl hc
  | some c₀ =>
      rw [hfind] at hc
      have hhanded : (({ s with arena := s.arena.giveAll c₀.close.freed } : Reassembly).handOver fails
          c₀.close.value [] c₀.close.chunks).state.registry.find? other = some c →
          s.registry.find? other = some c ∨ ∃ x, some c₀ = some x ∧ c = x.close.value := by
        intro hx
        rw [registry_handOver, Registry.find?_replace] at hx
        split at hx
        · obtain ⟨-, -, rfl⟩ := Option.map_eq_some_iff.1 hx
          exact Or.inr ⟨c₀, rfl, rfl⟩
        · exact Or.inl hx
      revert hc
      refine Outcome.state_andThen (P := fun s => s.registry.find? other = some c → _) hhanded
        fun _ _ => ?_
      exact Outcome.state_andThen (P := fun s => s.registry.find? other = some c → _)
        (fun hx => hhanded (find?_of_conclude hx)) fun _ _ hx => hhanded (find?_of_conclude hx)

/-- Every live connection of a kempt state has a property. -/
structure Hosts (Q : Connection → Prop) (s : Reassembly) : Prop where
  /-- The state is kempt. -/
  kempt : s.Kempt
  /-- Every live connection has the property. -/
  live : ∀ flow c, s.registry.find? flow = some c → Q c

/-- **What new connections have, and what the work on a segment, the loss of pages and winding up keep, every
call keeps.** -/
theorem lasting_hosts (hnew : ∀ flow opener stream now, Q (Connection.new flow opener stream now))
    (hwork : ∀ a : Arrival, a.state.arena.Blank → a.connection.Sided → Admits a → Q a.connection →
      Q a.work.connection)
    (hsheds : ∀ {c c'}, Sheds c c' → Q c → Q c')
    (hclose : ∀ {c : Connection}, c.Sided → Q c → Q c.close.value) : Lasting (Hosts Q) Admits where
  lookUp {s} h fails flow src now := by
    obtain ⟨hopens, -⟩ := s.opens_lookUp fails flow src now
    refine ⟨hopens.kempt h.kempt, fun other c hc => ?_⟩
    rcases hopens.live other c hc with hc | ⟨-, -, opener, time, rfl⟩
    · exact h.live other c hc
    · exact hnew _ _ _ _
  finish {_ call} _ a ha hadmits h := by
    have hlive := find?_arrived ha
    have hages : (a.finish call.fails).Ages (fun _ _ _ => False) a.state :=
      ages_finish h.kempt hlive fun _ => False.elim
    refine ⟨hages.kempt h.kempt, fun flow c hc => ?_⟩
    rcases a.find?_finish call.fails hc with ⟨-, rfl⟩ | ⟨-, c₀, hc₀, hshed⟩
    · exact hwork a h.kempt.blank (h.kempt.sided _ _ hlive) hadmits (h.live _ _ hlive)
    · exact hsheds hshed (h.live flow c₀ hc₀)
  windUp {s} h fails flow := by
    have hages : (s.windUp fails flow).Ages (fun _ _ _ => False) s := ages_windUp h.kempt flow
    refine ⟨hages.kempt h.kempt, fun other c hc => ?_⟩
    rcases find?_of_windUp hc with hc | ⟨c₀, hc₀, rfl⟩
    · exact h.live other c hc
    · exact hclose (h.kempt.sided flow c₀ hc₀) (h.live flow c₀ hc₀)
  remove {s} h flow := by
    have hages : (s.remove flow).Ages (fun _ _ _ => False) s := ages_remove h.kempt flow
    refine ⟨hages.kempt h.kempt, fun other c hc => ?_⟩
    rw [remove] at hc
    cases hfind : s.registry.find? flow with
    | none =>
        rw [hfind] at hc
        exact h.live other c hc
    | some x =>
        rw [hfind] at hc
        exact h.live other c (find?_of_erase hc)

/-- **Half-streams stay formed**, wherever their pages come from, if the segments that arrive at them lie in
one window. -/
theorem lasting_formed (k : Nat) (d : Direction) (base : SeqNum) :
    Lasting (Hosts fun c => c.Consistent ∧ (c.stream = k → Formed base (c.half d)))
      fun a => a.stream = k → a.direction = d → a.InWindow base := by
  refine lasting_hosts ?_ ?_ ?_ ?_
  · intro flow opener stream now
    refine ⟨Connection.consistent_new flow opener stream now, fun _ => ?_⟩
    rw [Connection.half_new]
    exact .new d
  · rintro a hblank hsided hw ⟨hc, hf⟩
    obtain ⟨cs, -, hages⟩ :=
      (a.ages_work (W := fun _ _ => False) hsided hblank fun _ => False.elim).connection
    refine ⟨hages.consistent hc, fun hk => ?_⟩
    have hstream : a.stream = k := a.continues_work.1.stream.symm.trans hk
    by_cases hd : a.direction = d
    · subst hd
      exact (Arrival.work_formed hblank hc (hw hstream rfl) (hf hstream)).1
    · exact Arrival.formed_of_ne hd (hf hstream)
  · rintro c c' hsheds ⟨hc, hf⟩
    refine ⟨(hsheds.ages fun _ _ => False).consistent hc, fun hk => ?_⟩
    exact hsheds.keep (fun hf hp => hf.lose hp) (hf (hsheds.kin.stream.symm.trans hk))
  · rintro c hsided ⟨hc, hf⟩
    refine ⟨(Connection.ages_close (fun _ _ => False) hsided).consistent hc, fun hk => ?_⟩
    obtain ⟨hkin, -, hhalf⟩ := Connection.close_moves (hc.sane Nat.one_pos)
    obtain ⟨h', hm, hp, hv⟩ := hhalf d
    rw [hv]
    exact (hf (hkin.stream.symm.trans hk)).ended hm hp

end Reassembly

/-! ## Sessions -/

namespace Session

variable {s : Session} {t : Turn} {ts : List Turn} {registry : Nat} {Q : Connection → Prop}
  {Admits : Arrival → Prop}

/-- **What every call keeps of the live connections of a registry, every turn keeps.** -/
theorem hosts_turn (hQ : Reassembly.Lasting (Reassembly.Hosts Q) Admits) (hs : s.Kempt)
    (h : ∀ flow c, s.connectionAt registry flow = some c → Q c)
    (hadmits : ∀ fails now arena action, t = ⟨fails, now, .act registry arena action⟩ →
      ∀ a ∈ s.turnArrivals t, Admits a) :
    ∀ flow c, (s.turn t).session.connectionAt registry flow = some c → Q c := by
  intro flow c hc
  obtain ⟨fails, now, deed⟩ := t
  rw [connectionAt] at hc
  rcases s.registry_turn ⟨fails, now, deed⟩ registry with ⟨arena, action, rfl, hacted⟩ | hsame
  · have hhosts : (s.state registry arena).Hosts Q := ⟨hs.state registry arena, h⟩
    rw [hacted] at hc
    exact (hQ.perform hhosts fails now action (hadmits fails now arena action rfl)).live flow c hc
  · rw [hsame] at hc
    exact h flow c hc

/-- **The half-streams of a stream stay formed** in every registry, wherever their pages come from and whoever
breaks down, if its segments lie in a window. -/
theorem formed_after (hs : s.Kempt) {k : Nat} {d : Direction} {base : SeqNum}
    (h : ∀ flow c, s.connectionAt registry flow = some c →
      c.Consistent ∧ (c.stream = k → Formed base (c.half d)))
    (hw : ∀ a ∈ s.arrivals ts, a.stream = k → a.direction = d → a.InWindow base) :
    ∀ flow c, (s.after ts).connectionAt registry flow = some c →
      c.Consistent ∧ (c.stream = k → Formed base (c.half d)) := by
  induction ts generalizing s with
  | nil => exact h
  | cons t rest ih =>
      refine ih (kempt_turn hs t) ?_ fun a ha => hw a (List.mem_append_right _ ha)
      exact hosts_turn (Reassembly.lasting_formed k d base) hs h fun _ _ _ _ _ a ha =>
        hw a (List.mem_append_left _ ha)

/-- So they are from the beginning on. -/
theorem formed_of_fresh {registries : Nat} {ceilings : List Nat} {k : Nat} {d : Direction} {base : SeqNum}
    (hw : ∀ a ∈ (fresh registries ceilings).arrivals ts, a.stream = k → a.direction = d →
      a.InWindow base) (registry : Nat) :
    ∀ flow c, ((fresh registries ceilings).after ts).connectionAt registry flow = some c →
      c.Consistent ∧ (c.stream = k → Formed base (c.half d)) := by
  refine formed_after (kempt_fresh registries ceilings) (fun flow c hc => ?_) hw
  rw [connectionAt, registry_fresh] at hc
  cases hc

end Session
end TcpStreams
