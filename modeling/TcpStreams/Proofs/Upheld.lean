import Mathlib.Data.List.Forall2
import Mathlib.Data.List.Nodup
import TcpStreams.Proofs.History

/-!
# What calls uphold

The live connections have distinct conversations and distinct streams, so what happens to one stream
can be followed through every call: its connection is opened, is worked on, gives up pages to others,
is wound up, and goes.  A property of a connection, the segments that arrived for it and the chunks
handed over that each of these keeps is *upheld* by every call.

* `Reassembly.Sound`: what holds of the shared state from the beginning on.
* `Reassembly.Upheld`: a property that holds of one stream, alive or gone.
* `Upheld.receive`, `Upheld.windUpAll`, `Upheld.lookUp`, `Upheld.remove`: what the calls uphold.
-/

namespace TcpStreams

open Connection (Kin Sheds)

namespace Reassembly

/-- The live connections, the least recently active first. -/
def connections (s : Reassembly) : List Connection := s.registry.entries.map Entry.connection

/-- What holds of the shared state from the beginning on. -/
structure Sound (ceiling : Nat) (s : Reassembly) : Prop where
  /-- The arena is sound. -/
  arena : s.arena.Sound ceiling
  /-- The connections are sane. -/
  sane : ∀ c ∈ s.connections, c.Sane ceiling
  /-- No two connections are about one conversation. -/
  flows : (s.connections.map Connection.flow).Nodup
  /-- No two connections have one stream. -/
  streams : (s.connections.map Connection.stream).Nodup
  /-- Streams are numbered in the order in which they begin. -/
  below : ∀ c ∈ s.connections, c.stream < s.nextStream

/-- A property of a connection, of the segments that arrived for it and of the chunks handed over
holds of the stream `k`: of its connection as long as that is alive, and afterwards of what the
connection was in the end, which `Q` then holds of as well. -/
structure Upheld (ceiling k : Nat) (P : Connection → List Arrival → List Delivery → Prop)
    (Q : Connection → Prop) (s : Reassembly) (as : List Arrival) (ds : List Delivery) : Prop where
  /-- The shared state is sound. -/
  sound : s.Sound ceiling
  /-- The property holds of a live connection. -/
  live : ∀ c ∈ s.connections, c.stream = k → P c as ds
  /-- The property held in the end of a connection that is gone. -/
  gone : (∀ c ∈ s.connections, c.stream ≠ k) → k < s.nextStream → ∃ c, P c as ds ∧ Q c
  /-- Nothing was heard of a stream that has not begun. -/
  fresh : s.nextStream ≤ k → as = [] ∧ ds = []

variable {ceiling k : Nat} {P : Connection → List Arrival → List Delivery → Prop}
  {Q : Connection → Prop} {s s' : Reassembly} {as as' : List Arrival} {ds ds' : List Delivery}
  {c c' : Connection} {d : Direction}

theorem Sound.eq_of_flow (h : s.Sound ceiling) (hc : c ∈ s.connections) (hc' : c' ∈ s.connections)
    (hf : c.flow = c'.flow) : c = c' := List.inj_on_of_nodup_map h.flows hc hc' hf

theorem Sound.eq_of_stream (h : s.Sound ceiling) (hc : c ∈ s.connections)
    (hc' : c' ∈ s.connections) (hf : c.stream = c'.stream) : c = c' :=
  List.inj_on_of_nodup_map h.streams hc hc' hf

theorem exists_left_of_mem {α β : Type} {R : α → β → Prop} {xs : List α} {ys : List β} {y : β}
    (h : List.Forall₂ R xs ys) (hy : y ∈ ys) : ∃ x ∈ xs, R x y := by
  induction h with
  | nil => cases hy
  | cons hfirst _ ih =>
      rcases List.mem_cons.1 hy with rfl | hy
      · exact ⟨_, List.mem_cons_self .., hfirst⟩
      · obtain ⟨x, hx, hr⟩ := ih hy
        exact ⟨x, List.mem_cons_of_mem _ hx, hr⟩

theorem exists_right_of_mem {α β : Type} {R : α → β → Prop} {xs : List α} {ys : List β} {x : α}
    (h : List.Forall₂ R xs ys) (hx : x ∈ xs) : ∃ y ∈ ys, R x y := by
  induction h with
  | nil => cases hx
  | cons hfirst _ ih =>
      rcases List.mem_cons.1 hx with rfl | hx
      · exact ⟨_, List.mem_cons_self .., hfirst⟩
      · obtain ⟨y, hy, hr⟩ := ih hx
        exact ⟨y, List.mem_cons_of_mem _ hy, hr⟩

theorem map_eq_of_forall₂ {α β : Type} {R : α → α → Prop} {f : α → β} {xs ys : List α}
    (h : List.Forall₂ R xs ys) (hf : ∀ x y, R x y → f y = f x) : ys.map f = xs.map f := by
  induction h with
  | nil => rfl
  | cons hfirst _ ih => rw [List.map_cons, List.map_cons, hf _ _ hfirst, ih]

namespace Upheld

/-- The property holds of the connection of the stream, or nothing was heard of the stream. -/
theorem exists_or_fresh (h : Upheld ceiling k P Q s as ds) :
    (∃ c, P c as ds) ∨ as = [] ∧ ds = [] := by
  by_cases hk : k < s.nextStream
  · by_cases hlive : ∃ c ∈ s.connections, c.stream = k
    · obtain ⟨c, hc, hck⟩ := hlive
      exact Or.inl ⟨c, h.live c hc hck⟩
    · obtain ⟨c, hP, -⟩ := h.gone (fun c hc hck => hlive ⟨c, hc, hck⟩) hk
      exact Or.inl ⟨c, hP⟩
  · exact Or.inr (h.fresh (Nat.le_of_not_lt hk))

/-- What follows from a property that is upheld is upheld. -/
theorem imp {P' : Connection → List Arrival → List Delivery → Prop}
    (h : Upheld ceiling k P Q s as ds) (hP : ∀ {c}, P c as ds → P' c as ds) :
    Upheld ceiling k P' Q s as ds where
  sound := h.sound
  live c hc hk := hP (h.live c hc hk)
  gone hnone hlt := by
    obtain ⟨c, hc, hQ⟩ := h.gone hnone hlt
    exact ⟨c, hP hc, hQ⟩
  fresh := h.fresh

/-- In the beginning every property is upheld. -/
theorem start : Upheld ceiling k P Q (Reassembly.fresh ceiling) [] [] := by
  have hnone : ∀ c, c ∉ (Reassembly.fresh ceiling).connections := fun _ h => nomatch h
  refine ⟨⟨Arena.sound_ofCeiling ceiling, fun c hc => absurd hc (hnone c), List.nodup_nil,
    List.nodup_nil, fun c hc => absurd hc (hnone c)⟩, fun c hc => absurd hc (hnone c), ?_,
    fun _ => ⟨rfl, rfl⟩⟩
  exact fun _ hlt => absurd hlt (Nat.not_lt_zero k)

/-- What a step upholds and what follows it upholds, both uphold together. -/
theorem andThen {α β : Type} {o : Outcome α} {f : α → Reassembly → Outcome β}
    (ho : Upheld ceiling k P Q o.state as (ds ++ o.handed k d))
    (hf : ∀ a, o.result = .ok a → Upheld ceiling k P Q (f a o.state).state as
      (ds ++ o.handed k d ++ (f a o.state).handed k d)) :
    Upheld ceiling k P Q (o.andThen f).state as (ds ++ (o.andThen f).handed k d) := by
  cases hres : o.result with
  | error call =>
      obtain ⟨hstate, hhanded⟩ := @Outcome.andThen_error _ _ o f call hres k d
      rw [hstate, hhanded]
      exact ho
  | ok a =>
      obtain ⟨hstate, hhanded⟩ := @Outcome.andThen_ok _ _ o f a hres k d
      rw [hstate, hhanded, ← List.append_assoc]
      exact hf a hres

/-! ## Steps on the shared state -/

/-- The order of the connections does not matter. -/
theorem perm (h : Upheld ceiling k P Q s as ds) (hp : s'.connections.Perm s.connections)
    (harena : s'.arena.Sound ceiling) (hnext : s'.nextStream = s.nextStream) :
    Upheld ceiling k P Q s' as ds := by
  refine ⟨⟨harena, ?_, ?_, ?_, ?_⟩, ?_, ?_, ?_⟩
  · exact fun c hc => h.sound.sane c (hp.mem_iff.1 hc)
  · exact (hp.map _).nodup_iff.2 h.sound.flows
  · exact (hp.map _).nodup_iff.2 h.sound.streams
  · rw [hnext]
    exact fun c hc => h.sound.below c (hp.mem_iff.1 hc)
  · exact fun c hc => h.live c (hp.mem_iff.1 hc)
  · rw [hnext]
    exact fun hnone => h.gone fun c hc => hnone c (hp.mem_iff.2 hc)
  · rw [hnext]
    exact h.fresh

/-- Every connection becomes another state of itself. -/
theorem advance (h : Upheld ceiling k P Q s as ds) (harena : s'.arena.Sound ceiling)
    (hnext : s'.nextStream = s.nextStream)
    (hR : List.Forall₂ (fun c c' => Kin c c' ∧ c'.Sane ceiling ∧
      (c.stream = k → P c as ds → P c' as' ds')) s.connections s'.connections)
    (hsame : (∀ c ∈ s.connections, c.stream ≠ k) → as' = as ∧ ds' = ds) :
    Upheld ceiling k P Q s' as' ds' := by
  have hkin := hR.imp fun _ _ h => h.1
  refine ⟨⟨harena, ?_, ?_, ?_, ?_⟩, ?_, ?_, ?_⟩
  · intro c' hc'
    obtain ⟨c, -, hr⟩ := exists_left_of_mem hR hc'
    exact hr.2.1
  · rw [map_eq_of_forall₂ hkin fun _ _ h => h.flow]
    exact h.sound.flows
  · rw [map_eq_of_forall₂ hkin fun _ _ h => h.stream]
    exact h.sound.streams
  · intro c' hc'
    obtain ⟨c, hc, hr⟩ := exists_left_of_mem hR hc'
    rw [hnext, hr.1.stream]
    exact h.sound.below c hc
  · intro c' hc' hk
    obtain ⟨c, hc, hr⟩ := exists_left_of_mem hR hc'
    rw [hr.1.stream] at hk
    exact hr.2.2 hk (h.live c hc hk)
  · intro hnone hlt
    rw [hnext] at hlt
    have hnone' : ∀ c ∈ s.connections, c.stream ≠ k := by
      intro c hc hk
      obtain ⟨c', hc', hr⟩ := exists_right_of_mem hR hc
      exact hnone c' hc' (hr.1.stream.trans hk)
    obtain ⟨rfl, rfl⟩ := hsame hnone'
    exact h.gone hnone' hlt
  · intro hle
    rw [hnext] at hle
    obtain ⟨rfl, rfl⟩ := hsame fun c hc hk => by
      have := h.sound.below c hc
      omega
    exact h.fresh hle

/-- The connection of a conversation goes. -/
theorem erase (h : Upheld ceiling k P Q s as ds) {flow : FlowId} (pages : List Page)
    (hQ : ∀ c ∈ s.connections, c.flow = flow → c.stream = k → Q c) :
    Upheld ceiling k P Q
      { s with registry := s.registry.erase flow, arena := s.arena.giveAll pages } as ds := by
  have hconn : connections
      { s with registry := s.registry.erase flow, arena := s.arena.giveAll pages } =
        s.connections.filter fun c => decide (c.flow ≠ flow) := by
    rw [connections, connections, List.filter_map]
    rfl
  have hsub : (connections
      { s with registry := s.registry.erase flow, arena := s.arena.giveAll pages }).Sublist
        s.connections := hconn ▸ List.filter_sublist
  refine ⟨⟨h.sound.arena.giveAll pages, fun c hc => h.sound.sane c (hsub.subset hc),
    (hsub.map _).nodup h.sound.flows, (hsub.map _).nodup h.sound.streams,
    fun c hc => h.sound.below c (hsub.subset hc)⟩, fun c hc => h.live c (hsub.subset hc), ?_,
    h.fresh⟩
  intro hnone hlt
  by_cases hlive : ∃ c ∈ s.connections, c.stream = k
  · -- it was alive until now
    obtain ⟨c, hc, hk⟩ := hlive
    refine ⟨c, h.live c hc hk, hQ c hc ?_ hk⟩
    by_contra hflow
    refine hnone c ?_ hk
    rw [hconn, List.mem_filter]
    exact ⟨hc, decide_eq_true hflow⟩
  · exact h.gone (fun c hc hk => hlive ⟨c, hc, hk⟩) hlt

/-- A connection is opened. -/
theorem opened (h : Upheld ceiling k P Q s as ds) {flow : FlowId} {src : Endpoint} {now : Nat}
    (hflow : ∀ c ∈ s.connections, c.flow ≠ flow) (harena : s'.arena = s.arena)
    (hnext : s'.nextStream = s.nextStream + 1)
    (hconn : s'.connections = s.connections ++ [Connection.new flow src s.nextStream now])
    (hopen : P (Connection.new flow src k now) [] []) : Upheld ceiling k P Q s' as ds := by
  have hmem : ∀ c ∈ s'.connections,
      c ∈ s.connections ∨ c = Connection.new flow src s.nextStream now := by
    intro c hc
    rw [hconn, List.mem_append, List.mem_singleton] at hc
    exact hc
  refine ⟨⟨harena ▸ h.sound.arena, ?_, ?_, ?_, ?_⟩, ?_, ?_, ?_⟩
  · intro c hc
    rcases hmem c hc with hc | rfl
    · exact h.sound.sane c hc
    · exact Connection.sane_new ..
  · rw [hconn, List.map_append, List.nodup_append]
    refine ⟨h.sound.flows, List.nodup_singleton _, ?_⟩
    intro f hf g hg heq
    obtain ⟨c, hc, rfl⟩ := List.mem_map.1 hf
    obtain rfl := List.mem_singleton.1 hg
    exact hflow c hc heq
  · rw [hconn, List.map_append, List.nodup_append]
    refine ⟨h.sound.streams, List.nodup_singleton _, ?_⟩
    intro f hf g hg heq
    obtain ⟨c, hc, rfl⟩ := List.mem_map.1 hf
    obtain rfl := List.mem_singleton.1 hg
    exact Nat.ne_of_lt (h.sound.below c hc) heq
  · intro c hc
    rw [hnext]
    rcases hmem c hc with hc | rfl
    · exact Nat.lt_succ_of_lt (h.sound.below c hc)
    · exact Nat.lt_succ_self _
  · intro c hc hk
    rcases hmem c hc with hc | rfl
    · exact h.live c hc hk
    · obtain rfl : s.nextStream = k := hk
      obtain ⟨rfl, rfl⟩ := h.fresh (Nat.le_refl _)
      exact hopen
  · intro hnone hlt
    have hne : s.nextStream ≠ k := by
      refine hnone (Connection.new flow src s.nextStream now) ?_
      rw [hconn]
      exact List.mem_append_right _ (List.mem_singleton_self _)
    refine h.gone (fun c hc => hnone c ?_) (by omega)
    rw [hconn]
    exact List.mem_append_left _ hc
  · intro hle
    exact h.fresh (by omega)

/-- A stream begins and is over at once. -/
theorem stillborn (h : Upheld ceiling k P Q s as ds) (harena : s'.arena = s.arena)
    (hnext : s'.nextStream = s.nextStream + 1) (hconn : s'.connections = s.connections)
    (hopen : ∃ c, P c [] [] ∧ Q c) : Upheld ceiling k P Q s' as ds := by
  refine ⟨⟨harena ▸ h.sound.arena, hconn ▸ h.sound.sane, hconn ▸ h.sound.flows,
    hconn ▸ h.sound.streams, ?_⟩, hconn ▸ h.live, ?_, fun hle => h.fresh (by omega)⟩
  · rw [hconn, hnext]
    exact fun c hc => Nat.lt_succ_of_lt (h.sound.below c hc)
  · rw [hconn, hnext]
    intro hnone hlt
    by_cases hk : k < s.nextStream
    · exact h.gone hnone hk
    · obtain ⟨rfl, rfl⟩ := h.fresh (Nat.le_of_not_lt hk)
      exact hopen

/-! ## Looking a connection up -/

variable {fails : Event → Bool} {flow : FlowId} {src : Endpoint} {now : Nat}

/-- Touching a conversation moves its connection to the end. -/
theorem touch_perm {cs : List Connection} (hflows : (cs.map Connection.flow).Nodup) (hc : c ∈ cs)
    (hf : c.flow = flow) : ((cs.filter fun x => decide (x.flow ≠ flow)) ++ [c]).Perm cs := by
  induction cs with
  | nil => cases hc
  | cons x rest ih =>
      obtain ⟨hx, hrest⟩ := List.nodup_cons.1 hflows
      by_cases hxf : x.flow = flow
      · have hnone : ∀ y ∈ rest, y.flow ≠ flow := fun y hy hyf =>
          hx (List.mem_map.2 ⟨y, hy, hyf.trans hxf.symm⟩)
        have hcx : c = x := by
          rcases List.mem_cons.1 hc with h | h
          · exact h
          · exact absurd hf (hnone c h)
        rw [List.filter_cons_of_neg (by simp [hxf]),
          List.filter_eq_self.2 fun y hy => decide_eq_true (hnone y hy), hcx]
        exact List.perm_append_comm
      · have hkeep : decide (x.flow ≠ flow) = true := decide_eq_true hxf
        rw [List.filter_cons, hkeep, if_pos rfl, List.cons_append]
        refine (ih hrest ?_).cons x
        rcases List.mem_cons.1 hc with h | h
        · exact absurd (h ▸ hf) hxf
        · exact h

theorem lookUp (h : Upheld ceiling k P Q s as ds)
    (hopen : ∀ flow opener now, P (Connection.new flow opener k now) [] [] ∧
      Q (Connection.new flow opener k now)) :
    (s.lookUp fails flow src now).handed k d = [] ∧
      Upheld ceiling k P Q (s.lookUp fails flow src now).state as ds ∧
      ∀ c, (s.lookUp fails flow src now).result = .ok c →
        c ∈ (s.lookUp fails flow src now).state.connections ∧ c.flow = flow := by
  rw [Reassembly.lookUp, Registry.visit]
  cases hentry : s.registry.entry? flow with
  | some entry =>
      have hmem : entry.connection ∈ s.connections :=
        List.mem_map_of_mem (List.mem_of_find?_eq_some hentry)
      have hflow : entry.connection.flow = flow := by
        have := List.find?_some hentry
        exact of_decide_eq_true this
      have hperm := touch_perm h.sound.flows hmem hflow
      refine ⟨rfl, h.perm ?_ h.sound.arena rfl, ?_⟩
      · rw [connections, List.map_append]
        simp only [Registry.erase]
        rw [connections, List.filter_map] at hperm
        exact hperm
      · intro c hc
        injection hc with hc
        subst hc
        refine ⟨?_, hflow⟩
        rw [connections, List.map_append]
        exact List.mem_append_right _ (List.mem_singleton_self _)
  | none =>
      have hnone : ∀ c ∈ s.connections, c.flow ≠ flow := by
        intro c hc hf
        obtain ⟨e, he, rfl⟩ := List.mem_map.1 hc
        have := List.find?_eq_none.1 hentry e he
        exact this (decide_eq_true hf)
      simp only
      split
      · refine ⟨rfl, h.stillborn rfl rfl rfl ⟨_, hopen flow src now⟩, ?_⟩
        intro c hc
        cases hc
      · have hconn : ∀ t : Nat, connections
            { registry := Registry.insert { s.registry with tick := t }
                (Connection.new flow src s.nextStream now) now
              arena := s.arena, nextStream := s.nextStream + 1 } =
              s.connections ++ [Connection.new flow src s.nextStream now] := by
          intro t
          rw [connections, Registry.insert, List.map_append]
          rfl
        refine ⟨rfl, h.opened hnone rfl rfl (hconn _) (hopen flow src now).1, ?_⟩
        intro c hc
        injection hc with hc
        subst hc
        refine ⟨?_, rfl⟩
        rw [hconn]
        exact List.mem_append_right _ (List.mem_singleton_self _)

/-! ## Handing over and concluding -/

variable {payload : List UInt8} {chunks : List Chunk} {s₂ : Reassembly}

theorem handed_handOver (c' : Connection) (payload : List UInt8) (chunks : List Chunk)
    (s₂ : Reassembly) : (s₂.handOver fails c' payload chunks).handed k d =
      if c'.stream = k then (Chunk.ofDirection d chunks).map (Chunk.delivery payload) else [] := by
  have hevents : (s₂.handOver fails c' payload chunks).events =
      [.delivered c'.stream c'.flow (chunks.map (Chunk.delivery payload))] := by
    simp only [Reassembly.handOver]
    split <;> rfl
  rw [Outcome.handed, hevents, List.flatMap_cons, List.flatMap_nil, List.append_nil,
    Event.deliveries, List.filter_map]
  rfl

/-- Handing over puts the connection in its place, and gives pages back. -/
theorem state_handOver (harena : s₂.arena.Sound ceiling) (fails : Event → Bool) (c' : Connection)
    (payload : List UInt8) (chunks : List Chunk) :
    (s₂.handOver fails c' payload chunks).state.registry = s₂.registry.replace c' ∧
      (s₂.handOver fails c' payload chunks).state.nextStream = s₂.nextStream ∧
      (s₂.handOver fails c' payload chunks).state.arena.Sound ceiling := by
  simp only [Reassembly.handOver]
  split
  · exact ⟨rfl, rfl, harena⟩
  · exact ⟨rfl, rfl, harena.giveAll _⟩

/-- The entry of `c` becomes that of `c'`, even if it has given up pages before. -/
theorem mem_replace (hc : c ∈ s.connections)
    (hsheds : List.Forall₂ Entry.Sheds s.registry.entries s₂.registry.entries) (hkin : Kin c c') :
    c' ∈ (s₂.registry.replace c').entries.map Entry.connection := by
  obtain ⟨e, he, hec⟩ := List.mem_map.1 hc
  obtain ⟨e', he', x, rfl, hx⟩ := exists_right_of_mem hsheds he
  have hflow : ({ e with connection := x } : Entry).flow = c'.flow := by
    rw [hkin.flow, ← hec]
    exact hx.kin.flow
  rw [Registry.replace, List.map_map]
  refine List.mem_map.2 ⟨_, he', ?_⟩
  simp only [Function.comp, hflow, if_true]

/-- **Handing over.** The connection `c` has become `c'`, others may have given up pages. -/
theorem handOver (h : Upheld ceiling k P Q s as ds) (hc : c ∈ s.connections)
    (hsheds : List.Forall₂ Entry.Sheds s.registry.entries s₂.registry.entries)
    (harena : s₂.arena.Sound ceiling) (hnext : s₂.nextStream = s.nextStream) (hkin : Kin c c')
    (hsane : c'.Sane ceiling)
    (hlive : c.stream = k → P c as ds →
      P c' as' (ds ++ (Chunk.ofDirection d chunks).map (Chunk.delivery payload)))
    (hspare : c.stream ≠ k → as' = as ∧ ((∀ x x', Sheds x x' → P x as ds → P x' as ds) ∨
      s₂.registry.entries = s.registry.entries)) :
    Upheld ceiling k P Q (s₂.handOver fails c' payload chunks).state as'
        (ds ++ (s₂.handOver fails c' payload chunks).handed k d) ∧
      c' ∈ (s₂.handOver fails c' payload chunks).state.connections := by
  obtain ⟨hreg, hnext', harena'⟩ := state_handOver harena fails c' payload chunks
  rw [handed_handOver, hkin.stream]
  -- what becomes of one entry when pages are given up and when `c'` takes its place
  have hentry : ∀ e e', e ∈ s.registry.entries → Entry.Sheds e e' →
      (s₂.registry.entries = s.registry.entries → e' = e) →
      let e'' := if e'.flow = c'.flow then { e' with connection := c' } else e'
      Kin e.connection e''.connection ∧ e''.connection.Sane ceiling ∧
        (e.connection.stream = k → P e.connection as ds → P e''.connection as'
          (ds ++ if c.stream = k then
            (Chunk.ofDirection d chunks).map (Chunk.delivery payload) else [])) := by
    rintro e e' he ⟨x, rfl, hx⟩ hsame
    have hmem : e.connection ∈ s.connections := List.mem_map_of_mem he
    have hflow : ({ e with connection := x } : Entry).flow = e.connection.flow := hx.kin.flow
    simp only [hflow, hkin.flow]
    split
    case isTrue hf =>
      obtain hec := h.sound.eq_of_flow hmem hc hf
      rw [hec]
      refine ⟨hkin, hsane, fun hk hP => ?_⟩
      rw [if_pos hk]
      exact hlive hk hP
    case isFalse hf =>
      refine ⟨hx.kin, hx.sane (h.sound.sane _ hmem), fun hk hP => ?_⟩
      have hck : c.stream ≠ k := fun hck =>
        hf (congrArg Connection.flow (h.sound.eq_of_stream hmem hc (hk.trans hck.symm)))
      obtain ⟨rfl, hshed | heq⟩ := hspare hck
      · rw [if_neg hck, List.append_nil]
        exact hshed _ _ hx hP
      · have hxe := congrArg Entry.connection (hsame heq)
        simp only at hxe
        rw [if_neg hck, List.append_nil, hxe]
        exact hP
  have hrel : List.Forall₂ (fun e e' => e ∈ s.registry.entries ∧ Entry.Sheds e e' ∧
      (s₂.registry.entries = s.registry.entries → e' = e)) s.registry.entries
        s₂.registry.entries := by
    by_cases heq : s₂.registry.entries = s.registry.entries
    · rw [heq]
      exact List.forall₂_same.2 fun e he => ⟨he, .refl e, fun _ => rfl⟩
    · exact (List.forall₂_and_left _ _).2
        ⟨fun _ h => h, hsheds.imp fun _ _ h => ⟨h, fun h => absurd h heq⟩⟩
  refine ⟨h.advance harena' (hnext'.trans hnext) ?_ ?_, ?_⟩
  · rw [connections, connections, hreg, Registry.replace, List.map_map,
      List.forall₂_map_left_iff, List.forall₂_map_right_iff]
    exact hrel.imp fun e e' h => hentry e e' h.1 h.2.1 h.2.2
  · intro hnone
    have hck := hnone c hc
    exact ⟨(hspare hck).1, by rw [if_neg hck, List.append_nil]⟩
  · rw [connections, hreg]
    exact mem_replace hc hsheds hkin

theorem conclude (h : Upheld ceiling k P Q s as ds) (hc : c ∈ s.connections)
    (hQ : c.stream = k → P c as ds → Q c) :
    (s.conclude fails c).handed k d = [] ∧
      Upheld ceiling k P Q (s.conclude fails c).state as ds := by
  simp only [Reassembly.conclude]
  split
  · exact ⟨rfl, h⟩
  · refine ⟨rfl, h.erase _ ?_⟩
    intro x hx hf hk
    obtain rfl := h.sound.eq_of_flow hx hc hf
    exact hQ hk (h.live x hx hk)

end Upheld

/-! ## A segment -/

/-- Before the work on a segment begins everything is sound. -/
theorem Sound.before {a : Arrival} (h : a.state.Sound ceiling)
    (hc : a.connection ∈ a.state.connections) : a.before.Sound ceiling :=
  ⟨h.arena, fun _ he => h.sane _ (List.mem_map_of_mem he), h.sane _ hc⟩

/-- What the work on a segment keeps to. -/
theorem Sound.work {a : Arrival} (h : a.state.Sound ceiling)
    (hc : a.connection ∈ a.state.connections) : a.work.Sound ceiling ∧
      Kin a.connection a.work.connection ∧
      List.Forall₂ Entry.Sheds a.state.registry.entries a.work.entries := by
  have hbefore := h.before hc
  cases hclosed : a.half.isClosed with
  | true =>
      obtain ⟨hconn, hentries, harena, -⟩ := Arrival.work_of_closed hclosed
      rw [hconn, hentries]
      refine ⟨⟨harena ▸ h.arena, ?_, hconn ▸ hbefore.connection⟩, .refl _, Work.sheds_refl _⟩
      rw [hentries]
      exact hbefore.entries
  | false =>
      rw [Arrival.work_of_open hclosed]
      obtain ⟨new, hlead⟩ := Work.leads_accept hbefore hclosed a.config.pagesPerConnection a.locked
        a.segment
      exact ⟨hlead.sound, hlead.kin, hlead.sheds⟩

namespace Upheld

variable {fails : Event → Bool} {flow : FlowId} {now : Nat} {config : Config}
  {locked : List FlowId} {path : Route} {segment : Segment}

/-- **A segment that has arrived.** Its own stream gains what the work on it brings; of any other
stream at most pages are given up. -/
theorem finish {a : Arrival} (h : Upheld ceiling k P Q a.state as ds)
    (hc : a.connection ∈ a.state.connections)
    (hwork : a.before.Sound ceiling → a.stream = k → P a.connection as ds →
      P a.work.connection (as ++ if a.direction = d then [a] else []) (ds ++ a.deliveries d))
    (hspare : a.before.Sound ceiling → a.stream ≠ k →
      (∀ x x', Sheds x x' → P x as ds → P x' as ds) ∨
        a.work.entries = a.state.registry.entries)
    (hover : ∀ {c as ds}, P c as ds → c.isOver = true → Q c) :
    Upheld ceiling k P Q (a.finish fails).state
      (as ++ [a].filter fun a => a.stream = k ∧ a.direction = d)
      (ds ++ (a.finish fails).handed k d) := by
  have hbefore := h.sound.before hc
  obtain ⟨hsound, hkin, hsheds⟩ := h.sound.work hc
  have has : ([a].filter fun a => a.stream = k ∧ a.direction = d) =
      if a.stream = k then (if a.direction = d then [a] else []) else [] := by
    by_cases hk : a.stream = k
    · by_cases hd : a.direction = d
      · simp [hk, hd]
      · simp [hk, hd]
    · simp [hk]
  have hhanded : Upheld ceiling k P Q
        (a.worked.handOver fails a.work.connection a.segment.payload a.work.chunks).state
        (as ++ [a].filter fun a => a.stream = k ∧ a.direction = d)
        (ds ++ (a.worked.handOver fails a.work.connection a.segment.payload
          a.work.chunks).handed k d) ∧
      a.work.connection ∈ (a.worked.handOver fails a.work.connection a.segment.payload
        a.work.chunks).state.connections := by
    refine h.handOver hc hsheds hsound.arena rfl hkin hsound.connection ?_ ?_
    · intro hk hP
      rw [has, if_pos (show a.stream = k from hk)]
      exact hwork hbefore hk hP
    · intro hk
      rw [has, if_neg (show a.stream ≠ k from hk), List.append_nil]
      exact ⟨rfl, hspare hbefore hk⟩
  obtain ⟨hstep, hmem⟩ := hhanded
  refine andThen hstep fun _ _ => ?_
  split
  · obtain ⟨hquiet, hdone⟩ := @conclude ceiling k P Q _ _ _ _ d fails hstep hmem
      fun _ hP => hover hP ‹_›
    refine (congrArg (Upheld ceiling k P Q _ _) ?_).mp hdone
    exact (List.append_nil _).symm.trans (congrArg _ hquiet.symm)
  · refine (congrArg (Upheld ceiling k P Q _ _) ?_).mp hstep
    exact (List.append_nil _).symm

/-- **Receiving a segment.** -/
theorem receive (h : Upheld ceiling k P Q s as ds)
    (hopen : ∀ flow opener now, P (Connection.new flow opener k now) [] [] ∧
      Q (Connection.new flow opener k now))
    (hwork : ∀ a ∈ s.arrivals ⟨fails, now, .receive config locked path segment⟩,
      a.before.Sound ceiling → a.stream = k → P a.connection as ds →
      P a.work.connection (as ++ if a.direction = d then [a] else []) (ds ++ a.deliveries d))
    (hspare : ∀ a ∈ s.arrivals ⟨fails, now, .receive config locked path segment⟩,
      a.before.Sound ceiling → a.stream ≠ k →
      (∀ x x', Sheds x x' → P x as ds → P x' as ds) ∨
        a.work.entries = a.state.registry.entries)
    (hover : ∀ {c as ds}, P c as ds → c.isOver = true → Q c) :
    Upheld ceiling k P Q (s.receive fails config locked path segment now).state
      (as ++ (s.arrivals ⟨fails, now, .receive config locked path segment⟩).filter
        fun a => a.stream = k ∧ a.direction = d)
      (ds ++ (s.receive fails config locked path segment now).handed k d) := by
  obtain ⟨hquiet, hlooked, hfound⟩ :=
    @lookUp ceiling k P Q s as ds d fails (segment.flow path) (segment.src path) now h hopen
  cases hres : (s.lookUp fails (segment.flow path) (segment.src path) now).result with
  | error call =>
      obtain ⟨harr, hstate, hhanded⟩ := @receive_of_error s fails config locked path segment now call hres
      rw [harr, hstate, hhanded, hquiet, List.filter_nil, List.append_nil, List.append_nil]
      exact hlooked
  | ok c =>
      obtain ⟨a, harr, ha, hac, hstate, hhanded⟩ :=
        @receive_of_ok s fails config locked path segment now c hres
      obtain ⟨hc, -⟩ := hfound c hres
      rw [harr] at hwork hspare ⊢
      rw [hstate, hhanded, hquiet, List.nil_append]
      rw [← ha] at hlooked hc
      rw [← hac] at hc
      exact hlooked.finish hc (hwork a (List.mem_singleton_self a))
        (hspare a (List.mem_singleton_self a)) hover

/-! ## Flushes -/

/-- What holds of a connection that is wound up. -/
theorem windUp (h : Upheld ceiling k P Q s as ds)
    (hclose : ∀ {c as ds}, c.Sane ceiling → P c as ds → P c.close.value as
      (ds ++ (Chunk.ofDirection d c.close.chunks).map (Chunk.delivery [])))
    (hover : ∀ {c as ds}, P c as ds → c.isOver = true → Q c) :
    Upheld ceiling k P Q (s.windUp fails flow).state as
      (ds ++ (s.windUp fails flow).handed k d) := by
  rw [Reassembly.windUp]
  cases hfind : s.registry.find? flow with
  | none =>
      refine (congrArg (Upheld ceiling k P Q _ _) ?_).mp h
      exact (List.append_nil _).symm
  | some c =>
      have hc : c ∈ s.connections := by
        obtain ⟨e, he, rfl⟩ := Option.map_eq_some_iff.1 hfind
        exact List.mem_map_of_mem (List.mem_of_find?_eq_some he)
      have hsane := h.sound.sane c hc
      obtain ⟨hkin, hsane', -⟩ := Connection.close_moves hsane
      have hhanded := @handOver ceiling k P Q s as as ds c c.close.value d fails [] c.close.chunks
        { s with arena := s.arena.giveAll c.close.freed } h hc (Work.sheds_refl _)
        (h.sound.arena.giveAll _) rfl hkin hsane' (fun _ hP => hclose hsane hP)
        (fun _ => ⟨rfl, Or.inr rfl⟩)
      obtain ⟨hstep, hmem⟩ := hhanded
      refine andThen hstep fun _ _ => ?_
      have hover' : c.close.value.isOver = true := by
        rw [Connection.isOver, Bool.and_eq_true]
        obtain ⟨-, -, hhalf⟩ := Connection.close_moves hsane
        obtain ⟨f, -, -, hf⟩ := hhalf .forward
        obtain ⟨r, -, -, hr⟩ := hhalf .reverse
        rw [show c.close.value.forward = _ from hf, show c.close.value.reverse = _ from hr]
        exact ⟨rfl, rfl⟩
      obtain ⟨hquiet, hdone⟩ := @conclude ceiling k P Q _ _ _ _ d fails hstep hmem
        fun _ hP => hover hP hover'
      rw [← List.append_nil (ds ++ _), ← hquiet] at hdone
      refine andThen hdone fun _ _ => ?_
      refine (congrArg (Upheld ceiling k P Q _ _) ?_).mp hdone
      exact (List.append_nil _).symm

/-- Winding up several conversations. -/
theorem windUpAll {flows : List FlowId} (h : Upheld ceiling k P Q s as ds)
    (hclose : ∀ {c as ds}, c.Sane ceiling → P c as ds → P c.close.value as
      (ds ++ (Chunk.ofDirection d c.close.chunks).map (Chunk.delivery [])))
    (hover : ∀ {c as ds}, P c as ds → c.isOver = true → Q c) :
    Upheld ceiling k P Q (s.windUpAll fails flows).state as
      (ds ++ (s.windUpAll fails flows).handed k d) := by
  refine Reassembly.windUpAll_induction (P := fun _ => True)
    (R := fun s o => ∀ ds, Upheld ceiling k P Q s as ds →
      Upheld ceiling k P Q o.state as (ds ++ o.handed k d))
    (fun _ _ _ => trivial) (fun a s _ ds h => ?_) (fun s flow _ ds h => h.windUp hclose hover)
    (fun ho hf ds h => andThen (ho ds h) fun a ha => hf a ha _ (ho ds h)) trivial flows ds h
  refine (congrArg (Upheld ceiling k P Q _ _) ?_).mp h
  exact (List.append_nil _).symm

/-- Taking a connection out. -/
theorem remove (h : Upheld ceiling k P Q s as ds) (hQ : ∀ {c as ds}, P c as ds → Q c) :
    Upheld ceiling k P Q (s.remove flow).state as (ds ++ (s.remove flow).handed k d) := by
  rw [Reassembly.remove]
  cases hfind : s.registry.find? flow with
  | none =>
      refine (congrArg (Upheld ceiling k P Q _ _) ?_).mp h
      exact (List.append_nil _).symm
  | some c =>
      refine (congrArg (Upheld ceiling k P Q _ _) ?_).mp
        (h.erase c.pages fun x hx _ hk => hQ (h.live x hx hk))
      exact (List.append_nil _).symm

/-! ## Any call -/

/-- **What every call upholds.** The property must hold of a connection that is opened, and be kept
when a segment is worked in, when pages are given up, unless none are, and when the connection is
wound up. -/
theorem extend {r : History} {call : Call}
    (h : Upheld ceiling k P Q r.state (r.arrivalsAt k d) (r.deliveries k d))
    (hopen : ∀ flow opener now, P (Connection.new flow opener k now) [] [] ∧
      Q (Connection.new flow opener k now))
    (hwork : ∀ a ∈ r.state.arrivals call, a.before.Sound ceiling → a.stream = k →
      P a.connection (r.arrivalsAt k d) (r.deliveries k d) → P a.work.connection
        (r.arrivalsAt k d ++ if a.direction = d then [a] else [])
        (r.deliveries k d ++ a.deliveries d))
    (hspare : ∀ a ∈ r.state.arrivals call, a.before.Sound ceiling → a.stream ≠ k →
      (∀ x x', Sheds x x' → P x (r.arrivalsAt k d) (r.deliveries k d) →
        P x' (r.arrivalsAt k d) (r.deliveries k d)) ∨ a.work.entries = a.state.registry.entries)
    (hclose : ∀ {c as ds}, c.Sane ceiling → P c as ds → P c.close.value as
      (ds ++ (Chunk.ofDirection d c.close.chunks).map (Chunk.delivery [])))
    (hover : ∀ {c as ds}, P c as ds → c.isOver = true → Q c)
    (hremove : ∀ flow, call.action = .remove flow → ∀ {c as ds}, P c as ds → Q c) :
    Upheld ceiling k P Q (r.extend call).state ((r.extend call).arrivalsAt k d)
      ((r.extend call).deliveries k d) := by
  obtain ⟨fails, now, action⟩ := call
  have hstate : (r.extend ⟨fails, now, action⟩).state = (r.state.perform fails now action).state :=
    rfl
  rw [r.arrivalsAt_extend, r.deliveries_extend, hstate]
  have hquiet : ∀ {flows : List FlowId}, Upheld ceiling k P Q (r.state.windUpAll fails flows).state
      (r.arrivalsAt k d ++ ([] : List Arrival).filter fun a => a.stream = k ∧ a.direction = d)
      (r.deliveries k d ++ (r.state.windUpAll fails flows).handed k d) := by
    intro flows
    rw [List.filter_nil, List.append_nil]
    exact h.windUpAll hclose hover
  -- nothing but a count follows the flush of idle connections
  have hbefore : ∀ {cutoff : Nat}, Upheld ceiling k P Q (r.state.flushBefore fails cutoff).state
      (r.arrivalsAt k d ++ ([] : List Arrival).filter fun a => a.stream = k ∧ a.direction = d)
      (r.deliveries k d ++ (r.state.flushBefore fails cutoff).handed k d) := by
    intro cutoff
    refine andThen hquiet fun _ _ => ?_
    refine (congrArg (Upheld ceiling k P Q _ _) ?_).mp hquiet
    exact (List.append_nil _).symm
  cases action with
  | receive config locked path segment =>
      exact h.receive hopen hwork hspare hover
  | flushAll order => exact hquiet
  | flushBefore cutoff => exact hbefore
  | flushIdle config =>
      have hsame : Upheld ceiling k P Q r.state
          (r.arrivalsAt k d ++ ([] : List Arrival).filter fun a => a.stream = k ∧ a.direction = d)
          (r.deliveries k d ++ []) := by
        rw [List.filter_nil, List.append_nil, List.append_nil]
        exact h
      show Upheld ceiling k P Q (r.state.flushIdle fails config now).state _
        (r.deliveries k d ++ (r.state.flushIdle fails config now).handed k d)
      rcases r.state.flushIdle_cases fails config now with heq | ⟨cutoff, heq⟩
      · rw [heq]
        exact hsame
      · rw [heq]
        exact hbefore
  | lookUp flow src =>
      obtain ⟨hnone, hlooked, -⟩ := @lookUp ceiling k P Q _ _ _ d fails flow src now h hopen
      refine (congrArg₂ (Upheld ceiling k P Q _) ?_ ?_).mp hlooked
      · exact (List.append_nil _).symm
      · exact (List.append_nil _).symm.trans (congrArg _ hnone.symm)
  | remove flow =>
      refine (congrArg₂ (Upheld ceiling k P Q _) ?_ rfl).mp
        (@remove ceiling k P Q _ _ _ d flow h (hremove flow rfl))
      exact (List.append_nil _).symm

/-- What holds of the segments that arrived, and of one more, holds of all of them. -/
theorem forall_mem_arrived {R : Arrival → Prop} {a : Arrival} (hall : ∀ x ∈ as, R x)
    (ha : a.direction = d → R a) : ∀ x ∈ as ++ if a.direction = d then [a] else [], R x := by
  intro x hx
  rcases List.mem_append.1 hx with hx | hx
  · exact hall x hx
  · split at hx
    · obtain rfl := List.mem_singleton.1 hx
      exact ha ‹_›
    · cases hx

/-- **What every history upholds.** -/
theorem history (calls : List Call)
    (hopen : ∀ flow opener now, P (Connection.new flow opener k now) [] [])
    (hwork : ∀ a ∈ ((Reassembly.fresh ceiling).history calls).arrivals, a.before.Sound ceiling →
      a.stream = k → ∀ as ds, P a.connection as ds → P a.work.connection
        (as ++ if a.direction = d then [a] else []) (ds ++ a.deliveries d))
    (hspare : ∀ a ∈ ((Reassembly.fresh ceiling).history calls).arrivals, a.before.Sound ceiling →
      a.stream ≠ k → (∀ x x' as ds, Sheds x x' → P x as ds → P x' as ds) ∨
        a.work.entries = a.state.registry.entries)
    (hclose : ∀ {c as ds}, c.Sane ceiling → P c as ds → P c.close.value as
      (ds ++ (Chunk.ofDirection d c.close.chunks).map (Chunk.delivery []))) :
    Upheld ceiling k P (fun _ => True) ((Reassembly.fresh ceiling).history calls).state
      (((Reassembly.fresh ceiling).history calls).arrivalsAt k d)
      (((Reassembly.fresh ceiling).history calls).deliveries k d) := by
  induction calls using List.reverseRecOn with
  | nil => exact start
  | append_singleton calls call ih =>
      rw [history_snoc] at hwork hspare ⊢
      have hlast : ∀ a ∈ ((Reassembly.fresh ceiling).history calls).state.arrivals call,
          a ∈ (((Reassembly.fresh ceiling).history calls).extend call).arrivals :=
        fun a ha => List.mem_append_right _ ha
      refine extend (ih ?_ ?_) (fun flow opener now => ⟨hopen flow opener now, trivial⟩) ?_ ?_ hclose
        (fun _ _ => trivial) (fun _ _ _ _ _ _ => trivial)
      · exact fun a ha => hwork a (List.mem_append_left _ ha)
      · exact fun a ha => hspare a (List.mem_append_left _ ha)
      · exact fun a ha hs hk hP => hwork a (hlast a ha) hs hk _ _ hP
      · intro a ha hs hk
        exact (hspare a (hlast a ha) hs hk).imp_left fun hshed x x' => hshed x x' _ _

end Upheld

/-- Every history leaves the shared state sound. -/
theorem sound_history (ceiling : Nat) (calls : List Call) :
    ((Reassembly.fresh ceiling).history calls).state.Sound ceiling :=
  (@Upheld.history ceiling 0 (fun _ _ _ => True) .forward calls (fun _ _ _ => trivial)
    (fun _ _ _ _ _ _ _ => trivial) (fun _ _ _ _ => Or.inl fun _ _ _ _ _ _ => trivial)
    fun _ _ => trivial).sound

end Reassembly
end TcpStreams
