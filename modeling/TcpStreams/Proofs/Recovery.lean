import TcpStreams.Proofs.Lifecycle
import TcpStreams.Proofs.Recency

/-!
# Recovery

A consumer that breaks down when the last chunks of its stream are handed over leaves a connection behind
that is over in both directions.  Such a connection holds no page and takes in nothing more, so it stays as
it is until its consumer is told that the stream is over: by the next segment of its conversation, or by the
next flush that winds it up, unless the consumer breaks down once more.

* `Outcome.Leaves`: a connection that a call leaves as it is, unless its stream is concluded.
* `Reassembly.perform_leaves`: every call leaves a connection that is over.
* `Outcome.Concludes`: a call that concludes the stream of such a connection.
* `Reassembly.receive_concludes`, `Reassembly.flush_concludes`: the calls that do.
-/

namespace TcpStreams

open Connection (Sheds)

/-- A connection without pages has none to give up. -/
theorem Connection.Sheds.eq_self {c c' : Connection} (h : Sheds c c')
    (hnone : ∀ d, (c.half d).pages = []) : c' = c := by
  cases h with
  | refl _ => rfl
  | @head _ _ d _ _ hp _ =>
      rw [hnone d] at hp
      cases hp

/-- The call leaves the connection as it is, unless its consumer was told that its stream is over. -/
def Outcome.Leaves {α : Type} (c : Connection) (o : Outcome α) : Prop :=
  c ∈ o.state.connections ∨ Event.completed c.stream c.flow ∈ o.events

/-- If every step leaves the connection, so do all of them. -/
theorem Outcome.Leaves.andThen {α β : Type} {c : Connection} {o : Outcome α}
    {f : α → Reassembly → Outcome β} (ho : o.Leaves c)
    (hf : c ∈ o.state.connections → ∀ a, o.result = .ok a → (f a o.state).Leaves c) :
    (o.andThen f).Leaves c := by
  unfold Outcome.andThen
  cases hres : o.result with
  | error call => exact ho
  | ok a =>
      rcases ho with hc | hdone
      · exact (hf hc a hres).imp_right fun hdone => List.mem_append_right _ hdone
      · exact Or.inr (List.mem_append_left _ hdone)

/-- Steps that come through together come through one after the other. -/
theorem Outcome.exists_of_andThen_ok {α β : Type} {o : Outcome α} {f : α → Reassembly → Outcome β}
    {b : β} (h : (o.andThen f).result = .ok b) :
    ∃ a, o.result = .ok a ∧ (f a o.state).result = .ok b ∧
      (o.andThen f).state = (f a o.state).state ∧
      (o.andThen f).events = o.events ++ (f a o.state).events := by
  unfold Outcome.andThen at h ⊢
  cases hres : o.result with
  | error call =>
      rw [hres] at h
      cases h
  | ok a =>
      rw [hres] at h
      exact ⟨a, rfl, h, rfl, rfl⟩

namespace Reassembly

variable {ceiling : Nat} {s : Reassembly} {c c' : Connection} {fails : Event → Bool}

/-! ## What a call leaves -/

theorem mem_handOver (hc : c ∈ s.connections) (hsame : c.flow = c'.flow → c' = c)
    (payload : List UInt8) (chunks : List Chunk) :
    c ∈ (s.handOver fails c' payload chunks).state.connections := by
  rw [connections_replaced _ (registry_handOver fails c' payload chunks s)]
  refine List.mem_map.2 ⟨c, hc, ?_⟩
  split
  · exact hsame ‹_›
  · rfl

theorem conclude_leaves (hc : c ∈ s.connections) (hsame : c.flow = c'.flow → c' = c) :
    (s.conclude fails c').Leaves c := by
  simp only [conclude]
  split
  · exact Or.inl hc
  · by_cases hflow : c.flow = c'.flow
    · rw [hsame hflow]
      exact Or.inr (List.mem_singleton_self _)
    · left
      rw [connections_erase _ rfl]
      exact List.mem_filter.2 ⟨hc, decide_eq_true hflow⟩

/-- Looking a connection up leaves all that there are. -/
theorem mem_lookUp (hs : s.Sound ceiling) (hc : c ∈ s.connections) (flow : FlowId) (src : Endpoint)
    (now : Nat) : c ∈ (s.lookUp fails flow src now).state.connections := by
  cases hfind : s.registry.find? flow with
  | some c' =>
      obtain ⟨-, -, hperm, -⟩ := @lookUp_known s fails flow src now c' hs.flows hfind
      exact hperm.mem_iff.2 hc
  | none =>
      have hentry : s.registry.entry? flow = none := Option.map_eq_none_iff.1 hfind
      simp only [lookUp, Registry.visit, hentry]
      split
      · exact hc
      · rw [connections, Registry.insert, List.map_append]
        exact List.mem_append_left _ hc

/-- A connection that is over has no page, so a request for one leaves it as it is. -/
theorem mem_worked {a : Arrival} (hs : a.state.Sound ceiling)
    (ha : a.connection ∈ a.state.connections) (hc : c ∈ a.state.connections)
    (hover : c.isOver = true) :
    c ∈ a.worked.connections ∧ (c.flow = a.work.connection.flow → a.work.connection = c) := by
  obtain ⟨-, hkin, hsheds⟩ := hs.work ha
  have hnone : ∀ d, (c.half d).pages = [] := fun d =>
    (hs.sane c hc).closed d (Connection.isClosed_of_isOver hover d)
  constructor
  · obtain ⟨e, he, rfl⟩ := List.mem_map.1 hc
    obtain ⟨e', he', x, rfl, hx⟩ := exists_right_of_mem hsheds he
    exact List.mem_map.2 ⟨_, he', hx.eq_self hnone⟩
  · intro hflow
    obtain rfl := hs.eq_of_flow hc ha (hflow.trans hkin.flow)
    exact (Arrival.work_of_closed (Connection.isClosed_of_isOver hover a.direction)).1

theorem finish_leaves {a : Arrival} (hs : a.state.Sound ceiling)
    (ha : a.connection ∈ a.state.connections) (hc : c ∈ a.state.connections)
    (hover : c.isOver = true) : (a.finish fails).Leaves c := by
  obtain ⟨hworked, hsame⟩ := mem_worked hs ha hc hover
  have hhanded := @mem_handOver _ _ _ fails hworked hsame a.segment.payload a.work.chunks
  refine Outcome.Leaves.andThen (Or.inl hhanded) fun _ _ _ => ?_
  split
  · exact conclude_leaves hhanded hsame
  · exact Or.inl hhanded

theorem receive_leaves (hs : s.Sound ceiling) (hc : c ∈ s.connections) (hover : c.isOver = true)
    (config : Config) (locked : List FlowId) (path : Route) (segment : Segment) (now : Nat) :
    (s.receive fails config locked path segment now).Leaves c := by
  obtain ⟨hlooked, hfound⟩ := hs.lookUp fails (segment.flow path) (segment.src path) now
  have hmem := @mem_lookUp _ _ _ fails hs hc (segment.flow path) (segment.src path) now
  refine Outcome.Leaves.andThen (Or.inl hmem) fun _ c' hres => ?_
  exact finish_leaves (a :=
    { config, locked, segment, connection := c', direction := c'.directionFrom (segment.src path)
      state := (s.lookUp fails (segment.flow path) (segment.src path) now).state })
    hlooked (hfound c' hres) hmem hover

theorem windUp_leaves_over (hs : s.Sound ceiling) (hc : c ∈ s.connections) (hover : c.isOver = true)
    (flow : FlowId) : (s.windUp fails flow).Leaves c := by
  rw [windUp]
  cases hfind : s.registry.find? flow with
  | none => exact Or.inl hc
  | some x =>
      obtain ⟨hx, -⟩ := find?_eq_some hfind
      have hsame : c.flow = x.close.value.flow → x.close.value = c := by
        intro hflow
        obtain rfl := hs.eq_of_flow hc hx (hflow.trans x.close_ends.1.flow)
        rw [Connection.close_of_isOver hover]
      have hhanded := @mem_handOver { s with arena := s.arena.giveAll x.close.freed } _ _ fails hc
        hsame [] x.close.chunks
      refine Outcome.Leaves.andThen (Or.inl hhanded) fun _ _ _ => ?_
      exact Outcome.Leaves.andThen (conclude_leaves hhanded hsame) fun hc _ _ => Or.inl hc

theorem windUpAll_leaves_over (hs : s.Sound ceiling) (hc : c ∈ s.connections)
    (hover : c.isOver = true) (flows : List FlowId) : (s.windUpAll fails flows).Leaves c :=
  windUpAll_induction (P := fun s => s.Sound ceiling) (R := fun s o => c ∈ s.connections → o.Leaves c)
    (fun _ flow hs => hs.windUp fails flow) (fun _ _ _ hc => Or.inl hc)
    (fun _ flow hs hc => windUp_leaves_over hs hc hover flow)
    (fun ho hf hc => (ho hc).andThen fun hc a ha => hf a ha hc) hs flows hc

/-- **A connection that is over stays as it is** through every call, until its consumer is told so or it is
taken out. -/
theorem perform_leaves (hs : s.Sound ceiling) (hc : c ∈ s.connections) (hover : c.isOver = true)
    (now : Nat) (action : Action) (hstays : action ≠ .remove c.flow) :
    (s.perform fails now action).Leaves c := by
  have hbefore : ∀ cutoff, (s.flushBefore fails cutoff).Leaves c := fun cutoff =>
    Outcome.Leaves.andThen (windUpAll_leaves_over hs hc hover _) fun hc _ _ => Or.inl hc
  cases action with
  | receive config locked path segment => exact receive_leaves hs hc hover config locked path segment now
  | flushAll order => exact windUpAll_leaves_over hs hc hover _
  | flushBefore cutoff => exact hbefore cutoff
  | flushIdle config =>
      show (s.flushIdle fails config now).Leaves c
      rcases s.flushIdle_cases fails config now with heq | ⟨cutoff, heq⟩
      · rw [heq]
        exact Or.inl hc
      · rw [heq]
        exact hbefore cutoff
  | lookUp flow src => exact Or.inl (mem_lookUp hs hc flow src now)
  | remove flow =>
      left
      show c ∈ (s.remove flow).state.connections
      rw [remove]
      cases s.registry.find? flow with
      | none => exact hc
      | some x =>
          rw [connections_erase _ rfl]
          refine List.mem_filter.2 ⟨hc, decide_eq_true fun hflow => hstays ?_⟩
          rw [hflow]

end Reassembly

/-! ## What concludes the stream -/

/-- The call concludes the stream of a connection that is over: its consumer is handed nothing more, and
is told that the stream is over; then the connection is gone. -/
structure Outcome.Concludes {α : Type} (c : Connection) (o : Outcome α) : Prop where
  /-- The consumer is told. -/
  told : [Event.delivered c.stream c.flow [], .completed c.stream c.flow] <:+: o.events
  /-- The connection is gone. -/
  gone : o.state.registry.find? c.flow = none

namespace Reassembly

variable {ceiling : Nat} {s : Reassembly} {c : Connection} {fails : Event → Bool}

theorem finish_concludes {a : Arrival} (hover : a.connection.isOver = true)
    (hok : (a.finish fails).result = .ok ()) :
    (a.finish fails).events = [.delivered a.connection.stream a.connection.flow [],
        .completed a.connection.stream a.connection.flow] ∧
      (a.finish fails).state.registry.find? a.connection.flow = none := by
  obtain ⟨hconn, -, -, hchunks⟩ := Arrival.work_of_closed
    (Connection.isClosed_of_isOver hover a.direction)
  simp only [Arrival.finish, hconn, hchunks, hover, if_true] at hok ⊢
  obtain ⟨_, hhanded, hdone, hstate, hevents⟩ := Outcome.exists_of_andThen_ok hok
  have hclosedForm := handOver_of_ok hhanded
  have hconcluded := conclude_of_ok hdone
  constructor
  · rw [hevents, hconcluded, Outcome.after, hclosedForm]
    rfl
  · rw [hstate, hconcluded]
    exact (Registry.find?_erase ..).trans (if_pos rfl)

/-- **The next segment of its conversation** concludes the stream, unless the consumer breaks down. -/
theorem receive_concludes (hs : s.Sound ceiling) (hc : c ∈ s.connections) (hover : c.isOver = true)
    {config : Config} {locked : List FlowId} {path : Route} {segment : Segment} {now : Nat}
    (hflow : segment.flow path = c.flow)
    (hok : (s.receive fails config locked path segment now).result = .ok ()) :
    let o := s.receive fails config locked path segment now
    o.events = [.delivered c.stream c.flow [], .completed c.stream c.flow] ∧
      o.state.registry.find? c.flow = none := by
  obtain ⟨hfound, hquiet, -⟩ := @lookUp_known s fails (segment.flow path) (segment.src path) now c
    hs.flows (hflow ▸ find?_of_mem hs.flows hc)
  obtain ⟨c', hc', hrest, hstate, hevents⟩ := Outcome.exists_of_andThen_ok hok
  obtain rfl := Except.ok.inj (hfound.symm.trans hc')
  obtain ⟨htold, hgone⟩ := finish_concludes (a :=
    { config, locked, segment, connection := c, direction := c.directionFrom (segment.src path)
      state := (s.lookUp fails (segment.flow path) (segment.src path) now).state }) hover hrest
  constructor
  · refine hevents.trans ?_
    rw [hquiet]
    exact htold
  · exact (congrArg (fun s => s.registry.find? c.flow) hstate).trans hgone

/-- **Winding it up** concludes the stream, unless the consumer breaks down. -/
theorem windUp_concludes (hd : s.DistinctFlows) (hc : c ∈ s.connections) (hover : c.isOver = true)
    {found : Bool} (hok : (s.windUp fails c.flow).result = .ok found) :
    (s.windUp fails c.flow).events =
        [.delivered c.stream c.flow [], .completed c.stream c.flow] ∧
      (s.windUp fails c.flow).state.registry.find? c.flow = none := by
  simp only [windUp, find?_of_mem hd hc, Connection.close_of_isOver hover] at hok ⊢
  obtain ⟨_, hhanded, hrest, hstate, hevents⟩ := Outcome.exists_of_andThen_ok hok
  obtain ⟨_, hdone, -, hstate', hevents'⟩ := Outcome.exists_of_andThen_ok hrest
  have hclosedForm := handOver_of_ok hhanded
  have hconcluded := conclude_of_ok hdone
  constructor
  · rw [hevents, hevents', hconcluded, Outcome.after, hclosedForm]
    rfl
  · rw [hstate, hstate', hconcluded]
    exact (Registry.find?_erase ..).trans (if_pos rfl)

/-- Who has no connection gets none when another one is wound up. -/
theorem find?_windUp {flow other : FlowId} (hne : other ≠ flow) :
    (s.windUp fails flow).state.registry.find? other = s.registry.find? other := by
  rw [windUp]
  cases h : s.registry.find? flow with
  | none => rfl
  | some c =>
      have hflow : c.close.value.flow = flow := c.close_ends.1.flow.trans (find?_eq_some h).2
      -- the connection is put into its place, and goes if the consumer comes through
      have hhanded : ∀ s : Reassembly, ∀ chunks, (s.handOver fails c.close.value [] chunks).state.registry.find? other =
          s.registry.find? other := by
        intro s chunks
        rw [registry_handOver, Registry.find?_replace, hflow, if_neg hne]
      have hdone : ∀ s : Reassembly, (s.conclude fails c.close.value).state.registry.find? other =
          s.registry.find? other := by
        intro s
        rcases registry_conclude fails c.close.value s with heq | heq
        · rw [heq]
        · rw [heq, Registry.find?_erase, hflow, if_neg hne]
      refine Outcome.state_andThen (P := fun s' => s'.registry.find? other = s.registry.find? other)
        (hhanded _ _) fun _ _ => ?_
      have hlast := (hdone _).trans (hhanded { s with arena := s.arena.giveAll c.close.freed } c.close.chunks)
      exact Outcome.state_andThen (P := fun s' => s'.registry.find? other = s.registry.find? other)
        hlast fun _ _ => hlast

/-- Who has no connection has none after others were wound up. -/
theorem windUpAll_absent {flow : FlowId} (hnone : s.registry.find? flow = none) (flows : List FlowId) :
    (s.windUpAll fails flows).state.registry.find? flow = none := by
  refine windUpAll_keeps (P := fun s => s.registry.find? flow = none) (fun s other hnone => ?_) hnone flows
  by_cases hsame : flow = other
  · rw [windUp_unknown (hsame ▸ hnone)]
    exact hnone
  · rw [find?_windUp hsame]
    exact hnone

/-- Winding up several conversations, one of which is that of the connection, concludes its stream. -/
theorem windUpAll_concludes (hs : s.Sound ceiling) (hc : c ∈ s.connections) (hover : c.isOver = true)
    {flows : List FlowId} (hmem : c.flow ∈ flows) {count : Nat}
    (hok : (s.windUpAll fails flows).result = .ok count) : (s.windUpAll fails flows).Concludes c := by
  induction flows generalizing s count with
  | nil => cases hmem
  | cons flow rest ih =>
      obtain ⟨found, hfirst, hrest, -⟩ := Outcome.exists_of_andThen_ok hok
      obtain ⟨n, hlater, -⟩ := Outcome.exists_of_andThen_ok hrest
      obtain ⟨hstate, hevents⟩ := windUpAll_of_ok hfirst rest
      by_cases hsame : c.flow = flow
      · subst hsame
        obtain ⟨htold, hgone⟩ := windUp_concludes hs.flows hc hover hfirst
        refine ⟨?_, ?_⟩
        · rw [hevents, htold]
          exact (List.prefix_append ..).isInfix
        · rw [hstate]
          exact windUpAll_absent hgone rest
      · have hfound := (@find?_windUp s fails flow c.flow hsame).trans (find?_of_mem hs.flows hc)
        have hstays := (find?_eq_some hfound).1
        have hconcluded := ih (hs.windUp fails flow) hstays
          ((List.mem_cons.1 hmem).resolve_left hsame) hlater
        refine ⟨?_, ?_⟩
        · rw [hevents]
          exact hconcluded.told.trans (List.suffix_append ..).isInfix
        · rw [hstate]
          exact hconcluded.gone

/-- **The next flush that winds it up** concludes the stream, unless a consumer breaks down. -/
theorem flush_concludes (hs : s.Sound ceiling) {now : Nat} {action : Action}
    (hc : c ∈ s.woundUp now action) (hover : c.isOver = true) {answer : Answer}
    (hok : (s.perform fails now action).result = .ok answer) :
    (s.perform fails now action).Concludes c := by
  have hlive := (woundUp_subperm hs.flows now action).subset hc
  -- the entry of the connection says since when it is idle
  have hentry : ∀ {p : Entry → Bool}, c ∈ (s.registry.entries.filter p).map Entry.connection →
      ∃ entry ∈ s.registry.entries, p entry = true ∧ entry.connection = c := by
    intro p hp
    obtain ⟨entry, hmem, rfl⟩ := List.mem_map.1 hp
    exact ⟨entry, (List.mem_filter.1 hmem).1, (List.mem_filter.1 hmem).2, rfl⟩
  have hbefore : ∀ {cutoff count : Nat} {entry : Entry}, entry ∈ s.registry.entries →
      entry.connection = c → entry.lastUsed < cutoff →
      (s.flushBefore fails cutoff).result = .ok count →
      (s.flushBefore fails cutoff).Concludes c := by
    rintro cutoff count entry hmem rfl hidle hok
    obtain ⟨n, hall, -, hstate, hevents⟩ := Outcome.exists_of_andThen_ok hok
    have hasked : entry.connection.flow ∈ s.registry.idleFlows cutoff :=
      List.mem_map_of_mem (f := Entry.flow) (List.mem_filter.2 ⟨hmem, decide_eq_true hidle⟩)
    have hconcluded := windUpAll_concludes hs hlive hover hasked hall
    refine ⟨?_, ?_⟩
    · exact hevents.symm ▸ hconcluded.told.trans (List.prefix_append ..).isInfix
    · exact hstate.symm ▸ hconcluded.gone
  have hmap : ∀ {α : Type} {f : α → Answer} {o : Outcome α}, (o.map f).result = .ok answer →
      (∀ a, o.result = .ok a → o.Concludes c) → (o.map f).Concludes c := by
    intro α f o hok hall
    cases hres : o.result with
    | error call =>
        rw [Outcome.map, hres] at hok
        cases hok
    | ok a => exact ⟨(hall a hres).told, (hall a hres).gone⟩
  cases action with
  | flushAll order =>
      refine hmap hok fun _ hall => windUpAll_concludes hs hlive hover ?_ hall
      exact map_flow_connectionsIn hs.flows order ▸ List.mem_map_of_mem (f := Connection.flow) hc
  | flushBefore cutoff =>
      obtain ⟨entry, hmem, hwound, hsame⟩ := hentry hc
      exact hmap hok fun _ hall => hbefore hmem hsame (of_decide_eq_true hwound) hall
  | flushIdle config =>
      obtain ⟨entry, hmem, hwound, hsame⟩ := hentry hc
      refine hmap hok fun n hall => ?_
      simp only [Action.windsUp] at hwound
      rw [flushIdle] at hall ⊢
      cases hspan : config.idleSpan with
      | none =>
          rw [hspan] at hwound
          cases hwound
      | some span =>
          simp only [hspan, Bool.and_eq_true, decide_eq_true_eq] at hwound hall ⊢
          rw [if_pos hwound.1] at hall ⊢
          exact hbefore hmem hsame hwound.2 hall
  | receive | lookUp | remove =>
      obtain ⟨entry, -, hwound, -⟩ := hentry hc
      cases hwound

end Reassembly
end TcpStreams
