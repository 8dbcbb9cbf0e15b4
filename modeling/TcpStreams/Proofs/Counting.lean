import TcpStreams.Proofs.Records

/-!
# Counting

The counters of a half-stream say what its consumer saw, and what arrived for it.  That holds of every live
connection at every moment, whoever shares the registries and the arenas, whichever arena the pages of a
segment come from, and whichever consumers break down: a delivery in which one does is counted like any other.

* `Reassembly.Parted`: no two connections have one conversation or one stream.
* `Outcome.Counts`: a step of a call adds to the counters what it hands over, and what it says besides.
* `Reassembly.perform_counts`: so does every call.
* `Session.tally`: what a run adds up to.
* `Session.counters_agree`: the counters of every live half-stream.
-/

namespace TcpStreams

open Connection (Sided Kin)

/-! ## States -/

namespace Reassembly

variable {s s' : Reassembly} {fails : Event → Bool} {flow : FlowId} {c : Connection} {a : Arrival}

/-- No two connections have one conversation or one stream, and the half-streams know their directions. -/
structure Parted (s : Reassembly) : Prop where
  /-- No two have one conversation. -/
  distinct : s.DistinctFlows
  /-- No two have one stream. -/
  once : ∀ flow c flow' c', s.registry.find? flow = some c → s.registry.find? flow' = some c' →
    c.stream = c'.stream → flow = flow'
  /-- All their streams have begun. -/
  below : ∀ flow c, s.registry.find? flow = some c → c.stream < s.nextStream
  /-- The half-streams know their directions. -/
  sided : ∀ flow c, s.registry.find? flow = some c → c.Sided

/-- A look-up keeps connections apart. -/
theorem Parted.lookUp (h : s.Parted) (fails : Event → Bool) (flow : FlowId) (src : Endpoint) (now : Nat) :
    (s.lookUp fails flow src now).state.Parted := by
  obtain ⟨hopens, -⟩ := s.opens_lookUp fails flow src now
  refine ⟨distinct_lookUp h.distinct fails flow src now, ?_, ?_, ?_⟩
  · intro f c f' c' hc hc' hsame
    rcases hopens.live f c hc with hc | ⟨hf, -, opener, time, rfl⟩
    · rcases hopens.live f' c' hc' with hc' | ⟨-, -, opener, time, rfl⟩
      · exact h.once f c f' c' hc hc' hsame
      · exact absurd hsame (Nat.ne_of_lt (h.below f c hc))
    · rcases hopens.live f' c' hc' with hc' | ⟨hf', -⟩
      · exact absurd hsame.symm (Nat.ne_of_lt (h.below f' c' hc'))
      · exact Option.some.inj (hf.symm.trans hf')
  · intro f c hc
    rcases hopens.live f c hc with hc | ⟨-, hlt, opener, time, rfl⟩
    · exact Nat.lt_of_lt_of_le (h.below f c hc) hopens.begun
    · exact hlt
  · intro f c hc
    rcases hopens.live f c hc with hc | ⟨-, -, opener, time, rfl⟩
    · exact h.sided f c hc
    · intro d
      rw [Connection.half_new]
      rfl

/-- The conversations of the connections, as the registry lists them. -/
theorem DistinctFlows.flows (h : s.DistinctFlows) : s.registry.flows.Nodup := by
  rwa [DistinctFlows, connections, List.map_map] at h

theorem Parted.find?_of_entry (h : s.Parted) {e : Entry} (he : e ∈ s.registry.entries) :
    s.registry.find? e.flow = some e.connection :=
  find?_of_mem h.distinct (List.mem_map_of_mem he)

/-- The connections that a segment finds have different streams. -/
theorem Parted.distinctStreams (h : a.state.Parted) (hc : a.state.registry.find? flow = some a.connection) :
    a.before.DistinctStreams := by
  have hdistinct : (a.state.registry.entries.map Entry.flow).Nodup := h.distinct.flows
  refine ⟨List.Nodup.map_on (fun x hx y hy hsame => ?_) (List.Nodup.of_map Entry.flow hdistinct),
    fun e he hne hsame => hne ?_⟩
  · have hflow : x.flow = y.flow := h.once _ _ _ _ (h.find?_of_entry hx) (h.find?_of_entry hy) hsame
    exact List.inj_on_of_nodup_map hdistinct hx hy hflow
  · exact (h.once _ _ _ _ (h.find?_of_entry he) hc hsame).trans (find?_eq_some hc).2.symm

/-- What a segment adds to the counters of a stream that is not live is nothing. -/
theorem Parted.tallies_eq_zero (h : a.state.Parted)
    (hc : a.state.registry.find? flow = some a.connection) {k : Nat}
    (hk : ∀ other x, a.state.registry.find? other = some x → x.stream ≠ k) (d : Direction) :
    a.tallies k d = 0 := by
  have hown : a.stream ≠ k := hk flow _ hc
  rw [Arrival.tallies, Counters.onlyFor, if_neg fun hsame => hown hsame.1, zero_add]
  refine Loss.tallies_eq_zero fun x hx hsame => ?_
  rcases List.mem_cons.1 (Arrival.mem_streams_of_losses hx) with hstream | hstream
  · exact hown (hstream.symm.trans hsame.1)
  · obtain ⟨e, he, hstream⟩ := List.mem_map.1 hstream
    exact hk e.flow e.connection (h.find?_of_entry he) (hstream.trans hsame.1)

end Reassembly

/-! ## Steps of a call -/

/-- What a step of a call hands over adds to the counters. -/
def Outcome.tally {α : Type} (o : Outcome α) (stream : Nat) (d : Direction) : Counters :=
  ((o.handed stream d).map Delivery.tally).sum

/-- A step of a call adds to the counters of every direction `d` of a stream `k` what it hands over there, and
`T k d` besides. -/
structure Outcome.Counts {α : Type} (T : Nat → Direction → Counters) (s : Reassembly) (o : Outcome α) :
    Prop where
  /-- No stream begins. -/
  next : o.state.nextStream = s.nextStream
  /-- A connection that is live afterwards was so before. -/
  live : ∀ flow c', o.state.registry.find? flow = some c' → ∃ c, s.registry.find? flow = some c ∧
    c.Kin c' ∧ (c.Sided → c'.Sided) ∧
      ∀ d, (c'.half d).counters = (c.half d).counters + (o.tally c.stream d + T c.stream d)
  /-- Nothing is counted for a stream that is not live. -/
  silent : ∀ k, (∀ flow c, s.registry.find? flow = some c → c.stream ≠ k) →
    ∀ d, o.tally k d + T k d = 0

namespace Outcome

variable {α β : Type} {T T' : Nat → Direction → Counters} {s : Reassembly} {o : Outcome α}

theorem tally_of_quiet (hquiet : ∀ k d, o.handed k d = []) (k : Nat) (d : Direction) : o.tally k d = 0 := by
  rw [tally, hquiet]
  rfl

/-- Nothing is handed over, and connections go at most. -/
theorem counts_of_quiet (hnext : o.state.nextStream = s.nextStream) (hquiet : ∀ k d, o.handed k d = [])
    (hlive : ∀ flow c, o.state.registry.find? flow = some c → s.registry.find? flow = some c) :
    o.Counts (fun _ _ => 0) s := by
  refine ⟨hnext, fun flow c hc => ⟨c, hlive flow c hc, .refl c, id, fun d => ?_⟩, fun k _ d => ?_⟩
  · rw [tally_of_quiet hquiet, add_zero, add_zero]
  · rw [tally_of_quiet hquiet, add_zero]

theorem counts_answer (a : α) : (Reassembly.answer a s).Counts (fun _ _ => 0) s :=
  counts_of_quiet rfl (fun _ _ => rfl) fun _ _ hc => hc

theorem Counts.congr {o' : Outcome β} (h : o.Counts T s) (hstate : o'.state = o.state)
    (hhanded : ∀ k d, o'.handed k d = o.handed k d) (hT : ∀ k d, T' k d = T k d) : o'.Counts T' s := by
  have htally : ∀ k d, o'.tally k d = o.tally k d := fun k d => by rw [tally, tally, hhanded]
  refine ⟨hstate ▸ h.next, fun flow c hc => ?_, fun k hk d => ?_⟩
  · rw [hstate] at hc
    simp only [htally, hT]
    exact h.live flow c hc
  · rw [htally, hT]
    exact h.silent k hk d

/-- **One step after the other** counts what both count, if the second one does so whatever the first one
answers. -/
theorem Counts.andThen {f : α → Reassembly → Outcome β} (h : o.Counts T s)
    (hf : ∀ a, o.result = .ok a → (f a o.state).Counts (fun _ _ => 0) o.state) :
    (o.andThen f).Counts T s := by
  cases hres : o.result with
  | error call =>
      have herror := fun k d => @andThen_error _ _ o f call hres k d
      exact h.congr (herror 0 .forward).1 (fun k d => (herror k d).2) fun _ _ => rfl
  | ok a =>
      have hok := fun k d => @andThen_ok _ _ o f a hres k d
      have hstate := (hok 0 .forward).1
      have hthen := hf a hres
      have htally : ∀ k d, (o.andThen f).tally k d = o.tally k d + (f a o.state).tally k d := fun k d => by
        rw [tally, (hok k d).2, List.map_append, List.sum_append]
        rfl
      refine ⟨hstate ▸ hthen.next.trans h.next, fun flow c'' hc'' => ?_, fun k hk d => ?_⟩
      · rw [hstate] at hc''
        obtain ⟨c', hc', hkin', hsided', hcounts'⟩ := hthen.live flow c'' hc''
        obtain ⟨c, hc, hkin, hsided, hcounts⟩ := h.live flow c' hc'
        refine ⟨c, hc, hkin.trans hkin', fun hs => hsided' (hsided hs), fun d => ?_⟩
        rw [hcounts', hcounts, hkin.stream, htally, add_zero, add_assoc,
          add_right_comm (o.tally c.stream d)]
      · have hk' : ∀ flow c', o.state.registry.find? flow = some c' → c'.stream ≠ k := by
          intro flow c' hc'
          obtain ⟨c, hc, hkin, -⟩ := h.live flow c' hc'
          rw [hkin.stream]
          exact hk flow c hc
        have hrest := hthen.silent k hk' d
        rw [add_zero] at hrest
        rw [htally, hrest, add_zero]
        exact h.silent k hk d

end Outcome

namespace Reassembly

variable {T : Nat → Direction → Counters} {s s' : Reassembly} {fails : Event → Bool} {flow : FlowId}
  {c c' : Connection}

/-- **Handing over.** What the chunks add was counted when they were made. -/
theorem counts_handOver (s' : Reassembly) {payload : List UInt8} {chunks : List Chunk} (hs : s.Parted)
    (hc : s.registry.find? flow = some c) (hown : c.Counts payload chunks (T c.stream) c')
    (hothers : List.Forall₂ (Entry.Becomes fun x x' => x.Kin x' ∧
      (x.flow ≠ c.flow → x.Counts payload [] (T x.stream) x')) s.registry.entries s'.registry.entries)
    (hnext : s'.nextStream = s.nextStream)
    (hT : ∀ k, (∀ flow c, s.registry.find? flow = some c → c.stream ≠ k) → ∀ d, T k d = 0) :
    (s'.handOver fails c' payload chunks).Counts T s := by
  have htally : ∀ k d, (s'.handOver fails c' payload chunks).tally k d =
      if c.stream = k then ((Chunk.ofDirection d chunks).map (Chunk.tally payload)).sum else 0 := by
    intro k d
    rw [Outcome.tally, Upheld.handed_handOver, hown.kin.stream]
    split
    · rw [List.map_map]
      rfl
    · rfl
  have hflow := (find?_eq_some hc).2
  refine ⟨?_, fun other x hx => ?_, fun k hk d => ?_⟩
  · refine Eq.trans ?_ hnext
    rw [handOver]
    split <;> rfl
  · rw [registry_handOver, Registry.find?_replace] at hx
    split at hx
    · next hother =>
        obtain ⟨-, -, rfl⟩ := Option.map_eq_some_iff.1 hx
        rw [hown.kin.flow, hflow] at hother
        refine ⟨c, hother ▸ hc, hown.kin, hown.sided, fun d => ?_⟩
        rw [htally, if_pos rfl]
        exact hown.counters d
    · next hother =>
        rw [hown.kin.flow] at hother
        obtain ⟨y, hy, hkin, hcounts⟩ :=
          Registry.find?_of_forall₂ (R := fun x x' => x.Kin x' ∧
            (x.flow ≠ c.flow → x.Counts payload [] (T x.stream) x')) (fun h => h.1.flow) hothers hx
        have hyflow := (find?_eq_some hy).2
        have hcounted := hcounts (hyflow ▸ hother)
        refine ⟨y, hy, hkin, hcounted.sided, fun d => ?_⟩
        have hapart : c.stream ≠ y.stream := fun hsame =>
          hother ((hs.once _ _ _ _ hy hc hsame.symm).trans hflow.symm)
        rw [htally, if_neg hapart]
        exact hcounted.counters d
  · rw [htally, if_neg (hk flow c hc), hT k hk, add_zero]

theorem counts_conclude (c : Connection) : (s.conclude fails c).Counts (fun _ _ => 0) s := by
  refine Outcome.counts_of_quiet ?_ ?_ fun flow x hx => ?_
  · simp only [conclude]
    split <;> rfl
  · simp only [conclude]
    split <;> exact fun _ _ => rfl
  · rcases registry_conclude fails c s with heq | heq
    · rwa [heq] at hx
    · rw [heq, Registry.find?_erase] at hx
      split at hx
      · cases hx
      · exact hx

theorem counts_finish {a : Arrival} (hs : a.state.Parted)
    (hc : a.state.registry.find? flow = some a.connection) : (a.finish fails).Counts a.tallies a.state := by
  have hwork := Arrival.counts_work (hs.distinctStreams hc) (hs.sided flow _ hc)
  obtain ⟨cs, hchunks, hown⟩ := hwork.connection
  obtain rfl : a.work.chunks = cs := hchunks
  have hhanded : (a.worked.handOver fails a.work.connection a.segment.payload a.work.chunks).Counts
      a.tallies a.state :=
    counts_handOver a.worked hs hc hown hwork.entries rfl fun k hk d => hs.tallies_eq_zero hc hk d
  refine Outcome.Counts.andThen (hhanded.congr rfl (fun _ _ => rfl) fun _ _ => rfl) fun _ _ => ?_
  split
  · exact counts_conclude _
  · exact Outcome.counts_answer ()

/-! ## Calls -/

theorem counts_windUp (hs : s.Parted) (flow : FlowId) : (s.windUp fails flow).Counts (fun _ _ => 0) s := by
  rw [windUp]
  cases hc : s.registry.find? flow with
  | none => exact Outcome.counts_answer false
  | some c =>
      have hhanded : (({ s with arena := s.arena.giveAll c.close.freed } : Reassembly).handOver fails
          c.close.value [] c.close.chunks).Counts (fun _ _ => 0) s :=
        counts_handOver { s with arena := s.arena.giveAll c.close.freed } hs hc
          (Connection.counts_close [] (hs.sided flow c hc))
          (becomes_refl (fun x => ⟨.refl x, fun _ => .still [] x fun _ => rfl⟩) _) rfl fun _ _ _ => rfl
      refine Outcome.Counts.andThen (hhanded.congr rfl (fun _ _ => rfl) fun _ _ => rfl) fun _ _ => ?_
      exact (counts_conclude _).andThen fun _ _ => Outcome.counts_answer true

/-- Where connections go at most and nobody is visited, the rest stay apart. -/
theorem Parted.counted {α : Type} {o : Outcome α} (h : s.Parted) (hcounts : o.Counts T s)
    (hactivity : o.state.registry.activity.Sublist s.registry.activity) : o.state.Parted := by
  refine ⟨?_, ?_, ?_, ?_⟩
  · have hflows := hactivity.map Prod.fst
    rw [Registry.fst_activity, Registry.fst_activity] at hflows
    rw [DistinctFlows, connections, List.map_map]
    exact hflows.nodup h.distinct.flows
  · intro f c f' c' hc hc' hsame
    obtain ⟨x, hx, hkin, -⟩ := hcounts.live f c hc
    obtain ⟨x', hx', hkin', -⟩ := hcounts.live f' c' hc'
    exact h.once f x f' x' hx hx' (by rw [← hkin.stream, ← hkin'.stream, hsame])
  · intro f c hc
    obtain ⟨x, hx, hkin, -⟩ := hcounts.live f c hc
    rw [hkin.stream, hcounts.next]
    exact h.below f x hx
  · intro f c hc
    obtain ⟨x, hx, -, hsided, -⟩ := hcounts.live f c hc
    exact hsided (h.sided f x hx)

theorem counts_windUpAll (hs : s.Parted) (flows : List FlowId) :
    (s.windUpAll fails flows).Counts (fun _ _ => 0) s :=
  windUpAll_induction (P := Parted) (R := fun s o => o.Counts (fun _ _ => 0) s)
    (fun s flow hs => hs.counted (counts_windUp hs flow) (activity_windUp fails flow s))
    (fun a _ _ => Outcome.counts_answer a) (fun _ flow hs => counts_windUp hs flow)
    Outcome.Counts.andThen hs flows

theorem counts_flushBefore (hs : s.Parted) (cutoff : Nat) :
    (s.flushBefore fails cutoff).Counts (fun _ _ => 0) s :=
  (counts_windUpAll hs _).andThen fun _ _ =>
    Outcome.counts_of_quiet rfl (fun _ _ => rfl) fun _ _ hc => hc

theorem counts_remove (s : Reassembly) (flow : FlowId) : (s.remove flow).Counts (fun _ _ => 0) s := by
  rw [remove]
  cases hc : s.registry.find? flow with
  | none => exact Outcome.counts_answer false
  | some c =>
      refine Outcome.counts_of_quiet rfl (fun _ _ => rfl) fun other x hx => ?_
      rw [Registry.find?_erase] at hx
      split at hx
      · cases hx
      · exact hx

/-- What the segments that arrived add to the counters of a direction of a stream. -/
def tallies (as : List Arrival) (k : Nat) (d : Direction) : Counters := (as.map fun a => a.tallies k d).sum

/-- **Every call** opens a connection at most, and then counts what it hands over and what arrived. -/
theorem perform_counts (hs : s.Parted) (call : Call) :
    ∃ opened s', s.Opens opened s' ∧
      (s.perform call.fails call.now call.action).Counts (tallies (s.arrivals call)) s' := by
  obtain ⟨fails, now, action⟩ := call
  cases action with
  | receive config locked path segment =>
      obtain ⟨hopens, hquiet⟩ := s.opens_lookUp fails (segment.flow path) (segment.src path) now
      have hparted := hs.lookUp fails (segment.flow path) (segment.src path) now
      refine ⟨_, _, hopens, ?_⟩
      show Outcome.Counts _ _ ((s.receive fails config locked path segment now).map fun _ => Answer.done)
      cases hres : (s.lookUp fails (segment.flow path) (segment.src path) now).result with
      | error call =>
          obtain ⟨harrivals, hstate, hhanded⟩ :=
            @receive_of_error s fails config locked path segment now call hres
          rw [harrivals]
          exact Outcome.counts_of_quiet (congrArg nextStream hstate)
            (fun k d => (hhanded k d).trans (hquiet k d)) fun flow c hc => hstate ▸ hc
      | ok c =>
          obtain ⟨a, harrivals, ha, hac, hstate, hhanded⟩ :=
            @receive_of_ok s fails config locked path segment now c hres
          rw [harrivals]
          rw [← ha] at hparted ⊢
          have hfound : a.state.registry.find? (segment.flow path) = some a.connection := by
            rw [ha, hac]
            exact find?_of_lookUp hres
          have hfinish : (a.finish fails).Counts a.tallies a.state := counts_finish hparted hfound
          refine hfinish.congr hstate (fun k d => (hhanded k d).trans ?_) fun k d => List.sum_singleton
          rw [hquiet]
          rfl
  | lookUp flow src =>
      obtain ⟨hopens, hquiet⟩ := s.opens_lookUp fails flow src now
      exact ⟨_, _, hopens, Outcome.counts_of_quiet rfl hquiet fun _ _ hc => hc⟩
  | flushAll order =>
      exact ⟨none, s, .refl s, (counts_windUpAll hs _).congr rfl (fun _ _ => rfl) fun _ _ => rfl⟩
  | flushBefore cutoff =>
      exact ⟨none, s, .refl s, (counts_flushBefore hs cutoff).congr rfl (fun _ _ => rfl) fun _ _ => rfl⟩
  | flushIdle config =>
      have hall : (s.flushIdle fails config now).Counts (fun _ _ => 0) s := by
        rcases s.flushIdle_cases fails config now with heq | ⟨cutoff, heq⟩
        · rw [heq]
          exact Outcome.counts_answer 0
        · rw [heq]
          exact counts_flushBefore hs cutoff
      exact ⟨none, s, .refl s, hall.congr rfl (fun _ _ => rfl) fun _ _ => rfl⟩
  | remove flow => exact ⟨none, s, .refl s, (counts_remove s flow).congr rfl (fun _ _ => rfl) fun _ _ => rfl⟩

end Reassembly

/-! ## Sessions -/

namespace Session

variable {s : Session} {T : Nat → Direction → Counters}

/-- What a turn adds to the counters of a direction of a stream. -/
def turnTally (s : Session) (t : Turn) (k : Nat) (d : Direction) : Counters :=
  (((s.turn t).events.flatMap (Event.deliveries k d)).map Delivery.tally).sum +
    Reassembly.tallies (s.turnArrivals t) k d

/-- What a run adds to the counters of a direction of a stream. -/
def tally (s : Session) (ts : List Turn) (k : Nat) (d : Direction) : Counters :=
  ((((s.reports ts).flatMap Report.events).flatMap (Event.deliveries k d)).map Delivery.tally).sum +
    Reassembly.tallies (s.arrivals ts) k d

theorem reports_append (ts us : List Turn) (s : Session) :
    s.reports (ts ++ us) = s.reports ts ++ (s.after ts).reports us := by
  induction ts generalizing s with
  | nil => rfl
  | cons t rest ih =>
      rw [List.cons_append, reports, reports, ih]
      rfl

theorem tally_snoc (s : Session) (ts : List Turn) (t : Turn) (k : Nat) (d : Direction) :
    s.tally (ts ++ [t]) k d = s.tally ts k d + (s.after ts).turnTally t k d := by
  have hone : (s.after ts).reports [t] = [(s.after ts).turn t] := rfl
  have harrivals : (s.after ts).arrivals [t] = (s.after ts).turnArrivals t := List.append_nil _
  rw [tally, tally, turnTally, reports_append, arrivals_append, hone, harrivals, Reassembly.tallies,
    Reassembly.tallies, Reassembly.tallies, List.flatMap_append, List.flatMap_append, List.map_append,
    List.map_append, List.sum_append, List.sum_append, List.flatMap_singleton, add_add_add_comm]

/-- The counters of every live connection are what `T` says, and streams that have not begun count nothing. -/
structure Counted (T : Nat → Direction → Counters) (s : Session) : Prop where
  /-- The counters of every live connection. -/
  live : ∀ r flow c, s.connectionAt r flow = some c → ∀ d, (c.half d).counters = T c.stream d
  /-- Streams that have not begun count nothing. -/
  unbegun : ∀ k, s.nextStream ≤ k → ∀ d, T k d = 0

theorem counted_fresh (registries : Nat) (ceilings : List Nat) :
    (fresh registries ceilings).Counted fun _ _ => 0 := by
  refine ⟨fun r flow c hc => ?_, fun _ _ _ => rfl⟩
  rw [connectionAt, registry_fresh] at hc
  cases hc

/-- **A call on a registry** adds to the counters what it hands over and what arrived. -/
theorem Counted.report {registry arena : Nat} {opened : Option FlowId} {after : Reassembly}
    {o : Outcome Answer} {U : Nat → Direction → Counters} (h : s.Counted T) (hs : s.Kempt)
    (hopens : (s.state registry arena).Opens opened after) (hcounts : o.Counts U after) (now : Nat) :
    (s.report registry arena now o).session.Counted fun k d => T k d + (o.tally k d + U k d) := by
  have hbegun : s.nextStream ≤ after.nextStream := hopens.begun
  -- a stream that lives elsewhere, or that has not begun, is not live in this registry
  have hsilent : ∀ k, (∀ flow c, s.connectionAt registry flow = some c → c.stream ≠ k) →
      (s.nextStream < after.nextStream → k ≠ s.nextStream) → ∀ d, o.tally k d + U k d = 0 := by
    intro k hk hnew
    refine hcounts.silent k fun flow c hc => ?_
    rcases hopens.live flow c hc with hc | ⟨-, hlt, opener, time, rfl⟩
    · exact hk flow c hc
    · exact (hnew hlt).symm
  refine ⟨fun r flow c' hc' d => ?_, fun k hk d => ?_⟩
  · rcases s.connectionAt_report registry arena now o hc' with ⟨rfl, hfound⟩ | ⟨hne, hc⟩
    · obtain ⟨c, hc, hkin, -, hadded⟩ := hcounts.live flow c' hfound
      have horigin : (c.half d).counters = T c.stream d := by
        rcases hopens.live flow c hc with hc | ⟨-, -, opener, time, rfl⟩
        · exact h.live r flow c hc d
        · rw [Connection.half_new]
          exact (h.unbegun s.nextStream (Nat.le_refl _) d).symm
      rw [hadded, hkin.stream, horigin]
    · rw [h.live r flow c' hc, hsilent, add_zero]
      · intro other x hx hsame
        exact hne (hs.once registry other x r flow c' hx hc hsame).1.symm
      · exact fun _ => Nat.ne_of_lt (hs.below r flow c' hc)
  · have hk : after.nextStream ≤ k := hcounts.next ▸ hk
    rw [h.unbegun k (Nat.le_trans hbegun hk), hsilent, add_zero]
    · intro other x hx
      have hbelow : x.stream < s.nextStream := hs.below registry other x hx
      omega
    · omega

/-- **So does every turn.** -/
theorem Counted.turn (h : s.Counted T) (hs : s.Kempt) (hparted : ∀ r arena, (s.state r arena).Parted)
    (t : Turn) : (s.turn t).session.Counted fun k d => T k d + s.turnTally t k d := by
  -- without an action nothing is handed over, and nothing arrives
  have hquiet : ∀ {s' : Session}, s'.registries = s.registries → s'.nextStream = s.nextStream →
      (∀ k d, s.turnTally t k d = 0) → s'.Counted fun k d => T k d + s.turnTally t k d := by
    intro s' hregistries hnext hzero
    refine ⟨fun r flow c hc d => ?_, fun k hk d => ?_⟩
    · rw [connectionAt_congr hregistries] at hc
      rw [hzero, add_zero]
      exact h.live r flow c hc d
    · rw [hzero, add_zero]
      exact h.unbegun k (hnext ▸ hk) d
  obtain ⟨fails, now, deed⟩ := t
  cases deed with
  | act registry arena action =>
      obtain ⟨opened, after, hopens, hcounts⟩ :=
        Reassembly.perform_counts (hparted registry arena) ⟨fails, now, action⟩
      exact h.report hs hopens hcounts now
  | take arena seq =>
      obtain ⟨hregistries, hnext, hevents⟩ := s.takePage_keeps arena seq
      refine hquiet hregistries hnext fun k d => ?_
      show (((s.takePage arena seq).events.flatMap _).map _).sum + Reassembly.tallies [] k d = 0
      rw [hevents]
      rfl
  | give arena slots =>
      obtain ⟨hregistries, hnext⟩ := givePages_keeps arena slots s
      exact hquiet hregistries hnext fun _ _ => rfl

/-- At every moment the connections of every registry are apart. -/
theorem parted_after (registries : Nat) (ceilings : List Nat) (ts : List Turn) (r arena : Nat) :
    (((fresh registries ceilings).after ts).state r arena).Parted := by
  have hkempt := kempt_after registries ceilings ts
  exact ⟨distinct_after registries ceilings ts r arena,
    fun f c f' c' hc hc' hsame => (hkempt.once r f c r f' c' hc hc' hsame).2, hkempt.below r, hkempt.sided r⟩

/-- **The counters of every live connection** are what the run adds up to. -/
theorem counted_after (registries : Nat) (ceilings : List Nat) (ts : List Turn) :
    ((fresh registries ceilings).after ts).Counted ((fresh registries ceilings).tally ts) := by
  induction ts using List.reverseRecOn with
  | nil => exact counted_fresh registries ceilings
  | append_singleton ts t ih =>
      have hturn := ih.turn (kempt_after registries ceilings ts) (parted_after registries ceilings ts) t
      rw [after_append]
      refine ⟨fun r flow c hc d => ?_, fun k hk d => ?_⟩
      · rw [tally_snoc]
        exact hturn.live r flow c hc d
      · rw [tally_snoc]
        exact hturn.unbegun k hk d

end Session

/-! ## The single counters -/

/-- Whether data has to wait. -/
def Fit.waits : Fit → Bool
  | .ahead _ => true
  | .empty | .behind | .inOrder _ | .covered => false

/-- Whether data brings nothing new. -/
def Fit.repeats : Fit → Bool
  | .behind | .covered => true
  | .empty | .inOrder _ | .ahead _ => false

/-- How the data of a segment fits where it arrives. -/
def Arrival.fit (a : Arrival) : Fit := a.before.fit a.direction a.segment

namespace Counters

/-- One for every element that has a property makes the number of those that do. -/
theorem sum_indicator {α : Type} (p : α → Bool) (xs : List α) :
    (xs.map fun x => if p x then 1 else 0).sum = xs.countP p := by
  induction xs with
  | nil => rfl
  | cons x rest ih => rw [List.map_cons, List.sum_cons, ih, List.countP_cons, Nat.add_comm]

variable {φ : Counters → Nat}

/-- A counter of what the elements of a list add. -/
theorem sum_map_field {α : Type} (hzero : φ 0 = 0) (hadd : ∀ a b, φ (a + b) = φ a + φ b) (f : α → Counters)
    (xs : List α) : φ (xs.map f).sum = (xs.map fun x => φ (f x)).sum := by
  rw [sum_field hzero hadd, List.map_map]
  rfl

/-- Nothing counts what no element of a list adds. -/
theorem sum_map_eq_zero {α : Type} {f : α → Nat} (h : ∀ x, f x = 0) (xs : List α) : (xs.map f).sum = 0 := by
  rw [List.sum_eq_zero]
  intro n hn
  obtain ⟨x, -, rfl⟩ := List.mem_map.1 hn
  exact h x

end Counters

/-- A segment counts once, by its fit, if it finds its half-stream open. -/
theorem Arrival.tally_eq (a : Arrival) : a.tally =
    if a.half.isClosed then 0
    else { segments := 1, buffered := if a.fit.waits then 1 else 0
           retransmissions := if a.fit.repeats then 1 else 0 } := by
  rw [tally, ← fit]
  split
  · rfl
  · cases a.fit <;> rfl

/-- The arrival of a segment itself hands nothing over and loses nothing. -/
theorem Arrival.tally_quiet (a : Arrival) :
    a.tally.delivered = 0 ∧ a.tally.skips = 0 ∧ a.tally.discarded = 0 := by
  rw [tally_eq]
  split <;> exact ⟨rfl, rfl, rfl⟩

/-- What arrived adds the segments that arrived in that direction, and what was lost there. -/
theorem Reassembly.tallies_eq (as : List Arrival) (k : Nat) (d : Direction) : tallies as k d =
    ((as.filter fun a => decide (a.stream = k ∧ a.direction = d)).map Arrival.tally).sum +
      Loss.tallies (as.flatMap Arrival.losses) k d := by
  induction as with
  | nil => rfl
  | cons a rest ih =>
      rw [tallies, List.map_cons, List.sum_cons, ← tallies, ih, List.flatMap_cons, Loss.tallies_append,
        Arrival.tallies, add_add_add_comm, List.filter_cons]
      refine congrArg (· + _) ?_
      by_cases hsame : a.stream = k ∧ a.direction = d
      · rw [if_pos (decide_eq_true hsame), List.map_cons, List.sum_cons, Counters.onlyFor, if_pos hsame]
      · rw [if_neg (by simpa using hsame), Counters.onlyFor, if_neg hsame, zero_add]

namespace Session

/-- **The counters agree with what was seen and what arrived.** Let any number of reassemblers and other
parties share registries and arenas of any ceilings, and let consumers break down in any calls, also while
they are handed chunks.  At every moment, for either half-stream of every live connection:

The bytes and the skips counted are those of all chunks of its direction that were handed to its stream,
whatever made the half-stream hand them on.  The segments counted are those that came to it while it was open;
the buffered ones are those whose data had to wait and the retransmissions those whose data brought nothing
new, so there are no more of these two together than segments.  The bytes counted as discarded are those of
its losses: a page that waited, or what was left of a piece that no page could be had for.  All losses are in
the log, one by one, and the log tells of no other ones. -/
theorem counters_agree (registries : Nat) (ceilings : List Nat) (turns : List Turn) :
    let first := fresh registries ceilings
    let s := first.after turns
    let losses := (first.arrivals turns).flatMap Arrival.losses
    ((first.reports turns).flatMap Report.notes).filterMap Note.loss? =
        losses.map (fun x => x.source.size) ∧
      ∀ r flow c, s.connectionAt r flow = some c → ∀ d,
        let counters := (c.half d).counters
        let seen := ((first.reports turns).flatMap Report.events).flatMap (Event.deliveries c.stream d)
        let heard := (first.arrivals turns).filter fun a =>
          !a.half.isClosed && decide (a.stream = c.stream ∧ a.direction = d)
        let lost := losses.filter fun x => decide (x.stream = c.stream ∧ x.direction = d)
        counters.delivered = (seen.map fun x => x.bytes.length).sum ∧
          counters.skips = seen.countP Delivery.skip ∧
          counters.segments = heard.length ∧
          counters.buffered = heard.countP (fun a => a.fit.waits) ∧
          counters.retransmissions = heard.countP (fun a => a.fit.repeats) ∧
          counters.buffered + counters.retransmissions ≤ counters.segments ∧
          counters.discarded = (lost.map fun x => x.source.size).sum := by
  intro first s losses
  refine ⟨records_after turns first, fun r flow c hc d => ?_⟩
  intro counters seen heard lost
  let there := (first.arrivals turns).filter fun a => decide (a.stream = c.stream ∧ a.direction = d)
  -- each counter counts what was handed over, what arrived and what was lost
  have hfield : ∀ φ : Counters → Nat, φ 0 = 0 → (∀ a b, φ (a + b) = φ a + φ b) →
      φ counters = (seen.map fun x => φ x.tally).sum +
        ((there.map fun a => φ a.tally).sum + (lost.map fun x => φ x.tally).sum) := by
    intro φ hzero hadd
    have hcounters := (counted_after registries ceilings turns).live r flow c hc d
    rw [tally, Reassembly.tallies_eq] at hcounters
    rw [← Counters.sum_map_field hzero hadd, ← Counters.sum_map_field hzero hadd,
      ← Counters.sum_map_field hzero hadd, ← hadd, ← hadd]
    exact congrArg φ hcounters
  -- some count the segments with a property that find the half-stream open, and nothing else
  have hsegments : ∀ (φ : Counters → Nat) (p : Fit → Bool), φ 0 = 0 → (∀ a b, φ (a + b) = φ a + φ b) →
      (∀ x : Delivery, φ x.tally = 0) → (∀ x : Loss, φ x.tally = 0) →
      (∀ a : Arrival, φ a.tally = if p a.fit && !a.half.isClosed then 1 else 0) →
      φ counters = heard.countP fun a => p a.fit := by
    intro φ p hzero hadd hseen hlost harrival
    have hheard : heard = there.filter fun a => !a.half.isClosed := List.filter_filter.symm
    rw [hfield φ hzero hadd, Counters.sum_map_eq_zero hseen, Counters.sum_map_eq_zero hlost, Nat.zero_add,
      Nat.add_zero, hheard, List.countP_filter, ← Counters.sum_indicator]
    exact congrArg List.sum (List.map_congr_left fun a _ => harrival a)
  have hcount : counters.segments = heard.length := by
    have hall := hsegments Counters.segments (fun _ => true) rfl (fun _ _ => rfl) (fun _ => rfl)
      (fun _ => rfl) fun a => by rw [a.tally_eq]; cases a.half.isClosed <;> rfl
    rwa [List.countP_true] at hall
  have hdelivered := hfield Counters.delivered rfl fun _ _ => rfl
  rw [Counters.sum_map_eq_zero (fun a => (a.tally_quiet).1) there,
    Counters.sum_map_eq_zero (f := fun x : Loss => x.tally.delivered) (fun _ => rfl)] at hdelivered
  have hskips := hfield Counters.skips rfl fun _ _ => rfl
  rw [Counters.sum_map_eq_zero (fun a => (a.tally_quiet).2.1) there,
    Counters.sum_map_eq_zero (f := fun x : Loss => x.tally.skips) (fun _ => rfl)] at hskips
  have hdiscarded := hfield Counters.discarded rfl fun _ _ => rfl
  rw [Counters.sum_map_eq_zero (fun a => (a.tally_quiet).2.2) there,
    Counters.sum_map_eq_zero (f := fun x : Delivery => x.tally.discarded) (fun _ => rfl), Nat.zero_add,
    Nat.zero_add] at hdiscarded
  refine ⟨hdelivered, hskips.trans (Counters.sum_indicator Delivery.skip seen), hcount, ?_, ?_, ?_,
    hdiscarded⟩
  · refine hsegments Counters.buffered Fit.waits rfl (fun _ _ => rfl) (fun _ => rfl) (fun _ => rfl) fun a => ?_
    rw [a.tally_eq]
    cases a.half.isClosed <;> cases a.fit.waits <;> rfl
  · refine hsegments Counters.retransmissions Fit.repeats rfl (fun _ _ => rfl) (fun _ => rfl) (fun _ => rfl)
      fun a => ?_
    rw [a.tally_eq]
    cases a.half.isClosed <;> cases a.fit.repeats <;> rfl
  · -- no segment is both
    have hboth := hsegments (fun n => n.buffered + n.retransmissions) (fun fit => fit.waits || fit.repeats)
      rfl (fun a b => Nat.add_add_add_comm ..) (fun _ => rfl) (fun _ => rfl) fun a => by
        rw [a.tally_eq]
        cases a.half.isClosed <;> cases a.fit <;> rfl
    rw [hcount]
    exact Nat.le_trans (Nat.le_of_eq hboth) List.countP_le_length

/-- A page of a stream is given up for another conversation, which then gives it up itself.  A piece that comes
with an arena without pages is dropped, and the consumer breaks down when it is handed what follows the gap. -/
def turnsOfLosses : List Turn :=
  [.ofSegment 0 1000 80 9 .syn [], .ofSegment 0 1000 80 20 ⟨0⟩ [97, 98],
    .ofSegment 0 1000 80 20 ⟨0⟩ [97, 98], .ofSegment 0 1001 80 50 ⟨0⟩ [99],
    { deed := .act 0 1 (.receive {} [] ⟨.v4 1, .v4 1⟩
        { srcPort := 1000, dstPort := 80, seq := .ofNat 30, flags := ⟨0⟩, payload := [100, 101, 102] }) },
    { Turn.ofSegment 0 1000 80 22 ⟨0⟩ [103] with fails := fun event => event.call == .delivery }]

theorem counters_agree_after_losses :
    let first := fresh 1 [1, 0]
    let flow := FlowId.of (Host.endpoint (.v4 1) 1000) (Host.endpoint (.v4 1) 80)
    let seen := ((first.reports turnsOfLosses).flatMap Report.events).flatMap (Event.deliveries 0 .forward)
    let losses := (first.arrivals turnsOfLosses).flatMap Arrival.losses
    ((first.reports turnsOfLosses).flatMap Report.notes).filterMap Note.loss? = [2, 1, 3] ∧
      ∃ c, (first.after turnsOfLosses).connectionAt 0 flow = some c ∧
        c.forward.counters = { segments := 5, buffered := 2, retransmissions := 1, delivered := 1,
                               discarded := 5, skips := 1 } ∧
        1 = (seen.map fun x => x.bytes.length).sum ∧ 1 = seen.countP Delivery.skip ∧ 2 + 1 ≤ 5 ∧
        5 = ((losses.filter fun x => decide (x.stream = 0 ∧ x.direction = .forward)).map fun x =>
          x.source.size).sum := by
  intro first flow seen losses
  obtain ⟨c, hc⟩ : ∃ c, (first.after turnsOfLosses).connectionAt 0 flow = some c :=
    Option.isSome_iff_exists.1 (by decide)
  have hfound : ((first.after turnsOfLosses).connectionAt 0 flow).map (fun c =>
      (c.stream, c.forward.counters)) = some (0, ⟨5, 2, 1, 1, 5, 1⟩) := by decide
  rw [hc, Option.map_some, Option.some.injEq, Prod.mk.injEq] at hfound
  obtain ⟨hstream, hcounters⟩ := hfound
  obtain ⟨hlog, hall⟩ := counters_agree 1 [1, 0] turnsOfLosses
  have hsizes : losses.map (fun x => x.source.size) = [2, 1, 3] := by decide
  have hforward := hall 0 flow c hc .forward
  rw [hstream] at hforward
  simp only [Connection.half, hcounters] at hforward
  obtain ⟨hdelivered, hskips, -, -, -, hle, hdiscarded⟩ := hforward
  exact ⟨hlog.trans hsizes, c, hc, hcounters, hdelivered, hskips, hle, hdiscarded⟩

end Session
end TcpStreams
