import Mathlib.Algebra.Order.BigOperators.Group.List
import Mathlib.Algebra.Order.Ring.Nat
import TcpStreams.Proofs.Enduring
import TcpStreams.Proofs.Sweeping

/-!
# Flushes

What a flush does, when no consumer breaks down: it winds up all connections, or those that were last active
before a time, one after the other in the order of their last activity.  Each is handed all that waits, once
and in order, and is over; its pages are back in the arena, and the others are left alone.

* `HalfStream.Tidy.pages_of_moves`: moves hand on whole pages of a tidy half-stream, one after the other.
* `Connection.HandsAll`: what a connection is handed in the end is all that waits in a direction.
* `Reassembly.Flushes`: what winding up some connections leads to.
* `Session.flushes_exact`: which connections a flush winds up, and what that leads to.
-/

namespace TcpStreams

/-! ## What is handed on in the end -/

namespace HalfStream

variable {base : SeqNum} {h h' : HalfStream} {leaps : Bool} {cs : List Chunk}

/-- **Moves hand on whole pages** of a tidy half-stream, one after the other. -/
theorem Tidy.pages_of_moves (ht : Tidy base h) (hm : Moves leaps h cs h') :
    cs.map (fun k => (k.seq, k.source)) ++ h'.pages.map (fun p => (p.seq, Source.page p)) =
      h.pages.map fun p => (p.seq, Source.page p) := by
  induction hm with
  | refl _ => rfl
  | head hmove _ ih =>
      rw [List.map_append, List.append_assoc, ih (ht.move hmove)]
      cases hmove with
      | free hp hb =>
          -- no page of a tidy half-stream is behind
          rw [ht.not_behind (hp ▸ List.mem_cons_self ..)] at hb
          cases hb
      | trim hp hb =>
          rw [ht.trimmed_eq (hp ▸ List.mem_cons_self ..), hp]
          rfl
      | hand hp hb hc hn =>
          rw [ht.trimmed_eq (hp ▸ List.mem_cons_self ..), hp]
          rfl

end HalfStream

/-- In a window the cells of data ascend. -/
theorem pairwise_offset_cells {base seq : SeqNum} {data : List UInt8}
    (hw : base.offset seq + data.length ≤ SeqNum.reach) :
    ((cells seq data).map fun x => base.offset x.1).Pairwise (· < ·) := by
  have hreach : SeqNum.reach = 0x7fffffff := rfl
  induction data generalizing seq with
  | nil => exact .nil
  | cons byte rest ih =>
      rw [List.length_cons] at hw
      have hadv := SeqNum.offset_advance base seq (n := 1) (by omega)
      refine List.pairwise_cons.2 ⟨fun i hi => ?_, ih (by omega)⟩
      obtain ⟨x, hx, rfl⟩ := List.mem_map.1 hi
      have hle := (@offset_of_mem_cells base _ _ _ hx (by omega)).1
      show base.offset seq < base.offset x.1
      omega

/-- So do those of pages that are spread out. -/
theorem Backlog.Spread.pairwise_offset {base : SeqNum} {lo : Nat} {pages : List Page}
    (h : Spread base SeqNum.reach lo pages) :
    ((pages.flatMap Page.cells).map fun x => base.offset x.1).Pairwise (· < ·) := by
  have hreach : SeqNum.reach = 0x7fffffff := rfl
  induction pages generalizing lo with
  | nil => exact .nil
  | cons page rest ih =>
      have hhi : base.offset page.seq + page.bytes.length ≤ SeqNum.reach := h.2.2.1
      rw [List.flatMap_cons, List.map_append, List.pairwise_append]
      refine ⟨pairwise_offset_cells hhi, ih h.2.2.2, fun i hi j hj => ?_⟩
      obtain ⟨x, hx, rfl⟩ := List.mem_map.1 hi
      obtain ⟨y, hy, rfl⟩ := List.mem_map.1 hj
      obtain ⟨q, hq, hy⟩ := List.mem_flatMap.1 hy
      have hqhi : base.offset q.seq + q.bytes.length ≤ SeqNum.reach := (h.2.2.2.mem hq).2.2
      have hlt := (@offset_of_mem_cells base _ _ _ hx (by omega)).2
      have hle := (@offset_of_mem_cells base _ _ _ hy (by omega)).1
      have hbetween : base.offset page.seq + page.bytes.length ≤ base.offset q.seq := h.head_le hq
      omega

namespace Connection

variable {ceiling : Nat} {c : Connection} {d : Direction} {base : SeqNum}

/-- What a connection is handed when it is wound up. -/
def parting (c : Connection) : List Delivery := c.close.chunks.map (Chunk.delivery [])

/-- What it is handed of a direction. -/
def partingOf (c : Connection) (d : Direction) : List Delivery :=
  c.parting.filter fun x => decide (x.direction = d)

theorem partingOf_eq (c : Connection) (d : Direction) :
    c.partingOf d = (Chunk.ofDirection d c.close.chunks).map (Chunk.delivery []) := by
  rw [partingOf, parting, List.filter_map]
  rfl

/-- What comes from the opener is handed on first. -/
theorem parting_eq (hs : c.Sane ceiling) : c.parting = c.partingOf .forward ++ c.partingOf .reverse := by
  obtain ⟨f, hmf, -, hvf⟩ := @closeIn_moves c .forward (hs.closed _)
  have hother : (c.closeIn .forward).value.half .reverse = c.half .reverse := by
    rw [hvf]
    rfl
  obtain ⟨r, hmr, -, -⟩ := @closeIn_moves (c.closeIn .forward).value .reverse (hother ▸ hs.closed _)
  rw [hother] at hmr
  have hforward : ∀ k ∈ (c.closeIn .forward).chunks, k.direction = .forward :=
    fun k hk => (hmf.direction.2.2 k hk).trans (hs.sided .forward)
  have hreverse : ∀ k ∈ ((c.closeIn .forward).value.closeIn .reverse).chunks, k.direction = .reverse :=
    fun k hk => (hmr.direction.2.2 k hk).trans (hs.sided .reverse)
  have hchunks : c.close.chunks = (c.closeIn .forward).chunks ++
      ((c.closeIn .forward).value.closeIn .reverse).chunks := rfl
  rw [partingOf_eq, partingOf_eq, parting, hchunks, Chunk.ofDirection_append, Chunk.ofDirection_append,
    Chunk.ofDirection_eq_self hforward, Chunk.ofDirection_eq_self hreverse,
    Chunk.ofDirection_eq_nil hforward Direction.reverse.opposite_ne,
    Chunk.ofDirection_eq_nil hreverse Direction.forward.opposite_ne, List.append_nil, List.nil_append,
    List.map_append]

/-- What a connection is handed of a direction in the end is all that waits there, in the order of the
numbers. -/
structure HandsAll (base : SeqNum) (c : Connection) (d : Direction) : Prop where
  /-- Every page is handed on whole, once, and nothing else is. -/
  pages : (c.partingOf d).map (fun x => (x.seq, x.bytes)) = (c.half d).pages.map fun p => (p.seq, p.bytes)
  /-- The numbers of the bytes go up. -/
  ascending : ((c.half d).held.map fun x => base.offset x.1).Pairwise (· < ·)

/-- **All that waits is handed on** in a window. -/
theorem handsAll (hs : c.Sane ceiling) (ht : HalfStream.Tidy base (c.half d)) : c.HandsAll base d := by
  obtain ⟨-, -, hhalf⟩ := close_moves hs
  obtain ⟨h', hm, hempty, -⟩ := hhalf d
  have hpages := ht.pages_of_moves hm
  rw [hempty, List.map_nil, List.append_nil] at hpages
  refine ⟨?_, ht.spread.pairwise_offset⟩
  have hbytes := congrArg (List.map fun x : SeqNum × Source => (x.1, x.2.bytes [])) hpages
  rw [List.map_map, List.map_map] at hbytes
  rw [partingOf_eq, List.map_map]
  exact hbytes

end Connection

/-! ## Winding up -/

namespace Reassembly

variable {s : Reassembly} {fails : Event → Bool} {cs : List Connection} {c : Connection} {ceiling : Nat}

/-- What winding up some connections leads to, one after the other. -/
structure Flushes (s : Reassembly) (cs : List Connection) (o : Outcome Nat) : Prop where
  /-- They are counted. -/
  result : o.result = .ok cs.length
  /-- Each is handed what waits in it, in one delivery, and is over; no other consumer hears of it. -/
  events : o.events =
    cs.flatMap fun c => [.delivered c.stream c.flow c.parting, .completed c.stream c.flow]
  /-- They are gone; the others are as they were, in the order that they were in. -/
  entries : o.state.registry.entries =
    s.registry.entries.filter fun e => decide (e.flow ∉ cs.map Connection.flow)
  /-- Their pages are not out any more. -/
  inUse : o.state.arena.inUse + (cs.map Connection.pageCount).sum = s.arena.inUse
  /-- They are kept for the next requests, blank. -/
  free : o.state.arena.free =
    List.replicate (cs.map Connection.pageCount).sum Page.blank ++ s.arena.free

/-- One connection is wound up: it is gone, and its pages come back. -/
theorem windUp_exact (hd : s.DistinctFlows) (hok : ∀ event, fails event = false)
    (hc : c ∈ s.connections) :
    (s.windUp fails c.flow).result = .ok true ∧
      (s.windUp fails c.flow).state.registry = s.registry.erase c.flow ∧
      ∃ pages, pages.length = c.pageCount ∧
        (s.windUp fails c.flow).state.arena = s.arena.giveAll pages := by
  obtain ⟨hstate, hresult, -⟩ := windUp_known hok (find?_of_mem hd hc)
  have hcount := c.pageCount_close_add
  rw [Yield.released] at hcount
  rw [hstate, hresult]
  refine ⟨rfl, ?_, (c.close.freed ++ Chunk.pages c.close.chunks) ++ c.close.value.pages, ?_, ?_⟩
  · rw [← c.close_ends.1.flow]
    exact Registry.erase_replace ..
  · have hpages : c.close.value.pages.length = c.close.value.pageCount := List.length_append
    rw [List.length_append, List.length_append, hpages]
    omega
  · rw [Arena.giveAll_append, Arena.giveAll_append]

/-- **Several connections are wound up**: they are counted and gone, and their pages come back. -/
theorem windUpAll_exact (hd : s.DistinctFlows) (hok : ∀ event, fails event = false)
    (hcs : ∀ c ∈ cs, c ∈ s.connections) (hdistinct : (cs.map Connection.flow).Nodup) :
    let o := s.windUpAll fails (cs.map Connection.flow)
    o.result = .ok cs.length ∧
      o.state.registry.entries =
        s.registry.entries.filter (fun e => decide (e.flow ∉ cs.map Connection.flow)) ∧
      ∃ pages, pages.length = (cs.map Connection.pageCount).sum ∧
        o.state.arena = s.arena.giveAll pages := by
  induction cs generalizing s with
  | nil => exact ⟨rfl, by simp [windUpAll, answer], [], rfl, rfl⟩
  | cons c rest ih =>
      obtain ⟨hfirst, hrest⟩ := List.nodup_cons.1 hdistinct
      obtain ⟨hfound, hregistry, pages, hpages, harena⟩ :=
        windUp_exact hd hok (hcs c (List.mem_cons_self ..))
      -- the others are still there
      have hleft : ∀ x ∈ rest, x ∈ (s.windUp fails c.flow).state.connections := fun x hx => by
        rw [connections_erase _ hregistry, List.mem_filter, decide_eq_true_iff]
        exact ⟨hcs x (List.mem_cons_of_mem _ hx), fun hf => hfirst (hf ▸ List.mem_map_of_mem hx)⟩
      obtain ⟨hcount, hentries, pages', hpages', harena'⟩ := ih (hd.erase hregistry) hleft hrest
      obtain ⟨hstate, -⟩ := windUpAll_of_ok hfound (rest.map Connection.flow)
      simp only [List.map_cons, hstate]
      refine ⟨?_, ?_, pages ++ pages', ?_, ?_⟩
      · simp only [windUpAll, Outcome.andThen, hfound, hcount, answer, if_true, List.length_cons]
      · rw [hentries, hregistry, Registry.erase, List.filter_filter]
        refine List.filter_congr fun e _ => ?_
        simp [Bool.and_comm]
      · rw [List.length_append, hpages, hpages', List.sum_cons]
      · rw [harena', harena, Arena.giveAll_append]

/-- **Some connections are wound up**, in any order. -/
theorem Underway.flushes (hs : s.Underway) (hok : ∀ event, fails event = false)
    (hcs : cs.Subperm s.connections) (hout : s.registry.waiting ≤ s.arena.inUse) :
    s.Flushes cs (s.windUpAll fails (cs.map Connection.flow)) := by
  have hmem : ∀ c ∈ cs, c ∈ s.connections := fun c hc => hcs.subset hc
  have hdistinct := nodup_of_subperm hs.distinct hcs
  obtain ⟨part, hperm, hsub⟩ := hcs
  have hle : (cs.map Connection.pageCount).sum ≤ s.registry.waiting := by
    rw [← (hperm.map Connection.pageCount).sum_nat]
    exact (hsub.map Connection.pageCount).sum_le_sum fun _ _ => Nat.zero_le _
  obtain ⟨hresult, hentries, pages, hpages, harena⟩ := windUpAll_exact hs.distinct hok hmem hdistinct
  refine ⟨hresult, (hs.windUpAll hok hmem hdistinct).events, hentries, ?_, ?_⟩
  · rw [harena, Arena.inUse_giveAll, hpages]
    omega
  · rw [harena, (Arena.free_giveAll ..).1, hpages]

/-- The connections without activity since a time are wound up, in the order of their last activity. -/
theorem Underway.flushes_flushBefore (hs : s.Underway) (hok : ∀ event, fails event = false)
    (hout : s.registry.waiting ≤ s.arena.inUse) (cutoff : Nat) :
    ∃ cs, cs.Sublist s.connections ∧
      cs.map Connection.flow = (s.registry.activity.filter fun v => decide (v.2 < cutoff)).map Prod.fst ∧
      s.Flushes cs (s.flushBefore fails cutoff) := by
  let idle := s.registry.entries.filter fun e => decide (e.lastUsed < cutoff)
  have hsub : (idle.map Entry.connection).Sublist s.connections := List.filter_sublist.map _
  have hflows : (idle.map Entry.connection).map Connection.flow = s.registry.idleFlows cutoff :=
    List.map_map ..
  refine ⟨idle.map Entry.connection, hsub, ?_, ?_⟩
  · rw [hflows, Registry.activity, List.filter_map, List.map_map]
    rfl
  · have hwound := hs.flushes hok hsub.subperm hout
    rw [hflows] at hwound
    rw [Reassembly.flushBefore, Outcome.andThen, hwound.result]
    exact ⟨rfl, (List.append_nil _).trans hwound.events, hwound.entries, hwound.inUse, hwound.free⟩

/-- All connections are wound up, in an order of choice. -/
theorem Underway.flushes_flushAll (hs : s.Underway) (hok : ∀ event, fails event = false)
    (hout : s.registry.waiting ≤ s.arena.inUse) (order : List FlowId) :
    ∃ cs, cs.Perm s.connections ∧ cs.map Connection.flow = s.registry.flowsIn order ∧
      let o := s.flushAll fails order
      s.Flushes cs o ∧ o.state.registry.entries = [] ∧
        o.state.arena.inUse + s.registry.waiting = s.arena.inUse := by
  have hperm := connectionsIn_perm hs.distinct order
  have hflows := map_flow_connectionsIn hs.distinct order
  have hwound := hs.flushes hok hperm.subperm hout
  rw [hflows] at hwound
  refine ⟨s.connectionsIn order, hperm, hflows, hwound, ?_, ?_⟩
  · refine hwound.entries.trans (List.filter_eq_nil_iff.2 fun e he => ?_)
    have hmem : e.flow ∈ (s.connectionsIn order).map Connection.flow :=
      hflows ▸ (s.registry.flowsIn_perm order).symm.subset (List.mem_map_of_mem he)
    simpa using hmem
  · have hsum : s.registry.waiting = ((s.connectionsIn order).map Connection.pageCount).sum :=
      (hperm.map Connection.pageCount).sum_nat.symm
    rw [hsum]
    exact hwound.inUse

end Reassembly

/-! ## Sessions -/

namespace Session

/-- The pages that are out wait in live connections, or were taken directly. -/
theorem inUse_after {registries ceiling : Nat} {turns : List Turn} (hcalm : ∀ t ∈ turns, t.Calm)
    (hin : ∀ t ∈ turns, t.deed.Within registries 1) :
    let s := (fresh registries [ceiling]).after turns
    (s.arena 0).inUse = s.waiting + s.inSlots := by
  obtain ⟨-, hbalanced⟩ := balanced_trades (shared_fresh registries ceiling) hcalm hin
  rw [pagesOut_fresh] at hbalanced
  exact (hbalanced.inUse 0 rfl).trans (Nat.zero_add _)

/-- **Flushes are exact.** Let any number of reassemblers share one registry, let nobody else but those who
take pages directly share the arena, and let no consumer break down.  After any list of turns, whatever the
clock reads:

The registry knows of every live connection when it was last active, which is the time of the last segment
or look-up of its conversation, and has the connections in the order of those.

A flush winds up the connections that were last active before the cutoff, in the order of their last
activity, and counts them.  A flush of all winds up all connections, in any order of their conversations that
may be chosen; then no connection is left, and the pages that are out are those taken directly.  Each connection is handed what
waits in it, in one delivery, and is over; it is gone, and its pages are kept for the next requests.  The
others are as they were, in the order that they were in, and nothing is heard of them.

What a connection is handed is first what waits of its opener, then what waits of the other one, and of each
that sent segments of one window, all of it, once, in the order of the numbers. -/
theorem flushes_exact (ceiling : Nat) (turns : List Turn) (hcalm : ∀ t ∈ turns, t.Calm)
    (hin : ∀ t ∈ turns, t.deed.Within 1 1) (fails : Event → Bool) (hok : ∀ event, fails event = false) :
    let first := fresh 1 [ceiling]
    let s := first.after turns
    let r := s.state 0 0
    r.registry.activity =
        (Visit.latest (visits 0 turns)).filter (fun v => decide (v.1 ∈ r.registry.flows)) ∧
      (∀ v ∈ r.registry.activity, ∃ earlier later, visits 0 turns = earlier ++ v :: later ∧
        ∀ w ∈ later, w.1 ≠ v.1) ∧
      (∀ cutoff, ∃ cs, cs.Sublist r.connections ∧
        cs.map Connection.flow = (r.registry.activity.filter fun v => decide (v.2 < cutoff)).map Prod.fst ∧
        r.Flushes cs (r.flushBefore fails cutoff)) ∧
      (∀ order, (r.registry.flowsIn order).Perm r.registry.flows ∧
        r.flushAll fails order = r.windUpAll fails (r.registry.flowsIn order)) ∧
      (∀ order, order.Perm r.registry.flows → ∃ cs, cs.Perm r.connections ∧
        cs.map Connection.flow = order ∧ r.flushAll fails order = r.windUpAll fails order ∧
        let o := r.windUpAll fails order
        r.Flushes cs o ∧ o.state.registry.entries = [] ∧ o.state.arena.inUse = s.inSlots) ∧
      (r.connections.map Connection.stream).Nodup ∧
      ∀ c ∈ r.connections, c.parting = c.partingOf .forward ++ c.partingOf .reverse ∧
        ∀ d base, (∀ a ∈ first.arrivals turns, a.stream = c.stream → a.direction = d → a.InWindow base) →
          c.HandsAll base d := by
  intro first s r
  have hsolvent := (solvent_fresh 1 ceiling).after hin
  have hsound := hsolvent.sound 0 Nat.one_pos
  have hunder := ((underway_fresh 1 [ceiling]).after hcalm hin).1.state 0 0
  -- the registry is the only one
  have hwaiting : s.waiting = r.registry.waiting := by
    obtain ⟨registry, hregistry⟩ := List.length_eq_one_iff.1 hsolvent.shared.registries
    have hr : r.registry = registry := by
      show s.registries.getD 0 {} = registry
      rw [hregistry]
      rfl
    rw [waiting, hregistry, hr]
    exact Nat.add_zero _
  have hinUse : r.arena.inUse = r.registry.waiting + s.inSlots := hwaiting ▸ inUse_after hcalm hin
  have hout : r.registry.waiting ≤ r.arena.inUse := hinUse ▸ Nat.le_add_right ..
  refine ⟨activity_eq 1 [ceiling] 0 turns, fun v hv => exists_last_visit 1 [ceiling] 0 turns hv,
    fun cutoff => hunder.flushes_flushBefore hok hout cutoff,
    fun order => ⟨r.registry.flowsIn_perm order, rfl⟩, fun order hperm => ?_, hsound.streams,
    fun c hc => ?_⟩
  · have hflush : r.flushAll fails order = r.windUpAll fails order := by
      rw [Reassembly.flushAll, Registry.flowsIn_of_perm hperm]
    obtain ⟨cs, hcs, hflows, hwound, hempty, hleft⟩ := hunder.flushes_flushAll hok hout order
    rw [Registry.flowsIn_of_perm hperm] at hflows
    rw [hflush] at hwound hempty hleft
    have hslots := hleft.trans (hinUse.trans (Nat.add_comm ..))
    exact ⟨cs, hcs, hflows, hflush, hwound, hempty, Nat.add_right_cancel hslots⟩
  · have hsane := hsound.sane c hc
    refine ⟨Connection.parting_eq hsane, fun d base hw => Connection.handsAll hsane ?_⟩
    have hlive : s.connectionAt 0 c.flow = some c := Reassembly.find?_of_mem hsound.flows hc
    exact ((formed_of_fresh hw 0 c.flow c hlive).2 rfl).tidy

/-- A byte of one of several clients, at a time. -/
def turnAt (now : Nat) (client : UInt16) (seq : Nat) (byte : UInt8) : Turn :=
  { Turn.ofSegment 0 client 80 seq ⟨0⟩ [byte] with now }

/-- The conversation of a client. -/
def flowOf (client : UInt16) : FlowId := .of (Host.endpoint (.v4 1) client) (Host.endpoint (.v4 1) 80)

/-- Two clients send; the first one is heard again after the other, and a page is taken directly. -/
def turnsOverTime : List Turn :=
  [turnAt 1 1000 15 97, turnAt 2 2000 20 98, { deed := .take 0 (.ofNat 7) }, turnAt 3 1000 10 99]

theorem flushes_exact_by_activity :
    (∀ t ∈ turnsOverTime, t.Calm) ∧ (∀ t ∈ turnsOverTime, t.deed.Within 1 1) ∧
      (∀ event : Event, (fun _ => false) event = false) ∧
      let s := (fresh 1 [8]).after turnsOverTime
      let r := s.state 0 0
      let calm : Event → Bool := fun _ => false
      r.registry.activity = [(flowOf 2000, 2), (flowOf 1000, 3)] ∧
        (r.connections.map fun c => c.parting.map fun x => (x.seq, x.skip, x.bytes)) =
          [[(.ofNat 20, true, [98])], [(.ofNat 10, true, [99]), (.ofNat 15, true, [97])]] ∧
        (∃ cs, cs.map Connection.flow = [flowOf 2000] ∧ r.Flushes cs (r.flushBefore calm 3)) ∧
        ∃ cs, cs.map Connection.flow = [flowOf 1000, flowOf 2000] ∧
          r.Flushes cs (r.windUpAll calm [flowOf 1000, flowOf 2000]) := by
  have hcalm : ∀ t ∈ turnsOverTime, t.Calm := by simp [turnsOverTime, turnAt, Turn.ofSegment, Turn.Calm]
  have hin : ∀ t ∈ turnsOverTime, t.deed.Within 1 1 := by decide
  obtain ⟨-, -, hidle, -, hall, -, -⟩ :=
    flushes_exact 8 turnsOverTime hcalm hin (fun _ => false) fun _ => rfl
  obtain ⟨cs, -, hflows, hwound⟩ := hidle 3
  obtain ⟨cs', -, hflows', -, hwound', -⟩ := hall [flowOf 1000, flowOf 2000] (by decide)
  exact ⟨hcalm, hin, fun _ => rfl, by decide, by decide, ⟨cs, hflows.trans (by decide), hwound⟩,
    cs', hflows', hwound'⟩

end Session
end TcpStreams
