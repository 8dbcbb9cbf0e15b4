import TcpStreams.Proofs.Granted

/-!
# Accounts of pages

Every page that is out waits in a connection, or is on its way to the consumer with a chunk and comes
back after the hand-over.  So between calls in which no consumer breaks down, as many pages are out as
wait, and a connection that is the only one has all the others for itself.

* `Yield.released`: the pages that a step gives back or hands on.
* `Connection.pageCount_relieve_add`, `Connection.pageCount_close_add`: steps of a connection lose no
  page.
* `Work.Owes`: the pages that are out while a segment is worked in.
* `Reassembly.Tallied`: as many pages are out as wait.
-/

namespace TcpStreams

/-- The pages that chunks carry. -/
def Chunk.pages (cs : List Chunk) : List Page := cs.filterMap fun chunk => chunk.source.page?

theorem Chunk.pages_append (cs cs' : List Chunk) : pages (cs ++ cs') = pages cs ++ pages cs' :=
  List.filterMap_append

/-- The number of pages that a step gives back or hands on. -/
def Yield.released {α : Type} (y : Yield α) : Nat := y.freed.length + (Chunk.pages y.chunks).length

namespace Yield

variable {α β : Type} {y : Yield α} {f : α → Yield β}

theorem released_andThen (y : Yield α) (f : α → Yield β) :
    (y.andThen f).released = y.released + (f y.value).released := by
  simp only [released, andThen, Chunk.pages_append, List.length_append]
  omega

/-- Steps that lose no page, one after the other, lose none. -/
theorem add_andThen {m : α → Nat} {n : β → Nat} {total : Nat}
    (hy : m y.value + y.released = total) (hf : ∀ a, n (f a).value + (f a).released = m a) :
    n (y.andThen f).value + (y.andThen f).released = total := by
  have hnext := hf y.value
  rw [released_andThen]
  show n (f y.value).value + _ = total
  omega

end Yield

/-! ## Half-streams -/

namespace Backlog

theorem length_run (next : SeqNum) (pages : List Page) :
    (run next pages).waiting.length + (run next pages).behind.length +
      (run next pages).ready.length = pages.length := by
  induction pages generalizing next with
  | nil => rfl
  | cons page rest ih =>
      have hsame := ih next
      have hmoved := ih (cutTo next page).stop
      simp only [run]
      split
      · simp only [List.length_cons]
        omega
      · split
        · simp only [List.length_cons]
          omega
        · simp

theorem length_settle (next : SeqNum) (pages : List Page) :
    (settle next pages).2.length + (settle next pages).1.length = pages.length := by
  induction pages with
  | nil => rfl
  | cons page rest ih =>
      simp only [settle]
      split
      · simp only [List.length_cons]
        omega
      · simp

end Backlog

namespace HalfStream

variable {h : HalfStream} {page : Page}

theorem handOnPages_pages (h : HalfStream) (pages : List Page) :
    (h.handOnPages pages).1.pages = h.pages ∧ Chunk.pages (h.handOnPages pages).2 = pages := by
  induction pages generalizing h with
  | nil => exact ⟨rfl, rfl⟩
  | cons page rest ih =>
      obtain ⟨hpages, hchunks⟩ := ih (h.handOn (.page page) page.seq page.size).1
      exact ⟨hpages, congrArg (page :: ·) hchunks⟩

/-- Draining loses no page. -/
theorem pageCount_drain_add (h : HalfStream) :
    h.drain.value.pageCount + h.drain.released = h.pageCount := by
  cases hn : h.next with
  | none => simp [drain_of_none hn, Yield.released, Chunk.pages]
  | some next =>
      obtain ⟨hpages, hchunks⟩ := handOnPages_pages
        { h with pages := (Backlog.run next h.pages).waiting } (Backlog.run next h.pages).ready
      have hlength := Backlog.length_run next h.pages
      rw [hn] at hpages hchunks
      simp only [drain, hn, pageCount, Yield.released, hpages, hchunks]
      omega

theorem pageCount_settle_add (h : HalfStream) :
    h.settle.value.pageCount + h.settle.released = h.pageCount := by
  cases hn : h.next with
  | none => simp [HalfStream.settle, hn, Yield.released, Chunk.pages]
  | some next =>
      have hlength := Backlog.length_settle next h.pages
      simp only [HalfStream.settle, hn, pageCount, Yield.released, Chunk.pages, List.filterMap_nil,
        List.length_nil]
      omega

/-- A jump hands one page on, which no longer waits. -/
theorem pageCount_jump_add (h : HalfStream) (page : Page) :
    (h.jump page).value.pageCount + (h.jump page).released = h.pageCount + 1 := rfl

theorem released_jump (h : HalfStream) (page : Page) : (h.jump page).released = 1 := rfl

/-- A leap loses no page. -/
theorem pageCount_leap_add (h : HalfStream) :
    h.leap.value.1.pageCount + h.leap.released = h.pageCount := by
  refine Yield.add_andThen (m := pageCount) (n := fun r : HalfStream × Bool => r.1.pageCount)
    h.pageCount_settle_add ?_
  intro h
  cases hp : h.pages with
  | nil => rfl
  | cons page rest =>
      have hjump := Yield.add_andThen (f := drain) (m := pageCount) (n := pageCount)
        (pageCount_jump_add { h with pages := rest } page) pageCount_drain_add
      have hcount : h.pageCount = rest.length + 1 := by rw [pageCount, hp, List.length_cons]
      rw [hcount]
      exact hjump

/-- Sweeping gives back or hands on all the pages that it sweeps. -/
theorem released_sweep (h : HalfStream) (pages : List Page) :
    (h.sweep pages).released = pages.length := by
  induction pages generalizing h with
  | nil => rfl
  | cons page rest ih =>
      -- the first page is handed on
      have hjump : ∀ page, ((h.jump page).andThen fun h => h.sweep rest).released =
          rest.length + 1 := by
        intro page
        rw [Yield.released_andThen, ih, released_jump]
        omega
      rw [sweep]
      cases h.next with
      | none => exact hjump page
      | some next =>
          simp only
          split
          · have hrest := ih h
            simp only [Yield.released, List.length_cons] at hrest ⊢
            omega
          · exact hjump _

/-- Closing gives back or hands on all the pages that wait. -/
theorem pageCount_close_add (h : HalfStream) :
    h.close.value.pageCount + h.close.released = h.pageCount := by
  obtain ⟨h', -, hp, hv⟩ := h.close_moves
  have hclose : h.close.released = h.pageCount := by
    rw [close, Yield.released_andThen, released_sweep]
    rfl
  rw [hv, hclose, pageCount, hp]
  simp

end HalfStream

/-! ## Connections -/

namespace Connection

variable {c : Connection} {d : Direction}

/-- A step on one half-stream that loses no page. -/
theorem pageCount_setHalf_add {h : HalfStream} {released : Nat}
    (hh : h.pageCount + released = (c.half d).pageCount) :
    (c.setHalf d h).pageCount + released = c.pageCount := by
  rw [pageCount_setHalf, pageCount_eq c d]
  omega

theorem pageCount_leapIn_add (c : Connection) (d : Direction) :
    (c.leapIn d).value.1.pageCount + (c.leapIn d).released = c.pageCount :=
  pageCount_setHalf_add (c.half d).pageCount_leap_add

/-- A leap loses no page. -/
theorem pageCount_leap_add (c : Connection) (d : Direction) :
    (c.leap d).value.1.pageCount + (c.leap d).released = c.pageCount := by
  refine Yield.add_andThen (m := fun r : Connection × Bool => r.1.pageCount)
    (n := fun r : Connection × Bool => r.1.pageCount) (c.pageCount_leapIn_add d) ?_
  rintro ⟨c, moved⟩
  cases moved with
  | true => rfl
  | false => exact c.pageCount_leapIn_add d.opposite

/-- **Relief loses no page.** -/
theorem pageCount_relieve_add (c : Connection) (limit : Nat) (d : Direction) :
    (c.relieve limit d).value.pageCount + (c.relieve limit d).released = c.pageCount := by
  have hwithin : ∀ fuel c, (relieveWithin limit d fuel c).value.pageCount +
      (relieveWithin limit d fuel c).released = c.pageCount := by
    intro fuel
    induction fuel with
    | zero => exact fun _ => rfl
    | succ fuel ih =>
        intro c
        rw [relieveWithin]
        split
        · refine Yield.add_andThen (m := fun r : Connection × Bool => r.1.pageCount)
            (n := pageCount) (c.pageCount_leap_add d) ?_
          rintro ⟨c, moved⟩
          cases moved with
          | true => exact ih c
          | false => rfl
        · rfl
  exact hwithin c.pageCount c

theorem pageCount_closeIn_add (c : Connection) (d : Direction) :
    (c.closeIn d).value.pageCount + (c.closeIn d).released = c.pageCount := by
  refine pageCount_setHalf_add ?_
  show HalfStream.pageCount (if _ then _ else _ : Yield HalfStream).value +
    (if _ then _ else _ : Yield HalfStream).released = _
  split
  · rfl
  · exact (c.half d).pageCount_close_add

/-- **Closing gives back or hands on all the pages that wait.** -/
theorem pageCount_close_add (c : Connection) :
    c.close.value.pageCount + c.close.released = c.pageCount :=
  Yield.add_andThen (m := pageCount) (n := pageCount) (c.pageCount_closeIn_add .forward)
    fun c => c.pageCount_closeIn_add .reverse

end Connection

/-! ## The work on a segment -/

theorem Arena.inUse_giveAll (arena : Arena) (pages : List Page) :
    (arena.giveAll pages).inUse = arena.inUse - pages.length := by
  induction pages generalizing arena with
  | nil => rfl
  | cons page rest ih =>
      refine (ih (arena.give page)).trans ?_
      simp only [Arena.give, List.length_cons]
      omega

namespace Work

variable {ceiling limit n : Nat} {d : Direction} {w : Work} {locked : List FlowId} {start : SeqNum}
  {payload : List UInt8} {ps : List Portion} {segment : Segment}

/-- Of the pages that are out, `n` wait in other connections; the others wait in the connection of the
segment, or in the chunks to hand over. -/
def Owes (n : Nat) (w : Work) : Prop :=
  w.arena.inUse = n + w.connection.pageCount + (Chunk.pages w.chunks).length

/-- A step on the connection that loses no page. -/
theorem Owes.absorb (hw : w.Owes n) {y : Yield Connection}
    (hy : y.value.pageCount + y.released = w.connection.pageCount) : (w.absorb y).Owes n := by
  rw [Owes] at hw
  rw [Yield.released] at hy
  simp only [Owes, Work.absorb, Arena.inUse_giveAll, Chunk.pages_append, List.length_append]
  omega

/-- A step on one half-stream that loses no page. -/
theorem Owes.onHalf (hw : w.Owes n) {f : HalfStream → Yield HalfStream}
    (hf : (f (w.connection.half d)).value.pageCount + (f (w.connection.half d)).released =
      (w.connection.half d).pageCount) : (w.onHalf d f).Owes n :=
  hw.absorb (Connection.pageCount_setHalf_add hf)

/-- While portions are stored whose pages the arena hands out, no page is lost. -/
theorem Owes.store (hw : w.Owes n) (hs : w.arena.Sound ceiling)
    (hg : Granted limit locked d start payload ps w) :
    (store limit locked d start payload ps w).Owes n := by
  induction ps generalizing w with
  | nil => exact hw
  | cons p rest ih =>
      obtain ⟨hspent, hg⟩ := hg
      obtain ⟨hstore, hconn, -, hchunks, hsound, hinUse⟩ :=
        @store_of_granted ceiling limit d w locked start payload hs hspent p rest
      have hrelieved : (w.relieve limit d).Owes n :=
        hw.absorb (w.connection.pageCount_relieve_add limit d)
      rw [hstore]
      refine ih ?_ hsound hg
      rw [Owes] at hrelieved ⊢
      rw [hinUse, hconn, hchunks, pageCount_hold]
      omega

/-- What arrives at a half-stream takes no page. -/
theorem released_arrive (h : HalfStream) (segment : Segment) :
    (h.arrive segment).released = 0 := by
  simp only [HalfStream.arrive, HalfStream.synchronize, Yield.released_andThen]
  split
  · split <;> rfl
  · rfl

/-- **While a segment is worked in whose pages the arena hands out, no page is lost.** -/
theorem Owes.accept (hw : w.Owes n) (hs : w.arena.Sound ceiling)
    (hg : Granted limit locked d segment.payloadSeq segment.payload (w.fit d segment).portions
      (w.arrived d segment)) : (w.accept limit locked d segment).Owes n := by
  have harrived : (w.arrived d segment).Owes n := by
    refine hw.onHalf (f := fun h => (h.arrive segment).map Prod.fst) ?_
    have hpages := (arrive_keeps (w.connection.half d) segment).1
    have hreleased := released_arrive (w.connection.half d) segment
    simp only [Yield.map, Yield.released, HalfStream.pageCount, hpages] at hreleased ⊢
    omega
  have hplaced : (w.placed limit locked d segment).Owes n := by
    rw [placed]
    cases hfit : w.fit d segment with
    | empty | behind | covered => exact harrived
    | inOrder offset =>
        refine harrived.onHalf (f := fun h => h.pass segment.payload.length offset) ?_
        simp only [HalfStream.pass]
        split <;> rfl
    | ahead pieces =>
        rw [hfit, Fit.portions] at hg
        exact harrived.store (hs.giveAll _) hg
  have hsettled : (w.settled limit locked d segment).Owes n :=
    (hplaced.onHalf (HalfStream.pageCount_drain_add _)).absorb
      (Connection.pageCount_relieve_add _ limit d)
  rw [accept_eq]
  split
  · exact hsettled.onHalf (HalfStream.pageCount_close_add _)
  · exact hsettled

end Work

/-! ## The shared state -/

namespace Reassembly

variable {ceiling : Nat} {s s' : Reassembly} {c c' : Connection} {fails : Event → Bool}
  {flow : FlowId}

/-- As many pages are out as wait. -/
def Tallied (s : Reassembly) : Prop :=
  s.arena.inUse = (s.connections.map Connection.pageCount).sum

/-- The number of pages that wait in the connections of other conversations. -/
def pagesBeside (s : Reassembly) (flow : FlowId) : Nat :=
  ((s.connections.filter fun c => decide (c.flow ≠ flow)).map Connection.pageCount).sum

/-- The conversations of the live connections are distinct. -/
def DistinctFlows (s : Reassembly) : Prop := (s.connections.map Connection.flow).Nodup

/-- The pages that wait are those of one connection and those of the others. -/
theorem sum_pageCount (hflows : s.DistinctFlows) (hc : c ∈ s.connections) :
    (s.connections.map Connection.pageCount).sum = s.pagesBeside c.flow + c.pageCount := by
  have hperm := (Upheld.touch_perm hflows hc rfl).map Connection.pageCount
  rw [← hperm.sum_nat, List.map_append, List.sum_append]
  simp [pagesBeside]

/-- A connection that goes takes its pages along. -/
theorem Tallied.erase (ht : s.Tallied) (hflows : s.DistinctFlows) (hc : c ∈ s.connections) :
    Tallied { s with registry := s.registry.erase c.flow, arena := s.arena.giveAll c.pages } := by
  have hconn : connections
      { s with registry := s.registry.erase c.flow, arena := s.arena.giveAll c.pages } =
        s.connections.filter fun x => decide (x.flow ≠ c.flow) := by
    rw [connections, connections, List.filter_map]
    rfl
  have hpages : c.pages.length = c.pageCount := List.length_append
  have hbeside : ((s.connections.filter fun x => decide (x.flow ≠ c.flow)).map
      Connection.pageCount).sum = s.pagesBeside c.flow := rfl
  rw [Tallied, sum_pageCount hflows hc] at ht
  rw [Tallied, hconn, hbeside, Arena.inUse_giveAll, hpages, ht]
  omega

/-- Putting a connection into its place leaves the others as they are. -/
theorem connections_replace (hflow : ∃ c ∈ s.connections, c.flow = c'.flow) (s' : Reassembly)
    (hs' : s'.registry = s.registry.replace c') :
    c' ∈ s'.connections ∧ (s.DistinctFlows → s'.DistinctFlows) ∧
      s'.pagesBeside c'.flow = s.pagesBeside c'.flow := by
  generalize hf : c'.flow = flow at hflow ⊢
  have hconn : s'.connections = s.connections.map fun c => if c.flow = flow then c' else c := by
    rw [connections, hs', Registry.replace, List.map_map, connections, List.map_map]
    refine List.map_congr_left fun e _ => ?_
    simp only [Function.comp, hf]
    by_cases he : e.connection.flow = flow <;> simp [Entry.flow, he]
  obtain ⟨c, hc, hcf⟩ := hflow
  refine ⟨?_, ?_, ?_⟩
  · rw [hconn]
    exact List.mem_map.2 ⟨c, hc, if_pos hcf⟩
  · have hsame : s'.connections.map Connection.flow = s.connections.map Connection.flow := by
      rw [hconn, List.map_map]
      refine List.map_congr_left fun x _ => ?_
      by_cases hx : x.flow = flow <;> simp [hx, hf]
    rw [DistinctFlows, DistinctFlows, hsame]
    exact id
  · -- the connections of other conversations are the same
    have hothers : s'.connections.filter (fun c => decide (c.flow ≠ flow)) =
        s.connections.filter fun c => decide (c.flow ≠ flow) := by
      rw [hconn]
      generalize s.connections = cs
      induction cs with
      | nil => rfl
      | cons x rest ih =>
          by_cases hx : x.flow = flow
          · simpa [hx, hf] using ih
          · simpa [hx] using ih
    rw [pagesBeside, hothers, pagesBeside]

/-- **Handing over** gives back the pages of the chunks, unless the consumer breaks down. -/
theorem tallied_handOver (hok : ∀ event, fails event = false) (hflows : s.DistinctFlows)
    (hflow : ∃ c ∈ s.connections, c.flow = c'.flow) (payload : List UInt8) (chunks : List Chunk)
    (howed : s.arena.inUse =
      s.pagesBeside c'.flow + c'.pageCount + (Chunk.pages chunks).length) :
    (s.handOver fails c' payload chunks).state.Tallied ∧
      (s.handOver fails c' payload chunks).state.DistinctFlows ∧
      c' ∈ (s.handOver fails c' payload chunks).state.connections := by
  have hstate : (s.handOver fails c' payload chunks).state =
      { s with
        registry := s.registry.replace c'
        arena := s.arena.giveAll (Chunk.pages chunks) } := by
    simp only [handOver, hok, Bool.false_eq_true, if_false]
    rfl
  obtain ⟨hmem, hdistinct, hbeside⟩ := connections_replace hflow
    { s with registry := s.registry.replace c', arena := s.arena.giveAll (Chunk.pages chunks) } rfl
  rw [hstate]
  refine ⟨?_, hdistinct hflows, hmem⟩
  rw [Tallied, sum_pageCount (hdistinct hflows) hmem, hbeside, Arena.inUse_giveAll, howed]
  omega

/-- Concluding a stream gives back the pages of its connection. -/
theorem Tallied.conclude (ht : s.Tallied) (hflows : s.DistinctFlows) (hc : c ∈ s.connections)
    (fails : Event → Bool) : (s.conclude fails c).state.Tallied := by
  simp only [Reassembly.conclude]
  split
  · exact ht
  · exact ht.erase hflows hc

/-- Looking a connection up takes no page. -/
theorem Tallied.lookUp (ht : s.Tallied) (hflows : s.DistinctFlows) (fails : Event → Bool)
    (flow : FlowId) (src : Endpoint) (now : Nat) : (s.lookUp fails flow src now).state.Tallied := by
  rw [Reassembly.lookUp, Registry.visit]
  cases hentry : s.registry.entry? flow with
  | some entry =>
      have hmem : entry.connection ∈ s.connections :=
        List.mem_map_of_mem (List.mem_of_find?_eq_some hentry)
      have hflow : entry.connection.flow = flow := by
        have := List.find?_some hentry
        exact of_decide_eq_true this
      have hperm := (Upheld.touch_perm hflows hmem hflow).map Connection.pageCount
      rw [connections, List.filter_map] at hperm
      refine Eq.trans ht (hperm.sum_nat.symm.trans (congrArg List.sum ?_))
      simp only [connections, List.map_append]
      rfl
  | none =>
      simp only
      split
      · exact ht
      · refine Eq.trans ht ?_
        simp [connections, Registry.insert, Connection.pageCount, HalfStream.pageCount,
          Connection.new, HalfStream.new]

/-- **A segment whose pages the arena hands out** leaves as many pages out as wait, unless the consumer
breaks down. -/
theorem Tallied.finish {a : Arrival} (ht : a.state.Tallied) (hs : a.state.Sound ceiling)
    (hc : a.connection ∈ a.state.connections) (hg : a.Granted)
    (hok : ∀ event, fails event = false) : (a.finish fails).state.Tallied := by
  have hbefore := hs.before hc
  have hentries := (hg.spares hbefore).1
  obtain ⟨-, hkin, -⟩ := hs.work hc
  rw [Tallied, sum_pageCount hs.flows hc] at ht
  have howes : a.work.Owes (a.state.pagesBeside a.connection.flow) := by
    have hstart : a.before.Owes (a.state.pagesBeside a.connection.flow) := ht
    cases hclosed : a.half.isClosed with
    | true =>
        obtain ⟨hconn, -, harena, hchunks⟩ := Arrival.work_of_closed hclosed
        rw [Work.Owes, hconn, harena, hchunks]
        exact ht
    | false =>
        rw [Arrival.work_of_open hclosed]
        exact hstart.accept hbefore.arena (hg hclosed)
  -- the connections are those from before, but for that of the segment
  have hconn : a.worked.connections = a.state.connections :=
    congrArg (List.map Entry.connection) hentries
  have hbeside : a.worked.pagesBeside a.work.connection.flow =
      a.state.pagesBeside a.connection.flow := by
    rw [pagesBeside, hconn, hkin.flow, pagesBeside]
  have hdistinct : a.worked.DistinctFlows := by
    rw [DistinctFlows, hconn]
    exact hs.flows
  obtain ⟨htallied, hdistinct, hmem⟩ := tallied_handOver hok hdistinct
    ⟨a.connection, hconn ▸ hc, hkin.flow.symm⟩ a.segment.payload a.work.chunks (hbeside ▸ howes)
  refine Outcome.state_andThen (P := Tallied) htallied fun _ _ => ?_
  split
  · exact htallied.conclude hdistinct hmem fails
  · exact htallied

/-- Winding a connection up gives back its pages, unless the consumer breaks down. -/
theorem Tallied.windUp (ht : s.Tallied) (hs : s.Sound ceiling) (hok : ∀ event, fails event = false)
    (flow : FlowId) : (s.windUp fails flow).state.Tallied := by
  rw [Reassembly.windUp]
  cases hfind : s.registry.find? flow with
  | none => exact ht
  | some c =>
      have hc : c ∈ s.connections := by
        obtain ⟨e, he, rfl⟩ := Option.map_eq_some_iff.1 hfind
        exact List.mem_map_of_mem (List.mem_of_find?_eq_some he)
      obtain ⟨hkin, -, -⟩ := Connection.close_moves (hs.sane c hc)
      have hclose := c.pageCount_close_add
      rw [Tallied, sum_pageCount hs.flows hc] at ht
      have hbeside : pagesBeside { s with arena := s.arena.giveAll c.close.freed } c.close.value.flow =
          s.pagesBeside c.flow := by
        rw [hkin.flow]
        rfl
      obtain ⟨htallied, hdistinct, hmem⟩ := @tallied_handOver
        { s with arena := s.arena.giveAll c.close.freed } c.close.value fails hok hs.flows
        ⟨c, hc, hkin.flow.symm⟩ [] c.close.chunks (by
          rw [Yield.released] at hclose
          rw [hbeside, Arena.inUse_giveAll, ht]
          omega)
      refine Outcome.state_andThen (P := Tallied) htallied fun _ _ => ?_
      have hdone := htallied.conclude hdistinct hmem fails
      exact Outcome.state_andThen (P := Tallied) hdone fun _ _ => hdone

/-- Of a stream that has not begun, everything is upheld. -/
theorem Sound.upheld (hs : s.Sound ceiling) :
    Upheld ceiling s.nextStream (fun _ _ _ => True) (fun _ => True) s [] [] :=
  ⟨hs, fun _ _ _ => trivial, fun _ hlt => absurd hlt (Nat.lt_irrefl _), fun _ => ⟨rfl, rfl⟩⟩

/-- Winding a connection up leaves the shared state sound. -/
theorem Sound.windUp (hs : s.Sound ceiling) (fails : Event → Bool) (flow : FlowId) :
    (s.windUp fails flow).state.Sound ceiling :=
  (hs.upheld.windUp (d := .forward) (fun _ _ => trivial) fun _ _ => trivial).sound

/-- Looking a connection up leaves the shared state sound, and finds one that is live. -/
theorem Sound.lookUp (hs : s.Sound ceiling) (fails : Event → Bool) (flow : FlowId) (src : Endpoint)
    (now : Nat) : (s.lookUp fails flow src now).state.Sound ceiling ∧
      ∀ c, (s.lookUp fails flow src now).result = .ok c →
        c ∈ (s.lookUp fails flow src now).state.connections := by
  obtain ⟨-, hup, hfound⟩ := @Upheld.lookUp _ _ _ _ s _ _ .forward fails flow src now hs.upheld
    fun _ _ _ => ⟨trivial, trivial⟩
  exact ⟨hup.sound, fun c hc => (hfound c hc).1⟩

theorem Tallied.windUpAll (ht : s.Tallied) (hs : s.Sound ceiling) (hok : ∀ event, fails event = false)
    (flows : List FlowId) : (s.windUpAll fails flows).state.Tallied :=
  (windUpAll_keeps (P := fun s => s.Tallied ∧ s.Sound ceiling)
    (fun _ flow h => ⟨h.1.windUp h.2 hok flow, h.2.windUp fails flow⟩) ⟨ht, hs⟩ flows).1

/-- A segment that arrives finds the shared state sound, and its connection in it. -/
theorem Sound.arrives (hs : s.Sound ceiling) {call : Call} {a : Arrival} (ha : a ∈ s.arrivals call) :
    a.state.Sound ceiling ∧ a.connection ∈ a.state.connections := by
  obtain ⟨path, -, hstate, hres, -⟩ := mem_arrivals ha
  obtain ⟨hsound, hfound⟩ :=
    hs.lookUp call.fails (a.segment.flow path) (a.segment.src path) call.now
  rw [← hstate]
  exact ⟨hsound, hfound a.connection hres⟩

/-- When a segment arrives, as many pages are out as wait. -/
theorem Tallied.arrives (ht : s.Tallied) (hs : s.Sound ceiling) {call : Call} {a : Arrival}
    (ha : a ∈ s.arrivals call) : a.state.Tallied := by
  obtain ⟨path, -, hstate, -⟩ := mem_arrivals ha
  exact hstate ▸ ht.lookUp hs.flows _ _ _ _

/-- **As many pages are out as wait**, after every call in which the arena hands out every page and no
consumer breaks down. -/
theorem Tallied.extend {r : History} {call : Call} (ht : r.state.Tallied)
    (hs : r.state.Sound ceiling) (hok : ∀ event, call.fails event = false)
    (hg : ∀ a ∈ r.state.arrivals call, a.Granted) : (r.extend call).state.Tallied := by
  obtain ⟨fails, now, action⟩ := call
  show (r.state.perform fails now action).state.Tallied
  have hbefore : ∀ {cutoff : Nat}, (r.state.flushBefore fails cutoff).state.Tallied :=
    Outcome.state_andThen (P := Tallied) (ht.windUpAll hs hok _) fun _ _ => ht.windUpAll hs hok _
  cases action with
  | receive config locked path segment =>
      show (r.state.receive fails config locked path segment now).state.Tallied
      cases hres : (r.state.lookUp fails (segment.flow path) (segment.src path) now).result with
      | error call =>
          rw [(@receive_of_error r.state fails config locked path segment now call hres).2.1]
          exact ht.lookUp hs.flows fails _ _ now
      | ok c =>
          obtain ⟨a, harr, -, -, hstate, -⟩ :=
            @receive_of_ok r.state fails config locked path segment now c hres
          have ha : a ∈ r.state.arrivals ⟨fails, now, .receive config locked path segment⟩ :=
            harr ▸ List.mem_singleton_self a
          obtain ⟨hsound, hc⟩ := hs.arrives ha
          rw [hstate]
          exact (ht.arrives hs ha).finish hsound hc (hg a ha) hok
  | flushAll order => exact ht.windUpAll hs hok _
  | flushBefore cutoff => exact hbefore
  | flushIdle config =>
      show (r.state.flushIdle fails config now).state.Tallied
      rcases r.state.flushIdle_cases fails config now with heq | ⟨cutoff, heq⟩
      · rw [heq]
        exact ht
      · rw [heq]
        exact hbefore
  | lookUp flow src => exact ht.lookUp hs.flows fails flow src now
  | remove flow =>
      show (r.state.remove flow).state.Tallied
      rw [Reassembly.remove]
      cases hfind : r.state.registry.find? flow with
      | none => exact ht
      | some c =>
          obtain ⟨e, he, rfl⟩ := Option.map_eq_some_iff.1 hfind
          have hflow : e.connection.flow = flow := by
            have := List.find?_some he
            exact of_decide_eq_true this
          simp only [← hflow]
          exact ht.erase hs.flows (List.mem_map_of_mem (List.mem_of_find?_eq_some he))

/-! ## A connection on its own -/

/-- Between calls of one reassembler, every connection is below its limit. -/
theorem pageCount_lt {limit : Nat} (hlimit : 0 < limit) (calls : List Call)
    (hcommon : ∀ a ∈ ((fresh ceiling).history calls).arrivals, a.config.pagesPerConnection = limit) :
    ∀ a ∈ ((fresh ceiling).history calls).arrivals, a.connection.pageCount < limit := by
  intro a ha
  have hat : a ∈ ((fresh ceiling).history calls).arrivalsAt a.stream a.direction :=
    List.mem_filter.2 ⟨ha, decide_eq_true ⟨rfl, rfl⟩⟩
  have hup := @Upheld.history ceiling a.stream
    (fun c as _ => c.pageCount < limit ∧ ∀ a ∈ as, a.connection.pageCount < limit) a.direction calls
    ?_ ?_ ?_ ?_
  · rcases hup.exists_or_fresh with ⟨-, -, hall⟩ | ⟨hnone, -⟩
    · exact hall a hat
    · rw [hnone] at hat
      cases hat
  · exact fun _ _ _ => ⟨hlimit, fun _ hx => nomatch hx⟩
  · rintro x hx hs - as ds ⟨hcount, hall⟩
    have hsame := hcommon x hx
    exact ⟨hsame ▸ Arrival.pageCount_work (hsame ▸ hlimit) (hsame ▸ hcount),
      Upheld.forall_mem_arrived hall fun _ => hcount⟩
  · exact fun _ _ _ _ => Or.inl fun x x' as ds hsheds hP =>
      ⟨Nat.lt_of_le_of_lt hsheds.pageCount_le hP.1, hP.2⟩
  · intro c as ds hs hP
    rw [Connection.pageCount_close hs]
    exact ⟨hlimit, hP.2⟩

/-- Between calls in which no consumer breaks down, with never two connections at a time, as many pages are
out as wait; so if the others suffice for every segment that arrives, the arena hands out every page. -/
theorem tallied_and_granted (calls : List Call)
    (hok : ∀ call ∈ calls, ∀ event, call.fails event = false)
    (hone : ∀ a ∈ ((fresh ceiling).history calls).arrivals, a.state.connections.length ≤ 1)
    (hroom : ∀ a ∈ ((fresh ceiling).history calls).arrivals,
      a.connection.pageCount + a.demand ≤ ceiling) :
    ((fresh ceiling).history calls).state.Tallied ∧
      ∀ a ∈ ((fresh ceiling).history calls).arrivals, a.Granted := by
  induction calls using List.reverseRecOn with
  | nil => exact ⟨rfl, fun _ ha => nomatch ha⟩
  | append_singleton calls call ih =>
      rw [history_snoc] at hone hroom ⊢
      have hlast : ∀ a ∈ ((fresh ceiling).history calls).state.arrivals call,
          a ∈ (((fresh ceiling).history calls).extend call).arrivals :=
        fun a ha => List.mem_append_right _ ha
      obtain ⟨htallied, hgranted⟩ := ih (fun c hc => hok c (List.mem_append_left _ hc))
        (fun a ha => hone a (List.mem_append_left _ ha))
        (fun a ha => hroom a (List.mem_append_left _ ha))
      have hsound := sound_history ceiling calls
      have hg : ∀ a ∈ ((fresh ceiling).history calls).state.arrivals call, a.Granted := by
        intro a ha
        obtain ⟨hs, hc⟩ := hsound.arrives ha
        have ht := htallied.arrives hsound ha
        -- the connection of the segment is the only one, so all pages that are out wait in it
        have hlone : a.state.connections = [a.connection] := by
          obtain ⟨c, hsingle⟩ : ∃ c, a.state.connections = [c] :=
            List.length_eq_one_iff.1 (Nat.le_antisymm (hone a (hlast a ha)) (List.length_pos_of_mem hc))
          rw [hsingle] at hc ⊢
          rw [List.mem_singleton.1 hc]
        refine Arrival.granted_of_room (hs.before hc) ?_
        have hfits := hroom a (hlast a ha)
        rw [Tallied, hlone] at ht
        simp only [List.map_cons, List.map_nil, List.sum_cons, List.sum_nil] at ht
        omega
      refine ⟨htallied.extend hsound (hok call (by simp)) hg, fun a ha => ?_⟩
      exact (List.mem_append.1 ha).elim (hgranted a) (hg a)

/-- A call in which a reassembler with given settings works in the data of a segment. -/
def callUnder (config : Config) (seq : Nat) (payload : List UInt8) : Call where
  fails _ := false
  now := 0
  action := .receive config [] ⟨.v4 1, .v4 2⟩
    { srcPort := 1, dstPort := 2, seq := .ofNat seq, flags := ⟨0⟩, payload }

/-- Calls under given settings in which the data of the second segment lies on both sides of the page that
waits. -/
def callsAround (config : Config) : List Call :=
  [callUnder config 10 [98], callUnder config 9 [97, 98, 99]]

/-- A valid configuration does not suffice to serve a connection on its own.  The page of the first segment
reaches the limit once a second one is stored, and both leap on to the consumer, but only at the end of the
call are they free again: the third page is refused, and the half-stream gives up its byte. -/
theorem lone_connection_refused :
    ({ totalPages := 2, pagesPerConnection := 2 } : Config).check = .ok () ∧
    (∀ call ∈ callsAround { totalPages := 2, pagesPerConnection := 2 },
      ∀ event, call.fails event = false) ∧
    (∀ a ∈ ((fresh 2).history (callsAround { totalPages := 2, pagesPerConnection := 2 })).arrivals,
      a.config = { totalPages := 2, pagesPerConnection := 2 } ∧ a.state.connections.length ≤ 1) ∧
    ((fresh 2).history (callsAround { totalPages := 2, pagesPerConnection := 2 })).state.connections.map
      (fun c => (c.half .forward).counters.discarded) = [1] ∧
    ¬ ∀ c ∈ ((fresh 2).history (callsAround
      { totalPages := 2, pagesPerConnection := 2 })).state.connections, c.Unscathed := by
  refine ⟨rfl, ?_, by decide, by decide, fun hall => ?_⟩
  · simp [callsAround, callUnder]
  · have hforward : ∀ c ∈ ((fresh 2).history (callsAround
        { totalPages := 2, pagesPerConnection := 2 })).state.connections,
        (c.half .forward).counters.discarded = 0 := fun c hc => hall c hc .forward
    revert hforward
    decide

/-- **A connection on its own is served.** Let one reassembler with a valid configuration work on a state
of its own, never with two connections at a time, and no consumer break down.  As long as the pages that
wait when a segment arrives leave room for all the pages that its data needs, which they always do if it
needs only one, no request for a page is refused, and no byte is given up. -/
theorem lone_connection_served (config : Config) (hvalid : config.check = .ok ()) (calls : List Call)
    (hok : ∀ call ∈ calls, ∀ event, call.fails event = false)
    (hone : ∀ a ∈ ((fresh config.totalPages).history calls).arrivals,
      a.config = config ∧ a.state.connections.length ≤ 1)
    (hfits : ∀ a ∈ ((fresh config.totalPages).history calls).arrivals, 1 < a.demand →
      a.connection.pageCount + a.demand ≤ config.totalPages) :
    (∀ a ∈ ((fresh config.totalPages).history calls).arrivals,
        a.Granted ∧ a.work.connection.Unscathed) ∧
      ∀ c ∈ ((fresh config.totalPages).history calls).state.connections, c.Unscathed := by
  obtain ⟨hlimit, hle⟩ := config.check_eq_ok_iff.1 hvalid
  have hbelow := pageCount_lt hlimit calls fun a ha => congrArg _ (hone a ha).1
  have hgranted := (tallied_and_granted calls hok (fun a ha => (hone a ha).2) fun a ha => ?_).2
  · obtain ⟨hlive, hworked⟩ := unscathed_of_granted calls hgranted
    exact ⟨fun a ha => ⟨hgranted a ha, hworked a ha⟩, hlive⟩
  · have hcount := hbelow a ha
    have hdemand := hfits a ha
    omega

theorem lone_connection_served_with_room :
    (∀ a ∈ ((fresh 3).history (callsAround { totalPages := 3, pagesPerConnection := 2 })).arrivals,
      a.connection.pageCount + a.demand ≤ 3) ∧
    (((fresh 3).history (callsAround
        { totalPages := 3, pagesPerConnection := 2 })).deliveries 0 .forward).map Delivery.bytes =
      [[97], [98], [99]] ∧
    (∀ a ∈ ((fresh 3).history (callsAround { totalPages := 3, pagesPerConnection := 2 })).arrivals,
      a.Granted ∧ a.work.connection.Unscathed) ∧
    ∀ c ∈ ((fresh 3).history (callsAround
      { totalPages := 3, pagesPerConnection := 2 })).state.connections, c.Unscathed := by
  have hfits : ∀ a ∈ ((fresh 3).history (callsAround
      { totalPages := 3, pagesPerConnection := 2 })).arrivals,
      a.connection.pageCount + a.demand ≤ 3 := by decide
  refine ⟨hfits, by decide, lone_connection_served { totalPages := 3, pagesPerConnection := 2 } rfl
    (callsAround _) ?_ (by decide) fun a ha _ => hfits a ha⟩
  simp [callsAround, callUnder]

end Reassembly
end TcpStreams
