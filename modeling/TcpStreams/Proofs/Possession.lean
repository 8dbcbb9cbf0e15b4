import Mathlib.Algebra.BigOperators.Group.List.Basic
import TcpStreams.Proofs.Trades
import TcpStreams.Proofs.Turns

/-!
# Who has the pages

The pages of an arena that several reassemblers share are with the connections in which they wait, with
those who took them directly, or with the arena itself, between any two calls in which no consumer breaks
down.  There are as many of them as were ever out at once.

* `Reassembly.trades`: the trades that a call makes.
* `Reassembly.balanced_trades`: they are balanced.
* `Session.trades`: the trades of one turn after the other.
* `Session.pages_accounted`: every page is accounted for.
-/

namespace TcpStreams

open Arena (Balanced)

/-- The number of pages that wait in the connections of a registry. -/
def Registry.waiting (r : Registry) : Nat :=
  ((r.entries.map Entry.connection).map Connection.pageCount).sum

namespace Reassembly

variable {s s' : Reassembly} {fails : Event → Bool} {flow : FlowId} {now : Nat} {c c' : Connection}

/-! ## The trades of a call -/

/-- The trades while a connection is wound up. -/
def windUpTrades (flow : FlowId) (s : Reassembly) : List Trade :=
  match s.registry.find? flow with
  | none => []
  | some c =>
    Trade.backAll c.close.freed ++
      (Trade.backAll (Chunk.pages c.close.chunks) ++ Trade.backAll c.close.value.pages)

/-- The trades while several connections are wound up. -/
def windUpAllTrades (fails : Event → Bool) : List FlowId → Reassembly → List Trade
  | [], _ => []
  | flow :: rest, s =>
    s.windUpTrades flow ++ windUpAllTrades fails rest (s.windUp fails flow).state

/-- The trades once a segment that arrived is worked in: the pages of its chunks come back, and if its
stream is over, those of its connection. -/
def finishTrades (a : Arrival) : List Trade :=
  Trade.backAll (Chunk.pages a.work.chunks) ++
    if a.work.connection.isOver then Trade.backAll a.work.connection.pages else []

/-- The trades that a call makes in which no consumer breaks down. -/
def trades (s : Reassembly) (call : Call) : List Trade :=
  match call.action with
  | .receive .. => (s.arrivals call).flatMap fun a => a.trades ++ finishTrades a
  | .flushAll order => windUpAllTrades call.fails (s.registry.flowsIn order) s
  | .flushBefore cutoff => windUpAllTrades call.fails (s.registry.idleFlows cutoff) s
  | .flushIdle config =>
    match config.idleSpan with
    | none => []
    | some span =>
      if span ≤ call.now then
        windUpAllTrades call.fails (s.registry.idleFlows (call.now - span)) s
      else []
  | .lookUp .. => []
  | .remove flow =>
    match s.registry.find? flow with
    | none => []
    | some c => Trade.backAll c.pages

/-! ## They are balanced -/

/-- A call, or a part of it, that keeps conversations distinct and trades as it changes the number of
pages that wait. -/
structure Settled (s : Reassembly) (ts : List Trade) (s' : Reassembly) : Prop where
  /-- The conversations of the live connections stay distinct. -/
  distinct : s'.DistinctFlows
  /-- The trades are balanced. -/
  balanced : Balanced s.arena ts s'.arena s.registry.waiting s'.registry.waiting

theorem Settled.refl (hd : s.DistinctFlows) : s.Settled [] s := ⟨hd, .refl _ _⟩

theorem Settled.trans {s'' : Reassembly} {ts ts' : List Trade} (h : s.Settled ts s')
    (h' : s'.Settled ts' s'') : s.Settled (ts ++ ts') s'' :=
  ⟨h'.distinct, h.balanced.trans h'.balanced⟩

theorem pagesApart_eq (s : Reassembly) (flow : FlowId) :
    pagesApart flow s.registry.entries = s.pagesBeside flow := by
  rw [pagesBeside, connections, List.filter_map, List.map_map]
  rfl

theorem waiting_eq (hd : s.DistinctFlows) (hc : c ∈ s.connections) :
    s.registry.waiting = pagesApart c.flow s.registry.entries + c.pageCount := by
  rw [pagesApart_eq]
  exact sum_pageCount hd hc

/-- A connection that goes takes its pages along. -/
theorem settled_erase (hd : s.DistinctFlows) (hc : c ∈ s.connections) :
    s.Settled (Trade.backAll c.pages)
      { s with registry := s.registry.erase c.flow, arena := s.arena.giveAll c.pages } := by
  have hconn := @connections_erase s c.flow
    { s with registry := s.registry.erase c.flow, arena := s.arena.giveAll c.pages } rfl
  have hleft : (s.registry.erase c.flow).waiting = s.pagesBeside c.flow :=
    congrArg (fun cs : List Connection => (cs.map Connection.pageCount).sum) hconn
  have hpages : c.pages.length = c.pageCount := List.length_append
  refine ⟨hd.erase rfl, (Balanced.backAll s.arena c.pages _).recount ?_ rfl⟩
  rw [hleft, hpages]
  exact sum_pageCount hd hc

/-- A connection takes the place of that of its conversation, and chunks are handed over: the pages that
they carry come back. -/
theorem settled_replace (hd : s.DistinctFlows) (hc : ∃ c ∈ s.connections, c.flow = c'.flow)
    (chunks : List Chunk) (held : Nat)
    (hheld : held = pagesApart c'.flow s.registry.entries + c'.pageCount +
      (Chunk.pages chunks).length) :
    let s' : Reassembly :=
      { s with registry := s.registry.replace c', arena := s.arena.giveAll (Chunk.pages chunks) }
    c' ∈ s'.connections ∧ s'.DistinctFlows ∧
      Balanced s.arena (Trade.backAll (Chunk.pages chunks)) s'.arena held s'.registry.waiting := by
  obtain ⟨hmem, hdistinct, hbeside⟩ := connections_replace hc
    { s with registry := s.registry.replace c', arena := s.arena.giveAll (Chunk.pages chunks) } rfl
  refine ⟨hmem, hdistinct hd, (Balanced.backAll s.arena (Chunk.pages chunks) _).recount ?_ rfl⟩
  rw [hheld, waiting_eq (hdistinct hd) hmem, pagesApart_eq, pagesApart_eq, hbeside]

theorem settled_lookUp (hok : ∀ event, fails event = false) (hd : s.DistinctFlows) (flow : FlowId)
    (src : Endpoint) (now : Nat) : s.Settled [] (s.lookUp fails flow src now).state := by
  cases h : s.registry.find? flow with
  | some c =>
      obtain ⟨-, -, hperm, harena, -⟩ := @lookUp_known s fails flow src now c hd h
      refine ⟨(hperm.map _).nodup_iff.2 hd, ?_⟩
      rw [harena]
      exact (Balanced.refl s.arena _).recount rfl (hperm.map _).sum_nat
  | none =>
      obtain ⟨-, -, hconn, harena, -⟩ := @lookUp_new s fails flow src now hok h
      refine ⟨?_, ?_⟩
      · exact hd.opened h hconn
      · rw [harena]
        refine (Balanced.refl s.arena _).recount rfl ?_
        show ((connections _).map Connection.pageCount).sum = _
        rw [hconn, List.map_append, List.sum_append]
        rfl

/-- **What a segment that arrived leads to** is balanced. -/
theorem settled_finish (hok : ∀ event, fails event = false) {a : Arrival}
    (hd : a.state.DistinctFlows) (hc : a.connection ∈ a.state.connections) :
    a.state.Settled (a.trades ++ finishTrades a) (a.finish fails).state := by
  obtain ⟨hworked, hlive⟩ := distinct_worked hd hc
  have hbefore : a.before.held = a.state.registry.waiting := by
    rw [waiting_eq hd hc]
    rfl
  have hwork := a.balanced_trades
  rw [hbefore] at hwork
  obtain ⟨hmem, hdistinct, hhanded⟩ := settled_replace hworked hlive a.work.chunks a.work.held rfl
  rw [(Arrival.finish_of_calm hok a).1, finishTrades]
  split
  · have hgone := settled_erase hdistinct hmem
    exact ⟨hgone.distinct, hwork.trans (hhanded.trans hgone.balanced)⟩
  · rw [List.append_nil]
    exact ⟨hdistinct, hwork.trans hhanded⟩

theorem settled_windUp (hok : ∀ event, fails event = false) (hd : s.DistinctFlows) (flow : FlowId) :
    s.Settled (s.windUpTrades flow) (s.windUp fails flow).state := by
  rw [windUpTrades]
  cases h : s.registry.find? flow with
  | none =>
      rw [windUp_unknown h]
      exact .refl hd
  | some c =>
      obtain ⟨hc, -⟩ := find?_eq_some h
      have hkin := c.close_ends.1
      have hcount := c.pageCount_close_add
      rw [Yield.released] at hcount
      -- first the pages that hold nothing new come back
      have hfreed := (Balanced.backAll s.arena c.close.freed (pagesApart c.flow s.registry.entries +
        c.close.value.pageCount + (Chunk.pages c.close.chunks).length)).recount
        (k := s.registry.waiting) (by rw [waiting_eq hd hc]; omega) rfl
      obtain ⟨hmem, hdistinct, hhanded⟩ := @settled_replace
        { s with arena := s.arena.giveAll c.close.freed } c.close.value hd ⟨c, hc, hkin.flow.symm⟩
        c.close.chunks _ (by rw [hkin.flow])
      have hgone := settled_erase hdistinct hmem
      rw [(windUp_known hok h).1]
      exact ⟨hgone.distinct, hfreed.trans (hhanded.trans hgone.balanced)⟩

theorem settled_windUpAll (hok : ∀ event, fails event = false) (hd : s.DistinctFlows)
    (flows : List FlowId) :
    s.Settled (windUpAllTrades fails flows s) (s.windUpAll fails flows).state := by
  induction flows generalizing s with
  | nil => exact .refl hd
  | cons flow rest ih =>
      have hfirst := settled_windUp hok hd flow
      rw [(windUpAll_cons hok flow rest s).1]
      exact hfirst.trans (ih hfirst.distinct)

theorem settled_flushBefore (hok : ∀ event, fails event = false) (hd : s.DistinctFlows)
    (cutoff : Nat) :
    s.Settled (windUpAllTrades fails (s.registry.idleFlows cutoff) s)
      (s.flushBefore fails cutoff).state := by
  have hstate : (s.flushBefore fails cutoff).state =
      (s.windUpAll fails (s.registry.idleFlows cutoff)).state := by
    rw [flushBefore, Outcome.andThen]
    split <;> rfl
  rw [hstate]
  exact settled_windUpAll hok hd _

/-- **The trades of a call are balanced**, and conversations stay distinct. -/
theorem settled_trades (hok : ∀ event, fails event = false) (hd : s.DistinctFlows) (now : Nat)
    (action : Action) :
    s.Settled (s.trades ⟨fails, now, action⟩) (s.perform fails now action).state := by
  cases action with
  | receive config locked path segment =>
      show s.Settled _ (s.receive fails config locked path segment now).state
      obtain ⟨a, harr, hstate, hres, hreceive, -⟩ := @receive_of_calm s fails now config locked path
        segment hok hd
      have hlook := settled_lookUp hok hd (segment.flow path) (segment.src path) now
      rw [← hstate] at hlook
      have hc : a.connection ∈ a.state.connections := by
        rw [hstate]
        cases h : s.registry.find? (segment.flow path) with
        | some c =>
            obtain ⟨hfound, -, hperm, -⟩ :=
              @lookUp_known s fails (segment.flow path) (segment.src path) now c hd h
            obtain rfl := Except.ok.inj (hres.symm.trans hfound)
            exact hperm.mem_iff.2 (find?_eq_some h).1
        | none =>
            obtain ⟨hopened, -, hconn, -⟩ := @lookUp_new s fails (segment.flow path) (segment.src path) now hok h
            rw [Except.ok.inj (hres.symm.trans hopened), hconn]
            exact List.mem_append_right _ (List.mem_singleton_self _)
      rw [hreceive]
      simp only [trades, harr, List.flatMap_cons, List.flatMap_nil, List.append_nil]
      exact (hlook.trans (settled_finish hok hlook.distinct hc) : s.Settled ([] ++ _) _)
  | flushAll order => exact settled_windUpAll hok hd _
  | flushBefore cutoff => exact settled_flushBefore hok hd cutoff
  | flushIdle config =>
      show s.Settled _ (s.flushIdle fails config now).state
      simp only [trades, flushIdle]
      cases config.idleSpan with
      | none => exact .refl hd
      | some span =>
          simp only
          split
          · exact settled_flushBefore hok hd _
          · exact .refl hd
  | lookUp flow src => exact settled_lookUp hok hd flow src now
  | remove flow =>
      show s.Settled _ (s.remove flow).state
      simp only [trades, remove]
      cases h : s.registry.find? flow with
      | none => exact .refl hd
      | some c =>
          obtain ⟨hc, rfl⟩ := find?_eq_some h
          exact settled_erase hd hc

end Reassembly

/-! ## Sessions -/

namespace Session

variable {s : Session} {t : Turn} {ts : List Turn}

/-- The trades while the pages of some slots come back. -/
def giveTrades (slots : List (Option Page)) : List Nat → List Trade
  | [] => []
  | slot :: rest =>
    match slots.getD slot none with
    | none => giveTrades slots rest
    | some page => .back page :: giveTrades (slots.set slot none) rest

/-- The trades of a turn with the arena that it names. -/
def turnTrades (s : Session) (t : Turn) : List Trade :=
  match t.deed with
  | .act registry arena action =>
    (s.state registry arena).trades { fails := t.fails, now := t.now, action }
  | .take _ seq => [.ask seq]
  | .give _ slots => giveTrades s.slots slots

/-- The trades of a list of turns. -/
def trades (s : Session) : List Turn → List Trade
  | [] => []
  | t :: rest => s.turnTrades t ++ (s.turn t).session.trades rest

/-- The number of pages that wait in live connections. -/
def waiting (s : Session) : Nat := (s.registries.map Registry.waiting).sum

/-- The number of pages that were taken directly and not given back. -/
def inSlots (s : Session) : Nat := s.slots.countP Option.isSome

/-- One arena is shared by all, and the conversations of every registry are distinct. -/
structure Shared (registries : Nat) (s : Session) : Prop where
  /-- There are so many registries. -/
  registries : s.registries.length = registries
  /-- There is one arena. -/
  arenas : s.arenas = [s.arena 0]
  /-- No two connections of a registry are about one conversation. -/
  distinct : ∀ r ∈ s.registries, ((r.entries.map Entry.connection).map Connection.flow).Nodup

variable {registries : Nat}

/-- The pages that all hold together, in connections and in slots. -/
def pagesOut (s : Session) : Nat := s.waiting + s.inSlots

theorem countP_isSome_set {slots : List (Option Page)} {slot : Nat} {page : Page}
    (h : slots.getD slot none = some page) :
    slots.countP Option.isSome = (slots.set slot none).countP Option.isSome + 1 := by
  rw [List.getD_eq_getElem?_getD] at h
  have hget : slots[slot]? = some (some page) := by
    cases hs : slots[slot]? with
    | none => rw [hs] at h; cases h
    | some p => rw [hs] at h; exact congrArg some h
  obtain ⟨hlt, hslot⟩ := List.getElem?_eq_some_iff.1 hget
  have hpos : 0 < slots.countP Option.isSome :=
    List.countP_pos_iff.2 ⟨some page, hslot ▸ List.getElem_mem hlt, rfl⟩
  rw [List.countP_set hlt, hslot]
  simp
  omega

/-- Putting a registry into its place changes what waits by what waits there. -/
theorem sum_waiting_set {rs : List Registry} {i : Nat} (h : i < rs.length) (r : Registry) :
    ∃ k, (rs.map Registry.waiting).sum = k + (rs.getD i {}).waiting ∧
      ((rs.set i r).map Registry.waiting).sum = k + r.waiting := by
  induction rs generalizing i with
  | nil => cases h
  | cons first rest ih =>
      cases i with
      | zero =>
          refine ⟨(rest.map Registry.waiting).sum, ?_, ?_⟩
          · simp only [List.map_cons, List.sum_cons, List.getD_cons_zero]
            omega
          · simp only [List.set_cons_zero, List.map_cons, List.sum_cons]
            omega
      | succ i =>
          obtain ⟨k, hbefore, hafter⟩ := ih (Nat.lt_of_succ_lt_succ h)
          refine ⟨first.waiting + k, ?_, ?_⟩
          · simp only [List.map_cons, List.sum_cons, List.getD_cons_succ, hbefore]
            omega
          · simp only [List.set_cons_succ, List.map_cons, List.sum_cons, hafter]
            omega

theorem Shared.arena_set (h : s.Shared registries) (arena : Arena) :
    s.arenas.set 0 arena = [arena] := by
  rw [h.arenas]
  rfl

/-- Giving the pages of slots back is balanced. -/
theorem balanced_givePages (h : s.Shared registries) (slots : List Nat) :
    (s.givePages 0 slots).1.Shared registries ∧
      Balanced (s.arena 0) (giveTrades s.slots slots) ((s.givePages 0 slots).1.arena 0) s.pagesOut
        (s.givePages 0 slots).1.pagesOut := by
  induction slots generalizing s with
  | nil => exact ⟨h, .refl _ _⟩
  | cons slot rest ih =>
      rw [givePages, giveTrades]
      cases hslot : s.slots.getD slot none with
      | none => exact ih h
      | some page =>
          let given : Session :=
            { s with
              arenas := s.arenas.set 0 ((s.arena 0).give page), slots := s.slots.set slot none }
          have harena : given.arena 0 = (s.arena 0).give page := by
            show (s.arenas.set 0 _).getD 0 _ = _
            rw [h.arena_set]
            rfl
          have hgiven : given.Shared registries := by
            refine ⟨h.registries, ?_, h.distinct⟩
            rw [harena]
            exact h.arena_set _
          obtain ⟨hshared, hrest⟩ := ih hgiven
          have hcount := countP_isSome_set hslot
          have hback := (Balanced.backAll (s.arena 0) [page] given.pagesOut).recount
            (k := s.pagesOut) (by
              show s.waiting + s.slots.countP Option.isSome =
                s.waiting + (s.slots.set slot none).countP Option.isSome + 1
              omega) rfl
          rw [harena] at hrest
          exact ⟨hshared, hback.trans hrest⟩

/-- Taking a page is balanced. -/
theorem balanced_takePage (h : s.Shared registries) (seq : SeqNum) :
    (s.takePage 0 seq).session.Shared registries ∧
      Balanced (s.arena 0) [.ask seq] ((s.takePage 0 seq).session.arena 0) s.pagesOut
        (s.takePage 0 seq).session.pagesOut := by
  have hslots : ∀ p : Option Page, (s.slots ++ [p]).countP Option.isSome =
      s.slots.countP Option.isSome + p.toList.length := by
    intro p
    rw [List.countP_append]
    cases p <;> rfl
  rw [takePage]
  cases ht : (s.arena 0).take? seq with
  | none =>
      exact ⟨⟨h.registries, h.arenas, h.distinct⟩, (Balanced.ask_none ht s.pagesOut).recount rfl
        (congrArg (s.waiting + ·) (hslots none))⟩
  | some out =>
      obtain ⟨page, left⟩ := out
      have harena : (s.arenas.set 0 left).getD 0 (Arena.ofCeiling 0) = left := by
        rw [h.arena_set]
        rfl
      refine ⟨⟨h.registries, ?_, h.distinct⟩, ?_⟩
      · exact (h.arena_set left).trans (congrArg (fun a => [a]) harena.symm)
      · show Balanced _ _ ((s.arenas.set 0 left).getD 0 (Arena.ofCeiling 0)) _ _
        rw [harena]
        exact (Balanced.ask_some ht s.pagesOut).recount rfl
          (congrArg (s.waiting + ·) (hslots (some page)))

/-- **The trades of a turn are balanced.** -/
theorem balanced_turn (h : s.Shared registries) (hcalm : t.Calm) (hin : t.deed.Within registries 1) :
    (s.turn t).session.Shared registries ∧
      Balanced (s.arena 0) (s.turnTrades t) ((s.turn t).session.arena 0) s.pagesOut
        (s.turn t).session.pagesOut := by
  obtain ⟨fails, now, deed⟩ := t
  cases deed with
  | take arena seq =>
      obtain rfl : arena = 0 := Nat.lt_one_iff.1 hin
      exact balanced_takePage h seq
  | give arena slots =>
      obtain rfl : arena = 0 := Nat.lt_one_iff.1 hin
      exact balanced_givePages h slots
  | act i arena action =>
      obtain ⟨hi, harena⟩ : i < registries ∧ arena < 1 := hin
      obtain rfl : arena = 0 := Nat.lt_one_iff.1 harena
      have hlt : i < s.registries.length := by rw [h.registries]; exact hi
      have hget : s.registries.getD i {} ∈ s.registries := by
        rw [List.getD_eq_getElem?_getD, List.getElem?_eq_getElem hlt]
        exact List.getElem_mem hlt
      have hsettled := Reassembly.settled_trades (s := s.state i 0) hcalm (h.distinct _ hget) now action
      -- what the action leads to
      rw [turn_act]
      generalize (s.state i 0).perform fails now action = o at hsettled ⊢
      have hleft : (s.arenas.set 0 o.state.arena).getD 0 (Arena.ofCeiling 0) = o.state.arena := by
        rw [h.arena_set]
        rfl
      refine ⟨⟨?_, ?_, ?_⟩, ?_⟩
      · exact List.length_set.trans h.registries
      · exact (h.arena_set o.state.arena).trans (congrArg (fun a => [a]) hleft.symm)
      · intro r hr
        rcases List.mem_or_eq_of_mem_set hr with hr | rfl
        · exact h.distinct r hr
        · exact hsettled.distinct
      · obtain ⟨k, hbefore, hafter⟩ := sum_waiting_set hlt o.state.registry
        have htrades : s.turnTrades ⟨fails, now, .act i 0 action⟩ =
            (s.state i 0).trades ⟨fails, now, action⟩ := rfl
        rw [htrades]
        show Balanced (s.arena 0) _ ((s.arenas.set 0 o.state.arena).getD 0 (Arena.ofCeiling 0)) _ _
        rw [hleft]
        refine (hsettled.balanced.frame (k + s.inSlots)).recount ?_ ?_
        · show (s.registries.map Registry.waiting).sum + s.inSlots =
            k + s.inSlots + (s.registries.getD i {}).waiting
          omega
        · show ((s.registries.set i o.state.registry).map Registry.waiting).sum + s.inSlots = _
          omega

/-- **The trades of a run are balanced.** -/
theorem balanced_trades (h : s.Shared registries) (hcalm : ∀ t ∈ ts, t.Calm)
    (hin : ∀ t ∈ ts, t.deed.Within registries 1) :
    (s.after ts).Shared registries ∧
      Balanced (s.arena 0) (s.trades ts) ((s.after ts).arena 0) s.pagesOut (s.after ts).pagesOut := by
  induction ts generalizing s with
  | nil => exact ⟨h, .refl _ _⟩
  | cons t rest ih =>
      obtain ⟨hshared, hfirst⟩ := balanced_turn h (hcalm t (List.mem_cons_self ..))
        (hin t (List.mem_cons_self ..))
      obtain ⟨hend, hrest⟩ := ih hshared (fun t ht => hcalm t (List.mem_cons_of_mem _ ht))
        fun t ht => hin t (List.mem_cons_of_mem _ ht)
      exact ⟨hend, hfirst.trans hrest⟩

theorem shared_fresh (registries ceiling : Nat) : (fresh registries [ceiling]).Shared registries := by
  refine ⟨List.length_replicate, rfl, fun r hr => ?_⟩
  rw [List.eq_of_mem_replicate hr]
  exact List.nodup_nil

theorem pagesOut_fresh (registries ceiling : Nat) : (fresh registries [ceiling]).pagesOut = 0 := by
  show ((List.replicate registries ({} : Registry)).map Registry.waiting).sum + 0 = 0
  rw [List.map_replicate]
  show (List.replicate registries 0).sum + 0 = 0
  simp

/-- **Every page is accounted for.** Let any number of reassemblers and other parties share one arena, each
reassembler with a registry that it may share with others, and let no consumer break down.  After any
list of turns, the pages that are out are those that wait in live connections and those that were taken
directly; there are no more of them than the ceiling says.  The trades of the turns lead the arena to
where it is.  In all of them no page comes back that is not out, and every page handed out is blank and
has the number asked for.  The pages that there are, out or kept, are those that the arena ever made, as
many as were ever out at once. -/
theorem pages_accounted (registries ceiling : Nat) (turns : List Turn)
    (hcalm : ∀ t ∈ turns, t.Calm) (hin : ∀ t ∈ turns, t.deed.Within registries 1) :
    let s := (fresh registries [ceiling]).after turns
    let trades := (fresh registries [ceiling]).trades turns
    let first := Arena.ofCeiling ceiling
    (s.arena 0).inUse = s.waiting + s.inSlots ∧
      (s.arena 0).inUse ≤ ceiling ∧
      first.tradeAll trades = s.arena 0 ∧
      first.Fair trades ∧
      (∀ earlier seq later page left, trades = earlier ++ .ask seq :: later →
        (first.tradeAll earlier).take? seq = some (page, left) → page = ⟨seq, []⟩) ∧
      (s.arena 0).inUse + (s.arena 0).free.length = first.peak trades ∧
      first.made trades = first.peak trades ∧ first.peak trades ≤ ceiling := by
  have hfresh := pagesOut_fresh registries ceiling
  obtain ⟨-, hbalanced⟩ := balanced_trades (shared_fresh registries ceiling) hcalm hin
  have hsound := Arena.sound_ofCeiling ceiling
  have hout := hbalanced.inUse 0 (by rw [hfresh]; rfl)
  have hfair := hbalanced.fair 0 (by rw [hfresh]; rfl)
  have htotal := Arena.total_eq_max_peak hfair
  have hmade := Arena.total_eq_made hfair
  have hleads := hbalanced.leads
  have hzero : (Arena.ofCeiling ceiling).total = 0 := rfl
  have hstart : (fresh registries [ceiling]).arena 0 = Arena.ofCeiling ceiling := rfl
  rw [hstart] at hfair htotal hmade hleads
  rw [hleads, hzero, Nat.zero_max] at htotal
  rw [hleads, hzero, Nat.zero_add, htotal] at hmade
  refine ⟨?_, ?_, hleads, hfair, ?_, htotal, hmade.symm, hsound.peak_le _⟩
  · rw [hout, Nat.zero_add, pagesOut]
  · rw [← hleads]
    exact (hsound.tradeAll _).inUse_le
  · intro earlier seq later page left _ ht
    exact ((hsound.tradeAll earlier).take? ht).1

/-- Two pages are shared: one is taken directly, the other waits and goes on to a connection of the same
registry; a connection of another registry gets none, until the first one comes back. -/
def turnsUnderPressure : List Turn :=
  [{ deed := .take 0 (.ofNat 7) }, .ofSegment 0 1000 80 20 ⟨0⟩ [97, 98],
    .ofSegment 1 1000 80 30 ⟨0⟩ [99], .ofSegment 0 2000 80 40 ⟨0⟩ [100], { deed := .give 0 [0] },
    .ofSegment 1 1000 80 30 ⟨0⟩ [99], { deed := .act 0 0 .flushAll }]

theorem pages_accounted_under_pressure :
    (∀ t ∈ turnsUnderPressure, t.Calm) ∧ (∀ t ∈ turnsUnderPressure, t.deed.Within 2 1) ∧
      let s := (fresh 2 [2]).after turnsUnderPressure
      (s.waiting, s.inSlots, (s.arena 0).free.length) = (1, 0, 1) ∧
        (s.arena 0).inUse = s.waiting + s.inSlots ∧
        (s.arena 0).inUse + (s.arena 0).free.length =
          (Arena.ofCeiling 2).peak ((fresh 2 [2]).trades turnsUnderPressure) := by
  have hcalm : ∀ t ∈ turnsUnderPressure, t.Calm := by
    simp [turnsUnderPressure, Turn.ofSegment, Turn.Calm]
  have hin : ∀ t ∈ turnsUnderPressure, t.deed.Within 2 1 := by decide
  obtain ⟨hout, -, -, -, -, hpeak, -⟩ := pages_accounted 2 2 turnsUnderPressure hcalm hin
  exact ⟨hcalm, hin, by decide, hout, hpeak⟩

end Session
end TcpStreams
