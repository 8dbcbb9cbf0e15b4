import TcpStreams.Proofs.Calls

/-!
# Trades with an arena

An arena is asked for pages and takes pages back, and nothing else.  The trades that a call makes are
listed here by recursion along the work itself, so a whole run is a list of trades, and what the arena
went through in between is as much part of it as the state that the run ends in.

Whoever trades holds some pages: those that wait, and those that chunks carry on their way to the
consumer.  `Arena.Balanced` says that a list of trades changes the number of pages that are out just as
it changes the number of pages held, so that no page comes back twice and none is forgotten.

* `Arena.peak`: the largest number of pages that were out at once.
* `Arena.Fair`: no page comes back that is not out.
* `Arena.total_eq_max_peak`, `Arena.total_eq_made`: in fair trades an arena has as many pages, out or kept,
  as were ever out at once, and it has made no others.
* `Work.acceptTrades`, `Arrival.trades`: the trades while a segment is worked in.
* `Arrival.balanced_trades`: they are balanced.
-/

namespace TcpStreams

/-- What is asked of an arena. -/
inductive Trade where
  /-- A page for the bytes from a number on is asked for. -/
  | ask (seq : SeqNum)
  /-- A page comes back. -/
  | back (page : Page)

/-- Several pages come back, one after the other. -/
def Trade.backAll (pages : List Page) : List Trade := pages.map .back

namespace Arena

/-- The arena after a trade; if it refuses a page it stays as it is. -/
def trade (arena : Arena) : Trade → Arena
  | .ask seq =>
    match arena.take? seq with
    | none => arena
    | some (_, left) => left
  | .back page => arena.give page

/-- The arena after several trades. -/
def tradeAll (arena : Arena) (ts : List Trade) : Arena := ts.foldl trade arena

/-- The largest number of pages that are out at once in the course of some trades. -/
def peak (arena : Arena) : List Trade → Nat
  | [] => arena.inUse
  | t :: ts => max arena.inUse ((arena.trade t).peak ts)

/-- The number of pages that the arena makes in a trade: one, if it hands a page out and keeps none. -/
def makes (arena : Arena) : Trade → Nat
  | .ask _ => if arena.isSpent = false ∧ arena.free = [] then 1 else 0
  | .back _ => 0

/-- The number of pages that the arena makes in the course of some trades. -/
def made (arena : Arena) : List Trade → Nat
  | [] => 0
  | t :: ts => arena.makes t + (arena.trade t).made ts

/-- No page comes back while none is out. -/
def Fair (arena : Arena) : List Trade → Prop
  | [] => True
  | .ask seq :: ts => (arena.trade (.ask seq)).Fair ts
  | .back page :: ts => 0 < arena.inUse ∧ (arena.give page).Fair ts

/-- The pages that there are: those that are out and those that are kept. -/
def total (arena : Arena) : Nat := arena.inUse + arena.free.length

variable {arena arena' arena'' : Arena} {ts ts' : List Trade} {seq : SeqNum} {page : Page}
  {ceiling : Nat}

theorem tradeAll_append (arena : Arena) (ts ts' : List Trade) :
    arena.tradeAll (ts ++ ts') = (arena.tradeAll ts).tradeAll ts' := List.foldl_append

theorem fair_append (hts : arena.Fair ts) (hts' : (arena.tradeAll ts).Fair ts') :
    arena.Fair (ts ++ ts') := by
  induction ts generalizing arena with
  | nil => exact hts'
  | cons t rest ih =>
      cases t with
      | ask seq => exact @ih (arena.trade (.ask seq)) hts hts'
      | back page => exact ⟨hts.1, ih hts.2 hts'⟩

/-- A page that is handed out counts as out. -/
theorem inUse_take? (h : arena.take? seq = some (page, arena')) : arena'.inUse = arena.inUse + 1 := by
  rw [take?] at h
  split at h
  · cases h
  · split at h <;>
    · obtain ⟨-, rfl⟩ := Prod.mk.inj (Option.some.inj h)
      rfl

/-- A page that is handed out was kept, or the arena had to make it. -/
theorem total_take? (h : arena.take? seq = some (page, arena')) :
    arena'.total = arena.total + arena.makes (.ask seq) := by
  rw [take?] at h
  rw [makes]
  split at h
  · cases h
  · rename_i hspent
    split at h
    · rename_i hfree
      obtain ⟨-, rfl⟩ := Prod.mk.inj (Option.some.inj h)
      rw [if_pos ⟨eq_false_of_ne_true hspent, hfree⟩]
      simp only [total, hfree, List.length_nil, Nat.add_zero]
    · rename_i q rest hfree
      obtain ⟨-, rfl⟩ := Prod.mk.inj (Option.some.inj h)
      rw [if_neg fun h => by rw [hfree] at h; cases h.2]
      simp only [total, hfree, List.length_cons]
      omega

theorem total_give (arena : Arena) (page : Page) (h : 0 < arena.inUse) :
    (arena.give page).total = arena.total := by
  simp only [total, give, List.length_cons]
  omega

theorem inUse_le_peak (arena : Arena) (ts : List Trade) : arena.inUse ≤ arena.peak ts := by
  cases ts with
  | nil => exact Nat.le_refl _
  | cons t rest => exact Nat.le_max_left ..

/-- **An arena has as many pages as were ever out at once**, or as it had before. -/
theorem total_eq_max_peak (h : arena.Fair ts) :
    (arena.tradeAll ts).total = max arena.total (arena.peak ts) := by
  induction ts generalizing arena with
  | nil => exact (Nat.max_eq_left (Nat.le_add_right ..)).symm
  | cons t rest ih =>
      have hpeak := inUse_le_peak (arena.trade t) rest
      have htotal : arena.inUse ≤ arena.total := Nat.le_add_right ..
      have hrest : (arena.trade t).Fair rest := by
        cases t with
        | ask seq => exact h
        | back page => exact h.2
      have hlast := ih hrest
      rw [tradeAll, List.foldl_cons, ← tradeAll, hlast, peak]
      cases t with
      | back page =>
          have hsame := total_give arena page h.1
          show max (arena.give page).total _ = _
          rw [hsame]
          omega
      | ask seq =>
          cases ht : arena.take? seq with
          | none =>
              have hsame : arena.trade (.ask seq) = arena := by rw [trade, ht]
              rw [hsame] at hpeak ⊢
              omega
          | some out =>
              obtain ⟨page, arena'⟩ := out
              have hsome : arena.trade (.ask seq) = arena' := by rw [trade, ht]
              have hcount := inUse_take? ht
              have hmade := total_take? ht
              rw [hsome] at hpeak ⊢
              -- a page that is made is the first one more than there were
              rw [makes] at hmade
              split at hmade
              next hnew =>
                have hempty : arena.total = arena.inUse := by rw [total, hnew.2]; rfl
                omega
              next =>
                have hle : arena'.inUse ≤ arena'.total := Nat.le_add_right ..
                omega

/-- An arena has the pages that it had, and those that it made. -/
theorem total_eq_made (h : arena.Fair ts) :
    (arena.tradeAll ts).total = arena.total + arena.made ts := by
  induction ts generalizing arena with
  | nil => rfl
  | cons t rest ih =>
      rw [tradeAll, List.foldl_cons, ← tradeAll, made]
      cases t with
      | back page =>
          have hsame := total_give arena page h.1
          have hlast := ih h.2
          rw [makes, Nat.zero_add, ← hsame]
          exact hlast
      | ask seq =>
          rw [ih h]
          cases ht : arena.take? seq with
          | none =>
              have hsame : arena.trade (.ask seq) = arena := by rw [trade, ht]
              have hspent := take?_eq_none_iff.1 ht
              rw [hsame, makes, if_neg fun h => by simp [hspent] at h, Nat.zero_add]
          | some out =>
              obtain ⟨page, arena'⟩ := out
              have hsome : arena.trade (.ask seq) = arena' := by rw [trade, ht]
              rw [hsome, total_take? ht]
              omega

/-- Trades leave an arena sound. -/
theorem Sound.tradeAll (h : arena.Sound ceiling) (ts : List Trade) :
    (arena.tradeAll ts).Sound ceiling := by
  induction ts generalizing arena with
  | nil => exact h
  | cons t rest ih =>
      refine ih ?_
      cases t with
      | back page => exact h.give page
      | ask seq =>
          rw [trade]
          split
          · exact h
          · next heq => exact (h.take? heq).2.1

/-- The most pages that a sound arena has out at once. -/
theorem Sound.peak_le (h : arena.Sound ceiling) (ts : List Trade) : arena.peak ts ≤ ceiling := by
  induction ts generalizing arena with
  | nil => exact h.inUse_le
  | cons t rest ih =>
      rw [peak]
      exact Nat.max_le.2 ⟨h.inUse_le, ih (h.tradeAll [t])⟩

/-! ## Balanced trades -/

/-- Trades that lead from one arena to another while the number of pages held by whoever trades changes
from `held` to `held'`: however many pages are out besides, they are fair, and as many pages more or
fewer are out as are held. -/
structure Balanced (arena : Arena) (ts : List Trade) (arena' : Arena) (held held' : Nat) : Prop where
  /-- The trades lead from the one arena to the other. -/
  leads : arena.tradeAll ts = arena'
  /-- They are fair. -/
  fair : ∀ n, arena.inUse = n + held → arena.Fair ts
  /-- What is out changes with what is held. -/
  inUse : ∀ n, arena.inUse = n + held → arena'.inUse = n + held'

variable {held held' held'' : Nat}

namespace Balanced

theorem refl (arena : Arena) (held : Nat) : Balanced arena [] arena held held :=
  ⟨rfl, fun _ _ => trivial, fun _ h => h⟩

theorem trans (h : Balanced arena ts arena' held held') (h' : Balanced arena' ts' arena'' held' held'') :
    Balanced arena (ts ++ ts') arena'' held held'' := by
  refine ⟨?_, ?_, ?_⟩
  · rw [tradeAll_append, h.leads, h'.leads]
  · intro n hn
    exact fair_append (h.fair n hn) (by rw [h.leads]; exact h'.fair n (h.inUse n hn))
  · exact fun n hn => h'.inUse n (h.inUse n hn)

/-- More pages may be held all along. -/
theorem frame (h : Balanced arena ts arena' held held') (k : Nat) :
    Balanced arena ts arena' (k + held) (k + held') := by
  refine ⟨h.leads, fun n hn => h.fair (n + k) (by omega), fun n hn => ?_⟩
  have := h.inUse (n + k) (by omega)
  omega

/-- The same trades, with the pages held counted in another way. -/
theorem recount {k k' : Nat} (h : Balanced arena ts arena' held held') (hk : k = held)
    (hk' : k' = held') : Balanced arena ts arena' k k' := by
  subst hk hk'
  exact h

/-- Pages that are held come back. -/
theorem backAll (arena : Arena) (pages : List Page) (k : Nat) :
    Balanced arena (Trade.backAll pages) (arena.giveAll pages) (k + pages.length) k := by
  induction pages generalizing arena with
  | nil => exact refl arena k
  | cons page rest ih =>
      have hrest := ih (arena.give page)
      refine ⟨hrest.leads, fun n hn => ⟨?_, hrest.fair n ?_⟩, fun n hn => hrest.inUse n ?_⟩
      all_goals
        simp only [List.length_cons] at hn
        try simp only [give]
        omega

/-- A page is handed out. -/
theorem ask_some (h : arena.take? seq = some (page, arena')) (k : Nat) :
    Balanced arena [.ask seq] arena' k (k + 1) := by
  have hleads : arena.tradeAll [.ask seq] = arena' := by
    show arena.trade (.ask seq) = arena'
    rw [trade, h]
  refine ⟨hleads, fun _ _ => trivial, fun n hn => ?_⟩
  rw [inUse_take? h, hn]
  omega

/-- A page is refused. -/
theorem ask_none (h : arena.take? seq = none) (k : Nat) : Balanced arena [.ask seq] arena k k := by
  have hleads : arena.tradeAll [.ask seq] = arena := by
    show arena.trade (.ask seq) = arena
    rw [trade, h]
  exact ⟨hleads, fun _ _ => trivial, fun _ hn => hn⟩

end Balanced
end Arena

open Arena (Balanced)

/-! ## Requests for pages -/

/-- The trades while pages are reclaimed. -/
def reclaimTrades {α : Type} (shed? : α → Option (Yield α)) (seq : SeqNum) :
    Nat → α → Arena → List Trade
  | 0, _, _ => []
  | fuel + 1, a, arena =>
    match shed? a with
    | none => []
    | some y =>
      let left := arena.giveAll y.freed
      let further :=
        match left.take? seq with
        | some _ => []
        | none => reclaimTrades shed? seq fuel y.value left
      Trade.backAll y.freed ++ .ask seq :: further

/-- The trades while connections are asked for a page. -/
def evictTrades (flow : FlowId) (locked : List FlowId) (seq : SeqNum) :
    List Entry → Arena → List Trade
  | [], _ => []
  | entry :: rest, arena =>
    if entry.flow = flow ∨ entry.flow ∈ locked then evictTrades flow locked seq rest arena
    else
      let victim := entry.connection
      let claim :=
        reclaim Connection.shed? [.evicted flow entry.flow] seq victim.pageCount victim arena
      let further :=
        match claim.page with
        | some _ => []
        | none => evictTrades flow locked seq rest claim.arena
      reclaimTrades Connection.shed? seq victim.pageCount victim arena ++ further

/-- The pages that wait in the connections of other conversations. -/
def pagesApart (flow : FlowId) (entries : List Entry) : Nat :=
  ((entries.filter fun e => decide (e.flow ≠ flow)).map fun e => e.connection.pageCount).sum

theorem pagesApart_cons_self {flow : FlowId} {entry : Entry} (h : entry.flow = flow)
    (rest : List Entry) : pagesApart flow (entry :: rest) = pagesApart flow rest := by
  rw [pagesApart, List.filter_cons_of_neg (by simp [h])]
  rfl

theorem pagesApart_cons {flow : FlowId} {entry : Entry} (h : entry.flow ≠ flow) (rest : List Entry) :
    pagesApart flow (entry :: rest) = entry.connection.pageCount + pagesApart flow rest := by
  rw [pagesApart, List.filter_cons_of_pos (by simp [h])]
  rfl

theorem Connection.pageCount_shed {c : Connection} {y : Yield Connection} (hy : c.shed? = some y) :
    y.value.pageCount + y.freed.length = c.pageCount := by
  have hpos : 0 < c.pageCount := Nat.pos_of_ne_zero fun h => by
    rw [shed?_of_empty h] at hy
    cases hy
  obtain ⟨d, page, rest, notes, hp, -, hshed⟩ := shed?_of_pos hpos
  rw [hshed] at hy
  obtain rfl := Option.some.inj hy
  refine pageCount_setHalf_add ?_
  rw [HalfStream.pageCount, HalfStream.pageCount, hp]
  rfl

theorem HalfStream.pageCount_shed {h : HalfStream} {y : Yield HalfStream} (hy : h.shed? = some y) :
    y.value.pageCount + y.freed.length = h.pageCount := by
  obtain ⟨page, rest, hp, hvalue, hfreed⟩ := shed?_some hy
  rw [hvalue, hfreed, pageCount, pageCount, hp]
  rfl

/-- **Reclaiming pages is balanced**: the page that it leads to is held from then on. -/
theorem balanced_reclaim {α : Type} {m : α → Nat} {shed? : α → Option (Yield α)}
    (hshed : ∀ {a y}, shed? a = some y → m y.value + y.freed.length = m a) (remarks : List Note)
    (seq : SeqNum) (fuel : Nat) (a : α) (arena : Arena) :
    let claim := reclaim shed? remarks seq fuel a arena
    Balanced arena (reclaimTrades shed? seq fuel a arena) claim.arena (m a)
      (m claim.value + claim.page.toList.length) := by
  induction fuel generalizing a arena with
  | zero => exact .refl arena _
  | succ fuel ih =>
      rw [reclaim, reclaimTrades]
      cases hy : shed? a with
      | none => exact .refl arena _
      | some y =>
          have hback := (Balanced.backAll arena y.freed (m y.value)).recount (hshed hy).symm rfl
          simp only
          cases ht : (arena.giveAll y.freed).take? seq with
          | some out => exact hback.trans (.ask_some ht _)
          | none => exact hback.trans ((Balanced.ask_none ht _).trans (ih y.value _))

/-- **Asking other connections is balanced.** -/
theorem balanced_evict (flow : FlowId) (locked : List FlowId) (seq : SeqNum) (entries : List Entry)
    (arena : Arena) :
    let claim := evict flow locked seq entries arena
    Balanced arena (evictTrades flow locked seq entries arena) claim.arena (pagesApart flow entries)
      (pagesApart flow claim.value + claim.page.toList.length) := by
  induction entries generalizing arena with
  | nil => exact .refl arena _
  | cons entry rest ih =>
      rw [evict, evictTrades]
      split
      case isTrue hspared =>
        by_cases hflow : entry.flow = flow
        · refine (ih arena).recount (pagesApart_cons_self hflow _) ?_
          rw [pagesApart_cons_self hflow]
        · refine ((ih arena).frame entry.connection.pageCount).recount (pagesApart_cons hflow _) ?_
          rw [pagesApart_cons hflow, Nat.add_assoc]
      case isFalse hasked =>
        have hflow : entry.flow ≠ flow := fun h => hasked (Or.inl h)
        have hkeeps := (reclaim_keeps .refl .trans Connection.sheds_shed
          [.evicted flow entry.flow] seq entry.connection.pageCount entry.connection arena).kin.flow
        have hclaim := balanced_reclaim Connection.pageCount_shed [.evicted flow entry.flow] seq
          entry.connection.pageCount entry.connection arena
        simp only at hclaim ⊢
        generalize reclaim Connection.shed? [.evicted flow entry.flow] seq
          entry.connection.pageCount entry.connection arena = claim at *
        have hflow' : ({ entry with connection := claim.value } : Entry).flow ≠ flow := by
          rw [Entry.flow, hkeeps]
          exact hflow
        cases hpage : claim.page with
        | some page =>
            simp only [List.append_nil]
            refine (hclaim.frame (pagesApart flow rest)).recount ?_ ?_
            · rw [pagesApart_cons hflow, Nat.add_comm]
            · rw [pagesApart_cons hflow', hpage]
              simp only [Option.toList_some, List.length_singleton]
              omega
        | none =>
            refine ((hclaim.frame (pagesApart flow rest)).recount ?_ ?_).trans
              ((ih claim.arena).frame claim.value.pageCount) |>.recount rfl ?_
            · rw [pagesApart_cons hflow, Nat.add_comm]
            · rw [hpage, Nat.add_comm]
              rfl
            · rw [pagesApart_cons hflow', Nat.add_assoc]

/-! ## The work on a segment -/

namespace Work

variable {w : Work} {limit : Nat} {locked : List FlowId} {d : Direction} {start : SeqNum}
  {payload : List UInt8} {segment : Segment}

/-- The pages held while a segment is worked in: those that wait in its connection and in the others, and
those that the chunks to hand over carry. -/
def held (w : Work) : Nat :=
  pagesApart w.connection.flow w.entries + w.connection.pageCount + (Chunk.pages w.chunks).length

/-- The trades of one request for a page. -/
def obtainTrades (w : Work) (locked : List FlowId) (d : Direction) (seq : SeqNum) : List Trade :=
  let further :=
    match w.arena.take? seq with
    | some _ => []
    | none =>
      let claim := evict w.connection.flow locked seq w.entries w.arena
      let own :=
        match claim.page with
        | some _ => []
        | none =>
          let half := w.connection.half d
          reclaimTrades HalfStream.shed? seq half.pageCount half claim.arena
      evictTrades w.connection.flow locked seq w.entries w.arena ++ own
  .ask seq :: further

/-- The trades while parts of a payload are stored. -/
def storeTrades (limit : Nat) (locked : List FlowId) (d : Direction) (start : SeqNum)
    (payload : List UInt8) : List Portion → Work → List Trade
  | [], _ => []
  | portion :: rest, w =>
    let seq := start.advance portion.span.start
    let further :=
      match (w.relieve limit d).obtain locked d seq with
      | (_, none) => []
      | (w, some page) =>
        let page := page.fill (portion.span.slice payload)
        storeTrades limit locked d start payload rest (w.onHalf d fun h => { value := h.hold page })
    Trade.backAll (w.connection.relieve limit d).freed ++
      ((w.relieve limit d).obtainTrades locked d seq ++ further)

/-- The trades that the place of a segment's data asks for. -/
def placeTrades (w : Work) (limit : Nat) (locked : List FlowId) (d : Direction) (segment : Segment) :
    Fit → List Trade
  | .ahead pieces =>
    storeTrades limit locked d segment.payloadSeq segment.payload (pieces.flatMap Span.portions) w
  | .inOrder offset =>
    Trade.backAll ((w.connection.half d).pass segment.payload.length offset).freed
  | .empty | .behind | .covered => []

/-- The trades while a segment is worked in. -/
def acceptTrades (w : Work) (limit : Nat) (locked : List FlowId) (d : Direction)
    (segment : Segment) : List Trade :=
  let placed := w.placed limit locked d segment
  let drained := placed.onHalf d HalfStream.drain
  let settled := drained.relieve limit d
  Trade.backAll ((w.connection.half d).arrive segment).freed ++
    ((w.arrived d segment).placeTrades limit locked d segment (w.fit d segment) ++
      (Trade.backAll (placed.connection.half d).drain.freed ++
        (Trade.backAll (drained.connection.relieve limit d).freed ++
          if segment.flags.closes then Trade.backAll (settled.connection.half d).close.freed
          else [])))

/-- A step on the connection that loses no page is balanced. -/
theorem balanced_absorb {y : Yield Connection} (hflow : y.value.flow = w.connection.flow)
    (hy : y.value.pageCount + y.released = w.connection.pageCount) :
    Balanced w.arena (Trade.backAll y.freed) (w.absorb y).arena w.held (w.absorb y).held := by
  refine (Balanced.backAll w.arena y.freed _).recount ?_ rfl
  rw [Yield.released] at hy
  simp only [held, absorb, hflow, Chunk.pages_append, List.length_append]
  omega

theorem balanced_relieve (w : Work) (limit : Nat) (d : Direction) :
    Balanced w.arena (Trade.backAll (w.connection.relieve limit d).freed) (w.relieve limit d).arena
      w.held (w.relieve limit d).held :=
  balanced_absorb (Connection.continues_relieve _ limit d).kin.flow
    (w.connection.pageCount_relieve_add limit d)

/-- A step on a half-stream that loses no page is balanced. -/
theorem balanced_onHalf {f : HalfStream → Yield HalfStream}
    (hf : (f (w.connection.half d)).value.pageCount + (f (w.connection.half d)).released =
      (w.connection.half d).pageCount) :
    Balanced w.arena (Trade.backAll (f (w.connection.half d)).freed) (w.onHalf d f).arena
      w.held (w.onHalf d f).held :=
  balanced_absorb (y := w.connection.onHalf d f) (Connection.flow_setHalf _ _ _)
    (Connection.pageCount_setHalf_add hf)

/-- **One request for a page is balanced.** -/
theorem balanced_obtain (w : Work) (locked : List FlowId) (d : Direction) (seq : SeqNum) :
    Balanced w.arena (w.obtainTrades locked d seq) (w.obtain locked d seq).1.arena w.held
      ((w.obtain locked d seq).1.held + (w.obtain locked d seq).2.toList.length) := by
  rw [obtain, obtainTrades]
  cases ht : w.arena.take? seq with
  | some out => exact .ask_some ht _
  | none =>
      have hask := Balanced.ask_none ht w.held
      have hevict := balanced_evict w.connection.flow locked seq w.entries w.arena
      simp only at hevict ⊢
      generalize evict w.connection.flow locked seq w.entries w.arena = claim at *
      have hothers := (hevict.frame (w.connection.pageCount + (Chunk.pages w.chunks).length)).recount
        (k := w.held) (by rw [held]; omega) rfl
      cases hpage : claim.page with
      | some page =>
          simp only [List.append_nil]
          refine (hask.trans hothers).recount rfl ?_
          rw [hpage]
          simp only [held, Option.toList_some, List.length_singleton]
          omega
      | none =>
          have hown := balanced_reclaim HalfStream.pageCount_shed [] seq
            (w.connection.half d).pageCount (w.connection.half d) claim.arena
          simp only at hown ⊢
          generalize reclaim HalfStream.shed? [] seq (w.connection.half d).pageCount
            (w.connection.half d) claim.arena = own at *
          rw [hpage] at hothers
          have hcount := Connection.pageCount_eq w.connection d
          refine hask.trans (hothers.trans ((hown.frame (pagesApart w.connection.flow claim.value +
            (w.connection.half d.opposite).pageCount + (Chunk.pages w.chunks).length)).recount ?_ ?_))
          · simp only [Option.toList_none, List.length_nil]
            omega
          · simp only [held, Connection.flow_setHalf, Connection.pageCount_setHalf]
            omega

/-- **Storing is balanced.** -/
theorem balanced_store (ps : List Portion) (w : Work) :
    Balanced w.arena (storeTrades limit locked d start payload ps w)
      (store limit locked d start payload ps w).arena w.held
      (store limit locked d start payload ps w).held := by
  induction ps generalizing w with
  | nil => exact .refl w.arena _
  | cons p rest ih =>
      have hobtain := balanced_obtain (w.relieve limit d) locked d (start.advance p.span.start)
      refine (balanced_relieve w limit d).trans ?_
      rw [store]
      simp only
      generalize (w.relieve limit d).obtain locked d (start.advance p.span.start) = out at *
      obtain ⟨w', page⟩ := out
      cases page with
      | none =>
          have hdrop := balanced_onHalf (w := w') (d := d)
            (f := fun h => h.drop (p.pieceStop - p.span.start)) rfl
          exact hobtain.trans hdrop
      | some page =>
          -- the page is held by the half-stream now
          have hhold : ∀ q : Page, (w'.onHalf d fun h => { value := h.hold q }).held = w'.held + 1 := by
            intro q
            have hcount := Connection.pageCount_eq w'.connection d
            have hlength : ((w'.connection.half d).hold q).pageCount =
                (w'.connection.half d).pageCount + 1 := Backlog.length_insert ..
            simp only [held, onHalf, Connection.onHalf, absorb, Yield.map, Connection.flow_setHalf,
              Connection.pageCount_setHalf, hlength, List.append_nil]
            omega
          have hrest := ih (w'.onHalf d fun h =>
            { value := h.hold (page.fill (p.span.slice payload)) })
          exact hobtain.trans (hrest.recount (hhold _).symm rfl)

/-- **Working a segment in is balanced.** -/
theorem balanced_accept (w : Work) (limit : Nat) (locked : List FlowId) (d : Direction)
    (segment : Segment) :
    Balanced w.arena (w.acceptTrades limit locked d segment) (w.accept limit locked d segment).arena
      w.held (w.accept limit locked d segment).held := by
  have harrived := balanced_onHalf (w := w) (d := d) (f := fun h => (h.arrive segment).map Prod.fst) (by
    have hpages := (arrive_keeps (w.connection.half d) segment).1
    have hreleased := released_arrive (w.connection.half d) segment
    simp only [Yield.map, Yield.released, HalfStream.pageCount, hpages] at hreleased ⊢
    omega)
  have hplaced : Balanced (w.arrived d segment).arena
      ((w.arrived d segment).placeTrades limit locked d segment (w.fit d segment))
      (w.placed limit locked d segment).arena (w.arrived d segment).held
      (w.placed limit locked d segment).held := by
    rw [placed]
    cases w.fit d segment with
    | empty | behind | covered => exact .refl _ _
    | inOrder offset =>
        refine balanced_onHalf (f := fun h => h.pass segment.payload.length offset) ?_
        simp only [HalfStream.pass]
        split <;> rfl
    | ahead pieces => exact balanced_store _ _
  have hdrained := balanced_onHalf (w := w.placed limit locked d segment) (d := d)
    (HalfStream.pageCount_drain_add _)
  have hsettled := balanced_relieve ((w.placed limit locked d segment).onHalf d HalfStream.drain) limit d
  refine harrived.trans (hplaced.trans (hdrained.trans (hsettled.trans ?_)))
  rw [accept_eq]
  split
  · exact balanced_onHalf (HalfStream.pageCount_close_add _)
  · exact .refl _ _

end Work

namespace Arrival

/-- The trades while a segment that arrived is worked in. -/
def trades (a : Arrival) : List Trade :=
  if a.half.isClosed then []
  else a.before.acceptTrades a.config.pagesPerConnection a.locked a.direction a.segment

/-- **The trades of a segment that arrived are balanced.** -/
theorem balanced_trades (a : Arrival) :
    Balanced a.state.arena a.trades a.work.arena a.before.held a.work.held := by
  rw [trades]
  cases hclosed : a.half.isClosed with
  | true =>
      obtain ⟨hconn, hentries, harena, hchunks⟩ := Arrival.work_of_closed hclosed
      have hheld : a.work.held = a.before.held := by
        rw [Work.held, hconn, hentries, hchunks]
        rfl
      rw [harena, hheld]
      exact .refl _ _
  | false =>
      rw [Arrival.work_of_open hclosed]
      exact a.before.balanced_accept _ _ _ _

end Arrival
end TcpStreams
