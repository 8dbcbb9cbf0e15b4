import TcpStreams.Proofs.Recency

/-!
# Evictions

Every request for a page, told by what it costs.  A request makes at most one connection give up at most
one page, and only if the arena is exhausted.  Who pays is settled by recency: the connection that was
active longest ago, of those that are neither locked nor the requester's own and have a page; the
requester's own half-stream pays only when there is none, and the request is in vain only when that has no
page either.

The requests made while a segment is worked in are listed by recursion along the work itself, each with
the work that it was made in.

* `PageRequest`: a request, and the work before and after it.
* `Arrival.requests`: the requests made for a segment that arrived.
* `Work.GivesUp`: the one page that was given up, if any was.
* `Reassembly.evictions_ordered`: who gives a page up, for every request in every history.
-/

namespace TcpStreams

/-! ## The requests for a segment -/

/-- A request for a page. -/
structure PageRequest where
  /-- The work that it is made in. -/
  work : Work
  /-- The conversations that are in use elsewhere. -/
  locked : List FlowId
  /-- The direction of the half-stream that the page is for. -/
  direction : Direction
  /-- The number of the first byte to be kept on the page. -/
  seq : SeqNum

namespace PageRequest

variable (r : PageRequest)

/-- The conversation that the page is for. -/
def flow : FlowId := r.work.connection.flow

/-- The half-stream that the page is for. -/
def half : HalfStream := r.work.connection.half r.direction

/-- The work once the request is answered. -/
def after : Work := (r.work.obtain r.locked r.direction r.seq).1

/-- The page that the request leads to. -/
def page? : Option Page := (r.work.obtain r.locked r.direction r.seq).2

/-- Whether a connection may be asked to give a page up: it is neither locked nor the requester's. -/
def MayAsk (entry : Entry) : Prop := entry.flow ≠ r.flow ∧ entry.flow ∉ r.locked

/-- No other connection has a page to give up. -/
def OthersEmpty : Prop :=
  ∀ entry ∈ r.work.entries, r.MayAsk entry → entry.connection.pageCount = 0

end PageRequest

namespace Work

/-- The requests made while parts of a payload are stored. -/
def storeRequests (limit : Nat) (locked : List FlowId) (d : Direction) (start : SeqNum)
    (payload : List UInt8) : List Portion → Work → List PageRequest
  | [], _ => []
  | portion :: rest, w =>
    let request : PageRequest :=
      { work := w.relieve limit d, locked, direction := d, seq := start.advance portion.span.start }
    let further :=
      match request.page? with
      | none => []
      | some page =>
        let page := page.fill (portion.span.slice payload)
        storeRequests limit locked d start payload rest
          (request.after.onHalf d fun h => { value := h.hold page })
    request :: further

/-- A page that was given up. -/
structure Forfeit where
  /-- The conversation that it waited for. -/
  flow : FlowId
  /-- The direction that it waited in. -/
  direction : Direction
  /-- The page. -/
  page : Page
deriving DecidableEq

/-- `w.GivesUp f? w'`: from `w` to `w'` one page was given up, the first one waiting in its direction of
its connection, or none if `f?` is none; of the connections nothing else has changed. -/
inductive GivesUp (w w' : Work) : Option Forfeit → Prop
  | nothing : w'.connection = w.connection → w'.entries = w.entries → GivesUp w w' none
  | own {d : Direction} {page : Page} {rest : List Page} :
      (w.connection.half d).pages = page :: rest →
      w'.connection = w.connection.setHalf d ((w.connection.half d).lose page rest) →
      w'.entries = w.entries → GivesUp w w' (some ⟨w.connection.flow, d, page⟩)
  | other {before behind : List Entry} {victim : Entry} {d : Direction} {page : Page}
      {rest : List Page} :
      victim.flow ≠ w.connection.flow → w.entries = before ++ victim :: behind →
      (victim.connection.half d).pages = page :: rest → w'.connection = w.connection →
      w'.entries = before ++ victim.lose d page rest :: behind →
      GivesUp w w' (some ⟨victim.flow, d, page⟩)

end Work

/-- The requests made while a segment that arrived is worked in. -/
def Arrival.requests (a : Arrival) : List PageRequest :=
  if a.half.isClosed then []
  else
    match a.before.fit a.direction a.segment with
    | .ahead pieces =>
      Work.storeRequests a.config.pagesPerConnection a.locked a.direction a.segment.payloadSeq
        a.segment.payload (pieces.flatMap Span.portions) (a.before.arrived a.direction a.segment)
    | .empty | .behind | .inOrder _ | .covered => []

/-! ## What every request finds -/

namespace Work

variable {ceiling limit : Nat} {locked : List FlowId} {d : Direction} {start : SeqNum}
  {payload : List UInt8} {w : Work}

/-- **Every request while portions are stored** finds sound work, with the activity of all connections as
it was. -/
theorem mem_storeRequests {ps : List Portion} (hw : w.Sound ceiling)
    (hopen : (w.connection.half d).isClosed = false)
    (hps : ∀ p ∈ ps, p.span.start < p.span.stop ∧ p.span.stop ≤ payload.length) :
    ∀ r ∈ storeRequests limit locked d start payload ps w,
      r.work.Sound ceiling ∧ Continues w r.work := by
  induction ps generalizing w with
  | nil => exact fun _ hr => nomatch hr
  | cons p rest ih =>
      intro r hr
      have hrelieve := (@leads_relieve ceiling d w hw limit).sound
      have hcontinues := continues_relieve w limit d
      have hopen' := (hcontinues.connection.closed d).trans hopen
      rw [storeRequests] at hr
      rcases List.mem_cons.1 hr with rfl | hr
      · exact ⟨hrelieve, hcontinues⟩
      · -- there is a further one only if this one led to a page
        simp only [PageRequest.page?, PageRequest.after] at hr
        have hpage := @store_cons ceiling limit d w locked start payload hrelieve p rest
        simp only at hpage
        rcases hpage with ⟨hsome, hceil, -⟩ | ⟨hnone, -⟩
        · rw [hsome] at hr
          have hfill := (@leads_fillPage ceiling d _ locked start payload hrelieve hceil hopen' p
            (hps p (List.mem_cons_self ..))).1.sound
          have hfilled : Continues w ((w.relieve limit d).fillPage locked d start payload p) :=
            hcontinues.trans ((continues_obtain _ locked d _).trans (continues_onHalf rfl))
          obtain ⟨hsound, hmore⟩ := ih hfill ((hfilled.connection.closed d).trans hopen)
            (fun q hq => hps q (List.mem_cons_of_mem _ hq)) r hr
          exact ⟨hsound, hfilled.trans hmore⟩
        · rw [hnone] at hr
          cases hr

end Work

namespace Arrival

variable {ceiling : Nat} {a : Arrival}

/-- Every request for a segment that arrived finds sound work, with the activity of all connections as it
was. -/
theorem mem_requests (hs : a.before.Sound ceiling) {r : PageRequest} (hr : r ∈ a.requests) :
    r.work.Sound ceiling ∧
      r.work.entries.map Entry.lastTick = a.state.registry.entries.map Entry.lastTick := by
  rw [requests] at hr
  split at hr
  · cases hr
  · rename_i hclosed
    have hopen : a.half.isClosed = false := eq_false_of_ne_true hclosed
    cases hfit : a.before.fit a.direction a.segment with
    | ahead pieces =>
        rw [hfit] at hr
        obtain ⟨harrived, -, hopen'⟩ := Work.leads_arrived hs hopen a.segment
        obtain ⟨hsound, hcontinues⟩ :=
          Work.mem_storeRequests harrived.sound hopen' (Work.portions_bounds hfit) r hr
        exact ⟨hsound, Reassembly.map_eq_of_forall₂ hcontinues.entries fun _ _ h => h.continues.lastTick⟩
    | _ =>
        rw [hfit] at hr
        cases hr

end Arrival

/-! ## What a request costs -/

section Costs

variable {flow : FlowId} {locked : List FlowId} {victim : Entry} {d : Direction} {page : Page}
  {es es' : List Entry}

/-- What an eviction does to the list of connections. -/
theorem Evicts.exists_split (h : Evicts flow locked victim d page es es') :
    ∃ before behind rest, es = before ++ victim :: behind ∧
      es' = before ++ victim.lose d page rest :: behind ∧
      (victim.connection.half d).pages = page :: rest ∧ ∀ e ∈ before, e.Dry flow locked := by
  induction h with
  | @found rest behind _ hp _ => exact ⟨[], behind, rest, rfl, rfl, hp, fun _ he => nomatch he⟩
  | @passed entry es es' hdry _ ih =>
      obtain ⟨before, behind, rest, rfl, rfl, hp, hall⟩ := ih
      refine ⟨entry :: before, behind, rest, rfl, rfl, hp, ?_⟩
      intro e he
      rcases List.mem_cons.1 he with rfl | he
      · exact hdry
      · exact hall e he

/-- Of the reverse half-stream a page is given up only if nothing waits in the forward one. -/
theorem Evicts.front (h : Evicts flow locked victim d page es es') :
    d = .reverse → victim.connection.forward.pages = [] := by
  induction h with
  | found _ _ hfront => exact hfront
  | passed _ _ ih => exact ih

/-- Along a list in the order of activity, whoever was active before the one that pays has nothing to
give. -/
theorem Evicts.dry_of_earlier (h : Evicts flow locked victim d page es es')
    (hordered : (es.map Entry.lastTick).Pairwise (· < ·)) {e : Entry} (he : e ∈ es)
    (hlt : e.lastTick < victim.lastTick) : e.Dry flow locked := by
  induction h with
  | found _ _ _ =>
      rw [List.map_cons, List.pairwise_cons] at hordered
      rcases List.mem_cons.1 he with rfl | he
      · exact absurd hlt (Nat.lt_irrefl _)
      · exact absurd hlt (Nat.lt_asymm (hordered.1 _ (List.mem_map_of_mem he)))
  | passed hdry _ ih =>
      rw [List.map_cons, List.pairwise_cons] at hordered
      rcases List.mem_cons.1 he with rfl | he
      · exact hdry
      · exact ih hordered.2 he

end Costs

namespace PageRequest

variable {r : PageRequest} {ceiling : Nat}

/-- Whoever may be asked and has nothing to give has no page. -/
theorem pageCount_of_dry {e : Entry} (hdry : e.Dry r.flow r.locked) (hask : r.MayAsk e) :
    e.connection.pageCount = 0 :=
  hdry.resolve_left fun h => h.elim hask.1 hask.2

theorem drained_iff :
    r.work.Drained r.locked ↔ r.work.arena.isSpent = true ∧ r.OthersEmpty := by
  constructor
  · intro h
    exact ⟨h.spent, fun e he hask => pageCount_of_dry (h.dry e he) hask⟩
  · rintro ⟨hspent, hempty⟩
    refine ⟨hspent, fun e he => ?_⟩
    by_cases hself : e.flow = r.work.connection.flow ∨ e.flow ∈ r.locked
    · exact Or.inl hself
    · exact Or.inr (hempty e he ⟨fun h => hself (Or.inl h), fun h => hself (Or.inr h)⟩)

/-- What has to hold for another connection to give up a page: the arena is exhausted, and the connection
is the one of those with a page that was active longest ago.  The page is the first one waiting there, a
reverse one only if no forward one waits. -/
structure TakesFrom (r : PageRequest) (victim : Entry) (f : Work.Forfeit) : Prop where
  /-- The connection is a live one. -/
  mem : victim ∈ r.work.entries
  /-- It is the one that gives the page up. -/
  flow : victim.flow = f.flow
  /-- It may be asked. -/
  unlocked : victim.flow ∉ r.locked
  /-- The arena is exhausted. -/
  spent : r.work.arena.isSpent = true
  /-- Of those that may be asked, none that was active earlier has a page. -/
  earlier : ∀ e ∈ r.work.entries, r.MayAsk e → e.lastTick < victim.lastTick →
    e.connection.pageCount = 0
  /-- The page is the first one of its half-stream. -/
  first : (victim.connection.half f.direction).pages.head? = some f.page
  /-- The forward half-stream comes first. -/
  forward : f.direction = .reverse → (victim.connection.half .forward).pages = []

/-- What has to hold for the requester itself to give up a page: the arena is exhausted, and no other
connection has a page.  The page is the first one of the half-stream that the request is for. -/
structure TakesOwn (r : PageRequest) (f : Work.Forfeit) : Prop where
  /-- The page comes from the half-stream that the request is for. -/
  direction : f.direction = r.direction
  /-- The arena is exhausted. -/
  spent : r.work.arena.isSpent = true
  /-- No other connection has a page. -/
  empty : r.OthersEmpty
  /-- The page is the first one of its half-stream. -/
  first : r.half.pages.head? = some f.page

/-- **What a request costs**, and when it is in vain. -/
theorem exists_givesUp (hs : r.work.Sound ceiling)
    (hordered : (r.work.entries.map Entry.lastTick).Pairwise (· < ·)) :
    (∃ f?, r.work.GivesUp r.after f? ∧
      (∀ f, f? = some f → f.flow ≠ r.flow → ∃ victim, r.TakesFrom victim f) ∧
      ∀ f, f? = some f → f.flow = r.flow → r.TakesOwn f) ∧
    (r.page? = none ↔
      r.work.arena.isSpent = true ∧ r.OthersEmpty ∧ r.half.pages = []) := by
  obtain ⟨hmet, -⟩ := Work.obtain_met hs r.locked r.direction r.seq
  rw [PageRequest.after, PageRequest.page?]
  rw [← and_assoc, ← drained_iff]
  generalize (r.work.obtain r.locked r.direction r.seq).1 = w' at hmet ⊢
  generalize (r.work.obtain r.locked r.direction r.seq).2 = page? at hmet ⊢
  cases hmet with
  | arena hroom hconn hentries =>
      refine ⟨⟨none, .nothing hconn hentries, (fun _ h => nomatch h), fun _ h => nomatch h⟩, nofun, ?_⟩
      rintro ⟨hdr, -⟩
      exact absurd hdr.spent (ne_true_of_eq_false hroom)
  | @other victim e page hspent hconn hevicts =>
      obtain ⟨hmem, hwet⟩ := hevicts.wet
      obtain ⟨before, behind, rest, hsplit, hsplit', hp, -⟩ := hevicts.exists_split
      have hself : victim.flow ≠ r.flow := fun h => hwet (Or.inl (Or.inl h))
      refine ⟨⟨_, .other hself hsplit hp hconn hsplit', ?_, ?_⟩, nofun, ?_⟩
      · rintro f ⟨rfl⟩ -
        exact ⟨victim, {
          mem := hmem
          flow := rfl
          unlocked := fun h => hwet (Or.inl (Or.inr h))
          spent := hspent
          earlier := fun e he hask hlt =>
            pageCount_of_dry (hevicts.dry_of_earlier hordered he hlt) hask
          first := by rw [hp]; rfl
          forward := hevicts.front }⟩
      · rintro f ⟨rfl⟩ heq
        exact absurd heq hself
      · rintro ⟨hdr, -⟩
        exact absurd (hdr.dry victim hmem) hwet
  | @own page rest hdr hp hconn hentries _ =>
      refine ⟨⟨_, .own hp hconn hentries, ?_, ?_⟩, nofun, ?_⟩
      · rintro f ⟨rfl⟩ hne
        exact absurd rfl hne
      · rintro f ⟨rfl⟩ -
        obtain ⟨hspent, hempty⟩ := drained_iff.1 hdr
        exact ⟨rfl, hspent, hempty, by rw [half, hp]; rfl⟩
      · rintro ⟨-, hnil⟩
        rw [half, hp] at hnil
        cases hnil
  | refused hdr hp hconn hentries =>
      exact ⟨⟨none, .nothing hconn hentries, (fun _ h => nomatch h), fun _ h => nomatch h⟩,
        fun _ => ⟨hdr, hp⟩, fun _ => rfl⟩

end PageRequest

namespace Reassembly

variable {ceiling : Nat}

/-- **The order of evictions.** In every history, whatever reassemblers made the calls before and whichever
consumers broke down, a request for a page makes at most one page be given up.  Another connection gives
one up only if the arena is exhausted, and then it is the connection active longest ago of those that may
be asked and have a page; the requester gives one up only if no other connection has any.  The request is
in vain exactly if the arena is exhausted, no other connection has a page, and neither has the half-stream
that it is for. -/
theorem evictions_ordered (calls : List Call) (call : Call) {a : Arrival}
    (ha : a ∈ ((fresh ceiling).history calls).state.arrivals call) {r : PageRequest}
    (hr : r ∈ a.requests) :
    (∃ f?, r.work.GivesUp r.after f? ∧
      (∀ f, f? = some f → f.flow ≠ r.flow → ∃ victim, r.TakesFrom victim f) ∧
      ∀ f, f? = some f → f.flow = r.flow → r.TakesOwn f) ∧
    (r.page? = none ↔
      r.work.arena.isSpent = true ∧ r.OthersEmpty ∧ r.half.pages = []) := by
  obtain ⟨hs, hc⟩ := (sound_history ceiling calls).arrives ha
  obtain ⟨hsound, hticks⟩ := Arrival.mem_requests (hs.before hc) hr
  refine PageRequest.exists_givesUp hsound ?_
  rw [hticks]
  exact (lasting_ordered.arrives (ordered_history ceiling calls) ha).increasing

/-- A call in which a reassembler works a segment in that one of several clients sends, while some
connections are in use elsewhere. -/
def callFrom (client : Nat) (locked : List FlowId) (seq : Nat) : Call where
  fails _ := false
  now := 0
  action := .receive { pagesPerConnection := 4 } locked ⟨.v4 (BitVec.ofNat 32 client), .v4 9⟩
    { srcPort := 1, dstPort := 2, seq := .ofNat seq, flags := ⟨0⟩, payload := [97] }

/-- The conversation of a client. -/
def flowFrom (client : Nat) : FlowId :=
  .of ((Host.v4 (BitVec.ofNat 32 client)).endpoint 1) ((Host.v4 9).endpoint 2)

/-- Three clients whose data waits; the first one was heard again after the others. -/
def callsBeforeEviction : List Call :=
  [callFrom 1 [] 5, callFrom 2 [] 5, callFrom 3 [] 5, callFrom 1 [] 5]

theorem evictions_ordered_around_locked :
    (((fresh 3).history callsBeforeEviction).state.arrivals (callFrom 4 [flowFrom 2] 7)).map
        (fun a => a.requests.map fun r =>
          (r.work.entries.map fun e => (e.flow, e.lastTick, e.connection.pageCount),
            r.after.entries.map fun e => (e.flow, e.connection.pageCount))) =
      [[([(flowFrom 2, 2, 1), (flowFrom 3, 3, 1), (flowFrom 1, 4, 1), (flowFrom 4, 5, 0)],
        [(flowFrom 2, 1), (flowFrom 3, 0), (flowFrom 1, 1), (flowFrom 4, 0)])]] ∧
    ∀ a ∈ ((fresh 3).history callsBeforeEviction).state.arrivals (callFrom 4 [flowFrom 2] 7),
      ∀ r ∈ a.requests,
        (∃ f?, r.work.GivesUp r.after f? ∧
          (∀ f, f? = some f → f.flow ≠ r.flow → ∃ victim, r.TakesFrom victim f) ∧
          ∀ f, f? = some f → f.flow = r.flow → r.TakesOwn f) ∧
        (r.page? = none ↔
          r.work.arena.isSpent = true ∧ r.OthersEmpty ∧ r.half.pages = []) :=
  ⟨by decide, fun _ ha _ hr => evictions_ordered callsBeforeEviction _ ha hr⟩

end Reassembly
end TcpStreams
