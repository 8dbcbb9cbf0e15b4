import Mathlib.Algebra.BigOperators.Group.List.Basic
import TcpStreams.Proofs.Frames

/-!
# Tallies

Counters add up.  Every step of the work on a segment adds to the counters of a half-stream what the chunks
of its direction say that it hands on there, what it gives up, and one segment if that arrived.  What is given
up is listed by recursion along the work itself: the pages that make room for another one, and what is left
of a piece when no room can be made.

The pages that are given up belong to any connection of the registry.  So the counters of all of them are
followed through the work, each by the chunks and the losses of its own stream.

* `Counters` are a commutative monoid; `Delivery.tally`, `Loss.tally`, `Arrival.tally` are what one delivery,
  one loss and one segment add.
* `Work.acceptLosses`: what is given up while a segment is worked in.
* `HalfStream.Counts`, `Connection.Counts`, `Work.Counts`: a step adds what it says.
* `Arrival.counts_work`: so does the work on a segment.
-/

namespace TcpStreams

/-! ## Counters add up -/

namespace Counters

instance : Zero Counters := ⟨{}⟩

/-- Counters are added one by one. -/
instance : Add Counters where
  add a b :=
    { segments := a.segments + b.segments
      buffered := a.buffered + b.buffered
      retransmissions := a.retransmissions + b.retransmissions
      delivered := a.delivered + b.delivered
      discarded := a.discarded + b.discarded
      skips := a.skips + b.skips }

theorem zero_def : (0 : Counters) = {} := rfl

theorem add_def (a b : Counters) : a + b =
    { segments := a.segments + b.segments
      buffered := a.buffered + b.buffered
      retransmissions := a.retransmissions + b.retransmissions
      delivered := a.delivered + b.delivered
      discarded := a.discarded + b.discarded
      skips := a.skips + b.skips } := rfl

instance : AddCommMonoid Counters where
  add_assoc a b c := by simp only [add_def, Nat.add_assoc]
  zero_add a := by simp only [add_def, zero_def, Nat.zero_add]
  add_zero a := by simp only [add_def, zero_def, Nat.add_zero]
  add_comm a b := by simp only [add_def, Nat.add_comm]
  nsmul := nsmulRec

/-- A counter of a sum is the sum of that counter. -/
theorem sum_field {φ : Counters → Nat} (hzero : φ 0 = 0) (hadd : ∀ a b, φ (a + b) = φ a + φ b)
    (cs : List Counters) : φ cs.sum = (cs.map φ).sum := by
  induction cs with
  | nil => exact hzero
  | cons c rest ih => rw [List.sum_cons, hadd, ih, List.map_cons, List.sum_cons]

/-- What counts for one direction of one stream. -/
def onlyFor (stream : Nat) (d : Direction) (t : Counters) (k : Nat) (e : Direction) : Counters :=
  if stream = k ∧ d = e then t else 0

theorem onlyFor_zero (stream : Nat) (d : Direction) (k : Nat) (e : Direction) : onlyFor stream d 0 k e = 0 :=
  ite_self _

theorem addSegment_eq (c : Counters) : c.addSegment = c + { segments := 1 } := rfl

theorem addDelivery_eq (c : Counters) (bytes : Nat) (skip : Bool) :
    c.addDelivery bytes skip = c + { delivered := bytes, skips := if skip then 1 else 0 } := by
  cases skip <;> rfl

end Counters

theorem Fit.count_eq (fit : Fit) (c : Counters) : fit.count c = c + fit.count 0 := by
  cases fit <;> rfl

/-! ## What is counted -/

/-- What a delivery adds to the counters. -/
def Delivery.tally (x : Delivery) : Counters where
  delivered := x.bytes.length
  skips := if x.skip then 1 else 0

/-- What a chunk adds once it is handed over. -/
def Chunk.tally (payload : List UInt8) (chunk : Chunk) : Counters := (chunk.delivery payload).tally

/-- The number of bytes that a source stands for. -/
def Source.size : Source → Nat
  | .payload span => span.size
  | .page held => held.size

/-- Bytes of a direction that are given up: a page that waited, or what is left of a piece of the payload. -/
structure Loss where
  /-- The stream that they would have gone to. -/
  stream : Nat
  /-- The direction that they travelled in. -/
  direction : Direction
  /-- Where they were. -/
  source : Source
deriving DecidableEq

namespace Loss

/-- What a loss adds to the counters. -/
def tally (loss : Loss) : Counters where
  discarded := loss.source.size

/-- What the losses of one direction of a stream add to its counters. -/
def tallies (losses : List Loss) (stream : Nat) (d : Direction) : Counters :=
  ((losses.filter fun x => decide (x.stream = stream ∧ x.direction = d)).map tally).sum

variable {xs ys : List Loss} {k : Nat} {d : Direction}

theorem tallies_nil : tallies [] k d = 0 := rfl

theorem tallies_append : tallies (xs ++ ys) k d = tallies xs k d + tallies ys k d := by
  simp only [tallies, List.filter_append, List.map_append, List.sum_append]

/-- Losses of other directions, or of other streams, add nothing. -/
theorem tallies_eq_zero (h : ∀ x ∈ xs, ¬(x.stream = k ∧ x.direction = d)) : tallies xs k d = 0 := by
  rw [tallies, List.filter_eq_nil_iff.2 fun x hx => ?_]
  · rfl
  · rw [decide_eq_true_eq]
    exact h x hx

theorem tallies_singleton (k : Nat) (d e : Direction) (source : Source) :
    tallies [⟨k, d, source⟩] k e = if e = d then { discarded := source.size } else 0 := by
  by_cases he : e = d
  · subst he
    rw [if_pos rfl, tallies, List.filter_cons_of_pos (by simp), List.filter_nil, List.map_singleton,
      List.sum_singleton]
    rfl
  · rw [if_neg he, tallies_eq_zero]
    intro x hx hsame
    rw [List.mem_singleton.1 hx] at hsame
    exact he hsame.2.symm

end Loss

/-- What a segment that arrives adds to the counters of its half-stream: one segment, and how its data fits;
nothing if that half-stream is over. -/
def Arrival.tally (a : Arrival) : Counters :=
  if a.half.isClosed then 0 else (a.before.fit a.direction a.segment).count { segments := 1 }

/-! ## What is given up -/

/-- The page that a half-stream gives up first. -/
def HalfStream.offer (stream : Nat) (d : Direction) (h : HalfStream) : List Loss :=
  match h.pages with
  | [] => []
  | page :: _ => [⟨stream, d, .page page⟩]

/-- The page that a connection gives up first. -/
def Connection.offer (c : Connection) : List Loss :=
  match c.forward.pages with
  | [] => c.reverse.offer c.stream .reverse
  | _ :: _ => c.forward.offer c.stream .forward

/-- What is given up while pages are reclaimed. -/
def reclaimLosses {α : Type} (shed? : α → Option (Yield α)) (offer : α → List Loss) (seq : SeqNum) :
    Nat → α → Arena → List Loss
  | 0, _, _ => []
  | fuel + 1, a, arena =>
    match shed? a with
    | none => []
    | some y =>
      let left := arena.giveAll y.freed
      let further :=
        match left.take? seq with
        | some _ => []
        | none => reclaimLosses shed? offer seq fuel y.value left
      offer a ++ further

/-- What is given up while connections are asked for a page. -/
def evictLosses (flow : FlowId) (locked : List FlowId) (seq : SeqNum) : List Entry → Arena → List Loss
  | [], _ => []
  | entry :: rest, arena =>
    if entry.flow = flow ∨ entry.flow ∈ locked then evictLosses flow locked seq rest arena
    else
      let victim := entry.connection
      let claim :=
        reclaim Connection.shed? [.evicted flow entry.flow] seq victim.pageCount victim arena
      let further :=
        match claim.page with
        | some _ => []
        | none => evictLosses flow locked seq rest claim.arena
      reclaimLosses Connection.shed? Connection.offer seq victim.pageCount victim arena ++ further

namespace Work

/-- What is given up for one page. -/
def obtainLosses (w : Work) (locked : List FlowId) (d : Direction) (seq : SeqNum) : List Loss :=
  match w.arena.take? seq with
  | some _ => []
  | none =>
    let claim := evict w.connection.flow locked seq w.entries w.arena
    let own :=
      match claim.page with
      | some _ => []
      | none =>
        let half := w.connection.half d
        reclaimLosses HalfStream.shed? (HalfStream.offer w.connection.stream d) seq half.pageCount half
          claim.arena
    evictLosses w.connection.flow locked seq w.entries w.arena ++ own

/-- What is given up while parts of a payload are stored: pages, and the rest of the piece whose part is
refused one. -/
def storeLosses (limit : Nat) (locked : List FlowId) (d : Direction) (start : SeqNum)
    (payload : List UInt8) : List Portion → Work → List Loss
  | [], _ => []
  | portion :: rest, w =>
    let seq := start.advance portion.span.start
    let further :=
      match (w.relieve limit d).obtain locked d seq with
      | (w, none) => [⟨w.connection.stream, d, .payload ⟨portion.span.start, portion.pieceStop⟩⟩]
      | (w, some page) =>
        let page := page.fill (portion.span.slice payload)
        storeLosses limit locked d start payload rest (w.onHalf d fun h => { value := h.hold page })
    (w.relieve limit d).obtainLosses locked d seq ++ further

/-- What is given up while a segment is worked in. -/
def acceptLosses (w : Work) (limit : Nat) (locked : List FlowId) (d : Direction) (segment : Segment) :
    List Loss :=
  match w.fit d segment with
  | .ahead pieces =>
    storeLosses limit locked d segment.payloadSeq segment.payload (pieces.flatMap Span.portions)
      (w.arrived d segment)
  | .empty | .behind | .covered | .inOrder _ => []

end Work

/-- What is given up while a segment is worked in; nothing for a direction that is over. -/
def Arrival.losses (a : Arrival) : List Loss :=
  if a.half.isClosed then []
  else a.before.acceptLosses a.config.pagesPerConnection a.locked a.direction a.segment

/-- What a segment adds to the counters of a direction of a stream, besides the deliveries. -/
def Arrival.tallies (a : Arrival) (stream : Nat) (d : Direction) : Counters :=
  Counters.onlyFor a.stream a.direction a.tally stream d + Loss.tallies a.losses stream d

/-! ## Half-streams -/

namespace HalfStream

variable {payload : List UInt8} {leaps : Bool} {h h' h'' : HalfStream} {cs cs' : List Chunk} {t t' : Counters}
  {page : Page} {rest : List Page}

/-- `Counts payload h cs t h'`: `h` becomes `h'` and hands the chunks `cs` on while `payload` is worked on; to
its counters that adds what these chunks do, and `t`. -/
structure Counts (payload : List UInt8) (h : HalfStream) (cs : List Chunk) (t : Counters)
    (h' : HalfStream) : Prop where
  /-- The direction is the same. -/
  direction : h'.direction = h.direction
  /-- All chunks are of that direction. -/
  own : ∀ k ∈ cs, k.direction = h.direction
  /-- This is what it adds. -/
  counters : h'.counters = h.counters + ((cs.map (Chunk.tally payload)).sum + t)

/-- Where nothing is handed on, only the counters matter. -/
theorem Counts.silent (hdir : h'.direction = h.direction) (ht : h'.counters = h.counters + t) :
    h.Counts payload [] t h' := by
  refine ⟨hdir, fun k hk => absurd hk List.not_mem_nil, ?_⟩
  rw [List.map_nil, List.sum_nil, zero_add]
  exact ht

theorem Counts.refl (payload : List UInt8) (h : HalfStream) : h.Counts payload [] 0 h :=
  .silent rfl (add_zero _).symm

theorem Counts.trans (hc : h.Counts payload cs t h') (hc' : h'.Counts payload cs' t' h'') :
    h.Counts payload (cs ++ cs') (t + t') h'' := by
  refine ⟨hc'.direction.trans hc.direction, fun k hk => ?_, ?_⟩
  · rcases List.mem_append.1 hk with hk | hk
    · exact hc.own k hk
    · exact (hc'.own k hk).trans hc.direction
  · rw [hc'.counters, hc.counters, List.map_append, List.sum_append, add_assoc, add_add_add_comm]

/-- A chunk counts with its bytes, and with its mark. -/
theorem counts_handOn {source : Source} (hsize : (source.bytes payload).length = source.size) (seq : SeqNum) :
    h.Counts payload [(h.handOn source seq source.size).2] 0 (h.handOn source seq source.size).1 := by
  refine ⟨rfl, fun k hk => by rw [List.mem_singleton.1 hk]; rfl, ?_⟩
  rw [List.map_singleton, List.sum_singleton, add_zero]
  show h.counters.addDelivery source.size h.skipDue = _
  rw [Counters.addDelivery_eq, ← hsize]
  rfl

/-- **A move** counts what it hands on. -/
theorem Move.counts (payload : List UInt8) (hm : Move leaps h cs h') : h.Counts payload cs 0 h' := by
  cases hm with
  | free hp hb => exact .silent rfl (add_zero _).symm
  | trim hp hb => exact .silent rfl (add_zero _).symm
  | @hand page rest phase hp hb hc hn =>
      have hturn := @counts_handOn payload
        { h with phase, pages := rest, skipDue := h.skipDue || h.next != some (h.trimmed page).seq }
        (.page (h.trimmed page)) rfl (h.trimmed page).seq
      exact ⟨hturn.direction, hturn.own, hturn.counters⟩

theorem Moves.counts (payload : List UInt8) (hm : Moves leaps h cs h') : h.Counts payload cs 0 h' := by
  induction hm with
  | refl h => exact .refl payload h
  | head hmove _ ih =>
      have hall := (hmove.counts payload).trans ih
      rwa [add_zero] at hall

theorem counts_close (payload : List UInt8) (h : HalfStream) :
    h.Counts payload h.close.chunks 0 h.close.value := by
  obtain ⟨h', hm, -, hv⟩ := h.close_moves
  have hmoved := hm.counts payload
  rw [hv]
  exact ⟨hmoved.direction, hmoved.own, hmoved.counters⟩

/-- Data in order counts from its offset on. -/
theorem counts_pass (payload : List UInt8) (h : HalfStream) (offset : Nat) :
    h.Counts payload (h.pass payload.length offset).chunks 0 (h.pass payload.length offset).value := by
  cases hn : h.next with
  | none =>
      rw [pass, hn]
      exact .refl payload h
  | some next =>
      obtain ⟨hvalue, hchunks⟩ := pass_some hn payload.length offset
      rw [hvalue, hchunks]
      have hsize : ((Source.payload ⟨offset, payload.length⟩).bytes payload).length =
          (Source.payload ⟨offset, payload.length⟩).size := by
        simp only [Source.bytes, Source.size, Span.slice, Span.size, List.length_take, List.length_drop]
        omega
      exact counts_handOn hsize next

/-- A segment counts once, by its fit.  The empty chunk that tells of a SYN counts nothing. -/
theorem counts_arrive (payload : List UInt8) (h : HalfStream) (segment : Segment) :
    h.Counts payload (h.arrive segment).chunks ((h.arrive segment).value.2.count { segments := 1 })
      (h.arrive segment).value.1 := by
  simp only [arrive, Yield.andThen, synchronize, List.append_nil]
  rw [Fit.count_eq _ { segments := 1 }]
  split
  · split
    · refine ⟨rfl, fun k hk => by rw [List.mem_singleton.1 hk]; rfl, ?_⟩
      rw [List.map_singleton, List.sum_singleton]
      show Fit.count _ (h.counters.addSegment.addDelivery 0 false) = _
      rw [Fit.count_eq, Counters.addDelivery_eq, Counters.addSegment_eq]
      simp only [Chunk.tally, Chunk.delivery, Delivery.tally, handOn, Source.bytes, Span.slice, Span.size,
        Nat.sub_zero, List.take_zero, List.length_nil, Bool.false_eq_true, if_false]
      rw [← Counters.zero_def, add_zero, zero_add, add_assoc]
    · refine .silent rfl ?_
      rw [Fit.count_eq, Counters.addSegment_eq, add_assoc]
  · refine .silent rfl ?_
    rw [Fit.count_eq, Counters.addSegment_eq, add_assoc]

theorem counts_lose (payload : List UInt8) (h : HalfStream) (page : Page) (rest : List Page) :
    h.Counts payload [] { discarded := page.size } (h.lose page rest) := .silent rfl rfl

theorem counts_drop (payload : List UInt8) (h : HalfStream) (bytes : Nat) :
    h.Counts payload [] { discarded := bytes } (h.drop bytes).value := .silent rfl rfl

theorem counts_hold (payload : List UInt8) (h : HalfStream) (page : Page) :
    h.Counts payload [] 0 (h.hold page) := .silent rfl (add_zero _).symm

end HalfStream

/-! ## Connections -/

namespace Connection

open HalfStream (Moves)

variable {payload : List UInt8} {leaps : Bool} {c c' c'' : Connection} {d : Direction}
  {cs cs' : List Chunk} {T T' : Direction → Counters} {h : HalfStream}

/-- `Counts payload cs T c c'`: `c` becomes `c'` and hands the chunks `cs` on while `payload` is worked on; to
the counters of either half-stream that adds what the chunks of its direction do, and `T` besides. -/
structure Counts (payload : List UInt8) (cs : List Chunk) (T : Direction → Counters) (c c' : Connection) :
    Prop where
  /-- It is the same conversation. -/
  kin : Kin c c'
  /-- The half-streams keep their directions. -/
  direction : ∀ d, (c'.half d).direction = (c.half d).direction
  /-- This is what it adds. -/
  counters : ∀ d, (c'.half d).counters =
    (c.half d).counters + (((Chunk.ofDirection d cs).map (Chunk.tally payload)).sum + T d)

theorem Counts.sided (hc : Counts payload cs T c c') (hs : Sided c) : Sided c' :=
  fun d => (hc.direction d).trans (hs d)

theorem Counts.congr (hc : Counts payload cs T c c') (hT : ∀ d, T' d = T d) : Counts payload cs T' c c' :=
  ⟨hc.kin, hc.direction, fun d => by rw [hT, hc.counters]⟩

/-- Nothing is handed on, and nothing else is counted. -/
theorem Counts.still (payload : List UInt8) (c : Connection) (hT : ∀ d, T d = 0) :
    Counts payload [] T c c :=
  ⟨.refl c, fun _ => rfl, fun d => by rw [hT]; exact (add_zero _).symm⟩

theorem Counts.trans (hc : Counts payload cs T c c') (hc' : Counts payload cs' T' c' c'') :
    Counts payload (cs ++ cs') (fun d => T d + T' d) c c'' := by
  refine ⟨hc.kin.trans hc'.kin, fun d => (hc'.direction d).trans (hc.direction d), fun d => ?_⟩
  rw [hc'.counters, hc.counters, Chunk.ofDirection_append, List.map_append, List.sum_append, add_assoc,
    add_add_add_comm]

/-- What one half-stream counts, the connection does. -/
theorem counts_setHalf {t : Counters} (hown : ∀ k ∈ cs, k.direction = d)
    (hh : (c.half d).Counts payload cs t h) :
    Counts payload cs (fun e => if e = d then t else 0) c (c.setHalf d h) := by
  refine ⟨kin_setHalf c d h, fun e => ?_, fun e => ?_⟩
  · by_cases he : d = e
    · subst he
      rw [half_setHalf, hh.direction]
    · rw [half_setHalf_ne _ _ he]
  · by_cases he : d = e
    · subst he
      rw [half_setHalf, hh.counters, Chunk.ofDirection_eq_self hown, if_pos rfl]
    · rw [half_setHalf_ne _ _ he, Chunk.ofDirection_eq_nil hown he, if_neg (Ne.symm he), List.map_nil,
        List.sum_nil, add_zero, add_zero]

/-- So it does if nothing is handed on. -/
theorem counts_setHalf_silent {t : Counters} (hh : (c.half d).Counts payload [] t h) :
    Counts payload [] (fun e => if e = d then t else 0) c (c.setHalf d h) :=
  counts_setHalf (fun _ hk => absurd hk List.not_mem_nil) hh

/-- So it does if there is nothing else to count than chunks. -/
theorem counts_setHalf_zero (hs : Sided c) (hh : (c.half d).Counts payload cs 0 h) :
    Counts payload cs (fun _ => 0) c (c.setHalf d h) :=
  (counts_setHalf (fun k hk => (hh.own k hk).trans (hs d)) hh).congr fun _ => (ite_self _).symm

theorem Onward.counts (payload : List UInt8) (ho : Onward leaps c cs c') :
    Counts payload cs (fun _ => 0) c c' := by
  have hmoved := fun d => (ho.moves d).counts payload
  exact ⟨ho.kin, fun d => (hmoved d).direction, fun d => (hmoved d).counters⟩

theorem counts_close (payload : List UInt8) (hs : Sided c) :
    Counts payload c.close.chunks (fun _ => 0) c c.close.value := by
  have hcloseIn : ∀ {c : Connection} (d : Direction), Sided c →
      Counts payload (c.closeIn d).chunks (fun _ => 0) c (c.closeIn d).value := by
    intro c d hs
    simp only [closeIn, onHalf, Yield.map]
    split
    · exact counts_setHalf_zero hs (.refl payload _)
    · exact counts_setHalf_zero hs ((c.half d).counts_close payload)
  have hforward := hcloseIn .forward hs
  exact (hforward.trans (hcloseIn .reverse (hforward.sided hs))).congr fun _ => (add_zero _).symm

end Connection

/-! ## Requests for pages -/

/-- What giving one page up tells, reclaiming pages tells of all of them. -/
theorem reclaim_tells {α : Type} {R : α → List Loss → α → Prop} {shed? : α → Option (Yield α)}
    {offer : α → List Loss} (hrefl : ∀ a, R a [] a)
    (htrans : ∀ {a a' a'' xs ys}, R a xs a' → R a' ys a'' → R a (xs ++ ys) a'')
    (hshed : ∀ {a y}, shed? a = some y → R a (offer a) y.value) (remarks : List Note) (seq : SeqNum)
    (fuel : Nat) (a : α) (arena : Arena) :
    R a (reclaimLosses shed? offer seq fuel a arena) (reclaim shed? remarks seq fuel a arena).value := by
  induction fuel generalizing a arena with
  | zero => exact hrefl a
  | succ fuel ih =>
      rw [reclaim, reclaimLosses]
      cases hy : shed? a with
      | none => exact hrefl a
      | some y =>
          simp only
          cases (arena.giveAll y.freed).take? seq with
          | some out => exact htrans (hshed hy) (hrefl _)
          | none => exact htrans (hshed hy) (ih y.value _)

/-- `Loses payload k d h xs h'`: `h`, which belongs to direction `d` of stream `k`, gives up `xs` and becomes
`h'`. -/
structure HalfStream.Loses (payload : List UInt8) (k : Nat) (d : Direction) (h : HalfStream)
    (xs : List Loss) (h' : HalfStream) : Prop where
  /-- All losses are of this direction of this stream. -/
  own : ∀ x ∈ xs, x.stream = k ∧ x.direction = d
  /-- They are counted. -/
  counts : h.Counts payload [] (Loss.tallies xs k d) h'

theorem HalfStream.loses_reclaim (payload : List UInt8) (k : Nat) (d : Direction) (remarks : List Note)
    (seq : SeqNum) (fuel : Nat) (h : HalfStream) (arena : Arena) :
    h.Loses payload k d (reclaimLosses HalfStream.shed? (HalfStream.offer k d) seq fuel h arena)
      (reclaim HalfStream.shed? remarks seq fuel h arena).value := by
  refine reclaim_tells (R := fun h xs h' => h.Loses payload k d xs h') (fun h => ⟨by simp, .refl _ h⟩) ?_ ?_
    remarks seq fuel h arena
  · intro h h' h'' xs ys hl hl'
    refine ⟨fun x hx => (List.mem_append.1 hx).elim (hl.own x) (hl'.own x), ?_⟩
    rw [Loss.tallies_append]
    exact hl.counts.trans hl'.counts
  · intro h y hy
    obtain ⟨page, rest, hp, hvalue, -⟩ := HalfStream.shed?_some hy
    rw [HalfStream.offer, hp, hvalue]
    refine ⟨fun x hx => by rw [List.mem_singleton.1 hx]; exact ⟨rfl, rfl⟩, ?_⟩
    rw [Loss.tallies_singleton, if_pos rfl]
    exact h.counts_lose payload page rest

/-- `Loses payload c xs c'`: `c` gives up `xs` and becomes `c'`. -/
structure Connection.Loses (payload : List UInt8) (c : Connection) (xs : List Loss) (c' : Connection) :
    Prop where
  /-- All losses are of its stream. -/
  own : ∀ x ∈ xs, x.stream = c.stream
  /-- They are counted. -/
  counts : c.Counts payload [] (Loss.tallies xs c.stream) c'

theorem Connection.loses_reclaim (payload : List UInt8) (remarks : List Note) (seq : SeqNum) (fuel : Nat)
    (c : Connection) (arena : Arena) :
    c.Loses payload (reclaimLosses Connection.shed? Connection.offer seq fuel c arena)
      (reclaim Connection.shed? remarks seq fuel c arena).value := by
  refine reclaim_tells (R := Connection.Loses payload)
    (fun c => ⟨by simp, .still payload c fun _ => rfl⟩) ?_ ?_ remarks seq fuel c arena
  · intro c c' c'' xs ys hl hl'
    have hstream := hl.counts.kin.stream
    refine ⟨fun x hx => ?_, ?_⟩
    · rcases List.mem_append.1 hx with hx | hx
      · exact hl.own x hx
      · exact (hl'.own x hx).trans hstream
    · exact (hl.counts.trans (hstream ▸ hl'.counts)).congr fun d => Loss.tallies_append
  · intro c y hy
    have hpos : 0 < c.pageCount := Nat.pos_of_ne_zero fun h => by
      rw [Connection.shed?_of_empty h] at hy
      cases hy
    obtain ⟨d, page, rest, notes, hp, hlast, hshed⟩ := Connection.shed?_of_pos hpos
    rw [hshed] at hy
    obtain rfl := Option.some.inj hy
    have hoffer : c.offer = [⟨c.stream, d, .page page⟩] := by
      cases d with
      | forward =>
          have hforward : c.forward.pages = page :: rest := hp
          simp only [Connection.offer, HalfStream.offer, hforward]
      | reverse =>
          have hreverse : c.reverse.pages = page :: rest := hp
          simp only [Connection.offer, HalfStream.offer, hlast rfl, hreverse]
    rw [hoffer]
    refine ⟨fun x hx => by rw [List.mem_singleton.1 hx], ?_⟩
    exact (Connection.counts_setHalf_silent ((c.half d).counts_lose payload page rest)).congr fun e =>
      Loss.tallies_singleton c.stream d e _

/-- The losses of connections that are asked for a page are theirs, and not those of the conversation that it
is for. -/
theorem exists_of_mem_evictLosses {flow : FlowId} {locked : List FlowId} {seq : SeqNum}
    {entries : List Entry} {arena : Arena} {x : Loss} (hx : x ∈ evictLosses flow locked seq entries arena) :
    ∃ e ∈ entries, e.flow ≠ flow ∧ e.connection.stream = x.stream := by
  -- a loss of one of the others is one of an entry of the whole list
  have hlater : ∀ {entry : Entry} {rest : List Entry},
      (∃ e ∈ rest, e.flow ≠ flow ∧ e.connection.stream = x.stream) →
        ∃ e ∈ entry :: rest, e.flow ≠ flow ∧ e.connection.stream = x.stream :=
    fun ⟨e, he, hof⟩ => ⟨e, List.mem_cons_of_mem _ he, hof⟩
  induction entries generalizing arena with
  | nil => cases hx
  | cons entry rest ih =>
      rw [evictLosses] at hx
      split at hx
      · exact hlater (ih hx)
      · next hasked =>
          rcases List.mem_append.1 hx with hx | hx
          · have hown := entry.connection.loses_reclaim [] [.evicted flow entry.flow] seq
              entry.connection.pageCount arena
            exact ⟨entry, List.mem_cons_self .., fun h => hasked (Or.inl h), (hown.own x hx).symm⟩
          · split at hx
            · cases hx
            · exact hlater (ih hx)

/-- **Asking other connections for a page** counts what each of them gives up. -/
theorem counts_evict (payload : List UInt8) (flow : FlowId) (locked : List FlowId) (seq : SeqNum)
    (entries : List Entry) (arena : Arena) (hdistinct : (entries.map fun e => e.connection.stream).Nodup) :
    List.Forall₂ (Entry.Becomes fun c c' =>
        c.Counts payload [] (Loss.tallies (evictLosses flow locked seq entries arena) c.stream) c')
      entries (evict flow locked seq entries arena).value := by
  induction entries generalizing arena with
  | nil => exact .nil
  | cons entry rest ih =>
      rw [List.map_cons, List.nodup_cons] at hdistinct
      obtain ⟨hfirst, hrest⟩ := hdistinct
      -- what the others lose is not of the first one's stream
      have hothers : ∀ arena d,
          Loss.tallies (evictLosses flow locked seq rest arena) entry.connection.stream d = 0 := by
        refine fun arena d => Loss.tallies_eq_zero fun x hx hsame => hfirst ?_
        obtain ⟨e, he, -, hstream⟩ := exists_of_mem_evictLosses hx
        exact (hstream.trans hsame.1) ▸ List.mem_map_of_mem he
      rw [evict, evictLosses]
      split
      · exact .cons ⟨_, rfl, .still payload _ (hothers arena)⟩ (ih arena hrest)
      · have hclaim := entry.connection.loses_reclaim payload [.evicted flow entry.flow] seq
          entry.connection.pageCount arena
        simp only
        generalize reclaim Connection.shed? [.evicted flow entry.flow] seq entry.connection.pageCount
          entry.connection arena = claim at *
        generalize reclaimLosses Connection.shed? Connection.offer seq entry.connection.pageCount
          entry.connection arena = xs at *
        -- and what it loses is not of theirs
        have hown : ∀ e ∈ rest, ∀ d, Loss.tallies xs e.connection.stream d = 0 := fun e he d =>
          Loss.tallies_eq_zero fun x hx hsame =>
            hfirst ((hclaim.own x hx).symm.trans hsame.1 ▸ List.mem_map_of_mem he)
        cases claim.page with
        | some page =>
            simp only [List.append_nil]
            exact .cons ⟨_, rfl, hclaim.counts⟩
              (List.forall₂_same.2 fun e he => ⟨_, rfl, .still payload _ (hown e he)⟩)
        | none =>
            refine .cons ⟨_, rfl, hclaim.counts.congr fun d => ?_⟩ ?_
            · rw [Loss.tallies_append, hothers, add_zero]
            · refine ((List.forall₂_and_left _ _).2 ⟨hown, ih claim.arena hrest⟩).imp ?_
              rintro e e' ⟨hzero, c', rfl, hcounts⟩
              refine ⟨c', rfl, hcounts.congr fun d => ?_⟩
              rw [Loss.tallies_append, hzero, zero_add]

/-! ## The work on a segment -/

namespace Work

open Connection (Sided)

variable {w w' w'' : Work} {limit : Nat} {locked : List FlowId} {d : Direction} {start : SeqNum}
  {payload : List UInt8} {segment : Segment} {L L' : Nat → Direction → Counters}

/-- No two connections have one stream. -/
structure DistinctStreams (w : Work) : Prop where
  /-- No two of the registry have. -/
  streams : (w.entries.map fun e => e.connection.stream).Nodup
  /-- The connection of the segment shares its stream with no other one. -/
  own : ∀ e ∈ w.entries, e.flow ≠ w.connection.flow → e.connection.stream ≠ w.connection.stream

/-- In the course of the work the counters of every connection of a stream `k` get what its chunks add, and
`L k` besides.  The connection of the segment is the only one to hand chunks on. -/
structure Counts (payload : List UInt8) (L : Nat → Direction → Counters) (w w' : Work) : Prop where
  /-- The connection of the segment. -/
  connection : ∃ cs, w'.chunks = w.chunks ++ cs ∧
    w.connection.Counts payload cs (L w.connection.stream) w'.connection
  /-- The others. -/
  entries : List.Forall₂ (Entry.Becomes fun c c' => c.Kin c' ∧
    (c.flow ≠ w.connection.flow → c.Counts payload [] (L c.stream) c')) w.entries w'.entries

theorem Counts.kin (hc : w.Counts payload L w') : w.connection.Kin w'.connection :=
  hc.connection.elim fun _ h => h.2.kin

theorem Counts.sided (hc : w.Counts payload L w') (hs : Sided w.connection) : Sided w'.connection :=
  hc.connection.elim fun _ h => h.2.sided hs

theorem Counts.congr (hc : w.Counts payload L w') (hL : ∀ k d, L' k d = L k d) : w.Counts payload L' w' := by
  obtain ⟨cs, hchunks, hown⟩ := hc.connection
  refine ⟨⟨cs, hchunks, hown.congr (hL _)⟩, hc.entries.imp ?_⟩
  rintro e e' ⟨c', rfl, hkin, hcounts⟩
  exact ⟨c', rfl, hkin, fun hne => (hcounts hne).congr (hL _)⟩

/-- The connections keep their streams. -/
theorem Counts.distinctStreams (hc : w.Counts payload L w') (ha : w.DistinctStreams) :
    w'.DistinctStreams := by
  have hsame : w'.entries.map (fun e => (e.flow, e.connection.stream)) =
      w.entries.map fun e => (e.flow, e.connection.stream) := by
    refine Reassembly.map_eq_of_forall₂ hc.entries ?_
    rintro e e' ⟨c', rfl, hkin, -⟩
    exact Prod.ext hkin.flow hkin.stream
  refine ⟨?_, fun e' he' hne => ?_⟩
  · have hstreams := congrArg (List.map Prod.snd) hsame
    rw [List.map_map, List.map_map] at hstreams
    exact hstreams ▸ ha.streams
  · have hmem : (e'.flow, e'.connection.stream) ∈ w.entries.map fun e => (e.flow, e.connection.stream) :=
      hsame ▸ List.mem_map_of_mem he'
    obtain ⟨e, he, heq⟩ := List.mem_map.1 hmem
    obtain ⟨hflow, hstream⟩ := Prod.mk.inj heq
    rw [← hstream, hc.kin.stream]
    exact ha.own e he (hflow ▸ hc.kin.flow ▸ hne)

theorem Counts.trans (hc : w.Counts payload L w') (hc' : w'.Counts payload L' w'') :
    w.Counts payload (fun k d => L k d + L' k d) w'' := by
  obtain ⟨cs, hchunks, hown⟩ := hc.connection
  obtain ⟨cs', hchunks', hown'⟩ := hc'.connection
  refine ⟨⟨cs ++ cs', by rw [hchunks', hchunks, List.append_assoc], ?_⟩, ?_⟩
  · rw [hown.kin.stream] at hown'
    exact hown.trans hown'
  · refine becomes_comp ?_ hc.entries hc'.entries
    rintro c c' c'' ⟨hkin, hfirst⟩ ⟨hkin', hthen⟩
    refine ⟨hkin.trans hkin', fun hne => ?_⟩
    have hthen := hthen (by rw [hkin.flow, hown.kin.flow]; exact hne)
    rw [hkin.stream] at hthen
    exact (hfirst hne).trans hthen

/-- Nothing becomes of the connections. -/
theorem counts_still (hconn : w'.connection = w.connection) (hentries : w'.entries = w.entries)
    (hchunks : w'.chunks = w.chunks) : w.Counts payload (fun _ _ => 0) w' := by
  refine ⟨⟨[], by rw [hchunks, List.append_nil], ?_⟩, ?_⟩
  · rw [hconn]
    exact .still payload _ fun _ => rfl
  · rw [hentries]
    exact becomes_refl (fun c => ⟨.refl c, fun _ => .still payload c fun _ => rfl⟩) _

/-- What the connection of the segment does counts for it alone. -/
theorem counts_absorb {y : Yield Connection} (ha : w.DistinctStreams)
    (hy : w.connection.Counts payload y.chunks (L w.connection.stream) y.value)
    (hothers : ∀ k, k ≠ w.connection.stream → ∀ d, L k d = 0) : w.Counts payload L (w.absorb y) := by
  refine ⟨⟨y.chunks, rfl, hy⟩, List.forall₂_same.2 fun e he => ⟨_, rfl, .refl _, fun hne => ?_⟩⟩
  exact .still payload _ (hothers _ (ha.own e he hne))

theorem counts_onHalf {t : Counters} {f : HalfStream → Yield HalfStream} (ha : w.DistinctStreams)
    (hs : Sided w.connection) (hh : (w.connection.half d).Counts payload (f (w.connection.half d)).chunks t
      (f (w.connection.half d)).value) :
    w.Counts payload (Counters.onlyFor w.connection.stream d t) (w.onHalf d f) := by
  refine counts_absorb ha ?_ fun k hk e => if_neg fun hsame => hk hsame.1.symm
  refine (Connection.counts_setHalf (fun k hk => (hh.own k hk).trans (hs d)) hh).congr fun e => ?_
  simp only [Counters.onlyFor, true_and, eq_comm]

/-- A step that hands chunks on counts these. -/
theorem counts_onHalf_zero {f : HalfStream → Yield HalfStream} (ha : w.DistinctStreams)
    (hs : Sided w.connection)
    (hh : (w.connection.half d).Counts payload (f (w.connection.half d)).chunks 0
      (f (w.connection.half d)).value) : w.Counts payload (fun _ _ => 0) (w.onHalf d f) :=
  (counts_onHalf ha hs hh).congr fun k e => (Counters.onlyFor_zero _ d k e).symm

theorem counts_relieve (ha : w.DistinctStreams) (hs : Sided w.connection) :
    w.Counts payload (fun _ _ => 0) (w.relieve limit d) :=
  counts_absorb ha ((Connection.relieve_onward hs limit d).counts payload) fun _ _ _ => rfl

/-- **A request for a page** counts what is given up for it. -/
theorem counts_obtain (payload : List UInt8) (ha : w.DistinctStreams) (locked : List FlowId) (d : Direction)
    (seq : SeqNum) :
    w.Counts payload (Loss.tallies (w.obtainLosses locked d seq)) (w.obtain locked d seq).1 := by
  rw [obtain, obtainLosses]
  cases w.arena.take? seq with
  | some out => exact counts_still rfl rfl rfl
  | none =>
      have hevict := counts_evict payload w.connection.flow locked seq w.entries w.arena ha.streams
      -- the connection of the segment is not asked
      have hspared : ∀ e, Loss.tallies (evictLosses w.connection.flow locked seq w.entries w.arena)
          w.connection.stream e = 0 := by
        refine fun e => Loss.tallies_eq_zero fun x hx hsame => ?_
        obtain ⟨entry, hmem, hne, hstream⟩ := exists_of_mem_evictLosses hx
        exact ha.own entry hmem hne (hstream.trans hsame.1)
      simp only
      generalize evict w.connection.flow locked seq w.entries w.arena = claim at *
      generalize evictLosses w.connection.flow locked seq w.entries w.arena = xs at *
      cases claim.page with
      | some page =>
          simp only [List.append_nil]
          refine ⟨⟨[], (List.append_nil _).symm, .still payload _ hspared⟩, hevict.imp ?_⟩
          rintro e e' ⟨c', rfl, hcounts⟩
          exact ⟨c', rfl, hcounts.kin, fun _ => hcounts⟩
      | none =>
          have hclaim := (w.connection.half d).loses_reclaim payload w.connection.stream d [] seq
            (w.connection.half d).pageCount claim.arena
          simp only
          generalize reclaimLosses HalfStream.shed? (HalfStream.offer w.connection.stream d) seq
            (w.connection.half d).pageCount (w.connection.half d) claim.arena = ys at *
          refine ⟨⟨[], (List.append_nil _).symm, ?_⟩, ?_⟩
          · refine (Connection.counts_setHalf_silent hclaim.counts).congr fun e => ?_
            rw [Loss.tallies_append, hspared, zero_add]
            split
            · next he => rw [he]
            · next he =>
                exact Loss.tallies_eq_zero fun x hx hsame => he (hsame.2.symm.trans (hclaim.own x hx).2)
          · refine ((List.forall₂_and_left _ _).2 ⟨fun e he => he, hevict⟩).imp ?_
            rintro e e' ⟨he, c', rfl, hcounts⟩
            refine ⟨c', rfl, hcounts.kin, fun hne => hcounts.congr fun f => ?_⟩
            have hnone : Loss.tallies ys e.connection.stream f = 0 := Loss.tallies_eq_zero fun x hx hsame =>
              ha.own e he hne (hsame.1.symm.trans (hclaim.own x hx).1)
            rw [Loss.tallies_append, hnone, add_zero]

/-- **Storing parts of a payload** counts what is given up meanwhile. -/
theorem counts_store (ps : List Portion) (ha : w.DistinctStreams) (hs : Sided w.connection) :
    w.Counts payload (Loss.tallies (storeLosses limit locked d start payload ps w))
      (store limit locked d start payload ps w) := by
  induction ps generalizing w with
  | nil => exact counts_still rfl rfl rfl
  | cons p rest ih =>
      have hrelieve : w.Counts payload _ (w.relieve limit d) := counts_relieve ha hs
      have hobtain := hrelieve.trans (counts_obtain payload (hrelieve.distinctStreams ha) locked d
        (start.advance p.span.start))
      rw [store, storeLosses]
      generalize (w.relieve limit d).obtainLosses locked d (start.advance p.span.start) = xs at *
      generalize (w.relieve limit d).obtain locked d (start.advance p.span.start) = out at *
      obtain ⟨w', page?⟩ := out
      have hdistinct := hobtain.distinctStreams ha
      have hsided := hobtain.sided hs
      cases page? with
      | none =>
          have hdrop := counts_onHalf (f := fun h => h.drop (p.pieceStop - p.span.start)) hdistinct hsided
            ((w'.connection.half d).counts_drop payload _)
          refine (hobtain.trans hdrop).congr fun k e => ?_
          rw [Loss.tallies_append, zero_add]
          refine congrArg _ ?_
          by_cases hk : w'.connection.stream = k
          · subst hk
            rw [Loss.tallies_singleton, Counters.onlyFor]
            simp only [true_and, eq_comm]
            rfl
          · rw [Loss.tallies_eq_zero, Counters.onlyFor, if_neg fun h => hk h.1]
            intro x hx hsame
            rw [List.mem_singleton.1 hx] at hsame
            exact hk hsame.1
      | some page =>
          have hhold := counts_onHalf_zero (f := fun h =>
            { value := h.hold (page.fill (p.span.slice payload)) }) hdistinct hsided
            ((w'.connection.half d).counts_hold payload _)
          have hheld := hobtain.trans hhold
          refine (hheld.trans (ih (hheld.distinctStreams ha) (hheld.sided hs))).congr fun k e => ?_
          rw [Loss.tallies_append, zero_add, add_zero]

/-- **Working a segment in** for a direction that is open counts the segment, and what is given up for it. -/
theorem counts_accept (ha : w.DistinctStreams) (hs : Sided w.connection) :
    w.Counts segment.payload (fun k e =>
        Counters.onlyFor w.connection.stream d ((w.fit d segment).count { segments := 1 }) k e +
          Loss.tallies (w.acceptLosses limit locked d segment) k e)
      (w.accept limit locked d segment) := by
  have harrived : w.Counts segment.payload
      (Counters.onlyFor w.connection.stream d ((w.fit d segment).count { segments := 1 }))
      (w.arrived d segment) := counts_onHalf (f := fun h => (h.arrive segment).map Prod.fst) ha hs
    ((w.connection.half d).counts_arrive segment.payload segment)
  have hplaced : w.Counts segment.payload (fun k e =>
      Counters.onlyFor w.connection.stream d ((w.fit d segment).count { segments := 1 }) k e +
        Loss.tallies (w.acceptLosses limit locked d segment) k e) (w.placed limit locked d segment) := by
    rw [placed, acceptLosses]
    refine harrived.trans ?_
    cases w.fit d segment with
    | empty | behind | covered => exact counts_still rfl rfl rfl
    | inOrder offset =>
        exact counts_onHalf_zero (harrived.distinctStreams ha) (harrived.sided hs)
          (HalfStream.counts_pass segment.payload _ offset)
    | ahead pieces => exact counts_store _ (harrived.distinctStreams ha) (harrived.sided hs)
  have hdrained := hplaced.trans (counts_onHalf_zero (d := d) (f := HalfStream.drain)
    (hplaced.distinctStreams ha) (hplaced.sided hs) ((HalfStream.drain_moves _).counts segment.payload))
  have hrelieve : ((w.placed limit locked d segment).onHalf d HalfStream.drain).Counts segment.payload
      (fun _ _ => 0) (w.settled limit locked d segment) :=
    counts_relieve (hdrained.distinctStreams ha) (hdrained.sided hs)
  have hsettled := hdrained.trans hrelieve
  rw [accept_eq]
  split
  · have hclosed := hsettled.trans (counts_onHalf_zero (d := d) (f := HalfStream.close)
      (hsettled.distinctStreams ha) (hsettled.sided hs) (HalfStream.counts_close segment.payload _))
    refine hclosed.congr fun k e => ?_
    rw [add_zero, add_zero, add_zero]
  · refine hsettled.congr fun k e => ?_
    rw [add_zero, add_zero]

/-! ### Whose losses they are -/

/-- The streams of the connections that are there: that of the segment, and the others. -/
def streams (w : Work) : List Nat := w.connection.stream :: w.entries.map fun e => e.connection.stream

theorem streams_continues (h : Continues w w') : w'.streams = w.streams := by
  refine congrArg₂ List.cons h.connection.kin.stream (Reassembly.map_eq_of_forall₂ h.entries ?_)
  rintro e e' ⟨c', rfl, hsheds⟩
  exact hsheds.kin.stream

theorem streams_arrived (w : Work) (d : Direction) (segment : Segment) :
    (w.arrived d segment).streams = w.streams :=
  congrArg (· :: _) (Connection.kin_setHalf w.connection d _).stream

theorem mem_streams_of_obtain {seq : SeqNum} {x : Loss} (hx : x ∈ w.obtainLosses locked d seq) :
    x.stream ∈ w.streams := by
  rw [obtainLosses] at hx
  split at hx
  · cases hx
  · rcases List.mem_append.1 hx with hx | hx
    · obtain ⟨e, he, -, hstream⟩ := exists_of_mem_evictLosses hx
      exact List.mem_cons_of_mem _ (hstream ▸ List.mem_map_of_mem he)
    · split at hx
      · cases hx
      · have hown := (w.connection.half d).loses_reclaim [] w.connection.stream d [] seq
          (w.connection.half d).pageCount (evict w.connection.flow locked seq w.entries w.arena).arena
        rw [(hown.own x hx).1]
        exact List.mem_cons_self ..

theorem mem_streams_of_store {ps : List Portion} {x : Loss}
    (hx : x ∈ storeLosses limit locked d start payload ps w) : x.stream ∈ w.streams := by
  induction ps generalizing w with
  | nil => cases hx
  | cons p rest ih =>
      have hrelieve := continues_relieve w limit d
      have hobtain := hrelieve.trans (continues_obtain (w.relieve limit d) locked d
        (start.advance p.span.start))
      rw [storeLosses] at hx
      rcases List.mem_append.1 hx with hx | hx
      · rw [← streams_continues hrelieve]
        exact mem_streams_of_obtain hx
      · rw [← streams_continues hobtain]
        generalize (w.relieve limit d).obtain locked d (start.advance p.span.start) = out at *
        obtain ⟨w', page?⟩ := out
        cases page? with
        | none =>
            rw [List.mem_singleton.1 hx]
            exact List.mem_cons_self ..
        | some page =>
            have hheld : Continues w' (w'.onHalf d fun h =>
                { value := h.hold (page.fill (p.span.slice payload)) }) :=
              continues_absorb (Connection.continues_setHalf rfl)
            rw [← streams_continues hheld]
            exact ih hx

end Work

/-- What is given up belonged to live connections. -/
theorem Arrival.mem_streams_of_losses {a : Arrival} {x : Loss} (hx : x ∈ a.losses) :
    x.stream ∈ a.before.streams := by
  rw [losses] at hx
  split at hx
  · cases hx
  · rw [Work.acceptLosses] at hx
    cases hfit : a.before.fit a.direction a.segment with
    | ahead pieces =>
        rw [hfit] at hx
        rw [← a.before.streams_arrived a.direction a.segment]
        exact Work.mem_streams_of_store hx
    | empty | behind | covered | inOrder =>
        rw [hfit] at hx
        cases hx

/-- **A segment that arrives** counts for its half-stream, and what is given up for it counts where it was. -/
theorem Arrival.counts_work {a : Arrival} (ha : a.before.DistinctStreams) (hs : a.connection.Sided) :
    a.before.Counts a.segment.payload a.tallies a.work := by
  cases hclosed : a.half.isClosed with
  | true =>
      obtain ⟨hconn, hentries, -, hchunks⟩ := work_of_closed hclosed
      refine (Work.counts_still hconn hentries hchunks).congr fun k d => ?_
      rw [tallies, tally, losses, if_pos hclosed, if_pos hclosed, Counters.onlyFor_zero, Loss.tallies_nil,
        add_zero]
  | false =>
      rw [work_of_open hclosed]
      refine (Work.counts_accept ha hs).congr fun k d => ?_
      rw [tallies, tally, losses, if_neg (ne_true_of_eq_false hclosed), if_neg (ne_true_of_eq_false hclosed)]
      rfl

end TcpStreams
