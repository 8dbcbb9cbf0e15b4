import TcpStreams.Proofs.Breakdowns
import TcpStreams.Proofs.Evictions
import TcpStreams.Proofs.Room

/-!
# Refusals

A request for a page may be in vain.  The connection is then left as the request found it, so that the
data can be sent once more; what remains of the piece that the page was for is counted as given up, and
nothing more is stored.  The pieces after it are given up as well, and no counter tells of them.

* `Work.store_refused`: a request in vain ends the storing.
* `Span.exists_flatMap_portions`: where the portions of some pieces part.
* `Arrival.unstored`: the number of bytes that find no page.
* `Arrival.Refused`: what a request in vain leads to.
* `Session.refusals_counted`: every request in vain leads to that.
-/

namespace TcpStreams

/-! ## Storing comes to an end -/

namespace Work

variable {limit : Nat} {locked : List FlowId} {d : Direction} {start : SeqNum} {payload : List UInt8}
  {w : Work} {r : PageRequest}

/-- The request for the page of the first portion, and what it leads to. -/
theorem storeRequests_cons (p : Portion) (rest : List Portion) :
    let q : PageRequest :=
      { work := w.relieve limit d, locked, direction := d, seq := start.advance p.span.start }
    (q.page? = none ∧ storeRequests limit locked d start payload (p :: rest) w = [q] ∧
      store limit locked d start payload (p :: rest) w =
        q.after.onHalf d fun h => h.drop (p.pieceStop - p.span.start)) ∨
    (q.page? ≠ none ∧ ∃ w', storeRequests limit locked d start payload (p :: rest) w =
        q :: storeRequests limit locked d start payload rest w' ∧
      store limit locked d start payload (p :: rest) w =
        store limit locked d start payload rest w') := by
  simp only [storeRequests, store, PageRequest.page?, PageRequest.after]
  generalize (w.relieve limit d).obtain locked d (start.advance p.span.start) = out
  obtain ⟨w', page?⟩ := out
  cases page? with
  | none => exact Or.inl ⟨rfl, rfl, rfl⟩
  | some page => exact Or.inr ⟨Option.some_ne_none _, _, rfl, rfl⟩

/-- **A request in vain ends the storing.** All requests before it led to pages, one for each portion, and
none comes after it; what remains of its piece is counted. -/
theorem store_refused {ps : List Portion} (hr : r ∈ storeRequests limit locked d start payload ps w)
    (hnone : r.page? = none) :
    ∃ stored portion behind granted, ps = stored ++ portion :: behind ∧
      storeRequests limit locked d start payload ps w = granted ++ [r] ∧
      (∀ q ∈ granted, q.page? ≠ none) ∧
      granted.map PageRequest.seq = stored.map (fun p => start.advance p.span.start) ∧
      r.direction = d ∧ r.seq = start.advance portion.span.start ∧
      store limit locked d start payload ps w =
        r.after.onHalf d fun h => h.drop (portion.pieceStop - portion.span.start) := by
  induction ps generalizing w with
  | nil => cases hr
  | cons p rest ih =>
      rcases @storeRequests_cons limit locked d start payload w p rest with
        ⟨-, hrequests, hstore⟩ | ⟨hsome, w', hrequests, hstore⟩
      · rw [hrequests] at hr ⊢
        obtain rfl := List.mem_singleton.1 hr
        exact ⟨[], p, rest, [], rfl, rfl, (fun _ hq => absurd hq List.not_mem_nil), rfl, rfl, rfl, hstore⟩
      · rw [hrequests] at hr ⊢
        rw [hstore]
        rcases List.mem_cons.1 hr with rfl | hr
        · exact absurd hnone hsome
        · obtain ⟨stored, portion, behind, granted, rfl, hrest, hgranted, hseqs, hlast⟩ := ih hr
          refine ⟨p :: stored, portion, behind, _ :: granted, rfl, congrArg _ hrest, ?_,
            congrArg _ hseqs, hlast⟩
          intro q hq
          rcases List.mem_cons.1 hq with rfl | hq
          · exact hsome
          · exact hgranted q hq

end Work

/-! ## What a request in vain leads to -/

/-- A request in vain changes no connection. -/
theorem PageRequest.after_of_refused {ceiling : Nat} {r : PageRequest} (hs : r.work.Sound ceiling)
    (hnone : r.page? = none) :
    r.after.connection = r.work.connection ∧ r.after.entries = r.work.entries := by
  have hmet : Work.Met r.direction r.locked r.seq r.work r.after r.page? :=
    (Work.obtain_met hs r.locked r.direction r.seq).1
  rw [hnone] at hmet
  cases hmet with
  | refused _ _ hconnection hentries => exact ⟨hconnection, hentries⟩

/-- How a segment fits does not depend on what was counted. -/
theorem HalfStream.fit_arrive_counters (h : HalfStream) (counters : Counters) (segment : Segment) :
    (({ h with counters } : HalfStream).arrive segment).value.2 = (h.arrive segment).value.2 := by
  simp only [arrive, synchronize, Yield.andThen]
  split
  · split <;> rfl
  · rfl

namespace Arrival

variable {ceiling : Nat} {a : Arrival} {r : PageRequest}

/-- The work once the data of the segment went through or is stored. -/
def workPlaced (a : Arrival) : Work :=
  a.before.placed a.config.pagesPerConnection a.locked a.direction a.segment

/-- The number of bytes that find no page: those of the portions beyond the requests that led to one. -/
def unstored (a : Arrival) : Nat :=
  if a.half.isClosed then 0
  else
    ((a.before.fit a.direction a.segment).portions.drop
      (a.requests.countP fun r => r.page?.isSome)).map (fun p => p.span.size) |>.sum

/-- What a request in vain leads to, made for the bytes from some offset of a piece on. -/
structure Refused (a : Arrival) (r : PageRequest) (earlier : List Span) (piece : Span)
    (later : List Span) (offset : Nat) : Prop where
  /-- The piece is one of those that have to wait. -/
  fit : a.before.fit a.direction a.segment = .ahead (earlier ++ piece :: later)
  /-- The offset lies in it. -/
  inside : piece.start ≤ offset ∧ offset < piece.stop
  /-- The request is for the half-stream that the segment arrives at. -/
  direction : r.direction = a.direction
  /-- The page was to begin at the offset. -/
  seq : r.seq = a.segment.payloadSeq.advance offset
  /-- All requests before it led to pages, and it is the last one. -/
  last : ∃ granted, a.requests = granted ++ [r] ∧ ∀ q ∈ granted, q.page? ≠ none
  /-- The request changes neither its connection nor the others. -/
  harmless : r.after.connection = r.work.connection ∧ r.after.entries = r.work.entries
  /-- All that changes once it was made is that the rest of the piece is counted. -/
  counted : a.workPlaced.connection = r.work.connection.setHalf a.direction
    { r.half with counters := r.half.counters.addDiscard (piece.stop - offset) }
  /-- The other connections stay as they are. -/
  others : a.workPlaced.entries = r.work.entries
  /-- Whatever is sent next fits as it would have before. -/
  again : ∀ segment, ((a.workPlaced.connection.half a.direction).arrive segment).value.2 =
    (r.half.arrive segment).value.2
  /-- No page is found for the rest of the piece and for all pieces after it. -/
  unstored : a.unstored = (piece.stop - offset) + (later.map Span.size).sum

/-- There is a request for every portion of data that is ahead, until one is in vain. -/
theorem requests_of_ahead {pieces : List Span} (hopen : a.half.isClosed = false)
    (hfit : a.before.fit a.direction a.segment = .ahead pieces) :
    a.requests = Work.storeRequests a.config.pagesPerConnection a.locked a.direction
      a.segment.payloadSeq a.segment.payload (pieces.flatMap Span.portions)
      (a.before.arrived a.direction a.segment) := by
  rw [requests, if_neg (ne_true_of_eq_false hopen), hfit]

/-- Requests are made for data only that arrives at an open half-stream and has to wait. -/
theorem ahead_of_mem_requests (hr : r ∈ a.requests) :
    a.half.isClosed = false ∧ ∃ pieces, a.before.fit a.direction a.segment = .ahead pieces := by
  rw [requests] at hr
  split at hr
  · cases hr
  · next hclosed =>
      split at hr
      · exact ⟨eq_false_of_ne_true hclosed, _, by assumption⟩
      all_goals cases hr

/-- **Every request in vain leads to that.** -/
theorem exists_refused (hs : a.before.Sound ceiling) (hr : r ∈ a.requests) (hnone : r.page? = none) :
    ∃ earlier piece later offset, a.Refused r earlier piece later offset := by
  have hharmless := PageRequest.after_of_refused (mem_requests hs hr).1 hnone
  obtain ⟨hopen, pieces, hfit⟩ := ahead_of_mem_requests hr
  have hrequests := requests_of_ahead hopen hfit
  rw [hrequests] at hr
  obtain ⟨stored, portion, behind, granted, hportions, hlist, hgranted, hseqs, hd, hseq, hstore⟩ :=
    Work.store_refused hr hnone
  obtain ⟨earlier, piece, later, rest, rfl, hsuffix, hbehind⟩ :=
    Span.exists_flatMap_portions hportions
  obtain ⟨hstart, hlt, hle, hstop, -⟩ := Span.mem_portions (hsuffix.subset (List.mem_cons_self ..))
  have hplaced : a.workPlaced =
      r.after.onHalf a.direction fun h => h.drop (portion.pieceStop - portion.span.start) := by
    rw [workPlaced, Work.placed, hfit]
    exact hstore
  have hcounted : a.workPlaced.connection = r.work.connection.setHalf a.direction
      { r.half with
        counters := r.half.counters.addDiscard (piece.stop - portion.span.start) } := by
    rw [hplaced, ← hstop, PageRequest.half, hd, ← hharmless.1]
    rfl
  -- as many portions are stored as requests led to pages
  have hpages : (a.requests.countP fun q => q.page?.isSome) = stored.length := by
    have hsome : granted.countP (fun q => q.page?.isSome) = granted.length :=
      List.countP_eq_length.2 fun q hq => Option.isSome_iff_ne_none.2 (hgranted q hq)
    have hlength := congrArg List.length hseqs
    rw [List.length_map, List.length_map] at hlength
    rw [hrequests, hlist, List.countP_append, hsome, hlength, List.countP_singleton, hnone]
    rfl
  refine ⟨earlier, piece, later, portion.span.start, hfit, ⟨hstart, by omega⟩, hd, hseq,
    ⟨granted, hrequests.trans hlist, hgranted⟩, hharmless, hcounted, ?_, ?_, ?_⟩
  · rw [hplaced]
    exact hharmless.2
  · intro segment
    rw [hcounted, Connection.half_setHalf]
    exact r.half.fit_arrive_counters _ segment
  · rw [unstored, if_neg (ne_true_of_eq_false hopen), hpages, hfit, Fit.portions, hportions,
      List.drop_left, hbehind, List.map_cons, List.sum_cons, List.map_append, List.sum_append,
      ← Nat.add_assoc, Span.sum_portions hsuffix, Span.sum_size_flatMap_portions, hstop]

/-- What is counted is all that finds no page exactly if no piece comes after. -/
theorem Refused.counted_all_iff {earlier later : List Span} {piece : Span} {offset : Nat}
    (h : a.Refused r earlier piece later offset) :
    piece.stop - offset = a.unstored ↔ later = [] := by
  rw [h.unstored]
  cases later with
  | nil => simp
  | cons next later =>
      have hnext := (Work.pieces_bounds h.fit next (by simp)).1
      have hsize : 0 < next.size := Nat.sub_pos_of_lt hnext
      simp only [List.map_cons, List.sum_cons, reduceCtorEq, iff_false]
      omega

end Arrival

/-! ## Sessions -/

namespace Session

/-- **What a refusal counts.** Let any number of reassemblers share one arena, each with limits of its own
and with a registry that it may share with others, let consumers break down in any calls, and let segments
carry any numbers.

Every request for a page that is in vain, made for the bytes from some offset of a piece on, leaves all
connections as it found them; then what remains of the piece is counted as given up, nothing more is stored,
and whatever is sent next fits as it would have before.  That is all that finds no page exactly if the
piece is the last one: the pieces after it are given up uncounted. -/
theorem refusals_counted (registries ceiling : Nat) (turns : List Turn)
    (hin : ∀ t ∈ turns, t.deed.Within registries 1) (t : Turn) (ht : t.deed.Within registries 1)
    {a : Arrival} (ha : a ∈ ((fresh registries [ceiling]).after turns).turnArrivals t) {r : PageRequest}
    (hr : r ∈ a.requests) (hnone : r.page? = none) :
    ∃ earlier piece later offset, a.Refused r earlier piece later offset ∧
      (piece.stop - offset = a.unstored ↔ later = []) := by
  obtain ⟨fails, now, deed⟩ := t
  cases deed with
  | take | give => cases ha
  | act registry arena action =>
      obtain ⟨hlt, harena⟩ : registry < registries ∧ arena < 1 := ht
      obtain rfl : arena = 0 := Nat.lt_one_iff.1 harena
      have hsolvent := (solvent_fresh registries ceiling).after hin
      obtain ⟨hs, hc⟩ := (hsolvent.sound registry hlt).arrives ha
      obtain ⟨earlier, piece, later, offset, hrefused⟩ :=
        Arrival.exists_refused (hs.before hc) hr hnone
      exact ⟨earlier, piece, later, offset, hrefused, hrefused.counted_all_iff⟩

/-- A turn of a reassembler with a limit, for a segment of one stream. -/
def turnOfSize (limit seq size : Nat) : Turn where
  deed := .act 0 0 (.receive { pagesPerConnection := limit } [] ⟨.v4 1, .v4 2⟩
    { srcPort := 1, dstPort := 2, seq := .ofNat seq, flags := ⟨0⟩, payload := List.replicate size 97 })

/-- A page waits in the middle of what a reassembler with a smaller limit works in.  The connection is
relieved of it, but the arena gets it back only once it was handed over: the request for the first piece is
in vain, and the second piece is given up uncounted. -/
theorem refusals_counted_short_of_a_piece :
    (∀ t ∈ [turnOfSize 2 10 2], t.deed.Within 1 1) ∧ (turnOfSize 1 5 15).deed.Within 1 1 ∧
      let s := (fresh 1 [1]).after [turnOfSize 2 10 2]
      (s.turnArrivals (turnOfSize 1 5 15)).map (fun a => (a.requests.map fun r => r.page?.isSome,
          (a.work.connection.half .forward).counters.discarded, a.unstored)) = [([false], 5, 13)] ∧
        ∀ a ∈ s.turnArrivals (turnOfSize 1 5 15), ∀ r ∈ a.requests, r.page? = none →
          ∃ earlier piece later offset, a.Refused r earlier piece later offset ∧
            (piece.stop - offset = a.unstored ↔ later = []) := by
  have hin : ∀ t ∈ [turnOfSize 2 10 2], t.deed.Within 1 1 := by decide
  have ht : (turnOfSize 1 5 15).deed.Within 1 1 := by decide
  exact ⟨hin, ht, by decide, fun a ha r hr hnone => refusals_counted 1 1 _ hin _ ht ha hr hnone⟩

end Session
end TcpStreams
