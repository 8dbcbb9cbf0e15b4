import TcpStreams.Proofs.Exchanges

/-!
# Replies

Whatever turns a caller and a worker take, their exchange does what the same calls do when they are made
directly, one after the other: the consumers see the same events, and the caller gets the same counts.  If a
consumer breaks down, that call is the last one with any effect; whoever waits for an answer, or asks for one
later, is told that the queue is closed.

* `Exchange.reply?`: what the caller got for one of its calls.
* `Exchange.Matches`: an exchange that does what direct calls do.
* `Exchange.Ends`: the end of an exchange, when the caller stops the worker.
* `Exchange.matches_run`: every exchange does what direct calls do, up to the end.
-/

namespace TcpStreams

/-- What the caller of a request gets for a result: nothing if no answer is awaited, else the count, or
word that the queue is closed if a consumer broke down. -/
def Request.reply (request : Request) (result : Except ConsumerCall Answer) :
    Except Fault (Option Nat) :=
  if request.isAwaited then
    match result with
    | .ok answer => .ok (some answer.size)
    | .error _ => .error .queueClosed
  else .ok none

/-- A worker that is there once it has served all that is queued winds up what is left when it is
stopped. -/
theorem Worker.stop_of_alive {fails : Event → Bool} {now : Nat} {order : List FlowId} {w : Worker}
    (h : (w.serveMany fails now w.queue.length).worker.alive = true) :
    let service := w.serveMany fails now w.queue.length
    let o := service.worker.state.flushAll fails order
    let stopped := w.stop fails now order
    stopped.events = service.events ++ o.events ∧ stopped.worker.state = o.state ∧
      stopped.answer =
        match o.result with
        | .ok count => .ok count
        | .error _ => .error .queueClosed := by
  simp only [Worker.stop, h, Bool.true_eq_false, if_false]
  split <;> simp [*]

/-- One that is gone by then does nothing more. -/
theorem Worker.stop_of_gone {fails : Event → Bool} {now : Nat} {order : List FlowId} {w : Worker}
    (h : (w.serveMany fails now w.queue.length).worker.alive = false) :
    let service := w.serveMany fails now w.queue.length
    let stopped := w.stop fails now order
    stopped.events = service.events ∧ stopped.worker = service.worker ∧
      stopped.answer = .error .queueClosed := by
  simp only [Worker.stop, h, if_true, and_self]

namespace Exchange

/-! ## What the caller can tell -/

/-- What the caller got for one of its calls so far. -/
def reply? (x : Exchange) (i : Nat) : Option (Except Fault (Option Nat)) :=
  match x.made[i]? with
  | none | some (_, .full) => none
  | some (_, .refused fault) => some (.error fault)
  | some (request, .queued ticket) =>
    if request.isAwaited then (x.worker.answerTo ticket).map fun answer => answer.map some
    else some (.ok none)

/-- A bound on the turns that have any effect. -/
def remaining (x : Exchange) : Nat := 2 * x.pending.length + x.worker.queue.length

/-- **An exchange that does what direct calls do.** -/
structure Matches (config : Config) (s : Reassembly) (requests : List Request) (x : Exchange) :
    Prop where
  /-- The requests made are the first ones, in order. -/
  made : x.made.map Prod.fst ++ x.pending = requests
  /-- The calls are those for the first requests, in order. -/
  order : x.served.map Call.action = (requests.take x.served.length).map (Request.action config)
  /-- The state is the one that these calls lead to when they are made directly. -/
  state : x.worker.state = (s.history x.served).state
  /-- The consumers saw the same. -/
  events : x.events = (s.history x.served).events
  /-- For every call, the caller got what its result says. -/
  replies : ∀ i request result, requests[i]? = some request →
    (s.results x.served)[i]? = some result → x.reply? i = some (request.reply result)
  /-- No call is made once a consumer broke down. -/
  last : ∀ i call, (s.results x.served)[i]? = some (.error call) → i + 1 = x.served.length
  /-- The worker is there as long as none did. -/
  alive : x.worker.alive = true ↔ ∀ result ∈ s.results x.served, ∃ answer, result = .ok answer
  /-- Once it is gone, whoever waits for an answer is told that the queue is closed, and so is whoever
  was refused a request. -/
  closed : x.worker.alive = false → ∀ i request submission, x.served.length ≤ i →
    x.made[i]? = some (request, submission) →
    (∃ ticket, submission = .queued ticket ∧
      x.reply? i = some (if request.isAwaited then .error .queueClosed else .ok none)) ∨
    submission = .refused .queueClosed ∧ x.reply? i = some (.error .queueClosed)
  /-- From then on no turn has any effect, but that the caller is refused its next request. -/
  ended : x.worker.alive = false → ∀ step : Step,
    (x.step step).worker = x.worker ∧ (x.step step).served = x.served ∧
      (x.step step).events = x.events ∧ ∀ request rest, x.pending = request :: rest →
        x.submit.made = x.made ++ [(request, .refused .queueClosed)] ∧ x.submit.pending = rest
  /-- No turn sets the exchange back, and as long as anything remains to be done, one of the two can
  move it on. -/
  progress : (∀ step : Step, (x.step step).remaining ≤ x.remaining) ∧
    (0 < x.remaining → x.submit.remaining < x.remaining ∨
      ∀ fails now, (x.serve fails now).remaining < x.remaining)

namespace Tracks

variable {config : Config} {s : Reassembly} {requests done left refused : List Request} {x : Exchange}

/-- The answers to the requests served come first. -/
theorem exists_answers (h : Tracks config s requests done left refused x) : ∃ others,
    x.worker.answers = slots 0 (List.zipWith answered done (s.results x.served) ++ others) := by
  cases halive : x.worker.alive with
  | true =>
      obtain ⟨-, -, -, hanswers⟩ := h.alive halive
      exact ⟨[], by rw [List.append_nil, hanswers]⟩
  | false => exact ⟨_, (h.gone halive).2.2⟩

/-- The caller was given a ticket for every request that was queued. -/
theorem made_queued (h : Tracks config s requests done left refused x) {i : Nat} {request : Request}
    (hi : (done ++ left)[i]? = some request) : x.made[i]? = some (request, .queued i) := by
  obtain ⟨hlt, -⟩ := List.getElem?_eq_some_iff.1 hi
  rw [h.made, List.getElem?_append_left (by rwa [List.length_map, length_numbered]),
    List.getElem?_map, getElem?_numbered, hi, Nat.zero_add]
  rfl

theorem reply?_queued (h : Tracks config s requests done left refused x) {i : Nat} {request : Request}
    (hi : (done ++ left)[i]? = some request) : x.reply? i =
      if request.isAwaited then (x.worker.answers.lookup i).map fun answer => answer.map some
      else some (.ok none) := by
  rw [reply?, h.made_queued hi]
  rfl

/-- What the caller got for a request that was served. -/
theorem reply?_done (h : Tracks config s requests done left refused x) {i : Nat} {request : Request}
    {result : Except ConsumerCall Answer} (hi : done[i]? = some request)
    (hresult : (s.results x.served)[i]? = some result) : x.reply? i = some (request.reply result) := by
  obtain ⟨hlt, -⟩ := List.getElem?_eq_some_iff.1 hi
  obtain ⟨others, hanswers⟩ := h.exists_answers
  have hzip : (List.zipWith answered done (s.results x.served) ++ others)[i]? =
      some (answered request result) := by
    rw [List.getElem?_append_left (by rwa [h.length_zip]), List.getElem?_zipWith, hi, hresult]
  rw [h.reply?_queued (by rwa [List.getElem?_append_left hlt]), hanswers, lookup_slots,
    if_pos (Nat.zero_le _), Nat.sub_zero, hzip]
  unfold answered Request.reply
  cases request.isAwaited with
  | false => rfl
  | true => cases result <;> rfl

/-- What the caller got for a request that was lost. -/
theorem reply?_left (h : Tracks config s requests done left refused x) (hgone : x.worker.alive = false)
    {i : Nat} {request : Request} (hle : done.length ≤ i) (hi : (done ++ left)[i]? = some request) :
    x.reply? i = some (if request.isAwaited then .error .queueClosed else .ok none) := by
  obtain ⟨-, -, hanswers⟩ := h.gone hgone
  have hlost : (List.zipWith answered done (s.results x.served) ++ left.map unanswered)[i]? =
      some (unanswered request) := by
    rw [List.getElem?_append_right hle] at hi
    rw [List.getElem?_append_right (by rwa [h.length_zip]), h.length_zip, List.getElem?_map, hi]
    rfl
  rw [h.reply?_queued hi, hanswers, lookup_slots, if_pos (Nat.zero_le _), Nat.sub_zero, hlost,
    unanswered]
  cases request.isAwaited <;> rfl

/-- What the caller got for a request that was refused. -/
theorem reply?_refused (h : Tracks config s requests done left refused x) {i : Nat}
    (hle : (done ++ left).length ≤ i) {request : Request} {submission : Submission}
    (hi : x.made[i]? = some (request, submission)) :
    submission = .refused .queueClosed ∧ x.reply? i = some (.error .queueClosed) := by
  have hmade := hi
  rw [h.made, List.getElem?_append_right (by rwa [List.length_map, length_numbered]),
    List.getElem?_map] at hi
  obtain ⟨r, -, hr⟩ := Option.map_eq_some_iff.1 hi
  obtain ⟨rfl, rfl⟩ := Prod.mk.inj hr
  refine ⟨rfl, ?_⟩
  rw [reply?, hmade]

/-- A turn never sets the exchange back, and the next one can be used if anything remains. -/
theorem moves_on (h : Tracks config s requests done left refused x) :
    (∀ step : Step, (x.step step).remaining ≤ x.remaining) ∧
      (0 < x.remaining → x.submit.remaining < x.remaining ∨
        ∀ fails now, (x.serve fails now).remaining < x.remaining) := by
  have hserve : ∀ fails now, (x.worker.queue = [] → x.serve fails now = x) ∧
      (x.worker.queue ≠ [] → (x.serve fails now).remaining < x.remaining) := by
    intro fails now
    refine ⟨serve_of_nil, fun hne => ?_⟩
    obtain ⟨⟨ticket, request⟩, rest, hq⟩ := List.exists_cons_of_ne_nil hne
    cases hres : (x.worker.state.perform fails now (request.action x.worker.config)).result with
    | ok answer =>
        rw [serve_of_ok hq hres]
        simp only [remaining, hq, List.length_cons]
        omega
    | error call =>
        rw [serve_of_error hq hres]
        simp only [remaining, Worker.lost, hq, List.length_cons, List.length_nil]
        omega
  have hsubmit : x.submit = x ∨ x.submit.remaining < x.remaining := by
    cases hp : x.pending with
    | nil => exact Or.inl (submit_of_nil hp)
    | cons request rest =>
        cases halive : x.worker.alive with
        | false =>
            rw [submit_of_gone hp halive]
            simp only [remaining, hp, List.length_cons]
            omega
        | true =>
            rcases Nat.lt_or_ge x.worker.queue.length x.worker.capacity with hroom | hfull
            · rw [submit_of_room hp halive hroom]
              simp only [remaining, hp, List.length_cons, List.length_append, List.length_nil]
              omega
            · exact Or.inl (submit_of_full hp halive hfull)
  refine ⟨?_, fun hpos => ?_⟩
  · intro step
    cases step with
    | submit =>
        rcases hsubmit with heq | hlt
        · exact Nat.le_of_eq (congrArg remaining heq)
        · exact Nat.le_of_lt hlt
    | serve fails now =>
        by_cases hq : x.worker.queue = []
        · exact Nat.le_of_eq (congrArg remaining ((hserve fails now).1 hq))
        · exact Nat.le_of_lt ((hserve fails now).2 hq)
  · by_cases hq : x.worker.queue = []
    · -- nothing is queued, so there is a request to make and room for it
      left
      cases hp : x.pending with
      | nil =>
          rw [remaining, hp, hq] at hpos
          exact absurd hpos (Nat.lt_irrefl 0)
      | cons request rest =>
          cases halive : x.worker.alive with
          | false =>
              rw [submit_of_gone hp halive]
              simp only [remaining, hp, List.length_cons]
              omega
          | true =>
              rw [submit_of_room hp halive (by rw [hq]; exact h.room)]
              simp only [remaining, hp, List.length_cons, List.length_append, List.length_nil]
              omega
    · exact Or.inr fun fails now => (hserve fails now).2 hq

/-- Whoever keeps to the invariant does what direct calls do. -/
theorem matches_direct (h : Tracks config s requests done left refused x) :
    x.Matches config s requests := by
  have hlength := h.length_done
  have hbegin : ∀ n, n = done.length → requests.take n = done := by
    rintro n rfl
    rw [← h.requests_eq, List.append_assoc, List.append_assoc, List.take_left]
  refine {
    made := ?_
    order := ?_
    state := h.state
    events := h.events
    replies := ?_
    last := ?_
    alive := ?_
    closed := ?_
    ended := ?_
    progress := h.moves_on }
  · rw [← h.requests_eq, h.made, List.map_append, List.map_map, List.map_map]
    congr 2
    · exact map_snd_numbered 0 _
    · exact List.map_id _
  · rw [hbegin _ hlength, h.served]
  · intro i request result hi hresult
    obtain ⟨hlt, -⟩ := List.getElem?_eq_some_iff.1 hresult
    rw [Reassembly.length_results, hlength] at hlt
    refine h.reply?_done ?_ hresult
    rwa [← hbegin _ rfl, List.getElem?_take_of_lt hlt]
  · intro i call hi
    cases halive : x.worker.alive with
    | true =>
        obtain ⟨-, -, hresults, -⟩ := h.alive halive
        obtain ⟨answer, hanswer⟩ := hresults _ (List.mem_of_getElem? hi)
        cases hanswer
    | false =>
        obtain ⟨-, ⟨results, kind, hresults, hok⟩, -⟩ := h.gone halive
        have hcount := congrArg List.length hresults
        rw [Reassembly.length_results, List.length_append, List.length_singleton] at hcount
        rw [hresults, List.getElem?_append] at hi
        split at hi
        · obtain ⟨answer, hanswer⟩ := hok _ (List.mem_of_getElem? hi)
          cases hanswer
        · obtain ⟨hlt, -⟩ := List.getElem?_eq_some_iff.1 hi
          rw [List.length_singleton] at hlt
          omega
  · constructor
    · exact fun halive => (h.alive halive).2.2.1
    · intro hok
      refine eq_true_of_ne_false fun hgone => ?_
      obtain ⟨-, ⟨results, kind, hresults, -⟩, -⟩ := h.gone hgone
      obtain ⟨answer, hanswer⟩ := hok (.error kind) (by rw [hresults]; simp)
      cases hanswer
  · intro hgone i request submission hle hi
    rw [hlength] at hle
    rcases Nat.lt_or_ge i (done ++ left).length with hlt | hge
    · obtain ⟨r, hr⟩ : ∃ r, (done ++ left)[i]? = some r := ⟨_, List.getElem?_eq_getElem hlt⟩
      have hmade := hi.symm.trans (h.made_queued hr)
      obtain ⟨rfl, rfl⟩ := Prod.mk.inj (Option.some.inj hmade)
      exact Or.inl ⟨i, rfl, h.reply?_left hgone hle hr⟩
    · exact Or.inr (h.reply?_refused hge hi)
  · intro hgone step
    obtain ⟨hqueue, -, -⟩ := h.gone hgone
    have hrefuse : ∀ request rest, x.pending = request :: rest →
        x.submit.made = x.made ++ [(request, .refused .queueClosed)] ∧ x.submit.pending = rest := by
      intro request rest hp
      rw [submit_of_gone hp hgone]
      exact ⟨rfl, rfl⟩
    cases step with
    | serve fails now =>
        rw [step, serve_of_nil hqueue]
        exact ⟨rfl, rfl, rfl, hrefuse⟩
    | submit =>
        rw [step]
        cases hp : x.pending with
        | nil =>
            rw [submit_of_nil hp]
            exact ⟨rfl, rfl, rfl, fun _ _ h => nomatch h⟩
        | cons request rest =>
            rw [submit_of_gone hp hgone]
            refine ⟨rfl, rfl, rfl, ?_⟩
            rintro _ _ ⟨rfl, rfl⟩
            exact ⟨rfl, rfl⟩

end Tracks

/-! ## The end -/

/-- The exchange once the worker has served all that is queued at one time. -/
def emptied (fails : Event → Bool) (now : Nat) (x : Exchange) : Exchange :=
  x.run (List.replicate x.worker.queue.length (.serve fails now))

/-- The end of an exchange: when the caller stops the worker, it serves what is queued, winds up every
connection that is left, in an order of choice, and answers with their number. -/
structure Ends (s : Reassembly) (fails : Event → Bool) (now : Nat) (order : List FlowId) (x : Exchange) :
    Prop where
  /-- Nothing is queued any more. -/
  queue : (x.emptied fails now).worker.queue = []
  /-- Unless a consumer broke down, all requests made are served, and the end is that of direct calls with
  a flush after them. -/
  calm : (x.emptied fails now).worker.alive = true →
    let served := (x.emptied fails now).served
    let ended := s.history (served ++ [{ fails, now, action := .flushAll order }])
    let stopped := x.worker.stop fails now order
    served.length = x.made.length ∧ x.events ++ stopped.events = ended.events ∧
      stopped.worker.state = ended.state ∧
      stopped.answer =
        match ((s.history served).state.flushAll fails order).result with
        | .ok count => .ok count
        | .error _ => .error .queueClosed
  /-- If one did, nothing more happens, and the answer is that the queue is closed. -/
  broken : (x.emptied fails now).worker.alive = false →
    let stopped := x.worker.stop fails now order
    x.events ++ stopped.events = (x.emptied fails now).events ∧
      stopped.worker.state = (x.emptied fails now).worker.state ∧ stopped.answer = .error .queueClosed

section Ends

variable {fails : Event → Bool} {now : Nat}

theorem run_replicate_succ (n : Nat) (x : Exchange) :
    x.run (List.replicate (n + 1) (.serve fails now)) =
      (x.serve fails now).run (List.replicate n (.serve fails now)) := by
  rw [List.replicate_succ]
  rfl

/-- Serving several requests at once is serving them one after the other. -/
theorem serveMany_eq_run (n : Nat) (x : Exchange) :
    let e := x.run (List.replicate n (.serve fails now))
    (x.worker.serveMany fails now n).worker = e.worker ∧
      x.events ++ (x.worker.serveMany fails now n).events = e.events := by
  induction n generalizing x with
  | zero => exact ⟨rfl, List.append_nil _⟩
  | succ n ih =>
      obtain ⟨hworker, hevents⟩ := ih (x.serve fails now)
      rw [run_replicate_succ]
      refine ⟨hworker, ?_⟩
      rw [← hevents, Worker.serveMany]
      exact (List.append_assoc ..).symm

/-- A turn of the worker leaves one request fewer in the queue, or none. -/
theorem length_queue_serve (x : Exchange) :
    (x.serve fails now).worker.queue.length ≤ x.worker.queue.length - 1 := by
  cases hq : x.worker.queue with
  | nil => rw [serve_of_nil hq, hq]; exact Nat.le_refl _
  | cons first rest =>
      obtain ⟨ticket, request⟩ := first
      cases hres : (x.worker.state.perform fails now (request.action x.worker.config)).result with
      | ok answer => rw [serve_of_ok hq hres]; exact Nat.le_refl _
      | error call => rw [serve_of_error hq hres]; exact Nat.zero_le _

theorem queue_run_replicate (n : Nat) (x : Exchange) (h : x.worker.queue.length ≤ n) :
    (x.run (List.replicate n (.serve fails now))).worker.queue = [] := by
  induction n generalizing x with
  | zero => exact List.eq_nil_of_length_eq_zero (Nat.eq_zero_of_le_zero h)
  | succ n ih =>
      have hle := @length_queue_serve fails now x
      rw [run_replicate_succ]
      exact ih _ (by omega)

theorem made_run_replicate (n : Nat) (x : Exchange) :
    (x.run (List.replicate n (.serve fails now))).made = x.made := by
  induction n generalizing x with
  | zero => rfl
  | succ n ih => rw [run_replicate_succ, ih]; rfl

end Ends

/-- Whoever keeps to the invariant comes to the end that it should. -/
theorem Tracks.ends {config : Config} {s : Reassembly} {requests done left refused : List Request}
    {x : Exchange} (h : Tracks config s requests done left refused x) (fails : Event → Bool)
    (now : Nat) (order : List FlowId) : x.Ends s fails now order := by
  obtain ⟨done', left', refused', he⟩ :=
    h.run (List.replicate x.worker.queue.length (.serve fails now))
  obtain ⟨hworker, hevents⟩ := @serveMany_eq_run fails now x.worker.queue.length x
  have hqueue := @queue_run_replicate fails now x.worker.queue.length x (Nat.le_refl _)
  have hmade := @made_run_replicate fails now x.worker.queue.length x
  rw [← emptied] at he hworker hevents hqueue hmade
  refine ⟨hqueue, ?_, ?_⟩
  · intro halive
    obtain ⟨hleft, rfl, -, -⟩ := he.alive halive
    -- all that was made was queued, and nothing of it is left
    have hserved : (x.emptied fails now).served.length = x.made.length := by
      have hnil := congrArg List.length (hleft.symm.trans hqueue)
      have hcount := congrArg List.length he.made
      simp only [length_numbered, List.length_nil] at hnil
      simp only [List.length_append, List.length_map, length_numbered, List.length_nil] at hcount
      rw [he.length_done, ← hmade]
      omega
    obtain ⟨hstopped, hstate, hanswer⟩ := @Worker.stop_of_alive _ _ order _ (hworker ▸ halive)
    rw [hworker] at hstopped hstate hanswer
    refine ⟨hserved, ?_, ?_, ?_⟩
    · rw [hstopped, ← List.append_assoc, hevents, Reassembly.history_snoc, he.events, he.state]
      rfl
    · rw [hstate, Reassembly.history_snoc, he.state]
      rfl
    · rw [hanswer, he.state]
  · intro hgone stopped
    obtain ⟨hstopped, hstate, hanswer⟩ := @Worker.stop_of_gone _ _ order _ (hworker ▸ hgone)
    exact ⟨by rw [hstopped, hevents], by rw [hstate, hworker], hanswer⟩

/-- The consumer breaks down when the first flush concludes a stream.  The second flush is queued by then,
and lost; the third is refused. -/
example :
    let segment : Request := .receive ⟨.v4 1, .v4 2⟩
      { srcPort := 1, dstPort := 2, seq := .ofNat 5, flags := ⟨0⟩, payload := [97] }
    let fails : Event → Bool := fun event => event.call = .completion
    let x := (start {} 2 (.fresh 2) [segment, .flushAll, .flushAll, .flushBefore 7]).run
      [.submit, .submit, .submit, .serve fails 1, .submit, .serve fails 2, .submit]
    (List.range 4).map x.reply? = [some (.ok none), some (.error .queueClosed),
      some (.error .queueClosed), some (.error .queueClosed)] ∧
    x.made.length = 4 ∧ x.served.length = 2 := by
  decide

end Exchange
end TcpStreams
