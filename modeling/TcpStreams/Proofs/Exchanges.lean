import TcpStreams.Worker
import TcpStreams.Proofs.History

/-!
# Exchanges with a worker

A caller who has a list of requests to make, and the worker that serves them.  The two take turns in any
way: the caller submits its next request, which waits while the queue is full, and the worker serves the
request that has been queued the longest, at a time of its own and with consumers of its own that break
down.

At any time the requests fall into four parts: those that were served, those that were queued and not
served, those that were refused, and those yet to be made.  The state and the events are those of the calls
for the first part, made directly one after the other.

* `Reassembly.results`: the results of calls that are made directly.
* `Exchange.run`: the exchange after some turns.
* `Exchange.Tracks`: the invariant of an exchange.
* `Exchange.Tracks.run`: every turn keeps it.
-/

namespace TcpStreams

/-! ## Direct calls -/

namespace Reassembly

/-- The results of calls that are made directly, one after the other. -/
def results (s : Reassembly) : List Call → List (Except ConsumerCall Answer)
  | [] => []
  | call :: rest =>
    let o := s.perform call.fails call.now call.action
    o.result :: o.state.results rest

theorem length_results (s : Reassembly) (calls : List Call) :
    (s.results calls).length = calls.length := by
  induction calls generalizing s with
  | nil => rfl
  | cons call rest ih => rw [results, List.length_cons, List.length_cons, ih]

/-- What happened before does not matter to the state that calls lead to. -/
theorem state_foldl_extend (r : History) (calls : List Call) :
    (calls.foldl History.extend r).state = (r.state.history calls).state := by
  induction calls generalizing r with
  | nil => rfl
  | cons call rest ih =>
      rw [history, List.foldl_cons, List.foldl_cons, ih, ih]
      rfl

theorem results_snoc (s : Reassembly) (calls : List Call) (call : Call) :
    s.results (calls ++ [call]) = s.results calls ++
      [((s.history calls).state.perform call.fails call.now call.action).result] := by
  induction calls generalizing s with
  | nil => rfl
  | cons first rest ih =>
      have hstate : (s.history (first :: rest)).state =
          ((s.perform first.fails first.now first.action).state.history rest).state := by
        rw [history, List.foldl_cons, state_foldl_extend]
        rfl
      rw [List.cons_append, results, results, ih, hstate]
      rfl

end Reassembly

/-! ## Turns of a caller and a worker -/

/-- A worker in a given state that nothing has been asked of, with room for one request at least. -/
def Worker.over (config : Config) (capacity : Nat) (s : Reassembly) : Worker :=
  { config, capacity := max capacity 1, state := s }

theorem Worker.start_eq (config : Config) (capacity : Nat) :
    Worker.start config capacity =
      config.check.map fun _ => .over config capacity (.fresh config.totalPages) := rfl

/-- A caller and a worker. -/
structure Exchange where
  /-- The worker. -/
  worker : Worker
  /-- The requests that the caller has yet to make. -/
  pending : List Request
  /-- The requests made, each with what became of it. -/
  made : List (Request × Submission) := []
  /-- The calls that the worker has made for them. -/
  served : List Call := []
  /-- What the consumers saw. -/
  events : List Event := []

namespace Exchange

/-- A turn. -/
inductive Step where
  /-- The caller submits its next request. -/
  | submit
  /-- The worker serves a request at a time, while some consumers would break down. -/
  | serve (fails : Event → Bool) (now : Nat)

/-- The caller submits its next request, if there is one and the queue has room for it. -/
def submit (x : Exchange) : Exchange :=
  match x.pending with
  | [] => x
  | request :: rest =>
    match x.worker.submit request with
    | (_, .full) => x
    | (worker, submission) =>
      { x with worker, pending := rest, made := x.made ++ [(request, submission)] }

/-- The worker serves the first request of the queue, if there is one. -/
def serve (fails : Event → Bool) (now : Nat) (x : Exchange) : Exchange :=
  let service := x.worker.serve fails now
  let calls := (x.worker.queue.take 1).map fun (_, request) =>
    { fails, now, action := request.action x.worker.config : Call }
  { x with
    worker := service.worker
    served := x.served ++ calls
    events := x.events ++ service.events }

/-- The exchange after a turn. -/
def step (x : Exchange) : Step → Exchange
  | .submit => x.submit
  | .serve fails now => x.serve fails now

/-- The exchange after several turns. -/
def run (x : Exchange) (steps : List Step) : Exchange := steps.foldl step x

/-- A caller with requests to make to a worker that nothing has been asked of. -/
def start (config : Config) (capacity : Nat) (s : Reassembly) (requests : List Request) : Exchange :=
  { worker := .over config capacity s, pending := requests }

/-! ## Tickets -/

section Tickets

variable {α β : Type}

/-- The elements of a list with consecutive numbers. -/
def numbered (n : Nat) (xs : List α) : List (Nat × α) := (xs.zipIdx n).map Prod.swap

theorem numbered_cons (n : Nat) (a : α) (xs : List α) :
    numbered n (a :: xs) = (n, a) :: numbered (n + 1) xs := rfl

theorem numbered_append (n : Nat) (xs ys : List α) :
    numbered n (xs ++ ys) = numbered n xs ++ numbered (n + xs.length) ys := by
  rw [numbered, List.zipIdx_append, List.map_append, numbered, numbered]

theorem length_numbered (n : Nat) (xs : List α) : (numbered n xs).length = xs.length := by
  rw [numbered, List.length_map, List.length_zipIdx]

theorem getElem?_numbered (n : Nat) (xs : List α) (i : Nat) :
    (numbered n xs)[i]? = xs[i]?.map fun a => (n + i, a) := by
  rw [numbered, List.getElem?_map, List.getElem?_zipIdx, Option.map_map]
  rfl

theorem map_snd_numbered (n : Nat) (xs : List α) : (numbered n xs).map Prod.snd = xs := by
  rw [numbered, List.map_map]
  exact List.zipIdx_map_fst n xs

/-- What is there, out of a list in which something may be missing, with its number. -/
def slots (n : Nat) (xs : List (Option α)) : List (Nat × α) :=
  (numbered n xs).filterMap fun (i, a?) => a?.map fun a => (i, a)

theorem slots_cons (n : Nat) (a? : Option α) (xs : List (Option α)) :
    slots n (a? :: xs) = (a?.map fun a => (n, a)).toList ++ slots (n + 1) xs := by
  rw [slots, numbered_cons, List.filterMap_cons]
  cases a? <;> rfl

theorem slots_append (n : Nat) (xs ys : List (Option α)) :
    slots n (xs ++ ys) = slots n xs ++ slots (n + xs.length) ys := by
  rw [slots, numbered_append, List.filterMap_append, slots, slots]

/-- Whatever is looked up by its number is found in its place. -/
theorem lookup_slots (n : Nat) (xs : List (Option α)) (i : Nat) :
    (slots n xs).lookup i = if n ≤ i then xs[i - n]?.join else none := by
  induction xs generalizing n with
  | nil => simp [slots, numbered]
  | cons a? rest ih =>
      have hother : i ≠ n → (a?.map fun a => (n, a)).toList.lookup i = none := by
        intro hne
        cases a? with
        | none => rfl
        | some a =>
            have hkey : (i == n) = false := beq_eq_false_iff_ne.2 hne
            simp [List.lookup_cons, hkey]
      rw [slots_cons, List.lookup_append, ih]
      rcases Nat.lt_trichotomy i n with hlt | rfl | hlt
      · rw [hother (Nat.ne_of_lt hlt), if_neg (by omega), if_neg (by omega)]
        rfl
      · rw [if_neg (by omega), if_pos (Nat.le_refl _), Nat.sub_self]
        cases a? <;> simp
      · rw [hother (Nat.ne_of_gt hlt), if_pos (by omega), if_pos (Nat.le_of_lt hlt)]
        obtain ⟨j, rfl⟩ := Nat.exists_eq_add_of_lt hlt
        rw [show n + j + 1 - (n + 1) = j by omega, show n + j + 1 - n = j + 1 by omega,
          List.getElem?_cons_succ]
        rfl

end Tickets

/-! ## Single turns -/

section Turns

variable {x : Exchange} {request : Request} {rest : List Request}

theorem submit_of_nil (hp : x.pending = []) : x.submit = x := by
  rw [submit, hp]

/-- A worker that is gone refuses every request. -/
theorem submit_of_gone (hp : x.pending = request :: rest) (hgone : x.worker.alive = false) :
    x.submit =
      { x with pending := rest, made := x.made ++ [(request, .refused .queueClosed)] } := by
  simp only [submit, hp, Worker.submit, hgone, if_true]

/-- While the queue is full the caller waits. -/
theorem submit_of_full (hp : x.pending = request :: rest) (halive : x.worker.alive = true)
    (hfull : x.worker.capacity ≤ x.worker.queue.length) : x.submit = x := by
  simp only [submit, hp, Worker.submit, halive, hfull, Bool.true_eq_false, if_false, if_true]

/-- If there is room, the request is queued. -/
theorem submit_of_room (hp : x.pending = request :: rest) (halive : x.worker.alive = true)
    (hroom : x.worker.queue.length < x.worker.capacity) :
    x.submit =
      { x with
        worker := { x.worker with
          queue := x.worker.queue ++ [(x.worker.nextTicket, request)]
          nextTicket := x.worker.nextTicket + 1 }
        pending := rest
        made := x.made ++ [(request, .queued x.worker.nextTicket)] } := by
  simp only [submit, hp, Worker.submit, halive, Nat.not_le.2 hroom, Bool.true_eq_false, if_false]

variable {fails : Event → Bool} {now ticket : Nat} {queue : List (Nat × Request)}

/-- Nothing is served while nothing is queued. -/
theorem serve_of_nil (hq : x.worker.queue = []) : x.serve fails now = x := by
  simp only [serve, Worker.serve, hq, List.take_nil, List.map_nil, List.append_nil]

/-- What the worker does about a request that no consumer breaks down in. -/
theorem serve_of_ok (hq : x.worker.queue = (ticket, request) :: queue) {answer : Answer} :
    let o := x.worker.state.perform fails now (request.action x.worker.config)
    o.result = .ok answer →
    x.serve fails now =
      { x with
        worker := { x.worker with
          state := o.state
          queue
          answers := x.worker.answers ++
            (if request.isAwaited then [(ticket, .ok answer.size)] else []) }
        served := x.served ++ [{ fails, now, action := request.action x.worker.config }]
        events := x.events ++ o.events } := by
  intro o hok
  simp only [serve, Worker.serve, hq, o] at hok ⊢
  rw [hok]
  rfl

/-- What the worker does about a request that a consumer breaks down in. -/
theorem serve_of_error (hq : x.worker.queue = (ticket, request) :: queue) {call : ConsumerCall} :
    let o := x.worker.state.perform fails now (request.action x.worker.config)
    o.result = .error call →
    x.serve fails now =
      { x with
        worker := { x.worker with state := o.state }.lost ((ticket, request) :: queue)
        served := x.served ++ [{ fails, now, action := request.action x.worker.config }]
        events := x.events ++ o.events } := by
  intro o herror
  simp only [serve, Worker.serve, hq, o] at herror ⊢
  rw [herror]
  rfl

end Turns

/-! ## The invariant -/

/-- The answer that the worker puts down for a request, if one is awaited. -/
def answered (request : Request) (result : Except ConsumerCall Answer) : Option (Except Fault Nat) :=
  if request.isAwaited then
    some (match result with
      | .ok answer => .ok answer.size
      | .error _ => .error .queueClosed)
  else none

/-- The answer to a request that is lost, if one is awaited. -/
def unanswered (request : Request) : Option (Except Fault Nat) :=
  if request.isAwaited then some (.error .queueClosed) else none

/-- What is lost is answered in the order of the tickets. -/
theorem lost_eq_slots (n : Nat) (requests : List Request) :
    ((numbered n requests).filter fun (_, request) => request.isAwaited).map
        (fun (ticket, _) => (ticket, Except.error Fault.queueClosed)) =
      slots n (requests.map unanswered) := by
  induction requests generalizing n with
  | nil => rfl
  | cons request rest ih =>
      rw [numbered_cons, List.map_cons, slots_cons, ← ih, unanswered]
      cases hr : request.isAwaited <;> simp [hr]

/-- A request that was queued, with its ticket. -/
def queuedAs (t : Nat × Request) : Request × Submission := (t.2, .queued t.1)

/-- A request that was refused. -/
def refusedAs (request : Request) : Request × Submission := (request, .refused .queueClosed)

/-- **The invariant of an exchange** over the requests that were served, those that were queued and not
served, and those that were refused. -/
structure Tracks (config : Config) (s : Reassembly) (requests done left refused : List Request)
    (x : Exchange) : Prop where
  /-- The settings stay the same. -/
  config_eq : x.worker.config = config
  /-- There is room for a request at least. -/
  room : 0 < x.worker.capacity
  /-- The caller makes its requests in order. -/
  requests_eq : done ++ left ++ refused ++ x.pending = requests
  /-- Those that were queued have their tickets, the others were told that the queue is closed. -/
  made : x.made = (numbered 0 (done ++ left)).map queuedAs ++ refused.map refusedAs
  /-- The next ticket is the number of requests that were queued. -/
  nextTicket : x.worker.nextTicket = done.length + left.length
  /-- The requests are served in order. -/
  served : x.served.map Call.action = done.map (Request.action config)
  /-- The state is that after the calls for them. -/
  state : x.worker.state = (s.history x.served).state
  /-- The consumers saw what these showed them. -/
  events : x.events = (s.history x.served).events
  /-- While the worker is there, the queue holds what is left, nobody was refused, no consumer broke down,
  and the answers are those to the requests served. -/
  alive : x.worker.alive = true → x.worker.queue = numbered done.length left ∧ refused = [] ∧
    (∀ result ∈ s.results x.served, ∃ answer, result = .ok answer) ∧
    x.worker.answers = slots 0 (List.zipWith answered done (s.results x.served))
  /-- Once it is gone, the queue is empty, a consumer broke down in the last call and in none before, and
  what was left is answered as well. -/
  gone : x.worker.alive = false → x.worker.queue = [] ∧
    (∃ results call, s.results x.served = results ++ [.error call] ∧
      ∀ result ∈ results, ∃ answer, result = .ok answer) ∧
    x.worker.answers = slots 0 (List.zipWith answered done (s.results x.served) ++ left.map unanswered)

namespace Tracks

variable {config : Config} {capacity : Nat} {s : Reassembly} {requests done left refused : List Request}
  {x : Exchange}

theorem start : Tracks config s requests [] [] [] (start config capacity s requests) where
  config_eq := rfl
  room := Nat.lt_of_lt_of_le Nat.zero_lt_one (Nat.le_max_right ..)
  requests_eq := rfl
  made := rfl
  nextTicket := rfl
  served := rfl
  state := rfl
  events := rfl
  alive _ := ⟨rfl, rfl, (fun _ h => nomatch h), rfl⟩
  gone h := nomatch h

/-- As many requests are served as calls were made for them. -/
theorem length_done (h : Tracks config s requests done left refused x) :
    x.served.length = done.length := by
  have := congrArg List.length h.served
  rwa [List.length_map, List.length_map] at this

theorem length_zip (h : Tracks config s requests done left refused x) :
    (List.zipWith answered done (s.results x.served)).length = done.length := by
  rw [List.length_zipWith, Reassembly.length_results, h.length_done, Nat.min_self]

/-- The caller's turn. -/
theorem submit (h : Tracks config s requests done left refused x) :
    ∃ left refused, Tracks config s requests done left refused x.submit := by
  cases hp : x.pending with
  | nil =>
      rw [submit_of_nil hp]
      exact ⟨left, refused, h⟩
  | cons request rest =>
      have hrequests := h.requests_eq
      rw [hp] at hrequests
      cases halive : x.worker.alive with
      | false =>
          rw [submit_of_gone hp halive]
          refine ⟨left, refused ++ [request], {
            config_eq := h.config_eq
            room := h.room
            requests_eq := by simpa using hrequests
            made := ?_
            nextTicket := h.nextTicket
            served := h.served
            state := h.state
            events := h.events
            alive := fun hw => absurd hw (ne_true_of_eq_false halive)
            gone := h.gone }⟩
          rw [List.map_append, ← List.append_assoc, ← h.made]
          rfl
      | true =>
          obtain ⟨hqueue, rfl, hresults, hanswers⟩ := h.alive halive
          rcases Nat.lt_or_ge x.worker.queue.length x.worker.capacity with hroom | hfull
          · rw [submit_of_room hp halive hroom]
            refine ⟨left ++ [request], [], {
              config_eq := h.config_eq
              room := h.room
              requests_eq := by simpa using hrequests
              made := ?_
              nextTicket := ?_
              served := h.served
              state := h.state
              events := h.events
              alive := fun _ => ⟨?_, rfl, hresults, hanswers⟩
              gone := fun hw => absurd halive (ne_true_of_eq_false hw) }⟩
            · simp only [h.made, h.nextTicket, ← List.append_assoc]
              rw [numbered_append 0 (done ++ left), List.length_append, Nat.zero_add]
              simp only [List.map_append, List.map_nil, List.append_nil]
              rfl
            · simp only [h.nextTicket, List.length_append, List.length_singleton, Nat.add_assoc]
            · simp only [hqueue, h.nextTicket]
              rw [numbered_append]
              rfl
          · rw [submit_of_full hp halive hfull]
            exact ⟨left, [], h⟩

/-- The worker's turn. -/
theorem serve (h : Tracks config s requests done left refused x) (fails : Event → Bool) (now : Nat) :
    ∃ done left, Tracks config s requests done left refused (x.serve fails now) := by
  cases halive : x.worker.alive with
  | false =>
      rw [serve_of_nil (h.gone halive).1]
      exact ⟨done, left, h⟩
  | true =>
      obtain ⟨hqueue, rfl, hresults, hanswers⟩ := h.alive halive
      cases left with
      | nil =>
          rw [serve_of_nil hqueue]
          exact ⟨done, [], h⟩
      | cons request rest =>
          rw [numbered_cons] at hqueue
          have hrequests : (done ++ [request]) ++ rest ++ [] ++ x.pending = requests := by
            rw [← h.requests_eq]
            simp
          have hmade : x.made = (numbered 0 ((done ++ [request]) ++ rest)).map queuedAs ++
              ([] : List Request).map refusedAs := by
            rw [h.made]
            simp
          have hticket : x.worker.nextTicket = (done ++ [request]).length + rest.length := by
            rw [h.nextTicket]
            simp only [List.length_append, List.length_cons, List.length_nil]
            omega
          -- the direct call that the worker makes next
          let call : Call := { fails, now, action := request.action config }
          let o := x.worker.state.perform fails now (request.action x.worker.config)
          have hserved : (x.served ++ [call]).map Call.action =
              (done ++ [request]).map (Request.action config) := by
            rw [List.map_append, List.map_append, h.served]
            rfl
          have hstate : o.state = (s.history (x.served ++ [call])).state := by
            rw [Reassembly.history_snoc]
            simp only [o, h.state, h.config_eq]
            rfl
          have hevents : x.events ++ o.events = (s.history (x.served ++ [call])).events := by
            rw [Reassembly.history_snoc]
            simp only [o, h.state, h.events, h.config_eq]
            rfl
          have hnext : s.results (x.served ++ [call]) = s.results x.served ++ [o.result] := by
            rw [Reassembly.results_snoc]
            simp only [o, h.state, h.config_eq]
            rfl
          have hzip : List.zipWith answered (done ++ [request]) (s.results (x.served ++ [call])) =
              List.zipWith answered done (s.results x.served) ++ [answered request o.result] := by
            rw [hnext, List.zipWith_append]
            · rfl
            · rw [Reassembly.length_results, h.length_done]
          have hcall : ({ fails, now, action := request.action x.worker.config } : Call) = call := by
            simp only [h.config_eq, call]
          cases hres : o.result with
          | ok answer =>
              rw [serve_of_ok hqueue hres, hcall]
              refine ⟨done ++ [request], rest, {
                config_eq := h.config_eq
                room := h.room
                requests_eq := hrequests
                made := hmade
                nextTicket := hticket
                served := hserved
                state := hstate
                events := hevents
                alive := fun _ => ⟨?_, rfl, ?_, ?_⟩
                gone := fun hw => absurd halive (ne_true_of_eq_false hw) }⟩
              · rw [List.length_append]
                rfl
              · rw [hnext, hres]
                intro result hr
                rcases List.mem_append.1 hr with hr | hr
                · exact hresults result hr
                · exact ⟨answer, List.mem_singleton.1 hr⟩
              · rw [hzip, slots_append, h.length_zip, ← hanswers, hres]
                simp only [answered, Nat.zero_add]
                split <;> rfl
          | error kind =>
              rw [serve_of_error hqueue hres, hcall]
              refine ⟨done ++ [request], rest, {
                config_eq := h.config_eq
                room := h.room
                requests_eq := hrequests
                made := hmade
                nextTicket := hticket
                served := hserved
                state := hstate
                events := hevents
                alive := nofun
                gone := fun _ => ⟨rfl, ⟨s.results x.served, kind, ?_, hresults⟩, ?_⟩ }⟩
              · rw [hnext, hres]
              · have hlost : [answered request o.result] ++ rest.map unanswered =
                    (request :: rest).map unanswered := by rw [hres]; rfl
                rw [hzip, List.append_assoc, slots_append, h.length_zip, ← hanswers, Nat.zero_add,
                  hlost, ← lost_eq_slots, numbered_cons]
                rfl

/-- **Every exchange keeps to the invariant.** -/
theorem run (h : Tracks config s requests done left refused x) (steps : List Step) :
    ∃ done left refused, Tracks config s requests done left refused (x.run steps) := by
  induction steps generalizing done left refused x with
  | nil => exact ⟨done, left, refused, h⟩
  | cons step rest ih =>
      cases step with
      | submit =>
          obtain ⟨_, _, hstep⟩ := h.submit
          exact ih hstep
      | serve fails now =>
          obtain ⟨_, _, hstep⟩ := h.serve fails now
          exact ih hstep

end Tracks

end Exchange
end TcpStreams
