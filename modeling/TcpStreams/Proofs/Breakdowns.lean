import TcpStreams.Proofs.Formed
import TcpStreams.Proofs.Losses
import TcpStreams.Proofs.Recovery

/-!
# Breakdowns

A consumer may break down in any call, and what the call did until then stays done.  This module says what
that is when a segment is worked in, whatever happened before, other breakdowns included, and however many
reassemblers and other parties share the arena.

* `Reassembly.perform_of_arrives`: a call that brings a segment to a connection, told by `Arrival.finish`.
* `Session.Solvent`: what every turn keeps, whoever breaks down.
* `Session.stays_after`: a connection that is over stays until its stream is concluded.
-/

namespace TcpStreams

open Connection (Sheds)

/-! ## One segment -/

namespace Arrival

variable {fails : Event → Bool} {a : Arrival}

/-- If its consumer breaks down, nothing comes after the delivery. -/
theorem finish_of_breaks (hbreaks : fails a.delivery = true) :
    (a.finish fails).state = (a.handed fails).state ∧ (a.finish fails).result = .error .delivery ∧
      (a.finish fails).events = [a.delivery] := by
  have hhanded := @Reassembly.handOver_of_breaks a.worked fails a.work.connection a.segment.payload
    a.work.chunks hbreaks
  simp only [finish, handed, Outcome.after, Outcome.andThen, hhanded]
  exact ⟨trivial, trivial, rfl⟩

/-- If its consumer comes through, the stream is concluded if it is over. -/
theorem finish_of_returns (hreturns : fails a.delivery = false) :
    let c := a.work.connection
    (a.finish fails).state =
        (if c.isOver then ((a.handed fails).state.conclude fails c).state else (a.handed fails).state) ∧
      (a.finish fails).events =
        a.delivery :: if c.isOver then [.completed c.stream c.flow] else [] := by
  have hhanded := @Reassembly.handOver_of_returns a.worked fails a.work.connection a.segment.payload
    a.work.chunks hreturns
  have htold : ∀ (s : Reassembly) c, (s.conclude fails c).events = [.completed c.stream c.flow] := by
    intro s c
    rw [Reassembly.conclude]
    split <;> rfl
  simp only [finish, handed, Outcome.after, Outcome.andThen, hhanded]
  split
  · refine ⟨rfl, ?_⟩
    rw [htold]
    rfl
  · exact ⟨rfl, rfl⟩

end Arrival

namespace Reassembly

variable {ceiling n : Nat} {s : Reassembly} {call : Call} {a : Arrival} {fails returns : Event → Bool}

/-- What the consumer of a conversation sees before its segment arrives: its stream begins, if it has
none. -/
def opening (s : Reassembly) (a : Arrival) : List Event :=
  if (s.streamOf a.connection.flow).isNone then [.opened a.stream a.connection.flow] else []

/-- **A call that brings a segment to a connection** does what the segment leads to. -/
theorem perform_of_arrives (hd : s.DistinctFlows) (ha : a ∈ s.arrivals call) :
    let o := s.perform call.fails call.now call.action
    o.state = (a.finish call.fails).state ∧
      o.result = (a.finish call.fails).result.map (fun _ => Answer.done) ∧
      o.events = s.opening a ++ (a.finish call.fails).events := by
  obtain ⟨path, haction, hstate, hres, hdirection⟩ := mem_arrivals ha
  have hopening : (s.lookUp call.fails (a.segment.flow path) (a.segment.src path) call.now).events =
      s.opening a := by
    cases hfind : s.registry.find? (a.segment.flow path) with
    | some c =>
        obtain ⟨hfound, hquiet, -⟩ := @lookUp_known s call.fails (a.segment.flow path)
          (a.segment.src path) call.now c hd hfind
        obtain rfl := Except.ok.inj (hfound.symm.trans hres)
        have hlive : s.streamOf a.connection.flow = some a.stream := by
          rw [streamOf, (find?_eq_some hfind).2, hfind]
          rfl
        rw [hquiet, opening, hlive]
        rfl
    | none =>
        obtain ⟨hopened, hevents, -⟩ :=
          @lookUp_opened s call.fails (a.segment.flow path) call.now hfind (a.segment.src path)
        rw [hopened] at hres
        split at hres
        · cases hres
        · have hconn := Except.ok.inj hres
          have hnone : s.streamOf a.connection.flow = none := by
            rw [streamOf, ← hconn]
            exact congrArg (Option.map Connection.stream) hfind
          rw [hevents, opening, hnone, Arrival.stream, ← hconn]
          rfl
  rw [haction]
  have hfinish : (s.receive call.fails a.config a.locked path a.segment call.now) =
      (s.lookUp call.fails (a.segment.flow path) (a.segment.src path) call.now).andThen
        fun _ _ => a.finish call.fails := by
    rw [receive, Outcome.andThen, Outcome.andThen, hres, hstate]
    simp only [← hdirection]
    rfl
  simp only [perform, Outcome.map, hfinish, Outcome.andThen, hres, hopening, and_self]

/-- Which segment arrives depends on the consumers only as far as they are told of a new stream. -/
theorem arrivals_congr (h : ∀ n flow, returns (.opened n flow) = fails (.opened n flow)) (now : Nat)
    (action : Action) : s.arrivals ⟨returns, now, action⟩ = s.arrivals ⟨fails, now, action⟩ := by
  have hlookUp : ∀ flow src, s.lookUp returns flow src now = s.lookUp fails flow src now := by
    intro flow src
    simp only [lookUp, h]
  simp only [arrivals, hlookUp]

/-! ## What a breakdown leaves behind -/

/-- The consumer breaks down when it is handed the chunks of a segment.  It is told nothing more, and the
connection stays.  Had it come through, then before its stream is concluded everything would be the same,
but that the pages of its chunks would have come back. -/
structure BreaksOff (s : Reassembly) (call : Call) (a : Arrival) : Prop where
  /-- The call fails. -/
  result : (s.perform call.fails call.now call.action).result = .error .delivery
  /-- The delivery is the last that the consumer sees of it. -/
  events : (s.perform call.fails call.now call.action).events = s.opening a ++ [a.delivery]
  /-- The connection stays, with all that the segment did to it. -/
  stays : a.work.connection ∈ (s.perform call.fails call.now call.action).state.connections
  /-- What would have been had it come through. -/
  otherwise : ∀ returns : Event → Bool,
    (∀ n flow, returns (.opened n flow) = call.fails (.opened n flow)) → returns a.delivery = false →
    let c := a.work.connection
    let before := (a.handed returns).state
    let o := s.perform returns call.now call.action
    o.events = s.opening a ++ a.delivery :: (if c.isOver then [.completed c.stream c.flow] else []) ∧
      o.state = (if c.isOver then (before.conclude returns c).state else before) ∧
      Forgoes (Chunk.pages a.work.chunks).length
        (s.perform call.fails call.now call.action).state before

/-- The consumer breaks down when its stream begins.  No connection is opened: a tick is spent, and the
number that the consumer knows the stream by. -/
structure BreaksAtOnce (s : Reassembly) (call : Call) (flow : FlowId) : Prop where
  /-- The call fails. -/
  result : (s.perform call.fails call.now call.action).result = .error .opening
  /-- The consumer sees nothing else. -/
  events : (s.perform call.fails call.now call.action).events = [.opened s.nextStream flow]
  /-- Nothing else changes. -/
  state : (s.perform call.fails call.now call.action).state =
    { s with
      registry := { s.registry with tick := s.registry.tick + 1 }, nextStream := s.nextStream + 1 }

/-- The stream of a connection that is over is concluded by the next call that gets to it, unless a
consumer breaks down. -/
structure Recovers (s : Reassembly) (c : Connection) : Prop where
  /-- By the next segment of its conversation. -/
  receive : ∀ fails now config locked path segment, segment.flow path = c.flow →
    let o := s.perform fails now (.receive config locked path segment)
    o.result = .ok .done → o.events = [.delivered c.stream c.flow [], .completed c.stream c.flow] ∧
      o.state.registry.find? c.flow = none
  /-- By the next flush that winds it up. -/
  flush : ∀ fails now action, c ∈ s.woundUp now action → ∀ answer,
    (s.perform fails now action).result = .ok answer → (s.perform fails now action).Concludes c

theorem breaksOff (h : s.Covers ceiling n) (ha : a ∈ s.arrivals call)
    (hbreaks : call.fails a.delivery = true) : s.BreaksOff call a := by
  obtain ⟨hstate, hresult, hevents⟩ := perform_of_arrives h.sound.flows ha
  obtain ⟨hstate', hresult', hevents'⟩ := Arrival.finish_of_breaks hbreaks
  rw [hstate'] at hstate
  have hcovers := (lasting_covers ceiling n).arrives h ha
  have hc := (h.sound.arrives ha).2
  refine ⟨?_, ?_, ?_, ?_⟩
  · rw [hresult, hresult']
    rfl
  · rw [hevents, hevents']
  · rw [hstate]
    obtain ⟨-, hlive⟩ := distinct_worked hcovers.sound.flows hc
    exact (connections_replace hlive _ (registry_handOver ..)).1
  · intro returns hopening hreturns
    have hsame : a ∈ s.arrivals ⟨returns, call.now, call.action⟩ := by
      rw [arrivals_congr hopening]
      exact ha
    obtain ⟨hother, -, htold⟩ := perform_of_arrives h.sound.flows hsame
    obtain ⟨hother', htold'⟩ := Arrival.finish_of_returns hreturns
    refine ⟨?_, hother.trans hother', ?_⟩
    · exact htold.trans (congrArg _ htold')
    · rw [hstate]
      exact Arrival.forgoes_handed hcovers hc hbreaks hreturns

theorem breaksAtOnce {flow : FlowId} {now : Nat} {config : Config} {locked : List FlowId} {path : Route}
    {segment : Segment} (hflow : segment.flow path = flow) (hnone : s.registry.find? flow = none)
    (hbreaks : fails (.opened s.nextStream flow) = true) :
    s.BreaksAtOnce ⟨fails, now, .receive config locked path segment⟩ flow := by
  have hentry : s.registry.entry? flow = none := Option.map_eq_none_iff.1 hnone
  have hlookUp : s.lookUp fails flow (segment.src path) now =
      { state := { s with registry := { s.registry with tick := s.registry.tick + 1 }
                          nextStream := s.nextStream + 1 }
        result := .error .opening
        events := [.opened s.nextStream flow]
        notes := [.opened flow] } := by
    simp only [lookUp, Registry.visit, hentry, hbreaks, if_true]
    rfl
  have hperform : s.perform fails now (.receive config locked path segment) =
      { state := { s with registry := { s.registry with tick := s.registry.tick + 1 }
                          nextStream := s.nextStream + 1 }
        result := .error .opening
        events := [.opened s.nextStream flow]
        notes := [.opened flow] } := by
    simp only [perform, receive, hflow, hlookUp, Outcome.andThen, Outcome.map]
    rfl
  exact ⟨congrArg Outcome.result hperform, congrArg Outcome.events hperform,
    congrArg Outcome.state hperform⟩

theorem recovers {c : Connection} (hs : s.Sound ceiling) (hc : c ∈ s.connections)
    (hover : c.isOver = true) : s.Recovers c where
  receive fails now config locked path segment hflow := by
    intro o hok
    have hok' : (s.receive fails config locked path segment now).result = .ok () := by
      cases hres : (s.receive fails config locked path segment now).result with
      | ok u => rfl
      | error call =>
          simp only [o, perform, Outcome.map, hres] at hok
          cases hok
    exact receive_concludes hs hc hover hflow hok'
  flush fails now action hwound answer hok := flush_concludes hs hwound hover hok

/-- Another arena with its pages, and streams that have begun elsewhere, are nothing to the connections. -/
theorem Sound.beside (hs : s.Sound ceiling) {arena : Arena} {next : Nat} (harena : arena.Sound ceiling)
    (hnext : s.nextStream ≤ next) : Sound ceiling { s with arena, nextStream := next } :=
  ⟨harena, hs.sane, hs.flows, hs.streams, fun c hc => Nat.lt_of_lt_of_le (hs.below c hc) hnext⟩

end Reassembly

/-! ## Sessions -/

namespace Session

variable {s : Session} {t : Turn} {ts : List Turn} {registries ceiling : Nat}

/-- The segments that arrive in a turn. -/
def turnArrivals (s : Session) (t : Turn) : List Arrival :=
  match t.deed with
  | .act registry arena action => (s.state registry arena).arrivals ⟨t.fails, t.now, action⟩
  | .take .. | .give .. => []

/-- The segments that arrive in the course of a list of turns. -/
def arrivals (s : Session) : List Turn → List Arrival
  | [] => []
  | t :: rest => s.turnArrivals t ++ (s.turn t).session.arrivals rest

/-- What holds whoever breaks down: all share one arena, and the pages that are held are out. -/
structure Solvent (registries ceiling : Nat) (s : Session) : Prop where
  /-- There is one arena. -/
  shared : s.Shared registries
  /-- The state of every registry is sound. -/
  sound : ∀ registry < registries, (s.state registry 0).Sound ceiling
  /-- The pages that wait and those that were taken directly are out. -/
  out : s.pagesOut ≤ (s.arena 0).inUse

/-- What an action on a registry leaves to that registry and to the others. -/
theorem state_report (h : s.Shared registries) {registry : Nat} (hlt : registry < registries) (now : Nat)
    (o : Outcome Answer) (r : Nat) :
    (s.report registry 0 now o).session.state r 0 =
      if r = registry then o.state
      else { s.state r 0 with arena := o.state.arena, nextStream := o.state.nextStream } := by
  have harena : (s.report registry 0 now o).session.arena 0 = o.state.arena := by
    show (s.arenas.set 0 o.state.arena).getD 0 (Arena.ofCeiling 0) = o.state.arena
    rw [h.arena_set]
    rfl
  rw [state, harena, s.registry_report_of_lt (h.registries ▸ hlt)]
  split <;> rfl

/-- What all but one registry hold is out besides what waits in that one. -/
theorem Solvent.covers (h : s.Solvent registries ceiling) {registry : Nat} (hlt : registry < registries)
    (r : Registry) :
    ∃ n, (s.state registry 0).Covers ceiling n ∧
      ((s.registries.set registry r).map Registry.waiting).sum + s.inSlots = n + r.waiting := by
  have hin : registry < s.registries.length := by
    rw [h.shared.registries]
    exact hlt
  obtain ⟨k, hbefore, hafter⟩ := sum_waiting_set hin r
  have hout := h.out
  rw [pagesOut, waiting, hbefore] at hout
  refine ⟨k + s.inSlots, ⟨h.sound registry hlt, ?_⟩, by omega⟩
  show k + s.inSlots + (s.registries.getD registry {}).waiting ≤ (s.arena 0).inUse
  omega

/-- An action on a registry keeps the session solvent. -/
theorem Solvent.report (h : s.Solvent registries ceiling) {registry : Nat} (hlt : registry < registries)
    (fails : Event → Bool) (now : Nat) (action : Action) :
    (s.report registry 0 now ((s.state registry 0).perform fails now action)).session.Solvent registries
      ceiling := by
  obtain ⟨n, hcovers, hafter⟩ :=
    h.covers hlt ((s.state registry 0).perform fails now action).state.registry
  have hdone := (Reassembly.lasting_covers ceiling _).perform hcovers fails now action fun _ _ => trivial
  have hbegun := (Reassembly.lasting_begun _).perform (Nat.le_refl (s.state registry 0).nextStream) fails
    now action fun _ _ => trivial
  have hstate := state_report h.shared hlt now ((s.state registry 0).perform fails now action)
  generalize (s.state registry 0).perform fails now action = o at *
  have hsound : ∀ r < registries, ((s.report registry 0 now o).session.state r 0).Sound ceiling := by
    intro r hr
    rw [hstate]
    split
    · exact hdone.sound
    · exact (h.sound r hr).beside hdone.sound.arena hbegun
  have harena : (s.report registry 0 now o).session.arenas = [o.state.arena] := h.shared.arena_set _
  refine ⟨⟨List.length_set.trans h.shared.registries, ?_, ?_⟩, hsound, ?_⟩
  · rw [harena, arena, harena]
    rfl
  · intro r hr
    rcases List.mem_or_eq_of_mem_set hr with hr | rfl
    · exact h.shared.distinct r hr
    · exact hdone.sound.flows
  · have hgone := hdone.out
    rw [arena, harena]
    show (List.map Registry.waiting (s.registries.set registry o.state.registry)).sum + s.inSlots ≤
      o.state.arena.inUse
    omega

/-- Trades with the arena, and pages that change hands accordingly, keep the session solvent. -/
theorem Solvent.traded (h : s.Solvent registries ceiling) {s' : Session} {trades : List Trade}
    (hshared : s'.Shared registries) (hregistries : s'.registries = s.registries)
    (hnext : s'.nextStream = s.nextStream)
    (hbalanced : Arena.Balanced (s.arena 0) trades (s'.arena 0) s.pagesOut s'.pagesOut) :
    s'.Solvent registries ceiling := by
  refine ⟨hshared, fun r hr => ?_, ?_⟩
  · have hsound := h.sound r hr
    have harena : (s'.arena 0).Sound ceiling := hbalanced.leads ▸ hsound.arena.tradeAll trades
    have hstate : s'.state r 0 =
        { s.state r 0 with arena := s'.arena 0, nextStream := s'.nextStream } := by
      simp only [state, registry, hregistries]
    rw [hstate]
    exact hsound.beside harena (Nat.le_of_eq hnext.symm)
  · have hout := h.out
    have hleft := hbalanced.inUse ((s.arena 0).inUse - s.pagesOut) (by omega)
    omega

/-- **Every turn keeps the session solvent**, whoever breaks down. -/
theorem Solvent.turn (h : s.Solvent registries ceiling) (hin : t.deed.Within registries 1) :
    (s.turn t).session.Solvent registries ceiling := by
  obtain ⟨fails, now, deed⟩ := t
  cases deed with
  | act registry arena action =>
      obtain ⟨hlt, harena⟩ : registry < registries ∧ arena < 1 := hin
      obtain rfl : arena = 0 := Nat.lt_one_iff.1 harena
      exact h.report hlt fails now action
  | take arena seq =>
      obtain rfl : arena = 0 := Nat.lt_one_iff.1 hin
      obtain ⟨hshared, hbalanced⟩ := balanced_takePage h.shared seq
      obtain ⟨hregistries, hnext, -⟩ := s.takePage_keeps 0 seq
      exact h.traded hshared hregistries hnext hbalanced
  | give arena slots =>
      obtain rfl : arena = 0 := Nat.lt_one_iff.1 hin
      obtain ⟨hshared, hbalanced⟩ := balanced_givePages h.shared slots
      obtain ⟨hregistries, hnext⟩ := givePages_keeps 0 slots s
      exact h.traded hshared hregistries hnext hbalanced

theorem Solvent.after (h : s.Solvent registries ceiling) (hin : ∀ t ∈ ts, t.deed.Within registries 1) :
    (s.after ts).Solvent registries ceiling := by
  induction ts generalizing s with
  | nil => exact h
  | cons t rest ih =>
      exact ih (h.turn (hin t (List.mem_cons_self ..))) fun t ht => hin t (List.mem_cons_of_mem _ ht)

theorem solvent_fresh (registries ceiling : Nat) :
    (fresh registries [ceiling]).Solvent registries ceiling := by
  refine ⟨shared_fresh registries ceiling, fun r hr => ?_, ?_⟩
  · rw [state, registry_fresh]
    exact Reassembly.sound_history ceiling []
  · rw [pagesOut_fresh]
    exact Nat.zero_le _

/-! ## Connections that are over -/

/-- **A connection that is over stays** through every turn, until its consumer is told so or it is taken
out. -/
theorem stays_turn (h : s.Solvent registries ceiling) (hin : t.deed.Within registries 1) {r : Nat}
    (hr : r < registries) {c : Connection} (hc : c ∈ (s.state r 0).connections)
    (hover : c.isOver = true) :
    c ∈ ((s.turn t).session.state r 0).connections ∨
      Event.completed c.stream c.flow ∈ (s.turn t).events ∨
      ∃ arena, t.deed = .act r arena (.remove c.flow) := by
  obtain ⟨fails, now, deed⟩ := t
  rcases s.registry_turn ⟨fails, now, deed⟩ r with ⟨arena, action, rfl, hacted⟩ | hsame
  · obtain ⟨-, harena⟩ : r < registries ∧ arena < 1 := hin
    obtain rfl : arena = 0 := Nat.lt_one_iff.1 harena
    by_cases hremove : action = .remove c.flow
    · exact Or.inr (Or.inr ⟨0, hremove ▸ rfl⟩)
    · rw [Reassembly.connections, state, hacted]
      exact (Reassembly.perform_leaves (h.sound r hr) hc hover now action hremove).imp_right Or.inl
  · rw [Reassembly.connections, state, hsame]
    exact Or.inl hc

theorem stays_after (h : s.Solvent registries ceiling) (hin : ∀ t ∈ ts, t.deed.Within registries 1)
    {r : Nat} (hr : r < registries) {c : Connection} (hc : c ∈ (s.state r 0).connections)
    (hover : c.isOver = true) :
    c ∈ ((s.after ts).state r 0).connections ∨
      Event.completed c.stream c.flow ∈ (s.reports ts).flatMap Report.events ∨
      ∃ t ∈ ts, ∃ arena, t.deed = .act r arena (.remove c.flow) := by
  induction ts generalizing s with
  | nil => exact Or.inl hc
  | cons t rest ih =>
      have hin' := hin t (List.mem_cons_self ..)
      rcases stays_turn h hin' hr hc hover with hc | hdone | hremoved
      · have hrest := ih (h.turn hin') (fun t ht => hin t (List.mem_cons_of_mem _ ht)) hc
        rcases hrest with hstays | hdone | ⟨t', ht', hremoved⟩
        · exact Or.inl hstays
        · exact Or.inr (Or.inl (List.mem_append_right _ hdone))
        · exact Or.inr (Or.inr ⟨t', List.mem_cons_of_mem _ ht', hremoved⟩)
      · exact Or.inr (Or.inl (List.mem_append_left _ hdone))
      · exact Or.inr (Or.inr ⟨t, List.mem_cons_self .., hremoved⟩)

theorem after_append (ts us : List Turn) (s : Session) : s.after (ts ++ us) = (s.after ts).after us := by
  induction ts generalizing s with
  | nil => rfl
  | cons t rest ih => exact ih (s.turn t).session

end Session
end TcpStreams
