import Mathlib.Data.Sym.Sym2
import TcpStreams.Proofs.Frames

/-!
# Addressing

Which connection a segment belongs to is decided by its two endpoints, whichever of them sent it, and which
half-stream by the one that sent it.  What holds of one segment holds over whole runs: as long as a connection
lives, the segments between its endpoints and no others come to it, those of one endpoint to one half-stream
and those of the other to the other one.

* `FlowId.of_eq_of_iff`: two pairs of endpoints make the same conversation if they are the same, in either
  order.
* `Reception`: a segment that was worked in, and whether a connection was opened for it.
* `Session.Heard`: every live connection goes back to the segment that it was opened for.
* `Session.segments_meet`: where two segments meet.
-/

namespace TcpStreams

/-! ## Pairs of endpoints -/

namespace FlowId

/-- A conversation has the two endpoints that it was made from. -/
theorem endpoints_of (a b : Endpoint) : s((of a b).low, (of a b).high) = s(a, b) := by
  rw [of]
  split
  · rfl
  · exact Sym2.eq_swap

/-- **Two pairs of endpoints make the same conversation** exactly if they are the same, in either order. -/
theorem of_eq_of_iff {a b c d : Endpoint} : of a b = of c d ↔ s(a, b) = s(c, d) := by
  constructor
  · intro h
    rw [← endpoints_of a b, h, endpoints_of]
  · intro h
    rcases Sym2.eq_iff.1 h with ⟨rfl, rfl⟩ | ⟨rfl, rfl⟩
    · rfl
    · exact of_comm a b

end FlowId

/-- An endpoint of a conversation is on one side of it. -/
theorem Connection.directionFrom_eq_iff {c : Connection} {a b : Endpoint} (hne : a ≠ b)
    (hopener : c.opener = a ∨ c.opener = b) {src src' : Endpoint} (hsrc : src = a ∨ src = b)
    (hsrc' : src' = a ∨ src' = b) : c.directionFrom src' = c.directionFrom src ↔ src' = src := by
  refine ⟨fun h => ?_, fun h => h ▸ rfl⟩
  rw [directionFrom, directionFrom] at h
  rcases hsrc with rfl | rfl <;> rcases hsrc' with rfl | rfl <;>
    rcases hopener with hopener | hopener <;> simp_all

theorem Direction.eq_opposite_of_ne {d d' : Direction} (h : d' ≠ d) : d' = d.opposite := by
  cases d <;> cases d' <;> first | rfl | exact absurd rfl h

/-! ## Receptions -/

/-- A segment that was worked in. -/
structure Reception where
  /-- The registry that it was worked in for. -/
  registry : Nat
  /-- Where it came from and went to. -/
  path : Route
  /-- What it found. -/
  arrival : Arrival
  /-- Whether its conversation had no connection before. -/
  founds : Bool

namespace Reception

/-- The stream of the connection that the segment came to. -/
def stream (x : Reception) : Nat := x.arrival.stream

/-- The half-stream that it came to. -/
def direction (x : Reception) : Direction := x.arrival.direction

/-- The endpoint that sent it. -/
def src (x : Reception) : Endpoint := x.arrival.segment.src x.path

/-- The endpoint that it was sent to. -/
def dst (x : Reception) : Endpoint := x.arrival.segment.dst x.path

/-- Its conversation. -/
def flow (x : Reception) : FlowId := x.arrival.segment.flow x.path

/-- The connection of a stream is live while the segment is worked in. -/
def Meets (x : Reception) (stream : Nat) : Prop :=
  ∃ flow c, x.arrival.state.registry.find? flow = some c ∧ c.stream = stream

/-- The segment goes the way back, between the same two ports. -/
def Mirrors (y x : Reception) : Prop :=
  y.path = x.path.reverse ∧ y.arrival.segment.srcPort = x.arrival.segment.dstPort ∧
    y.arrival.segment.dstPort = x.arrival.segment.srcPort

theorem Mirrors.swaps {x y : Reception} (h : y.Mirrors x) : y.src = x.dst ∧ y.dst = x.src := by
  obtain ⟨hpath, hsrc, hdst⟩ := h
  simp only [src, dst, Segment.src, Segment.dst, hpath, hsrc, hdst, Route.reverse, and_self]

/-- The connection of a conversation in a registry is the one that was opened for this segment. -/
structure Opened (o : Reception) (registry : Nat) (flow : FlowId) (c : Connection) : Prop where
  /-- There was none before. -/
  founds : o.founds = true
  /-- It was opened in this registry. -/
  registry : o.registry = registry
  /-- It was opened for this conversation. -/
  flow : o.flow = flow
  /-- Its stream began then. -/
  stream : o.stream = c.stream
  /-- The sender of the segment is the opener. -/
  opener : c.opener = o.src

theorem Opened.kin {o : Reception} {registry : Nat} {flow : FlowId} {c c' : Connection}
    (h : o.Opened registry flow c) (hkin : c.Kin c') : o.Opened registry flow c' :=
  ⟨h.founds, h.registry, h.flow, h.stream.trans hkin.stream.symm, hkin.opener.trans h.opener⟩

end Reception

namespace Session

variable {s : Session} {t : Turn} {ts : List Turn} {log : List Reception}

/-- The segments that are worked in in a turn. -/
def turnReceptions (s : Session) (t : Turn) : List Reception :=
  match t.deed with
  | .act registry arena (.receive config locked path segment) =>
    let action := Action.receive config locked path segment
    ((s.state registry arena).arrivals ⟨t.fails, t.now, action⟩).map fun arrival =>
      { registry, path, arrival, founds := (s.connectionAt registry (segment.flow path)).isNone }
  | _ => []

/-- The segments that are worked in in the course of a list of turns. -/
def receptions (s : Session) : List Turn → List Reception
  | [] => []
  | t :: rest => s.turnReceptions t ++ (s.turn t).session.receptions rest

/-- Connections are opened by segments only: whatever conversation is looked up directly and is live then
was so before. -/
def OpenedBySegments (s : Session) : List Turn → Prop
  | [] => True
  | t :: rest =>
    (∀ registry arena flow src, t.deed = .act registry arena (.lookUp flow src) →
      ((s.turn t).session.connectionAt registry flow).isSome → (s.connectionAt registry flow).isSome) ∧
    (s.turn t).session.OpenedBySegments rest

/-- What the segments worked in so far have to do with the live connections. -/
structure Heard (log : List Reception) (s : Session) : Prop where
  /-- Their streams have begun. -/
  begun : ∀ x ∈ log, x.stream < s.nextStream
  /-- Every stream was opened for one of them. -/
  once : ∀ o ∈ log, ∀ o' ∈ log, o.founds = true → o'.founds = true → o.stream = o'.stream → o = o'
  /-- Every live connection was opened for one of them. -/
  live : ∀ r flow c, s.connectionAt r flow = some c → ∃ o ∈ log, o.Opened r flow c
  /-- So was every connection that one of them found. -/
  found : ∀ x ∈ log, ∀ flow c, x.arrival.state.registry.find? flow = some c →
    ∃ o ∈ log, o.Opened x.registry flow c
  /-- They came to the connections of their conversations. -/
  addressed : ∀ x ∈ log, x.arrival.state.registry.find? x.flow = some x.arrival.connection
  /-- They came to the half-streams that their senders send. -/
  directed : ∀ x ∈ log, x.direction = x.arrival.connection.directionFrom x.src

theorem heard_fresh (registries : Nat) (ceilings : List Nat) : Heard [] (fresh registries ceilings) := by
  refine ⟨by simp, by simp, fun r flow c hc => ?_, by simp, by simp, by simp⟩
  rw [connectionAt, registry_fresh] at hc
  cases hc

/-- Where no connection is opened and no segment worked in, nothing is heard. -/
theorem Heard.quiet {s' : Session} (h : Heard log s) (hnext : s.nextStream ≤ s'.nextStream)
    (hlive : ∀ r flow c', s'.connectionAt r flow = some c' →
      ∃ c, s.connectionAt r flow = some c ∧ c.Kin c') : Heard log s' := by
  refine ⟨fun x hx => Nat.lt_of_lt_of_le (h.begun x hx) hnext, h.once, fun r flow c' hc' => ?_,
    h.found, h.addressed, h.directed⟩
  obtain ⟨c, hc, hkin⟩ := hlive r flow c' hc'
  obtain ⟨o, ho, hopened⟩ := h.live r flow c hc
  exact ⟨o, ho, hopened.kin hkin⟩

/-- What a segment finds when its conversation is looked up: the connections that were live, and one that is
opened for it if its conversation had none. -/
theorem found_of_arrives {s : Reassembly} {fails : Event → Bool} {now : Nat} {config : Config}
    {locked : List FlowId} {path : Route} {segment : Segment} {a : Arrival}
    (ha : a ∈ s.arrivals ⟨fails, now, .receive config locked path segment⟩) :
    let flow := segment.flow path
    s.nextStream ≤ a.state.nextStream ∧
      ((s.registry.find? flow = some a.connection ∧
          ∀ other, a.state.registry.find? other = s.registry.find? other) ∨
        s.registry.find? flow = none ∧ s.nextStream < a.state.nextStream ∧
          a.connection = Connection.new flow (segment.src path) s.nextStream now ∧
          ∀ other, a.state.registry.find? other =
            if other = flow then some a.connection else s.registry.find? other) := by
  intro flow
  obtain ⟨path', haction, hstate, hres, -⟩ := Reassembly.mem_arrivals ha
  obtain ⟨rfl, rfl, rfl, rfl⟩ :
      config = a.config ∧ locked = a.locked ∧ path = path' ∧ segment = a.segment := by
    simpa using haction
  rw [← hstate]
  cases hfind : s.registry.find? flow with
  | some c =>
      obtain ⟨hfound, -, hnext, hsame⟩ :=
        @Reassembly.lookUp_found s fails flow now c hfind (a.segment.src path)
      refine ⟨Nat.le_of_eq hnext.symm, Or.inl ⟨?_, hsame⟩⟩
      rw [Except.ok.inj (hfound.symm.trans hres)]
  | none =>
      obtain ⟨hopened, -, hnext, hlive⟩ :=
        @Reassembly.lookUp_opened s fails flow now hfind (a.segment.src path)
      have hlt : s.nextStream <
          (s.lookUp fails flow (a.segment.src path) now).state.nextStream := hnext ▸ Nat.lt_succ_self _
      rw [hopened] at hres
      split at hres
      · cases hres
      · next hreturns =>
          refine ⟨Nat.le_of_lt hlt, Or.inr ⟨rfl, hlt, (Except.ok.inj hres).symm, fun other => ?_⟩⟩
          rw [hlive, if_neg hreturns, Except.ok.inj hres]

/-- A segment is added to those that were heard, if what it finds was opened for one of them and nothing else
becomes live. -/
theorem Heard.snoc {s' : Session} {x : Reception} (h : Heard log s) (hle : s.nextStream ≤ s'.nextStream)
    (hbegun : x.stream < s'.nextStream) (hown : x.founds = true → ∀ o ∈ log, o.stream ≠ x.stream)
    (hfound : ∀ flow c, x.arrival.state.registry.find? flow = some c →
      ∃ o ∈ log ++ [x], o.Opened x.registry flow c)
    (haddressed : x.arrival.state.registry.find? x.flow = some x.arrival.connection)
    (hdirected : x.direction = x.arrival.connection.directionFrom x.src)
    (hlive : ∀ r flow c', s'.connectionAt r flow = some c' → s.connectionAt r flow = some c' ∨
      r = x.registry ∧ ∃ c, x.arrival.state.registry.find? flow = some c ∧ c.Kin c') :
    Heard (log ++ [x]) s' := by
  have hearlier : ∀ {r flow c}, (∃ o ∈ log, o.Opened r flow c) → ∃ o ∈ log ++ [x], o.Opened r flow c := by
    rintro r flow c ⟨o, ho, hopened⟩
    exact ⟨o, List.mem_append_left _ ho, hopened⟩
  constructor
  case begun =>
    refine List.forall_mem_append.2 ⟨fun y hy => ?_, List.forall_mem_singleton.2 hbegun⟩
    exact Nat.lt_of_lt_of_le (h.begun y hy) hle
  case once =>
    intro o ho o' ho' hfounds hfounds' hsame
    rcases List.mem_append.1 ho with hold | hnew <;> rcases List.mem_append.1 ho' with hold' | hnew'
    · exact h.once o hold o' hold' hfounds hfounds' hsame
    · obtain rfl := List.mem_singleton.1 hnew'
      exact absurd hsame (hown hfounds' o hold)
    · obtain rfl := List.mem_singleton.1 hnew
      exact absurd hsame.symm (hown hfounds o' hold')
    · rw [List.mem_singleton.1 hnew, List.mem_singleton.1 hnew']
  case live =>
    intro r flow c' hc'
    rcases hlive r flow c' hc' with hc' | ⟨rfl, c, hc, hkin⟩
    · exact hearlier (h.live r flow c' hc')
    · obtain ⟨o, ho, hopened⟩ := hfound flow c hc
      exact ⟨o, ho, hopened.kin hkin⟩
  case found =>
    refine List.forall_mem_append.2 ⟨fun y hy flow c hc => ?_, List.forall_mem_singleton.2 hfound⟩
    exact hearlier (h.found y hy flow c hc)
  case addressed =>
    exact List.forall_mem_append.2 ⟨h.addressed, List.forall_mem_singleton.2 haddressed⟩
  case directed =>
    exact List.forall_mem_append.2 ⟨h.directed, List.forall_mem_singleton.2 hdirected⟩

/-- **A segment that is worked in** comes to the connection of its conversation, or opens one. -/
theorem Heard.receive {registry arena : Nat} {fails : Event → Bool} {now : Nat} {config : Config}
    {locked : List FlowId} {path : Route} {segment : Segment} (h : Heard log s) (hs : s.Kempt) {a : Arrival}
    (ha : a ∈ (s.state registry arena).arrivals ⟨fails, now, .receive config locked path segment⟩) :
    let x : Reception := ⟨registry, path, a, (s.connectionAt registry (segment.flow path)).isNone⟩
    Heard (log ++ [x]) (s.report registry arena now ((s.state registry arena).perform fails now
      (.receive config locked path segment))).session := by
  intro x
  obtain ⟨⟨rfl, rfl, rfl⟩, -, -, hdirection⟩ := Reassembly.arrivals_receive ha
  obtain ⟨hle, horigin⟩ := found_of_arrives ha
  have hlooked : a.state.registry.find? x.flow = some a.connection := by
    rcases horigin with ⟨hfound, hsame⟩ | ⟨-, -, -, hlive⟩
    · exact (hsame _).trans hfound
    · exact (hlive _).trans (if_pos rfl)
  have hkempt : a.state.Kempt := by
    obtain ⟨path', -, hstate, -⟩ := Reassembly.mem_arrivals ha
    rw [← hstate]
    exact ((s.state registry arena).opens_lookUp _ _ _ _).1.kempt (hs.state registry arena)
  have hdone := Reassembly.state_of_arrives ha
  have hages : (a.finish fails).Ages (fun _ _ _ => False) a.state :=
    Reassembly.ages_finish hkempt hlooked fun _ => False.elim
  simp only at hdone
  have hnext : ((s.state registry arena).perform fails now
      (.receive a.config a.locked path a.segment)).state.nextStream = a.state.nextStream := by
    rw [hdone]
    exact hages.next
  have hstream : x.stream < a.state.nextStream := by
    rcases horigin with ⟨hlive, -⟩ | ⟨-, hlt, hnew, -⟩
    · exact Nat.lt_of_lt_of_le (hs.below registry _ _ hlive) hle
    · show a.connection.stream < _
      rw [hnew]
      exact hlt
  refine h.snoc (Nat.le_trans hle (Nat.le_of_eq hnext.symm)) (Nat.lt_of_lt_of_eq hstream hnext.symm) ?_ ?_
    hlooked hdirection fun r flow c' hc' => ?_
  · -- a connection that is opened gets a stream of its own
    intro hfounds o ho hsame
    have hnone := Option.isNone_iff_eq_none.1 hfounds
    have hbegun : o.stream < s.nextStream := h.begun o ho
    rcases horigin with ⟨hlive, -⟩ | ⟨-, -, hnew, -⟩
    · exact absurd (hlive.symm.trans hnone) (Option.some_ne_none _)
    · have hx : x.stream = s.nextStream := congrArg Connection.stream hnew
      omega
  · -- what the segment finds was opened for an earlier one, or for this one
    intro flow c hc
    have hbefore : s.connectionAt registry flow = some c → ∃ o ∈ log ++ [x], o.Opened registry flow c := by
      intro hlive
      obtain ⟨o, ho, hopened⟩ := h.live registry flow c hlive
      exact ⟨o, List.mem_append_left _ ho, hopened⟩
    rcases horigin with ⟨-, hsame⟩ | ⟨hnone, -, hnew, hlive⟩
    · exact hbefore ((hsame flow).symm.trans hc)
    · rw [hlive] at hc
      split at hc
      · next hown =>
          obtain rfl := Option.some.inj hc
          have hfounds : x.founds = true := Option.isNone_iff_eq_none.2 hnone
          exact ⟨x, by simp, hfounds, rfl, hown.symm, rfl, by rw [hnew]; rfl⟩
      · exact hbefore hc
  · rcases s.connectionAt_report registry arena now _ hc' with ⟨rfl, hc'⟩ | ⟨-, hc'⟩
    · obtain ⟨c, cs, hc, hkin⟩ := hages.live flow c' (hdone ▸ hc')
      exact Or.inr ⟨rfl, c, hc, hkin.kin⟩
    · exact Or.inl hc'

/-- A look-up that opens no connection finds the live ones as they were. -/
theorem live_of_lookUp {s : Reassembly} {fails : Event → Bool} {flow other : FlowId} {src : Endpoint}
    {now : Nat} {c : Connection}
    (hc : (s.lookUp fails flow src now).state.registry.find? other = some c)
    (hknown : other = flow → (s.registry.find? flow).isSome) : s.registry.find? other = some c := by
  cases hfind : s.registry.find? flow with
  | some x =>
      obtain ⟨-, -, -, hsame⟩ := @Reassembly.lookUp_found s fails flow now x hfind src
      exact (hsame other).symm.trans hc
  | none =>
      obtain ⟨-, -, -, hlive⟩ := @Reassembly.lookUp_opened s fails flow now hfind src
      have hne : other ≠ flow := fun heq => by
        have hsome := hknown heq
        rw [hfind] at hsome
        cases hsome
      rwa [hlive, if_neg hne] at hc

/-- So does one in which the consumer of the new stream breaks down. -/
theorem live_of_error {s : Reassembly} {fails : Event → Bool} {flow other : FlowId} {src : Endpoint}
    {now : Nat} {c : Connection} {call : ConsumerCall}
    (hres : (s.lookUp fails flow src now).result = .error call)
    (hc : (s.lookUp fails flow src now).state.registry.find? other = some c) :
    s.registry.find? other = some c := by
  cases hfind : s.registry.find? flow with
  | some x =>
      obtain ⟨hfound, -⟩ := @Reassembly.lookUp_found s fails flow now x hfind src
      cases hfound.symm.trans hres
  | none =>
      obtain ⟨hopened, -, -, hlive⟩ := @Reassembly.lookUp_opened s fails flow now hfind src
      rw [hres] at hopened
      rw [hlive] at hc
      split at hopened
      · next hfails =>
          rw [if_pos hfails] at hc
          split at hc
          · cases hc
          · exact hc
      · cases hopened

/-- **A turn** adds the segment that is worked in, if there is one. -/
theorem Heard.turn (h : Heard log s) (hs : s.Kempt)
    (hopen : ∀ registry arena flow src, t.deed = .act registry arena (.lookUp flow src) →
      ((s.turn t).session.connectionAt registry flow).isSome → (s.connectionAt registry flow).isSome) :
    Heard (log ++ s.turnReceptions t) (s.turn t).session := by
  have hnext := (hs.turn (W := fun _ _ _ => False) (t := t) fun _ _ _ => False.elim).2.1.begun
  obtain ⟨fails, now, deed⟩ := t
  cases deed with
  | act i arena action =>
      -- whatever leaves the live connections as they are leaves the rest alone
      have hquiet : (∀ flow c', (s.turn ⟨fails, now, .act i arena action⟩).session.connectionAt i flow =
            some c' → ((s.state i arena).perform fails now action).state.registry.find? flow = some c' →
            ∃ c, s.connectionAt i flow = some c ∧ c.Kin c') →
          Heard log (s.turn ⟨fails, now, .act i arena action⟩).session := by
        refine fun hlive => h.quiet hnext fun r flow c' hc' => ?_
        rcases s.connectionAt_report i arena now _ hc' with ⟨rfl, hfound⟩ | ⟨-, hfound⟩
        · exact hlive flow c' hc' hfound
        · exact ⟨c', hfound, .refl c'⟩
      cases action with
      | receive config locked path segment =>
          cases hres : ((s.state i arena).lookUp fails (segment.flow path) (segment.src path) now).result with
          | ok c =>
              obtain ⟨a, harr, -⟩ :=
                @Reassembly.receive_of_ok (s.state i arena) fails config locked path segment now c hres
              rw [turnReceptions]
              simp only [harr, List.map_cons, List.map_nil]
              exact h.receive hs (harr ▸ List.mem_singleton_self a)
          | error call =>
              obtain ⟨harr, hstate, -⟩ :=
                @Reassembly.receive_of_error (s.state i arena) fails config locked path segment now call hres
              rw [turnReceptions]
              simp only [harr, List.map_nil, List.append_nil]
              refine hquiet fun flow c' _ hc' => ⟨c', ?_, .refl c'⟩
              exact live_of_error hres (hstate ▸ hc' :)
      | lookUp flow src =>
          rw [turnReceptions, List.append_nil]
          refine hquiet fun other c' hafter hc' => ⟨c', live_of_lookUp hc' fun hsame => ?_, .refl c'⟩
          subst hsame
          exact hopen i arena other src rfl (by rw [hafter]; rfl)
      | flushAll order | flushBefore cutoff | flushIdle config | remove flow =>
          rw [turnReceptions, List.append_nil]
          refine hquiet fun flow c' _ hc' => ?_
          obtain ⟨c, cs, hc, hages⟩ := (Reassembly.ages_of_unvisited (W := fun _ _ _ => False)
            (hs.state i arena) now rfl).live flow c' hc'
          exact ⟨c, hc, hages.kin⟩
  | take arena seq =>
      rw [turnReceptions, List.append_nil]
      refine h.quiet hnext fun r flow c hc => ⟨c, ?_, .refl c⟩
      exact (connectionAt_congr (s.takePage_keeps arena seq).1 r flow).symm.trans hc
  | give arena slots =>
      rw [turnReceptions, List.append_nil]
      refine h.quiet hnext fun r flow c hc => ⟨c, ?_, .refl c⟩
      exact (connectionAt_congr (givePages_keeps arena slots s).1 r flow).symm.trans hc

/-- **So does a run.** -/
theorem Heard.after (h : Heard log s) (hs : s.Kempt) (hopen : s.OpenedBySegments ts) :
    Heard (log ++ s.receptions ts) (s.after ts) := by
  induction ts generalizing s log with
  | nil =>
      rw [receptions, List.append_nil]
      exact h
  | cons t rest ih =>
      rw [receptions, ← List.append_assoc]
      have hkempt := (hs.turn (W := fun _ _ _ => False) (t := t) fun _ _ _ => False.elim).1
      exact ih (h.turn hs hopen.1) hkempt hopen.2

/-- Where nothing is looked up directly, connections are opened by segments only. -/
theorem openedBySegments_of_no_lookUp
    (h : ∀ t ∈ ts, ∀ registry arena flow src, t.deed ≠ .act registry arena (.lookUp flow src)) :
    s.OpenedBySegments ts := by
  induction ts generalizing s with
  | nil => trivial
  | cons t rest ih =>
      refine ⟨fun registry arena flow src hdeed => ?_, ih fun t ht => h t (List.mem_cons_of_mem _ ht)⟩
      exact absurd hdeed (h t (List.mem_cons_self ..) registry arena flow src)

namespace Heard

variable {x y o : Reception}

/-- Every segment came to a connection that was opened for one of them. -/
theorem exists_opened (h : Heard log s) (hx : x ∈ log) :
    ∃ o ∈ log, o.Opened x.registry x.flow x.arrival.connection :=
  h.found x hx _ _ (h.addressed x hx)

/-- The segments of one stream came to a connection that was opened for one and the same. -/
theorem opened_of_stream (h : Heard log s) (hy : y ∈ log) (ho : o ∈ log)
    (hox : o.Opened x.registry x.flow x.arrival.connection) (hsame : y.stream = x.stream) :
    o.Opened y.registry y.flow y.arrival.connection := by
  obtain ⟨o', ho', hoy⟩ := h.exists_opened hy
  have hstream : o.stream = o'.stream := hox.stream.trans (hsame.symm.trans hoy.stream.symm)
  obtain rfl := h.once o ho o' ho' hox.founds hoy.founds hstream
  exact hoy

/-- The opener sends the forward half-stream. -/
theorem forward_iff (h : Heard log s) (hx : x ∈ log)
    (hox : o.Opened x.registry x.flow x.arrival.connection) :
    x.direction = .forward ↔ x.src = o.src := by
  rw [h.directed x hx, Connection.directionFrom, hox.opener]
  split
  · next heq => simp [heq]
  · next hne => simp [hne]

/-- **Two segments come to one connection**, if that of the first one is live when the second one is worked
in, exactly if they have the same two endpoints. -/
theorem meet_iff (h : Heard log s) (hx : x ∈ log) (hy : y ∈ log) (hmeets : y.Meets x.stream) :
    y.registry = x.registry ∧ (y.stream = x.stream ↔ s(y.src, y.dst) = s(x.src, x.dst)) := by
  obtain ⟨flow, c, hc, hstream⟩ := hmeets
  obtain ⟨o, ho, hox⟩ := h.exists_opened hx
  obtain ⟨o', ho', hoc⟩ := h.found y hy flow c hc
  obtain rfl : o = o' := h.once o ho o' ho' hox.founds hoc.founds
    (hox.stream.trans (hstream.symm.trans hoc.stream.symm))
  have hflow : flow = x.flow := hoc.flow.symm.trans hox.flow
  refine ⟨hoc.registry.symm.trans hox.registry, ?_⟩
  rw [← FlowId.of_eq_of_iff]
  show _ ↔ y.flow = x.flow
  constructor
  · intro hsame
    exact (h.opened_of_stream hy ho hox hsame).flow.symm.trans hox.flow
  · intro hsame
    have hlive := h.addressed y hy
    rw [hsame, ← hflow, hc] at hlive
    obtain rfl := Option.some.inj hlive
    exact hstream

/-- **And they come to one half-stream** exactly if the same endpoint sent them. -/
theorem direction_iff (h : Heard log s) (hx : x ∈ log) (hy : y ∈ log) (hsame : y.stream = x.stream)
    (hpairs : s(y.src, y.dst) = s(x.src, x.dst)) (hne : x.src ≠ x.dst) :
    y.direction = x.direction ↔ y.src = x.src := by
  obtain ⟨o, ho, hox⟩ := h.exists_opened hx
  have hoy := h.opened_of_stream hy ho hox hsame
  -- the opener is one of the two endpoints
  have hopener : s(o.src, o.dst) = s(x.src, x.dst) := FlowId.of_eq_of_iff.1 hox.flow
  have hmem : ∀ z : Reception, s(z.src, z.dst) = s(x.src, x.dst) → z.src = x.src ∨ z.src = x.dst := by
    intro z hz
    exact Sym2.mem_iff.1 (hz ▸ Sym2.mem_mk_left z.src z.dst)
  have hdirection : y.direction = x.arrival.connection.directionFrom y.src := by
    rw [h.directed y hy, Connection.directionFrom, Connection.directionFrom, hoy.opener, hox.opener]
  rw [hdirection, h.directed x hx]
  exact Connection.directionFrom_eq_iff hne (hox.opener ▸ hmem o hopener) (Or.inl rfl) (hmem y hpairs)

end Heard

/-- **Segments meet in the connection of their endpoints.** Two pairs of endpoints make one conversation
exactly if they are the same in either order.

Let any number of reassemblers and other parties share registries and arenas, and let consumers break down
in any calls; but let connections be opened by segments only.  Take two segments that were worked in, and let
the connection of the first one be live when the second one is.

Then the second one comes to it exactly if both have the same two endpoints, in either order.  If so, and the
two endpoints differ, they come to the same half-stream exactly if the same endpoint sent them, and otherwise
to opposite ones.  So a segment and one that goes the way back between the same ports meet in opposite
half-streams of one connection.

The connection of every segment was opened for one of them, the sender of which sends its forward
half-stream. -/
theorem segments_meet (registries : Nat) (ceilings : List Nat) (turns : List Turn)
    (hopen : (fresh registries ceilings).OpenedBySegments turns) :
    (∀ a b c d, FlowId.of a b = FlowId.of c d ↔ s(a, b) = s(c, d)) ∧
      let log := (fresh registries ceilings).receptions turns
      (∀ x ∈ log, ∀ y ∈ log, y.Meets x.stream →
        y.registry = x.registry ∧
        (y.stream = x.stream ↔ s(y.src, y.dst) = s(x.src, x.dst)) ∧
        (y.stream = x.stream → x.src ≠ x.dst →
          (y.direction = x.direction ↔ y.src = x.src) ∧
          (y.src ≠ x.src → y.direction = x.direction.opposite)) ∧
        (y.Mirrors x → y.stream = x.stream ∧
          (x.src ≠ x.dst → y.direction = x.direction.opposite))) ∧
      ∀ x ∈ log, ∃ o ∈ log, o.founds = true ∧ o.stream = x.stream ∧
        (∀ o' ∈ log, o'.founds = true → o'.stream = x.stream → o' = o) ∧
        o.direction = .forward ∧ (x.direction = .forward ↔ x.src = o.src) := by
  have hheard := (heard_fresh registries ceilings).after (kempt_fresh registries ceilings) hopen
  rw [List.nil_append] at hheard
  refine ⟨fun a b c d => FlowId.of_eq_of_iff, ?_⟩
  intro log
  refine ⟨fun x hx y hy hmeets => ?_, fun x hx => ?_⟩
  · obtain ⟨hregistry, hpairs⟩ := hheard.meet_iff hx hy hmeets
    have hhalves : y.stream = x.stream → x.src ≠ x.dst → (y.direction = x.direction ↔ y.src = x.src) :=
      fun hsame hne => hheard.direction_iff hx hy hsame (hpairs.1 hsame) hne
    refine ⟨hregistry, hpairs, fun hsame hne => ⟨hhalves hsame hne, fun hsrc => ?_⟩, fun hmirror => ?_⟩
    · exact Direction.eq_opposite_of_ne fun heq => hsrc ((hhalves hsame hne).1 heq)
    · obtain ⟨hsrc, hdst⟩ := hmirror.swaps
      have hsame : y.stream = x.stream := hpairs.2 (by rw [hsrc, hdst, Sym2.eq_swap])
      refine ⟨hsame, fun hne => Direction.eq_opposite_of_ne fun heq => hne ?_⟩
      exact ((hhalves hsame hne).1 heq).symm.trans hsrc
  · obtain ⟨o, ho, hox⟩ := hheard.exists_opened hx
    refine ⟨o, ho, hox.founds, hox.stream, fun o' ho' hfounds hstream => ?_, ?_, hheard.forward_iff hx hox⟩
    · exact hheard.once o' ho' o ho hfounds hox.founds (hstream.trans hox.stream.symm)
    · exact (hheard.forward_iff ho (hheard.opened_of_stream ho ho hox hox.stream)).2 rfl

/-- A conversation that ends and begins again: first one endpoint is heard first, then the other one. -/
def turnsOfTwoLives : List Turn :=
  [.ofSegment 0 1000 80 10 ⟨0⟩ [97], .ofSegment 0 80 1000 20 .fin [], .ofSegment 0 1000 80 11 .fin [],
    .ofSegment 0 80 1000 30 ⟨0⟩ [98], .ofSegment 0 1000 80 12 ⟨0⟩ [99]]

theorem segments_meet_in_two_lives :
    (fresh 1 [4]).OpenedBySegments turnsOfTwoLives ∧
      let log := (fresh 1 [4]).receptions turnsOfTwoLives
      log.map (fun x => (x.founds, x.stream, x.direction)) =
          [(true, 0, .forward), (false, 0, .reverse), (false, 0, .forward), (true, 1, .forward),
            (false, 1, .reverse)] ∧
        ∃ x ∈ log, ∃ y ∈ log, x.stream = 1 ∧ x.src ≠ x.dst ∧ y.Meets x.stream ∧ y.Mirrors x ∧
          y.stream = x.stream ∧ y.direction = x.direction.opposite := by
  have hopen : (fresh 1 [4]).OpenedBySegments turnsOfTwoLives :=
    openedBySegments_of_no_lookUp (by simp [turnsOfTwoLives, Turn.ofSegment])
  refine ⟨hopen, by decide, ?_⟩
  let x := ((fresh 1 [4]).receptions turnsOfTwoLives).get ⟨3, by decide⟩
  let y := ((fresh 1 [4]).receptions turnsOfTwoLives).get ⟨4, by decide⟩
  have hne : x.src ≠ x.dst := by decide
  have hmeets : y.Meets x.stream := by
    obtain ⟨c, hc⟩ : ∃ c, y.arrival.state.registry.find? y.flow = some c :=
      Option.isSome_iff_exists.1 (by decide)
    have hstream : (y.arrival.state.registry.find? y.flow).map Connection.stream = some x.stream := by decide
    rw [hc] at hstream
    exact ⟨y.flow, c, hc, Option.some.inj hstream⟩
  have hmirror : y.Mirrors x := ⟨by decide, by decide, by decide⟩
  obtain ⟨-, hall, -⟩ := segments_meet 1 [4] turnsOfTwoLives hopen
  obtain ⟨-, -, -, hmirrors⟩ := hall x (List.get_mem ..) y (List.get_mem ..) hmeets
  obtain ⟨hsame, hopposite⟩ := hmirrors hmirror
  exact ⟨x, List.get_mem .., y, List.get_mem .., by decide, hne, hmeets, hmirror, hsame, hopposite hne⟩

end Session
end TcpStreams
