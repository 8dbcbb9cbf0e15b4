import Mathlib.Order.Monotone.Basic
import TcpStreams.Proofs.Courses

/-!
# Conversations apart

Conversations share the registry, the arena and the numbers of the streams.  As long as the arena refuses
no page they do not get in each other's way: what the consumers of a conversation see, and what waits on
its connection, is what it would be if the segments of the other conversations had never come, but for
the numbers of the streams.

* `Course.receiving_renumber`, `Course.ending_renumber`: the course of a conversation does not depend on
  the numbers of its streams.
* `Mirrors`: what two histories have in common about one conversation.
* `KeepsUp.bystander`, `KeepsUp.member`: a segment of another conversation, and one of this conversation
  that arrives in both.
* `Reassembly.conversations_apart`: every run of segments, and the run of those of one conversation.
-/

namespace TcpStreams

/-! ## Numbers of streams -/

/-- The event, about the stream that `ρ` says. -/
def Event.renumber (ρ : Nat → Nat) : Event → Event
  | opened n flow => .opened (ρ n) flow
  | delivered n flow chunks => .delivered (ρ n) flow chunks
  | completed n flow => .completed (ρ n) flow

/-- Consumers break down whatever the numbers of their streams are. -/
def Call.IgnoresNumbers (call : Call) : Prop :=
  ∀ ρ event, call.fails (event.renumber ρ) = call.fails event

/-- The call works in a segment of a conversation. -/
def Call.concerns (k : FlowId) (call : Call) : Bool :=
  match call.action with
  | .receive _ _ path segment => decide (segment.flow path = k)
  | _ => false

theorem Event.renumber_congr {ρ σ : Nat → Nat} {event : Event} (h : ρ event.stream = σ event.stream) :
    event.renumber ρ = event.renumber σ := by
  cases event with
  | opened n flow => exact congrArg (opened · flow) h
  | delivered n flow chunks => exact congrArg (delivered · flow chunks) h
  | completed n flow => exact congrArg (completed · flow) h

namespace Course

variable {fails : Event → Bool} {ρ : Nat → Nat} {payload : List UInt8} {config : Config} {path : Route}
  {segment : Segment} {now m n : Nat}

/-- The course in streams with other numbers. -/
def renumber (ρ : Nat → Nat) (course : Course) : Course where
  left := course.left.map (Connection.renumber ρ)
  seen := course.seen.map (Event.renumber ρ)

theorem handing_renumber (hfails : ∀ event, fails (event.renumber ρ) = fails event)
    (y : Yield Connection) :
    handing fails payload (y.map (Connection.renumber ρ)) = (handing fails payload y).renumber ρ := by
  have hhanded : fails (.delivered (ρ y.value.stream) y.value.flow
      (y.chunks.map (Chunk.delivery payload))) = _ := hfails (.delivered y.value.stream ..)
  have hcompleted : fails (.completed (ρ y.value.stream) y.value.flow) = _ :=
    hfails (.completed y.value.stream y.value.flow)
  have hover : (y.value.renumber ρ).isOver = y.value.isOver := rfl
  simp only [handing, Yield.map, hover]
  simp only [Connection.renumber, hhanded, hcompleted]
  split
  · rfl
  · split
    · split <;> rfl
    · rfl

/-- What a segment leads to does not depend on the numbers of the streams. -/
theorem receiving_renumber (hfails : ∀ event, fails (event.renumber ρ) = fails event)
    (known : Option Connection) (hnext : known = none → ρ m = n) :
    receiving fails config path segment now n (known.map (Connection.renumber ρ)) =
      (receiving fails config path segment now m known).renumber ρ := by
  have hmeeting : ∀ c, meeting fails config path segment (c.renumber ρ) =
      (meeting fails config path segment c).renumber ρ := by
    intro c
    rw [meeting, Connection.welcome_renumber]
    exact handing_renumber hfails _
  cases known with
  | some c => exact hmeeting c
  | none =>
      obtain rfl := hnext rfl
      have hopened := hfails (.opened m (segment.flow path))
      have hnew : meeting fails config path segment
          (Connection.new (segment.flow path) (segment.src path) (ρ m) now) = _ :=
        hmeeting (Connection.new (segment.flow path) (segment.src path) m now)
      simp only [Event.renumber] at hopened
      simp only [Option.map_none, receiving, hopened, hnew]
      split <;> rfl

/-- Neither does the end of a conversation. -/
theorem ending_renumber (hfails : ∀ event, fails (event.renumber ρ) = fails event)
    (known : Option Connection) :
    ending fails (known.map (Connection.renumber ρ)) = (ending fails known).renumber ρ := by
  cases known with
  | none => rfl
  | some c =>
      rw [Option.map_some, ending, Connection.close_renumber]
      exact handing_renumber hfails _

end Course

/-! ## Two histories -/

/-- What the consumers of a conversation saw. -/
def History.eventsAt (r : History) (k : FlowId) : List Event := r.events.filter fun e => e.flow = k

theorem History.eventsAt_extend (r : History) (call : Call) (k : FlowId) :
    (r.extend call).eventsAt k = r.eventsAt k ++
      (r.state.perform call.fails call.now call.action).events.filter fun e => e.flow = k :=
  List.filter_append ..

/-- **One history is another** as far as a conversation goes: its consumers saw the same, and the same
connection is left of it, with streams numbered anew. -/
structure Mirrors (ρ : Nat → Nat) (k : FlowId) (r r' : History) : Prop where
  /-- The consumers saw the same. -/
  events : r'.eventsAt k = (r.eventsAt k).map (Event.renumber ρ)
  /-- The same connection is left. -/
  live : r'.state.registry.find? k = (r.state.registry.find? k).map (Connection.renumber ρ)

/-- One history keeps up with another: it mirrors it, and every stream of the other has its number. -/
structure KeepsUp (ρ : Nat → Nat) (k : FlowId) (r r' : History) : Prop extends Mirrors ρ k r r' where
  /-- Streams keep their order. -/
  mono : StrictMono ρ
  /-- The streams of the one have begun in the other. -/
  begun : ∀ n < r.state.nextStream, ρ n < r'.state.nextStream
  /-- The consumers were told about streams that have begun. -/
  told : ∀ event ∈ r.eventsAt k, event.stream < r.state.nextStream

variable {ceiling : Nat} {ρ : Nat → Nat} {k : FlowId} {r r' : History} {fails : Event → Bool} {now : Nat}
  {config : Config} {locked : List FlowId} {path : Route} {segment : Segment}

/-- A segment of another conversation changes nothing. -/
theorem KeepsUp.bystander (h : KeepsUp ρ k r r') (hs' : r'.state.Sound ceiling)
    (hk : segment.flow path ≠ k)
    (hg' : ∀ a ∈ r'.state.arrivals ⟨fails, now, .receive config locked path segment⟩, a.Granted) :
    KeepsUp ρ k r (r'.extend ⟨fails, now, .receive config locked path segment⟩) := by
  obtain ⟨hpursues, hnext⟩ := Reassembly.pursues_receive hs' hg'
  refine ⟨⟨?_, ?_⟩, h.mono, fun n hn => ?_, h.told⟩
  · have hquiet := (hpursues.events_at k).trans (if_neg hk)
    rw [History.eventsAt_extend, ← h.events]
    exact (congrArg _ hquiet).trans (List.append_nil _)
  · rw [← h.live]
    exact (hpursues.found k).trans (if_neg (Ne.symm hk))
  · exact Nat.lt_of_lt_of_le (h.begun n hn) (Nat.le.intro hnext.symm)

/-- The numbering of the streams below `m`, gone on with from `n`. -/
def extendNumbering (ρ : Nat → Nat) (m n i : Nat) : Nat := if i < m then ρ i else n + (i - m)

theorem strictMono_extendNumbering {m n : Nat} (h : StrictMono ρ) (hlt : ∀ i < m, ρ i < n) :
    StrictMono (extendNumbering ρ m n) := by
  intro i j hij
  simp only [extendNumbering]
  split
  · next hi =>
      split
      · exact h hij
      · exact Nat.lt_of_lt_of_le (hlt i hi) (Nat.le_add_right _ _)
  · rw [if_neg (by omega)]
    omega

/-- The numbering can be chosen such that the next streams of both histories have the same number. -/
theorem KeepsUp.abreast (h : KeepsUp ρ k r r') (hs : r.state.Sound ceiling) :
    ∃ σ, KeepsUp σ k r r' ∧ σ r.state.nextStream = r'.state.nextStream := by
  let σ := extendNumbering ρ r.state.nextStream r'.state.nextStream
  have hold : ∀ i < r.state.nextStream, σ i = ρ i := fun i hi => if_pos hi
  have hnew : σ r.state.nextStream = r'.state.nextStream := by simp [σ, extendNumbering]
  -- so far nothing has the numbers that are new
  refine ⟨σ, ⟨⟨?_, ?_⟩, strictMono_extendNumbering h.mono h.begun, fun i hi => ?_, h.told⟩, hnew⟩
  · rw [h.events]
    exact List.map_congr_left fun event he => Event.renumber_congr (hold _ (h.told event he)).symm
  · rw [h.live]
    refine Option.map_congr fun c hc => ?_
    have hbegun := hs.below c (Reassembly.find?_eq_some hc).1
    rw [Connection.renumber, Connection.renumber, hold _ hbegun]
  · rw [hold i hi]
    exact h.begun i hi

/-- **A segment of the conversation** that arrives in both histories does the same in both. -/
theorem KeepsUp.member (h : KeepsUp ρ k r r') (hs : r.state.Sound ceiling) (hs' : r'.state.Sound ceiling)
    (hk : segment.flow path = k) (hfails : ∀ ρ event, fails (event.renumber ρ) = fails event)
    (hg : ∀ a ∈ r.state.arrivals ⟨fails, now, .receive config locked path segment⟩, a.Granted)
    (hg' : ∀ a ∈ r'.state.arrivals ⟨fails, now, .receive config locked path segment⟩, a.Granted) :
    ∃ σ, KeepsUp σ k (r.extend ⟨fails, now, .receive config locked path segment⟩)
      (r'.extend ⟨fails, now, .receive config locked path segment⟩) := by
  subst hk
  obtain ⟨σ, h, hnew⟩ := h.abreast hs
  obtain ⟨hpursues, hnext⟩ := Reassembly.pursues_receive hs hg
  obtain ⟨hpursues', hnext'⟩ := Reassembly.pursues_receive hs' hg'
  have hcourse := @Course.receiving_renumber fails σ config path segment now r.state.nextStream
    r'.state.nextStream (hfails σ) (r.state.registry.find? (segment.flow path)) fun _ => hnew
  rw [← h.live] at hcourse
  have hsame : (r'.state.registry.find? (segment.flow path)).isNone =
      (r.state.registry.find? (segment.flow path)).isNone := by rw [h.live, Option.isNone_map]
  rw [hsame] at hnext'
  refine ⟨σ, ⟨⟨?_, ?_⟩, h.mono, fun i hi => ?_, fun event he => ?_⟩⟩
  · have hseen := (hpursues.events_at (segment.flow path)).trans (if_pos rfl)
    have hseen' := (hpursues'.events_at (segment.flow path)).trans (if_pos rfl)
    rw [hcourse] at hseen'
    rw [History.eventsAt_extend, History.eventsAt_extend, h.events, List.map_append]
    exact congrArg _ (hseen'.trans (congrArg (List.map (Event.renumber σ)) hseen.symm))
  · have hleft := (hpursues.found (segment.flow path)).trans (if_pos rfl)
    have hleft' := (hpursues'.found (segment.flow path)).trans (if_pos rfl)
    rw [hcourse] at hleft'
    exact hleft'.trans (congrArg (Option.map (Connection.renumber σ)) hleft.symm)
  · have hi' : i < r.state.nextStream +
        if (r.state.registry.find? (segment.flow path)).isNone then 1 else 0 := hnext ▸ hi
    show σ i < (r'.state.receive fails config locked path segment now).state.nextStream
    rw [hnext']
    by_cases hlt : i < r.state.nextStream
    · exact Nat.lt_of_lt_of_le (h.begun i hlt) (Nat.le_add_right _ _)
    · split at hi'
      · next hnone =>
          obtain rfl : i = r.state.nextStream := by omega
          rw [hnew, if_pos hnone]
          exact Nat.lt_succ_self _
      · exact absurd hi' hlt
  · rw [History.eventsAt_extend] at he
    rcases List.mem_append.1 he with he | he
    · exact Nat.lt_of_lt_of_le (h.told event he) (Nat.le.intro hnext.symm)
    · have he : event ∈ (r.state.receive fails config locked path segment now).events :=
        (List.mem_filter.1 he).1
      rw [hpursues.events] at he
      exact (hpursues.about event he).2

/-- **A flush** that winds the conversation up in both histories does the same in both, in whatever order
they wind up theirs, unless the consumers of another conversation break down. -/
theorem Mirrors.flush {call : Call} {order' : List FlowId} (h : Mirrors ρ k r r')
    (hs : r.state.Sound ceiling) (hs' : r'.state.Sound ceiling) (order : List FlowId)
    (hflush : call.action = .flushAll order') (hfails : call.IgnoresNumbers)
    (hcalm : ∀ event, event.flow ≠ k → call.fails event = false) :
    Mirrors ρ k (r.extend { call with action := .flushAll order }) (r'.extend call) := by
  obtain ⟨fails, now, action⟩ := call
  obtain rfl := hflush
  obtain ⟨hleft, hseen⟩ := Reassembly.flushAll_course hs hcalm order
  obtain ⟨hleft', hseen'⟩ := Reassembly.flushAll_course hs' hcalm order'
  have hcourse := @Course.ending_renumber fails ρ (hfails ρ) (r.state.registry.find? k)
  rw [← h.live] at hcourse
  rw [hcourse] at hleft' hseen'
  refine ⟨?_, hleft'.trans (congrArg (Option.map (Connection.renumber ρ)) hleft.symm)⟩
  rw [History.eventsAt_extend, History.eventsAt_extend, h.events, List.map_append]
  exact congrArg _ (hseen'.trans (congrArg (List.map (Event.renumber ρ)) hseen.symm))

/-! ## Runs -/

namespace Reassembly

/-- **The run of the segments of one conversation** keeps up with the run of all segments. -/
theorem keepsUp_history (ceiling : Nat) (k : FlowId) (calls : List Call)
    (hsegments : ∀ call ∈ calls, ∃ config locked path segment,
      call.action = .receive config locked path segment)
    (hfails : ∀ call ∈ calls, call.IgnoresNumbers)
    (hall : ∀ a ∈ ((fresh ceiling).history calls).arrivals, a.Granted)
    (halone : ∀ a ∈ ((fresh ceiling).history (calls.filter (Call.concerns k))).arrivals, a.Granted) :
    ∃ ρ, KeepsUp ρ k ((fresh ceiling).history (calls.filter (Call.concerns k)))
      ((fresh ceiling).history calls) := by
  induction calls using List.reverseRecOn with
  | nil => exact ⟨id, ⟨⟨rfl, rfl⟩, strictMono_id, fun n hn => hn, fun _ he => nomatch he⟩⟩
  | append_singleton calls call ih =>
      obtain ⟨fails, now, action⟩ := call
      obtain ⟨config, locked, path, segment, rfl⟩ :=
        hsegments ⟨fails, now, action⟩ (List.mem_append_right _ (List.mem_singleton_self _))
      have hblind := hfails _ (List.mem_append_right _ (List.mem_singleton_self _))
      rw [List.filter_append] at halone ⊢
      rw [history_snoc] at hall ⊢
      have hbefore := fun a ha => hall a (List.mem_append_left _ ha)
      have hlast := fun a ha => hall a (List.mem_append_right _ ha)
      have hsound' := sound_history ceiling calls
      have ih := ih (fun call hc => hsegments call (List.mem_append_left _ hc))
        (fun call hc => hfails call (List.mem_append_left _ hc)) hbefore
      by_cases hk : segment.flow path = k
      · have hmember : Call.concerns k ⟨fails, now, .receive config locked path segment⟩ = true :=
          decide_eq_true hk
        rw [List.filter_singleton, hmember, cond_true, history_snoc] at halone ⊢
        obtain ⟨ρ, hρ⟩ := ih fun a ha => halone a (List.mem_append_left _ ha)
        exact hρ.member (sound_history ceiling _) hsound' hk hblind
          (fun a ha => halone a (List.mem_append_right _ ha)) hlast
      · have hother : Call.concerns k ⟨fails, now, .receive config locked path segment⟩ = false :=
          decide_eq_false hk
        rw [List.filter_singleton, hother, cond_false, List.append_nil] at halone ⊢
        obtain ⟨ρ, hρ⟩ := ih halone
        exact ⟨ρ, hρ.bystander hsound' hk hlast⟩

/-- **Conversations do not get in each other's way** while memory lasts.  Let segments of any number of
conversations be worked in, in any order, and let the arena refuse no page, neither in this run nor in
the run of the segments of one conversation alone.  Then the consumers of this conversation see the same
in both runs: the same streams begin, are handed the same chunks, and are over at the same places; and
the same connection is left of it.  Only the numbers of the streams are others, in the same order.  The
same holds once both runs end with a flush, each in an order of its own, in which no consumer of another
conversation breaks down. -/
theorem conversations_apart (ceiling : Nat) (k : FlowId) (calls : List Call)
    (hsegments : ∀ call ∈ calls, ∃ config locked path segment,
      call.action = .receive config locked path segment)
    (hfails : ∀ call ∈ calls, call.IgnoresNumbers)
    (hall : ∀ a ∈ ((fresh ceiling).history calls).arrivals, a.Granted)
    (halone : ∀ a ∈ ((fresh ceiling).history (calls.filter (Call.concerns k))).arrivals, a.Granted) :
    let own := calls.filter (Call.concerns k)
    ∃ ρ : Nat → Nat, StrictMono ρ ∧
      Mirrors ρ k ((fresh ceiling).history own) ((fresh ceiling).history calls) ∧
      ∀ (call : Call) (order order' : List FlowId), call.action = .flushAll order' →
        call.IgnoresNumbers → (∀ event, event.flow ≠ k → call.fails event = false) →
        Mirrors ρ k ((fresh ceiling).history (own ++ [{ call with action := .flushAll order }]))
          ((fresh ceiling).history (calls ++ [call])) := by
  obtain ⟨ρ, hρ⟩ := keepsUp_history ceiling k calls hsegments hfails hall halone
  refine ⟨ρ, hρ.mono, hρ.toMirrors, fun call order order' hflush hblind hcalm => ?_⟩
  rw [history_snoc, history_snoc]
  exact hρ.flush (sound_history ceiling _) (sound_history ceiling _) order hflush hblind hcalm

/-- A call in which a segment from one port to another is worked in, and the consumer breaks down in calls
of one kind, if any. -/
def callBetween (src dst : UInt16) (seq : Nat) (flags : Flags) (payload : List UInt8)
    (breaks : Option ConsumerCall) : Call where
  fails event := decide (breaks = some event.call)
  now := 0
  action := .receive { pagesPerConnection := 4 } [] ⟨.v4 1, .v4 2⟩
    { srcPort := src, dstPort := dst, seq := SeqNum.ofNat seq, flags, payload }

/-- The conversation between two ports. -/
def flowBetween (src dst : UInt16) : FlowId := .of (Host.endpoint (.v4 1) src) (Host.endpoint (.v4 2) dst)

/-- Two conversations, each with data that waits for a gap to close.  The consumer of the first breaks
down when its stream begins for the first time, that of the second when it is handed a chunk. -/
def callsOfTwo : List Call :=
  [callBetween 1 2 10 .syn [97] (some .opening), callBetween 3 4 50 .syn [98] none,
    callBetween 1 2 10 .syn [97] none, callBetween 1 2 14 ⟨0⟩ [99] none,
    callBetween 3 4 54 ⟨0⟩ [100] none, callBetween 1 2 12 .rst [101] none,
    callBetween 3 4 52 ⟨0⟩ [102, 103] (some .delivery), callBetween 3 4 60 ⟨0⟩ [104] none]

theorem conversations_apart_of_two :
    (∀ call ∈ callsOfTwo, ∃ config locked path segment,
        call.action = .receive config locked path segment) ∧
      (∀ call ∈ callsOfTwo, call.IgnoresNumbers) ∧
      (∀ a ∈ ((fresh 8).history callsOfTwo).arrivals, a.Granted) ∧
      (∀ a ∈ ((fresh 8).history (callsOfTwo.filter (Call.concerns (flowBetween 3 4)))).arrivals,
        a.Granted) ∧
      ((fresh 8).history callsOfTwo).events.map Event.stream = [0, 1, 1, 2, 2, 2, 1, 2, 1, 1] ∧
      ∃ ρ : Nat → Nat, StrictMono ρ ∧
        Mirrors ρ (flowBetween 3 4)
          ((fresh 8).history (callsOfTwo.filter (Call.concerns (flowBetween 3 4))))
          ((fresh 8).history callsOfTwo) := by
  have hsegments : ∀ call ∈ callsOfTwo, ∃ config locked path segment,
      call.action = .receive config locked path segment := by
    simp [callsOfTwo, callBetween]
  have hfails : ∀ call ∈ callsOfTwo, call.IgnoresNumbers := by
    have hbetween : ∀ src dst seq flags payload breaks,
        (callBetween src dst seq flags payload breaks).IgnoresNumbers := by
      intro src dst seq flags payload breaks ρ event
      cases event <;> rfl
    simp [callsOfTwo, hbetween]
  have hall : ∀ a ∈ ((fresh 8).history callsOfTwo).arrivals, a.Granted := by decide
  have halone : ∀ a ∈ ((fresh 8).history (callsOfTwo.filter
      (Call.concerns (flowBetween 3 4)))).arrivals, a.Granted := by decide
  obtain ⟨ρ, hmono, hmirrors, -⟩ := conversations_apart 8 (flowBetween 3 4) callsOfTwo hsegments
    hfails hall halone
  exact ⟨hsegments, hfails, hall, halone, by decide, ρ, hmono, hmirrors⟩

end Reassembly
end TcpStreams
