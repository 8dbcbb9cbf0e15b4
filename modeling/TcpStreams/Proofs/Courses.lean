import TcpStreams.Proofs.Admission
import TcpStreams.Proofs.Calls

/-!
# The course of a conversation

What a call makes of the conversation that it is about, in terms of the connection of that conversation
alone, if the arena refuses no page; and that no other conversation notices.

* `Course`: what becomes of one conversation in a call; `Course.receiving` and `Course.ending` say it of
  a segment and of a flush.
* `Reassembly.pursues_receive`: a segment that is refused no page takes its course.
* `Reassembly.pursues_windUp`, `Reassembly.flushAll_course`: so does winding a connection up, and a flush
  conversation by conversation.
-/

namespace TcpStreams

open Connection (Kin)

/-! ## The course of a conversation -/

/-- What becomes of one conversation in a call. -/
structure Course where
  /-- The connection that it has afterwards, if it has one. -/
  left : Option Connection
  /-- What its consumers see. -/
  seen : List Event := []

namespace Course

variable (fails : Event → Bool)

/-- What a connection yields is handed over, and its stream is concluded if both directions are over. -/
def handing (payload : List UInt8) (y : Yield Connection) : Course :=
  let c := y.value
  let handed := Event.delivered c.stream c.flow (y.chunks.map (Chunk.delivery payload))
  let concluded := Event.completed c.stream c.flow
  if fails handed then { left := some c, seen := [handed] }
  else if c.isOver then
    { left := if fails concluded then some c else none, seen := [handed, concluded] }
  else { left := some c, seen := [handed] }

/-- A segment comes to the connection of its conversation. -/
def meeting (config : Config) (path : Route) (segment : Segment) (c : Connection) : Course :=
  handing fails segment.payload
    (c.welcome config.pagesPerConnection (c.directionFrom (segment.src path)) segment)

/-- A segment comes to its conversation, and opens a connection, with the stream `n`, if there is
none. -/
def receiving (config : Config) (path : Route) (segment : Segment) (now n : Nat) :
    Option Connection → Course
  | some c => meeting fails config path segment c
  | none =>
    let opened := Event.opened n (segment.flow path)
    if fails opened then { left := none, seen := [opened] }
    else
      let course := meeting fails config path segment
        (Connection.new (segment.flow path) (segment.src path) n now)
      { course with seen := opened :: course.seen }

/-- The connection of a conversation is wound up, if it has one. -/
def ending : Option Connection → Course
  | some c => handing fails [] c.close
  | none => { left := none }

variable {fails} {payload : List UInt8} {y : Yield Connection}

/-- A consumer is told about the stream of the connection only. -/
theorem about_handing {event : Event} (h : event ∈ (handing fails payload y).seen) :
    event.flow = y.value.flow ∧ event.stream = y.value.stream := by
  have hmem : event ∈ [Event.delivered y.value.stream y.value.flow
      (y.chunks.map (Chunk.delivery payload)), .completed y.value.stream y.value.flow] := by
    rw [handing] at h
    split at h
    · exact List.mem_of_mem_take (i := 1) h
    · split at h
      · exact h
      · exact List.mem_of_mem_take (i := 1) h
  rcases List.mem_pair.1 hmem with rfl | rfl <;> exact ⟨rfl, rfl⟩

end Course

/-! ## Calls about one conversation -/

namespace Reassembly

variable {ceiling : Nat} {s : Reassembly} {fails : Event → Bool} {flow k : FlowId} {now : Nat}
  {config : Config} {locked : List FlowId} {path : Route} {segment : Segment} {payload : List UInt8}
  {y : Yield Connection} {c : Connection}

/-- A call that is about one conversation, and takes a course. -/
structure Pursues {α : Type} (s : Reassembly) (flow : FlowId) (course : Course) (o : Outcome α) :
    Prop where
  /-- The connection of the conversation is what the course leaves; the others are what they were. -/
  found : ∀ other, o.state.registry.find? other =
    if other = flow then course.left else s.registry.find? other
  /-- The consumers see what the course says. -/
  events : o.events = course.seen
  /-- All of it is about the conversation, in streams that have begun. -/
  about : ∀ event ∈ course.seen, event.flow = flow ∧ event.stream < o.state.nextStream

/-- The consumers of the conversation see what the course says, and those of another one nothing. -/
theorem Pursues.events_at {α : Type} {course : Course} {o : Outcome α} (h : s.Pursues flow course o)
    (k : FlowId) :
    (o.events.filter fun event => event.flow = k) = if flow = k then course.seen else [] := by
  rw [h.events]
  split
  · next hk =>
      exact List.filter_eq_self.2 fun event he => decide_eq_true ((h.about event he).1.trans hk)
  · next hk =>
      refine List.filter_eq_nil_iff.2 fun event he => ?_
      rw [decide_eq_true_iff, (h.about event he).1]
      exact hk

/-- Handing over and then going on to conclude, if there is cause to. -/
theorem pursues_handing {α : Type} {next : Unit → Reassembly → Outcome α} {notes : List Note}
    (hlive : s.registry.find? y.value.flow ≠ none) (hbegun : y.value.stream < s.nextStream)
    (hnext : ∀ s, (next () s).state =
        (if y.value.isOver then s.conclude fails y.value else answer () s).state ∧
      (next () s).events =
        (if y.value.isOver then s.conclude fails y.value else answer () s).events) :
    let o := ((s.handOver fails y.value payload y.chunks).after notes).andThen next
    s.Pursues y.value.flow (.handing fails payload y) o ∧ o.state.nextStream = s.nextStream := by
  have hreplaced : ∀ other, (s.registry.replace y.value).find? other =
      if other = y.value.flow then some y.value else s.registry.find? other := by
    intro other
    rw [Registry.find?_replace]
    split
    · next h =>
        obtain ⟨c, hc⟩ := Option.ne_none_iff_exists'.1 hlive
        rw [h, hc]
        rfl
    · rfl
  have herased : ∀ other, ((s.registry.replace y.value).erase y.value.flow).find? other =
      if other = y.value.flow then none else s.registry.find? other := by
    intro other
    rw [Registry.erase_replace, Registry.find?_erase]
  suffices h : _ ∧ _ ∧ _ by
    obtain ⟨hfound, hevents, hsame⟩ := h
    refine ⟨⟨hfound, hevents, fun event he => ?_⟩, hsame⟩
    obtain ⟨hflow, hstream⟩ := Course.about_handing he
    rw [hsame, hstream]
    exact ⟨hflow, hbegun⟩
  simp only [Outcome.andThen, Outcome.after, handOver, Course.handing]
  cases hhanded : fails (.delivered y.value.stream y.value.flow
      (y.chunks.map (Chunk.delivery payload))) with
  | true =>
      simp only [if_true, and_true]
      exact hreplaced
  | false =>
      simp only [Bool.false_eq_true, if_false, hnext, conclude]
      cases hover : y.value.isOver with
      | false =>
          simp only [Bool.false_eq_true, if_false]
          exact ⟨hreplaced, rfl, rfl⟩
      | true =>
          cases hcompleted : fails (.completed y.value.stream y.value.flow) with
          | true =>
              simp only [if_true, List.singleton_append, and_true]
              exact hreplaced
          | false =>
              simp only [if_true, Bool.false_eq_true, if_false, List.singleton_append, and_true]
              exact herased

/-- **A segment that arrives** and is refused no page takes its course. -/
theorem pursues_finish {a : Arrival} (hg : a.Granted) (hs : a.before.Sound ceiling)
    (hlive : a.state.registry.find? a.connection.flow ≠ none)
    (hbegun : a.stream < a.state.nextStream) :
    a.state.Pursues a.connection.flow (.handing fails a.segment.payload
        (a.connection.welcome a.config.pagesPerConnection a.direction a.segment)) (a.finish fails) ∧
      (a.finish fails).state.nextStream = a.state.nextStream := by
  obtain ⟨hmakes, hentries⟩ := a.work_of_granted hg hs
  obtain ⟨hkin, -⟩ := a.continues_work
  have hworked : a.worked.registry = a.state.registry := by rw [Arrival.worked, hentries]
  generalize a.connection.welcome a.config.pagesPerConnection a.direction a.segment = y at hmakes ⊢
  have hchunks : a.work.chunks = y.chunks := hmakes.chunks
  rw [hmakes.connection] at hkin
  rw [Arrival.finish, hmakes.connection, hchunks]
  obtain ⟨⟨hfound, hevents, habout⟩, hnext⟩ := @pursues_handing a.worked fails a.segment.payload y Unit
    (fun _ s => if y.value.isOver then s.conclude fails y.value else answer () s) a.work.notes
    (by rwa [hkin.flow, hworked]) (by rwa [hkin.stream]) fun _ => ⟨rfl, rfl⟩
  rw [hkin.flow, hworked] at hfound
  rw [hkin.flow] at habout
  exact ⟨⟨hfound, hevents, habout⟩, hnext⟩

/-! ## Segments -/

/-- What a segment that is refused no page does once its connection is there. -/
theorem receive_of_found (hs : s.Sound ceiling)
    (hg : ∀ a ∈ s.arrivals ⟨fails, now, .receive config locked path segment⟩, a.Granted)
    (hflow : c.flow = segment.flow path)
    (hres : (s.lookUp fails (segment.flow path) (segment.src path) now).result = .ok c) :
    let looked := s.lookUp fails (segment.flow path) (segment.src path) now
    let o := s.receive fails config locked path segment now
    ∃ finished : Outcome Unit, o.state = finished.state ∧
      o.events = looked.events ++ finished.events ∧
      looked.state.Pursues (segment.flow path) (.meeting fails config path segment c) finished ∧
      finished.state.nextStream = looked.state.nextStream := by
  obtain ⟨hsound, hmem⟩ := hs.lookUp fails (segment.flow path) (segment.src path) now
  let a : Arrival :=
    { config, locked, segment, connection := c, direction := c.directionFrom (segment.src path)
      state := (s.lookUp fails (segment.flow path) (segment.src path) now).state }
  have harrives : s.arrivals ⟨fails, now, .receive config locked path segment⟩ = [a] := by
    simp only [arrivals, hres, a]
  have hgranted : a.Granted := hg a (harrives ▸ List.mem_singleton_self a)
  have hlive : a.state.registry.find? c.flow = some c := find?_of_mem hsound.flows (hmem c hres)
  have hcourse := @pursues_finish ceiling fails a hgranted (hsound.before (hmem c hres))
    (Option.ne_none_iff_exists'.2 ⟨c, hlive⟩) (hsound.below c (hmem c hres))
  rw [show a.connection.flow = _ from hflow] at hcourse
  refine ⟨a.finish fails, ?_, ?_, hcourse⟩ <;>
  · rw [receive, Outcome.andThen, hres]
    rfl

/-- **A segment that is refused no page** takes its course, and no other conversation notices. -/
theorem pursues_receive (hs : s.Sound ceiling)
    (hg : ∀ a ∈ s.arrivals ⟨fails, now, .receive config locked path segment⟩, a.Granted) :
    let known := s.registry.find? (segment.flow path)
    let o := s.receive fails config locked path segment now
    s.Pursues (segment.flow path) (.receiving fails config path segment now s.nextStream known) o ∧
      o.state.nextStream = s.nextStream + if known.isNone then 1 else 0 := by
  cases hknown : s.registry.find? (segment.flow path) with
  | some c =>
      obtain ⟨hres, hevents, hsame, hothers⟩ := @lookUp_found s fails _ now c hknown (segment.src path)
      obtain ⟨o, hstate, hseen, ⟨hfound, hall, habout⟩, hnext⟩ :=
        receive_of_found hs hg (find?_eq_some hknown).2 hres
      refine ⟨⟨fun other => ?_, ?_, ?_⟩, ?_⟩
      · rw [hstate, hfound, hothers]
        rfl
      · rw [hseen, hevents, hall]
        rfl
      · rw [hstate]
        exact habout
      · rw [hstate, hnext, hsame]
        rfl
  | none =>
      obtain ⟨hres, hevents, hsame, hothers⟩ := @lookUp_opened s fails _ now hknown (segment.src path)
      simp only [Course.receiving]
      cases hf : fails (.opened s.nextStream (segment.flow path)) with
      | true =>
          simp only [hf, if_true] at hres hothers ⊢
          have hstate : (s.receive fails config locked path segment now).state =
              (s.lookUp fails (segment.flow path) (segment.src path) now).state := by
            rw [receive, Outcome.andThen, hres]
          refine ⟨⟨fun other => ?_, ?_, ?_⟩, ?_⟩
          · rw [hstate, hothers]
          · rw [receive, Outcome.andThen, hres]
            exact hevents
          · intro event he
            rw [List.mem_singleton.1 he, hstate, hsame]
            exact ⟨rfl, Nat.lt_succ_self _⟩
          · rw [hstate, hsame]
            rfl
      | false =>
          simp only [hf, Bool.false_eq_true, if_false] at hres hothers ⊢
          obtain ⟨o, hstate, hseen, ⟨hfound, hall, habout⟩, hnext⟩ :=
            receive_of_found hs hg rfl hres
          refine ⟨⟨fun other => ?_, ?_, ?_⟩, ?_⟩
          · rw [hstate, hfound, hothers]
            split <;> rfl
          · rw [hseen, hevents, hall]
            rfl
          · intro event he
            rw [hstate]
            rcases List.mem_cons.1 he with rfl | he
            · rw [hnext, hsame]
              exact ⟨rfl, Nat.lt_succ_self _⟩
            · exact habout event he
          · rw [hstate, hnext, hsame]
            rfl

/-! ## Flushes -/

/-- **Winding up** is the end of a conversation, and no other one notices. -/
theorem pursues_windUp (hs : s.Sound ceiling) (flow : FlowId) :
    s.Pursues flow (.ending fails (s.registry.find? flow)) (s.windUp fails flow) := by
  cases hknown : s.registry.find? flow with
  | none =>
      rw [windUp_unknown hknown]
      refine ⟨fun other => ?_, rfl, fun _ he => nomatch he⟩
      split
      · next h => rw [h]; exact hknown
      · rfl
  | some c =>
      obtain ⟨hmem, hflow⟩ := find?_eq_some hknown
      obtain ⟨hkin, hover⟩ := c.close_ends
      have hlive : s.registry.find? c.close.value.flow ≠ none := by
        rw [hkin.flow, hflow]
        exact Option.ne_none_iff_exists'.2 ⟨c, hknown⟩
      have hbegun : c.close.value.stream < s.nextStream := by
        rw [hkin.stream]
        exact hs.below c hmem
      obtain ⟨⟨hfound, hevents, habout⟩, -⟩ :=
        @pursues_handing { s with arena := s.arena.giveAll c.close.freed } fails [] c.close Bool
          (fun _ s => (s.conclude fails c.close.value).andThen fun _ s => answer true s)
          c.close.notes hlive hbegun fun s => by
            rw [if_pos hover, Outcome.andThen]
            cases (s.conclude fails c.close.value).result with
            | error call => exact ⟨rfl, rfl⟩
            | ok _ => exact ⟨rfl, List.append_nil _⟩
      simp only [windUp, hknown]
      rw [← hflow, ← hkin.flow]
      exact ⟨hfound, hevents, habout⟩

/-- It fails exactly if the conversation keeps its connection. -/
theorem exists_windUp_ok (flow : FlowId) : (∃ found, (s.windUp fails flow).result = .ok found) ↔
    (Course.ending fails (s.registry.find? flow)).left = none := by
  cases hknown : s.registry.find? flow with
  | none =>
      rw [windUp_unknown hknown]
      exact ⟨fun _ => rfl, fun _ => ⟨false, rfl⟩⟩
  | some c =>
      have hover := c.close_ends.2
      simp only [windUp, hknown, Outcome.andThen, Outcome.after, handOver, conclude, Course.ending,
        Course.handing, hover, if_true]
      cases fails (.delivered c.close.value.stream c.close.value.flow
        (c.close.chunks.map (Chunk.delivery []))) with
      | true => simp
      | false => cases fails (.completed c.close.value.stream c.close.value.flow) <;> simp [answer]

/-- It does not if the consumer does not break down. -/
theorem left_ending (hcalm : ∀ event, event.flow = flow → fails event = false) :
    (Course.ending fails (s.registry.find? flow)).left = none := by
  cases hknown : s.registry.find? flow with
  | none => rfl
  | some c =>
      obtain ⟨hkin, hover⟩ := c.close_ends
      have hflow : c.close.value.flow = flow := hkin.flow.trans (find?_eq_some hknown).2
      rw [Course.ending, Course.handing]
      simp only [hcalm (.delivered _ c.close.value.flow _) hflow,
        hcalm (.completed _ c.close.value.flow) hflow, hover, Bool.false_eq_true, if_false, if_true]

/-- Winding several connections up ends a conversation if it is one of them, and concerns it in no other
way, unless the consumers of another conversation break down. -/
theorem windUpAll_course (hs : s.Sound ceiling) (hcalm : ∀ event, event.flow ≠ k → fails event = false)
    (flows : List FlowId) :
    let o := s.windUpAll fails flows
    let known := s.registry.find? k
    let course := if k ∈ flows then Course.ending fails known else { left := known }
    o.state.registry.find? k = course.left ∧
      (o.events.filter fun event => event.flow = k) = course.seen := by
  induction flows generalizing s with
  | nil => exact ⟨rfl, rfl⟩
  | cons flow rest ih =>
      have hwound := @pursues_windUp ceiling s fails hs flow
      have hseen := hwound.events_at k
      by_cases hk : flow = k
      · subst hk
        rw [if_pos rfl] at hseen
        simp only [List.mem_cons_self, if_true]
        cases hres : (s.windUp fails flow).result with
        | error call =>
            rw [windUpAll, Outcome.andThen, hres]
            exact ⟨(hwound.found flow).trans (if_pos rfl), hseen⟩
        | ok found =>
            -- the conversation is over, and there is nothing left to wind up
            obtain ⟨hstate, hmore⟩ := windUpAll_of_ok hres rest
            obtain ⟨hlater, hquiet⟩ := ih (hs.windUp fails flow)
            have hgone := exists_windUp_ok flow |>.1 ⟨found, hres⟩
            have hnone : (s.windUp fails flow).state.registry.find? flow = none :=
              (hwound.found flow).trans ((if_pos rfl).trans hgone)
            have hcourse : (if flow ∈ rest then Course.ending fails none else { left := none }) =
                ({ left := none } : Course) := ite_self _
            rw [hnone, hcourse] at hlater hquiet
            rw [hstate, hmore, List.filter_append, hseen, hlater, hquiet, hgone]
            exact ⟨rfl, List.append_nil _⟩
      · rw [if_neg hk] at hseen
        obtain ⟨found, hres⟩ := (exists_windUp_ok flow).2 (@left_ending s fails flow fun event he =>
          hcalm event fun h => hk (he.symm.trans h))
        obtain ⟨hstate, hmore⟩ := windUpAll_of_ok hres rest
        have hlater := ih (hs.windUp fails flow)
        rw [hwound.found k, if_neg (Ne.symm hk)] at hlater
        have hmem : k ∈ flow :: rest ↔ k ∈ rest := by simp [Ne.symm hk]
        simp only [hstate, hmore, List.filter_append, hseen, List.nil_append, hmem]
        exact hlater

/-- **A flush** is the end of every conversation, unless the consumers of another one break down. -/
theorem flushAll_course (hs : s.Sound ceiling) (hcalm : ∀ event, event.flow ≠ k → fails event = false)
    (order : List FlowId) :
    let course := Course.ending fails (s.registry.find? k)
    (s.flushAll fails order).state.registry.find? k = course.left ∧
      ((s.flushAll fails order).events.filter fun event => event.flow = k) = course.seen := by
  have hcourse := windUpAll_course hs hcalm (s.registry.flowsIn order)
  simp only [(s.registry.flowsIn_perm order).mem_iff] at hcourse
  by_cases hmem : k ∈ s.registry.flows
  · simp only [if_pos hmem] at hcourse
    exact hcourse
  · have hnone : s.registry.find? k = none := by
      rw [Registry.find?, Option.map_eq_none_iff]
      exact List.find?_eq_none.2 fun e he heq => hmem
        (of_decide_eq_true heq ▸ List.mem_map_of_mem he)
    simp only [if_neg hmem, hnone] at hcourse
    rw [hnone]
    exact hcourse

end Reassembly
end TcpStreams
