import TcpStreams.Proofs.Flowing
import TcpStreams.Proofs.Ordering
import TcpStreams.Proofs.Runs

/-!
# The order of arrival

Segments that carry pieces of one line arrive in some order, and then their direction ends, with a flush
or with a last segment.  As long as the connection stays below its limit and no page is refused, what is
handed over in all is known from the segments alone: the bytes that their data covers, with a skip mark at
the beginning of every run but that of the SYN.  So the order of arrival does not matter, whether the SYN
comes first, last, in between or never.

* `HalfStream.Gathers`: what was handed over and what waits is what has come.
* `Reassembly.connections_flushAll`: a flush leaves no connection.
* `Reassembly.Completes`: calls that bring segments in some order, and then end their direction.
* `Reassembly.arrival_order_irrelevant`: what they lead to does not depend on the order.
-/

namespace TcpStreams

open Backlog (Covers)
open HalfStream (Move Moves Flowing)

/-! ## Half-streams -/

namespace HalfStream

variable {base : SeqNum} {line : List UInt8} {all as : List Arrival} {h h' : HalfStream}
  {ds : List Delivery} {cs : List Chunk}

/-- What was handed over and what waits is what has come, and it is in order and marked as it should be.
All the segments that arrived are among `all`. -/
structure Gathers (base : SeqNum) (line : List UInt8) (all : List Arrival) (h : HalfStream)
    (as : List Arrival) (ds : List Delivery) : Prop where
  /-- What arrived in time was handed over or waits. -/
  timed : Timed base all h as ds
  /-- What was handed over and what waits quotes the line, in order. -/
  ordered : Ordered base line h ds
  /-- The chunks are marked. -/
  marked : TidyMarked base h as ds
  /-- No chunk is empty but that of a SYN. -/
  rooted : Delivery.Rooted as ds
  /-- All that has come came in time. -/
  timely : ∀ x, Segment.Covered base (as.map Arrival.segment) x → Arrival.Timely base as x
  /-- If a SYN has come, one began the stream. -/
  synced : (∃ a ∈ as, a.segment.flags.isSyn = true) → ∃ a ∈ as, a.BeginsStream
  /-- Nothing waits once the half-stream is over. -/
  closed : h.isClosed = true → h.pages = []

namespace Gathers

theorem new (d : Direction) : Gathers base line all (HalfStream.new d) [] [] where
  timed := (Reassembly.kept_timed 0 d base all Nat.one_pos).newHalf
  ordered := .new d
  marked := (Reassembly.kept_marked 0 d base Nat.one_pos).newHalf
  rooted := .nil
  timely _ hx := hx.elim fun _ hx => nomatch hx.1
  synced hsyn := hsyn.elim fun _ ha => nomatch ha.1
  closed _ := rfl

theorem move (hg : Gathers base line all h as ds) (hm : Move true h cs h') (payload : List UInt8) :
    Gathers base line all h' as (ds ++ cs.map (Chunk.delivery payload)) where
  timed := (Reassembly.kept_timed 0 h.direction base all Nat.one_pos).move hg.timed hm payload
  ordered := hg.ordered.move hm payload
  marked := (Reassembly.kept_marked 0 h.direction base Nat.one_pos).move hg.marked hm payload
  rooted := hg.rooted.move hg.timed.1.placed hm payload
  timely := hg.timely
  synced := hg.synced
  closed hclosed := by
    have hnil := hg.closed (hm.direction.2.1.symm.trans hclosed)
    cases hm with
    | free hpages _ | trim hpages _ | hand hpages _ _ _ =>
        rw [hnil] at hpages
        cases hpages

/-- Closing gathers what waits. -/
theorem close (hg : Gathers base line all h as ds) (hm : Moves true h cs h') (hpages : h'.pages = [])
    (payload : List UInt8) : Gathers base line all { h' with phase := .closed } as
      (ds ++ cs.map (Chunk.delivery payload)) := by
  have hmoved := hm.keep (J := fun h ds => Gathers base line all h as ds)
    (fun hg hmove => hg.move hmove payload) hg
  exact {
    timed := (Reassembly.kept_timed 0 h.direction base all Nat.one_pos).closed hmoved.timed hpages
    ordered := { hmoved.ordered with }
    marked := (Reassembly.kept_marked 0 h.direction base Nat.one_pos).closed hmoved.marked hpages
    rooted := hmoved.rooted
    timely := hmoved.timely
    synced := hmoved.synced
    closed := fun _ => hpages }

end Gathers
end HalfStream

/-! ## Segments -/

namespace Arrival

open HalfStream (Gathers)

variable {ceiling : Nat} {base : SeqNum} {line : List UInt8} {all as : List Arrival} {a : Arrival}
  {ds : List Delivery}

/-- **Working a segment in gathers what it brings**, if the half-stream flows and there is room to
spare. -/
theorem work_gathers (hs : a.before.Sound ceiling)
    (hbelow : a.connection.pageCount + a.demand < a.config.pagesPerConnection)
    (hcoherent : Segment.Coherent base line (all.map segment)) (ha : a ∈ all)
    (hzero : a.half.counters.discarded = 0) (hf : Flowing base a.half as ds)
    (hg : Gathers base line all a.half as ds) :
    Gathers base line all (a.work.connection.half a.direction) (as ++ [a])
      (ds ++ a.deliveries a.direction) := by
  have hmem : ∀ {x}, x ∈ all → x.segment ∈ all.map segment := List.mem_map_of_mem
  have hw : a.InWindow base := fun hc => hcoherent.window _ (hmem ha) (hc.imp_left fun hb => hb.2.2)
  have hlimit : 0 < a.config.pagesPerConnection := Nat.zero_lt_of_lt hbelow
  have hcount : a.connection.pageCount < a.config.pagesPerConnection := by omega
  have hopen := hf.isOpen
  have hsub := hg.timed.2.1
  have hretains := hg.timed.2.2 hzero
  refine {
    timed := work_timed hs hw hlimit hcount ha
      (fun hb x hx hne => hcoherent.after _ (hmem ha) hb.2.2 _ (hmem hx) hne) hg.timed
    ordered := work_ordered hs hw (hcoherent.quotes _ (hmem ha)) hg.ordered
    marked := work_marked hs hw hlimit hcount hg.marked
    rooted := work_rooted hs hopen hw hlimit hcount hg.timed.1 hg.rooted
    timely := ?_
    synced := ?_
    closed := (sane_work hs).closed a.direction }
  · intro x hx
    rw [timely_snoc]
    obtain ⟨s, hs, hx⟩ := hx
    rw [List.map_append, List.mem_append] at hs
    rcases hs with hs | hs
    · exact Or.inl (hg.timely x ⟨s, hs, hx⟩)
    obtain rfl := List.mem_singleton.1 hs
    rw [inTime_iff hopen]
    by_cases hpos : a.half.pos base ≤ x
    · exact Or.inr ⟨hx, hpos⟩
    · -- what lies before the position was handed over before
      have hbegun : a.half.next ≠ none := fun hn => by
        rw [HalfStream.pos_none hn] at hpos
        omega
      obtain ⟨y, hy, hb⟩ := hf.begun.1 hbegun
      have hle := hcoherent.after _ (hmem (hsub hy)) hb.2.2 _ (hmem ha)
        (List.ne_nil_of_length_pos (by have := hx.1; have := hx.2; omega))
      exact Or.inl ((hretains.cover x).2
        (Or.inl (hf.whole y hy hb x (Nat.le_trans hle hx.1) (by omega))))
  · rintro ⟨x, hx, hsyn⟩
    rw [exists_beginsStream_snoc]
    rcases List.mem_append.1 hx with hx | hx
    · exact Or.inl (hg.synced ⟨x, hx, hsyn⟩)
    obtain rfl := List.mem_singleton.1 hx
    by_cases hn : x.half.next = none
    · exact Or.inr ⟨hopen, hn, hsyn⟩
    · exact Or.inl (hf.begun.1 hn)

/-- A segment with FIN or RST closes its half-stream. -/
theorem isClosed_work (hcloses : a.segment.flags.closes = true) :
    (a.work.connection.half a.direction).isClosed = true := by
  cases hclosed : a.half.isClosed with
  | true =>
      rw [(work_of_closed hclosed).1]
      exact hclosed
  | false =>
      rw [work_of_open hclosed, Work.accept_eq, if_pos hcloses, Work.half_onHalf]
      obtain ⟨h', -, -, hv⟩ := HalfStream.close_moves
        ((a.before.settled a.config.pagesPerConnection a.locked a.direction a.segment).connection.half
          a.direction)
      rw [hv]
      rfl

end Arrival

/-! ## After a flush -/

/-- Putting a connection in its place leaves the conversations as they are. -/
theorem Registry.flows_replace (r : Registry) (c : Connection) : (r.replace c).flows = r.flows := by
  rw [flows, replace, List.map_map, flows]
  refine List.map_congr_left fun entry _ => ?_
  simp only [Function.comp]
  split
  · exact Eq.symm ‹_›
  · rfl

namespace Reassembly
variable {s : Reassembly} {fails : Event → Bool} {flow : FlowId}

/-- Winding a conversation up leaves only others, unless the consumer breaks down. -/
theorem windUp_leaves (hok : ∀ event, fails event = false) (s : Reassembly) (flow : FlowId) :
    (∃ found, (s.windUp fails flow).result = .ok found) ∧
      ∀ other ∈ (s.windUp fails flow).state.registry.flows,
        other ∈ s.registry.flows ∧ other ≠ flow := by
  rw [windUp]
  cases hfind : s.registry.find? flow with
  | none =>
      refine ⟨⟨false, rfl⟩, fun other hother => ⟨hother, ?_⟩⟩
      rintro rfl
      obtain ⟨e, he, hef⟩ := List.mem_map.1 hother
      have := List.find?_eq_none.1 (Option.map_eq_none_iff.1 hfind) e he
      simp [hef] at this
  | some c =>
      have hflow : c.close.value.flow = flow := by
        obtain ⟨e, he, rfl⟩ := Option.map_eq_some_iff.1 hfind
        have hsame := List.find?_some he
        exact of_decide_eq_true hsame
      simp only [handOver, conclude, hok, Bool.false_eq_true, if_false, Outcome.andThen, Outcome.after,
        answer]
      refine ⟨⟨true, rfl⟩, fun other hother => ?_⟩
      obtain ⟨entry, hentry, rfl⟩ := List.mem_map.1 hother
      obtain ⟨hentry, hne⟩ := List.mem_filter.1 hentry
      rw [← Registry.flows_replace s.registry c.close.value, ← hflow]
      exact ⟨List.mem_map_of_mem hentry, of_decide_eq_true hne⟩

theorem windUpAll_leaves (hok : ∀ event, fails event = false) (flows : List FlowId)
    (s : Reassembly) : (∃ count, (s.windUpAll fails flows).result = .ok count) ∧
      ∀ other ∈ (s.windUpAll fails flows).state.registry.flows,
        other ∈ s.registry.flows ∧ other ∉ flows := by
  induction flows generalizing s with
  | nil => exact ⟨⟨0, rfl⟩, fun other hother => ⟨hother, List.not_mem_nil⟩⟩
  | cons flow rest ih =>
      obtain ⟨⟨found, hfound⟩, hfirst⟩ := windUp_leaves hok s flow
      obtain ⟨⟨count, hcount⟩, hrest⟩ := ih (s.windUp fails flow).state
      simp only [windUpAll, Outcome.andThen, hfound, hcount, answer]
      refine ⟨⟨_, rfl⟩, fun other hother => ?_⟩
      obtain ⟨hother, hnone⟩ := hrest other hother
      obtain ⟨hother, hne⟩ := hfirst other hother
      exact ⟨hother, fun hmem => (List.mem_cons.1 hmem).elim hne hnone⟩

/-- **A flush leaves no connection**, unless a consumer breaks down. -/
theorem connections_flushAll (hok : ∀ event, fails event = false) (order : List FlowId)
    (s : Reassembly) : (s.flushAll fails order).state.connections = [] := by
  refine List.eq_nil_iff_forall_not_mem.2 fun c hc => ?_
  obtain ⟨e, he, rfl⟩ := List.mem_map.1 hc
  obtain ⟨hmem, hnone⟩ :=
    (windUpAll_leaves hok (s.registry.flowsIn order) s).2 e.flow (List.mem_map_of_mem he)
  exact hnone ((s.registry.flowsIn_perm order).mem_iff.2 hmem)

end Reassembly

/-! ## Before the end -/

/-- The connection has given nothing up, and one of its half-streams gathers what comes.  It flows as long
as no segment with FIN or RST has come, and afterwards it is over. -/
structure Connection.Assembles (base : SeqNum) (line : List UInt8) (all : List Arrival) (d : Direction)
    (c : Connection) (as : List Arrival) (ds : List Delivery) : Prop where
  /-- Nothing was given up. -/
  unscathed : c.Unscathed
  /-- The half-stream gathers what comes. -/
  gathers : (c.half d).Gathers base line all as ds
  /-- It flows before the end. -/
  flowing : (∀ a ∈ as, a.segment.flags.closes = false) → Flowing base (c.half d) as ds
  /-- After the end it is over. -/
  closed : (∃ a ∈ as, a.segment.flags.closes = true) → (c.half d).isClosed = true

namespace Reassembly

open Connection (Assembles)

variable {ceiling k : Nat} {d : Direction} {base : SeqNum} {line : List UInt8} {all : List Arrival}

/-- Nothing waits in one direction of the connection. -/
def Drained (d : Direction) (c : Connection) : Prop := (c.half d).pages = []

theorem assembles_new (flow : FlowId) (opener : Endpoint) (stream now : Nat) :
    Assembles base line all d (Connection.new flow opener stream now) [] [] ∧
      Drained d (Connection.new flow opener stream now) := by
  have hhalf := Connection.half_new flow opener stream now d
  refine ⟨⟨Connection.unscathed_new _ _ _ _, ?_, fun _ => ?_, fun h => h.elim fun _ ha => nomatch ha.1⟩, ?_⟩
  · rw [hhalf]
    exact .new d
  · rw [hhalf]
    exact .new d
  · rw [Drained, hhalf]
    rfl

/-- The work on a segment of the connection is gathered, if no page is refused and the connection stays below
its limit. -/
theorem work_assembles {a : Arrival} {as : List Arrival} {ds : List Delivery}
    (hs : a.before.Sound ceiling) (hgranted : a.Granted)
    (hbelow : a.connection.pageCount + a.demand < a.config.pagesPerConnection)
    (hcoherent : Segment.Coherent base line (all.map Arrival.segment))
    (ha : a.direction = d → a ∈ all) (hstays : ∀ x ∈ as, x.segment.flags.closes = false)
    (hP : Assembles base line all d a.connection as ds) :
    Assembles base line all d a.work.connection (as ++ if a.direction = d then [a] else [])
      (ds ++ a.deliveries d) := by
  have hunscathed := (hgranted.spares hs).2 hP.unscathed
  have hroom := a.room_of_granted hs hbelow hgranted
  have hflowing := hP.flowing hstays
  by_cases hd : a.direction = d
  · subst hd
    rw [if_pos rfl]
    have hmem : a.segment ∈ all.map Arrival.segment := List.mem_map_of_mem (ha rfl)
    have hw : a.InWindow base :=
      fun hc => hcoherent.window _ hmem (hc.imp_left fun hb => hb.2.2)
    refine ⟨hunscathed,
      a.work_gathers hs hbelow hcoherent (ha rfl) (hP.unscathed _) hflowing hP.gathers, fun hall => ?_,
      ?_⟩
    · exact a.work_flowing hs hroom hbelow hw (hall a (by simp)) hP.gathers.timed.1 hflowing
    · rintro ⟨x, hx, hcloses⟩
      rcases List.mem_append.1 hx with hx | hx
      · rw [hstays x hx] at hcloses
        cases hcloses
      · obtain rfl := List.mem_singleton.1 hx
        exact x.isClosed_work hcloses
  · obtain ⟨hhalf, hnone⟩ := Arrival.half_of_ne hs hd hbelow hroom
    rw [if_neg hd, hnone, List.append_nil, List.append_nil]
    obtain ⟨-, hgathers, -, hover⟩ := hP
    rw [← hhalf] at hgathers hflowing hover
    exact ⟨hunscathed, hgathers, fun _ => hflowing, hover⟩

/-- One more segment is gathered. -/
theorem Upheld.extend_assembles {r : History} {call : Call}
    (h : Upheld ceiling k (Assembles base line all d) (Drained d) r.state (r.arrivalsAt k d)
      (r.deliveries k d))
    (hcoherent : Segment.Coherent base line (all.map Arrival.segment))
    (hreceives : call.action.isReceive = true)
    (hstays : ∀ a ∈ r.arrivalsAt k d, a.segment.flags.closes = false)
    (hgranted : ∀ a ∈ r.state.arrivals call, a.Granted)
    (hbelow : ∀ a ∈ r.state.arrivals call, a.stream = k →
      a.connection.pageCount + a.demand < a.config.pagesPerConnection)
    (hall : ∀ a ∈ r.state.arrivals call, a.stream = k → a.direction = d → a ∈ all) :
    Upheld ceiling k (Assembles base line all d) (Drained d) (r.extend call).state
      ((r.extend call).arrivalsAt k d) ((r.extend call).deliveries k d) := by
  obtain ⟨fails, now, action⟩ := call
  rw [r.arrivalsAt_extend, r.deliveries_extend]
  cases action with
  | receive config locked path segment =>
      refine h.receive (fun flow opener now => assembles_new flow opener k now) ?_ ?_ ?_
      · exact fun a ha hs hk hP => work_assembles hs (hgranted a ha) (hbelow a ha hk) hcoherent
          (hall a ha hk) hstays hP
      · exact fun a ha hs _ => Or.inr ((hgranted a ha).spares hs).1
      · exact fun hP hover => hP.gathers.closed (Connection.isClosed_of_isOver hover d)
  | flushAll _ | flushBefore _ | flushIdle _ | lookUp _ _ | remove _ => cases hreceives

/-- **Segments that do not end their direction are gathered**, in any order. -/
theorem assembles_history (calls : List Call)
    (hcoherent : Segment.Coherent base line (all.map Arrival.segment))
    (hreceives : ∀ call ∈ calls, call.action.isReceive = true)
    (hstays : ∀ a ∈ ((fresh ceiling).history calls).arrivalsAt k d, a.segment.flags.closes = false)
    (hgranted : ∀ a ∈ ((fresh ceiling).history calls).arrivals, a.Granted)
    (hbelow : ∀ a ∈ ((fresh ceiling).history calls).arrivals, a.stream = k →
      a.connection.pageCount + a.demand < a.config.pagesPerConnection)
    (hall : ((fresh ceiling).history calls).arrivalsAt k d ⊆ all) :
    Upheld ceiling k (Assembles base line all d) (Drained d) ((fresh ceiling).history calls).state
      (((fresh ceiling).history calls).arrivalsAt k d)
      (((fresh ceiling).history calls).deliveries k d) := by
  induction calls using List.reverseRecOn with
  | nil => exact .start
  | append_singleton calls call ih =>
      rw [history_snoc] at hstays hgranted hbelow hall ⊢
      rw [History.arrivalsAt_extend] at hstays hall
      have hstays' := fun a ha => hstays a (List.mem_append_left _ ha)
      have hup := ih (fun x hx => hreceives x (List.mem_append_left _ hx)) hstays'
        (fun a ha => hgranted a (List.mem_append_left _ ha))
        (fun a ha => hbelow a (List.mem_append_left _ ha))
        (fun a ha => hall (List.mem_append_left _ ha))
      exact hup.extend_assembles hcoherent (hreceives call (by simp)) hstays'
        (fun a ha => hgranted a (List.mem_append_right _ ha))
        (fun a ha => hbelow a (List.mem_append_right _ ha))
        (fun a ha hk hd => hall (List.mem_append_right _
          (List.mem_filter.2 ⟨ha, decide_eq_true ⟨hk, hd⟩⟩)))

/-- Only a call that works a segment in brings one. -/
theorem isReceive_of_mem_arrivals {s : Reassembly} {call : Call} {a : Arrival}
    (ha : a ∈ s.arrivals call) : call.action.isReceive = true := by
  obtain ⟨fails, now, action⟩ := call
  cases action with
  | receive _ _ _ _ => rfl
  | flushAll _ | flushBefore _ | flushIdle _ | lookUp _ _ | remove _ => cases ha

/-! ## Whole streams -/

/-- Calls bring segments to one direction of a stream in some order, and then end it: first they work
segments in, of this and of other streams, none of which ends the direction, and then the last call either
flushes all streams, where no consumer breaks down, or brings a segment with FIN or RST.  The arena refuses
no page, and the connection stays below its limit with the pages that each segment needs. -/
structure Completes (ceiling k : Nat) (d : Direction) (segments : List Segment) (calls : List Call)
    (last : Call) : Prop where
  /-- These are the segments that are brought. -/
  perm : (((fresh ceiling).history (calls ++ [last])).arrivalsAt k d |>.map Arrival.segment).Perm segments
  /-- At first segments are worked in. -/
  receives : ∀ call ∈ calls, call.action.isReceive = true
  /-- None of them ends the direction. -/
  stays : ∀ a ∈ ((fresh ceiling).history calls).arrivalsAt k d, a.segment.flags.closes = false
  /-- The last call ends it. -/
  ends : ((∃ order, last.action = .flushAll order) ∧ ∀ event, last.fails event = false) ∨
    ∃ a ∈ ((fresh ceiling).history calls).state.arrivals last,
      (a.stream = k ∧ a.direction = d) ∧ a.segment.flags.closes = true
  /-- No page is refused. -/
  granted : ∀ a ∈ ((fresh ceiling).history (calls ++ [last])).arrivals, a.Granted
  /-- The connection stays below its limit. -/
  below : ∀ a ∈ ((fresh ceiling).history (calls ++ [last])).arrivals, a.stream = k →
    a.connection.pageCount + a.demand < a.config.pagesPerConnection

/-- A half-stream has gathered all that has come, and handed it over. -/
def Gathered (base : SeqNum) (line : List UInt8) (all as : List Arrival) (ds : List Delivery) : Prop :=
  ∃ h : HalfStream, h.Gathers base line all as ds ∧ h.counters.discarded = 0 ∧ h.pages = []

/-- Nothing has come to a stream that has not begun. -/
theorem gathered_nil (d : Direction) : Gathered base line all [] [] := ⟨.new d, .new d, rfl, rfl⟩

/-- After a flush everything was handed over. -/
theorem gathered_of_flushAll {r : History} {last : Call}
    (h : Upheld ceiling k (Assembles base line all d) (Drained d) r.state (r.arrivalsAt k d)
      (r.deliveries k d))
    {order : List FlowId} (hflush : last.action = .flushAll order)
    (hok : ∀ event, last.fails event = false) :
    Gathered base line all ((r.extend last).arrivalsAt k d) ((r.extend last).deliveries k d) := by
  obtain ⟨fails, now, action⟩ := last
  obtain rfl : action = .flushAll order := hflush
  let flows := r.state.registry.flowsIn order
  have hnone : (r.state.windUpAll fails flows).state.connections = [] :=
    connections_flushAll hok order r.state
  have hkept : Upheld ceiling k
      (fun c as ds => c.Unscathed ∧ (c.half d).Gathers base line all as ds) (Drained d) r.state
      (r.arrivalsAt k d) (r.deliveries k d) := h.imp fun hP => ⟨hP.unscathed, hP.gathers⟩
  have hup : Upheld ceiling k
      (fun c as ds => c.Unscathed ∧ (c.half d).Gathers base line all as ds) (Drained d)
      (r.state.windUpAll fails flows).state (r.arrivalsAt k d)
      (r.deliveries k d ++ (r.state.windUpAll fails flows).handed k d) := by
    refine hkept.windUpAll ?_ ?_
    · rintro c as ds hs ⟨hunscathed, hg⟩
      obtain ⟨-, -, hhalf⟩ := Connection.close_moves hs
      obtain ⟨h', hm, hpages, hv⟩ := hhalf d
      refine ⟨hunscathed.close hs, ?_⟩
      rw [hv]
      exact hg.close hm hpages []
    · exact fun hP hover => hP.2.closed (Connection.isClosed_of_isOver hover d)
  have harr : (r.extend ⟨fails, now, .flushAll order⟩).arrivalsAt k d = r.arrivalsAt k d :=
    (r.arrivalsAt_extend _ k d).trans (List.append_nil _)
  have hds : (r.extend ⟨fails, now, .flushAll order⟩).deliveries k d = r.deliveries k d ++
      (r.state.windUpAll fails flows).handed k d := r.deliveries_extend _ k d
  rw [harr, hds]
  by_cases hk : k < (r.state.windUpAll fails flows).state.nextStream
  · obtain ⟨c, ⟨hunscathed, hg⟩, hdrained⟩ :=
      hup.gone (fun c hc => by rw [hnone] at hc; cases hc) hk
    exact ⟨_, hg, hunscathed d, hdrained⟩
  · obtain ⟨has, hds⟩ := hup.fresh (Nat.le_of_not_lt hk)
    rw [has, hds]
    exact gathered_nil d

/-- After a segment with FIN or RST everything was handed over. -/
theorem gathered_of_closes {as : List Arrival} {ds : List Delivery} {s : Reassembly}
    (h : Upheld ceiling k (Assembles base line all d) (Drained d) s as ds)
    (hcloses : ∃ a ∈ as, a.segment.flags.closes = true) : Gathered base line all as ds := by
  rcases h.exists_or_fresh with ⟨c, hP⟩ | ⟨rfl, rfl⟩
  · exact ⟨_, hP.gathers, hP.unscathed d, hP.gathers.closed (hP.closed hcloses)⟩
  · exact gathered_nil d

/-- **All that came was handed over** by calls that end the direction. -/
theorem Completes.gathered {segments : List Segment} {calls : List Call} {last : Call}
    (h : Completes ceiling k d segments calls last)
    (hcoherent : Segment.Coherent base line segments) :
    Gathered base line (((fresh ceiling).history (calls ++ [last])).arrivalsAt k d)
      (((fresh ceiling).history (calls ++ [last])).arrivalsAt k d)
      (((fresh ceiling).history (calls ++ [last])).deliveries k d) := by
  obtain ⟨hperm, hreceives, hstays, hends, hgranted, hbelow⟩ := h
  replace hcoherent := hcoherent.perm hperm
  generalize hall : ((fresh ceiling).history (calls ++ [last])).arrivalsAt k d = all at hcoherent ⊢
  rw [history_snoc] at hgranted hbelow hall ⊢
  have hsub : ((fresh ceiling).history calls).arrivalsAt k d ++
      (((fresh ceiling).history calls).state.arrivals last).filter
        (fun a => a.stream = k ∧ a.direction = d) = all :=
    (History.arrivalsAt_extend ..).symm.trans hall
  -- before the last call, all segments are gathered
  have hcalls := assembles_history (k := k) (d := d) calls hcoherent hreceives hstays
    (fun a ha => hgranted a (List.mem_append_left _ ha))
    (fun a ha => hbelow a (List.mem_append_left _ ha))
    (hsub ▸ List.subset_append_left ..)
  rcases hends with ⟨⟨order, hflush⟩, hok⟩ | ⟨a, ha, hat, hcloses⟩
  · have hgathered := gathered_of_flushAll hcalls hflush hok
    rwa [hall] at hgathered
  · have hlast := hcalls.extend_assembles hcoherent (isReceive_of_mem_arrivals ha) hstays
      (fun a ha => hgranted a (List.mem_append_right _ ha))
      (fun a ha => hbelow a (List.mem_append_right _ ha))
      (fun a ha hk hd => hsub ▸ List.mem_append_right _
        (List.mem_filter.2 ⟨ha, decide_eq_true ⟨hk, hd⟩⟩))
    rw [hall] at hlast
    exact gathered_of_closes hlast
      ⟨a, hsub ▸ List.mem_append_right _ (List.mem_filter.2 ⟨ha, decide_eq_true hat⟩), hcloses⟩

/-- The chunks that were handed over hold what the segments cover, and begin where a SYN sets the first
number. -/
theorem Gathered.opened {as : List Arrival} {ds : List Delivery} {segments : List Segment}
    (hg : Gathered base line all as ds) (hcoherent : Segment.Coherent base line segments)
    (hperm : (as.map Arrival.segment).Perm segments) :
    Delivery.Opened base (Segment.Covered base segments) (Segment.OpensAt base segments) ds ∧
      ((∃ a ∈ as, a.BeginsStream) ↔ ∃ x, Segment.OpensAt base segments x) := by
  obtain ⟨h, hg, hzero, hpages⟩ := hg
  have hmem : ∀ {a}, a ∈ as → a.segment ∈ segments := fun ha => hperm.mem_iff.1 (List.mem_map_of_mem ha)
  have hsyn : ∀ {x}, Segment.OpensAt base segments x →
      ∃ a ∈ as, a.BeginsStream ∧ base.offset a.segment.payloadSeq = x := by
    rintro x ⟨s, hs, hsyn, rfl⟩
    obtain ⟨a, ha, rfl⟩ := List.mem_map.1 (hperm.mem_iff.2 hs)
    obtain ⟨b, hb, hbegins⟩ := hg.synced ⟨a, ha, hsyn⟩
    exact ⟨b, hb, hbegins, by rw [hcoherent.origin _ hs hsyn _ (hmem hb) hbegins.2.2]⟩
  have hopens : ∀ {a}, a ∈ as → a.BeginsStream →
      Segment.OpensAt base segments (base.offset a.segment.payloadSeq) :=
    fun ha hb => ⟨_, hmem ha, hb.2.2, rfl⟩
  refine ⟨⟨fun x => ?_, ?_, ?_, fun x hx => ?_, fun y hy hnil => ?_⟩, ?_⟩
  · -- all that came was handed over, since nothing waits
    have hcover := (hg.timed.2.2 hzero).cover x
    simp only [hpages, Covers, List.not_mem_nil, false_and, exists_false, or_false] at hcover
    rw [← hcover]
    constructor
    · rintro ⟨s, hs, hx⟩
      exact hg.timely x ⟨s, hperm.mem_iff.2 hs, hx⟩
    · rintro ⟨a, ha, -, hx, -⟩
      exact ⟨_, hmem ha, hx⟩
  · rintro x y ⟨s, hs, hsyn, rfl⟩ ⟨t, ht, htsyn, rfl⟩
    rw [hcoherent.origin s hs hsyn t ht htsyn]
  · rintro x y ⟨s, hs, hsyn, rfl⟩ ⟨t, ht, hlo, hhi⟩
    exact Nat.le_trans
      (hcoherent.after s hs hsyn t ht (List.ne_nil_of_length_pos (by omega))) hlo
  · obtain ⟨a, ha, hb, rfl⟩ := hsyn hx
    obtain ⟨y, hy, hseq⟩ := hg.rooted.opened a ha hb
    exact ⟨y, hy, by rw [Delivery.lo, hseq]⟩
  · obtain ⟨a, ha, hb, hseq⟩ := hg.rooted.sized y hy hnil
    rw [Delivery.lo, hseq]
    exact hopens ha hb
  · constructor
    · rintro ⟨a, ha, hb⟩
      exact ⟨_, hopens ha hb⟩
    · rintro ⟨x, hx⟩
      obtain ⟨a, ha, hb, -⟩ := hsyn hx
      exact ⟨a, ha, hb⟩

/-- What calls lead to that end the direction is known from the segments. -/
theorem Completes.known {segments : List Segment} {calls : List Call} {last : Call}
    (h : Completes ceiling k d segments calls last)
    (hcoherent : Segment.Coherent base line segments) :
    Delivery.concat (((fresh ceiling).history (calls ++ [last])).deliveries k d) =
        gather (Segment.Covered base segments) 0 line ∧
      ∀ x, (∃ y ∈ ((fresh ceiling).history (calls ++ [last])).deliveries k d,
        y.skip = true ∧ y.lo base = x) ↔ Segment.StartsRun base segments x := by
  have hgathered := h.gathered hcoherent
  obtain ⟨hopened, hbegins⟩ := hgathered.opened hcoherent h.perm
  obtain ⟨h, hg, -, -⟩ := hgathered
  refine ⟨?_, fun x => hopened.exists_skip_iff ?_ hg.marked.2.chain hg.ordered.order x⟩
  · exact Delivery.concat_eq_gather hg.ordered.bytes hg.ordered.order (fun _ _ => Nat.zero_le _)
      fun x _ => hopened.cover x
  · rw [← hbegins]
    exact hg.marked.2.first

/-- **The order of arrival does not matter.** Let segments quote one line inside a window, none before the
number that a SYN sets, and let them arrive in some order before their direction ends, with a flush or with
one of them.  As long as no page is refused and the connection stays below its limit, the chunks handed
over hold together the bytes that the segments cover, in order and each once, and those with a skip mark
stand at the beginnings of the runs that are covered, but for the run that the SYN begins.  So it is the
same for any two orders. -/
theorem arrival_order_irrelevant {ceiling' k' : Nat} {d' : Direction} {segments : List Segment}
    {calls calls' : List Call} {last last' : Call} (hcoherent : Segment.Coherent base line segments)
    (h : Completes ceiling k d segments calls last)
    (h' : Completes ceiling' k' d' segments calls' last') :
    (Delivery.concat (((fresh ceiling).history (calls ++ [last])).deliveries k d) =
        gather (Segment.Covered base segments) 0 line ∧
      ∀ x, (∃ y ∈ ((fresh ceiling).history (calls ++ [last])).deliveries k d,
        y.skip = true ∧ y.lo base = x) ↔ Segment.StartsRun base segments x) ∧
    Delivery.concat (((fresh ceiling).history (calls ++ [last])).deliveries k d) =
      Delivery.concat (((fresh ceiling').history (calls' ++ [last'])).deliveries k' d') ∧
    ∀ x, (∃ y ∈ ((fresh ceiling).history (calls ++ [last])).deliveries k d,
        y.skip = true ∧ y.lo base = x) ↔
      ∃ y ∈ ((fresh ceiling').history (calls' ++ [last'])).deliveries k' d',
        y.skip = true ∧ y.lo base = x := by
  obtain ⟨hbytes, hskips⟩ := h.known hcoherent
  obtain ⟨hbytes', hskips'⟩ := h'.known hcoherent
  exact ⟨⟨hbytes, hskips⟩, hbytes.trans hbytes'.symm, fun x => (hskips x).trans (hskips' x).symm⟩

/-- A call that flushes all streams. -/
def callFlush : Call where
  fails _ := false
  now := 0
  action := .flushAll

/-- Calls that bring data after the SYN, and then the data before it. -/
def callsSynFirst : List Call :=
  [.ofSegment 9 9 .syn [97], .ofSegment 9 14 ⟨0⟩ [101], .ofSegment 9 11 ⟨0⟩ [98, 99]]

/-- Calls that bring the SYN when all the data has come. -/
def callsSynLast : List Call :=
  [.ofSegment 9 14 ⟨0⟩ [101], .ofSegment 9 11 ⟨0⟩ [98, 99], .ofSegment 9 9 .syn [97]]

/-- The segments that they bring. -/
def segmentsApart : List Segment :=
  [⟨1, 2, .ofNat 9, .syn, [97]⟩, ⟨1, 2, .ofNat 11, ⟨0⟩, [98, 99]⟩, ⟨1, 2, .ofNat 14, ⟨0⟩, [101]⟩]

theorem arrival_order_irrelevant_syn_last :
    Segment.Coherent (.ofNat 10) [97, 98, 99, 100, 101] segmentsApart ∧
    Completes 8 0 .forward segmentsApart callsSynFirst callFlush ∧
    Completes 8 0 .forward segmentsApart callsSynLast callFlush ∧
    gather (Segment.Covered (.ofNat 10) segmentsApart) 0 [97, 98, 99, 100, 101] = [97, 98, 99, 101] ∧
    (((fresh 8).history (callsSynFirst ++ [callFlush])).deliveries 0 .forward).map
      (fun y => (y.bytes, y.skip)) = [([97], false), ([98, 99], false), ([101], true)] ∧
    Delivery.concat (((fresh 8).history (callsSynFirst ++ [callFlush])).deliveries 0 .forward) =
      Delivery.concat (((fresh 8).history (callsSynLast ++ [callFlush])).deliveries 0 .forward) := by
  have hcoherent : Segment.Coherent (.ofNat 10) [97, 98, 99, 100, 101] segmentsApart := by decide
  have hfirst : Completes 8 0 .forward segmentsApart callsSynFirst callFlush :=
    ⟨by decide, by decide, by decide, Or.inl ⟨⟨[], rfl⟩, fun _ => rfl⟩, by decide, by decide⟩
  have hlast : Completes 8 0 .forward segmentsApart callsSynLast callFlush :=
    ⟨by decide, by decide, by decide, Or.inl ⟨⟨[], rfl⟩, fun _ => rfl⟩, by decide, by decide⟩
  exact ⟨hcoherent, hfirst, hlast, by decide, by decide,
    (arrival_order_irrelevant hcoherent hfirst hlast).2.1⟩

end Reassembly
end TcpStreams
