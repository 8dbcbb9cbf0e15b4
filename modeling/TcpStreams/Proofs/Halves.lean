import TcpStreams.Proofs.Tidy
import TcpStreams.Proofs.Upheld

/-!
# What half-streams uphold

Most of what is proved about a stream is a property of one of its half-streams, of the segments that
arrived there and of the chunks handed over.  Such a property is upheld by every call if moves, giving
a page up and the end of the stream keep it, and so does every segment that arrives at the half-stream
itself.

* `HalfStream.Handed.pos_eq`: data that goes through at once moves the position to the end of its chunk.
* `Reassembly.Kept`: the properties of half-streams that everything but a segment of their own keeps.
* `Reassembly.Kept.history`: they hold in every history in which such segments keep them.
-/

namespace TcpStreams

open HalfStream (Move Moves)
open Connection (Sheds)

variable {ceiling k : Nat} {d : Direction} {c c' : Connection}

/-! ## Data that goes through at once -/

namespace HalfStream.Handed

variable {base : SeqNum} {h h' : HalfStream} {segment : Segment} {accepted : List Cell} {x : Delivery}

/-- The chunk begins at the position or beyond it. -/
theorem pos_le_lo (hx : h.Handed segment accepted h' x) : h.pos base ≤ x.lo base := by
  cases hn : h.next with
  | none =>
      rw [pos_none hn]
      exact Nat.zero_le _
  | some next =>
      rw [pos_some hn, Delivery.lo, (hx.passed next hn).2.2.1]

/-- If the data lies in the window, so does the chunk. -/
theorem hi_le (hx : h.Handed segment accepted h' x) (hpos : h.pos base ≤ SeqNum.reach)
    (hw : (h.next = none ∧ segment.flags.isSyn = true) ∨ segment.payload ≠ [] →
      base.offset segment.payloadSeq + segment.payload.length ≤ SeqNum.reach) :
    x.hi base ≤ SeqNum.reach := by
  rw [Delivery.hi, Delivery.lo]
  cases hn : h.next with
  | none =>
      obtain ⟨hsyn, hseq, hbytes, -, -⟩ := hx.begun hn
      rw [hseq, hbytes]
      exact hw (Or.inl ⟨hn, hsyn⟩)
  | some next =>
      obtain ⟨hdist, hlt, hseq, hbytes, -, -⟩ := hx.passed next hn
      have hle := hw (Or.inr (List.ne_nil_of_length_pos (by omega)))
      rw [pos_some hn] at hpos
      rw [SeqNum.distance_eq_offset_sub hpos (by omega)] at hdist hbytes
      rw [hseq, hbytes, List.length_drop]
      omega

/-- The position moves to the end of the chunk. -/
theorem pos_eq (hx : h.Handed segment accepted h' x) (hle : x.hi base ≤ SeqNum.reach) :
    h'.pos base = x.hi base := by
  rw [pos_some hx.next]
  exact SeqNum.offset_advance _ _ (Nat.lt_of_le_of_lt hle (by decide))

theorem placed (hx : h.Handed segment accepted h' x) (hp : Placed base h)
    (hle : x.hi base ≤ SeqNum.reach) : Placed base h' := by
  refine ⟨?_, ?_⟩
  · rw [hx.pages]
    exact hp.spread
  · rw [hx.pos_eq hle]
    exact hle

end HalfStream.Handed

/-- Whatever data goes through at once, if any does, the half-stream stays placed. -/
theorem HalfStream.Taken.placed {base : SeqNum} {h h' : HalfStream} {segment : Segment}
    {accepted : List Cell} {cs : List Chunk} (htaken : h.Taken segment accepted h' cs)
    (hp : Placed base h)
    (hw : (h.next = none ∧ segment.flags.isSyn = true) ∨ segment.payload ≠ [] →
      base.offset segment.payloadSeq + segment.payload.length ≤ SeqNum.reach) : Placed base h' := by
  rcases htaken.handed with ⟨counters, -, -, hsame, -⟩ | ⟨x, -, hx⟩
  · rw [hsame]
    exact ⟨hp.spread, hp.pos_le⟩
  · exact hx.placed hp (hx.hi_le hp.pos_le hw)

/-! ## One half-stream of a connection -/

theorem Connection.half_new (flow : FlowId) (opener : Endpoint) (stream now : Nat) (d : Direction) :
    (Connection.new flow opener stream now).half d = HalfStream.new d := by
  cases d <;> rfl

theorem Connection.Sheds.keep {J : HalfStream → Prop}
    (hJ : ∀ {h page rest}, J h → h.pages = page :: rest → J (h.lose page rest))
    (hs : Sheds c c') (h : J (c.half d)) : J (c'.half d) := by
  induction hs with
  | refl _ => exact h
  | @head c c' e page rest hp _ ih =>
      refine ih ?_
      by_cases he : e = d
      · subst he
        rw [Connection.half_setHalf]
        exact hJ h hp
      · rw [Connection.half_setHalf_ne _ _ he]
        exact h

theorem Connection.Sheds.pageCount_le (hs : Sheds c c') : c'.pageCount ≤ c.pageCount := by
  induction hs with
  | refl _ => exact Nat.le_refl _
  | @head c c' e page rest hp _ ih =>
      refine Nat.le_trans ih ?_
      rw [pageCount_setHalf, pageCount_eq c e]
      refine Nat.add_le_add_right ?_ _
      rw [HalfStream.pageCount, HalfStream.pageCount, hp]
      exact Nat.le_succ _

namespace Arrival

variable {a : Arrival}

/-- In the other direction the work on a segment is a sequence of moves. -/
theorem moves_of_ne (hs : a.before.Sound ceiling) (hd : a.direction ≠ d) :
    Moves true (a.connection.half d) (Chunk.ofDirection d a.work.chunks)
      (a.work.connection.half d) := by
  cases hclosed : a.half.isClosed with
  | true =>
      obtain ⟨hconn, -, -, hchunks⟩ := work_of_closed hclosed
      rw [hconn, hchunks]
      exact .refl _
  | false =>
      obtain ⟨new, hlead⟩ := Work.leads_accept hs hclosed a.config.pagesPerConnection a.locked
        a.segment
      obtain rfl := Connection.ne_iff_eq_opposite.1 hd
      have hchunks := hlead.chunks
      rw [work_of_open hclosed, hchunks]
      exact hlead.other

/-- The work on a segment leaves its connection sane. -/
theorem sane_work (hs : a.before.Sound ceiling) : a.work.connection.Sane ceiling := by
  cases hclosed : a.half.isClosed with
  | true =>
      rw [(work_of_closed hclosed).1]
      exact hs.connection
  | false =>
      obtain ⟨new, hlead⟩ := Work.leads_accept hs hclosed a.config.pagesPerConnection a.locked
        a.segment
      rw [work_of_open hclosed]
      exact hlead.sound.connection

/-- The work on a segment leaves its connection below its limit. -/
theorem pageCount_work (hlimit : 0 < a.config.pagesPerConnection)
    (hcount : a.connection.pageCount < a.config.pagesPerConnection) :
    a.work.connection.pageCount < a.config.pagesPerConnection := by
  cases hclosed : a.half.isClosed with
  | true =>
      rw [(work_of_closed hclosed).1]
      exact hcount
  | false =>
      rw [work_of_open hclosed]
      exact Work.pageCount_accept _ hlimit

/-- What the work on a segment reaches, for the half-stream that it arrives at. -/
theorem of_reaches {J : HalfStream → List Delivery → Prop} {ds : List Delivery}
    (hopen : a.half.isClosed = false)
    (h : Work.Reaches ceiling a.direction a.segment.payload J ds a.before
      (a.before.accept a.config.pagesPerConnection a.locked a.direction a.segment)) :
    J (a.work.connection.half a.direction) (ds ++ a.deliveries a.direction) := by
  obtain ⟨new, hlead, hJ⟩ := h
  have hchunks : a.work.chunks = new := by
    rw [work_of_open hopen, hlead.chunks]
    rfl
  rw [deliveries, hchunks, work_of_open hopen]
  exact hJ

end Arrival

namespace Reassembly

/-- A property of half-streams, of the segments that arrived at them and of the chunks handed over,
together with a property of their connections, that is kept by everything but a segment of their
own. -/
structure Kept (ceiling : Nat) (d : Direction) (N : Connection → Prop)
    (J : HalfStream → List Arrival → List Delivery → Prop) : Prop where
  /-- It holds of a connection that is opened. -/
  new : ∀ flow opener stream now, N (Connection.new flow opener stream now)
  /-- It holds of a half-stream that has seen nothing. -/
  newHalf : J (HalfStream.new d) [] []
  /-- Moves keep it. -/
  move : ∀ {h h' cs as ds}, J h as ds → Move true h cs h' →
    ∀ payload, J h' as (ds ++ cs.map (Chunk.delivery payload))
  /-- Giving a page up keeps it. -/
  lose : ∀ {h page rest as ds}, J h as ds → h.pages = page :: rest → J (h.lose page rest) as ds
  /-- Giving pages up keeps it. -/
  sheds : ∀ {c c'}, Sheds c c' → N c → N c'
  /-- The end of the stream keeps it. -/
  closed : ∀ {h as ds}, J h as ds → h.pages = [] → J { h with phase := .closed } as ds
  /-- Winding the connection up keeps it. -/
  close : ∀ {c : Connection}, c.Sane ceiling → N c → N c.close.value

/-- The property of a connection that one of its half-streams makes. -/
def ofHalf (d : Direction) (N : Connection → Prop)
    (J : HalfStream → List Arrival → List Delivery → Prop) (c : Connection) (as : List Arrival)
    (ds : List Delivery) : Prop := N c ∧ J (c.half d) as ds

variable {N : Connection → Prop} {J : HalfStream → List Arrival → List Delivery → Prop}
  {Q : Connection → Prop}

/-- **What half-streams uphold in one call.** -/
theorem Kept.extend (hJ : Kept ceiling d N J) {r : History} {call : Call}
    (h : Upheld ceiling k (ofHalf d N J) Q r.state (r.arrivalsAt k d) (r.deliveries k d))
    (hwork : ∀ a ∈ r.state.arrivals call, a.before.Sound ceiling → a.stream = k →
      N a.connection → N a.work.connection)
    (hown : ∀ a ∈ r.state.arrivals call, a.before.Sound ceiling → a.stream = k → a.direction = d →
      ofHalf d N J a.connection (r.arrivalsAt k d) (r.deliveries k d) →
      J (a.work.connection.half d) (r.arrivalsAt k d ++ [a]) (r.deliveries k d ++ a.deliveries d))
    (hnew : ∀ flow opener now, Q (Connection.new flow opener k now))
    (hover : ∀ {c as ds}, ofHalf d N J c as ds → c.isOver = true → Q c)
    (hremove : ∀ flow, call.action = .remove flow → ∀ {c as ds}, ofHalf d N J c as ds → Q c) :
    Upheld ceiling k (ofHalf d N J) Q (r.extend call).state ((r.extend call).arrivalsAt k d)
      ((r.extend call).deliveries k d) := by
  refine h.extend ?_ ?_ ?_ ?_ hover hremove
  · intro flow opener now
    refine ⟨⟨hJ.new flow opener k now, ?_⟩, hnew flow opener now⟩
    rw [Connection.half_new]
    exact hJ.newHalf
  · intro a ha hs hk hP
    refine ⟨hwork a ha hs hk hP.1, ?_⟩
    by_cases hd : a.direction = d
    · rw [if_pos hd]
      exact hown a ha hs hk hd hP
    · rw [if_neg hd, List.append_nil, Arrival.deliveries]
      exact (Arrival.moves_of_ne hs hd).keep (J := fun h ds => J h (r.arrivalsAt k d) ds)
        (fun hJh hm => hJ.move hJh hm _) hP.2
  · refine fun _ _ _ _ => Or.inl ?_
    intro x x' hx hP
    exact ⟨hJ.sheds hx hP.1, hx.keep (J := fun h => J h _ _) hJ.lose hP.2⟩
  · intro c as ds hs hP
    refine ⟨hJ.close hs hP.1, ?_⟩
    obtain ⟨-, -, hhalf⟩ := Connection.close_moves hs
    obtain ⟨h', hm, hp, hv⟩ := hhalf d
    rw [hv]
    exact hJ.closed
      (hm.keep (J := fun h ds => J h as ds) (fun hJh hm => hJ.move hJh hm _) hP.2) hp

/-- **What half-streams uphold in every history.** -/
theorem Kept.history (hJ : Kept ceiling d N J) (calls : List Call)
    (hwork : ∀ a ∈ ((fresh ceiling).history calls).arrivals, a.before.Sound ceiling →
      a.stream = k → N a.connection → N a.work.connection)
    (hown : ∀ a ∈ ((fresh ceiling).history calls).arrivalsAt k d, a.before.Sound ceiling →
      ∀ as ds, ofHalf d N J a.connection as ds →
      J (a.work.connection.half d) (as ++ [a]) (ds ++ a.deliveries d)) :
    Upheld ceiling k (ofHalf d N J) (fun _ => True) ((fresh ceiling).history calls).state
      (((fresh ceiling).history calls).arrivalsAt k d)
      (((fresh ceiling).history calls).deliveries k d) := by
  induction calls using List.reverseRecOn with
  | nil => exact Upheld.start
  | append_singleton calls call ih =>
      rw [history_snoc] at hwork hown ⊢
      have hlast : ∀ a ∈ ((fresh ceiling).history calls).state.arrivals call,
          a ∈ (((fresh ceiling).history calls).extend call).arrivals :=
        fun a ha => List.mem_append_right _ ha
      refine hJ.extend (ih ?_ ?_) ?_ ?_ (fun _ _ _ => trivial) (fun _ _ => trivial)
        (fun _ _ _ _ _ _ => trivial)
      · exact fun a ha => hwork a (List.mem_append_left _ ha)
      · intro a ha
        obtain ⟨ha, hat⟩ := List.mem_filter.1 ha
        exact hown a (List.mem_filter.2 ⟨List.mem_append_left _ ha, hat⟩)
      · exact fun a ha => hwork a (hlast a ha)
      · intro a ha hs hk hd hP
        exact hown a (List.mem_filter.2 ⟨hlast a ha, decide_eq_true ⟨hk, hd⟩⟩) hs _ _ hP

end Reassembly
end TcpStreams
