import TcpStreams.Proofs.Working

/-!
# Where data goes

What the fit of a segment says about the half-stream that it arrives at, and that finding a place for
the data is one more step of the work.

* `Fit.of_inOrder`, `Fit.of_ahead`: what it means that data is in order, or ahead.
* `Work.accepted`: the bytes of a segment that a place is found for.
* `Work.leads_placed`, `Work.leads_accept`: the work on a segment keeps to what every step keeps to.
* `Work.placed_cases`: unless data is ahead, all of it goes through at once.
* `HalfStream.Taken.handed`: what goes through at once goes through as one chunk.
-/

namespace TcpStreams

/-! ## Fits -/

namespace Fit

variable {next : Option SeqNum} {pages : List Page} {start : SeqNum} {len : Nat}

/-- The stretches of `len` bytes of data that a place is found for. -/
def spans (len : Nat) : Fit → List Span
  | inOrder offset => [⟨offset, len⟩]
  | ahead pieces => pieces
  | empty | behind | covered => []

/-- A place is found for what is not waiting yet. -/
theorem spans_waiting (pages : List Page) (start : SeqNum) (len : Nat) :
    (waiting pages start len).spans len = Backlog.gaps start len 0 pages := by
  unfold waiting
  split
  · rename_i hnone
    rw [hnone]
    rfl
  · rfl

/-- Data is in order if the next byte wanted is among it. -/
theorem of_inOrder {offset : Nat} (h : of next pages start len = inOrder offset) :
    ∃ n, next = some n ∧ n.distance start ≤ 0 ∧ offset = (n.distance start).natAbs ∧
      offset < len := by
  have hwaiting : waiting pages start len ≠ inOrder offset := by
    rw [waiting]
    split <;> nofun
  unfold of at h
  split at h
  · cases h
  · cases next with
    | none => exact absurd h hwaiting
    | some n =>
        simp only at h
        split at h
        · exact absurd h hwaiting
        · rename_i hlead
          split at h
          · cases h
          · rename_i hshort
            injection h with h
            exact ⟨n, rfl, by omega, h.symm, by omega⟩

/-- Data is ahead if it begins beyond the next byte wanted, and its pieces are the gaps in what
waits already. -/
theorem of_ahead {pieces : List Span} (h : of next pages start len = ahead pieces) :
    0 < len ∧ pieces = Backlog.gaps start len 0 pages ∧ ∀ n, next = some n → 0 < n.distance start := by
  have hwaiting : waiting pages start len = ahead pieces →
      pieces = Backlog.gaps start len 0 pages := by
    rw [waiting]
    split
    · exact nofun
    · intro h
      injection h with h
      exact h.symm
  unfold of at h
  split at h
  · cases h
  · rename_i hlen
    cases next with
    | none => exact ⟨Nat.pos_of_ne_zero hlen, hwaiting h, nofun⟩
    | some n =>
        simp only at h
        split at h
        · rename_i hlead
          refine ⟨Nat.pos_of_ne_zero hlen, hwaiting h, ?_⟩
          intro n' hn'
          obtain rfl := Option.some.inj hn'
          exact hlead
        · split at h <;> cases h

/-- Data that begins with the next byte wanted is in order. -/
theorem of_self (start : SeqNum) (pages : List Page) (hlen : 0 < len) :
    of (some start) pages start len = inOrder 0 := by
  rw [of, if_neg (Nat.ne_of_gt hlen)]
  simp only [SeqNum.distance_self, Int.lt_irrefl, if_false, Int.natAbs_zero]
  rw [if_neg (Nat.not_le.2 hlen)]

end Fit

namespace HalfStream

/-- What the arrival of a segment makes of a half-stream, and the chunks that it leads to at once. -/
inductive Noted (h : HalfStream) (segment : Segment) : HalfStream → List Chunk → Prop
  /-- The segment is counted. -/
  | counted {counters : Counters} :
      (segment.flags.isSyn = true → h.next ≠ none) →
      counters.discarded = h.counters.discarded → Noted h segment { h with counters } []
  /-- A SYN without data begins the stream, and the consumer is told so. -/
  | greeted {counters : Counters} :
      segment.flags.isSyn = true → h.next = none → segment.payload = [] →
      counters.discarded = h.counters.discarded →
      Noted h segment
        { h with
          phase := .started
          next := some (segment.payloadSeq.advance 0)
          startDue := false
          skipDue := false
          counters }
        [{ direction := h.direction, seq := segment.payloadSeq, skip := false, start := true
           source := .payload ⟨0, 0⟩ }]
  /-- A SYN with data begins the stream. -/
  | begun {counters : Counters} :
      segment.flags.isSyn = true → h.next = none → segment.payload ≠ [] →
      counters.discarded = h.counters.discarded →
      Noted h segment
        { h with
          phase := .started
          next := some segment.payloadSeq
          startDue := true
          skipDue := false
          counters }
        []

theorem discarded_count (fit : Fit) (c : Counters) : (fit.count c).discarded = c.discarded := by
  cases fit <;> rfl

theorem arrive_noted (h : HalfStream) (segment : Segment) :
    Noted h segment (h.arrive segment).value.1 (h.arrive segment).chunks := by
  simp only [arrive, Yield.andThen, synchronize]
  by_cases hsyn : segment.flags.isSyn = true ∧ h.next = none
  · have hcond : (segment.flags.isSyn && h.next.isNone) = true := by
      rw [hsyn.1, hsyn.2]
      rfl
    by_cases hp : segment.payload = []
    · simp only [hcond, if_true, hp, List.isEmpty_nil]
      exact .greeted hsyn.1 hsyn.2 hp (discarded_count _ _)
    · have hne : segment.payload.isEmpty = false := by
        rw [Bool.eq_false_iff, Ne, List.isEmpty_iff]
        exact hp
      simp only [hcond, if_true, hne, Bool.false_eq_true, if_false]
      exact .begun hsyn.1 hsyn.2 hp (discarded_count _ _)
  · have hcond : (segment.flags.isSyn && h.next.isNone) = false := by
      rw [Bool.eq_false_iff, Ne, Bool.and_eq_true, Option.isNone_iff_eq_none]
      exact hsyn
    simp only [hcond, Bool.false_eq_true, if_false]
    exact .counted (fun h₁ h₂ => hsyn ⟨h₁, h₂⟩) (discarded_count _ _)

end HalfStream

/-- What data in order makes of a half-stream. -/
theorem HalfStream.pass_some {h : HalfStream} {next : SeqNum} (hn : h.next = some next)
    (len offset : Nat) :
    (h.pass len offset).value = (h.handOn (.payload ⟨offset, len⟩) next (len - offset)).1 ∧
      (h.pass len offset).chunks = [(h.handOn (.payload ⟨offset, len⟩) next (len - offset)).2] := by
  rw [pass, hn]
  exact ⟨rfl, rfl⟩

/-- `Taken h segment accepted h' chunks`: what a half-stream becomes that takes the data of a segment
at once, or none of it. -/
inductive HalfStream.Taken (h : HalfStream) (segment : Segment) :
    List Cell → HalfStream → List Chunk → Prop
  /-- There is nothing to take. -/
  | nothing {counters : Counters} :
      (segment.flags.isSyn = true → h.next ≠ none) →
      (Fit.of h.next h.pages segment.payloadSeq segment.payload.length).spans
        segment.payload.length = [] →
      counters.discarded = h.counters.discarded → Taken h segment [] { h with counters } []
  /-- A SYN begins the stream, and all the data goes through. -/
  | begun {counters : Counters} :
      segment.flags.isSyn = true → h.next = none →
      counters.discarded = h.counters.discarded →
      Taken h segment (cells segment.payloadSeq segment.payload)
        { h with
          phase := .started
          next := some (segment.payloadSeq.advance segment.payload.length)
          startDue := false
          skipDue := false
          counters }
        [{ direction := h.direction, seq := segment.payloadSeq, skip := false, start := true
           source := .payload ⟨0, segment.payload.length⟩ }]
  /-- The data goes through from the next byte wanted on. -/
  | passed {counters : Counters} {next : SeqNum} {offset : Nat} :
      h.next = some next → next.distance segment.payloadSeq ≤ 0 →
      offset = (next.distance segment.payloadSeq).natAbs → offset < segment.payload.length →
      counters.discarded = h.counters.discarded →
      Taken h segment
        (Span.cells segment.payloadSeq segment.payload ⟨offset, segment.payload.length⟩)
        { h with
          next := some (next.advance (segment.payload.length - offset))
          startDue := false
          skipDue := false
          counters }
        [{ direction := h.direction, seq := next, skip := h.skipDue, start := h.startDue
           source := .payload ⟨offset, segment.payload.length⟩ }]

/-- `Handed h segment accepted h' x`: a half-stream hands the data of a segment over as the chunk
`x`. -/
structure HalfStream.Handed (h : HalfStream) (segment : Segment) (accepted : List Cell)
    (h' : HalfStream) (x : Delivery) : Prop where
  /-- The same pages wait. -/
  pages : h'.pages = h.pages
  /-- The stream goes on where the chunk ends. -/
  next : h'.next = some (x.seq.advance x.bytes.length)
  /-- It stays open. -/
  isOpen : h.isClosed = false → h'.isClosed = false
  /-- No start mark is due. -/
  startDue : h'.startDue = false
  /-- No skip mark is due. -/
  skipDue : h'.skipDue = false
  /-- Nothing is discarded. -/
  discarded : h'.counters.discarded = h.counters.discarded
  /-- The chunk is what a place was found for. -/
  cells : cells x.seq x.bytes = accepted
  /-- Before the stream has begun, that is all the data of a SYN. -/
  begun : h.next = none → segment.flags.isSyn = true ∧ x.seq = segment.payloadSeq ∧
    x.bytes = segment.payload ∧ x.skip = false ∧ x.start = true
  /-- Afterwards it is the data from the next byte wanted on. -/
  passed : ∀ next, h.next = some next → next.distance segment.payloadSeq ≤ 0 ∧
    (next.distance segment.payloadSeq).natAbs < segment.payload.length ∧ x.seq = next ∧
    x.bytes = segment.payload.drop (next.distance segment.payloadSeq).natAbs ∧
    x.skip = h.skipDue ∧ x.start = h.startDue

/-- Data that goes through at once goes through as one chunk. -/
theorem HalfStream.Taken.handed {h h' : HalfStream} {segment : Segment} {accepted : List Cell}
    {cs : List Chunk} (htaken : h.Taken segment accepted h' cs) :
    (∃ counters : Counters, accepted = [] ∧ cs = [] ∧ h' = { h with counters } ∧
      counters.discarded = h.counters.discarded ∧ (segment.flags.isSyn = true → h.next ≠ none) ∧
      (Fit.of h.next h.pages segment.payloadSeq segment.payload.length).spans
        segment.payload.length = []) ∨
    ∃ x, cs.map (Chunk.delivery segment.payload) = [x] ∧ h.Handed segment accepted h' x := by
  cases htaken with
  | nothing hsyn hspans hcount => exact Or.inl ⟨_, rfl, rfl, rfl, hcount, hsyn, hspans⟩
  | begun hsyn hn hcount =>
      refine Or.inr ⟨⟨h.direction, segment.payloadSeq, false, true, segment.payload⟩, ?_, ?_⟩
      · simp only [List.map_cons, List.map_nil, Chunk.delivery, Source.bytes, Span.slice_all]
      · exact {
          pages := rfl
          next := rfl
          isOpen := fun _ => rfl
          startDue := rfl
          skipDue := rfl
          discarded := hcount
          cells := rfl
          begun := fun _ => ⟨hsyn, rfl, rfl, rfl, rfl⟩
          passed := fun next hnext => absurd (hn.symm.trans hnext) (Option.some_ne_none next).symm }
  | @passed counters next offset hn hdist hoffset hlt hcount =>
      subst hoffset
      refine Or.inr ⟨⟨h.direction, next, h.skipDue, h.startDue,
        segment.payload.drop (next.distance segment.payloadSeq).natAbs⟩, ?_, ?_⟩
      · simp only [List.map_cons, List.map_nil, Chunk.delivery, Source.bytes, Span.slice_from]
      · exact {
          pages := rfl
          next := by rw [List.length_drop]
          isOpen := id
          startDue := rfl
          skipDue := rfl
          discarded := hcount
          cells := by rw [Span.cells, Span.slice_from, SeqNum.advance_natAbs_distance hdist]
          begun := fun hnone => absurd (hn.symm.trans hnone) (Option.some_ne_none next)
          passed := by
            intro next' hnext
            obtain rfl := Option.some.inj (hn.symm.trans hnext)
            exact ⟨hdist, hlt, rfl, rfl, rfl, rfl⟩ }

namespace Work

variable {ceiling limit : Nat} {d : Direction} {w : Work} {locked : List FlowId} {segment : Segment}

/-- The bytes of a segment that a place is found for. -/
def accepted (w : Work) (d : Direction) (segment : Segment) : List Cell :=
  ((w.fit d segment).spans segment.payload.length).flatMap
    (Span.cells segment.payloadSeq segment.payload)

/-- The half-stream that a segment's data finds. -/
theorem fit_eq (w : Work) (d : Direction) (segment : Segment) :
    w.fit d segment = Fit.of ((w.arrived d segment).connection.half d).next
      ((w.arrived d segment).connection.half d).pages segment.payloadSeq segment.payload.length := by
  rw [half_arrived]
  rfl

/-- The pieces of data that is ahead lie in the payload, and none is empty. -/
theorem pieces_bounds {pieces : List Span} (h : w.fit d segment = .ahead pieces) :
    ∀ piece ∈ pieces, piece.start < piece.stop ∧ piece.stop ≤ segment.payload.length := by
  rw [fit_eq] at h
  obtain ⟨-, rfl, -⟩ := Fit.of_ahead h
  exact fun piece hpiece => (Backlog.gaps_bounds hpiece).2

/-- So do their portions. -/
theorem portions_bounds {pieces : List Span} (h : w.fit d segment = .ahead pieces) :
    ∀ p ∈ pieces.flatMap Span.portions,
      p.span.start < p.span.stop ∧ p.span.stop ≤ segment.payload.length := by
  intro p hp
  obtain ⟨piece, hpiece, hp⟩ := List.mem_flatMap.1 hp
  obtain ⟨-, hstop⟩ := pieces_bounds h piece hpiece
  obtain ⟨-, hlt, hle, heq, -⟩ := Span.mem_portions hp
  exact ⟨hlt, by omega⟩

/-- Of data in order a place is found for what begins with the next byte wanted. -/
theorem accepted_of_inOrder {offset : Nat} (h : w.fit d segment = .inOrder offset) :
    w.accepted d segment =
      Span.cells segment.payloadSeq segment.payload ⟨offset, segment.payload.length⟩ := by
  rw [accepted, h, Fit.spans, List.flatMap_cons, List.flatMap_nil, List.append_nil]

/-- If data is neither in order nor ahead, no place is found for it. -/
theorem placed_idle (w : Work) (horder : ∀ offset, w.fit d segment ≠ .inOrder offset)
    (hahead : ∀ pieces, w.fit d segment ≠ .ahead pieces) (limit : Nat) (locked : List FlowId) :
    w.placed limit locked d segment = w.arrived d segment ∧ w.accepted d segment = [] := by
  rw [placed, accepted]
  cases hf : w.fit d segment with
  | empty | behind | covered => exact ⟨rfl, rfl⟩
  | inOrder offset => exact absurd hf (horder offset)
  | ahead pieces => exact absurd hf (hahead pieces)

/-- The portions of data that is ahead hold all that a place is found for. -/
theorem accepted_of_ahead {pieces : List Span} (h : w.fit d segment = .ahead pieces) :
    w.accepted d segment = (pieces.flatMap Span.portions).flatMap
      fun p => p.span.cells segment.payloadSeq segment.payload := by
  rw [accepted, h, List.flatMap_assoc]
  refine (List.flatMap_congr fun piece hpiece => ?_).symm
  exact Span.flatMap_portions piece (pieces_bounds h piece hpiece).2

theorem leads_pass (hw : w.Sound ceiling) (len offset : Nat) :
    Leads ceiling d ((w.connection.half d).pass len offset).chunks w
        (w.onHalf d fun h => h.pass len offset) ∧
      ∀ c ∈ ((w.connection.half d).pass len offset).chunks, c.direction = d := by
  have hside := hw.connection.sided d
  have hkeeps : ∀ h : HalfStream, (h.pass len offset).value.direction = h.direction ∧
      (h.pass len offset).value.pages = h.pages ∧
      (h.pass len offset).value.isClosed = h.isClosed ∧
      ∀ c ∈ (h.pass len offset).chunks, c.direction = h.direction := by
    intro h
    rw [HalfStream.pass]
    split
    · exact ⟨rfl, rfl, rfl, nofun⟩
    · refine ⟨rfl, rfl, rfl, ?_⟩
      intro c hc
      rw [List.mem_singleton] at hc
      rw [hc]
      rfl
  obtain ⟨hdir, hpages, hclosed, hcs⟩ := hkeeps (w.connection.half d)
  rw [hside] at hdir hcs
  refine ⟨@leads_onHalf ceiling d w (fun h => h.pass len offset) hw hdir hcs ?_ ?_, hcs⟩
  · intro _
    simp only [HalfStream.pageCount, hpages]
    exact Nat.le_refl _
  · intro hc
    simp only [hclosed] at hc
    simp only [hpages]
    exact hw.connection.closed d hc

theorem reaches_arrived {J : HalfStream → List Delivery → Prop} {ds : List Delivery}
    (hw : w.Sound ceiling) (hopen : (w.connection.half d).isClosed = false)
    (hJ : J ((w.connection.half d).arrive segment).value.1
      (ds ++ ((w.connection.half d).arrive segment).chunks.map (Chunk.delivery segment.payload))) :
    Reaches ceiling d segment.payload J ds w (w.arrived d segment) := by
  obtain ⟨hlead, hown, -⟩ := leads_arrived hw hopen segment
  refine ⟨_, hlead, ?_⟩
  rw [hown, half_arrived]
  exact hJ

/-- Finding a place for the data of a segment is a step of the work. -/
theorem leads_placed (hw : w.Sound ceiling) (hopen : (w.connection.half d).isClosed = false)
    (limit : Nat) (locked : List FlowId) (segment : Segment) :
    ∃ new, Leads ceiling d new w (w.placed limit locked d segment) := by
  obtain ⟨harrived, -, hopen'⟩ := leads_arrived hw hopen segment
  rw [placed]
  cases hfit : w.fit d segment with
  | empty | behind | covered => exact ⟨_, harrived⟩
  | inOrder offset =>
      exact ⟨_, harrived.trans (leads_pass harrived.sound segment.payload.length offset).1⟩
  | ahead pieces =>
      obtain ⟨new, hlead, -⟩ := @store_changes ceiling limit d _ locked segment.payloadSeq
        segment.payload _ harrived.sound hopen' (portions_bounds hfit)
      exact ⟨_, harrived.trans hlead⟩

/-- **The work on a segment keeps to what every step of it keeps to.** -/
theorem leads_accept (hw : w.Sound ceiling) (hopen : (w.connection.half d).isClosed = false)
    (limit : Nat) (locked : List FlowId) (segment : Segment) :
    ∃ new, Leads ceiling d new w (w.accept limit locked d segment) := by
  obtain ⟨new, hlead⟩ := leads_placed hw hopen limit locked segment
  obtain ⟨new', hlead', -⟩ := @reaches_accept ceiling limit d w locked segment
    (fun _ _ => True) (fun _ _ => True) [] ⟨new, hlead, trivial⟩ (fun _ => trivial)
    (fun _ _ => trivial) (fun _ _ => trivial)
  exact ⟨new', hlead'⟩

/-- Data in order goes through at once. -/
theorem leads_inOrder {cs : List Chunk} {next : SeqNum} {offset : Nat}
    (hlead : Leads ceiling d cs w (w.arrived d segment)) (hself : Chunk.ofDirection d cs = cs)
    (hfit : w.fit d segment = .inOrder offset)
    (hn : ((w.arrived d segment).connection.half d).next = some next) :
    ∃ new, Leads ceiling d new w (w.placed limit locked d segment) ∧
      Chunk.ofDirection d new = cs ++ [(((w.arrived d segment).connection.half d).handOn
        (.payload ⟨offset, segment.payload.length⟩) next (segment.payload.length - offset)).2] ∧
      (w.placed limit locked d segment).connection.half d =
        (((w.arrived d segment).connection.half d).handOn
          (.payload ⟨offset, segment.payload.length⟩) next (segment.payload.length - offset)).1 := by
  obtain ⟨hpass, hcs⟩ := @leads_pass ceiling d _ hlead.sound segment.payload.length offset
  obtain ⟨hv, hc⟩ := HalfStream.pass_some hn segment.payload.length offset
  have hplaced : w.placed limit locked d segment =
      (w.arrived d segment).onHalf d fun h => h.pass segment.payload.length offset := by
    rw [placed, hfit]
    rfl
  refine ⟨_, hplaced ▸ hlead.trans hpass, ?_, ?_⟩
  · rw [Chunk.ofDirection_append, hself, Chunk.ofDirection_eq_self hcs, hc]
  · rw [hplaced, half_onHalf, hv]

/-- **Unless data is ahead, all of it goes through at once.** -/
theorem placed_cases (hw : w.Sound ceiling) (hopen : (w.connection.half d).isClosed = false)
    (limit : Nat) (locked : List FlowId) (segment : Segment) :
    (∃ pieces counters, w.fit d segment = .ahead pieces ∧
        (w.arrived d segment).connection.half d = { w.connection.half d with counters } ∧
        counters.discarded = (w.connection.half d).counters.discarded ∧
        (segment.flags.isSyn = true → (w.connection.half d).next ≠ none) ∧
        Leads ceiling d [] w (w.arrived d segment)) ∨
      ∃ new, Leads ceiling d new w (w.placed limit locked d segment) ∧
        (∀ pieces, w.fit d segment ≠ .ahead pieces) ∧
        (w.connection.half d).Taken segment (w.accepted d segment)
          ((w.placed limit locked d segment).connection.half d) (Chunk.ofDirection d new) := by
  obtain ⟨hlead, hself, -⟩ := leads_arrived hw hopen segment
  have hnoted := (w.connection.half d).arrive_noted segment
  have hfit := fit_eq w d segment
  rw [← half_arrived] at hnoted
  generalize ((w.connection.half d).arrive segment).chunks = cs at *
  generalize hhalf : (w.arrived d segment).connection.half d = h' at *
  cases hnoted with
  | counted hsyn hcount =>
      cases hf : w.fit d segment with
      | ahead pieces => exact Or.inl ⟨pieces, _, rfl, rfl, hcount, hsyn, hlead⟩
      | empty | behind | covered =>
          have horder : ∀ offset, w.fit d segment ≠ .inOrder offset := by
            rw [hf]
            exact nofun
          have hahead : ∀ pieces, w.fit d segment ≠ .ahead pieces := by
            rw [hf]
            exact nofun
          obtain ⟨hplaced, hnone⟩ := w.placed_idle horder hahead limit locked
          refine Or.inr ⟨[], hplaced ▸ hlead, nofun, ?_⟩
          rw [hnone, hplaced, hhalf]
          exact .nothing hsyn (congrArg (Fit.spans _) (hfit.symm.trans hf)) hcount
      | inOrder offset =>
          obtain ⟨next, hn, hdist, hoffset, hlt⟩ := Fit.of_inOrder (hfit.symm.trans hf)
          obtain ⟨new, hplaced, hcs, hv⟩ := @leads_inOrder ceiling limit d w locked segment [] next offset
            hlead hself hf (hhalf ▸ hn)
          refine Or.inr ⟨new, hplaced, nofun, ?_⟩
          rw [accepted_of_inOrder hf, hv, hcs, hhalf]
          exact .passed hn hdist hoffset hlt hcount
  | greeted hsyn hn hp hcount =>
      have hempty : w.fit d segment = .empty := by
        rw [hfit, hp, List.length_nil]
        rfl
      have horder : ∀ offset, w.fit d segment ≠ .inOrder offset := by
        rw [hempty]
        exact nofun
      have hahead : ∀ pieces, w.fit d segment ≠ .ahead pieces := by
        rw [hempty]
        exact nofun
      obtain ⟨hplaced, hnone⟩ := w.placed_idle horder hahead limit locked
      refine Or.inr ⟨_, hplaced ▸ hlead, hahead, ?_⟩
      have htaken := @HalfStream.Taken.begun (w.connection.half d) segment _ hsyn hn hcount
      rw [hnone, hplaced, hhalf, hself]
      rw [hp] at htaken
      exact htaken
  | begun hsyn hn hp hcount =>
      have hzero : w.fit d segment = .inOrder 0 :=
        hfit.trans (Fit.of_self _ _ (List.length_pos_iff.2 hp))
      obtain ⟨new, hplaced, hcs, hv⟩ := @leads_inOrder ceiling limit d w locked segment []
        segment.payloadSeq 0 hlead hself hzero (hhalf ▸ rfl)
      refine Or.inr ⟨new, hplaced, by rw [hzero]; nofun, ?_⟩
      have hall : Span.cells segment.payloadSeq segment.payload ⟨0, segment.payload.length⟩ =
          cells segment.payloadSeq segment.payload := by
        rw [Span.cells, SeqNum.advance_zero, Span.slice_all]
      rw [accepted_of_inOrder hzero, hv, hcs, hhalf, hall]
      exact .begun hsyn hn hcount

end Work
end TcpStreams
