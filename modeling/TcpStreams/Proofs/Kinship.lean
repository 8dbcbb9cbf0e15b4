import TcpStreams.Proofs.History

/-!
# What every step keeps

Whatever the arena says and whatever numbers the traffic carries, a connection stays the conversation
that it is: no step gives it another opener or another stream.  Nor does any step end a direction, except
the FIN or RST of a segment that travels in it.

* `Connection.Continues`: a connection after steps that end no direction.
* `Entry.Continues`: the entry of such a connection, with the activity that it had.
* `Work.obtain_keep`, `Work.obtain_blank`: what a request for a page keeps.
* `Work.continues_accept`: what the work on a segment keeps.
* `Arrival.continues_work`: the same for a segment that arrives, whether its direction is over or not.
-/

namespace TcpStreams

/-! ## Connections -/

namespace Connection

variable {c c' c'' : Connection} {d : Direction}

theorem Kin.symm (h : Kin c c') : Kin c' c := ⟨h.flow.symm, h.opener.symm, h.stream.symm⟩

/-- The same conversation, with the same directions over. -/
structure Continues (c c' : Connection) : Prop where
  /-- The conversation, its opener and its stream are the same. -/
  kin : Kin c c'
  /-- The same directions are over. -/
  closed : ∀ d, (c'.half d).isClosed = (c.half d).isClosed

theorem Continues.refl (c : Connection) : Continues c c := ⟨.refl c, fun _ => rfl⟩

theorem Continues.trans (h : Continues c c') (h' : Continues c' c'') : Continues c c'' :=
  ⟨h.kin.trans h'.kin, fun d => (h'.closed d).trans (h.closed d)⟩

theorem Continues.isOver (h : Continues c c') : c'.isOver = c.isOver := by
  have hf := h.closed .forward
  have hr := h.closed .reverse
  simp only [half] at hf hr
  rw [Connection.isOver, Connection.isOver, hf, hr]

theorem continues_setHalf {h : HalfStream} (hh : h.isClosed = (c.half d).isClosed) :
    Continues c (c.setHalf d h) := by
  refine ⟨kin_setHalf c d h, fun e => ?_⟩
  by_cases he : d = e
  · subst he
    rw [half_setHalf, hh]
  · rw [half_setHalf_ne _ _ he]

theorem leap_eq (c : Connection) (d : Direction) : c.leap d = (c.leapIn d).andThen fun x =>
    if x.2 then { value := (x.1, true) } else x.1.leapIn d.opposite := rfl

theorem continues_leap (c : Connection) (d : Direction) : Continues c (c.leap d).value.1 := by
  have hleapIn : ∀ (c : Connection) (d : Direction),
      Continues c (c.setHalf d (c.half d).leap.value.1) :=
    fun c d => continues_setHalf (c.half d).leap_moves.direction.2.1
  cases hm : (c.half d).leap.value.2 with
  | true =>
      rw [(leap_of_moved hm).1]
      exact hleapIn c d
  | false =>
      rw [(leap_of_not_moved hm).1]
      exact (hleapIn c d).trans (hleapIn _ d.opposite)

theorem continues_relieve (c : Connection) (limit : Nat) (d : Direction) :
    Continues c (c.relieve limit d).value := by
  rw [relieve]
  generalize c.pageCount = fuel
  induction fuel generalizing c with
  | zero => exact .refl c
  | succ fuel ih =>
      rw [relieveWithin]
      split
      · have hleap := continues_leap c d
        cases hm : (c.leap d).value.2 with
        | true =>
            simp only [Yield.andThen, hm, if_true]
            exact hleap.trans (ih _)
        | false =>
            simp only [Yield.andThen, hm, Bool.false_eq_true, if_false]
            exact hleap
      · exact .refl c

/-- A connection that gives a page up sheds it. -/
theorem sheds_shed {y : Yield Connection} (hy : c.shed? = some y) : Sheds c y.value := by
  have hpos : 0 < c.pageCount := Nat.pos_of_ne_zero fun h => by
    rw [shed?_of_empty h] at hy
    cases hy
  obtain ⟨d, page, rest, notes, hp, -, hshed⟩ := shed?_of_pos hpos
  rw [hshed] at hy
  obtain rfl := Option.some.inj hy
  exact .head hp (.refl _)

theorem Sheds.continues (h : Sheds c c') : Continues c c' := by
  induction h with
  | refl c => exact .refl c
  | @head c _ d page rest _ _ ih =>
      exact (continues_setHalf (h := (c.half d).lose page rest) rfl).trans ih

/-- Closing a connection ends both directions. -/
theorem close_ends (c : Connection) : Kin c c.close.value ∧ c.close.value.isOver = true := by
  have hcloseIn : ∀ (c : Connection) (d : Direction), Kin c (c.closeIn d).value ∧
      ((c.closeIn d).value.half d).isClosed = true ∧
      ((c.closeIn d).value.half d.opposite).isClosed = (c.half d.opposite).isClosed := by
    intro c d
    refine ⟨kin_setHalf _ _ _, ?_, ?_⟩
    · show ((c.setHalf d (if _ then _ else _ : Yield HalfStream).value).half d).isClosed = true
      rw [half_setHalf]
      split
      · assumption
      · rfl
    · show ((c.setHalf d _).half d.opposite).isClosed = _
      rw [half_setHalf_ne _ _ d.opposite_ne.symm]
  rw [close_eq]
  obtain ⟨hkin, hforward, -⟩ := hcloseIn c .forward
  obtain ⟨hkin', hreverse, hother⟩ := hcloseIn (c.closeIn .forward).value .reverse
  exact ⟨hkin.trans hkin', Bool.and_eq_true_iff.2 ⟨hother.trans hforward, hreverse⟩⟩

end Connection

/-! ## Requests for pages -/

/-- What giving one page up keeps, reclaiming keeps. -/
theorem reclaim_keeps {α : Type} {R : α → α → Prop} {shed? : α → Option (Yield α)}
    (hrefl : ∀ a, R a a) (htrans : ∀ {a b c}, R a b → R b c → R a c)
    (hshed : ∀ {a y}, shed? a = some y → R a y.value) (remarks : List Note) (seq : SeqNum)
    (fuel : Nat) (a : α) (arena : Arena) :
    R a (reclaim shed? remarks seq fuel a arena).value := by
  induction fuel generalizing a arena with
  | zero => exact hrefl a
  | succ fuel ih =>
      rw [reclaim]
      cases hy : shed? a with
      | none => exact hrefl a
      | some y =>
          simp only
          cases (arena.giveAll y.freed).take? seq with
          | some out => exact hshed hy
          | none => exact htrans (hshed hy) (ih y.value _)

/-- The same activity of the same conversation, with the same directions over. -/
structure Entry.Continues (e e' : Entry) : Prop where
  /-- The connection continues. -/
  connection : Connection.Continues e.connection e'.connection
  /-- The time of its last activity is the same. -/
  lastUsed : e'.lastUsed = e.lastUsed
  /-- So is the tick. -/
  lastTick : e'.lastTick = e.lastTick

/-- **Those who are asked for a page give pages up**, whatever the arena says. -/
theorem sheds_evict (flow : FlowId) (locked : List FlowId) (seq : SeqNum) (entries : List Entry)
    (arena : Arena) :
    List.Forall₂ Entry.Sheds entries (evict flow locked seq entries arena).value := by
  induction entries generalizing arena with
  | nil => exact .nil
  | cons entry rest ih =>
      rw [evict]
      split
      · exact .cons (.refl entry) (ih arena)
      · have hclaim := reclaim_keeps .refl .trans Connection.sheds_shed
          [.evicted flow entry.flow] seq entry.connection.pageCount entry.connection arena
        simp only
        split
        · exact .cons ⟨_, rfl, hclaim⟩ (Work.sheds_refl rest)
        · exact .cons ⟨_, rfl, hclaim⟩ (ih _)

/-- What a request for a page comes to: the arena keeps blank pages, and hands a blank one out if any. -/
def Claim.Blank {α : Type} (seq : SeqNum) (claim : Claim α) : Prop :=
  claim.arena.Blank ∧ ∀ page, claim.page = some page → page = ⟨seq, []⟩

/-- A request in vain hands no page out. -/
theorem Claim.blank_of_none {α : Type} {seq : SeqNum} {claim : Claim α} (hb : claim.arena.Blank)
    (hnone : claim.page = none) : claim.Blank seq :=
  ⟨hb, fun _ hp => absurd (hnone.symm.trans hp) (Option.some_ne_none _).symm⟩

theorem blank_reclaim {α : Type} {arena : Arena} (hb : arena.Blank) (shed? : α → Option (Yield α))
    (remarks : List Note) (seq : SeqNum) (fuel : Nat) (a : α) :
    (reclaim shed? remarks seq fuel a arena).Blank seq := by
  induction fuel generalizing a arena with
  | zero => exact Claim.blank_of_none hb rfl
  | succ fuel ih =>
      rw [reclaim]
      cases shed? a with
      | none => exact Claim.blank_of_none hb rfl
      | some y =>
          have hgiven := hb.giveAll y.freed
          simp only
          cases ht : (arena.giveAll y.freed).take? seq with
          | none => exact ih hgiven y.value
          | some out =>
              obtain ⟨page, left⟩ := out
              obtain ⟨hpage, hleft⟩ := hgiven.take? ht
              exact ⟨hleft, fun q hq => (Option.some.inj hq).symm.trans hpage⟩

theorem blank_evict {arena : Arena} (hb : arena.Blank) (flow : FlowId) (locked : List FlowId)
    (seq : SeqNum) (entries : List Entry) : (evict flow locked seq entries arena).Blank seq := by
  induction entries generalizing arena with
  | nil => exact Claim.blank_of_none hb rfl
  | cons entry rest ih =>
      rw [evict]
      split
      · exact ih hb
      · have hclaim := blank_reclaim hb Connection.shed? [.evicted flow entry.flow] seq
          entry.connection.pageCount entry.connection
        simp only
        generalize reclaim Connection.shed? _ seq _ _ arena = claim at hclaim
        cases hp : claim.page with
        | some page => exact ⟨hclaim.1, fun q hq => hclaim.2 q (hp.trans hq)⟩
        | none => exact ih hclaim.1

theorem Entry.Sheds.continues {e e' : Entry} (h : e.Sheds e') : e.Continues e' := by
  obtain ⟨c, rfl, hsheds⟩ := h
  exact ⟨hsheds.continues, rfl, rfl⟩

/-! ## The work on a segment -/

namespace Work

variable {w w' w'' : Work} {limit : Nat} {locked : List FlowId} {d : Direction} {start : SeqNum}
  {payload : List UInt8} {segment : Segment}

/-- The connection of the segment is what it was, with the same directions over, and so are the others but
for pages given up. -/
structure Continues (w w' : Work) : Prop where
  /-- The connection of the segment continues. -/
  connection : Connection.Continues w.connection w'.connection
  /-- The others give pages up at most. -/
  entries : List.Forall₂ Entry.Sheds w.entries w'.entries

theorem Continues.refl (w : Work) : Continues w w := ⟨.refl _, sheds_refl _⟩

theorem Continues.trans (h : Continues w w') (h' : Continues w' w'') : Continues w w'' :=
  ⟨h.connection.trans h'.connection, sheds_trans h.entries h'.entries⟩

theorem continues_absorb {y : Yield Connection} (hy : Connection.Continues w.connection y.value) :
    Continues w (w.absorb y) := ⟨hy, sheds_refl _⟩

theorem continues_relieve (w : Work) (limit : Nat) (d : Direction) :
    Continues w (w.relieve limit d) :=
  continues_absorb (Connection.continues_relieve _ limit d)

theorem continues_onHalf {f : HalfStream → Yield HalfStream}
    (hf : (f (w.connection.half d)).value.isClosed = (w.connection.half d).isClosed) :
    Continues w (w.onHalf d f) := continues_absorb (Connection.continues_setHalf hf)

/-- A request for a page costs the others pages at most. -/
theorem entries_obtain (w : Work) (locked : List FlowId) (d : Direction) (seq : SeqNum) :
    List.Forall₂ Entry.Sheds w.entries (w.obtain locked d seq).1.entries := by
  rw [obtain]
  cases w.arena.take? seq with
  | some out => exact sheds_refl _
  | none =>
      simp only
      split
      · exact sheds_evict ..
      · exact sheds_evict ..

/-- It hands nothing on. -/
theorem chunks_obtain (w : Work) (locked : List FlowId) (d : Direction) (seq : SeqNum) :
    (w.obtain locked d seq).1.chunks = w.chunks := by
  rw [obtain]
  cases w.arena.take? seq with
  | some out => rfl
  | none =>
      simp only
      split <;> rfl

/-- Of the connection of the segment, it touches no more than the half-stream that the page is for. -/
theorem connection_obtain (w : Work) (locked : List FlowId) (d : Direction) (seq : SeqNum) :
    (w.obtain locked d seq).1.connection =
      w.connection.setHalf d ((w.obtain locked d seq).1.connection.half d) := by
  rw [obtain]
  cases w.arena.take? seq with
  | some out => exact (Connection.setHalf_half ..).symm
  | none =>
      simp only
      split
      · exact (Connection.setHalf_half ..).symm
      · rw [Connection.half_setHalf]

/-- **What giving the first page up keeps of that half-stream**, the request keeps, whatever the arena
says. -/
theorem obtain_keep {J : HalfStream → Prop}
    (hlose : ∀ {h page rest}, h.pages = page :: rest → J h → J (h.lose page rest)) (w : Work)
    (locked : List FlowId) (d : Direction) (seq : SeqNum) (h : J (w.connection.half d)) :
    J ((w.obtain locked d seq).1.connection.half d) := by
  rw [obtain]
  cases w.arena.take? seq with
  | some out => exact h
  | none =>
      simp only
      split
      · exact h
      · rw [Connection.half_setHalf]
        refine reclaim_keeps (R := fun h h' => J h → J h') (fun _ => id) (fun h h' => h' ∘ h) ?_
          _ _ _ _ _ h
        intro h y hy
        obtain ⟨page, rest, hpages, hvalue, -⟩ := HalfStream.shed?_some hy
        rw [hvalue]
        exact hlose hpages

/-- A request leaves blank pages in an arena that had such, and the page that it comes to is blank. -/
theorem obtain_blank (hb : w.arena.Blank) (locked : List FlowId) (d : Direction) (seq : SeqNum) :
    (w.obtain locked d seq).1.arena.Blank ∧
      ∀ page, (w.obtain locked d seq).2 = some page → page = ⟨seq, []⟩ := by
  rw [obtain]
  cases ht : w.arena.take? seq with
  | some out =>
      obtain ⟨page, left⟩ := out
      obtain ⟨hpage, hleft⟩ := hb.take? ht
      exact ⟨hleft, fun q hq => (Option.some.inj hq).symm.trans hpage⟩
  | none =>
      have hclaim := blank_evict hb w.connection.flow locked seq w.entries
      simp only
      generalize evict w.connection.flow locked seq w.entries w.arena = claim at hclaim
      cases hp : claim.page with
      | some page => exact ⟨hclaim.1, fun q hq => hclaim.2 q (hp.trans hq)⟩
      | none => exact blank_reclaim hclaim.1 HalfStream.shed? [] seq _ _

theorem continues_obtain (w : Work) (locked : List FlowId) (d : Direction) (seq : SeqNum) :
    Continues w (w.obtain locked d seq).1 := by
  refine ⟨?_, w.entries_obtain locked d seq⟩
  rw [connection_obtain]
  exact Connection.continues_setHalf
    (obtain_keep (J := fun h => h.isClosed = (w.connection.half d).isClosed) (fun _ => id) w locked d seq
      rfl)

theorem continues_store (ps : List Portion) (w : Work) :
    Continues w (store limit locked d start payload ps w) := by
  induction ps generalizing w with
  | nil => exact .refl w
  | cons p rest ih =>
      have hobtain := (continues_relieve w limit d).trans
        (continues_obtain (w.relieve limit d) locked d (start.advance p.span.start))
      rw [store]
      split
      · next w' heq =>
          rw [heq] at hobtain
          exact hobtain.trans (continues_onHalf rfl)
      · next w' page heq =>
          rw [heq] at hobtain
          exact (hobtain.trans (continues_onHalf rfl)).trans (ih _)

/-- **Working a segment in** for a direction that is open ends that direction if the segment closes it,
and no other. -/
theorem continues_accept (hopen : (w.connection.half d).isClosed = false) :
    Connection.Kin w.connection (w.accept limit locked d segment).connection ∧
      ((w.accept limit locked d segment).connection.half d).isClosed = segment.flags.closes ∧
      ((w.accept limit locked d segment).connection.half d.opposite).isClosed =
        (w.connection.half d.opposite).isClosed ∧
      List.Forall₂ Entry.Sheds w.entries (w.accept limit locked d segment).entries := by
  have harrived : Continues w (w.arrived d segment) :=
    continues_absorb (Connection.continues_setHalf
      (((arrive_keeps _ segment).2.2.1 hopen).trans hopen.symm))
  have hplaced : Continues w (w.placed limit locked d segment) := by
    rw [placed]
    refine harrived.trans ?_
    cases w.fit d segment with
    | empty | behind | covered => exact .refl _
    | inOrder offset =>
        refine continues_onHalf ?_
        rw [HalfStream.pass]
        split <;> rfl
    | ahead pieces => exact continues_store _ _
  have hsettled : Continues w (w.settled limit locked d segment) :=
    (hplaced.trans (continues_onHalf (HalfStream.drain_moves _).direction.2.1)).trans
      (continues_relieve _ limit d)
  have hd := (hsettled.connection.closed d).trans hopen
  have hother := hsettled.connection.closed d.opposite
  rw [accept_eq]
  cases hcloses : segment.flags.closes with
  | false => exact ⟨hsettled.connection.kin, hd, hother, hsettled.entries⟩
  | true =>
      refine ⟨hsettled.connection.kin.trans (Connection.kin_setHalf _ _ _), ?_, ?_, hsettled.entries⟩
      · rw [if_pos rfl, half_onHalf]
        rfl
      · rw [if_pos rfl, half_opposite_onHalf]
        exact hother

end Work

/-- **A segment that arrives** leaves its connection the conversation that it was, and the others as they
were but for pages given up.  It ends its own direction at most. -/
theorem Arrival.continues_work (a : Arrival) :
    Connection.Kin a.connection a.work.connection ∧
      (a.work.connection.half a.direction).isClosed =
        (a.half.isClosed || a.segment.flags.closes) ∧
      (a.work.connection.half a.direction.opposite).isClosed =
        (a.connection.half a.direction.opposite).isClosed ∧
      List.Forall₂ Entry.Sheds a.state.registry.entries a.work.entries := by
  cases hclosed : a.half.isClosed with
  | true =>
      obtain ⟨hconn, hentries, -, -⟩ := Arrival.work_of_closed hclosed
      rw [hconn, hentries]
      exact ⟨.refl _, hclosed, rfl, Work.sheds_refl _⟩
  | false =>
      rw [Arrival.work_of_open hclosed, Bool.false_or]
      exact Work.continues_accept (w := a.before) hclosed

end TcpStreams
