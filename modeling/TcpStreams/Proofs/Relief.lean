import TcpStreams.Proofs.Moves

/-!
# Connections that move on

What a connection does of its own accord it does half-stream by half-stream, and for each of them it
is a sequence of moves.

* `Connection.Onward`: a step of a connection that is a sequence of moves in either direction.
* `Connection.relieve_onward`, `Connection.close_moves`: relieving and closing are such steps.
* `Connection.pageCount_relieve`: after relief fewer pages wait than the limit.
* `Connection.relieve_at_limit`: a connection at its limit leaps once.
-/

namespace TcpStreams

/-- The chunks of a direction. -/
def Chunk.ofDirection (d : Direction) (cs : List Chunk) : List Chunk :=
  cs.filter fun c => c.direction = d

namespace Chunk

variable {d : Direction} {cs cs' : List Chunk}

theorem ofDirection_nil : ofDirection d [] = [] := rfl

theorem ofDirection_append : ofDirection d (cs ++ cs') = ofDirection d cs ++ ofDirection d cs' :=
  List.filter_append ..

theorem ofDirection_eq_self (h : ∀ c ∈ cs, c.direction = d) : ofDirection d cs = cs :=
  List.filter_eq_self.2 fun c hc => decide_eq_true (h c hc)

theorem ofDirection_eq_nil {d' : Direction} (h : ∀ c ∈ cs, c.direction = d) (hne : d ≠ d') :
    ofDirection d' cs = [] :=
  List.filter_eq_nil_iff.2 fun c hc => by
    rw [h c hc, decide_eq_true_eq]
    exact hne

end Chunk

namespace Connection

open HalfStream (Move Moves)

variable {c c' c'' : Connection} {d d' : Direction} {leaps : Bool} {cs cs' : List Chunk}

/-! ## Half-streams of a connection -/

theorem half_setHalf (c : Connection) (d : Direction) (h : HalfStream) :
    (c.setHalf d h).half d = h := by
  cases d <;> rfl

theorem half_setHalf_ne (c : Connection) (h : HalfStream) (hne : d ≠ d') :
    (c.setHalf d h).half d' = c.half d' := by
  cases d <;> cases d' <;> first | rfl | exact absurd rfl hne

theorem setHalf_half (c : Connection) (d : Direction) : c.setHalf d (c.half d) = c := by
  cases d <;> rfl

theorem flow_setHalf (c : Connection) (d : Direction) (h : HalfStream) :
    (c.setHalf d h).flow = c.flow := by
  cases d <;> rfl

theorem stream_setHalf (c : Connection) (d : Direction) (h : HalfStream) :
    (c.setHalf d h).stream = c.stream := by
  cases d <;> rfl

theorem opener_setHalf (c : Connection) (d : Direction) (h : HalfStream) :
    (c.setHalf d h).opener = c.opener := by
  cases d <;> rfl

theorem pageCount_eq (c : Connection) (d : Direction) :
    c.pageCount = (c.half d).pageCount + (c.half d.opposite).pageCount := by
  cases d
  · rfl
  · exact Nat.add_comm ..

theorem pageCount_setHalf (c : Connection) (d : Direction) (h : HalfStream) :
    (c.setHalf d h).pageCount = h.pageCount + (c.half d.opposite).pageCount := by
  rw [pageCount_eq _ d, half_setHalf, half_setHalf_ne _ _ d.opposite_ne.symm]

theorem ne_iff_eq_opposite : d ≠ d' ↔ d' = d.opposite := by
  cases d <;> cases d' <;> decide

/-! ## Steps that are moves in either direction -/

/-- The half-streams of a connection know their directions. -/
def Sided (c : Connection) : Prop := ∀ d, (c.half d).direction = d

/-- Two states of one conversation. -/
structure Kin (c c' : Connection) : Prop where
  /-- It is the same conversation. -/
  flow : c'.flow = c.flow
  /-- It has the same opener. -/
  opener : c'.opener = c.opener
  /-- Its data goes to the same stream. -/
  stream : c'.stream = c.stream

theorem Kin.refl (c : Connection) : Kin c c := ⟨rfl, rfl, rfl⟩

theorem Kin.trans (h : Kin c c') (h' : Kin c' c'') : Kin c c'' :=
  ⟨h'.flow.trans h.flow, h'.opener.trans h.opener, h'.stream.trans h.stream⟩

theorem kin_setHalf (c : Connection) (d : Direction) (h : HalfStream) : Kin c (c.setHalf d h) :=
  ⟨flow_setHalf c d h, opener_setHalf c d h, stream_setHalf c d h⟩

/-- A step of a connection that is a sequence of moves in either direction. -/
structure Onward (leaps : Bool) (c : Connection) (cs : List Chunk) (c' : Connection) : Prop where
  /-- The conversation is the same. -/
  kin : Kin c c'
  /-- In either direction the step is a sequence of moves. -/
  moves : ∀ d, Moves leaps (c.half d) (Chunk.ofDirection d cs) (c'.half d)

namespace Onward

theorem refl (c : Connection) : Onward leaps c [] c := ⟨.refl c, fun _ => .refl _⟩

theorem trans (h : Onward leaps c cs c') (h' : Onward leaps c' cs' c'') :
    Onward leaps c (cs ++ cs') c'' := by
  refine ⟨h.kin.trans h'.kin, ?_⟩
  intro d
  rw [Chunk.ofDirection_append]
  exact (h.moves d).trans (h'.moves d)

theorem sided (h : Onward leaps c cs c') (hs : Sided c) : Sided c' :=
  fun d => (h.moves d).direction.1.trans (hs d)

/-- Moves in one direction are such a step. -/
theorem setHalf (hs : Sided c) {h' : HalfStream} (hm : Moves leaps (c.half d) cs h') :
    Onward leaps c cs (c.setHalf d h') := by
  refine ⟨kin_setHalf c d h', ?_⟩
  intro e
  have hcs : ∀ k ∈ cs, k.direction = d := by
    intro k hk
    rw [hm.direction.2.2 k hk, hs d]
  by_cases he : d = e
  · subst he
    rw [Chunk.ofDirection_eq_self hcs, half_setHalf]
    exact hm
  · rw [Chunk.ofDirection_eq_nil hcs he, half_setHalf_ne _ _ he]
    exact .refl _

end Onward

/-- A leap in one direction. -/
def leapIn (c : Connection) (d : Direction) : Yield (Connection × Bool) :=
  (c.half d).leap.map fun (h, moved) => (c.setHalf d h, moved)

theorem leapIn_value (c : Connection) (d : Direction) : (c.leapIn d).value =
    (c.setHalf d (c.half d).leap.value.1, (c.half d).leap.value.2) := rfl

theorem leap_of_moved (h : (c.half d).leap.value.2 = true) :
    (c.leap d).value = (c.setHalf d (c.half d).leap.value.1, true) ∧
      (c.leap d).chunks = (c.half d).leap.chunks := by
  simp only [leap, Yield.andThen, Yield.map, h, if_true, List.append_nil, and_self]

theorem leap_of_not_moved (h : (c.half d).leap.value.2 = false) :
    let c' := c.setHalf d (c.half d).leap.value.1
    (c.leap d).value = (c'.leapIn d.opposite).value ∧
      (c.leap d).chunks = (c.half d).leap.chunks ++ (c'.leapIn d.opposite).chunks := by
  simp only [leap, leapIn, Yield.andThen, Yield.map, h, Bool.false_eq_true, if_false, and_self]

theorem leap_onward (hs : Sided c) (d : Direction) :
    Onward true c (c.leap d).chunks (c.leap d).value.1 := by
  have hfirst := Onward.setHalf hs (c.half d).leap_moves
  cases hm : (c.half d).leap.value.2 with
  | true =>
      obtain ⟨hv, hc⟩ := leap_of_moved hm
      rw [hv, hc]
      exact hfirst
  | false =>
      obtain ⟨hv, hc⟩ := leap_of_not_moved hm
      rw [hv, hc]
      exact hfirst.trans (Onward.setHalf (hfirst.sided hs) (HalfStream.leap_moves _))

/-- Relieving a connection is a sequence of moves in either direction. -/
theorem relieve_onward (hs : Sided c) (limit : Nat) (d : Direction) :
    Onward true c (c.relieve limit d).chunks (c.relieve limit d).value := by
  rw [relieve]
  generalize c.pageCount = fuel
  induction fuel generalizing c with
  | zero => exact .refl c
  | succ fuel ih =>
      rw [relieveWithin]
      split
      · have hleap := leap_onward hs d
        cases hm : (c.leap d).value.2 with
        | true =>
            simp only [Yield.andThen, hm, if_true]
            exact hleap.trans (ih (hleap.sided hs))
        | false =>
            simp only [Yield.andThen, hm, Bool.false_eq_true, if_false, List.append_nil]
            exact hleap
      · exact .refl c

/-- What every leap of a half-stream keeps, relief of its connection keeps. -/
theorem relieve_keep {J : HalfStream → Prop} (hJ : ∀ h, J h → J h.leap.value.1)
    (limit : Nat) (d e : Direction) (h : J (c.half e)) :
    J ((c.relieve limit d).value.half e) := by
  -- a leap in one direction
  have hleapIn : ∀ (c : Connection) (d : Direction), J (c.half e) →
      J ((c.setHalf d (c.half d).leap.value.1).half e) := by
    intro c d h
    by_cases hd : d = e
    · subst hd
      rw [half_setHalf]
      exact hJ _ h
    · rw [half_setHalf_ne _ _ hd]
      exact h
  have hleap : ∀ c : Connection, J (c.half e) → J ((c.leap d).value.1.half e) := by
    intro c h
    cases hm : (c.half d).leap.value.2 with
    | true =>
        rw [(leap_of_moved hm).1]
        exact hleapIn c d h
    | false =>
        rw [(leap_of_not_moved hm).1, leapIn_value]
        exact hleapIn _ _ (hleapIn c d h)
  rw [relieve]
  generalize c.pageCount = fuel
  induction fuel generalizing c with
  | zero => exact h
  | succ fuel ih =>
      rw [relieveWithin]
      split
      · cases hm : (c.leap d).value.2 with
        | true =>
            simp only [Yield.andThen, hm, if_true]
            exact ih (hleap c h)
        | false =>
            simp only [Yield.andThen, hm, Bool.false_eq_true, if_false]
            exact hleap c h
      · exact h

/-! ## The number of pages -/

/-- A leap takes a page away if there is one, and all of them if it comes to nothing. -/
theorem pageCount_leap (c : Connection) (d : Direction) (hpos : 0 < c.pageCount) :
    (c.leap d).value.1.pageCount < c.pageCount ∧
      ((c.leap d).value.2 = false → (c.leap d).value.1.pageCount = 0) := by
  rw [pageCount_eq c d] at hpos ⊢
  obtain ⟨hlt, hzero⟩ := (c.half d).pageCount_leap
  cases hm : (c.half d).leap.value.2 with
  | true =>
      rw [(leap_of_moved hm).1, pageCount_setHalf]
      refine ⟨?_, nofun⟩
      have : 0 < (c.half d).pageCount := by
        by_contra hc
        have hnil : (c.half d).pages = [] := List.eq_nil_of_length_eq_zero (by
          rw [HalfStream.pageCount] at hc
          omega)
        rw [(HalfStream.leap_of_nil hnil).1] at hm
        cases hm
      have := hlt this
      omega
  | false =>
      obtain ⟨hlt', hzero'⟩ := (c.half d.opposite).pageCount_leap
      have hhalf : (c.setHalf d (c.half d).leap.value.1).half d.opposite = c.half d.opposite :=
        half_setHalf_ne _ _ d.opposite_ne.symm
      rw [(leap_of_not_moved hm).1]
      rw [leapIn_value, hhalf, pageCount_setHalf, Direction.opposite_opposite, half_setHalf, hzero hm]
      refine ⟨?_, fun hm' => by rw [hzero' hm']⟩
      by_cases hopp : 0 < (c.half d.opposite).pageCount
      · have := hlt' hopp
        omega
      · have hle := (HalfStream.leap_moves (c.half d.opposite)).pageCount_le
        omega

/-- **After relief fewer pages wait than the limit.** -/
theorem pageCount_relieve (c : Connection) {limit : Nat} (d : Direction) (hlimit : 0 < limit) :
    (c.relieve limit d).value.pageCount < limit := by
  rw [relieve]
  generalize hfuel : c.pageCount = fuel
  replace hfuel : c.pageCount ≤ fuel := Nat.le_of_eq hfuel
  induction fuel generalizing c with
  | zero =>
      rw [relieveWithin]
      exact Nat.lt_of_le_of_lt hfuel hlimit
  | succ fuel ih =>
      rw [relieveWithin]
      split
      case isTrue hle =>
        obtain ⟨hlt, hzero⟩ := pageCount_leap c d (Nat.lt_of_lt_of_le hlimit hle)
        cases hm : (c.leap d).value.2 with
        | true =>
            simp only [Yield.andThen, hm, if_true]
            exact ih (c.leap d).value.1 (by omega)
        | false =>
            simp only [Yield.andThen, hm, Bool.false_eq_true, if_false]
            exact Nat.lt_of_le_of_lt (Nat.le_of_eq (hzero hm)) hlimit
      case isFalse hlt => exact Nat.lt_of_not_le hlt

theorem relieve_of_lt {limit : Nat} (d : Direction) (hlt : c.pageCount < limit) :
    c.relieve limit d = { value := c } := by
  rw [relieve]
  cases c.pageCount with
  | zero => rfl
  | succ fuel =>
      rw [relieveWithin, if_neg]
      omega

/-- A connection that has reached its limit leaps once. -/
theorem relieve_at_limit {limit : Nat} (hcount : c.pageCount = limit)
    (hm : (c.half d).leap.value.2 = true) :
    (c.relieve limit d).value = c.setHalf d (c.half d).leap.value.1 ∧
      (c.relieve limit d).chunks = (c.half d).leap.chunks := by
  obtain ⟨hv, hc⟩ := leap_of_moved hm
  rw [relieve]
  cases hfuel : c.pageCount with
  | zero =>
      have hnil : (c.half d).pages = [] := List.eq_nil_of_length_eq_zero (by
        rw [pageCount_eq c d, HalfStream.pageCount] at hfuel
        omega)
      rw [(HalfStream.leap_of_nil hnil).1] at hm
      cases hm
  | succ fuel =>
      have hlt := (pageCount_leap c d (by omega)).1
      rw [relieveWithin, if_pos (Nat.le_of_eq hcount.symm)]
      simp only [Yield.andThen, hv, hc, if_true]
      rw [hv] at hlt
      -- one leap is enough, so the rest of the relief does nothing
      have hrest : relieveWithin limit d fuel (c.setHalf d (c.half d).leap.value.1)
          = { value := c.setHalf d (c.half d).leap.value.1 } := by
        cases fuel with
        | zero => rfl
        | succ fuel =>
            rw [relieveWithin, if_neg]
            simp only at hlt
            omega
      rw [hrest, List.append_nil]
      exact ⟨rfl, rfl⟩

/-! ## What holds of every connection -/

/-- What holds of a connection from its opening on, where `ceiling` pages may be out at once. -/
structure Sane (ceiling : Nat) (c : Connection) : Prop where
  /-- The half-streams know their directions. -/
  sided : c.Sided
  /-- Without a page to hand out, nothing waits. -/
  paged : ceiling = 0 → c.pageCount = 0
  /-- Nothing waits in a direction that is over. -/
  closed : ∀ d, (c.half d).isClosed = true → (c.half d).pages = []

/-- What holds of it wherever its pages come from. -/
structure Consistent (c : Connection) : Prop where
  /-- The half-streams know their directions. -/
  sided : c.Sided
  /-- Nothing waits in a direction that is over. -/
  closed : ∀ d, (c.half d).isClosed = true → (c.half d).pages = []

variable {ceiling : Nat}

theorem Sane.consistent (hs : c.Sane ceiling) : c.Consistent := ⟨hs.sided, hs.closed⟩

theorem Consistent.sane (hc : c.Consistent) (hpos : 0 < ceiling) : c.Sane ceiling :=
  ⟨hc.sided, fun hzero => absurd hzero (Nat.ne_of_gt hpos), hc.closed⟩

theorem sane_new (flow : FlowId) (opener : Endpoint) (stream openedAt : Nat) :
    (new flow opener stream openedAt).Sane ceiling := by
  refine ⟨?_, fun _ => rfl, ?_⟩
  · intro d
    cases d <;> rfl
  · intro d _
    cases d <;> rfl

theorem consistent_new (flow : FlowId) (opener : Endpoint) (stream openedAt : Nat) :
    (new flow opener stream openedAt).Consistent :=
  (sane_new flow opener stream openedAt : Sane 1 _).consistent

/-- A half-stream may be replaced by one that holds no more pages than it may. -/
theorem Sane.setHalf (hs : c.Sane ceiling) {h : HalfStream} (hdir : h.direction = d)
    (hpaged : ceiling = 0 → h.pageCount ≤ (c.half d).pageCount)
    (hclosed : h.isClosed = true → h.pages = []) : (c.setHalf d h).Sane ceiling := by
  refine ⟨?_, ?_, ?_⟩
  · intro e
    by_cases he : d = e
    · subst he
      rw [half_setHalf]
      exact hdir
    · rw [half_setHalf_ne _ _ he]
      exact hs.sided e
  · intro hzero
    have h₁ := hpaged hzero
    have h₂ := hs.paged hzero
    rw [pageCount_eq c d] at h₂
    rw [pageCount_setHalf]
    omega
  · intro e
    by_cases he : d = e
    · subst he
      rw [half_setHalf]
      exact hclosed
    · rw [half_setHalf_ne _ _ he]
      exact hs.closed e

theorem Onward.sane (h : Onward leaps c cs c') (hs : c.Sane ceiling) : c'.Sane ceiling := by
  refine ⟨h.sided hs.sided, ?_, ?_⟩
  · intro hzero
    have h₁ := hs.paged hzero
    have h₂ := (h.moves .forward).pageCount_le
    have h₃ := (h.moves .reverse).pageCount_le
    rw [pageCount_eq _ .forward] at h₁ ⊢
    simp only [Direction.opposite] at h₁ ⊢
    omega
  · intro d hc
    rw [(h.moves d).direction.2.1] at hc
    have hle := (h.moves d).pageCount_le
    rw [HalfStream.pageCount, HalfStream.pageCount, hs.closed d hc] at hle
    exact List.eq_nil_of_length_eq_zero (Nat.eq_zero_of_le_zero hle)

/-! ## Closing -/

/-- Ends the half-stream of a direction if it is still open. -/
def closeIn (c : Connection) (d : Direction) : Yield Connection :=
  c.onHalf d fun h => if h.isClosed then { value := h } else h.close

theorem close_eq (c : Connection) :
    c.close = (c.closeIn .forward).andThen fun c => c.closeIn .reverse := rfl

/-- A connection that is over is over in both directions. -/
theorem isClosed_of_isOver (hover : c.isOver = true) (d : Direction) :
    (c.half d).isClosed = true := by
  obtain ⟨hforward, hreverse⟩ := Bool.and_eq_true_iff.1 hover
  cases d with
  | forward => exact hforward
  | reverse => exact hreverse

/-- Closing does nothing to a connection that is over. -/
theorem close_of_isOver (hover : c.isOver = true) : c.close = { value := c } := by
  have hcloseIn : ∀ d, c.closeIn d = { value := c } := fun d => by
    simp only [closeIn, onHalf, isClosed_of_isOver hover d, if_true, Yield.map, setHalf_half]
  rw [close_eq, Yield.andThen, hcloseIn .forward, hcloseIn .reverse]
  rfl

/-- Closing one direction: moves after which no page waits, and then the end. -/
theorem closeIn_moves (d : Direction) (hclosed : (c.half d).isClosed = true → (c.half d).pages = []) :
    ∃ h', Moves true (c.half d) (c.closeIn d).chunks h' ∧ h'.pages = [] ∧
      (c.closeIn d).value = c.setHalf d { h' with phase := .closed } := by
  cases hc : (c.half d).isClosed with
  | true =>
      have hphase : (c.half d).phase = .closed := by
        rw [HalfStream.isClosed, Phase.isClosed, beq_iff_eq] at hc
        exact hc
      refine ⟨c.half d, ?_, hclosed hc, ?_⟩
      · simp only [closeIn, onHalf, hc, if_true, Yield.map]
        exact .refl _
      · simp only [closeIn, onHalf, hc, if_true, Yield.map, ← hphase]
  | false =>
      obtain ⟨h', hm, hp, hv⟩ := (c.half d).close_moves
      refine ⟨h', ?_, hp, ?_⟩
      · simp only [closeIn, onHalf, hc, Bool.false_eq_true, if_false, Yield.map]
        exact hm
      · simp only [closeIn, onHalf, hc, Bool.false_eq_true, if_false, Yield.map, hv]

/-- **Closing a connection is a sequence of moves in either direction, and then the end.** -/
theorem close_moves (hs : c.Sane ceiling) : Kin c c.close.value ∧ c.close.value.Sane ceiling ∧
    ∀ d, ∃ h', Moves true (c.half d) (Chunk.ofDirection d c.close.chunks) h' ∧ h'.pages = [] ∧
      c.close.value.half d = { h' with phase := .closed } := by
  obtain ⟨f, hmf, hpf, hvf⟩ := @closeIn_moves c .forward (hs.closed _)
  have hother : (c.closeIn .forward).value.half .reverse = c.half .reverse := by
    rw [hvf]
    rfl
  obtain ⟨r, hmr, hpr, hvr⟩ :=
    @closeIn_moves (c.closeIn .forward).value .reverse (hother ▸ hs.closed _)
  rw [hother] at hmr
  have hcsf : ∀ k ∈ (c.closeIn .forward).chunks, k.direction = .forward :=
    fun k hk => (hmf.direction.2.2 k hk).trans (hs.sided .forward)
  have hcsr : ∀ k ∈ ((c.closeIn .forward).value.closeIn .reverse).chunks, k.direction = .reverse :=
    fun k hk => (hmr.direction.2.2 k hk).trans (hs.sided .reverse)
  have hvalue : c.close.value = (c.setHalf .forward { f with phase := .closed }).setHalf .reverse
      { r with phase := .closed } := by
    rw [close_eq, Yield.andThen, hvr, hvf]
  have hchunks : c.close.chunks = (c.closeIn .forward).chunks ++
      ((c.closeIn .forward).value.closeIn .reverse).chunks := rfl
  refine ⟨?_, ?_, ?_⟩
  · rw [hvalue]
    exact (kin_setHalf _ _ _).trans (kin_setHalf _ _ _)
  · have hzero : ∀ {h : HalfStream}, h.pages = [] → HalfStream.pageCount { h with phase := .closed } = 0 :=
      fun hp => by rw [HalfStream.pageCount, hp, List.length_nil]
    have hfirst : (c.setHalf .forward { f with phase := .closed }).Sane ceiling :=
      hs.setHalf (hmf.direction.1.trans (hs.sided .forward))
        (fun _ => (hzero hpf).symm ▸ Nat.zero_le _) (fun _ => hpf)
    rw [hvalue]
    exact hfirst.setHalf (hmr.direction.1.trans (hs.sided .reverse))
      (fun _ => (hzero hpr).symm ▸ Nat.zero_le _) (fun _ => hpr)
  · intro d
    rw [hvalue, hchunks, Chunk.ofDirection_append]
    cases d with
    | forward =>
        rw [Chunk.ofDirection_eq_self hcsf, Chunk.ofDirection_eq_nil hcsr Direction.forward.opposite_ne, List.append_nil]
        exact ⟨f, hmf, hpf, rfl⟩
    | reverse =>
        rw [Chunk.ofDirection_eq_nil hcsf Direction.reverse.opposite_ne, Chunk.ofDirection_eq_self hcsr, List.nil_append]
        exact ⟨r, hmr, hpr, rfl⟩

/-- Nothing waits in a connection that was closed. -/
theorem pageCount_close (hs : c.Sane ceiling) : c.close.value.pageCount = 0 := by
  obtain ⟨-, -, hhalf⟩ := close_moves hs
  obtain ⟨f, -, hf, hvf⟩ := hhalf .forward
  obtain ⟨r, -, hr, hvr⟩ := hhalf .reverse
  rw [pageCount_eq _ .forward]
  simp [HalfStream.pageCount, Direction.opposite, hvf, hvr, hf, hr]

end Connection
end TcpStreams
