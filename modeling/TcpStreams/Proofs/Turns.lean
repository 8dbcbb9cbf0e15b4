import TcpStreams.Session

/-!
# Turns

Several parties work on the registries and arenas of a session, one at a time.  A turn is one call of
one of them: an action on a registry and an arena, or pages taken and given back directly.  The order of
the turns, their times, the settings of the reassemblers and the consumers that break down are all left
open; statements about every run of any number of reassemblers are statements about `Session.after` for
every list of turns.

* `Session.turn`: what a turn leads to.
* `Session.after`, `Session.reports`: the session after a list of turns, and what each of them led to.
* `Session.exists_turn`: every command of a session is a turn, or leaves registries, arenas and slots as
  they are.
-/

namespace TcpStreams

/-- What a party does when it is its turn. -/
inductive Deed where
  /-- A reassembler or another party performs an action on a registry and an arena. -/
  | act (registry arena : Nat) (action : Action)
  /-- A page is taken from an arena directly, into the next slot. -/
  | take (arena : Nat) (seq : SeqNum)
  /-- The pages of some slots are given to an arena directly. -/
  | give (arena : Nat) (slots : List Nat)

/-- One call of one party. -/
structure Turn where
  /-- The calls to consumers in which they would break down. -/
  fails : Event → Bool := fun _ => false
  /-- The time. -/
  now : Nat := 0
  /-- What is done. -/
  deed : Deed

/-- No consumer breaks down. -/
def Turn.Calm (turn : Turn) : Prop := ∀ event, turn.fails event = false

/-- A turn of a reassembler that works in a segment which one port of a host sends to another, for a
registry, with the first arena. -/
def Turn.ofSegment (registry : Nat) (srcPort dstPort : UInt16) (seq : Nat) (flags : Flags)
    (payload : List UInt8) : Turn where
  deed := .act registry 0
    (.receive {} [] ⟨.v4 1, .v4 1⟩ { srcPort, dstPort, seq := .ofNat seq, flags, payload })

/-- The deed names a registry and an arena that exist, out of so many. -/
def Deed.Within (registries arenas : Nat) : Deed → Prop
  | act registry arena _ => registry < registries ∧ arena < arenas
  | take arena _ | give arena _ => arena < arenas

instance (registries arenas : Nat) : ∀ deed : Deed, Decidable (deed.Within registries arenas)
  | .act .. => inferInstanceAs (Decidable (_ ∧ _))
  | .take .. => inferInstanceAs (Decidable (_ < _))
  | .give .. => inferInstanceAs (Decidable (_ < _))

namespace Session

/-- What a turn leads to. -/
def turn (s : Session) (t : Turn) : Report :=
  match t.deed with
  | .act registry arena action =>
    ({ s with timeline := { s.timeline with now := t.now } } : Session).perform t.fails registry arena
      action
  | .take arena seq => s.takePage arena seq
  | .give arena slots =>
    let (session, count) := s.givePages arena slots
    { session, reply := .number count }

/-- The report about an action on a registry and an arena at a time, from its outcome. -/
def report (s : Session) (registry arena now : Nat) (o : Outcome Answer) : Report where
  session :=
    { s with
      registries := s.registries.set registry o.state.registry
      arenas := s.arenas.set arena o.state.arena
      nextStream := o.state.nextStream
      timeline := { s.timeline with now } }
  reply :=
    match o.result with
    | .ok answer => answer.reply
    | .error call => .failed call
  events := o.events
  notes := o.notes

theorem turn_act (s : Session) (fails : Event → Bool) (now registry arena : Nat) (action : Action) :
    s.turn { fails, now, deed := .act registry arena action } =
      s.report registry arena now ((s.state registry arena).perform fails now action) := rfl

/-- An action changes one registry. -/
theorem registry_report_of_lt (s : Session) {i : Nat} (hlt : i < s.registries.length) (arena now : Nat)
    (o : Outcome Answer) (r : Nat) :
    (s.report i arena now o).session.registry r = if r = i then o.state.registry else s.registry r := by
  simp only [report, Session.registry, List.getD_eq_getElem?_getD]
  split
  · next hr =>
      rw [hr, List.getElem?_set_self hlt]
      rfl
  · next hr => rw [List.getElem?_set_ne (Ne.symm hr)]

/-- If it is there. -/
theorem registry_report (s : Session) (i arena now : Nat) (o : Outcome Answer) (r : Nat) :
    (r = i ∧ (s.report i arena now o).session.registry r = o.state.registry) ∨
      (s.registry r = {} ∧ (s.report i arena now o).session.registry r = {}) ∨
      r ≠ i ∧ (s.report i arena now o).session.registry r = s.registry r := by
  by_cases hlt : i < s.registries.length
  · have hreport := s.registry_report_of_lt hlt arena now o r
    split at hreport
    · next hr => exact Or.inl ⟨hr, hreport⟩
    · next hr => exact Or.inr (Or.inr ⟨hr, hreport⟩)
  · have hsame : (s.report i arena now o).session.registry r = s.registry r :=
      congrArg (fun rs => rs.getD r {}) (List.set_eq_of_length_le (Nat.le_of_not_lt hlt))
    by_cases hr : r = i
    · have hnone : s.registry r = {} := by
        rw [Session.registry, hr, List.getD_eq_getElem?_getD,
          List.getElem?_eq_none (Nat.le_of_not_lt hlt)]
        rfl
      exact Or.inr (Or.inl ⟨hnone, hsame.trans hnone⟩)
    · exact Or.inr (Or.inr ⟨hr, hsame⟩)

/-- And one arena. -/
theorem arena_report_ne (s : Session) (registry now : Nat) (o : Outcome Answer) {arena i : Nat}
    (hi : i ≠ arena) : (s.report registry arena now o).session.arena i = s.arena i := by
  simp only [report, Session.arena, List.getD_eq_getElem?_getD]
  rw [List.getElem?_set_ne (Ne.symm hi)]

/-- Pages that are given back or taken directly are nothing to the registries. -/
theorem givePages_keeps (arena : Nat) (slots : List Nat) (s : Session) :
    (s.givePages arena slots).1.registries = s.registries ∧
      (s.givePages arena slots).1.nextStream = s.nextStream := by
  induction slots generalizing s with
  | nil => exact ⟨rfl, rfl⟩
  | cons slot rest ih =>
      rw [givePages]
      cases s.slots.getD slot none with
      | none => exact ih s
      | some page => exact ih _

theorem takePage_keeps (arena : Nat) (seq : SeqNum) (s : Session) :
    (s.takePage arena seq).session.registries = s.registries ∧
      (s.takePage arena seq).session.nextStream = s.nextStream ∧ (s.takePage arena seq).events = [] := by
  rw [takePage]
  cases (s.arena arena).take? seq with
  | none => exact ⟨rfl, rfl, rfl⟩
  | some out => exact ⟨rfl, rfl, rfl⟩

/-- **To a registry a turn is an action on it, or nothing.** -/
theorem registry_turn (s : Session) (t : Turn) (r : Nat) :
    (∃ arena action, t.deed = .act r arena action ∧ (s.turn t).session.registry r =
      ((s.state r arena).perform t.fails t.now action).state.registry) ∨
      (s.turn t).session.registry r = s.registry r := by
  obtain ⟨fails, now, deed⟩ := t
  cases deed with
  | act i arena action =>
      rw [turn_act]
      rcases s.registry_report i arena now ((s.state i arena).perform fails now action) r with
        ⟨rfl, hacted⟩ | ⟨hnone, hsame⟩ | ⟨-, hsame⟩
      · exact Or.inl ⟨arena, action, rfl, hacted⟩
      · exact Or.inr (hsame.trans hnone.symm)
      · exact Or.inr hsame
  | take arena seq =>
      exact Or.inr (congrArg (fun rs => rs.getD r {}) (s.takePage_keeps arena seq).1)
  | give arena slots =>
      exact Or.inr (congrArg (fun rs => rs.getD r {}) (givePages_keeps arena slots s).1)

/-- The session after a list of turns. -/
def after (s : Session) : List Turn → Session
  | [] => s
  | t :: rest => (s.turn t).session.after rest

/-- What each of a list of turns led to. -/
def reports (s : Session) : List Turn → List Report
  | [] => []
  | t :: rest => s.turn t :: (s.turn t).session.reports rest

/-- A session with so many registries and arenas of the given ceilings, before the first turn. -/
def fresh (registries : Nat) (ceilings : List Nat) : Session where
  registries := List.replicate registries {}
  arenas := ceilings.map Arena.ofCeiling

/-- **Every command of a session is a turn**, or leaves the registries, the arenas and the slots as they
are and lets no consumer see anything. -/
theorem exists_turn (s : Session) (fails : Event → Bool) (command : Command) :
    (∃ deed, s.execute fails command = s.turn { fails, now := s.timeline.now, deed }) ∨
      (s.execute fails command).session.registries = s.registries ∧
        (s.execute fails command).session.arenas = s.arenas ∧
        (s.execute fails command).session.slots = s.slots ∧
        (s.execute fails command).events = [] := by
  -- an action of a reassembler is performed on its registry and its arena
  have hacts : ∀ i (action : Config → Action),
      (∃ deed, s.performAs fails i action = s.turn { fails, now := s.timeline.now, deed }) ∨
        s.performAs fails i action = { session := s } := by
    intro i action
    rw [performAs]
    cases s.reassemblers[i]? with
    | none => exact Or.inr rfl
    | some r => exact Or.inl ⟨.act r.registry r.arena (action r.config), rfl⟩
  have hsame : ∀ report : Report, report = { session := s } →
      report.session.registries = s.registries ∧
      report.session.arenas = s.arenas ∧ report.session.slots = s.slots ∧ report.events = [] := by
    rintro report rfl
    exact ⟨rfl, rfl, rfl, rfl⟩
  cases command with
  | receive r locked path segment =>
      exact (hacts r fun config => .receive config locked path segment).imp_right (hsame _)
  | flushAll r order => exact (hacts r fun _ => .flushAll order).imp_right (hsame _)
  | flushOlder r mark =>
      exact (hacts r fun _ => .flushBefore (s.timeline.timeOf mark)).imp_right (hsame _)
  | flushIdle r => exact (hacts r .flushIdle).imp_right (hsame _)
  | lookUp i flow src => exact Or.inl ⟨.act i 0 (.lookUp flow src), rfl⟩
  | remove i arena flow => exact Or.inl ⟨.act i arena (.remove flow), rfl⟩
  | takePage arena seq => exact Or.inl ⟨.take arena seq, rfl⟩
  | givePages arena slots => exact Or.inl ⟨.give arena slots, rfl⟩
  | _ => exact Or.inr ⟨rfl, rfl, rfl, rfl⟩

end Session
end TcpStreams
