import Mathlib.Data.List.Basic
import Mathlib.Logic.Function.Basic
import TcpStreams.Event

/-!
# Rolls

Who has which stream.  A roll says for every place — a conversation, or a conversation of one of several
registries — which stream lives there, and which number the next one gets.  It admits four kinds of steps:
a stream begins, is handed chunks, is handed chunks and concluded, or is removed.

* `Roll.Step`, `Roll.Run`: the steps that a roll admits, with the incidents that they make.
* `Life`: the incidents in the life of one stream, from its beginning to its end.
* `Roll.Run.chronicle`: along every run every stream leads such a life, and the roll says where it lives.
-/

namespace TcpStreams

/-- An incident in the life of a stream. -/
inductive Incident (P : Type) where
  /-- It begins. -/
  | opened (place : P) (stream : Nat)
  /-- It is handed chunks; there may be none. -/
  | delivered (place : P) (stream : Nat) (chunks : List Delivery)
  /-- It is over. -/
  | completed (place : P) (stream : Nat)
  /-- It is taken out unfinished. -/
  | removed (place : P) (stream : Nat)
deriving DecidableEq

variable {P Q : Type}

namespace Incident

/-- The stream that an incident is about. -/
def stream : Incident P → Nat
  | opened _ n | delivered _ n _ | completed _ n | removed _ n => n

/-- The incident at a place that goes by another name. -/
def map (f : P → Q) : Incident P → Incident Q
  | opened p n => .opened (f p) n
  | delivered p n ds => .delivered (f p) n ds
  | completed p n => .completed (f p) n
  | removed p n => .removed (f p) n

/-- A stream that begins at a place and is handed chunks there so many times. -/
def course (p : P) (n : Nat) (handed : List (List Delivery)) : List (Incident P) :=
  .opened p n :: handed.map (.delivered p n)

/-- The incidents that are about one stream. -/
def about (n : Nat) (is : List (Incident P)) : List (Incident P) :=
  is.filter fun i => decide (i.stream = n)

variable {n m : Nat}

theorem about_append (is js : List (Incident P)) :
    about n (is ++ js) = about n is ++ about n js := List.filter_append ..

theorem about_self {is : List (Incident P)} (h : ∀ i ∈ is, i.stream = n) : about n is = is :=
  List.filter_eq_self.2 fun i hi => decide_eq_true (h i hi)

theorem about_other {is : List (Incident P)} (h : ∀ i ∈ is, i.stream = m) (hne : n ≠ m) :
    about n is = [] :=
  List.filter_eq_nil_iff.2 fun i hi => by
    rw [h i hi, decide_eq_true_iff]
    exact Ne.symm hne

end Incident

/-- The life of a stream: the incidents in it, and the place where it lives, if it does.  It begins once.
It is handed chunks any number of times.  It is over at most once, right after it was handed chunks, or
removed at most once; nothing follows either. -/
inductive Life (n : Nat) : List (Incident P) → Option P → Prop
  /-- It has not begun. -/
  | unborn : Life n [] none
  /-- It goes on. -/
  | going (p : P) (handed : List (List Delivery)) :
      Life n (Incident.course p n handed) (some p)
  /-- It is over. -/
  | over (p : P) (handed : List (List Delivery)) (last : List Delivery) :
      Life n (Incident.course p n handed ++ [.delivered p n last, .completed p n]) none
  /-- It was removed. -/
  | removed (p : P) (handed : List (List Delivery)) :
      Life n (Incident.course p n handed ++ [.removed p n]) none

theorem Life.going_of_some {n : Nat} {p : P} {is : List (Incident P)} (h : Life n is (some p)) :
    ∃ handed, is = Incident.course p n handed := by
  cases h with
  | going _ handed => exact ⟨handed, rfl⟩

/-- Which stream lives at which place, and which number the next one gets. -/
structure Roll (P : Type) where
  /-- The stream that lives at a place. -/
  live : P → Option Nat
  /-- The number of the next stream. -/
  next : Nat

namespace Roll

variable {ρ ρ' ρ'' : Roll P} {is js : List (Incident P)}

/-! ## The lives of streams -/

/-- Every stream leads the life that the incidents tell of it, and the roll says where it lives. -/
def Chronicle (ρ : Roll P) (is : List (Incident P)) : Prop :=
  ∀ n, ∃ place, Life n (Incident.about n is) place ∧ (∀ p, ρ.live p = some n ↔ place = some p) ∧
    (n < ρ.next ↔ Incident.about n is ≠ [])

/-- In the beginning no stream lives, and none has. -/
theorem chronicle_nil : Chronicle ({ live := fun _ => none, next := 0 } : Roll P) [] := fun n =>
  ⟨none, .unborn, fun _ => ⟨nofun, nofun⟩, ⟨fun h => absurd h n.not_lt_zero, fun h => absurd rfl h⟩⟩

/-- A step about one stream leaves the lives of the others as they are. -/
theorem Chronicle.other {n m : Nat} (h : Chronicle ρ is) (hjs : ∀ j ∈ js, j.stream = m) (hne : n ≠ m)
    (hlive : ∀ p, ρ'.live p = some n ↔ ρ.live p = some n) (hnext : n < ρ'.next ↔ n < ρ.next) :
    ∃ place, Life n (Incident.about n (is ++ js)) place ∧
      (∀ p, ρ'.live p = some n ↔ place = some p) ∧
      (n < ρ'.next ↔ Incident.about n (is ++ js) ≠ []) := by
  obtain ⟨place, hlife, hplace, hbegun⟩ := h n
  rw [Incident.about_append, Incident.about_other hjs hne, List.append_nil]
  exact ⟨place, hlife, fun p => (hlive p).trans (hplace p), hnext.trans hbegun⟩

/-- A stream that lives at a place, and what was told of it. -/
theorem Chronicle.of_live {n : Nat} {p : P} (h : Chronicle ρ is) (hp : ρ.live p = some n) :
    (∃ handed, Incident.about n is = Incident.course p n handed) ∧
      (∀ q, ρ.live q = some n ↔ p = q) ∧ n < ρ.next := by
  obtain ⟨place, hlife, hplace, hbegun⟩ := h n
  obtain rfl := (hplace p).1 hp
  obtain ⟨handed, his⟩ := Life.going_of_some hlife
  refine ⟨⟨handed, his⟩, fun q => (hplace q).trans Option.some_inj, hbegun.2 ?_⟩
  rw [his]
  exact nofun

/-! ## Steps -/

variable [DecidableEq P] [DecidableEq Q]

/-- The roll with another stream at a place, or none. -/
def put (ρ : Roll P) (p : P) (stream : Option Nat) : Roll P :=
  { ρ with live := Function.update ρ.live p stream }

/-- The stream that lives at a place or, if there is none, would begin there. -/
def streamAt (ρ : Roll P) (p : P) : Nat := (ρ.live p).getD ρ.next

/-- The roll with no stream at some places. -/
def clear (ρ : Roll P) (ps : List P) : Roll P :=
  { ρ with live := fun p => if p ∈ ps then none else ρ.live p }

/-- The roll once a stream lives at a place. -/
def enrol (ρ : Roll P) (p : P) : Roll P :=
  match ρ.live p with
  | some _ => ρ
  | none => { ρ.put p (some ρ.next) with next := ρ.next + 1 }

/-- A step that a roll admits, with the incidents that it makes. -/
inductive Step : Roll P → List (Incident P) → Roll P → Prop
  /-- The next stream begins at a place where none lives. -/
  | opens {ρ : Roll P} {p : P} (h : ρ.live p = none) :
      Step ρ [.opened p ρ.next] { ρ.put p (some ρ.next) with next := ρ.next + 1 }
  /-- The stream that lives at a place is handed chunks. -/
  | hands {ρ : Roll P} {p : P} {n : Nat} (h : ρ.live p = some n) (chunks : List Delivery) :
      Step ρ [.delivered p n chunks] ρ
  /-- The stream that lives at a place is handed chunks, and it is over. -/
  | concludes {ρ : Roll P} {p : P} {n : Nat} (h : ρ.live p = some n) (chunks : List Delivery) :
      Step ρ [.delivered p n chunks, .completed p n] (ρ.put p none)
  /-- The stream that lives at a place is removed. -/
  | removes {ρ : Roll P} {p : P} {n : Nat} (h : ρ.live p = some n) :
      Step ρ [.removed p n] (ρ.put p none)

/-- Steps one after the other, with the incidents that they make. -/
inductive Run : Roll P → List (Incident P) → Roll P → Prop
  /-- No step. -/
  | refl (ρ : Roll P) : Run ρ [] ρ
  /-- A step, and more. -/
  | step {ρ ρ' ρ'' : Roll P} {is js : List (Incident P)} (h : Step ρ is ρ') (h' : Run ρ' js ρ'') :
      Run ρ (is ++ js) ρ''

theorem Run.single (h : Step ρ is ρ') : Run ρ is ρ' := by
  have hrun := Run.step h (.refl ρ')
  rwa [List.append_nil] at hrun

theorem Run.trans (h : Run ρ is ρ') (h' : Run ρ' js ρ'') : Run ρ (is ++ js) ρ'' := by
  induction h with
  | refl => exact h'
  | step hstep _ ih =>
      rw [List.append_assoc]
      exact .step hstep (ih h')

theorem live_enrol (ρ : Roll P) (p : P) : (ρ.enrol p).live p = some (ρ.streamAt p) := by
  rw [enrol, streamAt]
  cases h : ρ.live p with
  | some n => exact h
  | none => exact Function.update_self ..

theorem put_of_live {p : P} {stream : Option Nat} (h : ρ.live p = stream) : ρ.put p stream = ρ := by
  rw [put, ← h, Function.update_eq_self]

theorem clear_cons (ρ : Roll P) (p : P) (ps : List P) : ρ.clear (p :: ps) = (ρ.put p none).clear ps := by
  simp only [clear, put, mk.injEq, and_true]
  funext q
  by_cases hq : q = p
  · subst hq
    simp
  · simp [hq]

/-- A stream begins at a place if none lives there. -/
theorem Run.enrol (ρ : Roll P) (p : P) :
    Run ρ (if (ρ.live p).isNone then [.opened p (ρ.streamAt p)] else []) (ρ.enrol p) := by
  rw [Roll.enrol, streamAt]
  cases h : ρ.live p with
  | some n => exact .refl ρ
  | none => exact .single (.opens h)

/-! ## A part of a roll -/

/-- A part of a roll, its places under other names. -/
structure Part (f : P → Q) (ρ : Roll P) (σ : Roll Q) : Prop where
  /-- The streams of the part live at the same places of the whole. -/
  live : ∀ p, σ.live (f p) = ρ.live p
  /-- The next stream is the same. -/
  next : σ.next = ρ.next

theorem Part.put {f : P → Q} {σ : Roll Q} (hf : Function.Injective f) (h : Part f ρ σ) (p : P)
    (stream : Option Nat) : Part f (ρ.put p stream) (σ.put (f p) stream) := by
  refine ⟨fun q => ?_, h.next⟩
  by_cases hq : q = p
  · subst hq
    simp only [Roll.put, Function.update_self]
  · simp only [Roll.put, Function.update_of_ne hq, Function.update_of_ne (hf.ne hq), h.live]

/-- What a step does to a part of a roll it does to the whole, and leaves the rest as it is. -/
theorem Step.lift {f : P → Q} {σ : Roll Q} (hf : Function.Injective f) (h : Part f ρ σ)
    (hstep : Step ρ is ρ') :
    ∃ σ', Step σ (is.map (Incident.map f)) σ' ∧ Part f ρ' σ' ∧
      ∀ q, (∀ p, f p ≠ q) → σ'.live q = σ.live q := by
  have hrest : ∀ (p : P) (stream : Option Nat) q, (∀ p, f p ≠ q) →
      (σ.put (f p) stream).live q = σ.live q := fun p stream q hq =>
    Function.update_of_ne (hq p).symm ..
  cases hstep with
  | @opens p hp =>
      have hput := h.put hf p (some ρ.next)
      rw [← h.next] at hput
      refine ⟨{ σ.put (f p) (some σ.next) with next := σ.next + 1 }, ?_, ⟨?_, ?_⟩, hrest p _⟩
      · rw [← h.next]
        exact .opens ((h.live p).trans hp)
      · rw [← h.next]
        exact hput.live
      · exact congrArg (· + 1) h.next
  | @hands p n hp chunks => exact ⟨σ, .hands ((h.live p).trans hp) chunks, h, fun _ _ => rfl⟩
  | @concludes p n hp chunks =>
      exact ⟨_, .concludes ((h.live p).trans hp) chunks, h.put hf p none, hrest p none⟩
  | @removes p n hp =>
      exact ⟨_, .removes ((h.live p).trans hp), h.put hf p none, hrest p none⟩

theorem Run.lift {f : P → Q} {σ : Roll Q} (hf : Function.Injective f) (h : Part f ρ σ)
    (hrun : Run ρ is ρ') :
    ∃ σ', Run σ (is.map (Incident.map f)) σ' ∧ Part f ρ' σ' ∧
      ∀ q, (∀ p, f p ≠ q) → σ'.live q = σ.live q := by
  induction hrun generalizing σ with
  | refl => exact ⟨σ, .refl σ, h, fun _ _ => rfl⟩
  | step hstep _ ih =>
      obtain ⟨σ', hfirst, hpart, hothers⟩ := hstep.lift hf h
      obtain ⟨σ'', hrest, hpart', hothers'⟩ := ih hpart
      refine ⟨σ'', ?_, hpart', fun q hq => (hothers' q hq).trans (hothers q hq)⟩
      rw [List.map_append]
      exact .step hfirst hrest

/-! ## Steps continue lives -/

/-- The end of a stream that lives at a place. -/
theorem Chronicle.ended {n : Nat} {p : P} (h : Chronicle ρ is) (hp : ρ.live p = some n)
    (hjs : ∀ j ∈ js, j.stream = n)
    (hend : ∀ handed, Life n (Incident.course p n handed ++ js) none) :
    Chronicle (ρ.put p none) (is ++ js) := by
  obtain ⟨⟨handed, his⟩, honly, hlt⟩ := h.of_live hp
  intro m
  by_cases hm : m = n
  · subst hm
    rw [Incident.about_append, Incident.about_self hjs, his]
    refine ⟨none, hend handed, fun q => ⟨fun hq => ?_, nofun⟩, ⟨fun _ => nofun, fun _ => hlt⟩⟩
    by_cases hqp : q = p
    · subst hqp
      simp only [put, Function.update_self, reduceCtorEq] at hq
    · simp only [put, Function.update_of_ne hqp] at hq
      exact absurd ((honly q).1 hq).symm hqp
  · refine h.other hjs hm (fun q => ?_) Iff.rfl
    by_cases hqp : q = p
    · subst hqp
      simp only [put, Function.update_self, hp, reduceCtorEq, Option.some.injEq, false_iff]
      exact Ne.symm hm
    · simp only [put, Function.update_of_ne hqp]

/-- **A step of the roll** continues the lives of the streams. -/
theorem Step.chronicle (hstep : Step ρ js ρ') (h : Chronicle ρ is) : Chronicle ρ' (is ++ js) := by
  cases hstep with
  | @opens p hp =>
      have hjs : ∀ j ∈ [Incident.opened p ρ.next], j.stream = ρ.next := by simp [Incident.stream]
      intro n
      by_cases hn : n = ρ.next
      · subst hn
        obtain ⟨place, hlife, hplace, hbegun⟩ := h ρ.next
        have hnone : Incident.about ρ.next is = [] :=
          not_not.1 fun hne => absurd (hbegun.2 hne) (Nat.lt_irrefl _)
        rw [hnone] at hlife
        obtain rfl : place = none := by cases hlife; rfl
        rw [Incident.about_append, Incident.about_self hjs, hnone]
        refine ⟨some p, .going p [], fun q => ?_, ⟨fun _ => nofun, fun _ => Nat.lt_succ_self _⟩⟩
        by_cases hqp : q = p
        · subst hqp
          simp only [put, Function.update_self]
        · simp only [put, Function.update_of_ne hqp, hplace q, reduceCtorEq, Option.some.injEq,
            false_iff]
          exact Ne.symm hqp
      · refine h.other hjs hn (fun q => ?_) ?_
        · by_cases hqp : q = p
          · subst hqp
            simp only [put, Function.update_self, hp, reduceCtorEq, Option.some.injEq, iff_false]
            exact Ne.symm hn
          · simp only [put, Function.update_of_ne hqp]
        · show n < ρ.next + 1 ↔ n < ρ.next
          omega
  | @hands p n hp chunks =>
      have hjs : ∀ j ∈ [Incident.delivered p n chunks], j.stream = n := by simp [Incident.stream]
      obtain ⟨⟨handed, his⟩, honly, hlt⟩ := h.of_live hp
      intro m
      by_cases hm : m = n
      · subst hm
        have hmore : Incident.about m is ++ [.delivered p m chunks] =
            Incident.course p m (handed ++ [chunks]) := by
          rw [his, Incident.course, Incident.course, List.map_append]
          rfl
        rw [Incident.about_append, Incident.about_self hjs, hmore]
        exact ⟨some p, .going p _, fun q => (honly q).trans Option.some_inj.symm,
          ⟨fun _ => nofun, fun _ => hlt⟩⟩
      · exact h.other hjs hm (fun _ => Iff.rfl) Iff.rfl
  | @concludes p n hp chunks =>
      exact h.ended hp (by simp [Incident.stream]) fun handed => .over p handed chunks
  | @removes p n hp =>
      exact h.ended hp (by simp [Incident.stream]) fun handed => .removed p handed

/-- **Along every run of the roll** the streams lead their lives. -/
theorem Run.chronicle (hrun : Run ρ js ρ') (h : Chronicle ρ is) : Chronicle ρ' (is ++ js) := by
  induction hrun generalizing is with
  | refl =>
      rw [List.append_nil]
      exact h
  | step hstep _ ih =>
      rw [← List.append_assoc]
      exact ih (hstep.chronicle h)

end Roll
end TcpStreams
