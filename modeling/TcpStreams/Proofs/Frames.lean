import TcpStreams.Proofs.Breakdowns
import TcpStreams.Proofs.Limits

/-!
# The frame of a call

A call that works a segment in is about one conversation.  All that it does to the others is to make them
give up pages, and however many it makes them give up, and in however many requests: each gives up its first
pages, the reverse ones only after all forward ones, goes on after the last of them, and stays where it is in
the order of activity.  In the conversation itself the half-stream that the segment does not travel in moves
on only to make room, when the other one has nothing left to hand on.

* `HalfStream.without`: a half-stream that gave up its first pages.
* `Connection.GaveUp`: a connection that did.
* `evict_keeps`: what giving one page up keeps, a request for a page keeps of every connection.
* `Arrival.others_work`: what a request for a page keeps, the work on a segment keeps.
* `Connection.Defers`: the moments of the work on a segment, as the other half-stream sees them.
* `Session.call_framed`: the frame of a call, in every session.
-/

namespace TcpStreams

/-! ## Pages given up -/

namespace HalfStream

variable {base : SeqNum} {h : HalfStream} {page : Page} {lost lost' rest rest' : List Page}

/-- What a half-stream becomes that gives up its first pages `lost`, with `rest` still waiting.  If it knows
where it is, it goes on where the last of them ends, and the next chunk is marked. -/
def without (h : HalfStream) (lost rest : List Page) : HalfStream :=
  { h with
    pages := rest
    next := h.next.map fun next => (lost.getLast?.map Page.stop).getD next
    skipDue := h.skipDue || h.next.isSome && !lost.isEmpty
    counters := h.counters.addDiscard (lost.map Page.size).sum }

theorem without_nil (h : HalfStream) : h.without [] h.pages = h := by
  obtain ⟨direction, phase, next, pages, startDue, skipDue, counters⟩ := h
  simp [without, Counters.addDiscard]

/-- Pages given up one after the other are given up all together. -/
theorem without_without : (h.without lost rest).without lost' rest' = h.without (lost ++ lost') rest' := by
  obtain ⟨direction, phase, next, pages, startDue, skipDue, counters⟩ := h
  have hnext : (next.map fun n => (lost.getLast?.map Page.stop).getD n).map
      (fun n => (lost'.getLast?.map Page.stop).getD n) =
        next.map fun n => ((lost ++ lost').getLast?.map Page.stop).getD n := by
    rw [Option.map_map, List.getLast?_append]
    cases lost'.getLast? <;> rfl
  have hskip : (skipDue || next.isSome && !lost.isEmpty || next.isSome && !lost'.isEmpty) =
      (skipDue || next.isSome && !(lost ++ lost').isEmpty) := by
    cases skipDue <;> cases next <;> cases lost <;> cases lost' <;> rfl
  simp only [without, hnext, Option.isSome_map, hskip, Counters.addDiscard, List.map_append,
    List.sum_append, Nat.add_assoc]

/-- In a tidy half-stream the first page ends beyond the next byte wanted. -/
theorem lose_eq_without (ht : Tidy base h) (hp : h.pages = page :: rest) :
    h.lose page rest = h.without [page] rest := by
  have hb := ht.not_behind (hp ▸ List.mem_cons_self ..)
  obtain ⟨direction, phase, next, pages, startDue, skipDue, counters⟩ := h
  cases next with
  | none => simp [lose, without]
  | some next =>
      have hahead : next.precedes page.stop = true := by
        simpa [isBehind, Backlog.isBehind, SeqNum.precedes] using hb
      simp [lose, without, hahead]

end HalfStream

namespace Connection

open HalfStream (Tidy)

variable {c c' c'' : Connection} {lost rest lost' rest' : Direction → List Page}

/-- `GaveUp lost rest c c'`: what `c` becomes when it gives up its first pages `lost` in either direction, and
`rest` stays.  Reverse pages go only after all forward ones. -/
structure GaveUp (lost rest : Direction → List Page) (c c' : Connection) : Prop where
  /-- The pages given up are the first ones. -/
  parted : ∀ d, (c.half d).pages = lost d ++ rest d
  /-- Reverse pages are given up only if no forward page stays. -/
  reverse_last : lost .reverse ≠ [] → rest .forward = []
  /-- Nothing else changes. -/
  eq : c' =
    { c with
      forward := c.forward.without (lost .forward) (rest .forward)
      reverse := c.reverse.without (lost .reverse) (rest .reverse) }

namespace GaveUp

theorem half (h : GaveUp lost rest c c') (d : Direction) :
    c'.half d = (c.half d).without (lost d) (rest d) := by
  rw [h.eq]
  cases d <;> rfl

theorem refl (c : Connection) : GaveUp (fun _ => []) (fun d => (c.half d).pages) c c where
  parted _ := rfl
  reverse_last h := absurd rfl h
  eq := by
    have hf := c.forward.without_nil
    have hr := c.reverse.without_nil
    simp only [Connection.half, hf, hr]

/-- Who gives up pages again gave all of them up. -/
theorem trans (h : GaveUp lost rest c c') (h' : GaveUp lost' rest' c' c'') :
    GaveUp (fun d => lost d ++ lost' d) rest' c c'' := by
  have hrest : ∀ d, rest d = lost' d ++ rest' d := by
    intro d
    rw [← h'.parted d, h.half d]
    rfl
  refine ⟨fun d => ?_, fun hlost => ?_, ?_⟩
  · rw [h.parted d, hrest d, List.append_assoc]
  · by_cases hfirst : lost .reverse = []
    · exact h'.reverse_last fun hnil => hlost (List.append_eq_nil_iff.2 ⟨hfirst, hnil⟩)
    · have hnone := h.reverse_last hfirst
      rw [hrest] at hnone
      exact (List.append_eq_nil_iff.1 hnone).2
  · rw [h'.eq, h.eq]
    simp only [HalfStream.without_without]

end GaveUp

/-- The same conversation; and if the half-streams of `c` are tidy, then `c'` is what it becomes when it gives
up some of its first pages, and they stay tidy. -/
structure Cedes (base : Nat → Direction → SeqNum) (c c' : Connection) : Prop where
  /-- It is the same conversation. -/
  kin : Kin c c'
  /-- Tidy half-streams give up their first pages and stay tidy. -/
  gaveUp : (∀ d, Tidy (base c.stream d) (c.half d)) →
    (∃ lost rest, GaveUp lost rest c c') ∧ ∀ d, Tidy (base c'.stream d) (c'.half d)

variable {base : Nat → Direction → SeqNum}

theorem Cedes.refl (c : Connection) : Cedes base c c := ⟨.refl c, fun ht => ⟨⟨_, _, .refl c⟩, ht⟩⟩

theorem Cedes.trans (h : Cedes base c c') (h' : Cedes base c' c'') : Cedes base c c'' := by
  refine ⟨h.kin.trans h'.kin, fun ht => ?_⟩
  obtain ⟨⟨lost, rest, hfirst⟩, ht'⟩ := h.gaveUp ht
  obtain ⟨⟨lost', rest', hthen⟩, ht''⟩ := h'.gaveUp ht'
  exact ⟨⟨_, _, hfirst.trans hthen⟩, ht''⟩

/-- The first page of a direction is given up, a reverse one only if there is no forward one. -/
theorem gaveUp_lose {d : Direction} {page : Page} {rest : List Page}
    {lost : HalfStream} (hp : (c.half d).pages = page :: rest)
    (hlast : d = .reverse → c.forward.pages = []) (hlost : lost = (c.half d).without [page] rest) :
    GaveUp (fun e => if e = d then [page] else []) (fun e => if e = d then rest else (c.half e).pages) c
      (c.setHalf d lost) := by
  refine ⟨fun e => ?_, fun hrev => ?_, ?_⟩
  · by_cases he : e = d
    · subst he
      simpa using hp
    · simp [he]
  · obtain rfl : d = .reverse := by
      by_contra hne
      rw [if_neg (Ne.symm hne)] at hrev
      exact hrev rfl
    exact hlast rfl
  · have hf := c.forward.without_nil
    have hr := c.reverse.without_nil
    rw [hlost]
    cases d with
    | forward => simp [setHalf, Connection.half, hr]
    | reverse => simp [setHalf, Connection.half, hf]

/-- A connection asked for a page gives up the first one. -/
theorem cedes_shed {y : Yield Connection} (hy : c.shed? = some y) : Cedes base c y.value := by
  have hpos : 0 < c.pageCount := Nat.pos_of_ne_zero fun h => by
    rw [shed?_of_empty h] at hy
    cases hy
  obtain ⟨d, page, rest, notes, hp, hlast, hshed⟩ := shed?_of_pos hpos
  rw [hshed] at hy
  obtain rfl := Option.some.inj hy
  refine ⟨kin_setHalf _ _ _, fun ht => ⟨⟨_, _, gaveUp_lose hp hlast ?_⟩, fun e => ?_⟩⟩
  · exact HalfStream.lose_eq_without (ht d) hp
  · simp only [stream_setHalf]
    by_cases he : d = e
    · subst he
      rw [half_setHalf]
      exact (ht d).lose hp
    · rw [half_setHalf_ne _ _ he]
      exact ht e

end Connection

/-! ## Other connections -/

/-- An entry whose connection became another one, and nothing else of it changed. -/
def Entry.Becomes (R : Connection → Connection → Prop) (e e' : Entry) : Prop :=
  ∃ c', e' = { e with connection := c' } ∧ R e.connection c'

section Entries

variable {R : Connection → Connection → Prop}

theorem becomes_refl (hrefl : ∀ c, R c c) (entries : List Entry) :
    List.Forall₂ (Entry.Becomes R) entries entries :=
  List.forall₂_same.2 fun e _ => ⟨e.connection, rfl, hrefl _⟩

/-- What becomes of entries in two steps. -/
theorem becomes_comp {S T : Connection → Connection → Prop}
    (hcomp : ∀ {c c' c''}, R c c' → S c' c'' → T c c'') {es es' es'' : List Entry}
    (h : List.Forall₂ (Entry.Becomes R) es es') (h' : List.Forall₂ (Entry.Becomes S) es' es'') :
    List.Forall₂ (Entry.Becomes T) es es'' := by
  induction h generalizing es'' with
  | nil =>
      cases h' with
      | nil => exact .nil
  | cons hfirst _ ih =>
      cases h' with
      | cons hfirst' hrest' =>
          obtain ⟨c₁, rfl, h₁⟩ := hfirst
          obtain ⟨c₂, rfl, h₂⟩ := hfirst'
          exact .cons ⟨c₂, rfl, hcomp h₁ h₂⟩ (ih hrest')

theorem becomes_trans (htrans : ∀ {c c' c''}, R c c' → R c' c'' → R c c'') {es es' es'' : List Entry}
    (h : List.Forall₂ (Entry.Becomes R) es es') (h' : List.Forall₂ (Entry.Becomes R) es' es'') :
    List.Forall₂ (Entry.Becomes R) es es'' := becomes_comp (R := R) (S := R) (T := R) htrans h h'

/-- **What giving one page up keeps, a request for a page keeps of every connection**, whatever the arena
says. -/
theorem evict_keeps (hrefl : ∀ c, R c c) (htrans : ∀ {c c' c''}, R c c' → R c' c'' → R c c'')
    (hshed : ∀ {c y}, Connection.shed? c = some y → R c y.value) (flow : FlowId) (locked : List FlowId)
    (seq : SeqNum) (entries : List Entry) (arena : Arena) :
    List.Forall₂ (Entry.Becomes R) entries (evict flow locked seq entries arena).value := by
  induction entries generalizing arena with
  | nil => exact .nil
  | cons entry rest ih =>
      rw [evict]
      split
      · exact .cons ⟨_, rfl, hrefl _⟩ (ih arena)
      · have hclaim := reclaim_keeps hrefl htrans hshed [.evicted flow entry.flow] seq
          entry.connection.pageCount entry.connection arena
        simp only
        split
        · exact .cons ⟨_, rfl, hclaim⟩ (becomes_refl hrefl rest)
        · exact .cons ⟨_, rfl, hclaim⟩ (ih _)

end Entries

/-! ## The work on a segment -/

section Work

variable {E : List Entry → List Entry → Prop} {locked : List FlowId} {limit : Nat} {d : Direction}
  {start : SeqNum} {payload : List UInt8} {segment : Segment}

namespace Work

/-- The work asks other connections for pages and does nothing else to them: what every request keeps,
storing keeps. -/
theorem others_store (hrefl : ∀ es, E es es)
    (htrans : ∀ {es es' es''}, E es es' → E es' es'' → E es es'')
    (hevict : ∀ flow seq es arena, E es (evict flow locked seq es arena).value) (ps : List Portion)
    (w : Work) : E w.entries (store limit locked d start payload ps w).entries := by
  have hobtain : ∀ (w : Work) seq, E w.entries (w.obtain locked d seq).1.entries := by
    intro w seq
    rw [obtain]
    cases w.arena.take? seq with
    | some out => exact hrefl _
    | none =>
        simp only
        split
        · exact hevict _ _ _ _
        · exact hevict _ _ _ _
  induction ps generalizing w with
  | nil => exact hrefl _
  | cons p rest ih =>
      have hfirst := hobtain (w.relieve limit d) (start.advance p.span.start)
      rw [store]
      split
      · next w' heq =>
          rw [heq] at hfirst
          exact hfirst
      · next w' page heq =>
          rw [heq] at hfirst
          exact htrans hfirst (ih (w'.onHalf d fun h => { value := h.hold _ }))

end Work

/-- **What every request for a page keeps of the other connections, the work on a segment keeps.** -/
theorem Arrival.others_work (a : Arrival) (hrefl : ∀ es, E es es)
    (htrans : ∀ {es es' es''}, E es es' → E es' es'' → E es es'')
    (hevict : ∀ flow seq es arena, E es (evict flow a.locked seq es arena).value) :
    E a.state.registry.entries a.work.entries := by
  cases hclosed : a.half.isClosed with
  | true =>
      rw [(Arrival.work_of_closed hclosed).2.1]
      exact hrefl _
  | false =>
      have hplaced : E a.before.entries (a.before.placed a.config.pagesPerConnection a.locked a.direction
          a.segment).entries := by
        rw [Work.placed]
        cases a.before.fit a.direction a.segment with
        | empty | behind | covered | inOrder offset => exact hrefl _
        | ahead pieces =>
            exact Work.others_store hrefl htrans hevict _ (a.before.arrived a.direction a.segment)
      rw [Arrival.work_of_open hclosed, Work.accept_eq]
      split
      · exact hplaced
      · exact hplaced

end Work

/-! ## The moments of the work on a segment -/

/-- `Defers limit d c ms c'`: from one moment to the next, from `c` on to `c'`, the half-stream other than
that of direction `d` stays as it is, or leaps: that comes right after a look at the half-stream of direction
`d` that found nothing new there, although the connection had reached its limit. -/
inductive Connection.Defers (limit : Nat) (d : Direction) :
    Connection → List Moment → Connection → Prop
  | done (c : Connection) : Defers limit d c [] c
  /-- It stays as it is. -/
  | stays {c c' : Connection} {m : Moment} {ms : List Moment} :
      m.connection.half d.opposite = c.half d.opposite → Defers limit d m.connection ms c' →
      Defers limit d c (m :: ms) c'
  /-- It leaps. -/
  | leaps {c c' : Connection} {m m' : Moment} {ms : List Moment} :
      limit ≤ c.pageCount → (∀ page ∈ (c.half d).pages, (c.half d).isBehind page = true) →
      m.connection.half d.opposite = c.half d.opposite →
      m'.connection.half d.opposite = (c.half d.opposite).leap.value.1 →
      Defers limit d m'.connection ms c' → Defers limit d c (m :: m' :: ms) c'

namespace Connection.Defers

variable {limit : Nat} {d : Direction} {c c' c'' : Connection} {ms ms' : List Moment}

theorem trans (h : Defers limit d c ms c') (h' : Defers limit d c' ms' c'') :
    Defers limit d c (ms ++ ms') c'' := by
  induction h with
  | done c => exact h'
  | stays hsame _ ih => exact .stays hsame (ih h')
  | leaps hlimit hdry hsame hleap _ ih => exact .leaps hlimit hdry hsame hleap (ih h')

/-- A step on the half-stream of the segment leaves the other one as it is. -/
theorem onHalf {w : Work} {stage : Stage} (f : HalfStream → Yield HalfStream)
    (h : Defers limit d (w.onHalf d f).connection ms c') :
    Defers limit d w.connection (⟨stage, (w.onHalf d f).connection⟩ :: ms) c' :=
  .stays (Work.half_opposite_onHalf w d f) h

end Connection.Defers

/-- A half-stream that leaps in vain has no page with anything new. -/
theorem HalfStream.isBehind_of_not_moved {h : HalfStream} (hm : h.leap.value.2 = false) :
    ∀ page ∈ h.pages, h.isBehind page = true := by
  generalize hp : h.pages = pages
  induction pages generalizing h with
  | nil => exact fun _ hq => absurd hq List.not_mem_nil
  | cons page rest ih =>
      cases hb : h.isBehind page with
      | false =>
          rw [(leap_of_front hp hb).1] at hm
          cases hm
      | true =>
          rw [(leap_of_behind hp hb).1] at hm
          intro q hq
          rcases List.mem_cons.1 hq with rfl | hq
          · exact hb
          · exact ih (h := { h with pages := rest }) hm rfl q hq

namespace Connection

variable {limit : Nat} {d : Direction}

theorem reliefMoments_defer (limit : Nat) (d : Direction) (fuel : Nat) (c : Connection) :
    Defers limit d c (c.reliefMoments limit d fuel) (relieveWithin limit d fuel c).value := by
  induction fuel generalizing c with
  | zero => exact .stays rfl (.done c)
  | succ fuel ih =>
      rw [reliefMoments, relieveWithin]
      split
      case isFalse hlt => exact .stays rfl (.done c)
      case isTrue hle =>
        have hfirst : (c.leapIn d).value.1.half d.opposite = c.half d.opposite :=
          half_setHalf_ne _ _ d.opposite_ne.symm
        cases hm : (c.leapIn d).value.2 with
        | true =>
            have hleap : (c.leap d).value = ((c.leapIn d).value.1, true) := (leap_of_moved hm).1
            simp only [Yield.andThen, hleap, hm, if_true]
            exact .stays hfirst (ih _)
        | false =>
            have hleap : (c.leap d).value = ((c.leapIn d).value.1.leapIn d.opposite).value :=
              (leap_of_not_moved hm).1
            have hsecond : ((c.leapIn d).value.1.leapIn d.opposite).value.1.half d.opposite =
                (c.half d.opposite).leap.value.1 := by
              rw [leapIn_value, hfirst, half_setHalf]
            have hdry := HalfStream.isBehind_of_not_moved (h := c.half d) hm
            simp only [Yield.andThen, hleap, hm, Bool.false_eq_true, if_false]
            refine .leaps hle hdry hfirst hsecond ?_
            cases hm' : ((c.leapIn d).value.1.leapIn d.opposite).value.2 with
            | true =>
                simp only [if_true]
                exact ih _
            | false =>
                simp only [Bool.false_eq_true, if_false]
                exact .stays rfl (.done _)

end Connection

namespace Work

open Connection (Defers)

variable {limit : Nat} {locked : List FlowId} {d : Direction} {start : SeqNum} {payload : List UInt8}
  {segment : Segment} {w : Work}

theorem reliefMoments_defer (w : Work) (limit : Nat) (d : Direction) :
    Defers limit d w.connection (w.reliefMoments limit d) (w.relieve limit d).connection :=
  Connection.reliefMoments_defer limit d _ _

theorem shedTrail_defers (limit : Nat) (c : Connection) (d : Direction) (seq : SeqNum) (fuel : Nat)
    (h : HalfStream) (arena : Arena) :
    Defers limit d (c.setHalf d h) ((h.shedTrail seq fuel arena).map fun h => ⟨.shed, c.setHalf d h⟩)
      (c.setHalf d (reclaim HalfStream.shed? [] seq fuel h arena).value) := by
  induction fuel generalizing h arena with
  | zero => exact .done _
  | succ fuel ih =>
      rw [HalfStream.shedTrail, reclaim]
      cases h.shed? with
      | none => exact .done _
      | some y =>
          refine .stays (m := ⟨.shed, c.setHalf d y.value⟩) ?_ ?_
          · show (c.setHalf d y.value).half d.opposite = (c.setHalf d h).half d.opposite
            rw [Connection.half_setHalf_ne _ _ d.opposite_ne.symm,
              Connection.half_setHalf_ne _ _ d.opposite_ne.symm]
          · simp only
            cases (arena.giveAll y.freed).take? seq with
            | some out => exact .done _
            | none => exact ih y.value _

theorem obtainMoments_defer (limit : Nat) (w : Work) (locked : List FlowId) (d : Direction)
    (seq : SeqNum) :
    Defers limit d w.connection (w.obtainMoments locked d seq) (w.obtain locked d seq).1.connection := by
  rw [obtainMoments, obtain]
  cases w.arena.take? seq with
  | some out => exact .done _
  | none =>
      simp only [Option.isSome_none, Bool.false_eq_true, if_false]
      cases (evict w.connection.flow locked seq w.entries w.arena).page with
      | some page => exact .done _
      | none =>
          have htrail := shedTrail_defers limit w.connection d seq (w.connection.half d).pageCount
            (w.connection.half d) (evict w.connection.flow locked seq w.entries w.arena).arena
          rw [Connection.setHalf_half] at htrail
          exact htrail

theorem storeMoments_defer (limit : Nat) (ps : List Portion) (w : Work) :
    Defers limit d w.connection (storeMoments limit locked d start payload ps w)
      (store limit locked d start payload ps w).connection := by
  induction ps generalizing w with
  | nil => exact .done _
  | cons p rest ih =>
      have hobtain := obtainMoments_defer limit (w.relieve limit d) locked d
        (start.advance p.span.start)
      rw [storeMoments, store]
      refine (reliefMoments_defer w limit d).trans (hobtain.trans ?_)
      generalize (w.relieve limit d).obtain locked d (start.advance p.span.start) = out
      obtain ⟨w', page?⟩ := out
      cases page? with
      | none => exact .onHalf _ (.done _)
      | some page => exact .onHalf _ (ih _)

theorem placeMoments_defer (limit : Nat) (w : Work) (segment : Segment) :
    Defers limit d w.connection (w.placeMoments limit locked d segment)
      (w.placed limit locked d segment).connection := by
  rw [placeMoments, placed]
  refine .stays (Connection.half_setHalf_ne _ _ d.opposite_ne.symm) ?_
  cases w.fit d segment with
  | empty | behind | covered => exact .done _
  | inOrder offset => exact .onHalf (fun h => h.pass segment.payload.length offset) (.done _)
  | ahead pieces => exact storeMoments_defer limit _ _

/-- **The work on a segment lets the other half-stream move only to make room**, when nothing new is left in
the one that the segment travels in. -/
theorem acceptMoments_defer (limit : Nat) (w : Work) (segment : Segment) :
    Defers limit d w.connection (w.acceptMoments limit locked d segment)
      (w.accept limit locked d segment).connection := by
  have hsettled := reliefMoments_defer
    ((w.placed limit locked d segment).onHalf d HalfStream.drain) limit d
  rw [acceptMoments, accept_eq]
  refine (placeMoments_defer limit w segment).trans
    (.onHalf HalfStream.drain (hsettled.trans ?_))
  cases segment.flags.closes with
  | false => exact .done _
  | true => exact .onHalf HalfStream.close (.done _)

end Work

theorem Arrival.moments_defer (a : Arrival) :
    a.connection.Defers a.config.pagesPerConnection a.direction a.moments a.work.connection := by
  cases hclosed : a.half.isClosed with
  | true =>
      rw [(Arrival.work_of_closed hclosed).1, moments, hclosed]
      exact .done _
  | false =>
      rw [Arrival.work_of_open hclosed, moments, hclosed]
      exact Work.acceptMoments_defer _ a.before a.segment

/-! ## Calls -/

namespace Registry

variable (r : Registry) (flow : FlowId) (c : Connection) (now : Nat)

theorem erase_visit : ((r.visit flow now).2.erase flow).entries = (r.erase flow).entries := by
  rw [visit]
  cases he : r.entry? flow with
  | none => rfl
  | some e =>
      have hflow : e.connection.flow = flow := r.flow_of_found flow he
      simp [erase, Entry.flow, hflow]

theorem erase_insert : ((r.insert c now).erase c.flow).entries = (r.erase c.flow).entries := by
  simp [insert, erase, Entry.flow]

theorem erase_erase : (r.erase flow).erase flow = r.erase flow := by
  simp [erase]

end Registry

namespace Reassembly

variable {s : Reassembly} {fails : Event → Bool} {flow : FlowId} {now : Nat} {c : Connection}

/-- The entries of the other conversations, the least recently active first. -/
def others (s : Reassembly) (flow : FlowId) : List Entry := (s.registry.erase flow).entries

theorem others_lookUp (s : Reassembly) (fails : Event → Bool) (flow : FlowId) (src : Endpoint)
    (now : Nat) : (s.lookUp fails flow src now).state.others flow = s.others flow := by
  have hvisit := s.registry.erase_visit flow now
  rw [lookUp, others, others, ← hvisit]
  generalize s.registry.visit flow now = visited
  obtain ⟨found, registry⟩ := visited
  cases found with
  | some c => rfl
  | none =>
      simp only
      split
      · rfl
      · exact registry.erase_insert (Connection.new flow src s.nextStream now) now

theorem others_handOver (s : Reassembly) (fails : Event → Bool) (c : Connection)
    (payload : List UInt8) (chunks : List Chunk) :
    (s.handOver fails c payload chunks).state.others c.flow = s.others c.flow := by
  rw [others, registry_handOver, Registry.erase_replace, others]

theorem others_conclude (s : Reassembly) (fails : Event → Bool) (c : Connection) :
    (s.conclude fails c).state.others c.flow = s.others c.flow := by
  rcases registry_conclude fails c s with heq | heq
  · rw [others, heq, others]
  · rw [others, heq, Registry.erase_erase, others]

end Reassembly

/-- What a segment leads to leaves the other conversations what the work on it made of them, and is told to
its own consumer only. -/
theorem Arrival.others_finish (a : Arrival) (fails : Event → Bool) :
    (a.finish fails).state.others a.connection.flow = a.worked.others a.connection.flow ∧
      ∀ event ∈ (a.finish fails).events, event.flow = a.connection.flow := by
  have hflow := a.continues_work.1.flow
  have hhanded := a.worked.others_handOver fails a.work.connection a.segment.payload a.work.chunks
  cases hbreaks : fails a.delivery with
  | true =>
      obtain ⟨hstate, -, hevents⟩ := finish_of_breaks hbreaks
      rw [hstate, hevents, ← hflow]
      exact ⟨hhanded, fun event he => List.mem_singleton.1 he ▸ rfl⟩
  | false =>
      obtain ⟨hstate, hevents⟩ := finish_of_returns hbreaks
      rw [hstate, hevents, ← hflow]
      refine ⟨?_, fun event he => ?_⟩
      · split
        · exact (Reassembly.others_conclude _ fails a.work.connection).trans hhanded
        · exact hhanded
      · rcases List.mem_cons.1 he with rfl | he
        · rfl
        · split at he
          · exact List.mem_singleton.1 he ▸ rfl
          · exact absurd he List.not_mem_nil

/-- An entry after its connection gave up some of its first pages, and nothing else of it changed. -/
def Entry.GaveUp : Entry → Entry → Prop :=
  Entry.Becomes fun c c' => ∃ lost rest, Connection.GaveUp lost rest c c'

/-- The work on a segment makes the other connections give up some of their first pages, if their
half-streams are tidy. -/
theorem Arrival.others_worked {base : Nat → Direction → SeqNum} (a : Arrival) (flow : FlowId)
    (ht : ∀ e ∈ a.state.others flow, ∀ d,
      HalfStream.Tidy (base e.connection.stream d) (e.connection.half d)) :
    List.Forall₂ Entry.GaveUp (a.state.others flow) (a.worked.others flow) := by
  have hwork : List.Forall₂ (Entry.Becomes (Connection.Cedes base)) a.state.registry.entries
      a.work.entries :=
    a.others_work (becomes_refl .refl) (becomes_trans .trans)
      (evict_keeps .refl .trans Connection.cedes_shed · a.locked)
  have hothers : List.Forall₂ (Entry.Becomes (Connection.Cedes base)) (a.state.others flow)
      (a.worked.others flow) := by
    refine List.rel_filter (fun e e' he => ?_) hwork
    obtain ⟨c', rfl, hcedes⟩ := he
    have hflow : c'.flow = e.connection.flow := hcedes.kin.flow
    show decide (e.connection.flow ≠ flow) = true ↔ decide (c'.flow ≠ flow) = true
    rw [hflow]
  refine ((List.forall₂_and_left _ _).2 ⟨ht, hothers⟩).imp fun e e' he => ?_
  obtain ⟨htidy, c', rfl, hcedes⟩ := he
  exact ⟨c', rfl, (hcedes.gaveUp htidy).1⟩

namespace Reassembly

variable {s : Reassembly} {fails : Event → Bool} {now : Nat} {config : Config} {locked : List FlowId}
  {path : Route} {segment : Segment} {base : Nat → Direction → SeqNum}

/-- **A segment makes other connections give up some of their first pages at most**, if their half-streams
are tidy, and it is told to its own consumer only. -/
theorem perform_framed (hd : s.DistinctFlows)
    (ht : ∀ c ∈ s.connections, ∀ d, HalfStream.Tidy (base c.stream d) (c.half d)) :
    let o := s.perform fails now (.receive config locked path segment)
    let flow := segment.flow path
    List.Forall₂ Entry.GaveUp (s.others flow) (o.state.others flow) ∧
      ∀ event ∈ o.events, event.flow = flow := by
  intro o flow
  have hlookUp := s.others_lookUp fails flow (segment.src path) now
  have ht' : ∀ e ∈ s.others flow, ∀ d,
      HalfStream.Tidy (base e.connection.stream d) (e.connection.half d) :=
    fun e he => ht _ (List.mem_map_of_mem (List.mem_filter.1 he).1)
  cases hres : (s.lookUp fails flow (segment.src path) now).result with
  | error call =>
      -- no connection is opened, and nothing else is done
      have hnone : s.registry.find? flow = none := by
        cases hfind : s.registry.find? flow with
        | none => rfl
        | some c => rw [(lookUp_known hd hfind).1] at hres; cases hres
      have hstate : o.state = (s.lookUp fails flow (segment.src path) now).state :=
        (receive_of_error hres).2.1
      have hevents : o.events = [.opened s.nextStream flow] := by
        rw [← (lookUp_opened hnone (segment.src path)).2.1]
        simp only [o, perform, Outcome.map, receive, Outcome.andThen, flow] at hres ⊢
        rw [hres]
      rw [hstate, hlookUp, hevents]
      exact ⟨becomes_refl (fun c => ⟨_, _, .refl c⟩) _,
        fun event he => List.mem_singleton.1 he ▸ rfl⟩
  | ok c =>
      let call : Call := ⟨fails, now, .receive config locked path segment⟩
      obtain ⟨a, harrivals, hstate, rfl, -⟩ :=
        @receive_of_ok s fails config locked path segment now c hres
      have ha : a ∈ s.arrivals call := harrivals ▸ List.mem_singleton_self a
      have hflow : a.connection.flow = flow := (find?_eq_some (find?_of_lookUp hres)).2
      obtain ⟨hdone, -, htold⟩ := perform_of_arrives hd ha
      obtain ⟨hothers, hevents⟩ := a.others_finish fails
      rw [hflow] at hothers hevents
      rw [← hlookUp, ← hstate] at ht' ⊢
      refine ⟨?_, fun event he => ?_⟩
      · rw [hdone, hothers]
        exact a.others_worked flow ht'
      · rw [htold] at he
        rcases List.mem_append.1 he with he | he
        · rw [opening] at he
          split at he
          · exact List.mem_singleton.1 he ▸ hflow
          · exact absurd he List.not_mem_nil
        · exact hevents event he

/-- What a segment that a call works in arrives as. -/
theorem arrivals_receive {a : Arrival}
    (ha : a ∈ s.arrivals ⟨fails, now, .receive config locked path segment⟩) :
    (config = a.config ∧ locked = a.locked ∧ segment = a.segment) ∧
      (s.lookUp fails (segment.flow path) (segment.src path) now).result = .ok a.connection ∧
      a.connection.flow = segment.flow path ∧
      a.direction = a.connection.directionFrom (segment.src path) := by
  obtain ⟨path', haction, -, hres, hdirection⟩ := mem_arrivals ha
  obtain ⟨rfl, rfl, rfl, rfl⟩ :
      config = a.config ∧ locked = a.locked ∧ path = path' ∧ segment = a.segment := by
    simpa using haction
  exact ⟨⟨rfl, rfl, rfl⟩, hres, (find?_eq_some (find?_of_lookUp hres)).2, hdirection⟩

/-- **A segment's own connection** is the one that its conversation has, or a new one.  The half-stream that
the segment does not travel in moves only to make room. -/
theorem own_framed {a : Arrival}
    (ha : a ∈ s.arrivals ⟨fails, now, .receive config locked path segment⟩) :
    let flow := segment.flow path
    (∀ c, s.registry.find? flow = some c → a.connection = c) ∧
      a.connection.Defers config.pagesPerConnection (a.connection.directionFrom (segment.src path))
        a.moments a.work.connection ∧
      ∀ c, (s.perform fails now (.receive config locked path segment)).state.registry.find? flow = some c →
        c = a.work.connection := by
  have hstate := state_of_arrives ha
  obtain ⟨⟨rfl, rfl, rfl⟩, hres, hflow, hdirection⟩ := arrivals_receive ha
  refine ⟨fun c hc => ?_, hdirection ▸ a.moments_defer, fun c hc => ?_⟩
  · obtain ⟨hfound, -⟩ := @lookUp_found s fails (a.segment.flow path) now c hc (a.segment.src path)
    exact Except.ok.inj (hres.symm.trans hfound)
  · simp only at hstate
    rw [hstate] at hc
    rcases a.find?_finish fails hc with ⟨-, heq⟩ | ⟨hne, -⟩
    · exact heq
    · exact absurd hflow.symm hne

end Reassembly

/-! ## Sessions -/

namespace Session

/-- **The frame of a call.** Let any number of reassemblers and other parties share registries and arenas of any
ceilings, and let consumers break down in any calls.  As long as the segments of each direction of each stream
lie in a window, a call that works a segment in leaves everything else alone.

Other arenas and the connections of other registries stay as they are.  Those of other conversations in its
own registry stay, in the same order and with the same activity, and are told nothing; all that becomes of
them is that they may give up some of their first pages, reverse ones only after all forward ones.  The bytes
given up are counted, and the stream, if it is known where it is, goes on after the last page given up.

In the segment's own connection the half-stream that the segment does not travel in only leaps, and each time
because the connection had reached the limit and nothing new was left in the other one. -/
theorem call_framed (registries : Nat) (ceilings : List Nat) (turns : List Turn)
    (base : Nat → Direction → SeqNum)
    (hw : ∀ a ∈ (fresh registries ceilings).arrivals turns, a.InWindow (base a.stream a.direction))
    (registry arena : Nat) (fails : Event → Bool) (now : Nat) (config : Config) (locked : List FlowId)
    (path : Route) (segment : Segment) :
    let s := (fresh registries ceilings).after turns
    let turn : Turn := ⟨fails, now, .act registry arena (.receive config locked path segment)⟩
    let report := s.turn turn
    let flow := segment.flow path
    (∀ i, i ≠ arena → report.session.arena i = s.arena i) ∧
      (∀ r, r ≠ registry → report.session.registry r = s.registry r) ∧
      List.Forall₂ Entry.GaveUp ((s.registry registry).erase flow).entries
        ((report.session.registry registry).erase flow).entries ∧
      (∀ event ∈ report.events, event.flow = flow) ∧
      ∀ a ∈ s.turnArrivals turn,
        (∀ c, s.connectionAt registry flow = some c → a.connection = c) ∧
          a.connection.Defers config.pagesPerConnection (a.connection.directionFrom (segment.src path))
            a.moments a.work.connection ∧
          ∀ c, report.session.connectionAt registry flow = some c → c = a.work.connection := by
  intro s turn report flow
  have hd : (s.state registry arena).DistinctFlows := distinct_after registries ceilings turns registry arena
  have htidy : ∀ c ∈ (s.state registry arena).connections, ∀ d,
      HalfStream.Tidy (base c.stream d) (c.half d) := by
    intro c hc d
    have hlive : s.connectionAt registry c.flow = some c := Reassembly.find?_of_mem hd hc
    refine ((formed_of_fresh ?_ registry c.flow c hlive).2 rfl).tidy
    rintro a ha hk rfl
    exact hk ▸ hw a ha
  obtain ⟨hothers, hevents⟩ :=
    @Reassembly.perform_framed _ fails now config locked path segment base hd htidy
  have hregistry := s.registry_report registry arena now
    ((s.state registry arena).perform fails now (.receive config locked path segment))
  refine ⟨fun i hi => s.arena_report_ne registry now _ hi, fun r hr => ?_, ?_, hevents, fun a ha => ?_⟩
  · rcases hregistry r with ⟨heq, -⟩ | ⟨hbefore, hafter⟩ | ⟨-, hsame⟩
    · exact absurd heq hr
    · exact hafter.trans hbefore.symm
    · exact hsame
  · rcases hregistry registry with ⟨-, hleft⟩ | ⟨hbefore, hafter⟩ | ⟨hne, -⟩
    · exact hleft ▸ hothers
    · have hempty : report.session.registry registry = {} := hafter
      rw [hbefore, hempty]
      exact .nil
    · exact absurd rfl hne
  · obtain ⟨hfound, hdefers, hleft⟩ := Reassembly.own_framed ha
    refine ⟨hfound, hdefers, fun c hc => ?_⟩
    rcases s.connectionAt_report registry arena now _ hc with ⟨-, hc⟩ | ⟨hne, -⟩
    · exact hleft c hc
    · exact absurd rfl hne

/-- Two pages of one conversation wait, and one of another. -/
def turnsOfTwo : List Turn :=
  [.ofSegment 0 1000 80 9 .syn [], .ofSegment 0 1000 80 20 ⟨0⟩ [97], .ofSegment 0 1000 80 30 ⟨0⟩ [98],
    .ofSegment 0 2000 80 10 ⟨0⟩ [99]]

/-- The other side of the second one answers. -/
def answerOfTwo : Segment :=
  { srcPort := 80, dstPort := 2000, seq := .ofNat 50, flags := ⟨0⟩, payload := [100] }

/-- The answer comes with another arena, which has no page to hand out. -/
theorem call_framed_between_two :
    (∀ a ∈ (fresh 1 [3, 0]).arrivals turnsOfTwo, a.InWindow (SeqNum.ofNat 0)) ∧
      let s := (fresh 1 [3, 0]).after turnsOfTwo
      let turn : Turn := ⟨fun _ => false, 0,
        .act 0 1 (.receive { pagesPerConnection := 1 } [] ⟨.v4 1, .v4 1⟩ answerOfTwo)⟩
      let report := s.turn turn
      let flow := answerOfTwo.flow ⟨.v4 1, .v4 1⟩
      (((s.registry 0).erase flow).entries.map fun e => e.connection.forward.pages.map Page.seq) =
        [[.ofNat 20, .ofNat 30]] ∧
      (((report.session.registry 0).erase flow).entries.map fun e =>
          let h := e.connection.forward
          (h.pages, h.next, h.skipDue, h.counters.discarded)) = [([], some (.ofNat 31), true, 2)] ∧
      ((s.turnArrivals turn).map fun a => a.moments.map fun m =>
          (m.stage, m.connection.forward.pageCount, m.connection.reverse.pageCount)) =
        [[(.arrived, 1, 0), (.leapt, 1, 0), (.leapt, 0, 0), (.relieved, 0, 0), (.dropped, 0, 0),
          (.drained, 0, 0), (.relieved, 0, 0)]] ∧
      report.session.arena 0 = s.arena 0 ∧
      List.Forall₂ Entry.GaveUp ((s.registry 0).erase flow).entries
        ((report.session.registry 0).erase flow).entries ∧
      ∀ a ∈ s.turnArrivals turn, a.connection.Defers 1 .reverse a.moments a.work.connection := by
  have hw : ∀ a ∈ (fresh 1 [3, 0]).arrivals turnsOfTwo, a.InWindow (SeqNum.ofNat 0) := by decide
  obtain ⟨harenas, -, hothers, -, hown⟩ := call_framed 1 [3, 0] turnsOfTwo (fun _ _ => SeqNum.ofNat 0) hw
    0 1 (fun _ => false) 0 { pagesPerConnection := 1 } [] ⟨.v4 1, .v4 1⟩ answerOfTwo
  refine ⟨hw, by decide, by decide, by decide, harenas 0 (by decide), hothers, fun a ha => ?_⟩
  have hreverse : a.connection.directionFrom (answerOfTwo.src ⟨.v4 1, .v4 1⟩) = .reverse := by
    revert a
    decide
  exact hreverse ▸ (hown a ha).2.1

end Session
end TcpStreams
