import TcpStreams.Proofs.Possession
import TcpStreams.Proofs.Recency

/-!
# What a breakdown costs

When a consumer breaks down while it is handed chunks, everything that the segment did is done: the
connections, the order of their activity and the numbering of streams are what they would have been.  Only
the pages that the chunks carried do not come back.  They count as out for ever, so from then on more pages
may be out than wait, but never fewer, and never more than the ceiling.

* `Arena.free_giveAll`: pages that come back are kept, blank.
* `Reassembly.Covers`: at least as many pages are out as wait, and some number besides.
* `Reassembly.lasting_covers`: it holds in every history, whoever breaks down.
* `Reassembly.Forgoes`: a state that differs from another by pages that did not come back.
* `Arrival.forgoes_handed`: a consumer that breaks down and one that comes through leave such states.
-/

namespace TcpStreams

open Arena (Balanced)

/-- Pages that come back are kept for the next requests, blank. -/
theorem Arena.free_giveAll (arena : Arena) (pages : List Page) :
    (arena.giveAll pages).free = List.replicate pages.length Page.blank ++ arena.free ∧
      (arena.giveAll pages).ceiling = arena.ceiling := by
  induction pages generalizing arena with
  | nil => exact ⟨rfl, rfl⟩
  | cons page rest ih =>
      obtain ⟨hfree, hceiling⟩ := ih (arena.give page)
      refine ⟨hfree.trans ?_, hceiling⟩
      rw [List.length_cons, List.replicate_succ', List.append_assoc]
      rfl

namespace Reassembly

variable {ceiling n : Nat} {s s' : Reassembly} {c c' : Connection} {fails : Event → Bool}

/-! ## The shared state stays sound -/

/-- **The shared state stays sound** through every step of a call, whoever breaks down. -/
theorem lasting_sound (ceiling : Nat) : Lasting (Sound ceiling) where
  lookUp hs fails flow src now := (hs.lookUp fails flow src now).1
  finish hs _ ha _ h :=
    (h.upheld.finish (d := .forward) (hs.arrives ha).2 (fun _ _ _ => trivial)
      (fun _ _ => Or.inl fun _ _ _ _ => trivial) fun _ _ => trivial).sound
  windUp hs fails flow := hs.windUp fails flow
  remove hs flow := (@Upheld.remove _ _ _ _ _ _ _ .forward flow hs.upheld fun _ => trivial).sound

/-- The numbering of streams goes on, it never starts again. -/
theorem lasting_begun (n : Nat) : Lasting fun s => n ≤ s.nextStream := by
  refine Lasting.of_parts ?_ (fun _ h => h) (fun h _ => h) ?_ ?_ ?_
  · intro s h fails flow src now
    rw [lookUp, Registry.visit]
    cases s.registry.entry? flow with
    | some entry => exact h
    | none =>
        simp only
        split
        · exact Nat.le_succ_of_le h
        · exact Nat.le_succ_of_le h
  · intro s h fails c payload chunks
    rw [handOver]
    split <;> exact h
  · intro s h fails c
    rw [conclude]
    split <;> exact h
  · intro s h flow
    rw [remove]
    cases s.registry.find? flow <;> exact h

/-! ## At least as many pages are out as wait -/

/-- The pages that wait are out, and `n` pages besides. -/
structure Covers (ceiling n : Nat) (s : Reassembly) : Prop where
  /-- The shared state is sound. -/
  sound : s.Sound ceiling
  /-- So many pages are out. -/
  out : n + s.registry.waiting ≤ s.arena.inUse

/-- Looking a connection up changes nothing about pages. -/
theorem pages_lookUp (hd : s.DistinctFlows) (fails : Event → Bool) (flow : FlowId) (src : Endpoint)
    (now : Nat) :
    (s.lookUp fails flow src now).state.registry.waiting = s.registry.waiting ∧
      (s.lookUp fails flow src now).state.arena = s.arena := by
  cases h : s.registry.find? flow with
  | some c =>
      obtain ⟨-, -, hperm, harena, -⟩ := @lookUp_known s fails flow src now c hd h
      exact ⟨(hperm.map Connection.pageCount).sum_nat, harena⟩
  | none =>
      have hentry : s.registry.entry? flow = none := Option.map_eq_none_iff.1 h
      simp only [lookUp, Registry.visit, hentry]
      split
      · exact ⟨rfl, rfl⟩
      · refine ⟨?_, rfl⟩
        simp [Registry.waiting, Registry.insert, Connection.pageCount, HalfStream.pageCount,
          Connection.new, HalfStream.new]

/-- Handing over gives back at most the pages of the chunks. -/
theorem covers_handOver (hd : s.DistinctFlows) (hc : ∃ c ∈ s.connections, c.flow = c'.flow)
    (payload : List UInt8) (chunks : List Chunk)
    (hout : n + (pagesApart c'.flow s.registry.entries + c'.pageCount + (Chunk.pages chunks).length) ≤
      s.arena.inUse) :
    let o := s.handOver fails c' payload chunks
    n + o.state.registry.waiting ≤ o.state.arena.inUse ∧ o.state.DistinctFlows ∧
      c' ∈ o.state.connections := by
  obtain ⟨hmem, hdistinct, hbeside⟩ := connections_replace hc
    (s.handOver fails c' payload chunks).state (registry_handOver ..)
  refine ⟨?_, hdistinct hd, hmem⟩
  have hpages : s.arena.inUse - (Chunk.pages chunks).length ≤
      (s.handOver fails c' payload chunks).state.arena.inUse := by
    cases hf : fails (.delivered c'.stream c'.flow (chunks.map (Chunk.delivery payload))) with
    | true =>
        rw [handOver_of_breaks hf]
        exact Nat.sub_le ..
    | false =>
        rw [handOver_of_returns hf]
        exact Nat.le_of_eq (Arena.inUse_giveAll ..).symm
  rw [waiting_eq (hdistinct hd) hmem, pagesApart_eq, hbeside, ← pagesApart_eq]
  omega

/-- A connection that goes takes its pages along. -/
theorem covers_erase (hd : s.DistinctFlows) (hc : c ∈ s.connections)
    (hout : n + s.registry.waiting ≤ s.arena.inUse) :
    n + (s.registry.erase c.flow).waiting ≤ (s.arena.giveAll c.pages).inUse := by
  have hbalanced := (settled_erase hd hc).balanced
  have hleft := hbalanced.inUse (s.arena.inUse - s.registry.waiting) (by omega)
  simp only at hleft
  omega

theorem covers_conclude (hd : s.DistinctFlows) (hc : c ∈ s.connections)
    (hout : n + s.registry.waiting ≤ s.arena.inUse) (fails : Event → Bool) :
    n + (s.conclude fails c).state.registry.waiting ≤ (s.conclude fails c).state.arena.inUse := by
  simp only [conclude]
  split
  · exact hout
  · exact covers_erase hd hc hout

/-- **The work on a segment** keeps the pages that are held out, wherever they are by then. -/
theorem held_work {a : Arrival} (hd : a.state.DistinctFlows) (hc : a.connection ∈ a.state.connections)
    (hout : n + a.state.registry.waiting ≤ a.state.arena.inUse) :
    n + a.work.held ≤ a.work.arena.inUse := by
  have hbefore : a.before.held = a.state.registry.waiting := by
    rw [waiting_eq hd hc]
    rfl
  have hafter := a.balanced_trades.inUse (a.state.arena.inUse - a.state.registry.waiting) (by
    rw [hbefore]
    omega)
  omega

/-- **The pages that wait are out**, after every step of a call, whoever breaks down. -/
theorem lasting_covers (ceiling n : Nat) : Lasting (Covers ceiling n) where
  lookUp {s} h fails flow src now := by
    obtain ⟨hwaiting, harena⟩ := pages_lookUp h.sound.flows fails flow src now
    refine ⟨(lasting_sound ceiling).lookUp h.sound .., ?_⟩
    rw [hwaiting, harena]
    exact h.out
  finish {_ call} hs a ha _ h := by
    have hc := (hs.sound.arrives ha).2
    obtain ⟨hd, hlive⟩ := distinct_worked h.sound.flows hc
    obtain ⟨hout, hd', hmem⟩ := @covers_handOver n a.worked a.work.connection call.fails hd hlive
      a.segment.payload a.work.chunks (held_work h.sound.flows hc h.out)
    refine ⟨(lasting_sound ceiling).finish hs.sound a ha trivial h.sound, ?_⟩
    refine Outcome.state_andThen (P := fun s => n + s.registry.waiting ≤ s.arena.inUse) hout
      fun _ _ => ?_
    split
    · exact covers_conclude hd' hmem hout _
    · exact hout
  windUp {s} h fails flow := by
    refine ⟨(lasting_sound ceiling).windUp h.sound fails flow, ?_⟩
    rw [windUp]
    cases hfind : s.registry.find? flow with
    | none => exact h.out
    | some c =>
        obtain ⟨hc, -⟩ := find?_eq_some hfind
        have hkin := c.close_ends.1
        have hclose := c.pageCount_close_add
        have hwaiting := waiting_eq h.sound.flows hc
        have hbefore := h.out
        rw [Yield.released] at hclose
        obtain ⟨hout, hd', hmem⟩ := @covers_handOver n { s with arena := s.arena.giveAll c.close.freed }
          c.close.value fails h.sound.flows ⟨c, hc, hkin.flow.symm⟩ [] c.close.chunks (by
            simp only [Arena.inUse_giveAll, hkin.flow]
            omega)
        refine Outcome.state_andThen (P := fun s => n + s.registry.waiting ≤ s.arena.inUse) hout
          fun _ _ => ?_
        have hdone := covers_conclude hd' hmem hout fails
        exact Outcome.state_andThen (P := fun s => n + s.registry.waiting ≤ s.arena.inUse) hdone
          fun _ _ => hdone
  remove {s} h flow := by
    refine ⟨(lasting_sound ceiling).remove h.sound flow, ?_⟩
    rw [remove]
    cases hfind : s.registry.find? flow with
    | none => exact h.out
    | some c =>
        obtain ⟨hc, rfl⟩ := find?_eq_some hfind
        exact covers_erase h.sound.flows hc h.out

/-! ## With and without a breakdown -/

/-- `s` is what `s'` would be if `n` pages had not come back: everything but the arena is the same, `n`
more pages are out, and the arena keeps `n` fewer. -/
structure Forgoes (n : Nat) (s s' : Reassembly) : Prop where
  /-- The connections are the same, all that they hold, and the order and the ticks of their activity. -/
  registry : s.registry = s'.registry
  /-- The next stream has the same number. -/
  nextStream : s.nextStream = s'.nextStream
  /-- So many more pages are out. -/
  inUse : s.arena.inUse = s'.arena.inUse + n
  /-- So many fewer are kept, all of which are blank. -/
  free : s'.arena.free = List.replicate n Page.blank ++ s.arena.free
  /-- As many may be out at once. -/
  ceiling : s.arena.ceiling = s'.arena.ceiling

end Reassembly

namespace Arrival

variable {ceiling n : Nat} {fails returns : Event → Bool} {a : Arrival}

/-- What the consumer of the stream is handed when the segment was worked in. -/
def delivery (a : Arrival) : Event :=
  .delivered a.work.connection.stream a.work.connection.flow
    (a.work.chunks.map (Chunk.delivery a.segment.payload))

/-- The segment is worked in and its chunks are handed over; whether the stream is over, and has to be
concluded, is not looked at yet. -/
def handed (fails : Event → Bool) (a : Arrival) : Outcome Unit :=
  a.worked.handOver fails a.work.connection a.segment.payload a.work.chunks

/-- **A consumer that breaks down** in the delivery of a segment leaves the state that one who comes through
does, but that the pages of the chunks do not come back. -/
theorem forgoes_handed (h : a.state.Covers ceiling n) (hc : a.connection ∈ a.state.connections)
    (hbreaks : fails a.delivery = true) (hreturns : returns a.delivery = false) :
    Reassembly.Forgoes (Chunk.pages a.work.chunks).length (a.handed fails).state
      (a.handed returns).state := by
  have hheld := Reassembly.held_work h.sound.flows hc h.out
  obtain ⟨hfree, hceiling⟩ := Arena.free_giveAll a.work.arena (Chunk.pages a.work.chunks)
  have hinUse := Arena.inUse_giveAll a.work.arena (Chunk.pages a.work.chunks)
  rw [handed, handed, Reassembly.handOver_of_breaks hbreaks, Reassembly.handOver_of_returns hreturns]
  refine ⟨rfl, rfl, ?_, hfree, hceiling.symm⟩
  rw [Work.held] at hheld
  show a.work.arena.inUse = (a.work.arena.giveAll _).inUse + _
  omega

end Arrival
end TcpStreams
