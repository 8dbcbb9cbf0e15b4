import TcpStreams.Proofs.Enduring

/-!
# What a breakdown comes to

A consumer that breaks down costs pages and nothing else.  What it leaves behind has the form that it should,
and a connection that is over by then is concluded later on.

* `Session.breakdown_contained`: what a breakdown leaves behind, and what becomes of it.
-/

namespace TcpStreams
namespace Session

/-- **A breakdown costs pages and nothing else.** Let any number of reassemblers and other parties share one
arena, each reassembler with a registry that it may share with others, and let consumers have broken down in
any calls so far.  Now a segment is worked in.

If the consumer breaks down when it is handed the chunks, it is told nothing more and the connection stays;
everything is as if it had come through and its stream had not been concluded yet, but that the pages of the
chunks do not come back.  If it breaks down when its stream begins, no connection is opened, and a tick is
spent.

Whoever breaks down in the call, afterwards no more pages are out than the ceiling says, and every
half-stream whose segments lie in a window has the form that it should.  A connection that is over by then
stays as it is until its consumer is told so, if it is not taken out; and the next segment of its
conversation, or the next flush that winds it up, concludes its stream, unless a consumer breaks down once
more. -/
theorem breakdown_contained (registries ceiling : Nat) (turns : List Turn)
    (hin : ∀ t ∈ turns, t.deed.Within registries 1) (registry : Nat) (hlt : registry < registries)
    (fails : Event → Bool) (now : Nat) (config : Config) (locked : List FlowId) (path : Route)
    (segment : Segment) :
    let call : Call := ⟨fails, now, .receive config locked path segment⟩
    let turn : Turn := ⟨fails, now, .act registry 0 call.action⟩
    let first := fresh registries [ceiling]
    let before := (first.after turns).state registry 0
    let s := first.after (turns ++ [turn])
    let flow := segment.flow path
    s.state registry 0 = (before.perform fails now call.action).state ∧
      (∀ a ∈ before.arrivals call, fails a.delivery = true → before.BreaksOff call a) ∧
      (before.registry.find? flow = none → fails (.opened before.nextStream flow) = true →
        before.BreaksAtOnce call flow) ∧
      (s.arena 0).inUse ≤ ceiling ∧
      (∀ k d base, (∀ a ∈ first.arrivals (turns ++ [turn]), a.stream = k → a.direction = d →
          a.InWindow base) →
        ∀ r < registries, ∀ c ∈ (s.state r 0).connections, c.stream = k → (c.half d).WellFormed) ∧
      ∀ c ∈ (s.state registry 0).connections, c.isOver = true →
        ∀ more, (∀ t ∈ more, t.deed.Within registries 1) →
          let later := (s.after more).state registry 0
          (c ∈ later.connections ∨
            Event.completed c.stream c.flow ∈ (s.reports more).flatMap Report.events ∨
            ∃ t ∈ more, ∃ arena, t.deed = .act registry arena (.remove c.flow)) ∧
          (c ∈ later.connections → later.Recovers c) := by
  intro call turn first before s flow
  have hin' : ∀ t ∈ turns ++ [turn], t.deed.Within registries 1 := by
    intro t ht
    rcases List.mem_append.1 ht with ht | ht
    · exact hin t ht
    · rw [List.mem_singleton.1 ht]
      exact ⟨hlt, Nat.one_pos⟩
  have hfresh := solvent_fresh registries ceiling
  have hbefore := hfresh.after hin
  have hafter := hfresh.after hin'
  have hstate : s.state registry 0 = (before.perform fails now call.action).state := by
    have hs : s = ((first.after turns).turn turn).session := after_append turns [turn] first
    rw [hs, turn_act, state_report hbefore.shared hlt, if_pos rfl]
  obtain ⟨n, hcovers, -⟩ := hbefore.covers hlt {}
  refine ⟨hstate, fun a ha => Reassembly.breaksOff hcovers ha, fun hnone =>
    Reassembly.breaksAtOnce rfl hnone, (hafter.sound registry hlt).arena.inUse_le, ?_, ?_⟩
  · intro k d base hw r hr c hc hk
    have hlive : s.connectionAt r c.flow = some c := Reassembly.find?_of_mem (hafter.sound r hr).flows hc
    obtain ⟨hconsistent, hf⟩ := formed_of_fresh hw r c.flow c hlive
    exact (hf hk).wellFormed (hconsistent.closed d)
  · intro c hc hover more hmore
    have hlater := hafter.after hmore
    exact ⟨stays_after hafter hmore hlt hc hover, fun hc =>
      Reassembly.recovers (hlater.sound registry hlt) hc hover⟩

/-- A page waits beyond a gap, and the other direction is over. -/
def turnsBeforeBreakdown : List Turn :=
  [.ofSegment 0 1000 80 10 .syn [97], .ofSegment 0 1000 80 13 ⟨0⟩ [100], .ofSegment 0 80 1000 20 .fin []]

/-- A segment that fills the gap and ends its direction as well. -/
def lastSegment : Segment :=
  { srcPort := 1000, dstPort := 80, seq := .ofNat 12, flags := .fin, payload := [98] }

theorem breakdown_contained_at_the_end :
    (∀ t ∈ turnsBeforeBreakdown, t.deed.Within 1 1) ∧ 0 < 1 ∧
      let fails := ConsumerCall.breaks (some .delivery)
      let call : Call := ⟨fails, 0, .receive {} [] ⟨.v4 1, .v4 1⟩ lastSegment⟩
      let turn : Turn := ⟨fails, 0, .act 0 0 call.action⟩
      let before := ((fresh 1 [8]).after turnsBeforeBreakdown).state 0 0
      let s := (fresh 1 [8]).after (turnsBeforeBreakdown ++ [turn])
      (before.arrivals call).map (fun a => (fails a.delivery, (Chunk.pages a.work.chunks).length)) =
          [(true, 1)] ∧
        (∀ a ∈ before.arrivals call, fails a.delivery = true → before.BreaksOff call a) ∧
        ((s.state 0 0).connections.map Connection.isOver, (s.arena 0).inUse) = ([true], 1) ∧
        ∀ c ∈ (s.state 0 0).connections, c.isOver = true → (s.state 0 0).Recovers c := by
  have hin : ∀ t ∈ turnsBeforeBreakdown, t.deed.Within 1 1 := by decide
  obtain ⟨-, hbreaks, -, -, -, hover⟩ := breakdown_contained 1 8 turnsBeforeBreakdown hin 0 Nat.one_pos
    (ConsumerCall.breaks (some .delivery)) 0 {} [] ⟨.v4 1, .v4 1⟩ lastSegment
  refine ⟨hin, Nat.one_pos, by decide, hbreaks, by decide, fun c hc hdone => ?_⟩
  have hrecovers := (hover c hc hdone [] fun _ ht => nomatch ht).2
  simp only [after] at hrecovers
  exact hrecovers hc

end Session
end TcpStreams
