import TcpStreams.Proofs.Conflicts
import TcpStreams.Proofs.Fitting
import TcpStreams.Proofs.Frames
import TcpStreams.Proofs.Runs

/-!
# Segments that come again

A segment that was worked in without loss leaves nothing for a second copy of it to do.  Whatever the first
one went through, was cut to pieces around waiting pages, was leapt over or began the stream, afterwards every
byte of it lies behind the next byte wanted or waits, and every page that waits begins beyond the next byte
wanted.  So the second one finds its data known, wants no page, and lets nothing move.

* `HalfStream.Knows`: what holds of a half-stream once a segment was worked in.
* `HalfStream.Knows.arrive`, `HalfStream.drain_of_cleared`: a segment that is known changes counters only.
* `Arrival.work_knows`: working a segment in makes it known, unless bytes are given up.
* `Session.repeats_idle`: the same segment once more, in every session.
-/

namespace TcpStreams

open Backlog (Covers)

/-! ## Known segments -/

namespace HalfStream

variable {base : SeqNum} {h : HalfStream} {segment : Segment}

/-- A half-stream whose pages all begin beyond the next byte wanted has nothing to drain. -/
theorem drain_of_cleared (ht : Tidy base h) (hc : h.Cleared base) : h.drain = { value := h } := by
  obtain ⟨direction, phase, next, pages, startDue, skipDue, counters⟩ := h
  cases next with
  | none => rfl
  | some next =>
      cases pages with
      | nil => rfl
      | cons page rest =>
          have hmem : page ∈ page :: rest := List.mem_cons_self ..
          have hb := ht.not_behind hmem
          have htrim := ht.trimmed_eq hmem
          have hlt := hc nofun page hmem
          have hne : page.seq ≠ next := by
            rintro rfl
            exact Nat.lt_irrefl _ hlt
          rw [isBehind_some rfl] at hb
          rw [trimmed_some rfl] at htrim
          simp [drain, Backlog.run, hb, htrim, hne, handOnPages]

/-- `h.Knows base segment`: the segment was worked in. -/
structure Knows (base : SeqNum) (segment : Segment) (h : HalfStream) : Prop where
  /-- The half-stream is tidy. -/
  tidy : Tidy base h
  /-- Every page begins beyond the next byte wanted. -/
  cleared : h.Cleared base
  /-- What the segment holds lies behind the position, or waits. -/
  keeps : h.Keeps base (segment.Holds base) []
  /-- There is nothing left for a SYN to begin. -/
  begun : segment.flags.isSyn = true → h.next ≠ none

/-- The half-stream with one more segment counted, as a retransmission if it has data. -/
def recount (h : HalfStream) (segment : Segment) : HalfStream :=
  { h with
    counters :=
      if segment.payload.isEmpty then h.counters.addSegment
      else h.counters.addSegment.addRetransmission }

namespace Knows

/-- **The data of a segment that is known is ignored.** -/
theorem fit_ignored (hk : h.Knows base segment) (hw : segment.payload ≠ [] →
      base.offset segment.payloadSeq + segment.payload.length ≤ SeqNum.reach) :
    (Fit.of h.next h.pages segment.payloadSeq segment.payload.length).isIgnored = true := by
  by_cases hne : segment.payload = []
  · rw [hne, List.length_nil, Fit.of_eq_empty_iff.2 rfl]
    rfl
  have hin := hw hne
  have hnext : ∀ n, h.next = some n → base.offset n ≤ SeqNum.reach := by
    intro n hn
    rw [← pos_some hn]
    exact hk.tidy.pos_le
  have hexact := Fit.of_exact hk.tidy.spread.apart hnext hin
  refine hexact.isIgnored_iff.2 ?_
  -- what does not lie behind the position waits
  have hwaits : ∀ x, segment.Holds base x → h.pos base ≤ x → Covers base h.pages x := by
    intro x hx hpos
    rcases hk.keeps x hx with hbehind | hextra | hcovers
    · omega
    · obtain ⟨_, hp, -⟩ := hextra
      exact absurd hp List.not_mem_nil
    · exact hcovers
  cases hn : h.next with
  | none =>
      refine Or.inr (Or.inr ⟨nofun, fun i hi => hwaits _ ⟨by omega, by omega⟩ ?_⟩)
      rw [pos_none hn]
      exact Nat.zero_le _
  | some next =>
      have hpos : h.pos base = base.offset next := pos_some hn
      by_cases hend : base.offset segment.payloadSeq + segment.payload.length ≤ base.offset next
      · exact Or.inr (Or.inl ⟨next, rfl, hend⟩)
      · have hahead : base.offset next < base.offset segment.payloadSeq := by
          by_contra hle
          -- the next byte wanted would wait, on a page that begins beyond it
          obtain ⟨page, hpage, hlo, -⟩ :=
            hwaits (base.offset next) ⟨by omega, by omega⟩ (Nat.le_of_eq hpos)
          have := hk.cleared (hn ▸ Option.some_ne_none next) page hpage
          omega
        refine Or.inr (Or.inr ⟨fun n hn' => ?_, fun i hi => hwaits _ ⟨by omega, by omega⟩ (by omega)⟩)
        obtain rfl := Option.some.inj hn'
        exact hahead

/-- **A segment that is known is counted**, and nothing else happens. -/
theorem arrive (hk : h.Knows base segment) (hw : segment.payload ≠ [] →
      base.offset segment.payloadSeq + segment.payload.length ≤ SeqNum.reach) :
    (h.arrive segment).value.1 = h.recount segment ∧ (h.arrive segment).value.2.isIgnored = true ∧
      (h.arrive segment).chunks = [] ∧ (h.arrive segment).freed = [] := by
  have hsyn : (segment.flags.isSyn && h.next.isNone) = false := by
    rw [Bool.and_eq_false_iff, Option.isNone_eq_false_iff, Option.isSome_iff_ne_none]
    exact Classical.or_iff_not_imp_left.2 fun hs => hk.begun (Bool.of_not_eq_false hs)
  have hsync : h.synchronize segment = { value := { h with counters := h.counters.addSegment } } := by
    simp only [synchronize, hsyn, Bool.false_eq_true, if_false]
  have hignored := hk.fit_ignored hw
  have hempty := @Fit.of_eq_empty_iff h.pages segment.payload.length h.next segment.payloadSeq
  simp only [HalfStream.arrive, Yield.andThen, hsync, HalfStream.recount, hignored, true_and]
  generalize Fit.of h.next h.pages segment.payloadSeq segment.payload.length = fit at hignored hempty
  have hdata : segment.payload.isEmpty = true ↔ fit = .empty := by
    rw [hempty, List.length_eq_zero_iff, List.isEmpty_iff]
  cases fit with
  | empty =>
      rw [hdata.2 rfl]
      exact ⟨rfl, rfl, rfl⟩
  | behind | covered =>
      have hsome : segment.payload.isEmpty = false := Bool.eq_false_iff.2 fun he => by cases hdata.1 he
      rw [hsome]
      exact ⟨rfl, rfl, rfl⟩
  | inOrder _ | ahead _ => cases hignored

/-- It stays known. -/
theorem recount (hk : h.Knows base segment) : (h.recount segment).Knows base segment :=
  ⟨⟨hk.tidy.spread, hk.tidy.pos_le⟩, hk.cleared, hk.keeps, hk.begun⟩

end Knows

/-! ## Getting to know a segment -/

/-- What is known of a segment while pages `extra` of it are yet to be stored: there is nothing left for its
SYN to begin, and unless more than `given` bytes were given up, what it holds lies behind the position, waits
or is to be stored. -/
structure Learns (base : SeqNum) (segment : Segment) (given : Nat) (extra : List Page) (h : HalfStream) :
    Prop where
  /-- There is nothing left for a SYN to begin. -/
  begun : segment.flags.isSyn = true → h.next ≠ none
  /-- So many bytes at least were given up. -/
  given_le : given ≤ h.counters.discarded
  /-- If no more were, all that the segment holds is there. -/
  keeps : h.counters.discarded = given → h.Keeps base (segment.Holds base) extra

namespace Learns

variable {given : Nat} {extra : List Page} {leaps : Bool} {h' : HalfStream} {cs : List Chunk}

theorem move (hl : h.Learns base segment given extra) (hp : Placed base h) (hm : Move leaps h cs h') :
    h'.Learns base segment given extra := by
  have hmoves := Moves.single hm
  have hsame : h'.counters.discarded = h.counters.discarded := hmoves.discarded_eq
  refine ⟨fun hs => hmoves.known (hl.begun hs), ?_, fun hd => ?_⟩
  · rw [hsame]
    exact hl.given_le
  · exact (hl.keeps (hsame.symm.trans hd)).move hp hm

theorem moves (hl : h.Learns base segment given extra) (hp : Placed base h) (hm : Moves leaps h cs h') :
    h'.Learns base segment given extra := by
  induction hm with
  | refl _ => exact hl
  | head hmove _ ih => exact ih (hl.move hp hmove) (hp.move hmove).1

/-- **Storing the segment keeps what is known of it**, whatever the arena says.  What is given up meanwhile is
counted. -/
theorem kept (given : Nat) (hw : base.offset segment.payloadSeq + segment.payload.length ≤ SeqNum.reach) :
    KeptAnywhere segment.payloadSeq segment.payload
      (fun h ps => Stowing base segment.payloadSeq segment.payload h ps ∧
        h.Learns base segment given (ps.map (Portion.page segment.payloadSeq segment.payload)))
      fun h => Placed base h ∧ h.Learns base segment given [] where
  leap := by
    rintro h ps ⟨hs, hl⟩
    exact ⟨hs.leap, hl.moves hs.placed h.leap_moves⟩
  lose := by
    rintro h page rest ps hpages ⟨hs, hl⟩
    have hle := hl.given_le
    have hlt := hs.placed.discarded_lose hpages
    refine ⟨hs.lose hpages, fun hsyn => ?_, by omega, fun hd => by omega⟩
    have hnext := hl.begun hsyn
    simpa only [HalfStream.lose, ne_eq, Option.map_eq_none_iff] using hnext
  hold := by
    rintro h p ps ⟨hs, hl⟩
    exact ⟨hs.hold hw, hl.begun, hl.given_le, fun hd => (hl.keeps hd).hold⟩
  drop := by
    rintro h p ps ⟨hs, hl⟩
    have hle := hl.given_le
    have hbounds := hs.laid.bounds p (List.mem_cons_self ..)
    have hstop := (hs.fits p (List.mem_cons_self ..)).1
    have hlt := h.discarded_drop (p := p) (by omega)
    exact ⟨⟨hs.placed.spread, hs.placed.pos_le⟩, hl.begun, by omega, fun hd => by omega⟩
  done := by
    rintro h ⟨hs, hl⟩
    exact ⟨hs.placed, hl⟩

end Learns
end HalfStream

namespace Arrival

open HalfStream (Formed Learns Placed)

variable {ceiling : Nat} {base : SeqNum} {a : Arrival}

/-- The segment costs its half-stream no bytes. -/
def Lossless (a : Arrival) : Prop :=
  (a.work.connection.half a.direction).counters.discarded = a.half.counters.discarded

instance (a : Arrival) : Decidable a.Lossless := inferInstanceAs (Decidable (_ = _))

/-- **Working a segment in makes it known**, unless its half-stream gives bytes up. -/
theorem work_knows (hb : a.state.arena.Blank) (hc : a.connection.Consistent)
    (hopen : a.half.isClosed = false) (hw : a.InWindow base) (hf : Formed base a.half)
    (hlossless : a.Lossless) : (a.work.connection.half a.direction).Knows base a.segment := by
  have ht := hf.tidy
  have hplaced := placed_keep
    (J := fun h => Placed base h ∧ h.Learns base a.segment a.half.counters.discarded [])
    (fun hne => Learns.kept _ (hw (Or.inr hne))) hb hc hopen ?_ ?_
  · obtain ⟨hplaced, hlearns⟩ := hplaced
    obtain ⟨h, cs, hmoves, hleft⟩ := work_settles hopen
    have hmoved := hlearns.moves hplaced hmoves
    have hlearned : (a.work.connection.half a.direction).Learns base a.segment
        a.half.counters.discarded [] := by
      rcases hleft with heq | ⟨-, heq⟩
      · rw [heq]
        exact hmoved
      · rw [heq]
        exact ⟨hmoved.begun, hmoved.given_le, fun hd => (hmoved.keeps hd).congr rfl rfl⟩
    obtain ⟨hformed, hcleared⟩ := work_formed hb hc hw hf
    exact ⟨hformed.tidy, hcleared, hlearned.keeps hlossless, hlearned.begun⟩
  · intro pieces counters hne hfit hcounters hsyn
    exact ⟨hf.stowing (hw (Or.inr hne)) hfit, hsyn, Nat.le_of_eq hcounters.symm,
      fun _ => (HalfStream.keeps_ahead ht.placed (hw (Or.inr hne)) hfit).congr rfl rfl⟩
  · intro accepted h' cs htaken
    refine ⟨htaken.placed ht.placed fun hd => hw (hd.imp_left fun hb => ⟨hopen, hb⟩),
      fun hs => htaken.next_ne_none.2 (Or.inr hs), Nat.le_of_eq htaken.discarded_eq.symm, fun _ => ?_⟩
    rcases htaken.handed with ⟨counters, -, -, hh, -, -, hspans⟩ | ⟨y, -, hy⟩
    · subst hh
      exact (HalfStream.keeps_nothing ht.placed (fun hne => hw (Or.inr hne)) hspans).congr rfl rfl
    · exact fun x hx => Or.inl (hy.past ht.pos_le (hw.of_open hopen) hx.1 hx.2)

end Arrival

/-! ## The work on a segment that is known -/

/-- The connection with one more segment counted in a direction, if that one is open. -/
def Connection.recount (c : Connection) (d : Direction) (segment : Segment) : Connection :=
  if (c.half d).isClosed then c else c.setHalf d ((c.half d).recount segment)

namespace Work

variable {limit : Nat} {locked : List FlowId} {d : Direction} {base : SeqNum} {segment : Segment}
  {w : Work}

/-- Nothing is drained from a half-stream whose pages all begin beyond the next byte wanted. -/
theorem drain_of_cleared (ht : HalfStream.Tidy base (w.connection.half d))
    (hc : (w.connection.half d).Cleared base) : w.onHalf d HalfStream.drain = w := by
  obtain ⟨connection, entries, arena, chunks, notes⟩ := w
  rw [onHalf, Connection.onHalf, HalfStream.drain_of_cleared ht hc]
  simp only [absorb, Yield.map, Connection.setHalf_half, List.append_nil, Arena.giveAll_nil]

/-- **A segment that is known is counted**, and nothing else happens. -/
theorem accept_of_known (hk : (w.connection.half d).Knows base segment)
    (hw : segment.payload ≠ [] →
      base.offset segment.payloadSeq + segment.payload.length ≤ SeqNum.reach)
    (hcount : w.connection.pageCount < limit) (hcloses : segment.flags.closes = false) :
    let w' := w.accept limit locked d segment
    w'.connection = w.connection.setHalf d ((w.connection.half d).recount segment) ∧
      w'.entries = w.entries ∧ w'.arena = w.arena ∧ w'.chunks = w.chunks := by
  obtain ⟨hvalue, hignored, hchunks, hfreed⟩ := hk.arrive hw
  have hconn : (w.arrived d segment).connection =
      w.connection.setHalf d ((w.connection.half d).recount segment) :=
    congrArg (w.connection.setHalf d) hvalue
  have hhalf : (w.arrived d segment).connection.half d = (w.connection.half d).recount segment := by
    rw [hconn, Connection.half_setHalf]
  have hplaced : w.placed limit locked d segment = w.arrived d segment := by
    rw [placed, fit]
    generalize ((w.connection.half d).arrive segment).value.2 = fit at hignored
    cases fit with
    | empty | behind | covered => rfl
    | inOrder _ | ahead _ => cases hignored
  have hdrained : (w.arrived d segment).onHalf d HalfStream.drain = w.arrived d segment :=
    @drain_of_cleared d base _ (hhalf ▸ hk.recount.tidy) (hhalf ▸ hk.recount.cleared)
  have hcount' : (w.arrived d segment).connection.pageCount < limit := by
    rw [hconn, Connection.pageCount_setHalf]
    rwa [Connection.pageCount_eq _ d] at hcount
  have hsettled : w.settled limit locked d segment = w.arrived d segment := by
    rw [settled, hplaced, hdrained, relieve_of_lt hcount']
  rw [accept_eq, if_neg (ne_true_of_eq_false hcloses), hsettled]
  refine ⟨hconn, rfl, ?_, ?_⟩
  · show w.arena.giveAll ((w.connection.half d).arrive segment).freed = w.arena
    rw [hfreed, Arena.giveAll_nil]
  · show w.chunks ++ ((w.connection.half d).arrive segment).chunks = w.chunks
    rw [hchunks, List.append_nil]

end Work

/-- **A segment that is known arrives once more**: it is counted, if its direction is open, and nothing else
happens. -/
theorem Arrival.work_of_known {base : SeqNum} {a : Arrival}
    (hk : a.half.isClosed = false → a.half.Knows base a.segment)
    (hw : a.segment.payload ≠ [] →
      base.offset a.segment.payloadSeq + a.segment.payload.length ≤ SeqNum.reach)
    (hcount : a.connection.pageCount < a.config.pagesPerConnection)
    (hcloses : a.segment.flags.closes = false) :
    a.work.connection = a.connection.recount a.direction a.segment ∧
      a.work.entries = a.state.registry.entries ∧ a.work.arena = a.state.arena ∧ a.work.chunks = [] := by
  cases hclosed : a.half.isClosed with
  | true =>
      have hsame : a.connection.recount a.direction a.segment = a.connection := if_pos hclosed
      rw [hsame]
      exact Arrival.work_of_closed hclosed
  | false =>
      have hcounted : a.connection.recount a.direction a.segment =
          a.connection.setHalf a.direction (a.half.recount a.segment) :=
        if_neg (ne_true_of_eq_false hclosed)
      rw [hcounted, Arrival.work_of_open hclosed]
      exact Work.accept_of_known (w := a.before) (hk hclosed) hw hcount hcloses

/-! ## Calls -/

namespace Arrival

variable {fails : Event → Bool} {a : Arrival}

/-- A segment without FIN and RST ends no direction. -/
theorem isOver_work (hcloses : a.segment.flags.closes = false) :
    a.work.connection.isOver = a.connection.isOver := by
  obtain ⟨-, hown, hother, -⟩ := a.continues_work
  rw [hcloses, Bool.or_false, half] at hown
  rw [Reassembly.isOver_eq _ a.direction, Reassembly.isOver_eq _ a.direction, hown, hother]

/-- If the stream is not over then, the chunks are handed over and that is all, whether or not the consumer
breaks down. -/
theorem finish_of_going (hover : a.work.connection.isOver = false) :
    (a.finish fails).state = (a.handed fails).state ∧ (a.finish fails).events = [a.delivery] := by
  cases hbreaks : fails a.delivery with
  | true =>
      obtain ⟨hstate, -, hevents⟩ := finish_of_breaks hbreaks
      exact ⟨hstate, hevents⟩
  | false =>
      obtain ⟨hstate, hevents⟩ := finish_of_returns hbreaks
      rw [hover] at hstate hevents
      exact ⟨hstate, hevents⟩

end Arrival

namespace Reassembly

open HalfStream (Formed)

variable {ceiling : Nat} {s : Reassembly} {call : Call} {a : Arrival} {base : SeqNum} {c : Connection}
  {fails : Event → Bool} {now : Nat} {config : Config} {locked : List FlowId} {path : Route}
  {segment : Segment}

/-- A segment arrives at the connection of its conversation, or at a new one. -/
theorem connection_of_arrives (ha : a ∈ s.arrivals call) :
    s.registry.find? a.connection.flow = some a.connection ∨
      ∃ flow opener now, a.connection = Connection.new flow opener s.nextStream now := by
  obtain ⟨path, -, -, hres, -⟩ := mem_arrivals ha
  have hlive := find?_of_lookUp hres
  rw [(find?_eq_some hlive).2]
  rcases (s.opens_lookUp _ _ _ _).1.live _ _ hlive with hfound | ⟨-, -, opener, now, hnew⟩
  · exact Or.inl hfound
  · exact Or.inr ⟨_, opener, now, hnew⟩

/-- A segment that ends no direction leaves its connection live, unless both directions were over. -/
theorem find?_of_arrives (hd : s.DistinctFlows) (ha : a ∈ s.arrivals call)
    (hover : a.connection.isOver = false) (hcloses : a.segment.flags.closes = false) :
    (s.perform call.fails call.now call.action).state.registry.find? a.connection.flow =
      some a.work.connection := by
  have hflow := a.continues_work.1.flow
  have hdistinct : a.state.DistinctFlows := by
    obtain ⟨path, -, hstate, -⟩ := mem_arrivals ha
    exact hstate ▸ distinct_lookUp hd ..
  obtain ⟨-, c, hlive, hsame⟩ := distinct_worked hdistinct (find?_eq_some (find?_arrived ha)).1
  rw [state_of_arrives ha, (Arrival.finish_of_going ((Arrival.isOver_work hcloses).trans hover)).1,
    Arrival.handed, registry_handOver, Registry.find?_replace, hflow, if_pos rfl]
  cases hfind : a.worked.registry.find? a.connection.flow with
  | some x => rfl
  | none => exact absurd (hsame.trans hflow) (find?_eq_none hfind c hlive)

/-- A segment that arrives without loss is known then, if its direction is open. -/
theorem knows_of_arrives (hb : s.arena.Blank) (ha : a ∈ s.arrivals call) (hw : a.InWindow base)
    (hlimit : 0 < a.config.pagesPerConnection)
    (hcount : ∀ flow c, s.registry.find? flow = some c → c.pageCount < a.config.pagesPerConnection)
    (hf : ∀ flow c, s.registry.find? flow = some c →
      c.Consistent ∧ (c.stream = a.stream → Formed base (c.half a.direction)))
    (hlossless : a.Lossless) :
    a.work.connection.pageCount < a.config.pagesPerConnection ∧
      ((a.work.connection.half a.direction).isClosed = false →
        (a.work.connection.half a.direction).Knows base a.segment) := by
  have hblank : a.state.arena.Blank := by
    obtain ⟨path, -, hstate, -⟩ := mem_arrivals ha
    rw [← hstate, (s.opens_lookUp _ _ _ _).1.arena]
    exact hb
  obtain ⟨hbelow, hc, hformed⟩ : a.connection.pageCount < a.config.pagesPerConnection ∧
      a.connection.Consistent ∧ Formed base a.half := by
    rcases connection_of_arrives ha with hlive | ⟨flow, opener, now, hnew⟩
    · obtain ⟨hc, hformed⟩ := hf _ _ hlive
      exact ⟨hcount _ _ hlive, hc, hformed rfl⟩
    · rw [Arrival.half, hnew, Connection.half_new]
      exact ⟨hlimit, Connection.consistent_new .., .new _⟩
  refine ⟨Arrival.pageCount_work hlimit hbelow, fun hopen => ?_⟩
  rw [a.continues_work.2.1, Bool.or_eq_false_iff] at hopen
  exact Arrival.work_knows hblank hc hopen.1 hw hformed hlossless

/-- **A segment that is known is counted** in its connection if its direction is open.  Its consumer is handed
no chunks, and nothing else happens, even if it breaks down. -/
theorem perform_of_known (hd : s.DistinctFlows) (hfind : s.registry.find? (segment.flow path) = some c)
    (hover : c.isOver = false)
    (hk : (c.half (c.directionFrom (segment.src path))).isClosed = false →
      (c.half (c.directionFrom (segment.src path))).Knows base segment)
    (hw : segment.payload ≠ [] →
      base.offset segment.payloadSeq + segment.payload.length ≤ SeqNum.reach)
    (hcount : c.pageCount < config.pagesPerConnection) (hcloses : segment.flags.closes = false) :
    let o := s.perform fails now (.receive config locked path segment)
    o.events = [.delivered c.stream c.flow []] ∧ o.state.arena = s.arena ∧
      ∀ flow, o.state.registry.find? flow =
        if flow = c.flow then some (c.recount (c.directionFrom (segment.src path)) segment)
        else s.registry.find? flow := by
  intro o
  have hflow : c.flow = segment.flow path := (find?_eq_some hfind).2
  obtain ⟨hres, -, -, hsame⟩ := @lookUp_found s fails _ now c hfind (segment.src path)
  have harena := (s.opens_lookUp fails (segment.flow path) (segment.src path) now).1.arena
  obtain ⟨a, harrivals, hstate, rfl, -⟩ :=
    @receive_of_ok s fails config locked path segment now c hres
  have ha : a ∈ s.arrivals ⟨fails, now, .receive config locked path segment⟩ :=
    harrivals ▸ List.mem_singleton_self a
  obtain ⟨⟨rfl, rfl, rfl⟩, -, -, hdirection⟩ := arrivals_receive ha
  rw [← hdirection] at hk ⊢
  obtain ⟨hconn, hentries, hwork, hchunks⟩ := Arrival.work_of_known hk hw hcount hcloses
  have hkin := a.continues_work.1
  obtain ⟨hdone, -, htold⟩ := perform_of_arrives hd ha
  obtain ⟨hhanded, hevents⟩ :=
    @Arrival.finish_of_going fails a ((Arrival.isOver_work hcloses).trans hover)
  have hlive : s.streamOf a.connection.flow = some a.stream := by
    rw [streamOf, hflow, hfind]
    rfl
  refine ⟨?_, ?_, fun flow => ?_⟩
  · simp only [o, htold, hevents, opening, hlive, Option.isNone_some, Bool.false_eq_true, if_false,
      List.nil_append, Arrival.delivery, hchunks, hkin.stream, hkin.flow, List.map_nil]
  · have hkept : (a.handed fails).state.arena = a.worked.arena := by
      rw [Arrival.handed, handOver, hchunks]
      split <;> rfl
    rw [hdone, hhanded, hkept]
    exact hwork.trans (hstate ▸ harena)
  · have hworked : a.worked.registry.find? flow = s.registry.find? flow := by
      rw [← hsame, ← hstate]
      simp only [Arrival.worked, hentries]
    rw [hdone, hhanded, Arrival.handed, registry_handOver, Registry.find?_replace, hkin.flow, hworked,
      hconn]
    split
    · next heq => rw [heq, hflow, hfind, Option.map_some]
    · rfl

end Reassembly

/-! ## Sessions -/

namespace Session

/-- What a turn of a reassembler leaves of the connections. -/
theorem connectionAt_act {s : Session} {registry : Nat} (hlt : registry < s.registries.length)
    (fails : Event → Bool) (now arena : Nat) (action : Action) (r : Nat) (flow : FlowId) :
    (s.turn ⟨fails, now, .act registry arena action⟩).session.connectionAt r flow =
      if r = registry then ((s.state registry arena).perform fails now action).state.registry.find? flow
      else s.connectionAt r flow := by
  rw [connectionAt, turn_act, s.registry_report_of_lt hlt]
  split <;> rfl

/-- Nothing changes if an arena is put back where it was. -/
theorem arenas_set_arena (s : Session) (arena : Nat) : s.arenas.set arena (s.arena arena) = s.arenas := by
  rw [Session.arena, List.getD_eq_getElem?_getD]
  by_cases hlt : arena < s.arenas.length
  · rw [List.getElem?_eq_getElem hlt, Option.getD_some, List.set_getElem_self]
  · exact List.set_eq_of_length_le (Nat.le_of_not_lt hlt)

/-- **A segment that comes again changes nothing.** Let any number of reassemblers and other parties share
registries and arenas of any ceilings, and let consumers break down in any calls.  Let the segments of each
direction of each stream lie in a window, and let all calls on a registry come with one limit.  Now a segment
without FIN and RST is worked in there, and its half-stream gives up none of its bytes meanwhile.

Its connection is live then, unless both of its directions were over before.  When the same segment comes
again, with whichever arena, the consumer is handed no chunks.  If its direction is open, the segment is
counted, as a retransmission if it has data; and that is all that changes in any connection and in any arena,
whoever breaks down. -/
theorem repeats_idle (registries : Nat) (ceilings : List Nat) (turns : List Turn) (registry arena : Nat)
    (hlt : registry < registries) (fails : Event → Bool) (now : Nat) (config : Config)
    (locked : List FlowId) (path : Route) (segment : Segment) (hcloses : segment.flags.closes = false)
    (hlimit : 0 < config.pagesPerConnection)
    (hlimits : ∀ t ∈ turns, t.HasLimit registry config.pagesPerConnection)
    (base : Nat → Direction → SeqNum)
    (hw : ∀ a ∈ (fresh registries ceilings).arrivals
      (turns ++ [⟨fails, now, .act registry arena (.receive config locked path segment)⟩]),
      a.InWindow (base a.stream a.direction)) :
    let s := (fresh registries ceilings).after turns
    let turn : Turn := ⟨fails, now, .act registry arena (.receive config locked path segment)⟩
    let once := (s.turn turn).session
    ∀ a ∈ s.turnArrivals turn, a.connection.isOver = false → a.Lossless →
      once.connectionAt registry a.connection.flow = some a.work.connection ∧
      ∀ fails' now' arena' locked',
        let report :=
          once.turn ⟨fails', now', .act registry arena' (.receive config locked' path segment)⟩
        report.events = [.delivered a.stream a.connection.flow []] ∧
          report.session.arenas = once.arenas ∧
          ∀ r flow, report.session.connectionAt r flow =
            if r = registry ∧ flow = a.connection.flow then
              some (a.work.connection.recount a.direction segment)
            else once.connectionAt r flow := by
  intro s turn once a ha hover hlossless
  have ha : a ∈ (s.state registry arena).arrivals ⟨fails, now, .receive config locked path segment⟩ := ha
  obtain ⟨⟨rfl, rfl, rfl⟩, -, hflow, hdirection⟩ := Reassembly.arrivals_receive ha
  have hlength : s.registries.length = registries := length_registries_after registries ceilings turns
  have honce : registry < once.registries.length := by
    rw [length_registries_turn, hlength]
    exact hlt
  rw [arrivals_append] at hw
  have hwindow : a.InWindow (base a.stream a.direction) :=
    hw a (List.mem_append_right _ (List.mem_append_left _ ha))
  -- what is there before the segment arrives
  have hbelow : ∀ flow c, s.connectionAt registry flow = some c →
      c.pageCount < a.config.pagesPerConnection := limited_of_fresh hlimit hlimits
  have hformed : ∀ flow c, s.connectionAt registry flow = some c → c.Consistent ∧
      (c.stream = a.stream → HalfStream.Formed (base a.stream a.direction) (c.half a.direction)) := by
    refine formed_of_fresh (fun x hx hstream hd => ?_) registry
    have := hw x (List.mem_append_left _ hx)
    rwa [hstream, hd] at this
  have hdistinct : ∀ arena, (s.state registry arena).DistinctFlows :=
    distinct_after registries ceilings turns registry
  -- what the segment leaves
  have hblank := ((kempt_after registries ceilings turns).state registry arena).blank
  obtain ⟨hcount, hknows⟩ := Reassembly.knows_of_arrives hblank ha hwindow hlimit hbelow hformed hlossless
  have hlive : once.connectionAt registry a.connection.flow = some a.work.connection := by
    rw [connectionAt_act (hlength ▸ hlt), if_pos rfl]
    exact Reassembly.find?_of_arrives (hdistinct arena) ha hover hcloses
  have hkin := a.continues_work.1
  have hsame : a.work.connection.directionFrom (a.segment.src path) = a.direction := by
    rw [hdirection, Connection.directionFrom, hkin.opener]
    rfl
  refine ⟨hlive, fun fails' now' arena' locked' => ?_⟩
  have hdistinct' : (once.state registry arena').DistinctFlows := by
    have hafter := distinct_after registries ceilings (turns ++ [turn]) registry arena'
    rwa [after_append] at hafter
  obtain ⟨hevents, harena, hfound⟩ := @Reassembly.perform_of_known (once.state registry arena')
    (base a.stream a.direction) a.work.connection fails' now' a.config locked' path a.segment
    hdistinct' (hflow ▸ hlive) ((Arrival.isOver_work hcloses).trans hover)
    (hsame.symm ▸ hknows) (fun hne => hwindow (Or.inr hne)) hcount hcloses
  rw [hkin.stream, hkin.flow] at hevents
  rw [hkin.flow, hsame] at hfound
  refine ⟨hevents, ?_, fun r flow => ?_⟩
  · exact (congrArg (once.arenas.set arena') harena).trans (once.arenas_set_arena arena')
  · rw [connectionAt_act honce]
    by_cases hr : r = registry
    · simp only [hr, true_and, if_true, hfound]
      rfl
    · simp only [hr, false_and, if_false]

/-- Five bytes around the number 20. -/
def segmentAround : Segment :=
  { srcPort := 1, dstPort := 2, seq := .ofNat 18, flags := ⟨0⟩, payload := [97, 98, 99, 100, 101] }

/-- The second copy comes with another arena, which has no page to hand out. -/
theorem repeats_idle_after_a_leap :
    let s := (fresh 1 [9, 0]).after [turnUnder 3 20]
    let turn : Turn := ⟨fun _ => false, 0,
      .act 0 0 (.receive { pagesPerConnection := 3 } [] ⟨.v4 1, .v4 2⟩ segmentAround)⟩
    let once := (s.turn turn).session
    let report := once.turn ⟨fun _ => false, 0,
      .act 0 1 (.receive { pagesPerConnection := 3 } [] ⟨.v4 1, .v4 2⟩ segmentAround)⟩
    (s.turnArrivals turn).map (fun a => (a.connection.isOver, decide a.Lossless)) = [(false, true)] ∧
      ((s.turn turn).events.flatMap (Event.deliveries 0 .forward)).map (fun y => (y.seq, y.bytes)) =
        [(.ofNat 18, [97, 98]), (.ofNat 20, [97]), (.ofNat 21, [100, 101])] ∧
      ∀ a ∈ s.turnArrivals turn,
        let h := a.work.connection.half a.direction
        report.events = [.delivered a.stream a.connection.flow []] ∧
          report.session.arenas = once.arenas ∧
          report.session.connectionAt 0 a.connection.flow = some (a.work.connection.setHalf a.direction
            { h with counters := h.counters.addSegment.addRetransmission }) := by
  intro s turn once report
  have hlimits : ∀ t ∈ [turnUnder 3 20], t.HasLimit 0 3 := by
    intro t ht arena config locked path segment hdeed
    obtain rfl := List.mem_singleton.1 ht
    cases hdeed
    rfl
  have hw : ∀ a ∈ (fresh 1 [9, 0]).arrivals ([turnUnder 3 20] ++ [turn]),
      a.InWindow (SeqNum.ofNat 0) := by decide
  have harrives : ∀ a ∈ s.turnArrivals turn, a.connection.isOver = false ∧ a.Lossless ∧
      (a.work.connection.half a.direction).isClosed = false := by decide
  refine ⟨by decide, by decide, fun a ha => ?_⟩
  obtain ⟨hover, hlossless, hopen⟩ := harrives a ha
  obtain ⟨-, hidle⟩ := repeats_idle 1 [9, 0] [turnUnder 3 20] 0 0 Nat.one_pos (fun _ => false) 0
    { pagesPerConnection := 3 } [] ⟨.v4 1, .v4 2⟩ segmentAround rfl (by decide) hlimits
    (fun _ _ => .ofNat 0) hw a ha hover hlossless
  obtain ⟨hevents, harenas, hlive⟩ := hidle (fun _ => false) 0 1 []
  have hrecount : a.work.connection.recount a.direction segmentAround = a.work.connection.setHalf
      a.direction ((a.work.connection.half a.direction).recount segmentAround) :=
    if_neg (ne_true_of_eq_false hopen)
  refine ⟨hevents, ?_, ?_⟩
  · -- otherwise both sessions are evaluated
    with_reducible exact harenas
  · rw [hlive, if_pos ⟨rfl, rfl⟩, hrecount]
    rfl

/-- Both directions of a stream are over, and its consumer broke down when it was told so. -/
def turnsToHang : List Turn :=
  [.ofSegment 0 1000 80 9 .fin [],
    { Turn.ofSegment 0 80 1000 19 .fin [] with fails := ConsumerCall.breaks (some .completion) }]

/-- A segment that comes too late for its stream ends it, and when it comes again it begins another one. -/
theorem repeats_not_idle_once_over :
    let turn : Turn := .ofSegment 0 1000 80 29 ⟨0⟩ [97]
    let s := (fresh 1 [4]).after turnsToHang
    let once := (s.turn turn).session
    let twice := (once.turn turn).session
    (∀ t ∈ turnsToHang, t.deed.Within 1 1) ∧ (∀ t ∈ turnsToHang ++ [turn], t.HasLimit 0 256) ∧
      (∀ a ∈ (fresh 1 [4]).arrivals (turnsToHang ++ [turn, turn]), a.InWindow (.ofNat 0)) ∧
      (s.turnArrivals turn).map (fun a => (a.connection.isOver, decide a.Lossless)) = [(true, true)] ∧
      (once.arena 0).inUse = 0 ∧ (twice.arena 0).inUse = 1 ∧
      (once.registry 0).entries.length = 0 ∧ (twice.registry 0).entries.length = 1 := by
  refine ⟨by decide, fun t ht arena config locked path segment hdeed => ?_, by decide⟩
  simp only [turnsToHang, List.cons_append, List.nil_append, List.mem_cons, List.not_mem_nil,
    or_false] at ht
  rcases ht with rfl | rfl | rfl <;> cases hdeed <;> rfl

end Session
end TcpStreams
