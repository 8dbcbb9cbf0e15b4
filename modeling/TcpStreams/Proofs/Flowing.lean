import TcpStreams.Proofs.Markers
import TcpStreams.Proofs.Retained
import TcpStreams.Proofs.Seamless

/-!
# Streams that flow

As long as a connection stays below its limit and the arena refuses no page, its half-streams never
leap: before a SYN nothing is handed over, and afterwards all that lies between the number that the SYN
sets and the position is.  So of all bytes not before that number, none comes too late.

* `Arrival.room_of_granted`: below the limit there are pages enough from the start.
* `HalfStream.Flowing`: a half-stream that has begun with a SYN and never leapt.
* `Arrival.work_flowing`: it flows on after a segment that does not close it.
* `HalfStream.Rooted`: the chunk of a SYN begins at the number that the SYN sets, and no other is empty.
-/

namespace TcpStreams

/-! ## Room -/

namespace Work

variable {ceiling limit : Nat} {d : Direction} {w : Work} {locked : List FlowId} {start : SeqNum}
  {payload : List UInt8} {ps : List Portion}

/-- The arrival of a segment gives no page back. -/
theorem arena_arrived_eq (w : Work) (d : Direction) (segment : Segment) :
    (w.arrived d segment).arena = w.arena := by
  have hfreed : ((w.connection.half d).arrive segment).freed = [] := by
    simp only [HalfStream.arrive, HalfStream.synchronize, Yield.andThen]
    split
    · split <;> rfl
    · rfl
  show w.arena.giveAll ((w.connection.half d).arrive segment).freed = w.arena
  rw [hfreed]
  rfl

/-- If no page is refused while portions are stored below the limit, there are pages enough from the
start. -/
theorem room_of_granted (hs : w.arena.Sound ceiling)
    (hbelow : w.connection.pageCount + ps.length < limit)
    (hg : Granted limit locked d start payload ps w) : w.arena.inUse + ps.length ≤ ceiling := by
  induction ps generalizing w with
  | nil => exact hs.inUse_le
  | cons p rest ih =>
      rw [List.length_cons] at hbelow ⊢
      obtain ⟨hspent, hg⟩ := hg
      rw [relieve_of_lt (by omega)] at hspent hg
      have hroom := hs.isSpent_eq_false_iff.1 hspent
      obtain ⟨hconn, -, hsound, hinUse, -⟩ :=
        @fillPage_of_room ceiling d w locked start payload hs hroom p
      have hcount := pageCount_hold (d := d) w.connection (p.page start payload)
      have hrest := ih hsound (by rw [hconn, hcount]; omega) hg
      omega

end Work

namespace Arrival

variable {ceiling : Nat} {a : Arrival}

/-- If no page is refused to a segment whose connection stays below its limit, there are pages enough from
the start. -/
theorem room_of_granted (hs : a.before.Sound ceiling)
    (hbelow : a.connection.pageCount + a.demand < a.config.pagesPerConnection) (hg : a.Granted) :
    a.state.arena.inUse + a.demand ≤ a.state.arena.ceiling := by
  have hceiling : a.state.arena.ceiling = ceiling := hs.arena.ceiling_eq
  rw [hceiling]
  cases hclosed : a.half.isClosed with
  | true =>
      rw [demand, if_pos hclosed]
      exact hs.arena.inUse_le
  | false =>
      rw [demand_of_open hclosed] at hbelow ⊢
      have harena := Work.arena_arrived_eq a.before a.direction a.segment
      have hroom := Work.room_of_granted (harena ▸ hs.arena)
        (by rw [Work.pageCount_arrived]; exact hbelow) (hg hclosed)
      rw [harena] at hroom
      exact hroom

/-- With room to spare, data that is ahead only goes into its places, and nothing is handed over. -/
theorem placed_of_ahead (hs : a.before.Sound ceiling) (hopen : a.half.isClosed = false)
    (hgranted : a.state.arena.inUse + a.demand ≤ a.state.arena.ceiling)
    (hbelow : a.connection.pageCount + a.demand < a.config.pagesPerConnection) {pieces : List Span}
    (hfit : a.before.fit a.direction a.segment = .ahead pieces)
    (hlead : Work.Leads ceiling a.direction [] a.before (a.before.arrived a.direction a.segment)) :
    Work.Leads ceiling a.direction [] a.before
        (a.before.placed a.config.pagesPerConnection a.locked a.direction a.segment) ∧
      (a.before.placed a.config.pagesPerConnection a.locked a.direction a.segment).connection.half
          a.direction =
        { (a.before.arrived a.direction a.segment).connection.half a.direction with
          pages := Backlog.insertAll
            ((pieces.flatMap Span.portions).map
              (Portion.page a.segment.payloadSeq a.segment.payload))
            ((a.before.arrived a.direction a.segment).connection.half a.direction).pages } := by
  rw [demand_of_open hopen] at hgranted hbelow
  obtain ⟨hplaced, hchunks⟩ := (@Work.placed_of_room ceiling a.config.pagesPerConnection a.direction
    a.before a.locked a.segment hs.arena hbelow (hs.arena.ceiling_eq ▸ hgranted)).2.2 pieces hfit
  obtain ⟨new, hlead'⟩ :=
    Work.leads_placed hs hopen a.config.pagesPerConnection a.locked a.segment
  have hnone : new = [] := by
    have hsame := hlead'.chunks
    rw [hchunks, hlead.chunks] at hsame
    exact (List.append_cancel_left hsame).symm
  exact ⟨hnone ▸ hlead', hplaced⟩

end Arrival

/-! ## Half-streams -/

namespace HalfStream

open Backlog (Covers)

variable {base : SeqNum} {h h' : HalfStream} {as : List Arrival} {ds : List Delivery} {a : Arrival}
  {cs : List Chunk} {accepted : List Cell}

/-- The half-stream is open.  If it has begun, so with a SYN, and what lies between the number that the SYN
sets and the position was handed over. -/
structure Flowing (base : SeqNum) (h : HalfStream) (as : List Arrival) (ds : List Delivery) : Prop where
  /-- The half-stream is open. -/
  isOpen : h.isClosed = false
  /-- It has begun exactly if a SYN began it. -/
  begun : h.next ≠ none ↔ ∃ a ∈ as, a.BeginsStream
  /-- From the number that the SYN sets on, all was handed over up to the position. -/
  whole : ∀ a ∈ as, a.BeginsStream → ∀ x, base.offset a.segment.payloadSeq ≤ x → x < h.pos base →
    Delivered base ds x

namespace Flowing

theorem new (d : Direction) : Flowing base (HalfStream.new d) [] [] := by
  refine ⟨rfl, ?_, fun _ ha => nomatch ha⟩
  simp [HalfStream.new]

/-- Only the phase and the position matter. -/
theorem congr (hf : Flowing base h as ds) (hclosed : h'.isClosed = h.isClosed)
    (hnext : h'.next = h.next) : Flowing base h' as ds := by
  have hpos : h'.pos base = h.pos base := by simp only [pos, hnext]
  refine ⟨hclosed.trans hf.isOpen, ?_, ?_⟩
  · rw [hnext]
    exact hf.begun
  · rw [hpos]
    exact hf.whole

/-- A segment that begins nothing does not matter. -/
theorem snoc_of_not_begins (hf : Flowing base h as ds) (hquiet : ¬ a.BeginsStream) :
    Flowing base h (as ++ [a]) ds := by
  refine ⟨hf.isOpen, ?_, fun x hx hb => ?_⟩
  · rw [exists_beginsStream_snoc, hf.begun]
    exact (or_iff_left hquiet).symm
  · rcases List.mem_append.1 hx with hx | hx
    · exact hf.whole x hx hb
    · obtain rfl := List.mem_singleton.1 hx
      exact absurd hb hquiet

/-- A move that does not leap lets the half-stream flow on. -/
theorem move (hf : Flowing base h as ds) (hp : Placed base h) (hm : Move false h cs h')
    (payload : List UInt8) : Flowing base h' as (ds ++ cs.map (Chunk.delivery payload)) := by
  have hclosed := hm.direction.2.1
  cases hm with
  | free _ _ | trim _ _ =>
      rw [List.map_nil, List.append_nil]
      exact hf.congr rfl rfl
  | @hand page rest phase hpages hb _ hn =>
      obtain ⟨-, hhi⟩ := hp.head hpages
      have hhi' := hi_trimmed hp.pos_le hhi hb
      have hpos := @pos_turn base h phase (h.trimmed page) rest (hhi' ▸ hhi)
      -- the chunk begins at the position
      have hlo : h.pos base = (h.trimmed page).lo base := pos_some (hn rfl)
      have hbegun := hf.begun.1 (hn rfl ▸ Option.some_ne_none _)
      refine ⟨hclosed.trans hf.isOpen, ⟨fun _ => hbegun, fun _ => Option.some_ne_none _⟩, ?_⟩
      intro a ha hb x hx hlt
      rw [List.map_singleton, delivered_snoc]
      by_cases hold : x < h.pos base
      · exact Or.inl (hf.whole a ha hb x hx hold)
      · refine Or.inr ⟨?_, Nat.lt_of_lt_of_eq hlt hpos⟩
        show (h.trimmed page).lo base ≤ x
        omega

/-- Draining lets the half-stream flow on. -/
theorem drain (hf : Flowing base h as ds) (hp : Placed base h) (payload : List UInt8) :
    Flowing base h.drain.value as (ds ++ h.drain.chunks.map (Chunk.delivery payload)) :=
  (h.drain_moves.keep (J := fun h ds => Placed base h ∧ Flowing base h as ds)
    (fun hJ hm => ⟨(hJ.1.move hm).1, hJ.2.move hJ.1 hm payload⟩) ⟨hp, hf⟩).2

/-- Data that goes through at once lets the half-stream flow on. -/
theorem taken (hf : Flowing base a.half as ds) (hp : Placed base a.half)
    (hw : a.InWindow base) (htaken : a.half.Taken a.segment accepted h' cs) :
    Flowing base h' (as ++ [a]) (ds ++ cs.map (Chunk.delivery a.segment.payload)) := by
  have hbegins : a.BeginsStream ↔ a.half.next = none ∧ a.segment.flags.isSyn = true :=
    and_iff_right hf.isOpen
  rcases htaken.handed with ⟨counters, -, rfl, rfl, -, hsyn, -⟩ | ⟨x, hcs, hx⟩
  · rw [List.map_nil, List.append_nil]
    have hquiet : ¬ a.BeginsStream := fun hb => hsyn hb.2.2 hb.2.1
    exact (hf.snoc_of_not_begins hquiet).congr rfl rfl
  · have hbegun : h'.next ≠ none ↔ ∃ x ∈ as ++ [a], x.BeginsStream := by
      rw [htaken.next_ne_none, exists_beginsStream_snoc, hbegins, ← hf.begun]
      tauto
    have hle : x.hi base ≤ SeqNum.reach :=
      hx.hi_le hp.pos_le fun hc => hw (hc.imp_left fun hb => ⟨hf.isOpen, hb⟩)
    refine ⟨hx.isOpen hf.isOpen, hbegun, fun y hy hb z hz hlt => ?_⟩
    rw [hx.pos_eq hle] at hlt
    rw [hcs, delivered_snoc]
    rcases List.mem_append.1 hy with hy | hy
    · -- the chunk begins at the position
      have hlo : x.lo base = a.half.pos base := by
        obtain ⟨next, hn⟩ := Option.ne_none_iff_exists'.1 (hf.begun.2 ⟨y, hy, hb⟩)
        rw [pos_some hn, Delivery.lo, (hx.passed next hn).2.2.1]
      by_cases hold : z < a.half.pos base
      · exact Or.inl (hf.whole y hy hb z hz hold)
      · exact Or.inr ⟨by omega, hlt⟩
    · -- the chunk holds all the data of the SYN
      obtain rfl := List.mem_singleton.1 hy
      obtain ⟨-, hseq, -⟩ := hx.begun (hbegins.1 hb).1
      refine Or.inr ⟨?_, hlt⟩
      rw [Delivery.lo, hseq]
      exact hz

end Flowing
end HalfStream

/-! ## Chunks without bytes -/

/-- The chunk of a SYN begins at the number that the SYN sets, and no other chunk is empty. -/
structure Delivery.Rooted (as : List Arrival) (ds : List Delivery) : Prop where
  /-- A chunk begins at the number that the SYN sets. -/
  opened : ∀ a ∈ as, a.BeginsStream → ∃ y ∈ ds, y.seq = a.segment.payloadSeq
  /-- An empty chunk does. -/
  sized : ∀ y ∈ ds, y.bytes = [] → ∃ a ∈ as, a.BeginsStream ∧ y.seq = a.segment.payloadSeq

namespace Delivery.Rooted

open HalfStream (Placed Move Moves Taken)

variable {base : SeqNum} {h h' : HalfStream} {as : List Arrival} {ds : List Delivery} {a : Arrival}
  {cs : List Chunk} {accepted : List Cell} {leaps : Bool}

theorem nil : Rooted [] [] := ⟨(fun _ ha => nomatch ha), (fun _ hy => nomatch hy)⟩

/-- One more chunk that is not empty is handed over. -/
theorem snoc (hr : Rooted as ds) {y : Delivery} (hy : y.bytes ≠ []) : Rooted as (ds ++ [y]) := by
  refine ⟨fun a ha hb => ?_, fun z hz hnil => ?_⟩
  · obtain ⟨z, hz, hseq⟩ := hr.opened a ha hb
    exact ⟨z, List.mem_append_left _ hz, hseq⟩
  · rcases List.mem_append.1 hz with hz | hz
    · exact hr.sized z hz hnil
    · obtain rfl := List.mem_singleton.1 hz
      exact absurd hnil hy

/-- A segment that begins nothing does not matter. -/
theorem snoc_of_not_begins (hr : Rooted as ds) (hquiet : ¬ a.BeginsStream) : Rooted (as ++ [a]) ds := by
  refine ⟨fun x hx hb => ?_, fun y hy hnil => ?_⟩
  · rcases List.mem_append.1 hx with hx | hx
    · exact hr.opened x hx hb
    · obtain rfl := List.mem_singleton.1 hx
      exact absurd hb hquiet
  · obtain ⟨x, hx, hb⟩ := hr.sized y hy hnil
    exact ⟨x, List.mem_append_left _ hx, hb⟩

/-- Moves hand no empty chunk on. -/
theorem move (hr : Rooted as ds) (hp : Placed base h) (hm : Move leaps h cs h')
    (payload : List UInt8) : Rooted as (ds ++ cs.map (Chunk.delivery payload)) := by
  cases hm with
  | free _ _ | trim _ _ =>
      rw [List.map_nil, List.append_nil]
      exact hr
  | @hand page rest phase hpages hb _ _ =>
      obtain ⟨hsize, hhi⟩ := hp.head hpages
      have hlo' := HalfStream.lo_trimmed hp.pos_le hhi hb
      have hhi' := HalfStream.hi_trimmed hp.pos_le hhi hb
      have hnew : ¬ page.hi base ≤ h.pos base := fun hle => by
        simp [(HalfStream.isBehind_iff hp.pos_le hhi hsize).2 hle] at hb
      refine hr.snoc (List.ne_nil_of_length_pos ?_)
      show 0 < (h.trimmed page).size
      simp only [Page.hi] at hhi' hnew
      omega

theorem moves (hr : Rooted as ds) (hp : Placed base h) (hm : Moves leaps h cs h')
    (payload : List UInt8) : Rooted as (ds ++ cs.map (Chunk.delivery payload)) :=
  (hm.keep (J := fun h ds => Placed base h ∧ Rooted as ds)
    (fun hJ hmove => ⟨(hJ.1.move hmove).1, hJ.2.move hJ.1 hmove payload⟩) ⟨hp, hr⟩).2

/-- Data that goes through at once is empty only if it comes with the SYN. -/
theorem taken (hr : Rooted as ds) (hopen : a.half.isClosed = false)
    (htaken : a.half.Taken a.segment accepted h' cs) :
    Rooted (as ++ [a]) (ds ++ cs.map (Chunk.delivery a.segment.payload)) := by
  rcases htaken.handed with ⟨counters, -, rfl, -, -, hsyn, -⟩ | ⟨y, hcs, hy⟩
  · rw [List.map_nil, List.append_nil]
    exact hr.snoc_of_not_begins fun hb => hsyn hb.2.2 hb.2.1
  · rw [hcs]
    cases hn : a.half.next with
    | none =>
        obtain ⟨hsyn, hseq, -⟩ := hy.begun hn
        have hbegins : a.BeginsStream := ⟨hopen, hn, hsyn⟩
        refine ⟨fun x hx hb => ?_, fun z hz hnil => ?_⟩
        · rcases List.mem_append.1 hx with hx | hx
          · obtain ⟨z, hz, hzseq⟩ := hr.opened x hx hb
            exact ⟨z, List.mem_append_left _ hz, hzseq⟩
          · obtain rfl := List.mem_singleton.1 hx
            exact ⟨y, List.mem_append_right _ (List.mem_singleton_self y), hseq⟩
        · rcases List.mem_append.1 hz with hz | hz
          · obtain ⟨x, hx, hb⟩ := hr.sized z hz hnil
            exact ⟨x, List.mem_append_left _ hx, hb⟩
          · obtain rfl := List.mem_singleton.1 hz
            exact ⟨a, List.mem_append_right _ (List.mem_singleton_self a), hbegins, hseq⟩
    | some next =>
        obtain ⟨-, hlt, -, hbytes, -⟩ := hy.passed next hn
        have hquiet : ¬ a.BeginsStream := fun hb => by simp [hb.2.1] at hn
        refine (hr.snoc_of_not_begins hquiet).snoc (List.ne_nil_of_length_pos ?_)
        rw [hbytes, List.length_drop]
        omega

/-- The steps of storing hand no empty chunk on. -/
theorem kept (base start : SeqNum) (payload : List UInt8) (as : List Arrival) :
    HalfStream.KeptStoring base start payload fun _ _ ds => Rooted as ds where
  leap hc _ hm hr := hr.moves hc.tidy.placed hm payload
  hold _ hr := hr
  lose _ _ _ hr := hr
  drop _ _ hr := hr

end Delivery.Rooted

/-! ## Segments -/

open HalfStream (Flowing Tidy Placed Calm)

namespace Arrival

variable {ceiling : Nat} {base : SeqNum} {a : Arrival} {as : List Arrival} {ds : List Delivery}

/-- Finding a place for the data of a segment lets the half-stream flow on. -/
theorem placed_flowing (hs : a.before.Sound ceiling)
    (hgranted : a.state.arena.inUse + a.demand ≤ a.state.arena.ceiling)
    (hbelow : a.connection.pageCount + a.demand < a.config.pagesPerConnection)
    (hw : a.InWindow base) (ht : Tidy base a.half) (hf : Flowing base a.half as ds) :
    Work.Reaches ceiling a.direction a.segment.payload
      (fun h ds => Placed base h ∧ Flowing base h (as ++ [a]) ds) ds a.before
      (a.before.placed a.config.pagesPerConnection a.locked a.direction a.segment) := by
  rcases @Work.placed_cases ceiling a.direction a.before hs hf.isOpen a.config.pagesPerConnection
    a.locked a.segment with ⟨pieces, counters, hfit, hhalf, -, hsyn, hlead⟩ | ⟨new, hlead, -, htaken⟩
  · obtain ⟨hlead, hplaced⟩ := placed_of_ahead hs hf.isOpen hgranted hbelow hfit hlead
    refine ⟨[], hlead, ?_⟩
    rw [hplaced, hhalf, Chunk.ofDirection_nil, List.map_nil, List.append_nil]
    rw [Work.fit_eq, hhalf] at hfit
    have hin := hw (Or.inr (List.ne_nil_of_length_pos (Fit.of_ahead hfit).1))
    have hstored := ((Calm.of_ahead (h := a.half) ht hin hfit).holdAll hin).tidy.placed
    have hquiet : ¬ a.BeginsStream := fun hb => hsyn hb.2.2 hb.2.1
    exact ⟨⟨hstored.spread, hstored.pos_le⟩, (hf.snoc_of_not_begins hquiet).congr rfl rfl⟩
  · exact ⟨new, hlead,
      htaken.placed ht.placed fun hc => hw (hc.imp_left fun hb => ⟨hf.isOpen, hb⟩),
      hf.taken ht.placed hw htaken⟩

/-- **A segment that does not close the half-stream lets it flow on**, if there is room to spare. -/
theorem work_flowing (hs : a.before.Sound ceiling)
    (hgranted : a.state.arena.inUse + a.demand ≤ a.state.arena.ceiling)
    (hbelow : a.connection.pageCount + a.demand < a.config.pagesPerConnection)
    (hw : a.InWindow base) (hstays : a.segment.flags.closes = false) (ht : Tidy base a.half)
    (hf : Flowing base a.half as ds) :
    Flowing base (a.work.connection.half a.direction) (as ++ [a])
      (ds ++ a.deliveries a.direction) := by
  have hplaced := placed_flowing hs hgranted hbelow hw ht hf
  have hopen := hf.isOpen
  rw [demand_of_open hopen] at hgranted hbelow
  have haccept := (@Work.accept_of_room ceiling a.config.pagesPerConnection a.direction a.before
    a.locked a.segment hs.arena hbelow (hs.arena.ceiling_eq ▸ hgranted)).2 hstays
  have hreaches : Work.Reaches ceiling a.direction a.segment.payload
      (fun h ds => Flowing base h (as ++ [a]) ds) ds a.before
      (a.before.accept a.config.pagesPerConnection a.locked a.direction a.segment) := by
    rw [haccept]
    exact hplaced.onHalf_of_moves (HalfStream.drain_moves _) fun hJ => hJ.2.drain hJ.1 _
  exact of_reaches hopen hreaches

/-- Working a segment in hands no empty chunk on but that of a SYN. -/
theorem work_rooted (hs : a.before.Sound ceiling) (hopen : a.half.isClosed = false)
    (hw : a.InWindow base) (hlimit : 0 < a.config.pagesPerConnection)
    (hcount : a.connection.pageCount < a.config.pagesPerConnection) (ht : Tidy base a.half)
    (hr : Delivery.Rooted as ds) : Delivery.Rooted (as ++ [a]) (ds ++ a.deliveries a.direction) :=
  (work_keeps (J := fun _ ds => Delivery.Rooted (as ++ [a]) ds) hs hopen hw hlimit hcount ht
    (fun _ => Delivery.Rooted.kept base _ _ _)
    (fun _ _ _ hsyn => hr.snoc_of_not_begins fun hb => hsyn hb.2.2 hb.2.1) id (hr.taken hopen)
    (fun hp hm hr => hr.move hp hm _) fun hr _ => hr).2

end Arrival

end TcpStreams
