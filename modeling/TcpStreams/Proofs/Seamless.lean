import Mathlib.Order.Bounds.Defs
import TcpStreams.Proofs.Room

/-!
# Seamless delivery

A sender numbers a line of bytes from some origin on, and its segments carry stretches of the line, in
any order, over and over, and overlapping as they like.  With room for all that has to wait, what is
handed over is always as much of the line as has come without a gap, from its beginning on, however
often the numbers go round.

Positions in the line are not numbers: the line may be longer than numbers can tell.  What is known of
a half-stream is told in a window that begins where the next byte is wanted, and is moved along after
every segment.

* `HalfStream.Tracks`: what has come is handed over up to the position, and waits beyond it.
* `HalfStream.Tracks.taken`, `HalfStream.Tracks.stored`, `HalfStream.Tracks.drain`: the steps of the
  work on a segment.
* `Reassembly.deliveries_seamless`: what is handed over is as much of the line as has come.
-/

namespace TcpStreams

/-! ## What a sender does, and what a consumer sees -/

/-- The bytes of chunks, put together. -/
def Delivery.concat (ds : List Delivery) : List UInt8 := ds.flatMap Delivery.bytes

theorem Delivery.concat_append (ds ds' : List Delivery) :
    concat (ds ++ ds') = concat ds ++ concat ds' := List.flatMap_append ..

/-- No chunk carries a skip mark, and the first one, if there is one, is the only one with a start
mark. -/
structure Delivery.Seamless (ds : List Delivery) : Prop where
  /-- There are no skip marks. -/
  skip : ∀ x ∈ ds, x.skip = false
  /-- The first chunk has a start mark. -/
  head : ∀ x ∈ ds.head?, x.start = true
  /-- The others have none. -/
  tail : ∀ x ∈ ds.tail, x.start = false

theorem Delivery.Seamless.snoc {ds : List Delivery} (h : Seamless ds) {x : Delivery}
    (hskip : x.skip = false) (hstart : x.start = true ↔ ds = []) : Seamless (ds ++ [x]) := by
  cases ds with
  | nil =>
      refine ⟨?_, ?_, nofun⟩
      · simpa using hskip
      · simpa using hstart
  | cons y rest =>
      refine ⟨?_, h.head, ?_⟩
      · intro z hz
        rcases List.mem_append.1 hz with hz | hz
        · exact h.skip z hz
        · obtain rfl := List.mem_singleton.1 hz
          exact hskip
      · intro z hz
        rcases List.mem_append.1 hz with hz | hz
        · exact h.tail z hz
        · obtain rfl := List.mem_singleton.1 hz
          simpa using hstart

namespace Arrival

/-- The segment carries what `line` holds from position `i` on, where position zero has the number
`origin`.  A SYN carries the beginning of the line, and the segment does not end the stream. -/
structure Carries (origin : SeqNum) (line : List UInt8) (i : Nat) (a : Arrival) : Prop where
  /-- The data has the number of its position. -/
  seq : a.segment.payloadSeq = origin.advance i
  /-- It is what the line holds there. -/
  payload : a.segment.payload <+: line.drop i
  /-- The data of a SYN is the beginning of the line. -/
  syn : a.segment.flags.isSyn = true → i = 0
  /-- The segment carries neither FIN nor RST. -/
  stays : a.segment.flags.closes = false

instance (origin : SeqNum) (line : List UInt8) (i : Nat) (a : Arrival) :
    Decidable (a.Carries origin line i) :=
  decidable_of_iff (a.segment.payloadSeq = origin.advance i ∧ a.segment.payload <+: line.drop i ∧
      (a.segment.flags.isSyn = true → i = 0) ∧ a.segment.flags.closes = false)
    ⟨fun h => ⟨h.1, h.2.1, h.2.2.1, h.2.2.2⟩, fun h => ⟨h.seq, h.payload, h.syn, h.stays⟩⟩

/-- The segment lies near position `m`, so that its place is known from its number. -/
def Near (m i : Nat) (a : Arrival) : Prop :=
  m ≤ i + SeqNum.reach ∧ i + a.segment.payload.length ≤ m + SeqNum.reach

instance (m i : Nat) (a : Arrival) : Decidable (a.Near m i) :=
  inferInstanceAs (Decidable (_ ∧ _))

section Place

variable {origin : SeqNum} {line : List UInt8} {m i : Nat} {a : Arrival}

/-- In a window that begins no later than the data, the data lies at its place. -/
theorem Carries.offset_eq (hc : a.Carries origin line i) (hnear : a.Near m i) (hle : m ≤ i) :
    (origin.advance m).offset a.segment.payloadSeq = i - m := by
  have hreach : SeqNum.reach = 0x7fffffff := rfl
  have hsum : m + (i - m) = i := Nat.add_sub_cancel' hle
  have hend := hnear.2
  rw [hc.seq, ← hsum, ← SeqNum.advance_advance, SeqNum.offset_advance_self _ (by omega), hsum]

/-- The distance from the beginning of the window to the data is the one in the line. -/
theorem Carries.distance_eq (hc : a.Carries origin line i) (hnear : a.Near m i) :
    (origin.advance m).distance a.segment.payloadSeq = (i : Int) - m := by
  rw [hc.seq]
  exact SeqNum.distance_advance_advance origin hnear.1
    (Nat.le_trans (Nat.le_add_right ..) hnear.2)

end Place

/-- Whether the data of one of the segments, each of which has its place in the line, covers
position `x`. -/
def Covered (place : Arrival → Nat) (as : List Arrival) (x : Nat) : Prop :=
  ∃ a ∈ as, place a ≤ x ∧ x < place a + a.segment.payload.length

theorem covered_snoc {place : Arrival → Nat} {as : List Arrival} {a : Arrival} {x : Nat} :
    Covered place (as ++ [a]) x ↔
      Covered place as x ∨ (place a ≤ x ∧ x < place a + a.segment.payload.length) := by
  simp [Covered, or_and_right, exists_or]

end Arrival

/-! ## Half-streams -/

namespace HalfStream

open Arrival (Covered)
open Backlog (Covers)

variable {origin : SeqNum} {line : List UInt8} {covered : Nat → Prop} {m : Nat} {h h' : HalfStream}
  {ds : List Delivery}

/-- In a window that begins at position `m` of the line: the line is handed over up to the position of
the half-stream, and of all beyond it what waits is what has come. -/
structure Tracks (origin : SeqNum) (line : List UInt8) (covered : Nat → Prop) (m : Nat)
    (h : HalfStream) (ds : List Delivery) : Prop where
  /-- The half-stream is placed in the window. -/
  placed : Placed (origin.advance m) h
  /-- It is open. -/
  isOpen : h.isClosed = false
  /-- What waits is what the line holds there. -/
  pages : ∀ page ∈ h.pages, page.bytes <+: line.drop (m + page.lo (origin.advance m))
  /-- What was handed over is the beginning of the line. -/
  bytes : Delivery.concat ds <+: line
  /-- It ends at the position. -/
  length : (Delivery.concat ds).length = m + h.pos (origin.advance m)
  /-- All before the window has come. -/
  past : ∀ x < m, covered x
  /-- Of the rest, what has come was handed over or waits. -/
  cover : ∀ x, covered (m + x) ↔
    x < h.pos (origin.advance m) ∨ Covers (origin.advance m) h.pages x
  /-- The chunks are marked as they should. -/
  seamless : Delivery.Seamless ds
  /-- No start mark is due. -/
  startDue : h.startDue = false
  /-- No skip mark is due. -/
  skipDue : h.skipDue = false
  /-- The first chunk is handed over when the stream begins. -/
  idle : h.next = none ↔ ds = []

namespace Tracks

/-- Before the stream begins the window begins with the line. -/
theorem eq_zero (ht : Tracks origin line covered m h ds) (hn : h.next = none) : m = 0 := by
  have hlen := ht.length
  rw [ht.idle.1 hn] at hlen
  exact (Nat.eq_zero_of_add_eq_zero hlen.symm).1

/-- One more chunk is handed over, which continues the line. -/
theorem snoc {covered' : Nat → Prop} (ht : Tracks origin line covered m h ds) {x : Delivery}
    (hplaced : Placed (origin.advance m) h') (hopen : h'.isClosed = false)
    (hsub : h'.pages ⊆ h.pages) (hnext : h'.next ≠ none)
    (hpos : h'.pos (origin.advance m) = h.pos (origin.advance m) + x.bytes.length)
    (hbytes : x.bytes <+: line.drop (m + h.pos (origin.advance m)))
    (hpast : ∀ y < m, covered' y)
    (hcover : ∀ y, covered' (m + y) ↔
      y < h'.pos (origin.advance m) ∨ Covers (origin.advance m) h'.pages y)
    (hskip : x.skip = false) (hstart : x.start = true ↔ ds = []) (hstart' : h'.startDue = false)
    (hskip' : h'.skipDue = false) : Tracks origin line covered' m h' (ds ++ [x]) where
  placed := hplaced
  isOpen := hopen
  pages p hp := ht.pages p (hsub hp)
  bytes := by
    obtain ⟨rest, hrest⟩ := ht.bytes
    rw [← ht.length, ← hrest, List.drop_left] at hbytes
    rw [Delivery.concat_append, ← hrest]
    refine (List.prefix_append_right_inj _).2 ?_
    simpa [Delivery.concat] using hbytes
  length := by
    rw [Delivery.concat_append, List.length_append, ht.length, hpos, Nat.add_assoc]
    simp [Delivery.concat]
  past := hpast
  cover := hcover
  seamless := ht.seamless.snoc hskip hstart
  startDue := hstart'
  skipDue := hskip'
  idle := ⟨fun hc => absurd hc hnext, fun hc => by simp at hc⟩

/-! ### Draining -/

/-- A move without a leap keeps track. -/
theorem move (ht : Tracks origin line covered m h ds) {cs : List Chunk} (hm : Move false h cs h')
    (payload : List UInt8) :
    Tracks origin line covered m h' (ds ++ cs.map (Chunk.delivery payload)) := by
  have hplaced := (ht.placed.move hm).1
  have hopen := hm.direction.2.1.trans ht.isOpen
  have hcover := fun x => (ht.cover x).trans (hm.covers ht.placed x).symm
  have hpos := ht.placed.pos_le
  -- what is new on a page is what the line holds there
  have htrimmed : ∀ {page rest}, h.pages = page :: rest → h.isBehind page = false →
      (h.trimmed page).bytes <+: line.drop (m + (h.trimmed page).lo (origin.advance m)) := by
    intro page rest hp hb
    have hpage := ht.pages page (hp ▸ List.mem_cons_self ..)
    rw [← List.drop_drop] at hpage ⊢
    exact bytes_trimmed hpos (ht.placed.head hp).2 hb hpage
  cases hm with
  | @free page rest hp hb =>
      rw [List.map_nil, List.append_nil]
      exact { ht with
        placed := hplaced
        pages := fun q hq => ht.pages q (hp ▸ List.mem_cons_of_mem _ hq)
        cover := hcover }
  | @trim page rest hp hb =>
      rw [List.map_nil, List.append_nil]
      refine { ht with placed := hplaced, pages := ?_, cover := hcover }
      intro q hq
      rcases List.mem_cons.1 hq with rfl | hq
      · exact htrimmed hp hb
      · exact ht.pages q (hp ▸ List.mem_cons_of_mem _ hq)
  | @hand page rest phase hp hb _ hn =>
      obtain ⟨hsize, hhi⟩ := ht.placed.head hp
      have hhi' := hi_trimmed hpos hhi hb
      have hnext := hn rfl
      have hlo : h.pos (origin.advance m) = (h.trimmed page).lo (origin.advance m) := pos_some hnext
      have hbegun : ds ≠ [] := fun hds => by simp [ht.idle.2 hds] at hnext
      refine ht.snoc hplaced hopen (hp ▸ List.subset_cons_self ..) nofun ?_ ?_ ht.past hcover ?_ ?_ rfl
        rfl
      · rw [pos_turn (Nat.le_trans (Nat.le_of_eq hhi') hhi), hlo]
        rfl
      · rw [hlo]
        exact htrimmed hp hb
      · simp [turn, handOn, Chunk.delivery, ht.skipDue, hnext]
      · simp [turn, handOn, Chunk.delivery, ht.startDue, hbegun]

/-- What was handed over ends at the position, wherever the window begins. -/
theorem base_eq (ht : Tracks origin line covered m h ds) :
    origin.advance (Delivery.concat ds).length =
      (origin.advance m).advance (h.pos (origin.advance m)) := by
  rw [ht.length, SeqNum.advance_advance]

/-- The window is moved along to the position. -/
theorem advance (ht : Tracks origin line covered m h ds) (htidy : Tidy (origin.advance m) h) :
    Tracks origin line covered (Delivery.concat ds).length h ds := by
  have hbase := ht.base_eq
  have hpos : h.pos (origin.advance (Delivery.concat ds).length) = 0 := by
    cases hn : h.next with
    | none => exact pos_none hn
    | some next =>
        rw [hbase, pos_some hn, pos_some hn, SeqNum.advance_offset, SeqNum.offset_self]
  have hspread := htidy.spread.advance (Nat.le_refl _)
  rw [← hbase, Nat.sub_self] at hspread
  refine { ht with placed := ⟨hspread, ?_⟩, pages := ?_, length := ?_, past := ?_, cover := ?_ }
  · rw [hpos]
    exact Nat.zero_le _
  · intro page hp
    have hle := (htidy.spread.mem hp).1
    have hpage := ht.pages page hp
    rw [hbase, Page.lo_advance hle, ht.length, Nat.add_assoc, Nat.add_sub_cancel' hle]
    exact hpage
  · rw [hpos, Nat.add_zero]
  · intro x hx
    by_cases hlt : x < m
    · exact ht.past x hlt
    · have hsum : m + (x - m) = x := by omega
      rw [← hsum]
      refine (ht.cover (x - m)).2 (Or.inl ?_)
      rw [ht.length] at hx
      omega
  · intro x
    rw [hpos, hbase, ht.length, Nat.add_assoc, ht.cover,
      Backlog.covers_advance fun page hp => (htidy.spread.mem hp).1]
    refine or_congr_left ?_
    omega

/-! ### A segment -/

section Segment

variable {place : Arrival → Nat} {as : List Arrival} {a : Arrival} {i : Nat}

/-- What the data of a segment covers has come already, or a place is found for it. -/
theorem exists_span (ht : Tracks origin line covered m h ds) (hpos : h.pos (origin.advance m) = 0)
    (hc : a.Carries origin line i) (hnear : a.Near m i) {x : Nat} (hx : i ≤ x ∧ x < i + a.segment.payload.length) :
    covered x ∨ ∃ span ∈ (Fit.of h.next h.pages a.segment.payloadSeq
      a.segment.payload.length).spans a.segment.payload.length,
        i + span.start ≤ x ∧ x < i + span.stop := by
  by_cases hlt : x < m
  · exact Or.inl (ht.past x hlt)
  have hsum : m + (x - m) = x := by omega
  -- data that lies ahead is what waits and the gaps between
  have hwaiting : m ≤ i → covered x ∨ ∃ span ∈ (Fit.waiting h.pages a.segment.payloadSeq
      a.segment.payload.length).spans a.segment.payload.length,
        i + span.start ≤ x ∧ x < i + span.stop := by
    intro hle
    have hoffset := hc.offset_eq hnear hle
    have hend := hnear.2
    have hin : (origin.advance m).offset a.segment.payloadSeq ≤ SeqNum.reach := by omega
    have hindex : i - m + (x - i) = x - m := by omega
    have hgaps := @Backlog.mem_gaps_iff _ _ a.segment.payload.length 0 _ ht.placed.spread.apart
      hin (x - i)
    rw [hoffset, hindex] at hgaps
    rw [Fit.spans_waiting]
    by_cases hcovers : Covers (origin.advance m) h.pages (x - m)
    · rw [← hsum]
      exact Or.inl ((ht.cover _).2 (Or.inr hcovers))
    · obtain ⟨span, hspan, hstart, hstop⟩ := hgaps.2 ⟨Nat.zero_le _, by omega, hcovers⟩
      exact Or.inr ⟨span, hspan, by omega, by omega⟩
  unfold Fit.of
  rw [if_neg (by omega)]
  cases hn : h.next with
  | none =>
      apply hwaiting
      rw [ht.eq_zero hn]
      exact Nat.zero_le _
  | some next =>
      have hdist := hc.distance_eq hnear
      rw [← eq_base_of_pos hn hpos] at hdist
      simp only [hdist]
      by_cases hahead : m < i
      · rw [if_pos (by omega)]
        exact hwaiting (Nat.le_of_lt hahead)
      · rw [if_neg (by omega), if_neg (by omega)]
        refine Or.inr ⟨_, List.mem_singleton_self _, ?_, ?_⟩
        · show i + ((i : Int) - m).natAbs ≤ x
          omega
        · exact hx.2

/-- What the half-stream keeps track of if a segment brings it nothing new. -/
theorem recount (ht : Tracks origin line (Covered place as) m h ds)
    (hnone : ∀ x, place a ≤ x ∧ x < place a + a.segment.payload.length → Covered place as x)
    (counters : Counters) :
    Tracks origin line (Covered place (as ++ [a])) m { h with counters } ds := by
  have hsame : Covered place (as ++ [a]) = Covered place as := by
    funext x
    rw [Arrival.covered_snoc]
    exact propext ⟨fun hx => hx.elim id (hnone x), Or.inl⟩
  rw [hsame]
  exact { ht with placed := ⟨ht.placed.spread, ht.placed.pos_le⟩ }

/-- A chunk that goes through at once begins where the window does and ends with the data, holds what the
line holds there, and is marked as it should. -/
theorem handed (ht : Tracks origin line covered m h ds) (hpos : h.pos (origin.advance m) = 0)
    (hc : a.Carries origin line i) (hnear : a.Near m i) {accepted : List Cell} {x : Delivery}
    (hx : h.Handed a.segment accepted h' x) :
    x.seq = origin.advance m ∧ i ≤ m ∧ m + x.bytes.length = i + a.segment.payload.length ∧
      x.bytes <+: line.drop m ∧ x.skip = false ∧ (x.start = true ↔ ds = []) := by
  have hpayload := hc.payload
  cases hn : h.next with
  | none =>
      obtain ⟨hsyn, hseq, hbytes, hskip, hstart⟩ := hx.begun hn
      obtain rfl := ht.eq_zero hn
      obtain rfl := hc.syn hsyn
      rw [hbytes, hseq, hc.seq]
      exact ⟨rfl, Nat.le_refl _, rfl, hpayload, hskip, by simp [hstart, ht.idle.1 hn]⟩
  | some next =>
      obtain ⟨hdist, hlt, hseq, hbytes, hskip, hstart⟩ := hx.passed next hn
      have hnext := eq_base_of_pos hn hpos
      rw [hnext, hc.distance_eq hnear] at hdist hlt hbytes
      have hsum : i + ((i : Int) - m).natAbs = m := by omega
      have hbegun : ds ≠ [] := fun hds => by simp [ht.idle.2 hds] at hn
      refine ⟨hseq.trans hnext, by omega, ?_, ?_, hskip.trans ht.skipDue, ?_⟩
      · rw [hbytes, List.length_drop]
        omega
      · have hrest := hpayload.drop ((i : Int) - m).natAbs
        rw [List.drop_drop, hsum] at hrest
        rw [hbytes]
        exact hrest
      · simp [hstart, ht.startDue, hbegun]

/-- Data that goes through at once is kept track of. -/
theorem taken (ht : Tracks origin line (Covered place as) m h ds)
    (hpos : h.pos (origin.advance m) = 0) (hc : a.Carries origin line (place a))
    (hnear : a.Near m (place a)) {accepted : List Cell} {cs : List Chunk}
    (htaken : h.Taken a.segment accepted h' cs) :
    Tracks origin line (Covered place (as ++ [a])) m h'
      (ds ++ cs.map (Chunk.delivery a.segment.payload)) := by
  rcases htaken.handed with ⟨counters, rfl, rfl, rfl, -, -, hspans⟩ | ⟨x, hcs, hx⟩
  · rw [List.map_nil, List.append_nil]
    refine ht.recount (fun x hx => ?_) _
    rcases ht.exists_span hpos hc hnear hx with hcovered | ⟨span, hspan, -⟩
    · exact hcovered
    · rw [hspans] at hspan
      cases hspan
  have hreach : SeqNum.reach = 0x7fffffff := rfl
  have hwithin := hnear.2
  obtain ⟨hseq, hle, hlen, hbytes, hskip, hstart⟩ := ht.handed hpos hc hnear hx
  have hpos' : h'.pos (origin.advance m) = x.bytes.length := by
    rw [pos_some hx.next, hseq, SeqNum.offset_advance_self _ (by omega)]
  rw [hcs]
  refine ht.snoc ⟨hx.pages ▸ ht.placed.spread, by omega⟩ (hx.isOpen ht.isOpen)
    (hx.pages ▸ List.Subset.refl _) (hx.next ▸ Option.some_ne_none _) ?_ ?_ ?_ ?_ hskip hstart
    hx.startDue hx.skipDue
  · rw [hpos', hpos, Nat.zero_add]
  · rw [hpos]
    exact hbytes
  · exact fun y hy => Arrival.covered_snoc.2 (Or.inl (ht.past y hy))
  · intro y
    rw [Arrival.covered_snoc, ht.cover, hpos', hpos, hx.pages, or_comm, ← or_assoc]
    refine or_congr_left ?_
    omega

/-- At the beginning of its window a half-stream is tidy. -/
theorem tidy (ht : Tracks origin line covered m h ds) (hpos : h.pos (origin.advance m) = 0) :
    Tidy (origin.advance m) h := by
  refine ⟨?_, ht.placed.pos_le⟩
  rw [hpos]
  exact ht.placed.spread

/-- Data that is ahead lies in the window. -/
theorem le_of_ahead (ht : Tracks origin line covered m h ds) (hpos : h.pos (origin.advance m) = 0)
    (hc : a.Carries origin line i) (hnear : a.Near m i) {pieces : List Span}
    (hfit : Fit.of h.next h.pages a.segment.payloadSeq a.segment.payload.length = .ahead pieces) :
    m ≤ i := by
  cases hn : h.next with
  | none =>
      rw [ht.eq_zero hn]
      exact Nat.zero_le _
  | some next =>
      have hlead := (Fit.of_ahead hfit).2.2 next hn
      rw [eq_base_of_pos hn hpos, hc.distance_eq hnear] at hlead
      omega

/-- **Data that is stored is kept track of.** -/
theorem stored (ht : Tracks origin line (Covered place as) m h ds)
    (hpos : h.pos (origin.advance m) = 0) (hc : a.Carries origin line (place a))
    (hnear : a.Near m (place a)) {pieces : List Span}
    (hfit : Fit.of h.next h.pages a.segment.payloadSeq a.segment.payload.length = .ahead pieces) :
    Tracks origin line (Covered place (as ++ [a])) m
      { h with
        pages := Backlog.insertAll
          ((pieces.flatMap Span.portions).map (Portion.page a.segment.payloadSeq a.segment.payload))
          h.pages } ds := by
  have hle := ht.le_of_ahead hpos hc hnear hfit
  have hwithin := hnear.2
  have hoffset := hc.offset_eq hnear hle
  have hw : (origin.advance m).offset a.segment.payloadSeq + a.segment.payload.length ≤
      SeqNum.reach := by omega
  have hcalm := Calm.of_ahead (ht.tidy hpos) hw hfit
  have hbounds := hcalm.laid.bounds
  -- where the page of a portion lies
  have hplace : ∀ p ∈ pieces.flatMap Span.portions,
      m + (p.page a.segment.payloadSeq a.segment.payload).lo (origin.advance m) =
          place a + p.span.start ∧
        m + (p.page a.segment.payloadSeq a.segment.payload).hi (origin.advance m) =
          place a + p.span.stop := by
    intro p hp
    obtain ⟨hlo, hhi⟩ := p.lo_hi_page hw (hbounds p hp)
    rw [hlo, hhi, Portion.lo, Portion.hi]
    omega
  refine { ht with
    placed := (hcalm.holdAll hw).tidy.placed
    pages := ?_
    past := fun x hx => Arrival.covered_snoc.2 (Or.inl (ht.past x hx))
    cover := ?_ }
  · intro page hpage
    rcases Backlog.mem_insertAll.1 hpage with hpage | hpage
    · obtain ⟨p, hp, rfl⟩ := List.mem_map.1 hpage
      rw [(hplace p hp).1, ← List.drop_drop]
      exact (List.take_prefix _ _).trans (hc.payload.drop _)
    · exact ht.pages page hpage
  · intro y
    rw [Arrival.covered_snoc, ht.cover, Backlog.covers_insertAll]
    constructor
    · rintro ((hy | hy) | hy)
      · exact Or.inl hy
      · exact Or.inr (Or.inr hy)
      · rcases ht.exists_span hpos hc hnear hy with hcovered | ⟨piece, hpiece, hstart, hstop⟩
        · exact ((ht.cover y).1 hcovered).imp_right Or.inr
        · rw [hfit] at hpiece
          obtain ⟨p, hp, hlo, hhi⟩ := @Span.exists_portion piece (m + y - place a) (by omega)
          have hp : p ∈ pieces.flatMap Span.portions := List.mem_flatMap.2 ⟨piece, hpiece, hp⟩
          obtain ⟨hplo, hphi⟩ := hplace p hp
          exact Or.inr (Or.inl ⟨_, List.mem_map_of_mem hp, by omega, by omega⟩)
    · rintro (hy | ⟨page, hpage, hlo, hhi⟩ | hy)
      · exact Or.inl (Or.inl hy)
      · obtain ⟨p, hp, rfl⟩ := List.mem_map.1 hpage
        obtain ⟨hplo, hphi⟩ := hplace p hp
        have := hbounds p hp
        exact Or.inr ⟨by omega, by omega⟩
      · exact Or.inl (Or.inr hy)

end Segment

theorem moves (ht : Tracks origin line covered m h ds) {cs : List Chunk} (hm : Moves false h cs h')
    (payload : List UInt8) :
    Tracks origin line covered m h' (ds ++ cs.map (Chunk.delivery payload)) :=
  hm.keep (fun ht hmove => ht.move hmove payload) ht

end Tracks

/-- After a SYN the stream has begun. -/
theorem Taken.next_ne_none {segment : Segment} {accepted : List Cell} {cs : List Chunk}
    (htaken : Taken h segment accepted h' cs) :
    h'.next ≠ none ↔ h.next ≠ none ∨ segment.flags.isSyn = true := by
  cases htaken with
  | nothing hsyn _ _ => exact ⟨Or.inl, fun hc => hc.elim id hsyn⟩
  | begun hsyn _ _ => simp [hsyn]
  | passed hn _ _ _ _ => simp [hn]

/-! ### Between calls -/

/-- Between calls the window begins at the position, no page continues the stream, and the stream has
begun exactly if a SYN has come. -/
structure Follows (origin : SeqNum) (line : List UInt8) (place : Arrival → Nat) (h : HalfStream)
    (as : List Arrival) (ds : List Delivery) : Prop where
  /-- The half-stream keeps track. -/
  tracks : Tracks origin line (Covered place as) (Delivery.concat ds).length h ds
  /-- No page continues the stream. -/
  front : h.next ≠ none → ∀ page ∈ h.pages,
    0 < page.lo (origin.advance (Delivery.concat ds).length)
  /-- The stream has begun exactly if a SYN has come. -/
  begun : h.next ≠ none ↔ ∃ a ∈ as, a.segment.flags.isSyn = true

namespace Follows

variable {place : Arrival → Nat} {as : List Arrival}

theorem new (d : Direction) : Follows origin line place (HalfStream.new d) [] [] := by
  refine ⟨⟨(tidy_new d).placed, rfl, nofun, List.nil_prefix, rfl, nofun, ?_, ⟨nofun, nofun, nofun⟩, rfl,
    rfl, ?_⟩, nofun, ?_⟩
  · simp [Covered, Covers, HalfStream.new, pos]
  · simp [HalfStream.new]
  · simp [HalfStream.new]

/-- The position is where the window begins. -/
theorem pos_eq (hf : Follows origin line place h as ds) :
    h.pos (origin.advance (Delivery.concat ds).length) = 0 := by
  have := hf.tracks.length
  omega

/-- **Draining leads to where no page continues the stream**, and the window is moved along. -/
theorem of_drain (ht : Tracks origin line (Covered place as) m h ds)
    (hbegun : h.next ≠ none ↔ ∃ a ∈ as, a.segment.flags.isSyn = true) (payload : List UInt8) :
    Follows origin line place h.drain.value as
      (ds ++ h.drain.chunks.map (Chunk.delivery payload)) := by
  have ht' := ht.moves h.drain_moves payload
  obtain ⟨htidy, hfront⟩ := ht.placed.drain
  have hstill : h.drain.value.next = none ↔ h.next = none := by
    constructor
    · intro hn
      exact ht.idle.2 (List.append_eq_nil_iff.1 (ht'.idle.1 hn)).1
    · intro hn
      rw [drain_of_none hn]
      exact hn
  refine ⟨ht'.advance htidy, ?_, ?_⟩
  · intro hn page hpage
    have hlt := hfront (fun hc => hn (hstill.2 hc)) page hpage
    rw [ht'.base_eq, Page.lo_advance (Nat.le_of_lt hlt)]
    omega
  · rw [Ne, hstill]
    exact hbegun

end Follows
end HalfStream

/-! ## Segments -/

namespace Arrival

open HalfStream (Tracks Follows)

variable {ceiling : Nat} {origin : SeqNum} {line : List UInt8} {place : Arrival → Nat}
  {a : Arrival} {as : List Arrival} {ds : List Delivery}

/-- Finding a place for the data of a segment is kept track of. -/
theorem placed_tracks (hs : a.before.Sound ceiling)
    (hgranted : a.state.arena.inUse + a.demand ≤ a.state.arena.ceiling)
    (hbelow : a.connection.pageCount + a.demand < a.config.pagesPerConnection)
    (hc : a.Carries origin line (place a)) (hnear : a.Near (Delivery.concat ds).length (place a))
    (hf : Follows origin line place a.half as ds) :
    Work.Reaches ceiling a.direction a.segment.payload
      (fun h ds' => Tracks origin line (Covered place (as ++ [a])) (Delivery.concat ds).length h ds' ∧
        (h.next ≠ none ↔ ∃ x ∈ as ++ [a], x.segment.flags.isSyn = true)) ds a.before
      (a.before.placed a.config.pagesPerConnection a.locked a.direction a.segment) := by
  have hopen := hf.tracks.isOpen
  rw [demand_of_open hopen] at hgranted hbelow
  have hroom := @Work.placed_of_room ceiling a.config.pagesPerConnection a.direction a.before a.locked
    a.segment hs.arena hbelow (hs.arena.ceiling_eq ▸ hgranted)
  have hbegun : (∃ x ∈ as ++ [a], x.segment.flags.isSyn = true) ↔
      a.half.next ≠ none ∨ a.segment.flags.isSyn = true := by
    rw [hf.begun]
    simp [or_and_right, exists_or]
  rw [hbegun]
  rcases @Work.placed_cases ceiling a.direction a.before hs hopen a.config.pagesPerConnection a.locked
    a.segment with ⟨pieces, counters, hfit, hhalf, -, hsyn, hlead⟩ | ⟨new, hlead, -, htaken⟩
  · obtain ⟨hplaced, hchunks⟩ := hroom.2.2 pieces hfit
    obtain ⟨new, hlead'⟩ := Work.leads_placed hs hopen a.config.pagesPerConnection a.locked a.segment
    have hnone : new = [] := by
      have hsame := hlead'.chunks
      rw [hchunks, hlead.chunks] at hsame
      exact (List.append_cancel_left hsame).symm
    rw [Work.fit_eq, hhalf] at hfit
    refine ⟨new, hlead', ?_⟩
    rw [hnone, hplaced, hhalf, Chunk.ofDirection_nil, List.map_nil, List.append_nil]
    refine ⟨?_, ⟨Or.inl, fun hc => hc.elim id hsyn⟩⟩
    have ht := hf.tracks
    have hstored := ht.stored hf.pos_eq hc hnear hfit
    exact { hstored with placed := ⟨hstored.placed.spread, hstored.placed.pos_le⟩ }
  · exact ⟨new, hlead, hf.tracks.taken hf.pos_eq hc hnear htaken, htaken.next_ne_none⟩

/-- **Working a segment in is kept track of.** -/
theorem work_follows (hs : a.before.Sound ceiling)
    (hgranted : a.state.arena.inUse + a.demand ≤ a.state.arena.ceiling)
    (hbelow : a.connection.pageCount + a.demand < a.config.pagesPerConnection)
    (hc : a.Carries origin line (place a)) (hnear : a.Near (Delivery.concat ds).length (place a))
    (hf : Follows origin line place a.half as ds) :
    Follows origin line place (a.work.connection.half a.direction) (as ++ [a])
      (ds ++ a.deliveries a.direction) := by
  have hopen := hf.tracks.isOpen
  have hplaced := placed_tracks hs hgranted hbelow hc hnear hf
  rw [demand_of_open hopen] at hgranted hbelow
  have haccept := (@Work.accept_of_room ceiling a.config.pagesPerConnection a.direction a.before
    a.locked a.segment hs.arena hbelow (hs.arena.ceiling_eq ▸ hgranted)).2 hc.stays
  have hreaches : Work.Reaches ceiling a.direction a.segment.payload
      (fun h ds => Follows origin line place h (as ++ [a]) ds) ds a.before
      (a.before.accept a.config.pagesPerConnection a.locked a.direction a.segment) := by
    rw [haccept]
    exact hplaced.onHalf_of_moves (HalfStream.drain_moves _) fun hJ => .of_drain hJ.1 hJ.2 _
  exact of_reaches hopen hreaches

end Arrival

/-! ## Histories -/

/-- Whether an action works a segment in. -/
def Action.isReceive : Action → Bool
  | .receive .. => true
  | .flushAll _ | .flushBefore _ | .flushIdle _ | .lookUp .. | .remove _ => false

namespace History

variable (k : Nat) (d : Direction) (origin : SeqNum) (line : List UInt8) (place : Arrival → Nat)

/-- The call works a segment in.  The arena refuses it no page and, if it belongs to the connection of
stream `k`, that stays below its limit with the pages that the segment needs.  If it travels in
direction `d` of the stream, it carries what `line` holds at its place, near the end of what was handed
over before. -/
structure Orderly (r : History) (call : Call) : Prop where
  /-- The call works a segment in. -/
  receives : call.action.isReceive = true
  /-- The arena refuses no page. -/
  granted : ∀ a ∈ r.state.arrivals call, a.state.arena.inUse + a.demand ≤ a.state.arena.ceiling
  /-- The connection does not reach its limit. -/
  below : ∀ a ∈ r.state.arrivals call, a.stream = k →
    a.connection.pageCount + a.demand < a.config.pagesPerConnection
  /-- The segment carries what the line holds at its place. -/
  carries : ∀ a ∈ r.state.arrivals call, a.stream = k → a.direction = d →
    a.Carries origin line (place a)
  /-- It lies near the end of what was handed over. -/
  near : ∀ a ∈ r.state.arrivals call, a.stream = k → a.direction = d →
    a.Near (Delivery.concat (r.deliveries k d)).length (place a)

instance (r : History) (call : Call) : Decidable (r.Orderly k d origin line place call) :=
  decidable_of_iff (call.action.isReceive = true ∧
      (∀ a ∈ r.state.arrivals call, a.state.arena.inUse + a.demand ≤ a.state.arena.ceiling) ∧
      (∀ a ∈ r.state.arrivals call, a.stream = k →
        a.connection.pageCount + a.demand < a.config.pagesPerConnection) ∧
      (∀ a ∈ r.state.arrivals call, a.stream = k → a.direction = d →
        a.Carries origin line (place a)) ∧
      ∀ a ∈ r.state.arrivals call, a.stream = k → a.direction = d →
        a.Near (Delivery.concat (r.deliveries k d)).length (place a))
    ⟨fun h => ⟨h.1, h.2.1, h.2.2.1, h.2.2.2.1, h.2.2.2.2⟩,
      fun h => ⟨h.receives, h.granted, h.below, h.carries, h.near⟩⟩

/-- Calls that are orderly, one after the other. -/
def OrderlyAll (r : History) : List Call → Prop
  | [] => True
  | call :: calls => r.Orderly k d origin line place call ∧ (r.extend call).OrderlyAll calls

instance decidableOrderlyAll (r : History) (calls : List Call) :
    Decidable (r.OrderlyAll k d origin line place calls) :=
  match calls with
  | [] => inferInstanceAs (Decidable True)
  | call :: calls =>
    have := decidableOrderlyAll (r.extend call) calls
    inferInstanceAs (Decidable (_ ∧ _))

end History

namespace Reassembly

open HalfStream (Follows)

variable {ceiling k : Nat} {d : Direction} {origin : SeqNum} {line : List UInt8}
  {place : Arrival → Nat}

/-- An orderly call is kept track of. -/
theorem Upheld.extend_follows {r : History} {call : Call}
    (h : Upheld ceiling k (fun c => Follows origin line place (c.half d)) (fun _ => True) r.state
      (r.arrivalsAt k d) (r.deliveries k d))
    (hcall : r.Orderly k d origin line place call) :
    Upheld ceiling k (fun c => Follows origin line place (c.half d)) (fun _ => True)
      (r.extend call).state ((r.extend call).arrivalsAt k d) ((r.extend call).deliveries k d) := by
  obtain ⟨fails, now, action⟩ := call
  obtain ⟨hreceives, hgranted, hbelow, hcarries, hnear⟩ := hcall
  rw [r.arrivalsAt_extend, r.deliveries_extend]
  cases action with
  | receive config locked path segment =>
      refine h.receive ?_ ?_ ?_ (fun _ _ => trivial)
      · intro flow opener now
        refine ⟨?_, trivial⟩
        have hhalf : (Connection.new flow opener k now).half d = HalfStream.new d := by
          cases d <;> rfl
        rw [hhalf]
        exact .new d
      · intro a ha hs hk hf
        by_cases hd : a.direction = d
        · subst hd
          rw [if_pos rfl]
          exact a.work_follows hs (hgranted a ha) (hbelow a ha hk) (hcarries a ha hk rfl)
            (hnear a ha hk rfl) hf
        · obtain ⟨hhalf, hnone⟩ := Arrival.half_of_ne hs hd (hbelow a ha hk) (hgranted a ha)
          rw [if_neg hd, hnone, hhalf, List.append_nil, List.append_nil]
          exact hf
      · exact fun a ha hs _ => Or.inr (Arrival.entries_work hs (hgranted a ha))
  | flushAll _ | flushBefore _ | flushIdle _ | lookUp _ _ | remove _ => cases hreceives

/-- Orderly calls are kept track of. -/
theorem Upheld.foldl_follows {r : History} {calls : List Call}
    (h : Upheld ceiling k (fun c => Follows origin line place (c.half d)) (fun _ => True) r.state
      (r.arrivalsAt k d) (r.deliveries k d))
    (hcalls : r.OrderlyAll k d origin line place calls) :
    Upheld ceiling k (fun c => Follows origin line place (c.half d)) (fun _ => True)
      (calls.foldl History.extend r).state ((calls.foldl History.extend r).arrivalsAt k d)
      ((calls.foldl History.extend r).deliveries k d) := by
  induction calls generalizing r with
  | nil => exact h
  | cons call rest ih => exact ih (h.extend_follows hcalls.1) hcalls.2

/-- **Seamless delivery.** Let the segments of one direction of a stream carry stretches of a line, each
near the end of what was handed over when it arrives, and none with FIN or RST.  As long as the arena
refuses no page and the connection stays below its limit, what was handed over is always the beginning
of the line: nothing before a SYN has come, and afterwards all up to the first byte that has not come
yet.  No chunk carries a skip mark, and the first one alone carries a start mark.

The place of a segment in the line is given along with it: of several places with the same number, it is
the one near the end of what was handed over.  No two arrivals are equal, as every look-up is a tick of
the registry, so that each has a place of its own. -/
theorem deliveries_seamless (place : Arrival → Nat) (calls : List Call)
    (horderly : ((fresh ceiling).history []).OrderlyAll k d origin line place calls) :
    ∃ m, Delivery.concat (((fresh ceiling).history calls).deliveries k d) = line.take m ∧
      m ≤ line.length ∧
      ((¬ ∃ a ∈ ((fresh ceiling).history calls).arrivalsAt k d, a.segment.flags.isSyn = true) →
        m = 0) ∧
      ((∃ a ∈ ((fresh ceiling).history calls).arrivalsAt k d, a.segment.flags.isSyn = true) →
        IsGreatest {n | ∀ x < n,
          Arrival.Covered place (((fresh ceiling).history calls).arrivalsAt k d) x} m) ∧
      Delivery.Seamless (((fresh ceiling).history calls).deliveries k d) := by
  have hup : Upheld ceiling k (fun c => Follows origin line place (c.half d)) (fun _ => True)
      ((fresh ceiling).history calls).state (((fresh ceiling).history calls).arrivalsAt k d)
      (((fresh ceiling).history calls).deliveries k d) := Upheld.foldl_follows .start horderly
  have hfollows : ∃ h, Follows origin line place h (((fresh ceiling).history calls).arrivalsAt k d)
      (((fresh ceiling).history calls).deliveries k d) := by
    rcases hup.exists_or_fresh with ⟨c, hf⟩ | ⟨has, hds⟩
    · exact ⟨_, hf⟩
    · refine ⟨HalfStream.new d, ?_⟩
      rw [has, hds]
      exact .new d
  obtain ⟨h, hf⟩ := hfollows
  have ht := hf.tracks
  refine ⟨_, List.prefix_iff_eq_take.1 ht.bytes, ht.bytes.length_le, ?_, ?_, ht.seamless⟩
  · intro hnone
    have hn : h.next = none := by
      by_contra hn
      exact hnone (hf.begun.1 hn)
    exact ht.eq_zero hn
  · intro hsyn
    have hn := hf.begun.2 hsyn
    refine ⟨ht.past, fun n hall => Nat.le_of_not_lt fun hlt => ?_⟩
    -- the byte at the position has not come
    have hcovered := (ht.cover 0).1 (hall _ hlt)
    rw [hf.pos_eq] at hcovered
    rcases hcovered with hc | ⟨page, hpage, hlo, -⟩
    · omega
    · have := hf.front hn page hpage
      omega

/-- Calls with data from before the SYN, with data that comes twice, and numbers that go round. -/
def callsRoundZero : List Call :=
  [.ofSegment 4 0xffffffff ⟨0⟩ [99, 100], .ofSegment 4 1 ⟨0⟩ [101], .ofSegment 4 0xfffffffc .syn [97],
    .ofSegment 4 0xfffffffd ⟨0⟩ [97, 98, 99], .ofSegment 4 0 ⟨0⟩ [100, 101, 102]]

/-- The places of their segments. -/
def placeRoundZero (a : Arrival) : Nat := (SeqNum.ofNat 0xfffffffd).offset a.segment.payloadSeq

theorem deliveries_seamless_round_zero :
    ((fresh 8).history []).OrderlyAll 0 .forward (.ofNat 0xfffffffd) [97, 98, 99, 100, 101, 102]
      placeRoundZero callsRoundZero ∧
    (((fresh 8).history callsRoundZero).deliveries 0 .forward).map Delivery.bytes =
      [[97], [98, 99], [100], [101], [102]] ∧
    Delivery.Seamless (((fresh 8).history callsRoundZero).deliveries 0 .forward) := by
  have horderly : ((fresh 8).history []).OrderlyAll 0 .forward (.ofNat 0xfffffffd)
      [97, 98, 99, 100, 101, 102] placeRoundZero callsRoundZero := by decide
  obtain ⟨m, -, -, -, -, hseamless⟩ := deliveries_seamless placeRoundZero callsRoundZero horderly
  exact ⟨horderly, by decide, hseamless⟩

end Reassembly
end TcpStreams
