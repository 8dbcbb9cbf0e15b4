import TcpStreams.Proofs.Granted
import TcpStreams.Proofs.Storing

/-!
# Data in time

A connection that has reached its limit leaps over gaps, and what lies in a gap that was leapt over is
never handed over.  But only what comes after the leap is lost: every byte that had arrived in time,
not behind the next byte wanted, is handed over or waits, even if its segment was being stored page by
page while the connection leapt.

* `Arrival.InTime`, `Arrival.Timely`: the bytes that arrived in time.
* `HalfStream.Retains`: which bytes were handed over or wait.
* `HalfStream.Retains.kept`: as long as nothing is given up, storing retains what is yet to be stored.
* `Reassembly.timely_retained`: the bytes that arrived in time are those handed over and those that wait.
-/

namespace TcpStreams

open Backlog (Spread Covers Clear)

/-- Whether a chunk that was handed over holds the byte at an offset. -/
def Delivered (base : SeqNum) (ds : List Delivery) (x : Nat) : Prop :=
  ∃ y ∈ ds, y.lo base ≤ x ∧ x < y.hi base

theorem delivered_snoc {base : SeqNum} {ds : List Delivery} {y : Delivery} {x : Nat} :
    Delivered base (ds ++ [y]) x ↔ Delivered base ds x ∨ (y.lo base ≤ x ∧ x < y.hi base) := by
  simp [Delivered, or_and_right, exists_or]

namespace Arrival

/-- Whether the segment holds the byte at an offset. -/
def Holds (base : SeqNum) (a : Arrival) (x : Nat) : Prop :=
  base.offset a.segment.payloadSeq ≤ x ∧
    x < base.offset a.segment.payloadSeq + a.segment.payload.length

/-- Whether the byte at an offset arrives with the segment in time: the half-stream is open and, if it
knows the next byte wanted, that one is not beyond. -/
def InTime (base : SeqNum) (a : Arrival) (x : Nat) : Prop :=
  a.half.isClosed = false ∧ a.Holds base x ∧ (a.half.next = none ∨ a.half.pos base ≤ x)

/-- Whether the byte at an offset arrived in time with one of the segments. -/
def Timely (base : SeqNum) (as : List Arrival) (x : Nat) : Prop := ∃ a ∈ as, a.InTime base x

theorem timely_snoc {base : SeqNum} {as : List Arrival} {a : Arrival} {x : Nat} :
    Timely base (as ++ [a]) x ↔ Timely base as x ∨ a.InTime base x := by
  simp [Timely, or_and_right, exists_or]

end Arrival

namespace HalfStream

variable {base start : SeqNum} {payload : List UInt8} {held held' : Nat → Prop} {leaps : Bool}
  {h h' : HalfStream} {ds : List Delivery} {cs : List Chunk} {page : Page} {rest : List Page}

/-- The bytes `held` are those that were handed over and those that wait.  What waits behind the position
was handed over before, and nothing that was handed over lies beyond the position. -/
structure Retains (base : SeqNum) (held : Nat → Prop) (h : HalfStream) (ds : List Delivery) : Prop where
  /-- The bytes were handed over or wait. -/
  cover : ∀ x, held x ↔ Delivered base ds x ∨ Covers base h.pages x
  /-- What waits behind the position was handed over before. -/
  stale : ∀ x < h.pos base, Covers base h.pages x → Delivered base ds x
  /-- What was handed over lies before the position. -/
  before : ∀ y ∈ ds, y.hi base ≤ h.pos base
  /-- Before the stream has begun nothing was handed over. -/
  idle : h.next = none → ds = []

namespace Retains

theorem new (d : Direction) : Retains base (fun _ => False) (HalfStream.new d) [] := by
  constructor <;> simp [Delivered, Covers, HalfStream.new]

/-- Only pages, the position and what was handed over matter. -/
theorem congr (hr : Retains base held h ds) (hpages : h'.pages = h.pages) (hnext : h'.next = h.next) :
    Retains base held h' ds := by
  have hpos : h'.pos base = h.pos base := by simp only [pos, hnext]
  obtain ⟨hcover, hstale, hbefore, hidle⟩ := hr
  rw [← hpages] at hcover hstale
  rw [← hpos] at hstale hbefore
  exact ⟨hcover, hstale, hbefore, fun hn => hidle (hnext ▸ hn)⟩

/-- One more chunk is handed over, from the position on, and the position moves to its end.  The pages
lose at most what the chunk holds or was handed over before. -/
theorem snoc (hr : Retains base held h ds) {y : Delivery} (hnext : h'.next ≠ none)
    (hpos : h'.pos base = y.hi base) (hlo : h.pos base ≤ y.lo base)
    (hheld : ∀ x, held' x ↔ held x ∨ (y.lo base ≤ x ∧ x < y.hi base))
    (hlost : ∀ x, Covers base h.pages x →
      Delivered base ds x ∨ (y.lo base ≤ x ∧ x < y.hi base) ∨ Covers base h'.pages x)
    (hsub : ∀ x, Covers base h'.pages x → Covers base h.pages x)
    (hstale : ∀ x < y.hi base, Covers base h'.pages x →
      Delivered base ds x ∨ (y.lo base ≤ x ∧ x < y.hi base)) :
    Retains base held' h' (ds ++ [y]) where
  cover x := by
    rw [hheld, hr.cover, delivered_snoc]
    constructor
    · rintro ((hd | hc) | hy)
      · exact Or.inl (Or.inl hd)
      · rcases hlost x hc with hd | hy | hc
        · exact Or.inl (Or.inl hd)
        · exact Or.inl (Or.inr hy)
        · exact Or.inr hc
      · exact Or.inl (Or.inr hy)
    · rintro ((hd | hy) | hc)
      · exact Or.inl (Or.inl hd)
      · exact Or.inr hy
      · exact Or.inl (Or.inr (hsub x hc))
  stale x hx hc := by
    rw [hpos] at hx
    exact delivered_snoc.2 (hstale x hx hc)
  before z hz := by
    have hle : y.lo base ≤ y.hi base := Nat.le_add_right ..
    rw [hpos]
    rcases List.mem_append.1 hz with hz | hz
    · have := hr.before z hz
      omega
    · obtain rfl := List.mem_singleton.1 hz
      exact Nat.le_refl _
  idle hn := absurd hn hnext

/-- Handing on what is new on the first page retains what is held. -/
theorem turn (hr : Retains base held h ds) (hp : Placed base h) (hpages : h.pages = page :: rest)
    (hb : h.isBehind page = false) (phase : Phase) (payload : List UInt8) :
    Retains base held (h.turn phase (h.trimmed page) rest).1
      (ds ++ [(h.turn phase (h.trimmed page) rest).2.delivery payload]) := by
  obtain ⟨hsize, hhi⟩ := hp.head hpages
  have hlo' := lo_trimmed hp.pos_le hhi hb
  have hhi' := hi_trimmed hp.pos_le hhi hb
  have hrest := hp.spread
  rw [hpages] at hrest
  have hpos := @pos_turn base h phase (h.trimmed page) rest (hhi' ▸ hhi)
  -- the chunk holds what is new on the page
  have hylo : Delivery.lo base (Chunk.delivery payload (h.turn phase (h.trimmed page) rest).2) =
      max (page.lo base) (h.pos base) := hlo'
  have hyhi : Delivery.hi base (Chunk.delivery payload (h.turn phase (h.trimmed page) rest).2) =
      page.hi base := hhi'
  refine hr.snoc (Option.some_ne_none _) (hpos.trans rfl) (by omega) ?_ ?_ ?_ ?_
  · intro x
    rw [hylo, hyhi]
    refine ⟨Or.inl, fun hx => hx.elim id fun hx => (hr.cover x).2 (Or.inr ?_)⟩
    rw [hpages, Backlog.covers_cons]
    exact Or.inl ⟨by omega, hx.2⟩
  · intro x hc
    have hstale := hr.stale x
    rw [hpages, Backlog.covers_cons] at hc hstale
    rw [hylo, hyhi]
    rcases hc with hfirst | hc
    · by_cases hx : x < h.pos base
      · exact Or.inl (hstale hx (Or.inl hfirst))
      · exact Or.inr (Or.inl ⟨by omega, hfirst.2⟩)
    · exact Or.inr (Or.inr hc)
  · intro x hc
    rw [hpages, Backlog.covers_cons]
    exact Or.inr hc
  · rintro x hx ⟨q, hq, hlo, -⟩
    have := hrest.head_le hq
    omega

/-- **Moves retain what is held**, even those over a gap. -/
theorem move (hr : Retains base held h ds) (hp : Placed base h) (hm : Move leaps h cs h')
    (payload : List UInt8) : Retains base held h' (ds ++ cs.map (Chunk.delivery payload)) := by
  cases hm with
  | @free page rest hpages hb =>
      obtain ⟨hsize, hhi⟩ := hp.head hpages
      have hend := (isBehind_iff hp.pos_le hhi hsize).1 hb
      rw [List.map_nil, List.append_nil]
      refine ⟨fun x => ?_, fun x hx hc => ?_, hr.before, hr.idle⟩
      · rw [hr.cover, hpages, Backlog.covers_cons]
        refine ⟨?_, by tauto⟩
        rintro (hd | hfirst | hc)
        · exact Or.inl hd
        · refine Or.inl (hr.stale x (Nat.lt_of_lt_of_le hfirst.2 hend) ?_)
          rw [hpages, Backlog.covers_cons]
          exact Or.inl hfirst
        · exact Or.inr hc
      · refine hr.stale x hx ?_
        rw [hpages, Backlog.covers_cons]
        exact Or.inr hc
  | @trim page rest hpages hb =>
      obtain ⟨hsize, hhi⟩ := hp.head hpages
      have hlo' := lo_trimmed hp.pos_le hhi hb
      have hhi' := hi_trimmed hp.pos_le hhi hb
      rw [List.map_nil, List.append_nil]
      refine ⟨fun x => ?_, fun x hx hc => ?_, hr.before, hr.idle⟩
      · have hstale := hr.stale x
        rw [hpages, Backlog.covers_cons] at hstale
        rw [hr.cover, hpages, Backlog.covers_cons, Backlog.covers_cons, hlo', hhi']
        by_cases hx : x < h.pos base
        · have := hstale hx
          refine ⟨by tauto, ?_⟩
          rintro (hd | hfirst | hc)
          · exact Or.inl hd
          · omega
          · exact Or.inr (Or.inr hc)
        · have hmax : max (page.lo base) (h.pos base) ≤ x ↔ page.lo base ≤ x := by omega
          rw [hmax]
      · refine hr.stale x hx ?_
        rw [Backlog.covers_cons] at hc
        rw [hpages, Backlog.covers_cons]
        refine hc.imp_left ?_
        omega
  | hand hpages hb _ _ => exact hr.turn hp hpages hb _ payload

theorem moves (hr : Retains base held h ds) (hp : Placed base h) (hm : Moves leaps h cs h')
    (payload : List UInt8) : Retains base held h' (ds ++ cs.map (Chunk.delivery payload)) :=
  (hm.keep (J := fun h ds => Placed base h ∧ Retains base held h ds)
    (fun hJ hmove => ⟨(hJ.1.move hmove).1, hJ.2.move hJ.1 hmove payload⟩) ⟨hp, hr⟩).2

/-- A page from the position on is held from then on. -/
theorem hold (hr : Retains base held h ds) (hlo : h.pos base ≤ page.lo base) :
    Retains base (fun x => held x ∨ (page.lo base ≤ x ∧ x < page.hi base)) (h.hold page) ds := by
  have hcovers : ∀ x, Covers base (h.hold page).pages x ↔
      (page.lo base ≤ x ∧ x < page.hi base) ∨ Covers base h.pages x := by
    intro x
    simp only [Covers, HalfStream.hold, Backlog.mem_insert, or_and_right, exists_or, exists_eq_left]
  refine ⟨fun x => ?_, fun x hx hc => ?_, hr.before, hr.idle⟩
  · rw [hr.cover, hcovers]
    tauto
  · have hx : x < h.pos base := hx
    rcases (hcovers x).1 hc with hpage | hc
    · omega
    · exact hr.stale x hx hc

end Retains

/-! ## A place for the data of a segment -/

/-- What arrives in time waits already, or a place is found for it. -/
theorem exists_span (hp : Placed base h) {len x : Nat} (hin : base.offset start + len ≤ SeqNum.reach)
    (hx : base.offset start ≤ x ∧ x < base.offset start + len) (hpos : h.pos base ≤ x) :
    Covers base h.pages x ∨ ∃ span ∈ (Fit.of h.next h.pages start len).spans len,
      base.offset start + span.start ≤ x ∧ x < base.offset start + span.stop := by
  have hs : base.offset start ≤ SeqNum.reach := Nat.le_trans (Nat.le_add_right ..) hin
  -- data that lies ahead is what waits and the gaps between
  have hwaiting : Covers base h.pages x ∨ ∃ span ∈ (Fit.waiting h.pages start len).spans len,
      base.offset start + span.start ≤ x ∧ x < base.offset start + span.stop := by
    have hgaps := @Backlog.mem_gaps_iff base start len 0 _ hp.spread.apart hs
      (x - base.offset start)
    rw [Nat.add_sub_cancel' hx.1] at hgaps
    rw [Fit.spans_waiting]
    by_cases hcovers : Covers base h.pages x
    · exact Or.inl hcovers
    · obtain ⟨span, hspan, hstart, hstop⟩ := hgaps.2 ⟨Nat.zero_le _, by omega, hcovers⟩
      exact Or.inr ⟨span, hspan, by omega, by omega⟩
  unfold Fit.of
  rw [if_neg (by omega)]
  cases hn : h.next with
  | none => exact hwaiting
  | some next =>
      have hreach := hp.pos_le
      rw [pos_some hn] at hpos hreach
      simp only [SeqNum.distance_eq_offset_sub hreach hs]
      by_cases hahead : base.offset next < base.offset start
      · rw [if_pos (by omega)]
        exact hwaiting
      · rw [if_neg (by omega), if_neg (by omega)]
        refine Or.inr ⟨_, List.mem_singleton_self _, ?_, ?_⟩
        · show base.offset start + (_ : Int).natAbs ≤ x
          omega
        · exact hx.2

/-- What is held while portions are stored: in the end it is `held`, unless something is given up. -/
def Saves (base start : SeqNum) (held : Nat → Prop) (h : HalfStream) (ps : List Portion)
    (ds : List Delivery) : Prop :=
  h.counters.discarded = 0 → (∀ p ∈ ps, h.pos base ≤ p.lo base start) ∧
    ∃ held', (∀ x, held x ↔ held' x ∨ ∃ p ∈ ps, p.lo base start ≤ x ∧ x < p.hi base start) ∧
      Retains base held' h ds

/-- In the end what was to be held is retained. -/
theorem Saves.retains (hs : Saves base start held h [] ds) (hzero : h.counters.discarded = 0) :
    Retains base held h ds := by
  obtain ⟨-, held', hheld, hr⟩ := hs hzero
  have hsame : held = held' := by
    funext x
    simpa using hheld x
  rw [hsame]
  exact hr

/-- **As long as nothing is given up, storing retains what is yet to be stored.** A leap does not reach
beyond the portions, since the half-stream is calm. -/
theorem Retains.kept (hw : base.offset start + payload.length ≤ SeqNum.reach) (held : Nat → Prop) :
    KeptStoring base start payload (Saves base start held) where
  leap {h h' cs ps ds} hc hc' hm hJ := by
    intro hzero
    obtain ⟨-, held', hheld, hr⟩ := hJ (hm.discarded_eq.symm.trans hzero)
    exact ⟨hc'.pos_le, held', hheld, hr.moves hc.tidy.placed hm payload⟩
  hold {h p ps ds} hl hJ := by
    intro hzero
    obtain ⟨hpos, held', hheld, hr⟩ := hJ hzero
    obtain ⟨hlo, hhi⟩ := p.lo_hi_page hw (hl.laid.bounds p (List.mem_cons_self ..))
    have hfrom : h.pos base ≤ (p.page start payload).lo base := hlo ▸ hpos p (List.mem_cons_self ..)
    have hfirst := hr.hold hfrom
    rw [hlo, hhi] at hfirst
    refine ⟨fun q hq => hpos q (List.mem_cons_of_mem _ hq), _, fun x => ?_, hfirst⟩
    rw [hheld]
    simp only [List.mem_cons, exists_eq_or_imp, or_assoc]
  lose {h page rest ps ds} hl hpages _ _ := by
    intro hzero
    have hsize := (hl.placed.head hpages).1
    simp only [HalfStream.lose, Counters.addDiscard] at hzero
    omega
  drop {h p ps ds} hl hsum _ := by
    intro hzero
    have hbounds := hl.laid.bounds p (List.mem_cons_self ..)
    simp only [HalfStream.drop, Counters.addDiscard, ← hsum, Span.size] at hzero
    omega

/-- The chunk holds the data that comes in time. -/
theorem Handed.mem_iff {segment : Segment} {accepted : List Cell} {y : Delivery}
    (hy : h.Handed segment accepted h' y) (hpos : h.pos base ≤ SeqNum.reach)
    (hw : (h.next = none ∧ segment.flags.isSyn = true) ∨ segment.payload ≠ [] →
      base.offset segment.payloadSeq + segment.payload.length ≤ SeqNum.reach) (x : Nat) :
    (y.lo base ≤ x ∧ x < y.hi base) ↔ (base.offset segment.payloadSeq ≤ x ∧
      x < base.offset segment.payloadSeq + segment.payload.length) ∧ h.pos base ≤ x := by
  rw [Delivery.hi, Delivery.lo]
  cases hn : h.next with
  | none =>
      obtain ⟨-, hseq, hbytes, -, -⟩ := hy.begun hn
      rw [hseq, hbytes, pos_none hn]
      simp
  | some next =>
      obtain ⟨hdist, hlt, hseq, hbytes, -, -⟩ := hy.passed next hn
      have hin := hw (Or.inr (List.ne_nil_of_length_pos (by omega)))
      rw [pos_some hn] at hpos ⊢
      rw [SeqNum.distance_eq_offset_sub hpos (by omega)] at hdist hlt hbytes
      rw [hseq, hbytes, List.length_drop]
      omega

/-- Data that goes through at once is retained, if no page waits before the beginning that a SYN sets. -/
theorem Retains.taken {segment : Segment} {accepted : List Cell} (hr : Retains base held h ds)
    (hp : Placed base h)
    (hw : (h.next = none ∧ segment.flags.isSyn = true) ∨ segment.payload ≠ [] →
      base.offset segment.payloadSeq + segment.payload.length ≤ SeqNum.reach)
    (hbefore : h.next = none → segment.flags.isSyn = true →
      ∀ x, Covers base h.pages x → base.offset segment.payloadSeq ≤ x)
    (htaken : h.Taken segment accepted h' cs) :
    Retains base
      (fun x => held x ∨ ((base.offset segment.payloadSeq ≤ x ∧
        x < base.offset segment.payloadSeq + segment.payload.length) ∧ h.pos base ≤ x)) h'
      (ds ++ cs.map (Chunk.delivery segment.payload)) := by
  rcases htaken.handed with ⟨counters, -, rfl, rfl, -, -, hspans⟩ | ⟨y, hcs, hy⟩
  · -- what comes in time waits already
    have hsame : ∀ x, held x ∨ ((base.offset segment.payloadSeq ≤ x ∧
        x < base.offset segment.payloadSeq + segment.payload.length) ∧ h.pos base ≤ x) ↔ held x := by
      refine fun x => or_iff_left_of_imp fun ⟨hx, hpos⟩ => ?_
      have hin := hw (Or.inr (List.ne_nil_of_length_pos (by omega)))
      rcases exists_span hp hin hx hpos with hc | ⟨span, hspan, -⟩
      · exact (hr.cover x).2 (Or.inr hc)
      · rw [hspans] at hspan
        cases hspan
    simp only [hsame, List.map_nil, List.append_nil]
    exact hr.congr rfl rfl
  · have hle := hy.hi_le hp.pos_le hw
    rw [hcs]
    refine hr.snoc (hy.next ▸ Option.some_ne_none _) (hy.pos_eq hle) hy.pos_le_lo ?_ ?_ ?_ ?_
    · exact fun x => or_congr_right (hy.mem_iff hp.pos_le hw x).symm
    · intro x hc
      exact Or.inr (Or.inr (hy.pages ▸ hc))
    · intro x hc
      exact hy.pages ▸ hc
    · intro x hx hc
      rw [hy.pages] at hc
      cases hn : h.next with
      | none =>
          obtain ⟨hsyn, hseq, -, -, -⟩ := hy.begun hn
          refine Or.inr ⟨?_, hx⟩
          rw [Delivery.lo, hseq]
          exact hbefore hn hsyn x hc
      | some next =>
          by_cases hold : x < h.pos base
          · exact Or.inl (hr.stale x hold hc)
          · refine Or.inr ⟨?_, hx⟩
            obtain ⟨-, -, hseq, -, -, -⟩ := hy.passed next hn
            rw [Delivery.lo, hseq, ← pos_some hn]
            omega

end HalfStream

/-! ## Segments -/

open HalfStream (Retains Tidy Placed Saves)

variable {ceiling k : Nat} {d : Direction} {base : SeqNum}

/-- What arrived in time was handed over or waits, unless something was given up.  All the segments that
arrived are among `all`. -/
def HalfStream.Timed (base : SeqNum) (all : List Arrival) (h : HalfStream) (as : List Arrival)
    (ds : List Delivery) : Prop :=
  Tidy base h ∧ as ⊆ all ∧
    (h.counters.discarded = 0 → Retains base (Arrival.Timely base as) h ds)

namespace Arrival

variable {a : Arrival} {all as : List Arrival} {ds : List Delivery}

/-- What arrives in time is what lies from the position on. -/
theorem inTime_iff (hopen : a.half.isClosed = false) (x : Nat) : a.InTime base x ↔
    (base.offset a.segment.payloadSeq ≤ x ∧
      x < base.offset a.segment.payloadSeq + a.segment.payload.length) ∧ a.half.pos base ≤ x := by
  refine (and_iff_right hopen).trans (and_congr_right fun _ => ⟨?_, Or.inr⟩)
  rintro (hn | hpos)
  · rw [HalfStream.pos_none hn]
    exact Nat.zero_le x
  · exact hpos

/-- Data that is ahead arrives in time, and either waits already or is among the portions to store. -/
theorem timely_portions (hopen : a.half.isClosed = false) (ht : Tidy base a.half)
    (hw : base.offset a.segment.payloadSeq + a.segment.payload.length ≤ SeqNum.reach)
    (hr : Retains base (Timely base as) a.half ds) {pieces : List Span}
    (hfit : Fit.of a.half.next a.half.pages a.segment.payloadSeq a.segment.payload.length =
      .ahead pieces) (x : Nat) :
    Timely base (as ++ [a]) x ↔ Timely base as x ∨ ∃ p ∈ pieces.flatMap Span.portions,
      p.lo base a.segment.payloadSeq ≤ x ∧ x < p.hi base a.segment.payloadSeq := by
  have hcalm := HalfStream.Calm.of_ahead ht hw hfit
  rw [timely_snoc, inTime_iff hopen]
  constructor
  · rintro (ha | ⟨hx, hpos⟩)
    · exact Or.inl ha
    · rcases HalfStream.exists_span ht.placed hw hx hpos with hc | ⟨piece, hpiece, hstart, hstop⟩
      · exact Or.inl ((hr.cover x).2 (Or.inr hc))
      · rw [hfit] at hpiece
        obtain ⟨p, hp, hlo, hhi⟩ := @Span.exists_portion piece (x - base.offset a.segment.payloadSeq)
          ⟨by omega, by omega⟩
        refine Or.inr ⟨p, List.mem_flatMap.2 ⟨piece, hpiece, hp⟩, ?_, ?_⟩
        · rw [Portion.lo]
          omega
        · rw [Portion.hi]
          omega
  · rintro (ha | ⟨p, hp, hlo, hhi⟩)
    · exact Or.inl ha
    · have hbounds := hcalm.laid.bounds p hp
      have hpos := hcalm.pos_le p hp
      rw [Portion.lo] at hlo hpos
      rw [Portion.hi] at hhi
      exact Or.inr ⟨⟨by omega, by omega⟩, by omega⟩

/-- Data that goes through at once, if any does, is retained with what came in time before. -/
theorem retains_taken (hopen : a.half.isClosed = false) (hw : a.InWindow base)
    (ht : Tidy base a.half) (hr : Retains base (Timely base as) a.half ds)
    (hbegins : a.BeginsStream →
      ∀ x, Covers base a.half.pages x → base.offset a.segment.payloadSeq ≤ x)
    {accepted : List Cell} {h' : HalfStream} {cs : List Chunk}
    (htaken : a.half.Taken a.segment accepted h' cs) :
    Retains base (Timely base (as ++ [a])) h'
      (ds ++ cs.map (Chunk.delivery a.segment.payload)) := by
  have hsame : Timely base (as ++ [a]) = fun x => Timely base as x ∨
      ((base.offset a.segment.payloadSeq ≤ x ∧
        x < base.offset a.segment.payloadSeq + a.segment.payload.length) ∧ a.half.pos base ≤ x) := by
    funext x
    rw [timely_snoc, inTime_iff hopen]
  rw [hsame]
  exact hr.taken ht.placed (fun hc => hw (hc.imp_left fun hb => ⟨hopen, hb⟩))
    (fun hn hsyn => hbegins ⟨hopen, hn, hsyn⟩) htaken

/-- Working a segment in retains what arrives in time. -/
theorem work_timed (hs : a.before.Sound ceiling) (hw : a.InWindow base)
    (hlimit : 0 < a.config.pagesPerConnection)
    (hcount : a.connection.pageCount < a.config.pagesPerConnection) (ha : a ∈ all)
    (hsyn : a.BeginsStream → ∀ x ∈ all, x.segment.payload ≠ [] →
      base.offset a.segment.payloadSeq ≤ base.offset x.segment.payloadSeq)
    (ht : HalfStream.Timed base all a.half as ds) :
    HalfStream.Timed base all (a.work.connection.half a.direction) (as ++ [a])
      (ds ++ a.deliveries a.direction) := by
  obtain ⟨htidy, hsub, hr⟩ := ht
  have hsub' : as ++ [a] ⊆ all :=
    List.append_subset.2 ⟨hsub, List.cons_subset.2 ⟨ha, List.nil_subset _⟩⟩
  cases hclosed : a.half.isClosed with
  | true =>
      obtain ⟨hconn, -, -, hchunks⟩ := work_of_closed hclosed
      have hsame : Timely base (as ++ [a]) = Timely base as := by
        funext x
        simp [timely_snoc, InTime, hclosed]
      rw [deliveries, hconn, hchunks, Chunk.ofDirection_nil, List.map_nil, List.append_nil]
      refine ⟨htidy, hsub', ?_⟩
      rw [hsame]
      exact hr
  | false =>
      -- what waits arrived in time, with a segment that no SYN comes after
      have hbegins : a.half.counters.discarded = 0 → a.BeginsStream →
          ∀ x, Covers base a.half.pages x → base.offset a.segment.payloadSeq ≤ x := by
        intro hzero hb x hc
        obtain ⟨y, hy, -, ⟨hlo, hhi⟩, -⟩ := ((hr hzero).cover x).2 (Or.inr hc)
        have hne : y.segment.payload ≠ [] := List.ne_nil_of_length_pos (by omega)
        exact Nat.le_trans (hsyn hb y (hsub hy) hne) hlo
      have hworked := @work_keeps base ceiling a
        (fun h ds => h.counters.discarded = 0 → Retains base (Timely base (as ++ [a])) h ds)
        (Saves base a.segment.payloadSeq (Timely base (as ++ [a]))) ds hs hclosed hw hlimit hcount
        htidy (Retains.kept · _) ?_ ?_ ?_ ?_ ?_
      · exact ⟨hworked.1, hsub', hworked.2⟩
      · intro pieces counters hin hfit hcounters _ hzero
        have hr := hr (hcounters.symm.trans hzero)
        exact ⟨(HalfStream.Calm.of_ahead (h := a.half) htidy hin hfit).pos_le, Timely base as,
          timely_portions hclosed htidy hin hr hfit, hr.congr rfl rfl⟩
      · exact fun hsaved hzero => hsaved.retains hzero
      · intro accepted h' cs htaken hzero
        have hkept := htaken.discarded_eq.symm.trans hzero
        exact retains_taken hclosed hw htidy (hr hkept) (hbegins hkept) htaken
      · intro h h' cs ds hp hm hr hzero
        exact (hr ((HalfStream.Moves.single hm).discarded_eq.symm.trans hzero)).move hp hm _
      · exact fun hr _ hzero => (hr hzero).congr rfl rfl

end Arrival

namespace Reassembly

/-- What arrived in time is retained by everything but a segment, and the limit is kept. -/
theorem kept_timed (ceiling : Nat) (d : Direction) (base : SeqNum) (all : List Arrival) {limit : Nat}
    (hlimit : 0 < limit) :
    Kept ceiling d (fun c => c.pageCount < limit) (HalfStream.Timed base all) where
  new _ _ _ _ := hlimit
  newHalf := by
    have hnone : Arrival.Timely base [] = fun _ => False := by
      funext x
      simp [Arrival.Timely]
    refine ⟨HalfStream.tidy_new d, List.nil_subset _, fun _ => ?_⟩
    rw [hnone]
    exact .new d
  move ht hmove payload := by
    refine ⟨ht.1.move hmove, ht.2.1, fun hzero => ?_⟩
    exact (ht.2.2 ((HalfStream.Moves.single hmove).discarded_eq.symm.trans hzero)).move ht.1.placed
      hmove _
  lose ht hp := by
    refine ⟨ht.1.lose hp, ht.2.1, fun hzero => ?_⟩
    -- a page that is given up counts
    have hsize := (ht.1.placed.head hp).1
    simp only [HalfStream.lose, Counters.addDiscard] at hzero
    omega
  sheds hs hc := Nat.lt_of_le_of_lt hs.pageCount_le hc
  closed ht _ := ⟨⟨ht.1.spread, ht.1.pos_le⟩, ht.2.1, fun hzero => (ht.2.2 hzero).congr rfl rfl⟩
  close hs _ := by
    rw [Connection.pageCount_close hs]
    exact hlimit

/-- **The limit of a connection loses nothing that arrived in time.** Let no request for a page be refused,
let all segments of a connection be worked in under one limit, and let those of one direction lie in a
window, none before the beginning that a SYN sets.  Then, in every state, the bytes of that direction
that arrived in time are those that were handed over and those that wait, no byte is both, and none was
given up. -/
theorem timely_retained {limit : Nat} (hlimit : 0 < limit) (calls : List Call)
    (hcommon : ∀ a ∈ ((fresh ceiling).history calls).arrivals, a.stream = k →
      a.config.pagesPerConnection = limit)
    (hgranted : ∀ a ∈ ((fresh ceiling).history calls).arrivals, a.Granted)
    (hwindow : ∀ a ∈ ((fresh ceiling).history calls).arrivalsAt k d, a.InWindow base)
    (hsyn : ∀ a ∈ ((fresh ceiling).history calls).arrivalsAt k d, a.BeginsStream →
      ∀ x ∈ ((fresh ceiling).history calls).arrivalsAt k d, x.segment.payload ≠ [] →
        base.offset a.segment.payloadSeq ≤ base.offset x.segment.payloadSeq) :
    ∀ c ∈ ((fresh ceiling).history calls).state.connections, c.stream = k →
      (c.half d).counters.discarded = 0 ∧
      (∀ x, Arrival.Timely base (((fresh ceiling).history calls).arrivalsAt k d) x ↔
        Delivered base (((fresh ceiling).history calls).deliveries k d) x ∨
          Covers base (c.half d).pages x) ∧
      ∀ x, Delivered base (((fresh ceiling).history calls).deliveries k d) x →
        ¬ Covers base (c.half d).pages x := by
  intro c hc hk
  have hzero := (unscathed_of_granted calls hgranted).1 c hc d
  have hup := (kept_timed ceiling d base
    (((fresh ceiling).history calls).arrivalsAt k d) hlimit).history (k := k) calls ?_ ?_
  · obtain ⟨-, ht, -, hr⟩ := hup.live c hc hk
    have hr := hr hzero
    refine ⟨hzero, hr.cover, ?_⟩
    rintro x ⟨y, hy, -, hhi⟩ ⟨page, hpage, hlo, -⟩
    have hbefore := hr.before y hy
    have hfrom := (ht.spread.mem hpage).1
    omega
  · intro a ha _ hk hcount
    rw [← hcommon a ha hk] at hlimit hcount ⊢
    exact Arrival.pageCount_work hlimit hcount
  · intro a ha hs as ds hP
    obtain ⟨ha', hat⟩ := List.mem_filter.1 ha
    obtain ⟨hk, rfl⟩ := of_decide_eq_true hat
    have hsame := hcommon a ha' hk
    exact Arrival.work_timed hs (hwindow a ha) (hsame ▸ hlimit) (hsame ▸ hP.1) ha (hsyn a ha) hP.2

/-- Calls that reach the limit in the middle of a segment, which is stored on either side of a page. -/
def callsAtLimit : List Call :=
  [.ofSegment 2 9 .syn [97], .ofSegment 2 14 ⟨0⟩ [101], .ofSegment 2 12 ⟨0⟩ [99, 100, 101, 102],
    .ofSegment 2 11 ⟨0⟩ [98], .ofSegment 2 18 ⟨0⟩ [105]]

theorem timely_retained_at_limit :
    (∀ a ∈ ((fresh 4).history callsAtLimit).arrivals, a.config.pagesPerConnection = 2 ∧ a.Granted) ∧
    (∀ a ∈ ((fresh 4).history callsAtLimit).arrivalsAt 0 .forward, a.InWindow (.ofNat 10)) ∧
    (((fresh 4).history callsAtLimit).deliveries 0 .forward).map (fun y => (y.lo (.ofNat 10), y.bytes)) =
      [(0, [97]), (2, [99, 100]), (4, [101]), (5, [102])] ∧
    ((fresh 4).history callsAtLimit).state.connections.map (fun c => c.forward.pages) =
      [[⟨.ofNat 18, [105]⟩]] ∧
    ∀ c ∈ ((fresh 4).history callsAtLimit).state.connections, c.stream = 0 →
      (c.half .forward).counters.discarded = 0 ∧
      ∀ x, Arrival.Timely (.ofNat 10) (((fresh 4).history callsAtLimit).arrivalsAt 0 .forward) x ↔
        Delivered (.ofNat 10) (((fresh 4).history callsAtLimit).deliveries 0 .forward) x ∨
          Covers (.ofNat 10) (c.half .forward).pages x := by
  have hcalls : ∀ a ∈ ((fresh 4).history callsAtLimit).arrivals,
      a.config.pagesPerConnection = 2 ∧ a.Granted := by decide
  have hwindow : ∀ a ∈ ((fresh 4).history callsAtLimit).arrivalsAt 0 .forward,
      a.InWindow (.ofNat 10) := by decide
  refine ⟨hcalls, hwindow, by decide, by decide, fun c hc hk => ?_⟩
  obtain ⟨hzero, hcover, -⟩ := timely_retained (by decide : 0 < 2) callsAtLimit
    (fun a ha _ => (hcalls a ha).1) (fun a ha => (hcalls a ha).2) hwindow (by decide) c hc hk
  exact ⟨hzero, hcover⟩

end Reassembly
end TcpStreams
