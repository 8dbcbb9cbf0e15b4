import Mathlib.Data.List.Chain
import TcpStreams.Proofs.Halves
import TcpStreams.Proofs.Storing

/-!
# Markers

A chunk carries two marks: that it follows a SYN, and that bytes before it are lost.  Both are due
from the moment they are known until the next chunk is handed on, while pages are given up in between
and the position moves.  For one reassembler the marks are exact all the same.

* `HalfStream.Marked`: the marks that are due, and those on the chunks handed on.
* `HalfStream.Marked.lose`: giving a page up makes a skip mark due, and rightly so.
* `Reassembly.markers_exact`: the marks on the chunks of a stream say what they mean.
-/

namespace TcpStreams

/-- A chunk that comes right after another in its stream carries no start mark, and a skip mark
exactly if it does not begin where the other one ended. -/
def Delivery.MarkedAfter (x y : Delivery) : Prop :=
  y.start = false ∧ (y.skip = true ↔ y.seq ≠ x.seq.advance x.bytes.length)

instance (x y : Delivery) : Decidable (x.MarkedAfter y) := inferInstanceAs (Decidable (_ ∧ _))

/-- The first chunk of a stream carries a start mark if a SYN began the stream, and a skip mark
otherwise. -/
def Delivery.MarkedFirst (synced : Prop) (x : Delivery) : Prop :=
  (x.start = true ↔ synced) ∧ (x.skip = true ↔ ¬ synced)

namespace HalfStream

variable {base : SeqNum} {synced : Prop} {h h' : HalfStream} {ds : List Delivery}

/-- The chunks handed on carry the marks that they should, and those that are due are the ones that
the next chunk should carry. -/
structure Marked (base : SeqNum) (synced : Prop) (h : HalfStream) (ds : List Delivery) : Prop where
  /-- The first chunk is marked. -/
  first : ∀ x ∈ ds.head?, x.MarkedFirst synced
  /-- The others are marked. -/
  chain : ds.IsChain Delivery.MarkedAfter
  /-- No start mark is due. -/
  startDue : h.startDue = false
  /-- Before the stream has begun nothing is handed on or due. -/
  idle : h.next = none → ds = [] ∧ h.skipDue = false ∧ ¬ synced
  /-- Afterwards the last chunk ends at the position or, exactly if a skip mark is due, before it. -/
  last : h.next ≠ none → ∃ x ∈ ds.getLast?, x.hi base ≤ h.pos base ∧
    (h.skipDue = true ↔ x.hi base < h.pos base)

namespace Marked

theorem new (d : Direction) : Marked base False (HalfStream.new d) [] where
  first _ h := nomatch h
  chain := List.isChain_nil
  startDue := rfl
  idle _ := ⟨rfl, rfl, not_false⟩
  last h := absurd rfl h

/-- What is not about the marks does not matter. -/
theorem congr (hm : Marked base synced h ds) (hnext : h'.next = h.next)
    (hstart : h'.startDue = h.startDue) (hskip : h'.skipDue = h.skipDue) :
    Marked base synced h' ds := by
  have hpos : h'.pos base = h.pos base := by simp only [pos, hnext]
  refine ⟨hm.first, hm.chain, hstart.trans hm.startDue, ?_, ?_⟩
  · rw [hnext, hskip]
    exact hm.idle
  · rw [hnext, hskip, hpos]
    exact hm.last

/-- One more chunk is handed on. -/
theorem snoc (hm : Marked base synced h ds) (hp : h.pos base ≤ SeqNum.reach) {x : Delivery}
    {next : SeqNum} (hnext : h'.next = some next) (hhi : base.offset next = x.hi base)
    (hstart' : h'.startDue = false) (hskip' : h'.skipDue = false) (hlo : h.pos base ≤ x.lo base)
    (hstart : x.start = h.startDue)
    (hskip : x.skip = (h.skipDue || h.next != some x.seq)) :
    Marked base synced h' (ds ++ [x]) := by
  have hpos : h'.pos base = x.hi base := (pos_some hnext).trans hhi
  have hlast : h'.next ≠ none → ∃ y ∈ (ds ++ [x]).getLast?, y.hi base ≤ h'.pos base ∧
      (h'.skipDue = true ↔ y.hi base < h'.pos base) := by
    intro _
    refine ⟨x, List.getLast?_concat, ?_, ?_⟩
    · rw [hpos]
    · rw [hpos, hskip']
      simp
  rw [hm.startDue] at hstart
  cases hn : h.next with
  | none =>
      obtain ⟨rfl, -, hsynced⟩ := hm.idle hn
      refine ⟨?_, List.isChain_singleton _, hstart', ?_, hlast⟩
      · intro y hy
        obtain rfl := Option.some.inj hy
        refine ⟨?_, ?_⟩
        · simp [hstart, hsynced]
        · simp [hskip, hn, hsynced]
      · rw [hnext]
        exact nofun
  | some old =>
      obtain ⟨y, hy, hle, hdue⟩ := hm.last (hn ▸ nofun)
      have hold : h.pos base = base.offset old := pos_some hn
      have hne : ds ≠ [] := by
        rintro rfl
        cases hy
      refine ⟨?_, List.isChain_append.2 ⟨hm.chain, List.isChain_singleton _, ?_⟩, hstart', ?_, hlast⟩
      · intro z hz
        rw [List.head?_append_of_ne_nil _ hne] at hz
        exact hm.first z hz
      · intro z hz w hw
        obtain rfl := Option.some.inj hw
        obtain rfl := Option.some.inj (hz.symm.trans hy)
        refine ⟨hstart, ?_⟩
        -- the chunk continues the stream if it begins where the last one ended
        have hend : base.offset (z.seq.advance z.bytes.length) = z.hi base := by
          refine SeqNum.offset_advance _ _ ?_
          have hreach : SeqNum.reach = 0x7fffffff := rfl
          rw [Delivery.hi, Delivery.lo] at hle
          omega
        have hseq : x.seq = z.seq.advance z.bytes.length ↔ x.lo base = z.hi base := by
          rw [← hend, Delivery.lo, SeqNum.offset_inj]
        have hfollow : some old = some x.seq ↔ h.pos base = x.lo base := by
          rw [hold, Delivery.lo, SeqNum.offset_inj, Option.some.injEq]
        rw [hskip, hn, Bool.or_eq_true, hdue, bne_iff_ne, Ne, hfollow, Ne, hseq]
        omega
      · rw [hnext]
        exact nofun

/-- Moves keep the marks right. -/
theorem move (hm : Marked base synced h ds) (hp : Placed base h) {leaps : Bool} {cs : List Chunk}
    (hmove : Move leaps h cs h') (payload : List UInt8) :
    Marked base synced h' (ds ++ cs.map (Chunk.delivery payload)) := by
  cases hmove with
  | free _ _ | trim _ _ =>
      rw [List.map_nil, List.append_nil]
      exact hm.congr rfl rfl rfl
  | @hand page rest phase hpages hb _ _ =>
      obtain ⟨hsize, hhi⟩ := hp.head hpages
      have hlo' := lo_trimmed hp.pos_le hhi hb
      have hhi' := hi_trimmed hp.pos_le hhi hb
      refine hm.snoc hp.pos_le rfl (Page.offset_stop (hhi' ▸ hhi)) rfl rfl ?_ rfl rfl
      show h.pos base ≤ (h.trimmed page).lo base
      omega

theorem moves (hm : Marked base synced h ds) (hp : Placed base h) {leaps : Bool} {cs : List Chunk}
    (hmoves : Moves leaps h cs h') (payload : List UInt8) :
    Marked base synced h' (ds ++ cs.map (Chunk.delivery payload)) :=
  (hmoves.keep (J := fun h ds => Placed base h ∧ Marked base synced h ds)
    (fun hJ hmove => ⟨(hJ.1.move hmove).1, hJ.2.move hJ.1 hmove payload⟩) ⟨hp, hm⟩).2

/-- **Giving a page up makes a skip mark due**, and rightly so: the position moves, unless it has
moved away from the last chunk before. -/
theorem lose (hm : Marked base synced h ds) (hp : Placed base h) {page : Page} {rest : List Page}
    (hpages : h.pages = page :: rest)
    (hwhy : Tidy base h ∨ (h.next ≠ none → h.skipDue = true)) :
    Marked base synced (h.lose page rest) ds := by
  obtain ⟨hsize, hhi⟩ := hp.head hpages
  have hpos := @pos_lose base h page rest hp.pos_le hhi
  cases hn : h.next with
  | none =>
      have hnext : (h.lose page rest).next = h.next := by simp [HalfStream.lose, hn]
      refine hm.congr hnext rfl ?_
      simp [HalfStream.lose, hn]
  | some next =>
      have hbegun : h.next ≠ none := hn ▸ Option.some_ne_none next
      rw [if_neg hbegun] at hpos
      obtain ⟨x, hx, hle, hdue⟩ := hm.last hbegun
      refine ⟨hm.first, hm.chain, hm.startDue, ?_, fun _ => ⟨x, hx, by omega, ?_⟩⟩
      · simp [HalfStream.lose, hn]
      · have hdue' : (h.lose page rest).skipDue = true := by simp [HalfStream.lose, hn]
        rw [hdue', hpos]
        refine ⟨fun _ => ?_, fun _ => rfl⟩
        rcases hwhy with ht | hskip
        · have hlo := (ht.spread.mem (hpages ▸ List.mem_cons_self ..)).1
          rw [Page.hi]
          omega
        · have := hdue.1 (hskip hbegun)
          omega

/-- The steps of storing keep the marks right. -/
theorem kept (base start : SeqNum) (payload : List UInt8) (synced : Prop) :
    KeptStoring base start payload fun h _ ds => Marked base synced h ds where
  leap hc _ hmoves hm := hm.moves hc.tidy.placed hmoves payload
  hold _ hm := hm.congr rfl rfl rfl
  lose hl hpages hwhy hm := hm.lose hl.placed hpages hwhy
  drop _ _ hm := hm.congr rfl rfl rfl

/-- Data that goes through at once is marked. -/
theorem taken (hm : Marked base synced h ds) (hp : Placed base h) {segment : Segment}
    {accepted : List Cell} {cs : List Chunk}
    (hw : (h.next = none ∧ segment.flags.isSyn = true) ∨ segment.payload ≠ [] →
      base.offset segment.payloadSeq + segment.payload.length ≤ SeqNum.reach)
    (htaken : h.Taken segment accepted h' cs) :
    Placed base h' ∧ Marked base (synced ∨ (h.next = none ∧ segment.flags.isSyn = true)) h'
      (ds ++ cs.map (Chunk.delivery segment.payload)) := by
  rcases htaken.handed with ⟨counters, rfl, rfl, rfl, -, hsyn, -⟩ | ⟨x, hcs, hx⟩
  · have hsame : (synced ∨ (h.next = none ∧ segment.flags.isSyn = true)) = synced :=
      propext ⟨fun hc => hc.elim id fun hc => absurd hc.1 (hsyn hc.2), Or.inl⟩
    rw [hsame, List.map_nil, List.append_nil]
    exact ⟨⟨hp.spread, hp.pos_le⟩, hm.congr rfl rfl rfl⟩
  have hle := hx.hi_le hp.pos_le hw
  have hpos := hx.pos_eq hle
  refine ⟨hx.placed hp hle, ?_⟩
  rw [hcs]
  cases hn : h.next with
  | none =>
      obtain ⟨hsyn, -, -, hskip, hstart⟩ := hx.begun hn
      obtain ⟨rfl, -, -⟩ := hm.idle hn
      refine ⟨?_, List.isChain_singleton _, hx.startDue, ?_, fun _ => ⟨x, rfl, Nat.le_of_eq hpos.symm, ?_⟩⟩
      · intro y hy
        obtain rfl := Option.some.inj hy
        simp [Delivery.MarkedFirst, hskip, hstart, hsyn]
      · rw [hx.next]
        exact nofun
      · simp [hx.skipDue, hpos]
  | some next =>
      obtain ⟨-, -, hseq, -, hskip, hstart⟩ := hx.passed next hn
      have hsame : (synced ∨ (some next = none ∧ segment.flags.isSyn = true)) = synced := by simp
      rw [hsame]
      refine hm.snoc hp.pos_le hx.next ?_ hx.startDue hx.skipDue hx.pos_le_lo hstart ?_
      · rw [← pos_some hx.next, hpos]
      · simp [hskip, hn, hseq]

end Marked
end HalfStream

/-! ## Segments -/

open HalfStream (Marked Tidy Placed)

variable {ceiling k : Nat} {d : Direction} {base : SeqNum}

/-- The marks are right, and the half-stream is tidy. -/
def HalfStream.TidyMarked (base : SeqNum) (h : HalfStream) (as : List Arrival) (ds : List Delivery) :
    Prop := Tidy base h ∧ Marked base (∃ a ∈ as, a.BeginsStream) h ds

theorem exists_beginsStream_snoc {as : List Arrival} {a : Arrival} :
    (∃ x ∈ as ++ [a], x.BeginsStream) = ((∃ x ∈ as, x.BeginsStream) ∨ a.BeginsStream) := by
  simp [or_and_right, exists_or]

/-- Finding a place for the data of a segment keeps the marks right. -/
theorem Arrival.placed_marked {a : Arrival} {as : List Arrival} {ds : List Delivery}
    (hs : a.before.Sound ceiling) (hopen : a.half.isClosed = false) (hw : a.InWindow base)
    (hlimit : 0 < a.config.pagesPerConnection)
    (hcount : a.connection.pageCount < a.config.pagesPerConnection)
    (hm : HalfStream.TidyMarked base a.half as ds) :
    Work.Reaches ceiling a.direction a.segment.payload
      (fun h ds => Placed base h ∧ Marked base (∃ x ∈ as ++ [a], x.BeginsStream) h ds) ds a.before
      (a.before.placed a.config.pagesPerConnection a.locked a.direction a.segment) := by
  obtain ⟨ht, hm⟩ := hm
  rw [exists_beginsStream_snoc]
  have hbegins : a.BeginsStream =
      ((a.before.connection.half a.direction).next = none ∧ a.segment.flags.isSyn = true) :=
    propext ⟨fun hb => hb.2, fun hb => ⟨hopen, hb⟩⟩
  rcases @Work.placed_cases ceiling a.direction a.before hs hopen a.config.pagesPerConnection a.locked
    a.segment with ⟨pieces, counters, hfit, hhalf, -, hsyn, hlead⟩ | ⟨new, hlead, -, htaken⟩
  · have hsame : ((∃ x ∈ as, x.BeginsStream) ∨ a.BeginsStream) = ∃ x ∈ as, x.BeginsStream := by
      rw [hbegins]
      exact propext ⟨fun hc => hc.elim id fun hc => absurd hc.1 (hsyn hc.2), Or.inl⟩
    have hne : a.segment.payload ≠ [] := by
      rw [Work.fit_eq] at hfit
      exact List.ne_nil_of_length_pos (Fit.of_ahead hfit).1
    rw [hsame]
    obtain ⟨new, hlead', hm', hloose⟩ := Work.reaches_ahead (w := a.before)
      (Marked.kept base _ _ _) (hw (Or.inr hne)) hlimit hopen ht hcount hfit hhalf hlead
      (hm.congr rfl rfl rfl)
    exact ⟨new, hlead', hloose.placed, hm'⟩
  · refine ⟨new, hlead, ?_⟩
    rw [Arrival.InWindow, hbegins] at hw
    rw [hbegins]
    exact hm.taken ht.placed hw htaken

/-- Working a segment in keeps the marks right. -/
theorem Arrival.work_marked {a : Arrival} {as : List Arrival} {ds : List Delivery}
    (hs : a.before.Sound ceiling) (hw : a.InWindow base)
    (hlimit : 0 < a.config.pagesPerConnection)
    (hcount : a.connection.pageCount < a.config.pagesPerConnection)
    (hm : HalfStream.TidyMarked base a.half as ds) :
    HalfStream.TidyMarked base (a.work.connection.half a.direction) (as ++ [a])
      (ds ++ a.deliveries a.direction) := by
  cases hclosed : a.half.isClosed with
  | true =>
      obtain ⟨hconn, -, -, hchunks⟩ := work_of_closed hclosed
      have hquiet : ¬ a.BeginsStream := fun hb => by simp [hb.1] at hclosed
      rw [deliveries, hconn, hchunks, Chunk.ofDirection_nil, List.map_nil, List.append_nil,
        HalfStream.TidyMarked, exists_beginsStream_snoc]
      simp only [hquiet, or_false]
      exact hm
  | false =>
      refine of_reaches (J := fun h ds => HalfStream.TidyMarked base h (as ++ [a]) ds) hclosed
        (Work.reaches_accept (placed_marked hs hclosed hw hlimit hcount hm) ?_ ?_ ?_)
      · rintro h ds ⟨hp, hm⟩
        exact ⟨hp.drain.1, hm.moves hp h.drain_moves _⟩
      · rintro h h' cs ds ⟨ht, hm⟩ hmove
        exact ⟨ht.move hmove, hm.move ht.placed hmove _⟩
      · rintro h ds ⟨ht, hm⟩ -
        exact ⟨⟨ht.spread, ht.pos_le⟩, hm.congr rfl rfl rfl⟩

namespace Reassembly

/-- The marks are kept right by everything but a segment, and the limit as well. -/
theorem kept_marked (ceiling : Nat) (d : Direction) (base : SeqNum) {limit : Nat} (hlimit : 0 < limit) :
    Kept ceiling d (fun c => c.pageCount < limit) (HalfStream.TidyMarked base) where
  new _ _ _ _ := hlimit
  newHalf := by
    refine ⟨HalfStream.tidy_new d, ?_⟩
    simp only [List.not_mem_nil, false_and, exists_false]
    exact .new d
  move hm hmove payload := ⟨hm.1.move hmove, hm.2.move hm.1.placed hmove payload⟩
  lose hm hp := ⟨hm.1.lose hp, hm.2.lose hm.1.placed hp (Or.inl hm.1)⟩
  sheds hs hc := Nat.lt_of_le_of_lt hs.pageCount_le hc
  closed hm _ := ⟨⟨hm.1.spread, hm.1.pos_le⟩, hm.2.congr rfl rfl rfl⟩
  close hs _ := by
    rw [Connection.pageCount_close hs]
    exact hlimit

/-- **Markers are exact.** As long as the segments of one direction of a stream lie in a window, and
one reassembler with a valid configuration works them all in, the first chunk handed over carries a
start mark if a SYN began the stream and a skip mark otherwise; and any other chunk carries no start
mark, and a skip mark exactly if it does not begin where the one before it ended. -/
theorem markers_exact (config : Config) (hvalid : config.check = .ok ()) (calls : List Call)
    (hone : ∀ a ∈ ((fresh ceiling).history calls).arrivals, a.config = config)
    (hwindow : ∀ a ∈ ((fresh ceiling).history calls).arrivalsAt k d, a.InWindow base) :
    (∀ x ∈ (((fresh ceiling).history calls).deliveries k d).head?,
        (x.start = true ↔ ∃ a ∈ ((fresh ceiling).history calls).arrivalsAt k d, a.BeginsStream) ∧
        (x.skip = true ↔ ¬ ∃ a ∈ ((fresh ceiling).history calls).arrivalsAt k d, a.BeginsStream)) ∧
      (((fresh ceiling).history calls).deliveries k d).IsChain fun x y =>
        y.start = false ∧ (y.skip = true ↔ y.seq ≠ x.seq.advance x.bytes.length) := by
  have hlimit := (config.check_eq_ok_iff.1 hvalid).1
  have hup := (kept_marked ceiling d base hlimit).history (k := k) calls ?_ ?_
  · rcases hup.exists_or_fresh with ⟨c, -, -, hm⟩ | ⟨-, hds⟩
    · exact ⟨hm.first, hm.chain⟩
    · rw [hds]
      exact ⟨(fun _ hx => nomatch hx), List.isChain_nil⟩
  · intro a ha _ _ hcount
    rw [← hone a ha] at hlimit hcount ⊢
    exact Arrival.pageCount_work hlimit hcount
  · intro a ha hs as ds hP
    obtain ⟨ha', hat⟩ := List.mem_filter.1 ha
    obtain ⟨-, rfl⟩ := of_decide_eq_true hat
    refine Arrival.work_marked hs (hwindow a ha) ?_ ?_ hP.2
    · rw [hone a ha']
      exact hlimit
    · rw [hone a ha']
      exact hP.1

/-- Calls by one reassembler with a single page, which has to give up what waits for the first gap. -/
def callsUnderPressure : List Call :=
  [.ofSegment 2 14 ⟨0⟩ [101, 102], .ofSegment 2 9 .syn [97], .ofSegment 2 11 ⟨0⟩ [98],
    .ofSegment 2 17 ⟨0⟩ [104], .ofSegment 2 16 ⟨0⟩ [103]]

theorem markers_exact_under_pressure :
    (∀ a ∈ ((fresh 1).history callsUnderPressure).arrivals,
      a.config = { pagesPerConnection := 2 }) ∧
    (∀ a ∈ ((fresh 1).history callsUnderPressure).arrivalsAt 0 .forward,
      a.InWindow (.ofNat 10)) ∧
    (((fresh 1).history callsUnderPressure).deliveries 0 .forward).map
        (fun x => (x.bytes, x.start, x.skip)) =
      [([97], true, false), ([98], false, false), ([103], false, true), ([104], false, false)] ∧
    (((fresh 1).history callsUnderPressure).deliveries 0 .forward).IsChain fun x y =>
      y.start = false ∧ (y.skip = true ↔ y.seq ≠ x.seq.advance x.bytes.length) :=
  ⟨by decide, by decide, by decide,
    (markers_exact { pagesPerConnection := 2 } rfl callsUnderPressure (by decide)
      (by decide : ∀ a ∈ ((fresh 1).history callsUnderPressure).arrivalsAt 0 .forward,
        a.InWindow (.ofNat 10))).2⟩

end Reassembly
end TcpStreams
