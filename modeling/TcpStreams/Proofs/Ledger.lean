import TcpStreams.Proofs.Halves
import TcpStreams.Proofs.Sweeping

/-!
# The ledger of a half-stream

Of every byte that a place was found for it is written down what became of it: it was handed over, it
is held, it counts as discarded, it was released because it was not needed any more, or it was lost.
Each step of a half-stream is an entry in its ledger.

* `HalfStream.Excused`: what makes a byte needless.
* `HalfStream.Ledger`: the books balance, and the counter says what was discarded.
* `HalfStream.Ledger.move`, `.lose`, `.hold`, `.drop`, `.taken`, `.release`, `.overtake`: the entries.
-/

namespace TcpStreams

/-- The bytes of a chunk, with their numbers. -/
def Delivery.cells (x : Delivery) : List Cell := TcpStreams.cells x.seq x.bytes

/-- The bytes that were written off. -/
structure WriteOffs where
  /-- Those that the counter of discarded bytes counts. -/
  discarded : List Cell
  /-- Those that were released. -/
  released : List Cell

/-- What was written off stays written off. -/
structure WriteOffs.Grows (g g' : WriteOffs) : Prop where
  /-- What was discarded. -/
  discarded : g.discarded <+: g'.discarded
  /-- What was released. -/
  released : g.released <+: g'.released

theorem WriteOffs.Grows.refl (g : WriteOffs) : g.Grows g := ⟨List.prefix_rfl, List.prefix_rfl⟩

theorem WriteOffs.Grows.trans {g g' g'' : WriteOffs} (h : g.Grows g') (h' : g'.Grows g'') :
    g.Grows g'' := ⟨h.discarded.trans h'.discarded, h.released.trans h'.released⟩

theorem WriteOffs.Grows.discard (g : WriteOffs) (new : List Cell) :
    g.Grows ⟨g.discarded ++ new, g.released⟩ := ⟨List.prefix_append .., List.prefix_rfl⟩

theorem WriteOffs.Grows.release (g : WriteOffs) (new : List Cell) :
    g.Grows ⟨g.discarded, g.released ++ new⟩ := ⟨List.prefix_rfl, List.prefix_append ..⟩

namespace HalfStream

/-- A byte is not needed if a chunk handed over covers its position, or if it lies before a first
number that a SYN set. -/
def Excused (base : SeqNum) (as : List Arrival) (ds : List Delivery) (x : Cell) : Prop :=
  (∃ y ∈ ds, y.lo base ≤ base.offset x.1 ∧ base.offset x.1 < y.hi base) ∨
    ∃ a ∈ as, a.BeginsStream ∧ base.offset x.1 < base.offset a.segment.payloadSeq

/-- The ends of the chunks handed over, and the first numbers that a SYN set. -/
def Fence (base : SeqNum) (as : List Arrival) (ds : List Delivery) (f : Nat) : Prop :=
  (∃ y ∈ ds, f = y.hi base) ∨ ∃ a ∈ as, a.BeginsStream ∧ f = base.offset a.segment.payloadSeq

variable {base : SeqNum} {as as' : List Arrival} {ds : List Delivery} {x : Cell}

/-- What lies beyond all fences is needed. -/
theorem not_excused (h : ∀ f, Fence base as ds f → f ≤ base.offset x.1) : ¬ Excused base as ds x := by
  rintro (⟨y, hy, -, hlt⟩ | ⟨a, ha, hb, hlt⟩)
  · have := h _ (Or.inl ⟨y, hy, rfl⟩)
    omega
  · have := h _ (Or.inr ⟨a, ha, hb, rfl⟩)
    omega

theorem Excused.mono {ds' : List Delivery} (h : Excused base as ds x) (has : as ⊆ as')
    (hds : ds ⊆ ds') : Excused base as' ds' x := by
  rcases h with ⟨y, hy, hcover⟩ | ⟨a, ha, hbefore⟩
  · exact Or.inl ⟨y, hds hy, hcover⟩
  · exact Or.inr ⟨a, has ha, hbefore⟩

/-- The books of a half-stream after the segments `as` arrived and the chunks `ds` were handed over.
A place was found for `accepted`; of this, `lost` was lost, and `todo` is yet to be dealt with. -/
structure Ledger (base : SeqNum) (as : List Arrival) (accepted lost : List Cell) (g : WriteOffs)
    (h : HalfStream) (todo : List Cell) (ds : List Delivery) : Prop where
  /-- The books balance. -/
  balance : ∀ x, accepted.count x = (ds.flatMap Delivery.cells).count x + h.held.count x +
    todo.count x + g.discarded.count x + g.released.count x + lost.count x
  /-- The counter says how much was discarded. -/
  count : g.discarded.length = h.counters.discarded
  /-- Before the stream has begun nothing was handed over or lost. -/
  idle : h.next = none → ds = [] ∧ lost = [] ∧ ∀ a ∈ as, ¬ a.BeginsStream
  /-- The position is beyond all fences. -/
  fences : ∀ f, Fence base as ds f → f ≤ h.pos base
  /-- What was released is not needed. -/
  released : ∀ x ∈ g.released, Excused base as ds x
  /-- What was lost is needed, and lies behind the position. -/
  lost : ∀ x ∈ lost, base.offset x.1 < h.pos base ∧ ¬ Excused base as ds x

variable {accepted lost todo : List Cell} {g : WriteOffs} {h h' : HalfStream}

namespace Ledger

theorem new (d : Direction) : Ledger base [] [] [] ⟨[], []⟩ (HalfStream.new d) [] [] where
  balance _ := rfl
  count := rfl
  idle _ := ⟨rfl, rfl, fun _ h => nomatch h⟩
  fences f := by
    rintro (⟨y, hy, -⟩ | ⟨a, ha, -⟩)
    · cases hy
    · cases ha
  released _ h := nomatch h
  lost _ h := nomatch h

/-- What is not in the books does not matter. -/
theorem congr (hl : Ledger base as accepted lost g h todo ds) (hnext : h'.next = h.next)
    (hpages : h'.pages = h.pages) (hcount : h'.counters.discarded = h.counters.discarded) :
    Ledger base as accepted lost g h' todo ds := by
  have hpos : h'.pos base = h.pos base := by simp only [pos, hnext]
  have hheld : h'.held = h.held := by simp only [held, hpages]
  refine ⟨?_, hl.count.trans hcount.symm, ?_, ?_, hl.released, ?_⟩
  · rw [hheld]
    exact hl.balance
  · rw [hnext]
    exact hl.idle
  · rw [hpos]
    exact hl.fences
  · rw [hpos]
    exact hl.lost

/-- A chunk that begins at the position or beyond it is handed over. -/
theorem snoc (hl : Ledger base as accepted lost g h todo ds) {y : Delivery} {next : SeqNum}
    {todo' : List Cell} (hnext : h'.next = some next) (hhi : base.offset next = y.hi base)
    (hlo : h.pos base ≤ y.lo base)
    (hcount : h'.counters.discarded = h.counters.discarded)
    (hbalance : ∀ x, h.held.count x + todo.count x =
      y.cells.count x + h'.held.count x + todo'.count x) :
    Ledger base as accepted lost g h' todo' (ds ++ [y]) := by
  have hpos : h'.pos base = y.hi base := (pos_some hnext).trans hhi
  have hle : y.lo base ≤ y.hi base := Nat.le_add_right _ _
  refine ⟨?_, hl.count.trans hcount.symm, ?_, ?_, ?_, ?_⟩
  · intro x
    have h₁ := hl.balance x
    have h₂ := hbalance x
    simp only [List.flatMap_append, List.flatMap_cons, List.flatMap_nil, List.append_nil,
      List.count_append]
    omega
  · rw [hnext]
    exact nofun
  · rintro f (⟨z, hz, rfl⟩ | hf)
    · rw [hpos]
      rcases List.mem_append.1 hz with hz | hz
      · have := hl.fences _ (Or.inl ⟨z, hz, rfl⟩)
        omega
      · obtain rfl := List.mem_singleton.1 hz
        exact Nat.le_refl _
    · have := hl.fences f (Or.inr hf)
      omega
  · exact fun x hx => (hl.released x hx).mono (List.Subset.refl _) (List.subset_append_left ..)
  · intro x hx
    obtain ⟨hlt, hneeded⟩ := hl.lost x hx
    refine ⟨by omega, ?_⟩
    rintro (⟨z, hz, hcover⟩ | hbefore)
    · rcases List.mem_append.1 hz with hz | hz
      · exact hneeded (Or.inl ⟨z, hz, hcover⟩)
      · obtain rfl := List.mem_singleton.1 hz
        omega
    · exact hneeded (Or.inr hbefore)

/-- Moves of a tidy half-stream hand over what is held. -/
theorem move (hl : Ledger base as accepted lost g h todo ds) (ht : Tidy base h) {leaps : Bool}
    {cs : List Chunk} (hm : Move leaps h cs h') (payload : List UInt8) :
    Ledger base as accepted lost g h' todo (ds ++ cs.map (Chunk.delivery payload)) := by
  cases hm with
  | free hpages hb =>
      rw [ht.not_behind (hpages ▸ List.mem_cons_self ..)] at hb
      cases hb
  | trim hpages hb =>
      rw [List.map_nil, List.append_nil, ht.trimmed_eq (hpages ▸ List.mem_cons_self ..), ← hpages]
      exact hl
  | @hand page rest phase hpages hb _ _ =>
      have hmem : page ∈ h.pages := hpages ▸ List.mem_cons_self ..
      obtain ⟨hlo, -, hhi⟩ := ht.spread.mem hmem
      rw [ht.trimmed_eq hmem]
      refine hl.snoc rfl (Page.offset_stop hhi) hlo rfl ?_
      intro x
      simp only [held, hpages, List.flatMap_cons, List.count_append]
      rfl

theorem moves (hl : Ledger base as accepted lost g h todo ds) (ht : Tidy base h) {leaps : Bool}
    {cs : List Chunk} (hm : Moves leaps h cs h') (payload : List UInt8) :
    Ledger base as accepted lost g h' todo (ds ++ cs.map (Chunk.delivery payload)) :=
  (hm.keep (J := fun h ds => Tidy base h ∧ Ledger base as accepted lost g h todo ds)
    (fun hJ hmove => ⟨hJ.1.move hmove, hJ.2.move hJ.1 hmove payload⟩) ⟨ht, hl⟩).2

/-- A page given up is discarded. -/
theorem lose (hl : Ledger base as accepted lost g h todo ds) (hp : Placed base h) {page : Page}
    {rest : List Page} (hpages : h.pages = page :: rest) :
    Ledger base as accepted lost ⟨g.discarded ++ page.cells, g.released⟩ (h.lose page rest) todo
      ds := by
  obtain ⟨-, hhi⟩ := hp.head hpages
  have hpos := @pos_lose base h page rest hp.pos_le hhi
  have hle : h.pos base ≤ (h.lose page rest).pos base := by
    rw [hpos]
    by_cases hn : h.next = none
    · rw [if_pos hn, pos_none hn]
    · rw [if_neg hn]
      exact Nat.le_max_left _ _
  refine ⟨?_, ?_, ?_, fun f hf => Nat.le_trans (hl.fences f hf) hle, hl.released, ?_⟩
  · intro x
    have h₁ := hl.balance x
    simp only [held, hpages, List.flatMap_cons, List.count_append] at h₁
    simp only [held, HalfStream.lose, List.count_append]
    omega
  · rw [List.length_append, hl.count, Page.length_cells]
    rfl
  · intro hn
    exact hl.idle (Option.map_eq_none_iff.1 hn)
  · exact fun x hx => ⟨Nat.lt_of_lt_of_le (hl.lost x hx).1 hle, (hl.lost x hx).2⟩

/-- What is put on a page is held. -/
theorem hold {page : Page} (hl : Ledger base as accepted lost g h (page.cells ++ todo) ds) :
    Ledger base as accepted lost g (h.hold page) todo ds := by
  refine ⟨?_, hl.count, hl.idle, hl.fences, hl.released, hl.lost⟩
  intro x
  have h₁ := hl.balance x
  have h₂ := ((Backlog.insert_perm page h.pages).flatMap_right Page.cells).count_eq x
  simp only [List.flatMap_cons, List.count_append] at h₁ h₂
  simp only [held, HalfStream.hold] at h₁ ⊢
  omega

/-- What is refused a page is discarded. -/
theorem drop (hl : Ledger base as accepted lost g h todo ds) {bytes : Nat}
    (hbytes : todo.length = bytes) :
    Ledger base as accepted lost ⟨g.discarded ++ todo, g.released⟩ (h.drop bytes).value [] ds := by
  refine ⟨?_, ?_, hl.idle, hl.fences, hl.released, hl.lost⟩
  · intro x
    have h₁ := hl.balance x
    simp only [held, HalfStream.drop, List.count_append, List.count_nil] at h₁ ⊢
    omega
  · rw [List.length_append, hl.count, hbytes]
    rfl

/-- Stale bytes that are not needed are released. -/
theorem release (hl : Ledger base as accepted lost g h todo ds)
    (hstale : ∀ x ∈ h.stale, Excused base as ds x) :
    Ledger base as accepted lost ⟨g.discarded, g.released ++ h.stale⟩ h.swept todo ds := by
  refine ⟨?_, hl.count, hl.idle, hl.fences, ?_, hl.lost⟩
  · intro x
    have h₁ := hl.balance x
    have h₂ := h.count_swept x
    simp only [List.count_append]
    omega
  · intro x hx
    rcases List.mem_append.1 hx with hx | hx
    · exact hl.released x hx
    · exact hstale x hx

/-- Stale bytes that are needed are lost. -/
theorem overtake (hl : Ledger base as accepted lost g h todo ds)
    (hstale : ∀ x ∈ h.stale, base.offset x.1 < h.pos base ∧ ¬ Excused base as ds x) :
    Ledger base as accepted (lost ++ h.stale) g h.swept todo ds := by
  refine ⟨?_, hl.count, ?_, hl.fences, hl.released, ?_⟩
  · intro x
    have h₁ := hl.balance x
    have h₂ := h.count_swept x
    simp only [List.count_append]
    omega
  · intro hn
    obtain ⟨hds, hlost, hnone⟩ := hl.idle hn
    refine ⟨hds, ?_, hnone⟩
    -- nothing is stale before the stream has begun
    have hempty : h.stale = [] := by
      refine List.eq_nil_iff_forall_not_mem.2 fun x hx => ?_
      have hpos := (hstale x hx).1
      have hnone' : h.next = none := hn
      rw [pos_none hnone'] at hpos
      omega
    rw [hlost, hempty]
    rfl
  · intro x hx
    rcases List.mem_append.1 hx with hx | hx
    · exact hl.lost x hx
    · exact hstale x hx

/-- A segment arrives that does not begin the stream. -/
theorem arrive (hl : Ledger base as accepted lost g h todo ds) {a : Arrival} (ha : ¬ a.BeginsStream)
    (new : List Cell) : Ledger base (as ++ [a]) (accepted ++ new) lost g h (new ++ todo) ds := by
  have hsame : ∀ {p : Arrival → Prop}, (∃ x ∈ as ++ [a], x.BeginsStream ∧ p x) ↔
      ∃ x ∈ as, x.BeginsStream ∧ p x := by
    intro p
    simp [or_and_right, exists_or, ha]
  refine ⟨?_, hl.count, ?_, ?_, ?_, ?_⟩
  · intro x
    have h₁ := hl.balance x
    simp only [List.count_append]
    omega
  · intro hn
    obtain ⟨hds, hlost, hnone⟩ := hl.idle hn
    refine ⟨hds, hlost, ?_⟩
    intro b hb
    rcases List.mem_append.1 hb with hb | hb
    · exact hnone b hb
    · obtain rfl := List.mem_singleton.1 hb
      exact ha
  · intro f hf
    rw [Fence, hsame] at hf
    exact hl.fences f hf
  · intro x hx
    rw [Excused, hsame]
    exact hl.released x hx
  · intro x hx
    rw [Excused, hsame]
    exact hl.lost x hx

/-- The segment that begins the stream is handed over. -/
theorem begin (hl : Ledger base as accepted lost g h [] ds) (hn : h.next = none) {a : Arrival}
    (ha : a.BeginsStream) {y : Delivery} {next : SeqNum} (hnext : h'.next = some next)
    (hhi : base.offset next = y.hi base) (hlo : y.lo base = base.offset a.segment.payloadSeq)
    (hpages : h'.pages = h.pages) (hcount : h'.counters.discarded = h.counters.discarded) :
    Ledger base (as ++ [a]) (accepted ++ y.cells) lost g h' [] (ds ++ [y]) := by
  obtain ⟨rfl, rfl, hnone⟩ := hl.idle hn
  have hpos : h'.pos base = y.hi base := (pos_some hnext).trans hhi
  have hle : y.lo base ≤ y.hi base := Nat.le_add_right _ _
  refine ⟨?_, hl.count.trans hcount.symm, ?_, ?_, ?_, fun _ hx => absurd hx List.not_mem_nil⟩
  · intro x
    have h₁ := hl.balance x
    simp only [held, List.flatMap_nil, List.count_nil] at h₁
    simp only [held, hpages, List.count_append, List.nil_append, List.flatMap_cons, List.flatMap_nil,
      List.append_nil, List.count_nil]
    omega
  · intro hnone'
    rw [hnext] at hnone'
    cases hnone'
  · rw [hpos]
    rintro f (⟨z, hz, rfl⟩ | ⟨b, hb, hbegins, rfl⟩)
    · obtain rfl := List.mem_singleton.1 hz
      exact Nat.le_refl _
    · rcases List.mem_append.1 hb with hb | hb
      · exact absurd hbegins (hnone b hb)
      · obtain rfl := List.mem_singleton.1 hb
        exact hlo ▸ hle
  · exact fun x hx => (hl.released x hx).mono (List.subset_append_left ..) (List.nil_subset _)

/-- Data that goes through at once is handed over, and what it makes stale is released. -/
theorem taken (hl : Ledger base as accepted lost g h [] ds) (ht : Tidy base h) {a : Arrival}
    (hopen : a.half.isClosed = false) (hhalf : a.half = h) (hw : a.InWindow base)
    {new : List Cell} {cs : List Chunk} (htaken : h.Taken a.segment new h' cs) :
    Placed base h' ∧ ∃ g', g.Grows g' ∧
      Ledger base (as ++ [a]) (accepted ++ new) lost g' h'.swept []
        (ds ++ cs.map (Chunk.delivery a.segment.payload)) := by
  have hbegins : a.BeginsStream ↔ h.next = none ∧ a.segment.flags.isSyn = true := by
    rw [← hhalf]
    exact ⟨And.right, fun hb => ⟨hopen, hb⟩⟩
  rcases htaken.handed with ⟨counters, rfl, rfl, rfl, hcount, hsyn, -⟩ | ⟨y, hcs, hy⟩
  · have ht' : Tidy base { h with counters } := ⟨ht.spread, ht.pos_le⟩
    refine ⟨ht'.placed, g, .refl g, ?_⟩
    rw [ht'.swept_eq, List.map_nil, List.append_nil ds]
    have hstays : ¬ a.BeginsStream := fun hb => hsyn (hbegins.1 hb).2 (hbegins.1 hb).1
    exact (hl.arrive hstays []).congr rfl rfl hcount
  have hle := hy.hi_le ht.pos_le fun hc => hw (hc.imp_left hbegins.2)
  have hpos := hy.pos_eq hle
  have hplaced := hy.placed ht.placed hle
  have hend := hpos
  rw [pos_some hy.next] at hend
  rw [hcs, ← hy.cells]
  have hl' : Ledger base (as ++ [a]) (accepted ++ y.cells) lost g h' [] (ds ++ [y]) := by
    cases hn : h.next with
    | none =>
        obtain ⟨hsyn, hseq, -⟩ := hy.begun hn
        exact hl.begin hn (hbegins.2 ⟨hn, hsyn⟩) hy.next hend (congrArg _ hseq) hy.pages hy.discarded
    | some next =>
        have hstays : ¬ a.BeginsStream := by
          intro hb
          rw [(hbegins.1 hb).1] at hn
          cases hn
        refine (hl.arrive hstays y.cells).snoc hy.next hend hy.pos_le_lo hy.discarded fun x => ?_
        simp only [held, hy.pages, List.append_nil, List.count_nil]
        omega
  refine ⟨hplaced, ⟨g.discarded, g.released ++ h'.stale⟩, .release g _, hl'.release ?_⟩
  intro x hx
  obtain ⟨page, hpage, hxlo, -, hxlt⟩ := offset_of_mem_stale hplaced hx
  have hmem : y ∈ ds ++ [y] := List.mem_append_right _ (List.mem_singleton_self y)
  by_cases hcover : y.lo base ≤ base.offset x.1
  · exact Or.inl ⟨y, hmem, hcover, hpos ▸ hxlt⟩
  · refine Or.inr ⟨a, List.mem_append_right _ (List.mem_singleton_self a), ?_⟩
    cases hn : h.next with
    | none =>
        obtain ⟨hsyn, hseq, -⟩ := hy.begun hn
        refine ⟨hbegins.2 ⟨hn, hsyn⟩, ?_⟩
        rw [← hseq]
        exact Nat.lt_of_not_le hcover
    | some next =>
        -- the pages begin at the old position or beyond it, and so does the chunk
        have hpagelo := (ht.spread.mem (hy.pages ▸ hpage)).1
        have hseq := (hy.passed next hn).2.2.1
        rw [pos_some hn, ← hseq] at hpagelo
        exact absurd (Nat.le_trans hpagelo hxlo) hcover

end Ledger

/-! ## While data is stored -/

/-- The books while portions are stored, which lie beyond all fences, as the pages do. -/
def OpenBooks (base : SeqNum) (as : List Arrival) (accepted lost : List Cell) (g : WriteOffs)
    (start : SeqNum) (payload : List UInt8) (h : HalfStream) (ps : List Portion)
    (ds : List Delivery) : Prop :=
  (∃ g', g.Grows g' ∧ Ledger base as accepted lost g' h
    (ps.flatMap fun p => p.span.cells start payload) ds) ∧
  ∀ f, Fence base as ds f → (∀ p ∈ ps, f ≤ p.lo base start) ∧ ∀ page ∈ h.pages, f ≤ page.lo base

/-- The books of a calm half-stream may be open. -/
theorem OpenBooks.of_calm {start : SeqNum} {payload : List UInt8} {ps : List Portion} {g' : WriteOffs}
    (hc : Calm base start payload h ps) (hg : g.Grows g')
    (hl : Ledger base as accepted lost g' h (ps.flatMap fun p => p.span.cells start payload) ds) :
    OpenBooks base as accepted lost g start payload h ps ds := by
  refine ⟨⟨g', hg, hl⟩, fun f hf => ⟨fun p hp => ?_, fun page hp => ?_⟩⟩
  · exact Nat.le_trans (hl.fences f hf) (hc.pos_le p hp)
  · exact Nat.le_trans (hl.fences f hf) (hc.tidy.spread.mem hp).1

/-- The steps of storing keep the books. -/
theorem openBooks_kept {start : SeqNum} {payload : List UInt8}
    (hw : base.offset start + payload.length ≤ SeqNum.reach) (as : List Arrival)
    (accepted lost : List Cell) (g : WriteOffs) :
    KeptStoring base start payload (OpenBooks base as accepted lost g start payload) where
  leap := by
    rintro h h' cs ps ds hc hc' hmoves ⟨⟨g', hg, hl⟩, -⟩
    exact .of_calm hc' hg (hl.moves hc.tidy hmoves payload)
  hold := by
    rintro h p ps ds hloose ⟨⟨g', hg, hl⟩, hbeyond⟩
    have hmem : p ∈ p :: ps := List.mem_cons_self ..
    refine ⟨⟨g', hg, Ledger.hold hl⟩, fun f hf => ⟨fun q hq => ?_, fun page hp => ?_⟩⟩
    · exact (hbeyond f hf).1 q (List.mem_cons_of_mem _ hq)
    · rcases Backlog.mem_insert.1 hp with rfl | hp
      · rw [(p.lo_hi_page hw (hloose.laid.bounds p hmem)).1]
        exact (hbeyond f hf).1 p hmem
      · exact (hbeyond f hf).2 page hp
  lose := by
    rintro h page rest ps ds hloose hpages - ⟨⟨g', hg, hl⟩, hbeyond⟩
    refine ⟨⟨_, hg.trans (.discard g' _), hl.lose hloose.placed hpages⟩,
      fun f hf => ⟨(hbeyond f hf).1, fun q hq => (hbeyond f hf).2 q ?_⟩⟩
    rw [hpages]
    exact List.mem_cons_of_mem _ hq
  drop := by
    rintro h p ps ds hloose hsum ⟨⟨g', hg, hl⟩, hbeyond⟩
    have hlength : ((p :: ps).flatMap fun q => q.span.cells start payload).length =
        p.pieceStop - p.span.start := by
      have hsize : ∀ q ∈ p :: ps, (q.span.cells start payload).length = q.span.size := by
        intro q hq
        rw [Span.cells, length_cells, Span.length_slice (hloose.laid.bounds q hq).2]
      rw [List.length_flatMap, List.map_congr_left hsize, List.map_cons, List.sum_cons]
      exact hsum
    refine ⟨⟨_, hg.trans (.discard g' _), hl.drop hlength⟩,
      fun f hf => ⟨fun q hq => ?_, (hbeyond f hf).2⟩⟩
    exact absurd hq List.not_mem_nil

end HalfStream
end TcpStreams
