import Mathlib.Data.List.Chain
import TcpStreams.Proofs.Markers
import TcpStreams.Proofs.Retained
import TcpStreams.Proofs.Seamless

/-!
# Runs

The data of segments covers runs of offsets, with gaps between.  Chunks that hold just what is covered, in
order and marked as they should, are known from what is covered alone, but for where they are cut: what
they hold together is the bytes that are covered, and the chunks with a skip mark stand at the beginnings
of the runs.

* `gather`: the bytes of a line that are covered.
* `Segment.Covered`, `Segment.StartsRun`: what the data of segments covers, and where runs begin.
* `Delivery.concat_eq_gather`: chunks in order hold the bytes that are covered.
* `Delivery.exists_skip_iff`: the skip marks stand at the beginnings of runs.
-/

namespace TcpStreams

/-! ## Gathering bytes -/

/-- The bytes of a line at the offsets that are covered.  The line begins at offset `n`. -/
def gather (covered : Nat → Prop) [DecidablePred covered] (n : Nat) (line : List UInt8) : List UInt8 :=
  ((line.zipIdx n).filter fun cell => covered cell.2).map Prod.fst

section Gather

variable {covered : Nat → Prop} [DecidablePred covered] {n : Nat} {line line' : List UInt8}

theorem gather_append : gather covered n (line ++ line') =
    gather covered n line ++ gather covered (n + line.length) line' := by
  rw [gather, List.zipIdx_append, List.filter_append, List.map_append]
  rfl

theorem gather_eq_nil (h : ∀ x, n ≤ x → x < n + line.length → ¬ covered x) :
    gather covered n line = [] := by
  have hnone : ((line.zipIdx n).filter fun cell => covered cell.2) = [] := by
    refine List.filter_eq_nil_iff.2 fun cell hcell => ?_
    obtain ⟨hle, hlt, -⟩ := List.mem_zipIdx hcell
    simpa using h cell.2 hle (by omega)
  rw [gather, hnone, List.map_nil]

theorem gather_eq_self (h : ∀ x, n ≤ x → x < n + line.length → covered x) :
    gather covered n line = line := by
  have hall : ((line.zipIdx n).filter fun cell => covered cell.2) = line.zipIdx n := by
    refine List.filter_eq_self.2 fun cell hcell => ?_
    obtain ⟨hle, hlt, -⟩ := List.mem_zipIdx hcell
    exact decide_eq_true (h cell.2 hle (by omega))
  rw [gather, hall, List.zipIdx_map_fst]

end Gather

/-! ## What segments cover -/

namespace Segment

variable {base : SeqNum} {line : List UInt8} {segments : List Segment}

/-- The data of the segment covers an offset. -/
def Holds (base : SeqNum) (segment : Segment) (x : Nat) : Prop :=
  base.offset segment.payloadSeq ≤ x ∧ x < base.offset segment.payloadSeq + segment.payload.length

instance (base : SeqNum) (segment : Segment) : DecidablePred (segment.Holds base) :=
  fun _ => inferInstanceAs (Decidable (_ ∧ _))

/-- The data of some segment covers an offset. -/
def Covered (base : SeqNum) (segments : List Segment) (x : Nat) : Prop :=
  ∃ segment ∈ segments, segment.Holds base x

instance (base : SeqNum) (segments : List Segment) : DecidablePred (Covered base segments) :=
  fun x => inferInstanceAs (Decidable (∃ segment ∈ segments, segment.Holds base x))

/-- A SYN sets its first number at an offset. -/
def OpensAt (base : SeqNum) (segments : List Segment) (x : Nat) : Prop :=
  ∃ segment ∈ segments, segment.flags.isSyn = true ∧ base.offset segment.payloadSeq = x

instance (base : SeqNum) (segments : List Segment) : DecidablePred (OpensAt base segments) :=
  fun _ => inferInstanceAs (Decidable (∃ segment ∈ segments, _ ∧ _))

/-- A run of covered offsets begins at an offset, other than the run from the number on that a SYN
sets. -/
def StartsRun (base : SeqNum) (segments : List Segment) (x : Nat) : Prop :=
  Covered base segments x ∧ (x = 0 ∨ ¬ Covered base segments (x - 1)) ∧ ¬ OpensAt base segments x

instance (base : SeqNum) (segments : List Segment) : DecidablePred (StartsRun base segments) :=
  fun _ => inferInstanceAs (Decidable (_ ∧ _ ∧ _))

/-- The segments quote one line of bytes inside a window, and none of the data lies before the number that
a SYN sets, of which there is only one. -/
structure Coherent (base : SeqNum) (line : List UInt8) (segments : List Segment) : Prop where
  /-- The data is what the line holds there. -/
  quotes : ∀ s ∈ segments, s.payload <+: line.drop (base.offset s.payloadSeq)
  /-- The data, and the number that a SYN sets, lie in the window. -/
  window : ∀ s ∈ segments, s.flags.isSyn = true ∨ s.payload ≠ [] →
    base.offset s.payloadSeq + s.payload.length ≤ SeqNum.reach
  /-- All SYNs set the same number. -/
  origin : ∀ s ∈ segments, s.flags.isSyn = true → ∀ t ∈ segments, t.flags.isSyn = true →
    t.payloadSeq = s.payloadSeq
  /-- No data lies before it. -/
  after : ∀ s ∈ segments, s.flags.isSyn = true → ∀ t ∈ segments, t.payload ≠ [] →
    base.offset s.payloadSeq ≤ base.offset t.payloadSeq

instance (base : SeqNum) (line : List UInt8) (segments : List Segment) :
    Decidable (Coherent base line segments) :=
  decidable_of_iff ((∀ s ∈ segments, s.payload <+: line.drop (base.offset s.payloadSeq)) ∧
      (∀ s ∈ segments, s.flags.isSyn = true ∨ s.payload ≠ [] →
        base.offset s.payloadSeq + s.payload.length ≤ SeqNum.reach) ∧
      (∀ s ∈ segments, s.flags.isSyn = true → ∀ t ∈ segments, t.flags.isSyn = true →
        t.payloadSeq = s.payloadSeq) ∧
      ∀ s ∈ segments, s.flags.isSyn = true → ∀ t ∈ segments, t.payload ≠ [] →
        base.offset s.payloadSeq ≤ base.offset t.payloadSeq)
    ⟨fun h => ⟨h.1, h.2.1, h.2.2.1, h.2.2.2⟩, fun h => ⟨h.quotes, h.window, h.origin, h.after⟩⟩

/-- The order of the segments does not matter. -/
theorem Coherent.perm {segments' : List Segment} (h : Coherent base line segments)
    (hp : segments'.Perm segments) : Coherent base line segments' where
  quotes s hs := h.quotes s (hp.mem_iff.1 hs)
  window s hs := h.window s (hp.mem_iff.1 hs)
  origin s hs hsyn t ht := h.origin s (hp.mem_iff.1 hs) hsyn t (hp.mem_iff.1 ht)
  after s hs hsyn t ht := h.after s (hp.mem_iff.1 hs) hsyn t (hp.mem_iff.1 ht)

end Segment

/-! ## What chunks hold -/

namespace Delivery

variable {base : SeqNum} {line : List UInt8} {ds before after : List Delivery} {y z : Delivery}
  {covered opens : Nat → Prop} {synced : Prop} {n x : Nat}

theorem lo_le_hi (base : SeqNum) (y : Delivery) : y.lo base ≤ y.hi base := Nat.le_add_right ..

theorem lo_lt_hi (hne : y.bytes ≠ []) : y.lo base < y.hi base :=
  Nat.lt_add_of_pos_right (List.length_pos_iff.2 hne)

theorem not_delivered_nil : ¬ Delivered base [] x := fun ⟨_, hy, _⟩ => nomatch hy

theorem delivered_cons :
    Delivered base (y :: ds) x ↔ (y.lo base ≤ x ∧ x < y.hi base) ∨ Delivered base ds x := by
  simp [Delivered]

/-- A piece of a line that is not empty, with what lies before it from `n` on. -/
theorem exists_gap_of_prefix {bytes : List UInt8} {lo : Nat} (hn : n ≤ lo) (hne : bytes ≠ [])
    (hpre : bytes <+: line.drop lo) :
    ∃ gap, gap.length = lo - n ∧ line.drop n = gap ++ (bytes ++ line.drop (lo + bytes.length)) := by
  obtain ⟨tail, htail⟩ := hpre
  have hlen : lo ≤ line.length := by
    by_contra hlt
    rw [List.drop_eq_nil_of_le (by omega)] at htail
    exact hne (List.append_eq_nil_iff.1 htail).1
  refine ⟨(line.drop n).take (lo - n), ?_, ?_⟩
  · rw [List.length_take, List.length_drop]
    omega
  · have hsplit := (List.take_append_drop (lo - n) (line.drop n)).symm
    rw [List.drop_drop, Nat.add_sub_cancel' hn] at hsplit
    rw [← List.drop_drop, ← htail, List.drop_left, htail]
    exact hsplit

/-- **Chunks in order that quote a line** hold together the bytes of it that they cover. -/
theorem concat_eq_gather [DecidablePred covered] (hbytes : ∀ y ∈ ds, y.bytes <+: line.drop (y.lo base))
    (horder : ds.Pairwise fun y z => y.hi base ≤ z.lo base) (hfrom : ∀ y ∈ ds, n ≤ y.lo base)
    (hcover : ∀ x, n ≤ x → (covered x ↔ Delivered base ds x)) :
    concat ds = gather covered n (line.drop n) := by
  induction ds generalizing n with
  | nil => exact (gather_eq_nil fun x hx _ hc => not_delivered_nil ((hcover x hx).1 hc)).symm
  | cons y rest ih =>
      obtain ⟨hfirst, horder⟩ := List.pairwise_cons.1 horder
      have hbytes' : ∀ z ∈ rest, z.bytes <+: line.drop (z.lo base) :=
        fun z hz => hbytes z (List.mem_cons_of_mem _ hz)
      have hn := hfrom y (List.mem_cons_self ..)
      show y.bytes ++ concat rest = _
      by_cases hnil : y.bytes = []
      · -- an empty chunk covers nothing
        rw [hnil, List.nil_append]
        refine ih hbytes' horder (fun z hz => hfrom z (List.mem_cons_of_mem _ hz)) fun x hx => ?_
        rw [hcover x hx, delivered_cons, hi, hnil, List.length_nil]
        exact or_iff_right (by omega)
      · -- what lies before the chunk is not covered, and what it holds is
        obtain ⟨gap, hgap, hsplit⟩ :=
          exists_gap_of_prefix hn hnil (hbytes y (List.mem_cons_self ..))
        have hbefore : gather covered n gap = [] := by
          refine gather_eq_nil fun x hx hlt hc => ?_
          obtain ⟨z, hz, hlo, -⟩ := (hcover x hx).1 hc
          have hle : y.lo base ≤ z.lo base := by
            rcases List.mem_cons.1 hz with rfl | hz
            · exact Nat.le_refl _
            · exact Nat.le_trans (y.lo_le_hi base) (hfirst z hz)
          omega
        have hown : gather covered (y.lo base) y.bytes = y.bytes :=
          gather_eq_self fun x hx hlt => (hcover x (by omega)).2 ⟨y, List.mem_cons_self .., hx, hlt⟩
        have hrest := @ih (y.hi base) hbytes' horder hfirst fun x hx => by
          rw [hcover x (Nat.le_trans hn (Nat.le_trans (y.lo_le_hi base) hx)), delivered_cons]
          exact or_iff_right (by omega)
        rw [hsplit, gather_append, gather_append, hgap, Nat.add_sub_cancel' hn, hbefore, hown, hrest]
        rfl

/-! ### Marks -/

/-- A chunk continues the one before it if it begins where that one ends. -/
theorem seq_eq_advance_iff (hle : z.hi base ≤ y.lo base) :
    y.seq = z.seq.advance z.bytes.length ↔ y.lo base = z.hi base := by
  have hlt : y.lo base < 0x100000000 := Nat.mod_lt _ (by decide)
  rw [← @SeqNum.offset_inj base, SeqNum.offset_advance base z.seq (by rw [hi, lo] at hle; omega)]
  rfl

/-- What lies before a chunk is held by the chunks before it. -/
theorem delivered_before (horder : (before ++ y :: after).Pairwise fun y z => y.hi base ≤ z.lo base)
    (hd : Delivered base (before ++ y :: after) x) (hx : x < y.lo base) : Delivered base before x := by
  obtain ⟨-, hafter, -⟩ := List.pairwise_append.1 horder
  obtain ⟨z, hz, hlo, hhi⟩ := hd
  rcases List.mem_append.1 hz with hz | hz
  · exact ⟨z, hz, hlo, hhi⟩
  rcases List.mem_cons.1 hz with rfl | hz
  · omega
  · have := (List.pairwise_cons.1 hafter).1 z hz
    have := y.lo_le_hi base
    omega

/-- Chunks in order hold nothing beyond the last of them. -/
theorem lt_hi_of_delivered (horder : (before ++ [z]).Pairwise fun y z => y.hi base ≤ z.lo base)
    (hd : Delivered base (before ++ [z]) x) : x < z.hi base := by
  obtain ⟨-, -, hbefore⟩ := List.pairwise_append.1 horder
  obtain ⟨y, hy, hlo, hhi⟩ := hd
  rcases List.mem_append.1 hy with hy | hy
  · have := hbefore y hy z (List.mem_singleton_self z)
    have := z.lo_le_hi base
    omega
  · obtain rfl := List.mem_singleton.1 hy
    exact hhi

/-- A chunk is the first one or comes right after another, where its skip mark tells whether there is a
gap. -/
theorem first_or_follows (hfirst : ∀ y ∈ ds.head?, y.MarkedFirst synced)
    (hchain : ds.IsChain MarkedAfter) (horder : ds.Pairwise fun y z => y.hi base ≤ z.lo base)
    (hy : y ∈ ds) : (∃ after, ds = y :: after ∧ (y.skip = true ↔ ¬ synced)) ∨
      ∃ before z after, ds = before ++ z :: y :: after ∧ z.hi base ≤ y.lo base ∧
        (y.skip = true ↔ y.lo base ≠ z.hi base) := by
  obtain ⟨before, after, rfl⟩ := List.append_of_mem hy
  cases before using List.reverseRecOn with
  | nil => exact Or.inl ⟨after, rfl, (hfirst y rfl).2⟩
  | append_singleton before z =>
      rw [List.append_assoc] at hchain horder
      have hle : z.hi base ≤ y.lo base :=
        (List.pairwise_cons.1 (List.pairwise_append.1 horder).2.1).1 y (List.mem_cons_self ..)
      refine Or.inr ⟨before, z, after, by simp, hle, ?_⟩
      rw [(List.isChain_append_cons_cons.1 hchain).2.1.2, Ne, seq_eq_advance_iff hle]

/-- Chunks hold what is covered.  If there is a beginning, set by a SYN, nothing before it is covered and a
chunk begins there, as any empty chunk does. -/
structure Opened (base : SeqNum) (covered opens : Nat → Prop) (ds : List Delivery) : Prop where
  /-- The chunks hold what is covered. -/
  cover : ∀ x, covered x ↔ Delivered base ds x
  /-- There is one beginning at most. -/
  unique : ∀ {x y}, opens x → opens y → x = y
  /-- Nothing before it is covered. -/
  first : ∀ {x y}, opens x → covered y → x ≤ y
  /-- A chunk begins there. -/
  chunk : ∀ x, opens x → ∃ y ∈ ds, y.lo base = x
  /-- Any empty chunk does. -/
  sized : ∀ y ∈ ds, y.bytes = [] → opens (y.lo base)

namespace Opened

variable (ho : Opened base covered opens ds) (hfirst : ∀ y ∈ ds.head?, y.MarkedFirst (∃ x, opens x))
  (hchain : ds.IsChain MarkedAfter) (horder : ds.Pairwise fun y z => y.hi base ≤ z.lo base)
include ho

/-- No chunk lies before the beginning. -/
theorem le_lo (hx : opens x) (hy : y ∈ ds) : x ≤ y.lo base := by
  by_cases hnil : y.bytes = []
  · exact Nat.le_of_eq (ho.unique hx (ho.sized y hy hnil))
  · exact ho.first hx ((ho.cover _).2 ⟨y, hy, Nat.le_refl _, lo_lt_hi hnil⟩)

/-- A chunk that does not stand at the beginning holds its first byte. -/
theorem covered_lo (hy : y ∈ ds) (hnone : ¬ opens (y.lo base)) : covered (y.lo base) :=
  (ho.cover _).2 ⟨y, hy, Nat.le_refl _, lo_lt_hi fun hnil => hnone (ho.sized y hy hnil)⟩

include hfirst hchain horder

/-- A skip mark stands at the beginning of a run. -/
theorem startsRun_of_skip (hy : y ∈ ds) (hskip : y.skip = true) :
    covered (y.lo base) ∧ (y.lo base = 0 ∨ ¬ covered (y.lo base - 1)) ∧ ¬ opens (y.lo base) := by
  rcases first_or_follows hfirst hchain horder hy with
    ⟨after, rfl, hmark⟩ | ⟨before, z, after, rfl, hle, hmark⟩
  · -- the first chunk, without a SYN
    have hnone : ¬ opens (y.lo base) := fun hopens => hmark.1 hskip ⟨_, hopens⟩
    refine ⟨ho.covered_lo hy hnone, ?_, hnone⟩
    by_cases hzero : y.lo base = 0
    · exact Or.inl hzero
    · exact Or.inr fun hc => not_delivered_nil
        (@delivered_before base [] after y _ horder ((ho.cover _).1 hc) (by omega))
  · -- a gap lies between the chunk before and this one
    have hgap := hmark.1 hskip
    have hz : z ∈ before ++ z :: y :: after := by simp
    have hnone : ¬ opens (y.lo base) := by
      intro hopens
      have := ho.le_lo hopens hz
      have := z.lo_le_hi base
      omega
    refine ⟨ho.covered_lo hy hnone, Or.inr fun hc => ?_, hnone⟩
    have hsplit : before ++ z :: y :: after = (before ++ [z]) ++ y :: after := by simp
    rw [hsplit] at horder
    have hd := delivered_before horder (hsplit ▸ (ho.cover _).1 hc) (by omega)
    have := lt_hi_of_delivered (List.pairwise_append.1 horder).1 hd
    omega

/-- At the beginning of a run stands a skip mark. -/
theorem skip_of_startsRun (hc : covered x) (hedge : x = 0 ∨ ¬ covered (x - 1)) (hnone : ¬ opens x) :
    ∃ y ∈ ds, y.skip = true ∧ y.lo base = x := by
  obtain ⟨y, hy, hlo, hhi⟩ := (ho.cover x).1 hc
  -- what begins before the run ends before it
  have hshort : ∀ z ∈ ds, z.lo base < x → z.hi base < x := by
    intro z hz hlt
    by_contra hge
    rcases hedge with rfl | hedge
    · omega
    · exact hedge ((ho.cover _).2 ⟨z, hz, by omega, by omega⟩)
  have hyx : y.lo base = x := by
    by_contra hne
    have := hshort y hy (by omega)
    omega
  refine ⟨y, hy, ?_, hyx⟩
  rcases first_or_follows hfirst hchain horder hy with
    ⟨after, rfl, hmark⟩ | ⟨before, z, after, rfl, hle, hmark⟩
  · -- after a SYN the first chunk would begin before this one
    refine hmark.2 fun ⟨o, hopens⟩ => ?_
    obtain ⟨z, hz, hzo⟩ := ho.chunk o hopens
    have hoy := ho.le_lo hopens hy
    rcases List.mem_cons.1 hz with rfl | hz
    · exact hnone (by rwa [← hyx, hzo])
    · have := (List.pairwise_cons.1 horder).1 z hz
      omega
  · -- the chunk before would be empty
    refine hmark.2 fun heq => ?_
    have hz : z ∈ before ++ z :: y :: after := by simp
    by_cases hnil : z.bytes = []
    · have hzhi : z.hi base = z.lo base := by rw [hi, hnil, List.length_nil, Nat.add_zero]
      have hopens := ho.sized z hz hnil
      rw [← hzhi, ← heq, hyx] at hopens
      exact hnone hopens
    · have hlt : z.lo base < z.hi base := lo_lt_hi hnil
      have := hshort z hz (by omega)
      omega

/-- **The skip marks stand at the beginnings of runs**, other than the one that a SYN begins. -/
theorem exists_skip_iff (x : Nat) : (∃ y ∈ ds, y.skip = true ∧ y.lo base = x) ↔
    covered x ∧ (x = 0 ∨ ¬ covered (x - 1)) ∧ ¬ opens x := by
  constructor
  · rintro ⟨y, hy, hskip, rfl⟩
    exact ho.startsRun_of_skip hfirst hchain horder hy hskip
  · exact fun ⟨hc, hedge, hnone⟩ => ho.skip_of_startsRun hfirst hchain horder hc hedge hnone

end Opened

end Delivery
end TcpStreams
