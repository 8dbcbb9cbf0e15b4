import Mathlib.Data.List.Forall2
import TcpStreams.Work
import TcpStreams.Proofs.Relief

/-!
# Requests for pages

What one request for a page can do.  An arena that was opened with a ceiling never hands out more
pages than that, and the pages that it keeps are blank.  So once it refuses a page, one page that is
given up is enough for it to hand one out again: a request makes at most one half-stream give up at
most one page, and it is refused only if nobody who may be asked has a page.

* `Arena.Blank`: an arena that keeps blank pages, whatever its ceiling.
* `Arena.Sound`: what holds of an arena from its opening on.
* `Connection.Sheds`: a connection after it gave some pages up.
* `evict_cases`: which of the other connections gives up which page.
* `Work.obtain_met`: the four ways in which a request is met.
* `Work.obtain_cases`: what that means for the half-stream that the page is for.
-/

namespace TcpStreams

/-! ## Arenas -/

namespace Arena

variable {ceiling : Nat} {arena arena' : Arena} {seq : SeqNum} {page : Page}

/-- The pages kept are blank. -/
def Blank (arena : Arena) : Prop := ∀ page ∈ arena.free, page.bytes = []

theorem blank_ofCeiling (ceiling : Nat) : (ofCeiling ceiling).Blank :=
  fun _ hp => absurd hp List.not_mem_nil

theorem Blank.give (h : arena.Blank) (page : Page) : (arena.give page).Blank := by
  intro q hq
  rcases List.mem_cons.1 hq with rfl | hq
  · rfl
  · exact h q hq

theorem Blank.giveAll (h : arena.Blank) (pages : List Page) : (arena.giveAll pages).Blank := by
  induction pages generalizing arena with
  | nil => exact h
  | cons page rest ih => exact ih (h.give page)

/-- So the pages handed out are blank as well. -/
theorem Blank.take? (h : arena.Blank) (ht : arena.take? seq = some (page, arena')) :
    page = ⟨seq, []⟩ ∧ arena'.Blank := by
  rw [Arena.take?] at ht
  split at ht
  · cases ht
  · split at ht
    · obtain ⟨rfl, rfl⟩ := Prod.mk.inj (Option.some.inj ht)
      exact ⟨rfl, h⟩
    · rename_i q free hfree
      obtain ⟨rfl, rfl⟩ := Prod.mk.inj (Option.some.inj ht)
      refine ⟨?_, fun p hp => h p (hfree ▸ List.mem_cons_of_mem _ hp)⟩
      have hblank := h q (hfree ▸ List.mem_cons_self ..)
      rw [hblank]

/-- What holds of an arena from its opening on. -/
structure Sound (ceiling : Nat) (arena : Arena) : Prop where
  /-- The ceiling stays what it was. -/
  ceiling_eq : arena.ceiling = ceiling
  /-- No more pages are out than the ceiling says. -/
  inUse_le : arena.inUse ≤ ceiling
  /-- The pages kept are blank. -/
  blank : ∀ page ∈ arena.free, page.bytes = []

theorem sound_ofCeiling (ceiling : Nat) : (ofCeiling ceiling).Sound ceiling :=
  ⟨rfl, Nat.zero_le _, nofun⟩

theorem Sound.give (h : arena.Sound ceiling) (page : Page) : (arena.give page).Sound ceiling :=
  ⟨h.ceiling_eq, Nat.le_trans (Nat.sub_le ..) h.inUse_le, Blank.give h.blank page⟩

theorem Sound.giveAll (h : arena.Sound ceiling) (pages : List Page) :
    (arena.giveAll pages).Sound ceiling := by
  induction pages generalizing arena with
  | nil => exact h
  | cons page rest ih => exact ih (h.give page)

/-- A page handed out has no bytes on it. -/
theorem Sound.take? (h : arena.Sound ceiling) (ht : arena.take? seq = some (page, arena')) :
    page = ⟨seq, []⟩ ∧ arena'.Sound ceiling ∧ arena'.inUse = arena.inUse + 1 := by
  obtain ⟨hpage, hblank⟩ := Blank.take? h.blank ht
  rw [Arena.take?] at ht
  split at ht
  · cases ht
  · rename_i hspent
    rw [isSpent, decide_eq_true_eq, h.ceiling_eq] at hspent
    split at ht <;> obtain ⟨rfl, rfl⟩ := Prod.mk.inj (Option.some.inj ht) <;>
      exact ⟨hpage, ⟨h.ceiling_eq, Nat.lt_of_not_le hspent, hblank⟩, rfl⟩

/-- Once an exhausted arena took a page back it hands one out, and is exhausted again. -/
theorem Sound.take?_give (h : arena.Sound ceiling) (hpos : 0 < ceiling)
    (hspent : arena.isSpent = true) (page : Page) (seq : SeqNum) :
    ∃ arena', (arena.give page).take? seq = some (⟨seq, []⟩, arena') ∧ arena'.Sound ceiling ∧
      arena'.isSpent = true := by
  rw [isSpent, decide_eq_true_eq, h.ceiling_eq] at hspent
  have hle := h.inUse_le
  have hinUse : (arena.give page).inUse = arena.inUse - 1 := rfl
  have hgive : (arena.give page).isSpent = false := by
    rw [isSpent, (h.give page).ceiling_eq, hinUse, decide_eq_false_iff_not]
    omega
  cases ht : (arena.give page).take? seq with
  | none =>
      rw [take?_eq_none_iff, hgive] at ht
      cases ht
  | some out =>
      obtain ⟨page', arena'⟩ := out
      obtain ⟨rfl, hsound, hcount⟩ := (h.give page).take? ht
      refine ⟨arena', rfl, hsound, ?_⟩
      rw [isSpent, hsound.ceiling_eq, decide_eq_true_eq]
      omega

end Arena

/-! ## Giving a page up -/

namespace Connection

/-- `Sheds c c'`: what `c` becomes when it gives up some of its pages, each the first one waiting in
its direction. -/
inductive Sheds : Connection → Connection → Prop
  | refl (c : Connection) : Sheds c c
  | head {c c' : Connection} {d : Direction} {page : Page} {rest : List Page} :
      (c.half d).pages = page :: rest → Sheds (c.setHalf d ((c.half d).lose page rest)) c' →
      Sheds c c'

variable {c c' c'' : Connection}

theorem Sheds.trans (h : Sheds c c') (h' : Sheds c' c'') : Sheds c c'' := by
  induction h with
  | refl _ => exact h'
  | head hp _ ih => exact .head hp (ih h')

theorem Sheds.kin (h : Sheds c c') : Kin c c' := by
  induction h with
  | refl c => exact .refl c
  | head hp _ ih => exact (kin_setHalf _ _ _).trans ih

theorem Sane.lose {ceiling : Nat} {d : Direction} {page : Page} {rest : List Page}
    (hs : c.Sane ceiling) (hp : (c.half d).pages = page :: rest) :
    (c.setHalf d ((c.half d).lose page rest)).Sane ceiling := by
  refine hs.setHalf (hs.sided d) ?_ ?_
  · intro _
    rw [HalfStream.pageCount, HalfStream.pageCount, hp]
    exact Nat.le_succ _
  · intro hc
    have hnil := hs.closed d hc
    rw [hp] at hnil
    cases hnil

theorem Sheds.sane {ceiling : Nat} (h : Sheds c c') (hs : c.Sane ceiling) : c'.Sane ceiling := by
  induction h with
  | refl c => exact hs
  | head hp _ ih => exact ih (hs.lose hp)

/-- A connection without pages has none to give up. -/
theorem shed?_of_empty (h : c.pageCount = 0) : c.shed? = none := by
  have hf : c.forward.pages = [] := List.eq_nil_of_length_eq_zero (Nat.eq_zero_of_add_eq_zero_right h)
  have hr : c.reverse.pages = [] := List.eq_nil_of_length_eq_zero (Nat.eq_zero_of_add_eq_zero_left h)
  rw [shed?, HalfStream.shed?_nil hf, HalfStream.shed?_nil hr]
  rfl

/-- A connection with pages gives up the first one of a direction: of the reverse one only if nothing
waits in the forward one. -/
theorem shed?_of_pos (h : 0 < c.pageCount) : ∃ d page rest notes, (c.half d).pages = page :: rest ∧
    (d = .reverse → c.forward.pages = []) ∧
    c.shed? =
      some { value := c.setHalf d ((c.half d).lose page rest), freed := [page], notes } := by
  cases hf : c.forward.pages with
  | cons page rest =>
      refine ⟨.forward, page, rest, [.shed c.forward.direction page.size page.seq], hf, nofun, ?_⟩
      rw [shed?, HalfStream.shed?_cons hf]
      rfl
  | nil =>
      cases hr : c.reverse.pages with
      | cons page rest =>
          refine ⟨.reverse, page, rest, [.shed c.reverse.direction page.size page.seq], hr,
            fun _ => rfl, ?_⟩
          rw [shed?, HalfStream.shed?_nil hf, HalfStream.shed?_cons hr]
          rfl
      | nil =>
          rw [pageCount, HalfStream.pageCount, HalfStream.pageCount, hf, hr] at h
          cases h

end Connection

/-! ## Asking for pages -/

section Requests

variable {ceiling : Nat} {arena : Arena} {seq : SeqNum}

/-- Nobody gives a page up who has none. -/
theorem reclaim_of_none {α : Type} {shed? : α → Option (Yield α)} {remarks : List Note}
    {fuel : Nat} {a : α} (hnone : shed? a = none) :
    reclaim shed? remarks seq fuel a arena = { value := a, arena } := by
  cases fuel with
  | zero => rfl
  | succ fuel => rw [reclaim, hnone]

/-- Whoever has a page gives up one, and an exhausted arena hands it out. -/
theorem reclaim_of_some {α : Type} {shed? : α → Option (Yield α)} {remarks : List Note}
    {fuel : Nat} {a : α} {y : Yield α} {page : Page} (hs : arena.Sound ceiling)
    (hspent : arena.isSpent = true) (hpos : 0 < ceiling) (hfuel : 0 < fuel)
    (hy : shed? a = some y) (hfreed : y.freed = [page]) :
    ∃ arena' notes, reclaim shed? remarks seq fuel a arena =
        { value := y.value, arena := arena', notes, page := some ⟨seq, []⟩ } ∧
      arena'.Sound ceiling ∧ arena'.isSpent = true := by
  obtain ⟨arena', ht, hs', hspent'⟩ := hs.take?_give hpos hspent page seq
  refine ⟨arena', y.notes ++ remarks, ?_, hs', hspent'⟩
  obtain ⟨fuel, rfl⟩ := Nat.exists_eq_succ_of_ne_zero (Nat.ne_of_gt hfuel)
  have hgive : arena.giveAll y.freed = arena.give page := by
    rw [hfreed]
    rfl
  simp only [reclaim, hy, hgive, ht]

/-- An entry after its connection gave up some pages. -/
def Entry.Sheds (entry entry' : Entry) : Prop :=
  ∃ c', entry' = { entry with connection := c' } ∧ entry.connection.Sheds c'

theorem Entry.Sheds.refl (entry : Entry) : Entry.Sheds entry entry :=
  ⟨entry.connection, rfl, .refl _⟩

theorem Entry.Sheds.trans {a b c : Entry} (h : a.Sheds b) (h' : b.Sheds c) : a.Sheds c := by
  obtain ⟨c₁, rfl, h₁⟩ := h
  obtain ⟨c₂, rfl, h₂⟩ := h'
  exact ⟨c₂, rfl, h₁.trans h₂⟩

theorem sane_of_sheds {entries entries' : List Entry}
    (h : List.Forall₂ Entry.Sheds entries entries')
    (hs : ∀ entry ∈ entries, entry.connection.Sane ceiling) :
    ∀ entry ∈ entries', entry.connection.Sane ceiling := by
  induction h with
  | nil => exact fun _ he => nomatch he
  | cons hfirst _ ih =>
      obtain ⟨c', rfl, hsheds⟩ := hfirst
      intro e he
      rcases List.mem_cons.1 he with rfl | he
      · exact hsheds.sane (hs _ (List.mem_cons_self ..))
      · exact ih (fun e he => hs e (List.mem_cons_of_mem _ he)) e he

/-- A connection that may not be asked for a page, or that has none. -/
def Entry.Dry (flow : FlowId) (locked : List FlowId) (entry : Entry) : Prop :=
  (entry.flow = flow ∨ entry.flow ∈ locked) ∨ entry.connection.pageCount = 0

/-- An entry after its connection gave up the first page of a direction. -/
def Entry.lose (entry : Entry) (d : Direction) (page : Page) (rest : List Page) : Entry :=
  { entry with connection := entry.connection.setHalf d ((entry.connection.half d).lose page rest) }

/-- `Evicts flow locked victim d page es es'`: the first of the connections `es` that may be asked for a
page and has one is that of `victim`, and it gives up the first page that waits in the direction `d`. -/
inductive Evicts (flow : FlowId) (locked : List FlowId) (victim : Entry) (d : Direction) (page : Page) :
    List Entry → List Entry → Prop
  | found {rest : List Page} {behind : List Entry} :
      ¬ victim.Dry flow locked → (victim.connection.half d).pages = page :: rest →
      (d = .reverse → victim.connection.forward.pages = []) →
      Evicts flow locked victim d page (victim :: behind) (victim.lose d page rest :: behind)
  | passed {entry : Entry} {es es' : List Entry} :
      entry.Dry flow locked → Evicts flow locked victim d page es es' →
      Evicts flow locked victim d page (entry :: es) (entry :: es')

section Evicts

variable {flow : FlowId} {locked : List FlowId} {victim : Entry} {d : Direction} {page : Page}
  {es es' : List Entry}

theorem Evicts.sheds (h : Evicts flow locked victim d page es es') :
    List.Forall₂ Entry.Sheds es es' := by
  induction h with
  | found _ hp _ =>
      exact .cons ⟨_, rfl, .head hp (.refl _)⟩ (List.forall₂_same.2 fun e _ => .refl e)
  | passed _ _ ih => exact .cons (.refl _) ih

theorem Evicts.wet (h : Evicts flow locked victim d page es es') :
    victim ∈ es ∧ ¬ victim.Dry flow locked := by
  induction h with
  | found hwet _ _ => exact ⟨List.mem_cons_self .., hwet⟩
  | passed _ _ ih => exact ⟨List.mem_cons_of_mem _ ih.1, ih.2⟩

end Evicts

/-- **The connections asked for a page give up one between them, unless they have none**: the first one
that has any gives up its first. -/
theorem evict_cases {flow : FlowId} {locked : List FlowId} {entries : List Entry}
    (hs : arena.Sound ceiling) (hspent : arena.isSpent = true)
    (hsane : ∀ entry ∈ entries, entry.connection.Sane ceiling) :
    ((∀ entry ∈ entries, entry.Dry flow locked) ∧
        evict flow locked seq entries arena = { value := entries, arena }) ∨
      ∃ victim d page entries' arena' notes, Evicts flow locked victim d page entries entries' ∧
        evict flow locked seq entries arena =
          { value := entries', arena := arena', notes, page := some ⟨seq, []⟩ } ∧
        arena'.Sound ceiling ∧ arena'.isSpent = true := by
  induction entries with
  | nil => exact Or.inl ⟨(fun _ h => nomatch h), rfl⟩
  | cons entry rest ih =>
      have hrest := ih fun e he => hsane e (List.mem_cons_of_mem _ he)
      by_cases hdry : entry.Dry flow locked
      · -- nothing comes of asking the first connection
        have hfirst : evict flow locked seq (entry :: rest) arena =
            { evict flow locked seq rest arena with
              value := entry :: (evict flow locked seq rest arena).value } := by
          rw [evict]
          split
          case isTrue => rfl
          case isFalse hself =>
            have hempty := hdry.resolve_left hself
            simp only [reclaim_of_none (Connection.shed?_of_empty hempty), List.nil_append]
        rcases hrest with ⟨hall, heq⟩ |
          ⟨victim, d, page, entries', arena', notes, hevicts, heq, hs', hspent'⟩
        · refine Or.inl ⟨?_, ?_⟩
          · intro e he
            rcases List.mem_cons.1 he with rfl | he
            · exact hdry
            · exact hall e he
          · rw [hfirst, heq]
        · refine Or.inr ⟨victim, d, page, entry :: entries', arena', notes, .passed hdry hevicts, ?_,
            hs', hspent'⟩
          rw [hfirst, heq]
      · have hself : ¬ (entry.flow = flow ∨ entry.flow ∈ locked) := fun h => hdry (Or.inl h)
        have hpos : 0 < entry.connection.pageCount :=
          Nat.pos_of_ne_zero fun h => hdry (Or.inr h)
        have hceil : 0 < ceiling := by
          refine Nat.pos_of_ne_zero fun h => ?_
          have := (hsane entry (List.mem_cons_self ..)).paged h
          omega
        obtain ⟨d, page, q, notes, hp, hfront, hy⟩ := Connection.shed?_of_pos hpos
        obtain ⟨arena', notes', heq, hs', hspent'⟩ :=
          @reclaim_of_some _ _ seq _ _ [.evicted flow entry.flow] _ _ _ _ hs hspent hceil hpos hy rfl
        refine Or.inr ⟨entry, d, page, entry.lose d page q :: rest, arena', notes',
          .found hdry hp hfront, ?_, hs', hspent'⟩
        rw [evict, if_neg hself]
        simp only [heq]
        rfl

end Requests

/-! ## One request -/

namespace Work

/-- What holds from one step of the work to the next. -/
structure Sound (ceiling : Nat) (w : Work) : Prop where
  /-- The arena is sound. -/
  arena : w.arena.Sound ceiling
  /-- The other connections are sane. -/
  entries : ∀ entry ∈ w.entries, entry.connection.Sane ceiling
  /-- So is the connection of the segment. -/
  connection : w.connection.Sane ceiling

/-- There is nothing left to be had but what the segment's own connection holds. -/
structure Drained (locked : List FlowId) (w : Work) : Prop where
  /-- The arena is exhausted. -/
  spent : w.arena.isSpent = true
  /-- No other connection has a page to give. -/
  dry : ∀ entry ∈ w.entries, entry.Dry w.connection.flow locked

/-- How a request for a page is met. -/
inductive Met (d : Direction) (locked : List FlowId) (seq : SeqNum) (w w' : Work) :
    Option Page → Prop
  /-- The arena has one. -/
  | arena :
      w.arena.isSpent = false → w'.connection = w.connection → w'.entries = w.entries →
      Met d locked seq w w' (some ⟨seq, []⟩)
  /-- Another connection gives one up. -/
  | other {victim : Entry} {e : Direction} {page : Page} :
      w.arena.isSpent = true → w'.connection = w.connection →
      Evicts w.connection.flow locked victim e page w.entries w'.entries →
      Met d locked seq w w' (some ⟨seq, []⟩)
  /-- No other connection has one to give, and the half-stream gives up its own first page. -/
  | own {page : Page} {rest : List Page} :
      w.Drained locked → (w.connection.half d).pages = page :: rest →
      w'.connection = w.connection.setHalf d ((w.connection.half d).lose page rest) →
      w'.entries = w.entries → w'.arena.isSpent = true → Met d locked seq w w' (some ⟨seq, []⟩)
  /-- Nobody has one. -/
  | refused :
      w.Drained locked → (w.connection.half d).pages = [] → w'.connection = w.connection →
      w'.entries = w.entries → Met d locked seq w w' none

/-- **One request for a page**, and how it is met. -/
theorem obtain_met {ceiling : Nat} {w : Work} (hw : w.Sound ceiling) (locked : List FlowId)
    (d : Direction) (seq : SeqNum) :
    Met d locked seq w (w.obtain locked d seq).1 (w.obtain locked d seq).2 ∧
      (w.obtain locked d seq).1.arena.Sound ceiling ∧
      (w.obtain locked d seq).1.chunks = w.chunks ∧
      ((w.obtain locked d seq).2 ≠ none → 0 < ceiling) := by
  rw [Work.obtain]
  cases ht : w.arena.take? seq with
  | some out =>
      obtain ⟨page, arena⟩ := out
      obtain ⟨rfl, hs', hcount⟩ := hw.arena.take? ht
      refine ⟨.arena ?_ rfl rfl, hs', rfl, ?_⟩
      · refine eq_false_of_ne_true fun hspent => ?_
        rw [Arena.take?_eq_none_iff.2 hspent] at ht
        cases ht
      · have := hs'.inUse_le
        intro _
        omega
  | none =>
      have hspent := Arena.take?_eq_none_iff.1 ht
      rcases @evict_cases ceiling w.arena seq w.connection.flow locked w.entries hw.arena hspent
        hw.entries with ⟨hdry, heq⟩ | ⟨victim, e, page, entries', arena', notes, hevicts, heq, hs', -⟩
      · cases hp : (w.connection.half d).pages with
        | nil =>
            simp only [heq, reclaim_of_none (HalfStream.shed?_nil hp), Connection.setHalf_half]
            exact ⟨.refused ⟨hspent, hdry⟩ hp rfl rfl, hw.arena, trivial, fun h => absurd rfl h⟩
        | cons page rest =>
            have hcount : 0 < (w.connection.half d).pageCount := by
              rw [HalfStream.pageCount, hp]
              exact Nat.zero_lt_succ _
            have hceil : 0 < ceiling := by
              refine Nat.pos_of_ne_zero fun h => ?_
              have := hw.connection.paged h
              rw [Connection.pageCount_eq _ d] at this
              omega
            obtain ⟨arena', notes', hclaim, hs', hspent'⟩ :=
              @reclaim_of_some _ _ seq _ _ [] _ _ _ _ hw.arena hspent hceil hcount
                (HalfStream.shed?_cons hp) rfl
            simp only [heq, hclaim]
            exact ⟨.own ⟨hspent, hdry⟩ hp rfl rfl hspent', hs', trivial, fun _ => hceil⟩
      · have hceil : 0 < ceiling := by
          obtain ⟨he, hwet⟩ := hevicts.wet
          refine Nat.pos_of_ne_zero fun h => hwet (Or.inr ?_)
          exact (hw.entries victim he).paged h
        simp only [heq]
        exact ⟨.other hspent rfl hevicts, hs', trivial, fun _ => hceil⟩

/-- What a request for a page did to the work around the half-stream that it is for. -/
inductive Obtained (d : Direction) (locked : List FlowId) (seq : SeqNum) (w w' : Work) :
    Option Page → Prop
  /-- The half-stream is spared. -/
  | granted :
      w'.connection = w.connection → ¬ w.Drained locked →
      Obtained d locked seq w w' (some ⟨seq, []⟩)
  /-- The half-stream gives up its own first page. -/
  | own {page : Page} {rest : List Page} :
      (w.connection.half d).pages = page :: rest →
      w'.connection = w.connection.setHalf d ((w.connection.half d).lose page rest) →
      w'.Drained locked → Obtained d locked seq w w' (some ⟨seq, []⟩)
  /-- There is no page. -/
  | refused :
      (w.connection.half d).pages = [] → w'.connection = w.connection →
      Obtained d locked seq w w' none

/-- What a request does to the half-stream that it is for, and to the other connections. -/
theorem Met.obtained {d : Direction} {locked : List FlowId} {seq : SeqNum} {w w' : Work}
    {r : Option Page} (h : Met d locked seq w w' r) :
    Obtained d locked seq w w' r ∧ List.Forall₂ Entry.Sheds w.entries w'.entries := by
  have hsame : List.Forall₂ Entry.Sheds w.entries w.entries :=
    List.forall₂_same.2 fun e _ => .refl e
  cases h with
  | arena hroom hconn hentries =>
      refine ⟨.granted hconn fun hdr => ?_, hentries ▸ hsame⟩
      exact Bool.false_ne_true (hroom.symm.trans hdr.spent)
  | other hspent hconn hevicts =>
      refine ⟨.granted hconn fun hdr => ?_, hevicts.sheds⟩
      exact hevicts.wet.2 (hdr.dry _ hevicts.wet.1)
  | own hdr hp hconn hentries hspent =>
      refine ⟨.own hp hconn ⟨hspent, ?_⟩, hentries ▸ hsame⟩
      rw [hconn, Connection.flow_setHalf, hentries]
      exact hdr.dry
  | refused _ hp hconn hentries => exact ⟨.refused hp hconn, hentries ▸ hsame⟩

theorem Obtained.sane {ceiling : Nat} {d : Direction} {locked : List FlowId} {seq : SeqNum}
    {w w' : Work} {r : Option Page} (h : Obtained d locked seq w w' r)
    (hs : w.connection.Sane ceiling) : w'.connection.Sane ceiling := by
  cases h with
  | granted hconn _ => exact hconn ▸ hs
  | own hp hconn _ => exact hconn ▸ hs.lose hp
  | refused _ hconn => exact hconn ▸ hs

/-- A request keeps the work sound. -/
theorem obtain_cases {ceiling : Nat} {w : Work} (hw : w.Sound ceiling) (locked : List FlowId)
    (d : Direction) (seq : SeqNum) :
    Obtained d locked seq w (w.obtain locked d seq).1 (w.obtain locked d seq).2 ∧
      (w.obtain locked d seq).1.Sound ceiling ∧
      List.Forall₂ Entry.Sheds w.entries (w.obtain locked d seq).1.entries ∧
      (w.obtain locked d seq).1.chunks = w.chunks ∧
      ((w.obtain locked d seq).2 ≠ none → 0 < ceiling) := by
  obtain ⟨hmet, harena, hchunks, hceil⟩ := obtain_met hw locked d seq
  obtain ⟨hobtained, hsheds⟩ := hmet.obtained
  exact ⟨hobtained, ⟨harena, sane_of_sheds hsheds hw.entries, hobtained.sane hw.connection⟩, hsheds,
    hchunks, hceil⟩

end Work
end TcpStreams
