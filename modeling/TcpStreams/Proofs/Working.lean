import TcpStreams.Proofs.Cells
import TcpStreams.Proofs.Requests

/-!
# Work, step by step

What the steps of the work on a segment have in common, whatever the settings: the segment's
connection stays the same conversation, the other connections lose pages at most, and the half-stream
in the other direction only moves.  The half-stream that the segment belongs to goes through
*changes* while data is stored: moves, pages given up, pages filled.

* `Work.Leads`: what every step of the work keeps to.
* `Work.store_changes`: storing is a sequence of changes.
* `Work.accept_eq`: the stages of the work on a segment.
-/

namespace TcpStreams

/-! ## Changes of a half-stream -/

namespace HalfStream

/-- One change of the half-stream for which data from `start` on is being stored. -/
inductive Change (start : SeqNum) (payload : List UInt8) :
    HalfStream → List Chunk → HalfStream → Prop
  /-- It moves. -/
  | move {h h' : HalfStream} {cs : List Chunk} :
      Move true h cs h' → Change start payload h cs h'
  /-- It gives up its first page. -/
  | lose {h : HalfStream} {page : Page} {rest : List Page} :
      h.pages = page :: rest → Change start payload h [] (h.lose page rest)
  /-- It keeps a stretch of the payload. -/
  | hold {h : HalfStream} {span : Span} :
      span.start < span.stop → span.stop ≤ payload.length →
      Change start payload h [] (h.hold ⟨start.advance span.start, span.slice payload⟩)
  /-- It counts bytes as given up. -/
  | drop {h : HalfStream} (bytes : Nat) : Change start payload h [] (h.drop bytes).value

/-- A sequence of changes with the chunks they make. -/
inductive Changes (start : SeqNum) (payload : List UInt8) :
    HalfStream → List Chunk → HalfStream → Prop
  | refl (h : HalfStream) : Changes start payload h [] h
  | head {h h' h'' : HalfStream} {cs cs' : List Chunk} :
      Change start payload h cs h' → Changes start payload h' cs' h'' →
      Changes start payload h (cs ++ cs') h''

namespace Changes

variable {start : SeqNum} {payload : List UInt8} {h h' h'' : HalfStream} {cs cs' : List Chunk}

theorem single (hc : Change start payload h cs h') : Changes start payload h cs h' := by
  have := head hc (refl h')
  rwa [List.append_nil] at this

theorem trans (hc : Changes start payload h cs h') (hc' : Changes start payload h' cs' h'') :
    Changes start payload h (cs ++ cs') h'' := by
  induction hc with
  | refl _ => exact hc'
  | head hchange _ ih =>
      rw [List.append_assoc]
      exact head hchange (ih hc')

/-- Changes alter neither the direction nor whether the half-stream is over. -/
theorem direction (hc : Changes start payload h cs h') :
    h'.direction = h.direction ∧ h'.isClosed = h.isClosed := by
  induction hc with
  | refl _ => exact ⟨rfl, rfl⟩
  | head hchange _ ih =>
      cases hchange with
      | move hm => exact ⟨ih.1.trans hm.direction.1, ih.2.trans hm.direction.2.1⟩
      | lose hp => exact ih
      | hold _ _ => exact ih
      | drop _ => exact ih

theorem of_moves (hm : Moves true h cs h') : Changes start payload h cs h' := by
  induction hm with
  | refl _ => exact .refl _
  | head hmove _ ih => exact .head (.move hmove) ih

/-- **What every change keeps, a sequence of changes keeps.** -/
theorem keep {J : HalfStream → List Delivery → Prop}
    (hJ : ∀ {h h' cs ds}, J h ds → Change start payload h cs h' →
      J h' (ds ++ cs.map (Chunk.delivery payload)))
    {ds : List Delivery} (hc : Changes start payload h cs h') (h0 : J h ds) :
    J h' (ds ++ cs.map (Chunk.delivery payload)) := by
  induction hc generalizing ds with
  | refl _ => rwa [List.map_nil, List.append_nil]
  | head hchange _ ih =>
      rw [List.map_append, ← List.append_assoc]
      exact ih (hJ h0 hchange)

end Changes
end HalfStream

/-! ## What every step keeps to -/

namespace Work

open HalfStream (Move Moves Changes)
open Connection (Kin Onward)

variable {ceiling limit : Nat} {d : Direction} {w w' w'' : Work} {new new' : List Chunk}
  {locked : List FlowId} {start : SeqNum} {payload : List UInt8}

/-- What every step of the work on a segment that travels in direction `d` keeps to, and the chunks
that it adds. -/
structure Leads (ceiling : Nat) (d : Direction) (new : List Chunk) (w w' : Work) : Prop where
  /-- The work stays sound. -/
  sound : w'.Sound ceiling
  /-- The connection is the same conversation. -/
  kin : Kin w.connection w'.connection
  /-- The other connections lose pages at most. -/
  sheds : List.Forall₂ Entry.Sheds w.entries w'.entries
  /-- The chunks come after those before. -/
  chunks : w'.chunks = w.chunks ++ new
  /-- In the other direction the step is a sequence of moves. -/
  other : Moves true (w.connection.half d.opposite) (Chunk.ofDirection d.opposite new)
    (w'.connection.half d.opposite)

theorem sheds_refl (entries : List Entry) : List.Forall₂ Entry.Sheds entries entries :=
  List.forall₂_same.2 fun e _ => .refl e

theorem sheds_trans {es es' es'' : List Entry} (h : List.Forall₂ Entry.Sheds es es')
    (h' : List.Forall₂ Entry.Sheds es' es'') : List.Forall₂ Entry.Sheds es es'' := by
  induction h generalizing es'' with
  | nil => exact h'
  | cons hfirst _ ih =>
      cases h' with
      | cons hfirst' hrest' => exact .cons (hfirst.trans hfirst') (ih hrest')

theorem Leads.refl (hw : w.Sound ceiling) : Leads ceiling d [] w w :=
  ⟨hw, .refl _, sheds_refl _, (List.append_nil _).symm, .refl _⟩

theorem Leads.trans (h : Leads ceiling d new w w') (h' : Leads ceiling d new' w' w'') :
    Leads ceiling d (new ++ new') w w'' := by
  refine ⟨h'.sound, h.kin.trans h'.kin, sheds_trans h.sheds h'.sheds, ?_, ?_⟩
  · rw [h'.chunks, h.chunks, List.append_assoc]
  · rw [Chunk.ofDirection_append]
    exact h.other.trans h'.other

/-! ## Steps on the connection -/

theorem leads_absorb {y : Yield Connection} (hw : w.Sound ceiling)
    (ho : Onward true w.connection y.chunks y.value) : Leads ceiling d y.chunks w (w.absorb y) :=
  ⟨⟨hw.arena.giveAll _, hw.entries, ho.sane hw.connection⟩, ho.kin, sheds_refl _, rfl, ho.moves _⟩

theorem leads_relieve (hw : w.Sound ceiling) (limit : Nat) :
    Leads ceiling d (w.connection.relieve limit d).chunks w (w.relieve limit d) :=
  leads_absorb hw (Connection.relieve_onward hw.connection.sided limit d)

theorem half_onHalf (w : Work) (d : Direction) (f : HalfStream → Yield HalfStream) :
    (w.onHalf d f).connection.half d = (f (w.connection.half d)).value :=
  Connection.half_setHalf ..

/-- A step on the half-stream that the segment belongs to. -/
theorem leads_onHalf {f : HalfStream → Yield HalfStream} (hw : w.Sound ceiling)
    (hdir : (f (w.connection.half d)).value.direction = d)
    (hcs : ∀ c ∈ (f (w.connection.half d)).chunks, c.direction = d)
    (hpaged : ceiling = 0 →
      (f (w.connection.half d)).value.pageCount ≤ (w.connection.half d).pageCount)
    (hclosed : (f (w.connection.half d)).value.isClosed = true →
      (f (w.connection.half d)).value.pages = []) :
    Leads ceiling d (f (w.connection.half d)).chunks w (w.onHalf d f) := by
  refine ⟨⟨hw.arena.giveAll _, hw.entries, hw.connection.setHalf hdir hpaged hclosed⟩,
    Connection.kin_setHalf _ _ _, sheds_refl _, rfl, ?_⟩
  have hother : (w.onHalf d f).connection.half d.opposite = w.connection.half d.opposite :=
    Connection.half_setHalf_ne _ _ d.opposite_ne.symm
  rw [hother, Chunk.ofDirection_eq_nil hcs d.opposite_ne.symm]
  exact .refl _

/-- A step on the half-stream that hands nothing on. -/
theorem leads_onHalf_silent {f : HalfStream → Yield HalfStream} (hw : w.Sound ceiling)
    (hcs : (f (w.connection.half d)).chunks = [])
    (hdir : (f (w.connection.half d)).value.direction = d)
    (hpaged : ceiling = 0 →
      (f (w.connection.half d)).value.pageCount ≤ (w.connection.half d).pageCount)
    (hclosed : (f (w.connection.half d)).value.isClosed = true →
      (f (w.connection.half d)).value.pages = []) : Leads ceiling d [] w (w.onHalf d f) := by
  have hlead := leads_onHalf hw hdir (by rw [hcs]; exact fun _ hc => nomatch hc) hpaged hclosed
  rwa [hcs] at hlead

/-- A step on the half-stream that is a sequence of moves. -/
theorem leads_onHalf_of_moves {leaps : Bool} {f : HalfStream → Yield HalfStream}
    (hw : w.Sound ceiling)
    (hm : Moves leaps (w.connection.half d) (f (w.connection.half d)).chunks
      (f (w.connection.half d)).value) :
    Leads ceiling d (f (w.connection.half d)).chunks w (w.onHalf d f) := by
  obtain ⟨hdir, hclosed, hcs⟩ := hm.direction
  have hside := hw.connection.sided d
  refine leads_onHalf hw (hdir.trans hside) (fun c hc => (hcs c hc).trans hside)
    (fun _ => hm.pageCount_le) ?_
  intro hc
  have hle := hm.pageCount_le
  rw [hclosed] at hc
  rw [HalfStream.pageCount, HalfStream.pageCount, hw.connection.closed d hc] at hle
  exact List.eq_nil_of_length_eq_zero (Nat.eq_zero_of_le_zero hle)

/-- What a request for a page does to the half-stream that it is for. -/
theorem Obtained.changes {seq : SeqNum} {r : Option Page} (h : Obtained d locked seq w w' r) :
    Kin w.connection w'.connection ∧
      w'.connection.half d.opposite = w.connection.half d.opposite ∧
      Changes start payload (w.connection.half d) [] (w'.connection.half d) := by
  cases h with
  | granted h _ =>
      rw [h]
      exact ⟨.refl _, rfl, .refl _⟩
  | refused _ h =>
      rw [h]
      exact ⟨.refl _, rfl, .refl _⟩
  | own hp h _ =>
      rw [h, Connection.half_setHalf_ne _ _ d.opposite_ne.symm, Connection.half_setHalf]
      exact ⟨Connection.kin_setHalf _ _ _, rfl, .single (.lose hp)⟩

theorem leads_obtain (hw : w.Sound ceiling) (locked : List FlowId) (d : Direction) (seq : SeqNum) :
    Leads ceiling d [] w (w.obtain locked d seq).1 := by
  obtain ⟨hcases, hsound, hsheds, hchunks, -⟩ := obtain_cases hw locked d seq
  obtain ⟨hkin, hother, -⟩ := @Obtained.changes d w _ locked seq [] seq _ hcases
  refine ⟨hsound, hkin, hsheds, by rw [hchunks, List.append_nil], ?_⟩
  rw [hother]
  exact .refl _

/-! ## Storing -/

/-- The work once the first of some portions has got its page. -/
def fillPage (w : Work) (locked : List FlowId) (d : Direction) (start : SeqNum)
    (payload : List UInt8) (p : Portion) : Work :=
  (w.obtain locked d (start.advance p.span.start)).1.onHalf d fun h =>
    { value := h.hold ⟨start.advance p.span.start, p.span.slice payload⟩ }

/-- The work once the first of some portions was refused a page. -/
def refuse (w : Work) (locked : List FlowId) (d : Direction) (start : SeqNum) (p : Portion) :
    Work :=
  (w.obtain locked d (start.advance p.span.start)).1.onHalf d fun h =>
    h.drop (p.pieceStop - p.span.start)

/-- A portion is stored, or it is refused a page and nothing more is stored. -/
theorem store_cons (hw : (w.relieve limit d).Sound ceiling) (p : Portion) (rest : List Portion) :
    let r := ((w.relieve limit d).obtain locked d (start.advance p.span.start)).2
    (r = some ⟨start.advance p.span.start, []⟩ ∧ 0 < ceiling ∧
        store limit locked d start payload (p :: rest) w =
          store limit locked d start payload rest
            ((w.relieve limit d).fillPage locked d start payload p)) ∨
      (r = none ∧ store limit locked d start payload (p :: rest) w =
        (w.relieve limit d).refuse locked d start p) := by
  obtain ⟨hcases, -, -, -, hceil⟩ := obtain_cases hw locked d (start.advance p.span.start)
  rw [store, fillPage, refuse]
  generalize (w.relieve limit d).obtain locked d (start.advance p.span.start) = out at *
  obtain ⟨w', r⟩ := out
  cases r with
  | none => exact Or.inr ⟨rfl, rfl⟩
  | some page =>
      have hpage : page = ⟨start.advance p.span.start, []⟩ := by
        cases hcases <;> rfl
      subst hpage
      exact Or.inl ⟨rfl, hceil nofun, rfl⟩

theorem leads_fillPage (hw : w.Sound ceiling) (hceil : 0 < ceiling)
    (hopen : (w.connection.half d).isClosed = false) {p : Portion}
    (hp : p.span.start < p.span.stop ∧ p.span.stop ≤ payload.length) :
    Leads ceiling d [] w (w.fillPage locked d start payload p) ∧
      Changes start payload (w.connection.half d) []
        ((w.fillPage locked d start payload p).connection.half d) := by
  have hlead := leads_obtain hw locked d (start.advance p.span.start)
  obtain ⟨-, -, hchange⟩ := @Obtained.changes d w _ locked start payload _ _
    (obtain_cases hw locked d (start.advance p.span.start)).1
  refine ⟨hlead.trans (leads_onHalf_silent hlead.sound rfl ?_ ?_ ?_), ?_⟩
  · exact hlead.sound.connection.sided d
  · exact fun h => absurd h (Nat.ne_of_gt hceil)
  · intro hc
    have hstill := hchange.direction.2.trans hopen
    exact absurd hc (ne_true_of_eq_false hstill)
  · rw [fillPage, half_onHalf]
    exact hchange.trans (.single (.hold hp.1 hp.2))

theorem leads_refuse (hw : w.Sound ceiling) (p : Portion) :
    Leads ceiling d [] w (w.refuse locked d start p) ∧
      Changes start payload (w.connection.half d) []
        ((w.refuse locked d start p).connection.half d) := by
  have hlead := leads_obtain hw locked d (start.advance p.span.start)
  obtain ⟨-, -, hchange⟩ := @Obtained.changes d w _ locked start payload _ _
    (obtain_cases hw locked d (start.advance p.span.start)).1
  refine ⟨hlead.trans (leads_onHalf_silent hlead.sound rfl ?_ ?_ ?_), ?_⟩
  · exact hlead.sound.connection.sided d
  · exact fun _ => Nat.le_refl _
  · exact hlead.sound.connection.closed d
  · rw [refuse, half_onHalf]
    exact hchange.trans (.single (.drop _))

/-- **Storing is a sequence of changes.** -/
theorem store_changes {ps : List Portion} (hw : w.Sound ceiling)
    (hopen : (w.connection.half d).isClosed = false)
    (hps : ∀ p ∈ ps, p.span.start < p.span.stop ∧ p.span.stop ≤ payload.length) :
    ∃ new, Leads ceiling d new w (store limit locked d start payload ps w) ∧
      Changes start payload (w.connection.half d) (Chunk.ofDirection d new)
        ((store limit locked d start payload ps w).connection.half d) := by
  induction ps generalizing w with
  | nil => exact ⟨[], .refl hw, .refl _⟩
  | cons p rest ih =>
      have hrelieve := @leads_relieve ceiling d w hw limit
      have hmoves : Changes start payload (w.connection.half d) _
          ((w.relieve limit d).connection.half d) :=
        .of_moves ((Connection.relieve_onward hw.connection.sided limit d).moves d)
      have hopen' := hmoves.direction.2.trans hopen
      rcases @store_cons ceiling limit d w locked start payload hrelieve.sound p rest with
        ⟨-, hceil, heq⟩ | ⟨-, heq⟩
      · obtain ⟨hfill, hchange⟩ := @leads_fillPage ceiling d _ locked start payload hrelieve.sound
          hceil hopen' p (hps p (List.mem_cons_self ..))
        obtain ⟨new, hlead, hchanges⟩ := ih hfill.sound (hchange.direction.2.trans hopen')
          fun q hq => hps q (List.mem_cons_of_mem _ hq)
        rw [heq]
        refine ⟨_, hrelieve.trans (hfill.trans hlead), ?_⟩
        rw [Chunk.ofDirection_append, Chunk.ofDirection_append]
        exact hmoves.trans (hchange.trans hchanges)
      · obtain ⟨hlead, hchange⟩ := @leads_refuse ceiling d _ locked start payload hrelieve.sound p
        rw [heq]
        refine ⟨_, hrelieve.trans hlead, ?_⟩
        rw [Chunk.ofDirection_append]
        exact hmoves.trans hchange

/-! ## The stages of the work on a segment -/

/-- The work once the segment is counted and a SYN has set the first number. -/
def arrived (w : Work) (d : Direction) (segment : Segment) : Work :=
  w.absorb (((w.connection.half d).arrive segment).map fun (h, _) => w.connection.setHalf d h)

/-- How the data of a segment fits. -/
def fit (w : Work) (d : Direction) (segment : Segment) : Fit :=
  ((w.connection.half d).arrive segment).value.2

/-- The work once the data of the segment went through or is stored. -/
def placed (w : Work) (limit : Nat) (locked : List FlowId) (d : Direction) (segment : Segment) :
    Work :=
  (w.arrived d segment).apply limit locked d segment (w.fit d segment)

/-- The work once what can follow has followed and the connection is below its limit. -/
def settled (w : Work) (limit : Nat) (locked : List FlowId) (d : Direction) (segment : Segment) :
    Work :=
  ((w.placed limit locked d segment).onHalf d HalfStream.drain).relieve limit d

variable {segment : Segment}

/-- The stages of the work on a segment. -/
theorem accept_eq (w : Work) (limit : Nat) (locked : List FlowId) (d : Direction)
    (segment : Segment) : w.accept limit locked d segment =
      if segment.flags.closes then (w.settled limit locked d segment).onHalf d HalfStream.close
      else w.settled limit locked d segment := rfl

theorem half_arrived (w : Work) (d : Direction) (segment : Segment) :
    (w.arrived d segment).connection.half d =
      ((w.connection.half d).arrive segment).value.1 :=
  Connection.half_setHalf ..

/-- The arrival of a segment leaves the pages where they are. -/
theorem arrive_keeps (h : HalfStream) (segment : Segment) :
    (h.arrive segment).value.1.pages = h.pages ∧
      (h.arrive segment).value.1.direction = h.direction ∧
      (h.isClosed = false → (h.arrive segment).value.1.isClosed = false) ∧
      ∀ c ∈ (h.arrive segment).chunks, c.direction = h.direction := by
  simp only [HalfStream.arrive, Yield.andThen, HalfStream.synchronize]
  split
  · split
    · refine ⟨rfl, rfl, fun _ => rfl, ?_⟩
      intro c hc
      rw [List.append_nil, List.mem_singleton] at hc
      rw [hc]
      rfl
    · exact ⟨rfl, rfl, fun _ => rfl, fun _ hc => absurd hc List.not_mem_nil⟩
  · exact ⟨rfl, rfl, fun h => h, fun _ hc => absurd hc List.not_mem_nil⟩

theorem leads_arrived (hw : w.Sound ceiling) (hopen : (w.connection.half d).isClosed = false)
    (segment : Segment) :
    Leads ceiling d ((w.connection.half d).arrive segment).chunks w (w.arrived d segment) ∧
      Chunk.ofDirection d ((w.connection.half d).arrive segment).chunks =
        ((w.connection.half d).arrive segment).chunks ∧
      ((w.arrived d segment).connection.half d).isClosed = false := by
  obtain ⟨hpages, hdir, hstill, hcs⟩ := arrive_keeps (w.connection.half d) segment
  rw [hw.connection.sided d] at hdir hcs
  refine ⟨?_, Chunk.ofDirection_eq_self hcs, ?_⟩
  · refine @leads_onHalf ceiling d w (fun h => (h.arrive segment).map Prod.fst) hw hdir hcs
      (fun _ => ?_) ?_
    · simp only [Yield.map, HalfStream.pageCount, hpages]
      exact Nat.le_refl _
    · intro hc
      exact absurd hc (ne_true_of_eq_false (hstill hopen))
  · rw [half_arrived]
    exact hstill hopen

/-- The work gets from `w` to `w'` by steps that hand chunks on, and in the end `J` holds of the
half-stream that the segment belongs to and all that it handed on, `ds` before. -/
def Reaches (ceiling : Nat) (d : Direction) (payload : List UInt8)
    (J : HalfStream → List Delivery → Prop) (ds : List Delivery) (w w' : Work) : Prop :=
  ∃ new, Leads ceiling d new w w' ∧ J (w'.connection.half d)
    (ds ++ (Chunk.ofDirection d new).map (Chunk.delivery payload))

namespace Reaches

variable {J J' : HalfStream → List Delivery → Prop} {ds : List Delivery}

theorem sound (h : Reaches ceiling d payload J ds w w') : w'.Sound ceiling :=
  h.elim fun _ h => h.1.sound

/-- One more step. -/
theorem trans (h : Reaches ceiling d payload J ds w w') (hlead : Leads ceiling d new w' w'')
    (hJ : ∀ {ds}, J (w'.connection.half d) ds → J' (w''.connection.half d)
      (ds ++ (Chunk.ofDirection d new).map (Chunk.delivery payload))) :
    Reaches ceiling d payload J' ds w w'' := by
  obtain ⟨new', hnew, hbefore⟩ := h
  refine ⟨_, hnew.trans hlead, ?_⟩
  rw [Chunk.ofDirection_append, List.map_append, ← List.append_assoc]
  exact hJ hbefore

/-- A step on the half-stream. -/
theorem onHalf {f : HalfStream → Yield HalfStream} (h : Reaches ceiling d payload J ds w w')
    (hlead : Leads ceiling d (f (w'.connection.half d)).chunks w' (w'.onHalf d f))
    (hcs : ∀ c ∈ (f (w'.connection.half d)).chunks, c.direction = d)
    (hJ : ∀ {ds}, J (w'.connection.half d) ds → J' (f (w'.connection.half d)).value
      (ds ++ (f (w'.connection.half d)).chunks.map (Chunk.delivery payload))) :
    Reaches ceiling d payload J' ds w (w'.onHalf d f) := by
  refine h.trans hlead fun hbefore => ?_
  rw [half_onHalf, Chunk.ofDirection_eq_self hcs]
  exact hJ hbefore

/-- A step on the half-stream that is a sequence of moves. -/
theorem onHalf_of_moves {leaps : Bool} {f : HalfStream → Yield HalfStream}
    (h : Reaches ceiling d payload J ds w w')
    (hm : Moves leaps (w'.connection.half d) (f (w'.connection.half d)).chunks
      (f (w'.connection.half d)).value)
    (hJ : ∀ {ds}, J (w'.connection.half d) ds → J' (f (w'.connection.half d)).value
      (ds ++ (f (w'.connection.half d)).chunks.map (Chunk.delivery payload))) :
    Reaches ceiling d payload J' ds w (w'.onHalf d f) :=
  h.onHalf (leads_onHalf_of_moves h.sound hm)
    (fun c hc => (hm.direction.2.2 c hc).trans (h.sound.connection.sided d)) hJ

/-- Relief. -/
theorem relieve (h : Reaches ceiling d payload J ds w w') (limit : Nat)
    (hmove : ∀ {h h' cs ds}, J h ds → Move true h cs h' →
      J h' (ds ++ cs.map (Chunk.delivery payload))) :
    Reaches ceiling d payload J ds w (w'.relieve limit d) := by
  have hmoves := (Connection.relieve_onward h.sound.connection.sided limit d).moves d
  exact h.trans (leads_relieve h.sound limit) fun hbefore => hmoves.keep hmove hbefore

/-- Closing. -/
theorem close (h : Reaches ceiling d payload J ds w w')
    (hmove : ∀ {h h' cs ds}, J h ds → Move true h cs h' →
      J h' (ds ++ cs.map (Chunk.delivery payload)))
    (hclose : ∀ {h ds}, J h ds → h.pages = [] → J { h with phase := .closed } ds) :
    Reaches ceiling d payload J ds w (w'.onHalf d HalfStream.close) := by
  obtain ⟨h', hm, hp, hv⟩ := (w'.connection.half d).close_moves
  have hside := h.sound.connection.sided d
  have hcs : ∀ c ∈ (w'.connection.half d).close.chunks, c.direction = d :=
    fun c hc => (hm.direction.2.2 c hc).trans hside
  refine h.onHalf (leads_onHalf h.sound ?_ hcs ?_ ?_) hcs ?_
  · rw [hv]
    exact hm.direction.1.trans hside
  · rw [hv]
    exact fun _ => hm.pageCount_le
  · rw [hv]
    exact fun _ => hp
  · rw [hv]
    exact fun hJ => hclose (hm.keep hmove hJ) hp

end Reaches

/-- **The work on a segment, once its data has found its place.** What draining makes of what holds
then, holds in the end if moves keep it. -/
theorem reaches_accept {J J' : HalfStream → List Delivery → Prop} {ds : List Delivery}
    (hplaced : Reaches ceiling d segment.payload J' ds w (w.placed limit locked d segment))
    (hdrain : ∀ {h ds}, J' h ds →
      J h.drain.value (ds ++ h.drain.chunks.map (Chunk.delivery segment.payload)))
    (hmove : ∀ {h h' cs ds}, J h ds → Move true h cs h' →
      J h' (ds ++ cs.map (Chunk.delivery segment.payload)))
    (hclose : ∀ {h ds}, J h ds → h.pages = [] → J { h with phase := .closed } ds) :
    Reaches ceiling d segment.payload J ds w (w.accept limit locked d segment) := by
  have hsettled := (hplaced.onHalf_of_moves (HalfStream.drain_moves _) hdrain).relieve limit hmove
  rw [accept_eq]
  split
  · exact hsettled.close hmove hclose
  · exact hsettled

/-- In the end the connection is below its limit. -/
theorem pageCount_accept (w : Work) (hlimit : 0 < limit) :
    (w.accept limit locked d segment).connection.pageCount < limit := by
  have hcount : (w.settled limit locked d segment).connection.pageCount < limit :=
    Connection.pageCount_relieve _ d hlimit
  rw [accept_eq]
  split
  · obtain ⟨h', hm, hp, hv⟩ :=
      ((w.settled limit locked d segment).connection.half d).close_moves
    have hhalf : ((w.settled limit locked d segment).onHalf d HalfStream.close).connection =
        (w.settled limit locked d segment).connection.setHalf d
          ((w.settled limit locked d segment).connection.half d).close.value := rfl
    have hzero : HalfStream.pageCount { h' with phase := .closed } = 0 := by
      rw [HalfStream.pageCount, hp, List.length_nil]
    rw [Connection.pageCount_eq _ d] at hcount
    rw [hhalf, Connection.pageCount_setHalf, hv, hzero]
    omega
  · exact hcount

/-! ## The other direction -/

variable {J : HalfStream → Prop}

/-- A step on the half-stream of the segment leaves the other one alone. -/
theorem half_opposite_onHalf (w : Work) (d : Direction) (f : HalfStream → Yield HalfStream) :
    (w.onHalf d f).connection.half d.opposite = w.connection.half d.opposite :=
  Connection.half_setHalf_ne _ _ d.opposite_ne.symm

/-- So does a request for a page. -/
theorem half_opposite_obtain (w : Work) (locked : List FlowId) (d : Direction) (seq : SeqNum) :
    (w.obtain locked d seq).1.connection.half d.opposite = w.connection.half d.opposite := by
  simp only [obtain]
  split
  · rfl
  · split
    · rfl
    · exact Connection.half_setHalf_ne _ _ d.opposite_ne.symm

/-- Storing lets the half-stream in the other direction leap at most. -/
theorem half_opposite_store (hJ : ∀ h, J h → J h.leap.value.1)
    {ps : List Portion} (h : J (w.connection.half d.opposite)) :
    J ((store limit locked d start payload ps w).connection.half d.opposite) := by
  induction ps generalizing w with
  | nil => exact h
  | cons p rest ih =>
      have hrelieve : J ((w.relieve limit d).connection.half d.opposite) :=
        Connection.relieve_keep hJ limit d d.opposite h
      have hobtain := half_opposite_obtain (w.relieve limit d) locked d (start.advance p.span.start)
      rw [store]
      generalize (w.relieve limit d).obtain locked d (start.advance p.span.start) = out at *
      obtain ⟨w', page?⟩ := out
      rw [← hobtain] at hrelieve
      cases page? with
      | none =>
          simp only [half_opposite_onHalf]
          exact hrelieve
      | some page =>
          refine ih ?_
          rw [half_opposite_onHalf]
          exact hrelieve

/-- **The work on a segment lets the half-stream in the other direction leap at most.** -/
theorem half_opposite_accept (hJ : ∀ h, J h → J h.leap.value.1)
    (h : J (w.connection.half d.opposite)) :
    J ((w.accept limit locked d segment).connection.half d.opposite) := by
  have harrived : J ((w.arrived d segment).connection.half d.opposite) := by
    rw [arrived, absorb, Yield.map, Connection.half_setHalf_ne _ _ d.opposite_ne.symm]
    exact h
  have hplaced : J ((w.placed limit locked d segment).connection.half d.opposite) := by
    rw [placed]
    cases w.fit d segment with
    | empty | behind | covered => exact harrived
    | inOrder offset =>
        rw [apply, half_opposite_onHalf]
        exact harrived
    | ahead pieces => exact half_opposite_store hJ harrived
  have hsettled : J ((w.settled limit locked d segment).connection.half d.opposite) := by
    refine Connection.relieve_keep hJ limit d d.opposite ?_
    rw [half_opposite_onHalf]
    exact hplaced
  rw [accept_eq]
  split
  · rw [half_opposite_onHalf]
    exact hsettled
  · exact hsettled

end Work
end TcpStreams
