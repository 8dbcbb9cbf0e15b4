import TcpStreams.Proofs.Formed
import TcpStreams.Proofs.Kinship

/-!
# What time does to half-streams

A half-stream begins once and ends once.  Once its next number is known it stays known and, as long as all
that arrives lies in one window, it only goes up.  A half-stream that is over holds no page, so nothing
changes it any more: draining, leaping, closing and giving pages up all begin with its first page.

None of this depends on the arenas: not on their ceilings, and not on who shares them.

* `Phase.Leads`: which phase may follow which.
* `HalfStream.Ages`: what becomes of a half-stream in the course of time.
* `Connection.Ages`, `Work.Ages`: the same for both half-streams of a connection, and of all connections.
* `Arrival.ages_work`: what a segment that arrives makes of them.
-/

namespace TcpStreams

/-! ## Phases -/

/-- `Leads p q`: a half-stream in phase `p` may come to be in phase `q`.  It begins once and it ends once,
begun or not; nothing leads back. -/
inductive Phase.Leads : Phase → Phase → Prop
  /-- It stays where it is. -/
  | stays (p : Phase) : Leads p p
  /-- It begins. -/
  | begins : Leads .unstarted .started
  /-- It ends. -/
  | ends (p : Phase) : Leads p .closed

theorem Phase.Leads.trans {p q r : Phase} (h : Leads p q) (h' : Leads q r) : Leads p r := by
  cases h with
  | stays => exact h'
  | begins =>
      cases h' with
      | stays => exact .begins
      | ends => exact .ends _
  | ends =>
      cases h' with
      | stays | ends => exact .ends _

theorem Phase.leads_started {p : Phase} (hopen : p.isClosed = false) : Leads p .started := by
  cases p with
  | unstarted => exact .begins
  | started => exact .stays _
  | closed => cases hopen

theorem Phase.leads_begun (p : Phase) : Leads p p.begun := by
  cases p with
  | unstarted => exact .begins
  | started | closed => exact .stays _

/-! ## Half-streams -/

namespace HalfStream

variable {base : SeqNum} {W : SeqNum → Prop} {leaps : Bool} {h h' h'' : HalfStream} {cs : List Chunk}
  {page : Page} {rest : List Page}

/-- The half-stream is over, and no page waits. -/
structure Finished (h : HalfStream) : Prop where
  /-- It is over. -/
  closed : h.isClosed = true
  /-- No page waits. -/
  pages : h.pages = []

theorem Finished.phase (hf : h.Finished) : h.phase = .closed := by
  have hclosed := hf.closed
  rwa [isClosed, Phase.isClosed, beq_iff_eq] at hclosed

/-- `Ages W h h'`: in the course of time `h` becomes `h'`, where all that arrives lies in the windows that
begin at the numbers of `W`. -/
structure Ages (W : SeqNum → Prop) (h h' : HalfStream) : Prop where
  /-- The direction is the same. -/
  direction : h'.direction = h.direction
  /-- The phase moves forward. -/
  phase : Phase.Leads h.phase h'.phase
  /-- A next number that is known stays known. -/
  known : h.next ≠ none → h'.next ≠ none
  /-- In a window the position goes up. -/
  upward : ∀ base, W base → h.Within base → h'.Within base ∧ h.pos base ≤ h'.pos base
  /-- When the half-stream ends, no page is left. -/
  emptied : h.isClosed = false → h'.isClosed = true → h'.pages = []
  /-- Nothing changes it afterwards. -/
  rests : h.Finished → h' = h

theorem Ages.refl (W : SeqNum → Prop) (h : HalfStream) : Ages W h h where
  direction := rfl
  phase := .stays _
  known := id
  upward _ _ hw := ⟨hw, Nat.le_refl _⟩
  emptied hopen hclosed := absurd (hopen.symm.trans hclosed) Bool.false_ne_true
  rests _ := rfl

theorem Ages.trans (ha : Ages W h h') (ha' : Ages W h' h'') : Ages W h h'' where
  direction := ha'.direction.trans ha.direction
  phase := ha.phase.trans ha'.phase
  known := fun hn => ha'.known (ha.known hn)
  upward base hW hw := by
    obtain ⟨hw', hle⟩ := ha.upward base hW hw
    obtain ⟨hw'', hle'⟩ := ha'.upward base hW hw'
    exact ⟨hw'', Nat.le_trans hle hle'⟩
  emptied hopen hclosed := by
    cases hmid : h'.isClosed with
    | false => exact ha'.emptied hmid hclosed
    | true =>
        have hpages := ha.emptied hopen hmid
        rw [ha'.rests ⟨hmid, hpages⟩]
        exact hpages
  rests hf := by
    have hsame := ha.rests hf
    rw [hsame] at ha'
    exact ha'.rests hf

/-- A half-stream that is open and stays open. -/
theorem Ages.of_open (hopen : h.isClosed = false) (hstill : h'.isClosed = false)
    (hdir : h'.direction = h.direction) (hphase : Phase.Leads h.phase h'.phase)
    (hknown : h.next ≠ none → h'.next ≠ none)
    (hup : ∀ base, W base → h.Within base → h'.Within base ∧ h.pos base ≤ h'.pos base) :
    Ages W h h' where
  direction := hdir
  phase := hphase
  known := hknown
  upward := hup
  emptied _ hclosed := absurd (hstill.symm.trans hclosed) Bool.false_ne_true
  rests hf := absurd (hopen.symm.trans hf.closed) Bool.false_ne_true

/-- Whatever becomes of a half-stream that began with no page, it holds none once it is over. -/
theorem Ages.finished (ha : Ages W h h') (hnew : h.isClosed = false) (hclosed : h'.isClosed = true) :
    h'.Finished := ⟨hclosed, ha.emptied hnew hclosed⟩

/-! ### Moves -/

theorem Moves.known (hm : Moves leaps h cs h') (hn : h.next ≠ none) : h'.next ≠ none := by
  induction hm with
  | refl _ => exact hn
  | head hmove _ ih =>
      refine ih ?_
      cases hmove with
      | free hp hb => exact hn
      | trim hp hb => exact hn
      | hand hp hb hc hn' => exact nofun

/-- Without a page there is no move. -/
theorem Moves.of_no_page (hm : Moves leaps h cs h') (hp : h.pages = []) : h' = h ∧ cs = [] := by
  cases hm with
  | refl _ => exact ⟨rfl, rfl⟩
  | head hmove _ =>
      cases hmove with
      | free hp' _ | trim hp' _ | hand hp' _ _ _ =>
          rw [hp] at hp'
          cases hp'

/-- Moves that do not lead back to an earlier phase are a matter of time. -/
theorem Moves.ages (hm : Moves leaps h cs h') (hphase : Phase.Leads h.phase h'.phase) :
    Ages W h h' where
  direction := hm.direction.1
  phase := hphase
  known := hm.known
  upward _ _ hw := hw.moves hm
  emptied hopen hclosed := by
    rw [hm.direction.2.1, hopen] at hclosed
    cases hclosed
  rests hf := (hm.of_no_page hf.pages).1

theorem ages_drain (W : SeqNum → Prop) (h : HalfStream) : Ages W h h.drain.value := by
  refine h.drain_moves.ages ?_
  rw [phase_drain]
  exact .stays _

theorem leads_leap (h : HalfStream) : Phase.Leads h.phase h.leap.value.1.phase := by
  generalize hp : h.pages = pages
  induction pages generalizing h with
  | nil =>
      rw [(leap_of_nil hp).1]
      exact .stays _
  | cons page rest ih =>
      cases hb : h.isBehind page with
      | true =>
          rw [(leap_of_behind hp hb).1]
          exact ih { h with pages := rest } rfl
      | false =>
          rw [(leap_of_front hp hb).1]
          simp only [phase_drain]
          exact h.phase.leads_begun

/-- Closing hands everything on, and then the half-stream is over. -/
theorem ages_close (W : SeqNum → Prop) (h : HalfStream) :
    Ages W h h.close.value ∧ (∀ c ∈ h.close.chunks, c.direction = h.direction) ∧
      (h.Finished → h.close.chunks = []) := by
  obtain ⟨h', hm, hp, hv⟩ := h.close_moves
  rw [hv]
  refine ⟨?_, hm.direction.2.2, fun hf => (hm.of_no_page hf.pages).2⟩
  exact {
    direction := hm.direction.1
    phase := .ends _
    known := hm.known
    upward := fun base _ hw =>
      have hup := hw.moves hm
      ⟨⟨hup.1.pos_le, hup.1.hi_le⟩, hup.2⟩
    emptied := fun _ _ => hp
    rests := fun hf => by
      rw [(hm.of_no_page hf.pages).1, ← hf.phase] }

/-! ### Pages given up, and new data -/

theorem ages_lose (W : SeqNum → Prop) (hp : h.pages = page :: rest) : Ages W h (h.lose page rest) where
  direction := rfl
  phase := .stays _
  known hn hnone := hn (Option.map_eq_none_iff.1 hnone)
  upward _ _ hw := hw.lose hp
  emptied hopen hclosed := absurd (hopen.symm.trans hclosed) Bool.false_ne_true
  rests hf := by
    have hnone := hf.pages
    rw [hp] at hnone
    cases hnone

theorem ages_drop (W : SeqNum → Prop) (hopen : h.isClosed = false) (bytes : Nat) :
    Ages W h (h.drop bytes).value :=
  .of_open hopen hopen rfl (.stays _) id fun _ _ hw => ⟨⟨hw.pos_le, hw.hi_le⟩, Nat.le_refl _⟩

theorem ages_hold (hopen : h.isClosed = false)
    (hhi : ∀ base, W base → page.hi base ≤ SeqNum.reach) : Ages W h (h.hold page) := by
  refine .of_open hopen hopen rfl (.stays _) id fun base hW hw => ⟨⟨hw.pos_le, ?_⟩, Nat.le_refl _⟩
  intro q hq
  rcases Backlog.mem_insert.1 hq with rfl | hq
  · exact hhi base hW
  · exact hw.hi_le q hq

/-- A segment is counted, and a SYN may set the first number. -/
theorem ages_arrive {segment : Segment} (hopen : h.isClosed = false)
    (hW : ∀ base, W base → h.next = none → segment.flags.isSyn = true →
      base.offset segment.payloadSeq ≤ SeqNum.reach) : Ages W h (h.arrive segment).value.1 := by
  have hnoted := h.arrive_noted segment
  generalize (h.arrive segment).value.1 = h' at hnoted
  generalize (h.arrive segment).chunks = cs at hnoted
  -- the first number lies in the window, and nothing was wanted before
  have hfirst : ∀ base next (h' : HalfStream), W base → h.Within base → h.next = none →
      segment.flags.isSyn = true → next = segment.payloadSeq → h'.next = some next →
      h'.pages = h.pages → h'.Within base ∧ h.pos base ≤ h'.pos base := by
    rintro base next h' hb hw hn hsyn rfl hn' hpages
    have hpos := hW base hb hn hsyn
    rw [← pos_some hn'] at hpos
    rw [pos_none hn]
    exact ⟨⟨hpos, hpages ▸ hw.hi_le⟩, Nat.zero_le _⟩
  cases hnoted with
  | counted _ _ =>
      exact .of_open hopen hopen rfl (.stays _) id fun _ _ hw => ⟨⟨hw.pos_le, hw.hi_le⟩, Nat.le_refl _⟩
  | greeted hsyn hn _ _ =>
      exact .of_open hopen rfl rfl (Phase.leads_started hopen) (fun _ => nofun) fun base hb hw =>
        hfirst base _ _ hb hw hn hsyn (SeqNum.advance_zero _) rfl rfl
  | begun hsyn hn _ _ =>
      exact .of_open hopen rfl rfl (Phase.leads_started hopen) (fun _ => nofun) fun base hb hw =>
        hfirst base _ _ hb hw hn hsyn rfl rfl rfl

/-- Data in order leads up to where it ends. -/
theorem ages_pass {start : SeqNum} {len offset : Nat} (hopen : h.isClosed = false)
    (hfit : Fit.of h.next h.pages start len = .inOrder offset)
    (hW : ∀ base, W base → base.offset start + len ≤ SeqNum.reach) :
    Ages W h (h.pass len offset).value := by
  obtain ⟨next, hn, hlead, rfl, hlt⟩ := Fit.of_inOrder hfit
  rw [(pass_some hn len _).1]
  refine .of_open hopen hopen rfl (.stays _) (fun _ => nofun) fun base hb hw => ?_
  have hreach := hW base hb
  have hpos := hw.pos_le
  rw [pos_some hn] at hpos
  rw [SeqNum.distance_eq_offset_sub hpos (by omega)] at hlead hlt ⊢
  have hend : base.offset (next.advance (len - ((base.offset start : Int) - base.offset next).natAbs)) =
      base.offset start + len := by
    rw [SeqNum.offset_advance _ _ (by rw [SeqNum.reach] at hreach; omega)]
    omega
  refine ⟨⟨?_, hw.hi_le⟩, ?_⟩
  · rw [pos_some rfl, hend]
    exact hreach
  · rw [pos_some hn, pos_some rfl, hend]
    omega

end HalfStream

/-! ## Connections -/

namespace Connection

open HalfStream (Finished Moves)

variable {W : Direction → SeqNum → Prop} {c c' c'' : Connection} {d : Direction}
  {cs cs' : List Chunk}

/-- `Ages W c cs c'`: in the course of time `c` becomes `c'` and hands `cs` on, where all that arrives in a
direction `d` lies in the windows of `W d`. -/
structure Ages (W : Direction → SeqNum → Prop) (c : Connection) (cs : List Chunk) (c' : Connection) :
    Prop where
  /-- It is the same conversation. -/
  kin : Kin c c'
  /-- Either half-stream ages. -/
  half : ∀ d, HalfStream.Ages (W d) (c.half d) (c'.half d)
  /-- A half-stream that is over hands nothing on. -/
  silent : ∀ d, (c.half d).Finished → Chunk.ofDirection d cs = []

theorem Ages.refl (W : Direction → SeqNum → Prop) (c : Connection) : Ages W c [] c :=
  ⟨.refl c, fun d => .refl (W d) _, fun _ _ => rfl⟩

theorem Ages.trans (h : Ages W c cs c') (h' : Ages W c' cs' c'') : Ages W c (cs ++ cs') c'' := by
  refine ⟨h.kin.trans h'.kin, fun d => (h.half d).trans (h'.half d), fun d hf => ?_⟩
  have hf' : (c'.half d).Finished := by
    rw [(h.half d).rests hf]
    exact hf
  rw [Chunk.ofDirection_append, h.silent d hf, h'.silent d hf']
  rfl

theorem Ages.sided (h : Ages W c cs c') (hs : Sided c) : Sided c' :=
  fun d => (h.half d).direction.trans (hs d)

/-- What is over by then holds no page. -/
theorem Ages.consistent (h : Ages W c cs c') (hc : c.Consistent) : c'.Consistent := by
  refine ⟨h.sided hc.sided, fun d hclosed => ?_⟩
  cases hbefore : (c.half d).isClosed with
  | false => exact (h.half d).emptied hbefore hclosed
  | true =>
      rw [(h.half d).rests ⟨hbefore, hc.closed d hbefore⟩]
      exact hc.closed d hbefore

/-- One half-stream ages, and the other is left alone. -/
theorem ages_setHalf {h : HalfStream} (hh : HalfStream.Ages (W d) (c.half d) h)
    (hown : ∀ k ∈ cs, k.direction = d) (hsilent : (c.half d).Finished → cs = []) :
    Ages W c cs (c.setHalf d h) := by
  refine ⟨kin_setHalf c d h, fun e => ?_, fun e hf => ?_⟩
  · by_cases he : d = e
    · subst he
      rw [half_setHalf]
      exact hh
    · rw [half_setHalf_ne _ _ he]
      exact .refl _ _
  · by_cases he : d = e
    · subst he
      rw [hsilent hf]
      rfl
    · exact Chunk.ofDirection_eq_nil hown he

/-- So it does while nothing is handed on. -/
theorem ages_setHalf_silent {h : HalfStream} (hh : HalfStream.Ages (W d) (c.half d) h) :
    Ages W c [] (c.setHalf d h) :=
  ages_setHalf hh (fun _ hk => absurd hk List.not_mem_nil) fun _ => rfl

theorem ages_relieve (W : Direction → SeqNum → Prop) (hs : Sided c) (limit : Nat) (d : Direction) :
    Ages W c (c.relieve limit d).chunks (c.relieve limit d).value := by
  have honward := relieve_onward hs limit d
  refine ⟨honward.kin, fun e => (honward.moves e).ages ?_, fun e hf =>
    ((honward.moves e).of_no_page hf.pages).2⟩
  exact relieve_keep (J := fun h => Phase.Leads (c.half e).phase h.phase)
    (fun h hle => hle.trans h.leads_leap) limit d e (.stays _)

theorem ages_closeIn (W : Direction → SeqNum → Prop) (hs : Sided c) (d : Direction) :
    Ages W c (c.closeIn d).chunks (c.closeIn d).value := by
  obtain ⟨hages, hown, hsilent⟩ := HalfStream.ages_close (W d) (c.half d)
  rw [hs d] at hown
  simp only [closeIn, onHalf, Yield.map]
  split
  · exact ages_setHalf_silent (.refl _ _)
  · exact ages_setHalf hages hown hsilent

theorem ages_close (W : Direction → SeqNum → Prop) (hs : Sided c) :
    Ages W c c.close.chunks c.close.value := by
  have hforward := ages_closeIn W hs .forward
  exact hforward.trans (ages_closeIn W (hforward.sided hs) .reverse)

/-- Giving pages up hands nothing on. -/
theorem Sheds.ages (W : Direction → SeqNum → Prop) (h : Sheds c c') : Ages W c [] c' := by
  induction h with
  | refl c => exact .refl W c
  | @head c _ d page rest hp _ ih =>
      have hfirst : Ages W c [] (c.setHalf d ((c.half d).lose page rest)) :=
        ages_setHalf_silent (HalfStream.ages_lose _ hp)
      exact hfirst.trans ih

end Connection

/-! ## The work on a segment -/

namespace Work

open Connection (Sided)

variable {W : Direction → SeqNum → Prop} {w w' w'' : Work} {limit : Nat} {locked : List FlowId}
  {d : Direction} {start : SeqNum} {payload : List UInt8} {segment : Segment}

/-- In the course of the work the connection of the segment ages, the others give pages up at most, and the
arena keeps blank pages. -/
structure Ages (W : Direction → SeqNum → Prop) (w w' : Work) : Prop where
  /-- The connection of the segment ages, and hands chunks on. -/
  connection : ∃ cs, w'.chunks = w.chunks ++ cs ∧ w.connection.Ages W cs w'.connection
  /-- The others lose pages at most. -/
  entries : List.Forall₂ Entry.Sheds w.entries w'.entries
  /-- The arena keeps blank pages. -/
  blank : w.arena.Blank → w'.arena.Blank

theorem Ages.refl (W : Direction → SeqNum → Prop) (w : Work) : Ages W w w :=
  ⟨⟨[], (List.append_nil _).symm, .refl W _⟩, sheds_refl _, id⟩

theorem Ages.trans (h : Ages W w w') (h' : Ages W w' w'') : Ages W w w'' := by
  obtain ⟨cs, hchunks, hages⟩ := h.connection
  obtain ⟨cs', hchunks', hages'⟩ := h'.connection
  refine ⟨⟨cs ++ cs', ?_, hages.trans hages'⟩, sheds_trans h.entries h'.entries,
    fun hb => h'.blank (h.blank hb)⟩
  rw [hchunks', hchunks, List.append_assoc]

theorem Ages.sided (h : Ages W w w') (hs : Sided w.connection) : Sided w'.connection :=
  h.connection.elim fun _ h => h.2.sided hs

theorem ages_absorb {y : Yield Connection} (h : w.connection.Ages W y.chunks y.value) :
    Ages W w (w.absorb y) := ⟨⟨y.chunks, rfl, h⟩, sheds_refl _, fun hb => hb.giveAll _⟩

theorem ages_onHalf {f : HalfStream → Yield HalfStream}
    (hh : HalfStream.Ages (W d) (w.connection.half d) (f (w.connection.half d)).value)
    (hown : ∀ k ∈ (f (w.connection.half d)).chunks, k.direction = d)
    (hsilent : (w.connection.half d).Finished → (f (w.connection.half d)).chunks = []) :
    Ages W w (w.onHalf d f) := ages_absorb (Connection.ages_setHalf hh hown hsilent)

theorem ages_relieve (W : Direction → SeqNum → Prop) (hs : Sided w.connection) (limit : Nat)
    (d : Direction) : Ages W w (w.relieve limit d) :=
  ages_absorb (Connection.ages_relieve W hs limit d)

/-- A request for a page costs others or the half-stream itself pages at most, and a page that it comes to
is blank. -/
theorem ages_obtain (W : Direction → SeqNum → Prop) (hb : w.arena.Blank) (locked : List FlowId)
    (d : Direction) (seq : SeqNum) :
    Ages W w (w.obtain locked d seq).1 ∧
      ∀ page, (w.obtain locked d seq).2 = some page → page = ⟨seq, []⟩ := by
  obtain ⟨hblank, hpage⟩ := obtain_blank hb locked d seq
  have hhalf := obtain_keep (J := HalfStream.Ages (W d) (w.connection.half d))
    (fun hpages h => h.trans (HalfStream.ages_lose (W d) hpages)) w locked d seq (.refl _ _)
  refine ⟨⟨⟨[], ?_, ?_⟩, w.entries_obtain locked d seq, fun _ => hblank⟩, hpage⟩
  · rw [chunks_obtain, List.append_nil]
  · rw [connection_obtain]
    exact Connection.ages_setHalf_silent hhalf

/-- While data is stored that lies in the windows, the connection ages. -/
theorem ages_store {ps : List Portion} (hs : Sided w.connection) (hb : w.arena.Blank)
    (hopen : (w.connection.half d).isClosed = false)
    (hps : ∀ p ∈ ps, p.span.start < p.span.stop ∧ p.span.stop ≤ payload.length)
    (hW : ∀ base, W d base → base.offset start + payload.length ≤ SeqNum.reach) :
    Ages W w (store limit locked d start payload ps w) := by
  induction ps generalizing w with
  | nil => exact .refl W w
  | cons p rest ih =>
      have hbounds := hps p (List.mem_cons_self ..)
      have hrelieve := ages_relieve W hs limit d
      obtain ⟨hobtain, hblank⟩ := ages_obtain W (hrelieve.blank hb) locked d (start.advance p.span.start)
      have hages := hrelieve.trans hobtain
      have hstill : (((w.relieve limit d).obtain locked d
          (start.advance p.span.start)).1.connection.half d).isClosed = false := by
        rw [(continues_obtain _ locked d _).connection.closed,
          (continues_relieve w limit d).connection.closed]
        exact hopen
      rw [store]
      generalize (w.relieve limit d).obtain locked d (start.advance p.span.start) = out at *
      obtain ⟨w', page?⟩ := out
      cases page? with
      | none =>
          exact hages.trans
            (ages_absorb (Connection.ages_setHalf_silent (HalfStream.ages_drop (W d) hstill _)))
      | some page =>
          obtain rfl := hblank page rfl
          have hhi : ∀ base, W d base → (p.page start payload).hi base ≤ SeqNum.reach := by
            intro base hbase
            have hreach := hW base hbase
            rw [(Portion.lo_hi_page hreach hbounds).2, Portion.hi]
            omega
          have hheld : Ages W w' (w'.onHalf d fun h => { value := h.hold (p.page start payload) }) :=
            ages_absorb (Connection.ages_setHalf_silent (HalfStream.ages_hold hstill hhi))
          have hkept := hages.trans hheld
          refine hkept.trans (ih (hkept.sided hs) (hkept.blank hb) ?_ fun q hq =>
            hps q (List.mem_cons_of_mem _ hq))
          rw [half_onHalf]
          exact hstill

/-- **Working a segment in** for a direction that is open lets time pass, if the segment lies in the
windows of its direction: its data does, and so does the number that it sets if it is the SYN that begins
the stream. -/
theorem ages_accept (hs : Sided w.connection) (hb : w.arena.Blank)
    (hopen : (w.connection.half d).isClosed = false)
    (hW : ∀ base, W d base →
      ((w.connection.half d).next = none ∧ segment.flags.isSyn = true) ∨ segment.payload ≠ [] →
        base.offset segment.payloadSeq + segment.payload.length ≤ SeqNum.reach) :
    Ages W w (w.accept limit locked d segment) := by
  have hdata : 0 < segment.payload.length → ∀ base, W d base →
      base.offset segment.payloadSeq + segment.payload.length ≤ SeqNum.reach :=
    fun hlen base hbase => hW base hbase (Or.inr (List.ne_nil_of_length_pos hlen))
  have harrive := arrive_keeps (w.connection.half d) segment
  rw [hs d] at harrive
  obtain ⟨-, -, hstill, hown⟩ := harrive
  have harrived : Ages W w (w.arrived d segment) := by
    refine ages_onHalf (f := fun h => (h.arrive segment).map Prod.fst) ?_ hown fun hf => ?_
    · refine HalfStream.ages_arrive hopen fun base hbase hn hsyn => ?_
      exact Nat.le_trans (Nat.le_add_right ..) (hW base hbase (Or.inl ⟨hn, hsyn⟩))
    · exact absurd (hopen.symm.trans hf.closed) Bool.false_ne_true
  have hopen' : ((w.arrived d segment).connection.half d).isClosed = false := by
    rw [half_arrived]
    exact hstill hopen
  have hplaced : Ages W w (w.placed limit locked d segment) := by
    rw [placed]
    refine harrived.trans ?_
    cases hfit : w.fit d segment with
    | empty | behind | covered => exact .refl W _
    | inOrder offset =>
        rw [fit_eq] at hfit
        obtain ⟨next, hn, -, -, hlt⟩ := Fit.of_inOrder hfit
        have hchunks := (HalfStream.pass_some hn segment.payload.length offset).2
        refine ages_onHalf (HalfStream.ages_pass hopen' hfit (hdata (by omega))) ?_ fun hf => ?_
        · rw [hchunks]
          intro k hk
          rw [List.mem_singleton.1 hk]
          exact harrived.sided hs d
        · exact absurd (hopen'.symm.trans hf.closed) Bool.false_ne_true
    | ahead pieces =>
        have hbounds := portions_bounds hfit
        rw [fit_eq] at hfit
        obtain ⟨hlen, -, -⟩ := Fit.of_ahead hfit
        exact ages_store (harrived.sided hs) (harrived.blank hb) hopen' hbounds (hdata hlen)
  have hdrain : ∀ {w' : Work}, Sided w'.connection → Ages W w' (w'.onHalf d HalfStream.drain) := by
    intro w' hs'
    have hmoves := (w'.connection.half d).drain_moves
    refine ages_onHalf (HalfStream.ages_drain _ _) ?_ fun hf => (hmoves.of_no_page hf.pages).2
    exact fun k hk => (hmoves.direction.2.2 k hk).trans (hs' d)
  have hdrained := hplaced.trans (hdrain (hplaced.sided hs))
  have hsettled : Ages W w (w.settled limit locked d segment) :=
    hdrained.trans (ages_relieve W (hdrained.sided hs) limit d)
  rw [accept_eq]
  split
  · obtain ⟨hages, hown, hsilent⟩ := HalfStream.ages_close (W d)
      ((w.settled limit locked d segment).connection.half d)
    rw [hsettled.sided hs d] at hown
    exact hsettled.trans (ages_onHalf hages hown hsilent)
  · exact hsettled

end Work

/-- **A segment that arrives** lets time pass for its connection, and costs the others pages at most. -/
theorem Arrival.ages_work {W : Direction → SeqNum → Prop} {a : Arrival} (hs : a.connection.Sided)
    (hb : a.state.arena.Blank) (hW : ∀ base, W a.direction base → a.InWindow base) :
    a.before.Ages W a.work := by
  cases hclosed : a.half.isClosed with
  | true =>
      obtain ⟨hconn, hentries, harena, hchunks⟩ := work_of_closed hclosed
      refine ⟨⟨[], hchunks, ?_⟩, ?_, fun _ => harena ▸ hb⟩
      · rw [hconn]
        exact .refl W _
      · rw [hentries]
        exact Work.sheds_refl _
  | false =>
      rw [work_of_open hclosed]
      refine Work.ages_accept hs hb hclosed fun base hbase hwhen => hW base hbase ?_
      exact hwhen.imp_left fun ⟨hn, hsyn⟩ => ⟨hclosed, hn, hsyn⟩

end TcpStreams
