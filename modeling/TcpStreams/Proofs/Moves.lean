import TcpStreams.Connection
import TcpStreams.Proofs.Spread

/-!
# Moves of a half-stream

Draining, leaping and closing look at the first waiting page again and again.  Each look is one
*move*: a page with nothing new goes, a page is cut to what is new, or a page is handed on.  All that
a half-stream does of its own accord is a sequence of moves, so whatever every move keeps, all of it
keeps.

* `HalfStream.Move`, `HalfStream.Moves`: one move, and a sequence of them with the chunks they make.
* `HalfStream.drain_moves`, `HalfStream.leap_moves`, `HalfStream.close_moves`: the operations are
  sequences of moves.
* `HalfStream.Moves.keep`: what every move keeps, a sequence of moves keeps.
-/

namespace TcpStreams
namespace HalfStream

/-- Whether a page holds nothing new.  Nothing is old before the stream has begun. -/
def isBehind (h : HalfStream) (page : Page) : Bool :=
  match h.next with
  | none => false
  | some next => Backlog.isBehind next page

/-- What is new on a page. -/
def trimmed (h : HalfStream) (page : Page) : Page :=
  match h.next with
  | none => page
  | some next => Backlog.cutTo next page

theorem isBehind_some {h : HalfStream} {next : SeqNum} (hn : h.next = some next) (page : Page) :
    h.isBehind page = Backlog.isBehind next page := by
  rw [isBehind, hn]

theorem trimmed_some {h : HalfStream} {next : SeqNum} (hn : h.next = some next) (page : Page) :
    h.trimmed page = Backlog.cutTo next page := by
  rw [trimmed, hn]

theorem trimmed_none {h : HalfStream} (hn : h.next = none) (page : Page) :
    h.trimmed page = page := by
  rw [trimmed, hn]

/-! ## One move -/

/-- Hands a page on in a phase, with `rest` still waiting. -/
def turn (h : HalfStream) (phase : Phase) (page : Page) (rest : List Page) : HalfStream × Chunk :=
  { h with
    phase
    pages := rest
    skipDue := h.skipDue || h.next != some page.seq }.handOn (.page page) page.seq page.size

/-- `Move leaps h chunks h'`: with one look at its first page, `h` becomes `h'` and hands `chunks`
on.  Only if it `leaps` a page is handed on over a gap. -/
inductive Move (leaps : Bool) : HalfStream → List Chunk → HalfStream → Prop
  /-- A page that holds nothing new goes. -/
  | free {h : HalfStream} {page : Page} {rest : List Page} :
      h.pages = page :: rest → h.isBehind page = true → Move leaps h [] { h with pages := rest }
  /-- A page is cut to what is new. -/
  | trim {h : HalfStream} {page : Page} {rest : List Page} :
      h.pages = page :: rest → h.isBehind page = false →
      Move leaps h [] { h with pages := h.trimmed page :: rest }
  /-- What is new on a page is handed on. -/
  | hand {h : HalfStream} {page : Page} {rest : List Page} {phase : Phase} :
      h.pages = page :: rest → h.isBehind page = false → phase.isClosed = h.phase.isClosed →
      (leaps = false → h.next = some (h.trimmed page).seq) →
      Move leaps h [(h.turn phase (h.trimmed page) rest).2] (h.turn phase (h.trimmed page) rest).1

/-- `Moves leaps h chunks h'`: a sequence of moves leads from `h` to `h'` and hands `chunks` on. -/
inductive Moves (leaps : Bool) : HalfStream → List Chunk → HalfStream → Prop
  | refl (h : HalfStream) : Moves leaps h [] h
  | head {h h' h'' : HalfStream} {cs cs' : List Chunk} :
      Move leaps h cs h' → Moves leaps h' cs' h'' → Moves leaps h (cs ++ cs') h''

theorem Move.leaping {leaps : Bool} {h h' : HalfStream} {cs : List Chunk}
    (hm : Move leaps h cs h') : Move true h cs h' := by
  cases hm with
  | free hp hb => exact .free hp hb
  | trim hp hb => exact .trim hp hb
  | hand hp hb hc _ => exact .hand hp hb hc nofun

/-- A move changes neither the direction nor whether the half-stream is over. -/
theorem Move.direction {leaps : Bool} {h h' : HalfStream} {cs : List Chunk}
    (hm : Move leaps h cs h') :
    h'.direction = h.direction ∧ h'.isClosed = h.isClosed ∧ ∀ c ∈ cs, c.direction = h.direction := by
  cases hm with
  | free hp hb => exact ⟨rfl, rfl, nofun⟩
  | trim hp hb => exact ⟨rfl, rfl, nofun⟩
  | hand hp hb hc hn =>
      refine ⟨rfl, hc, ?_⟩
      intro c hmem
      obtain rfl := List.mem_singleton.1 hmem
      rfl

namespace Moves

variable {leaps : Bool} {h h' h'' : HalfStream} {cs cs' : List Chunk}

theorem single (hm : Move leaps h cs h') : Moves leaps h cs h' := by
  have := head hm (refl h')
  rwa [List.append_nil] at this

/-- A move that hands nothing on comes before the others. -/
theorem silent (hm : Move leaps h [] h') (hm' : Moves leaps h' cs h'') : Moves leaps h cs h'' :=
  head hm hm'

theorem trans (hm : Moves leaps h cs h') (hm' : Moves leaps h' cs' h'') :
    Moves leaps h (cs ++ cs') h'' := by
  induction hm with
  | refl _ => exact hm'
  | head hmove _ ih =>
      rw [List.append_assoc]
      exact head hmove (ih hm')

theorem leaping (hm : Moves leaps h cs h') : Moves true h cs h' := by
  induction hm with
  | refl h => exact .refl h
  | head hmove _ ih => exact .head hmove.leaping ih

/-- **What every move keeps, a sequence of moves keeps.** -/
theorem keep {J : HalfStream → List Delivery → Prop} {payload : List UInt8}
    (hJ : ∀ {h h' cs ds}, J h ds → Move leaps h cs h' →
      J h' (ds ++ cs.map (Chunk.delivery payload)))
    {ds : List Delivery} (hm : Moves leaps h cs h') (h0 : J h ds) :
    J h' (ds ++ cs.map (Chunk.delivery payload)) := by
  induction hm generalizing ds with
  | refl _ => rwa [List.map_nil, List.append_nil]
  | head hmove _ ih =>
      rw [List.map_append, ← List.append_assoc]
      exact ih (hJ h0 hmove)

theorem direction (hm : Moves leaps h cs h') :
    h'.direction = h.direction ∧ h'.isClosed = h.isClosed ∧ ∀ c ∈ cs, c.direction = h.direction := by
  induction hm with
  | refl _ => exact ⟨rfl, rfl, nofun⟩
  | head hmove _ ih =>
      obtain ⟨hd, hc, hcs⟩ := hmove.direction
      obtain ⟨hd', hc', hcs'⟩ := ih
      refine ⟨hd'.trans hd, hc'.trans hc, ?_⟩
      intro c hmem
      rcases List.mem_append.1 hmem with hmem | hmem
      · exact hcs c hmem
      · exact (hcs' c hmem).trans hd

theorem pageCount_le (hm : Moves leaps h cs h') : h'.pageCount ≤ h.pageCount := by
  induction hm with
  | refl _ => exact Nat.le_refl _
  | head hmove _ ih =>
      refine Nat.le_trans ih ?_
      cases hmove with
      | free hp hb =>
          rw [pageCount, pageCount, hp, List.length_cons]
          exact Nat.le_succ _
      | trim hp hb =>
          rw [pageCount, pageCount, hp, List.length_cons, List.length_cons]
      | hand hp hb hc hn =>
          rw [pageCount, pageCount, hp, List.length_cons]
          exact Nat.le_succ _

/-- If no page goes, nothing is handed on. -/
theorem chunks_eq_nil (hm : Moves leaps h cs h') (hcount : h'.pageCount = h.pageCount) : cs = [] := by
  induction hm with
  | refl _ => rfl
  | @head h _ _ _ _ hmove hrest ih =>
      have hle := hrest.pageCount_le
      cases hmove with
      | free hp hb =>
          refine absurd hle (Nat.not_le.2 ?_)
          rw [hcount, pageCount, pageCount, hp, List.length_cons]
          exact Nat.lt_succ_self _
      | trim hp hb =>
          refine ih (hcount.trans ?_)
          rw [pageCount, pageCount, hp, List.length_cons, List.length_cons]
      | @hand page rest phase hp hb _ _ =>
          refine absurd hle (Nat.not_le.2 ?_)
          have hrest : (h.turn phase (h.trimmed page) rest).1.pageCount = rest.length := rfl
          rw [hcount, hrest, pageCount, hp, List.length_cons]
          exact Nat.lt_succ_self _

end Moves

/-! ## Draining -/

/-- The half-stream without its first page, which goes. -/
def free (h : HalfStream) (page : Page) (rest : List Page) : Yield HalfStream :=
  { value := { h with pages := rest }, freed := [page] }

/-- The half-stream without its first page, which is handed on where it is wanted. -/
def follow (h : HalfStream) (page : Page) (rest : List Page) : Yield HalfStream :=
  let (h, chunk) := { h with pages := rest }.handOn (.page page) page.seq page.size
  { value := h, chunks := [chunk] }

/-- A page that is wanted next is handed on without a mark. -/
theorem follow_eq_turn {h : HalfStream} {page : Page} (hs : h.next = some page.seq) (rest : List Page) :
    h.follow page rest =
      { value := (h.turn h.phase page rest).1, chunks := [(h.turn h.phase page rest).2] } := by
  simp [follow, turn, handOn, hs]

theorem drain_of_none {h : HalfStream} (hn : h.next = none) : h.drain = { value := h } := by
  rw [drain, hn]

theorem drain_of_empty {h : HalfStream} (hp : h.pages = []) : h.drain = { value := h } := by
  obtain ⟨direction, phase, next, pages, startDue, skipDue, counters⟩ := h
  subst hp
  cases next with
  | none => rfl
  | some next => rfl

theorem drain_of_nil {h : HalfStream} (hp : h.pages = []) :
    h.drain.value = h ∧ h.drain.chunks = [] := by
  rw [drain_of_empty hp]
  exact ⟨rfl, rfl⟩

/-- A page with nothing new goes, and the rest is drained. -/
theorem drain_eq_of_behind {h : HalfStream} {page : Page} {rest : List Page}
    (hp : h.pages = page :: rest) (hb : h.isBehind page = true) :
    h.drain = (h.free page rest).andThen drain := by
  cases hn : h.next with
  | none => rw [isBehind, hn] at hb; cases hb
  | some next =>
      rw [isBehind_some hn] at hb
      simp [drain, free, Yield.andThen, hn, hp, Backlog.run, hb]

/-- A page with nothing new goes before the rest is drained. -/
theorem drain_of_behind {h : HalfStream} {page : Page} {rest : List Page}
    (hp : h.pages = page :: rest) (hb : h.isBehind page = true) :
    h.drain.value = ({ h with pages := rest } : HalfStream).drain.value ∧
      h.drain.chunks = ({ h with pages := rest } : HalfStream).drain.chunks := by
  rw [drain_eq_of_behind hp hb]
  exact ⟨rfl, rfl⟩

/-- A page that continues the stream is handed on, and the rest is drained. -/
theorem drain_eq_of_follow {h : HalfStream} {page : Page} {rest : List Page}
    (hp : h.pages = page :: rest) (hb : h.isBehind page = false)
    (hs : h.next = some (h.trimmed page).seq) :
    h.drain = (h.follow (h.trimmed page) rest).andThen drain := by
  generalize hnext : (h.trimmed page).seq = next at hs
  have ht := trimmed_some hs page
  rw [isBehind_some hs] at hb
  rw [ht] at hnext
  simp [drain, follow, Yield.andThen, hs, hp, Backlog.run, hb, hnext, ht, handOnPages, handOn, Page.stop]

/-- A page that continues the stream is handed on before the rest is drained. -/
theorem drain_of_follow {h : HalfStream} {page : Page} {rest : List Page}
    (hp : h.pages = page :: rest) (hb : h.isBehind page = false)
    (hs : h.next = some (h.trimmed page).seq) :
    h.drain.value = (h.turn h.phase (h.trimmed page) rest).1.drain.value ∧
      h.drain.chunks = (h.turn h.phase (h.trimmed page) rest).2 ::
        (h.turn h.phase (h.trimmed page) rest).1.drain.chunks := by
  rw [drain_eq_of_follow hp hb hs, follow_eq_turn hs]
  exact ⟨rfl, rfl⟩

/-- Draining only cuts the page after a gap. -/
theorem drain_eq_of_gap {h : HalfStream} {page : Page} {rest : List Page} {next : SeqNum}
    (hp : h.pages = page :: rest) (hb : h.isBehind page = false) (hn : h.next = some next)
    (hs : (h.trimmed page).seq ≠ next) :
    h.drain = { value := { h with pages := h.trimmed page :: rest } } := by
  have ht := trimmed_some hn page
  rw [isBehind_some hn] at hb
  rw [ht] at hs
  simp [drain, hn, hp, Backlog.run, hb, hs, ht, handOnPages]

/-- Draining stops before a gap. -/
theorem drain_of_gap {h : HalfStream} {page : Page} {rest : List Page} {next : SeqNum}
    (hp : h.pages = page :: rest) (hb : h.isBehind page = false) (hn : h.next = some next)
    (hs : (h.trimmed page).seq ≠ next) :
    h.drain.value = { h with pages := h.trimmed page :: rest } ∧ h.drain.chunks = [] := by
  rw [drain_eq_of_gap hp hb hn hs]
  exact ⟨rfl, rfl⟩

/-- Draining is a sequence of moves without a leap. -/
theorem drain_moves (h : HalfStream) : Moves false h h.drain.chunks h.drain.value := by
  generalize hp : h.pages = pages
  induction pages generalizing h with
  | nil =>
      obtain ⟨hv, hc⟩ := drain_of_nil hp
      rw [hv, hc]
      exact .refl h
  | cons page rest ih =>
      cases hn : h.next with
      | none =>
          rw [drain_of_none hn]
          exact .refl h
      | some next =>
          cases hb : h.isBehind page with
          | true =>
              obtain ⟨hv, hc⟩ := drain_of_behind hp hb
              rw [hv, hc]
              exact .silent (.free hp hb) (ih { h with pages := rest } rfl)
          | false =>
              by_cases hs : (h.trimmed page).seq = next
              · have hs := hn.trans (congrArg some hs.symm)
                obtain ⟨hv, hc⟩ := drain_of_follow hp hb hs
                rw [hv, hc]
                exact .head (.hand hp hb rfl (fun _ => hs)) (ih _ rfl)
              · obtain ⟨hv, hc⟩ := drain_of_gap hp hb hn hs
                rw [hv, hc]
                exact .single (.trim hp hb)

/-! ## Leaping -/

theorem Phase.isClosed_begun (phase : Phase) : phase.begun.isClosed = phase.isClosed := by
  cases phase <;> rfl

/-- Nothing leaps where nothing waits. -/
theorem leap_of_empty {h : HalfStream} (hp : h.pages = []) : h.leap = { value := (h, false) } := by
  obtain ⟨direction, phase, next, pages, startDue, skipDue, counters⟩ := h
  subst hp
  cases next with
  | none => rfl
  | some next => rfl

theorem leap_of_nil {h : HalfStream} (hp : h.pages = []) :
    h.leap.value = (h, false) ∧ h.leap.chunks = [] := by
  rw [leap_of_empty hp]
  exact ⟨rfl, rfl⟩

theorem settle_of_behind {h : HalfStream} {page : Page} {rest : List Page}
    (hp : h.pages = page :: rest) (hb : h.isBehind page = true) :
    h.settle = (h.free page rest).andThen settle := by
  cases hn : h.next with
  | none => rw [isBehind, hn] at hb; cases hb
  | some next =>
      rw [isBehind_some hn] at hb
      simp [settle, free, Yield.andThen, hn, hp, Backlog.settle, hb]

theorem settle_of_front {h : HalfStream} {page : Page} {rest : List Page}
    (hp : h.pages = page :: rest) (hb : h.isBehind page = false) :
    h.settle = { value := { h with pages := h.trimmed page :: rest } } := by
  obtain ⟨direction, phase, next, pages, startDue, skipDue, counters⟩ := h
  subst hp
  cases next with
  | none => rfl
  | some next =>
      have hb : Backlog.isBehind next page = false := hb
      simp [settle, Backlog.settle, hb, trimmed]

/-- A page with nothing new goes, and then the stream leaps. -/
theorem leap_eq_of_behind {h : HalfStream} {page : Page} {rest : List Page}
    (hp : h.pages = page :: rest) (hb : h.isBehind page = true) :
    h.leap = (h.free page rest).andThen leap := by
  rw [leap, settle_of_behind hp hb, Yield.andThen_assoc]
  rfl

/-- A page with nothing new goes before the stream leaps. -/
theorem leap_of_behind {h : HalfStream} {page : Page} {rest : List Page}
    (hp : h.pages = page :: rest) (hb : h.isBehind page = true) :
    h.leap.value = ({ h with pages := rest } : HalfStream).leap.value ∧
      h.leap.chunks = ({ h with pages := rest } : HalfStream).leap.chunks := by
  rw [leap_eq_of_behind hp hb]
  exact ⟨rfl, rfl⟩

/-- The stream leaps to the first page with anything new, and the rest is drained. -/
theorem leap_eq_of_front {h : HalfStream} {page : Page} {rest : List Page}
    (hp : h.pages = page :: rest) (hb : h.isBehind page = false) :
    h.leap = ((({ h with pages := rest } : HalfStream).jump (h.trimmed page)).andThen drain).map
      fun h => (h, true) := by
  rw [leap, settle_of_front hp hb]
  rfl

/-- The stream leaps to the first page with anything new. -/
theorem leap_of_front {h : HalfStream} {page : Page} {rest : List Page}
    (hp : h.pages = page :: rest) (hb : h.isBehind page = false) :
    h.leap.value = ((h.turn h.phase.begun (h.trimmed page) rest).1.drain.value, true) ∧
      h.leap.chunks = (h.turn h.phase.begun (h.trimmed page) rest).2 ::
        (h.turn h.phase.begun (h.trimmed page) rest).1.drain.chunks := by
  rw [leap_eq_of_front hp hb]
  exact ⟨rfl, rfl⟩

/-- Leaping is a sequence of moves. -/
theorem leap_moves (h : HalfStream) : Moves true h h.leap.chunks h.leap.value.1 := by
  generalize hp : h.pages = pages
  induction pages generalizing h with
  | nil =>
      obtain ⟨hv, hc⟩ := leap_of_nil hp
      rw [hv, hc]
      exact .refl h
  | cons page rest ih =>
      cases hb : h.isBehind page with
      | true =>
          obtain ⟨hv, hc⟩ := leap_of_behind hp hb
          rw [hv, hc]
          exact .silent (.free hp hb) (ih { h with pages := rest } rfl)
      | false =>
          obtain ⟨hv, hc⟩ := leap_of_front hp hb
          have hmove : Move true h [(h.turn h.phase.begun (h.trimmed page) rest).2]
              (h.turn h.phase.begun (h.trimmed page) rest).1 :=
            .hand hp hb (Phase.isClosed_begun _) nofun
          rw [hv, hc]
          exact .head hmove (drain_moves _).leaping

/-- A leap takes a page away if there is one, and all of them if it comes to nothing. -/
theorem pageCount_leap (h : HalfStream) :
    (0 < h.pageCount → h.leap.value.1.pageCount < h.pageCount) ∧
      (h.leap.value.2 = false → h.leap.value.1.pageCount = 0) := by
  generalize hp : h.pages = pages
  induction pages generalizing h with
  | nil =>
      have hzero : h.pageCount = 0 := by rw [pageCount, hp, List.length_nil]
      rw [(leap_of_nil hp).1, hzero]
      exact ⟨fun h => h, fun _ => rfl⟩
  | cons page rest ih =>
      have hcount : h.pageCount = rest.length + 1 := by rw [pageCount, hp, List.length_cons]
      cases hb : h.isBehind page with
      | true =>
          have hle : ({ h with pages := rest } : HalfStream).leap.value.1.pageCount ≤ rest.length :=
            (leap_moves { h with pages := rest }).pageCount_le
          rw [(leap_of_behind hp hb).1, hcount]
          exact ⟨fun _ => Nat.lt_succ_of_le hle, (ih { h with pages := rest } rfl).2⟩
      | false =>
          have hle : (h.turn h.phase.begun (h.trimmed page) rest).1.drain.value.pageCount
              ≤ rest.length := (drain_moves _).pageCount_le
          rw [(leap_of_front hp hb).1, hcount]
          exact ⟨fun _ => Nat.lt_succ_of_le hle, nofun⟩

/-! ## Closing -/

/-- Sweeping over pages is a sequence of moves of the half-stream that still holds them, and leaves
it without any. -/
theorem sweep_moves (h : HalfStream) (pages : List Page) (hp : h.pages = []) :
    Moves true { h with pages } (h.sweep pages).chunks (h.sweep pages).value ∧
      (h.sweep pages).value.pages = [] := by
  induction pages generalizing h with
  | nil =>
      obtain ⟨direction, phase, next, pages, startDue, skipDue, counters⟩ := h
      subst hp
      exact ⟨.refl _, rfl⟩
  | cons page rest ih =>
      cases hb : h.isBehind page with
      | true =>
          obtain ⟨hm, hv⟩ := ih h hp
          have hsweep : (h.sweep (page :: rest)).chunks = (h.sweep rest).chunks ∧
              (h.sweep (page :: rest)).value = (h.sweep rest).value := by
            cases hn : h.next with
            | none => rw [isBehind, hn] at hb; cases hb
            | some next =>
                rw [isBehind_some hn] at hb
                simp only [sweep, hn, hb, if_true, and_self]
          have hmove : Move true { h with pages := page :: rest } [] { h with pages := rest } :=
            .free (h := { h with pages := page :: rest }) rfl hb
          rw [hsweep.1, hsweep.2]
          exact ⟨.silent hmove hm, hv⟩
      | false =>
          -- what is left after the page was handed on has no page itself
          obtain ⟨hm, hv⟩ := ih (h.jump (h.trimmed page)).value hp
          have hmove : Move true { h with pages := page :: rest }
              (h.jump (h.trimmed page)).chunks
              { (h.jump (h.trimmed page)).value with pages := rest } :=
            .hand (h := { h with pages := page :: rest }) rfl hb (Phase.isClosed_begun _) nofun
          have hsweep : (h.sweep (page :: rest)).chunks = (h.jump (h.trimmed page)).chunks ++
                ((h.jump (h.trimmed page)).value.sweep rest).chunks ∧
              (h.sweep (page :: rest)).value =
                ((h.jump (h.trimmed page)).value.sweep rest).value := by
            cases hn : h.next with
            | none => simp only [sweep, hn, trimmed, Yield.andThen, and_self]
            | some next =>
                rw [isBehind_some hn] at hb
                simp only [sweep, hn, hb, Bool.false_eq_true, if_false, trimmed, Yield.andThen,
                  and_self]
          rw [hsweep.1, hsweep.2]
          exact ⟨.head hmove hm, hv⟩

/-- Closing is a sequence of moves after which no page waits, and then the end of the stream. -/
theorem close_moves (h : HalfStream) :
    ∃ h', Moves true h h.close.chunks h' ∧ h'.pages = [] ∧
      h.close.value = { h' with phase := .closed } := by
  obtain ⟨hm, hv⟩ := sweep_moves { h with pages := [] } h.pages rfl
  refine ⟨_, ?_, hv, rfl⟩
  simp only [close, Yield.andThen, List.append_nil]
  exact hm

/-! ## Giving a page up -/

/-- What a half-stream becomes that gives up its first page, with `rest` still waiting. -/
def lose (h : HalfStream) (page : Page) (rest : List Page) : HalfStream :=
  { h with
    pages := rest
    next := h.next.map fun next => if next.precedes page.stop then page.stop else next
    skipDue := h.skipDue || h.next.isSome
    counters := h.counters.addDiscard page.size }

theorem shed?_nil {h : HalfStream} (hp : h.pages = []) : h.shed? = none := by
  rw [shed?, hp]

theorem shed?_cons {h : HalfStream} {page : Page} {rest : List Page} (hp : h.pages = page :: rest) :
    h.shed? = some
      { value := h.lose page rest, freed := [page], notes := [.shed h.direction page.size page.seq] } := by
  rw [shed?, hp]
  rfl

/-- A half-stream that gives a page up gives up its first. -/
theorem shed?_some {h : HalfStream} {y : Yield HalfStream} (hy : h.shed? = some y) :
    ∃ page rest, h.pages = page :: rest ∧ y.value = h.lose page rest ∧ y.freed = [page] := by
  cases hp : h.pages with
  | nil =>
      rw [shed?_nil hp] at hy
      cases hy
  | cons page rest =>
      rw [shed?_cons hp] at hy
      obtain rfl := Option.some.inj hy
      exact ⟨page, rest, rfl, rfl, rfl⟩

end HalfStream
end TcpStreams
