import TcpStreams.Reassembly.Action
import TcpStreams.Session.Timeline
import TcpStreams.Summary

/-!
# Sessions

Several reassemblers at work side by side.  Each has a configuration, a registry and an arena; any of
them may share either with others, and either may also be used directly.  A session performs one
command after the other and reports what each led to.

* `Session.start` sets the reassemblers up, each with an arena of its own unless it names one.
* `Session.step` performs one command.
* `Session.run` performs several.
-/

namespace TcpStreams

/-- A reassembler of a session. -/
structure Reassembler where
  /-- Its settings. -/
  config : Config
  /-- The index of its registry. -/
  registry : Nat
  /-- The index of its arena. -/
  arena : Nat

/-- What a reassembler is set up from. -/
structure Setup where
  /-- Its settings. -/
  config : Config := {}
  /-- The index of its registry. -/
  registry : Nat := 0
  /-- The index of its arena, or `none` for one of its own. -/
  arena : Option Nat := none

/-- Several reassemblers and what they work on. -/
structure Session where
  /-- The registries. -/
  registries : List Registry
  /-- The arenas. -/
  arenas : List Arena
  /-- The reassemblers. -/
  reassemblers : List Reassembler := []
  /-- The number of the next stream, whichever registry it belongs to. -/
  nextStream : Nat := 0
  /-- The pages taken directly, by slot; a slot is empty if no page was to be had or it was given
  back. -/
  slots : List (Option Page) := []
  /-- The clock. -/
  timeline : Timeline := {}

/-- A command of a session. -/
inductive Command where
  /-- A reassembler works a segment in, while some connections are in use elsewhere. -/
  | receive (reassembler : Nat) (locked : List FlowId) (path : Route) (segment : Segment)
  /-- A reassembler winds up every connection, in an order of choice. -/
  | flushAll (reassembler : Nat) (order : List FlowId := [])
  /-- A reassembler winds up the connections without activity since a mark. -/
  | flushOlder (reassembler mark : Nat)
  /-- A reassembler winds up the connections that were idle for too long. -/
  | flushIdle (reassembler : Nat)
  /-- The time is marked. -/
  | mark
  /-- Asks for the settings of a reassembler. -/
  | config (reassembler : Nat)
  /-- Asks how full the registry and the arena of a reassembler are. -/
  | usage (reassembler : Nat)
  /-- Asks for the description of a reassembler. -/
  | describe (reassembler : Nat)
  /-- Asks for the description of a registry. -/
  | describeRegistry (registry : Nat)
  /-- Looks a connection up, and opens it if need be. -/
  | lookUp (registry : Nat) (flow : FlowId) (src : Endpoint)
  /-- Asks for a connection. -/
  | find (registry : Nat) (flow : FlowId)
  /-- Takes a connection out unfinished; its pages go to an arena. -/
  | remove (registry arena : Nat) (flow : FlowId)
  /-- Asks for the direction of what an endpoint sends on a connection. -/
  | directionFrom (registry : Nat) (flow : FlowId) (src : Endpoint)
  /-- Asks whether a connection was opened before a mark. -/
  | openedBefore (registry : Nat) (flow : FlowId) (mark : Nat)
  /-- Asks for the conversations other than one, the least recently active first. -/
  | recent (registry : Nat) (flow : FlowId)
  /-- Asks for the conversations without activity since a mark. -/
  | idleFlows (registry mark : Nat)
  /-- Asks for the conversations in their own order. -/
  | flows (registry : Nat)
  /-- Asks for the number of connections. -/
  | size (registry : Nat)
  /-- Takes a page directly, into the next slot. -/
  | takePage (arena : Nat) (seq : SeqNum)
  /-- Gives the pages of some slots to an arena. -/
  | givePages (arena : Nat) (slots : List Nat)

/-- The reply to a command. -/
inductive Reply where
  /-- Nothing to tell. -/
  | nothing
  /-- A number. -/
  | number (n : Nat)
  /-- A yes or no. -/
  | flag (b : Bool)
  /-- A text. -/
  | text (s : String)
  /-- Settings. -/
  | config (c : Config)
  /-- The number of connections and the arena. -/
  | usage (connections : Nat) (arena : Arena)
  /-- A connection. -/
  | connection (c : Connection)
  /-- A direction. -/
  | direction (d : Direction)
  /-- Conversations. -/
  | flows (fs : List FlowId)
  /-- The number of connections. -/
  | size (n : Nat)
  /-- A page. -/
  | page (p : Page)
  /-- A consumer broke down. -/
  | failed (call : ConsumerCall)

/-- What a command led to. -/
structure Report where
  /-- The session after it. -/
  session : Session
  /-- The reply. -/
  reply : Reply := .nothing
  /-- What the consumers saw. -/
  events : List Event := []
  /-- The log records. -/
  notes : List Note := []

/-- The reply that an action's answer makes. -/
def Answer.reply : Answer → Reply
  | .done => .nothing
  | .count n => .number n
  | .connection c => .connection c
  | .found b => .flag b

/-- The consumers of which every call of one kind breaks down, and no other. -/
def ConsumerCall.breaks (call : Option ConsumerCall) (event : Event) : Bool :=
  call == some event.call

namespace Session

/-- Adds a reassembler, if its settings can be used. -/
def add (s : Session) (setup : Setup) : Except Fault Session :=
  match setup.config.check with
  | .error fault => .error fault
  | .ok () =>
    let arena := setup.arena.getD s.arenas.length
    let arenas :=
      match setup.arena with
      | some _ => s.arenas
      | none => s.arenas ++ [Arena.ofCeiling setup.config.totalPages]
    let reassembler := { config := setup.config, registry := setup.registry, arena }
    .ok { s with arenas, reassemblers := s.reassemblers ++ [reassembler] }

/-- A session with so many registries, arenas of the given ceilings, and reassemblers. -/
def start (registries : Nat) (ceilings : List Nat) (setups : List Setup) :
    Except Fault Session :=
  setups.foldlM add
    { registries := List.replicate registries {}, arenas := ceilings.map Arena.ofCeiling }

/-- The registry at an index; beyond the last one stands one without connections. -/
def registry (s : Session) (index : Nat) : Registry := s.registries.getD index {}

/-- The arena at an index; beyond the last one stands one without pages. -/
def arena (s : Session) (index : Nat) : Arena := s.arenas.getD index (Arena.ofCeiling 0)

/-- The state that a registry and an arena make. -/
def state (s : Session) (registry arena : Nat) : Reassembly where
  registry := s.registry registry
  arena := s.arena arena
  nextStream := s.nextStream

/-- Performs an action on a registry and an arena. -/
def perform (fails : Event → Bool) (s : Session) (registry arena : Nat) (action : Action) :
    Report :=
  let o := (s.state registry arena).perform fails s.timeline.now action
  { session :=
      { s with
        registries := s.registries.set registry o.state.registry
        arenas := s.arenas.set arena o.state.arena
        nextStream := o.state.nextStream }
    reply :=
      match o.result with
      | .ok answer => answer.reply
      | .error call => .failed call
    events := o.events
    notes := o.notes }

/-- Performs an action of a reassembler. -/
def performAs (fails : Event → Bool) (s : Session) (index : Nat) (action : Config → Action) :
    Report :=
  match s.reassemblers[index]? with
  | none => { session := s }
  | some r => s.perform fails r.registry r.arena (action r.config)

/-- Answers a question about a reassembler. -/
def askOf (s : Session) (index : Nat) (reply : Reassembler → Reply) : Report :=
  { session := s, reply := (s.reassemblers[index]?.map reply).getD .nothing }

/-- Answers a question about a connection; there is nothing to tell about one that does not exist. -/
def askAbout (s : Session) (registry : Nat) (flow : FlowId) (reply : Connection → Reply) :
    Report :=
  { session := s, reply := (((s.registry registry).find? flow).map reply).getD .nothing }

/-- Takes a page from an arena into the next slot. -/
def takePage (s : Session) (arena : Nat) (seq : SeqNum) : Report :=
  match (s.arena arena).take? seq with
  | none => { session := { s with slots := s.slots ++ [none] } }
  | some (page, left) =>
    { session := { s with arenas := s.arenas.set arena left, slots := s.slots ++ [some page] }
      reply := .page page }

/-- Gives the pages of some slots to an arena and counts them. -/
def givePages (s : Session) (arena : Nat) : List Nat → Session × Nat
  | [] => (s, 0)
  | slot :: rest =>
    match s.slots.getD slot none with
    | none => s.givePages arena rest
    | some page =>
      let given : Session :=
        { s with
          arenas := s.arenas.set arena ((s.arena arena).give page)
          slots := s.slots.set slot none }
      let (s, count) := given.givePages arena rest
      (s, count + 1)

/-- Performs a command at the time of the step under way. -/
def execute (fails : Event → Bool) (s : Session) : Command → Report
  | .receive r locked path segment =>
    s.performAs fails r fun config => .receive config locked path segment
  | .flushAll r order => s.performAs fails r fun _ => .flushAll order
  | .flushOlder r mark => s.performAs fails r fun _ => .flushBefore (s.timeline.timeOf mark)
  | .flushIdle r => s.performAs fails r .flushIdle
  | .mark =>
    let (timeline, index) := s.timeline.mark
    { session := { s with timeline }, reply := .number index }
  | .config r => s.askOf r fun r => .config r.config
  | .usage r => s.askOf r fun r => .usage (s.registry r.registry).size (s.arena r.arena)
  | .describe r => s.askOf r fun r => .text ((s.state r.registry r.arena).summary r.config)
  | .describeRegistry i => { session := s, reply := .text (s.registry i).summary }
  | .lookUp i flow src => s.perform fails i 0 (.lookUp flow src)
  | .find i flow => s.askAbout i flow .connection
  | .remove i arena flow => s.perform fails i arena (.remove flow)
  | .directionFrom i flow src => s.askAbout i flow fun c => .direction (c.directionFrom src)
  | .openedBefore i flow mark =>
    s.askAbout i flow fun c => .flag (decide (c.openedAt < s.timeline.timeOf mark))
  | .recent i flow => { session := s, reply := .flows ((s.registry i).flowsExcept flow) }
  | .idleFlows i mark =>
    { session := s, reply := .flows ((s.registry i).idleFlows (s.timeline.timeOf mark)) }
  | .flows i =>
    { session := s, reply := .flows ((s.registry i).sorted.map Connection.flow) }
  | .size i => { session := s, reply := .size (s.registry i).size }
  | .takePage arena seq => s.takePage arena seq
  | .givePages arena slots =>
    let (s, count) := s.givePages arena slots
    { session := s, reply := .number count }

/-- Performs a command; time moves on. -/
def step (fails : Event → Bool) (s : Session) (command : Command) : Report :=
  let report := s.execute fails command
  { report with
    session := { report.session with timeline := report.session.timeline.advance } }

/-- Performs commands in order, each with the consumers that break down in it. -/
def run (s : Session) : List ((Event → Bool) × Command) → List Report
  | [] => []
  | (fails, command) :: rest =>
    let report := s.step fails command
    report :: report.session.run rest

end Session

end TcpStreams
