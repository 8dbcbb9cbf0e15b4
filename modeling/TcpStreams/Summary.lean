import TcpStreams.Reassembly

/-!
# Summaries

One-line descriptions of a registry, an arena and a reassembler, field by field.
-/

namespace TcpStreams

/-- A record with its fields in braces. -/
def recordText (name : String) (fields : List (String × String)) : String :=
  let body := ", ".intercalate (fields.map fun (field, value) => field ++ ": " ++ value)
  name ++ " \x7b " ++ body ++ " \x7d"

/-- A span of whole seconds; none at all is counted in the smallest unit. -/
def secondsText (seconds : Nat) : String :=
  if seconds = 0 then "0ns" else toString seconds ++ "s"

/-- The description of a registry. -/
def Registry.summary (r : Registry) : String :=
  recordText "ConnectionPool" [("connections", toString r.size), ("tick", toString r.tick)]

/-- The description of a configuration. -/
def Config.summary (config : Config) : String :=
  let idle :=
    match config.idleTimeout with
    | none => "None"
    | some seconds => "Some(" ++ secondsText seconds ++ ")"
  recordText "AssemblerConfig"
    [("max_pages", toString config.totalPages),
     ("max_pages_per_connection", toString config.pagesPerConnection),
     ("idle_timeout", idle)]

/-- The description of a page without bytes. -/
def Page.summary (page : Page) : String :=
  recordText "Page" [("seq", "Seq(" ++ page.seq.text ++ ")"), ("buf", "b\"\"")]

/-- The description of an arena; the pages that wait in it hold no bytes. -/
def Arena.summary (arena : Arena) : String :=
  let free := "[" ++ ", ".intercalate (arena.free.map Page.summary) ++ "]"
  let inner :=
    recordText "PagePoolInner"
      [("free", free), ("in_use", toString arena.inUse), ("max_pages", toString arena.ceiling)]
  let guarded := "Mutex \x7b data: " ++ inner ++ ", poisoned: false, .. \x7d"
  recordText "PagePool" [("inner", guarded)]

/-- The description of a reassembler with this configuration. -/
def Reassembly.summary (config : Config) (s : Reassembly) : String :=
  recordText "Assembler"
    [("config", config.summary), ("pool", s.registry.summary), ("pages", s.arena.summary)]

end TcpStreams
