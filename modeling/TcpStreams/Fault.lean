/-!
# Faults

What can go wrong around reassembly.  Reassembly itself does not fail: oddities of the traffic show
as marks on the chunks handed over.
-/

namespace TcpStreams

/-- Something that went wrong. -/
inductive Fault where
  /-- The configuration cannot be used, for the reason given. -/
  | unusableConfig (reason : String)
  /-- One connection may hold more pages than there are. -/
  | budgetMismatch (perConnection total : Nat)
  /-- The worker behind a queue is gone. -/
  | queueClosed
deriving DecidableEq

namespace Fault

/-- The wording of a fault. -/
def message : Fault → String
  | unusableConfig reason => "Invalid configuration: " ++ reason
  | budgetMismatch perConnection total =>
    s!"Per-connection page budget {perConnection} exceeds global budget {total}"
  | queueClosed => "Reassembly channel closed"

/-- Whether the fault lies in the configuration. -/
def isConfig : Fault → Bool
  | unusableConfig _ | budgetMismatch _ _ => true
  | queueClosed => false

end Fault

end TcpStreams
