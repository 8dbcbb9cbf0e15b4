import TcpStreams.Fault

/-!
# Configuration

The page budgets of a reassembler and the time after which it counts a connection as idle.

* `Config.check_eq_ok_iff`: a configuration is accepted exactly if both budgets are positive and one
  connection may not hold more pages than there are.
-/

namespace TcpStreams

/-- The settings of a reassembler. -/
structure Config where
  /-- The pages that may wait in all connections together. -/
  totalPages : Nat := 16384
  /-- The number of waiting pages at which a connection leaps over its first gap. -/
  pagesPerConnection : Nat := 256
  /-- The seconds after which a connection counts as idle, or `none` if it never does. -/
  idleTimeout : Option Nat := some 120
deriving DecidableEq

namespace Config

/-- The idle timeout on the clock, which counts nanoseconds. -/
def idleSpan (config : Config) : Option Nat := config.idleTimeout.map (· * 1000000000)

/-- Refuses budgets that cannot be used. -/
def check (config : Config) : Except Fault Unit :=
  if config.totalPages = 0 then .error (.unusableConfig "max_pages must be non-zero")
  else if config.pagesPerConnection = 0 then
    .error (.unusableConfig "max_pages_per_connection must be non-zero")
  else if config.totalPages < config.pagesPerConnection then
    .error (.budgetMismatch config.pagesPerConnection config.totalPages)
  else .ok ()

theorem check_eq_ok_iff (config : Config) :
    config.check = .ok () ↔
      0 < config.pagesPerConnection ∧ config.pagesPerConnection ≤ config.totalPages := by
  unfold check
  split
  · simp; omega
  · split
    · simp; omega
    · split
      · simp; omega
      · simp; omega

end Config

end TcpStreams
