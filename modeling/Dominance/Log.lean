/-!
# Log records

What the program reports besides its results: records with a level, and thresholds that let records
through.
-/

namespace Dominance

/-- How grave a record is. -/
inductive Level where
  | error
  | warn
  | info
  | debug
  | trace
deriving DecidableEq, Repr

namespace Level

/-- The name of a level in front of a record. -/
def title : Level → String
  | .error => "ERROR"
  | .warn => "WARN"
  | .info => "INFO"
  | .debug => "DEBUG"
  | .trace => "TRACE"

/-- Levels by gravity, the gravest first. -/
def rank : Level → Nat
  | .error => 1
  | .warn => 2
  | .info => 3
  | .debug => 4
  | .trace => 5

end Level

/-- A record of the log. -/
structure LogRecord where
  level : Level
  message : String
deriving DecidableEq, Repr

/-- The least grave level that passes; `off` lets nothing through. -/
inductive Threshold where
  | off
  | upTo (level : Level)
deriving DecidableEq, Repr

namespace Threshold

/-- Whether a record passes. -/
def passes : Threshold → LogRecord → Bool
  | .off, _ => false
  | .upTo level, record => record.level.rank ≤ level.rank

/-- The thresholds by name. -/
def named : List (String × Threshold) :=
  [("trace", .upTo .trace), ("debug", .upTo .debug), ("info", .upTo .info),
   ("warn", .upTo .warn), ("error", .upTo .error), ("off", .off)]

/-- The threshold with a given name. -/
def ofName? (name : String) : Option Threshold := named.lookup name

end Threshold

end Dominance
