import Dominance.Chart.Fill
import Dominance.Clause.Read
import Dominance.Clause.Write
import Dominance.Command.Files
import Dominance.Command.Number
import Dominance.Command.Request
import Dominance.Enumeration.Readings
import Dominance.Graph.Compact
import Dominance.Graph.Property

/-!
# Carrying out requests

A request produces output and log records, in a certain order, and ends well or with an error.
The files of the system are given as a function, so that carrying out a request is a computation
without effects.
-/

namespace Dominance.Command

/-! ## Runs -/

/-- Something that a run produces. -/
inductive Event where
  | output (text : String)
  | record (record : LogRecord)
deriving DecidableEq, Repr

/-- A computation that produces events and may end with an error, the outermost context first. -/
abbrev Run := ExceptT (List String) (StateM (List Event))

namespace Run

/-- Writes to the output. -/
def output (text : String) : Run Unit := modify (· ++ [.output text])

/-- Makes a record. -/
def record (record : LogRecord) : Run Unit := modify (· ++ [.record record])

/-- Makes a record of level `info`. -/
def info (message : String) : Run Unit := record ⟨.info, message⟩

/-- Makes a record of level `warn`. -/
def warn (message : String) : Run Unit := record ⟨.warn, message⟩

/-- Writes a document to the output. -/
def document (d : Document) : Run Unit := output d.text

end Run

/-! ## Input -/

/-- Reads the graph of a file. -/
def readGraph (files : Files) (path : String) : Run Graph := do
  let opened (full : String) (reading : Reading) : Run Graph := do
    Run.info ("reading input file " ++ Text.quoted full)
    reading.warnings.forM fun w =>
      Run.warn ("at line " ++ w.line.repr ++ ": " ++ w.caution.message)
    match reading.result with
    | .error e => throw e.chain
    | .ok g =>
      Run.info ("the dominance graph has " ++ g.size.repr ++ " node(s) and "
        ++ g.edges.length.repr ++ " edge(s)")
      return g
  match files path with
  | .missing reason => throw ["while opening file \"" ++ path ++ "\"", reason]
  | .sealed full reason => do
    Run.info ("reading input file " ++ Text.quoted full)
    throw ["while opening file " ++ Text.quoted full, reason]
  | .unreadable full reason => opened full (Graph.readFrom {} 0 [.error (.broken reason)])
  | .contents full bytes => opened full (Graph.readBytes bytes)

/-- Makes the graph compact if it can be and is allowed to be. -/
def prepare (compactify : Bool) (g : Graph) : Run Graph := do
  if g.isCompact then
    return g
  else if !g.isCompactifiable then
    Run.warn "the graph is neither compact nor compactifiable"
    return g
  else if !compactify then
    Run.info "the graph is not compact; compactification is disabled"
    return g
  else
    match g.compactify with
    -- A simple graph has a root above every node.
    | .error _ => return g
    | .ok c =>
      Run.info ("compactified the graph to " ++ c.size.repr ++ " node(s) and "
        ++ c.edges.length.repr ++ " edge(s)")
      return c

/-- Reads and prepares the graph of a file. -/
def input (files : Files) (path : String) (compactify : Bool) : Run Graph := do
  prepare compactify (← readGraph files path)

/-- Solves a graph, with a record of the outcome. -/
def solve (g : Graph) : Run (Option Chart) := do
  let filling := g.solving
  Run.record filling.report
  return filling.chart?

/-- The size of a chart in words. -/
def sizeOf (c : Chart) : String :=
  "the chart has " ++ c.size.repr ++ " split(s) for " ++ c.subgraphCount.repr ++ " subgraph(s)"

/-! ## Tasks -/

/-- The name and version of the program. -/
def title : String := "domchart 0.1.0"

/-- The authors of the program. -/
def authors : String := "Domchart developers"

/-- Displays a chart. -/
def runChart (g : Graph) : Run Unit := do
  match ← solve g with
  | none =>
    Run.warn "the graph is unsolvable"
    Run.document unsolvableDocument
  | some c =>
    Run.info (sizeOf c ++ " and represents " ++ c.count.1.repr ++ " solved form(s)")
    Run.document (g.chartDocument c)

/-- Displays the properties of a graph. -/
def runCheck (g : Graph) : Run Unit :=
  Property.all.forM fun p =>
    Run.output (p.title ++ ": " ++ (if g.has p then "yes" else "no") ++ "\n")

/-- Displays whether a graph has solved forms, and how many. -/
def runSolvable (g : Graph) : Run Unit := do
  match ← solve g with
  | none => Run.document unsolvableDocument
  | some c =>
    Run.info (sizeOf c)
    Run.document (solvableDocument c.count.1)

/-- Reads the maximal number of solved forms. -/
def readMax : Option String → Run (Option Nat)
  | none => return none
  | some text =>
    match readNumber text with
    | .ok n => return some n
    | .error e =>
      throw ["invalid maximal number of solved forms: " ++ Text.quoted text, e.message]

/-- Displays solved forms of a graph, or their number. -/
def runSolve (g : Graph) (max : Option Nat) (countOnly : Bool) : Run Unit := do
  match ← solve g with
  | none =>
    Run.info "the graph is unsolvable"
    Run.document unsolvableDocument
  | some c =>
    let count := c.count.1
    Run.info ("the graph has " ++ count.repr ++ " solved form(s)")
    if countOnly then
      Run.output (count.repr ++ "\n")
    else
      let readings := Readings.start g c
      let (forms, readings) :=
        match max with
        | some n => readings.take n
        | none => readings.rest
      readings.log.forM Run.record
      forms.forM fun form => Run.document (g.solvedFormDocument form)
      Run.info ("displayed " ++ forms.length.repr ++ " solved form(s)")

/-- Carries out a task. -/
def runTask (files : Files) : Task → Run Unit
  | .authors => Run.output (title ++ "\n" ++ authors ++ "\n")
  | .chart path compactify => do runChart (← input files path compactify)
  | .check path => do runCheck (← readGraph files path)
  | .solvable path compactify => do runSolvable (← input files path compactify)
  | .solve path compactify max countOnly => do
    let max ← readMax max
    runSolve (← input files path compactify) max countOnly

/-! ## Reports -/

/-- What a command line leads to. -/
structure Report where
  exitCode : Nat
  events : List Event
deriving DecidableEq, Repr

namespace Report

/-- Whether an event is shown: output always, a record if it passes the threshold. -/
def isShown (threshold : Threshold) : Event → Bool
  | .output _ => true
  | .record record => threshold.passes record

/-- What an event shows beside the line of a log record: the output itself, or the further lines of
a message that has several. -/
def besideLog : Event → String
  | .output text => text
  | .record record => ((Text.afterHeadline record.message).map (· ++ "\n")).getD ""

/-- The record that an event shows on the line of a log record. -/
def onLog? : Event → Option LogRecord
  | .output _ => none
  | .record record => some { record with message := Text.headline record.message }

/-- All that is shown beside the lines of log records. -/
def output (r : Report) : String := String.join (r.events.map besideLog)

/-- The log records as far as they are shown on their lines. -/
def log (r : Report) : List LogRecord := r.events.filterMap onLog?

end Report

/-- The records of an error. -/
def errorEvents : List String → List Event
  | [] => []
  | message :: causes =>
    .record ⟨.error, "an error occurred: " ++ message⟩
      :: causes.map fun cause => .record ⟨.error, "caused by: " ++ cause⟩

/-- The record that opens every run. -/
def opening : Event := .record ⟨.info, title⟩

/-- The record that closes every run that ends well. -/
def closing : Event := .record ⟨.info, "exiting successfully after"⟩

/-- The help text, a record for each line. -/
def helpEvents : List Event :=
  let lines := [title, "usage: domchart <SUBCOMMAND> [OPTIONS]"]
    ++ Verb.all.map fun v =>
      v.word ++ ": " ++ v.summary ++ " (" ++ String.intercalate ", " (v.switches.map (·.usage)) ++ ")"
  (lines ++ [""]).map fun line => Event.record ⟨.info, line⟩

/-- Carries out a request. -/
def runRequest (files : Files) (r : Request) : Report :=
  let (result, events) := (runTask files r.task).run.run [opening]
  let (exitCode, events) :=
    match result with
    | .ok () => (0, events ++ [closing])
    | .error chain => (1, events ++ errorEvents chain)
  { exitCode, events := events.filter (Report.isShown r.threshold) }

/-- Carries out a command line. -/
def run (files : Files) (arguments : List String) : Report :=
  match readRequest arguments with
  | .ok request => runRequest files request
  | .error .help =>
    { exitCode := 0, events := helpEvents ++ [closing] }
  | .error (.error e) => { exitCode := 1, events := opening :: errorEvents [e.message] }

end Dominance.Command
