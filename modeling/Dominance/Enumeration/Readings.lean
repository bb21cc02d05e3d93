import Dominance.Chart.Count
import Dominance.Enumeration.Machine
import Dominance.Log

/-!
# Readings

The readings of a chart are its solved forms, either one after the other or by position.
Both ways have an enumeration of their own, and each stays one solved form ahead of what was asked
for.

A chart in which no choice has to be made has one reading, which places nothing.
-/

namespace Dominance

/-! ## Enumerations -/

/-- An enumeration of the solved forms of a chart, one solved form ahead. -/
structure Enumeration where
  graph : Graph
  chart : Chart
  machine : Machine
  /-- The solved form to be returned next. -/
  ready : Option SolvedForm

namespace Enumeration

/-- Enumerates from the beginning. -/
def start (g : Graph) (c : Chart) : Enumeration :=
  let machine := (Machine.start c).advance g c
  let ready :=
    match machine.solvedForm? with
    | some form => some form
    | none => if machine.chose || machine.halt.isSome then none else some .empty
  { graph := g, chart := c, machine, ready }

/-- The next solved form, if there is one. -/
def next (e : Enumeration) : Option SolvedForm × Enumeration :=
  match e.ready with
  | none => (none, e)
  | some form =>
    let machine := e.machine.advance e.graph e.chart
    (some form, { e with machine, ready := machine.solvedForm? })

/-- Takes at most the given number of solved forms. -/
def take : (max : Nat) → Enumeration → List SolvedForm × Enumeration
  | 0, e => ([], e)
  | max + 1, e =>
    match e.next with
    | (none, e) => ([], e)
    | (some form, e) =>
      let (forms, e) := take max e
      (form :: forms, e)

/-- The record of a subgraph without splits, if the enumeration was stopped by one. -/
def warning? (e : Enumeration) : Option LogRecord :=
  match e.machine.halt with
  | some (.noSplit s) => some ⟨.warn, "no split in chart for subgraph " ++ s.render⟩
  | _ => none

/-- The fault by which the enumeration was stopped. -/
def fault? (e : Enumeration) : Option Fault :=
  match e.machine.halt with
  | some (.fault fault) => some fault
  | _ => none

end Enumeration

/-! ## Readings -/

/-- The solved forms of a chart, in sequence and by position. -/
structure Readings where
  /-- The enumeration behind `next`. -/
  sequence : Enumeration
  /-- The enumeration behind `get`. -/
  lookup : Enumeration
  /-- The solved forms that `lookup` has returned. -/
  found : Array SolvedForm := #[]
  /-- The records made so far. -/
  log : List LogRecord := []

namespace Readings

/-- The record that a step of an enumeration has made. -/
def news (before after : Enumeration) : List LogRecord :=
  match before.warning? with
  | some _ => []
  | none => after.warning?.toList

/-- The readings of a chart of a graph. -/
def start (g : Graph) (c : Chart) : Readings :=
  let e := Enumeration.start g c
  { sequence := e, lookup := e, log := e.warning?.toList ++ e.warning?.toList }

/-- Whether there is a next solved form. -/
def hasNext (r : Readings) : Bool := r.sequence.ready.isSome

/-- The next solved form, if there is one. -/
def next (r : Readings) : Option SolvedForm × Readings :=
  let (form, sequence) := r.sequence.next
  (form, { r with sequence, log := r.log ++ news r.sequence sequence })

/-- Takes at most the given number of solved forms. -/
def take (max : Nat) (r : Readings) : List SolvedForm × Readings :=
  let (forms, sequence) := r.sequence.take max
  (forms, { r with sequence, log := r.log ++ news r.sequence sequence })

/-- A number of solved forms that nobody can go through, the 64th power of two. -/
def beyondReach : Nat := 18446744073709551616

/-- Takes all solved forms that are left. There are no more of them than the chart counts, unless
the chart refers to itself in a circle; then they may go on without end. -/
def rest (r : Readings) : List SolvedForm × Readings :=
  r.take (max r.sequence.chart.count.1 beyondReach)

/-- The solved form at a position, if there are that many. -/
def get (r : Readings) (position : Nat) : Option SolvedForm × Readings :=
  let (forms, lookup) := r.lookup.take (position + 1 - r.found.size)
  let found := r.found ++ forms.toArray
  (found[position]?, { r with lookup, found, log := r.log ++ news r.lookup lookup })

/-- The fault by which one of the enumerations was stopped. -/
def fault? (r : Readings) : Option Fault := r.sequence.fault?.or r.lookup.fault?

end Readings

end Dominance
