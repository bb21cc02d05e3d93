import Dominance.Chart.Basic
import Dominance.Graph.Checked
import Dominance.SolvedForm

/-!
# The enumeration machine

The machine walks through the solved forms of a chart one by one.
Its agenda lists the subgraphs that still need a split, the next one first; an entry remembers the
node that dominates its subgraph.
A choice records which splits of a subgraph were not tried yet, the links that follow from the split
tried now, and the agenda from which the choice was made.

* `descend` works the agenda off: a subgraph with one root only adds a link, any other is split in
  the first way, which opens a new choice
* `retry` goes back to the innermost choice with an untried split, and tries that
* once the agenda is empty, the links of all choices are a solved form

The machine halts for good when a subgraph has no split or is not one of the graph.

## Termination

`descend` unfolds the first split of each subgraph on the way, and no chain of components is longer
than the number of stored subgraphs, unless the chart refers to itself in a circle.
`Chart.unfolding` bounds the number of entries that one entry gives rise to.
-/

namespace Dominance

/-- A subgraph that needs a split, below a node or at the top level. -/
structure Pending where
  dominator : Option Nat
  subgraph : Subgraph
deriving DecidableEq

/-- The choice of a split for a subgraph. -/
structure Choice where
  dominator : Option Nat
  /-- The splits that were not tried yet. -/
  untried : List Split
  /-- The links that follow from the split tried now. -/
  links : List Link
  /-- The agenda from which the choice was made. -/
  agenda : List Pending
deriving DecidableEq

/-- Why the machine halts before the end. -/
inductive Halt where
  /-- The chart has no split for the subgraph. -/
  | noSplit (subgraph : Subgraph)
  /-- A subgraph is not one of the graph. -/
  | fault (fault : Fault)
  /-- The chart refers to itself in a circle. -/
  | endless
deriving DecidableEq

/-- The state of the enumeration. -/
structure Machine where
  agenda : List Pending
  /-- The choices made, the innermost first. -/
  choices : List Choice := []
  /-- Whether a choice was ever made. -/
  chose : Bool := false
  halt : Option Halt := none
deriving DecidableEq

/-- The most components that a split of the chart has. -/
def Chart.width (c : Chart) : Nat :=
  c.table.toList.foldl
    (fun widest entry => entry.2.foldl (fun widest split => max widest split.parts.length) widest) 0

/-- A bound on the agenda entries that one entry gives rise to, itself included. -/
def Chart.unfolding (c : Chart) : Nat := Nat.pow (c.width + 1) c.subgraphCount

namespace Machine

/-- The machine before its first step. -/
def start (c : Chart) : Machine where
  agenda := c.toplevel.map fun s => { dominator := none, subgraph := s }

/-- The machine halted for a reason. -/
def stop (m : Machine) (reason : Halt) : Machine :=
  { m with agenda := [], choices := [], halt := some reason }

/-- The link from a dominator to a root. -/
def linksTo (dominator : Option Nat) (root : Nat) : List Link :=
  match dominator with
  | some d => [⟨d, root⟩]
  | none => []

/-- Adds links to the innermost choice. -/
def addLinks (links : List Link) : List Choice → List Choice
  | [] => []
  | choice :: outer => { choice with links := choice.links ++ links } :: outer

/-- Goes through the parts of a split: a component with one root becomes a link, any other goes to
the front of the agenda. -/
def expand (g : Graph) : List Part → List Pending → Except Fault (List Link × List Pending)
  | [], agenda => .ok ([], agenda)
  | part :: parts, agenda =>
    match g.soleRootOf part.component with
    | .error fault => .error fault
    | .ok (some root) =>
      match expand g parts agenda with
      | .error fault => .error fault
      | .ok (links, agenda) => .ok (⟨part.dominator, root⟩ :: links, agenda)
    | .ok none => expand g parts (⟨some part.dominator, part.component⟩ :: agenda)

/-- Tries a split, leaving others untried. -/
def enter (g : Graph) (m : Machine) (dominator : Option Nat) (split : Split)
    (untried : List Split) (agenda : List Pending) (outer : List Choice) : Machine :=
  match expand g split.parts agenda with
  | .error fault => m.stop (.fault fault)
  | .ok (links, next) =>
    { m with
      agenda := next
      choices := ⟨dominator, untried, linksTo dominator split.root ++ links, agenda⟩ :: outer
      chose := true }

/-- Deals with one entry of the agenda. -/
def stepDown (g : Graph) (c : Chart) (m : Machine) (entry : Pending) (agenda : List Pending) :
    Machine :=
  match g.soleRootOf entry.subgraph with
  | .error fault => m.stop (.fault fault)
  | .ok (some root) =>
    { m with agenda, choices := addLinks (linksTo entry.dominator root) m.choices }
  | .ok none =>
    match c.splitsFor entry.subgraph with
    | [] => m.stop (.noSplit entry.subgraph)
    | split :: untried => enter g m entry.dominator split untried agenda m.choices

/-- Works the agenda off, in at most the given number of steps. -/
def descendWithin (g : Graph) (c : Chart) : (steps : Nat) → Machine → Machine
  | 0, m => if m.agenda.isEmpty then m else m.stop .endless
  | steps + 1, m =>
    match m.agenda with
    | [] => m
    | entry :: agenda => descendWithin g c steps (stepDown g c m entry agenda)

/-- Works the agenda off. -/
def descend (g : Graph) (c : Chart) (m : Machine) : Machine :=
  descendWithin g c (m.agenda.length * c.unfolding) m

/-- Tries the next split of the innermost choice that has one; there may be none. -/
def retry (g : Graph) (m : Machine) : List Choice → Machine
  | [] => { m with agenda := [], choices := [] }
  | choice :: outer =>
    match choice.untried with
    | [] => retry g m outer
    | split :: untried => enter g m choice.dominator split untried choice.agenda outer

/-- Goes on to the next solved form. -/
def advance (g : Graph) (c : Chart) (m : Machine) : Machine :=
  match m.agenda with
  | [] => descend g c (retry g m m.choices)
  | _ :: _ => descend g c m

/-- The solved form at which the machine stands, if it stands at one. -/
def solvedForm? (m : Machine) : Option SolvedForm :=
  match m.choices with
  | [] => none
  | choices => some (.ofLinks (choices.reverse.flatMap (·.links)))

end Machine

end Dominance
