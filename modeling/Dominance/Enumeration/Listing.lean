import Dominance.Enumeration.Machine

/-!
# All solved forms at once

The solved forms of a chart by plain recursion on the agenda, in the order of the enumeration: a
subgraph with one root adds a link to every solution of the rest of the agenda, and any other
subgraph is split in each of its ways in turn.

This needs time and space for all solved forms together; it says what the enumeration goes through
one by one.

## Termination

The recursion unfolds one entry of the agenda at each level, as `Machine.descend` does, and has the
same bound.
-/

namespace Dominance

namespace Graph

/-- The links to the components of a split that have one root. -/
def settled (g : Graph) (split : Split) : List Link :=
  split.parts.filterMap fun part =>
    (g.soleRoot? part.component).map fun root => ⟨part.dominator, root⟩

/-- The components of a split that have to be split in turn, the last one first. -/
def unsettled (g : Graph) (split : Split) : List Pending :=
  ((split.parts.filter fun part => (g.soleRoot? part.component).isNone).map fun part =>
    { dominator := some part.dominator, subgraph := part.component }).reverse

end Graph

namespace Chart

/-- The links of each solution of an agenda, unfolding at most the given number of entries. -/
def solutions (c : Chart) (g : Graph) : (steps : Nat) → List Pending → List (List Link)
  | _, [] => [[]]
  | 0, _ :: _ => []
  | steps + 1, entry :: agenda =>
    match g.soleRoot? entry.subgraph with
    | some root =>
      (c.solutions g steps agenda).map (Machine.linksTo entry.dominator root ++ ·)
    | none =>
      (c.splitsFor entry.subgraph).flatMap fun split =>
        (c.solutions g steps (g.unsettled split ++ agenda)).map
          (Machine.linksTo entry.dominator split.root ++ g.settled split ++ ·)

/-- The solved forms of the chart, in the order of enumeration. -/
def listing (c : Chart) (g : Graph) : List SolvedForm :=
  (c.solutions g (c.toplevel.length * c.unfolding) (Machine.start c).agenda).map SolvedForm.ofLinks

end Chart

end Dominance
