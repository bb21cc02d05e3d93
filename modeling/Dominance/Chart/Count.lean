import Dominance.Chart.Basic

/-!
# Counting solved forms

A subgraph without splits has one solved form.
Any other has, for each of its splits, every combination of solved forms of the components.
A chart has every combination of solved forms of its top-level subgraphs.

`tally` is this recursion as it stands; `countWith` is the same with a memory of known counts.

## Termination

A chain of subgraphs in which each is a component of a split of the one before repeats no subgraph,
unless the chart refers to itself in a circle.
So the depth of the recursion is at most the number of stored subgraphs and one more.
-/

namespace Dominance.Chart

/-- Known numbers of solved forms. -/
abbrev Counts := Std.TreeMap Subgraph Nat

/-! ## Counting without memory -/

/-- The number of solved forms of a subgraph, down to a given depth. -/
def tallyWith (c : Chart) : (depth : Nat) → Subgraph → Nat
  | 0, _ => 0
  | depth + 1, s =>
    match c.splitsFor s with
    | [] => 1
    | splits =>
      (splits.map fun split => (split.components.map (c.tallyWith depth)).foldl (· * ·) 1).foldl
        (· + ·) 0

/-- The depth that suffices for a chart that does not refer to itself in a circle. -/
def depth (c : Chart) : Nat := c.subgraphCount + 1

/-- The number of solved forms of a subgraph. -/
def tally (c : Chart) (s : Subgraph) : Nat := c.tallyWith c.depth s

/-! ## Counting with memory -/

/-- Combines the counts of listed items, threading the memory from left to right. -/
def combine {α : Type} (step : α → Counts → Nat × Counts) (op : Nat → Nat → Nat) :
    Nat → List α → Counts → Nat × Counts
  | total, [], known => (total, known)
  | total, a :: rest, known =>
    let (n, known) := step a known
    combine step op (op total n) rest known

/-- The number of solved forms of a subgraph, down to a given depth, with a memory of counts. -/
def countWith (c : Chart) : (depth : Nat) → Subgraph → Counts → Nat × Counts
  | 0, _, known => (0, known)
  | depth + 1, s, known =>
    match known[s]? with
    | some n => (n, known)
    | none =>
      match c.splitsFor s with
      | [] => (1, known)
      | splits =>
        let product (split : Split) (known : Counts) : Nat × Counts :=
          combine (fun w known => c.countWith depth w known) (· * ·) 1 split.components known
        let (total, known) := combine product (· + ·) 0 splits known
        (total, known.insert s total)

/-- The number of solved forms of a subgraph, and the chart that remembers it. -/
def countFor (c : Chart) (s : Subgraph) : Nat × Chart :=
  let (n, counts) := c.countWith c.depth s c.counts
  (n, { c with counts })

/-- The number of solved forms of the chart, and the chart that remembers the counts on the way. -/
def count (c : Chart) : Nat × Chart :=
  let (n, counts) := combine (c.countWith c.depth) (· * ·) 1 c.toplevel c.counts
  (n, { c with counts })

end Dominance.Chart
