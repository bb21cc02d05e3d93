import Dominance.Chart.Basic
import Dominance.Log
import Dominance.Split.Source

/-!
# Filling a chart

Solving a graph fills a chart with the splits of its components, of the components of these splits,
and so on down to subgraphs with a single root, which need no split.
A subgraph that has splits already is not looked at again.
If a subgraph has more roots or none, and no free fragment, the graph has no solution and filling
stops at once.

Components are filled last first: the components that were found last are filled before those found
earlier.

## Termination

The top of a split holds its root, so that every component is smaller than the subgraph that was
split.
A depth of as many levels as the graph has nodes is never used up.
-/

namespace Dominance

/-- A chart that is being filled. -/
structure Filling (σ : Type) where
  chart : Chart
  /-- What the source of splits remembers. -/
  memory : σ
  /-- The subgraph that turned out to have no free fragment. -/
  stuck : Option Subgraph := none

namespace Filling

variable {σ : Type}

/-- Whether every subgraph could be split. -/
def solved (f : Filling σ) : Bool := f.stuck.isNone

/-- The chart, if every subgraph could be split. -/
def chart? (f : Filling σ) : Option Chart := if f.solved then some f.chart else none

/-- The outcome of a filling as a record. -/
def report (f : Filling σ) : LogRecord :=
  match f.stuck with
  | some s => ⟨.debug, "no free fragment in subgraph " ++ s.render⟩
  | none =>
    ⟨.debug, "chart filled with " ++ f.chart.size.repr ++ " split(s) for "
      ++ f.chart.subgraphCount.repr ++ " subgraph(s)"⟩

end Filling

namespace Graph

variable {σ : Type}

/-- Fills the chart from a subgraph down to a given depth. -/
def fill (g : Graph) (source : SplitSource σ) :
    (depth : Nat) → Subgraph → Filling σ → Filling σ
  | 0, _, f => f
  | depth + 1, s, f =>
    if f.stuck.isSome || f.chart.hasSplits s || (g.soleRoot? s).isSome then f
    else
      match source.answer f.memory s with
      | ([], memory) => { f with memory, stuck := some s }
      | (splits, memory) =>
        (splits.flatMap Split.components).foldr (fun w f => g.fill source depth w f)
          { f with memory, chart := f.chart.addSplits s splits }

/-- Registers the components of the graph in a chart and fills the chart from them. -/
def solveInto (g : Graph) (source : SplitSource σ) (memory : σ) (chart : Chart) : Filling σ :=
  g.wholeComponents.foldr (fun w f => g.fill source g.size w f)
    { chart := g.wholeComponents.foldl Chart.addToplevel chart, memory }

/-- The filling of a new chart with all splits of the graph. -/
def solving (g : Graph) : Filling Unit := g.solveInto (.complete g) () .empty

/-- The chart of all splits of the graph, if the graph has a solution. -/
def solve? (g : Graph) : Option Chart := g.solving.chart?

end Graph

end Dominance
