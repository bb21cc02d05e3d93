import Dominance.Split.Basic
import Std.Data.TreeMap

/-!
# Charts

A chart stores splits of subgraphs.
Subgraphs can be shared: a component may occur in many splits, and is then stored once.
For every subgraph the chart counts the references to it, that is, its occurrences as a component
of stored splits and as a top-level subgraph.
The chart also knows how many splits it stores, and remembers the numbers of solved forms that were
computed since its last change.
-/

namespace Dominance

/-- Stored splits, the references between their subgraphs, and remembered counts. -/
structure Chart where
  /-- The splits of each subgraph; no subgraph is stored without splits. -/
  table : Std.TreeMap Subgraph (List Split) := ∅
  /-- How often each subgraph is referred to; a subgraph without references is not listed. -/
  references : Std.TreeMap Subgraph Nat := ∅
  /-- The top-level subgraphs, in the order of registration. -/
  toplevel : List Subgraph := []
  /-- The number of stored splits. -/
  size : Nat := 0
  /-- The numbers of solved forms that are known. -/
  counts : Std.TreeMap Subgraph Nat := ∅

namespace Chart

/-- The chart without splits. -/
def empty : Chart := {}

instance : Inhabited Chart := ⟨empty⟩

/-! ## Queries -/

/-- The splits of a subgraph, in the order in which they were added. -/
def splitsFor (c : Chart) (s : Subgraph) : List Split := c.table.getD s []

/-- Whether a subgraph has splits. -/
def hasSplits (c : Chart) (s : Subgraph) : Bool := !(c.splitsFor s).isEmpty

/-- The number of references to a subgraph. -/
def referenceCount (c : Chart) (s : Subgraph) : Nat := c.references.getD s 0

/-- The subgraphs that have splits, in ascending order. -/
def subgraphs (c : Chart) : List Subgraph := c.table.keys

/-- The number of subgraphs that have splits. -/
def subgraphCount (c : Chart) : Nat := c.table.size

/-! ## References -/

/-- One more reference to a subgraph. -/
def refer (references : Std.TreeMap Subgraph Nat) (s : Subgraph) : Std.TreeMap Subgraph Nat :=
  references.insert s (references.getD s 0 + 1)

/-- One reference to a subgraph less; the last one takes the subgraph off the list. -/
def release (references : Std.TreeMap Subgraph Nat) (s : Subgraph) :
    Std.TreeMap Subgraph Nat :=
  if references.getD s 0 ≤ 1 then references.erase s
  else references.insert s (references.getD s 0 - 1)

/-- One reference less to each listed subgraph. Also lists those that lost their last one. -/
def releaseAll (references : Std.TreeMap Subgraph Nat) :
    List Subgraph → List Subgraph × Std.TreeMap Subgraph Nat
  | [] => ([], references)
  | s :: rest =>
    let references := release references s
    let (freed, after) := releaseAll references rest
    (if references.getD s 0 = 0 then s :: freed else freed, after)

/-! ## Growth -/

/-- Adds a split behind the other splits of a subgraph. -/
def addSplit (c : Chart) (s : Subgraph) (split : Split) : Chart :=
  { c with
    table := c.table.insert s (c.splitsFor s ++ [split])
    references := split.components.foldl refer c.references
    size := c.size + 1
    counts := ∅ }

/-- Adds splits of a subgraph in the given order. -/
def addSplits (c : Chart) (s : Subgraph) (splits : List Split) : Chart :=
  splits.foldl (addSplit · s ·) c

/-- Registers a top-level subgraph. -/
def addToplevel (c : Chart) (s : Subgraph) : Chart :=
  { c with
    references := refer c.references s
    toplevel := c.toplevel ++ [s]
    counts := ∅ }

/-! ## What growth changes -/

theorem splitsFor_addSplit (c : Chart) (s t : Subgraph) (split : Split) :
    (c.addSplit s split).splitsFor t
      = if s = t then c.splitsFor t ++ [split] else c.splitsFor t := by
  simp only [splitsFor, addSplit, Std.TreeMap.getD_insert, Std.LawfulEqCmp.compare_eq_iff_eq]
  split
  · next h => rw [h]
  · rfl

theorem splitsFor_addSplits (c : Chart) (s t : Subgraph) (splits : List Split) :
    (c.addSplits s splits).splitsFor t
      = if s = t then c.splitsFor t ++ splits else c.splitsFor t := by
  unfold addSplits
  induction splits generalizing c with
  | nil => simp
  | cons split splits ih =>
    rw [List.foldl_cons, ih, splitsFor_addSplit]
    split <;> simp

@[simp]
theorem splitsFor_addToplevel (c : Chart) (s t : Subgraph) :
    (c.addToplevel s).splitsFor t = c.splitsFor t := rfl

@[simp]
theorem toplevel_addSplits (c : Chart) (s : Subgraph) (splits : List Split) :
    (c.addSplits s splits).toplevel = c.toplevel := by
  unfold addSplits
  induction splits generalizing c with
  | nil => rfl
  | cons split splits ih => exact ih _

theorem hasSplits_iff {c : Chart} {s : Subgraph} : c.hasSplits s = true ↔ c.splitsFor s ≠ [] := by
  simp [hasSplits]

/-! ## Text -/

/-- One line for each split, by a given spelling of a node. -/
def renderLine (spell : Nat → String) (s : Subgraph) (split : Split) : String :=
  s.renderWith spell ++ " -> " ++ split.renderWith spell

/-- All splits by number, a line for each. -/
def render (c : Chart) : String :=
  String.join <| c.table.toList.flatMap fun entry =>
    entry.2.map fun split => renderLine Nat.repr entry.1 split ++ "\n"

end Chart

end Dominance
