import Dominance.Chart.Basic
import Std.Data.TreeSet

/-!
# Removing splits

A subgraph that is referred to must not lose all its splits.
When splits are removed, the components below them lose references; a component that loses its last
reference is removed with its own splits, and so on down.

## Termination

Each step of the cascade removes an entry of the table.
-/

namespace Dominance

/-- Why a chart refuses a removal. -/
inductive ChartError where
  /-- The subgraph is still referred to. -/
  | stillReferenced (subgraph : Subgraph) (references : Nat)
deriving DecidableEq

/-- The message of an error. -/
def ChartError.message : ChartError → String
  | .stillReferenced s n =>
    "subgraph " ++ s.render ++ " is still referenced " ++ n.repr ++ " time(s)"

namespace Chart

/-- The components of splits, in order. -/
def componentsIn (splits : List Split) : List Subgraph := splits.flatMap Split.components

/-- Takes the splits off a subgraph. Also lists the subgraphs that lost their last reference. -/
def detach (c : Chart) (s : Subgraph) : List Subgraph × Chart :=
  let splits := c.splitsFor s
  let (freed, references) := releaseAll c.references (componentsIn splits)
  (freed, { c with
    table := c.table.erase s
    references
    size := c.size - splits.length })

theorem table_detach (c : Chart) (s : Subgraph) : (c.detach s).2.table = c.table.erase s := rfl

theorem size_table_detach_lt {c : Chart} {s : Subgraph} (h : c.table.contains s = true) :
    (c.detach s).2.table.size < c.table.size := by
  rw [table_detach, Std.TreeMap.size_erase, if_pos h]
  have : c.table.size ≠ 0 := by
    intro h0
    have hempty : c.table.isEmpty = true := by
      simp [Std.TreeMap.isEmpty_eq_size_eq_zero, h0]
    rw [Std.TreeMap.contains_of_isEmpty hempty] at h
    exact Bool.noConfusion h
  omega

/-- The subgraphs to be removed, from the first one on that is stored. -/
def stored (c : Chart) (doomed : List Subgraph) : List Subgraph :=
  doomed.dropWhile fun s => !c.table.contains s

theorem contains_of_stored_eq_cons {c : Chart} {doomed rest : List Subgraph} {s : Subgraph}
    (h : c.stored doomed = s :: rest) : c.table.contains s = true := by
  unfold stored at h
  have := List.head?_dropWhile_not (fun s => !c.table.contains s) doomed
  rw [h] at this
  simpa using this

/-- Removes the listed subgraphs, none of which is referred to, and all that loses its last
reference by that. -/
def cascade (c : Chart) (doomed : List Subgraph) : Chart :=
  match h : c.stored doomed with
  | [] => c
  | s :: rest =>
    have := size_table_detach_lt (contains_of_stored_eq_cons h)
    (c.detach s).2.cascade ((c.detach s).1.reverse ++ rest)
termination_by c.table.size

/-- The components of splits to which nothing refers, each once and the greatest first. -/
def unreferencedIn (c : Chart) (splits : List Split) : List Subgraph :=
  (Std.TreeSet.ofList (componentsIn splits)).toList.reverse.filter fun w => c.referenceCount w = 0

theorem mem_unreferencedIn {c : Chart} {splits : List Split} {w : Subgraph} :
    w ∈ c.unreferencedIn splits ↔ w ∈ componentsIn splits ∧ c.referenceCount w = 0 := by
  rw [unreferencedIn, List.mem_filter, List.mem_reverse, Std.TreeSet.mem_toList,
    Std.TreeSet.mem_ofList, List.contains_iff_mem, decide_eq_true_eq]

/-- Removes a subgraph to which nothing refers. -/
def delete (c : Chart) (s : Subgraph) : Except ChartError Chart :=
  if 0 < c.referenceCount s then .error (.stillReferenced s (c.referenceCount s))
  else .ok { c.cascade [s] with counts := ∅ }

/-- Replaces the splits of a subgraph. -/
def setSplits (c : Chart) (s : Subgraph) (splits : List Split) : Except ChartError Chart :=
  if splits.isEmpty ∧ 0 < c.referenceCount s then
    .error (.stillReferenced s (c.referenceCount s))
  else
    let replaced := (c.detach s).2.addSplits s splits
    .ok { replaced.cascade (replaced.unreferencedIn (c.splitsFor s)) with counts := ∅ }

end Chart

end Dominance
