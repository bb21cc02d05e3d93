import Dominance.Chart.Removal
import Dominance.Split.Source

/-!
# Thinning a chart

A preference is applied to a filled chart: from the top-level subgraphs down, every subgraph keeps
the splits that the preference accepts, or its first split if it accepts none.
Subgraphs that are no longer referred to disappear on the way.

A subgraph is judged once.
Subgraphs wait to be judged; those reached are taken last first.

## Termination

Judging a subgraph takes it off the waiting list.
-/

namespace Dominance.Chart

variable {σ : Type}

theorem length_erase_lt {s : Subgraph} {waiting : List Subgraph} (h : s ∈ waiting) :
    (waiting.erase s).length < waiting.length := by
  have := List.length_pos_of_mem h
  rw [List.length_erase_of_mem h]
  omega

/-- The pending subgraphs, from the first one on that waits to be judged and has splits. -/
def toJudge (c : Chart) (waiting pending : List Subgraph) : List Subgraph :=
  pending.dropWhile fun s => !(waiting.contains s && c.hasSplits s)

theorem mem_of_toJudge_eq_cons {c : Chart} {waiting pending rest : List Subgraph} {s : Subgraph}
    (h : c.toJudge waiting pending = s :: rest) : s ∈ waiting := by
  unfold toJudge at h
  have := List.head?_dropWhile_not (fun s => !(waiting.contains s && c.hasSplits s)) pending
  rw [h] at this
  simp only [List.head?_cons, Bool.not_eq_false', Bool.and_eq_true, List.contains_iff_mem] at this
  exact this.1

/-- Replaces the splits of a subgraph by a part of them; if it is all of them, nothing changes. -/
def keepOnly (c : Chart) (s : Subgraph) (kept : List Split) : Except ChartError Chart :=
  if kept.length < (c.splitsFor s).length then c.setSplits s kept else .ok c

/-- Judges the pending subgraphs and what is reached from them, as long as they wait for it. -/
def thinFrom (p : Preference σ) (pending waiting : List Subgraph) (memory : σ) (c : Chart) :
    Except ChartError (Chart × σ) :=
  match h : c.toJudge waiting pending with
  | [] => .ok (c, memory)
  | s :: rest =>
    have := length_erase_lt (mem_of_toJudge_eq_cons h)
    let (kept, memory) := p.narrow s memory (c.splitsFor s)
    match c.keepOnly s kept with
    | .error e => .error e
    | .ok c => thinFrom p ((componentsIn kept).reverse ++ rest) (waiting.erase s) memory c
termination_by waiting.length

/-- Applies a preference to the whole chart. -/
def thin (c : Chart) (p : Preference σ) (memory : σ) : Except ChartError (Chart × σ) :=
  thinFrom p c.toplevel.reverse c.subgraphs memory c

end Dominance.Chart
