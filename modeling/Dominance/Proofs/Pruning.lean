import Dominance.Proofs.Anchoring
import Dominance.Proofs.Closure
import Dominance.Proofs.Thinning

/-!
# Thinning a chart and filling it by preference

A preference without memory can be applied before or after a chart is filled: the source of splits
can leave out what is not preferred, so that the rest is never stored, or the full chart can be
thinned, so that the rest is removed.
Both ways lead to the same chart.

When thinning comes to its end, everything still stored has been judged.
For the chart is anchored all the time: a stored subgraph is referred to, and so are those that
refer to it, up to the top.
And what is referred to from the top or from a judged subgraph is pending until it is judged.
So a thinned chart is the closure of the graph under the preferred splits, as is the chart that is
filled with them.

* `Judging` — what holds while a chart is thinned
* `Judging.step`, `Judging.closure` — judging a subgraph keeps it, and what it means in the end
* `Closure.agrees` — a closure determines the chart
* `thinning_agrees_with_preferring` — the two ways to apply a preference
-/

namespace Dominance

/-- The splits of a subgraph that pass a test, or its first split if none passes. -/
def Graph.preferredSplits (g : Graph) (test : Subgraph → Split → Bool) (s : Subgraph) :
    List Split :=
  ((Preference.ofTest test).narrow s () (g.splits s)).1

theorem SplitSource.steady_preferred (g : Graph) (test : Subgraph → Split → Bool) :
    (preferred g (.ofTest test)).Steady (g.preferredSplits test) := fun _ _ => rfl

namespace Chart

variable {c c' : Chart} {g : Graph} {answer : Subgraph → List Split} {s w : Subgraph}

/-! ## Charts with the same content -/

/-- Two charts have the same top-level subgraphs, and the same splits and numbers of references for
every subgraph. -/
structure Agrees (c c' : Chart) : Prop where
  toplevel : c.toplevel = c'.toplevel
  subgraphs : c.subgraphs = c'.subgraphs
  splitsFor : ∀ s, c.splitsFor s = c'.splitsFor s
  referenceCount : ∀ s, c.referenceCount s = c'.referenceCount s
  size : c.size = c'.size

/-- Since nothing is stored without splits, the splits determine the table. -/
theorem Consistent.table_equiv (h : c.Consistent) (h' : c'.Consistent)
    (hsplits : ∀ s, c.splitsFor s = c'.splitsFor s) : c.table.Equiv c'.table := by
  refine Std.TreeMap.Equiv.of_forall_constGet?_eq fun s => ?_
  have hs := hsplits s
  rw [splitsFor_eq, splitsFor_eq] at hs
  cases ht : c.table[s]? with
  | none =>
    cases ht' : c'.table[s]? with
    | none => rfl
    | some splits' =>
      simp only [ht, ht', Option.getD_none, Option.getD_some] at hs
      exact absurd hs.symm (h'.stored s splits' ht')
  | some splits =>
    cases ht' : c'.table[s]? with
    | none =>
      simp only [ht, ht', Option.getD_none, Option.getD_some] at hs
      exact absurd hs (h.stored s splits ht)
    | some splits' => simpa [ht, ht'] using hs

/-- **Consistent charts with the same top-level subgraphs and splits agree.** -/
theorem Consistent.agrees (h : c.Consistent) (h' : c'.Consistent)
    (htop : c.toplevel = c'.toplevel) (hsplits : ∀ s, c.splitsFor s = c'.splitsFor s) :
    c.Agrees c' := by
  have hequiv := h.table_equiv h' hsplits
  have htotal : ∀ f, c.total f = c'.total f := by
    intro f
    unfold total
    rw [hequiv.toList_eq]
  refine ⟨htop, hequiv.keys_eq, hsplits, fun s => ?_, ?_⟩
  · rw [h.counted, h'.counted, htop, occurrences, occurrences, htotal]
  · rw [h.size, h'.size, htotal]

/-- **A graph and the splits given for it determine the chart that is their closure.** -/
theorem Closure.agrees (h : c.Closure g answer) (h' : c'.Closure g answer) (hc : c.Consistent)
    (hc' : c'.Consistent) : c.Agrees c' := by
  refine hc.agrees hc' (h.toplevel.trans h'.toplevel.symm) fun s => ?_
  have hiff : c.hasSplits s = true ↔ c'.hasSplits s = true := by
    rw [h.stored_iff, h'.stored_iff]
  by_cases hs : c.hasSplits s = true
  · rw [h.given s hs, h'.given s (hiff.mp hs)]
  · have hs' : ¬c'.hasSplits s = true := fun hs' => hs (hiff.mpr hs')
    rw [hasSplits_iff, ne_eq, not_not] at hs hs'
    rw [hs, hs']

/-! ## Judging one subgraph after the other -/

/-- The subgraph waits to be judged, and is still stored. -/
def Unjudged (c : Chart) (waiting : List Subgraph) (w : Subgraph) : Prop :=
  w ∈ waiting ∧ c.hasSplits w = true

theorem mem_toJudge {waiting pending : List Subgraph} (h : w ∈ pending)
    (hw : c.Unjudged waiting w) : w ∈ c.toJudge waiting pending :=
  mem_dropWhile h (by simp [hw.1, hw.2])

/-- What holds while a full chart is thinned by a test. -/
structure Judging (g : Graph) (test : Subgraph → Split → Bool) (pending waiting : List Subgraph)
    (c : Chart) : Prop where
  consistent : c.Consistent
  complete : c.Complete g
  anchored : c.Anchored
  toplevel : c.toplevel = g.wholeComponents
  nodup : waiting.Nodup
  /-- What waits has all its splits. -/
  full : ∀ s, c.Unjudged waiting s → c.splitsFor s = g.splits s
  /-- What does not wait any more has the preferred splits. -/
  judged : ∀ s ∉ waiting, c.hasSplits s = true → c.splitsFor s = g.preferredSplits test s
  /-- What waits at the top is pending. -/
  top : ∀ s ∈ c.toplevel, c.Unjudged waiting s → s ∈ pending
  /-- What waits below a judged subgraph is pending. -/
  reached : ∀ t ∉ waiting, ∀ split ∈ c.splitsFor t, ∀ w ∈ split.components,
    c.Unjudged waiting w → w ∈ pending

namespace Judging

variable {test : Subgraph → Split → Bool} {pending waiting rest : List Subgraph}

/-- What is unjudged after a subgraph was judged was unjudged before. -/
theorem unjudged_of_erase (h : Judging g test pending waiting c)
    (helse : ∀ t, t ≠ s → c'.hasSplits t = true → c'.splitsFor t = c.splitsFor t)
    (hw : c'.Unjudged (waiting.erase s) w) : w ≠ s ∧ c.Unjudged waiting w := by
  obtain ⟨hws, hwaits⟩ := h.nodup.mem_erase_iff.mp hw.1
  refine ⟨hws, hwaits, ?_⟩
  rw [hasSplits, ← helse w hws hw.2]
  exact hw.2

/-- What is pending and stays unjudged is not passed over on the way to the judged subgraph. -/
theorem mem_rest (hjudge : c.toJudge waiting pending = s :: rest) (hw : w ≠ s)
    (hunjudged : c.Unjudged waiting w) (hpending : w ∈ pending) : w ∈ rest := by
  have hmem := mem_toJudge hpending hunjudged
  rw [hjudge] at hmem
  exact (List.mem_cons.mp hmem).resolve_left hw

/-- **Judging a subgraph succeeds and keeps the invariant.** -/
theorem step (h : Judging g test pending waiting c)
    (hjudge : c.toJudge waiting pending = s :: rest) :
    ∃ c', c.keepOnly s ((Preference.ofTest test).narrow s () (c.splitsFor s)).1 = .ok c'
      ∧ Judging g test
          ((componentsIn ((Preference.ofTest test).narrow s () (c.splitsFor s)).1).reverse ++ rest)
          (waiting.erase s) c' := by
  have hs : c.Unjudged waiting s :=
    ⟨mem_of_toJudge_eq_cons hjudge, hasSplits_of_toJudge_eq_cons hjudge⟩
  have hne := (Preference.ofTest test).narrow_ne_nil s () (hasSplits_iff.mp hs.2)
  have hsub := (Preference.ofTest test).narrow_sublist s () (c.splitsFor s)
  obtain ⟨c', hkeep, hconsistent, htrims, -⟩ := keepOnly_spec h.consistent hne hsub
  obtain ⟨hanchored, hexact⟩ := keepOnly_exact h.consistent h.anchored hne hsub hkeep
  have hpreferred : ((Preference.ofTest test).narrow s () (c.splitsFor s)).1
      = g.preferredSplits test s := by
    rw [h.full s hs]
    rfl
  rw [hpreferred] at hkeep hexact ⊢
  have helse : ∀ t, t ≠ s → c'.hasSplits t = true → c'.splitsFor t = c.splitsFor t := by
    intro t hts ht
    rw [hexact t ht, if_neg hts.symm]
  have hwaiting : ∀ t, t ∉ waiting.erase s → t ≠ s → t ∉ waiting :=
    fun t hnot hts hmem => hnot (h.nodup.mem_erase_iff.mpr ⟨hts, hmem⟩)
  refine ⟨c', hkeep, hconsistent, htrims.complete h.complete, hanchored,
    htrims.toplevel.trans h.toplevel, h.nodup.erase s, fun t ht => ?full, fun t hnot ht => ?judged,
    fun t htop ht => ?top, fun t hnot split hsplit w hw hwaits => ?reached⟩
  case full =>
    obtain ⟨hts, hbefore⟩ := h.unjudged_of_erase helse ht
    rw [helse t hts ht.2, h.full t hbefore]
  case judged =>
    by_cases hts : t = s
    · rw [hexact t ht, if_pos hts.symm, hts]
    · have hsplits := helse t hts ht
      rw [hsplits]
      refine h.judged t (hwaiting t hnot hts) ?_
      rw [hasSplits, ← hsplits]
      exact ht
  case top =>
    obtain ⟨hts, hbefore⟩ := h.unjudged_of_erase helse ht
    have hpending := h.top t (htrims.toplevel ▸ htop) hbefore
    exact List.mem_append_right _ (mem_rest hjudge hts hbefore hpending)
  case reached =>
    by_cases hts : t = s
    · -- the components of the kept splits become pending
      have hstored : c'.hasSplits t = true := hasSplits_iff.mpr (List.ne_nil_of_mem hsplit)
      rw [hexact t hstored, if_pos hts.symm] at hsplit
      refine List.mem_append_left _ (List.mem_reverse.mpr ?_)
      exact List.mem_flatMap.mpr ⟨split, hsplit, hw⟩
    · obtain ⟨hws, hbefore⟩ := h.unjudged_of_erase helse hwaits
      have hpending := h.reached t (hwaiting t hnot hts) split
        ((htrims.sublist t).subset hsplit) w hw hbefore
      exact List.mem_append_right _ (mem_rest hjudge hws hbefore hpending)

/-- When nothing is left to be judged, all that is stored has been judged. -/
theorem not_mem_waiting (h : Judging g test pending waiting c)
    (hnil : c.toJudge waiting pending = []) (hs : c.hasSplits s = true) : s ∉ waiting := by
  have hnone : ∀ w, (c.Unjudged waiting w → w ∈ pending) → c.hasSplits w = true → w ∉ waiting := by
    intro w hpending hw hwaits
    have hmem := mem_toJudge (hpending ⟨hwaits, hw⟩) ⟨hwaits, hw⟩
    rw [hnil] at hmem
    cases hmem
  refine h.anchored.induction h.complete (P := fun s => c.hasSplits s = true → s ∉ waiting)
    (fun s htop => hnone s (h.top s htop)) (fun t ht hjudged split hsplit w hw => ?_) hs hs
  exact hnone w (h.reached t (hjudged ht) split hsplit w hw)

/-- **In the end the chart is the closure of the graph under the preferred splits.** -/
theorem closure (h : Judging g test pending waiting c) (hnil : c.toJudge waiting pending = []) :
    c.Closure g (g.preferredSplits test) := by
  have hgiven : ∀ s, c.hasSplits s = true → c.splitsFor s = g.preferredSplits test s :=
    fun s hs => h.judged s (h.not_mem_waiting hnil hs) hs
  refine h.complete.closure h.toplevel hgiven fun s hs => ?_
  refine h.anchored.induction h.complete (fun s htop => .component (h.toplevel ▸ htop)) ?_ hs
  intro t ht hneeded split hsplit w hw
  have hroots := Graph.soleRoot?_eq_none_iff.mp (h.complete.sound t split hsplit).2
  exact .part hneeded hroots (hgiven t ht ▸ hsplit) hw

end Judging

/-- The chart of all splits, before anything is judged. -/
theorem judging_solving (test : Subgraph → Split → Bool) (hsolved : g.solving.solved = true) :
    Judging g test g.solving.chart.toplevel.reverse g.solving.chart.subgraphs g.solving.chart := by
  have hconsistent : g.solving.chart.Consistent := consistent_solveInto g _ ()
  have hcomplete := Graph.complete_solving hsolved
  have hclosure : g.solving.chart.Closure g g.splits := Graph.closure_solveInto
    (SplitSource.selects_complete g) (SplitSource.steady_complete g) hsolved
  have hall : ∀ {s}, g.solving.chart.hasSplits s = true → s ∈ g.solving.chart.subgraphs :=
    hconsistent.mem_subgraphs_iff.mpr
  exact {
    consistent := hconsistent
    complete := hcomplete
    anchored := fun t ht =>
      hcomplete.mentions hclosure.toplevel hclosure.given ((hclosure.stored_iff t).mp ht).1
    toplevel := hclosure.toplevel
    nodup := nodup_subgraphs _
    full := fun s hs => hclosure.given s hs.2
    judged := fun s hnot hs => absurd (hall hs) hnot
    top := fun s htop _ => List.mem_reverse.mpr htop
    reached := fun t hnot split hsplit _ _ _ =>
      absurd (hall (hasSplits_iff.mpr (List.ne_nil_of_mem hsplit))) hnot }

/-- **Thinning the chart of all splits succeeds, and leaves the closure of the graph under the
preferred splits.** -/
theorem closure_thin_solving (test : Subgraph → Split → Bool) (hsolved : g.solving.solved = true) :
    ∃ c', g.solving.chart.thin (.ofTest test) () = .ok (c', ())
      ∧ c'.Consistent ∧ c'.Closure g (g.preferredSplits test) := by
  obtain ⟨pending, waiting, ⟨⟩, c', hthin, hend, hnil⟩ := thinFrom_run
    (I := fun pending waiting _ c => Judging g test pending waiting c)
    (fun _ _ _ _ _ _ h hjudge => h.step hjudge) _ _ () (judging_solving test hsolved)
  exact ⟨c', hthin, hend.consistent, hend.closure hnil⟩

end Chart

namespace Graph

variable {g : Graph}

/-- A solvable graph can be solved with the preferred splits alone. -/
theorem solved_preferred (test : Subgraph → Split → Bool) (hsolved : g.solving.solved = true) :
    (g.solveInto (.preferred g (.ofTest test)) () .empty).solved = true := by
  have hall := (solved_iff_answered (SplitSource.selects_complete g)
    (SplitSource.steady_complete g) ()).mp hsolved
  refine (solved_iff_answered (SplitSource.selects_preferred g _)
    (SplitSource.steady_preferred g test) ()).mpr fun s hs hroots => ?_
  have hneeded : g.Needed g.splits s :=
    hs.mono fun t => (Preference.ofTest test).narrow_sublist t () (g.splits t)
  exact (Preference.ofTest test).narrow_ne_nil s () (hall s hneeded hroots)

/--
**Applying a preference after solving and while solving leads to the same chart.**

If a graph can be solved, its chart can be thinned by any test, the graph can be solved with the
splits that pass the test, and the two charts agree in their top-level subgraphs, the subgraphs with
splits, the splits of each subgraph in order, all numbers of references, and their sizes.
-/
theorem thinning_agrees_with_preferring (test : Subgraph → Split → Bool) {c : Chart}
    (hc : g.solve? = some c) :
    ∃ c', c.thin (.ofTest test) () = .ok (c', ())
      ∧ (g.solveInto (.preferred g (.ofTest test)) () .empty).solved = true
      ∧ c'.Agrees (g.solveInto (.preferred g (.ofTest test)) () .empty).chart := by
  obtain ⟨hsolved, rfl⟩ := solve?_eq_some_iff.mp hc
  have hpreferred := solved_preferred test hsolved
  obtain ⟨c', hthin, hconsistent, hclosure⟩ := Chart.closure_thin_solving test hsolved
  refine ⟨c', hthin, hpreferred, ?_⟩
  exact hclosure.agrees (closure_solveInto (SplitSource.selects_preferred g _)
    (SplitSource.steady_preferred g test) hpreferred) hconsistent
    (Chart.consistent_solveInto g _ ())

theorem thinning_agrees_with_preferring_twoReadings :
    twoReadings.solve? = some twoReadings.solving.chart
      ∧ twoReadings.solving.chart.size = 4
      ∧ ∃ c', twoReadings.solving.chart.thin (.ofTest fun _ split => split.root = 2) ()
            = .ok (c', ())
          ∧ c'.size = 2
          ∧ c'.Agrees (twoReadings.solveInto (.preferred twoReadings
              (.ofTest fun _ split => split.root = 2)) () .empty).chart := by
  have hsolved : twoReadings.solving.solved = true := by decide +kernel
  have hc := solve?_eq_some_iff.mpr ⟨hsolved, rfl⟩
  obtain ⟨c', hthin, -, hagrees⟩ := thinning_agrees_with_preferring (g := twoReadings)
    (fun _ split => split.root = 2) hc
  refine ⟨hc, by decide +kernel, c', hthin, ?_, hagrees⟩
  rw [hagrees.size]
  decide +kernel

end Graph

end Dominance
