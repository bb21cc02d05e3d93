import Dominance.Proofs.Anchoring
import Dominance.Proofs.Bookkeeping
import Dominance.Proofs.Descent

/-!
# What a removal takes

A removal takes the splits of what lost its last reference, and of nothing else.
Subgraphs that nothing referred to before stay, and so does everything that is still referred to.

A cascade finds all that it has to take, whatever the order in which it works: what is left without
references is on its list, or was taken off the references on the way.
It takes only what it is told to remove and what that leads to.
So the subgraph whose splits are replaced keeps its new splits, unless it leads to itself, and what
only the new splits refer to is left alone.

* `splitsFor_cascade_of_not_mem` — what a cascade cannot come to
* `Consistent.splitsFor_cascade_eq` — exactly what a cascade takes
* `Consistent.delete_exact`, `Consistent.replace_exact` — removing and replacing splits
* `removals_are_exact` — both, and when they are refused, after any run of operations
-/

namespace Dominance.Chart

open Relation

variable {c c' : Chart} {s t w : Subgraph} {splits : List Split} {doomed : List Subgraph}

/-! ## References after a step -/

theorem referenceCount_detach (c : Chart) (s t : Subgraph) :
    (c.detach s).2.referenceCount t
      = c.referenceCount t - (componentsIn (c.splitsFor s)).count t :=
  getD_releaseAll c.references (componentsIn (c.splitsFor s)) t

/-- Only what was listed can be freed. -/
theorem releaseAll_subset (references : Std.TreeMap Subgraph Nat) (ss : List Subgraph) :
    (releaseAll references ss).1 ⊆ ss := by
  induction ss generalizing references with
  | nil => simp [releaseAll]
  | cons s ss ih =>
    simp only [releaseAll]
    split
    · exact List.cons_subset_cons s (ih _)
    · exact List.subset_cons_of_subset s (ih _)

theorem mem_componentsIn_of_freed (h : t ∈ (c.detach s).1) : t ∈ componentsIn (c.splitsFor s) :=
  releaseAll_subset c.references (componentsIn (c.splitsFor s)) h

theorem refers_iff : c.Refers s w ↔ w ∈ componentsIn (c.splitsFor s) := by
  simp [Refers, componentsIn]

/-- What is referred to has a reference in exact books. -/
theorem Consistent.referenceCount_pos (h : c.Consistent) (hw : c.Refers s w) :
    0 < c.referenceCount w := by
  obtain ⟨split, hsplit, hw⟩ := hw
  exact h.mentions_iff.mp (.inr ⟨s, split, hsplit, hw⟩)

/-- A cascade adds no reference. -/
theorem referenceCount_cascade_le (c : Chart) (doomed : List Subgraph) (t : Subgraph) :
    (c.cascade doomed).referenceCount t ≤ c.referenceCount t := by
  fun_induction cascade c doomed with
  | case1 c doomed hnil => exact Nat.le_refl _
  | case2 c doomed s rest hstored _ ih =>
    have := referenceCount_detach c s t
    omega

theorem splitsFor_of_not_contains (h : c.table.contains t = false) : c.splitsFor t = [] := by
  unfold splitsFor
  exact Std.TreeMap.getD_eq_fallback_of_contains_eq_false h

/-- What comes before the first stored subgraph has no splits. -/
theorem mem_stored_or (h : t ∈ doomed) : t ∈ c.stored doomed ∨ c.splitsFor t = [] := by
  cases ht : c.table.contains t with
  | false => exact .inr (splitsFor_of_not_contains ht)
  | true => exact .inl (mem_dropWhile h (by simp [ht]))

/-! ## Cascades -/

/-- **A cascade stays within what it is told to remove and what that leads to.** -/
theorem splitsFor_cascade_of_not_mem {P : Subgraph → Prop} (hdoomed : ∀ u ∈ doomed, P u)
    (hclosed : ∀ u, P u → ∀ w, c.Refers u w → P w) (ht : ¬P t) :
    (c.cascade doomed).splitsFor t = c.splitsFor t := by
  fun_induction cascade c doomed with
  | case1 c doomed hnil => rfl
  | case2 c doomed s rest hstored _ ih =>
    have hsub : ∀ u ∈ s :: rest, u ∈ doomed := by
      intro u hu
      rw [← hstored] at hu
      exact (List.dropWhile_sublist _).subset hu
    have hs : P s := hdoomed s (hsub s List.mem_cons_self)
    have hst : s ≠ t := fun heq => ht (heq ▸ hs)
    rw [ih ?_ ?_, splitsFor_detach, if_neg hst]
    · intro u hu
      rcases List.mem_append.mp hu with hu | hu
      · refine hclosed s hs u (refers_iff.mpr ?_)
        exact mem_componentsIn_of_freed (List.mem_reverse.mp hu)
      · exact hdoomed u (hsub u (List.mem_cons_of_mem _ hu))
    · rintro u hu w ⟨split, hsplit, hw⟩
      rw [splitsFor_detach] at hsplit
      by_cases hsu : s = u
      · simp [hsu] at hsplit
      · rw [if_neg hsu] at hsplit
        exact hclosed u hu w ⟨split, hsplit, hw⟩

/-- **A cascade takes the splits of what it is told to remove and of what loses its last reference,
and of nothing else.** -/
theorem Consistent.splitsFor_cascade_eq (h : c.Consistent)
    (hdoomed : ∀ u ∈ doomed, c.referenceCount u = 0) (t : Subgraph) :
    (c.cascade doomed).splitsFor t =
      if t ∈ doomed ∨ (0 < c.referenceCount t ∧ (c.cascade doomed).referenceCount t = 0) then []
      else c.splitsFor t := by
  fun_induction cascade c doomed with
  | case1 c doomed hnil =>
    split
    · next hor =>
      obtain hmem | ⟨hpos, hzero⟩ := hor
      · refine (mem_stored_or hmem).resolve_left ?_
        simp [hnil]
      · omega
    · rfl
  | case2 c doomed s rest hstored _ ih =>
    have hsub : ∀ u ∈ s :: rest, u ∈ doomed := by
      intro u hu
      rw [← hstored] at hu
      exact (List.dropWhile_sublist _).subset hu
    rw [ih (consistent_detach h s) (referenceCount_detach_eq_zero fun u hu =>
      hdoomed u (hsub u (List.mem_cons_of_mem _ hu)))]
    generalize hafter : (c.detach s).2.cascade ((c.detach s).1.reverse ++ rest) = after
    have hle : after.referenceCount t ≤ (c.detach s).2.referenceCount t :=
      hafter ▸ referenceCount_cascade_le _ _ t
    have hcount := referenceCount_detach c s t
    rw [splitsFor_detach]
    by_cases hst : s = t
    · -- the splits of the first subgraph go at once
      have hmem : t ∈ doomed := hst ▸ hsub s List.mem_cons_self
      simp [hst, hmem]
    · -- of any other subgraph, the last reference goes now or later
      have hiff : t ∈ (c.detach s).1.reverse ++ rest
            ∨ (0 < (c.detach s).2.referenceCount t ∧ after.referenceCount t = 0) ↔
          t ∈ rest ∨ (0 < c.referenceCount t ∧ after.referenceCount t = 0) := by
        rw [List.mem_append, List.mem_reverse]
        constructor
        · rintro ((hfreed | hrest) | ⟨hpos, hzero⟩)
          · have hmem := mem_componentsIn_of_freed hfreed
            have hzero : (c.detach s).2.referenceCount t = 0 := getD_of_mem_freed hfreed
            exact .inr ⟨h.referenceCount_pos (refers_iff.mpr hmem), by omega⟩
          · exact .inl hrest
          · exact .inr ⟨by omega, hzero⟩
        · rintro (hrest | ⟨hpos, hzero⟩)
          · exact .inl (.inr hrest)
          · by_cases hleft : (c.detach s).2.referenceCount t = 0
            · exact .inl (.inl (mem_freed hpos hleft))
            · exact .inr ⟨Nat.pos_of_ne_zero hleft, hzero⟩
      rw [if_neg hst]
      by_cases hloses : 0 < c.referenceCount t ∧ after.referenceCount t = 0
      · rw [if_pos (hiff.mpr (.inr hloses)), if_pos (.inr hloses)]
      · by_cases hrest : t ∈ rest
        · rw [if_pos (hiff.mpr (.inl hrest)), if_pos (.inl (hsub t (List.mem_cons_of_mem _ hrest)))]
        · rw [if_neg fun hor => (hiff.mp hor).elim hrest hloses]
          split
          · next hor =>
            -- what is on the list and was passed over is not stored
            refine (mem_stored_or (hor.resolve_right hloses)).resolve_left fun hmem => ?_
            rw [hstored, List.mem_cons] at hmem
            exact hmem.elim (fun heq => hst heq.symm) hrest
          · rfl

/-! ## Removing and replacing -/

/-- After a removal or a replacement the subgraph has the given splits, and the others have lost
their splits exactly if they have lost their last reference. -/
structure Replaced (c c' : Chart) (s : Subgraph) (splits : List Split) : Prop where
  given : c'.splitsFor s = splits
  lost : ∀ t, t ≠ s → 0 < c.referenceCount t → c'.referenceCount t = 0 → c'.splitsFor t = []
  kept : ∀ t, t ≠ s → ¬(0 < c.referenceCount t ∧ c'.referenceCount t = 0) →
    c'.splitsFor t = c.splitsFor t
  toplevel : c'.toplevel = c.toplevel

/-- A removal is refused exactly if there are references. -/
theorem delete_eq_error_iff {e : ChartError} :
    c.delete s = .error e ↔
      0 < c.referenceCount s ∧ e = .stillReferenced s (c.referenceCount s) := by
  unfold delete
  by_cases hpos : 0 < c.referenceCount s <;> simp [hpos, eq_comm]

/-- A replacement is refused exactly if there are references, and no splits to replace the old ones
by. -/
theorem setSplits_eq_error_iff {e : ChartError} :
    c.setSplits s splits = .error e ↔
      splits = [] ∧ 0 < c.referenceCount s ∧ e = .stillReferenced s (c.referenceCount s) := by
  unfold setSplits
  by_cases hbad : splits.isEmpty ∧ 0 < c.referenceCount s
  · simpa [hbad, eq_comm] using fun _ => by simpa using hbad.1
  · rw [if_neg hbad]
    simp only [reduceCtorEq, false_iff]
    exact fun hor => hbad ⟨by simp [hor.1], hor.2.1⟩

/-- **Removing a subgraph takes what loses its last reference by that.** -/
theorem Consistent.delete_exact (h : c.Consistent) (hdelete : c.delete s = .ok c') :
    c.Replaced c' s [] := by
  have htop := (consistent_delete h hdelete).2
  unfold delete at hdelete
  split at hdelete
  · cases hdelete
  · next hzero =>
    cases hdelete
    have hdoomed : ∀ u ∈ [s], c.referenceCount u = 0 := by
      intro u hu
      rw [List.mem_singleton.mp hu]
      omega
    have heq := h.splitsFor_cascade_eq hdoomed
    refine ⟨?_, fun t hts hpos hlost => ?_, fun t hts hkept => ?_, htop⟩
    · show (c.cascade [s]).splitsFor s = []
      simp [heq]
    · show (c.cascade [s]).splitsFor t = []
      rw [heq, if_pos (.inr ⟨hpos, hlost⟩)]
    · show (c.cascade [s]).splitsFor t = c.splitsFor t
      rw [heq, if_neg]
      rintro (hmem | hloses)
      · exact hts (List.mem_singleton.mp hmem)
      · exact hkept hloses

/-- **Replacing the splits of a subgraph that does not lead to itself takes what loses its last
reference by that, and leaves the new splits.** -/
theorem Consistent.replace_exact (h : c.Consistent) (hs : ¬TransGen c.Refers s s)
    (hset : c.setSplits s splits = .ok c') : c.Replaced c' s splits := by
  have htop := (consistent_setSplits h hset).2
  unfold setSplits at hset
  split at hset
  · cases hset
  cases hset
  generalize hreplaced : (c.detach s).2.addSplits s splits = replaced at *
  have hsplits : ∀ t, replaced.splitsFor t = if s = t then splits else c.splitsFor t := by
    intro t
    rw [← hreplaced, splitsFor_replaced]
  have hconsistent : replaced.Consistent :=
    hreplaced ▸ consistent_addSplits (consistent_detach h s) s splits
  generalize hlist : replaced.unreferencedIn (c.splitsFor s) = doomed at *
  have hmem : ∀ u, u ∈ doomed ↔ c.Refers s u ∧ replaced.referenceCount u = 0 := by
    intro u
    rw [← hlist, mem_unreferencedIn, refers_iff]
  -- the cascade only comes to what the old splits lead to, and these are not the subgraph itself
  have houtside : ∀ t, ¬TransGen c.Refers s t →
      (replaced.cascade doomed).splitsFor t = replaced.splitsFor t := by
    intro t ht
    refine splitsFor_cascade_of_not_mem (P := TransGen c.Refers s) (fun u hu => ?_) ?_ ht
    · exact .single ((hmem u).mp hu).1
    · rintro u hu w ⟨split, hsplit, hw⟩
      have hsu : s ≠ u := fun heq => hs (heq ▸ hu)
      rw [hsplits, if_neg hsu] at hsplit
      exact hu.tail ⟨split, hsplit, hw⟩
  have heq := hconsistent.splitsFor_cascade_eq fun u hu => ((hmem u).mp hu).2
  have hle := referenceCount_cascade_le replaced doomed
  have hother : ∀ t, t ≠ s → replaced.splitsFor t = c.splitsFor t := by
    intro t hts
    rw [hsplits, if_neg hts.symm]
  refine ⟨?_, fun t hts hpos hlost => ?_, fun t hts hkept => ?_, htop⟩
  · show (replaced.cascade doomed).splitsFor s = splits
    rw [houtside s hs, hsplits, if_pos rfl]
  · show (replaced.cascade doomed).splitsFor t = []
    have hlost : (replaced.cascade doomed).referenceCount t = 0 := hlost
    rw [heq, if_pos]
    by_cases hzero : replaced.referenceCount t = 0
    · refine .inl ((hmem t).mpr ⟨refers_iff.mpr ?_, hzero⟩)
      exact mem_componentsIn_of_unreferenced h (h.mentions_iff.mpr hpos) (hreplaced ▸ hzero)
    · exact .inr ⟨Nat.pos_of_ne_zero hzero, hlost⟩
  · show (replaced.cascade doomed).splitsFor t = c.splitsFor t
    have hkept : ¬(0 < c.referenceCount t ∧ (replaced.cascade doomed).referenceCount t = 0) := hkept
    by_cases hpos : 0 < c.referenceCount t
    · rw [heq, if_neg, hother t hts]
      rintro (hin | ⟨-, hzero⟩)
      · have := hle t
        have := ((hmem t).mp hin).2
        exact hkept ⟨hpos, by omega⟩
      · exact hkept ⟨hpos, hzero⟩
    · -- nothing led to it, so the cascade does not come to it
      rw [houtside t, hother t hts]
      intro hpath
      obtain ⟨u, -, hstep⟩ := TransGen.tail'_iff.mp hpath
      exact hpos (h.referenceCount_pos hstep)

/--
**Removals take exactly what loses its last reference.**

The chart is what any run of operations leaves, if it does not refer to itself in a circle. Removing
a subgraph is refused exactly if it is referred to, and replacing its splits exactly if it is and
there are no new splits; the error tells the number of references, and the chart stays as it is.
Otherwise the subgraph has the new splits, none after a removal. Any other subgraph that had
references and has none left has lost its splits; everything else has its splits in the same order,
also what nothing referred to before.
-/
theorem removals_are_exact (operations : List Operation) (hacyclic : (run operations).Acyclic)
    (s : Subgraph) :
    (∀ e, (run operations).delete s = .error e ↔ 0 < (run operations).referenceCount s
        ∧ e = .stillReferenced s ((run operations).referenceCount s))
      ∧ (∀ splits e, (run operations).setSplits s splits = .error e ↔
          splits = [] ∧ 0 < (run operations).referenceCount s
            ∧ e = .stillReferenced s ((run operations).referenceCount s))
      ∧ (∀ e, (run operations).delete s = .error e →
          (run operations).perform (.delete s) = run operations)
      ∧ (∀ splits e, (run operations).setSplits s splits = .error e →
          (run operations).perform (.setSplits s splits) = run operations)
      ∧ (∀ c', (run operations).delete s = .ok c' → (run operations).Replaced c' s [])
      ∧ ∀ splits c', (run operations).setSplits s splits = .ok c' →
          (run operations).Replaced c' s splits := by
  have hconsistent : (run operations).Consistent :=
    (foldl_perform_consistent consistent_empty operations).1
  refine ⟨fun _ => delete_eq_error_iff, fun _ _ => setSplits_eq_error_iff, fun e he => ?_,
    fun splits e he => ?_, fun _ => hconsistent.delete_exact,
    fun _ _ => hconsistent.replace_exact (hacyclic s)⟩
  · simp [perform, he, Except.toOption]
  · simp [perform, he, Except.toOption]

/-- A top-level subgraph with two splits that share a component, which one of them has twice, and a
subgraph to which nothing refers. -/
def sharing : List Operation :=
  [.addToplevel (.range 4),
    .addSplit (.range 4) ((Split.bare 0).attach 0 (.ofList [1, 2, 3])),
    .addSplit (.range 4) (((Split.bare 1).attach 1 (.ofList [2, 3])).attach 1 (.ofList [2, 3])),
    .addSplit (.ofList [1, 2, 3]) ((Split.bare 1).attach 1 (.ofList [2, 3])),
    .addSplit (.ofList [2, 3]) ((Split.bare 2).attach 2 (.ofList [3])),
    .addSplit (.ofList [4, 5]) ((Split.bare 4).attach 4 (.ofList [5]))]

theorem removals_are_exact_sharing :
    (run sharing).Acyclic
      ∧ (run sharing).delete (.ofList [2, 3]) = .error (.stillReferenced (.ofList [2, 3]) 3)
      ∧ ∃ c', (run sharing).setSplits (.range 4) [(Split.bare 3).attach 3 (.ofList [2, 3])] = .ok c'
          ∧ (run sharing).Replaced c' (.range 4) [(Split.bare 3).attach 3 (.ofList [2, 3])]
          ∧ c'.splitsFor (.ofList [1, 2, 3]) = []
          ∧ c'.splitsFor (.ofList [2, 3]) = (run sharing).splitsFor (.ofList [2, 3]) := by
  have hacyclic : (run sharing).Acyclic :=
    (ranked_of_table Subgraph.size (by decide +kernel)).acyclic
  obtain ⟨-, -, -, -, -, hreplace⟩ := removals_are_exact sharing hacyclic (.range 4)
  obtain ⟨hrefuse, -⟩ := removals_are_exact sharing hacyclic (.ofList [2, 3])
  have hlost : ((run sharing).setSplits (.range 4)
      [(Split.bare 3).attach 3 (.ofList [2, 3])]).toOption.map (fun c' =>
        (c'.referenceCount (.ofList [1, 2, 3]), c'.referenceCount (.ofList [2, 3])))
      = some (0, 1) := by decide +kernel
  refine ⟨hacyclic, (hrefuse _).mpr (by decide +kernel), ?_⟩
  cases hset : (run sharing).setSplits (.range 4) [(Split.bare 3).attach 3 (.ofList [2, 3])] with
  | error e =>
    rw [hset] at hlost
    cases hlost
  | ok c' =>
    rw [hset] at hlost
    obtain ⟨hupper, hlower⟩ := Prod.mk.inj (Option.some.inj hlost)
    have hreplaced := hreplace _ c' hset
    refine ⟨c', rfl, hreplaced, ?_, ?_⟩
    · exact hreplaced.lost _ (by decide +kernel) (by decide +kernel) hupper
    · exact hreplaced.kept _ (by decide +kernel) (by omega)

end Dominance.Chart
