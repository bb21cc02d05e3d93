import Mathlib.Algebra.BigOperators.Group.List.Basic
import Mathlib.Algebra.Ring.Nat
import Mathlib.Data.List.Perm.Basic
import Dominance.Chart.Removal
import Dominance.Proofs.Filling

/-!
# The bookkeeping of a chart

A chart counts, for every subgraph, how often it occurs as a component of stored splits and as a
top-level subgraph.
Every operation changes the splits of one subgraph at a time, and the counts by the components that
come and go with them.
So the counts stay exact, whatever splits are added, replaced or removed, and in whatever order a
removal cascades.

* `total_update` — a sum over the stored splits, when the splits of one subgraph change
* `Consistent` — the counts are exact, and nothing is stored or listed in vain
* `consistent_addSplits`, `consistent_detach`, `consistent_cascade` — every operation keeps this
* `Trims` — what a removal leaves
-/

namespace Dominance.Chart

variable {c c' : Chart} {s t u : Subgraph}

/-! ## Sums over the stored splits -/

/-- A sum over the split lists of all stored subgraphs. -/
def total (c : Chart) (f : List Split → Nat) : Nat :=
  (c.table.toList.map fun entry => f entry.2).sum

/-- The entries of all subgraphs but one. -/
def othersThan (c : Chart) (t : Subgraph) : List (Subgraph × List Split) :=
  c.table.toList.filter (·.1 ≠ t)

theorem nodup_toList (c : Chart) : c.table.toList.Nodup :=
  Std.TreeMap.distinct_keys_toList.imp fun h he => h (by rw [he]; exact Std.ReflCmp.compare_self)

theorem mem_toList_iff {splits : List Split} :
    (s, splits) ∈ c.table.toList ↔ c.table[s]? = some splits :=
  Std.TreeMap.mem_toList_iff_getElem?_eq_some

theorem splitsFor_eq : c.splitsFor s = c.table[s]?.getD [] :=
  Std.TreeMap.getD_eq_getD_getElem?

theorem othersThan_perm (h : ∀ u, u ≠ t → c'.table[u]? = c.table[u]?) :
    (c'.othersThan t).Perm (c.othersThan t) := by
  refine (List.perm_ext_iff_of_nodup (c'.nodup_toList.filter _) (c.nodup_toList.filter _)).mpr ?_
  rintro ⟨u, splits⟩
  simp only [List.mem_filter, mem_toList_iff, decide_eq_true_eq]
  refine and_congr_left fun hu => ?_
  rw [h u hu]

theorem total_eq {f : List Split → Nat} (hf : f [] = 0) (c : Chart) (t : Subgraph) :
    c.total f = f (c.splitsFor t) + ((c.othersThan t).map fun entry => f entry.2).sum := by
  have hperm : c.table.toList.Perm (c.table.toList.filter (·.1 = t) ++ c.othersThan t) := by
    have h := List.filter_append_perm (fun entry : Subgraph × List Split => entry.1 = t)
      c.table.toList
    simpa only [othersThan, decide_not] using h.symm
  rw [total, (hperm.map _).sum_eq, List.map_append, List.sum_append]
  congr 1
  -- the entries of one subgraph: there is one if the subgraph is stored, and none otherwise
  cases ht : c.table[t]? with
  | none =>
    have hnil : c.table.toList.filter (·.1 = t) = [] := by
      refine List.filter_eq_nil_iff.mpr ?_
      rintro ⟨u, splits⟩ hmem hu
      have hut : u = t := of_decide_eq_true hu
      rw [mem_toList_iff, hut, ht] at hmem
      cases hmem
    rw [hnil, splitsFor_eq, ht]
    exact hf.symm
  | some splits =>
    have hone : (c.table.toList.filter (·.1 = t)).Perm [(t, splits)] := by
      refine (List.perm_ext_iff_of_nodup (c.nodup_toList.filter _) (by simp)).mpr ?_
      rintro ⟨u, others⟩
      simp only [List.mem_filter, mem_toList_iff, decide_eq_true_eq, List.mem_singleton,
        Prod.mk.injEq]
      constructor
      · rintro ⟨hmem, rfl⟩
        rw [ht] at hmem
        exact ⟨rfl, (Option.some.inj hmem).symm⟩
      · rintro ⟨rfl, rfl⟩
        exact ⟨ht, rfl⟩
    rw [(hone.map _).sum_eq, splitsFor_eq, ht]
    simp

/-- **A change of one entry changes a sum by the difference at that entry.** -/
theorem total_update {f : List Split → Nat} (hf : f [] = 0)
    (h : ∀ u, u ≠ t → c'.table[u]? = c.table[u]?) :
    c'.total f + f (c.splitsFor t) = c.total f + f (c'.splitsFor t) := by
  rw [total_eq hf c' t, total_eq hf c t, ((othersThan_perm h).map _).sum_eq]
  omega

/-- How often a subgraph occurs as a component of stored splits. -/
def occurrences (c : Chart) (s : Subgraph) : Nat :=
  c.total fun splits => (componentsIn splits).count s

theorem occurrences_update (h : ∀ u, u ≠ t → c'.table[u]? = c.table[u]?) (s : Subgraph) :
    c'.occurrences s + (componentsIn (c.splitsFor t)).count s
      = c.occurrences s + (componentsIn (c'.splitsFor t)).count s :=
  total_update (f := fun splits => (componentsIn splits).count s) rfl h

theorem occurrences_pos_iff :
    0 < c.occurrences s ↔ ∃ t, ∃ split ∈ c.splitsFor t, s ∈ split.components := by
  have hcount : ∀ splits : List Split,
      0 < (componentsIn splits).count s ↔ ∃ split ∈ splits, s ∈ split.components := by
    intro splits
    rw [List.count_pos_iff, componentsIn, List.mem_flatMap]
  constructor
  · intro h
    by_contra hnone
    refine Nat.ne_of_gt h (List.sum_eq_zero fun n hn => ?_)
    obtain ⟨⟨t, splits⟩, hmem, rfl⟩ := List.mem_map.mp hn
    by_contra hne
    obtain ⟨split, hsplit, hs⟩ := (hcount splits).mp (Nat.pos_of_ne_zero hne)
    refine hnone ⟨t, split, ?_, hs⟩
    rw [splitsFor_eq, mem_toList_iff.mp hmem]
    exact hsplit
  · rintro ⟨t, hsplit⟩
    have hpos := (hcount (c.splitsFor t)).mpr hsplit
    rw [occurrences, total_eq rfl c t]
    omega

/-! ## Lists of references -/

/-- Only positive numbers of references are listed. -/
def Positive (references : Std.TreeMap Subgraph Nat) : Prop :=
  ∀ (s : Subgraph) (n : Nat), references[s]? = some n → 0 < n

theorem positive_insert {references : Std.TreeMap Subgraph Nat} (h : Positive references) {n : Nat}
    (hn : 0 < n) : Positive (references.insert s n) := by
  intro t m ht
  rw [Std.TreeMap.getElem?_insert] at ht
  split at ht
  · exact Option.some.inj ht ▸ hn
  · exact h t m ht

theorem positive_erase {references : Std.TreeMap Subgraph Nat} (h : Positive references) :
    Positive (references.erase s) := by
  intro t m ht
  rw [Std.TreeMap.getElem?_erase] at ht
  split at ht
  · cases ht
  · exact h t m ht

theorem getD_refer (references : Std.TreeMap Subgraph Nat) (s t : Subgraph) :
    (refer references s).getD t 0 = references.getD t 0 + if s = t then 1 else 0 := by
  simp only [refer, Std.TreeMap.getD_insert, Std.LawfulEqCmp.compare_eq_iff_eq]
  split
  · next h => rw [h]
  · rfl

theorem getD_foldl_refer (references : Std.TreeMap Subgraph Nat) (ss : List Subgraph)
    (t : Subgraph) :
    (ss.foldl refer references).getD t 0 = references.getD t 0 + ss.count t := by
  induction ss generalizing references with
  | nil => rfl
  | cons s ss ih =>
    rw [List.foldl_cons, ih, getD_refer, List.count_cons]
    by_cases h : s = t
    · simp only [h, if_true, beq_self_eq_true]
      omega
    · simp [h]

theorem positive_foldl_refer {references : Std.TreeMap Subgraph Nat} (h : Positive references)
    (ss : List Subgraph) : Positive (ss.foldl refer references) := by
  induction ss generalizing references with
  | nil => exact h
  | cons s ss ih => exact ih (positive_insert h (Nat.succ_pos _))

theorem getD_release (references : Std.TreeMap Subgraph Nat) (s t : Subgraph) :
    (release references s).getD t 0 = references.getD t 0 - if s = t then 1 else 0 := by
  unfold release
  split
  · next h =>
    simp only [Std.TreeMap.getD_erase, Std.LawfulEqCmp.compare_eq_iff_eq]
    split
    · next hst => subst hst; omega
    · rfl
  · simp only [Std.TreeMap.getD_insert, Std.LawfulEqCmp.compare_eq_iff_eq]
    split
    · next hst => rw [hst]
    · rfl

theorem positive_release {references : Std.TreeMap Subgraph Nat} (h : Positive references)
    (s : Subgraph) : Positive (release references s) := by
  unfold release
  split
  · exact positive_erase h
  · exact positive_insert h (by omega)

theorem getD_releaseAll (references : Std.TreeMap Subgraph Nat) (ss : List Subgraph)
    (t : Subgraph) :
    (releaseAll references ss).2.getD t 0 = references.getD t 0 - ss.count t := by
  induction ss generalizing references with
  | nil => rfl
  | cons s ss ih =>
    rw [releaseAll, ih, getD_release, List.count_cons]
    by_cases h : s = t
    · simp only [h, if_true, beq_self_eq_true]
      omega
    · simp [h]

theorem positive_releaseAll {references : Std.TreeMap Subgraph Nat} (h : Positive references)
    (ss : List Subgraph) : Positive (releaseAll references ss).2 := by
  induction ss generalizing references with
  | nil => exact h
  | cons s ss ih => exact ih (positive_release h s)

/-- What is freed has no reference left in the end. -/
theorem getD_of_mem_freed {references : Std.TreeMap Subgraph Nat} {ss : List Subgraph}
    (h : s ∈ (releaseAll references ss).1) : (releaseAll references ss).2.getD s 0 = 0 := by
  induction ss generalizing references with
  | nil => cases h
  | cons t ss ih =>
    simp only [releaseAll] at h ⊢
    split at h
    · next hzero =>
      rcases List.mem_cons.mp h with rfl | h
      · rw [getD_releaseAll, hzero, Nat.zero_sub]
      · exact ih h
    · exact ih h

/-! ## Consistent charts -/

/-- The numbers that a chart keeps are exact, and it stores and lists nothing in vain. -/
structure Consistent (c : Chart) : Prop where
  counted : ∀ s, c.referenceCount s = c.toplevel.count s + c.occurrences s
  positive : Positive c.references
  stored : ∀ (s : Subgraph) (splits : List Split), c.table[s]? = some splits → splits ≠ []
  size : c.size = c.total List.length

theorem consistent_empty : empty.Consistent where
  counted _ := rfl
  positive s n h := by
    rw [empty, Std.TreeMap.getElem?_emptyc] at h
    cases h
  stored s splits h := by
    rw [empty, Std.TreeMap.getElem?_emptyc] at h
    cases h
  size := rfl

/-- A subgraph is referred to exactly if the chart counts a reference to it. -/
theorem Consistent.mentions_iff (h : c.Consistent) : c.Mentions s ↔ 0 < c.referenceCount s := by
  rw [h.counted s, Nat.add_pos_iff_pos_or_pos, List.count_pos_iff, occurrences_pos_iff]
  rfl

/-- The subgraphs that a consistent chart lists are those that have splits. -/
theorem Consistent.mem_subgraphs_iff (h : c.Consistent) :
    s ∈ c.subgraphs ↔ c.hasSplits s = true := by
  rw [hasSplits_iff, splitsFor_eq, subgraphs, Std.TreeMap.mem_keys,
    Std.TreeMap.mem_iff_isSome_getElem?]
  cases hs : c.table[s]? with
  | none => simp
  | some splits => simpa using h.stored s splits hs

theorem Consistent.with_counts (h : c.Consistent) (counts : Std.TreeMap Subgraph Nat) :
    Consistent { c with counts } :=
  ⟨h.counted, h.positive, h.stored, h.size⟩

theorem consistent_addToplevel (h : c.Consistent) (s : Subgraph) :
    (c.addToplevel s).Consistent where
  counted t := by
    have hrefer := getD_refer c.references s t
    have hcounted := h.counted t
    have htable : (c.addToplevel s).occurrences t = c.occurrences t := rfl
    rw [htable]
    simp only [referenceCount, addToplevel, List.count_append, List.count_singleton] at *
    rw [hrefer, hcounted]
    by_cases hst : s = t
    · simp only [hst, if_true, beq_self_eq_true]
      omega
    · simp [hst]
  positive := positive_insert h.positive (Nat.succ_pos _)
  stored := h.stored
  size := h.size

theorem consistent_addSplit (h : c.Consistent) (s : Subgraph) (split : Split) :
    (c.addSplit s split).Consistent := by
  have htable : ∀ u, u ≠ s → (c.addSplit s split).table[u]? = c.table[u]? := by
    intro u hu
    simp only [addSplit, Std.TreeMap.getElem?_insert, Std.LawfulEqCmp.compare_eq_iff_eq]
    rw [if_neg fun he => hu he.symm]
  have hsplits : (c.addSplit s split).splitsFor s = c.splitsFor s ++ [split] := by
    rw [splitsFor_addSplit, if_pos rfl]
  refine ⟨fun t => ?_, positive_foldl_refer h.positive _, fun t splits ht => ?_, ?_⟩
  · have hoccur := occurrences_update htable t
    have hrefer := getD_foldl_refer c.references split.components t
    have hcounted := h.counted t
    rw [hsplits, componentsIn, componentsIn, List.flatMap_append, List.count_append,
      List.flatMap_singleton] at hoccur
    simp only [referenceCount] at hcounted ⊢
    show (split.components.foldl refer c.references).getD t 0 = c.toplevel.count t + _
    omega
  · by_cases hts : t = s
    · rw [hts] at ht
      rw [splitsFor_eq, ht, Option.getD_some] at hsplits
      rw [hsplits]
      exact List.append_ne_nil_of_right_ne_nil _ (List.cons_ne_nil _ _)
    · rw [htable t hts] at ht
      exact h.stored t splits ht
  · have htotal := total_update (f := List.length) rfl htable
    have hsize := h.size
    rw [hsplits, List.length_append, List.length_singleton] at htotal
    show c.size + 1 = _
    omega

theorem consistent_addSplits (h : c.Consistent) (s : Subgraph) (splits : List Split) :
    (c.addSplits s splits).Consistent := by
  unfold addSplits
  induction splits generalizing c with
  | nil => exact h
  | cons split splits ih => exact ih (consistent_addSplit h s split)

/-- **A new chart keeps exact books, whether it was filled or not.** -/
theorem consistent_solveInto (g : Graph) {σ : Type} (source : SplitSource σ) (memory : σ) :
    (g.solveInto source memory .empty).chart.Consistent :=
  g.solveInto_preserves source (P := Consistent)
    (fun _ s splits h => consistent_addSplits h s splits)
    (fun _ s h => consistent_addToplevel h s) consistent_empty memory

/-! ## Removal -/

theorem splitsFor_detach (c : Chart) (s t : Subgraph) :
    (c.detach s).2.splitsFor t = if s = t then [] else c.splitsFor t := by
  simp only [splitsFor, table_detach, Std.TreeMap.getD_erase, Std.LawfulEqCmp.compare_eq_iff_eq]

theorem consistent_detach (h : c.Consistent) (s : Subgraph) : (c.detach s).2.Consistent := by
  have htable : ∀ u, u ≠ s → (c.detach s).2.table[u]? = c.table[u]? := by
    intro u hu
    simp only [table_detach, Std.TreeMap.getElem?_erase, Std.LawfulEqCmp.compare_eq_iff_eq]
    rw [if_neg fun he => hu he.symm]
  have hnil : (c.detach s).2.splitsFor s = [] := by rw [splitsFor_detach, if_pos rfl]
  refine ⟨fun t => ?_, positive_releaseAll h.positive _, fun t splits ht => ?_, ?_⟩
  · have hoccur := occurrences_update htable t
    have hrelease := getD_releaseAll c.references (componentsIn (c.splitsFor s)) t
    have hcounted := h.counted t
    rw [hnil, componentsIn, componentsIn, List.flatMap_nil, List.count_nil] at hoccur
    simp only [referenceCount, componentsIn] at hcounted hrelease ⊢
    show (releaseAll c.references ((c.splitsFor s).flatMap Split.components)).2.getD t 0
      = c.toplevel.count t + _
    omega
  · by_cases hts : t = s
    · rw [hts, table_detach, Std.TreeMap.getElem?_erase_self] at ht
      cases ht
    · rw [htable t hts] at ht
      exact h.stored t splits ht
  · have htotal := total_update (f := List.length) rfl htable
    have hsize := h.size
    rw [hnil, List.length_nil] at htotal
    show c.size - (c.splitsFor s).length = _
    omega

/-- After the splits of a subgraph are taken off, nothing refers to what is then to be removed: what
was freed has no reference left, and what had none gets none. -/
theorem referenceCount_detach_eq_zero {rest : List Subgraph}
    (h : ∀ t ∈ rest, c.referenceCount t = 0) :
    ∀ t ∈ (c.detach s).1.reverse ++ rest, (c.detach s).2.referenceCount t = 0 := by
  intro t ht
  show (releaseAll c.references (componentsIn (c.splitsFor s))).2.getD t 0 = 0
  rcases List.mem_append.mp ht with ht | ht
  · exact getD_of_mem_freed (List.mem_reverse.mp ht)
  · have hzero : c.references.getD t 0 = 0 := h t ht
    rw [getD_releaseAll]
    omega

/-- What a removal leaves: no subgraph has new splits, and what is still referred to has not lost
all its splits. -/
structure Trims (c c' : Chart) : Prop where
  toplevel : c'.toplevel = c.toplevel
  sublist : ∀ t, (c'.splitsFor t).Sublist (c.splitsFor t)
  kept : ∀ t, c'.Mentions t → c.hasSplits t = true → c'.hasSplits t = true

namespace Trims

theorem refl (c : Chart) : Trims c c := ⟨rfl, fun _ => .refl _, fun _ _ h => h⟩

theorem mentions (h : Trims c c') (hs : c'.Mentions s) : c.Mentions s := by
  rcases hs with htop | ⟨t, split, hsplit, hw⟩
  · exact .inl (h.toplevel ▸ htop)
  · exact .inr ⟨t, split, (h.sublist t).subset hsplit, hw⟩

theorem trans {c'' : Chart} (h : Trims c c') (h' : Trims c' c'') : Trims c c'' where
  toplevel := h'.toplevel.trans h.toplevel
  sublist t := (h'.sublist t).trans (h.sublist t)
  kept t ht hsplits := h'.kept t ht (h.kept t (h'.mentions ht) hsplits)

/-- **A removal leaves a complete chart complete.** -/
theorem complete {g : Graph} (h : Trims c c') (hc : c.Complete g) : c'.Complete g where
  sound t split hsplit := hc.sound t split ((h.sublist t).subset hsplit)
  inside s hs := hc.inside s (h.toplevel ▸ hs)
  settled s hs := (hc.settled s (h.mentions hs)).imp id (h.kept s hs)

end Trims

/-- A subgraph without references can lose its splits. -/
theorem trims_detach (h : c.Consistent) (hs : c.referenceCount s = 0) : Trims c (c.detach s).2 where
  toplevel := rfl
  sublist t := by
    rw [splitsFor_detach]
    split
    · exact List.nil_sublist _
    · exact .refl _
  kept t ht hsplits := by
    by_cases hst : s = t
    · -- a subgraph that nothing refers to is not referred to after a removal either
      subst hst
      have hzero : (c.detach s).2.referenceCount s = 0 := by
        show (releaseAll c.references (componentsIn (c.splitsFor s))).2.getD s 0 = 0
        rw [getD_releaseAll]
        show c.referenceCount s - _ = 0
        omega
      have hpos := (consistent_detach h s).mentions_iff.mp ht
      omega
    · rw [hasSplits, splitsFor_detach, if_neg hst]
      exact hsplits

/-- **A cascade keeps the chart consistent and removes nothing that is referred to.** -/
theorem cascade_spec (h : c.Consistent) (doomed : List Subgraph)
    (hdoomed : ∀ s ∈ doomed, c.referenceCount s = 0) :
    (c.cascade doomed).Consistent ∧ Trims c (c.cascade doomed) := by
  fun_induction cascade c doomed with
  | case1 c doomed hnil => exact ⟨h, .refl c⟩
  | case2 c doomed s rest hstored _ ih =>
    have hsub : ∀ t ∈ s :: rest, t ∈ doomed := by
      intro t ht
      rw [← hstored] at ht
      exact (List.dropWhile_sublist _).subset ht
    have hs : c.referenceCount s = 0 := hdoomed s (hsub s List.mem_cons_self)
    have hnext : ∀ t ∈ (c.detach s).1.reverse ++ rest, (c.detach s).2.referenceCount t = 0 :=
      referenceCount_detach_eq_zero fun t ht => hdoomed t (hsub t (List.mem_cons_of_mem _ ht))
    obtain ⟨hconsistent, htrims⟩ := ih (consistent_detach h s) hnext
    exact ⟨hconsistent, (trims_detach h hs).trans htrims⟩

/-- The splits after those of one subgraph were replaced. -/
theorem splitsFor_replaced (c : Chart) (s t : Subgraph) (splits : List Split) :
    ((c.detach s).2.addSplits s splits).splitsFor t
      = if s = t then splits else c.splitsFor t := by
  rw [splitsFor_addSplits, splitsFor_detach]
  split
  · rfl
  · rfl

/-- **Replacing the splits of a subgraph by some of them succeeds, and trims the chart.** -/
theorem setSplits_spec (h : c.Consistent) {kept : List Split} (hne : kept ≠ [])
    (hkept : kept.Sublist (c.splitsFor s)) :
    ∃ c', c.setSplits s kept = .ok c' ∧ c'.Consistent ∧ Trims c c' ∧ c'.counts = ∅ := by
  have hreplaced : ((c.detach s).2.addSplits s kept).Consistent :=
    consistent_addSplits (consistent_detach h s) s kept
  have htrims : Trims c ((c.detach s).2.addSplits s kept) := by
    refine ⟨toplevel_addSplits _ _ _, fun t => ?_, fun t _ ht => ?_⟩
    · rw [splitsFor_replaced]
      split
      · next hst => exact hst ▸ hkept
      · exact .refl _
    · rw [hasSplits_iff, splitsFor_replaced]
      split
      · exact hne
      · exact hasSplits_iff.mp ht
  rw [setSplits, if_neg (fun hbad => hne (List.isEmpty_iff.mp hbad.1))]
  obtain ⟨hconsistent, htrims'⟩ := cascade_spec hreplaced _
    fun t ht => (mem_unreferencedIn.mp ht).2
  have hall := htrims.trans htrims'
  exact ⟨_, rfl, hconsistent.with_counts ∅, ⟨hall.toplevel, hall.sublist, hall.kept⟩, rfl⟩

end Dominance.Chart
