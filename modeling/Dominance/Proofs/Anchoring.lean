import Mathlib.Data.List.TakeWhile
import Dominance.Chart.Thin
import Dominance.Proofs.References

/-!
# Nothing hangs loose

A chart is anchored if everything it stores is referred to.
When splits are replaced, subgraphs may lose their last reference; the cascade removes them, and
what it frees in turn, until the chart is anchored again.
It changes no splits on the way: what is still stored in the end has the splits it had.

In an anchored chart of a graph every stored subgraph is reached from the top, since what refers to
it is larger.

* `mem_freed` — what loses its last reference is noticed
* `anchored_cascade`, `splitsFor_cascade` — what a cascade leaves
* `keepOnly_exact` — what is left when some splits of one subgraph are kept
* `Anchored.induction` — from the top down to everything stored
-/

namespace Dominance.Chart

variable {c c' : Chart} {g : Graph} {s t : Subgraph} {kept : List Split}

/-- Everything that is stored is referred to. -/
def Anchored (c : Chart) : Prop := ∀ t, c.hasSplits t = true → c.Mentions t

theorem contains_of_hasSplits (h : c.hasSplits s = true) : c.table.contains s = true := by
  rw [hasSplits_iff, splitsFor_eq] at h
  rw [Std.TreeMap.contains_eq_isSome_getElem?]
  cases hs : c.table[s]? with
  | none => simp [hs] at h
  | some splits => rfl

theorem mem_dropWhile {α : Type} {p : α → Bool} {as : List α} {a : α} (h : a ∈ as)
    (ha : p a = false) : a ∈ as.dropWhile p := by
  rw [← List.takeWhile_append_dropWhile (p := p) (l := as)] at h
  rcases List.mem_append.mp h with htake | hdrop
  · rw [List.mem_takeWhile_imp htake] at ha
    cases ha
  · exact hdrop

/-! ## Cascades -/

/-- What has references and is left without any is freed. -/
theorem mem_freed {references : Std.TreeMap Subgraph Nat} {ss : List Subgraph}
    (hpos : 0 < references.getD t 0) (hzero : (releaseAll references ss).2.getD t 0 = 0) :
    t ∈ (releaseAll references ss).1 := by
  induction ss generalizing references with
  | nil =>
    simp only [releaseAll] at hzero
    omega
  | cons s ss ih =>
    simp only [releaseAll] at hzero ⊢
    by_cases hleft : (release references s).getD t 0 = 0
    · -- the last reference goes here
      have hst : s = t := by
        by_contra hst
        rw [getD_release, if_neg hst] at hleft
        omega
      subst hst
      simp [hleft]
    · have hmem := ih (Nat.pos_of_ne_zero hleft) hzero
      split
      · exact List.mem_cons_of_mem _ hmem
      · exact hmem

theorem mem_stored {doomed : List Subgraph} (h : t ∈ doomed) (ht : c.hasSplits t = true) :
    t ∈ c.stored doomed :=
  mem_dropWhile h (by simp [contains_of_hasSplits ht])

/-- **A cascade from all that is stored without references leaves nothing loose.** -/
theorem anchored_cascade (h : c.Consistent) (doomed : List Subgraph)
    (hdoomed : ∀ t ∈ doomed, c.referenceCount t = 0)
    (hloose : ∀ t, c.hasSplits t = true → c.referenceCount t = 0 → t ∈ doomed) :
    (c.cascade doomed).Anchored := by
  fun_induction cascade c doomed with
  | case1 c doomed hnil =>
    intro t ht
    by_contra hnot
    have hzero : c.referenceCount t = 0 :=
      Nat.eq_zero_of_not_pos fun hpos => hnot (h.mentions_iff.mpr hpos)
    have hstored := mem_stored (hloose t ht hzero) ht
    rw [hnil] at hstored
    cases hstored
  | case2 c doomed s rest hstored _ ih =>
    have hrest : ∀ t ∈ rest, c.referenceCount t = 0 := by
      intro t ht
      have hsub : t ∈ c.stored doomed := hstored ▸ List.mem_cons_of_mem s ht
      exact hdoomed t ((List.dropWhile_sublist _).subset hsub)
    refine ih (consistent_detach h s) (referenceCount_detach_eq_zero hrest) fun t ht hzero => ?_
    have hst : s ≠ t := by
      rintro rfl
      rw [hasSplits_iff, splitsFor_detach, if_pos rfl] at ht
      exact ht rfl
    have hsplits : c.hasSplits t = true := by
      rwa [hasSplits, splitsFor_detach, if_neg hst] at ht
    rw [List.mem_append, List.mem_reverse]
    by_cases hbefore : c.referenceCount t = 0
    · have hin := mem_stored (hloose t hsplits hbefore) hsplits
      rw [hstored] at hin
      exact .inr ((List.mem_cons.mp hin).resolve_left hst.symm)
    · exact .inl (mem_freed (Nat.pos_of_ne_zero hbefore) hzero)

/-- A cascade removes all splits of a subgraph or none. -/
theorem splitsFor_cascade {doomed : List Subgraph} (h : (c.cascade doomed).hasSplits t = true) :
    (c.cascade doomed).splitsFor t = c.splitsFor t := by
  fun_induction cascade c doomed with
  | case1 c doomed hnil => rfl
  | case2 c doomed s rest hstored _ ih =>
    have hsplits := ih h
    rw [splitsFor_detach] at hsplits
    split at hsplits
    · exact absurd hsplits (hasSplits_iff.mp h)
    · exact hsplits

/-! ## Replacing splits -/

/-- What loses all references when the splits of a subgraph are replaced was a component of the old
splits. -/
theorem mem_componentsIn_of_unreferenced (h : c.Consistent) (ht : c.Mentions t)
    (hzero : ((c.detach s).2.addSplits s kept).referenceCount t = 0) :
    t ∈ componentsIn (c.splitsFor s) := by
  have hnot : ¬((c.detach s).2.addSplits s kept).Mentions t := by
    rw [(consistent_addSplits (consistent_detach h s) s kept).mentions_iff]
    omega
  rcases ht with htop | ⟨u, split, hsplit, hw⟩
  · exact absurd (.inl (by rw [toplevel_addSplits]; exact htop)) hnot
  · by_cases hsu : s = u
    · subst hsu
      exact List.mem_flatMap.mpr ⟨split, hsplit, hw⟩
    · refine absurd (.inr ⟨u, split, ?_, hw⟩) hnot
      rw [splitsFor_replaced, if_neg hsu]
      exact hsplit

/-- **Replacing the splits of a subgraph by some of them leaves an anchored chart anchored, and
changes the splits of nothing else that is still stored.** -/
theorem setSplits_exact (h : c.Consistent) (ha : c.Anchored) (hne : kept ≠ [])
    (hkept : kept.Sublist (c.splitsFor s)) (hset : c.setSplits s kept = .ok c') :
    c'.Anchored ∧
      ∀ t, c'.hasSplits t = true → c'.splitsFor t = if s = t then kept else c.splitsFor t := by
  rw [setSplits, if_neg (fun hbad => hne (List.isEmpty_iff.mp hbad.1))] at hset
  cases hset
  refine ⟨?_, fun t ht => ?_⟩
  · refine anchored_cascade (consistent_addSplits (consistent_detach h s) s kept) _ ?_ ?_
    · exact fun t ht => (mem_unreferencedIn.mp ht).2
    · intro t ht hzero
      -- what is stored after the replacement was stored, and so referred to, before
      have hbefore : c.hasSplits t = true := by
        rw [hasSplits_iff] at ht ⊢
        rw [splitsFor_replaced] at ht
        split at ht
        · next hst =>
          subst hst
          exact fun hnil => hne (List.sublist_nil.mp (hnil ▸ hkept))
        · exact ht
      have hmem := mem_componentsIn_of_unreferenced h (ha t hbefore) hzero
      exact mem_unreferencedIn.mpr ⟨hmem, hzero⟩
  · rw [← splitsFor_replaced]
    exact splitsFor_cascade ht

theorem keepOnly_exact (h : c.Consistent) (ha : c.Anchored) (hne : kept ≠ [])
    (hkept : kept.Sublist (c.splitsFor s)) (hkeep : c.keepOnly s kept = .ok c') :
    c'.Anchored ∧
      ∀ t, c'.hasSplits t = true → c'.splitsFor t = if s = t then kept else c.splitsFor t := by
  unfold keepOnly at hkeep
  split at hkeep
  · exact setSplits_exact h ha hne hkept hkeep
  · next hlen =>
    cases hkeep
    have hall : kept = c.splitsFor s := hkept.eq_of_length_le (Nat.le_of_not_lt hlen)
    refine ⟨ha, fun t _ => ?_⟩
    split
    · next hst => rw [hall, hst]
    · rfl

/-! ## From the top down -/

/-- **What holds of the top-level subgraphs, and passes from a stored subgraph to the components of
its splits, holds of everything that an anchored chart stores.** -/
theorem Anchored.induction (ha : c.Anchored) (hc : c.Complete g) {P : Subgraph → Prop}
    (htop : ∀ s ∈ c.toplevel, P s)
    (hpart : ∀ t, c.hasSplits t = true → P t → ∀ split ∈ c.splitsFor t, ∀ w ∈ split.components,
      P w)
    (hs : c.hasSplits s = true) : P s := by
  -- by induction on how much is missing to the whole graph: what refers to a subgraph is larger
  induction hn : g.size - s.size using Nat.strongRecOn generalizing s with
  | _ n ih =>
    rcases ha s hs with hmem | ⟨t, split, hsplit, hw⟩
    · exact htop s hmem
    · have ht : c.hasSplits t = true := hasSplits_iff.mpr (List.ne_nil_of_mem hsplit)
      have hlt := Graph.size_lt_of_mem_components (hc.sound t split hsplit).1 hw
      have hle : t.size ≤ g.size := Graph.size_le_of_lt (hc.lt (ha t ht))
      exact hpart t ht (ih _ (by omega) ht rfl) split hsplit s hw

end Dominance.Chart
