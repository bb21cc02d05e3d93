import Dominance.Proofs.FreeFragment

/-!
# Solvable subgraphs

A subgraph is solvable if it can be split all the way down to subgraphs with a single root.
In a weakly normal graph it does not matter which free fragment is put on top first: a fragment that
is free in a whole subgraph stays free in every smaller one that holds it, so that two splits can be
done in either order.
Hence every split of a solvable subgraph has solvable components only, and solving never has to take
a choice back.

* `exists_split` — when a root has a split, in a weakly normal graph
* `exists_split_of_subset` — a free fragment stays free in smaller subgraphs
* `Solvable.components` — every split of a solvable subgraph keeps it solvable
-/

namespace Dominance.Graph

open Relation

variable {g : Graph} {s v w c : Subgraph} {split split' : Split} {r : Nat}

/-- A subgraph that can be split all the way down to single roots. -/
inductive Solvable (g : Graph) : Subgraph → Prop
  | sole {s : Subgraph} {r : Nat} (h : g.soleRoot? s = some r) : Solvable g s
  | split {s : Subgraph} {split : Split} (h : split ∈ g.splits s)
    (below : ∀ w ∈ split.components, Solvable g w) : Solvable g s

/-! ## Fragments and what lies below them -/

/-- A whole subgraph holds a fragment or shares no node with it. -/
theorem Whole.not_mem_of_root_not_mem (hs : g.Whole s) (hr : r ∉ s) :
    ∀ n ∈ s, n ∉ g.fragment r :=
  fun _ hn hnr => hr (hs.fragment_subset hn r (mem_fragment_symm hnr))

/--
An edge joins every component below a fragment to the fragment.

A path within the subgraph leads from the component to the root, and can leave the component only
into the fragment.
-/
theorem exists_joined_fragment (hs : g.Whole s) (hr : r ∈ s)
    (hw : g.IsComponent (s.without (g.fragment r)) w) :
    ∃ n ∈ w, ∃ m ∈ g.fragment r, g.Joined n m := by
  obtain ⟨a, ha⟩ := hw.nonempty
  have hpath : g.Linked s a r :=
    hs.connected a (Subgraph.mem_without.mp (hw.subset a ha)).1 r hr
  have hcases : ∀ x, g.Linked s a x → x ∈ w ∨ ∃ n ∈ w, ∃ m ∈ g.fragment r, g.Joined n m := by
    intro x hx
    induction hx with
    | refl => exact .inl ha
    | @tail b c _ hstep ih =>
      rcases ih with hb | hjoin
      · by_cases hc : c ∈ g.fragment r
        · exact .inr ⟨b, hb, c, hc, hstep.1⟩
        · exact .inl (hw.mem_of_joined hb hstep.1 (Subgraph.mem_without.mpr ⟨hstep.2, hc⟩))
      · exact .inr hjoin
  rcases hcases r hpath with hrw | hjoin
  · exact absurd self_mem_fragment (Subgraph.mem_without.mp (hw.subset r hrw)).2
  · exact hjoin

/-- Every edge between a fragment with an open root and the rest leads down. -/
theorem arc_of_joined_fragment (hg : g.isWeaklyNormal = true) (hr : r ∈ g.openRoots s) {m n : Nat}
    (hn : n ∈ s) (hnr : n ∉ g.fragment r) (hm : m ∈ g.fragment r) (hj : g.Joined n m) :
    g.Arc m n := by
  obtain ⟨hroot, -, hopen⟩ := mem_openRoots.mp hr
  rcases hj with hnm | hmn
  · have he := hnm.dominance_of_not_mem (k := r) (fun h => hnr (h.mpr hm))
    have hmr := eq_of_isRoot_of_mem_fragment (isSimple_of_isWeaklyNormal hg) hroot
      (isRoot_target hg he) hm
    exact absurd (hmr ▸ hnm) (hopen n hn)
  · exact hmn

/-- **An open root has a split if every component below its fragment is joined to one node of it
only.** -/
theorem exists_split (hg : g.isWeaklyNormal = true) (hs : g.Whole s) (hr : r ∈ g.openRoots s)
    (h : ∀ w, g.IsComponent (s.without (g.fragment r)) w →
      ∃ d, ∀ n ∈ w, ∀ m ∈ g.fragment r, g.Joined n m → m = d) :
    ∃ split ∈ g.splits s, split.root = r := by
  have hrs : r ∈ s := (mem_openRoots.mp hr).2.1
  have hfree : ∃ split, g.freeSplit? r s = some split := by
    apply exists_freeSplit?
    rw [hs.topOf_eq hrs]
    intro w hw
    obtain ⟨d, hd⟩ := h w hw
    obtain ⟨n, hn, m, hm, hj⟩ := exists_joined_fragment hs hrs hw
    have hns := Subgraph.mem_without.mp (hw.subset n hn)
    have hmd : m = d := hd n hn m hm hj
    exact ⟨d, hmd ▸ hm, ⟨n, hn, hmd ▸ arc_of_joined_fragment hg hr hns.1 hns.2 hm hj⟩, hd⟩
  obtain ⟨split, hsplit⟩ := hfree
  have hroot : split.root = r := (divides_of_freeSplit? hsplit).1
  exact ⟨split, mem_splits.mpr ⟨hroot ▸ hr, hroot.symm ▸ hsplit⟩, hroot⟩

/-- **A free fragment stays free in every smaller whole subgraph that holds it.** -/
theorem exists_split_of_subset (hg : g.isWeaklyNormal = true) (hs : g.Whole s) (hv : g.Whole v)
    (hvs : ∀ n ∈ v, n ∈ s) (h : split ∈ g.splits s) (hr : split.root ∈ v) :
    ∃ split' ∈ g.splits v, split'.root = split.root := by
  obtain ⟨hroot, -, hopen⟩ := mem_openRoots.mp (mem_splits.mp h).1
  have hd := hs.divides h
  apply exists_split hg hv
  · exact mem_openRoots.mpr ⟨hroot, hr, fun m hm => hopen m (hvs m hm)⟩
  · intro w hw
    have hws : ∀ n ∈ w, n ∈ s.without (g.fragment split.root) := by
      intro n hn
      obtain ⟨hnv, hnr⟩ := Subgraph.mem_without.mp (hw.subset n hn)
      exact Subgraph.mem_without.mpr ⟨hvs n hnv, hnr⟩
    obtain ⟨a, ha⟩ := hw.nonempty
    obtain ⟨p, hp, hap⟩ := hd.cover a (hws a ha)
    have hsub := (hd.component p hp).subset_of_connected hw.connected hws ha hap
    exact ⟨p.dominator, fun n hn => hd.hangs p hp n (hsub n hn)⟩

/-! ## Two splits in either order -/

/-- A component below one fragment that does not hold another fragment is a component below the
first one within the component below the other one. -/
theorem isComponent_of_root_not_mem (hs : g.Whole s) (hv : g.Whole v)
    {r₀ r₁ : Nat} (hr₁ : r₁ ∈ s) (hcv : g.IsComponent (s.without (g.fragment r₀)) v)
    (hr₁v : r₁ ∈ v) (hw : g.IsComponent (s.without (g.fragment r₁)) w) (hr₀ : r₀ ∉ w) :
    g.IsComponent (v.without (g.fragment r₁)) w := by
  have hwhole : g.Whole w := hs.of_component hw
  have hws : ∀ n ∈ w, n ∈ s.without (g.fragment r₀) := fun n hn =>
    Subgraph.mem_without.mpr ⟨(Subgraph.mem_without.mp (hw.subset n hn)).1,
      hwhole.not_mem_of_root_not_mem hr₀ n hn⟩
  -- an edge joins `w` to the fragment of `r₁`, and that lies in `v`
  obtain ⟨n, hn, m, hm, hj⟩ := exists_joined_fragment hs hr₁ hw
  have hmv : m ∈ v := hv.fragment_subset hr₁v m hm
  have hnv : n ∈ v := hcv.mem_of_joined hmv hj.symm (hws n hn)
  have hwv := hcv.subset_of_connected hw.connected hws hn hnv
  refine .of_connected hw.nonempty hw.connected (fun a ha => ?_) fun a ha b hb hab => ?_
  · exact Subgraph.mem_without.mpr ⟨hwv a ha, (Subgraph.mem_without.mp (hw.subset a ha)).2⟩
  · obtain ⟨hbv, hbr⟩ := Subgraph.mem_without.mp hb
    refine hw.mem_of_joined ha hab (Subgraph.mem_without.mpr ⟨?_, hbr⟩)
    exact (Subgraph.mem_without.mp (hcv.subset b hbv)).1

/--
A component that is left after two fragments are taken away, the second one from where it lay after
the first, was either left by the second one alone, or is also left if they are taken away in the
other order.
-/
theorem isComponent_swap (hs : g.Whole s) {r₀ r₁ : Nat} (hr₀ : r₀ ∈ s)
    (hw : g.IsComponent (s.without (g.fragment r₁)) w) (hr₀w : r₀ ∈ w)
    (hc : g.IsComponent (w.without (g.fragment r₀)) c) :
    ∃ v, g.IsComponent (s.without (g.fragment r₀)) v ∧
      (c = v ∨ (r₁ ∈ v ∧ g.IsComponent (v.without (g.fragment r₁)) c)) := by
  have hwhole : g.Whole w := hs.of_component hw
  have hcw : ∀ n ∈ c, n ∈ w ∧ n ∉ g.fragment r₀ :=
    fun n hn => Subgraph.mem_without.mp (hc.subset n hn)
  have hcs : ∀ n ∈ c, n ∈ s.without (g.fragment r₀) := fun n hn =>
    Subgraph.mem_without.mpr ⟨(Subgraph.mem_without.mp (hw.subset n (hcw n hn).1)).1, (hcw n hn).2⟩
  obtain ⟨a, ha⟩ := hc.nonempty
  obtain ⟨v, hv, hav⟩ := exists_component (g := g) (hcs a ha)
  have hvwhole : g.Whole v := hs.of_component hv
  have hcv := hv.subset_of_connected hc.connected hcs ha hav
  refine ⟨v, hv, ?_⟩
  by_cases hr₁v : r₁ ∈ v
  · refine .inr ⟨hr₁v, .of_connected hc.nonempty hc.connected (fun n hn => ?_) ?_⟩
    · exact Subgraph.mem_without.mpr
        ⟨hcv n hn, (Subgraph.mem_without.mp (hw.subset n (hcw n hn).1)).2⟩
    · intro m hm n hn hj
      obtain ⟨hnv, hnr₁⟩ := Subgraph.mem_without.mp hn
      obtain ⟨hns, hnr₀⟩ := Subgraph.mem_without.mp (hv.subset n hnv)
      have hnw := hw.mem_of_joined (hcw m hm).1 hj (Subgraph.mem_without.mpr ⟨hns, hnr₁⟩)
      exact hc.mem_of_joined hm hj (Subgraph.mem_without.mpr ⟨hnw, hnr₀⟩)
  · -- `v` stays clear of the fragment of `r₁`, and hangs together with that of `r₀` within `w`
    refine .inl ?_
    have hvr₁ := hvwhole.not_mem_of_root_not_mem hr₁v
    have hvs : ∀ n ∈ v, n ∈ s.without (g.fragment r₁) := fun n hn =>
      Subgraph.mem_without.mpr ⟨(Subgraph.mem_without.mp (hv.subset n hn)).1, hvr₁ n hn⟩
    obtain ⟨n, hn, m, hm, hj⟩ := exists_joined_fragment hs hr₀ hv
    have hnw := hw.mem_of_joined (hwhole.fragment_subset hr₀w m hm) hj.symm (hvs n hn)
    have hvw := hw.subset_of_connected hv.connected hvs hn hnw
    have hvc : ∀ n ∈ v, n ∈ w.without (g.fragment r₀) := fun n hn =>
      Subgraph.mem_without.mpr ⟨hvw n hn, (Subgraph.mem_without.mp (hv.subset n hn)).2⟩
    ext n
    exact ⟨hcv n, hc.subset_of_connected hv.connected hvc hav ha n⟩

/--
**Every split of a solvable subgraph has solvable components only.**

By induction on the size of the subgraph.
If the split does not put the fragment of the known solution on top, the two fragments can be taken
away in either order, and what is left below both of them is the same.
-/
theorem Solvable.components (hg : g.isWeaklyNormal = true) (hs : g.Whole s) (h : g.Solvable s)
    (hsplit : split ∈ g.splits s) : ∀ w ∈ split.components, g.Solvable w := by
  induction hsize : s.size using Nat.strongRecOn generalizing s split with
  | _ size ih =>
    have hsimple := isSimple_of_isWeaklyNormal hg
    have hr₁ : split.root ∈ s := root_mem_of_mem_splits hsplit
    intro w hw
    have hcw := (hs.mem_components_iff hsplit).mp hw
    cases h with
    | @sole _ r hr =>
      have heq := hs.eq_fragment hsimple hr
      obtain ⟨n, hn⟩ := hcw.nonempty
      obtain ⟨hns, hnr⟩ := Subgraph.mem_without.mp (hcw.subset n hn)
      rw [heq] at hns hr₁
      rw [fragment_eq_of_mem hr₁] at hnr
      exact absurd hns hnr
    | @split _ split₀ hsplit₀ below =>
      have hr₀ : split₀.root ∈ s := root_mem_of_mem_splits hsplit₀
      by_cases heq : split.root = split₀.root
      · rw [heq] at hcw
        exact below w ((hs.mem_components_iff hsplit₀).mpr hcw)
      · -- the fragment of the split lies in a component of the known solution, and is free there
        have hr₁₀ : split.root ∉ g.fragment split₀.root := fun hmem =>
          heq (eq_of_isRoot_of_mem_fragment hsimple (isRoot_root_of_mem_splits hsplit₀)
            (isRoot_root_of_mem_splits hsplit) hmem)
        have hbelow : ∀ v, g.IsComponent (s.without (g.fragment split₀.root)) v →
            split.root ∈ v → ∀ c, g.IsComponent (v.without (g.fragment split.root)) c →
              g.Solvable c := by
          intro v hv hr₁v c hc
          have hvmem := (hs.mem_components_iff hsplit₀).mpr hv
          have hvwhole := hs.of_mem_components hsplit₀ hvmem
          have hvs : ∀ n ∈ v, n ∈ s := fun n hn => (Subgraph.mem_without.mp (hv.subset n hn)).1
          obtain ⟨split₁, hsplit₁, hroot₁⟩ :=
            exists_split_of_subset hg hs hvwhole hvs hsplit hr₁v
          refine ih v.size ?_ hvwhole (below v hvmem) hsplit₁ rfl c ?_
          · exact hsize ▸ size_lt_of_mem_components hsplit₀ hvmem
          · rw [hvwhole.mem_components_iff hsplit₁, hroot₁]
            exact hc
        by_cases hr₀w : split₀.root ∈ w
        · have hwwhole : g.Whole w := hs.of_component hcw
          have hws : ∀ n ∈ w, n ∈ s := fun n hn => (Subgraph.mem_without.mp (hcw.subset n hn)).1
          obtain ⟨split₂, hsplit₂, hroot₂⟩ :=
            exists_split_of_subset hg hs hwwhole hws hsplit₀ hr₀w
          refine .split hsplit₂ fun c hc => ?_
          have hcc := (hwwhole.mem_components_iff hsplit₂).mp hc
          rw [hroot₂] at hcc
          obtain ⟨v, hv, rfl | ⟨hr₁v, hcv⟩⟩ := isComponent_swap hs hr₀ hcw hr₀w hcc
          · exact below c ((hs.mem_components_iff hsplit₀).mpr hv)
          · exact hbelow v hv hr₁v c hcv
        · obtain ⟨v, hv, hr₁v⟩ :=
            exists_component (g := g) (Subgraph.mem_without.mpr ⟨hr₁, hr₁₀⟩)
          exact hbelow v hv hr₁v w
            (isComponent_of_root_not_mem hs (hs.of_component hv) hr₁ hv hr₁v hcw hr₀w)

end Dominance.Graph
