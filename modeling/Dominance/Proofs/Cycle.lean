import Dominance.Proofs.Declarations
import Dominance.Proofs.Renumbering

/-!
# Cycles

A fragment can be put on top of a subgraph only if no edge of the subgraph enters its root.
So nothing can ever be put on top of a whole subgraph in which every root is entered from within:
a fragment from elsewhere that is put on top leaves it in one component.
If it has several roots, the descent never ends in single roots, and solving gets stuck.

What a root on a cycle reaches is such a subgraph.
It has several roots as soon as one edge leads out of the fragment of the root.
If there is no such edge, all that the root reaches is its own fragment, and the cycle does not
matter: a fragment without anything below it is never taken away from others, and a subgraph with a
single root is settled without a look at the edges within it.
The graph without the constraints on the cycle mirrors the graph.

* `Locked.exists_component`, `Locked.not_solvable` — a locked part stays together, and is not
  solvable
* `exists_root_on_cycle` — a cycle comes through the root of the fragment of each of its nodes
* `locked_reachable` — a cycle locks what it reaches
* `lowest_of_cycle` — a solvable graph has no cycles but those within a fragment that no edge leaves
* `no_chart_of_cycle` — a cycle that an edge leaves makes a graph unsolvable
* `solves_looped` — a cycle within a fragment of its own does not
* `loops_are_irrelevant` — constraints within a fragment that no edge leaves can be dropped
-/

namespace Dominance.Graph

open Relation

variable {g : Graph} {k s : Subgraph} {split : Split} {m n r u v : Nat}

/-! ## Locked parts -/

/-- A whole subgraph with several roots, each of them entered by an edge from within. -/
structure Locked (g : Graph) (k : Subgraph) : Prop where
  whole : g.Whole k
  entered : ∀ r ∈ k, g.isRoot r = true → ∃ m ∈ k, g.Arc m r
  several : ∃ r ∈ g.rootsIn k, ∃ t ∈ g.rootsIn k, r ≠ t

/-- **A split of a larger subgraph leaves a locked part in one of its components.** -/
theorem Locked.exists_component (h : g.Locked k) (hs : g.Whole s) (hks : ∀ n ∈ k, n ∈ s)
    (hsplit : split ∈ g.splits s) : ∃ w ∈ split.components, ∀ n ∈ k, n ∈ w := by
  obtain ⟨hroot, -, hopen⟩ := mem_openRoots.mp (mem_splits.mp hsplit).1
  have houtside : split.root ∉ k := by
    intro hk
    obtain ⟨m, hm, harc⟩ := h.entered _ hk hroot
    exact hopen m (hks m hm) harc
  have hclear : ∀ n ∈ k, n ∈ s.without (g.fragment split.root) := fun n hn =>
    Subgraph.mem_without.mpr ⟨hks n hn, h.whole.not_mem_of_root_not_mem houtside n hn⟩
  obtain ⟨a, ha⟩ := h.whole.nonempty
  obtain ⟨w, hw, haw⟩ := Graph.exists_component (g := g) (hclear a ha)
  exact ⟨w, (hs.mem_components_iff hsplit).mpr hw,
    hw.subset_of_connected h.whole.connected hclear ha haw⟩

/-- **No subgraph that holds a locked part is solvable.** -/
theorem Locked.not_solvable (h : g.Locked k) (hs : g.Whole s) (hks : ∀ n ∈ k, n ∈ s) :
    ¬g.Solvable s := by
  intro hsolvable
  induction hsolvable with
  | @sole s r hsole =>
    obtain ⟨a, ha, b, hb, hne⟩ := h.several
    have hmem : ∀ t ∈ g.rootsIn k, t ∈ g.rootsIn s := fun t ht =>
      mem_rootsIn.mpr ((mem_rootsIn.mp ht).imp_left (hks t))
    rw [soleRoot?_eq_some_iff.mp hsole] at hmem
    exact hne ((List.mem_singleton.mp (hmem a ha)).trans (List.mem_singleton.mp (hmem b hb)).symm)
  | @split s split hsplit _ ih =>
    obtain ⟨w, hw, hkw⟩ := h.exists_component hs hks hsplit
    exact ih w hw (hs.of_mem_components hsplit hw) hkw

/-- **A graph with a locked part has no chart.** -/
theorem Locked.solve?_eq_none (hg : g.isWeaklyNormal = true) (h : g.Locked k) :
    g.solve? = none := by
  obtain ⟨a, ha⟩ := h.whole.nonempty
  obtain ⟨w, hw, haw⟩ := exists_mem_wholeComponents (h.whole.lt a ha)
  have hkw : ∀ n ∈ k, n ∈ w :=
    (mem_componentsOf.mp hw).subset_of_connected h.whole.connected
      (fun n hn => Subgraph.mem_range.mpr (h.whole.lt n hn)) ha haw
  rw [← Option.not_isSome_iff_eq_none, isSome_solve?]
  intro hsolved
  have hall := (solved_iff hg (SplitSource.selects_complete g) ()).mp hsolved
  exact h.not_solvable (whole_of_mem_wholeComponents hw) hkw (hall w hw)

/-! ## What a cycle reaches -/

theorem mem_reachable : n ∈ g.reachable m ↔ ReflTransGen g.Arc m n := by
  rw [← reaches_iff, reaches, Subgraph.contains_iff]

/-- A path of a weakly normal graph follows tree edges only, or does so from the last root that it
enters. -/
theorem treePath_or_through_root (hg : g.isWeaklyNormal = true) (h : TransGen g.Arc m n) :
    TransGen g.TreeArc m n ∨
      ∃ r, g.isRoot r = true ∧ TransGen g.Arc m r ∧ ReflTransGen g.TreeArc r n := by
  induction h with
  | single harc =>
    rcases harc.tree_or_dominance with ht | hd
    · exact .inl (.single ht)
    · exact .inr ⟨_, isRoot_target hg hd, .single harc, .refl⟩
  | tail hpath harc ih =>
    rcases harc.tree_or_dominance with ht | hd
    · rcases ih with htree | ⟨r, hr, hmr, hrn⟩
      · exact .inl (htree.tail ht)
      · exact .inr ⟨r, hr, hmr, hrn.tail ht⟩
    · exact .inr ⟨_, isRoot_target hg hd, hpath.tail harc, .refl⟩

/-- **A cycle comes through the root of the fragment of each of its nodes.** -/
theorem exists_root_on_cycle (hg : g.isWeaklyNormal = true) (h : TransGen g.Arc n n) :
    ∃ r ∈ g.fragment n, g.isRoot r = true ∧ TransGen g.Arc r r := by
  rcases treePath_or_through_root hg h with htree | ⟨r, hr, hnr, hrn⟩
  · exact absurd htree (not_treeCycle (isSimple_of_isWeaklyNormal hg) n)
  · have hback : ReflTransGen g.Arc r n := ReflTransGen.mono (fun _ _ => TreeArc.arc) _ _ hrn
    exact ⟨r, mem_fragment_symm (mem_fragment_of_treePath hrn), hr,
      TransGen.trans_right hback hnr⟩

/--
What a root reaches is whole.

A tree edge that is taken backwards starts at a node that is no root, and that the path entered
through this tree edge.
-/
theorem whole_reachable (hg : g.isWeaklyNormal = true) (hr : g.isRoot r = true) :
    g.Whole (g.reachable r) := by
  have hlinked : ∀ n ∈ g.reachable r, g.Linked (g.reachable r) r n := by
    intro n hn
    rw [mem_reachable] at hn
    induction hn with
    | refl => exact .refl
    | tail hpath harc ih =>
      exact ih.tail ⟨.inl harc, mem_reachable.mpr (hpath.tail harc)⟩
  have hself : r ∈ g.reachable r := mem_reachable.mpr .refl
  refine ⟨⟨r, hself⟩, fun n hn => ?_, fun m hm n hn => ?_, fun m hm n hj => ?_⟩
  · rcases ReflTransGen.cases_tail (mem_reachable.mp hn) with rfl | ⟨p, -, harc⟩
    · exact (isRoot_iff.mp hr).1
    · exact harc.target_lt
  · exact ((hlinked m hm).symm hself).trans (hlinked n hn)
  · rw [mem_reachable] at hm ⊢
    rcases hj with hmn | hnm
    · exact hm.tail hmn.arc
    rcases ReflTransGen.cases_tail hm with rfl | ⟨p, hp, harc⟩
    · exact absurd hnm ((isRoot_iff.mp hr).2 n)
    rcases harc.tree_or_dominance with ht | hd
    · exact singleAbove_treeArc (isSimple_of_isWeaklyNormal hg) ht hnm ▸ hp
    · exact absurd hnm ((isRoot_iff.mp (isRoot_target hg hd)).2 n)

/-- **A root on a cycle locks all that it reaches, if an edge leads out of its fragment.** -/
theorem locked_reachable (hg : g.isWeaklyNormal = true) (hr : g.isRoot r = true)
    (hcycle : TransGen g.Arc r r) (hu : u ∈ g.fragment r) (huv : g.Arc u v)
    (hv : v ∉ g.fragment r) : g.Locked (g.reachable r) := by
  have hroot : g.isRoot v = true :=
    isRoot_target hg (huv.dominance_of_not_mem (k := r) fun h => hv (h.mp hu))
  have hru : ReflTransGen g.Arc r u := ReflTransGen.mono (fun _ _ => TreeArc.arc) _ _
    (treePath_of_mem_fragment (isSimple_of_isWeaklyNormal hg) hr hu)
  refine ⟨whole_reachable hg hr, fun t ht _ => ?_, ?_⟩
  · -- the way around the cycle and on to `t` has a last edge
    obtain ⟨p, hrp, harc⟩ :=
      TransGen.tail'_iff.mp (hcycle.trans_left (mem_reachable.mp ht))
    exact ⟨p, mem_reachable.mpr hrp, harc⟩
  · exact ⟨r, mem_rootsIn.mpr ⟨mem_reachable.mpr .refl, hr⟩,
      v, mem_rootsIn.mpr ⟨mem_reachable.mpr (hru.tail huv), hroot⟩,
      fun heq => hv (heq ▸ self_mem_fragment)⟩

/-! ## Cyclic graphs -/

/-- **In a solvable graph, no edge leads out of a fragment that a cycle comes through.** -/
theorem lowest_of_cycle (hg : g.isWeaklyNormal = true) (hsolve : g.solve? ≠ none)
    (hcycle : TransGen g.Arc n n) : g.Lowest n := by
  obtain ⟨r, hrn, hr, hrr⟩ := exists_root_on_cycle hg hcycle
  intro u hu v huv
  rw [← fragment_eq_of_mem hrn] at hu ⊢
  by_contra hv
  exact hsolve ((locked_reachable hg hr hrr hu huv hv).solve?_eq_none hg)

/-- **A normal graph with a cycle is unsolvable, if some edge leads out of a fragment that the cycle
comes through.** -/
theorem no_chart_of_cycle (hg : g.isNormal = true) (hcycle : TransGen g.Arc n n)
    (hu : u ∈ g.fragment n) (huv : g.Arc u v) (hv : v ∉ g.fragment n) : g.solve? = none := by
  by_contra hsolve
  exact hv (lowest_of_cycle (isWeaklyNormal_of_isNormal hg) hsolve hcycle u hu v huv)

/-- Two fragments, each of which should lie below the hole of the other one, next to a third one. -/
def interlocked : Graph :=
  build [("x", some "f"), ("xh", none), ("y", some "g"), ("yh", none), ("z", some "a")]
    [⟨.tree, 0, 1⟩, ⟨.tree, 2, 3⟩, ⟨.dominance, 1, 2⟩, ⟨.dominance, 3, 0⟩, ⟨.dominance, 3, 4⟩]

theorem no_chart_of_cycle_interlocked :
    interlocked.isNormal = true ∧ TransGen interlocked.Arc 0 0 ∧ 1 ∈ interlocked.fragment 0
      ∧ interlocked.Arc 1 2 ∧ 2 ∉ interlocked.fragment 0 ∧ interlocked.solve? = none := by
  have hnormal : interlocked.isNormal = true := by decide +kernel
  have hx : interlocked.Arc 0 1 := ⟨.tree, by decide +kernel⟩
  have harc : interlocked.Arc 1 2 := ⟨.dominance, by decide +kernel⟩
  have hy : interlocked.Arc 2 3 := ⟨.tree, by decide +kernel⟩
  have hback : interlocked.Arc 3 0 := ⟨.dominance, by decide +kernel⟩
  have hcycle : TransGen interlocked.Arc 0 0 :=
    (((TransGen.single hx).tail harc).tail hy).tail hback
  have hmem : 1 ∈ interlocked.fragment 0 := by decide +kernel
  have hleaves : 2 ∉ interlocked.fragment 0 := by decide +kernel
  exact ⟨hnormal, hcycle, hmem, harc, hleaves, no_chart_of_cycle hnormal hcycle hmem harc hleaves⟩

/-- A fragment that should lie below its own hole. -/
def looped : Graph :=
  build [("r", some "f"), ("h", none)] [⟨.tree, 0, 1⟩, ⟨.dominance, 1, 0⟩]

/-- **A cycle alone does not make a normal graph unsolvable**: the only fragment of this one has a
single root, and is settled as it is. -/
theorem solves_looped :
    ¬∀ (g : Graph) (n : Nat), g.isNormal = true → TransGen g.Arc n n → g.solve? = none := by
  intro h
  have hdown : looped.Arc 0 1 := ⟨.tree, by decide +kernel⟩
  have hback : looped.Arc 1 0 := ⟨.dominance, by decide +kernel⟩
  have hnone : looped.solve? = none :=
    h looped 0 (by decide +kernel) ((TransGen.single hdown).tail hback)
  have hsolved : looped.solving.solved = true := by decide +kernel
  rw [← isSome_solve?, hnone] at hsolved
  cases hsolved

/-! ## Loops -/

/-- A graph without some of the constraints of another one. All that it misses lead out of fragments
that no edge leaves, so they are loops within these fragments. -/
structure DropsLoops (g' g : Graph) : Prop where
  declarations : g'.declarations = g.declarations
  treeEdges : g'.treeEdges = g.treeEdges
  subset : ∀ e ∈ g'.edges, e ∈ g.edges
  loop : ∀ {a b : Nat}, ⟨.dominance, a, b⟩ ∈ g.edges → ⟨.dominance, a, b⟩ ∉ g'.edges → g.Lowest a

/-- A node stands for itself. -/
def Itself (g : Graph) (a a' : Nat) : Prop := a < g.size ∧ a = a'

namespace DropsLoops

variable {g' : Graph}

theorem sameTrees (h : g'.DropsLoops g) : g'.SameTrees g where
  size := by rw [← length_declarations, h.declarations, length_declarations]
  isHole n := by rw [isHole_eq, isHole_eq, h.declarations]
  treeEdges := h.treeEdges

/-- A graph shows in the one without some of its loops. -/
theorem simulates (hg : g.isSimple = true) (h : g'.DropsLoops g) :
    g.Simulates g' g.Itself where
  simple := hg
  lt := And.left
  unique ha hb := ha.2.symm.trans hb.2
  root {a} ha := ⟨a, ⟨(isRoot_iff.mp ha).1, rfl⟩, h.sameTrees.isRoot a ▸ ha⟩
  fragment := by
    rintro a _ b _ ⟨-, rfl⟩ ⟨-, rfl⟩ hb
    exact h.sameTrees.fragment a ▸ hb
  edge {a b} he := by
    obtain ⟨ha, hb⟩ := g.coherent.ends _ he
    by_cases he' : ⟨.dominance, a, b⟩ ∈ g'.edges
    · exact .inl ⟨a, b, ⟨ha, rfl⟩, ⟨hb, rfl⟩, he'⟩
    · have hlow := h.loop he he'
      exact .inr ⟨hlow a self_mem_fragment b ⟨.dominance, he⟩, .inr hlow⟩

/-- The graph without some of the loops shows in the graph. -/
theorem simulated (hg : g.isSimple = true) (h : g'.DropsLoops g) :
    g'.Simulates g (flip g.Itself) where
  simple := h.sameTrees.isSimple ▸ hg
  lt {a a'} ha := h.sameTrees.size ▸ ha.2 ▸ ha.1
  unique ha hb := ha.2.trans hb.2.symm
  root {a} ha := ⟨a, ⟨h.sameTrees.size ▸ (isRoot_iff.mp ha).1, rfl⟩, h.sameTrees.isRoot a ▸ ha⟩
  fragment := by
    rintro a _ b _ ⟨-, rfl⟩ ⟨-, rfl⟩ hb
    exact h.sameTrees.fragment _ ▸ hb
  edge {a b} he := by
    obtain ⟨ha, hb⟩ := g.coherent.ends _ (h.subset _ he)
    exact .inl ⟨a, b, ⟨ha, rfl⟩, ⟨hb, rfl⟩, h.subset _ he⟩

theorem renumbers (hg : g.isSimple = true) (h : g'.DropsLoops g) :
    g.Renumbers g' g.Itself id where
  forth := h.simulates hg
  back := h.simulated hg
  number_eq := And.right
  lt_of_lt ha hb hlt := ha.2 ▸ hb.2 ▸ hlt
  spell_eq := by
    rintro a _ ⟨ha, rfl⟩
    exact spell_eq_of_getElem? (h.sameTrees.size ▸ ha) ha (by rw [h.declarations])

end DropsLoops

/--
**Loops within a fragment that no edge leaves do not matter.**

A graph and the graph without such loops are both solvable or both unsolvable. If they are solvable,
their charts count the same number of solved forms, and the solved forms that are enumerated are the
same ones, maybe in another order.
-/
theorem loops_are_irrelevant {g' : Graph} (hg : g.isSimple = true) (h : g'.DropsLoops g) :
    (g.solve?.isSome = true ↔ g'.solve?.isSome = true)
      ∧ ∀ c c', g.solve? = some c → g'.solve? = some c' →
          c.count.1 = c'.count.1
            ∧ (Readings.start g' c').rest.1.Perm (Readings.start g c).rest.1 := by
  have hsame := h.renumbers hg
  refine ⟨hsame.isSome_solve?_iff, fun c c' hc hc' => ⟨hsame.count_eq hc hc', ?_⟩⟩
  have hperm := hsame.rest_perm hc hc'
  rwa [SolvedForm.renumber_id, List.map_id] at hperm

/-- The loop of `looped` is of this kind. -/
example : (build [("r", some "f"), ("h", none)] [⟨.tree, 0, 1⟩]).DropsLoops looped where
  declarations := by decide +kernel
  treeEdges := by decide +kernel
  subset := by decide +kernel
  loop he _ m _ n harc := by
    have hall : ∀ a < looped.size, ∀ n < looped.size, n ∈ looped.fragment a := by decide +kernel
    exact hall _ (looped.coherent.ends _ he).1 n harc.target_lt

end Dominance.Graph
