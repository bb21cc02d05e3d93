import Dominance.Proofs.CompactGraph

/-!
# What the checks of a graph recognise

A graph passes as simple if no node has two tree edges above it and every fragment has exactly one
root.
Nothing in this check looks for a cycle.
But a cycle of tree edges takes up the one parent of each of its nodes, so that nothing above a cycle
is a root; and where there is no cycle, the way up from any node ends at a root, which reaches the
whole fragment.
So the check recognises the forests.

The check for empty fragments looks at the fragments of roots.
These are all fragments if tree edges form no cycle; a fragment without a root is passed over.

* `isSimple_of_forest` — forests pass
* `simple_iff_forest` — nothing else passes, and roots are found by climbing
* `rooted_fragments_are_labelled` — what the check for empty fragments recognises
* `hasNoEmptyFragments_ringed` — an empty fragment that it passes over
-/

namespace Dominance.Graph

open Relation

variable {g : Graph} {m n r : Nat}

/-! ## Simple graphs -/

theorem length_incomingBy (g : Graph) (n : Nat) :
    (g.incomingBy .tree n).length = (g.parents .tree n).length := by
  rw [parents, List.length_map]

/-- A root that reaches its fragment is the only one there. -/
theorem eq_of_isRoot_of_singleAbove (hsingle : SingleAbove g.TreeArc) (hr : g.isRoot r = true)
    (hm : g.isRoot m = true) (hmr : m ∈ g.fragment r) : m = r := by
  rcases ReflTransGen.cases_tail (treePath_of_singleAbove hsingle hr hmr) with heq | ⟨p, -, hpm⟩
  · exact heq
  · exact absurd hpm ((isRoot_iff.mp hm).2 p)

/-- **A graph is simple if its tree edges form a forest.** -/
theorem isSimple_of_forest (hparents : ∀ n, (g.parents .tree n).length ≤ 1)
    (hacyclic : ∀ n, ¬TransGen g.TreeArc n n) : g.isSimple = true := by
  refine isSimple_of_roots hparents fun n hn => ?_
  have hroot := isRoot_fragmentRoot_of_acyclic hacyclic hn
  refine ⟨_, fragmentRoot_mem_fragment, hroot, fun m hm hmroot => ?_⟩
  refine eq_of_isRoot_of_singleAbove (singleAbove_of_length_parents_le hparents) hroot hmroot ?_
  rw [fragment_eq_of_mem fragmentRoot_mem_fragment]
  exact hm

theorem fragmentRootOf_eq (hn : n < g.size) : g.fragmentRootOf n = .ok (g.fragmentRoot n) := by
  rw [fragmentRootOf, if_neg (by omega)]
  exact if_pos hn

/--
**The simple graphs are those whose tree edges form a forest.**

A graph passes as simple if and only if at most one tree edge enters each node, repeated edges being
counted, and no path of tree edges leads from a node back to it. In a simple graph climbing from any
node succeeds, and leads to the only root of the fragment, from which tree edges lead to the node.
-/
theorem simple_iff_forest (g : Graph) :
    (g.isSimple = true ↔
        (∀ n, (g.incomingBy .tree n).length ≤ 1) ∧ ∀ n, ¬TransGen g.TreeArc n n)
      ∧ (g.isSimple = true → ∀ n < g.size, ∃ r, g.fragmentRootOf n = .ok r
        ∧ g.rootsIn (g.fragment n) = [r] ∧ ReflTransGen g.TreeArc r n) := by
  simp only [length_incomingBy]
  refine ⟨⟨fun hg => ⟨length_parents_le hg, not_treeCycle hg⟩,
    fun h => isSimple_of_forest h.1 h.2⟩, fun hg n hn => ?_⟩
  have hroot := isRoot_fragmentRoot hg hn
  have hback : n ∈ g.fragment (g.fragmentRoot n) := mem_fragment_symm fragmentRoot_mem_fragment
  refine ⟨_, fragmentRootOf_eq hn, ?_, treePath_of_mem_fragment hg hroot hback⟩
  refine rootsIn_eq_singleton fragmentRoot_mem_fragment hroot fun m hm hmroot => ?_
  exact eq_of_isRoot_of_mem_fragment hg hroot hmroot (fragment_eq_of_mem hback ▸ hm)

/-! ## Empty fragments -/

theorem isHole_eq_false_iff (hn : n < g.size) :
    g.isHole n = false ↔ ∃ text, g.label n = some text := by
  obtain ⟨v, hv⟩ := Option.isSome_iff_exists.mp (Registry.value?_isSome.mpr hn)
  rw [isHole, label, hv]
  cases h : v.label <;> simp [h]

/-- The fragment of a root passes if it has a labelled node. -/
theorem hasNoEmptyFragments_iff : g.hasNoEmptyFragments = true ↔
    ∀ r, g.isRoot r = true → ∃ m ∈ g.fragment r, ∃ text, g.label m = some text := by
  simp only [hasNoEmptyFragments, List.all_eq_true, mem_roots, List.any_eq_true,
    Subgraph.mem_ids, Bool.not_eq_true']
  refine forall_congr' fun r => forall_congr' fun hr => exists_congr fun m => ?_
  refine and_congr_right fun hm => isHole_eq_false_iff ?_
  exact lt_of_mem_fragment (isRoot_iff.mp hr).1 hm

/--
**The check for empty fragments finds the empty ones among the fragments with a root.**

If tree edges form no cycle, these are all fragments.
-/
theorem rooted_fragments_are_labelled (g : Graph) :
    (g.hasNoEmptyFragments = true ↔
        ∀ n < g.size, (∃ r ∈ g.fragment n, g.isRoot r = true) →
          ∃ m ∈ g.fragment n, ∃ text, g.label m = some text)
      ∧ ((∀ n, ¬TransGen g.TreeArc n n) →
        (g.hasNoEmptyFragments = true ↔
          ∀ n < g.size, ∃ m ∈ g.fragment n, ∃ text, g.label m = some text)) := by
  have hrooted : g.hasNoEmptyFragments = true ↔
      ∀ n < g.size, (∃ r ∈ g.fragment n, g.isRoot r = true) →
        ∃ m ∈ g.fragment n, ∃ text, g.label m = some text := by
    rw [hasNoEmptyFragments_iff]
    constructor
    · rintro h n - ⟨r, hr, hroot⟩
      rw [← fragment_eq_of_mem hr]
      exact h r hroot
    · intro h r hroot
      exact h r (isRoot_iff.mp hroot).1 ⟨r, self_mem_fragment, hroot⟩
  refine ⟨hrooted, fun hacyclic => hrooted.trans ?_⟩
  refine forall_congr' fun n => forall_congr' fun hn => ?_
  have hroot := isRoot_fragmentRoot_of_acyclic hacyclic hn
  exact ⟨fun h => h ⟨_, fragmentRoot_mem_fragment, hroot⟩, fun h _ => h⟩

/-- Two holes that hang below each other. -/
def ringed : Graph :=
  build [("a", none), ("b", none)] [⟨.tree, 0, 1⟩, ⟨.tree, 1, 0⟩]

/-- A fragment without a root is not looked at, so that two holes in a cycle pass. -/
theorem hasNoEmptyFragments_ringed :
    ringed.hasNoEmptyFragments = true
      ∧ ¬∀ n < ringed.size, ∃ m ∈ ringed.fragment n, ∃ text, ringed.label m = some text := by
  refine ⟨by decide +kernel, fun h => ?_⟩
  obtain ⟨m, hm, text, hlabel⟩ := h 0 (by decide +kernel)
  have hnone : ∀ m ∈ (ringed.fragment 0).ids, ringed.label m = none := by decide +kernel
  rw [hnone m hm] at hlabel
  cases hlabel

end Dominance.Graph
