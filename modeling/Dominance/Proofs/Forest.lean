import Dominance.Graph.Property
import Dominance.Proofs.Connection

/-!
# Forests and simple graphs

In a forest no node has two nodes right above it.
The nodes above a node then lie on one line, and a node reached from a top lies on no cycle.

The tree edges of a simple graph are such a forest: every fragment is a tree with one root, from
which tree edges lead to all its nodes.
In a weakly normal graph, an edge between two fragments is a dominance edge into a root.

* `above_or_below` — two nodes above a third lie one above the other
* `not_cycle_of_reached` — what a top reaches lies on no cycle
* `exists_highest` — where there is no cycle, something is on top
* `treePath_of_mem_fragment` — the root of a fragment reaches all of it
* `Whole.eq_fragment` — a whole subgraph with a single root is one fragment
-/

namespace Dominance

open Relation

/-! ## Relations with one node right above -/

section Above

variable {r : Nat → Nat → Prop}

/-- No node has two nodes right above it. -/
def SingleAbove (r : Nat → Nat → Prop) : Prop := ∀ ⦃a b c⦄, r a c → r b c → a = b

/-- A path that ends with a step into a node passes the node right above it. -/
theorem SingleAbove.path_above (hr : SingleAbove r) {a b c : Nat} (h : ReflTransGen r a c)
    (hbc : r b c) : a = c ∨ ReflTransGen r a b := by
  rcases ReflTransGen.cases_tail h with he | ⟨p, hap, hpc⟩
  · exact .inl he.symm
  · exact .inr (hr hbc hpc ▸ hap)

/-- **Two nodes above a third lie one above the other.** -/
theorem SingleAbove.above_or_below (hr : SingleAbove r) {a b c : Nat} (ha : ReflTransGen r a c)
    (hb : ReflTransGen r b c) : ReflTransGen r a b ∨ ReflTransGen r b a := by
  induction ha with
  | refl => exact .inr hb
  | tail hap hpc ih =>
    rcases hr.path_above hb hpc with rfl | hbp
    · exact .inl (hap.tail hpc)
    · exact ih hbp

/-- **What a top reaches lies on no cycle.** -/
theorem SingleAbove.not_cycle_of_reached (hr : SingleAbove r) {top n : Nat}
    (htop : ∀ a, ¬r a top) (h : ReflTransGen r top n) : ¬TransGen r n n := by
  induction h with
  | refl =>
    intro hcycle
    obtain ⟨p, -, hp⟩ := TransGen.tail'_iff.mp hcycle
    exact htop p hp
  | @tail m n _ hmn ih =>
    intro hcycle
    obtain ⟨p, hnp, hpn⟩ := TransGen.tail'_iff.mp hcycle
    rw [hr hpn hmn] at hnp
    exact ih (TransGen.head' hmn hnp)

/-- Nodes that reach each other are the same, if there is no cycle. -/
theorem eq_of_path_of_path (hacyclic : ∀ n, ¬TransGen r n n) {a b : Nat}
    (hab : ReflTransGen r a b) (hba : ReflTransGen r b a) : a = b := by
  rcases reflTransGen_iff_eq_or_transGen.mp hab with he | hab
  · exact he.symm
  · exact absurd (hab.trans_left hba) (hacyclic a)

/-- Every nonempty list has a member that no other member reaches, if there is no cycle. -/
theorem exists_highest (hacyclic : ∀ n, ¬TransGen r n n) {ns : List Nat} (hne : ns ≠ []) :
    ∃ m ∈ ns, ∀ n ∈ ns, ReflTransGen r n m → n = m := by
  induction ns with
  | nil => exact absurd rfl hne
  | cons a ns ih =>
    by_cases hnil : ns = []
    · subst hnil
      exact ⟨a, List.mem_cons_self, fun n hn _ => List.mem_singleton.mp hn⟩
    obtain ⟨m, hm, hhighest⟩ := ih hnil
    by_cases ham : ReflTransGen r a m
    · refine ⟨a, List.mem_cons_self, fun n hn hna => ?_⟩
      rcases List.mem_cons.mp hn with rfl | hn
      · rfl
      · have hnm := hhighest n hn (hna.trans ham)
        exact eq_of_path_of_path hacyclic hna (hnm ▸ ham)
    · refine ⟨m, List.mem_cons_of_mem _ hm, fun n hn hnm => ?_⟩
      rcases List.mem_cons.mp hn with rfl | hn
      · exact absurd hnm ham
      · exact hhighest n hn hnm

end Above

namespace Graph

variable {g : Graph} {s : Subgraph} {m n r : Nat}

/-! ## Roots -/

theorem isRoot_iff : g.isRoot n = true ↔ n < g.size ∧ ∀ m, ¬g.TreeArc m n := by
  simp only [isRoot, Bool.and_eq_true, decide_eq_true_eq, List.isEmpty_iff]
  refine and_congr_right fun _ => ⟨fun h m hm => ?_, fun h => ?_⟩
  · have := mem_parents.mpr hm
    rw [h] at this
    cases this
  · exact List.eq_nil_iff_forall_not_mem.mpr fun m hm => h m (mem_parents.mp hm)

@[simp]
theorem mem_rootsIn : r ∈ g.rootsIn s ↔ r ∈ s ∧ g.isRoot r = true := List.mem_filter

theorem soleRoot?_eq_some_iff : g.soleRoot? s = some r ↔ g.rootsIn s = [r] := by
  unfold soleRoot?
  split
  · next h => rw [h]; simp
  · next h =>
    constructor
    · simp
    · exact fun hr => absurd hr (h r)

theorem soleRoot?_eq_none_iff : g.soleRoot? s = none ↔ (g.rootsIn s).length ≠ 1 := by
  simp only [Option.eq_none_iff_forall_ne_some, ne_eq, soleRoot?_eq_some_iff,
    List.length_eq_one_iff, not_exists]

/-! ## Incoming edges -/

/-- A graph in which no node lists two incoming edges is a forest, apart from cycles. -/
theorem singleAbove_arc (h : ∀ n, (g.incoming n).length ≤ 1) : SingleAbove g.Arc := by
  rintro a b n ⟨kind, ha⟩ ⟨kind', hb⟩
  have ha' : ⟨kind, a, n⟩ ∈ g.incoming n := mem_incoming.mpr ⟨ha, rfl⟩
  have hb' : ⟨kind', b, n⟩ ∈ g.incoming n := mem_incoming.mpr ⟨hb, rfl⟩
  match hin : g.incoming n, h n with
  | [], _ => rw [hin] at ha'; cases ha'
  | [e], _ =>
    rw [hin, List.mem_singleton] at ha' hb'
    rw [← hb'] at ha'
    cases ha'
    rfl

theorem incoming_eq_nil_iff {n : Nat} : g.incoming n = [] ↔ ∀ m, ¬g.Arc m n := by
  rw [List.eq_nil_iff_forall_not_mem]
  constructor
  · rintro h m ⟨kind, he⟩
    exact h _ (mem_incoming.mpr ⟨he, rfl⟩)
  · rintro h ⟨kind, a, b⟩ he
    obtain ⟨hedge, rfl⟩ := mem_incoming.mp he
    exact h a ⟨kind, hedge⟩

/-! ## Simple graphs -/

theorem length_parents_le (h : g.isSimple = true) (n : Nat) : (g.parents .tree n).length ≤ 1 := by
  simp only [isSimple, Bool.and_eq_true, List.all_eq_true, List.mem_range, decide_eq_true_eq] at h
  by_cases hn : n < g.size
  · exact h.1 n hn
  · have hnil : g.parents .tree n = [] := by
      refine List.eq_nil_iff_forall_not_mem.mpr fun m hm => hn ?_
      exact (TreeArc.arc (mem_parents.mp hm)).target_lt
    rw [hnil]
    exact Nat.zero_le 1

/-- Tree edges form a forest, apart from cycles, if no node has two parents. -/
theorem singleAbove_of_length_parents_le (h : ∀ n, (g.parents .tree n).length ≤ 1) :
    SingleAbove g.TreeArc := by
  intro a b c hac hbc
  have ha := mem_parents.mpr hac
  have hb := mem_parents.mpr hbc
  have hlen := h c
  match hp : g.parents .tree c with
  | [] => rw [hp] at ha; cases ha
  | [p] =>
    rw [hp, List.mem_singleton] at ha hb
    rw [ha, hb]
  | _ :: _ :: _ => rw [hp] at hlen; simp at hlen

/-- The tree edges of a simple graph form a forest. -/
theorem singleAbove_treeArc (h : g.isSimple = true) : SingleAbove g.TreeArc :=
  singleAbove_of_length_parents_le (length_parents_le h)

theorem rootsIn_fragment (h : g.isSimple = true) (hm : m < g.size) :
    ∃ r, g.rootsIn (g.fragment m) = [r] := by
  simp only [isSimple, Bool.and_eq_true, List.all_eq_true, decide_eq_true_eq] at h
  exact List.length_eq_one_iff.mp (h.2 _ (fragment_mem_fragments hm))

/-- Every fragment of a simple graph has a root. -/
theorem exists_root_mem_fragment (h : g.isSimple = true) (hm : m < g.size) :
    ∃ r ∈ g.fragment m, g.isRoot r = true := by
  obtain ⟨r, hr⟩ := rootsIn_fragment h hm
  exact ⟨r, mem_rootsIn.mp (hr ▸ List.mem_singleton_self r)⟩

/-- No fragment of a simple graph has two roots. -/
theorem eq_of_isRoot_of_mem_fragment (h : g.isSimple = true) (hr : g.isRoot r = true)
    (hm : g.isRoot m = true) (hmr : m ∈ g.fragment r) : m = r := by
  obtain ⟨t, ht⟩ := rootsIn_fragment h (isRoot_iff.mp hr).1
  have hmt : m ∈ g.rootsIn (g.fragment r) := mem_rootsIn.mpr ⟨hmr, hm⟩
  have hrt : r ∈ g.rootsIn (g.fragment r) := mem_rootsIn.mpr ⟨self_mem_fragment, hr⟩
  rw [ht, List.mem_singleton] at hmt hrt
  rw [hmt, hrt]

/--
A root reaches all of its fragment through tree edges, if no node has two tree edges above it.

A tree edge can be taken backwards, because the path to its target comes through its source; only
the root has nothing above it.
-/
theorem treePath_of_singleAbove (h : SingleAbove g.TreeArc) (hr : g.isRoot r = true)
    (hn : n ∈ g.fragment r) : ReflTransGen g.TreeArc r n := by
  rw [mem_fragment] at hn
  induction hn with
  | refl => exact .refl
  | @tail m n _ hj ih =>
    rcases hj with hmn | hnm
    · exact ih.tail hmn
    · rcases h.path_above ih hnm with rfl | hpath
      · exact absurd hnm ((isRoot_iff.mp hr).2 n)
      · exact hpath

/-- **The root of a fragment reaches all of it through tree edges.** -/
theorem treePath_of_mem_fragment (h : g.isSimple = true) (hr : g.isRoot r = true)
    (hn : n ∈ g.fragment r) : ReflTransGen g.TreeArc r n :=
  treePath_of_singleAbove (singleAbove_treeArc h) hr hn

/-- A tree path stays in its fragment. -/
theorem mem_fragment_of_treePath (h : ReflTransGen g.TreeArc m n) : n ∈ g.fragment m :=
  mem_fragment.mpr (ReflTransGen.mono (fun _ _ => Or.inl) _ _ h)

/-- The tree edges of a simple graph form no cycle. -/
theorem not_treeCycle (hg : g.isSimple = true) (n : Nat) : ¬TransGen g.TreeArc n n := by
  intro hcycle
  obtain ⟨p, -, hp⟩ := TransGen.tail'_iff.mp hcycle
  obtain ⟨r, hr, hroot⟩ := exists_root_mem_fragment hg hp.arc.target_lt
  exact (singleAbove_treeArc hg).not_cycle_of_reached (isRoot_iff.mp hroot).2
    (treePath_of_mem_fragment hg hroot (mem_fragment_symm hr)) hcycle

/-- **A whole subgraph with a single root is one fragment.** -/
theorem Whole.eq_fragment (hs : g.isSimple = true) (h : g.Whole s) (hr : g.soleRoot? s = some r) :
    s = g.fragment r := by
  have hroots := soleRoot?_eq_some_iff.mp hr
  have hrs : r ∈ s := (mem_rootsIn.mp (hroots ▸ List.mem_singleton_self r)).1
  ext n
  refine ⟨fun hn => ?_, fun hn => h.fragment_subset hrs n hn⟩
  obtain ⟨t, htn, ht⟩ := exists_root_mem_fragment hs (h.lt n hn)
  have hts : t ∈ g.rootsIn s := mem_rootsIn.mpr ⟨h.fragment_subset hn t htn, ht⟩
  rw [hroots, List.mem_singleton] at hts
  exact mem_fragment_symm (hts ▸ htn)

/-! ## Weakly normal graphs -/

theorem isSimple_of_isWeaklyNormal (h : g.isWeaklyNormal = true) : g.isSimple = true := by
  rw [isWeaklyNormal, Bool.and_eq_true] at h
  exact h.1

theorem isWeaklyNormal_of_isNormal (h : g.isNormal = true) : g.isWeaklyNormal = true := by
  simp only [isNormal, Bool.and_eq_true] at h
  exact h.1.1.1

theorem mem_dominanceEdges {e : Edge} :
    e ∈ g.dominanceEdges ↔ e ∈ g.edges ∧ e.kind = .dominance := by
  simp [dominanceEdges]

theorem isRoot_target (h : g.isWeaklyNormal = true) (he : ⟨.dominance, m, n⟩ ∈ g.edges) :
    g.isRoot n = true := by
  simp only [isWeaklyNormal, dominatesRoots, Bool.and_eq_true, List.all_eq_true] at h
  exact h.2 _ (mem_dominanceEdges.mpr ⟨he, rfl⟩)

/-- An edge is a tree edge, or a dominance edge into a root. -/
theorem Arc.tree_or_dominance (h : g.Arc m n) :
    g.TreeArc m n ∨ ⟨.dominance, m, n⟩ ∈ g.edges := by
  obtain ⟨kind, he⟩ := h
  cases kind with
  | tree => exact .inl he
  | dominance => exact .inr he

/-- An edge between two fragments is a dominance edge. -/
theorem Arc.dominance_of_not_mem (h : g.Arc m n) {k : Nat}
    (hk : ¬(m ∈ g.fragment k ↔ n ∈ g.fragment k)) : ⟨.dominance, m, n⟩ ∈ g.edges := by
  rcases h.tree_or_dominance with ht | hd
  · refine absurd ⟨fun hm => ?_, fun hn => ?_⟩ hk
    · exact mem_fragment_of_treeJoined hm (.inl ht)
    · exact mem_fragment_of_treeJoined hn (.inr ht)
  · exact hd

end Graph

end Dominance
