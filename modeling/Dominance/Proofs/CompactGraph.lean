import Mathlib.Data.List.Perm.Subperm
import Dominance.Proofs.Declarations
import Dominance.Proofs.Soundness

/-!
# The compact version of a graph

The compact version of a simple graph keeps all roots and holes, with numbers in the same order, and
puts every kept node right below the root of its fragment.
There is such a root for every node: the climb up tree edges takes as many steps as there are nodes,
and never comes to a node twice.
So the fragments hold the same of the kept nodes before and after, and the compact version is simple
again.

* `isRoot_fragmentRoot` — climbing up tree edges ends at a root
* `Numbered` — which node has which number in the compact version
* `exists_compactify` — the compact version of a simple graph
* `Compacts.mem_fragment_iff` — fragments hold the same kept nodes
* `Compacts.isSimple` — the compact version is simple
-/

namespace Dominance

open Relation

/-! ## Lists of results -/

theorem mapM_eq_ok {α β ε : Type} {f : α → Except ε β} {value : α → β} {as : List α}
    (h : ∀ a ∈ as, f a = .ok (value a)) : as.mapM f = .ok (as.map value) := by
  induction as with
  | nil => rfl
  | cons a as ih =>
    rw [List.mapM_cons, h a List.mem_cons_self, ih fun b hb => h b (List.mem_cons_of_mem _ hb)]
    rfl

namespace Graph

variable {g c : Graph} {a b i j m n r : Nat}

/-! ## The root above a node -/

/-- The nodes on the way up to a node, itself included: all of them lie below, none came twice. -/
structure Climbed (g : Graph) (passed : List Nat) (n : Nat) : Prop where
  mem : n ∈ passed
  nodup : passed.Nodup
  below : ∀ m ∈ passed, m < g.size ∧ ReflTransGen g.TreeArc n m

/-- A step up leads to a new node. -/
theorem Climbed.step (hacyclic : ∀ n, ¬TransGen g.TreeArc n n) {passed : List Nat}
    (h : g.Climbed passed n) (harc : g.TreeArc a n) : g.Climbed (a :: passed) a where
  mem := List.mem_cons_self
  nodup := by
    refine List.nodup_cons.mpr ⟨fun hmem => ?_, h.nodup⟩
    exact hacyclic a (.head' harc (h.below a hmem).2)
  below m hm := by
    rcases List.mem_cons.mp hm with rfl | hm
    · exact ⟨harc.arc.source_lt, .refl⟩
    · exact ⟨(h.below m hm).1, .head harc (h.below m hm).2⟩

theorem Climbed.length_le {passed : List Nat} (h : g.Climbed passed n) :
    passed.length ≤ g.size := by
  have hsubset : passed ⊆ List.range g.size := fun m hm => List.mem_range.mpr (h.below m hm).1
  have hlength := (List.subperm_of_subset h.nodup hsubset).length_le
  rwa [List.length_range] at hlength

/-- **As many steps up as there are nodes lead to a root**, if tree edges form no cycle. -/
theorem isRoot_climb (hacyclic : ∀ n, ¬TransGen g.TreeArc n n) {steps : Nat} {passed : List Nat}
    (h : g.Climbed passed n) (hsteps : g.size ≤ steps + passed.length) :
    g.isRoot (g.climb steps n) = true := by
  induction steps generalizing n passed with
  | zero =>
    refine isRoot_iff.mpr ⟨(h.below n h.mem).1, fun p harc => ?_⟩
    have hlength := (h.step hacyclic harc).length_le
    rw [List.length_cons] at hlength
    omega
  | succ steps ih =>
    rw [climb]
    split
    · next hnil =>
      refine isRoot_iff.mpr ⟨(h.below n h.mem).1, fun p harc => ?_⟩
      have hmem := mem_parents.mpr harc
      rw [hnil] at hmem
      cases hmem
    · next p _ hp =>
      have harc : g.TreeArc p n := mem_parents.mp (hp ▸ List.mem_cons_self)
      refine ih (h.step hacyclic harc) ?_
      rw [List.length_cons]
      omega

theorem climb_mem_fragment (g : Graph) (steps n : Nat) : g.climb steps n ∈ g.fragment n := by
  induction steps generalizing n with
  | zero => exact self_mem_fragment
  | succ steps ih =>
    rw [climb]
    split
    · exact self_mem_fragment
    · next p _ hp =>
      have harc : g.TreeArc p n := mem_parents.mp (hp ▸ List.mem_cons_self)
      have hmem := mem_fragment_of_treeJoined self_mem_fragment (.inr harc)
      rw [← fragment_eq_of_mem hmem]
      exact ih p

theorem isRoot_fragmentRoot_of_acyclic (hacyclic : ∀ n, ¬TransGen g.TreeArc n n)
    (hn : n < g.size) : g.isRoot (g.fragmentRoot n) = true := by
  have hstart : g.Climbed [n] n := by
    refine ⟨List.mem_singleton_self n, List.nodup_singleton n, fun m hm => ?_⟩
    rw [List.mem_singleton.mp hm]
    exact ⟨hn, .refl⟩
  exact isRoot_climb hacyclic hstart (Nat.le_add_right _ _)

theorem isRoot_fragmentRoot (hg : g.isSimple = true) (hn : n < g.size) :
    g.isRoot (g.fragmentRoot n) = true :=
  isRoot_fragmentRoot_of_acyclic (not_treeCycle hg) hn

theorem fragmentRoot_mem_fragment : g.fragmentRoot n ∈ g.fragment n := climb_mem_fragment g _ n

theorem fragmentRoot_eq (hg : g.isSimple = true) (hn : n < g.size) (hr : g.isRoot r = true)
    (hmem : n ∈ g.fragment r) : g.fragmentRoot n = r := by
  refine eq_of_isRoot_of_mem_fragment hg hr (isRoot_fragmentRoot hg hn) ?_
  rw [← fragment_eq_of_mem hmem]
  exact fragmentRoot_mem_fragment

/-! ## Kept nodes and their numbers -/

theorem lt_of_isKept (h : g.isKept n = true) : n < g.size := by
  rw [isKept, Bool.or_eq_true] at h
  rcases h with hroot | hhole
  · exact (isRoot_iff.mp hroot).1
  · refine Registry.value?_isSome.mp ?_
    unfold isHole at hhole
    cases hv : g.nodes.value? n with
    | none => rw [hv] at hhole; cases hhole
    | some v => rfl

theorem mem_kept : n ∈ g.kept ↔ g.isKept n = true := by
  rw [kept, List.mem_filter, List.mem_range]
  exact ⟨fun h => h.2, fun h => ⟨lt_of_isKept h, h⟩⟩

theorem isKept_of_isRoot (h : g.isRoot n = true) : g.isKept n = true := by
  rw [isKept, h, Bool.true_or]

theorem ascending_kept (g : Graph) : g.kept.Pairwise (· < ·) :=
  List.pairwise_lt_range.filter _

theorem nodup_kept (g : Graph) : g.kept.Nodup := List.nodup_range.filter _

/-- The number of a kept node in the compact graph. -/
def number (g : Graph) (n : Nat) : Nat := (g.kept.idxOf? n).getD 0

/-- The node stays, with the given number. -/
def Numbered (g : Graph) (n i : Nat) : Prop := g.kept.idxOf? n = some i

theorem numbered_number (h : g.isKept n = true) : g.Numbered n (g.number n) := by
  obtain ⟨i, hi⟩ := Option.isSome_iff_exists.mp (List.isSome_idxOf?.mpr (mem_kept.mpr h))
  rw [Numbered, number, hi, Option.getD_some]

namespace Numbered

theorem number_eq (h : g.Numbered n i) : g.number n = i := by
  rw [number, h, Option.getD_some]

theorem getElem? (h : g.Numbered n i) : g.kept[i]? = some n := by
  obtain ⟨hi, heq, -⟩ := List.idxOf?_eq_some_iff.mp h
  rw [List.getElem?_eq_getElem hi, heq]

theorem isKept (h : g.Numbered n i) : g.isKept n = true :=
  mem_kept.mp (List.mem_of_getElem? h.getElem?)

theorem lt_length (h : g.Numbered n i) : i < g.kept.length :=
  (List.idxOf?_eq_some_iff.mp h).1

theorem eq_left (ha : g.Numbered a i) (hb : g.Numbered b i) : a = b :=
  Option.some.inj (ha.getElem?.symm.trans hb.getElem?)

theorem eq_right (hi : g.Numbered a i) (hj : g.Numbered a j) : i = j :=
  Option.some.inj (hi.symm.trans hj)

/-- Numbers are in the order of the nodes. -/
theorem lt_of_lt (ha : g.Numbered a i) (hb : g.Numbered b j) (hab : a < b) : i < j := by
  by_contra hle
  have hascending := List.pairwise_iff_getElem.mp g.ascending_kept
  obtain ⟨hi, heq, -⟩ := List.idxOf?_eq_some_iff.mp ha
  obtain ⟨hj, heq', -⟩ := List.idxOf?_eq_some_iff.mp hb
  rcases Nat.lt_or_eq_of_le (Nat.le_of_not_lt hle) with hlt | rfl
  · have hba := hascending j i hj hi hlt
    omega
  · omega

end Numbered

theorem exists_numbered (hi : i < g.kept.length) : ∃ a, g.Numbered a i := by
  refine ⟨g.kept[i], List.idxOf?_eq_some_iff.mpr ⟨hi, rfl, fun j hj heq => ?_⟩⟩
  exact absurd ((g.nodup_kept.getElem_inj_iff).mp heq) (Nat.ne_of_lt hj)

theorem standIn_eq (h : g.isKept n = true) : g.standIn n = n := if_pos h

theorem isKept_standIn (hg : g.isSimple = true) (hn : n < g.size) :
    g.isKept (g.standIn n) = true := by
  unfold standIn
  split
  · next h => exact h
  · exact isKept_of_isRoot (isRoot_fragmentRoot hg hn)

/-! ## The compact version of a simple graph -/

theorem compactId_eq (hg : g.isSimple = true) (hn : n < g.size) :
    g.compactId n = .ok (g.number (g.standIn n)) := by
  rw [compactId, numbered_number (isKept_standIn hg hn)]

theorem compactEdge_eq (hg : g.isSimple = true) (kind : EdgeKind) (hm : m < g.size)
    (hn : n < g.size) : g.compactEdge kind m n
      = .ok ⟨kind, g.number (g.standIn m), g.number (g.standIn n)⟩ := by
  rw [compactEdge, compactId_eq hg hm, compactId_eq hg hn]
  rfl

/-- The tree edges of the compact version. -/
def compactTree (g : Graph) : List Edge :=
  (g.kept.filter fun n => !g.isRoot n).map fun n =>
    ⟨.tree, g.number (g.fragmentRoot n), g.number n⟩

/-- The dominance edges of the compact version. -/
def compactDominance (g : Graph) : List Edge :=
  (g.dominanceEdges.map fun e =>
    ⟨.dominance, g.number (g.standIn e.source), g.number (g.standIn e.target)⟩).filter
      fun e => e.source ≠ e.target

theorem compactEdges_eq (hg : g.isSimple = true) :
    g.compactEdges = .ok (g.compactTree ++ g.compactDominance) := by
  have htree : ∀ n ∈ g.kept.filter fun n => !g.isRoot n,
      g.compactEdge .tree (g.fragmentRoot n) n
        = .ok ⟨.tree, g.number (g.fragmentRoot n), g.number n⟩ := by
    intro n hn
    have hkept := mem_kept.mp (List.mem_filter.mp hn).1
    have hlt := lt_of_isKept hkept
    have hroot := isRoot_fragmentRoot hg hlt
    rw [compactEdge_eq hg _ (isRoot_iff.mp hroot).1 hlt, standIn_eq (isKept_of_isRoot hroot),
      standIn_eq hkept]
  have hdominance : ∀ e ∈ g.dominanceEdges, g.compactEdge .dominance e.source e.target
      = .ok ⟨.dominance, g.number (g.standIn e.source), g.number (g.standIn e.target)⟩ := by
    intro e he
    have hends := g.coherent.ends e (List.mem_filter.mp he).1
    exact compactEdge_eq hg _ hends.1 hends.2
  unfold compactEdges
  dsimp only
  rw [mapM_eq_ok htree, mapM_eq_ok hdominance]
  rfl

/-- Different nodes have different names. -/
theorem eq_of_spell_eq (hm : m < g.size) (hn : n < g.size) (h : g.spell m = g.spell n) :
    m = n := by
  have hlt : ∀ {k}, k < g.size → k < g.nodes.names.length := by
    intro k hk
    rwa [Registry.length_names]
  rw [spell, spell, Registry.name?_eq, Registry.name?_eq, List.getElem?_eq_getElem (hlt hm),
    List.getElem?_eq_getElem (hlt hn), Option.getD_some, Option.getD_some] at h
  exact (List.Nodup.getElem_inj_iff g.nodes.distinct).mp h

/-- Nodes with new names are declared one after the other. -/
theorem foldl_addNode {ns : List Nat} (hnodup : (ns.map g.spell).Nodup)
    (hfresh : ∀ n ∈ ns, g.spell n ∉ c.nodes.names) :
    (ns.foldl (fun c n => (c.addNode (g.spell n) (g.label n)).2) c).declarations
        = c.declarations ++ ns.map (fun n => (g.spell n, g.label n))
      ∧ (ns.foldl (fun c n => (c.addNode (g.spell n) (g.label n)).2) c).edges = c.edges := by
  induction ns generalizing c with
  | nil => simp
  | cons n ns ih =>
    rw [List.map_cons] at hnodup
    obtain ⟨hn, hnodup⟩ := List.nodup_cons.mp hnodup
    have hdeclared : (c.addNode (g.spell n) (g.label n)).2.declarations
        = c.declarations ++ [(g.spell n, g.label n)] :=
      declarations_addNode (hfresh n List.mem_cons_self)
    have hrest : ∀ m ∈ ns, g.spell m ∉ (c.addNode (g.spell n) (g.label n)).2.nodes.names := by
      intro m hm
      rw [← map_fst_declarations, hdeclared, List.map_append, map_fst_declarations,
        List.mem_append, List.map_singleton, List.mem_singleton]
      rintro (hmem | heq)
      · exact hfresh m (List.mem_cons_of_mem _ hm) hmem
      · exact hn (List.mem_map.mpr ⟨m, hm, heq⟩)
    obtain ⟨hds, hedges⟩ := ih hnodup hrest
    rw [List.foldl_cons, hds, hedges, hdeclared, List.map_cons, List.append_assoc]
    exact ⟨rfl, rfl⟩

theorem declarations_compactNodes (g : Graph) :
    g.compactNodes.declarations = g.kept.map (fun n => (g.spell n, g.label n))
      ∧ g.compactNodes.edges = [] := by
  have hnodup : (g.kept.map g.spell).Nodup := by
    refine g.nodup_kept.map_on fun m hm n hn heq => ?_
    exact eq_of_spell_eq (lt_of_isKept (mem_kept.mp hm)) (lt_of_isKept (mem_kept.mp hn)) heq
  exact foldl_addNode (c := empty) hnodup fun _ _ hmem => by cases hmem

/-- The graph is the compact version of another one. -/
structure Compacts (c g : Graph) : Prop where
  declarations : c.declarations = g.kept.map fun n => (g.spell n, g.label n)
  edges : c.edges = g.compactTree ++ g.compactDominance

theorem mem_compactTree {e : Edge} :
    e ∈ g.compactTree ↔ ∃ n, g.isKept n = true ∧ g.isRoot n = false
      ∧ e = ⟨.tree, g.number (g.fragmentRoot n), g.number n⟩ := by
  simp only [compactTree, List.mem_map, List.mem_filter, mem_kept, Bool.not_eq_true', and_assoc,
    eq_comm (b := e)]

theorem mem_compactDominance {e : Edge} :
    e ∈ g.compactDominance ↔ e.source ≠ e.target ∧ ∃ d ∈ g.dominanceEdges,
      e = ⟨.dominance, g.number (g.standIn d.source), g.number (g.standIn d.target)⟩ := by
  simp only [compactDominance, List.mem_filter, List.mem_map, decide_eq_true_eq, and_comm,
    eq_comm (b := e)]

/-- **A simple graph has a compact version.** -/
theorem exists_compactify (hg : g.isSimple = true) :
    ∃ c, g.compactify = .ok c ∧ c.Compacts g := by
  obtain ⟨hdeclared, hnone⟩ := g.declarations_compactNodes
  have hsize : g.compactNodes.size = g.kept.length := by
    rw [← length_declarations, hdeclared, List.length_map]
  have hnumber : ∀ {n}, g.isKept n = true → g.number n < g.compactNodes.size :=
    fun hn => hsize ▸ (numbered_number hn).lt_length
  have hends : ∀ e ∈ g.compactTree ++ g.compactDominance,
      e.source < g.compactNodes.size ∧ e.target < g.compactNodes.size := by
    intro e he
    rcases List.mem_append.mp he with he | he
    · obtain ⟨n, hn, -, rfl⟩ := mem_compactTree.mp he
      exact ⟨hnumber (isKept_of_isRoot (isRoot_fragmentRoot hg (lt_of_isKept hn))), hnumber hn⟩
    · obtain ⟨-, d, hd, rfl⟩ := mem_compactDominance.mp he
      have hd' := g.coherent.ends d (List.mem_filter.mp hd).1
      exact ⟨hnumber (isKept_standIn hg hd'.1), hnumber (isKept_standIn hg hd'.2)⟩
  obtain ⟨c, hconnect, hedges, -, -⟩ := exists_connect hends
  refine ⟨c, ?_, (declarations_connect hconnect).trans hdeclared, ?_⟩
  · rw [compactify, compactEdges_eq hg]
    exact hconnect
  · rw [hedges, hnone, List.nil_append]

theorem isSimple_of_roots (hparents : ∀ n, (g.parents .tree n).length ≤ 1)
    (hroots : ∀ n < g.size, ∃ r ∈ g.fragment n, g.isRoot r = true
      ∧ ∀ m ∈ g.fragment n, g.isRoot m = true → m = r) : g.isSimple = true := by
  simp only [isSimple, Bool.and_eq_true, List.all_eq_true, decide_eq_true_eq]
  refine ⟨fun n _ => hparents n, fun w hw => ?_⟩
  obtain ⟨n, hn, rfl⟩ := exists_eq_fragment hw
  obtain ⟨r, hr, hroot, hall⟩ := hroots n hn
  rw [rootsIn_eq_singleton hr hroot hall, List.length_singleton]

namespace Compacts

theorem size (h : c.Compacts g) : c.size = g.kept.length := by
  rw [← length_declarations, h.declarations, List.length_map]

/-- Kept nodes are declared as before. -/
theorem getElem?_declarations (h : c.Compacts g) (ha : g.Numbered a i) :
    c.declarations[i]? = g.declarations[a]? := by
  rw [h.declarations, List.getElem?_map, ha.getElem?,
    Graph.getElem?_declarations (lt_of_isKept ha.isKept)]
  rfl

theorem spell (h : c.Compacts g) (ha : g.Numbered a i) : c.spell i = g.spell a :=
  spell_eq_of_getElem? (h.size ▸ ha.lt_length) (lt_of_isKept ha.isKept) (h.getElem?_declarations ha)

theorem isHole (h : c.Compacts g) (ha : g.Numbered a i) : c.isHole i = g.isHole a := by
  rw [isHole_eq, isHole_eq, h.getElem?_declarations ha]

/-- Tree edges go from the root of a fragment to its other kept nodes. -/
theorem treeArc_iff (hg : g.isSimple = true) (h : c.Compacts g) :
    c.TreeArc i j ↔
      ∃ n, g.Numbered n j ∧ g.isRoot n = false ∧ g.Numbered (g.fragmentRoot n) i := by
  rw [TreeArc, h.edges, List.mem_append, mem_compactTree, mem_compactDominance]
  constructor
  · rintro (⟨n, hn, hroot, heq⟩ | ⟨-, d, -, heq⟩)
    · cases heq
      refine ⟨n, numbered_number hn, hroot, numbered_number (isKept_of_isRoot ?_)⟩
      exact isRoot_fragmentRoot hg (lt_of_isKept hn)
    · cases heq
  · rintro ⟨n, hn, hroot, hr⟩
    exact .inl ⟨n, hn.isKept, hroot, by rw [hn.number_eq, hr.number_eq]⟩

/-- Dominance edges go between the nodes that stand for the ends of an edge before. -/
theorem dominance_iff (hg : g.isSimple = true) (h : c.Compacts g) :
    ⟨.dominance, i, j⟩ ∈ c.edges ↔ i ≠ j ∧ ∃ d ∈ g.dominanceEdges,
      g.Numbered (g.standIn d.source) i ∧ g.Numbered (g.standIn d.target) j := by
  rw [h.edges, List.mem_append, mem_compactTree, mem_compactDominance]
  constructor
  · rintro (⟨n, -, -, heq⟩ | ⟨hne, d, hd, heq⟩)
    · cases heq
    · have hends := g.coherent.ends d (List.mem_filter.mp hd).1
      cases heq
      exact ⟨hne, d, hd, numbered_number (isKept_standIn hg hends.1),
        numbered_number (isKept_standIn hg hends.2)⟩
  · rintro ⟨hne, d, hd, hi, hj⟩
    exact .inr ⟨hne, d, hd, by rw [hi.number_eq, hj.number_eq]⟩

theorem isRoot_iff (hg : g.isSimple = true) (h : c.Compacts g) (ha : g.Numbered a i) :
    c.isRoot i = true ↔ g.isRoot a = true := by
  rw [Graph.isRoot_iff, h.size]
  constructor
  · rintro ⟨-, hnone⟩
    by_contra hroot
    rw [Bool.not_eq_true] at hroot
    have hup := isRoot_fragmentRoot hg (lt_of_isKept ha.isKept)
    exact hnone _ ((h.treeArc_iff hg).mpr
      ⟨a, ha, hroot, numbered_number (isKept_of_isRoot hup)⟩)
  · refine fun hroot => ⟨ha.lt_length, fun m harc => ?_⟩
    obtain ⟨n, hn, hno, -⟩ := (h.treeArc_iff hg).mp harc
    rw [hn.eq_left ha, hroot] at hno
    cases hno

/-- Every kept node is in the fragment of the root above it. -/
theorem mem_fragment_root (hg : g.isSimple = true) (h : c.Compacts g) (ha : g.Numbered a i)
    (hr : g.Numbered r j) (hroot : g.isRoot r = true) (har : a ∈ g.fragment r) :
    i ∈ c.fragment j := by
  by_cases haroot : g.isRoot a = true
  · have heq : a = r := eq_of_isRoot_of_mem_fragment hg hroot haroot har
    subst heq
    rw [ha.eq_right hr]
    exact self_mem_fragment
  · rw [Bool.not_eq_true] at haroot
    have hup := fragmentRoot_eq hg (lt_of_isKept ha.isKept) hroot har
    have harc := (h.treeArc_iff hg).mpr ⟨a, ha, haroot, hup.symm ▸ hr⟩
    exact mem_fragment_of_treeJoined self_mem_fragment (.inl harc)

/-- **Fragments hold the same kept nodes.** -/
theorem mem_fragment_iff (hg : g.isSimple = true) (h : c.Compacts g) (ha : g.Numbered a i)
    (hb : g.Numbered b j) : j ∈ c.fragment i ↔ b ∈ g.fragment a := by
  constructor
  · intro hj
    rw [mem_fragment] at hj
    induction hj generalizing b with
    | refl =>
      rw [hb.eq_left ha]
      exact self_mem_fragment
    | @tail k j _ hkj ih =>
      -- one of the two ends is the root of the fragment of the other one
      rcases hkj with harc | harc
      · obtain ⟨n, hn, -, hroot⟩ := (h.treeArc_iff hg).mp harc
        rw [hb.eq_left hn, ← fragment_eq_of_mem (ih hroot)]
        exact mem_fragment_symm fragmentRoot_mem_fragment
      · obtain ⟨n, hn, -, hroot⟩ := (h.treeArc_iff hg).mp harc
        rw [hb.eq_left hroot, ← fragment_eq_of_mem (ih hn)]
        exact fragmentRoot_mem_fragment
  · intro hba
    have hroot := isRoot_fragmentRoot hg (lt_of_isKept ha.isKept)
    have hr := numbered_number (isKept_of_isRoot hroot)
    have har : a ∈ g.fragment (g.fragmentRoot a) := mem_fragment_symm fragmentRoot_mem_fragment
    have hbr : b ∈ g.fragment (g.fragmentRoot a) := fragment_eq_of_mem har ▸ hba
    rw [fragment_eq_of_mem (h.mem_fragment_root hg ha hr hroot har)]
    exact h.mem_fragment_root hg hb hr hroot hbr

theorem treeEdges (h : c.Compacts g) : c.treeEdges = g.compactTree := by
  have hall : ∀ e ∈ g.compactTree, decide (e.kind = .tree) = true := by
    intro e he
    obtain ⟨n, -, -, rfl⟩ := mem_compactTree.mp he
    rfl
  have hnone : ∀ e ∈ g.compactDominance, ¬decide (e.kind = .tree) = true := by
    intro e he
    obtain ⟨-, d, -, rfl⟩ := mem_compactDominance.mp he
    simp
  rw [Graph.treeEdges, h.edges, List.filter_append, List.filter_eq_self.mpr hall,
    List.filter_eq_nil_iff.mpr hnone, List.append_nil]

theorem dominanceEdges (h : c.Compacts g) : c.dominanceEdges = g.compactDominance := by
  have hall : ∀ e ∈ g.compactDominance, decide (e.kind = .dominance) = true := by
    intro e he
    obtain ⟨-, d, -, rfl⟩ := mem_compactDominance.mp he
    rfl
  have hnone : ∀ e ∈ g.compactTree, ¬decide (e.kind = .dominance) = true := by
    intro e he
    obtain ⟨n, -, -, rfl⟩ := mem_compactTree.mp he
    simp
  rw [Graph.dominanceEdges, h.edges, List.filter_append, List.filter_eq_nil_iff.mpr hnone,
    List.filter_eq_self.mpr hall, List.nil_append]

theorem length_parents_le (h : c.Compacts g) (n : Nat) : (c.parents .tree n).length ≤ 1 := by
  have hnodup : (c.treeEdges.map (·.target)).Nodup := by
    rw [h.treeEdges, compactTree, List.map_map]
    refine (g.nodup_kept.filter _).map_on fun m hm n hn heq => ?_
    have heq : g.number m = g.number n := heq
    have hm := numbered_number (mem_kept.mp (List.mem_filter.mp hm).1)
    have hn := numbered_number (mem_kept.mp (List.mem_filter.mp hn).1)
    exact hm.eq_left (heq ▸ hn)
  have hcount := List.nodup_iff_count_le_one.mp hnodup n
  rw [List.count_eq_countP, List.countP_map, List.countP_eq_length_filter] at hcount
  rw [parents, List.length_map, incomingBy_eq]
  exact hcount

theorem isSimple (hg : g.isSimple = true) (h : c.Compacts g) : c.isSimple = true := by
  refine isSimple_of_roots h.length_parents_le fun i hi => ?_
  obtain ⟨a, ha⟩ := exists_numbered (h.size ▸ hi)
  have hroot := isRoot_fragmentRoot hg (lt_of_isKept ha.isKept)
  have hr := numbered_number (isKept_of_isRoot hroot)
  refine ⟨_, (h.mem_fragment_iff hg ha hr).mpr fragmentRoot_mem_fragment,
    (h.isRoot_iff hg hr).mpr hroot, fun j hj hjroot => ?_⟩
  obtain ⟨b, hb⟩ := exists_numbered (h.size ▸ (Graph.isRoot_iff.mp hjroot).1)
  have hba := (h.mem_fragment_iff hg ha hb).mp hj
  have hup := fragmentRoot_eq hg (lt_of_isKept ha.isKept) ((h.isRoot_iff hg hb).mp hjroot)
    (mem_fragment_symm hba)
  exact (hup.symm ▸ hb).eq_right hr

end Compacts

end Graph

end Dominance
