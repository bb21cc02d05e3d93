import Dominance.Proofs.CompactGraph
import Dominance.Proofs.Completeness

/-!
# The shape of compact graphs

In the compact version of a simple graph every fragment is a root with some holes right below it.
The holes are those of the fragment before; whatever was between them and the root is gone.
So the compact version deserves its name, and the properties that are about roots and holes stay.
The other properties stay as well if the graph is leaf-labelled.
Otherwise a fragment may have a hole as its root and labels at dropped nodes only.

Nothing is dropped when the compact version is made compact once more: all its nodes are kept, with
the same numbers, and it has no loops to lose.

* `Compacts.mem_fragment_root_iff` — what is left of a fragment
* `Compacts.isCompact`, `Compacts.has` — the properties of the compact version
* `Compacts.compactify_eq_self` — making it compact again changes nothing
* `idOf?_compactNodes` — numbers are what names lead to
* `compacting_keeps_roots_and_holes` — all of this for every simple graph
-/

namespace Dominance.Graph

open Relation

variable {g c : Graph} {a i j n r : Nat}

/-! ## Numbers -/

theorem map_number_kept (g : Graph) : g.kept.map g.number = List.range g.kept.length := by
  refine List.ext_getElem (by simp) fun i hi _ => ?_
  rw [List.length_map] at hi
  obtain ⟨a, ha⟩ := exists_numbered hi
  have hkept : g.kept[i] = a := by
    have hget := ha.getElem?
    rw [List.getElem?_eq_getElem hi] at hget
    exact Option.some.inj hget
  rw [List.getElem_map, hkept, ha.number_eq, List.getElem_range]

/-- If all nodes are kept, they keep their numbers. -/
theorem numbered_self (hall : g.kept = List.range g.size) (hn : n < g.size) : g.Numbered n n := by
  obtain ⟨a, ha⟩ := exists_numbered (g := g) (i := n) (by rwa [hall, List.length_range])
  have hget := ha.getElem?
  rw [hall, List.getElem?_range hn] at hget
  cases hget
  exact ha

/-- **The number of a node is what its name leads to among the declared nodes.** -/
theorem idOf?_compactNodes (hn : n < g.size) :
    g.compactNodes.nodes.idOf? (g.spell n) = g.kept.idxOf? n := by
  obtain ⟨hdeclared, -⟩ := g.declarations_compactNodes
  have hnames : g.compactNodes.nodes.names = g.kept.map g.spell := by
    rw [← map_fst_declarations, hdeclared, List.map_map]
    rfl
  by_cases hkept : g.isKept n = true
  · have hnumber := numbered_number hkept
    rw [Numbered] at hnumber
    rw [hnumber]
    refine Registry.idOf?_of_name? ?_
    rw [Registry.name?_eq, hnames, List.getElem?_map, (numbered_number hkept).getElem?]
    rfl
  · have hmem : n ∉ g.kept := fun hmem => hkept (mem_kept.mp hmem)
    rw [List.idxOf?_eq_none_iff.mpr hmem, Registry.idOf?_eq_none]
    intro hname
    rw [hnames] at hname
    obtain ⟨m, hm, heq⟩ := List.mem_map.mp hname
    exact hmem (eq_of_spell_eq (lt_of_isKept (mem_kept.mp hm)) hn heq ▸ hm)

namespace Compacts

/-! ## Fragments -/

/-- **What is left of a fragment are its root and its holes.** -/
theorem mem_fragment_root_iff (hg : g.isSimple = true) (h : c.Compacts g)
    (hr : g.Numbered r i) (hroot : g.isRoot r = true) :
    j ∈ c.fragment i ↔ ∃ n, g.Numbered n j ∧ (n = r ∨ n ∈ g.fragmentHoles r) := by
  constructor
  · intro hj
    have hlt := lt_of_mem_fragment (h.size ▸ hr.lt_length) hj
    obtain ⟨n, hn⟩ := exists_numbered (h.size ▸ hlt)
    have hmem := (h.mem_fragment_iff hg hr hn).mp hj
    refine ⟨n, hn, ?_⟩
    have hkept := hn.isKept
    rw [isKept, Bool.or_eq_true] at hkept
    rcases hkept with hnroot | hhole
    · exact .inl (eq_of_isRoot_of_mem_fragment hg hroot hnroot hmem)
    · exact .inr (List.mem_filter.mpr ⟨hmem, hhole⟩)
  · rintro ⟨n, hn, rfl | hhole⟩
    · exact (h.mem_fragment_iff hg hr hn).mpr self_mem_fragment
    · exact (h.mem_fragment_iff hg hr hn).mpr (List.mem_filter.mp hhole).1

/-- The holes of a fragment hang right below its root. -/
theorem exists_mem_children (hg : g.isSimple = true) (h : c.Compacts g) (hr : g.Numbered r i)
    (hroot : g.isRoot r = true) (hn : n ∈ g.fragmentHoles r) (hne : n ≠ r) :
    ∃ j, g.Numbered n j ∧ j ∈ c.children .tree i := by
  obtain ⟨hmem, hhole⟩ := List.mem_filter.mp hn
  have hnumber := numbered_number (n := n) (by rw [isKept, hhole, Bool.or_true])
  have hnot : g.isRoot n = false := by
    rw [Bool.eq_false_iff]
    exact fun hnroot => hne (eq_of_isRoot_of_mem_fragment hg hroot hnroot hmem)
  have hup := fragmentRoot_eq hg (lt_of_isKept hnumber.isKept) hroot hmem
  exact ⟨_, hnumber, mem_children.mpr ((h.treeArc_iff hg).mpr ⟨n, hnumber, hnot, hup.symm ▸ hr⟩)⟩

/-! ## Properties -/

/-- **Tree edges go from roots to holes.** -/
theorem isCompact (hg : g.isSimple = true) (h : c.Compacts g) : c.isCompact = true := by
  refine List.all_eq_true.mpr fun e he => ?_
  obtain ⟨he, hkind⟩ := List.mem_filter.mp he
  have hkind : e.kind = .tree := of_decide_eq_true hkind
  have harc : c.TreeArc e.source e.target := by
    rw [TreeArc, ← hkind]
    exact he
  obtain ⟨n, hn, hnot, hr⟩ := (h.treeArc_iff hg).mp harc
  have hhole : g.isHole n = true := by
    have hkept := hn.isKept
    rwa [isKept, hnot, Bool.false_or] at hkept
  have hroot := isRoot_fragmentRoot hg (lt_of_isKept hn.isKept)
  rw [(h.isRoot_iff hg hr).mpr hroot, h.isHole hn, hhole]
  rfl

theorem isLeafLabelled (hg : g.isSimple = true) (h : c.Compacts g)
    (hleaf : g.isLeafLabelled = true) : c.isLeafLabelled = true := by
  refine isLeafLabelled_iff.mpr fun i j hi harc => ?_
  obtain ⟨n, hn, hnot, hr⟩ := (h.treeArc_iff hg).mp harc
  rw [h.isHole hr] at hi
  -- the root above a node has a tree edge below it, unless it is the node itself
  have hroot := isRoot_fragmentRoot hg (lt_of_isKept hn.isKept)
  have hpath := treePath_of_mem_fragment hg hroot (mem_fragment_symm fragmentRoot_mem_fragment)
  rw [← eq_of_treePath_of_isHole hleaf hi hpath, hroot] at hnot
  cases hnot

theorem hasNoEmptyFragments (hg : g.isSimple = true) (h : c.Compacts g)
    (hleaf : g.isLeafLabelled = true) (hempty : g.hasNoEmptyFragments = true) :
    c.hasNoEmptyFragments = true := by
  refine List.all_eq_true.mpr fun i hi => ?_
  have hroot := mem_roots.mp hi
  obtain ⟨a, ha⟩ := exists_numbered (h.size ▸ (Graph.isRoot_iff.mp hroot).1)
  have hlabel := isHole_eq_false_of_labelled hg hleaf hempty ((h.isRoot_iff hg ha).mp hroot)
  refine List.any_eq_true.mpr ⟨i, self_mem_fragment, ?_⟩
  rw [h.isHole ha, hlabel]
  rfl

theorem dominatesRoots (hg : g.isSimple = true) (h : c.Compacts g)
    (hroots : g.dominatesRoots = true) : c.dominatesRoots = true := by
  refine List.all_eq_true.mpr fun e he => ?_
  obtain ⟨he, hkind⟩ := mem_dominanceEdges.mp he
  have he : ⟨.dominance, e.source, e.target⟩ ∈ c.edges := hkind ▸ he
  obtain ⟨-, d, hd, -, hj⟩ := (h.dominance_iff hg).mp he
  have hroot := List.all_eq_true.mp hroots d hd
  rw [standIn_eq (isKept_of_isRoot hroot)] at hj
  exact (h.isRoot_iff hg hj).mpr hroot

theorem dominatesFromHoles (hg : g.isSimple = true) (h : c.Compacts g)
    (hholes : g.dominatesFromHoles = true) : c.dominatesFromHoles = true := by
  refine List.all_eq_true.mpr fun e he => ?_
  obtain ⟨he, hkind⟩ := mem_dominanceEdges.mp he
  have he : ⟨.dominance, e.source, e.target⟩ ∈ c.edges := hkind ▸ he
  obtain ⟨-, d, hd, hi, -⟩ := (h.dominance_iff hg).mp he
  have hhole := List.all_eq_true.mp hholes d hd
  rw [standIn_eq (by rw [isKept, hhole, Bool.or_true])] at hi
  rw [h.isHole hi, hhole]

theorem isWeaklyNormal (hg : g.isWeaklyNormal = true) (h : c.Compacts g) :
    c.isWeaklyNormal = true := by
  rw [Graph.isWeaklyNormal, Bool.and_eq_true] at hg ⊢
  exact ⟨h.isSimple hg.1, h.dominatesRoots hg.1 hg.2⟩

theorem isNormal (hg : g.isNormal = true) (h : c.Compacts g) : c.isNormal = true := by
  have hsimple := isSimple_of_isWeaklyNormal (isWeaklyNormal_of_isNormal hg)
  simp only [Graph.isNormal, Bool.and_eq_true] at hg ⊢
  obtain ⟨⟨⟨hweak, hleaf⟩, hempty⟩, hholes⟩ := hg
  exact ⟨⟨⟨h.isWeaklyNormal hweak, h.isLeafLabelled hsimple hleaf⟩,
    h.hasNoEmptyFragments hsimple hleaf hempty⟩, h.dominatesFromHoles hsimple hholes⟩

/-- **No property of a leaf-labelled graph is lost, and the compact version is compact.** -/
theorem has (hg : g.isSimple = true) (hleaf : g.isLeafLabelled = true) (h : c.Compacts g)
    (p : Property) (hp : g.has p = true) : c.has p = true := by
  cases p with
  | simple => exact h.isSimple hg
  | leafLabelled => exact h.isLeafLabelled hg hleaf
  | noEmptyFragments => exact h.hasNoEmptyFragments hg hleaf hp
  | weaklyNormal => exact h.isWeaklyNormal hp
  | normal => exact h.isNormal hp
  | compact => exact h.isCompact hg
  | compactifiable =>
    rw [Graph.has, isCompactifiable, h.isSimple hg, h.isLeafLabelled hg hleaf]
    rfl

/-! ## Making a compact version compact again -/

theorem kept (hg : g.isSimple = true) (h : c.Compacts g) : c.kept = List.range c.size := by
  refine List.filter_eq_self.mpr fun i hi => ?_
  obtain ⟨a, ha⟩ := exists_numbered (h.size ▸ List.mem_range.mp hi)
  have hkept := ha.isKept
  rw [isKept, Bool.or_eq_true] at hkept ⊢
  exact hkept.imp (h.isRoot_iff hg ha).mpr fun hhole => (h.isHole ha).trans hhole

theorem number_eq_self (hg : g.isSimple = true) (h : c.Compacts g) (hi : i < c.size) :
    c.number i = i :=
  (numbered_self (h.kept hg) hi).number_eq

theorem standIn_eq_self (hg : g.isSimple = true) (h : c.Compacts g) (hi : i < c.size) :
    c.standIn i = i :=
  standIn_eq (numbered_self (h.kept hg) hi).isKept

theorem fragmentRoot (hg : g.isSimple = true) (h : c.Compacts g) (ha : g.Numbered a i) :
    c.fragmentRoot i = g.number (g.fragmentRoot a) := by
  have hroot := isRoot_fragmentRoot hg (lt_of_isKept ha.isKept)
  have hr := numbered_number (isKept_of_isRoot hroot)
  refine fragmentRoot_eq (h.isSimple hg) (h.size ▸ ha.lt_length)
    ((h.isRoot_iff hg hr).mpr hroot) ?_
  exact h.mem_fragment_root hg ha hr hroot (mem_fragment_symm fragmentRoot_mem_fragment)

theorem compactTree_eq (hg : g.isSimple = true) (h : c.Compacts g) :
    c.compactTree = g.compactTree := by
  have hkept : c.kept = g.kept.map g.number := by
    rw [h.kept hg, map_number_kept, h.size]
  have hnonroots : g.kept.filter ((fun n => !c.isRoot n) ∘ g.number)
      = g.kept.filter fun n => !g.isRoot n := by
    refine List.filter_congr fun n hn => ?_
    have hiff := h.isRoot_iff hg (numbered_number (mem_kept.mp hn))
    rw [Function.comp_apply, Bool.eq_iff_iff.mpr hiff]
  rw [compactTree, compactTree, hkept, List.filter_map, List.map_map, hnonroots]
  refine List.map_congr_left fun n hn => ?_
  have hnumber := numbered_number (mem_kept.mp (List.mem_filter.mp hn).1)
  have hup := isRoot_fragmentRoot hg (lt_of_isKept hnumber.isKept)
  have hlt : ∀ {m}, g.Numbered m (g.number m) → g.number m < c.size :=
    fun hm => h.size ▸ hm.lt_length
  rw [Function.comp_apply, h.fragmentRoot hg hnumber, h.number_eq_self hg (hlt hnumber),
    h.number_eq_self hg (hlt (numbered_number (isKept_of_isRoot hup)))]

theorem compactDominance_eq (hg : g.isSimple = true) (h : c.Compacts g) :
    c.compactDominance = g.compactDominance := by
  have hsame : ∀ e ∈ g.compactDominance,
      (⟨.dominance, c.number (c.standIn e.source), c.number (c.standIn e.target)⟩ : Edge) = e := by
    intro e he
    have hmem : e ∈ c.edges := h.edges ▸ List.mem_append_right _ he
    obtain ⟨hsource, htarget⟩ := c.coherent.ends e hmem
    obtain ⟨-, d, -, rfl⟩ := mem_compactDominance.mp he
    rw [h.standIn_eq_self hg hsource, h.standIn_eq_self hg htarget, h.number_eq_self hg hsource,
      h.number_eq_self hg htarget]
  rw [compactDominance, h.dominanceEdges, List.map_congr_left hsame, List.map_id']
  refine List.filter_eq_self.mpr fun e he => ?_
  exact decide_eq_true (mem_compactDominance.mp he).1

/-- **The compact version of a compact version is the same graph.** -/
theorem compactify_eq_self (hg : g.isSimple = true) (h : c.Compacts g) : c.compactify = .ok c := by
  obtain ⟨d, hd, hcompacts⟩ := exists_compactify (h.isSimple hg)
  have heq : d = c := by
    refine eq_of_declarations_eq ?_ ?_
    · rw [hcompacts.declarations, h.kept hg, ← declarations_eq_map]
    · rw [hcompacts.edges, h.edges, h.compactTree_eq hg, h.compactDominance_eq hg]
  rw [hd, heq]

end Compacts

/--
**The compact version of a simple graph has the roots and holes of the graph, and nothing else.**

They keep their names, labels and order, and each hole hangs right below the root of its fragment.
The compact version is simple and compact, has all properties of the graph if that is
leaf-labelled, and is its own compact version.
-/
theorem compacting_keeps_roots_and_holes (hg : g.isSimple = true) :
    ∃ c, g.compactify = .ok c
      ∧ c.declarations = ((List.range g.size).filter fun n => g.isRoot n || g.isHole n).map
          (fun n => (g.spell n, g.label n))
      ∧ (∀ r, g.isRoot r = true → ∃ i, g.Numbered r i
          ∧ (∀ j, j ∈ c.fragment i ↔ ∃ n, g.Numbered n j ∧ (n = r ∨ n ∈ g.fragmentHoles r))
          ∧ ∀ n ∈ g.fragmentHoles r, n ≠ r → ∃ j, g.Numbered n j ∧ j ∈ c.children .tree i)
      ∧ c.isSimple = true ∧ c.isCompact = true
      ∧ (g.isLeafLabelled = true → ∀ p, g.has p = true → c.has p = true)
      ∧ c.compactify = .ok c := by
  obtain ⟨c, hc, h⟩ := exists_compactify hg
  refine ⟨c, hc, h.declarations, fun r hroot => ?_, h.isSimple hg, h.isCompact hg,
    fun hleaf => h.has hg hleaf, h.compactify_eq_self hg⟩
  have hr := numbered_number (isKept_of_isRoot hroot)
  exact ⟨_, hr, fun _ => h.mem_fragment_root_iff hg hr hroot,
    fun _ => h.exists_mem_children hg hr hroot⟩

/-- A root, a dropped node below it and a hole below that; another root is a hole. One constraint at
the dropped node moves to the root, another one is lost as a loop. -/
def layered : Graph :=
  build [("x", some "f"), ("i", some "k"), ("xh", none), ("y", none), ("z", some "a")]
    [⟨.tree, 0, 1⟩, ⟨.tree, 1, 2⟩, ⟨.dominance, 1, 4⟩, ⟨.dominance, 1, 0⟩, ⟨.dominance, 2, 3⟩]

theorem compacting_keeps_roots_and_holes_layered :
    layered.isSimple = true ∧ layered.isCompact = false ∧ ∃ c, layered.compactify = .ok c
      ∧ c.declarations = [("x", some "f"), ("xh", none), ("y", none), ("z", some "a")]
      ∧ (∃ i j, layered.Numbered 0 i ∧ layered.Numbered 2 j ∧ j ∈ c.children .tree i)
      ∧ c.isCompact = true ∧ c.isWeaklyNormal = true ∧ c.compactify = .ok c := by
  have hg : layered.isSimple = true := by decide +kernel
  obtain ⟨c, hc, hdeclared, hroots, -, hcompact, hhas, hagain⟩ :=
    compacting_keeps_roots_and_holes hg
  obtain ⟨i, hi, -, hholes⟩ := hroots 0 (by decide +kernel)
  obtain ⟨j, hj, hchild⟩ := hholes 2 (by decide +kernel) (by decide)
  exact ⟨hg, by decide +kernel, c, hc, hdeclared.trans (by decide +kernel), ⟨i, j, hi, hj, hchild⟩,
    hcompact, hhas (by decide +kernel) .weaklyNormal (by decide +kernel), hagain⟩

/-- A hole above a labelled node, which is dropped. -/
def hollow : Graph := build [("h", none), ("i", some "f")] [⟨.tree, 0, 1⟩]

example : hollow.isSimple = true ∧ hollow.hasNoEmptyFragments = true
    ∧ hollow.compactify.toOption.map hasNoEmptyFragments = some false := by
  decide +kernel

end Dominance.Graph
