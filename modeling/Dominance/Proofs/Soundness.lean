import Dominance.Graph.Compact
import Dominance.Proofs.Derivation
import Dominance.Proofs.Enumeration

/-!
# Solved forms respect the graph

A solved form makes a graph of the tree edges and its links.
The links of all components of the graph come from derivations, one for each component, so every
root is entered by one link, except for the roots on top, and the roots on top reach everything.
That makes the result a forest with the components of the graph, in which all constraints between
fragments hold.

* `SameTrees` — what depends on the tree edges only
* `exists_realizes` — the graph of a solved form
* `Arranged` — derivations of all components
* `yielded_respects` — every solved form that is enumerated respects the graph
-/

namespace Dominance.Graph

open Relation

variable {g s : Graph} {f : SolvedForm}

/-! ## Graphs with the same tree edges -/

/-- Two graphs with the same nodes, the same holes and the same tree edges. -/
structure SameTrees (s g : Graph) : Prop where
  size : s.size = g.size
  isHole : ∀ n, s.isHole n = g.isHole n
  treeEdges : s.treeEdges = g.treeEdges

theorem outgoingBy_eq (g : Graph) (kind : EdgeKind) (n : Nat) :
    g.outgoingBy kind n = (g.edges.filter (·.kind = kind)).filter (·.source = n) := by
  rw [outgoingBy, outgoing_eq, List.filter_comm]

theorem incomingBy_eq (g : Graph) (kind : EdgeKind) (n : Nat) :
    g.incomingBy kind n = (g.edges.filter (·.kind = kind)).filter (·.target = n) := by
  rw [incomingBy, incoming_eq, List.filter_comm]

theorem treeNeighbours_eq (g : Graph) (n : Nat) :
    g.treeNeighbours n = (g.outgoingBy .tree n ++ g.incomingBy .tree n).map (·.otherEnd n) := by
  rw [treeNeighbours, incident, List.filter_append]
  rfl

namespace SameTrees

variable (h : SameTrees s g)

include h

theorem outgoingBy (n : Nat) : s.outgoingBy .tree n = g.outgoingBy .tree n := by
  rw [outgoingBy_eq, outgoingBy_eq]
  exact congrArg (List.filter _) h.treeEdges

theorem incomingBy (n : Nat) : s.incomingBy .tree n = g.incomingBy .tree n := by
  rw [incomingBy_eq, incomingBy_eq]
  exact congrArg (List.filter _) h.treeEdges

theorem isRoot (n : Nat) : s.isRoot n = g.isRoot n := by
  rw [Graph.isRoot, Graph.isRoot, h.size, parents, parents, h.incomingBy]

theorem isLeaf (n : Nat) : s.isLeaf n = g.isLeaf n := by
  rw [Graph.isLeaf, Graph.isLeaf, h.size, children, children, h.outgoingBy]

theorem treeNeighbours : s.treeNeighbours = g.treeNeighbours := by
  funext n
  rw [treeNeighbours_eq, treeNeighbours_eq, h.outgoingBy, h.incomingBy]

theorem fragment (n : Nat) : s.fragment n = g.fragment n := by
  rw [Graph.fragment, Graph.fragment, h.treeNeighbours, othersThan, othersThan, h.size]

theorem fragments : s.fragments = g.fragments := by
  rw [Graph.fragments, Graph.fragments, h.treeNeighbours, h.size]

theorem isSimple : s.isSimple = g.isSimple := by
  have hroots : s.rootsIn = g.rootsIn := by
    funext w
    rw [rootsIn, rootsIn, funext h.isRoot]
  have hparents : s.parents .tree = g.parents .tree := by
    funext n
    rw [parents, parents, h.incomingBy]
  rw [Graph.isSimple, Graph.isSimple, h.size, hparents, h.fragments, hroots]

theorem isLeafLabelled : s.isLeafLabelled = g.isLeafLabelled := by
  rw [Graph.isLeafLabelled, Graph.isLeafLabelled, h.size, funext h.isHole, funext h.isLeaf]

theorem hasNoEmptyFragments : s.hasNoEmptyFragments = g.hasNoEmptyFragments := by
  rw [Graph.hasNoEmptyFragments, Graph.hasNoEmptyFragments, roots, roots, h.size,
    funext h.isRoot, funext h.fragment, funext h.isHole]

end SameTrees

/-! ## The graph of a solved form -/

/-- The graph has the nodes and tree edges of another one and the links of a solved form. -/
structure Realizes (s g : Graph) (f : SolvedForm) : Prop extends SameTrees s g where
  edges : s.edges = g.treeEdges ++ linkEdges f

theorem isHole_record (g : Graph) {e : Edge} (h : e.source < g.size ∧ e.target < g.size)
    (n : Nat) : (g.record e h).isHole n = g.isHole n := by
  simp only [isHole, record, listAtEnds, Registry.value?_modify]
  cases g.nodes.value? n with
  | none => split <;> split <;> rfl
  | some v => split <;> split <;> rfl

theorem exists_connect {edges : List Edge}
    (h : ∀ e ∈ edges, e.source < g.size ∧ e.target < g.size) :
    ∃ s, g.connect edges = .ok s ∧ s.edges = g.edges ++ edges ∧ s.size = g.size
      ∧ ∀ n, s.isHole n = g.isHole n := by
  induction edges generalizing g with
  | nil => exact ⟨g, rfl, (List.append_nil _).symm, rfl, fun _ => rfl⟩
  | cons e edges ih =>
    have he := h e List.mem_cons_self
    have hrest : ∀ d ∈ edges,
        d.source < (g.record e he).size ∧ d.target < (g.record e he).size := by
      intro d hd
      rw [size_record]
      exact h d (List.mem_cons_of_mem _ hd)
    obtain ⟨s, hconnect, hedges, hsize, hhole⟩ := ih hrest
    refine ⟨s, ?_, ?_, ?_, fun n => ?_⟩
    · rw [connect, dif_pos he]
      exact hconnect
    · rw [hedges, record, List.append_assoc]
      rfl
    · rw [hsize, size_record]
    · rw [hhole, isHole_record]

theorem mem_linkEdges {e : Edge} :
    e ∈ linkEdges f ↔ e.kind = .dominance ∧ ⟨e.source, e.target⟩ ∈ f.links := by
  rw [linkEdges, List.mem_map]
  constructor
  · rintro ⟨l, hl, rfl⟩
    exact ⟨rfl, hl⟩
  · rintro ⟨hkind, hl⟩
    exact ⟨_, hl, by rw [← hkind]⟩

/-- **A solved form whose links join nodes makes a graph.** -/
theorem exists_realizes (h : ∀ l ∈ f.links, l.source < g.size ∧ l.target < g.size) :
    ∃ s, g.withSolvedForm f = .ok s ∧ s.Realizes g f := by
  have hsize : g.bare.size = g.size := Registry.size_mapValues _ _
  have hhole : ∀ n, g.bare.isHole n = g.isHole n := by
    intro n
    simp only [isHole, bare, Registry.value?_mapValues]
    cases g.nodes.value? n <;> rfl
  have hends : ∀ e ∈ g.treeEdges ++ linkEdges f,
      e.source < g.bare.size ∧ e.target < g.bare.size := by
    intro e he
    rw [hsize]
    rcases List.mem_append.mp he with he | he
    · exact g.coherent.ends e (List.mem_filter.mp he).1
    · exact h _ (mem_linkEdges.mp he).2
  obtain ⟨s, hconnect, hedges, hsize', hhole'⟩ := exists_connect hends
  refine ⟨s, hconnect, ⟨hsize'.trans hsize, fun n => (hhole' n).trans (hhole n), ?_⟩, hedges⟩
  have hlinks : (linkEdges f).filter (·.kind = .tree) = [] := by
    refine List.filter_eq_nil_iff.mpr fun e he => ?_
    rw [(mem_linkEdges.mp he).1]
    decide
  rw [treeEdges, hedges]
  show (g.treeEdges ++ linkEdges f).filter (·.kind = .tree) = g.treeEdges
  rw [List.filter_append, hlinks, List.append_nil, treeEdges, List.filter_filter]
  simp only [Bool.and_self]

namespace Realizes

theorem arc_iff (h : s.Realizes g f) {m n : Nat} : s.Arc m n ↔ g.Below f.links m n := by
  simp only [Arc, h.edges, List.mem_append, mem_linkEdges, Below, TreeArc, treeEdges,
    List.mem_filter, decide_eq_true_eq]
  constructor
  · rintro ⟨kind, ⟨he, rfl⟩ | ⟨-, hl⟩⟩
    · exact .inl he
    · exact .inr hl
  · rintro (he | hl)
    · exact ⟨.tree, .inl ⟨he, rfl⟩⟩
    · exact ⟨.dominance, .inr ⟨rfl, hl⟩⟩

/-- The edges that enter a node are the tree edge above it and the links to it. -/
theorem length_incoming (h : s.Realizes g f) (n : Nat) :
    (s.incoming n).length
      = (g.parents .tree n).length + (f.links.map (·.target)).count n := by
  rw [incoming_eq, h.edges, List.filter_append, List.length_append, parents, List.length_map,
    incomingBy_eq]
  congr 1
  rw [linkEdges, List.filter_map, List.length_map, List.count_eq_countP, List.countP_map,
    List.countP_eq_length_filter]
  congr 2

end Realizes

/-! ## Derivations of all components -/

/-- The links come from one derivation for each component of the graph. -/
structure Arranged (g : Graph) (links : List Link) (top : Subgraph → Nat)
    (inner : Subgraph → List Link) : Prop where
  derives : ∀ w ∈ g.wholeComponents, g.Derives w (top w) (inner w)
  perm : links.Perm (g.wholeComponents.flatMap inner)

/-- **What the listing of a chart of the graph contains is arranged.** -/
theorem exists_arranged {c : Chart} (hc : c.Sound g) (htop : c.toplevel = g.wholeComponents)
    (hf : f ∈ c.listing g) : ∃ top inner, g.Arranged f.links top inner := by
  rw [Chart.listing_eq, List.mem_map] at hf
  obtain ⟨links, hlinks, rfl⟩ := hf
  have hnodup : (Machine.start c).agenda.Nodup := by
    refine List.Nodup.map (fun v w hvw => ?_) (htop ▸ g.nodup_wholeComponents)
    exact congrArg Pending.subgraph hvw
  obtain ⟨top, inner, hall, hperm⟩ :=
    hc.ranked.exists_derivations hnodup (fun _ _ _ => hc.exists_derives) hlinks
  refine ⟨fun w => top ⟨none, w⟩, fun w => inner ⟨none, w⟩, fun w hw => ?_, ?_⟩
  · exact hall ⟨none, w⟩ (List.mem_map_of_mem (htop ▸ hw))
  · refine (SolvedForm.ofLinks_perm links).trans (hperm.trans ?_)
    rw [Machine.start, htop, List.flatMap_map]
    exact .refl _

namespace Arranged

variable {links : List Link} {top : Subgraph → Nat} {inner : Subgraph → List Link}

theorem mem_links_iff (h : g.Arranged links top inner) {l : Link} :
    l ∈ links ↔ ∃ w ∈ g.wholeComponents, l ∈ inner w := by
  rw [h.perm.mem_iff, List.mem_flatMap]

/-- The two ends of a link lie in the same component. -/
theorem exists_component (hg : g.isSimple = true) (h : g.Arranged links top inner) {l : Link}
    (hl : l ∈ links) :
    ∃ w ∈ g.wholeComponents, l ∈ inner w ∧ l.source ∈ w ∧ l.target ∈ w := by
  obtain ⟨w, hw, hlw⟩ := h.mem_links_iff.mp hl
  have hwhole := whole_of_mem_wholeComponents hw
  exact ⟨w, hw, hlw, ((h.derives w hw).source_mem hwhole l hlw).1,
    ((h.derives w hw).target_mem hg hwhole hlw).1⟩

theorem ends_mem (hg : g.isWeaklyNormal = true) (h : g.Arranged links top inner) {l : Link}
    (hl : l ∈ links) :
    ∃ w ∈ g.wholeComponents, l ∈ inner w ∧ l.source ∈ w ∧ l.target ∈ w :=
  h.exists_component (isSimple_of_isWeaklyNormal hg) hl

/-- **The targets of the links are the roots that are not on top, each once.** -/
theorem targets (hg : g.isSimple = true) (h : g.Arranged links top inner) :
    (links.map (·.target)).Nodup
      ∧ ∀ n w, w ∈ g.wholeComponents → n ∈ w →
          (n ∈ links.map (·.target) ↔ g.isRoot n = true ∧ n ≠ top w) := by
  have hperm : ∀ w ∈ g.wholeComponents,
      (top w :: (inner w).map (·.target)).Perm (g.rootsIn w) :=
    fun w hw => (h.derives w hw).targets_perm hg (whole_of_mem_wholeComponents hw)
  have hnodup : ∀ w ∈ g.wholeComponents, (top w :: (inner w).map (·.target)).Nodup :=
    fun w hw => (hperm w hw).nodup_iff.mpr (g.nodup_rootsIn w)
  have hmem : ∀ w ∈ g.wholeComponents, ∀ n ∈ (inner w).map (·.target), n ∈ w := by
    intro w hw n hn
    exact (mem_rootsIn.mp ((hperm w hw).mem_iff.mp (List.mem_cons_of_mem _ hn))).1
  have hall : (links.map (·.target)).Perm
      (g.wholeComponents.flatMap fun w => (inner w).map (·.target)) := by
    rw [← List.map_flatMap]
    exact h.perm.map _
  refine ⟨hall.nodup_iff.mpr (List.nodup_flatMap.mpr ⟨fun w hw => ?_, ?_⟩), fun n w hw hn => ?_⟩
  · exact (List.nodup_cons.mp (hnodup w hw)).2
  · refine g.pairwise_wholeComponents.imp_of_mem fun {v w} hv hw hvw => ?_
    intro n hnv hnw
    exact hvw n (hmem v hv n hnv) (hmem w hw n hnw)
  · rw [hall.mem_iff, List.mem_flatMap]
    constructor
    · rintro ⟨v, hv, hnv⟩
      -- components that share a node are the same
      have heq : v = w := (mem_componentsOf.mp hv).eq_of_mem (mem_componentsOf.mp hw)
        (hmem v hv n hnv) hn
      subst heq
      have hroot := (hperm v hw).mem_iff.mp (List.mem_cons_of_mem _ hnv)
      refine ⟨(mem_rootsIn.mp hroot).2, fun heq => ?_⟩
      exact (List.nodup_cons.mp (hnodup v hw)).1 (heq ▸ hnv)
    · rintro ⟨hroot, hne⟩
      have hnw := (hperm w hw).mem_iff.mpr (mem_rootsIn.mpr ⟨hn, hroot⟩)
      exact ⟨w, hw, (List.mem_cons.mp hnw).resolve_left hne⟩

end Arranged

/-! ## Forests -/

/-- The graph is a forest with the components of another one, and meets all constraints between its
fragments. -/
structure Respects (s g : Graph) : Prop where
  single : ∀ n, (s.incoming n).length ≤ 1
  acyclic : ∀ n, ¬TransGen s.Arc n n
  sole : ∀ w ∈ g.wholeComponents, ∃! n, n ∈ w ∧ s.incoming n = []
  component : ∀ w ∈ g.wholeComponents, w ∈ s.wholeComponents
  dominated : ∀ e ∈ g.dominanceEdges, e.target ∉ g.fragment e.source →
    s.reaches e.source e.target = true

variable {top : Subgraph → Nat} {inner : Subgraph → List Link}

namespace Realizes

theorem length_incoming_le (hg : g.isSimple = true) (h : s.Realizes g f)
    (ha : g.Arranged f.links top inner) (n : Nat) : (s.incoming n).length ≤ 1 := by
  obtain ⟨hnodup, htargets⟩ := ha.targets hg
  have hcount := List.nodup_iff_count_le_one.mp hnodup n
  have hparents := length_parents_le hg n
  rw [h.length_incoming]
  by_cases hmem : n ∈ f.links.map (·.target)
  · -- the target of a link is a root
    obtain ⟨l, hl, rfl⟩ := List.mem_map.mp hmem
    obtain ⟨w, hw, -, -, hlw⟩ := ha.exists_component hg hl
    have hroot := ((htargets _ w hw hlw).mp hmem).1
    simp only [Graph.isRoot, Bool.and_eq_true, List.isEmpty_iff] at hroot
    rw [hroot.2, List.length_nil]
    omega
  · rw [List.count_eq_zero.mpr hmem]
    omega

/-- Exactly the roots on top have no incoming edge. -/
theorem incoming_eq_nil_iff_top (hg : g.isSimple = true) (h : s.Realizes g f)
    (ha : g.Arranged f.links top inner) {w : Subgraph} (hw : w ∈ g.wholeComponents) {n : Nat}
    (hn : n ∈ w) : s.incoming n = [] ↔ n = top w := by
  have htarget := (ha.targets hg).2 n w hw hn
  have hlt := (whole_of_mem_wholeComponents hw).lt n hn
  rw [incoming_eq_nil_iff]
  constructor
  · intro hnone
    by_contra hne
    have hroot : g.isRoot n = true :=
      isRoot_iff.mpr ⟨hlt, fun m hm => hnone m (h.arc_iff.mpr (.inl hm))⟩
    obtain ⟨l, hl, rfl⟩ := List.mem_map.mp (htarget.mpr ⟨hroot, hne⟩)
    exact hnone l.source (h.arc_iff.mpr (.inr hl))
  · rintro rfl m hm
    rcases h.arc_iff.mp hm with htree | hlink
    · exact (isRoot_iff.mp (ha.derives w hw).isRoot_top.2).2 m htree
    · exact (htarget.mp (List.mem_map_of_mem (f := Link.target) hlink)).2 rfl

theorem reached (hg : g.isSimple = true) (h : s.Realizes g f)
    (ha : g.Arranged f.links top inner) {w : Subgraph} (hw : w ∈ g.wholeComponents) {n : Nat}
    (hn : n ∈ w) : ReflTransGen s.Arc (top w) n := by
  have hpath := (ha.derives w hw).reached hg (whole_of_mem_wholeComponents hw) n hn
  refine ReflTransGen.mono (fun a b hab => ?_) _ _ hpath
  exact h.arc_iff.mpr (hab.imp id fun hl => ha.mem_links_iff.mpr ⟨w, hw, hl⟩)

/-- No edge leaves a component. -/
theorem mem_of_joined (hg : g.isSimple = true) (h : s.Realizes g f)
    (ha : g.Arranged f.links top inner) {w : Subgraph} (hw : w ∈ g.wholeComponents) {m n : Nat}
    (hm : m ∈ w) (hj : s.Joined m n) : n ∈ w := by
  have hlink : ∀ {a b : Nat}, ⟨a, b⟩ ∈ f.links → (a ∈ w ↔ b ∈ w) := by
    intro a b hl
    obtain ⟨v, hv, -, hav, hbv⟩ := ha.exists_component hg hl
    have heq : ∀ k, k ∈ v → k ∈ w → v = w :=
      fun k hkv hkw => (mem_componentsOf.mp hv).eq_of_mem (mem_componentsOf.mp hw) hkv hkw
    exact ⟨fun haw => heq a hav haw ▸ hbv, fun hbw => heq b hbv hbw ▸ hav⟩
  have hclosed := (whole_of_mem_wholeComponents hw).closed m hm n
  rcases hj with hmn | hnm
  · rcases h.arc_iff.mp hmn with htree | hl
    · exact hclosed (.inl htree)
    · exact (hlink hl).mp hm
  · rcases h.arc_iff.mp hnm with htree | hl
    · exact hclosed (.inr htree)
    · exact (hlink hl).mpr hm

theorem mem_wholeComponents (hg : g.isSimple = true) (h : s.Realizes g f)
    (ha : g.Arranged f.links top inner) {w : Subgraph} (hw : w ∈ g.wholeComponents) :
    w ∈ s.wholeComponents := by
  have hwhole := whole_of_mem_wholeComponents hw
  have hjoined := fun {m n : Nat} => h.mem_of_joined hg ha hw (m := m) (n := n)
  have hlinked : ∀ n ∈ w, s.Linked w (top w) n := by
    intro n hn
    have hpath := h.reached hg ha hw hn
    clear hn
    induction hpath with
    | refl => exact .refl
    | @tail a b _ hab ih =>
      exact ih.tail ⟨.inl hab, hjoined (ih.mem (ha.derives w hw).isRoot_top.1) (.inl hab)⟩
  refine mem_componentsOf.mpr (.of_connected hwhole.nonempty ?_ ?_ ?_)
  · intro m hm n hn
    exact ((hlinked m hm).symm (ha.derives w hw).isRoot_top.1).trans (hlinked n hn)
  · intro n hn
    rw [allNodes, Subgraph.mem_range, h.size]
    exact hwhole.lt n hn
  · exact fun a haw b _ hab => hjoined haw hab

theorem acyclic (hg : g.isSimple = true) (h : s.Realizes g f) (ha : g.Arranged f.links top inner)
    (n : Nat) : ¬TransGen s.Arc n n := by
  intro hcycle
  -- a node on a cycle lies in some component, below a root that nothing enters
  have hlt : n < g.size := by
    obtain ⟨k, hnk, -⟩ := TransGen.head'_iff.mp hcycle
    exact h.size ▸ hnk.source_lt
  obtain ⟨w, hw, hnw⟩ := exists_mem_wholeComponents hlt
  have htop := incoming_eq_nil_iff.mp
    ((h.incoming_eq_nil_iff_top hg ha hw (ha.derives w hw).isRoot_top.1).mpr rfl)
  exact (singleAbove_arc (h.length_incoming_le hg ha)).not_cycle_of_reached htop
    (h.reached hg ha hw hnw) hcycle

/-- **The graph of an arranged solved form is a forest that respects the graph.** -/
theorem respects (hg : g.isWeaklyNormal = true) (h : s.Realizes g f)
    (ha : g.Arranged f.links top inner) : s.Respects g where
  single := h.length_incoming_le (isSimple_of_isWeaklyNormal hg) ha
  acyclic := h.acyclic (isSimple_of_isWeaklyNormal hg) ha
  sole w hw := by
    have hsimple := isSimple_of_isWeaklyNormal hg
    refine ⟨top w, ⟨(ha.derives w hw).isRoot_top.1, ?_⟩, fun n hn => ?_⟩
    · exact (h.incoming_eq_nil_iff_top hsimple ha hw (ha.derives w hw).isRoot_top.1).mpr rfl
    · exact (h.incoming_eq_nil_iff_top hsimple ha hw hn.1).mp hn.2
  component w hw := h.mem_wholeComponents (isSimple_of_isWeaklyNormal hg) ha hw
  dominated e he hne := by
    obtain ⟨he, hkind⟩ := mem_dominanceEdges.mp he
    have hedge : ⟨.dominance, e.source, e.target⟩ ∈ g.edges := hkind ▸ he
    obtain ⟨w, hw, hu⟩ := exists_mem_wholeComponents (g.coherent.ends e he).1
    have hv := (mem_componentsOf.mp hw).mem_of_joined hu (.inl ⟨.dominance, hedge⟩)
      (Subgraph.mem_range.mpr (g.coherent.ends e he).2)
    have hpath := (ha.derives w hw).dominated hg (whole_of_mem_wholeComponents hw) hu hv hedge hne
    refine reaches_iff.mpr (ReflTransGen.mono (fun a b hab => ?_) _ _ hpath)
    exact h.arc_iff.mpr (hab.imp id fun hl => ha.mem_links_iff.mpr ⟨w, hw, hl⟩)

/-- The dominance edges of the graph are the links. -/
theorem mem_links (h : s.Realizes g f) {e : Edge} (he : e ∈ s.dominanceEdges) :
    ⟨e.source, e.target⟩ ∈ f.links := by
  obtain ⟨he, hkind⟩ := mem_dominanceEdges.mp he
  rw [h.edges] at he
  rcases List.mem_append.mp he with he | he
  · have htree := of_decide_eq_true (List.mem_filter.mp he).2
    rw [hkind] at htree
    cases htree
  · exact (mem_linkEdges.mp he).2

/-- **Solved forms of simple graphs are weakly normal**, since every link leads to a root. -/
theorem isWeaklyNormal (hg : g.isSimple = true) (h : s.Realizes g f)
    (ha : g.Arranged f.links top inner) : s.isWeaklyNormal = true := by
  rw [Graph.isWeaklyNormal, Bool.and_eq_true]
  refine ⟨h.isSimple ▸ hg, List.all_eq_true.mpr fun e he => ?_⟩
  obtain ⟨w, hw, hlw⟩ := ha.mem_links_iff.mp (h.mem_links he)
  rw [h.isRoot]
  exact ((ha.derives w hw).target_mem hg (whole_of_mem_wholeComponents hw) hlw).2

/-- **Solved forms of normal graphs are normal.** -/
theorem isNormal (hg : g.isNormal = true) (h : s.Realizes g f)
    (ha : g.Arranged f.links top inner) : s.isNormal = true := by
  simp only [Graph.isNormal, Bool.and_eq_true] at hg ⊢
  obtain ⟨⟨⟨hweak, hleaf⟩, hempty⟩, hholes⟩ := hg
  refine ⟨⟨⟨h.isWeaklyNormal (isSimple_of_isWeaklyNormal hweak) ha, h.isLeafLabelled ▸ hleaf⟩,
    h.hasNoEmptyFragments ▸ hempty⟩, ?_⟩
  refine List.all_eq_true.mpr fun e he => ?_
  obtain ⟨w, hw, hlw⟩ := ha.mem_links_iff.mp (h.mem_links he)
  obtain ⟨-, n, hn⟩ := (ha.derives w hw).source_mem (whole_of_mem_wholeComponents hw) _ hlw
  rw [h.isHole]
  exact List.all_eq_true.mp hholes ⟨.dominance, e.source, n⟩ (mem_dominanceEdges.mpr ⟨hn, rfl⟩)

end Realizes

/--
**Every solved form that is enumerated makes a forest that respects the graph.**

If the graph is normal, so is the forest.
-/
theorem yielded_respects (hg : g.isWeaklyNormal = true) {c : Chart} (hc : g.solve? = some c)
    {n : Nat} {f : SolvedForm} (hf : f ∈ ((Readings.start g c).take n).1) :
    ∃ s, g.withSolvedForm f = .ok s ∧ s.Respects g ∧ (g.isNormal = true → s.isNormal = true) := by
  obtain ⟨hsolved, rfl⟩ := solve?_eq_some_iff.mp hc
  have hcomplete := complete_solving hsolved
  have hlisted : f ∈ (g.solving.chart).listing g := by
    rw [Readings.forms_take_start hcomplete] at hf
    exact List.mem_of_mem_take hf
  obtain ⟨top, inner, ha⟩ := exists_arranged hcomplete.sound toplevel_solving hlisted
  have hlt : ∀ l ∈ f.links, l.source < g.size ∧ l.target < g.size := by
    intro l hl
    obtain ⟨w, hw, -, hsource, htarget⟩ := ha.ends_mem hg hl
    have hwhole := whole_of_mem_wholeComponents hw
    exact ⟨hwhole.lt _ hsource, hwhole.lt _ htarget⟩
  obtain ⟨s, hs, hreal⟩ := exists_realizes hlt
  exact ⟨s, hs, hreal.respects hg ha, fun hnormal => hreal.isNormal hnormal ha⟩

theorem yielded_respects_twoReadings :
    ∃ s, twoReadings.withSolvedForm (.ofLinks [⟨1, 2⟩, ⟨3, 4⟩]) = .ok s ∧ s.Respects twoReadings
      ∧ (twoReadings.isNormal = true → s.isNormal = true) :=
  yielded_respects (by decide +kernel) (solve?_eq_some_iff.mpr ⟨by decide +kernel, rfl⟩)
    (n := 2) (by decide +kernel)

end Dominance.Graph
