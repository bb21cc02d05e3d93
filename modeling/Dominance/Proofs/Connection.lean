import Dominance.Graph.Fragment
import Dominance.Proofs.Search

/-!
# Paths, components and fragments

The searches of a graph by the edges they follow.

* `reaches_iff` — `reaches` follows directed paths
* `mem_fragment` — a fragment holds what tree edges join, in either direction
* `mem_componentsOf` — `componentsOf` lists the components, that is, the classes of nodes joined by
  paths within the subgraph
* `Whole` — the subgraphs that solving works on: connected, and made of whole fragments
-/

namespace Dominance

open Relation

/-- The members of a subgraph that another one lacks. -/
def Subgraph.without (s t : Subgraph) : Subgraph := s.filter fun n => !t.contains n

@[simp]
theorem Subgraph.mem_without {s t : Subgraph} {n : Nat} : n ∈ s.without t ↔ n ∈ s ∧ n ∉ t := by
  simp [without, contains]

theorem Subgraph.nodup_ids (s : Subgraph) : s.ids.Nodup :=
  s.ascending.imp fun h => Nat.ne_of_lt h

namespace Graph

variable {g : Graph} {s t w : Subgraph} {m n : Nat}

/-! ## Edges as relations -/

/-- An edge leads from one node to another. -/
def Arc (g : Graph) (m n : Nat) : Prop := ∃ kind, ⟨kind, m, n⟩ ∈ g.edges

/-- A tree edge leads from one node to another. -/
def TreeArc (g : Graph) (m n : Nat) : Prop := ⟨.tree, m, n⟩ ∈ g.edges

/-- An edge joins two nodes, in either direction. -/
def Joined (g : Graph) (m n : Nat) : Prop := g.Arc m n ∨ g.Arc n m

/-- A tree edge joins two nodes, in either direction. -/
def TreeJoined (g : Graph) (m n : Nat) : Prop := g.TreeArc m n ∨ g.TreeArc n m

theorem TreeArc.arc (h : g.TreeArc m n) : g.Arc m n := ⟨.tree, h⟩

theorem TreeJoined.joined (h : g.TreeJoined m n) : g.Joined m n :=
  h.imp TreeArc.arc TreeArc.arc

theorem Joined.symm (h : g.Joined m n) : g.Joined n m := Or.symm h

theorem TreeJoined.symm (h : g.TreeJoined m n) : g.TreeJoined n m := Or.symm h

theorem Arc.source_lt (h : g.Arc m n) : m < g.size := by
  obtain ⟨kind, he⟩ := h
  exact (g.coherent.ends _ he).1

theorem Arc.target_lt (h : g.Arc m n) : n < g.size := by
  obtain ⟨kind, he⟩ := h
  exact (g.coherent.ends _ he).2

theorem Joined.lt (h : g.Joined m n) : n < g.size := by
  rcases h with h | h
  · exact h.target_lt
  · exact h.source_lt

/-! ## Neighbours -/

theorem mem_successors : n ∈ g.successors m ↔ g.Arc m n := by
  simp only [successors, List.mem_map, mem_outgoing, Arc]
  constructor
  · rintro ⟨e, ⟨he, rfl⟩, rfl⟩
    exact ⟨e.kind, he⟩
  · rintro ⟨kind, he⟩
    exact ⟨_, ⟨he, rfl⟩, rfl⟩

/-- The other ends of a choice of the edges at a node; a loop leads back to the node. -/
theorem exists_otherEnd_iff {p : Edge → Prop} :
    (∃ e, (e ∈ g.incident m ∧ p e) ∧ e.otherEnd m = n) ↔
      (∃ kind, ⟨kind, m, n⟩ ∈ g.edges ∧ p ⟨kind, m, n⟩)
        ∨ ∃ kind, ⟨kind, n, m⟩ ∈ g.edges ∧ p ⟨kind, n, m⟩ := by
  simp only [incident, List.mem_append, mem_outgoing, mem_incoming]
  constructor
  · rintro ⟨⟨kind, a, b⟩, ⟨⟨he, rfl⟩ | ⟨he, rfl⟩, hp⟩, rfl⟩
    · simp only [Edge.otherEnd, if_true]
      exact .inl ⟨kind, he, hp⟩
    · unfold Edge.otherEnd
      by_cases hab : a = b
      · rw [if_pos hab]
        subst hab
        exact .inl ⟨kind, he, hp⟩
      · rw [if_neg hab]
        exact .inr ⟨kind, he, hp⟩
  · rintro (⟨kind, he, hp⟩ | ⟨kind, he, hp⟩)
    · exact ⟨_, ⟨.inl ⟨he, rfl⟩, hp⟩, by simp [Edge.otherEnd]⟩
    · refine ⟨_, ⟨.inr ⟨he, rfl⟩, hp⟩, ?_⟩
      unfold Edge.otherEnd
      split
      · next h => exact h.symm
      · rfl

@[simp]
theorem mem_neighbours : n ∈ g.neighbours m ↔ g.Joined m n := by
  have h := exists_otherEnd_iff (g := g) (m := m) (n := n) (p := fun _ => True)
  simp only [and_true] at h
  rw [neighbours, List.mem_map, h]
  rfl

@[simp]
theorem mem_treeNeighbours : n ∈ g.treeNeighbours m ↔ g.TreeJoined m n := by
  have h := exists_otherEnd_iff (g := g) (m := m) (n := n) (p := fun e => e.kind = .tree)
  simp only [treeNeighbours, List.mem_map, List.mem_filter, decide_eq_true_eq, h]
  simp [TreeJoined, TreeArc]

theorem mutual_neighbours (g : Graph) : Mutual g.neighbours :=
  fun _ _ h => mem_neighbours.mpr (mem_neighbours.mp h).symm

theorem mutual_treeNeighbours (g : Graph) : Mutual g.treeNeighbours :=
  fun _ _ h => mem_treeNeighbours.mpr (mem_treeNeighbours.mp h).symm

/-! ## Searches in the whole graph -/

/-- A search through all other nodes follows every path of a relation that stays in the graph. -/
theorem mem_reached_othersThan {next : Nat → List Nat} {r : Nat → Nat → Prop}
    (hnext : ∀ a b, b ∈ next a ↔ r a b) (hlt : ∀ a b, r a b → b < g.size) :
    n ∈ (reachFrom next m (g.othersThan m)).reached ↔ ReflTransGen r m n := by
  rw [mem_reached_reachFrom, ← path_cons_iff]
  have hstep : StepIn next (m :: g.othersThan m) = r := by
    funext a b
    refine propext ⟨fun h => (hnext a b).mp h.1, fun h => ⟨(hnext a b).mpr h, ?_⟩⟩
    by_cases hb : b = m
    · exact hb ▸ List.mem_cons_self
    · exact List.mem_cons_of_mem _
        (List.mem_filter.mpr ⟨List.mem_range.mpr (hlt a b h), decide_eq_true hb⟩)
  rw [hstep]

/-- **`reaches` follows directed paths.** -/
theorem reaches_iff : g.reaches m n = true ↔ ReflTransGen g.Arc m n := by
  rw [reaches, reachable, Subgraph.contains_iff, Subgraph.mem_ofList]
  exact mem_reached_othersThan (fun _ _ => mem_successors) fun _ _ h => h.target_lt

/-- **The fragment of a node holds the nodes that tree edges join to it.** -/
theorem mem_fragment : n ∈ g.fragment m ↔ ReflTransGen g.TreeJoined m n := by
  rw [fragment, Subgraph.mem_ofList]
  exact mem_reached_othersThan (fun _ _ => mem_treeNeighbours) fun _ _ h => h.joined.lt

theorem self_mem_fragment : m ∈ g.fragment m := mem_fragment.mpr .refl

theorem mem_fragment_symm (h : n ∈ g.fragment m) : m ∈ g.fragment n := by
  rw [mem_fragment] at *
  induction h with
  | refl => exact .refl
  | tail _ hj ih => exact .head hj.symm ih

theorem mem_fragment_of_treeJoined {k : Nat} (h : m ∈ g.fragment k) (hj : g.TreeJoined m n) :
    n ∈ g.fragment k :=
  mem_fragment.mpr ((mem_fragment.mp h).tail hj)

/-- The fragment of a node holds nodes only. -/
theorem lt_of_mem_fragment (hm : m < g.size) (hn : n ∈ g.fragment m) : n < g.size := by
  rw [mem_fragment] at hn
  cases hn with
  | refl => exact hm
  | tail _ hstep => exact hstep.joined.lt

theorem fragment_eq_of_mem (h : n ∈ g.fragment m) : g.fragment n = g.fragment m := by
  ext k
  rw [mem_fragment] at h
  have hback := mem_fragment.mp (mem_fragment_symm (mem_fragment.mpr h))
  rw [mem_fragment, mem_fragment]
  exact ⟨h.trans, hback.trans⟩

/-- What is listed as a fragment is the fragment of a node. -/
theorem exists_eq_fragment (hw : w ∈ g.fragments) : ∃ a < g.size, w = g.fragment a := by
  obtain ⟨a, ha, hiff⟩ := exists_of_mem_components g.mutual_treeNeighbours List.nodup_range hw
  have hstep : StepIn g.treeNeighbours (List.range g.size) = g.TreeJoined := by
    funext b c
    refine propext ⟨fun h => mem_treeNeighbours.mp h.1, fun h => ?_⟩
    exact ⟨mem_treeNeighbours.mpr h, List.mem_range.mpr h.joined.lt⟩
  refine ⟨a, List.mem_range.mp ha, ?_⟩
  ext n
  rw [hiff n, hstep, mem_fragment]

/-- The fragment of every node is listed. -/
theorem fragment_mem_fragments (hm : m < g.size) : g.fragment m ∈ g.fragments := by
  obtain ⟨w, hw, hmw⟩ := exists_mem_components g.treeNeighbours List.nodup_range
    (List.mem_range.mpr hm)
  obtain ⟨a, -, rfl⟩ := exists_eq_fragment hw
  rw [fragment_eq_of_mem hmw]
  exact hw

/-! ## Components of a subgraph -/

/-- A path of edges in either direction joins two nodes, and stays within a subgraph after its
first node. -/
def Linked (g : Graph) (s : Subgraph) : Nat → Nat → Prop :=
  ReflTransGen fun a b => g.Joined a b ∧ b ∈ s

/-- Paths within the subgraph join all its nodes. -/
def Connected (g : Graph) (s : Subgraph) : Prop := ∀ m ∈ s, ∀ n ∈ s, g.Linked s m n

/-- The nodes of a subgraph that paths within it join to one of them. -/
def IsComponent (g : Graph) (s w : Subgraph) : Prop := ∃ a ∈ s, ∀ n, n ∈ w ↔ g.Linked s a n

theorem linked_iff : g.Linked s m n ↔ ReflTransGen (StepIn g.neighbours s.ids) m n := by
  have hstep : StepIn g.neighbours s.ids = fun a b => g.Joined a b ∧ b ∈ s := by
    funext a b
    exact propext (and_congr mem_neighbours Iff.rfl)
  rw [hstep, Linked]

theorem Linked.mem (h : g.Linked s m n) (hm : m ∈ s) : n ∈ s :=
  mem_of_path hm (linked_iff.mp h)

theorem Linked.symm (h : g.Linked s m n) (hm : m ∈ s) : g.Linked s n m :=
  linked_iff.mpr (path_symm g.mutual_neighbours hm (linked_iff.mp h))

theorem Linked.mono (h : g.Linked s m n) (hst : ∀ a ∈ s, a ∈ t) : g.Linked t m n :=
  ReflTransGen.mono (fun _ _ hs => ⟨hs.1, hst _ hs.2⟩) _ _ h

theorem Linked.of_joined (h : g.Joined m n) (hn : n ∈ s) : g.Linked s m n :=
  .single ⟨h, hn⟩

namespace IsComponent

theorem subset (h : g.IsComponent s w) : ∀ n ∈ w, n ∈ s := by
  obtain ⟨a, ha, hw⟩ := h
  exact fun n hn => ((hw n).mp hn).mem ha

theorem nonempty (h : g.IsComponent s w) : ∃ n, n ∈ w := by
  obtain ⟨a, -, hw⟩ := h
  exact ⟨a, (hw a).mpr .refl⟩

theorem mem_iff_linked (h : g.IsComponent s w) (hm : m ∈ w) : n ∈ w ↔ g.Linked s m n := by
  obtain ⟨a, ha, hw⟩ := h
  have ham := (hw m).mp hm
  rw [hw n]
  exact ⟨(ham.symm ha).trans, ham.trans⟩

theorem mem_of_joined (h : g.IsComponent s w) (hm : m ∈ w) (hj : g.Joined m n) (hn : n ∈ s) :
    n ∈ w :=
  (h.mem_iff_linked hm).mpr (.of_joined hj hn)

theorem eq_of_mem (h : g.IsComponent s w) (h' : g.IsComponent s t) (hm : m ∈ w)
    (hm' : m ∈ t) : w = t := by
  ext n
  rw [h.mem_iff_linked hm, h'.mem_iff_linked hm']

/-- Paths between nodes of a component never leave it. -/
theorem connected (h : g.IsComponent s w) : g.Connected w := by
  intro m hm n hn
  have hpath := (h.mem_iff_linked hm).mp hn
  clear hn
  induction hpath with
  | refl => exact .refl
  | tail hpath hstep ih =>
    exact ih.tail ⟨hstep.1, (h.mem_iff_linked hm).mpr (hpath.tail hstep)⟩

/-- A connected part that meets a component lies in it. -/
theorem subset_of_connected (h : g.IsComponent s w) (ht : g.Connected t) (hts : ∀ n ∈ t, n ∈ s)
    (hm : m ∈ t) (hmw : m ∈ w) : ∀ n ∈ t, n ∈ w :=
  fun n hn => (h.mem_iff_linked hmw).mpr ((ht m hm n hn).mono hts)

/-- A connected part that no edge leaves is a component. -/
theorem of_connected (hne : ∃ n, n ∈ w) (hw : g.Connected w) (hws : ∀ n ∈ w, n ∈ s)
    (hclosed : ∀ a ∈ w, ∀ b ∈ s, g.Joined a b → b ∈ w) : g.IsComponent s w := by
  obtain ⟨a, ha⟩ := hne
  refine ⟨a, hws a ha, fun n => ⟨fun hn => (hw a ha n hn).mono hws, fun hpath => ?_⟩⟩
  induction hpath with
  | refl => exact ha
  | tail _ hstep ih => exact hclosed _ ih _ hstep.2 hstep.1

end IsComponent

/-- **`componentsOf` lists the components.** -/
theorem mem_componentsOf : w ∈ g.componentsOf s ↔ g.IsComponent s w := by
  constructor
  · intro hw
    obtain ⟨a, ha, hiff⟩ := exists_of_mem_components g.mutual_neighbours s.nodup_ids hw
    exact ⟨a, ha, fun n => (hiff n).trans linked_iff.symm⟩
  · rintro ⟨a, ha, hw⟩
    obtain ⟨v, hv, hav⟩ := exists_mem_components g.neighbours s.nodup_ids ha
    obtain ⟨b, hb, hiff⟩ := exists_of_mem_components g.mutual_neighbours s.nodup_ids hv
    have hv' : g.IsComponent s v := ⟨b, hb, fun n => (hiff n).trans linked_iff.symm⟩
    have hw' : g.IsComponent s w := ⟨a, ha, hw⟩
    rw [hw'.eq_of_mem hv' ((hw a).mpr .refl) hav]
    exact hv

theorem exists_component (hm : m ∈ s) : ∃ w, g.IsComponent s w ∧ m ∈ w := by
  obtain ⟨w, hw, hmw⟩ := exists_mem_components g.neighbours s.nodup_ids hm
  exact ⟨w, mem_componentsOf.mp hw, hmw⟩

/-! ## Whole subgraphs -/

/-- A subgraph that is connected and made of whole fragments. -/
structure Whole (g : Graph) (s : Subgraph) : Prop where
  nonempty : ∃ n, n ∈ s
  lt : ∀ n ∈ s, n < g.size
  connected : g.Connected s
  closed : ∀ m ∈ s, ∀ n, g.TreeJoined m n → n ∈ s

theorem whole_of_mem_wholeComponents (hw : w ∈ g.wholeComponents) : g.Whole w := by
  have hc : g.IsComponent g.allNodes w := mem_componentsOf.mp hw
  refine ⟨hc.nonempty, fun n hn => Subgraph.mem_range.mp (hc.subset n hn), hc.connected, ?_⟩
  intro m hm n hj
  exact hc.mem_of_joined hm hj.joined (Subgraph.mem_range.mpr hj.joined.lt)

theorem exists_mem_wholeComponents (hm : m < g.size) : ∃ w ∈ g.wholeComponents, m ∈ w := by
  obtain ⟨w, hw, hmw⟩ := exists_component (g := g) (s := g.allNodes) (Subgraph.mem_range.mpr hm)
  exact ⟨w, mem_componentsOf.mpr hw, hmw⟩

/-- No two components of the graph share a node. -/
theorem pairwise_wholeComponents (g : Graph) :
    g.wholeComponents.Pairwise fun v w => ∀ n ∈ v, n ∉ w :=
  pairwise_components g.mutual_neighbours g.allNodes.nodup_ids

theorem nodup_wholeComponents (g : Graph) : g.wholeComponents.Nodup := by
  refine g.pairwise_wholeComponents.imp_of_mem fun {v w} hv _ hvw heq => ?_
  obtain ⟨n, hn⟩ := (whole_of_mem_wholeComponents hv).nonempty
  exact hvw n hn (heq ▸ hn)

namespace Whole

theorem fragment_subset (h : g.Whole s) (hm : m ∈ s) : ∀ n ∈ g.fragment m, n ∈ s := by
  intro n hn
  rw [mem_fragment] at hn
  induction hn with
  | refl => exact hm
  | tail _ hj ih => exact h.closed _ ih _ hj

/-- Taking one fragment away leaves whole subgraphs. -/
theorem of_component (h : g.Whole s) (hw : g.IsComponent (s.without (g.fragment m)) w) :
    g.Whole w := by
  have hsub : ∀ n ∈ w, n ∈ s ∧ n ∉ g.fragment m :=
    fun n hn => Subgraph.mem_without.mp (hw.subset n hn)
  refine ⟨hw.nonempty, fun n hn => h.lt n (hsub n hn).1, hw.connected, ?_⟩
  intro a ha b hj
  obtain ⟨has, ham⟩ := hsub a ha
  refine hw.mem_of_joined ha hj.joined (Subgraph.mem_without.mpr ⟨h.closed a has b hj, ?_⟩)
  exact fun hb => ham (mem_fragment_of_treeJoined hb hj.symm)

end Whole

end Graph

end Dominance
