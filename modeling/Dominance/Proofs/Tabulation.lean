import Dominance.Proofs.CompactShape
import Dominance.Proofs.Tables

/-!
# Graphs and their tables

A graph keeps the edges of a node with the node, and carries the proof that it does so correctly.
Its tables keep positions, and nothing but the operations keeps them right.

Tables that are in step and have the same names, labels and edges as a graph answer every question
as the graph does.
An operation on both gives the same answer, or the same refusal, and leaves tables that still keep
the graph.
So what is true of graphs is true of whatever can be read from the tables.

* `Keeps` — the tables keep the graph
* `Keeps.numbers_eq`, `Keeps.outEdges_eq`, `Keeps.fragmentRoot_eq` — what is read is the same
* `Keeps.addNode`, `Keeps.addEdge`, `Keeps.compactify`, `Keeps.perform` — operations side by side
* `graph_run` — every run on tables keeps what the run on graphs makes
-/

namespace Dominance

theorem mapM_congr {α β ε : Type} {f g : α → Except ε β} {as : List α} (h : ∀ a ∈ as, f a = g a) :
    as.mapM f = as.mapM g := by
  induction as with
  | nil => rfl
  | cons a as ih =>
    rw [List.mapM_cons, List.mapM_cons, h a List.mem_cons_self,
      ih fun b hb => h b (List.mem_cons_of_mem _ hb)]

/-- Declaring all nodes of a graph anew gives the graph without its edges. -/
theorem Graph.foldl_addNode_declarations (g : Graph) :
    g.declarations.foldl (fun c d => (c.addNode d.1 d.2).2) Graph.empty = g.bare := by
  have hnodup : ((List.range g.size).map g.spell).Nodup :=
    List.nodup_range.map_on fun m hm n hn =>
      Graph.eq_of_spell_eq (List.mem_range.mp hm) (List.mem_range.mp hn)
  obtain ⟨hdeclared, hnone⟩ :=
    Graph.foldl_addNode (c := .empty) hnodup fun _ _ hmem => by cases hmem
  rw [g.declarations_eq_map, List.foldl_map]
  refine Graph.eq_of_declarations_eq (hdeclared.trans ?_) hnone
  rw [g.declarations_bare, g.declarations_eq_map]
  rfl

namespace Tables

/-- The tables are in step and have the names, labels and edges of a graph. -/
structure Keeps (t : Tables) (g : Graph) : Prop where
  inStep : t.InStep
  declarations : t.declarations = g.declarations
  edges : t.edges.toList = g.edges

/-- Two results are the same failure, or tables and the graph that they keep. -/
inductive Agree : Except Fault Tables → Except Fault Graph → Prop
  | ok {t : Tables} {g : Graph} (h : t.Keeps g) : Agree (.ok t) (.ok g)
  | error (fault : Fault) : Agree (.error fault) (.error fault)

variable {t c : Tables} {g d : Graph} {name : String} {m n : Nat}

theorem InStep.length_declarations (h : t.InStep) : t.declarations.length = t.size := by
  rw [declarations, List.length_zip, List.length_map, Array.length_toList, Array.length_toList,
    h.labels]
  exact Nat.min_self _

theorem InStep.getElem?_declarations (h : t.InStep) (hn : n < t.size) :
    t.declarations[n]? = some (t.spell n, t.label n) := by
  have hnode : t.names.nodes[n]? = some t.names.nodes[n] := Array.getElem?_eq_getElem hn
  have hlt : n < t.labels.size := by rwa [h.labels]
  simp [declarations, List.getElem?_zip_eq_some, spell, Tables.label, hnode, hlt]

namespace Keeps

/-! ## What is read -/

theorem size_eq (h : t.Keeps g) : t.size = g.size := by
  rw [← h.inStep.length_declarations, h.declarations, Graph.length_declarations]

theorem spell_label_eq (h : t.Keeps g) (hn : n < t.size) :
    t.spell n = g.spell n ∧ t.label n = g.label n := by
  have hdeclared := h.inStep.getElem?_declarations hn
  rw [h.declarations, Graph.getElem?_declarations (h.size_eq ▸ hn)] at hdeclared
  exact Prod.mk.inj (Option.some.inj hdeclared).symm

/-- **A name leads to the same number.** -/
theorem numbers_eq (h : t.Keeps g) (name : String) :
    t.names.numbers[name]? = g.nodes.idOf? name := by
  refine Option.ext fun n => ?_
  rw [h.inStep.numbers_eq_some]
  constructor
  · rintro ⟨hn, rfl⟩
    refine Registry.idOf?_of_name? ?_
    have hlt : n < g.nodes.entries.size := Nat.lt_of_lt_of_eq hn h.size_eq
    rw [(h.spell_label_eq hn).1]
    simp [Graph.spell, Registry.name?, hlt]
  · intro hid
    have hname := Registry.name?_of_idOf? hid
    have hn : n < t.size := by
      rw [h.size_eq, Graph.size, ← Registry.length_names]
      rw [Registry.name?_eq] at hname
      exact (List.getElem?_eq_some_iff.mp hname).1
    exact ⟨hn, by rw [(h.spell_label_eq hn).1, Graph.spell, hname, Option.getD_some]⟩

theorem isHole_eq (h : t.Keeps g) (n : Nat) : t.isHole n = g.isHole n := by
  rw [Graph.isHole_eq, ← h.declarations, isHole]
  by_cases hn : n < t.size
  · have hlt : n < t.labels.size := by rwa [h.inStep.labels]
    rw [h.inStep.getElem?_declarations hn]
    simp [Tables.label, hlt]
  · have hle := Nat.le_of_not_lt hn
    rw [Array.getElem?_eq_none (by rwa [h.inStep.labels]),
      List.getElem?_eq_none (by rwa [h.inStep.length_declarations])]
    rfl

/-- **The edges that leave a node are the same, in the same order.** -/
theorem outEdges_eq (h : t.Keeps g) (n : Nat) (kind : Option EdgeKind) :
    t.outEdges n kind = (g.outgoing n).filter fun e => kind.all (e.kind = ·) := by
  rw [h.inStep.outEdges_eq, h.edges, Graph.outgoing_eq, List.filter_filter]
  refine List.filter_congr fun e _ => ?_
  rw [Bool.decide_and, Bool.decide_eq_true, Bool.and_comm]

theorem inEdges_eq (h : t.Keeps g) (n : Nat) (kind : Option EdgeKind) :
    t.inEdges n kind = (g.incoming n).filter fun e => kind.all (e.kind = ·) := by
  rw [h.inStep.inEdges_eq, h.edges, Graph.incoming_eq, List.filter_filter]
  refine List.filter_congr fun e _ => ?_
  rw [Bool.decide_and, Bool.decide_eq_true, Bool.and_comm]

theorem parents_eq (h : t.Keeps g) (kind : EdgeKind) (n : Nat) :
    t.parents kind n = g.parents kind n := by
  rw [Tables.parents, h.inEdges_eq]
  rfl

theorem isRoot_eq (h : t.Keeps g) (n : Nat) : t.isRoot n = g.isRoot n := by
  rw [Tables.isRoot, Graph.isRoot, h.size_eq, ← h.parents_eq, Tables.parents, List.isEmpty_map]

theorem climb_eq (h : t.Keeps g) (steps n : Nat) : t.climb steps n = g.climb steps n := by
  induction steps generalizing n with
  | zero => rfl
  | succ steps ih =>
    rw [Tables.climb, Graph.climb, h.parents_eq]
    cases g.parents .tree n with
    | nil => rfl
    | cons parent _ => exact ih parent

theorem fragmentRoot_eq (h : t.Keeps g) (n : Nat) : t.fragmentRoot n = g.fragmentRoot n := by
  rw [Tables.fragmentRoot, Graph.fragmentRoot, h.climb_eq, h.size_eq]

theorem isKept_eq (h : t.Keeps g) (n : Nat) : t.isKept n = g.isKept n := by
  rw [Tables.isKept, Graph.isKept, h.isRoot_eq, h.isHole_eq]

theorem kept_eq (h : t.Keeps g) : t.kept = g.kept := by
  rw [Tables.kept, Graph.kept, h.size_eq]
  exact List.filter_congr fun n _ => h.isKept_eq n

/-! ## Declaring nodes -/

theorem empty : Keeps .empty .empty where
  inStep := inStep_empty
  declarations := rfl
  edges := rfl

/-- **A name gets the same number, and the tables keep the graph that declares it.** -/
theorem addNode (h : t.Keeps g) (name : String) (label : Option String) :
    (t.addNode name label).1 = (g.addNode name label).1
      ∧ Keeps (t.addNode name label).2 (g.addNode name label).2 := by
  have hstep := h.inStep.addNode name label
  have hnumbers := h.numbers_eq name
  cases hid : g.nodes.idOf? name with
  | some n =>
    have hregister := Registry.register_of_idOf?_eq_some (r := g.nodes) { label } hid
    rw [hid] at hnumbers
    rw [addNode_of_some hnumbers]
    refine ⟨congrArg Prod.fst hregister.symm, h.inStep, ?_, h.edges⟩
    exact h.declarations.trans (Graph.declarations_addNode_of_some hid).symm
  | none =>
    have hregister := Registry.register_of_idOf?_eq_none (r := g.nodes) { label } hid
    rw [hid] at hnumbers
    rw [addNode_of_none hnumbers] at hstep ⊢
    refine ⟨h.size_eq.trans (congrArg Prod.fst hregister.symm), hstep, ?_, h.edges⟩
    rw [Graph.declarations_addNode_of_none hid, ← h.declarations]
    simp only [Tables.declarations, NameTable.add_of_none hnumbers, Array.toList_push,
      List.map_append, List.map_singleton]
    exact List.zip_append (by simpa [size, NameTable.size] using h.inStep.labels.symm)

/-! ## Adding edges -/

/-- **An edge is added to both or refused by both.** -/
theorem addEdge (h : t.Keeps g) (e : Edge) :
    (t.addEdge e).1 = (g.addEdge e).map (fun _ => ())
      ∧ Keeps (t.addEdge e).2 ((g.addEdge e).toOption.getD g) := by
  have hstep := h.inStep.addEdge e
  rw [Graph.addEdge]
  by_cases hends : e.source < g.size ∧ e.target < g.size
  · have hends' : e.source < t.size ∧ e.target < t.size := by rwa [h.size_eq]
    rw [dif_pos hends]
    rw [addEdge_of_lt hends'] at hstep ⊢
    refine ⟨rfl, hstep, h.declarations.trans (Graph.declarations_record g hends).symm, ?_⟩
    exact (Array.toList_push ..).trans (congrArg (· ++ [e]) h.edges)
  · have hends' : ¬(e.source < t.size ∧ e.target < t.size) := by rwa [h.size_eq]
    rw [dif_neg hends, addEdge_of_not_lt hends', h.size_eq]
    exact ⟨rfl, h⟩

theorem addNamedEdge (h : t.Keeps g) (kind : EdgeKind) (source target : String) :
    (t.addNamedEdge kind source target).1
        = (g.addNamedEdge kind source target).map (fun _ => ())
      ∧ Keeps (t.addNamedEdge kind source target).2
        ((g.addNamedEdge kind source target).toOption.getD g) := by
  rw [Tables.addNamedEdge, Graph.addNamedEdge, h.numbers_eq, h.numbers_eq]
  cases g.nodes.idOf? source with
  | none => exact ⟨rfl, h⟩
  | some m =>
    cases g.nodes.idOf? target with
    | none => exact ⟨rfl, h⟩
    | some n => exact h.addEdge ⟨kind, m, n⟩

theorem connect {edges : List Edge} (h : t.Keeps g) :
    Agree (t.connect edges) (g.connect edges) := by
  induction edges generalizing t g with
  | nil => exact .ok h
  | cons e edges ih =>
    have hnext := (h.addEdge e).2
    rw [Tables.connect, Graph.connect]
    rw [Graph.addEdge] at hnext
    by_cases hends : e.source < g.size ∧ e.target < g.size
    · have hends' : e.source < t.size ∧ e.target < t.size := by rwa [h.size_eq]
      rw [dif_pos hends] at hnext ⊢
      rw [addEdge_of_lt hends'] at hnext
      simp only [addEdge_of_lt hends']
      exact ih hnext
    · have hends' : ¬(e.source < t.size ∧ e.target < t.size) := by rwa [h.size_eq]
      rw [dif_neg hends, addEdge_of_not_lt hends', h.size_eq]
      exact .error _

/-! ## Derived graphs -/

/-- Kept nodes are declared side by side. -/
theorem foldl_addNode {ns : List Nat} (h : t.Keeps g) (hns : ∀ n ∈ ns, n < t.size)
    (hc : c.Keeps d) :
    Keeps (ns.foldl (fun c n => (c.addNode (t.spell n) (t.label n)).2) c)
      (ns.foldl (fun d n => (d.addNode (g.spell n) (g.label n)).2) d) := by
  induction ns generalizing c d with
  | nil => exact hc
  | cons n ns ih =>
    obtain ⟨hspell, hlabel⟩ := h.spell_label_eq (hns n List.mem_cons_self)
    have hnext := (hc.addNode (t.spell n) (t.label n)).2
    rw [hspell, hlabel] at hnext
    rw [List.foldl_cons, List.foldl_cons, hspell, hlabel]
    exact ih (fun m hm => hns m (List.mem_cons_of_mem _ hm)) hnext

theorem compactNodes (h : t.Keeps g) : Keeps t.compactNodes g.compactNodes := by
  have hlt : ∀ n ∈ g.kept, n < t.size :=
    fun n hn => h.size_eq ▸ Graph.lt_of_isKept (Graph.mem_kept.mp hn)
  rw [Tables.compactNodes, h.kept_eq]
  exact h.foldl_addNode hlt empty

/-- **The number of a stand-in is looked up by name, and is the same.** -/
theorem compactId_eq (h : t.Keeps g) (hn : n < g.size) :
    t.compactId t.compactNodes n = g.compactId n := by
  have hstand : g.standIn n < g.size := by
    rw [Graph.standIn]
    split
    · exact hn
    · exact Graph.lt_of_mem_fragment hn Graph.fragmentRoot_mem_fragment
  have hlookup : t.compactNodes.names.numbers[t.spell
      (if t.isKept n then n else t.fragmentRoot n)]? = g.kept.idxOf? (g.standIn n) := by
    rw [h.isKept_eq, h.fragmentRoot_eq, ← Graph.standIn,
      (h.spell_label_eq (h.size_eq ▸ hstand)).1, h.compactNodes.numbers_eq,
      Graph.idOf?_compactNodes hstand]
  unfold Tables.compactId Graph.compactId
  cases hid : g.kept.idxOf? (g.standIn n) with
  | none => simp only [hlookup.trans hid]
  | some id => simp only [hlookup.trans hid]

theorem compactEdge_eq (h : t.Keeps g) (kind : EdgeKind) (hm : m < g.size) (hn : n < g.size) :
    t.compactEdge t.compactNodes kind m n = g.compactEdge kind m n := by
  rw [Tables.compactEdge, Graph.compactEdge, h.compactId_eq hm, h.compactId_eq hn]

theorem compactEdges_eq (h : t.Keeps g) : t.compactEdges t.compactNodes = g.compactEdges := by
  have hroots : (fun n => !t.isRoot n) = fun n => !g.isRoot n :=
    funext fun n => congrArg _ (h.isRoot_eq n)
  have htree : ∀ n ∈ g.kept.filter fun n => !g.isRoot n,
      t.compactEdge t.compactNodes .tree (t.fragmentRoot n) n
        = g.compactEdge .tree (g.fragmentRoot n) n := by
    intro n hn
    have hlt := Graph.lt_of_isKept (Graph.mem_kept.mp (List.mem_filter.mp hn).1)
    rw [h.fragmentRoot_eq]
    exact h.compactEdge_eq _ (Graph.lt_of_mem_fragment hlt Graph.fragmentRoot_mem_fragment) hlt
  have hdominance : ∀ e ∈ g.dominanceEdges,
      t.compactEdge t.compactNodes .dominance e.source e.target
        = g.compactEdge .dominance e.source e.target := by
    intro e he
    have hends := g.coherent.ends e (List.mem_filter.mp he).1
    exact h.compactEdge_eq _ hends.1 hends.2
  unfold Tables.compactEdges Graph.compactEdges
  dsimp only
  rw [h.kept_eq, hroots, mapM_congr htree, h.edges, ← Graph.dominanceEdges, mapM_congr hdominance]

/-- **Both have a compact version or neither has one.** -/
theorem compactify (h : t.Keeps g) : Agree t.compactify g.compactify := by
  unfold Tables.compactify Graph.compactify
  dsimp only
  rw [h.compactEdges_eq]
  cases g.compactEdges with
  | error fault => exact .error fault
  | ok edges => exact h.compactNodes.connect

theorem bare (h : t.Keeps g) : Keeps t.bare g.bare where
  inStep := h.inStep.bare
  declarations := h.declarations.trans g.declarations_bare.symm
  edges := rfl

theorem withSolvedForm (h : t.Keeps g) (f : SolvedForm) :
    Agree (t.withSolvedForm f) (g.withSolvedForm f) := by
  rw [Tables.withSolvedForm, h.edges]
  exact h.bare.connect

end Keeps

/-! ## Runs -/

theorem Agree.getD {x : Except Fault Tables} {y : Except Fault Graph} (hxy : Agree x y)
    (h : t.Keeps g) : Keeps (x.toOption.getD t) (y.toOption.getD g) := by
  cases hxy with
  | ok hok => exact hok
  | error fault => exact h

/-- **One operation on both leaves tables that keep the graph.** -/
theorem Keeps.perform (h : t.Keeps g) (operation : Graph.Operation) :
    Keeps (t.perform operation) (g.perform operation) := by
  cases operation with
  | addNode name label => exact (h.addNode name label).2
  | addNamedEdge kind source target => exact (h.addNamedEdge kind source target).2
  | addEdge e => exact (h.addEdge e).2
  | compactify => exact h.compactify.getD h
  | withSolvedForm f => exact (h.withSolvedForm f).getD h

theorem keeps_run (operations : List Graph.Operation) :
    Keeps (run operations) (Graph.run operations) := by
  suffices hrun : ∀ (t : Tables) (g : Graph), t.Keeps g →
      Keeps (operations.foldl perform t) (operations.foldl Graph.perform g) from
    hrun empty Graph.empty .empty
  induction operations with
  | nil => exact fun t g h => h
  | cons operation operations ih => exact fun t g h => ih _ _ (h.perform operation)

/-- Tables keep one graph only. -/
theorem Keeps.graph_eq (h : t.Keeps g) : t.graph = g := by
  have hends : ∀ e ∈ g.edges, e.source < g.bare.size ∧ e.target < g.bare.size := by
    rw [show g.bare.size = g.size from Registry.size_mapValues ..]
    exact g.coherent.ends
  obtain ⟨s, hconnect, hedges, -⟩ := Graph.exists_connect hends
  rw [graph, h.declarations, h.edges, Graph.foldl_addNode_declarations, hconnect]
  refine Graph.eq_of_declarations_eq ?_ hedges
  exact (Graph.declarations_connect hconnect).trans g.declarations_bare

/-- **Operations on tables make the tables of the graph that they make of graphs.** -/
theorem graph_run (operations : List Graph.Operation) :
    (run operations).graph = Graph.run operations :=
  (keeps_run operations).graph_eq

end Tables

end Dominance
