import Mathlib.Data.List.Basic
import Dominance.Graph.Tables

/-!
# Tables that stay in step

The tables of a graph say the same things in several places, and nothing but the operations keeps
them from saying different ones.

Names and numbers are inverse to each other: a name leads to a number exactly if it is the name at
that position.
The tables of the nodes have one row for every node.
The rows of edges hold positions of the table of edges, and the edges at these positions are those
that have the node as their end, in the order of insertion.

Every operation keeps all of this, whether it succeeds or not, and the derived graphs are built by
operations as well.

* `NameTable.Sound`, `Rows`, `InStep` — what the tables agree on
* `InStep.addNode`, `InStep.addEdge` — what one operation keeps
* `inStep_run` — every run of operations keeps the tables in step
* `tables_stay_in_step` — what can be read from such tables
-/

namespace Dominance

/-! ## Names and numbers -/

namespace NameTable

variable {t : NameTable} {name : String} {m n : Nat}

/-- Nodes are numbered by position, and a name leads to the node that has it. -/
structure Sound (t : NameTable) : Prop where
  numbered : ∀ (n : Nat) (node : Nat × String), t.nodes[n]? = some node → node.1 = n
  numbers : ∀ (name : String) (n : Nat), t.numbers[name]? = some n ↔ t.nodes[n]? = some (n, name)

theorem sound_empty : Sound empty where
  numbered n node h := by simp [empty] at h
  numbers name n := by simp [empty]

theorem add_of_some (h : t.numbers[name]? = some n) : t.add name = (n, t) := by
  unfold add
  rw [h]

theorem add_of_none (h : t.numbers[name]? = none) : t.add name = (t.size,
    { nodes := t.nodes.push (t.size, name), numbers := t.numbers.insert name t.size }) := by
  unfold add
  rw [h]

namespace Sound

theorem lt_size (h : t.Sound) (hn : t.numbers[name]? = some n) : n < t.size := by
  obtain ⟨hlt, -⟩ := Array.getElem?_eq_some_iff.mp ((h.numbers name n).mp hn)
  exact hlt

/-- Every node has a name that leads to it. -/
theorem exists_name (h : t.Sound) (hn : n < t.size) :
    ∃ name : String, t.nodes[n]? = some (n, name) := by
  have hget : t.nodes[n]? = some t.nodes[n] := Array.getElem?_eq_getElem hn
  exact ⟨t.nodes[n].2, hget.trans (congrArg some (Prod.ext (h.numbered n _ hget) rfl))⟩

/-- **A new name gets the next number, and leads to it.** -/
theorem add (h : t.Sound) (name : String) : (t.add name).2.Sound := by
  cases hname : t.numbers[name]? with
  | some n =>
    rw [add_of_some hname]
    exact h
  | none =>
    rw [add_of_none hname]
    have hnone : ∀ n : Nat, t.nodes[n]? ≠ some (n, name) := by
      intro n hn
      rw [(h.numbers name n).mpr hn] at hname
      cases hname
    refine ⟨fun n node hn => ?_, fun other n => ?_⟩
    · rw [Array.getElem?_push] at hn
      split at hn
      · next hlast =>
        cases hn
        exact hlast.symm
      · exact h.numbered n node hn
    · rw [Array.getElem?_push, Std.HashMap.getElem?_insert]
      by_cases heq : name = other
      · subst heq
        rw [if_pos (beq_self_eq_true name)]
        split
        · next hlast => simp [size, hlast]
        · next hlast => simp [size, Ne.symm hlast, hnone n]
      · rw [if_neg (by simpa using heq), h.numbers]
        split
        · next hlast =>
          rw [Array.getElem?_eq_none (Nat.le_of_eq hlast.symm)]
          simp [heq]
        · exact Iff.rfl

end Sound

end NameTable

/-! ## Rows of edges -/

/-- The positions of the edges whose tip is a node, in ascending order. -/
def positions (edges : Array Edge) (tip : Edge → Nat) (n : Nat) : List Nat :=
  (edges.toList.zipIdx.filter fun entry => tip entry.1 = n).map (·.2)

/-- Every node has a row, in which the edges are listed whose tip it is. -/
structure Rows (edges : Array Edge) (tip : Edge → Nat) (rows : Array (Array Nat)) (size : Nat) :
    Prop where
  size : rows.size = size
  listed : ∀ (n : Nat) (row : Array Nat), rows[n]? = some row →
    row.toList = positions edges tip n

section Rows

variable {edges : Array Edge} {tip : Edge → Nat} {rows : Array (Array Nat)} {size n : Nat}

/-- The edges at these positions are the edges whose tip is the node. -/
theorem filterMap_positions (edges : Array Edge) (tip : Edge → Nat) (n : Nat) :
    (positions edges tip n).filterMap (edges[·]?) = edges.toList.filter (tip · = n) := by
  have hget : ∀ entry ∈ edges.toList.zipIdx.filter fun entry => tip entry.1 = n,
      edges[entry.2]? = some entry.1 := by
    intro entry hentry
    have hmem := List.mem_zipIdx_iff_getElem?.mp (List.mem_filter.mp hentry).1
    rwa [Array.getElem?_toList] at hmem
  conv_rhs => rw [← List.zipIdx_map_fst 0 edges.toList, List.filter_map]
  rw [positions, List.filterMap_map]
  exact List.filterMap_eq_map_iff_forall_eq_some.mpr hget

theorem positions_push (edges : Array Edge) (tip : Edge → Nat) (e : Edge) (n : Nat) :
    positions (edges.push e) tip n
      = positions edges tip n ++ if tip e = n then [edges.size] else [] := by
  rw [positions, Array.toList_push, List.zipIdx_append, List.filter_append, List.map_append]
  split <;> simp [positions, *]

theorem positions_eq_nil (h : ∀ e ∈ edges.toList, tip e ≠ n) : positions edges tip n = [] := by
  rw [positions, List.map_eq_nil_iff, List.filter_eq_nil_iff]
  rintro entry hentry htip
  exact h entry.1 (List.fst_mem_of_mem_zipIdx hentry) (of_decide_eq_true htip)

namespace Rows

/-- Without edges all rows are empty. -/
theorem replicate (tip : Edge → Nat) (size : Nat) :
    Rows #[] tip (.replicate size #[]) size where
  size := Array.size_replicate
  listed n row h := by
    rw [Array.getElem?_replicate] at h
    split at h <;> cases h
    rfl

/-- A node that is not yet the tip of an edge gets an empty row. -/
theorem push (h : Rows edges tip rows size) (htip : ∀ e ∈ edges.toList, tip e < size) :
    Rows edges tip (rows.push #[]) (size + 1) where
  size := by rw [Array.size_push, h.size]
  listed n row hrow := by
    rw [Array.getElem?_push] at hrow
    split at hrow
    · next hn =>
      cases hrow
      rw [h.size] at hn
      exact (positions_eq_nil fun e he => by have := htip e he; omega).symm
    · exact h.listed n row hrow

/-- **A new edge is listed last, in the row of its tip only.** -/
theorem list (h : Rows edges tip rows size) (e : Edge) :
    Rows (edges.push e) tip (rows.modify (tip e) (·.push edges.size)) size where
  size := by rw [Array.size_modify, h.size]
  listed n row hrow := by
    rw [Array.getElem?_modify] at hrow
    rw [positions_push]
    split at hrow
    · next hn =>
      obtain ⟨old, hold, rfl⟩ := Option.map_eq_some_iff.mp hrow
      rw [if_pos hn, Array.toList_push, h.listed n old hold]
    · next hn =>
      rw [if_neg hn, h.listed n row hrow, List.append_nil]

end Rows

end Rows

/-! ## All tables -/

namespace Tables

variable {t c : Tables} {name : String} {label : Option String} {e : Edge} {m n : Nat}

/-- The tables of a graph agree. -/
structure InStep (t : Tables) : Prop where
  names : t.names.Sound
  labels : t.labels.size = t.size
  ends : ∀ e ∈ t.edges.toList, e.source < t.size ∧ e.target < t.size
  outgoing : Rows t.edges Edge.source t.outgoing t.size
  incoming : Rows t.edges Edge.target t.incoming t.size

/-! ### Outcomes of operations -/

/-- A name that is declared again leaves everything as it is. -/
theorem addNode_of_some (h : t.names.numbers[name]? = some n) : t.addNode name label = (n, t) := by
  unfold addNode
  rw [NameTable.add_of_some h]
  exact if_neg (Nat.lt_irrefl _)

/-- A new name adds a row to each table of nodes. -/
theorem addNode_of_none (h : t.names.numbers[name]? = none) :
    t.addNode name label = (t.size, { t with
      names := (t.names.add name).2
      labels := t.labels.push label
      outgoing := t.outgoing.push #[]
      incoming := t.incoming.push #[] }) := by
  unfold addNode
  rw [NameTable.add_of_none h]
  exact if_pos (by simp [size, NameTable.size])

theorem size_addNode_of_none (h : t.names.numbers[name]? = none) :
    (t.addNode name label).2.size = t.size + 1 := by
  rw [addNode_of_none h, NameTable.add_of_none h]
  exact Array.size_push ..

/-- An edge between two nodes is added. -/
theorem addEdge_of_lt (h : e.source < t.size ∧ e.target < t.size) :
    t.addEdge e = (.ok (), { t with
      edges := t.edges.push e
      outgoing := t.outgoing.modify e.source (·.push t.edges.size)
      incoming := t.incoming.modify e.target (·.push t.edges.size) }) := by
  unfold addEdge
  exact if_neg (by simp [h.1, h.2])

/-- An edge without an end is refused, and the tables stay as they are. -/
theorem addEdge_of_not_lt (h : ¬(e.source < t.size ∧ e.target < t.size)) :
    t.addEdge e = (.error (.unknownIds e.source e.target t.size), t) := by
  unfold addEdge
  exact if_pos (by simp; omega)

/-! ### What operations keep -/

theorem inStep_empty : InStep empty where
  names := NameTable.sound_empty
  labels := rfl
  ends e he := by cases he
  outgoing := Rows.replicate Edge.source 0
  incoming := Rows.replicate Edge.target 0

namespace InStep

/-- **Declaring a node adds a row to all tables of nodes or to none.** -/
theorem addNode (h : t.InStep) (name : String) (label : Option String) :
    (t.addNode name label).2.InStep := by
  cases hname : t.names.numbers[name]? with
  | some n =>
    rw [addNode_of_some hname]
    exact h
  | none =>
    have hsize : (t.addNode name label).2.size = t.size + 1 := size_addNode_of_none hname
    rw [addNode_of_none hname] at hsize ⊢
    constructor
    case names => exact h.names.add name
    case labels => exact (Array.size_push ..).trans (by rw [h.labels, hsize])
    case ends =>
      intro e he
      obtain ⟨hs, ht⟩ := h.ends e he
      omega
    case outgoing =>
      rw [hsize]
      exact h.outgoing.push fun e he => (h.ends e he).1
    case incoming =>
      rw [hsize]
      exact h.incoming.push fun e he => (h.ends e he).2

/-- **An edge is listed at both ends or is not added.** -/
theorem addEdge (h : t.InStep) (e : Edge) : (t.addEdge e).2.InStep := by
  by_cases hends : e.source < t.size ∧ e.target < t.size
  · rw [addEdge_of_lt hends]
    constructor
    case names => exact h.names
    case labels => exact h.labels
    case ends =>
      intro d hd
      rw [Array.toList_push] at hd
      rcases List.mem_append.mp hd with hd | hd
      · exact h.ends d hd
      · rw [List.mem_singleton.mp hd]
        exact hends
    case outgoing => exact h.outgoing.list e
    case incoming => exact h.incoming.list e
  · rw [addEdge_of_not_lt hends]
    exact h

theorem addNamedEdge (h : t.InStep) (kind : EdgeKind) (source target : String) :
    (t.addNamedEdge kind source target).2.InStep := by
  unfold Tables.addNamedEdge
  split
  · exact h
  · exact h
  · exact h.addEdge _

theorem connect {edges : List Edge} (h : t.InStep) (hc : t.connect edges = .ok c) : c.InStep := by
  induction edges generalizing t with
  | nil =>
    cases hc
    exact h
  | cons e edges ih =>
    rw [Tables.connect] at hc
    split at hc
    · next hadd =>
      have hadded := h.addEdge e
      rw [hadd] at hadded
      exact ih hadded hc
    · cases hc

/-- Declaring nodes one by one keeps the tables in step. -/
theorem foldl_addNode (h : t.InStep) (ns : List Nat) (name : Nat → String)
    (label : Nat → Option String) :
    (ns.foldl (fun c n => (c.addNode (name n) (label n)).2) t).InStep := by
  induction ns generalizing t with
  | nil => exact h
  | cons n ns ih => exact ih (h.addNode (name n) (label n))

/-- Without edges the tables are still in step. -/
theorem bare (h : t.InStep) : t.bare.InStep where
  names := h.names
  labels := h.labels
  ends e he := by cases he
  outgoing := Rows.replicate Edge.source t.size
  incoming := Rows.replicate Edge.target t.size

theorem compactify (hc : t.compactify = .ok c) : c.InStep := by
  cases hedges : t.compactEdges t.compactNodes with
  | error fault =>
    simp only [Tables.compactify, hedges] at hc
    cases hc
  | ok edges =>
    simp only [Tables.compactify, hedges] at hc
    exact (inStep_empty.foldl_addNode t.kept t.spell t.label).connect hc

theorem withSolvedForm {f : SolvedForm} (h : t.InStep) (hc : t.withSolvedForm f = .ok c) :
    c.InStep :=
  h.bare.connect hc

/-- **Every operation keeps the tables in step, whether or not it succeeds.** -/
theorem perform (h : t.InStep) (operation : Graph.Operation) : (t.perform operation).InStep := by
  cases operation with
  | addNode name label => exact h.addNode name label
  | addNamedEdge kind source target => exact h.addNamedEdge kind source target
  | addEdge e => exact h.addEdge e
  | compactify =>
    cases hc : t.compactify with
    | ok c => simpa [Tables.perform, hc, Except.toOption] using compactify hc
    | error fault => simpa [Tables.perform, hc, Except.toOption] using h
  | withSolvedForm f =>
    cases hc : t.withSolvedForm f with
    | ok c => simpa [Tables.perform, hc, Except.toOption] using h.withSolvedForm hc
    | error fault => simpa [Tables.perform, hc, Except.toOption] using h

end InStep

/-- **Whatever is done to them, the tables are in step.** -/
theorem inStep_run (operations : List Graph.Operation) : (run operations).InStep := by
  suffices hrun : ∀ t : Tables, t.InStep → (operations.foldl perform t).InStep from
    hrun empty inStep_empty
  induction operations with
  | nil => exact fun t h => h
  | cons operation operations ih => exact fun t h => ih _ (h.perform operation)

/-! ### What can be read from tables in step -/

/-- The rows lead to the edges of a node, in the order of insertion. -/
theorem edgesAt_eq {rows : Array (Array Nat)} {tip : Edge → Nat}
    (h : Rows t.edges tip rows t.size) (htip : ∀ e ∈ t.edges.toList, tip e < t.size) (n : Nat)
    (kind : Option EdgeKind) :
    t.edgesAt rows n kind
      = t.edges.toList.filter fun e => tip e = n ∧ kind.all (e.kind = ·) := by
  have hrow : (rows[n]?.getD #[]).toList = positions t.edges tip n := by
    cases hget : rows[n]? with
    | some row => exact h.listed n row hget
    | none =>
      have hle := Array.getElem?_eq_none_iff.mp hget
      rw [h.size] at hle
      exact (positions_eq_nil fun e he => Nat.ne_of_lt (Nat.lt_of_lt_of_le (htip e he) hle)).symm
  rw [edgesAt, hrow, filterMap_positions, List.filter_filter]
  refine List.filter_congr fun e _ => ?_
  rw [Bool.decide_and, Bool.decide_eq_true, Bool.and_comm]

/-- A refused edge leaves everything as it is. -/
theorem addEdge_of_error {error : GraphError} (h : (t.addEdge e).1 = .error error) :
    (t.addEdge e).2 = t := by
  by_cases hends : e.source < t.size ∧ e.target < t.size
  · rw [addEdge_of_lt hends] at h
    cases h
  · rw [addEdge_of_not_lt hends]

theorem addNamedEdge_of_error {kind : EdgeKind} {source target : String} {error : GraphError}
    (h : (t.addNamedEdge kind source target).1 = .error error) :
    (t.addNamedEdge kind source target).2 = t := by
  unfold addNamedEdge at h ⊢
  split
  · rfl
  · rfl
  · next hs ht =>
    simp only [hs, ht] at h
    exact addEdge_of_error h

namespace InStep

/-- The numbers of the nodes are their positions. -/
theorem map_fst_nodes (h : t.InStep) : t.names.nodes.toList.map (·.1) = List.range t.size := by
  refine List.ext_getElem (by simp [size, NameTable.size]) fun n hn _ => ?_
  rw [List.getElem_map, List.getElem_range]
  rw [List.length_map] at hn
  exact h.names.numbered n _ (by rw [← Array.getElem?_toList, List.getElem?_eq_getElem hn])

/-- **A name leads to a number exactly if it is the name of that node.** -/
theorem numbers_eq_some (h : t.InStep) :
    t.names.numbers[name]? = some n ↔ n < t.size ∧ t.spell n = name := by
  constructor
  · intro hnumber
    have hnode := (h.names.numbers name n).mp hnumber
    exact ⟨h.names.lt_size hnumber, by simp [spell, hnode]⟩
  · rintro ⟨hn, rfl⟩
    obtain ⟨name, hnode⟩ := h.names.exists_name hn
    rw [h.names.numbers, spell, hnode]
    rfl

/-- Different nodes have different names. -/
theorem eq_of_spell_eq (h : t.InStep) (hm : m < t.size) (hn : n < t.size)
    (heq : t.spell m = t.spell n) : m = n := by
  have hsame := (h.numbers_eq_some.mpr ⟨hm, heq⟩).symm.trans (h.numbers_eq_some.mpr ⟨hn, rfl⟩)
  exact Option.some.inj hsame

theorem outEdges_eq (h : t.InStep) (n : Nat) (kind : Option EdgeKind) : t.outEdges n kind
    = t.edges.toList.filter fun e => e.source = n ∧ kind.all (e.kind = ·) :=
  edgesAt_eq h.outgoing (fun e he => (h.ends e he).1) n kind

theorem inEdges_eq (h : t.InStep) (n : Nat) (kind : Option EdgeKind) : t.inEdges n kind
    = t.edges.toList.filter fun e => e.target = n ∧ kind.all (e.kind = ·) :=
  edgesAt_eq h.incoming (fun e he => (h.ends e he).2) n kind

end InStep

theorem idOf_eq_ok : t.idOf name = .ok n ↔ t.names.numbers[name]? = some n := by
  unfold idOf
  split <;> simp [*]

/--
**Whatever is done to a graph, its tables are in step.**

Operations are done one after another, and some of them are refused or leave the graph as it is.
After each of them the numbers of the nodes are their positions, names and numbers lead to each
other, every table of nodes has one row for each, and no edge has an end that is no node.
The edges at a node are a part of all edges, in the order of insertion.
An edge that is refused and a name that is declared again change nothing.
-/
theorem tables_stay_in_step (operations : List Graph.Operation) :
    ∃ t, run operations = t
      ∧ t.names.nodes.toList.map (·.1) = List.range t.size
      ∧ (∀ n < t.size, t.idOf (t.spell n) = .ok n)
      ∧ (∀ m < t.size, ∀ n < t.size, t.spell m = t.spell n → m = n)
      ∧ t.labels.size = t.size ∧ t.outgoing.size = t.size ∧ t.incoming.size = t.size
      ∧ (∀ e ∈ t.edges.toList, e.source < t.size ∧ e.target < t.size)
      ∧ (∀ n < t.size, ∀ kind, t.outEdges n kind
          = t.edges.toList.filter fun e => e.source = n ∧ kind.all (e.kind = ·))
      ∧ (∀ n < t.size, ∀ kind, t.inEdges n kind
          = t.edges.toList.filter fun e => e.target = n ∧ kind.all (e.kind = ·))
      ∧ (∀ e error, (t.addEdge e).1 = .error error → (t.addEdge e).2 = t)
      ∧ (∀ kind source target error, (t.addNamedEdge kind source target).1 = .error error →
          (t.addNamedEdge kind source target).2 = t)
      ∧ (∀ name n label, t.idOf name = .ok n → t.addNode name label = (n, t)) := by
  have h := inStep_run operations
  refine ⟨_, rfl, h.map_fst_nodes, ?_, fun m hm n hn => h.eq_of_spell_eq hm hn, h.labels,
    h.outgoing.size, h.incoming.size, h.ends, fun n _ => h.outEdges_eq n, fun n _ => h.inEdges_eq n,
    fun e error => addEdge_of_error, fun kind source target error => addNamedEdge_of_error, ?_⟩
  · exact fun n hn => idOf_eq_ok.mpr (h.numbers_eq_some.mpr ⟨hn, rfl⟩)
  · exact fun name n label hid => addNode_of_some (idOf_eq_ok.mp hid)

end Tables

end Dominance
