import Dominance.Registry
import Dominance.Text.Quoted

/-!
# Dominance graphs

A dominance graph has named nodes, each with a label or, if it has none, a hole.
Tree edges hold a fragment together; dominance edges say that one node is above another in every
solution.
Edges are kept in the order of insertion, and every node also lists the edges that leave it and
those that enter it, in the same order.

Nodes are only ever added.
An edge is refused if one of its ends is not a node; a graph that refuses stays as it is.
So the ends of every edge are nodes, and the lists at the nodes agree with the list of all edges; a
graph carries the proof of both.

* `outgoing_eq`, `incoming_eq`: the edges at a node, as a part of all edges
* `mem_parents`, `mem_children`: tree and dominance neighbours by the edge between them
-/

namespace Dominance

/-! ## Edges -/

/-- The two kinds of edges. -/
inductive EdgeKind where
  | tree
  | dominance
deriving DecidableEq, Repr

/-- The word for a kind of edge in clauses and messages. -/
def EdgeKind.keyword : EdgeKind → String
  | .tree => "tree"
  | .dominance => "dom"

/-- A directed edge between two nodes. -/
structure Edge where
  kind : EdgeKind
  source : Nat
  target : Nat
deriving DecidableEq, Repr

/-- The end of an edge that is not `n`; a loop at `n` leads back to `n`. -/
def Edge.otherEnd (e : Edge) (n : Nat) : Nat := if e.source = n then e.target else e.source

/-! ## Errors -/

/-- Why a graph refuses a request. -/
inductive GraphError where
  /-- No node has this name. -/
  | unknownName (name : String)
  /-- An end of an edge is not the name of a node. -/
  | unknownEnd (kind : EdgeKind) (source target : String) (missing : String)
  /-- An end of an edge is not the identifier of a node. -/
  | unknownIds (source target size : Nat)
deriving DecidableEq, Repr

/-- The message of an error, the outermost context first. -/
def GraphError.chain : GraphError → List String
  | .unknownName name => ["no such node: " ++ name]
  | .unknownEnd kind source target missing =>
    ["cannot add a " ++ kind.keyword ++ " edge from " ++ Text.quoted source ++ " to "
      ++ Text.quoted target, "no such node: " ++ missing]
  | .unknownIds source target size =>
    ["cannot add an edge from identifiers " ++ source.repr ++ " to " ++ target.repr
      ++ "; the graph has " ++ size.repr ++ " node(s)"]

/-- The message of an error on one line. -/
def GraphError.message (e : GraphError) : String := String.intercalate ": " e.chain

/-- A request that breaks a rule its caller promised to keep. -/
inductive Fault where
  /-- The identifier belongs to no node. -/
  | unknownNode (id : Nat)
  /-- The node has no root above it that could stand for it. -/
  | rootless (id : Nat)
deriving DecidableEq, Repr

/-! ## Graphs -/

/-- What a graph knows about a node besides its name. -/
structure Node where
  /-- The label; a hole has none. -/
  label : Option String
  outgoing : List Edge := []
  incoming : List Edge := []

/-- Every edge joins two nodes, and every node lists the edges that leave and enter it. -/
structure Coherent (nodes : Registry Node) (edges : List Edge) : Prop where
  ends : ∀ e ∈ edges, e.source < nodes.size ∧ e.target < nodes.size
  outgoing : ∀ n v, nodes.value? n = some v → v.outgoing = edges.filter (·.source = n)
  incoming : ∀ n v, nodes.value? n = some v → v.incoming = edges.filter (·.target = n)

/-- A dominance graph. -/
structure Graph where
  nodes : Registry Node
  /-- All edges in the order of insertion. -/
  edges : List Edge
  coherent : Coherent nodes edges

namespace Graph

/-- Nodes without any edge at them. -/
theorem coherent_nil {nodes : Registry Node}
    (h : ∀ n v, nodes.value? n = some v → v.outgoing = [] ∧ v.incoming = []) :
    Coherent nodes [] where
  ends := by simp
  outgoing n v hv := (h n v hv).1
  incoming n v hv := (h n v hv).2

/-- The graph without nodes. -/
def empty : Graph where
  nodes := .empty
  edges := []
  coherent := coherent_nil (by simp [Registry.value?, Registry.empty])

instance : Inhabited Graph := ⟨empty⟩

/-- The number of nodes; their identifiers are the numbers below it. -/
def size (g : Graph) : Nat := g.nodes.size

/-- A new node has no edges, and no edge ends at its identifier. -/
theorem coherent_register (g : Graph) (name : String) (label : Option String) :
    Coherent (g.nodes.register name { label }).2 g.edges where
  ends e he := by
    have hle := g.nodes.size_le_size_register name { label }
    have := g.coherent.ends e he
    omega
  outgoing n v hv := by
    rcases Registry.value?_register hv with h | ⟨rfl, rfl⟩
    · exact g.coherent.outgoing n v h
    · refine (List.filter_eq_nil_iff.mpr fun e he => ?_).symm
      have := g.coherent.ends e he
      simp only [decide_eq_true_eq]
      omega
  incoming n v hv := by
    rcases Registry.value?_register hv with h | ⟨rfl, rfl⟩
    · exact g.coherent.incoming n v h
    · refine (List.filter_eq_nil_iff.mpr fun e he => ?_).symm
      have := g.coherent.ends e he
      simp only [decide_eq_true_eq]
      omega

/-- Declares a node; if the name is taken, the node that has it is left as it is. -/
def addNode (g : Graph) (name : String) (label : Option String) : Nat × Graph :=
  ((g.nodes.register name { label }).1,
    { nodes := (g.nodes.register name { label }).2
      edges := g.edges
      coherent := g.coherent_register name label })

/-- The nodes with an edge listed at its two ends. -/
def listAtEnds (nodes : Registry Node) (e : Edge) : Registry Node :=
  (nodes.modify e.source fun v => { v with outgoing := v.outgoing ++ [e] }).modify
    e.target fun v => { v with incoming := v.incoming ++ [e] }

theorem value?_listAtEnds {nodes : Registry Node} {e : Edge} {n : Nat} {v : Node}
    (h : (listAtEnds nodes e).value? n = some v) :
    ∃ u, nodes.value? n = some u
      ∧ v.outgoing = u.outgoing ++ (if e.source = n then [e] else [])
      ∧ v.incoming = u.incoming ++ (if e.target = n then [e] else []) := by
  simp only [listAtEnds, Registry.value?_modify] at h
  cases hu : nodes.value? n with
  | none => rw [hu] at h; split at h <;> split at h <;> cases h
  | some u =>
    refine ⟨u, rfl, ?_⟩
    rw [hu] at h
    split at h <;> split at h <;> cases h <;> simp [*]

theorem coherent_listAtEnds (g : Graph) {e : Edge} (h : e.source < g.size ∧ e.target < g.size) :
    Coherent (listAtEnds g.nodes e) (g.edges ++ [e]) where
  ends d hd := by
    have hsize : (listAtEnds g.nodes e).size = g.size := by simp [listAtEnds, size]
    rw [hsize]
    rcases List.mem_append.mp hd with hd | hd
    · exact g.coherent.ends d hd
    · rw [List.mem_singleton.mp hd]; exact h
  outgoing n v hv := by
    obtain ⟨u, hu, hout, -⟩ := value?_listAtEnds hv
    rw [hout, g.coherent.outgoing n u hu, List.filter_append]
    split <;> simp [*]
  incoming n v hv := by
    obtain ⟨u, hu, -, hin⟩ := value?_listAtEnds hv
    rw [hin, g.coherent.incoming n u hu, List.filter_append]
    split <;> simp [*]

/-- Records an edge between two nodes at the end of the edge list and at its two ends. -/
def record (g : Graph) (e : Edge) (h : e.source < g.size ∧ e.target < g.size) : Graph where
  nodes := listAtEnds g.nodes e
  edges := g.edges ++ [e]
  coherent := g.coherent_listAtEnds h

/-- Adds an edge between two nodes. -/
def addEdge (g : Graph) (e : Edge) : Except GraphError Graph :=
  if h : e.source < g.size ∧ e.target < g.size then .ok (g.record e h)
  else .error (.unknownIds e.source e.target g.size)

/-- The identifier of a name. -/
def idOf (g : Graph) (name : String) : Except GraphError Nat :=
  match g.nodes.idOf? name with
  | some id => .ok id
  | none => .error (.unknownName name)

/-- Adds an edge between two names; the source is looked up first. -/
def addNamedEdge (g : Graph) (kind : EdgeKind) (source target : String) :
    Except GraphError Graph :=
  match g.nodes.idOf? source, g.nodes.idOf? target with
  | none, _ => .error (.unknownEnd kind source target source)
  | some _, none => .error (.unknownEnd kind source target target)
  | some s, some t => g.addEdge { kind, source := s, target := t }

@[simp]
theorem size_record (g : Graph) (e : Edge) (h : e.source < g.size ∧ e.target < g.size) :
    (g.record e h).size = g.size := by
  simp [size, record, listAtEnds]

/-! ## Nodes and their edges

On a number that is no node, a list of edges is empty and a test fails.
-/

/-- The label of a node; a hole has none. -/
def label (g : Graph) (n : Nat) : Option String := (g.nodes.value? n).bind (·.label)

/-- Whether a node is a hole. -/
def isHole (g : Graph) (n : Nat) : Bool := (g.nodes.value? n).any (·.label.isNone)

/-- The edges that leave a node. -/
def outgoing (g : Graph) (n : Nat) : List Edge := ((g.nodes.value? n).map (·.outgoing)).getD []

/-- The edges that enter a node. -/
def incoming (g : Graph) (n : Nat) : List Edge := ((g.nodes.value? n).map (·.incoming)).getD []

/-- The lists at the nodes hold all edges; at a number that is no node there are none. -/
theorem outgoing_eq (g : Graph) (n : Nat) : g.outgoing n = g.edges.filter (·.source = n) := by
  unfold outgoing
  cases hv : g.nodes.value? n with
  | some v => exact g.coherent.outgoing n v hv
  | none =>
    refine (List.filter_eq_nil_iff.mpr fun e he hn => ?_).symm
    have hlt := Registry.value?_isSome.mpr (g.coherent.ends e he).1
    rw [of_decide_eq_true hn, hv] at hlt
    cases hlt

theorem incoming_eq (g : Graph) (n : Nat) : g.incoming n = g.edges.filter (·.target = n) := by
  unfold incoming
  cases hv : g.nodes.value? n with
  | some v => exact g.coherent.incoming n v hv
  | none =>
    refine (List.filter_eq_nil_iff.mpr fun e he hn => ?_).symm
    have hlt := Registry.value?_isSome.mpr (g.coherent.ends e he).2
    rw [of_decide_eq_true hn, hv] at hlt
    cases hlt

@[simp]
theorem mem_outgoing {g : Graph} {n : Nat} {e : Edge} :
    e ∈ g.outgoing n ↔ e ∈ g.edges ∧ e.source = n := by
  simp [outgoing_eq]

@[simp]
theorem mem_incoming {g : Graph} {n : Nat} {e : Edge} :
    e ∈ g.incoming n ↔ e ∈ g.edges ∧ e.target = n := by
  simp [incoming_eq]

/-- The edges at a node, those that leave it first; a loop counts twice. -/
def incident (g : Graph) (n : Nat) : List Edge := g.outgoing n ++ g.incoming n

/-- The edges of one kind that leave a node. -/
def outgoingBy (g : Graph) (kind : EdgeKind) (n : Nat) : List Edge :=
  (g.outgoing n).filter (·.kind = kind)

/-- The edges of one kind that enter a node. -/
def incomingBy (g : Graph) (kind : EdgeKind) (n : Nat) : List Edge :=
  (g.incoming n).filter (·.kind = kind)

/-- The targets of the edges of one kind that leave a node. -/
def children (g : Graph) (kind : EdgeKind) (n : Nat) : List Nat :=
  (g.outgoingBy kind n).map (·.target)

/-- The sources of the edges of one kind that enter a node. -/
def parents (g : Graph) (kind : EdgeKind) (n : Nat) : List Nat :=
  (g.incomingBy kind n).map (·.source)

theorem mem_children {g : Graph} {kind : EdgeKind} {m n : Nat} :
    m ∈ g.children kind n ↔ ⟨kind, n, m⟩ ∈ g.edges := by
  simp only [children, outgoingBy, List.mem_map, List.mem_filter, mem_outgoing, decide_eq_true_eq]
  constructor
  · rintro ⟨e, ⟨⟨he, rfl⟩, rfl⟩, rfl⟩
    exact he
  · intro he
    exact ⟨_, ⟨⟨he, rfl⟩, rfl⟩, rfl⟩

theorem mem_parents {g : Graph} {kind : EdgeKind} {m n : Nat} :
    m ∈ g.parents kind n ↔ ⟨kind, m, n⟩ ∈ g.edges := by
  simp only [parents, incomingBy, List.mem_map, List.mem_filter, mem_incoming, decide_eq_true_eq]
  constructor
  · rintro ⟨e, ⟨⟨he, rfl⟩, rfl⟩, rfl⟩
    exact he
  · intro he
    exact ⟨_, ⟨⟨he, rfl⟩, rfl⟩, rfl⟩

/-- Whether a node has no tree edge above it. -/
def isRoot (g : Graph) (n : Nat) : Bool := n < g.size && (g.parents .tree n).isEmpty

/-- Whether a node has no tree edge below it. -/
def isLeaf (g : Graph) (n : Nat) : Bool := n < g.size && (g.children .tree n).isEmpty

/-- The roots, in ascending order. -/
def roots (g : Graph) : List Nat := (List.range g.size).filter g.isRoot

theorem mem_roots {g : Graph} {n : Nat} : n ∈ g.roots ↔ g.isRoot n = true := by
  simp only [roots, List.mem_filter, List.mem_range, and_iff_right_iff_imp]
  intro h
  simp only [isRoot, Bool.and_eq_true, decide_eq_true_eq] at h
  exact h.1

/-- The tree edges, in the order of insertion. -/
def treeEdges (g : Graph) : List Edge := g.edges.filter (·.kind = .tree)

/-- The dominance edges, in the order of insertion. -/
def dominanceEdges (g : Graph) : List Edge := g.edges.filter (·.kind = .dominance)

end Graph

end Dominance
