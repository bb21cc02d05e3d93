import Dominance.Graph.Compact
import Std.Data.HashMap

/-!
# Graphs in tables

A graph can be kept in tables that are indexed by the numbers of the nodes, with a map from names to
numbers.
Edges are kept in one table of their own, and the tables of the nodes list positions in it.

Each table is updated by itself, so that it takes every operation on the graph to keep them in step.
A name that is declared again must not add a row to any of them.
An edge that is refused must not be listed anywhere; the tables after the refusal are part of the
answer.
-/

namespace Dominance

/-! ## Names -/

/-- The nodes by number, and their numbers by name. -/
structure NameTable where
  /-- Every node with its number and its name. -/
  nodes : Array (Nat × String)
  numbers : Std.HashMap String Nat

namespace NameTable

/-- The table without nodes. -/
def empty : NameTable where
  nodes := #[]
  numbers := ∅

/-- The number of nodes. -/
def size (t : NameTable) : Nat := t.nodes.size

/-- Enters a name unless it is known; the result is its number and the table. -/
def add (t : NameTable) (name : String) : Nat × NameTable :=
  match t.numbers[name]? with
  | some n => (n, t)
  | none =>
    (t.size, { nodes := t.nodes.push (t.size, name), numbers := t.numbers.insert name t.size })

end NameTable

/-! ## Tables -/

/-- A graph in tables. -/
structure Tables where
  names : NameTable
  labels : Array (Option String)
  /-- All edges in the order of insertion. -/
  edges : Array Edge
  /-- For every node the positions of the edges that leave it. -/
  outgoing : Array (Array Nat)
  /-- For every node the positions of the edges that enter it. -/
  incoming : Array (Array Nat)

namespace Tables

/-- The tables without nodes. -/
def empty : Tables where
  names := .empty
  labels := #[]
  edges := #[]
  outgoing := #[]
  incoming := #[]

/-- The number of nodes. -/
def size (t : Tables) : Nat := t.names.size

/-- The name of a node; a number that is no node has none. -/
def spell (t : Tables) (n : Nat) : String := (t.names.nodes[n]?.map (·.2)).getD ""

/-- The number of a name. -/
def idOf (t : Tables) (name : String) : Except GraphError Nat :=
  match t.names.numbers[name]? with
  | some n => .ok n
  | none => .error (.unknownName name)

/-- The label of a node; a hole has none. -/
def label (t : Tables) (n : Nat) : Option String := t.labels[n]?.join

/-- Whether a node is a hole. -/
def isHole (t : Tables) (n : Nat) : Bool := t.labels[n]?.any (·.isNone)

/-- The edges, of one kind or of both, that a table lists at a node. -/
def edgesAt (t : Tables) (rows : Array (Array Nat)) (n : Nat) (kind : Option EdgeKind) :
    List Edge :=
  ((rows[n]?.getD #[]).toList.filterMap (t.edges[·]?)).filter fun e => kind.all (e.kind = ·)

/-- The edges, of one kind or of both, that leave a node. -/
def outEdges (t : Tables) (n : Nat) (kind : Option EdgeKind) : List Edge :=
  t.edgesAt t.outgoing n kind

/-- The edges, of one kind or of both, that enter a node. -/
def inEdges (t : Tables) (n : Nat) (kind : Option EdgeKind) : List Edge :=
  t.edgesAt t.incoming n kind

/-- The sources of the edges of one kind that enter a node. -/
def parents (t : Tables) (kind : EdgeKind) (n : Nat) : List Nat :=
  (t.inEdges n (some kind)).map (·.source)

/-- Whether a node has no tree edge above it. -/
def isRoot (t : Tables) (n : Nat) : Bool := n < t.size && (t.inEdges n (some .tree)).isEmpty

/-! ## Nodes and edges -/

/-- Declares a node. The tables other than that of the names grow if that has grown. -/
def addNode (t : Tables) (name : String) (label : Option String) : Nat × Tables :=
  let (n, names) := t.names.add name
  if t.size < names.size then
    (n, { t with
      names
      labels := t.labels.push label
      outgoing := t.outgoing.push #[]
      incoming := t.incoming.push #[] })
  else (n, { t with names })

/-- Adds an edge between two nodes; the result is the answer and the tables after it. -/
def addEdge (t : Tables) (e : Edge) : Except GraphError Unit × Tables :=
  if t.size ≤ e.source || t.size ≤ e.target then
    (.error (.unknownIds e.source e.target t.size), t)
  else
    (.ok (), { t with
      edges := t.edges.push e
      outgoing := t.outgoing.modify e.source (·.push t.edges.size)
      incoming := t.incoming.modify e.target (·.push t.edges.size) })

/-- Adds an edge between two names; the source is looked up first. -/
def addNamedEdge (t : Tables) (kind : EdgeKind) (source target : String) :
    Except GraphError Unit × Tables :=
  match t.names.numbers[source]?, t.names.numbers[target]? with
  | none, _ => (.error (.unknownEnd kind source target source), t)
  | some _, none => (.error (.unknownEnd kind source target target), t)
  | some m, some n => t.addEdge { kind, source := m, target := n }

/-- Adds edges in the given order; an end that is no node is a fault. -/
def connect (t : Tables) : List Edge → Except Fault Tables
  | [] => .ok t
  | e :: edges =>
    match t.addEdge e with
    | (.ok (), t) => t.connect edges
    | (.error _, _) => .error (.unknownNode (if e.source < t.size then e.target else e.source))

/-! ## Derived graphs -/

/-- Climbs at most `steps` tree edges, at each node the one that was inserted first. -/
def climb (t : Tables) : (steps : Nat) → Nat → Nat
  | 0, n => n
  | steps + 1, n =>
    match t.parents .tree n with
    | [] => n
    | parent :: _ => t.climb steps parent

/-- The root above a node. -/
def fragmentRoot (t : Tables) (n : Nat) : Nat := t.climb t.size n

/-- Whether a node stays when the graph is made compact. -/
def isKept (t : Tables) (n : Nat) : Bool := t.isRoot n || t.isHole n

/-- The nodes that stay, in ascending order. -/
def kept (t : Tables) : List Nat := (List.range t.size).filter t.isKept

/-- The kept nodes with their names and labels. -/
def compactNodes (t : Tables) : Tables :=
  t.kept.foldl (fun c n => (c.addNode (t.spell n) (t.label n)).2) empty

/-- The number that the name of the node that stands for a node has in other tables. -/
def compactId (t c : Tables) (n : Nat) : Except Fault Nat :=
  match c.names.numbers[t.spell (if t.isKept n then n else t.fragmentRoot n)]? with
  | some id => .ok id
  | none => .error (.rootless n)

/-- The edge between the nodes of other tables that stand for the ends. -/
def compactEdge (t c : Tables) (kind : EdgeKind) (source target : Nat) : Except Fault Edge := do
  let source ← t.compactId c source
  let target ← t.compactId c target
  return { kind, source, target }

/-- The edges between the nodes of other tables. -/
def compactEdges (t c : Tables) : Except Fault (List Edge) := do
  let below := t.kept.filter fun n => !t.isRoot n
  let tree ← below.mapM fun n => t.compactEdge c .tree (t.fragmentRoot n) n
  let dominance ← (t.edges.toList.filter (·.kind = .dominance)).mapM fun e =>
    t.compactEdge c .dominance e.source e.target
  return tree ++ dominance.filter fun e => e.source ≠ e.target

/-- The compact version of the graph. -/
def compactify (t : Tables) : Except Fault Tables := do
  let c := t.compactNodes
  c.connect (← t.compactEdges c)

/-- The nodes of the graph without any edge. -/
def bare (t : Tables) : Tables :=
  { t with
    edges := #[]
    outgoing := .replicate t.size #[]
    incoming := .replicate t.size #[] }

/-- The nodes and tree edges of the graph, with the links of a solved form as dominance edges. -/
def withSolvedForm (t : Tables) (f : SolvedForm) : Except Fault Tables :=
  t.bare.connect (t.edges.toList.filter (·.kind = .tree) ++ Graph.linkEdges f)

/-- The names of the nodes with their labels, by number. -/
def declarations (t : Tables) : List (String × Option String) :=
  (t.names.nodes.toList.map (·.2)).zip t.labels.toList

/-- The graph that is kept in the tables. -/
def graph (t : Tables) : Graph :=
  let nodes := t.declarations.foldl (fun g d => (g.addNode d.1 d.2).2) Graph.empty
  (nodes.connect t.edges.toList).toOption.getD nodes

end Tables

/-! ## Operations in any order -/

namespace Graph

/-- What can be asked of a graph that changes it. -/
inductive Operation where
  | addNode (name : String) (label : Option String)
  | addNamedEdge (kind : EdgeKind) (source target : String)
  | addEdge (e : Edge)
  | compactify
  | withSolvedForm (f : SolvedForm)

/-- The graph after an operation; a graph that refuses stays as it is. -/
def perform (g : Graph) : Operation → Graph
  | .addNode name label => (g.addNode name label).2
  | .addNamedEdge kind source target => (g.addNamedEdge kind source target).toOption.getD g
  | .addEdge e => (g.addEdge e).toOption.getD g
  | .compactify => g.compactify.toOption.getD g
  | .withSolvedForm f => (g.withSolvedForm f).toOption.getD g

/-- The graph that operations make of the one without nodes. -/
def run (operations : List Operation) : Graph := operations.foldl perform empty

end Graph

namespace Tables

/-- The tables after an operation. If there is no derived graph, they stay as they are. -/
def perform (t : Tables) : Graph.Operation → Tables
  | .addNode name label => (t.addNode name label).2
  | .addNamedEdge kind source target => (t.addNamedEdge kind source target).2
  | .addEdge e => (t.addEdge e).2
  | .compactify => t.compactify.toOption.getD t
  | .withSolvedForm f => (t.withSolvedForm f).toOption.getD t

/-- The tables that operations make of those without nodes. -/
def run (operations : List Graph.Operation) : Tables := operations.foldl perform empty

end Tables

end Dominance
