import Dominance.Graph.Fragment
import Dominance.SolvedForm

/-!
# Derived graphs

The compact version of a graph keeps its roots and holes only: each hole hangs directly below the
root of its fragment, and an edge at a dropped node moves to that root.
A dominance edge that would become a loop disappears.

A solved form turns a graph into the graph that has the links of the solved form as its only
dominance edges.
-/

namespace Dominance.Graph

/-- Adds edges in the given order; an end that is no node is a fault. -/
def connect (g : Graph) : List Edge → Except Fault Graph
  | [] => .ok g
  | e :: edges =>
    if h : e.source < g.size ∧ e.target < g.size then (g.record e h).connect edges
    else .error (.unknownNode (if e.source < g.size then e.target else e.source))

/-! ## Compact graphs -/

/-- Whether a node stays when the graph is made compact. -/
def isKept (g : Graph) (n : Nat) : Bool := g.isRoot n || g.isHole n

/-- The nodes that stay, in ascending order. -/
def kept (g : Graph) : List Nat := (List.range g.size).filter g.isKept

/-- The node that stands for a node in the compact graph. -/
def standIn (g : Graph) (n : Nat) : Nat := if g.isKept n then n else g.fragmentRoot n

/-- The identifier in the compact graph of the node that stands for a node. A fragment without a
root has a cycle of tree edges, and its dropped nodes have no such identifier. -/
def compactId (g : Graph) (n : Nat) : Except Fault Nat :=
  match g.kept.idxOf? (g.standIn n) with
  | some id => .ok id
  | none => .error (.rootless n)

/-- The edge between the nodes that stand for the ends. -/
def compactEdge (g : Graph) (kind : EdgeKind) (source target : Nat) : Except Fault Edge := do
  let source ← g.compactId source
  let target ← g.compactId target
  return { kind, source, target }

/-- The edges of the compact graph. -/
def compactEdges (g : Graph) : Except Fault (List Edge) := do
  let below := g.kept.filter fun n => !g.isRoot n
  let tree ← below.mapM fun n => g.compactEdge .tree (g.fragmentRoot n) n
  let dominance ← g.dominanceEdges.mapM fun e => g.compactEdge .dominance e.source e.target
  return tree ++ dominance.filter fun e => e.source ≠ e.target

/-- The kept nodes with their names and labels. -/
def compactNodes (g : Graph) : Graph :=
  g.kept.foldl (fun c n => (c.addNode ((g.nodes.name? n).getD "") (g.label n)).2) empty

/-- The compact version of the graph. -/
def compactify (g : Graph) : Except Fault Graph := do
  g.compactNodes.connect (← g.compactEdges)

/-! ## Graphs of solved forms -/

/-- The nodes of the graph without any edge. -/
def bare (g : Graph) : Graph where
  nodes := g.nodes.mapValues fun v => { label := v.label }
  edges := []
  coherent := coherent_nil fun n v hv => by
    rw [Registry.value?_mapValues] at hv
    obtain ⟨u, -, rfl⟩ := Option.map_eq_some_iff.mp hv
    exact ⟨rfl, rfl⟩

/-- The dominance edges of a solved form. -/
def linkEdges (f : SolvedForm) : List Edge :=
  f.links.map fun l => { kind := .dominance, source := l.source, target := l.target }

/-- The nodes and tree edges of the graph, with the links of a solved form as dominance edges. -/
def withSolvedForm (g : Graph) (f : SolvedForm) : Except Fault Graph :=
  g.bare.connect (g.treeEdges ++ linkEdges f)

end Dominance.Graph
