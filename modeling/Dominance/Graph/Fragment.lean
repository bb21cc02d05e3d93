import Dominance.Graph.Basic
import Dominance.Graph.Spread

/-!
# Fragments, components and reachability

The fragment of a node is the set of nodes joined to it by tree edges, whatever their direction.
A weakly connected component of a subgraph is a set of its nodes joined by edges of either kind
that stay within the subgraph.
-/

namespace Dominance.Graph

/-- The set of all nodes. -/
def allNodes (g : Graph) : Subgraph := Subgraph.range g.size

/-- The other ends of the edges at a node. -/
def neighbours (g : Graph) (n : Nat) : List Nat := (g.incident n).map (·.otherEnd n)

/-- The other ends of the tree edges at a node. -/
def treeNeighbours (g : Graph) (n : Nat) : List Nat :=
  ((g.incident n).filter (·.kind = .tree)).map (·.otherEnd n)

/-- The targets of the edges that leave a node. -/
def successors (g : Graph) (n : Nat) : List Nat := (g.outgoing n).map (·.target)

/-- All nodes but one. -/
def othersThan (g : Graph) (n : Nat) : List Nat := (List.range g.size).filter (· ≠ n)

/-! ## Reachability -/

/-- The nodes reached from a node along edges of either kind, itself included. -/
def reachable (g : Graph) (n : Nat) : Subgraph :=
  Subgraph.ofList (reachFrom g.successors n (g.othersThan n)).reached

/-- Whether a directed path leads from one node to another; the empty path counts. -/
def reaches (g : Graph) (m n : Nat) : Bool := (g.reachable m).contains n

/-! ## Fragments -/

/-- The fragment of a node. -/
def fragment (g : Graph) (n : Nat) : Subgraph :=
  Subgraph.ofList (reachFrom g.treeNeighbours n (g.othersThan n)).reached

/-- The holes in the fragment of a node, in ascending order. -/
def fragmentHoles (g : Graph) (n : Nat) : List Nat := (g.fragment n).ids.filter g.isHole

/-- All fragments, in the order of their smallest nodes. -/
def fragments (g : Graph) : List Subgraph := components g.treeNeighbours (List.range g.size)

/-- Climbs at most `steps` tree edges, at each node the one that was inserted first. -/
def climb (g : Graph) : (steps : Nat) → Nat → Nat
  | 0, n => n
  | steps + 1, n =>
    match g.parents .tree n with
    | [] => n
    | parent :: _ => g.climb steps parent

/-- The root above a node. On a cycle of tree edges the climb stops after as many steps as the
graph has nodes. -/
def fragmentRoot (g : Graph) (n : Nat) : Nat := g.climb g.size n

/-! ## Components -/

/-- The weakly connected components of a subgraph, in the order of their smallest nodes. -/
def componentsOf (g : Graph) (s : Subgraph) : List Subgraph := components g.neighbours s.ids

/-- The weakly connected components of the graph. -/
def wholeComponents (g : Graph) : List Subgraph := g.componentsOf g.allNodes

/-! ## Roots within a subgraph -/

/-- The number of edges that enter a node from a subgraph. -/
def indegreeIn (g : Graph) (s : Subgraph) (n : Nat) : Nat :=
  ((g.incoming n).filter fun e => s.contains e.source).length

/-- The roots in a subgraph, in ascending order. -/
def rootsIn (g : Graph) (s : Subgraph) : List Nat := s.ids.filter g.isRoot

/-- The root of a subgraph that has exactly one. -/
def soleRoot? (g : Graph) (s : Subgraph) : Option Nat :=
  match g.rootsIn s with
  | [r] => some r
  | _ => none

/-- The first member of a subgraph that is no node of the graph. -/
def stranger? (g : Graph) (s : Subgraph) : Option Nat := s.ids.find? (g.size ≤ ·)

end Dominance.Graph
