import Dominance.Graph.Fragment

/-!
# Questions about numbers from outside

A number that comes from outside need not be a node.
The questions of this module fail with a `Fault` where the answer would depend on a node that does
not exist.
-/

namespace Dominance.Graph

/-- An answer about a node, provided that it is one. -/
def onNode {α : Type} (g : Graph) (n : Nat) (answer : α) : Except Fault α :=
  if n < g.size then .ok answer else .error (.unknownNode n)

/-- An answer about a subgraph, provided that all its members are nodes. -/
def onNodes {α : Type} (g : Graph) (s : Subgraph) (answer : α) : Except Fault α :=
  match g.stranger? s with
  | none => .ok answer
  | some id => .error (.unknownNode id)

/-- The root above a node. A graph without nodes takes no step up from any number. -/
def fragmentRootOf (g : Graph) (n : Nat) : Except Fault Nat :=
  if g.size = 0 then .ok n else g.onNode n (g.fragmentRoot n)

/-- The root of a subgraph that has exactly one. A member that is no node is met only if there are
not two roots before it. -/
def soleRootOf (g : Graph) (s : Subgraph) : Except Fault (Option Nat) :=
  if 2 ≤ (g.rootsIn s).length then .ok none else g.onNodes s (g.soleRoot? s)

end Dominance.Graph
