import Dominance.Graph.Checked
import Dominance.SolvedForm
import Dominance.Split.Basic

/-!
# Free fragments

A fragment is free in a subgraph if it can be put on top of it: when the fragment is taken away,
each component of what is left hangs together with exactly one node of the fragment, and an edge
leads down to it from there.

The search goes through the doors of the fragment, that is, through the edges that lead from a
node of the fragment, the dominator, to an entry outside.
The first door into untouched ground claims all that can be reached from its entry as its region.
The search fails if a region also touches another node of the fragment, or if some node is claimed
by no door.

## Termination

The search is a recursion on the list of doors.
-/

namespace Dominance

/-- What one door claims: the dominator and the entry of the door, and the nodes behind it. -/
structure Region where
  door : Link
  nodes : List Nat
deriving DecidableEq, Repr

namespace Graph

/-- The part of a fragment that lies in a subgraph. -/
def topOf (g : Graph) (root : Nat) (s : Subgraph) : Subgraph := (g.fragment root).filter s.contains

/-- The edges out of the nodes of the top fragment, node by node in ascending order. -/
def doors (g : Graph) (top : Subgraph) : List Link :=
  top.ids.flatMap fun d => (g.successors d).map fun e => ⟨d, e⟩

/-- Whether no edge joins the nodes to the top fragment elsewhere than at the dominator. -/
def hangsFrom (g : Graph) (top : Subgraph) (dominator : Nat) (nodes : List Nat) : Bool :=
  nodes.all fun n => (g.neighbours n).all fun m => !top.contains m || m = dominator

/-- Lets the doors claim the supply one by one; all of it has to be claimed. -/
def claimRegions (g : Graph) (top : Subgraph) :
    (doors : List Link) → (supply : List Nat) → Option (List Region)
  | [], [] => some []
  | [], _ :: _ => none
  | door :: doors, supply =>
    if door.target ∈ supply then
      let reach := reachFrom g.neighbours door.target (supply.filter (· ≠ door.target))
      if g.hangsFrom top door.source reach.reached then
        (g.claimRegions top doors reach.rest).map (⟨door, reach.reached⟩ :: ·)
      else
        none
    else
      g.claimRegions top doors supply

/-- The split with the given regions below its top fragment, ordered by dominator and entry. -/
def splitOfRegions (root : Nat) (regions : List Region) : Split :=
  (sortBy (fun a b => a.door.le b.door) regions).foldl
    (fun split region => split.attach region.door.source (Subgraph.ofList region.nodes))
    (Split.bare root)

/-- The split that puts the fragment of `root` on top of a subgraph, if it is free there. -/
def freeSplit? (g : Graph) (root : Nat) (s : Subgraph) : Option Split :=
  let top := g.topOf root s
  let supply := (s.filter fun n => !top.contains n).ids
  (g.claimRegions top (g.doors top) supply).map (splitOfRegions root)

/-- The same question about numbers from outside. A member of the subgraph that is no node is met
only if the fragment is free in the rest. -/
def freeSplitOf (g : Graph) (root : Nat) (s : Subgraph) : Except Fault (Option Split) :=
  if root < g.size then
    match g.freeSplit? root (s.filter (· < g.size)) with
    | none => .ok none
    | some split => g.onNodes s (some split)
  else
    .error (.unknownNode root)

end Graph

end Dominance
