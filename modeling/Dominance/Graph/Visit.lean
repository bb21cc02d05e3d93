import Dominance.Graph.Checked

/-!
# Visiting node after node

A graph can also be searched by visits to one node after the other.
A node is noted as met when it becomes pending.
In each turn the node that became pending last is visited: those next to it that were not met before
are met then, and become pending.
A search with a goal breaks off when it is the turn of the goal.

## Termination

Each turn uses up one pending node, and a node becomes pending only once, when it is met.
So the number of pending nodes and of nodes that were not met goes down in each turn.
-/

namespace Dominance

/-- Which nodes are next to a node, among the numbers below a bound. -/
structure Ways (size : Nat) where
  next : Nat → List Nat
  bounded : ∀ {m n}, n ∈ next m → n < size

/-- The state of a search by visits. -/
structure Visit where
  /-- The nodes that the search has come to. -/
  met : Subgraph
  /-- Those of them that were not visited yet. -/
  pending : List Nat

namespace Visit

variable {size : Nat}

/-- The state before the first visit. -/
def start (n : Nat) : Visit where
  met := .ofList [n]
  pending := [n]

/-- Comes to a node. -/
def meet (x : Visit) (n : Nat) : Visit :=
  if x.met.contains n then x else { met := x.met.insert n, pending := n :: x.pending }

/-- The state after one more visit. There is none if nothing is pending, or if it is the turn of the
goal. -/
def turn? (ways : Ways size) (goal : Option Nat) (x : Visit) : Option Visit :=
  match x.pending with
  | [] => none
  | n :: pending =>
    if goal = some n then none else some ((ways.next n).foldl meet { x with pending })

/-- The nodes that were not met. -/
def unmet (size : Nat) (x : Visit) : List Nat :=
  (List.range size).filter fun n => !x.met.contains n

/-- The number of pending nodes and of nodes that were not met. -/
def load (size : Nat) (x : Visit) : Nat := x.pending.length + (x.unmet size).length

/-- A node that is met becomes pending, and leaves those that were not met. -/
theorem load_meet_le {n : Nat} (hn : n < size) (x : Visit) :
    (x.meet n).load size ≤ x.load size := by
  unfold meet
  split
  · exact Nat.le_refl _
  · next hmet =>
    have hunmet : n ∈ x.unmet size :=
      List.mem_filter.mpr ⟨List.mem_range.mpr hn, by rw [Bool.eq_false_iff.mpr hmet]; rfl⟩
    have hrest : unmet size ⟨x.met.insert n, n :: x.pending⟩ = (x.unmet size).filter (· ≠ n) := by
      unfold unmet
      rw [List.filter_filter]
      exact List.filter_congr fun m _ => by simp [Subgraph.contains]
    have hlt : ((x.unmet size).filter (· ≠ n)).length < (x.unmet size).length :=
      List.length_filter_lt_length_iff_exists.mpr ⟨n, hunmet, by simp⟩
    unfold load
    rw [hrest, List.length_cons]
    omega

theorem load_foldl_meet_le {ns : List Nat} (hns : ∀ n ∈ ns, n < size) (x : Visit) :
    (ns.foldl meet x).load size ≤ x.load size := by
  induction ns generalizing x with
  | nil => exact Nat.le_refl _
  | cons n ns ih =>
    refine Nat.le_trans (ih (fun m hm => hns m (List.mem_cons_of_mem _ hm)) _) ?_
    exact load_meet_le (hns n List.mem_cons_self) x

theorem load_lt_of_turn? {ways : Ways size} {goal : Option Nat} {x y : Visit}
    (h : x.turn? ways goal = some y) : y.load size < x.load size := by
  unfold turn? at h
  split at h
  · cases h
  · next n pending hpending =>
    split at h
    · cases h
    · cases h
      refine Nat.lt_of_le_of_lt (load_foldl_meet_le (fun _ => ways.bounded (m := n)) _) ?_
      show pending.length + (x.unmet size).length < x.load size
      unfold load
      rw [hpending, List.length_cons]
      omega

/-- Visits one node after the other until the search is over. -/
def run (ways : Ways size) (goal : Option Nat) (x : Visit) : Visit :=
  match _hturn : x.turn? ways goal with
  | none => x
  | some y => y.run ways goal
termination_by x.load size
decreasing_by exact load_lt_of_turn? _hturn

/-- Whether a search that is over has broken off at its goal. -/
def found (x : Visit) : Bool := !x.pending.isEmpty

end Visit

namespace Graph

/-- The ways along edges of either kind, in their direction. -/
def ways (g : Graph) : Ways g.size where
  next := g.successors
  bounded hn := by
    obtain ⟨e, he, rfl⟩ := List.mem_map.mp hn
    exact (g.coherent.ends e (mem_outgoing.mp he).1).2

/-- The ways along tree edges, in either direction. -/
def treeWays (g : Graph) : Ways g.size where
  next := g.treeNeighbours
  bounded {m _} hn := by
    obtain ⟨e, he, rfl⟩ := List.mem_map.mp hn
    have hmem : e ∈ g.edges := by
      rcases List.mem_append.mp (List.mem_filter.mp he).1 with hout | hin
      · exact (mem_outgoing.mp hout).1
      · exact (mem_incoming.mp hin).1
    obtain ⟨hsource, htarget⟩ := g.coherent.ends e hmem
    unfold Edge.otherEnd
    split
    · exact htarget
    · exact hsource

/-- Whether a search along directed edges finds the second node. -/
def reachesOf (g : Graph) (m n : Nat) : Except Fault Bool :=
  g.onNode m ((Visit.start m).run g.ways (some n)).found

/-- The nodes that a search along tree edges comes to. -/
def fragmentOf (g : Graph) (n : Nat) : Except Fault Subgraph :=
  g.onNode n ((Visit.start n).run g.treeWays none).met

end Graph

end Dominance
