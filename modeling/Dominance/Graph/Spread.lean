import Dominance.Subgraph

/-!
# Spreading through a graph

Every search of this library spreads from a node through a relation that lists the neighbours of a
node, within a given supply of nodes.
The supply holds the nodes that were not touched yet.
A step takes a pending node, moves its neighbours out of the supply, and makes them pending.

## Termination

A node that becomes pending leaves the supply, and each step uses up one pending node, so
`pending.length + supply.length` goes down by one at each step.
`components` ends because a search never adds to the supply.
-/

namespace Dominance

/-! ## Dividing the supply -/

/-- The supplied nodes that are listed. -/
def touched (supply listed : List Nat) : List Nat := supply.filter listed.contains

/-- The supplied nodes that are not listed. -/
def untouched (supply listed : List Nat) : List Nat := supply.filter fun n => !listed.contains n

@[simp]
theorem mem_touched {supply listed : List Nat} {n : Nat} :
    n ∈ touched supply listed ↔ n ∈ supply ∧ n ∈ listed := by
  simp [touched]

@[simp]
theorem mem_untouched {supply listed : List Nat} {n : Nat} :
    n ∈ untouched supply listed ↔ n ∈ supply ∧ n ∉ listed := by
  simp [untouched]

/-- Dividing the supply loses no node and doubles none. -/
theorem length_touched_add_length_untouched (supply listed : List Nat) :
    (touched supply listed).length + (untouched supply listed).length = supply.length := by
  induction supply with
  | nil => rfl
  | cons n supply ih =>
    unfold touched untouched at *
    by_cases h : n ∈ listed <;> simp [h] at * <;> omega

/-! ## Spreading -/

/-- The outcome of a search: the nodes that were reached and the supply that is left. -/
structure Reach where
  reached : List Nat
  rest : List Nat
deriving DecidableEq, Repr

/-- Spreads from the pending nodes through the supply; `reached` holds what was reached so far. -/
def spread (next : Nat → List Nat) (pending supply reached : List Nat) : Reach :=
  match pending with
  | [] => ⟨reached, supply⟩
  | n :: pending =>
    spread next (touched supply (next n) ++ pending) (untouched supply (next n))
      (touched supply (next n) ++ reached)
termination_by pending.length + supply.length
decreasing_by
  have := length_touched_add_length_untouched supply (next n)
  simp only [List.length_append, List.length_cons]
  omega

/-- Spreads from one node. -/
def reachFrom (next : Nat → List Nat) (start : Nat) (supply : List Nat) : Reach :=
  spread next [start] supply [start]

theorem length_rest_spread_le (next : Nat → List Nat) (pending supply reached : List Nat) :
    (spread next pending supply reached).rest.length ≤ supply.length := by
  fun_induction spread next pending supply reached with
  | case1 => exact Nat.le_refl _
  | case2 supply reached n pending ih =>
    have := length_touched_add_length_untouched supply (next n)
    omega

/-! ## Components -/

/-- Divides the supply into the sets of nodes reached from each other, each started at the first
node that is left. -/
def components (next : Nat → List Nat) (supply : List Nat) : List Subgraph :=
  match supply with
  | [] => []
  | n :: supply =>
    let reach := reachFrom next n supply
    Subgraph.ofList reach.reached :: components next reach.rest
termination_by supply.length
decreasing_by
  have := length_rest_spread_le next [n] supply [n]
  simp only [reachFrom, List.length_cons]
  omega

end Dominance
