import Dominance.Subgraph

/-!
# Splits

A split of a subgraph puts one fragment on top and hangs the components of the rest below its
nodes.
It is given by the root of the top fragment and the attached parts: a dominator, which is a node of
the top fragment, with a component below it.
Parts are ordered by dominator; the parts of one dominator stay in the order of attachment.
-/

namespace Dominance

/-- A component below a node of the top fragment. -/
structure Part where
  dominator : Nat
  component : Subgraph
deriving DecidableEq

/-- A top fragment and the components below its nodes. -/
structure Split where
  /-- The root of the top fragment. -/
  root : Nat
  parts : List Part
  ordered : parts.Pairwise (·.dominator ≤ ·.dominator)
deriving DecidableEq

namespace Split

/-- Puts a part behind the parts whose dominators are not greater. -/
def place (p : Part) : List Part → List Part
  | [] => [p]
  | q :: qs => if q.dominator ≤ p.dominator then q :: place p qs else p :: q :: qs

/-- Placing a part is merging it into the others, which come first if either may come first. -/
theorem place_eq_merge (p : Part) (qs : List Part) :
    place p qs = qs.merge [p] fun a b => a.dominator ≤ b.dominator := by
  induction qs with
  | nil => exact (List.nil_merge [p]).symm
  | cons q qs ih => simp only [place, List.cons_merge_cons, ih, List.merge_right, decide_eq_true_eq]

theorem pairwise_place (p : Part) {qs : List Part}
    (h : qs.Pairwise (·.dominator ≤ ·.dominator)) :
    (place p qs).Pairwise (·.dominator ≤ ·.dominator) := by
  have hmerged : (qs.merge [p] fun a b => a.dominator ≤ b.dominator).Pairwise
      fun a b => decide (a.dominator ≤ b.dominator) = true := by
    refine List.pairwise_merge (fun a b c hab hbc => ?_) (fun a b => ?_) qs [p] (by simpa using h)
      (List.pairwise_singleton ..)
    · simp only [decide_eq_true_eq] at *
      omega
    · simp only [Bool.or_eq_true, decide_eq_true_eq]
      omega
  rw [place_eq_merge]
  simpa using hmerged

/-- The split with nothing below its top fragment. -/
def bare (root : Nat) : Split := ⟨root, [], List.Pairwise.nil⟩

/-- Hangs one more component below a dominator. -/
def attach (s : Split) (dominator : Nat) (component : Subgraph) : Split :=
  ⟨s.root, place ⟨dominator, component⟩ s.parts, pairwise_place _ s.ordered⟩

/-- The attached components, in the order of the parts. -/
def components (s : Split) : List Subgraph := s.parts.map (·.component)

/-- The dominators with components below them, in ascending order. -/
def dominators (s : Split) : List Nat := (s.parts.map (·.dominator)).eraseDups

/-- The components below a dominator, in the order of attachment. -/
def below (s : Split) (dominator : Nat) : List Subgraph :=
  (s.parts.filter (·.dominator = dominator)).map (·.component)

/-- The components below a dominator, if there are any. -/
def below? (s : Split) (dominator : Nat) : Option (List Subgraph) :=
  match s.below dominator with
  | [] => none
  | components => some components

/-- The dominators with the components below each. -/
def groups (s : Split) : List (Nat × List Subgraph) := s.dominators.map fun d => (d, s.below d)

/-! ## Text -/

/-- One dominator with its components, by a given spelling of a node. -/
def renderGroup (spell : Nat → String) (group : Nat × List Subgraph) : String :=
  spell group.1 ++ "=["
    ++ String.intercalate ", " (group.2.map (Subgraph.renderWith spell)) ++ "]"

/-- The root and the dominators with their components, by a given spelling of a node. -/
def renderWith (spell : Nat → String) (s : Split) : String :=
  "<" ++ spell s.root ++ " \x7b"
    ++ String.intercalate ", " (s.groups.map (renderGroup spell)) ++ "\x7d>"

/-- The root and the dominators with their components, by number. -/
def render (s : Split) : String := s.renderWith Nat.repr

/-- All nodes that the split mentions. -/
def mentioned (s : Split) : List Nat :=
  s.root :: s.parts.flatMap fun p => p.dominator :: p.component.ids

end Split

end Dominance
