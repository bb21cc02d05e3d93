import Dominance.Graph.Checked

/-!
# Sweeping through a subgraph

The components of a subgraph can also be found in one sweep through its members.
The member at which the sweep stands starts a component.
The search for the other nodes of the component marks every node that it comes to, and between its
rounds the sweep moves on past the members that are marked by then.
So the sweep stands at the start of the next component when the search is over.

## Termination

A node is marked when it becomes pending, and each round uses up one pending node, so that the
number of pending nodes and of members without a mark goes down in each round.
A search moves the sweep ahead only.
-/

namespace Dominance

/-- The state of a sweep through the members of a subgraph. -/
structure Sweep (size : Nat) where
  /-- Whether a node belongs to a component that was found. -/
  marks : Vector Bool size
  /-- The members that the sweep has not come to. -/
  ahead : List Nat
  /-- The component that is searched for. -/
  current : Subgraph
  /-- The nodes of this component whose edges were not looked at yet. -/
  pending : List Nat

namespace Sweep

variable {size : Nat}

/-! ## Marks -/

/-- The state before a sweep. -/
def start (size : Nat) (s : Subgraph) : Sweep size where
  marks := .replicate size false
  ahead := s.ids
  current := .ofList []
  pending := []

/-- Whether a node is marked. What is no node needs no mark. -/
def isMarked (x : Sweep size) (n : Nat) : Bool := x.marks[n]?.getD true

/-- The members of a subgraph without a mark. -/
def unmarked (x : Sweep size) (s : Subgraph) : List Nat := s.ids.filter fun n => !x.isMarked n

/-- Marks a node as one of the current component. -/
def mark (x : Sweep size) (n : Nat) : Sweep size :=
  { x with
    marks := x.marks.setIfInBounds n true
    current := x.current.insert n
    pending := n :: x.pending }

/-- Moves on to the next member without a mark. -/
def skip (x : Sweep size) : Sweep size := { x with ahead := x.ahead.dropWhile x.isMarked }

/-- Looks at the other end of an edge at a node of the current component. -/
def visit (s : Subgraph) (x : Sweep size) (n : Nat) : Sweep size :=
  if s.contains n && !x.isMarked n then x.mark n else x

@[simp]
theorem isMarked_mark (x : Sweep size) (n m : Nat) :
    (x.mark n).isMarked m = (decide (m = n) || x.isMarked m) := by
  unfold isMarked mark
  rw [Vector.getElem?_setIfInBounds]
  by_cases hmn : m = n
  · subst hmn
    by_cases hm : m < size <;> simp [hm]
  · simp [hmn, Ne.symm hmn]

/-- A mark takes one node out of the unmarked ones of a list. -/
theorem filter_isMarked_mark (x : Sweep size) (n : Nat) (l : List Nat) :
    (l.filter fun m => !(x.mark n).isMarked m)
      = (l.filter fun m => !x.isMarked m).filter (· ≠ n) := by
  simp [List.filter_filter]

/-! ## One component -/

/-- The number of pending nodes and of members without a mark. -/
def load (x : Sweep size) (s : Subgraph) : Nat := x.pending.length + (x.unmarked s).length

theorem load_visit_le (s : Subgraph) (x : Sweep size) (n : Nat) :
    (x.visit s n).load s ≤ x.load s := by
  unfold visit
  split
  · next h =>
    rw [Bool.and_eq_true, Subgraph.contains_iff] at h
    have hlt : ((x.unmarked s).filter (· ≠ n)).length < (x.unmarked s).length :=
      List.length_filter_lt_length_iff_exists.mpr ⟨n, List.mem_filter.mpr h, by simp⟩
    rw [load, unmarked, filter_isMarked_mark]
    simp only [mark, List.length_cons, load, unmarked] at hlt ⊢
    omega
  · exact Nat.le_refl _

/-- Looks at the edges at a node of the current component, and moves on past what was marked. -/
def round (g : Graph) (s : Subgraph) (x : Sweep g.size) (n : Nat) : Sweep g.size :=
  ((g.neighbours n).foldl (visit s) x).skip

theorem load_foldl_visit_le (s : Subgraph) (x : Sweep size) (ns : List Nat) :
    (ns.foldl (visit s) x).load s ≤ x.load s := by
  induction ns generalizing x with
  | nil => exact Nat.le_refl _
  | cons n ns ih => exact Nat.le_trans (ih _) (load_visit_le s x n)

/-- Marks everything that hangs together with the pending nodes. -/
def collect (g : Graph) (s : Subgraph) (x : Sweep g.size) : Sweep g.size :=
  match _hpending : x.pending with
  | [] => x
  | n :: pending => collect g s ({ x with pending }.round g s n)
termination_by x.load s
decreasing_by
  have hle : ({ x with pending }.round g s n).load s ≤ { x with pending }.load s :=
    load_foldl_visit_le s { x with pending } (g.neighbours n)
  simp only [load, unmarked, isMarked, _hpending, List.length_cons] at hle ⊢
  omega

/-- Starts a component at the member that the sweep has come to. -/
def enter (x : Sweep size) (first : Nat) (ahead : List Nat) : Sweep size :=
  ({ x with ahead, current := .ofList [], pending := [] }.mark first).skip

/-- Searches for the component of the member that the sweep has come to. -/
def find (g : Graph) (s : Subgraph) (x : Sweep g.size) (first : Nat) (ahead : List Nat) :
    Sweep g.size :=
  collect g s (x.enter first ahead)

/-! ## All components -/

theorem ahead_foldl_visit (s : Subgraph) (x : Sweep size) (ns : List Nat) :
    (ns.foldl (visit s) x).ahead = x.ahead := by
  induction ns generalizing x with
  | nil => rfl
  | cons n ns ih =>
    rw [List.foldl_cons, ih, visit]
    split <;> rfl

theorem length_ahead_skip_le (x : Sweep size) : x.skip.ahead.length ≤ x.ahead.length :=
  (List.dropWhile_suffix _).length_le

theorem length_ahead_collect_le (g : Graph) (s : Subgraph) (x : Sweep g.size) :
    (collect g s x).ahead.length ≤ x.ahead.length := by
  fun_induction collect g s x with
  | case1 => exact Nat.le_refl _
  | case2 x n pending _ ih =>
    refine Nat.le_trans ih (Nat.le_trans (length_ahead_skip_le _) ?_)
    exact Nat.le_of_eq (congrArg List.length (ahead_foldl_visit s _ _))

theorem length_ahead_find_le (g : Graph) (s : Subgraph) (x : Sweep g.size) (first : Nat)
    (ahead : List Nat) : (find g s x first ahead).ahead.length ≤ ahead.length :=
  Nat.le_trans (length_ahead_collect_le _ _ _) (length_ahead_skip_le _)

/-- The components that start from here on. -/
def components (g : Graph) (s : Subgraph) (x : Sweep g.size) : List Subgraph :=
  match _hahead : x.ahead with
  | [] => []
  | first :: ahead =>
    (find g s x first ahead).current :: components g s (find g s x first ahead)
termination_by x.ahead.length
decreasing_by
  have hle := length_ahead_find_le g s x first ahead
  simp only [_hahead, List.length_cons]
  omega

end Sweep

namespace Graph

/-- The components of a subgraph, found in one sweep. -/
def sweep (g : Graph) (s : Subgraph) : List Subgraph := Sweep.components g s (.start g.size s)

/-- The same question about numbers from outside. -/
def sweepOf (g : Graph) (s : Subgraph) : Except Fault (List Subgraph) := g.onNodes s (g.sweep s)

end Graph

end Dominance
