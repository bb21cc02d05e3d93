import Dominance.Split.Free

/-!
# Searching with tags

The ground below a top fragment can also be searched node by node, with a tag at each node that was
reached: the door through which the search came to it.
Nodes with the same tag form a region.
The search breaks off where an edge leads from tagged ground to another node of the top fragment, or
to ground that was tagged for another dominator.

The marks are kept from one question to the next.
A question wipes them first, so that it does not matter in which state a search left them that broke
off.

## Termination

A node is tagged when it becomes pending, and each round uses up one pending node, so that the
number of pending and untagged nodes goes down by one in each round.
-/

namespace Dominance

/-- The marks of a search through the nodes below a number. -/
structure Scratch (size : Nat) where
  /-- Whether a node belongs to the top fragment. -/
  inTop : Vector Bool size
  /-- The door through which a node was reached first. -/
  tags : Vector (Option Link) size
  /-- The tagged nodes whose edges were not looked at yet. -/
  pending : List Nat

namespace Scratch

variable {size : Nat}

/-! ## Marks -/

/-- Marks that no search has used. -/
def fresh (size : Nat) : Scratch size where
  inTop := .replicate size false
  tags := .replicate size none
  pending := []

/-- Takes every mark away. -/
def wipe (x : Scratch size) : Scratch size where
  inTop := x.inTop.map fun _ => false
  tags := x.tags.map fun _ => none
  pending := []

/-- Marks the nodes of the top fragment. -/
def markTop (x : Scratch size) (top : Subgraph) : Scratch size :=
  { x with inTop := top.ids.foldl (fun marks n => marks.setIfInBounds n true) x.inTop }

/-- Whether a node is marked as one of the top fragment. -/
def isTop (x : Scratch size) (n : Nat) : Bool := x.inTop[n]?.getD false

/-- The tag of a node. -/
def tag? (x : Scratch size) (n : Nat) : Option Link := x.tags[n]?.join

/-- Tags a node and makes it pending. -/
def claim (x : Scratch size) (door : Link) (n : Nat) : Scratch size :=
  { x with tags := x.tags.setIfInBounds n (some door), pending := n :: x.pending }

/-- The number of pending and of untagged nodes. -/
def load (x : Scratch size) : Nat := x.pending.length + x.tags.countP Option.isNone

/-- A claim moves an untagged node to the pending ones. -/
theorem load_claim {x : Scratch size} {n : Nat} (hn : n < size) (h : x.tag? n = none)
    (door : Link) : (x.claim door n).load = x.load := by
  have htag : x.tags[n] = none := by simpa [tag?, hn] using h
  have hpos : 0 < x.tags.countP Option.isNone :=
    Vector.countP_pos_iff.mpr ⟨x.tags[n], by simp, by simp [htag]⟩
  have hset : x.tags.setIfInBounds n (some door) = x.tags.set n (some door) := by
    ext i hi
    simp [Vector.getElem_setIfInBounds, Vector.getElem_set]
  have hcount : (x.claim door n).tags.countP Option.isNone =
      x.tags.countP Option.isNone - 1 := by
    show (x.tags.setIfInBounds n (some door)).countP Option.isNone = _
    rw [hset, Vector.countP_set hn]
    simp [htag]
  unfold load
  rw [hcount]
  simp only [claim, List.length_cons]
  omega

/-! ## Steps that may fail -/

/-- Takes one step after the other, up to one that fails. -/
def attempt {α : Type} (step : Scratch size → α → Scratch size × Bool) (x : Scratch size) :
    List α → Scratch size × Bool
  | [] => (x, true)
  | a :: as =>
    match step x a with
    | (x, true) => attempt step x as
    | (x, false) => (x, false)

/-- Looks at the other end of an edge at ground that was tagged for a door. What lies outside the
subgraph is passed over. -/
def visit (s : Subgraph) (door : Link) (x : Scratch size) (n : Nat) : Scratch size × Bool :=
  if s.contains n && n < size then
    if x.isTop n then (x, n = door.source)
    else
      match x.tag? n with
      | some tag => (x, tag.source = door.source)
      | none => (x.claim door n, true)
  else (x, true)

theorem load_visit (s : Subgraph) (door : Link) (x : Scratch size) (n : Nat) :
    (x.visit s door n).1.load = x.load := by
  unfold visit
  split
  · next hn =>
    rw [Bool.and_eq_true, decide_eq_true_eq] at hn
    split
    · rfl
    · split
      · rfl
      · next htag => exact load_claim hn.2 htag door
  · rfl

theorem load_attempt_visit (s : Subgraph) (door : Link) (x : Scratch size) (ns : List Nat) :
    (attempt (visit s door) x ns).1.load = x.load := by
  induction ns generalizing x with
  | nil => rfl
  | cons n ns ih =>
    have hvisit := load_visit s door x n
    unfold attempt
    split
    · next hstep =>
      rw [hstep] at hvisit
      rw [ih, hvisit]
    · next hstep =>
      rw [hstep] at hvisit
      exact hvisit

/-- Tags all the ground that hangs together with the pending nodes. -/
def explore (g : Graph) (s : Subgraph) (door : Link) (x : Scratch size) : Scratch size × Bool :=
  match _hpending : x.pending with
  | [] => (x, true)
  | n :: pending =>
    match _hvisit : attempt (visit s door) { x with pending } (g.neighbours n) with
    | (x', true) => explore g s door x'
    | (x', false) => (x', false)
termination_by x.load
decreasing_by
  have hload := load_attempt_visit s door { x with pending } (g.neighbours n)
  rw [_hvisit] at hload
  simp only [load, _hpending, List.length_cons] at hload ⊢
  omega

/-- Goes through a door, unless it leads back into the top fragment or out of the subgraph. -/
def enter (g : Graph) (s : Subgraph) (x : Scratch size) (door : Link) : Scratch size × Bool :=
  if s.contains door.target && door.target < size && !x.isTop door.target then
    match x.tag? door.target with
    | some tag => (x, tag.source = door.source)
    | none => explore g s door (x.claim door door.target)
  else (x, true)

/-! ## Questions -/

/-- The nodes with each tag, if all nodes have one. -/
def regions? (x : Scratch size) (ground : List Nat) : Option (List Region) :=
  if ground.all fun n => (x.tag? n).isSome then
    some <| (ground.filterMap x.tag?).eraseDups.map fun door =>
      ⟨door, ground.filter fun n => x.tag? n = some door⟩
  else none

/-- The split that puts the fragment of `root` on top of a subgraph, if it is free there, and the
marks that the search leaves behind. -/
def query (g : Graph) (x : Scratch g.size) (root : Nat) (s : Subgraph) :
    Option Split × Scratch g.size :=
  let top := g.topOf root s
  match attempt (enter g s) (x.wipe.markTop top) (g.doors top) with
  | (x, true) =>
    ((x.regions? (s.ids.filter fun n => !x.isTop n)).map (Graph.splitOfRegions root), x)
  | (x, false) => (none, x)

/-- The marks that are left after some questions. -/
def afterQueries (g : Graph) (queries : List (Nat × Subgraph)) : Scratch g.size :=
  queries.foldl (fun x q => (x.query g q.1 q.2).2) (fresh g.size)

/-- The same question about numbers from outside. -/
def queryOf (g : Graph) (x : Scratch g.size) (root : Nat) (s : Subgraph) :
    Except Fault (Option Split) × Scratch g.size :=
  if root < g.size then
    match x.query g root (s.filter (· < g.size)) with
    | (none, x) => (.ok none, x)
    | (some split, x) => (g.onNodes s (some split), x)
  else
    (.error (.unknownNode root), x)

end Scratch

end Dominance
