/-!
# Subgraphs

A subgraph is a finite set of node identifiers.
It is kept as the strictly ascending list of its members, so that two subgraphs with the same
members are the same value: equality, ordering and printing need no further normalisation.

* `mem_insert`, `mem_ofList`, `mem_filter`: what each operation does to membership
* `ext`: a subgraph is determined by its members
* `Subgraph.compare`: lexicographic order of the ascending lists, a proper initial part being smaller
-/

namespace Dominance

/-- A finite set of node identifiers, listed in strictly ascending order. -/
structure Subgraph where
  /-- The members, smallest first. -/
  ids : List Nat
  ascending : ids.Pairwise (· < ·)
deriving DecidableEq

namespace Subgraph

/-! ## Ascending lists -/

/-- Puts `x` at its place in an ascending list, unless it is there already. -/
def place (x : Nat) : List Nat → List Nat
  | [] => [x]
  | y :: ys => if x < y then x :: y :: ys else if x = y then y :: ys else y :: place x ys

@[simp]
theorem mem_place {x n : Nat} {xs : List Nat} : n ∈ place x xs ↔ n = x ∨ n ∈ xs := by
  induction xs with
  | nil => simp [place]
  | cons y ys ih =>
    unfold place
    split
    · simp
    · split
      · next h => subst h; simp
      · simp only [List.mem_cons, ih]
        exact or_left_comm

theorem pairwise_place (x : Nat) {xs : List Nat} (h : xs.Pairwise (· < ·)) :
    (place x xs).Pairwise (· < ·) := by
  induction xs with
  | nil => simp [place]
  | cons y ys ih =>
    obtain ⟨hy, hys⟩ := List.pairwise_cons.mp h
    unfold place
    split
    · next hxy =>
      refine List.pairwise_cons.mpr ⟨fun z hz => ?_, h⟩
      rcases List.mem_cons.mp hz with rfl | hz
      · exact hxy
      · exact Nat.lt_trans hxy (hy z hz)
    · split
      · exact h
      · next hlt hne =>
        refine List.pairwise_cons.mpr ⟨fun z hz => ?_, ih hys⟩
        rcases mem_place.mp hz with rfl | hz
        · omega
        · exact hy z hz

/-! ## Membership -/

instance : Membership Nat Subgraph := ⟨fun s n => n ∈ s.ids⟩

instance (n : Nat) (s : Subgraph) : Decidable (n ∈ s) :=
  inferInstanceAs (Decidable (n ∈ s.ids))

/-- Whether a node belongs to the subgraph. -/
def contains (s : Subgraph) (n : Nat) : Bool := decide (n ∈ s)

@[simp]
theorem mem_ids {s : Subgraph} {n : Nat} : n ∈ s.ids ↔ n ∈ s := Iff.rfl

@[simp]
theorem contains_iff {s : Subgraph} {n : Nat} : s.contains n = true ↔ n ∈ s := by
  simp [contains]

/-- An ascending list is determined by its members. -/
theorem eq_of_ascending {xs ys : List Nat} (hx : xs.Pairwise (· < ·)) (hy : ys.Pairwise (· < ·))
    (h : ∀ n, n ∈ xs ↔ n ∈ ys) : xs = ys := by
  have hperm : xs.Perm ys :=
    (List.perm_ext_iff_of_nodup (hx.imp Nat.ne_of_lt) (hy.imp Nat.ne_of_lt)).mpr h
  exact hperm.eq_of_pairwise (fun _ _ _ _ hab hba => absurd hba (Nat.lt_asymm hab)) hx hy

@[ext]
theorem ext {s t : Subgraph} (h : ∀ n, n ∈ s ↔ n ∈ t) : s = t := by
  cases s with
  | mk xs hx =>
    cases t with
    | mk ys hy =>
      have : xs = ys := eq_of_ascending hx hy h
      subst this
      rfl

/-! ## Construction -/

/-- The subgraph without nodes. -/
def empty : Subgraph := ⟨[], List.Pairwise.nil⟩

instance : EmptyCollection Subgraph := ⟨empty⟩

instance : Inhabited Subgraph := ⟨empty⟩

@[simp]
theorem not_mem_empty (n : Nat) : n ∉ (∅ : Subgraph) := by
  show n ∉ ([] : List Nat)
  simp

/-- The subgraph with one more node. -/
def insert (s : Subgraph) (n : Nat) : Subgraph := ⟨place n s.ids, pairwise_place n s.ascending⟩

@[simp]
theorem mem_insert {s : Subgraph} {m n : Nat} : n ∈ s.insert m ↔ n = m ∨ n ∈ s := mem_place

/-- The subgraph of the listed nodes, in whatever order and however often they are listed. -/
def ofList (ns : List Nat) : Subgraph := ns.foldr (fun n s => s.insert n) ∅

@[simp]
theorem mem_ofList {ns : List Nat} {n : Nat} : n ∈ ofList ns ↔ n ∈ ns := by
  induction ns with
  | nil => simp [ofList]
  | cons m ns ih =>
    have : ofList (m :: ns) = (ofList ns).insert m := rfl
    simp [this, ih]

/-- The subgraph with all the listed nodes added. -/
def insertAll (s : Subgraph) (ns : List Nat) : Subgraph := ns.foldl insert s

@[simp]
theorem mem_insertAll {s : Subgraph} {ns : List Nat} {n : Nat} :
    n ∈ s.insertAll ns ↔ n ∈ ns ∨ n ∈ s := by
  unfold insertAll
  induction ns generalizing s with
  | nil => simp
  | cons m ns ih =>
    rw [List.foldl_cons, ih, mem_insert, List.mem_cons]
    constructor
    · rintro (h | h | h)
      · exact .inl (.inr h)
      · exact .inl (.inl h)
      · exact .inr h
    · rintro ((h | h) | h)
      · exact .inr (.inl h)
      · exact .inl h
      · exact .inr (.inr h)

/-- The nodes `0, …, n - 1`. -/
def range (n : Nat) : Subgraph := ⟨List.range n, List.pairwise_lt_range⟩

@[simp]
theorem mem_range {m n : Nat} : m ∈ range n ↔ m < n := List.mem_range

/-- The members that pass a test. -/
def filter (s : Subgraph) (p : Nat → Bool) : Subgraph := ⟨s.ids.filter p, s.ascending.filter p⟩

@[simp]
theorem mem_filter {s : Subgraph} {p : Nat → Bool} {n : Nat} :
    n ∈ s.filter p ↔ n ∈ s ∧ p n = true := List.mem_filter

/-! ## Size and comparison -/

/-- The number of nodes. -/
def size (s : Subgraph) : Nat := s.ids.length

/-- Whether there is no node at all. -/
def isEmpty (s : Subgraph) : Bool := s.ids.isEmpty

/-- Whether two subgraphs share no node. -/
def disjoint (s t : Subgraph) : Bool := s.ids.all fun n => !t.contains n

/-- Lexicographic order of the ascending lists. -/
def compare (s t : Subgraph) : Ordering := List.compareLex Ord.compare s.ids t.ids

instance : Ord Subgraph := ⟨compare⟩

instance : Std.TransOrd Subgraph where
  eq_swap {s t} := by
    show List.compareLex _ _ _ = (List.compareLex _ _ _).swap
    exact Std.OrientedCmp.eq_swap
  isLE_trans {s t u} h₁ h₂ := by
    show (List.compareLex _ _ _).isLE
    exact Std.TransCmp.isLE_trans h₁ h₂

instance : Std.LawfulEqOrd Subgraph where
  compare_self := by
    intro s
    show List.compareLex _ _ _ = _
    exact Std.ReflCmp.compare_self
  eq_of_compare {s t} h := by
    have hlex : List.compareLex Ord.compare s.ids t.ids = .eq := h
    have hids : s.ids = t.ids := Std.LawfulEqCmp.eq_of_compare hlex
    cases s; cases t; subst hids; rfl

/-! ## Text -/

/-- The members in braces, by a given spelling of a node. -/
def renderWith (spell : Nat → String) (s : Subgraph) : String :=
  "\x7b" ++ String.intercalate ", " (s.ids.map spell) ++ "\x7d"

/-- The members in braces, by number. -/
def render (s : Subgraph) : String := s.renderWith Nat.repr

end Subgraph

end Dominance
