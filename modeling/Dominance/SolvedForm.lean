import Dominance.Sorting

/-!
# Solved forms

A solved form places fragments below nodes.
Each placement is a link from the node above to the root of the fragment below.
The links are kept sorted, by source and then by target, and a link that was given twice is kept
twice, so that a solved form does not depend on the order in which its links were found.
-/

namespace Dominance

/-- A placement: the fragment with root `target` goes below the node `source`. -/
structure Link where
  source : Nat
  target : Nat
deriving DecidableEq, Repr

namespace Link

/-- The order of links: by source, then by target. -/
def le (a b : Link) : Bool := a.source < b.source || (a.source == b.source && a.target ≤ b.target)

theorem le_iff {a b : Link} :
    a.le b = true ↔ a.source < b.source ∨ (a.source = b.source ∧ a.target ≤ b.target) := by
  simp [le]

theorem le_trans (a b c : Link) (hab : a.le b = true) (hbc : b.le c = true) : a.le c = true := by
  rw [le_iff] at *
  omega

theorem le_total (a b : Link) : (a.le b || b.le a) = true := by
  rw [Bool.or_eq_true, le_iff, le_iff]
  omega

theorem le_antisymm {a b : Link} (hab : a.le b = true) (hba : b.le a = true) : a = b := by
  rw [le_iff] at *
  cases a
  cases b
  rw [mk.injEq]
  simp only at hab hba
  omega

theorem sortBy_le (links : List Link) : sortBy le links = links.mergeSort le :=
  sortBy_eq_mergeSort le_trans le_total links

/-- The two ends in parentheses, by a given spelling of a node. -/
def renderWith (spell : Nat → String) (l : Link) : String :=
  "(" ++ spell l.source ++ "," ++ spell l.target ++ ")"

/-- The two ends in parentheses, by number. -/
def render (l : Link) : String := l.renderWith Nat.repr

end Link

/-- The links of a solution, sorted. -/
structure SolvedForm where
  links : List Link
  sorted : links.Pairwise fun a b => a.le b = true
deriving DecidableEq

namespace SolvedForm

/-- The solved form with the given links, in whatever order they are given. -/
def ofLinks (links : List Link) : SolvedForm where
  links := sortBy Link.le links
  sorted := by
    rw [Link.sortBy_le]
    exact List.pairwise_mergeSort Link.le_trans Link.le_total links

/-- The solved form that places nothing. -/
def empty : SolvedForm := ⟨[], List.Pairwise.nil⟩

instance : Inhabited SolvedForm := ⟨empty⟩

/-- The number of links. -/
def size (f : SolvedForm) : Nat := f.links.length

/-- Whether nothing is placed. -/
def isEmpty (f : SolvedForm) : Bool := f.links.isEmpty

/-- The links between brackets, by number. -/
def render (f : SolvedForm) : String :=
  "[" ++ String.intercalate "," (f.links.map Link.render) ++ "]"

/-- Sorting keeps every link as often as it was given. -/
theorem ofLinks_perm (links : List Link) : (ofLinks links).links.Perm links := by
  show (sortBy Link.le links).Perm links
  rw [Link.sortBy_le]
  exact List.mergeSort_perm links Link.le

/-- A solved form is determined by how often it has each link. -/
theorem eq_of_perm {f f' : SolvedForm} (h : f.links.Perm f'.links) : f = f' := by
  have hlinks : f.links = f'.links :=
    h.eq_of_pairwise (fun _ _ _ _ => Link.le_antisymm) f.sorted f'.sorted
  cases f
  cases f'
  cases hlinks
  rfl

end SolvedForm

end Dominance
