/-!
# Sorting by insertion

Sorts a short list by a test that tells whether one element may stand before another.
Elements that may stand either way keep their order.

The recursion is on the list, so that sorted lists can be computed inside of proofs; the recursion
of the library's sort cannot be unfolded there.
By a transitive and total test both give the same list.

* `sortBy_eq_mergeSort`: the result is that of the library's sort
-/

namespace Dominance

variable {α : Type} {le : α → α → Bool} {a : α} {as bs : List α}

/-- Puts an element in front of the first one that it may precede. -/
def insertBy (le : α → α → Bool) (a : α) : List α → List α
  | [] => [a]
  | b :: bs => if le a b then a :: b :: bs else b :: insertBy le a bs

/-- Sorts a list. -/
def sortBy (le : α → α → Bool) (as : List α) : List α := as.foldr (insertBy le) []

/-- An element goes past those that it may not precede. -/
theorem insertBy_append (h : ∀ b ∈ as, le a b = false) :
    insertBy le a (as ++ bs) = as ++ insertBy le a bs := by
  induction as with
  | nil => rfl
  | cons b as ih =>
    obtain ⟨hb, has⟩ := List.forall_mem_cons.mp h
    rw [List.cons_append, insertBy, hb, ih has]
    rfl

theorem insertBy_eq_cons (h : ∀ b ∈ bs, le a b = true) : insertBy le a bs = a :: bs := by
  cases bs with
  | nil => rfl
  | cons b bs => rw [insertBy, if_pos (h b List.mem_cons_self)]

/-- **Sorting by insertion is sorting.** -/
theorem sortBy_eq_mergeSort (trans : ∀ a b c, le a b = true → le b c = true → le a c = true)
    (total : ∀ a b, (le a b || le b a) = true) (as : List α) :
    sortBy le as = as.mergeSort le := by
  induction as with
  | nil => exact List.mergeSort_nil.symm
  | cons a as ih =>
    obtain ⟨before, after, hcons, has, hbefore⟩ := List.mergeSort_cons trans total a as
    have hsorted := List.pairwise_mergeSort trans total (a :: as)
    rw [hcons] at hsorted
    have hafter : ∀ b ∈ after, le a b = true :=
      (List.pairwise_cons.mp (List.pairwise_append.mp hsorted).2.1).1
    have hskip : ∀ b ∈ before, le a b = false := by simpa using hbefore
    show insertBy le a (sortBy le as) = _
    rw [ih, has, insertBy_append hskip, insertBy_eq_cons hafter, hcons]

end Dominance
