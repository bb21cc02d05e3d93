/-!
# Ranges of code points

A class of characters given by a standard is a list of ranges of code points, both ends included.
-/

namespace Dominance.Text

/-- A range of code points, both ends included. -/
abbrev CodeRange := Nat × Nat

/-- Whether a character lies in one of the ranges. -/
def inRanges (ranges : List CodeRange) (c : Char) : Bool :=
  ranges.any fun r => r.1 ≤ c.toNat && c.toNat ≤ r.2

theorem inRanges_iff {ranges : List CodeRange} {c : Char} :
    inRanges ranges c = true ↔ ∃ r ∈ ranges, r.1 ≤ c.toNat ∧ c.toNat ≤ r.2 := by
  simp [inRanges]

/-- Two classes whose ranges never overlap share no character. -/
theorem not_inRanges_of_disjoint {rs ts : List CodeRange} {c : Char}
    (h : ∀ r ∈ rs, ∀ t ∈ ts, r.2 < t.1 ∨ t.2 < r.1) (hc : inRanges rs c = true) :
    inRanges ts c = false := by
  obtain ⟨r, hr, h1, h2⟩ := inRanges_iff.mp hc
  cases ht : inRanges ts c with
  | false => rfl
  | true =>
    obtain ⟨t, htm, h3, h4⟩ := inRanges_iff.mp ht
    rcases h r hr t htm with h5 | h5 <;> omega

end Dominance.Text
