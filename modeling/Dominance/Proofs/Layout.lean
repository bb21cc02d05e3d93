import Mathlib.Data.List.DropRight
import Dominance.Text.Blank
import Dominance.Text.Line

/-!
# Blanks at the ends, and lines

Trimming takes the blanks off both ends of a text, and leaves a text alone that has none there.
A line never holds a line feed, and lines that are written one after the other, each with a line
feed behind it, are cut apart at the same places, unless one of them ends with a carriage return.

* `trim_eq_self`, `tight_trim` — trimming
* `not_mem_of_mem_lines`, `lines_flatMap` — cutting a text into lines
-/

namespace Dominance.Text

/-! ## Trimming -/

/-- No blank stands at either end of the text. -/
structure Tight (cs : List Char) : Prop where
  start : startsBlank cs = false
  stop : endsBlank cs = false

variable {cs : List Char} {c : Char}

theorem trimEnd_eq (cs : List Char) : trimEnd cs = cs.rdropWhile isBlank := rfl

theorem trimStart_eq_self (h : startsBlank cs = false) : trimStart cs = cs := by
  cases cs with
  | nil => rfl
  | cons c cs => rw [trimStart, List.dropWhile_cons_of_neg (by simpa [startsBlank] using h)]

theorem trimEnd_eq_self (h : endsBlank cs = false) : trimEnd cs = cs := by
  rw [trimEnd_eq, List.rdropWhile_eq_self_iff]
  intro hne
  simpa [endsBlank, List.getLast?_eq_some_getLast hne] using h

/-- **Trimming leaves a tight text alone.** -/
theorem Tight.trim_eq (h : Tight cs) : trim cs = cs := by
  rw [trim, trimStart_eq_self h.start, trimEnd_eq_self h.stop]

theorem startsBlank_trimStart (cs : List Char) : startsBlank (trimStart cs) = false := by
  induction cs with
  | nil => rfl
  | cons c cs ih =>
    by_cases hc : isBlank c = true
    · rwa [trimStart, List.dropWhile_cons_of_pos hc]
    · rw [trimStart, List.dropWhile_cons_of_neg hc]
      simpa [startsBlank] using hc

theorem exists_trimEnd_append (cs : List Char) : ∃ rest, trimEnd cs ++ rest = cs :=
  List.rdropWhile_prefix isBlank cs

/-- **A trimmed text is tight.** -/
theorem tight_trim (cs : List Char) : Tight (trim cs) where
  start := by
    obtain ⟨rest, hrest⟩ := exists_trimEnd_append (trimStart cs)
    have hstart := startsBlank_trimStart cs
    rw [← hrest] at hstart
    rw [trim]
    cases htrim : trimEnd (trimStart cs) with
    | nil => rfl
    | cons c rest' =>
      rw [htrim] at hstart
      exact hstart
  stop := by
    rw [trim, trimEnd_eq, endsBlank]
    by_cases hne : (trimStart cs).rdropWhile isBlank = []
    · rw [hne]
      rfl
    · rw [List.getLast?_eq_some_getLast hne]
      simpa using List.rdropWhile_last_not isBlank _ hne

/-- Trimming adds no character. -/
theorem mem_of_mem_trim (h : c ∈ trim cs) : c ∈ cs := by
  obtain ⟨rest, hrest⟩ := exists_trimEnd_append (trimStart cs)
  have hmem : c ∈ trimStart cs := hrest ▸ List.mem_append_left rest h
  exact (List.dropWhile_suffix isBlank).subset hmem

/-! ## Lines -/

section Cutting

variable {α : Type} [DecidableEq α] {feed ret : α} {line xs : List α}

theorem endLine_subset (ret : α) (line : List α) : ∀ x ∈ endLine ret line, x ∈ line := by
  intro x hx
  cases line with
  | nil => exact hx
  | cons c rest =>
    rw [endLine] at hx
    split at hx
    · exact List.mem_cons_of_mem c (List.mem_reverse.mp hx)
    · exact List.mem_reverse.mp hx

/-- A line feed never is a part of a line. -/
theorem not_mem_of_mem_cutLines {line text : List α} (hline : feed ∉ line)
    (h : xs ∈ cutLines feed ret line text) : feed ∉ xs := by
  induction text generalizing line with
  | nil =>
    cases line with
    | nil => cases h
    | cons c line =>
      rw [cutLines, List.mem_singleton] at h
      rwa [h, List.mem_reverse]
  | cons c text ih =>
    rw [cutLines.eq_def] at h
    simp only at h
    split at h
    · rcases List.mem_cons.mp h with rfl | h
      · exact fun hmem => hline (endLine_subset ret line _ hmem)
      · exact ih List.not_mem_nil h
    · next hc =>
      refine ih (fun hmem => ?_) h
      rcases List.mem_cons.mp hmem with rfl | hmem
      · exact hc rfl
      · exact hline hmem

/-- The text up to a line feed is a line. -/
theorem cutLines_append (h : feed ∉ xs) (line rest : List α) :
    cutLines feed ret line (xs ++ feed :: rest) =
      endLine ret (xs.reverse ++ line) :: cutLines feed ret [] rest := by
  induction xs generalizing line with
  | nil => simp [cutLines]
  | cons x xs ih =>
    obtain ⟨hx, hxs⟩ := List.ne_and_not_mem_of_not_mem_cons h
    simp [cutLines, Ne.symm hx, ih hxs]

theorem endLine_reverse (h : xs.getLast? ≠ some ret) : endLine ret xs.reverse = xs := by
  rcases List.eq_nil_or_concat xs with rfl | ⟨xs, x, rfl⟩
  · rfl
  · have hx : x ≠ ret := by simpa using h
    simp [endLine, hx]

/-- **What is written on separate lines is cut apart again.** -/
theorem cutLines_flatMap {ls : List (List α)}
    (h : ∀ l ∈ ls, feed ∉ l ∧ l.getLast? ≠ some ret) :
    cutLines feed ret [] (ls.flatMap (· ++ [feed])) = ls := by
  induction ls with
  | nil => rfl
  | cons l ls ih =>
    obtain ⟨⟨hfeed, hret⟩, hls⟩ := List.forall_mem_cons.mp h
    rw [List.flatMap_cons, List.append_assoc, List.singleton_append, cutLines_append hfeed,
      List.append_nil, endLine_reverse hret, ih hls]

end Cutting

theorem not_mem_of_mem_lines {line : List Char} (h : line ∈ lines cs) : '\n' ∉ line :=
  not_mem_of_mem_cutLines List.not_mem_nil h

theorem lines_flatMap {ls : List (List Char)}
    (h : ∀ l ∈ ls, '\n' ∉ l ∧ l.getLast? ≠ some '\r') : lines (ls.flatMap (· ++ ['\n'])) = ls :=
  cutLines_flatMap h

end Dominance.Text
