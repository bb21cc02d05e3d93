import Mathlib.Data.List.Basic
import Dominance.Proofs.Layout

/-!
# The lines of a text

A text is cut at its line feeds, and a carriage return just before one is dropped; this determines
the lines, and the lines that are cut off one by one are these.

The bytes of a text are cut in the same way.
A byte below 128 stands for a character of its own, so that the bytes of a line feed or a carriage
return are found nowhere else, and each line of bytes is the text of a line.

* `Cut`, `cut_iff` — the lines of a text
* `cutLines_encode`, `byteLines_toUTF8` — the lines of its bytes
-/

namespace Dominance.Text

variable {cs : List Char} {ls : List (List Char)}

/-! ## Cutting a text -/

/-- A line that a line feed ends, without a carriage return at its end. -/
def withoutReturn (line : List Char) : List Char :=
  if line.getLast? = some '\r' then line.dropLast else line

/-- The lines of a text: each line feed ends one, and what follows the last line feed is a line
unless it is empty. -/
inductive Cut : List Char → List (List Char) → Prop
  | nil : Cut [] []
  | last {line : List Char} (hne : line ≠ []) (hfeed : '\n' ∉ line) : Cut line [line]
  | feed {line rest : List Char} {ls : List (List Char)} (hfeed : '\n' ∉ line)
    (hrest : Cut rest ls) : Cut (line ++ '\n' :: rest) (withoutReturn line :: ls)

section

variable {α : Type} [DecidableEq α] {feed ret : α} {xs : List α}

/-- What holds no line feed goes on with the current line. -/
theorem cutLines_append_of_not_mem (h : feed ∉ xs) (line rest : List α) :
    cutLines feed ret line (xs ++ rest) = cutLines feed ret (xs.reverse ++ line) rest := by
  induction xs generalizing line with
  | nil => rfl
  | cons x xs ih =>
    obtain ⟨hx, hxs⟩ := List.ne_and_not_mem_of_not_mem_cons h
    simp [cutLines, Ne.symm hx, ih hxs]

end

theorem endLine_reverse_eq (line : List Char) : endLine '\r' line.reverse = withoutReturn line := by
  rcases List.eq_nil_or_concat line with rfl | ⟨line, c, rfl⟩
  · rfl
  · by_cases hc : c = '\r'
    · simp [endLine, withoutReturn, hc]
    · simp [endLine, withoutReturn, hc]

/-- Every text can be cut into lines. -/
theorem exists_cut (cs : List Char) : ∃ ls, Cut cs ls := by
  induction hn : cs.length using Nat.strong_induction_on generalizing cs with
  | _ n ih =>
    by_cases hfeed : '\n' ∈ cs
    · obtain ⟨line, rest, rfl, hline⟩ := List.eq_append_cons_of_mem hfeed
      have hlt : rest.length < n := by simp [← hn]; omega
      obtain ⟨ls, hls⟩ := ih _ hlt rest rfl
      exact ⟨_, .feed hline hls⟩
    · by_cases hne : cs = []
      · exact ⟨[], hne ▸ .nil⟩
      · exact ⟨_, .last hne hfeed⟩

theorem Cut.eq_lines (h : Cut cs ls) : ls = lines cs := by
  induction h with
  | nil => rfl
  | @last line hne hfeed =>
    have hcut : cutLines '\n' '\r' [] (line ++ []) = _ := cutLines_append_of_not_mem hfeed [] []
    obtain ⟨c, rest, hrest⟩ := List.exists_cons_of_ne_nil (List.reverse_ne_nil_iff.mpr hne)
    rw [List.append_nil, List.append_nil, hrest, cutLines, ← hrest, List.reverse_reverse] at hcut
    exact hcut.symm
  | @feed line rest ls hfeed _ ih =>
    rw [lines, cutLines_append hfeed, List.append_nil, endLine_reverse_eq, ih, lines]

/-- **The lines of a text are what it is cut into.** -/
theorem cut_iff : Cut cs ls ↔ ls = lines cs := by
  refine ⟨Cut.eq_lines, ?_⟩
  rintro rfl
  obtain ⟨ls, hls⟩ := exists_cut cs
  rwa [← hls.eq_lines]

/-! ## The bytes of a text -/

/-- The bytes of characters. -/
def encode (cs : List Char) : List UInt8 := cs.flatMap String.utf8EncodeChar

/-- A byte below 128 stands for a character of its own. -/
theorem utf8EncodeChar_eq_of_mem {c : Char} {b : UInt8} (h : b ∈ String.utf8EncodeChar c)
    (hb : b.toNat < 128) : c.toNat = b.toNat ∧ String.utf8EncodeChar c = [b] := by
  have hval : c.toNat = c.val.toNat := rfl
  simp only [String.utf8EncodeChar] at h ⊢
  split at h
  · next hle =>
    rw [List.mem_singleton] at h
    subst h
    rw [if_pos hle, hval, UInt8.toNat_ofNat']
    exact ⟨by omega, rfl⟩
  -- in a longer encoding each byte has its highest bit set
  all_goals exfalso
  split at h
  · simp only [List.mem_cons, List.not_mem_nil, or_false] at h
    rcases h with rfl | rfl <;> rw [UInt8.toNat_ofNat'] at hb <;> omega
  split at h
  · simp only [List.mem_cons, List.not_mem_nil, or_false] at h
    rcases h with rfl | rfl | rfl <;> rw [UInt8.toNat_ofNat'] at hb <;> omega
  · simp only [List.mem_cons, List.not_mem_nil, or_false] at h
    rcases h with rfl | rfl | rfl | rfl <;> rw [UInt8.toNat_ofNat'] at hb <;> omega

theorem eq_of_feed_mem {c : Char} (h : 10 ∈ String.utf8EncodeChar c) : c = '\n' :=
  Char.toNat_inj.mp (utf8EncodeChar_eq_of_mem h (by decide)).1

theorem eq_of_return_mem {c : Char} (h : 13 ∈ String.utf8EncodeChar c) : c = '\r' :=
  Char.toNat_inj.mp (utf8EncodeChar_eq_of_mem h (by decide)).1

/-- The end of a line is the same in bytes. -/
theorem endLine_encode (line : List Char) :
    endLine 13 (encode line.reverse).reverse = encode (endLine '\r' line) := by
  cases line with
  | nil => rfl
  | cons c line =>
    by_cases hc : c = '\r'
    · subst hc
      have hreturn : String.utf8EncodeChar '\r' = [13] := by decide
      simp [encode, endLine, hreturn]
    · have hlast : (encode (c :: line).reverse).getLast? ≠ some 13 := by
        intro hmem
        refine hc (eq_of_return_mem ?_)
        have hne := String.utf8EncodeChar_ne_nil (c := c)
        simp only [encode, List.reverse_cons, List.flatMap_append, List.flatMap_singleton] at hmem
        rw [List.getLast?_append_of_ne_nil _ hne] at hmem
        exact List.mem_of_getLast? hmem
      rw [endLine_reverse hlast, endLine, if_neg hc]

/-- **The bytes of a text are cut where the text is cut.** -/
theorem cutLines_encode (line cs : List Char) :
    cutLines 10 13 (encode line.reverse).reverse (encode cs) =
      (cutLines '\n' '\r' line cs).map encode := by
  induction cs generalizing line with
  | nil =>
    cases line with
    | nil => rfl
    | cons c line =>
      have hne : (encode (c :: line).reverse).reverse ≠ [] := by simp [encode]
      obtain ⟨b, bytes, hbytes⟩ := List.exists_cons_of_ne_nil hne
      rw [cutLines, List.map_singleton, hbytes]
      show cutLines 10 13 (b :: bytes) [] = _
      rw [cutLines, ← hbytes, List.reverse_reverse]
  | cons c cs ih =>
    have hcons : encode (c :: cs) = String.utf8EncodeChar c ++ encode cs := List.flatMap_cons
    by_cases hc : c = '\n'
    · subst hc
      have hfeed : String.utf8EncodeChar '\n' = [10] := by decide
      rw [hcons, hfeed, List.singleton_append, cutLines, if_pos rfl, cutLines, if_pos rfl,
        endLine_encode, List.map_cons]
      exact congrArg _ (ih [])
    · have hfeed : 10 ∉ String.utf8EncodeChar c := fun hmem => hc (eq_of_feed_mem hmem)
      have hline : (String.utf8EncodeChar c).reverse ++ (encode line.reverse).reverse =
          (encode (c :: line).reverse).reverse := by
        simp [encode]
      rw [hcons, cutLines_append_of_not_mem hfeed, hline, ih, cutLines, if_neg hc]

/-- Going through bytes, with those that were met collected backwards, collects them all. -/
theorem toList_loop_take (bytes : ByteArray) (i : Nat) :
    ByteArray.toList.loop bytes i (bytes.data.toList.take i).reverse = bytes.data.toList := by
  rw [ByteArray.toList.loop.eq_def]
  split
  · next hlt =>
    have hnext : bytes.get! i :: (bytes.data.toList.take i).reverse =
        (bytes.data.toList.take (i + 1)).reverse := by
      have hget : bytes.data.toList[i]? = some (bytes.get! i) := by
        simp [ByteArray.get!, hlt]
      rw [List.take_add_one, hget, List.reverse_append]
      rfl
    rw [hnext]
    exact toList_loop_take bytes (i + 1)
  · next hge =>
    rw [List.reverse_reverse, List.take_of_length_le]
    simpa using Nat.le_of_not_lt hge
termination_by bytes.size - i

theorem toList_toUTF8 (text : String) : text.toUTF8.toList = encode text.toList := by
  have hdata : text.toUTF8.toList = text.toByteArray.data.toList := toList_loop_take text.toUTF8 0
  rw [hdata]
  conv_lhs => rw [← String.ofList_toList (s := text), String.toByteArray_ofList]
  exact List.toList_data_toByteArray

/-- The bytes of characters are read as these characters. -/
theorem fromUTF8?_encode (cs : List Char) :
    String.fromUTF8? ⟨(encode cs).toArray⟩ = some (String.ofList cs) := by
  have hbytes : (⟨(encode cs).toArray⟩ : ByteArray) = cs.utf8Encode :=
    ByteArray.ext List.data_toByteArray.symm
  rw [hbytes, String.fromUTF8?, dif_pos ByteArray.isValidUTF8_utf8Encode]
  rfl

/-- **The lines of the bytes of a text are its lines.** -/
theorem byteLines_toUTF8 (text : String) :
    byteLines text.toUTF8 = (lines text.toList).map some := by
  rw [byteLines, toList_toUTF8, lines]
  have hcut := cutLines_encode [] text.toList
  rw [show (encode ([] : List Char).reverse).reverse = [] from rfl] at hcut
  rw [hcut, List.map_map]
  refine List.map_congr_left fun line _ => ?_
  rw [Function.comp_apply, fromUTF8?_encode, Option.map_some, String.toList_ofList]

end Dominance.Text
