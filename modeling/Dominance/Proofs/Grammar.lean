import Dominance.Proofs.ClauseText

/-!
# The grammar of clauses

A line spells a clause if it is the keyword of the clause with its arguments between parentheses and
a full stop behind it, where blanks may stand around the whole and around each argument, and nowhere
else.
The grammar says this without a word about how a line is taken apart.

A line is parsed exactly if it spells a clause, and then this clause is the only one it spells.

* `Text.Padded`, `Spells` — the grammar
* `Padded.trim_eq`, `padded_trim` — trimming finds what has blanks around it
* `parse_eq_ok_iff` — parsing and the grammar
-/

namespace Dominance

namespace Text

/-! ## Blanks around a text -/

variable {cs text before after : List Char}

/-- The text stands in the written one, with nothing but blanks around it. -/
def Padded (written text : List Char) : Prop :=
  ∃ before after, isBlankText before = true ∧ isBlankText after = true
    ∧ written = before ++ (text ++ after)

theorem trimStart_append (h : isBlankText before = true) (cs : List Char) :
    trimStart (before ++ cs) = trimStart cs :=
  List.dropWhile_append_of_pos (List.all_eq_true.mp h)

theorem trimEnd_append (h : isBlankText after = true) (cs : List Char) :
    trimEnd (cs ++ after) = trimEnd cs := by
  have hreverse : isBlankText after.reverse = true := by rwa [isBlankText, List.all_reverse]
  rw [trimEnd, List.reverse_append, trimStart_append hreverse, trimEnd]

/-- **Trimming takes the blanks off that stand around a text.** -/
theorem Padded.trim_eq (h : Padded cs text) (ht : Tight text) : trim cs = text := by
  obtain ⟨before, after, hbefore, hafter, rfl⟩ := h
  rw [trim, trimStart_append hbefore]
  cases text with
  | nil =>
    have hblank : trimStart ([] ++ after) = [] := by
      rw [trimStart, List.nil_append, List.dropWhile_eq_nil_iff]
      exact List.all_eq_true.mp hafter
    rw [hblank]
    rfl
  | cons c text =>
    have hstart : startsBlank (c :: text ++ after) = false := ht.start
    rw [trimStart_eq_self hstart, trimEnd_append hafter, trimEnd_eq_self ht.stop]

/-- **A text is its trimmed version with blanks around it.** -/
theorem padded_trim (cs : List Char) : Padded cs (trim cs) := by
  refine ⟨cs.takeWhile isBlank, ((trimStart cs).reverse.takeWhile isBlank).reverse, ?_, ?_, ?_⟩
  · exact List.all_eq_true.mpr fun c hc => List.mem_takeWhile_imp hc
  · rw [isBlankText, List.all_reverse]
    exact List.all_eq_true.mpr fun c hc => List.mem_takeWhile_imp hc
  · have hend : trim cs ++ ((trimStart cs).reverse.takeWhile isBlank).reverse = trimStart cs := by
      rw [trim, trimEnd, ← List.reverse_append]
      show (_ ++ (trimStart cs).reverse.dropWhile isBlank).reverse = trimStart cs
      rw [List.takeWhile_append_dropWhile, List.reverse_reverse]
    rw [hend, trimStart, List.takeWhile_append_dropWhile]

theorem Padded.ne_nil (h : Padded cs text) (ht : text ≠ []) : cs ≠ [] := by
  obtain ⟨before, after, -, -, rfl⟩ := h
  simp [ht]

theorem Padded.subset (h : Padded cs text) : ∀ c ∈ text, c ∈ cs := by
  obtain ⟨before, after, -, -, rfl⟩ := h
  intro c hc
  simp [hc]

/-- What is true of blanks and of the text is true of the written text. -/
theorem Padded.forall_mem {P : Char → Prop} (h : Padded cs text)
    (hblank : ∀ c, isBlank c = true → P c) (ht : ∀ c ∈ text, P c) : ∀ c ∈ cs, P c := by
  obtain ⟨before, after, hbefore, hafter, rfl⟩ := h
  simp only [List.forall_mem_append]
  exact ⟨fun c hc => hblank c (List.all_eq_true.mp hbefore c hc), ht,
    fun c hc => hblank c (List.all_eq_true.mp hafter c hc)⟩

end Text

namespace Clause

open Text

variable {line first second inner name text : List Char} {keyword : String} {c c' : Clause}

/-! ## The grammar -/

/-- What can be a label. -/
structure IsLabel (cs : List Char) : Prop where
  nonempty : cs ≠ []
  tight : Tight cs
  plain : ∀ c ∈ cs, c ≠ ',' ∧ isParen c = false

/-- The line is the clause, with blanks around it and around its arguments at most. -/
inductive Spells : List Char → Clause → Prop
  | label {line first second : List Char} {name text : String}
    (hline : Padded line (shape "label" (first ++ ',' :: second)))
    (hfirst : Padded first name.toList) (hname : isName name.toList = true)
    (hsecond : Padded second text.toList) (htext : IsLabel text.toList) :
    Spells line (.label name text)
  | hole {line argument : List Char} {name : String} (hline : Padded line (shape "hole" argument))
    (hargument : Padded argument name.toList) (hname : isName name.toList = true) :
    Spells line (.hole name)
  | edge {line first second : List Char} {kind : EdgeKind} {source target : String}
    (hline : Padded line (shape kind.keyword (first ++ ',' :: second)))
    (hfirst : Padded first source.toList) (hsource : isName source.toList = true)
    (hsecond : Padded second target.toList) (htarget : isName target.toList = true) :
    Spells line (.edge kind source target)

/-! ## Arguments with blanks around them -/

theorem isLabel_of_isName (h : isName name = true) : IsLabel name where
  nonempty := (isArgument_of_isName h).nonempty
  tight := (isArgument_of_isName h).tight
  plain c hc := ⟨((isArgument_of_isName h).plain c hc).1, ((isArgument_of_isName h).plain c hc).2.1⟩

theorem plain_of_isBlank (c : Char) (h : isBlank c = true) : c ≠ ',' ∧ isParen c = false := by
  refine ⟨?_, ?_⟩
  · rintro rfl
    revert h
    decide +kernel
  · rw [isParen, Bool.or_eq_false_iff, decide_eq_false_iff_not, decide_eq_false_iff_not]
    constructor <;> rintro rfl <;> revert h <;> decide +kernel

theorem inside?_padded (h : Padded inner name) (hname : IsLabel name) :
    inside? keyword (shape keyword inner) = some inner :=
  inside?_eq_some_iff.mpr ⟨rfl, h.ne_nil hname.nonempty,
    fun c hc => (h.forall_mem plain_of_isBlank hname.plain c hc).2⟩

theorem arguments?_padded (h : Padded first name) (hname : IsLabel name) (h' : Padded second text)
    (htext : IsLabel text) :
    arguments? keyword (shape keyword (first ++ ',' :: second)) = some (first, second) := by
  have hfirst := h.forall_mem plain_of_isBlank hname.plain
  have hsecond := h'.forall_mem plain_of_isBlank htext.plain
  have hinner : ∀ c ∈ first ++ ',' :: second, isParen c = false := by
    simp only [List.forall_mem_append, List.forall_mem_cons]
    exact ⟨fun c hc => (hfirst c hc).2, by decide, fun c hc => (hsecond c hc).2⟩
  exact arguments?_eq_some_iff.mpr ⟨inside?_eq_some_iff.mpr ⟨rfl, by simp, hinner⟩,
    h.ne_nil hname.nonempty, h'.ne_nil htext.nonempty, fun hmem => (hfirst _ hmem).1 rfl,
    fun hmem => (hsecond _ hmem).1 rfl⟩

/-! ## Parsing -/

/-- What a line spells is parsed. -/
theorem Spells.parse (h : Spells line c) : ∃ padded, parse line = .ok ⟨c, padded⟩ := by
  cases h with
  | label hline hfirst hname hsecond htext =>
    have hlabel := isLabel_of_isName hname
    simp only [Clause.parse]
    rw [hline.trim_eq (tight_shape (by decide) _), arguments?_padded hfirst hlabel hsecond htext]
    simp [parseLabel, hfirst.trim_eq hlabel.tight, hname, hsecond.trim_eq htext.tight,
      htext.nonempty]
  | hole hline hargument hname =>
    have hlabel := isLabel_of_isName hname
    simp only [Clause.parse]
    rw [hline.trim_eq (tight_shape (by decide) _),
      arguments?_shape_eq_none (by decide) (by decide) (by decide), inside?_padded hargument hlabel]
    simp [parseHole, hargument.trim_eq hlabel.tight, hname]
  | @edge first second kind source target hline hfirst hsource hsecond htarget =>
    have hlabel := isLabel_of_isName hsource
    have hlabel' := isLabel_of_isName htarget
    have hkind := keyword_mem_keywords kind
    have hedge : ∀ body, ∃ padded, parseEdge kind body first second =
        .ok ⟨.edge kind source target, padded⟩ := by
      intro body
      simp [parseEdge, hfirst.trim_eq hlabel.tight, hsource, hsecond.trim_eq hlabel'.tight, htarget]
    simp only [Clause.parse]
    rw [hline.trim_eq (tight_shape hkind _),
      arguments?_shape_eq_none (by decide) hkind (by cases kind <;> decide),
      inside?_shape_eq_none (by decide) hkind (by cases kind <;> decide)]
    cases kind with
    | tree =>
      simp only [EdgeKind.keyword]
      rw [arguments?_padded hfirst hlabel hsecond hlabel']
      exact hedge _
    | dominance =>
      simp only [EdgeKind.keyword]
      rw [arguments?_shape_eq_none (by decide) (by decide) (by decide),
        arguments?_padded hfirst hlabel hsecond hlabel']
      exact hedge _

/-- A trimmed line with two arguments is a line with blanks around it. -/
theorem padded_of_arguments? (h : arguments? keyword (trim line) = some (first, second)) :
    Padded line (shape keyword (first ++ ',' :: second)) := by
  rw [← (inside?_eq_some_iff.mp (arguments?_eq_some_iff.mp h).1).1]
  exact padded_trim line

theorem spells_of_parseEdge (kind : EdgeKind) {body : List Char} {padded : Nat}
    (harguments : arguments? kind.keyword (trim line) = some (first, second))
    (h : parseEdge kind body first second = .ok ⟨c, padded⟩) : Spells line c := by
  simp only [parseEdge] at h
  split at h
  · next hnames =>
    rw [Bool.and_eq_true] at hnames
    cases h
    refine .edge (padded_of_arguments? harguments) ?_ ?_ ?_ ?_ <;> rw [String.toList_ofList]
    · exact padded_trim first
    · exact hnames.1
    · exact padded_trim second
    · exact hnames.2
  · cases h

theorem spells_of_parseLabel {body : List Char} {padded : Nat}
    (harguments : arguments? "label" (trim line) = some (first, second))
    (h : parseLabel body first second = .ok ⟨c, padded⟩) : Spells line c := by
  obtain ⟨hinner, -, -, -, hcomma⟩ := arguments?_eq_some_iff.mp harguments
  have hparen := (inside?_eq_some_iff.mp hinner).2.2
  simp only [parseLabel] at h
  split at h
  · next hok =>
    rw [Bool.and_eq_true, Bool.not_eq_true', List.isEmpty_eq_false_iff] at hok
    cases h
    refine .label (padded_of_arguments? harguments) ?_ ?_ ?_ ?_ <;> rw [String.toList_ofList]
    · exact padded_trim first
    · exact hok.1
    · exact padded_trim second
    · refine ⟨hok.2, tight_trim second, fun c hc => ⟨?_, hparen c ?_⟩⟩
      · rintro rfl
        exact hcomma (mem_of_mem_trim hc)
      · simp [mem_of_mem_trim hc]
  · cases h

theorem spells_of_parseHole {argument body : List Char} {padded : Nat}
    (hinside : inside? "hole" (trim line) = some argument)
    (h : parseHole body argument = .ok ⟨c, padded⟩) : Spells line c := by
  simp only [parseHole] at h
  split at h
  · next hname =>
    cases h
    have hline : Padded line (shape "hole" argument) := by
      rw [← (inside?_eq_some_iff.mp hinside).1]
      exact padded_trim line
    refine .hole hline ?_ ?_ <;> rw [String.toList_ofList]
    · exact padded_trim argument
    · exact hname
  · cases h

/-- **A line is parsed exactly if it spells a clause.** -/
theorem parse_eq_ok_iff : (∃ padded, parse line = .ok ⟨c, padded⟩) ↔ Spells line c := by
  refine ⟨?_, Spells.parse⟩
  rintro ⟨padded, h⟩
  simp only [parse] at h
  split at h
  · next harguments => exact spells_of_parseLabel harguments h
  split at h
  · next hinside => exact spells_of_parseHole hinside h
  split at h
  · next harguments => exact spells_of_parseEdge .tree harguments h
  split at h
  · next harguments => exact spells_of_parseEdge .dominance harguments h
  · cases h

/-- A line spells one clause at most. -/
theorem Spells.unique (h : Spells line c) (h' : Spells line c') : c' = c := by
  obtain ⟨padded, hparse⟩ := h.parse
  obtain ⟨padded', hparse'⟩ := h'.parse
  rw [hparse] at hparse'
  cases hparse'
  rfl

/-- A line that spells a clause is not blank. -/
theorem Spells.not_blank (h : Spells line c) : isBlankText line = false := by
  have hshape : ∀ {keyword inner}, Padded line (shape keyword inner) →
      isBlankText line = false := by
    intro keyword inner hline
    rw [isBlankText, List.all_eq_false]
    exact ⟨'.', hline.subset _ (by simp [shape]), by decide +kernel⟩
  cases h with
  | label hline => exact hshape hline
  | hole hline => exact hshape hline
  | edge hline => exact hshape hline

end Clause

end Dominance
