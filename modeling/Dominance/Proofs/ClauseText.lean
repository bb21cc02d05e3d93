import Mathlib.Data.List.Infix
import Dominance.Clause.Basic
import Dominance.Proofs.Layout

/-!
# Clauses and their texts

A clause is a keyword with its arguments between parentheses and a full stop behind it.
Its arguments may be anything that can be told apart in such a text: neither empty nor with blanks
at the ends, and without commas, parentheses and line feeds.
Names are such arguments.

Whatever is read from a line is a clause with such arguments, and such a clause is read back from
its own text, without a warning.

* `inside?_eq_some_iff`, `arguments?_eq_some_iff` — the shape of a clause
* `legible_of_parse` — what is read from a line is legible
* `parse_render` — a legible clause is read back
-/

namespace Dominance.Clause

open Text

variable {body cs inner first second line : List Char} {keyword keyword' : String} {c : Clause}

/-! ## Arguments and names -/

/-- What can stand as an argument of a clause. -/
structure IsArgument (cs : List Char) : Prop where
  nonempty : cs ≠ []
  tight : Tight cs
  plain : ∀ c ∈ cs, c ≠ ',' ∧ isParen c = false ∧ c ≠ '\n'

theorem isBlank_of_isNameStart {c : Char} (h : isNameStart c = true) : isBlank c = false := by
  have hranges : inRanges [(0x41, 0x5a), (0x5f, 0x5f), (0x61, 0x7a)] c = true := by
    rw [isNameStart, Bool.or_eq_true, decide_eq_true_eq] at h
    rw [inRanges_iff]
    rcases h with rfl | halpha
    · exact ⟨(0x5f, 0x5f), by simp, by decide⟩
    rcases Bool.or_eq_true_iff.mp halpha with hupper | hlower
    · exact ⟨(0x41, 0x5a), by simp, of_decide_eq_true hupper⟩
    · obtain ⟨hlow, hhigh⟩ := Bool.and_eq_true_iff.mp hlower
      exact ⟨(0x61, 0x7a), by simp, of_decide_eq_true hlow, of_decide_eq_true hhigh⟩
  exact not_inRanges_of_disjoint (by decide +kernel) hranges

theorem isBlank_of_isNameRest {c : Char} (h : isNameRest c = true) : isBlank c = false := by
  rw [isNameRest, Bool.or_eq_true] at h
  exact h.elim isBlank_of_isNameStart isBlank_of_isDecimalDigit

theorem isNameRest_of_isName (h : isName cs = true) : ∀ c ∈ cs, isNameRest c = true := by
  cases cs with
  | nil => cases h
  | cons c cs =>
    rw [isName, Bool.and_eq_true, List.all_eq_true] at h
    refine List.forall_mem_cons.mpr ⟨?_, h.2⟩
    rw [isNameRest, h.1, Bool.true_or]

/-- **A name can stand as an argument.** -/
theorem isArgument_of_isName (h : isName cs = true) : IsArgument cs := by
  have hrest := isNameRest_of_isName h
  have hblank : ∀ c ∈ cs, isBlank c = false := fun c hc => isBlank_of_isNameRest (hrest c hc)
  refine ⟨?_, ⟨?_, ?_⟩, fun c hc => ⟨?_, ?_, ?_⟩⟩
  · rintro rfl
    cases h
  · rw [startsBlank, Option.any_eq_false]
    exact fun c hc => by simp [hblank c (List.mem_of_mem_head? hc)]
  · rw [endsBlank, Option.any_eq_false]
    exact fun c hc => by simp [hblank c (List.mem_of_mem_getLast? hc)]
  · rintro rfl
    exact absurd (hrest _ hc) (by decide +kernel)
  · by_contra hparen
    rw [Bool.not_eq_false, isParen, Bool.or_eq_true, decide_eq_true_eq, decide_eq_true_eq] at hparen
    rcases hparen with rfl | rfl <;> exact absurd (hrest _ hc) (by decide +kernel)
  · rintro rfl
    exact absurd (hrest _ hc) (by decide +kernel)

/-- Every name and label of the clause can stand as an argument. -/
def Legible : Clause → Prop
  | .label name text => isName name.toList = true ∧ IsArgument text.toList
  | .hole name => isName name.toList = true
  | .edge _ source target => isName source.toList = true ∧ isName target.toList = true

/-! ## The shape of a clause -/

/-- A keyword with what stands between the parentheses, and a full stop. -/
def shape (keyword : String) (inner : List Char) : List Char :=
  keyword.toList ++ '(' :: (inner ++ [')', '.'])

theorem render_label (name text : String) :
    (label name text).render.toList = shape "label" (name.toList ++ ',' :: ' ' :: text.toList) := by
  simp [render, shape]

theorem render_hole (name : String) : (hole name).render.toList = shape "hole" name.toList := by
  simp [render, shape]

theorem render_edge (kind : EdgeKind) (source target : String) :
    (edge kind source target).render.toList =
      shape kind.keyword (source.toList ++ ',' :: ' ' :: target.toList) := by
  simp [render, shape]

/-- **What stands between the parentheses of a clause.** -/
theorem inside?_eq_some_iff :
    inside? keyword body = some inner ↔
      body = shape keyword inner ∧ inner ≠ [] ∧ ∀ c ∈ inner, isParen c = false := by
  simp only [inside?, Option.bind_eq_bind, Option.bind_eq_some_iff,
    List.isPrefixOf?_eq_some_iff_append_eq, List.isSuffixOf?_eq_some_iff_append_eq]
  constructor
  · rintro ⟨_, rfl, inner', rfl, h⟩
    split at h
    · cases h
    · next hno =>
      cases h
      simp only [Bool.or_eq_true, not_or, List.isEmpty_iff, List.any_eq_true, not_exists, not_and,
        Bool.not_eq_true] at hno
      exact ⟨by simp [shape], hno.1, hno.2⟩
  · rintro ⟨rfl, hne, hparen⟩
    refine ⟨_, by rw [shape]; simp, inner, rfl, if_neg ?_⟩
    simpa [hne] using hparen

/-- **The two arguments of a clause.** -/
theorem arguments?_eq_some_iff :
    arguments? keyword body = some (first, second) ↔
      inside? keyword body = some (first ++ ',' :: second) ∧ first ≠ [] ∧ second ≠ []
        ∧ ',' ∉ first ∧ ',' ∉ second := by
  simp only [arguments?, Option.bind_eq_bind, Option.bind_eq_some_iff]
  constructor
  · rintro ⟨inner, hinner, h⟩
    have hdivide := List.takeWhile_append_dropWhile (p := (· ≠ ',')) (l := inner)
    have hbefore : ',' ∉ inner.takeWhile (· ≠ ',') := fun hmem => by
      simpa using List.mem_takeWhile_imp hmem
    split at h
    · next c rest d rest' hfirst hsecond =>
      split at h
      · cases h
      · next hcomma =>
        cases h
        rw [hfirst, hsecond] at hdivide
        rw [hfirst] at hbefore
        exact ⟨by rw [hinner, ← hdivide], by simp, by simp, hbefore, by simpa using hcomma⟩
    · cases h
  · rintro ⟨hinner, hfirst, hsecond, hbefore, hafter⟩
    refine ⟨_, hinner, ?_⟩
    have hall : ∀ c ∈ first, decide (c ≠ ',') = true := fun c hc =>
      decide_eq_true fun heq => hbefore (heq ▸ hc)
    rw [List.takeWhile_append_of_pos hall, List.dropWhile_append_of_pos hall]
    obtain ⟨c, first, rfl⟩ := List.exists_cons_of_ne_nil hfirst
    obtain ⟨d, second, rfl⟩ := List.exists_cons_of_ne_nil hsecond
    simpa using hafter

/-- The words that clauses start with. -/
def keywords : List String := ["label", "hole", "tree", "dom"]

theorem keyword_mem_keywords (kind : EdgeKind) : kind.keyword ∈ keywords := by
  cases kind <;> decide

/-- A keyword has no parenthesis, line feed or blank. -/
theorem keyword_plain (h : keyword ∈ keywords) : keyword.toList ≠ [] ∧ '(' ∉ keyword.toList ∧
    '\n' ∉ keyword.toList ∧ startsBlank keyword.toList = false := by
  revert keyword
  decide +kernel

/-- The text up to the parenthesis shows the keyword. -/
theorem takeWhile_shape (h : keyword ∈ keywords) (inner : List Char) :
    (shape keyword inner).takeWhile (· ≠ '(') = keyword.toList := by
  obtain ⟨-, hparen, -⟩ := keyword_plain h
  rw [shape, List.takeWhile_append_of_pos, List.takeWhile_cons_of_neg (by simp), List.append_nil]
  exact fun c hc => decide_eq_true fun heq => hparen (heq ▸ hc)

/-- A clause with one keyword has no other one. -/
theorem inside?_shape_eq_none (h : keyword ∈ keywords) (h' : keyword' ∈ keywords)
    (hne : keyword ≠ keyword') (inner : List Char) :
    inside? keyword (shape keyword' inner) = none := by
  refine Option.eq_none_iff_forall_ne_some.mpr fun other hother => hne ?_
  rw [← String.toList_inj, ← takeWhile_shape h other, ← (inside?_eq_some_iff.mp hother).1,
    takeWhile_shape h']

theorem arguments?_shape_eq_none (h : keyword ∈ keywords) (h' : keyword' ∈ keywords)
    (hne : keyword ≠ keyword') (inner : List Char) :
    arguments? keyword (shape keyword' inner) = none := by
  rw [arguments?, inside?_shape_eq_none h h' hne]
  rfl

theorem getLast?_shape (keyword : String) (inner : List Char) :
    (shape keyword inner).getLast? = some '.' := by
  simp [shape, List.getLast?_cons]

/-- A clause neither starts nor ends with a blank. -/
theorem tight_shape (h : keyword ∈ keywords) (inner : List Char) : Tight (shape keyword inner) where
  start := by
    obtain ⟨hne, -, -, hstart⟩ := keyword_plain h
    obtain ⟨c, rest, hkeyword⟩ := List.exists_cons_of_ne_nil hne
    rw [hkeyword] at hstart
    rw [shape, hkeyword]
    exact hstart
  stop := by
    rw [endsBlank, getLast?_shape]
    decide +kernel

/-! ## Reading a clause -/

/-- The blank behind the comma does not belong to the second argument. -/
theorem trimStart_space (cs : List Char) : trimStart (' ' :: cs) = trimStart cs :=
  List.dropWhile_cons_of_pos (by decide +kernel)

theorem trim_space (cs : List Char) : trim (' ' :: cs) = trim cs := by
  rw [trim, trimStart_space, trim]

/-- One argument is found where it was written. -/
theorem inside?_shape (h : IsArgument inner) : inside? keyword (shape keyword inner) = some inner :=
  inside?_eq_some_iff.mpr ⟨rfl, h.nonempty, fun c hc => (h.plain c hc).2.1⟩

/-- Two arguments are found where they were written. -/
theorem arguments?_shape (h : IsArgument first) (h' : IsArgument second) :
    arguments? keyword (shape keyword (first ++ ',' :: ' ' :: second)) =
      some (first, ' ' :: second) := by
  have hinner : ∀ c ∈ first ++ ',' :: ' ' :: second, isParen c = false := by
    simp only [List.forall_mem_append, List.forall_mem_cons]
    exact ⟨fun c hc => (h.plain c hc).2.1, by decide, by decide, fun c hc => (h'.plain c hc).2.1⟩
  refine arguments?_eq_some_iff.mpr ⟨inside?_eq_some_iff.mpr ⟨rfl, by simp, hinner⟩,
    h.nonempty, by simp, fun hmem => (h.plain _ hmem).1 rfl, fun hmem => ?_⟩
  rcases List.mem_cons.mp hmem with hspace | hmem
  · cases hspace
  · exact (h'.plain _ hmem).1 rfl

theorem paddingOf_self (cs : List Char) : paddingOf cs cs = 0 := if_pos rfl

/-- **A legible clause is read back from its text, without a warning.** -/
theorem parse_render (h : c.Legible) : parse c.render.toList = .ok ⟨c, 0⟩ := by
  cases c with
  | label name text =>
    obtain ⟨hname, htext⟩ := h
    have harg := isArgument_of_isName hname
    rw [render_label, parse, (tight_shape (by decide) _).trim_eq, arguments?_shape harg htext]
    simp [parseLabel, harg.tight.trim_eq, trim_space, htext.tight.trim_eq, hname,
      htext.nonempty, paddingOf_self]
  | hole name =>
    have hname : isName name.toList = true := h
    have harg := isArgument_of_isName hname
    rw [render_hole, parse, (tight_shape (by decide) _).trim_eq,
      arguments?_shape_eq_none (by decide) (by decide) (by decide), inside?_shape harg]
    simp [parseHole, harg.tight.trim_eq, hname, paddingOf_self]
  | edge kind source target =>
    obtain ⟨hsource, htarget⟩ := h
    have harg := isArgument_of_isName hsource
    have harg' := isArgument_of_isName htarget
    have hkind := keyword_mem_keywords kind
    have hedge : ∀ body, parseEdge kind body source.toList (' ' :: target.toList) =
        .ok ⟨.edge kind source target, 0⟩ := by
      intro body
      simp [parseEdge, harg.tight.trim_eq, trim_space, harg'.tight.trim_eq, hsource, htarget,
        trimStart_space, trimStart_eq_self harg'.tight.start, paddingOf_self]
    rw [render_edge, parse, (tight_shape hkind _).trim_eq,
      arguments?_shape_eq_none (by decide) hkind (by cases kind <;> decide),
      inside?_shape_eq_none (by decide) hkind (by cases kind <;> decide)]
    cases kind with
    | tree =>
      simp only [EdgeKind.keyword]
      rw [arguments?_shape harg harg']
      exact hedge _
    | dominance =>
      simp only [EdgeKind.keyword]
      rw [arguments?_shape_eq_none (by decide) (by decide) (by decide), arguments?_shape harg harg']
      exact hedge _

/-- What is found between the parentheses of a trimmed line stands in the line. -/
theorem mem_of_inside? (h : inside? keyword (trim line) = some inner) : ∀ c ∈ inner, c ∈ line := by
  intro c hc
  apply mem_of_mem_trim
  rw [(inside?_eq_some_iff.mp h).1, shape]
  simp [hc]

/-- The second argument of a clause, trimmed, can be written as an argument. -/
theorem isArgument_trim (hline : '\n' ∉ line)
    (h : arguments? keyword (trim line) = some (first, second)) (hne : trim second ≠ []) :
    IsArgument (trim second) := by
  obtain ⟨hinner, -, -, -, hcomma⟩ := arguments?_eq_some_iff.mp h
  refine ⟨hne, tight_trim second, fun c hc => ?_⟩
  have hmem : c ∈ first ++ ',' :: second := by simp [mem_of_mem_trim hc]
  refine ⟨?_, (inside?_eq_some_iff.mp hinner).2.2 c hmem, ?_⟩
  · rintro rfl
    exact hcomma (mem_of_mem_trim hc)
  · rintro rfl
    exact hline (mem_of_inside? hinner _ hmem)

theorem legible_of_parseEdge {kind : EdgeKind} {p : Parsed}
    (h : parseEdge kind body first second = .ok p) : p.clause.Legible := by
  simp only [parseEdge] at h
  split at h
  · next hnames =>
    cases h
    rw [Bool.and_eq_true] at hnames
    simpa [Legible] using hnames
  · cases h

/-- **What is read from a line is legible.** -/
theorem legible_of_parse {p : Parsed} (hline : '\n' ∉ line) (h : parse line = .ok p) :
    p.clause.Legible := by
  simp only [parse] at h
  split at h
  · next first second harguments =>
    simp only [parseLabel] at h
    split at h
    · next hok =>
      cases h
      rw [Bool.and_eq_true, Bool.not_eq_true', List.isEmpty_eq_false_iff] at hok
      simpa [Legible, hok.1] using isArgument_trim hline harguments hok.2
    · cases h
  · split at h
    · simp only [parseHole] at h
      split at h
      · next hname =>
        cases h
        simpa [Legible] using hname
      · cases h
    · split at h
      · exact legible_of_parseEdge h
      · split at h
        · exact legible_of_parseEdge h
        · cases h

/-! ## The text of a clause as a line -/

/-- The text of a legible clause is a keyword with arguments that hold no line feed. -/
theorem Legible.exists_shape (h : c.Legible) : ∃ keyword ∈ keywords, ∃ inner,
    c.render.toList = shape keyword inner ∧ '\n' ∉ inner := by
  have hline : ∀ {cs}, IsArgument cs → '\n' ∉ cs := fun harg hmem => (harg.plain _ hmem).2.2 rfl
  cases c with
  | label name text =>
    have hname := hline (isArgument_of_isName h.1)
    exact ⟨"label", by decide, _, render_label name text, by simp [hname, hline h.2]⟩
  | hole name =>
    exact ⟨"hole", by decide, _, render_hole name, hline (isArgument_of_isName h)⟩
  | edge kind source target =>
    have hsource := hline (isArgument_of_isName h.1)
    have htarget := hline (isArgument_of_isName h.2)
    exact ⟨kind.keyword, keyword_mem_keywords kind, _, render_edge kind source target,
      by simp [hsource, htarget]⟩

/-- The text of a clause is a single line, and reading does not skip it. -/
theorem Legible.single_line (h : c.Legible) : '\n' ∉ c.render.toList ∧
    c.render.toList.getLast? = some '.' ∧ isBlankText c.render.toList = false := by
  obtain ⟨keyword, hkeyword, inner, heq, hinner⟩ := h.exists_shape
  obtain ⟨-, -, hfeed, -⟩ := keyword_plain hkeyword
  have hlast := getLast?_shape keyword inner
  rw [heq]
  refine ⟨?_, hlast, ?_⟩
  · rw [shape]
    simp [hfeed, hinner]
  · rw [isBlankText, List.all_eq_false]
    exact ⟨'.', List.mem_of_getLast? hlast, by decide +kernel⟩

end Dominance.Clause
