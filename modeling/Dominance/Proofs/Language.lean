import Dominance.Proofs.Grammar
import Dominance.Proofs.Lines
import Dominance.Proofs.ReadBack

/-!
# The language of graph texts

A text is a graph if each of its lines that is not blank spells a clause, no node is declared after
an edge, and the names at the ends of an edge are declared before it.
These rules are about the lines only; a reading is measured against them.

A reading takes over the first declaration of each name, and every edge.
After some lines the draft holds what their clauses say, and it takes in the next line exactly if
this line breaks no rule.
So the reading fails at the first line that breaks one, and succeeds if there is none.

* `Clause.Breaks`, `Clause.Transcribed` — the rules, and the clauses of lines
* `Holds.addLine_of_admits`, `Holds.addLine_of_not_admits` — one line
* `verdict_readFrom` — the lines from a draft on
* `reading_accepts_exactly` — the whole text
-/

namespace Dominance

open Text

variable {line : List Char} {before lines rest : List (List Char)} {c : Clause}
  {clauses : List Clause} {name : String} {label : Option String} {d : Draft} {g : Graph}
  {index i : Nat}

namespace Clause

/-! ## The rules -/

/-- The name and the label that a clause declares; an edge declares nothing. -/
def declared? : Clause → Option (String × Option String)
  | .label name text => some (name, some text)
  | .hole name => some (name, none)
  | .edge .. => none

/-- Whether a clause is an edge. -/
def isEdge : Clause → Bool
  | .edge .. => true
  | _ => false

/-- The line declares the name. -/
def Declares (line : List Char) (name : String) : Prop :=
  ∃ c, Spells line c ∧ ∃ label, c.declared? = some (name, label)

/-- The line breaks a rule, given the lines before it. -/
inductive Breaks (before : List (List Char)) (line : List Char) : Prop
  /-- The line is neither blank nor a clause. -/
  | garbled (hblank : isBlankText line = false) (hspells : ∀ c, ¬ Spells line c)
  /-- The line declares a node after an edge. -/
  | late (hnode : ∃ c, Spells line c ∧ c.isEdge = false)
    (hedge : ∃ earlier ∈ before, ∃ c, Spells earlier c ∧ c.isEdge = true)
  /-- The line is an edge, and no line before it declares one of its ends. -/
  | unknown {kind : EdgeKind} {source target name : String}
    (hedge : Spells line (.edge kind source target)) (hname : name = source ∨ name = target)
    (hnone : ∀ earlier ∈ before, ¬ Declares earlier name)

/-- The line with the given index breaks a rule. -/
def BreaksAt (lines : List (List Char)) (i : Nat) : Prop :=
  ∃ line, lines[i]? = some line ∧ Breaks (lines.take i) line

/-- The clauses of lines, of which some may be blank. -/
inductive Transcribed : List (List Char) → List Clause → Prop
  | nil : Transcribed [] []
  | blank {line : List Char} {lines : List (List Char)} {clauses : List Clause}
    (hblank : isBlankText line = true) (h : Transcribed lines clauses) :
    Transcribed (line :: lines) clauses
  | clause {line : List Char} {lines : List (List Char)} {c : Clause} {clauses : List Clause}
    (hspells : Spells line c) (h : Transcribed lines clauses) :
    Transcribed (line :: lines) (c :: clauses)

/-- The first declaration of each name, in order. -/
def firsts : List (String × Option String) → List (String × Option String)
  | [] => []
  | x :: xs => x :: (firsts xs).filter (·.1 ≠ x.1)

/-- The nodes of the graph are the first declarations of each name, and its edges are all edges. -/
def Describes (clauses : List Clause) (g : Graph) : Prop :=
  g.declarations = firsts (clauses.filterMap declared?) ∧ g.edgeClauses = clauses.filter isEdge

/-! ## Lines and their clauses -/

theorem Transcribed.append_blank (h : Transcribed lines clauses)
    (hblank : isBlankText line = true) : Transcribed (lines ++ [line]) clauses := by
  induction h with
  | nil => exact .blank hblank .nil
  | blank hblank' _ ih => exact .blank hblank' ih
  | clause hspells _ ih => exact .clause hspells ih

theorem Transcribed.append_clause (h : Transcribed lines clauses) (hspells : Spells line c) :
    Transcribed (lines ++ [line]) (clauses ++ [c]) := by
  induction h with
  | nil => exact .clause hspells .nil
  | blank hblank _ ih => exact .blank hblank ih
  | clause hspells' _ ih => exact .clause hspells' ih

/-- What some line spells is one of the clauses. -/
theorem Transcribed.exists_iff (h : Transcribed lines clauses) {P : Clause → Prop} :
    (∃ line ∈ lines, ∃ c, Spells line c ∧ P c) ↔ ∃ c ∈ clauses, P c := by
  induction h with
  | nil => simp
  | @blank line lines clauses hblank _ ih =>
    have hnone : ¬ ∃ c, Spells line c ∧ P c := by
      rintro ⟨c, hspells, -⟩
      rw [hspells.not_blank] at hblank
      cases hblank
    simp only [List.exists_mem_cons_iff, hnone, false_or, ih]
  | @clause line lines c clauses hspells _ ih =>
    have hone : (∃ c', Spells line c' ∧ P c') ↔ P c := by
      constructor
      · rintro ⟨c', hspells', hc'⟩
        rwa [← hspells.unique hspells']
      · exact fun hc => ⟨c, hspells, hc⟩
    simp only [List.exists_mem_cons_iff, hone, ih]

/-- Some clause declares the name. -/
def Known (clauses : List Clause) (name : String) : Prop :=
  ∃ c ∈ clauses, ∃ label, c.declared? = some (name, label)

/-- The clause may follow the others. -/
def Admits (clauses : List Clause) : Clause → Prop
  | .edge _ source target => Known clauses source ∧ Known clauses target
  | _ => clauses.any isEdge = false

/-- A line breaks a rule if its clause may not follow the clauses before it. -/
theorem breaks_iff (h : Transcribed before clauses) (hspells : Spells line c) :
    Breaks before line ↔ ¬ Admits clauses c := by
  have hknown : ∀ name, (∃ earlier ∈ before, Declares earlier name) ↔ Known clauses name :=
    fun name => h.exists_iff
  have hedges : (∃ earlier ∈ before, ∃ c, Spells earlier c ∧ c.isEdge = true) ↔
      clauses.any isEdge = true := by
    rw [h.exists_iff, List.any_eq_true]
  constructor
  · rintro (⟨-, hnone⟩ | ⟨⟨c', hspells', hnode⟩, hedge⟩ | ⟨hspells', hname, hnone⟩)
    · exact absurd hspells (hnone c)
    · cases hspells.unique hspells'
      rw [hedges] at hedge
      cases c with
      | edge => cases hnode
      | label => simp [Admits, hedge]
      | hole => simp [Admits, hedge]
    · cases hspells.unique hspells'
      rintro ⟨hsource, htarget⟩
      rw [← hknown] at hsource htarget
      rcases hname with rfl | rfl
      · obtain ⟨earlier, hmem, hdeclares⟩ := hsource
        exact hnone earlier hmem hdeclares
      · obtain ⟨earlier, hmem, hdeclares⟩ := htarget
        exact hnone earlier hmem hdeclares
  · intro hnot
    cases c with
    | label name text => exact .late ⟨_, hspells, rfl⟩ (hedges.mpr (by simpa [Admits] using hnot))
    | hole name => exact .late ⟨_, hspells, rfl⟩ (hedges.mpr (by simpa [Admits] using hnot))
    | edge kind source target =>
      rw [Admits, not_and_or, ← hknown, ← hknown] at hnot
      rcases hnot with hnot | hnot
      · exact .unknown hspells (.inl rfl) fun earlier hmem hdeclares =>
          hnot ⟨earlier, hmem, hdeclares⟩
      · exact .unknown hspells (.inr rfl) fun earlier hmem hdeclares =>
          hnot ⟨earlier, hmem, hdeclares⟩

theorem not_breaks_of_blank (h : isBlankText line = true) : ¬ Breaks before line := by
  have hnone : ∀ c, ¬ Spells line c := by
    intro c hspells
    rw [hspells.not_blank] at h
    cases h
  rintro (⟨hblank, -⟩ | ⟨⟨c, hspells, -⟩, -⟩ | ⟨hspells, -, -⟩)
  · rw [h] at hblank
    cases hblank
  · exact hnone c hspells
  · exact hnone _ hspells

/-- The lines behind a line have no say in whether it breaks a rule. -/
theorem breaksAt_append_of_lt (h : i < before.length) :
    BreaksAt (before ++ rest) i ↔ BreaksAt before i := by
  rw [BreaksAt, List.getElem?_append_left h, List.take_append_of_le_length h.le, BreaksAt]

theorem breaksAt_append_length :
    BreaksAt (before ++ line :: rest) before.length ↔ Breaks before line := by
  simp [BreaksAt]

/-- One more line that breaks no rule. -/
theorem not_breaksAt_append (h : ∀ i < before.length, ¬ BreaksAt before i)
    (hline : ¬ Breaks before line) :
    ∀ i < (before ++ [line]).length, ¬ BreaksAt (before ++ [line]) i := by
  intro i hi
  rw [List.length_append, List.length_singleton] at hi
  rcases Nat.lt_succ_iff_lt_or_eq.mp hi with hi | rfl
  · rw [breaksAt_append_of_lt hi]
    exact h i hi
  · rwa [breaksAt_append_length]

/-! ## First declarations -/

theorem map_fst_firsts (xs : List (String × Option String)) :
    name ∈ (firsts xs).map (·.1) ↔ name ∈ xs.map (·.1) := by
  induction xs with
  | nil => rfl
  | cons x xs ih =>
    rw [firsts, List.map_cons, List.map_cons, List.mem_cons, List.mem_cons, ← ih]
    by_cases hname : name = x.1
    · simp [hname]
    · simp only [hname, false_or, List.mem_map, List.mem_filter, decide_eq_true_eq]
      constructor
      · rintro ⟨y, ⟨hy, -⟩, rfl⟩
        exact ⟨y, hy, rfl⟩
      · rintro ⟨y, hy, rfl⟩
        exact ⟨y, ⟨hy, hname⟩, rfl⟩

/-- A declaration behind all others is kept if its name is new. -/
theorem firsts_append (xs : List (String × Option String)) (x : String × Option String) :
    firsts (xs ++ [x]) = firsts xs ++ if x.1 ∈ xs.map (·.1) then [] else [x] := by
  induction xs with
  | nil => rfl
  | cons y xs ih =>
    rw [List.cons_append, firsts, ih, List.filter_append, firsts, List.cons_append]
    by_cases hmem : x.1 ∈ xs.map (·.1)
    · rw [if_pos hmem, if_pos (by rw [List.map_cons]; exact List.mem_cons_of_mem _ hmem)]
      rfl
    · by_cases hname : x.1 = y.1
      · rw [if_neg hmem, if_pos (by rw [List.map_cons, hname]; exact List.mem_cons_self)]
        simp [hname]
      · rw [if_neg hmem, if_neg (by simpa [hname] using hmem)]
        simp [hname]

theorem known_iff : Known clauses name ↔ name ∈ (clauses.filterMap declared?).map (·.1) := by
  simp only [Known, List.mem_map, List.mem_filterMap]
  constructor
  · rintro ⟨c, hc, label, hdeclared⟩
    exact ⟨_, ⟨c, hc, hdeclared⟩, rfl⟩
  · rintro ⟨⟨_, label⟩, ⟨c, hc, hdeclared⟩, rfl⟩
    exact ⟨c, hc, label, hdeclared⟩

end Clause

open Clause

/-! ## Names of a graph -/

theorem Registry.contains_iff {α : Type} {r : Registry α} :
    r.contains name = true ↔ name ∈ r.names := by
  rw [contains]
  constructor
  · intro h
    obtain ⟨id, hid⟩ := Option.isSome_iff_exists.mp h
    have hname := name?_of_idOf? hid
    rw [name?_eq] at hname
    exact List.mem_of_getElem? hname
  · intro hmem
    obtain ⟨id, hid⟩ := List.getElem?_of_mem hmem
    rw [idOf?_of_name? (by rw [name?_eq, hid])]
    rfl

namespace Graph

/-- A name is registered if a clause of the graph declares it. -/
theorem mem_names_iff (h : g.declarations = firsts (clauses.filterMap declared?)) :
    name ∈ g.nodes.names ↔ Known clauses name := by
  rw [← map_fst_declarations, h, map_fst_firsts, known_iff]

theorem spell_of_idOf? {n : Nat} (h : g.nodes.idOf? name = some n) : g.spell n = name := by
  rw [spell, Registry.name?_of_idOf? h, Option.getD_some]

theorem spell_congr {g' : Graph} (h : g'.declarations = g.declarations) (n : Nat) :
    g'.spell n = g.spell n := by
  rw [spell, spell, Registry.name?_eq, Registry.name?_eq, ← map_fst_declarations, h,
    map_fst_declarations]

/-- **An edge between names is added exactly if both names are registered.** -/
theorem addNamedEdge_cases (g : Graph) (kind : EdgeKind) (source target : String) :
    (source ∈ g.nodes.names ∧ target ∈ g.nodes.names
      ∧ ∃ s, g.addNamedEdge kind source target = .ok s ∧ s.declarations = g.declarations
        ∧ s.edgeClauses = g.edgeClauses ++ [.edge kind source target])
    ∨ ¬ (source ∈ g.nodes.names ∧ target ∈ g.nodes.names)
      ∧ ∃ error, g.addNamedEdge kind source target = .error error := by
  have hmem : ∀ name, name ∈ g.nodes.names ↔ (g.nodes.idOf? name).isSome = true :=
    fun name => Registry.contains_iff.symm
  rw [hmem, hmem]
  rw [addNamedEdge]
  cases hsource : g.nodes.idOf? source with
  | none => exact .inr ⟨by simp, _, rfl⟩
  | some n =>
    cases htarget : g.nodes.idOf? target with
    | none => exact .inr ⟨by simp, _, rfl⟩
    | some m =>
      have hends : n < g.size ∧ m < g.size := by
        have hlt : ∀ {name n}, g.nodes.idOf? name = some n → n < g.size := by
          intro name n hid
          have hname := Registry.name?_of_idOf? hid
          rw [Registry.name?_eq] at hname
          rw [size, ← Registry.length_names]
          exact (List.getElem?_eq_some_iff.mp hname).1
        exact ⟨hlt hsource, hlt htarget⟩
      let e : Edge := ⟨kind, n, m⟩
      have hsame : (g.record e hends).declarations = g.declarations := declarations_record g hends
      refine .inl ⟨rfl, rfl, g.record e hends, dif_pos hends, hsame, ?_⟩
      have hedges : (g.record e hends).edges = g.edges ++ [e] := rfl
      simp only [edgeClauses, hedges, List.map_append, List.map_singleton, spell_congr hsame, e,
        spell_of_idOf? hsource, spell_of_idOf? htarget]

end Graph

/-! ## One line -/

namespace Draft

/-- The draft holds what the clauses say. -/
structure Holds (d : Draft) (clauses : List Clause) : Prop where
  started : d.edgesStarted = clauses.any isEdge
  describes : Describes clauses d.graph

theorem holds_empty : Holds {} [] := ⟨rfl, rfl, rfl⟩

/-- A new node is declared behind the others; a known one is not declared again. -/
theorem Holds.declare (h : d.Holds clauses) (hdeclared : c.declared? = some (name, label))
    (hnode : c.isEdge = false) (hopen : clauses.any isEdge = false) (index : Nat) :
    (d.declare index name label).Holds (clauses ++ [c]) := by
  obtain ⟨hstarted, hnodes, hedges⟩ := h
  have hany : (clauses ++ [c]).any isEdge = clauses.any isEdge := by simp [hnode]
  have hfilter : (clauses ++ [c]).filter isEdge = clauses.filter isEdge := by simp [hnode]
  have hnone : clauses.filter isEdge = [] :=
    List.filter_eq_nil_iff.mpr fun c hc => by simpa using List.any_eq_false.mp hopen c hc
  have hfirsts : firsts ((clauses ++ [c]).filterMap declared?) =
      d.graph.declarations ++ if name ∈ d.graph.nodes.names then [] else [(name, label)] := by
    have hlast : [c].filterMap declared? = [(name, label)] := by simp [hdeclared]
    rw [List.filterMap_append, hlast, firsts_append, ← hnodes]
    simp only [Graph.mem_names_iff hnodes, known_iff]
  unfold Draft.declare
  by_cases hmem : name ∈ d.graph.nodes.names
  · rw [if_pos (Registry.contains_iff.mpr hmem)]
    refine ⟨hstarted.trans hany.symm, ?_, hedges.trans hfilter.symm⟩
    rw [hfirsts, if_pos hmem, List.append_nil]
    rfl
  · rw [if_neg (by rw [Registry.contains_iff]; exact hmem)]
    refine ⟨hstarted.trans hany.symm, ?_, ?_⟩
    · rw [hfirsts, if_neg hmem, Graph.declarations_addNode hmem]
    · have hempty : d.graph.edges = [] := by
        rw [hnone, Graph.edgeClauses, List.map_eq_nil_iff] at hedges
        exact hedges
      have hsame : (d.graph.addNode name label).2.edges = d.graph.edges := rfl
      rw [hfilter, hnone, Graph.edgeClauses, hsame, hempty, List.map_nil]

theorem Holds.warn (h : d.Holds clauses) (index times : Nat) (caution : Caution) :
    (d.warn index times caution).Holds clauses := ⟨h.started, h.describes⟩

/-- A line that spells a clause is taken in as this clause. -/
theorem addLine_of_spells (h : Spells line c) (d : Draft) (index : Nat) : ∃ padded,
    d.addLine index line =
      match c with
      | .label name text => d.addNode index padded name (some text)
      | .hole name => d.addNode index padded name none
      | .edge kind source target => d.addEdge index padded kind source target := by
  obtain ⟨padded, hparse⟩ := h.parse
  refine ⟨padded, ?_⟩
  unfold addLine
  rw [if_neg (by simp [h.not_blank]), hparse]
  cases c <;> rfl

theorem Holds.addNode (h : d.Holds clauses) (hdeclared : c.declared? = some (name, label))
    (hnode : c.isEdge = false) (hopen : clauses.any isEdge = false) (padded : Nat) :
    ∃ d', d.addNode index padded name label = (d', none) ∧ d'.Holds (clauses ++ [c]) := by
  have hd := (h.warn index padded .paddedName).declare hdeclared hnode hopen index
  refine ⟨_, ?_, hd⟩
  unfold Draft.addNode
  rw [if_neg (by simp [h.started, hopen])]

theorem Holds.addNode_of_started (h : d.Holds clauses) (hstarted : clauses.any isEdge = true)
    (padded : Nat) : d.addNode index padded name label = (d, some .lateNode) := by
  unfold Draft.addNode
  rw [if_pos (by rw [h.started, hstarted])]

/-- **A line whose clause may follow is taken in.** -/
theorem Holds.addLine_of_admits (h : d.Holds clauses) (hspells : Spells line c)
    (hadmits : Admits clauses c) (index : Nat) :
    ∃ d', d.addLine index line = (d', none) ∧ d'.Holds (clauses ++ [c]) := by
  obtain ⟨padded, hline⟩ := addLine_of_spells hspells d index
  rw [hline]
  cases c with
  | label name text => exact h.addNode rfl rfl hadmits padded
  | hole name => exact h.addNode rfl rfl hadmits padded
  | edge kind source target =>
    obtain ⟨hsource, htarget⟩ := hadmits
    obtain ⟨-, hnodes, hedges⟩ := h
    rw [← Graph.mem_names_iff hnodes] at hsource htarget
    rcases d.graph.addNamedEdge_cases kind source target with
      ⟨-, -, s, hadd, hdeclarations, hclauses⟩ | ⟨hnot, -⟩
    · refine ⟨{ d.warn index padded .paddedName with edgesStarted := true, graph := s }, ?_, ?_⟩
      · simp [addEdge, Draft.warn, hadd]
      · refine ⟨by simp [isEdge], ?_, ?_⟩
        · rw [List.filterMap_append]
          show s.declarations = firsts (_ ++ [])
          rw [hdeclarations, hnodes, List.append_nil]
        · rw [hclauses, hedges, List.filter_append]
          rfl
    · exact absurd ⟨hsource, htarget⟩ hnot

/-- **A line whose clause may not follow is refused.** -/
theorem Holds.addLine_of_not_admits (h : d.Holds clauses) (hspells : Spells line c)
    (hnot : ¬ Admits clauses c) (index : Nat) :
    ∃ d' fault, d.addLine index line = (d', some fault) := by
  obtain ⟨padded, hline⟩ := addLine_of_spells hspells d index
  rw [hline]
  cases c with
  | label name text =>
    exact ⟨_, _, h.addNode_of_started (by simpa [Admits] using hnot) padded⟩
  | hole name => exact ⟨_, _, h.addNode_of_started (by simpa [Admits] using hnot) padded⟩
  | edge kind source target =>
    rw [Admits, ← Graph.mem_names_iff h.describes.1, ← Graph.mem_names_iff h.describes.1] at hnot
    rcases d.graph.addNamedEdge_cases kind source target with
      ⟨hsource, htarget, -⟩ | ⟨-, error, hadd⟩
    · exact absurd ⟨hsource, htarget⟩ hnot
    · refine ⟨{ d.warn index padded .paddedName with edgesStarted := true }, .refused error, ?_⟩
      simp [addEdge, Draft.warn, hadd]

theorem addLine_of_blank (h : isBlankText line = true) (d : Draft) (index : Nat) :
    d.addLine index line = (d, none) := by
  unfold addLine
  rw [if_pos h]

theorem addLine_of_garbled (hblank : isBlankText line = false) (h : ∀ c, ¬ Spells line c)
    (d : Draft) (index : Nat) : ∃ fault, d.addLine index line = (d, some fault) := by
  unfold addLine
  rw [if_neg (by simp [hblank])]
  cases hparse : Clause.parse line with
  | error fault => exact ⟨fault, rfl⟩
  | ok p => exact absurd (parse_eq_ok_iff.mp ⟨p.padded, hparse⟩) (h p.clause)

end Draft

/-! ## All lines -/

namespace Graph

/-- What the reading of lines comes to: a graph that their clauses describe if none of them breaks a
rule, and otherwise an error that carries the index of the first line that does. -/
def Verdict (lines : List (List Char)) : Except ReadError Graph → Prop
  | .ok g => (∀ i, ¬ BreaksAt lines i) ∧ ∃ clauses, Transcribed lines clauses ∧ Describes clauses g
  | .error e => BreaksAt lines e.index ∧ (∀ i < e.index, ¬ BreaksAt lines i)
      ∧ e.chain.head? = some ("while reading line with index " ++ e.index.repr)

/-- **From any draft on, a reading fails at the first line that breaks a rule.** -/
theorem verdict_readFrom (htranscribed : Transcribed before clauses) (hd : d.Holds clauses)
    (hbefore : ∀ i < before.length, ¬ BreaksAt before i) (rest : List (List Char)) :
    Verdict (before ++ rest) (readFrom d before.length (rest.map .ok)).result := by
  induction rest generalizing before clauses d with
  | nil =>
    rw [List.append_nil]
    refine ⟨fun i => ?_, clauses, htranscribed, hd.describes⟩
    by_cases hi : i < before.length
    · exact hbefore i hi
    · rintro ⟨line, hline, -⟩
      exact hi (List.getElem?_eq_some_iff.mp hline).1
  | cons line rest ih =>
    have hearlier : ∀ i < before.length, ¬ BreaksAt (before ++ line :: rest) i := by
      intro i hi
      rw [breaksAt_append_of_lt hi]
      exact hbefore i hi
    -- the reading goes on if the line is fine
    have hgo : ∀ {d' clauses'}, d.addLine before.length line = (d', none) → d'.Holds clauses' →
        Transcribed (before ++ [line]) clauses' → ¬ Breaks before line →
        Verdict (before ++ line :: rest)
          (readFrom d before.length ((line :: rest).map .ok)).result := by
      intro d' clauses' hadd hd' htranscribed' hline
      have hnext := ih htranscribed' hd' (not_breaksAt_append hbefore hline)
      rw [List.append_assoc, List.singleton_append, List.length_append,
        List.length_singleton] at hnext
      rw [List.map_cons, readFrom_cons hadd]
      exact hnext
    -- and ends there otherwise
    have hstop : ∀ {d' fault}, d.addLine before.length line = (d', some fault) →
        Breaks before line → Verdict (before ++ line :: rest)
          (readFrom d before.length ((line :: rest).map .ok)).result := by
      intro d' fault hadd hline
      rw [List.map_cons, readFrom, hadd]
      exact ⟨breaksAt_append_length.mpr hline, hearlier, rfl⟩
    by_cases hblank : isBlankText line = true
    · exact hgo (Draft.addLine_of_blank hblank d _) hd (htranscribed.append_blank hblank)
        (not_breaks_of_blank hblank)
    rw [Bool.not_eq_true] at hblank
    by_cases hspells : ∃ c, Spells line c
    · obtain ⟨c, hspells⟩ := hspells
      have hbreaks := breaks_iff htranscribed hspells
      by_cases hadmits : Admits clauses c
      · obtain ⟨d', hadd, hd'⟩ := hd.addLine_of_admits hspells hadmits before.length
        refine hgo hadd hd' (htranscribed.append_clause hspells) ?_
        rw [hbreaks, not_not]
        exact hadmits
      · obtain ⟨d', fault, hadd⟩ := hd.addLine_of_not_admits hspells hadmits before.length
        exact hstop hadd (hbreaks.mpr hadmits)
    · rw [not_exists] at hspells
      obtain ⟨fault, hadd⟩ := Draft.addLine_of_garbled hblank hspells d before.length
      exact hstop hadd (.garbled hblank hspells)

/-- The bytes of a text are read like the text. -/
theorem readBytes_toUTF8 (text : String) : readBytes text.toUTF8 = read text := by
  rw [readBytes, byteLines_toUTF8, List.map_map, read]
  rfl

/--
**Reading accepts exactly the language of graph texts.**

The bytes of any text are read like the text, which has one way to be cut into lines. The reading
succeeds if and only if no line breaks a rule: each line that is not blank spells a clause, no node
follows an edge, and the ends of each edge are declared before it. Then the nodes are the first
declarations of each name with their labels, and the edges are all edges, both in the order of the
lines. Otherwise the error carries the index, blank lines included, of the first line that breaks a
rule.
-/
theorem reading_accepts_exactly (text : String) :
    (∀ lines, Cut text.toList lines ↔ lines = Text.lines text.toList)
      ∧ readBytes text.toUTF8 = read text
      ∧ ((∃ g, (read text).result = .ok g) ↔ ∀ i, ¬ BreaksAt (Text.lines text.toList) i)
      ∧ Verdict (Text.lines text.toList) (read text).result := by
  have hverdict : Verdict (Text.lines text.toList) (read text).result :=
    verdict_readFrom .nil Draft.holds_empty (by simp) (Text.lines text.toList)
  refine ⟨fun _ => cut_iff, readBytes_toUTF8 text, ⟨?_, fun hfine => ?_⟩, hverdict⟩
  · rintro ⟨g, hread⟩
    rw [hread] at hverdict
    exact hverdict.1
  · cases hread : (read text).result with
    | ok g => exact ⟨g, rfl⟩
    | error e =>
      rw [hread] at hverdict
      exact absurd hverdict.1 (hfine e.index)

-- the blank line counts, and the line that declares the second name comes too late
example : (match (read "label( x , f).\r\n \u2003\ndom(x, y).\nhole(y).").result with
    | .error e => some e.index
    | .ok _ => none) = some 2 := by
  decide +kernel

end Graph

end Dominance
