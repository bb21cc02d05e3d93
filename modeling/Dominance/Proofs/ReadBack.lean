import Dominance.Clause.Read
import Dominance.Proofs.CompactGraph

/-!
# Reading what was written

Reading takes in one line after the other.
A line without a line feed leaves a legible graph legible, so whatever is read from a text is
legible.

A written graph declares its nodes first.
Their names are new one after the other, so that each line adds its declaration at the end.
Then the names at the ends of each edge lead to the identifiers they stand for, and the edge is
added.
In the end the graph that was read has the same declarations and edges as the one that was written,
and that makes it the same graph.

* `legible_addLine`, `legible_of_read` — what is read is legible
* `Legible.compactify`, `Legible.withSolvedForm` — so is every graph derived from it
* `readFrom_declarations`, `readFrom_edges` — reading the lines of the nodes, and of the edges
* `read_write` — a legible graph is read back from its text
* `reading_undoes_writing` — so is every graph that was read, and every graph derived from it
-/

namespace Dominance

variable {d d' : Draft} {g c s : Graph} {f : SolvedForm} {index : Nat} {line : List Char}

/-! ## What is read is legible -/

namespace Draft

theorem legible_declare {name : String} {label : Option String} (h : d.graph.Legible)
    (hd : (Clause.declare (name, label)).Legible) : (d.declare index name label).graph.Legible := by
  rw [declare]
  split
  · exact h
  · exact h.addNode hd

theorem legible_addNode {padded : Nat} {name : String} {label : Option String}
    (h : d.graph.Legible) (hd : (Clause.declare (name, label)).Legible) :
    (d.addNode index padded name label).1.graph.Legible := by
  rw [addNode]
  split
  · exact h
  · exact legible_declare h hd

theorem legible_addEdge {padded : Nat} {kind : EdgeKind} {source target : String}
    (h : d.graph.Legible) : (d.addEdge index padded kind source target).1.graph.Legible := by
  simp only [addEdge]
  split
  · exact h
  · next hadd => exact h.congr (Graph.declarations_addNamedEdge hadd)

/-- **A line leaves a legible graph legible.** -/
theorem legible_addLine (index : Nat) (hline : '\n' ∉ line) (h : d.graph.Legible) :
    (d.addLine index line).1.graph.Legible := by
  rw [addLine]
  split
  · exact h
  split
  · exact h
  · next hparse => exact legible_addNode h (Clause.legible_of_parse hline hparse)
  · next hparse => exact legible_addNode h (Clause.legible_of_parse hline hparse)
  · exact legible_addEdge h

end Draft

namespace Graph

/-- Reading on from a legible graph ends with a legible one. -/
theorem legible_of_readFrom {lines : List InputLine}
    (hlines : ∀ line, .ok line ∈ lines → '\n' ∉ line) (h : d.graph.Legible)
    (hread : (readFrom d index lines).result = .ok g) : g.Legible := by
  induction lines generalizing d index with
  | nil =>
    cases hread
    exact h
  | cons line lines ih =>
    cases line with
    | error fault => cases hread
    | ok line =>
      have hstep := Draft.legible_addLine index (hlines line List.mem_cons_self) h
      rw [readFrom] at hread
      split at hread
      · cases hread
      · next hadd =>
        rw [hadd] at hstep
        exact ih (fun line hmem => hlines line (List.mem_cons_of_mem _ hmem)) hstep hread

/-- **What is read from a text is legible.** -/
theorem legible_of_read {text : String} (h : (read text).result = .ok g) : g.Legible := by
  refine legible_of_readFrom (fun line hmem => ?_) .empty h
  obtain ⟨line', hline', heq⟩ := List.mem_map.mp hmem
  cases heq
  exact Text.not_mem_of_mem_lines hline'

/-! ## Derived graphs are legible -/

namespace Legible

theorem compactNodes (h : g.Legible) : g.compactNodes.Legible := by
  refine List.foldlRecOn (motive := Legible) _ _ .empty fun c hc n hn => ?_
  exact hc.addNode (h _ (mem_declarations (lt_of_isKept (mem_kept.mp hn))))

/-- **The compact version of a legible graph is legible.** -/
theorem compactify (h : g.Legible) (hc : g.compactify = .ok c) : c.Legible := by
  rw [Graph.compactify] at hc
  cases hedges : g.compactEdges with
  | error fault => rw [hedges] at hc; cases hc
  | ok edges =>
    rw [hedges] at hc
    exact h.compactNodes.congr (declarations_connect hc)

/-- **The graph of a solved form of a legible graph is legible.** -/
theorem withSolvedForm (h : g.Legible) (hs : g.withSolvedForm f = .ok s) : s.Legible :=
  h.congr ((declarations_connect hs).trans g.declarations_bare)

end Legible

/-! ## Reading the lines of a written graph -/

/-- The clause as a line of the input. -/
def inputLine (c : Clause) : InputLine := .ok c.render.toList

theorem readFrom_cons {lines : List InputLine} (h : d.addLine index line = (d', none)) :
    readFrom d index (.ok line :: lines) = readFrom d' (index + 1) lines := by
  rw [readFrom, h]

/-- The line of a new node declares it, without a warning. -/
theorem addLine_declare {name : String} {label : Option String}
    (h : (Clause.declare (name, label)).Legible) (hopen : d.edgesStarted = false)
    (hfresh : name ∉ d.graph.nodes.names) :
    d.addLine index (Clause.declare (name, label)).render.toList =
      ({ d with graph := (d.graph.addNode name label).2 }, none) := by
  have hnode : d.addNode index 0 name label =
      ({ d with graph := (d.graph.addNode name label).2 }, none) := by
    simp [Draft.addNode, hopen, Draft.declare, Draft.warn, Registry.contains,
      Registry.idOf?_eq_none hfresh]
  rw [Draft.addLine, if_neg (by simp [h.single_line.2.2]), Clause.parse_render h]
  cases label with
  | none => exact hnode
  | some label => exact hnode

/-- **Reading the lines of new nodes declares them in order, without a warning.** -/
theorem readFrom_declarations (index : Nat) {ds : List (String × Option String)}
    (lines : List InputLine) (hlegible : ∀ x ∈ ds, (Clause.declare x).Legible)
    (hopen : d.edgesStarted = false)
    (hnodup : (ds.map (·.1)).Nodup) (hfresh : ∀ x ∈ ds, x.1 ∉ d.graph.nodes.names) :
    ∃ d', readFrom d index (ds.map (fun x => inputLine (.declare x)) ++ lines) =
        readFrom d' (index + ds.length) lines
      ∧ d'.warnings = d.warnings ∧ d'.graph.declarations = d.graph.declarations ++ ds
      ∧ d'.graph.edges = d.graph.edges := by
  induction ds generalizing d index with
  | nil => exact ⟨d, rfl, rfl, (List.append_nil _).symm, rfl⟩
  | cons x ds ih =>
    obtain ⟨name, label⟩ := x
    obtain ⟨hx, hlegible⟩ := List.forall_mem_cons.mp hlegible
    obtain ⟨hnew, hfresh⟩ := List.forall_mem_cons.mp hfresh
    rw [List.map_cons] at hnodup
    obtain ⟨hother, hnodup⟩ := List.nodup_cons.mp hnodup
    have hdeclared : (d.graph.addNode name label).2.declarations =
        d.graph.declarations ++ [(name, label)] := declarations_addNode hnew
    have hstill : ∀ y ∈ ds, y.1 ∉ (d.graph.addNode name label).2.nodes.names := by
      intro y hy
      rw [← map_fst_declarations, hdeclared, List.map_append, map_fst_declarations,
        List.mem_append, List.map_singleton, List.mem_singleton]
      rintro (hmem | heq)
      · exact hfresh y hy hmem
      · exact hother (heq ▸ List.mem_map_of_mem hy)
    obtain ⟨d', hread, hwarn, hds, hedges⟩ := ih (index + 1)
      (d := { d with graph := (d.graph.addNode name label).2 }) hlegible hopen hnodup hstill
    refine ⟨d', ?_, hwarn, ?_, hedges⟩
    · rw [List.map_cons, List.cons_append, inputLine,
        readFrom_cons (addLine_declare hx hopen hnew), hread, List.length_cons, Nat.add_assoc,
        Nat.add_comm 1]
    · rw [hds, hdeclared, List.append_assoc]
      rfl

/-- The names of two graphs with the same declarations stand for the same nodes. -/
theorem idOf?_spell (hd : c.declarations = g.declarations) {n : Nat} (hn : n < g.size) :
    c.nodes.idOf? (g.spell n) = some n := by
  apply Registry.idOf?_of_name?
  have hlt : n < g.nodes.names.length := by rwa [Registry.length_names]
  rw [Registry.name?_eq, ← map_fst_declarations, hd, map_fst_declarations, spell, Registry.name?_eq,
    List.getElem?_eq_getElem hlt, Option.getD_some]

/-- The line of an edge adds it, without a warning. -/
theorem addLine_edge (index : Nat) (hg : g.Legible)
    (hd : d.graph.declarations = g.declarations) {e : Edge}
    (he : e.source < g.size ∧ e.target < g.size) :
    ∃ s, d.addLine index
        (Clause.edge e.kind (g.spell e.source) (g.spell e.target)).render.toList =
        ({ d with edgesStarted := true, graph := s }, none)
      ∧ s.declarations = g.declarations ∧ s.edges = d.graph.edges ++ [e] := by
  have hlegible : (Clause.edge e.kind (g.spell e.source) (g.spell e.target)).Legible :=
    ⟨hg.isName he.1, hg.isName he.2⟩
  have hsize : d.graph.size = g.size := by
    rw [← length_declarations, hd, length_declarations]
  have he' : e.source < d.graph.size ∧ e.target < d.graph.size := by rwa [hsize]
  have hadd : d.graph.addNamedEdge e.kind (g.spell e.source) (g.spell e.target) =
      .ok (d.graph.record e he') := by
    rw [addNamedEdge, idOf?_spell hd he.1, idOf?_spell hd he.2]
    exact dif_pos he'
  refine ⟨d.graph.record e he', ?_, (declarations_record _ he').trans hd, rfl⟩
  rw [Draft.addLine, if_neg (by simp [hlegible.single_line.2.2]), Clause.parse_render hlegible]
  simp [Draft.addEdge, Draft.warn, hadd]

/-- **Reading the lines of edges adds them in order, without a warning.** -/
theorem readFrom_edges (index : Nat) (hg : g.Legible) {es : List Edge}
    (hes : ∀ e ∈ es, e.source < g.size ∧ e.target < g.size)
    (hd : d.graph.declarations = g.declarations) :
    ∃ s, readFrom d index (es.map fun e =>
          inputLine (.edge e.kind (g.spell e.source) (g.spell e.target))) = ⟨d.warnings, .ok s⟩
      ∧ s.declarations = g.declarations ∧ s.edges = d.graph.edges ++ es := by
  induction es generalizing d index with
  | nil => exact ⟨d.graph, rfl, hd, (List.append_nil _).symm⟩
  | cons e es ih =>
    obtain ⟨he, hes⟩ := List.forall_mem_cons.mp hes
    obtain ⟨s, hadd, hds, hedges⟩ := addLine_edge index hg hd he
    obtain ⟨s', hread, hds', hedges'⟩ := ih (index + 1)
      (d := { d with edgesStarted := true, graph := s }) hes hds
    refine ⟨s', ?_, hds', ?_⟩
    · rw [List.map_cons, inputLine, readFrom_cons hadd, hread]
    · rw [hedges', hedges, List.append_assoc]
      rfl

/-! ## The whole text -/

theorem legible_of_mem_clauses (hg : g.Legible) {clause : Clause} (h : clause ∈ g.clauses) :
    clause.Legible := by
  rw [clauses, List.mem_append, nodeClauses_eq, edgeClauses, List.mem_map, List.mem_map] at h
  rcases h with ⟨x, hx, rfl⟩ | ⟨e, he, rfl⟩
  · exact hg x hx
  · exact ⟨hg.isName (g.coherent.ends e he).1, hg.isName (g.coherent.ends e he).2⟩

/-- The lines of a written graph are its clauses. -/
theorem lines_write (hg : g.Legible) :
    Text.lines g.write.toList = g.clauses.map fun clause => clause.render.toList := by
  have htext : g.write.toList =
      (g.clauses.map fun clause => clause.render.toList).flatMap (· ++ ['\n']) := by
    simp [write, Document.text, document, String.toList_join, List.flatMap_map]
  rw [htext, Text.lines_flatMap]
  intro line hline
  obtain ⟨clause, hclause, rfl⟩ := List.mem_map.mp hline
  have hsingle := (legible_of_mem_clauses hg hclause).single_line
  exact ⟨hsingle.1, by simp [hsingle.2.1]⟩

/-- **A legible graph is read back from its text, without a warning.** -/
theorem read_write (hg : g.Legible) : read g.write = ⟨[], .ok g⟩ := by
  have hnodup : (g.declarations.map (·.1)).Nodup := by
    rw [map_fst_declarations]
    exact g.nodes.distinct
  obtain ⟨d, hnodes, hwarn, hds, hnone⟩ := readFrom_declarations (d := {}) 0
    (g.edgeClauses.map inputLine) hg rfl hnodup fun _ _ hmem => by cases hmem
  obtain ⟨s, hedges, hds', hes⟩ := readFrom_edges (0 + g.declarations.length) hg
    g.coherent.ends hds
  have hs : s = g := eq_of_declarations_eq hds' (by rw [hes, hnone]; rfl)
  have hlines : (Text.lines g.write.toList).map .ok =
      g.declarations.map (fun x => inputLine (.declare x)) ++ g.edgeClauses.map inputLine := by
    rw [lines_write hg, clauses, nodeClauses_eq, List.map_append, List.map_append, List.map_map,
      List.map_map, List.map_map]
    rfl
  rw [read, hlines, hnodes, edgeClauses, List.map_map]
  rw [hs, hwarn] at hedges
  exact hedges

/--
**Reading undoes writing.**

A graph that was read from any text is read back from its own text, and so are its compact version,
if it has one, and its graph for any solved form with links between its nodes: each time without a
warning, and with the same names, labels and edges in the same order.
-/
theorem reading_undoes_writing {text : String} (h : (read text).result = .ok g) :
    read g.write = ⟨[], .ok g⟩
      ∧ (∀ c, g.compactify = .ok c → read c.write = ⟨[], .ok c⟩)
      ∧ ∀ f : SolvedForm, (∀ l ∈ f.links, l.source < g.size ∧ l.target < g.size) →
          ∃ s, g.withSolvedForm f = .ok s ∧ read s.write = ⟨[], .ok s⟩ := by
  have hg := legible_of_read h
  refine ⟨read_write hg, fun c hc => read_write (hg.compactify hc), fun f hf => ?_⟩
  obtain ⟨s, hs, -⟩ := exists_realizes hf
  exact ⟨s, hs, read_write (hg.withSolvedForm hs)⟩

/-- A text with blanks where they are allowed, a name that comes twice, a label with a carriage
return in it, and a digit of another script. -/
def paddedText : String :=
  "label( x , some f).\r\n\nhole(xh).\n label(y\u0663,\ta\rb ).\nhole(x).\n"
    ++ "tree(x,xh).\ndom(xh, y\u0663)."

theorem reading_undoes_writing_padded :
    ∃ g, (read paddedText).result = .ok g ∧ g.size = 3 ∧ (read paddedText).warnings.length = 2
      ∧ read g.write = ⟨[], .ok g⟩
      ∧ (∃ s, g.withSolvedForm (.ofLinks [⟨1, 2⟩]) = .ok s ∧ read s.write = ⟨[], .ok s⟩) := by
  have hsize : (read paddedText).result.toOption.map size = some 3 := by decide +kernel
  have hwarn : (read paddedText).warnings.length = 2 := by decide +kernel
  cases hread : (read paddedText).result with
  | error e =>
    rw [hread] at hsize
    cases hsize
  | ok g =>
    rw [hread] at hsize
    have hg : g.size = 3 := Option.some.inj hsize
    obtain ⟨hback, -, hsolved⟩ := reading_undoes_writing hread
    refine ⟨g, rfl, hg, hwarn, hback, hsolved _ ?_⟩
    rw [hg]
    decide +kernel

end Graph

end Dominance
