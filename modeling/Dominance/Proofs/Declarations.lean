import Dominance.Clause.Write
import Dominance.Graph.Compact
import Dominance.Proofs.ClauseText

/-!
# What a graph declares

The names and labels of its nodes, in the order of their identifiers, and its edges are all there is
to a graph: the lists of edges at the nodes follow from them.
Declaring a new name adds it at the end; adding edges, or taking all of them away, changes no
declaration.

A graph is legible if the clauses that declare its nodes are.

* `eq_of_declarations_eq` — declarations and edges determine the graph
* `declarations_addNode`, `declarations_connect`, `declarations_bare` — what operations declare
* `Legible.addNode`, `Legible.isName` — legible graphs
-/

namespace Dominance

/-- The clause that declares a node. -/
def Clause.declare : String × Option String → Clause
  | (name, some text) => .label name text
  | (name, none) => .hole name

theorem Clause.Legible.isName {d : String × Option String} (h : (Clause.declare d).Legible) :
    Clause.isName d.1.toList = true := by
  obtain ⟨name, label⟩ := d
  cases label with
  | none => exact h
  | some label => exact h.1

namespace Graph

variable {g g' c : Graph} {edges : List Edge} {n : Nat} {name : String} {label : Option String}

/-- The names of the nodes with their labels, by identifier. -/
def declarations (g : Graph) : List (String × Option String) :=
  g.nodes.entries.toList.map fun entry => (entry.1, entry.2.label)

theorem nodeClauses_eq (g : Graph) : g.nodeClauses = g.declarations.map Clause.declare := by
  rw [nodeClauses, declarations, List.map_map]
  refine List.map_congr_left fun entry _ => ?_
  rcases entry with ⟨name, ⟨_ | text, _, _⟩⟩ <;> rfl

theorem map_fst_declarations (g : Graph) : g.declarations.map (·.1) = g.nodes.names := by
  rw [declarations, List.map_map]
  rfl

theorem length_declarations (g : Graph) : g.declarations.length = g.size := by
  rw [declarations, List.length_map, Array.length_toList, size, Registry.size]

/-- The declaration of a node is listed at its number. -/
theorem getElem?_declarations (hn : n < g.size) :
    g.declarations[n]? = some (g.spell n, g.label n) := by
  have hlt : n < g.nodes.entries.size := hn
  simp [declarations, spell, Graph.label, Registry.name?, Registry.value?,
    Array.getElem?_eq_getElem hlt]

/-- Nodes with the same declaration have the same name. -/
theorem spell_eq_of_getElem? {m : Nat} (hm : m < g'.size) (hn : n < g.size)
    (h : g'.declarations[m]? = g.declarations[n]?) : g'.spell m = g.spell n := by
  rw [getElem?_declarations hm, getElem?_declarations hn] at h
  exact congrArg Prod.fst (Option.some.inj h)

theorem declarations_eq_map (g : Graph) :
    g.declarations = (List.range g.size).map fun n => (g.spell n, g.label n) := by
  refine List.ext_getElem? fun n => ?_
  by_cases hn : n < g.size
  · rw [getElem?_declarations hn, List.getElem?_map, List.getElem?_range hn]
    rfl
  · have hle : g.size ≤ n := Nat.le_of_not_lt hn
    rw [List.getElem?_eq_none (by rwa [length_declarations]),
      List.getElem?_eq_none (by rwa [List.length_map, List.length_range])]

/-- A node is declared with its name and its label. -/
theorem mem_declarations (hn : n < g.size) : (g.spell n, g.label n) ∈ g.declarations :=
  List.mem_of_getElem? (getElem?_declarations hn)

/-- A hole is declared without a label. -/
theorem isHole_eq (g : Graph) (n : Nat) : g.isHole n = g.declarations[n]?.any (·.2.isNone) := by
  rw [isHole, Registry.value?, declarations, List.getElem?_map, Array.getElem?_toList]
  cases g.nodes.entries[n]? <;> rfl

/-- What is stored about a node is its declaration and the edges at it. -/
theorem getElem?_entries (g : Graph) (n : Nat) :
    g.nodes.entries[n]? = g.declarations[n]?.map fun d =>
      (d.1, ⟨d.2, g.edges.filter (·.source = n), g.edges.filter (·.target = n)⟩) := by
  rw [declarations, List.getElem?_map, Array.getElem?_toList, Option.map_map]
  cases h : g.nodes.entries[n]? with
  | none => rfl
  | some entry =>
    have hv : g.nodes.value? n = some entry.2 := by simp [Registry.value?, h]
    simp [← g.coherent.outgoing n _ hv, ← g.coherent.incoming n _ hv]

/-- **Declarations and edges determine the graph.** -/
theorem eq_of_declarations_eq (hd : g.declarations = g'.declarations) (he : g.edges = g'.edges) :
    g = g' := by
  have hentries : g.nodes.entries = g'.nodes.entries :=
    Array.ext_getElem? fun n => by rw [getElem?_entries, getElem?_entries, hd, he]
  obtain ⟨⟨entries, _⟩, edges, _⟩ := g
  obtain ⟨⟨entries', _⟩, edges', _⟩ := g'
  cases hentries
  cases he
  rfl

/-! ## Declaring nodes -/

theorem nodes_addNode (g : Graph) (name : String) (label : Option String) :
    (g.addNode name label).2.nodes = (g.nodes.register name { label }).2 := rfl

/-- A name that is taken is not declared again. -/
theorem declarations_addNode_of_some (hid : g.nodes.idOf? name = some n) :
    (g.addNode name label).2.declarations = g.declarations := by
  rw [declarations, nodes_addNode, Registry.register_of_idOf?_eq_some _ hid, declarations]

theorem declarations_addNode_of_none (hid : g.nodes.idOf? name = none) :
    (g.addNode name label).2.declarations = g.declarations ++ [(name, label)] := by
  rw [declarations, nodes_addNode, Registry.register_of_idOf?_eq_none _ hid]
  simp [declarations]

/-- **A new name is declared last.** -/
theorem declarations_addNode (h : name ∉ g.nodes.names) :
    (g.addNode name label).2.declarations = g.declarations ++ [(name, label)] :=
  declarations_addNode_of_none (Registry.idOf?_eq_none h)

/-- Declaring a node adds no other declaration. -/
theorem mem_declarations_addNode {d : String × Option String}
    (h : d ∈ (g.addNode name label).2.declarations) : d ∈ g.declarations ∨ d = (name, label) := by
  cases hid : g.nodes.idOf? name with
  | some n => exact .inl (declarations_addNode_of_some hid ▸ h)
  | none => simpa [declarations_addNode_of_none hid] using h

/-! ## Edges -/

theorem declarations_record (g : Graph) {e : Edge} (h : e.source < g.size ∧ e.target < g.size) :
    (g.record e h).declarations = g.declarations := by
  refine List.ext_getElem? fun n => ?_
  simp only [declarations, record, listAtEnds, Registry.modify, List.getElem?_map,
    Array.getElem?_toList, Array.getElem?_modify]
  cases g.nodes.entries[n]? <;> split <;> split <;> rfl

/-- **Adding edges changes no declaration.** -/
theorem declarations_connect (h : g.connect edges = .ok c) : c.declarations = g.declarations := by
  induction edges generalizing g with
  | nil =>
    cases h
    rfl
  | cons e edges ih =>
    rw [connect] at h
    split at h
    · next he => rw [ih h, declarations_record g he]
    · cases h

theorem declarations_addNamedEdge {kind : EdgeKind} {source target : String}
    (h : g.addNamedEdge kind source target = .ok c) : c.declarations = g.declarations := by
  rw [addNamedEdge] at h
  split at h
  · cases h
  · cases h
  · rw [addEdge] at h
    split at h
    · next he =>
      cases h
      exact declarations_record g he
    · cases h

theorem declarations_bare (g : Graph) : g.bare.declarations = g.declarations := by
  simp [declarations, bare, Registry.mapValues]

/-! ## Legible graphs -/

/-- The clauses that declare the nodes are legible. -/
def Legible (g : Graph) : Prop := ∀ d ∈ g.declarations, (Clause.declare d).Legible

namespace Legible

theorem empty : Graph.empty.Legible := fun _ hd => by cases hd

theorem congr (h : g.Legible) (hd : c.declarations = g.declarations) : c.Legible :=
  fun d hmem => h d (hd ▸ hmem)

theorem addNode (h : g.Legible) (hd : (Clause.declare (name, label)).Legible) :
    (g.addNode name label).2.Legible := by
  intro d hmem
  rcases mem_declarations_addNode hmem with hold | rfl
  · exact h d hold
  · exact hd

/-- The nodes of a legible graph have names. -/
theorem isName (h : g.Legible) (hn : n < g.size) : Clause.isName (g.spell n).toList = true :=
  (h _ (mem_declarations hn)).isName

end Legible

end Graph

end Dominance
