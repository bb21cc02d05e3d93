import Dominance.Proofs.CompactGraph
import Dominance.Proofs.Completeness
import Dominance.Proofs.Renumbering

/-!
# Solved forms of compact graphs

A graph and its compact version mirror each other if all constraints are between nodes that stay,
since these constraints are the same in both, except for loops.
That is so in every normal graph.

Constraints at a dropped node are a different matter: they move to the root of the fragment, where
they no longer keep apart what hangs from different nodes of the fragment.

* `Compacts.renumbers` — when a graph and its compact version mirror each other
* `compacting_keeps_solved_forms` — normal graphs have the same solved forms when made compact
* `compacting_keeps_answers` — when the answers stay the same
* `compacting_solves_forked` — a graph that becomes solvable by being made compact
-/

namespace Dominance.Graph

variable {g c : Graph}

/-! ## When nothing changes -/

/-- Whether all constraints are between nodes that stay, without any loop at a root. -/
def constrainsKept (g : Graph) : Bool :=
  g.dominanceEdges.all fun e => g.isKept e.source && g.isKept e.target
    && (e.source ≠ e.target || !g.isRoot e.source)

theorem constrainsKept_iff : g.constrainsKept = true ↔
    ∀ a b, ⟨.dominance, a, b⟩ ∈ g.edges →
      g.isKept a = true ∧ g.isKept b = true ∧ (a = b → g.isRoot a = false) := by
  simp only [constrainsKept, List.all_eq_true, mem_dominanceEdges, Bool.and_eq_true,
    Bool.or_eq_true, decide_eq_true_eq, Bool.not_eq_true', and_assoc]
  constructor
  · intro h a b he
    obtain ⟨ha, hb, hloop⟩ := h ⟨.dominance, a, b⟩ ⟨he, rfl⟩
    exact ⟨ha, hb, fun heq => hloop.resolve_left fun hne => hne heq⟩
  · rintro h ⟨kind, a, b⟩ ⟨he, rfl⟩
    obtain ⟨ha, hb, hloop⟩ := h a b he
    exact ⟨ha, hb, Decidable.not_or_of_imp hloop⟩

/-- The constraints of a normal graph lead from holes to roots, which are different nodes. -/
theorem constrainsKept_of_isNormal (hg : g.isNormal = true) : g.constrainsKept = true := by
  refine constrainsKept_iff.mpr fun a b he => ?_
  have ha := isHole_source hg he
  have hb := isRoot_target (isWeaklyNormal_of_isNormal hg) he
  refine ⟨by rw [isKept, ha, Bool.or_true], isKept_of_isRoot hb, ?_⟩
  rintro rfl
  rw [isHole_eq_false_of_isRoot hg hb] at ha
  cases ha

namespace Compacts

/-- A graph shows in its compact version. -/
theorem simulates (hg : g.isSimple = true) (hkept : g.constrainsKept = true)
    (h : c.Compacts g) : g.Simulates c g.Numbered where
  simple := hg
  lt ha := lt_of_isKept ha.isKept
  unique := Numbered.eq_right
  root ha := by
    have hnumber := numbered_number (isKept_of_isRoot ha)
    exact ⟨_, hnumber, (h.isRoot_iff hg hnumber).mpr ha⟩
  fragment ha hb := (h.mem_fragment_iff hg ha hb).mpr
  edge {a b} he := by
    obtain ⟨ha, hb, hloop⟩ := constrainsKept_iff.mp hkept a b he
    by_cases hab : a = b
    · exact .inr ⟨hab ▸ self_mem_fragment, .inl (hab ▸ hloop hab)⟩
    · have hna := numbered_number ha
      have hnb := numbered_number hb
      refine .inl ⟨_, _, hna, hnb, (h.dominance_iff hg).mpr ⟨fun heq => hab ?_, ?_⟩⟩
      · exact hna.eq_left (heq ▸ hnb)
      · refine ⟨_, mem_dominanceEdges.mpr ⟨he, rfl⟩, ?_⟩
        rw [standIn_eq ha, standIn_eq hb]
        exact ⟨hna, hnb⟩

/-- The compact version of a graph shows in the graph. -/
theorem simulated (hg : g.isSimple = true) (hkept : g.constrainsKept = true)
    (h : c.Compacts g) : c.Simulates g (flip g.Numbered) where
  simple := h.isSimple hg
  lt ha := h.size ▸ Numbered.lt_length ha
  unique := Numbered.eq_left
  root {i} hi := by
    obtain ⟨a, ha⟩ := exists_numbered (h.size ▸ (Graph.isRoot_iff.mp hi).1)
    exact ⟨a, ha, (h.isRoot_iff hg ha).mp hi⟩
  fragment ha hb := (h.mem_fragment_iff hg ha hb).mp
  edge he := by
    obtain ⟨-, ⟨kind, a, b⟩, hd, hi, hj⟩ := (h.dominance_iff hg).mp he
    obtain ⟨hd, rfl⟩ := mem_dominanceEdges.mp hd
    obtain ⟨ha, hb, -⟩ := constrainsKept_iff.mp hkept a b hd
    rw [standIn_eq ha] at hi
    rw [standIn_eq hb] at hj
    exact .inl ⟨a, b, hi, hj, hd⟩

/-- **A graph and its compact version mirror each other**, if all constraints are between nodes that
stay. -/
theorem renumbers (hg : g.isSimple = true) (hkept : g.constrainsKept = true)
    (h : c.Compacts g) : g.Renumbers c g.Numbered g.number where
  forth := h.simulates hg hkept
  back := h.simulated hg hkept
  number_eq := Numbered.number_eq
  lt_of_lt := Numbered.lt_of_lt
  spell_eq := h.spell

end Compacts

/--
**Normal graphs have the same solved forms when they are made compact.**

Making a normal graph compact succeeds. One of the two graphs is solvable if the other one is, and
then the charts count the same number of solved forms. By the names of the nodes, the solved forms
that are enumerated are the same ones, maybe in another order.
-/
theorem compacting_keeps_solved_forms (hg : g.isNormal = true) :
    ∃ c, g.compactify = .ok c
      ∧ (g.solve?.isSome = true ↔ c.solve?.isSome = true)
      ∧ ∀ chart chart', g.solve? = some chart → c.solve? = some chart' →
          chart.count.1 = chart'.count.1
            ∧ ((Readings.start c chart').rest.1.map c.couples).Perm
                ((Readings.start g chart).rest.1.map g.couples) := by
  have hsimple := isSimple_of_isWeaklyNormal (isWeaklyNormal_of_isNormal hg)
  obtain ⟨c, hc, hcompacts⟩ := exists_compactify hsimple
  have hsame := hcompacts.renumbers hsimple (constrainsKept_of_isNormal hg)
  exact ⟨c, hc, hsame.isSome_solve?_iff, fun chart chart' hchart hchart' =>
    ⟨hsame.count_eq hchart hchart', hsame.couples_rest_perm hchart hchart'⟩⟩

/-- As `twoReadings`, with one more node between a root and the hole below it. -/
def deepReadings : Graph :=
  build [("x", some "f"), ("i", some "k"), ("xh", none), ("y", some "g"), ("yh", none),
      ("z", some "a")]
    [⟨.tree, 0, 1⟩, ⟨.tree, 1, 2⟩, ⟨.tree, 3, 4⟩, ⟨.dominance, 2, 5⟩, ⟨.dominance, 4, 5⟩]

theorem compacting_keeps_solved_forms_deepReadings :
    deepReadings.isNormal = true ∧ deepReadings.isCompact = false
      ∧ ∃ c chart chart', deepReadings.compactify = .ok c ∧ deepReadings.solve? = some chart
        ∧ c.solve? = some chart' ∧ chart.count.1 = chart'.count.1
        ∧ ((Readings.start c chart').rest.1.map c.couples).Perm
            ((Readings.start deepReadings chart).rest.1.map deepReadings.couples) := by
  have hnormal : deepReadings.isNormal = true := by decide +kernel
  have hsolve : deepReadings.solve? = some deepReadings.solving.chart :=
    solve?_eq_some_iff.mpr ⟨by decide +kernel, rfl⟩
  obtain ⟨c, hc, hiff, hsame⟩ := compacting_keeps_solved_forms hnormal
  obtain ⟨chart', hsolve'⟩ := Option.isSome_iff_exists.mp (hiff.mp (by rw [hsolve]; rfl))
  obtain ⟨hcount, hperm⟩ := hsame _ chart' hsolve hsolve'
  exact ⟨hnormal, by decide +kernel, c, _, chart', hc, hsolve, hsolve', hcount, hperm⟩

/--
**A compactifiable graph has the same answers when it is made compact, if all its constraints are
between nodes that stay.**
-/
theorem compacting_keeps_answers (hg : g.isCompactifiable = true)
    (hkept : g.constrainsKept = true) :
    ∃ c, g.compactify = .ok c
      ∧ (g.solve?.isSome = true ↔ c.solve?.isSome = true)
      ∧ ∀ chart chart', g.solve? = some chart → c.solve? = some chart' →
          chart.count.1 = chart'.count.1 := by
  rw [isCompactifiable, Bool.and_eq_true] at hg
  obtain ⟨c, hc, hcompacts⟩ := exists_compactify hg.1
  have hsame := hcompacts.renumbers hg.1 hkept
  exact ⟨c, hc, hsame.isSome_solve?_iff, fun chart chart' => hsame.count_eq⟩

/-- A root with a constraint, and a node below it that is dropped. -/
def rootAbove : Graph :=
  build [("x", some "f"), ("i", some "g"), ("z", some "a")] [⟨.tree, 0, 1⟩, ⟨.dominance, 0, 2⟩]

theorem compacting_keeps_answers_rootAbove :
    rootAbove.isCompactifiable = true ∧ rootAbove.constrainsKept = true
      ∧ ∃ c chart chart', rootAbove.compactify = .ok c ∧ rootAbove.solve? = some chart
        ∧ c.solve? = some chart' ∧ chart.count.1 = chart'.count.1 := by
  have hg : rootAbove.isCompactifiable = true := by decide +kernel
  have hkept : rootAbove.constrainsKept = true := by decide +kernel
  have hsolve : rootAbove.solve? = some rootAbove.solving.chart :=
    solve?_eq_some_iff.mpr ⟨by decide +kernel, rfl⟩
  obtain ⟨c, hc, hiff, hsame⟩ := compacting_keeps_answers hg hkept
  obtain ⟨chart', hsolve'⟩ := Option.isSome_iff_exists.mp (hiff.mp (by rw [hsolve]; rfl))
  exact ⟨hg, hkept, c, _, chart', hc, hsolve, hsolve', hsame _ chart' hsolve hsolve'⟩

/-- Two nodes below one root, both above the same node: it cannot be below both of them. -/
def forked : Graph :=
  build [("x", some "f"), ("i", some "g"), ("j", some "h"), ("z", some "a")]
    [⟨.tree, 0, 1⟩, ⟨.tree, 0, 2⟩, ⟨.dominance, 1, 3⟩, ⟨.dominance, 2, 3⟩]

/-- Constraints at nodes that are dropped move to the root, where they no longer exclude each other:
the graph has no solved form, and its compact version has one. -/
theorem compacting_solves_forked :
    forked.isCompactifiable = true ∧ forked.solve?.isNone = true
      ∧ forked.compactify.toOption.bind (fun c => c.solve?.map (·.count.1)) = some 1 := by
  decide +kernel

end Dominance.Graph
