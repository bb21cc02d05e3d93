import Dominance.Proofs.Bookkeeping
import Dominance.Proofs.Enumeration

/-!
# The enumeration follows a recursion

The solved forms of a chart are given by a recursion on an agenda that knows no machine: a subgraph
with one root adds a link to every solution of the rest, and any other subgraph is split in each of
its ways, which puts the components with more roots on the agenda, the last one first.
`Enumerates` is this recursion as a relation, so that nothing bounds its depth.

In a chart that does not refer to itself in a circle the recursion comes to its end, with one
result.
The machine goes through this result from its first to its last solved form, whether or not the
splits of the chart are those of the graph.
Its loop ends each time, without the bound on its steps.

* `Enumerates.unique`, `Navigable.enumerates` — the recursion and its result
* `Machine.Exhausts` — the loop of the machine without a bound
* `next_after` — each call of `next`, and the loop behind it
* `machine_follows_recursion` — the machine and the recursion
-/

namespace Dominance

variable {c : Chart} {g : Graph} {m : Machine} {agenda : List Pending}
  {forms forms' : List (List Link)}

namespace Chart

/-! ## The recursion -/

/-- The links of each solution of an agenda, by recursion. -/
inductive Enumerates (c : Chart) (g : Graph) : List Pending → List (List Link) → Prop
  | nil : Enumerates c g [] [[]]
  | sole {dominator : Option Nat} {s : Subgraph} {root : Nat} {agenda : List Pending}
    {forms : List (List Link)} (hroot : g.rootsIn s = [root])
    (hrest : Enumerates c g agenda forms) :
    Enumerates c g (⟨dominator, s⟩ :: agenda) (forms.map (Machine.linksTo dominator root ++ ·))
  | split {dominator : Option Nat} {s : Subgraph} {agenda : List Pending}
    {forms : Split → List (List Link)} (hroots : (g.rootsIn s).length ≠ 1)
    (hrest : ∀ split ∈ c.splitsFor s, Enumerates c g (g.unsettled split ++ agenda) (forms split)) :
    Enumerates c g (⟨dominator, s⟩ :: agenda) ((c.splitsFor s).flatMap fun split =>
      (forms split).map (Machine.linksTo dominator split.root ++ g.settled split ++ ·))

/-- The recursion has one result only. -/
theorem Enumerates.unique (h : c.Enumerates g agenda forms) (h' : c.Enumerates g agenda forms') :
    forms' = forms := by
  induction h generalizing forms' with
  | nil =>
    cases h'
    rfl
  | sole hroot _ ih =>
    cases h' with
    | sole hroot' hrest =>
      rw [hroot] at hroot'
      cases hroot'
      rw [ih hrest]
    | split hroots => simp [hroot] at hroots
  | split hroots _ ih =>
    cases h' with
    | sole hroot' => simp [hroot'] at hroots
    | split _ hrest =>
      refine List.flatMap_congr fun split hsplit => ?_
      rw [ih split hsplit (hrest split hsplit)]

/-- **The recursion comes to its end**, with the solutions of the agenda. -/
theorem Navigable.enumerates (hc : c.Navigable g) (agenda : List Pending) :
    c.Enumerates g agenda (c.unfolded g agenda) := by
  obtain ⟨rank, hr⟩ := hc.ranked
  induction agenda using hr.agenda_induction g with
  | nil =>
    rw [unfolded_nil]
    exact .nil
  | sole entry agenda root hroot ih =>
    rw [hr.unfolded_cons_of_sole hroot]
    exact .sole (Graph.soleRoot?_eq_some_iff.mp hroot) ih
  | split entry agenda hroot ih =>
    rw [hr.unfolded_cons_of_split hroot]
    exact .split (Graph.soleRoot?_eq_none_iff.mp hroot) ih

end Chart

/-! ## The loop of the machine -/

namespace Machine

/-- The loop that works the agenda off comes to its end, however many steps it takes. -/
inductive Exhausts (g : Graph) (c : Chart) : Machine → Machine → Prop
  | finished {m : Machine} (h : m.agenda = []) : Exhausts g c m m
  | step {m m' : Machine} {entry : Pending} {agenda : List Pending} (h : m.agenda = entry :: agenda)
    (hrest : Exhausts g c (stepDown g c m entry agenda) m') : Exhausts g c m m'

/-- A bound on the steps makes no difference unless it is used up. -/
theorem exhausts_descendWithin (steps : Nat)
    (h : (descendWithin g c steps m).halt ≠ some .endless) :
    Exhausts g c m (descendWithin g c steps m) := by
  induction steps generalizing m with
  | zero =>
    unfold descendWithin at h ⊢
    split
    · next hempty => exact .finished (by simpa using hempty)
    · next hempty => simp [hempty, stop] at h
  | succ steps ih =>
    unfold descendWithin at h ⊢
    split
    · next hnil => exact .finished hnil
    · next entry agenda hcons =>
      simp only [hcons] at h
      exact .step hcons (ih h)

theorem Running.exhausts (hc : c.Unfoldable g) (hm : Running c m) :
    Exhausts g c m (descend g c m) := by
  refine exhausts_descendWithin _ ?_
  have hspec := descend_spec hc hm
  unfold descend at hspec
  rcases hspec with hstranded | ⟨hfollows, -⟩
  · obtain ⟨s, -, -, -, hhalt⟩ := hstranded.halt
    simp [hhalt]
  · simp [hfollows.running.halt]

/-- Going back, too, is followed by a loop that ends; behind the last solved form there is nothing
to work off. -/
theorem exhausts_retry (hc : c.Unfoldable g) (hm : Running c m) :
    Exhausts g c (retry g m m.choices) (descend g c (retry g m m.choices)) := by
  rcases retry_cases hc hm.halt hm.choices with ⟨-, hretry⟩ | ⟨hrun, -, -⟩
  · rw [hretry, descend_of_agenda_nil rfl]
    exact .finished rfl
  · exact hrun.exhausts hc

end Machine

/-! ## Calls of `next` -/

namespace Readings

/-- The readings after a number of calls of `next`. -/
def after : Nat → Readings → Readings
  | 0, r => r
  | calls + 1, r => after calls r.next.2

theorem after_succ (r : Readings) (calls : Nat) : r.after (calls + 1) = (r.after calls).next.2 := by
  induction calls generalizing r with
  | zero => rfl
  | succ calls ih => exact ih r.next.2

/-- **Each call of `next` returns the next of the solutions ahead, and none when they are used
up.** -/
theorem next_after {r : Readings} (hc : r.sequence.chart.Navigable r.sequence.graph)
    (h : r.sequence.Returns forms) (calls : Nat) :
    (r.after calls).next.1 = forms[calls]?.map SolvedForm.ofLinks
      ∧ (r.after calls).sequence.Returns (forms.drop calls)
      ∧ (r.after calls).sequence.chart = r.sequence.chart
      ∧ (r.after calls).sequence.graph = r.sequence.graph := by
  induction calls generalizing r forms with
  | zero =>
    obtain ⟨hform, -⟩ := Enumeration.returns_next hc h
    refine ⟨?_, h, rfl, rfl⟩
    rw [← List.head?_eq_getElem?]
    exact hform
  | succ calls ih =>
    obtain ⟨-, hrest, hchart, hgraph⟩ := Enumeration.returns_next hc h
    have hsequence : r.next.2.sequence = r.sequence.next.2 := rfl
    rw [← hsequence] at hrest hchart hgraph
    obtain ⟨hform, hreturns, hchart', hgraph'⟩ := ih (by rwa [hchart, hgraph]) hrest
    refine ⟨?_, ?_, hchart'.trans hchart, hgraph'.trans hgraph⟩
    · rw [← List.getElem?_tail]
      exact hform
    · rw [← List.drop_tail]
      exact hreturns

end Readings

open Machine in
/--
**The machine follows the recursion.**

The chart need not have been filled for the graph: it is enough that what its top-level subgraphs
lead to has nodes of the graph only, and splits unless it has exactly one root, and that the chart
does not refer to itself in a circle. Then the recursion on its top-level subgraphs, in the order of
registration and without dominators, comes to its end with one result. The calls of `next` return
this result, form by form, in the same order and as often, and nothing after it. The loop of the
machine ends without a bound on its steps, at the start as well as behind each solved form.
-/
theorem machine_follows_recursion (hnodes : ∀ s, c.Reaches s → ∀ n ∈ s, n < g.size)
    (hacyclic : c.Acyclic)
    (hsplits : ∀ s, c.Reaches s → (g.rootsIn s).length ≠ 1 → c.splitsFor s ≠ []) :
    ∃ forms, c.Enumerates g (c.toplevel.map fun s => ⟨none, s⟩) forms
      ∧ (∀ forms', c.Enumerates g (c.toplevel.map fun s => ⟨none, s⟩) forms' → forms' = forms)
      ∧ (∀ k, ((Readings.start g c).after k).next.1 = forms[k]?.map SolvedForm.ofLinks)
      ∧ Exhausts g c (start c) (Readings.start g c).sequence.machine
      ∧ ∀ k < forms.length,
          Exhausts g c
            (retry g ((Readings.start g c).after k).sequence.machine
              ((Readings.start g c).after k).sequence.machine.choices)
            ((Readings.start g c).after (k + 1)).sequence.machine := by
  have hc : c.Navigable g := by
    refine ⟨hnodes, fun s hs hroot => ?_, ⟨_, hacyclic.ranked⟩⟩
    exact hsplits s hs (Graph.soleRoot?_eq_none_iff.mp hroot)
  have hresult := hc.enumerates (Machine.start c).agenda
  have hreturns : (Readings.start g c).sequence.Returns (c.unfolded g (Machine.start c).agenda) :=
    Enumeration.returns_start hc
  have hafter := Readings.next_after (r := Readings.start g c) hc hreturns
  refine ⟨_, hresult, fun _ => hresult.unique, fun k => (hafter k).1, ?_, fun k hk => ?_⟩
  · show Exhausts g c (start c) ((start c).advance g c)
    rw [advance_start]
    exact (running_start c).exhausts hc.unfoldable
  · obtain ⟨-, hrest, hchart, hgraph⟩ := hafter k
    rw [List.drop_eq_getElem_cons hk] at hrest
    obtain ⟨hready, hrun, hnil, -⟩ := hrest
    have hrun : Running c ((Readings.start g c).after k).sequence.machine := by
      rw [hchart] at hrun
      exact hrun
    rw [Readings.after_succ]
    simp only [Readings.next, Enumeration.next, hready, hchart, hgraph]
    show Exhausts g c _ (Machine.advance g c _)
    rw [advance_of_agenda_nil hnil]
    exact exhausts_retry hc.unfoldable hrun

namespace Chart

/-- A chart for two fragments above a third one that was not filled by solving: one split comes
twice, and one puts the lowest fragment on top of another one. -/
def repeating : Chart :=
  run [.addToplevel (.range 5),
    .addSplit (.range 5) ((Split.bare 2).attach 3 (.ofList [0, 1, 4])),
    .addSplit (.range 5) ((Split.bare 0).attach 1 (.ofList [2, 3, 4])),
    .addSplit (.range 5) ((Split.bare 2).attach 3 (.ofList [0, 1, 4])),
    .addSplit (.ofList [0, 1, 4]) ((Split.bare 0).attach 1 (.ofList [4])),
    .addSplit (.ofList [0, 1, 4]) ((Split.bare 4).attach 4 (.ofList [0, 1])),
    .addSplit (.ofList [2, 3, 4]) ((Split.bare 2).attach 3 (.ofList [4]))]

end Chart

theorem machine_follows_recursion_repeating :
    Chart.repeating.Acyclic
      ∧ ∃ forms, Chart.repeating.Enumerates Graph.twoReadings [⟨none, .range 5⟩] forms
          ∧ forms.length = 5
          ∧ ∀ k, ((Readings.start Graph.twoReadings Chart.repeating).after k).next.1 =
              forms[k]?.map SolvedForm.ofLinks := by
  have hacyclic : Chart.repeating.Acyclic :=
    (Chart.ranked_of_table Subgraph.size (by decide +kernel)).acyclic
  have hnodes : ∀ s, Chart.repeating.Reaches s → ∀ n ∈ s.ids, n < Graph.twoReadings.size := by
    intro s hs
    refine Chart.Reaches.of_table (P := fun s => ∀ n ∈ s.ids, n < Graph.twoReadings.size)
      ?_ ?_ hs <;> decide +kernel
  have hsplits : ∀ s, Chart.repeating.Reaches s →
      (Graph.twoReadings.rootsIn s).length ≠ 1 → Chart.repeating.splitsFor s ≠ [] := by
    intro s hs
    refine Chart.Reaches.of_table
      (P := fun s => (Graph.twoReadings.rootsIn s).length ≠ 1 → Chart.repeating.splitsFor s ≠ [])
      ?_ ?_ hs <;> decide +kernel
  obtain ⟨forms, hforms, -, hnext, -⟩ := machine_follows_recursion hnodes hacyclic hsplits
  refine ⟨hacyclic, forms, hforms, ?_, hnext⟩
  have hlast :
      ((Readings.start Graph.twoReadings Chart.repeating).after 4).next.1.isSome = true := by
    decide +kernel
  have hend : ((Readings.start Graph.twoReadings Chart.repeating).after 5).next.1 = none := by
    decide +kernel
  rw [hnext] at hlast hend
  simp at hlast hend
  omega

end Dominance
