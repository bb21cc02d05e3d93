import Dominance.Proofs.References
import Dominance.Proofs.Worklist

/-!
# The chart of a graph is a closure

What solving has to split is described without any chart: the components of the graph are needed,
and with a subgraph that has not exactly one root, so are the components of its splits.
A filled chart stores the answers of its source for what is needed, and nothing else, whatever the
order in which it was filled.

Solving fails exactly if something needed has no split.
Unlike `solved_iff` this holds in any graph: no solution is constructed, only the answers of the
source are looked at.

* `Needed` — the least family of subgraphs that have to be split
* `addsFor_fill` — what filling from one subgraph stores
* `Needed.whole` — what is needed is nonempty, connected and made of whole fragments
* `Chart.Closure` — the chart stores what is needed
* `solved_iff_answered`, `closure_solveInto` — when solving succeeds, and what it then stores
* `chart_is_closure` — the same for the chart of all splits, filled by the loop
-/

namespace Dominance

/-! ## What is needed -/

namespace Graph

variable {g : Graph} {answer answer' : Subgraph → List Split} {s : Subgraph}

/-- The least family of subgraphs that contains the components of the graph and, with every
subgraph that has not exactly one root, the components of the splits given for it. -/
inductive Needed (g : Graph) (answer : Subgraph → List Split) : Subgraph → Prop
  | component {s : Subgraph} (h : s ∈ g.wholeComponents) : Needed g answer s
  | part {s w : Subgraph} {split : Split} (hs : Needed g answer s)
    (hroots : (g.rootsIn s).length ≠ 1) (hsplit : split ∈ answer s)
    (hw : w ∈ split.components) : Needed g answer w

/-- What has to be split for one subgraph: the subgraph itself and, with everything that has not
exactly one root, the components of the splits given for it. -/
inductive NeededFor (g : Graph) (answer : Subgraph → List Split) (s : Subgraph) : Subgraph → Prop
  | self : NeededFor g answer s s
  | part {t w : Subgraph} {split : Split} (ht : NeededFor g answer s t)
    (hroots : (g.rootsIn t).length ≠ 1) (hsplit : split ∈ answer t)
    (hw : w ∈ split.components) : NeededFor g answer s w

theorem NeededFor.trans {t w : Subgraph} (hs : g.NeededFor answer s t)
    (ht : g.NeededFor answer t w) : g.NeededFor answer s w := by
  induction ht with
  | self => exact hs
  | part _ hroots hsplit hw ih => exact .part ih hroots hsplit hw

theorem Needed.of_neededFor {t : Subgraph} (hs : g.Needed answer s)
    (ht : g.NeededFor answer s t) : g.Needed answer t := by
  induction ht with
  | self => exact hs
  | part _ hroots hsplit hw ih => exact .part ih hroots hsplit hw

/-- More splits need more subgraphs. -/
theorem Needed.mono (hsub : ∀ s, (answer s).Sublist (answer' s)) (h : g.Needed answer s) :
    g.Needed answer' s := by
  induction h with
  | component h => exact .component h
  | part _ hroots hsplit hw ih => exact .part ih hroots ((hsub _).subset hsplit) hw

/-- What is needed is whole. -/
theorem Needed.whole (hsub : ∀ s, (answer s).Sublist (g.splits s)) (h : g.Needed answer s) :
    g.Whole s := by
  induction h with
  | component h => exact whole_of_mem_wholeComponents h
  | part _ _ hsplit hw ih => exact ih.of_mem_components ((hsub _).subset hsplit) hw

/-- A whole subgraph is a union of fragments. -/
theorem Whole.exists_fragment (h : g.Whole s) {n : Nat} (hn : n ∈ s) :
    ∃ t ∈ g.fragments, n ∈ t ∧ ∀ m ∈ t, m ∈ s :=
  ⟨g.fragment n, fragment_mem_fragments (h.lt n hn), self_mem_fragment, h.fragment_subset hn⟩

end Graph

/-! ## Charts that store what is needed -/

namespace Chart

variable {c : Chart} {g : Graph} {answer : Subgraph → List Split} {s : Subgraph}

/-- The chart stores the given splits of all that is needed and has not exactly one root, and
nothing else. -/
structure Closure (c : Chart) (g : Graph) (answer : Subgraph → List Split) : Prop where
  toplevel : c.toplevel = g.wholeComponents
  stored_iff : ∀ s, c.hasSplits s = true ↔ g.Needed answer s ∧ (g.rootsIn s).length ≠ 1
  given : ∀ s, c.hasSplits s = true → c.splitsFor s = answer s

/-- A complete chart refers to all that is needed. -/
theorem Complete.mentions (h : c.Complete g) (htop : c.toplevel = g.wholeComponents)
    (hgiven : ∀ s, c.hasSplits s = true → c.splitsFor s = answer s) (hs : g.Needed answer s) :
    c.Mentions s := by
  induction hs with
  | component hs => exact .inl (htop ▸ hs)
  | @part s w split _ hroots hsplit hw ih =>
    have hstored := h.splitsFor_ne_nil ih (Graph.soleRoot?_eq_none_iff.mpr hroots)
    rw [← hgiven s (hasSplits_iff.mpr hstored)] at hsplit
    exact .inr ⟨s, split, hsplit, hw⟩

/-- **A complete chart is a closure if all that it stores is needed.** -/
theorem Complete.closure (h : c.Complete g) (htop : c.toplevel = g.wholeComponents)
    (hgiven : ∀ s, c.hasSplits s = true → c.splitsFor s = answer s)
    (hneeded : ∀ s, c.hasSplits s = true → g.Needed answer s) : c.Closure g answer where
  toplevel := htop
  given := hgiven
  stored_iff s := by
    constructor
    · intro hs
      obtain ⟨split, hsplit⟩ := List.exists_mem_of_ne_nil _ (hasSplits_iff.mp hs)
      exact ⟨hneeded s hs, Graph.soleRoot?_eq_none_iff.mp (h.sound s split hsplit).2⟩
    · rintro ⟨hs, hroots⟩
      refine hasSplits_iff.mpr (h.splitsFor_ne_nil (h.mentions htop hgiven hs) ?_)
      exact Graph.soleRoot?_eq_none_iff.mpr hroots

end Chart

/-! ## Filling stays within what is needed -/

/-- The answers of the source do not depend on what it remembers. -/
def SplitSource.Steady {σ : Type} (source : SplitSource σ) (answer : Subgraph → List Split) :
    Prop :=
  ∀ memory s, (source.answer memory s).1 = answer s

theorem SplitSource.steady_complete (g : Graph) : (complete g).Steady g.splits := fun _ _ => rfl

namespace Graph

variable {σ : Type} {g : Graph} {source : SplitSource σ} {answer : Subgraph → List Split}
  {s : Subgraph} {f : Filling σ}

/-- Between two fillings, only what is needed for a subgraph was stored, and filling got stuck only
at something needed for it that has no splits. -/
structure AddsFor (g : Graph) (answer : Subgraph → List Split) (s : Subgraph)
    (f f' : Filling σ) : Prop where
  stored : ∀ t, f'.chart.hasSplits t = true →
    f.chart.hasSplits t = true ∨ g.NeededFor answer s t
  stuck : ∀ t, f'.stuck = some t →
    f.stuck = some t ∨ g.NeededFor answer s t ∧ (g.rootsIn t).length ≠ 1 ∧ answer t = []

namespace AddsFor

theorem refl (s : Subgraph) (f : Filling σ) : AddsFor g answer s f f :=
  ⟨fun _ => .inl, fun _ => .inl⟩

theorem trans {f' f'' : Filling σ} (h : AddsFor g answer s f f')
    (h' : AddsFor g answer s f' f'') : AddsFor g answer s f f'' where
  stored t ht := (h'.stored t ht).elim (h.stored t) .inr
  stuck t ht := (h'.stuck t ht).elim (h.stuck t) .inr

/-- What is needed for something needed is needed. -/
theorem of_neededFor {f' : Filling σ} {t : Subgraph} (ht : g.NeededFor answer s t)
    (h : AddsFor g answer t f f') : AddsFor g answer s f f' where
  stored w hw := (h.stored w hw).imp_right ht.trans
  stuck w hw := (h.stuck w hw).imp_right (And.imp_left ht.trans)

end AddsFor

/-- **Filling from a subgraph stores only what is needed for it.** -/
theorem addsFor_fill (hsteady : source.Steady answer) (depth : Nat) (s : Subgraph)
    (f : Filling σ) : AddsFor g answer s f (g.fill source depth s f) := by
  induction depth generalizing s f with
  | zero => exact .refl s f
  | succ depth ih =>
    obtain ⟨-, he⟩ | ⟨hstuck, -, hsole, ⟨hnil, he⟩ | ⟨-, he⟩⟩ := fill_cases g source depth s f
    · rw [he]
      exact .refl s f
    · rw [he]
      refine ⟨fun t ht => .inl ht, fun t ht => ?_⟩
      obtain rfl : s = t := Option.some.inj ht
      exact .inr ⟨.self, soleRoot?_eq_none_iff.mp hsole, by rw [← hsteady f.memory s, hnil]⟩
    · rw [he, hsteady f.memory s]
      refine List.foldrRecOn (motive := AddsFor g answer s f) _ _
        ⟨fun t ht => ?_, fun t ht => .inl ht⟩ fun f' hf' w hw => ?_
      · by_cases hst : s = t
        · exact .inr (hst ▸ .self)
        · rw [Chart.hasSplits, Chart.splitsFor_addSplits, if_neg hst] at ht
          exact .inl ht
      · obtain ⟨split, hsplit, hw⟩ := List.mem_flatMap.mp hw
        have hneeded := NeededFor.part .self (soleRoot?_eq_none_iff.mp hsole) hsplit hw
        exact hf'.trans (.of_neededFor hneeded (ih w f'))

/-- All that is stored is needed, and filling gets stuck only at what is needed and has no
splits. -/
structure Within (g : Graph) (answer : Subgraph → List Split) (f : Filling σ) : Prop where
  stored : ∀ t, f.chart.hasSplits t = true → g.Needed answer t
  stuck : ∀ t, f.stuck = some t →
    g.Needed answer t ∧ (g.rootsIn t).length ≠ 1 ∧ answer t = []

theorem within_opening (g : Graph) (answer : Subgraph → List Split) (memory : σ) :
    Within g answer (g.opening memory) where
  stored t ht := by
    rw [hasSplits_opening] at ht
    cases ht
  stuck t ht := by cases ht

/-- **Filling from what is needed stays within what is needed.** -/
theorem within_fill (hsteady : source.Steady answer) (depth : Nat) (hs : g.Needed answer s)
    (h : Within g answer f) : Within g answer (g.fill source depth s f) := by
  have hadds := addsFor_fill (g := g) hsteady depth s f
  refine ⟨fun t ht => ?_, fun t ht => ?_⟩
  · exact (hadds.stored t ht).elim (h.stored t) hs.of_neededFor
  · exact (hadds.stuck t ht).elim (h.stuck t) (And.imp_left hs.of_neededFor)

theorem within_solveInto (hsteady : source.Steady answer) (memory : σ) :
    Within g answer (g.solveInto source memory .empty) :=
  List.foldrRecOn _ _ (within_opening g answer memory) fun _ hf _ hw =>
    within_fill hsteady g.size (.component hw) hf

/-- What a new chart stores is given by the source. -/
theorem splitsFor_solveInto_of_steady (hsteady : source.Steady answer) {memory : σ}
    (h : (g.solveInto source memory .empty).chart.hasSplits s = true) :
    (g.solveInto source memory .empty).chart.splitsFor s = answer s := by
  obtain ⟨-, memory', hans⟩ := splitsFor_solveInto h
  rw [hans, hsteady]

/-- **A filled chart stores the answers for what is needed, and nothing else.** -/
theorem closure_solveInto (hsel : source.Selects g) (hsteady : source.Steady answer) {memory : σ}
    (h : (g.solveInto source memory .empty).solved = true) :
    (g.solveInto source memory .empty).chart.Closure g answer :=
  (complete_solveInto hsel h).closure (toplevel_solveInto g source memory)
    (fun _ => splitsFor_solveInto_of_steady hsteady) (within_solveInto hsteady memory).stored

/-- **Solving succeeds exactly if the source has an answer for all that is needed.** -/
theorem solved_iff_answered (hsel : source.Selects g) (hsteady : source.Steady answer)
    (memory : σ) :
    (g.solveInto source memory .empty).solved = true ↔
      ∀ s, g.Needed answer s → (g.rootsIn s).length ≠ 1 → answer s ≠ [] := by
  constructor
  · intro h s hs hroots
    have hstored := ((closure_solveInto hsel hsteady h).stored_iff s).mpr ⟨hs, hroots⟩
    rw [← splitsFor_solveInto_of_steady hsteady hstored]
    exact Chart.hasSplits_iff.mp hstored
  · intro h
    refine Option.isNone_iff_eq_none.mpr ?_
    cases hstuck : (g.solveInto source memory .empty).stuck with
    | none => rfl
    | some t =>
      obtain ⟨ht, hroots, hnil⟩ := (within_solveInto hsteady memory).stuck t hstuck
      exact absurd hnil (h t ht hroots)

/--
**The chart of a graph is the closure of its components under splitting.**

The loop that fills a new chart with all splits of a graph always comes to its end. It succeeds
exactly if every needed subgraph that has not exactly one root has a split. The chart then stores
these subgraphs and no others, each with all its splits in order, and its top-level subgraphs are
the components of the graph. What is needed is nonempty, connected and made of whole fragments.
-/
theorem chart_is_closure (g : Graph) :
    Worklist.Ends g (.complete g) ⟨g.wholeComponents.reverse, g.opening ()⟩ g.solving
      ∧ (g.solving.solved = true ↔
          ∀ s, g.Needed g.splits s → (g.rootsIn s).length ≠ 1 → g.splits s ≠ [])
      ∧ (g.solving.solved = true →
          (∀ s, s ∈ g.solving.chart.subgraphs ↔
              g.Needed g.splits s ∧ (g.rootsIn s).length ≠ 1)
            ∧ (∀ s ∈ g.solving.chart.subgraphs, g.solving.chart.splitsFor s = g.splits s)
            ∧ g.solving.chart.toplevel = g.wholeComponents)
      ∧ ∀ s, g.Needed g.splits s →
          (∃ n, n ∈ s) ∧ g.Connected s
            ∧ ∀ n ∈ s, ∃ t ∈ g.fragments, n ∈ t ∧ ∀ m ∈ t, m ∈ s := by
  have hsel := SplitSource.selects_complete g
  have hsteady := SplitSource.steady_complete g
  have hconsistent : g.solving.chart.Consistent := Chart.consistent_solveInto g _ ()
  refine ⟨Worklist.ends_solveInto hsel () .empty, solved_iff_answered hsel hsteady (), ?_, ?_⟩
  · intro hsolved
    have hclosure : g.solving.chart.Closure g g.splits := closure_solveInto hsel hsteady hsolved
    refine ⟨fun s => ?_, fun s hs => ?_, hclosure.toplevel⟩
    · rw [hconsistent.mem_subgraphs_iff, hclosure.stored_iff]
    · exact hclosure.given s (hconsistent.mem_subgraphs_iff.mp hs)
  · intro s hs
    have hwhole := hs.whole fun _ => .refl _
    exact ⟨hwhole.nonempty, hwhole.connected, fun n hn => hwhole.exists_fragment hn⟩

theorem chart_is_closure_twoReadings :
    twoReadings.solving.solved = true
      ∧ (∀ s, s ∈ twoReadings.solving.chart.subgraphs ↔
          twoReadings.Needed twoReadings.splits s ∧ (twoReadings.rootsIn s).length ≠ 1)
      ∧ twoReadings.solving.chart.subgraphs.length = 3
      ∧ ∀ s ∈ twoReadings.wholeComponents, (∃ n, n ∈ s) ∧ twoReadings.Connected s := by
  have hsolved : twoReadings.solving.solved = true := by decide +kernel
  obtain ⟨-, -, hchart, hneeded⟩ := chart_is_closure twoReadings
  refine ⟨hsolved, (hchart hsolved).1, by decide +kernel, fun s hs => ?_⟩
  exact ⟨(hneeded s (.component hs)).1, (hneeded s (.component hs)).2.1⟩

end Graph

end Dominance
