import Dominance.Chart.Thin
import Dominance.Proofs.Counting
import Dominance.Proofs.Failure
import Dominance.Proofs.References

/-!
# Counting and enumerating agree

Thinning replaces split lists by nonempty parts of them, and a removal leaves everything that is
still referred to.
So a complete chart stays complete, however often and by whatever preferences it is thinned, and a
chart never refuses to be thinned.
Since a change of the chart takes its remembered counts away, what it remembers is right at any
time.

The count of such a chart is the length of its listing, and the enumeration goes through the listing
to its end.

* `thinFrom_run`, `thinFrom_spec` — what thinning keeps, and what it does
* `Sane` — what solving establishes, and thinning and counting keep
* `enumeration_matches_count` — the number of solved forms that an enumeration yields
-/

namespace Dominance

namespace Chart

variable {c c' : Chart} {g : Graph} {s : Subgraph} {σ : Type}

/-! ## Thinning -/

theorem keepOnly_spec (h : c.Consistent) {kept : List Split} (hne : kept ≠ [])
    (hkept : kept.Sublist (c.splitsFor s)) :
    ∃ c', c.keepOnly s kept = .ok c' ∧ c'.Consistent ∧ Trims c c' ∧ (c'.counts = ∅ ∨ c' = c) := by
  unfold keepOnly
  split
  · obtain ⟨c', hset, hconsistent, htrims, hcounts⟩ := setSplits_spec h hne hkept
    exact ⟨c', hset, hconsistent, htrims, .inl hcounts⟩
  · exact ⟨c, rfl, h, .refl c, .inr rfl⟩

theorem hasSplits_of_toJudge_eq_cons {waiting pending rest : List Subgraph}
    (h : c.toJudge waiting pending = s :: rest) : c.hasSplits s = true := by
  unfold toJudge at h
  have hhead := List.head?_dropWhile_not (fun s => !(waiting.contains s && c.hasSplits s)) pending
  rw [h] at hhead
  simp only [List.head?_cons, Bool.not_eq_false', Bool.and_eq_true] at hhead
  exact hhead.2

/-- **What holds before thinning and is kept whenever a subgraph is judged holds in the end**, when
nothing is left to be judged. Thinning succeeds if judging does. -/
theorem thinFrom_run {p : Preference σ} {I : List Subgraph → List Subgraph → σ → Chart → Prop}
    (hstep : ∀ pending waiting memory c s rest,
      I pending waiting memory c → c.toJudge waiting pending = s :: rest →
      ∃ c', c.keepOnly s (p.narrow s memory (c.splitsFor s)).1 = .ok c'
        ∧ I ((componentsIn (p.narrow s memory (c.splitsFor s)).1).reverse ++ rest)
            (waiting.erase s) (p.narrow s memory (c.splitsFor s)).2 c')
    (pending waiting : List Subgraph) (memory : σ) (h : I pending waiting memory c) :
    ∃ pending' waiting' memory' c', thinFrom p pending waiting memory c = .ok (c', memory')
      ∧ I pending' waiting' memory' c' ∧ c'.toJudge waiting' pending' = [] := by
  induction hn : waiting.length using Nat.strongRecOn generalizing pending waiting memory c with
  | _ n ih =>
    rw [thinFrom]
    split
    · next hnil => exact ⟨pending, waiting, memory, c, rfl, h, hnil⟩
    · next s rest hjudge =>
      have hlt := length_erase_lt (mem_of_toJudge_eq_cons hjudge)
      obtain ⟨c₁, hkeep, hnext⟩ := hstep _ _ _ _ _ _ h hjudge
      simp only
      rw [hkeep]
      exact ih _ (hn ▸ hlt) _ _ _ hnext rfl

/-- **Thinning succeeds, keeps the chart consistent, and trims it.** -/
theorem thinFrom_spec (p : Preference σ) (pending waiting : List Subgraph) (memory : σ)
    (h : c.Consistent) :
    ∃ c' memory', thinFrom p pending waiting memory c = .ok (c', memory')
      ∧ c'.Consistent ∧ Trims c c' ∧ (c'.counts = ∅ ∨ c' = c) := by
  have hstep : ∀ (pending waiting : List Subgraph) (memory : σ) (c₁ : Chart) s rest,
      (c₁.Consistent ∧ Trims c c₁ ∧ (c₁.counts = ∅ ∨ c₁ = c)) →
      c₁.toJudge waiting pending = s :: rest →
      ∃ c₂, c₁.keepOnly s (p.narrow s memory (c₁.splitsFor s)).1 = .ok c₂
        ∧ c₂.Consistent ∧ Trims c c₂ ∧ (c₂.counts = ∅ ∨ c₂ = c) := by
    rintro pending waiting memory c₁ s rest ⟨h₁, htrims₁, hcounts₁⟩ hjudge
    -- a judged subgraph has splits, and a preference leaves some of them
    have hsplits := hasSplits_iff.mp (hasSplits_of_toJudge_eq_cons hjudge)
    obtain ⟨c₂, hkeep, hconsistent, htrims₂, hcounts₂⟩ :=
      keepOnly_spec h₁ (p.narrow_ne_nil s memory hsplits) (p.narrow_sublist s memory _)
    refine ⟨c₂, hkeep, hconsistent, htrims₁.trans htrims₂, ?_⟩
    rcases hcounts₂ with hempty | rfl
    · exact .inl hempty
    · exact hcounts₁
  obtain ⟨-, -, memory', c', hthin, hend, -⟩ :=
    thinFrom_run hstep pending waiting memory ⟨h, .refl c, .inr rfl⟩
  exact ⟨c', memory', hthin, hend⟩

/-! ## Sane charts -/

/-- The chart keeps exact books, says how to split every component of the graph down to single
roots, and remembers right counts only. -/
structure Sane (c : Chart) (g : Graph) : Prop where
  consistent : c.Consistent
  complete : c.Complete g
  remembers : c.Remembers c.counts

theorem Sane.thin (h : c.Sane g) (p : Preference σ) (memory : σ) :
    ∃ c' memory', c.thin p memory = .ok (c', memory') ∧ c'.Sane g := by
  obtain ⟨c', memory', hthin, hconsistent, htrims, hcounts⟩ :=
    thinFrom_spec p c.toplevel.reverse c.subgraphs memory h.consistent
  refine ⟨c', memory', hthin, hconsistent, htrims.complete h.complete, ?_⟩
  rcases hcounts with hempty | rfl
  · rw [hempty]
    exact remembers_empty c'
  · exact h.remembers

theorem Sane.with_counts (h : c.Sane g) {counts : Counts} (hcounts : c.Remembers counts) :
    Sane { c with counts } g where
  consistent := h.consistent.with_counts counts
  complete := ⟨h.complete.sound, h.complete.inside, h.complete.settled⟩
  remembers s n hs := (hcounts s n hs).trans (tally_with_counts c counts s).symm

/-- The charts that thinning and counting make of a chart, in any order and number. -/
inductive Treated : Chart → Chart → Prop
  | refl (c : Chart) : Treated c c
  | thinned {σ : Type} {c c' c'' : Chart} (p : Preference σ) {memory memory' : σ}
    (h : Treated c c') (hthin : c'.thin p memory = .ok (c'', memory')) : Treated c c''
  | counted {c c' : Chart} (h : Treated c c') : Treated c c'.count.2
  | countedFor {c c' : Chart} (s : Subgraph) (h : Treated c c') : Treated c (c'.countFor s).2

/-- **Whatever is done to a sane chart, it stays sane.** -/
theorem Treated.sane (ht : Treated c c') (h : c.Sane g) : c'.Sane g := by
  induction ht with
  | refl c => exact h
  | thinned p _ hthin ih =>
    obtain ⟨c₁, memory₁, hthin₁, hsane⟩ := (ih h).thin p _
    rw [hthin] at hthin₁
    cases hthin₁
    exact hsane
  | counted _ ih =>
    have hsane := ih h
    exact hsane.with_counts (hsane.complete.sound.ranked.count_spec hsane.remembers).2
  | countedFor s _ ih =>
    have hsane := ih h
    exact hsane.with_counts (hsane.complete.sound.ranked.countFor_spec hsane.remembers s).2

/-- The count of a sane chart is the length of its listing. -/
theorem Sane.length_listing (h : c.Sane g) : (c.listing g).length = c.count.1 := by
  rw [h.complete.length_listing, (h.complete.sound.ranked.count_spec h.remembers).1]

/-- **Solving a new chart makes it sane, if it succeeds.** -/
theorem sane_solveInto {source : SplitSource σ} (hsel : source.Selects g) {memory : σ}
    (h : (g.solveInto source memory .empty).solved = true) :
    (g.solveInto source memory .empty).chart.Sane g := by
  have hcounts : ∀ (c : Chart) s splits, c.counts = ∅ → (c.addSplits s splits).counts = ∅ := by
    intro c s splits hc
    unfold addSplits
    induction splits generalizing c with
    | nil => exact hc
    | cons split splits ih => exact ih _ rfl
  have hempty : (g.solveInto source memory .empty).chart.counts = ∅ :=
    g.solveInto_preserves source (P := fun c => c.counts = ∅) hcounts (fun _ _ _ => rfl) rfl memory
  refine ⟨consistent_solveInto g source memory, Graph.complete_solveInto hsel h, ?_⟩
  rw [hempty]
  exact remembers_empty _

end Chart

/-! ## Draining an enumeration -/

namespace Readings

variable {c : Chart} {g : Graph}

/-- A sane chart yields as many solved forms as it counts, and then no more. -/
theorem take_count (h : c.Sane g) :
    ((start g c).take c.count.1).1.length = c.count.1
      ∧ ((start g c).take c.count.1).2.hasNext = false
      ∧ ((start g c).take c.count.1).2.next = (none, ((start g c).take c.count.1).2) := by
  have hready : ((start g c).take c.count.1).2.sequence.ready = none :=
    Enumeration.ready_take_start h.complete.navigable (Nat.le_of_eq h.length_listing)
  refine ⟨?_, ?_, ?_⟩
  · rw [forms_take_start h.complete, List.length_take, h.length_listing, Nat.min_self]
  · rw [hasNext, hready]
    rfl
  · rw [Readings.next, Enumeration.next_of_ready_eq_none hready]
    simp only [news_self, List.append_nil]

end Readings

namespace Graph

variable {g : Graph} {σ : Type}

/--
**The enumeration of a filled chart yields exactly as many solved forms as the chart counts.**

This holds for every graph and for the chart of every preference, and still after the chart was
thinned and counted in any way. Thinning itself never fails.
-/
theorem enumeration_matches_count {source : SplitSource σ} (hsource : source.Standard g)
    (memory : σ) (hsolved : (g.solveInto source memory .empty).solved = true) {c : Chart}
    (hc : Chart.Treated (g.solveInto source memory .empty).chart c) :
    (((Readings.start g c).take c.count.1).1.length = c.count.1
        ∧ ((Readings.start g c).take c.count.1).2.hasNext = false
        ∧ ((Readings.start g c).take c.count.1).2.next
            = (none, ((Readings.start g c).take c.count.1).2))
      ∧ ∀ {τ : Type} (p : Preference τ) (memory' : τ),
          ∃ c' after, c.thin p memory' = .ok (c', after) := by
  have hsane := hc.sane (Chart.sane_solveInto hsource.selects hsolved)
  refine ⟨Readings.take_count hsane, fun p memory' => ?_⟩
  obtain ⟨c', after, hthin, -⟩ := hsane.thin p memory'
  exact ⟨c', after, hthin⟩

theorem enumeration_matches_count_twoReadings :
    twoReadings.solving.chart.count.1 = 2
      ∧ ((Readings.start twoReadings twoReadings.solving.chart).take
          twoReadings.solving.chart.count.1).1.length = twoReadings.solving.chart.count.1
      ∧ ∃ c after, twoReadings.solving.chart.thin (.ofTest fun _ split => split.root = 0) ()
            = .ok (c, after)
          ∧ ((Readings.start twoReadings c).take c.count.1).1.length = c.count.1 := by
  have hsolved : twoReadings.solving.solved = true := by decide +kernel
  have h := enumeration_matches_count (g := twoReadings) .complete () hsolved (.refl _)
  obtain ⟨c, after, hthin⟩ := h.2 (.ofTest fun _ split => split.root = 0) ()
  have h' := enumeration_matches_count .complete () hsolved (.thinned _ (.refl _) hthin)
  exact ⟨by decide +kernel, h.1.1, c, after, hthin, h'.1.1⟩

end Graph

end Dominance
