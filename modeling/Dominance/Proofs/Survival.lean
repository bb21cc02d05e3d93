import Mathlib.Data.List.Flatten
import Dominance.Proofs.Anchoring
import Dominance.Proofs.Thinning

/-!
# What survives thinning

Filling refers to a subgraph before it stores splits for it, so nothing hangs loose in a filled
chart, whatever the source of splits remembers from one answer to the next.
Thinning keeps this, since a cascade follows every removal.
So a thinned chart stores exactly what its splits lead to from the top, and a subgraph that was
passed over while it was pending is not one that the chart still needs.

A thinned chart has a part of the splits of the full one, in the same order.
Hence it has a part of the solutions, in the same order, and since everything it refers to can be
split down to single roots, it has at least one.

* `anchored_solveInto`, `Anchored.thin` — nothing hangs loose after filling and thinning
* `Anchored.reaches` — everything stored is reached from the top
* `Trims.unfolded_sublist` — fewer splits, fewer solutions
* `Complete.unfolded_ne_nil` — a complete chart has a solution
* `thinning_keeps_readings` — what is left of a chart and of its readings
-/

namespace Dominance

/-! ## Filled charts are anchored -/

namespace Graph

variable {σ : Type} {g : Graph} {source : SplitSource σ} {s : Subgraph} {f f' : Filling σ}

/-- Filling takes no reference away. -/
theorem Grows.mentions (h : Grows g source f f') (hs : f.chart.Mentions s) :
    f'.chart.Mentions s := by
  rcases hs with htop | ⟨t, split, hsplit, hw⟩
  · exact .inl (h.toplevel ▸ htop)
  · have ht : f.chart.hasSplits t = true := Chart.hasSplits_iff.mpr (List.ne_nil_of_mem hsplit)
    exact .inr ⟨t, split, h.kept t ht ▸ hsplit, hw⟩

/-- Filling from listed subgraphs leaves nothing loose, if filling from each of them does. -/
theorem anchored_foldr {fillOne : Subgraph → Filling σ → Filling σ}
    (hgrows : ∀ w f, Grows g source f (fillOne w f))
    (h : ∀ w f, f.chart.Mentions w → f.chart.Anchored → (fillOne w f).chart.Anchored)
    {ws : List Subgraph} (hws : ∀ w ∈ ws, f.chart.Mentions w) (hf : f.chart.Anchored) :
    (ws.foldr fillOne f).chart.Anchored := by
  induction ws with
  | nil => exact hf
  | cons w ws ih =>
    -- what is listed stays referred to while the chart is filled from what comes after it
    have hmentions := (Grows.foldr hgrows ws f).mentions (hws w List.mem_cons_self)
    exact h w _ hmentions (ih fun v hv => hws v (List.mem_cons_of_mem _ hv))

/-- **Filling from a subgraph that is referred to stores nothing without a reference.** -/
theorem anchored_fill (depth : Nat) (s : Subgraph) (f : Filling σ) (hs : f.chart.Mentions s)
    (h : f.chart.Anchored) : (g.fill source depth s f).chart.Anchored := by
  induction depth generalizing s f with
  | zero => exact h
  | succ depth ih =>
    obtain ⟨-, he⟩ | ⟨hstuck, hnone, hsole, ⟨-, he⟩ | ⟨-, he⟩⟩ := fill_cases g source depth s f
    · rw [he]
      exact h
    · rw [he]
      exact h
    · rw [he]
      have hgrows : Grows g source f _ :=
        grows_addSplits hstuck hnone hsole f.memory (source.answer f.memory s).2
      refine anchored_foldr (grows_fill g source depth) ih (fun w hw => ?_) fun t ht => ?_
      · obtain ⟨split, hsplit, hw⟩ := List.mem_flatMap.mp hw
        refine .inr ⟨s, split, ?_, hw⟩
        rw [Chart.splitsFor_addSplits, if_pos rfl]
        exact List.mem_append_right _ hsplit
      · refine hgrows.mentions ?_
        by_cases hst : s = t
        · exact hst ▸ hs
        · rw [Chart.hasSplits, Chart.splitsFor_addSplits, if_neg hst] at ht
          exact h t ht

/-- **Nothing hangs loose in a new chart, whether it was filled or not.** -/
theorem anchored_solveInto (g : Graph) (source : SplitSource σ) (memory : σ) :
    (g.solveInto source memory .empty).chart.Anchored := by
  refine anchored_foldr (f := g.opening memory) (grows_fill g source g.size)
    (anchored_fill g.size) (fun w hw => .inl ?_) fun t ht => ?_
  · rw [opening, reopening, toplevel_foldl_addToplevel]
    exact List.mem_append_right _ hw
  · rw [hasSplits_opening] at ht
    cases ht

end Graph

namespace Chart

variable {c c' : Chart} {g : Graph} {σ : Type} {s : Subgraph}

/-! ## Thinned charts are anchored -/

theorem trims_of_thin (h : c.Consistent) {p : Preference σ} {memory memory' : σ}
    (hthin : c.thin p memory = .ok (c', memory')) : Trims c c' := by
  obtain ⟨c₁, memory₁, hthin₁, -, htrims, -⟩ :=
    thinFrom_spec p c.toplevel.reverse c.subgraphs memory h
  rw [thin, hthin₁] at hthin
  cases hthin
  exact htrims

/-- **Thinning leaves nothing loose, whatever the preference remembers.** -/
theorem Anchored.thin (ha : c.Anchored) (h : c.Consistent) {p : Preference σ}
    {memory memory' : σ} (hthin : c.thin p memory = .ok (c', memory')) : c'.Anchored := by
  have hstep : ∀ (pending waiting : List Subgraph) (memory : σ) (c₁ : Chart) s rest,
      (c₁.Consistent ∧ c₁.Anchored) → c₁.toJudge waiting pending = s :: rest →
      ∃ c₂, c₁.keepOnly s (p.narrow s memory (c₁.splitsFor s)).1 = .ok c₂
        ∧ c₂.Consistent ∧ c₂.Anchored := by
    rintro pending waiting memory c₁ s rest ⟨h₁, ha₁⟩ hjudge
    have hsplits := hasSplits_iff.mp (hasSplits_of_toJudge_eq_cons hjudge)
    have hne := p.narrow_ne_nil s memory hsplits
    have hsub := p.narrow_sublist s memory (c₁.splitsFor s)
    obtain ⟨c₂, hkeep, h₂, -, -⟩ := keepOnly_spec h₁ hne hsub
    exact ⟨c₂, hkeep, h₂, (keepOnly_exact h₁ ha₁ hne hsub hkeep).1⟩
  obtain ⟨-, -, memory₁, c₁, hthin₁, hend, -⟩ :=
    thinFrom_run hstep c.toplevel.reverse c.subgraphs memory ⟨h, ha⟩
  rw [Chart.thin, hthin₁] at hthin
  cases hthin
  exact hend.2

/-! ## What the top leads to -/

/-- **Everything that an anchored chart of a graph stores is reached from the top.** -/
theorem Anchored.reaches (ha : c.Anchored) (hc : c.Complete g) (hs : c.hasSplits s = true) :
    c.Reaches s :=
  ha.induction hc (fun _ => .toplevel) (fun _ _ ht _ hsplit _ hw => .component ht hsplit hw) hs

/-! ## Solutions that are left -/

/-- **A chart with fewer splits has fewer solutions, in the same order.** -/
theorem Trims.unfolded_sublist (h : Trims c c') (hc : c.Sound g) (agenda : List Pending) :
    (c'.unfolded g agenda).Sublist (c.unfolded g agenda) := by
  have hr := hc.ranked
  have hr' : c'.Ranked Subgraph.size :=
    fun t split hsplit => hr t split ((h.sublist t).subset hsplit)
  induction agenda using hr.agenda_induction g with
  | nil => simp
  | sole entry agenda root hroot ih =>
    rw [hr.unfolded_cons_of_sole hroot, hr'.unfolded_cons_of_sole hroot]
    exact ih.map _
  | split entry agenda hroot ih =>
    rw [hr.unfolded_cons_of_split hroot, hr'.unfolded_cons_of_split hroot]
    have hsub := h.sublist entry.subgraph
    -- fewer solutions behind each split that is left, and fewer splits
    refine List.Sublist.trans (List.Sublist.flatMap_right _ fun split hsplit => ?_)
      (hsub.flatMap _)
    exact (ih split (hsub.subset hsplit)).map _

/-- **Every agenda of a complete chart has a solution.** -/
theorem Complete.unfolded_ne_nil (hc : c.Complete g) {agenda : List Pending}
    (h : ∀ entry ∈ agenda, c.Mentions entry.subgraph) : c.unfolded g agenda ≠ [] := by
  have hr := hc.sound.ranked
  induction agenda using hr.agenda_induction g with
  | nil => simp
  | sole entry agenda root hroot ih =>
    rw [hr.unfolded_cons_of_sole hroot, ne_eq, List.map_eq_nil_iff]
    exact ih fun e he => h e (List.mem_cons_of_mem _ he)
  | split entry agenda hroot ih =>
    have hsplits := hc.splitsFor_ne_nil (h entry List.mem_cons_self) hroot
    obtain ⟨split, hsplit⟩ := List.exists_mem_of_ne_nil _ hsplits
    have hrest := ih split hsplit
      (Machine.forall_mem_unsettled_append (fun _ hw => .inr ⟨_, _, hsplit, hw⟩)
        fun e he => h e (List.mem_cons_of_mem _ he))
    rw [hr.unfolded_cons_of_split hroot]
    intro hnil
    exact hrest (List.map_eq_nil_iff.mp (List.flatMap_eq_nil_iff.mp hnil split hsplit))

theorem Complete.listing_ne_nil (hc : c.Complete g) : c.listing g ≠ [] := by
  rw [listing_eq, ne_eq, List.map_eq_nil_iff]
  exact hc.unfolded_ne_nil fun _ h => (Machine.reaches_of_mem_start h).mentions

theorem Trims.listing_sublist (h : Trims c c') (hc : c.Sound g) :
    (c'.listing g).Sublist (c.listing g) := by
  rw [listing_eq, listing_eq, Machine.start, Machine.start, h.toplevel]
  exact (h.unfolded_sublist hc _).map _

end Chart

/-- Going on to the end of a sane chart yields its listing. -/
theorem Readings.rest_start {c : Chart} {g : Graph} (h : c.Sane g) :
    (start g c).rest.1 = c.listing g := by
  have hlength : (c.listing g).length ≤ max c.count.1 beyondReach := by
    rw [h.length_listing]
    exact Nat.le_max_left _ _
  show ((start g c).take (max c.count.1 beyondReach)).1 = c.listing g
  rw [forms_take_start h.complete, List.take_of_length_le hlength]

namespace Graph

variable {g : Graph} {σ τ : Type}

theorem sane_solving (h : g.solving.solved = true) : g.solving.chart.Sane g :=
  Chart.sane_solveInto (SplitSource.selects_complete g) h

/--
**Thinning a filled chart only removes readings, and never all of them.**

Thinning succeeds, whatever the preference remembers. Afterwards every subgraph that the splits lead
to from the top has splits, unless it has exactly one root, and nothing else has. The readings that
are left are some of those before, at least one, in the same order.
-/
theorem thinning_keeps_readings {source : SplitSource σ} (hsource : source.Standard g)
    (memory : σ) (hsolved : (g.solveInto source memory .empty).solved = true)
    (p : Preference τ) (memory' : τ) :
    ∃ c after, (g.solveInto source memory .empty).chart.thin p memory' = .ok (c, after)
      ∧ (∀ s, c.Reaches s → (g.rootsIn s).length ≠ 1 → c.splitsFor s ≠ [])
      ∧ (∀ s, c.hasSplits s = true → c.Reaches s)
      ∧ (Readings.start g c).rest.1 ≠ []
      ∧ (Readings.start g c).rest.1.Sublist
          (Readings.start g (g.solveInto source memory .empty).chart).rest.1 := by
  have hsane := Chart.sane_solveInto hsource.selects hsolved
  obtain ⟨c, after, hthin, hsane'⟩ := hsane.thin p memory'
  have hanchored := (anchored_solveInto g source memory).thin hsane.consistent hthin
  have htrims := Chart.trims_of_thin hsane.consistent hthin
  refine ⟨c, after, hthin, fun s hs hroots => ?_, fun s => hanchored.reaches hsane'.complete, ?_,
    ?_⟩
  · exact hsane'.complete.splitsFor_ne_nil hs.mentions (soleRoot?_eq_none_iff.mpr hroots)
  · rw [Readings.rest_start hsane']
    exact hsane'.complete.listing_ne_nil
  · rw [Readings.rest_start hsane', Readings.rest_start hsane]
    exact htrims.listing_sublist hsane.complete.sound

/-- A preference that accepts every other split that it is asked about. -/
def everyOther : Preference Bool where
  judge accept _ _ := (accept, !accept)

theorem thinning_keeps_readings_twoReadings :
    twoReadings.solving.solved = true
      ∧ ∃ c after, twoReadings.solving.chart.thin everyOther true = .ok (c, after)
          ∧ (Readings.start twoReadings c).rest.1 ≠ []
          ∧ (Readings.start twoReadings c).rest.1.Sublist
              (Readings.start twoReadings twoReadings.solving.chart).rest.1 := by
  have hsolved : twoReadings.solving.solved = true := by decide +kernel
  obtain ⟨c, after, hthin, -, -, hne, hsub⟩ :=
    thinning_keeps_readings .complete () hsolved everyOther true
  exact ⟨hsolved, c, after, hthin, hne, hsub⟩

end Graph

end Dominance
