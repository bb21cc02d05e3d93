import Dominance.Chart.Fill
import Dominance.Graph.Compact
import Dominance.Proofs.Solvability

/-!
# Filled charts

Filling stores answers of the source and nothing else, and never changes what is stored.
If it does not get stuck, everything that the chart mentions is settled in the end: it has a single
root or it has splits.
So a filled chart says how to split every component of the graph down to single roots.

Conversely, in a weakly normal graph filling gets stuck only if some component of the graph is not
solvable, whatever the source selects.

* `fill_cases` — what filling from one subgraph does
* `grows_fill`, `settles_fill` — what is stored, and what is settled
* `sound_solveInto`, `complete_solveInto` — the chart of a graph
* `solved_iff` — solving succeeds exactly if all components are solvable
-/

namespace Dominance

/-! ## Sources that select from the splits of a graph -/

/-- The source answers with some of the splits of a graph, and with none only if there is none. -/
structure SplitSource.Selects {σ : Type} (source : SplitSource σ) (g : Graph) : Prop where
  sublist : ∀ memory s, (source.answer memory s).1.Sublist (g.splits s)
  nonempty : ∀ memory s, (source.answer memory s).1 = [] → g.splits s = []

namespace Preference

variable {σ : Type}

theorem accepted_sublist (p : Preference σ) (s : Subgraph) (memory : σ) (splits : List Split) :
    (p.accepted s memory splits).1.Sublist splits := by
  induction splits generalizing memory with
  | nil => exact List.Sublist.refl _
  | cons split splits ih =>
    simp only [accepted]
    split
    · exact (ih _).cons_cons split
    · exact (ih _).cons split

theorem narrow_sublist (p : Preference σ) (s : Subgraph) (memory : σ) (splits : List Split) :
    (p.narrow s memory splits).1.Sublist splits := by
  have hsub := p.accepted_sublist s memory splits
  unfold narrow
  split
  · exact List.take_sublist 1 splits
  · next h => rw [h] at hsub; exact hsub

/-- A preference never takes all splits away. -/
theorem narrow_ne_nil (p : Preference σ) (s : Subgraph) (memory : σ) {splits : List Split}
    (h : splits ≠ []) : (p.narrow s memory splits).1 ≠ [] := by
  unfold narrow
  split
  · cases splits with
    | nil => exact absurd rfl h
    | cons split splits => simp
  · next kept memory hne hkept => exact hne

end Preference

namespace SplitSource

theorem selects_complete (g : Graph) : (complete g).Selects g where
  sublist _ _ := List.Sublist.refl _
  nonempty _ _ h := h

theorem selects_preferred {σ : Type} (g : Graph) (p : Preference σ) :
    (preferred g p).Selects g where
  sublist memory s := p.narrow_sublist s memory (g.splits s)
  nonempty memory s h := by
    by_contra hne
    exact p.narrow_ne_nil s memory hne h

/-- The sources that are solved with: all splits of a graph, or those that a preference leaves. -/
inductive Standard (g : Graph) : {σ : Type} → SplitSource σ → Prop
  | complete : Standard g (complete g)
  | preferred {σ : Type} (p : Preference σ) : Standard g (preferred g p)

theorem Standard.selects {g : Graph} {σ : Type} {source : SplitSource σ} (h : source.Standard g) :
    source.Selects g := by
  cases h with
  | complete => exact selects_complete g
  | preferred p => exact selects_preferred g p

end SplitSource

/-! ## Charts of a graph -/

namespace Chart

/-- Nothing has to be done for the subgraph any more: it has a single root, or it has splits. -/
def Settled (c : Chart) (g : Graph) (s : Subgraph) : Prop :=
  (g.soleRoot? s).isSome = true ∨ c.hasSplits s = true

/-- The chart refers to the subgraph. -/
def Mentions (c : Chart) (s : Subgraph) : Prop :=
  s ∈ c.toplevel ∨ ∃ t, ∃ split ∈ c.splitsFor t, s ∈ split.components

/-- The chart stores splits of the graph only, and none for subgraphs with a single root. -/
def Sound (c : Chart) (g : Graph) : Prop :=
  ∀ t, ∀ split ∈ c.splitsFor t, split ∈ g.splits t ∧ g.soleRoot? t = none

/-- The chart is sound, its top-level subgraphs have nodes of the graph only, and all it refers to
is settled. -/
structure Complete (c : Chart) (g : Graph) : Prop where
  sound : c.Sound g
  inside : ∀ s ∈ c.toplevel, ∀ n ∈ s, n < g.size
  settled : ∀ s, c.Mentions s → c.Settled g s

/-- A complete chart refers to nodes of the graph only. -/
theorem Complete.lt {c : Chart} {g : Graph} {s : Subgraph} (h : c.Complete g) (hs : c.Mentions s) :
    ∀ n ∈ s, n < g.size := by
  rcases hs with htop | ⟨t, split, hsplit, hw⟩
  · exact h.inside s htop
  · exact Graph.lt_of_mem_components (h.sound t split hsplit).1 hw

/-- What a complete chart refers to has splits, unless it has a single root. -/
theorem Complete.splitsFor_ne_nil {c : Chart} {g : Graph} {s : Subgraph} (h : c.Complete g)
    (hs : c.Mentions s) (hroot : g.soleRoot? s = none) : c.splitsFor s ≠ [] := by
  rcases h.settled s hs with hsole | hsplits
  · rw [hroot] at hsole
    cases hsole
  · exact hasSplits_iff.mp hsplits

end Chart

/-! ## One subgraph -/

namespace Graph

variable {σ : Type} {g : Graph} {source : SplitSource σ} {s t w : Subgraph} {f f' : Filling σ}

/-- **Filling skips a subgraph, gets stuck at it, or stores an answer and goes on below.** -/
theorem fill_cases (g : Graph) (source : SplitSource σ) (depth : Nat) (s : Subgraph)
    (f : Filling σ) :
    ((f.stuck.isSome = true ∨ f.chart.Settled g s) ∧ g.fill source (depth + 1) s f = f) ∨
    (f.stuck = none ∧ f.chart.hasSplits s = false ∧ g.soleRoot? s = none ∧
      (((source.answer f.memory s).1 = [] ∧ g.fill source (depth + 1) s f
          = { f with memory := (source.answer f.memory s).2, stuck := some s }) ∨
        ((source.answer f.memory s).1 ≠ [] ∧ g.fill source (depth + 1) s f
          = ((source.answer f.memory s).1.flatMap Split.components).foldr
              (fun w f => g.fill source depth w f)
              { f with
                memory := (source.answer f.memory s).2
                chart := f.chart.addSplits s (source.answer f.memory s).1 }))) := by
  rw [fill]
  split
  · next h =>
    refine .inl ⟨?_, rfl⟩
    simp only [Bool.or_eq_true, or_assoc] at h
    exact h.imp id Or.symm
  · next h =>
    simp only [Bool.or_eq_true, not_or, Option.isSome_iff_ne_none, ne_eq, not_not,
      Bool.not_eq_true] at h
    refine .inr ⟨h.1.1, h.1.2, h.2, ?_⟩
    split
    · next memory hans => exact .inl ⟨by rw [hans], by rw [hans]⟩
    · next splits memory hne hans =>
      rw [hans]
      exact .inr ⟨hne, rfl⟩

/-- What filling does to a chart. -/
structure Grows (g : Graph) (source : SplitSource σ) (f f' : Filling σ) : Prop where
  toplevel : f'.chart.toplevel = f.chart.toplevel
  kept : ∀ t, f.chart.hasSplits t = true → f'.chart.splitsFor t = f.chart.splitsFor t
  added : ∀ t, f.chart.hasSplits t = false → f'.chart.hasSplits t = true →
    g.soleRoot? t = none ∧ ∃ memory, f'.chart.splitsFor t = (source.answer memory t).1
  stopped : f.stuck.isSome = true → f' = f

namespace Grows

theorem refl (f : Filling σ) : Grows g source f f where
  toplevel := rfl
  kept _ _ := rfl
  added t h h' := by rw [h] at h'; cases h'
  stopped _ := rfl

theorem hasSplits (h : Grows g source f f') (ht : f.chart.hasSplits t = true) :
    f'.chart.hasSplits t = true := by
  rw [Chart.hasSplits, h.kept t ht]
  exact ht

theorem settled (h : Grows g source f f') (hs : f.chart.Settled g s) : f'.chart.Settled g s :=
  hs.imp id h.hasSplits

theorem stuck_eq_none (h : Grows g source f f') (hf : f'.stuck = none) : f.stuck = none := by
  cases hstuck : f.stuck with
  | none => rfl
  | some t =>
    rw [h.stopped (by rw [hstuck]; rfl), hstuck] at hf
    cases hf

theorem trans {f'' : Filling σ} (h : Grows g source f f') (h' : Grows g source f' f'') :
    Grows g source f f'' where
  toplevel := h'.toplevel.trans h.toplevel
  kept t ht := (h'.kept t (h.hasSplits ht)).trans (h.kept t ht)
  added t ht ht'' := by
    cases ht' : f'.chart.hasSplits t with
    | true =>
      rw [h'.kept t ht']
      exact h.added t ht ht'
    | false => exact h'.added t ht' ht''
  stopped hs := by
    have he := h.stopped hs
    rw [h'.stopped (by rw [he]; exact hs), he]

/-- Filling from listed subgraphs, if it grows charts from each of them. -/
theorem foldr {fillOne : Subgraph → Filling σ → Filling σ}
    (h : ∀ w f, Grows g source f (fillOne w f)) (ws : List Subgraph) (f : Filling σ) :
    Grows g source f (ws.foldr fillOne f) := by
  induction ws with
  | nil => exact refl f
  | cons w ws ih => exact ih.trans (h w _)

end Grows

/-- Storing an answer for a subgraph that has no splits yet. -/
theorem grows_addSplits (hstuck : f.stuck = none) (hs : f.chart.hasSplits s = false)
    (hsole : g.soleRoot? s = none) (memory memory' : σ) :
    Grows g source f
      { f with memory := memory', chart := f.chart.addSplits s (source.answer memory s).1 } where
  toplevel := Chart.toplevel_addSplits _ _ _
  kept t ht := by
    rw [Chart.splitsFor_addSplits, if_neg]
    rintro rfl
    rw [hs] at ht
    cases ht
  added t ht ht' := by
    by_cases hst : s = t
    · subst hst
      have hnil : f.chart.splitsFor s = [] := by
        by_contra hne
        rw [Chart.hasSplits_iff.mpr hne] at hs
        cases hs
      exact ⟨hsole, memory, by rw [Chart.splitsFor_addSplits, if_pos rfl, hnil, List.nil_append]⟩
    · rw [Chart.hasSplits, Chart.splitsFor_addSplits, if_neg hst] at ht'
      rw [Chart.hasSplits, ht'] at ht
      cases ht
  stopped h := by rw [hstuck] at h; cases h

theorem grows_fill (g : Graph) (source : SplitSource σ) (depth : Nat) (s : Subgraph)
    (f : Filling σ) : Grows g source f (g.fill source depth s f) := by
  induction depth generalizing s f with
  | zero => exact .refl f
  | succ depth ih =>
    obtain ⟨-, h⟩ | ⟨hstuck, hs, hsole, ⟨-, h⟩ | ⟨-, h⟩⟩ := fill_cases g source depth s f
    · rw [h]
      exact .refl f
    · rw [h]
      refine ⟨rfl, fun _ _ => rfl, fun t ht ht' => ?_, fun hstop => ?_⟩
      · rw [ht] at ht'
        cases ht'
      · rw [hstuck] at hstop
        cases hstop
    · rw [h]
      exact (grows_addSplits hstuck hs hsole _ _).trans (.foldr ih _ _)

/-- Filling keeps whatever storing splits keeps. -/
theorem fill_preserves {P : Chart → Prop} (hadd : ∀ c s splits, P c → P (c.addSplits s splits))
    (depth : Nat) (s : Subgraph) {f : Filling σ} (h : P f.chart) :
    P (g.fill source depth s f).chart := by
  induction depth generalizing s f with
  | zero => exact h
  | succ depth ih =>
    obtain ⟨-, he⟩ | ⟨-, -, -, ⟨-, he⟩ | ⟨-, he⟩⟩ := fill_cases g source depth s f
    · rw [he]
      exact h
    · rw [he]
      exact h
    · rw [he]
      exact List.foldrRecOn (motive := fun f' : Filling σ => P f'.chart) _ _ (hadd _ _ _ h)
        fun f' hf' w _ => ih w hf'

/-! ## Everything is settled in the end -/

/-- Between two fillings, nothing was stored that refers to something unsettled. -/
def Settles (g : Graph) (f f' : Filling σ) : Prop :=
  ∀ t, f.chart.hasSplits t = false → ∀ split ∈ f'.chart.splitsFor t, ∀ w ∈ split.components,
    f'.chart.Settled g w

theorem Settles.trans {f'' : Filling σ} (h : Settles g f f') (h' : Settles g f' f'')
    (hgrows : Grows g source f' f'') : Settles g f f'' := by
  intro t ht split hsplit w hw
  cases ht' : f'.chart.hasSplits t with
  | true =>
    rw [hgrows.kept t ht'] at hsplit
    exact hgrows.settled (h t ht split hsplit w hw)
  | false => exact h' t ht' split hsplit w hw

/-- Filling from listed subgraphs settles them and all that is stored on the way. -/
theorem settles_foldr {fillOne : Subgraph → Filling σ → Filling σ} {small : Subgraph → Prop}
    (hgrows : ∀ w f, Grows g source f (fillOne w f))
    (h : ∀ w f, small w → (fillOne w f).stuck = none →
      (fillOne w f).chart.Settled g w ∧ Settles g f (fillOne w f))
    (ws : List Subgraph) (hws : ∀ w ∈ ws, small w) (f : Filling σ)
    (hstuck : (ws.foldr fillOne f).stuck = none) :
    (∀ w ∈ ws, (ws.foldr fillOne f).chart.Settled g w) ∧ Settles g f (ws.foldr fillOne f) := by
  induction ws with
  | nil =>
    rw [List.foldr_nil]
    refine ⟨by simp, fun t ht split hsplit => ?_⟩
    rw [Chart.hasSplits_iff.mpr (List.ne_nil_of_mem hsplit)] at ht
    cases ht
  | cons w ws ih =>
    rw [List.foldr_cons] at *
    have hg := hgrows w (ws.foldr fillOne f)
    obtain ⟨hrest, hsettles⟩ :=
      ih (fun v hv => hws v (List.mem_cons_of_mem _ hv)) (hg.stuck_eq_none hstuck)
    obtain ⟨hw, hsettles'⟩ := h w _ (hws w List.mem_cons_self) hstuck
    refine ⟨fun v hv => ?_, hsettles.trans hsettles' hg⟩
    rcases List.mem_cons.mp hv with rfl | hv
    · exact hw
    · exact hg.settled (hrest v hv)

/-- **If filling from a subgraph does not get stuck, it settles the subgraph and all that it
stores.** -/
theorem settles_fill (hsel : source.Selects g) (depth : Nat) (s : Subgraph) (f : Filling σ)
    (hsmall : (∃ n, n ∈ s) ∧ s.size ≤ depth) (hstuck : (g.fill source depth s f).stuck = none) :
    (g.fill source depth s f).chart.Settled g s ∧ Settles g f (g.fill source depth s f) := by
  induction depth generalizing s f with
  | zero =>
    obtain ⟨⟨n, hn⟩, hsize⟩ := hsmall
    have hlen : s.ids.length ≠ 0 := fun h => by
      rw [← Subgraph.mem_ids, List.length_eq_zero_iff.mp h] at hn
      cases hn
    exact absurd (Nat.le_zero.mp hsize) hlen
  | succ depth ih =>
    obtain ⟨hskip, h⟩ | ⟨hnone, hs, hsole, ⟨-, h⟩ | ⟨hne, h⟩⟩ := fill_cases g source depth s f
    · rw [h] at hstuck ⊢
      refine ⟨?_, fun t ht split hsplit => ?_⟩
      · rcases hskip with hstop | hset
        · rw [hstuck] at hstop; cases hstop
        · exact hset
      · rw [Chart.hasSplits_iff.mpr (List.ne_nil_of_mem hsplit)] at ht
        cases ht
    · rw [h] at hstuck
      cases hstuck
    · have hgrows := grows_fill g source depth
      have hsplits := hsel.sublist f.memory s
      rw [h] at hstuck ⊢
      generalize hws : (source.answer f.memory s).1.flatMap Split.components = ws at *
      have hbelow : ∀ w ∈ ws, (∃ n, n ∈ w) ∧ w.size ≤ depth := by
        intro w hw
        obtain ⟨split, hsplit, hw⟩ := List.mem_flatMap.mp (hws ▸ hw)
        have hsplit := hsplits.subset hsplit
        have hlt := size_lt_of_mem_components hsplit hw
        have := hsmall.2
        exact ⟨nonempty_of_mem_components hsplit hw, by omega⟩
      obtain ⟨hsettled, hsettles⟩ := settles_foldr hgrows ih ws hbelow _ hstuck
      have hfirst : (f.chart.addSplits s (source.answer f.memory s).1).hasSplits s = true := by
        rw [Chart.hasSplits_iff, Chart.splitsFor_addSplits, if_pos rfl]
        exact fun hnil => hne (List.append_eq_nil_iff.mp hnil).2
      have hlater : Grows g source _ _ := .foldr hgrows ws
        { f with
          memory := (source.answer f.memory s).2
          chart := f.chart.addSplits s (source.answer f.memory s).1 }
      refine ⟨.inr (hlater.hasSplits hfirst), fun t ht split hsplit w hw => ?_⟩
      by_cases hst : s = t
      · subst hst
        rw [hlater.kept s hfirst, Chart.splitsFor_addSplits, if_pos rfl] at hsplit
        have hnil : f.chart.splitsFor s = [] := by
          by_contra hne
          rw [Chart.hasSplits_iff.mpr hne] at hs
          cases hs
        rw [hnil, List.nil_append] at hsplit
        exact hsettled w (hws ▸ List.mem_flatMap.mpr ⟨split, hsplit, hw⟩)
      · refine hsettles t ?_ split hsplit w hw
        rw [Chart.hasSplits, Chart.splitsFor_addSplits, if_neg hst]
        exact ht

/-! ## The whole graph -/

theorem splitsFor_foldl_addToplevel (ws : List Subgraph) (c : Chart) (s : Subgraph) :
    (ws.foldl Chart.addToplevel c).splitsFor s = c.splitsFor s := by
  induction ws generalizing c with
  | nil => rfl
  | cons w ws ih => rw [List.foldl_cons, ih, Chart.splitsFor_addToplevel]

theorem toplevel_foldl_addToplevel (ws : List Subgraph) (c : Chart) :
    (ws.foldl Chart.addToplevel c).toplevel = c.toplevel ++ ws := by
  induction ws generalizing c with
  | nil => simp
  | cons w ws ih =>
    rw [List.foldl_cons, ih]
    simp [Chart.addToplevel]

/-- The filling from which a chart is filled, whatever it stores. -/
def reopening (g : Graph) (memory : σ) (c : Chart) : Filling σ where
  chart := g.wholeComponents.foldl Chart.addToplevel c
  memory := memory

/-- The filling from which a new chart is filled. -/
def opening (g : Graph) (memory : σ) : Filling σ := g.reopening memory .empty

theorem hasSplits_reopening (memory : σ) (c : Chart) (s : Subgraph) :
    (g.reopening memory c).chart.hasSplits s = c.hasSplits s := by
  rw [Chart.hasSplits, reopening, splitsFor_foldl_addToplevel, Chart.hasSplits]

theorem hasSplits_opening (memory : σ) (s : Subgraph) :
    (g.opening memory).chart.hasSplits s = false :=
  hasSplits_reopening memory .empty s

theorem grows_solveInto (g : Graph) (source : SplitSource σ) (memory : σ) :
    Grows g source (g.opening memory) (g.solveInto source memory .empty) :=
  .foldr (grows_fill g source g.size) _ _

theorem toplevel_solveInto (g : Graph) (source : SplitSource σ) (memory : σ) :
    (g.solveInto source memory .empty).chart.toplevel = g.wholeComponents := by
  rw [(grows_solveInto g source memory).toplevel, opening, reopening, toplevel_foldl_addToplevel]
  rfl

/-- Solving keeps whatever storing splits and registering subgraphs keep. -/
theorem solveInto_preserves (g : Graph) (source : SplitSource σ) {P : Chart → Prop}
    (hadd : ∀ c s splits, P c → P (c.addSplits s splits))
    (htop : ∀ c s, P c → P (c.addToplevel s)) {chart : Chart} (h : P chart) (memory : σ) :
    P (g.solveInto source memory chart).chart := by
  have hopening : P (g.wholeComponents.foldl Chart.addToplevel chart) := by
    induction g.wholeComponents generalizing chart with
    | nil => exact h
    | cons w ws ih => exact ih (htop chart w h)
  exact List.foldrRecOn (motive := fun f : Filling σ => P f.chart) _ _ hopening
    fun f hf w _ => fill_preserves hadd g.size w hf

/-- What a new chart stores is an answer of the source. -/
theorem splitsFor_solveInto {memory : σ}
    (h : (g.solveInto source memory .empty).chart.hasSplits s = true) :
    g.soleRoot? s = none ∧ ∃ memory',
      (g.solveInto source memory .empty).chart.splitsFor s = (source.answer memory' s).1 :=
  (grows_solveInto g source memory).added s (hasSplits_opening memory s) h

/-- **A new chart stores splits of the graph only, whether it was filled or not.** -/
theorem sound_solveInto (hsel : source.Selects g) (memory : σ) :
    (g.solveInto source memory .empty).chart.Sound g := by
  intro t split hsplit
  obtain ⟨hsole, memory', hans⟩ :=
    splitsFor_solveInto (Chart.hasSplits_iff.mpr (List.ne_nil_of_mem hsplit))
  rw [hans] at hsplit
  exact ⟨(hsel.sublist memory' t).subset hsplit, hsole⟩

/-- A subgraph of the graph is not larger than the graph. -/
theorem size_le_of_lt (h : ∀ n ∈ s, n < g.size) : s.size ≤ g.size := by
  have hsub : s.ids ⊆ List.range g.size := fun n hn => List.mem_range.mpr (h n hn)
  have hlen := (List.subperm_of_subset s.nodup_ids hsub).length_le
  rwa [List.length_range] at hlen

/-- The components of the graph are within reach of a filling. -/
theorem small_of_mem_wholeComponents (hw : w ∈ g.wholeComponents) :
    (∃ n, n ∈ w) ∧ w.size ≤ g.size :=
  ⟨(whole_of_mem_wholeComponents hw).nonempty, size_le_of_lt (whole_of_mem_wholeComponents hw).lt⟩

/-- **A filled chart is complete.** -/
theorem complete_solveInto (hsel : source.Selects g) {memory : σ}
    (h : (g.solveInto source memory .empty).solved = true) :
    (g.solveInto source memory .empty).chart.Complete g := by
  have hstuck : (g.solveInto source memory .empty).stuck = none := Option.isNone_iff_eq_none.mp h
  obtain ⟨hsettled, hsettles⟩ := settles_foldr (grows_fill g source g.size)
    (settles_fill hsel g.size) g.wholeComponents (fun _ => small_of_mem_wholeComponents)
    (g.opening memory) hstuck
  refine ⟨sound_solveInto hsel memory, fun s hs => ?_, fun s hs => ?_⟩
  · rw [toplevel_solveInto] at hs
    exact (whole_of_mem_wholeComponents hs).lt
  rcases hs with htop | ⟨t, split, hsplit, hw⟩
  · rw [toplevel_solveInto] at htop
    exact hsettled s htop
  · exact hsettles t (hasSplits_opening memory t) split hsplit s hw

end Graph

/-! ## Solving and solvability -/

/-- Everything that a complete chart mentions is solvable. -/
theorem Chart.Complete.solvable {c : Chart} {g : Graph} (h : c.Complete g) {s : Subgraph}
    (hs : c.Mentions s) : g.Solvable s := by
  induction hsize : s.size using Nat.strongRecOn generalizing s with
  | _ size ih =>
    rcases h.settled s hs with hsole | hsplits
    · obtain ⟨r, hr⟩ := Option.isSome_iff_exists.mp hsole
      exact .sole hr
    · obtain ⟨split, hsplit⟩ := List.exists_mem_of_ne_nil _ (hasSplits_iff.mp hsplits)
      have hg := (h.sound s split hsplit).1
      refine .split hg fun w hw => ih w.size ?_ (.inr ⟨s, split, hsplit, hw⟩) rfl
      exact hsize ▸ Graph.size_lt_of_mem_components hg hw

namespace Graph

variable {σ : Type} {g : Graph} {source : SplitSource σ} {s : Subgraph}

/-- Filling does not get stuck below a solvable subgraph. -/
theorem stuck_fill_eq_none (hg : g.isWeaklyNormal = true) (hsel : source.Selects g) (depth : Nat)
    (hs : g.Whole s) (h : g.Solvable s) {f : Filling σ} (hf : f.stuck = none) :
    (g.fill source depth s f).stuck = none := by
  induction depth generalizing s f with
  | zero => exact hf
  | succ depth ih =>
    obtain ⟨-, he⟩ | ⟨-, -, hsole, ⟨hnil, -⟩ | ⟨-, he⟩⟩ := fill_cases g source depth s f
    · rw [he]
      exact hf
    · -- a solvable subgraph with several roots has a split
      have hempty := hsel.nonempty _ _ hnil
      cases h with
      | sole hr => rw [hr] at hsole; cases hsole
      | split hsplit _ => rw [hempty] at hsplit; cases hsplit
    · rw [he]
      refine List.foldrRecOn (motive := fun f' : Filling σ => f'.stuck = none) _ _ hf
        fun f' hf' w hw => ?_
      obtain ⟨split, hsplit, hw⟩ := List.mem_flatMap.mp hw
      have hsplit := (hsel.sublist _ _).subset hsplit
      exact ih (hs.of_mem_components hsplit hw) (h.components hg hs hsplit w hw) hf'

/-- **Solving succeeds exactly if every component of the graph is solvable, whatever the source
selects.** -/
theorem solved_iff (hg : g.isWeaklyNormal = true) (hsel : source.Selects g) (memory : σ) :
    (g.solveInto source memory .empty).solved = true ↔ ∀ w ∈ g.wholeComponents, g.Solvable w := by
  constructor
  · intro h w hw
    refine (complete_solveInto hsel h).solvable (.inl ?_)
    rw [toplevel_solveInto]
    exact hw
  · intro h
    refine Option.isNone_iff_eq_none.mpr ?_
    refine List.foldrRecOn (motive := fun f : Filling σ => f.stuck = none) _ _ rfl
      fun f hf w hw => ?_
    exact stuck_fill_eq_none hg hsel g.size (whole_of_mem_wholeComponents hw) (h w hw) hf

/-! ## The chart of all splits -/

theorem solve?_eq_some_iff {c : Chart} :
    g.solve? = some c ↔ g.solving.solved = true ∧ g.solving.chart = c := by
  unfold solve? Filling.chart?
  split
  · next h => simp [h]
  · next h => simp [h]

theorem isSome_solve? : g.solve?.isSome = true ↔ g.solving.solved = true := by
  simp [Option.isSome_iff_exists, solve?_eq_some_iff]

theorem toplevel_solving : g.solving.chart.toplevel = g.wholeComponents := toplevel_solveInto _ _ _

theorem complete_solving (h : g.solving.solved = true) : g.solving.chart.Complete g :=
  complete_solveInto (SplitSource.selects_complete g) h

/-- Solving keeps all splits of what it splits at all. -/
theorem splitsFor_solving (h : g.solving.chart.hasSplits s = true) :
    g.solving.chart.splitsFor s = g.splits s := by
  obtain ⟨-, memory, hsplits⟩ := splitsFor_solveInto h
  exact hsplits

/-! ## Two small graphs -/

/-- The graph of the listed nodes and edges, or the empty graph if an edge ends elsewhere. -/
def build (nodes : List (String × Option String)) (edges : List Edge) : Graph :=
  match (nodes.foldl (fun g node => (g.addNode node.1 node.2).2) empty).connect edges with
  | .ok g => g
  | .error _ => empty

/-- Two fragments with a hole each, both above a third one: either of them can be on top. -/
def twoReadings : Graph :=
  build [("x", some "f"), ("xh", none), ("y", some "g"), ("yh", none), ("z", some "a")]
    [⟨.tree, 0, 1⟩, ⟨.tree, 2, 3⟩, ⟨.dominance, 1, 4⟩, ⟨.dominance, 3, 4⟩]

/-- A node on top of two others, each of which should lie above the other one. -/
def sunken : Graph :=
  build [("a", some "f"), ("x", some "g"), ("y", some "h")]
    [⟨.dominance, 0, 1⟩, ⟨.dominance, 1, 2⟩, ⟨.dominance, 2, 1⟩]

end Graph

end Dominance
