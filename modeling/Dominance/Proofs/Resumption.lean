import Dominance.Proofs.Closure

/-!
# Filling a chart again

Filling that gets stuck leaves behind a chart with everything that was stored before.
Filling the same chart again skips all subgraphs that have splits, and with them everything below:
a component of the graph that was split, but got stuck further down, is taken for settled.
So each failure hides one component, unless the component itself has no split and stands in the way
every time.

What has to be looked at is thus known from the graph alone.
Solving a chart again after some calls succeeds exactly if every component has a single root or a
split, and not more components than there were calls cannot be solved.
The worklist loop ends on such a chart as well, and with the same filling
(`Worklist.ends_solveInto`).

* `stuck_fill_eq_none_iff` — when filling from a subgraph succeeds that nothing was stored for
* `owned_fill` — stored subgraphs keep belonging to stored components
* `solved_solveInto_iff` — when solving succeeds with a chart that was filled before
* `count_blocks_solveInto` — each failure hides one component
* `solved_refilled_iff` — the outcome of every call
* `solves_sunken_again` — a graph that has no solution is solved by the second call
-/

namespace Dominance

/-! ## Filling from one subgraph -/

namespace Graph

variable {σ : Type} {g : Graph} {source : SplitSource σ} {answer : Subgraph → List Split}
  {s t v w : Subgraph} {f : Filling σ}

/-- What is settled is skipped. -/
theorem fill_eq_of_settled (depth : Nat) (hs : f.chart.Settled g s) :
    g.fill source depth s f = f := by
  cases depth with
  | zero => rfl
  | succ depth =>
    rw [fill, if_pos]
    simp only [Bool.or_eq_true]
    exact hs.elim .inr fun h => .inl (.inr h)

/-- Filling from a subgraph stores the subgraph itself, or stores nothing: because there is nothing
to do, or because there is no split. -/
theorem fill_stores (g : Graph) (source : SplitSource σ) (depth : Nat) (s : Subgraph)
    (f : Filling σ) : (g.fill source depth s f).chart.hasSplits s = true ∨
      g.fill source depth s f = f ∨
        (g.fill source depth s f).chart = f.chart ∧ g.soleRoot? s = none
          ∧ (source.answer f.memory s).1 = [] := by
  cases depth with
  | zero => exact .inr (.inl rfl)
  | succ depth =>
    obtain ⟨-, he⟩ | ⟨-, -, hsole, ⟨hnil, he⟩ | ⟨hne, he⟩⟩ := fill_cases g source depth s f
    · exact .inr (.inl he)
    · exact .inr (.inr ⟨by rw [he], hsole, hnil⟩)
    · refine .inl ?_
      rw [he]
      refine (Grows.foldr (grows_fill g source depth) _ _).hasSplits ?_
      rw [Chart.hasSplits_iff, Chart.splitsFor_addSplits, if_pos rfl]
      exact fun hnil => hne (List.append_eq_nil_iff.mp hnil).2

/-- What was added to a chart has the splits that the source gives. -/
theorem Grows.splitsFor_added {f' : Filling σ} (h : Grows g source f f')
    (hsteady : source.Steady answer) (ht : f.chart.hasSplits t = false)
    (ht' : f'.chart.hasSplits t = true) : f'.chart.splitsFor t = answer t := by
  obtain ⟨-, memory, hans⟩ := h.added t ht ht'
  rw [hans, hsteady]

/-- All that is needed for the subgraph has splits, unless it has exactly one root. -/
def Answered (g : Graph) (answer : Subgraph → List Split) (s : Subgraph) : Prop :=
  ∀ t, g.NeededFor answer s t → (g.rootsIn t).length ≠ 1 → answer t ≠ []

/-- Filling that succeeds settles all that is needed for a subgraph, if nothing was stored for it
before. -/
theorem settled_of_neededFor (hsel : source.Selects g) (hsteady : source.Steady answer)
    {depth : Nat} (hsmall : (∃ n, n ∈ s) ∧ s.size ≤ depth)
    (hfresh : ∀ t, g.NeededFor answer s t → f.chart.hasSplits t = false)
    (hstuck : (g.fill source depth s f).stuck = none) (ht : g.NeededFor answer s t) :
    (g.fill source depth s f).chart.Settled g t := by
  obtain ⟨hsettled, hsettles⟩ := settles_fill hsel depth s f hsmall hstuck
  induction ht with
  | self => exact hsettled
  | @part t w split ht hroots hsplit hw ih =>
    rcases ih with hsole | hstored
    · rw [soleRoot?_eq_none_iff.mpr hroots] at hsole
      cases hsole
    · rw [← (grows_fill g source depth s f).splitsFor_added hsteady (hfresh t ht) hstored]
        at hsplit
      exact hsettles t (hfresh t ht) split hsplit w hw

/-- **Filling from a subgraph that nothing was stored for succeeds exactly if the source has an
answer for all that it needs.** -/
theorem stuck_fill_eq_none_iff (hsel : source.Selects g) (hsteady : source.Steady answer)
    {depth : Nat} (hsmall : (∃ n, n ∈ s) ∧ s.size ≤ depth)
    (hfresh : ∀ t, g.NeededFor answer s t → f.chart.hasSplits t = false)
    (hf : f.stuck = none) :
    (g.fill source depth s f).stuck = none ↔ g.Answered answer s := by
  constructor
  · intro hstuck t ht hroots
    rcases settled_of_neededFor hsel hsteady hsmall hfresh hstuck ht with hsole | hstored
    · rw [soleRoot?_eq_none_iff.mpr hroots] at hsole
      cases hsole
    · rw [← (grows_fill g source depth s f).splitsFor_added hsteady (hfresh t ht) hstored]
      exact Chart.hasSplits_iff.mp hstored
  · intro h
    by_contra hne
    obtain ⟨t, ht⟩ := Option.ne_none_iff_exists'.mp hne
    rcases (addsFor_fill hsteady depth s f).stuck t ht with hstuck | ⟨hneeded, hroots, hnil⟩
    · rw [hf] at hstuck
      cases hstuck
    · exact h t hneeded hroots hnil

/-! ## What the components need -/

/-- Whether a new chart can be filled with all splits from a subgraph down. -/
def solvesFrom (g : Graph) (s : Subgraph) : Bool :=
  (g.fill (.complete g) g.size s { chart := .empty, memory := () }).solved

theorem solvesFrom_iff (hw : w ∈ g.wholeComponents) :
    g.solvesFrom w = true ↔ g.Answered g.splits w := by
  rw [solvesFrom, Filling.solved, Option.isNone_iff_eq_none]
  exact stuck_fill_eq_none_iff (SplitSource.selects_complete g) (SplitSource.steady_complete g)
    (small_of_mem_wholeComponents hw) (fun _ _ => rfl) rfl

theorem NeededFor.subset (hs : g.NeededFor g.splits s t) : ∀ n ∈ t, n ∈ s := by
  induction hs with
  | self => exact fun _ hn => hn
  | part _ _ hsplit hw ih => exact fun n hn => ih n (subset_of_mem_components hsplit hw n hn).1

theorem NeededFor.nonempty (hne : ∃ n, n ∈ s) (hs : g.NeededFor g.splits s t) : ∃ n, n ∈ t := by
  cases hs with
  | self => exact hne
  | part _ _ hsplit hw => exact nonempty_of_mem_components hsplit hw

/-- Nothing is needed for two components of the graph. -/
theorem eq_of_neededFor (hv : v ∈ g.wholeComponents) (hw : w ∈ g.wholeComponents)
    (hvt : g.NeededFor g.splits v t) (hwt : g.NeededFor g.splits w t) : v = w := by
  obtain ⟨n, hn⟩ := hvt.nonempty (whole_of_mem_wholeComponents hv).nonempty
  exact (mem_componentsOf.mp hv).eq_of_mem (mem_componentsOf.mp hw) (hvt.subset n hn)
    (hwt.subset n hn)

end Graph

/-! ## Charts that were filled before -/

@[simp]
theorem Chart.hasSplits_empty (s : Subgraph) : Chart.empty.hasSplits s = false := rfl

/-- Every stored subgraph has splits, and is needed for a component of the graph that is stored as
well. -/
structure Chart.Owned (c : Chart) (g : Graph) : Prop where
  split : ∀ t, c.hasSplits t = true → g.splits t ≠ []
  owner : ∀ t, c.hasSplits t = true →
    ∃ w ∈ g.wholeComponents, c.hasSplits w = true ∧ g.NeededFor g.splits w t

namespace Graph

variable {g : Graph} {v w : Subgraph} {ws : List Subgraph} {f : Filling Unit} {c : Chart}

theorem owned_empty (g : Graph) : Chart.empty.Owned g where
  split t ht := by cases ht
  owner t ht := by cases ht

/-- **Filling from a component keeps a chart owned.** -/
theorem owned_fill (hw : w ∈ g.wholeComponents) (h : f.chart.Owned g) :
    (g.fill (.complete g) g.size w f).chart.Owned g := by
  have hsteady := SplitSource.steady_complete g
  have hgrows := grows_fill g (.complete g) g.size w f
  obtain hstored | he | ⟨he, -⟩ := fill_stores g (.complete g) g.size w f
  rotate_left
  · rwa [he]
  · rwa [he]
  refine ⟨fun t ht => ?_, fun t ht => ?_⟩
  · cases hold : f.chart.hasSplits t with
    | true => exact h.split t hold
    | false =>
      rw [← hgrows.splitsFor_added hsteady hold ht]
      exact Chart.hasSplits_iff.mp ht
  · rcases (addsFor_fill hsteady g.size w f).stored t ht with hold | hneeded
    · obtain ⟨v, hv, hvstored, hvt⟩ := h.owner t hold
      exact ⟨v, hv, hgrows.hasSplits hvstored, hvt⟩
    · exact ⟨w, hw, hstored, hneeded⟩

/-- Filling from a component does not touch the others. -/
theorem hasSplits_fill_of_ne (hv : v ∈ g.wholeComponents) (hw : w ∈ g.wholeComponents)
    (hne : v ≠ w) :
    (g.fill (.complete g) g.size w f).chart.hasSplits v = f.chart.hasSplits v := by
  rw [Bool.eq_iff_iff]
  refine ⟨fun h => ?_, (grows_fill g _ _ w f).hasSplits⟩
  refine ((addsFor_fill (SplitSource.steady_complete g) _ w f).stored v h).resolve_right ?_
  exact fun hneeded => hne (eq_of_neededFor hv hw .self hneeded)

/-- **Filling from a component succeeds exactly if the component is stored, or can be solved.** -/
theorem stuck_fill_component (hw : w ∈ g.wholeComponents) (h : f.chart.Owned g)
    (hf : f.stuck = none) :
    (g.fill (.complete g) g.size w f).stuck = none ↔
      f.chart.hasSplits w = true ∨ g.solvesFrom w = true := by
  cases hstored : f.chart.hasSplits w with
  | true => simp [fill_eq_of_settled g.size (.inr hstored), hf]
  | false =>
    -- what was stored for this component would make the component itself stored
    have hfresh : ∀ t, g.NeededFor g.splits w t → f.chart.hasSplits t = false := by
      intro t ht
      by_contra hstored'
      obtain ⟨v, hv, hvstored, hvt⟩ := h.owner t (Bool.not_eq_false _ ▸ hstored')
      rw [eq_of_neededFor hv hw hvt ht, hstored] at hvstored
      cases hvstored
    rw [solvesFrom_iff hw, stuck_fill_eq_none_iff (SplitSource.selects_complete g)
      (SplitSource.steady_complete g) (small_of_mem_wholeComponents hw) hfresh hf]
    simp

/-- A component at which filling gets stuck is stored all the same, unless it has no split. -/
theorem hasSplits_fill_of_stuck (hf : f.stuck = none)
    (hopen : (g.soleRoot? w).isSome = true ∨ g.splits w ≠ [])
    (hstuck : (g.fill (.complete g) g.size w f).stuck ≠ none) :
    (g.fill (.complete g) g.size w f).chart.hasSplits w = true := by
  obtain hstored | he | ⟨-, hsole, hnil⟩ := fill_stores g (.complete g) g.size w f
  · exact hstored
  · rw [he] at hstuck
    exact absurd hf hstuck
  · rw [hsole] at hopen
    exact absurd hnil (hopen.resolve_left (by simp))

/-! ## Filling from listed components -/

/-- Fills the chart from the listed components, last first. -/
def fillAll (g : Graph) (ws : List Subgraph) (f : Filling Unit) : Filling Unit :=
  ws.foldr (fun w f => g.fill (.complete g) g.size w f) f

/-- The component stands in the way of solving: it is not stored, and cannot be solved. -/
def blocks (g : Graph) (c : Chart) (w : Subgraph) : Bool := !c.hasSplits w && !g.solvesFrom w

theorem blocks_eq_false_iff :
    g.blocks c w = false ↔ c.hasSplits w = true ∨ g.solvesFrom w = true := by
  simp [blocks, or_iff_not_imp_left]

theorem count_blocks_eq_zero_iff :
    ws.countP (g.blocks c) = 0 ↔ ∀ w ∈ ws, g.blocks c w = false := by
  simp [List.countP_eq_zero]

/-- What does not stand in the way of solving never will. -/
theorem Grows.blocks_eq_false {f' : Filling Unit} {source : SplitSource Unit}
    (h : Grows g source f f') (hw : g.blocks f.chart w = false) :
    g.blocks f'.chart w = false := by
  rw [blocks_eq_false_iff] at *
  exact hw.imp_left h.hasSplits

theorem grows_fillAll (g : Graph) (ws : List Subgraph) (f : Filling Unit) :
    Grows g (.complete g) f (g.fillAll ws f) :=
  .foldr (grows_fill g (.complete g) g.size) ws f

theorem owned_fillAll (hws : ∀ w ∈ ws, w ∈ g.wholeComponents) (h : f.chart.Owned g) :
    (g.fillAll ws f).chart.Owned g :=
  List.foldrRecOn (motive := fun f : Filling Unit => f.chart.Owned g) _ _ h
    fun _ hf w hw => owned_fill (hws w hw) hf

theorem hasSplits_fillAll_of_not_mem (hws : ∀ w ∈ ws, w ∈ g.wholeComponents)
    (hv : v ∈ g.wholeComponents) (hvws : v ∉ ws) :
    (g.fillAll ws f).chart.hasSplits v = f.chart.hasSplits v := by
  refine List.foldrRecOn (motive := fun f' : Filling Unit =>
    f'.chart.hasSplits v = f.chart.hasSplits v) _ _ rfl fun f' hf' w hw => ?_
  rw [hasSplits_fill_of_ne hv (hws w hw) fun heq => hvws (heq ▸ hw), hf']

/-- **Filling from listed components succeeds exactly if none of them stands in the way.** -/
theorem stuck_fillAll_eq_none_iff (hws : ∀ w ∈ ws, w ∈ g.wholeComponents) (hnd : ws.Nodup)
    (h : f.chart.Owned g) (hf : f.stuck = none) :
    (g.fillAll ws f).stuck = none ↔ ∀ w ∈ ws, g.blocks f.chart w = false := by
  induction ws with
  | nil => simp [fillAll, hf]
  | cons w ws ih =>
    obtain ⟨hw, hws⟩ := List.forall_mem_cons.mp hws
    obtain ⟨hnot, hnd⟩ := List.nodup_cons.mp hnd
    have hsame := hasSplits_fillAll_of_not_mem (f := f) hws hw hnot
    rw [List.forall_mem_cons, ← ih hws hnd, blocks_eq_false_iff, ← hsame]
    constructor
    · intro hstuck
      have hrest := (grows_fill g _ _ w (g.fillAll ws f)).stuck_eq_none hstuck
      exact ⟨(stuck_fill_component hw (owned_fillAll hws h) hrest).mp hstuck, hrest⟩
    · rintro ⟨hnone, hrest⟩
      exact (stuck_fill_component hw (owned_fillAll hws h) hrest).mpr hnone

/-- **A failure hides one component**: after it, one component less stands in the way. -/
theorem count_blocks_fillAll (hws : ∀ w ∈ ws, w ∈ g.wholeComponents) (hnd : ws.Nodup)
    (hopen : ∀ w ∈ ws, (g.soleRoot? w).isSome = true ∨ g.splits w ≠ [])
    (h : f.chart.Owned g) (hf : f.stuck = none) (hstuck : (g.fillAll ws f).stuck ≠ none) :
    ws.countP (g.blocks (g.fillAll ws f).chart) + 1 = ws.countP (g.blocks f.chart) := by
  induction ws with
  | nil => exact absurd hf hstuck
  | cons w ws ih =>
    obtain ⟨hw, hws⟩ := List.forall_mem_cons.mp hws
    obtain ⟨hnot, hnd⟩ := List.nodup_cons.mp hnd
    obtain ⟨hopenw, hopen⟩ := List.forall_mem_cons.mp hopen
    have hsame := hasSplits_fillAll_of_not_mem (f := f) hws hw hnot
    have hgrows := grows_fill g (.complete g) g.size w (g.fillAll ws f)
    by_cases hrest : (g.fillAll ws f).stuck = none
    · -- the failure is in `w`, which is stored by then, and nothing else stands in the way
      have hnone := (stuck_fillAll_eq_none_iff hws hnd h hf).mp hrest
      have hstored : (g.fillAll (w :: ws) f).chart.hasSplits w = true :=
        hasSplits_fill_of_stuck hrest hopenw hstuck
      have hblocks : g.blocks f.chart w = true := by
        by_contra hno
        rw [Bool.not_eq_true, blocks_eq_false_iff, ← hsame] at hno
        exact hstuck ((stuck_fill_component hw (owned_fillAll hws h) hrest).mpr hno)
      have hafter : ∀ v ∈ ws, g.blocks (g.fillAll (w :: ws) f).chart v = false :=
        fun v hv => (grows_fillAll g (w :: ws) f).blocks_eq_false (hnone v hv)
      have hw0 : g.blocks (g.fillAll (w :: ws) f).chart w = false :=
        blocks_eq_false_iff.mpr (.inl hstored)
      rw [List.countP_cons_of_pos hblocks, List.countP_cons_of_neg (by simp [hw0]),
        count_blocks_eq_zero_iff.mpr hafter, count_blocks_eq_zero_iff.mpr hnone]
    · -- the failure comes before `w`, which is not looked at
      have hskip : g.fillAll (w :: ws) f = g.fillAll ws f :=
        hgrows.stopped (Option.isSome_iff_ne_none.mpr hrest)
      have hunchanged : g.blocks (g.fillAll ws f).chart w = g.blocks f.chart w := by
        rw [blocks, blocks, hsame]
      rw [hskip, List.countP_cons, List.countP_cons, hunchanged, ← ih hws hnd hopen hrest]
      omega

/-! ## Solving again -/

/-- The chart after some calls that fill it with all splits, each from where the one before it
stopped. -/
def refilled (g : Graph) : (calls : Nat) → Chart
  | 0 => .empty
  | calls + 1 => (g.solveInto (.complete g) () (g.refilled calls)).chart

/-- The components of the graph that cannot be solved. -/
def unsolvedComponents (g : Graph) : List Subgraph :=
  g.wholeComponents.filter fun w => !g.solvesFrom w

theorem solveInto_eq_fillAll (g : Graph) (c : Chart) :
    g.solveInto (.complete g) () c = g.fillAll g.wholeComponents (g.reopening () c) := rfl

theorem blocks_reopening (g : Graph) (c : Chart) :
    g.blocks (g.reopening () c).chart = g.blocks c := by
  funext w
  rw [blocks, blocks, hasSplits_reopening]

theorem owned_reopening (h : c.Owned g) : (g.reopening () c).chart.Owned g where
  split t ht := h.split t (hasSplits_reopening () c t ▸ ht)
  owner t ht := by
    obtain ⟨w, hw, hstored, hwt⟩ := h.owner t (hasSplits_reopening () c t ▸ ht)
    exact ⟨w, hw, by rwa [hasSplits_reopening], hwt⟩

theorem owned_solveInto (h : c.Owned g) : (g.solveInto (.complete g) () c).chart.Owned g :=
  owned_fillAll (fun _ hw => hw) (owned_reopening h)

theorem owned_refilled (g : Graph) (calls : Nat) : (g.refilled calls).Owned g := by
  induction calls with
  | zero => exact owned_empty g
  | succ calls ih => exact owned_solveInto ih

/-- **Solving succeeds exactly if every component is stored, or can be solved.** -/
theorem solved_solveInto_iff (h : c.Owned g) :
    (g.solveInto (.complete g) () c).solved = true ↔
      ∀ w ∈ g.wholeComponents, g.blocks c w = false := by
  rw [Filling.solved, Option.isNone_iff_eq_none, solveInto_eq_fillAll, ← blocks_reopening]
  exact stuck_fillAll_eq_none_iff (fun _ hw => hw) g.nodup_wholeComponents (owned_reopening h) rfl

/-- Each call takes one component out of the way, as long as there is one. -/
theorem count_blocks_solveInto (h : c.Owned g)
    (hopen : ∀ w ∈ g.wholeComponents, (g.soleRoot? w).isSome = true ∨ g.splits w ≠ []) :
    g.wholeComponents.countP (g.blocks (g.solveInto (.complete g) () c).chart) =
      g.wholeComponents.countP (g.blocks c) - 1 := by
  rw [solveInto_eq_fillAll, ← blocks_reopening g c]
  by_cases hstuck : (g.fillAll g.wholeComponents (g.reopening () c)).stuck = none
  · have hnone := (stuck_fillAll_eq_none_iff (fun _ hw => hw) g.nodup_wholeComponents
      (owned_reopening h) rfl).mp hstuck
    have hafter : ∀ w ∈ g.wholeComponents,
        g.blocks (g.fillAll g.wholeComponents (g.reopening () c)).chart w = false :=
      fun w hw => (grows_fillAll g g.wholeComponents _).blocks_eq_false (hnone w hw)
    rw [count_blocks_eq_zero_iff.mpr hafter, count_blocks_eq_zero_iff.mpr hnone]
  · rw [← count_blocks_fillAll (fun _ hw => hw) g.nodup_wholeComponents hopen
      (owned_reopening h) rfl hstuck, Nat.add_sub_cancel]

theorem count_blocks_refilled (calls : Nat)
    (hopen : ∀ w ∈ g.wholeComponents, (g.soleRoot? w).isSome = true ∨ g.splits w ≠ []) :
    g.wholeComponents.countP (g.blocks (g.refilled calls)) =
      g.unsolvedComponents.length - calls := by
  induction calls with
  | zero => rw [unsolvedComponents, ← List.countP_eq_length_filter]; rfl
  | succ calls ih =>
    rw [refilled, count_blocks_solveInto (owned_refilled g calls) hopen, ih, Nat.sub_sub]

/--
**The outcome of every call that fills the same chart.**

A call succeeds exactly if every component has a single root or a split, and not more components
than there were calls before cannot be solved. The graph has a chart exactly if all its components
can be solved.
-/
theorem solved_refilled_iff (g : Graph) (calls : Nat) :
    ((g.solveInto (.complete g) () (g.refilled calls)).solved = true ↔
        (∀ w ∈ g.wholeComponents, (g.soleRoot? w).isSome = true ∨ g.splits w ≠ [])
          ∧ g.unsolvedComponents.length ≤ calls)
      ∧ (g.solve?.isSome = true ↔ g.unsolvedComponents = []) := by
  have howned := owned_refilled g calls
  refine ⟨?_, ?_⟩
  · rw [solved_solveInto_iff howned]
    constructor
    · intro hnone
      have hopen : ∀ w ∈ g.wholeComponents, (g.soleRoot? w).isSome = true ∨ g.splits w ≠ [] := by
        intro w hw
        rcases blocks_eq_false_iff.mp (hnone w hw) with hstored | hsolves
        · exact .inr (howned.split w hstored)
        · refine or_iff_not_imp_left.mpr fun hsole => ?_
          have hroots := soleRoot?_eq_none_iff.mp (Option.not_isSome_iff_eq_none.mp hsole)
          exact (solvesFrom_iff hw).mp hsolves w .self hroots
      rw [← count_blocks_eq_zero_iff, count_blocks_refilled calls hopen] at hnone
      exact ⟨hopen, Nat.sub_eq_zero_iff_le.mp hnone⟩
    · rintro ⟨hopen, hle⟩
      rw [← count_blocks_eq_zero_iff, count_blocks_refilled calls hopen]
      exact Nat.sub_eq_zero_of_le hle
  · rw [isSome_solve?, solving, solved_solveInto_iff (owned_empty g), unsolvedComponents,
      List.filter_eq_nil_iff]
    refine forall₂_congr fun w _ => ?_
    rw [blocks_eq_false_iff]
    simp

/-- **The outcome of a later call does not tell whether the graph has a solution**: the second one
finds the splits of the only component, and looks no further. -/
theorem solves_sunken_again :
    ¬∀ (g : Graph) (calls : Nat),
      (g.solveInto (.complete g) () (g.refilled calls)).solved = true ↔ g.solve?.isSome = true := by
  intro h
  have hagain : (sunken.solveInto (.complete sunken) () (sunken.refilled 1)).solved = true := by
    decide +kernel
  have hsolved : sunken.solving.solved = false := by decide +kernel
  rw [h sunken 1, isSome_solve?, hsolved] at hagain
  cases hagain

end Graph

end Dominance
