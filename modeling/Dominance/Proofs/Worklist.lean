import Dominance.Proofs.Filling

/-!
# Filling with a worklist

Filling can also be done by a loop.
Subgraphs are pending; in each turn the loop takes the one that was found last, and if it stores
splits for it, their components become pending.
The loop ends when nothing is pending or a subgraph has no split.

Nothing in the loop itself bounds the number of its turns, since a subgraph can become pending many
times.
It ends because the components of a split are smaller than what is split, and it ends with the
filling that the recursion computes.

* `Worklist.next?` — one turn of the loop
* `Worklist.Ends` — the loop ends, and with what filling
* `ends_fill` — the loop goes through a pending subgraph as the recursion does
* `ends_solveInto` — the loop ends from the components of the graph
-/

namespace Dominance

/-- Subgraphs that are pending, those found last in front, and the filling so far. -/
structure Worklist (σ : Type) where
  pending : List Subgraph
  filling : Filling σ

variable {σ : Type} {g : Graph} {source : SplitSource σ} {s : Subgraph}

namespace Worklist

/-- One turn of the loop, unless it has come to its end. -/
def next? (g : Graph) (source : SplitSource σ) (work : Worklist σ) : Option (Worklist σ) :=
  match work.pending with
  | [] => none
  | s :: rest =>
    if work.filling.stuck.isSome then none
    else if work.filling.chart.hasSplits s || (g.soleRoot? s).isSome then
      some { work with pending := rest }
    else
      match source.answer work.filling.memory s with
      | ([], memory) =>
        some { pending := rest, filling := { work.filling with memory, stuck := some s } }
      | (splits, memory) =>
        some {
          pending := (splits.flatMap Split.components).reverse ++ rest
          filling := { work.filling with
            memory
            chart := work.filling.chart.addSplits s splits } }

/-- The loop comes to its end after finitely many turns, and leaves a filling. -/
inductive Ends (g : Graph) (source : SplitSource σ) : Worklist σ → Filling σ → Prop
  | finished {work : Worklist σ} (h : work.next? g source = none) : Ends g source work work.filling
  | turn {work work' : Worklist σ} {f : Filling σ} (h : work.next? g source = some work')
    (hends : Ends g source work' f) : Ends g source work f

/-- What the loop leaves is determined by where it starts. -/
theorem Ends.unique {work : Worklist σ} {f f' : Filling σ} (h : work.Ends g source f)
    (h' : work.Ends g source f') : f = f' := by
  induction h with
  | finished hnone =>
    cases h' with
    | finished => rfl
    | turn hsome => rw [hnone] at hsome; cases hsome
  | turn hsome _ ih =>
    cases h' with
    | finished hnone => rw [hsome] at hnone; cases hnone
    | turn hsome' hends =>
      rw [hsome] at hsome'
      cases hsome'
      exact ih hends

/-! ## One turn -/

variable {f f' : Filling σ} {rest : List Subgraph}

theorem next?_of_stuck (h : f.stuck.isSome = true) (pending : List Subgraph) :
    next? g source ⟨pending, f⟩ = none := by
  cases pending with
  | nil => rfl
  | cons s rest => simp [next?, h]

/-- A loop that got stuck is at its end, whatever is pending. -/
theorem ends_of_stuck (h : f.stuck.isSome = true) (pending : List Subgraph) :
    Ends g source ⟨pending, f⟩ f := .finished (next?_of_stuck h pending)

theorem next?_of_settled (hstuck : f.stuck = none) (h : f.chart.Settled g s) :
    next? g source ⟨s :: rest, f⟩ = some ⟨rest, f⟩ := by
  have hskip : (f.chart.hasSplits s || (g.soleRoot? s).isSome) = true := by
    simpa [Chart.Settled, or_comm] using h
  simp [next?, hstuck, hskip]

theorem next?_of_answer_eq_nil (hstuck : f.stuck = none) (hs : f.chart.hasSplits s = false)
    (hsole : g.soleRoot? s = none) (h : (source.answer f.memory s).1 = []) :
    next? g source ⟨s :: rest, f⟩
      = some ⟨rest, { f with memory := (source.answer f.memory s).2, stuck := some s }⟩ := by
  rcases hans : source.answer f.memory s with ⟨splits, memory⟩
  obtain rfl : splits = [] := by rw [hans] at h; exact h
  simp [next?, hstuck, hs, hsole, hans]

theorem next?_of_answer_ne_nil (hstuck : f.stuck = none) (hs : f.chart.hasSplits s = false)
    (hsole : g.soleRoot? s = none) (h : (source.answer f.memory s).1 ≠ []) :
    next? g source ⟨s :: rest, f⟩
      = some ⟨((source.answer f.memory s).1.flatMap Split.components).reverse ++ rest,
          { f with
            memory := (source.answer f.memory s).2
            chart := f.chart.addSplits s (source.answer f.memory s).1 }⟩ := by
  rcases hans : source.answer f.memory s with ⟨splits, memory⟩
  rw [hans] at h
  cases splits with
  | nil => exact absurd rfl h
  | cons split splits => simp [next?, hstuck, hs, hsole, hans]

/-! ## The loop and the recursion -/

/-- Listed subgraphs become pending; the loop goes through them last first, if it goes through each
of them. -/
theorem ends_foldr {fillOne : Subgraph → Filling σ → Filling σ} (ws : List Subgraph)
    (h : ∀ w ∈ ws, ∀ f rest, Ends g source ⟨rest, fillOne w f⟩ f' →
      Ends g source ⟨w :: rest, f⟩ f')
    (hends : Ends g source ⟨rest, ws.foldr fillOne f⟩ f') :
    Ends g source ⟨ws.reverse ++ rest, f⟩ f' := by
  induction ws generalizing rest with
  | nil => exact hends
  | cons w ws ih =>
    rw [List.reverse_cons, List.append_assoc]
    refine ih (fun v hv => h v (List.mem_cons_of_mem _ hv)) ?_
    exact h w List.mem_cons_self _ rest hends

/-- **The loop goes through a pending subgraph as the recursion does**: if it ends after the
recursion has filled the chart from the subgraph, it ends with the subgraph still pending. -/
theorem ends_fill (hsel : source.Selects g) (depth : Nat) (hsmall : (∃ n, n ∈ s) ∧ s.size ≤ depth)
    (hends : Ends g source ⟨rest, g.fill source depth s f⟩ f') :
    Ends g source ⟨s :: rest, f⟩ f' := by
  induction depth generalizing s f rest with
  | zero =>
    obtain ⟨⟨n, hn⟩, hsize⟩ := hsmall
    have hnil : s.ids = [] := List.length_eq_zero_iff.mp (Nat.le_zero.mp hsize)
    rw [← Subgraph.mem_ids, hnil] at hn
    cases hn
  | succ depth ih =>
    obtain ⟨hskip, h⟩ | ⟨hstuck, hs, hsole, ⟨hnil, h⟩ | ⟨hne, h⟩⟩ :=
      Graph.fill_cases g source depth s f
    · rw [h] at hends
      by_cases hstop : f.stuck.isSome = true
      · rw [hends.unique (ends_of_stuck hstop rest)]
        exact ends_of_stuck hstop _
      · have hstuck : f.stuck = none := by simpa using hstop
        exact .turn (next?_of_settled hstuck (hskip.resolve_left hstop)) hends
    · rw [h] at hends
      exact .turn (next?_of_answer_eq_nil hstuck hs hsole hnil) hends
    · rw [h] at hends
      refine .turn (next?_of_answer_ne_nil hstuck hs hsole hne) ?_
      refine ends_foldr _ (fun w hw _ _ hends => ih ?_ hends) hends
      -- a component is smaller than the subgraph, so that one level less suffices for it
      obtain ⟨split, hsplit, hw⟩ := List.mem_flatMap.mp hw
      have hsplit := (hsel.sublist _ s).subset hsplit
      have hlt := Graph.size_lt_of_mem_components hsplit hw
      have := hsmall.2
      exact ⟨Graph.nonempty_of_mem_components hsplit hw, by omega⟩

/-- **From the components of a graph the loop comes to its end, with the filling of the
recursion**, whatever the chart stores before. -/
theorem ends_solveInto (hsel : source.Selects g) (memory : σ) (c : Chart) :
    Ends g source ⟨g.wholeComponents.reverse, g.reopening memory c⟩
      (g.solveInto source memory c) := by
  have hends : Ends g source ⟨[], g.solveInto source memory c⟩ _ := .finished rfl
  have h := ends_foldr (f := g.reopening memory c) g.wholeComponents
    (fun _ hw _ _ => ends_fill hsel g.size (Graph.small_of_mem_wholeComponents hw)) hends
  rwa [List.append_nil] at h

end Worklist

end Dominance
