import Dominance.Proofs.Bookkeeping
import Dominance.Proofs.Counting
import Dominance.Proofs.Descent

/-!
# What a chart remembers

A chart remembers the counts that were computed since its last change.
Counting adds to them, an operation that is refused leaves them alone, and every operation that may
change the splits forgets them.
So as long as the chart does not refer to itself in a circle, all that it remembers is right, in
whatever order counts and changes come.

`Amounts` is the recursion behind a count, as a relation that has neither a memory nor a bound on
its depth.

* `amounts_iff` — the recursion has one result, which is the count without memory
* `perform_trusted` — one operation keeps what is remembered right
* `counts_are_never_stale` — counts after any run of operations
-/

namespace Dominance.Chart

variable {c : Chart} {rank : Subgraph → Nat} {s : Subgraph} {n : Nat}

/-! ## The recursion -/

/-- The number of solved forms of a subgraph by recursion: one if it has no splits, else the sum
over its splits of the product over their components. -/
inductive Amounts (c : Chart) : Subgraph → Nat → Prop
  | unsplit {s : Subgraph} (h : c.splitsFor s = []) : Amounts c s 1
  | split {s : Subgraph} {amount : Subgraph → Nat} (hne : c.splitsFor s ≠ [])
    (h : ∀ split ∈ c.splitsFor s, ∀ w ∈ split.components, Amounts c w (amount w)) :
    Amounts c s ((c.splitsFor s).map fun split => (split.components.map amount).prod).sum

/-- The recursion comes to its end where references go down in rank. -/
theorem Ranked.amounts_tally (hr : c.Ranked rank) (s : Subgraph) : c.Amounts s (c.tally s) := by
  induction hrank : rank s using Nat.strong_induction_on generalizing s with
  | _ k ih =>
    by_cases hnil : c.splitsFor s = []
    · rw [tally_of_nil hnil]
      exact .unsplit hnil
    · rw [hr.tally_of_splits hnil]
      refine .split hnil fun split hsplit w hw => ?_
      exact ih (rank w) (hrank ▸ hr s split hsplit w hw) w rfl

theorem Ranked.tally_of_amounts (hr : c.Ranked rank) (h : c.Amounts s n) : n = c.tally s := by
  induction h with
  | unsplit hnil => exact (tally_of_nil hnil).symm
  | split hne _ ih =>
    rw [hr.tally_of_splits hne]
    congr 1
    refine List.map_congr_left fun split hsplit => ?_
    congr 1
    exact List.map_congr_left fun w hw => ih split hsplit w hw

/-- **The recursion has one result, which is the count without memory.** -/
theorem Acyclic.amounts_iff (h : c.Acyclic) : c.Amounts s n ↔ n = c.tally s := by
  refine ⟨h.ranked.tally_of_amounts, ?_⟩
  rintro rfl
  exact h.ranked.amounts_tally s

/-! ## The memory -/

/-- Unless the chart refers to itself in a circle, all that it remembers is right. -/
def Trusted (c : Chart) : Prop := c.Acyclic → c.Remembers c.counts

/-- A chart that remembers nothing can be trusted. -/
theorem trusted_of_forgotten (h : c.counts = ∅) : c.Trusted :=
  fun _ => h ▸ remembers_empty c

/-- Whether something remembered is right does not depend on what else is. -/
theorem remembers_with_counts {counts known : Counts} (h : c.Remembers known) :
    Remembers { c with counts } known :=
  fun s n hs => (h s n hs).trans (tally_with_counts c counts s).symm

theorem count_trusted (h : c.Trusted) : c.count.2.Trusted := by
  intro hacyclic
  have hacyclic : c.Acyclic := hacyclic
  exact remembers_with_counts (hacyclic.ranked.count_spec (h hacyclic)).2

theorem countFor_trusted (h : c.Trusted) (s : Subgraph) : (c.countFor s).2.Trusted := by
  intro hacyclic
  have hacyclic : c.Acyclic := hacyclic
  exact remembers_with_counts (hacyclic.ranked.countFor_spec (h hacyclic) s).2

/-- **One operation keeps what is remembered right.** -/
theorem perform_trusted (h : c.Trusted) (operation : Operation) :
    (c.perform operation).Trusted := by
  cases operation with
  | addSplit s split => exact trusted_of_forgotten rfl
  | addToplevel s => exact trusted_of_forgotten rfl
  | setSplits s splits =>
    rw [perform, setSplits]
    split
    · exact h
    · exact trusted_of_forgotten rfl
  | delete s =>
    rw [perform, delete]
    split
    · exact h
    · exact trusted_of_forgotten rfl
  | count => exact count_trusted h
  | countFor s => exact countFor_trusted h s

/-- What is remembered after a run of operations is right. -/
theorem run_trusted (operations : List Operation) : (run operations).Trusted := by
  suffices ∀ c : Chart, c.Trusted → (operations.foldl perform c).Trusted from
    this empty (trusted_of_forgotten rfl)
  induction operations with
  | nil => exact fun _ h => h
  | cons operation operations ih => exact fun c h => ih _ (perform_trusted h operation)

/--
**Counts are never stale.**

The operations come in any order, with counts in between and with removals that are refused. If the
chart does not refer to itself in a circle when a count is asked for, the count of a subgraph is
what the recursion gives on the splits that are stored then, and the count of the chart is the
product of these over its top-level subgraphs, as often as each was registered.
-/
theorem counts_are_never_stale (operations : List Operation) (hacyclic : (run operations).Acyclic) :
    (∀ s n, ((run operations).countFor s).1 = n ↔ (run operations).Amounts s n)
      ∧ (run operations).count.1
        = ((run operations).toplevel.map fun s => ((run operations).countFor s).1).prod := by
  have htrusted := run_trusted operations hacyclic
  have hcountFor : ∀ s, ((run operations).countFor s).1 = (run operations).tally s :=
    fun s => (hacyclic.ranked.countFor_spec htrusted s).1
  refine ⟨fun s n => ?_, ?_⟩
  · rw [hacyclic.amounts_iff, hcountFor]
    exact eq_comm
  · rw [(hacyclic.ranked.count_spec htrusted).1, funext hcountFor]

/-- Counts between changes: more splits for a subgraph that was counted as one without any, a
removal that is refused, a replacement that takes other subgraphs along, and a subgraph that is
registered twice. -/
def interleaved : List Operation :=
  [.addToplevel (.range 4),
    .addSplit (.range 4) ((Split.bare 0).attach 0 (.ofList [1, 2, 3])),
    .addSplit (.ofList [1, 2, 3]) ((Split.bare 1).attach 1 (.ofList [2, 3])),
    .count,
    .delete (.ofList [2, 3]),
    .addSplit (.ofList [2, 3]) ((Split.bare 2).attach 2 (.ofList [3])),
    .addSplit (.ofList [2, 3]) ((Split.bare 3).attach 3 (.ofList [2])),
    .countFor (.ofList [1, 2, 3]),
    .delete (.ofList [1, 2, 3]),
    .addSplit (.range 4) (((Split.bare 1).attach 1 (.ofList [2, 3])).attach 1 (.ofList [2, 3])),
    .count,
    .setSplits (.range 4) [((Split.bare 1).attach 1 (.ofList [2, 3])).attach 1 (.ofList [2, 3])],
    .count,
    .addToplevel (.range 4)]

theorem counts_are_never_stale_interleaved :
    (run interleaved).Acyclic
      ∧ (run interleaved).Amounts (.range 4) 4 ∧ (run interleaved).Amounts (.ofList [1, 2, 3]) 1
      ∧ (run interleaved).count.1
        = ((run interleaved).toplevel.map fun s => ((run interleaved).countFor s).1).prod := by
  have hacyclic : (run interleaved).Acyclic :=
    (ranked_of_table Subgraph.size (by decide +kernel)).acyclic
  obtain ⟨hcountFor, hcount⟩ := counts_are_never_stale interleaved hacyclic
  exact ⟨hacyclic, (hcountFor _ _).mp (by decide +kernel), (hcountFor _ _).mp (by decide +kernel),
    hcount⟩

end Dominance.Chart
