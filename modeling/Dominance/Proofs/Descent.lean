import Mathlib.Logic.Relation
import Dominance.Proofs.Unfolding

/-!
# Descending through a chart

A subgraph refers to the components of its splits.
In a chart that does not refer to itself in a circle, no subgraph leads back to itself.
Then there is a rank that goes down with every reference: the number of stored subgraphs to which a
subgraph leads.
A chart with such a rank can be unfolded.

* `Acyclic.ranked`, `Ranked.acyclic` — having no circle, and having a rank
* `Reaches` — what the top-level subgraphs lead to
* `Unfoldable`, `Navigable` — what an enumeration relies on
-/

namespace Dominance.Chart

open Relation

variable {c : Chart} {g : Graph} {rank : Subgraph → Nat} {s t w : Subgraph}

/-- A stored split of one subgraph has the other one as a component. -/
def Refers (c : Chart) (s w : Subgraph) : Prop := ∃ split ∈ c.splitsFor s, w ∈ split.components

/-- The chart does not refer to itself in a circle. -/
def Acyclic (c : Chart) : Prop := ∀ s, ¬TransGen c.Refers s s

/-! ## Ranks -/

theorem Ranked.lt_of_leads (hr : c.Ranked rank) (h : TransGen c.Refers s t) : rank t < rank s := by
  induction h with
  | single hstep =>
    obtain ⟨split, hsplit, hw⟩ := hstep
    exact hr _ split hsplit _ hw
  | tail _ hstep ih =>
    obtain ⟨split, hsplit, hw⟩ := hstep
    exact Nat.lt_trans (hr _ split hsplit _ hw) ih

/-- Where references go down in rank there is no circle. -/
theorem Ranked.acyclic (hr : c.Ranked rank) : c.Acyclic :=
  fun _ h => Nat.lt_irrefl _ (hr.lt_of_leads h)

/-- A rank can be checked entry by entry. -/
theorem ranked_of_table (rank : Subgraph → Nat)
    (h : ∀ entry ∈ c.table.toList, ∀ split ∈ entry.2, ∀ w ∈ split.components,
      rank w < rank entry.1) : c.Ranked rank :=
  fun _ split hsplit w hw => h _ (mem_table_of_mem_splitsFor hsplit) split hsplit w hw

open Classical in
/-- The number of stored subgraphs to which a subgraph leads, itself included. -/
noncomputable def reach (c : Chart) (s : Subgraph) : Nat :=
  (c.subgraphs.filter fun t => ReflTransGen c.Refers s t).length

/-- **Without a circle, every reference leads to fewer subgraphs.** -/
theorem Acyclic.ranked (h : c.Acyclic) : c.Ranked c.reach := by
  classical
  intro t split hsplit w hw
  have hstep : c.Refers t w := ⟨split, hsplit, hw⟩
  -- what the component leads to the subgraph leads to as well, and the subgraph itself is new
  have hnd : (t :: c.subgraphs.filter fun u => ReflTransGen c.Refers w u).Nodup := by
    refine List.nodup_cons.mpr ⟨fun ht => ?_, c.nodup_subgraphs.filter _⟩
    exact h t (.head' hstep (of_decide_eq_true (List.mem_filter.mp ht).2))
  have hsub : (t :: c.subgraphs.filter fun u => ReflTransGen c.Refers w u) ⊆
      c.subgraphs.filter fun u => ReflTransGen c.Refers t u := by
    refine List.cons_subset.mpr ⟨?_, fun u hu => ?_⟩
    · exact List.mem_filter.mpr ⟨mem_subgraphs_of_mem_splitsFor hsplit, decide_eq_true .refl⟩
    · obtain ⟨hmem, hpath⟩ := List.mem_filter.mp hu
      exact List.mem_filter.mpr ⟨hmem, decide_eq_true (.head hstep (of_decide_eq_true hpath))⟩
  exact (List.subperm_of_subset hnd hsub).length_le

/-! ## What the top leads to -/

/-- The splits of the chart lead to the subgraph from a top-level one. -/
inductive Reaches (c : Chart) : Subgraph → Prop
  | toplevel {s : Subgraph} (h : s ∈ c.toplevel) : Reaches c s
  | component {s w : Subgraph} {split : Split} (hs : Reaches c s)
    (hsplit : split ∈ c.splitsFor s) (hw : w ∈ split.components) : Reaches c w

theorem Reaches.mentions (h : c.Reaches s) : c.Mentions s := by
  cases h with
  | toplevel htop => exact .inl htop
  | component _ hsplit hw => exact .inr ⟨_, _, hsplit, hw⟩

/-- What can be said about a chart entry by entry holds of all that the top leads to. -/
theorem Reaches.of_table {P : Subgraph → Prop} (htop : ∀ s ∈ c.toplevel, P s)
    (hpart : ∀ entry ∈ c.table.toList, ∀ split ∈ entry.2, ∀ w ∈ split.components, P w)
    {s : Subgraph} (hs : c.Reaches s) : P s := by
  rcases hs.mentions with hmem | ⟨t, split, hsplit, hw⟩
  · exact htop s hmem
  · exact hpart _ (mem_table_of_mem_splitsFor hsplit) split hsplit s hw

/-- From the top the chart leads to nodes of the graph only, and it does not refer to itself in a
circle. Splits may be missing. -/
structure Unfoldable (c : Chart) (g : Graph) : Prop where
  lt : ∀ s, c.Reaches s → ∀ n ∈ s, n < g.size
  ranked : ∃ rank, c.Ranked rank

/-- From the top the chart leads to nodes of the graph only, and to splits of whatever has not a
single root; and it does not refer to itself in a circle. -/
structure Navigable (c : Chart) (g : Graph) : Prop where
  lt : ∀ s, c.Reaches s → ∀ n ∈ s, n < g.size
  split : ∀ s, c.Reaches s → g.soleRoot? s = none → c.splitsFor s ≠ []
  ranked : ∃ rank, c.Ranked rank

theorem Navigable.unfoldable (h : c.Navigable g) : c.Unfoldable g := ⟨h.lt, h.ranked⟩

theorem Complete.navigable (h : c.Complete g) : c.Navigable g where
  lt _ hs := h.lt hs.mentions
  split _ hs := h.splitsFor_ne_nil hs.mentions
  ranked := ⟨_, h.sound.ranked⟩

end Dominance.Chart
