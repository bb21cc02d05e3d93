import Mathlib.Algebra.BigOperators.Ring.List
import Mathlib.Algebra.Ring.Nat
import Dominance.Chart.Count
import Dominance.Proofs.Enumeration

/-!
# Counting and listing agree

`tally` counts by a recursion with a bound on its depth, and `countWith` does the same with a memory
of counts.
In a chart whose components rank below the subgraphs they come from, the bound is never reached: the
counts obey the recursion without it, and a memory that holds right counts leads to right counts.

The count of a subgraph is the number of ways to unfold it.
For the count of a split the components with a single root do not matter, since they count one.

* `tally_of_splits` — the recursion without a bound
* `countWith_spec`, `count_spec` — counting with memory
* `length_unfolded`, `length_listing` — the number of solved forms
-/

namespace Dominance.Chart

variable {c : Chart} {g : Graph} {rank : Subgraph → Nat} {s : Subgraph} {split : Split}

/-! ## Counting without memory -/

theorem foldl_mul (ns : List Nat) (n : Nat) : ns.foldl (· * ·) n = n * ns.prod := by
  induction ns generalizing n with
  | nil => simp
  | cons m ns ih => rw [List.foldl_cons, ih, List.prod_cons, Nat.mul_assoc]

/-- A depth above the height makes no difference. -/
theorem Ranked.tallyWith_eq (hr : c.Ranked rank) {m n : Nat} (hm : c.height rank s < m)
    (hn : c.height rank s < n) : c.tallyWith m s = c.tallyWith n s := by
  induction m generalizing s n with
  | zero => omega
  | succ m ih =>
    cases n with
    | zero => omega
    | succ n =>
      rw [tallyWith, tallyWith]
      cases hsplits : c.splitsFor s with
      | nil => rfl
      | cons first others =>
        simp only
        rw [← hsplits]
        congr 1
        refine List.map_congr_left fun split hsplit => ?_
        congr 1
        refine List.map_congr_left fun w hw => ?_
        have hlt := hr.height_lt hsplit hw
        exact ih (by omega) (by omega)

theorem Ranked.tally_eq (hr : c.Ranked rank) {n : Nat} (hn : c.height rank s < n) :
    c.tallyWith n s = c.tally s :=
  hr.tallyWith_eq hn (Nat.lt_succ_of_le (c.height_le rank s))

theorem tally_of_nil (h : c.splitsFor s = []) : c.tally s = 1 := by
  rw [tally, depth, tallyWith, h]

/-- **A subgraph has, for each split, every combination of solved forms of the components.** -/
theorem Ranked.tally_of_splits (hr : c.Ranked rank) (h : c.splitsFor s ≠ []) :
    c.tally s
      = ((c.splitsFor s).map fun split => (split.components.map c.tally).prod).sum := by
  rw [← hr.tally_eq (n := c.height rank s + 1) (Nat.lt_succ_self _), tallyWith]
  cases hsplits : c.splitsFor s with
  | nil => exact absurd hsplits h
  | cons first others =>
    simp only
    rw [← hsplits, ← List.sum_eq_foldl]
    congr 1
    refine List.map_congr_left fun split hsplit => ?_
    rw [foldl_mul, Nat.one_mul]
    congr 1
    exact List.map_congr_left fun w hw => hr.tally_eq (hr.height_lt hsplit hw)

/-- What is remembered does not matter for a count without memory. -/
theorem tally_with_counts (c : Chart) (counts : Counts) (s : Subgraph) :
    tally { c with counts } s = c.tally s := by
  suffices ∀ depth s, tallyWith { c with counts } depth s = c.tallyWith depth s from this c.depth s
  intro depth
  induction depth with
  | zero => exact fun _ => rfl
  | succ depth ih =>
    intro s
    rw [tallyWith, tallyWith, funext ih]
    rfl

/-! ## Counting with memory -/

/-- Every remembered count is right. -/
def Remembers (c : Chart) (known : Counts) : Prop := ∀ s n, known[s]? = some n → n = c.tally s

theorem remembers_empty (c : Chart) : c.Remembers ∅ := by
  intro s n h
  rw [Std.TreeMap.getElem?_emptyc] at h
  cases h

theorem Remembers.insert {known : Counts} (h : c.Remembers known) (s : Subgraph) :
    c.Remembers (known.insert s (c.tally s)) := by
  intro t n ht
  rw [Std.TreeMap.getElem?_insert] at ht
  split at ht
  · next hst =>
    rw [← Std.LawfulEqCmp.eq_of_compare hst]
    exact (Option.some.inj ht).symm
  · exact h t n ht

/-- Counting a list, if counting each of its items keeps to the right counts. -/
theorem combine_spec {α : Type} (step : α → Counts → Nat × Counts) (value : α → Nat)
    (op : Nat → Nat → Nat) {items : List α}
    (hstep : ∀ a ∈ items, ∀ known, c.Remembers known →
      (step a known).1 = value a ∧ c.Remembers (step a known).2)
    (total : Nat) {known : Counts} (hknown : c.Remembers known) :
    (combine step op total items known).1 = (items.map value).foldl op total
      ∧ c.Remembers (combine step op total items known).2 := by
  induction items generalizing total known with
  | nil => exact ⟨rfl, hknown⟩
  | cons a items ih =>
    obtain ⟨hvalue, hknown'⟩ := hstep a List.mem_cons_self known hknown
    rw [combine, List.map_cons, List.foldl_cons, ← hvalue]
    exact ih (fun b hb => hstep b (List.mem_cons_of_mem _ hb)) _ hknown'

/-- **Counting with memory gives the counts without, and remembers them.** -/
theorem Ranked.countWith_spec (hr : c.Ranked rank) {depth : Nat} (hd : c.height rank s < depth)
    {known : Counts} (hknown : c.Remembers known) :
    (c.countWith depth s known).1 = c.tally s
      ∧ c.Remembers (c.countWith depth s known).2 := by
  induction depth generalizing s known with
  | zero => omega
  | succ depth ih =>
    rw [countWith]
    cases hs : known[s]? with
    | some n => exact ⟨hknown s n hs, hknown⟩
    | none =>
      cases hsplits : c.splitsFor s with
      | nil => exact ⟨(tally_of_nil hsplits).symm, hknown⟩
      | cons first others =>
        simp only
        rw [← hsplits]
        have hne : c.splitsFor s ≠ [] := hsplits ▸ List.cons_ne_nil _ _
        -- the inner loop multiplies over components, the outer one adds over splits
        have hproduct : ∀ split ∈ c.splitsFor s, ∀ known, c.Remembers known →
            (combine (fun w known => c.countWith depth w known) (· * ·) 1 split.components known).1
                = (split.components.map c.tally).prod
              ∧ c.Remembers (combine (fun w known => c.countWith depth w known) (· * ·) 1
                  split.components known).2 := by
          intro split hsplit known hknown
          have hstep : ∀ w ∈ split.components, ∀ known, c.Remembers known →
              (c.countWith depth w known).1 = c.tally w
                ∧ c.Remembers (c.countWith depth w known).2 := by
            intro w hw known hknown
            have hlt := hr.height_lt hsplit hw
            exact ih (by omega) hknown
          have h := combine_spec (fun w known => c.countWith depth w known) c.tally (· * ·) hstep 1
            hknown
          rwa [foldl_mul, Nat.one_mul] at h
        obtain ⟨htotal, hafter⟩ := combine_spec _ _ (· + ·) hproduct 0 hknown
        rw [← List.sum_eq_foldl, ← hr.tally_of_splits hne] at htotal
        rw [htotal]
        exact ⟨rfl, hafter.insert s⟩

/-- **The count of a chart is the product of the counts of its top-level subgraphs.** -/
theorem Ranked.count_spec (hr : c.Ranked rank) (h : c.Remembers c.counts) :
    c.count.1 = (c.toplevel.map c.tally).prod ∧ c.Remembers c.count.2.counts := by
  have hstep : ∀ w ∈ c.toplevel, ∀ known, c.Remembers known →
      (c.countWith c.depth w known).1 = c.tally w
        ∧ c.Remembers (c.countWith c.depth w known).2 :=
    fun w _ _ hknown => hr.countWith_spec (Nat.lt_succ_of_le (c.height_le rank w)) hknown
  have hspec := combine_spec (c.countWith c.depth) c.tally (· * ·) hstep 1 h
  rwa [foldl_mul, Nat.one_mul] at hspec

theorem Ranked.countFor_spec (hr : c.Ranked rank) (h : c.Remembers c.counts) (s : Subgraph) :
    (c.countFor s).1 = c.tally s ∧ c.Remembers (c.countFor s).2.counts :=
  hr.countWith_spec (Nat.lt_succ_of_le (c.height_le rank s)) h

/-! ## The number of solved forms -/

/-- Subgraphs with a single root have one solved form, since they are never split. -/
theorem Sound.tally_of_sole (hc : c.Sound g) {root : Nat} (h : g.soleRoot? s = some root) :
    c.tally s = 1 := by
  refine tally_of_nil (List.eq_nil_iff_forall_not_mem.mpr fun split hsplit => ?_)
  rw [(hc s split hsplit).2] at h
  cases h

/-- Components with a single root do not contribute to the count of a split. -/
theorem Sound.prod_unsettled (hc : c.Sound g) (split : Split) :
    ((g.unsettled split).map fun entry => c.tally entry.subgraph).prod
      = (split.components.map c.tally).prod := by
  simp only [Graph.unsettled, Split.components, List.map_reverse, List.map_map, Function.comp_def]
  rw [List.prod_reverse]
  induction split.parts with
  | nil => rfl
  | cons part parts ih =>
    rw [List.filter_cons, List.map_cons, List.prod_cons, ← ih]
    cases hroot : g.soleRoot? part.component with
    | some root =>
      rw [hc.tally_of_sole hroot]
      simp
    | none => simp

/-- **An agenda has every combination of solved forms of its subgraphs.** -/
theorem Complete.length_unfolded (hc : c.Complete g) {agenda : List Pending}
    (h : ∀ entry ∈ agenda, c.Mentions entry.subgraph) :
    (c.unfolded g agenda).length = (agenda.map fun entry => c.tally entry.subgraph).prod := by
  have hr := hc.sound.ranked
  induction agenda using hr.agenda_induction g with
  | nil => simp
  | sole entry agenda root hroot ih =>
    rw [hr.unfolded_cons_of_sole hroot, List.length_map,
      ih fun e he => h e (List.mem_cons_of_mem _ he), List.map_cons, List.prod_cons,
      hc.sound.tally_of_sole hroot, Nat.one_mul]
  | split entry agenda hroot ih =>
    have hrest : ∀ e ∈ agenda, c.Mentions e.subgraph := fun e he => h e (List.mem_cons_of_mem _ he)
    have hsplits := hc.splitsFor_ne_nil (h entry List.mem_cons_self) hroot
    have hlength : ∀ split ∈ c.splitsFor entry.subgraph,
        (c.unfolded g (g.unsettled split ++ agenda)).length
          = (split.components.map c.tally).prod
            * (agenda.map fun entry => c.tally entry.subgraph).prod := by
      intro split hsplit
      have hmentions := Machine.forall_mem_unsettled_append (g := g) (P := c.Mentions)
        (fun _ hw => .inr ⟨_, _, hsplit, hw⟩) hrest
      rw [ih split hsplit hmentions, List.map_append, List.prod_append, hc.sound.prod_unsettled]
    rw [hr.unfolded_cons_of_split hroot, List.length_flatMap, List.map_cons, List.prod_cons,
      hr.tally_of_splits hsplits]
    simp only [List.length_map]
    rw [List.map_congr_left hlength, List.sum_map_mul_right]

/-- **The listing of a complete chart is as long as the count says.** -/
theorem Complete.length_listing (hc : c.Complete g) :
    (c.listing g).length = (c.toplevel.map c.tally).prod := by
  rw [listing_eq, List.length_map,
    hc.length_unfolded fun _ h => (Machine.reaches_of_mem_start h).mentions]
  simp only [Machine.start, List.map_map, Function.comp_def]

end Dominance.Chart
