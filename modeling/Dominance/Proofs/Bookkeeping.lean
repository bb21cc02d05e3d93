import Dominance.Chart.Count
import Dominance.Proofs.References

/-!
# Keeping the books of a chart

A removal relies on the books of the chart: a reference that is released has to be listed, a
subgraph that is removed must have no reference left, and no more splits are taken off than the
chart has counted.
`detachChecked` and `cascadeChecked` look at these rules at every step and give up when one is
broken.

A chart is changed by operations in any order, some of which it refuses.
Every operation keeps exact books exact, and in exact books no rule is ever broken: a run with
checks is the run without.

* `detachChecked_eq`, `cascadeChecked_eq` — no rule is broken in a removal
* `perform_consistent` — one operation keeps the books
* `books_balance` — every run of operations does
-/

namespace Dominance.Chart

variable {c c' : Chart} {s t : Subgraph}

/-! ## Removal with checks -/

/-- A rule of the books that a removal breaks. -/
inductive Breach where
  /-- A reference to the subgraph is released, and none is listed. -/
  | unlisted (subgraph : Subgraph)
  /-- The subgraph is removed, and it is still referred to. -/
  | referenced (subgraph : Subgraph)
  /-- The subgraph has more splits than the chart has counted in all. -/
  | overdrawn (subgraph : Subgraph)
deriving DecidableEq

/-- The first subgraph for which no reference is listed when its turn comes to be released. -/
def unlisted? (references : Std.TreeMap Subgraph Nat) : List Subgraph → Option Subgraph
  | [] => none
  | s :: rest => if references.contains s then unlisted? (release references s) rest else some s

/-- Takes the splits off a subgraph, with an eye on the number of splits and on every reference. -/
def detachChecked (c : Chart) (s : Subgraph) : Except Breach (List Subgraph × Chart) :=
  if c.size < (c.splitsFor s).length then .error (.overdrawn s)
  else
    match unlisted? c.references (componentsIn (c.splitsFor s)) with
    | some w => .error (.unlisted w)
    | none => .ok (c.detach s)

theorem eq_of_detachChecked {next : List Subgraph × Chart} (h : c.detachChecked s = .ok next) :
    next = c.detach s := by
  unfold detachChecked at h
  split at h
  · cases h
  · split at h
    · cases h
    · exact (Except.ok.inj h).symm

/-- Removes the listed subgraphs one by one, whether they are stored or not, with an eye on the
references to each of them. -/
def cascadeChecked (c : Chart) (doomed : List Subgraph) : Except Breach Chart :=
  match doomed with
  | [] => .ok c
  | s :: rest =>
    if 0 < c.referenceCount s then .error (.referenced s)
    else if hs : c.table.contains s = true then
      match h : c.detachChecked s with
      | .error breach => .error breach
      | .ok next =>
        have : next.2.table.size < c.table.size :=
          eq_of_detachChecked h ▸ size_table_detach_lt hs
        next.2.cascadeChecked (next.1.reverse ++ rest)
    else c.cascadeChecked rest
termination_by (c.table.size, doomed.length)

/-- Removes a subgraph to which nothing refers, with checks. -/
def deleteChecked (c : Chart) (s : Subgraph) : Except Breach (Except ChartError Chart) :=
  if 0 < c.referenceCount s then .ok (.error (.stillReferenced s (c.referenceCount s)))
  else (c.cascadeChecked [s]).map fun after => .ok { after with counts := ∅ }

/-- Replaces the splits of a subgraph, with checks. -/
def setSplitsChecked (c : Chart) (s : Subgraph) (splits : List Split) :
    Except Breach (Except ChartError Chart) :=
  if splits.isEmpty ∧ 0 < c.referenceCount s then
    .ok (.error (.stillReferenced s (c.referenceCount s)))
  else
    (c.detachChecked s).bind fun next =>
      let replaced := next.2.addSplits s splits
      (replaced.cascadeChecked (replaced.unreferencedIn (c.splitsFor s))).map
        fun after => .ok { after with counts := ∅ }

/-! ## Exact books pass the checks -/

/-- References to all listed subgraphs are at hand, if there are as many as are released. -/
theorem unlisted?_eq_none {references : Std.TreeMap Subgraph Nat} {ss : List Subgraph}
    (h : ∀ t, ss.count t ≤ references.getD t 0) : unlisted? references ss = none := by
  induction ss generalizing references with
  | nil => rfl
  | cons s ss ih =>
    have hpos : 0 < references.getD s 0 := by
      have hs := h s
      rw [List.count_cons_self] at hs
      omega
    have hlisted : references.contains s = true := by
      by_contra hnot
      rw [Bool.not_eq_true] at hnot
      rw [Std.TreeMap.getD_eq_fallback_of_contains_eq_false hnot] at hpos
      omega
    rw [unlisted?, if_pos hlisted]
    apply ih
    intro t
    have ht := h t
    rw [List.count_cons] at ht
    rw [getD_release]
    by_cases hst : s = t
    · simp only [hst, beq_self_eq_true, if_true] at ht ⊢
      omega
    · simpa [hst] using ht

theorem Consistent.count_le (h : c.Consistent) (s t : Subgraph) :
    (componentsIn (c.splitsFor s)).count t ≤ c.referenceCount t := by
  rw [h.counted t, occurrences, total_eq rfl c s]
  omega

theorem Consistent.length_le (h : c.Consistent) (s : Subgraph) :
    (c.splitsFor s).length ≤ c.size := by
  rw [h.size, total_eq rfl c s]
  omega

/-- **Taking splits off breaks no rule of exact books.** -/
theorem Consistent.detachChecked_eq (h : c.Consistent) (s : Subgraph) :
    c.detachChecked s = .ok (c.detach s) := by
  unfold detachChecked
  rw [if_neg (Nat.not_lt.mpr (h.length_le s)), unlisted?_eq_none (h.count_le s)]

theorem cascade_nil (c : Chart) : c.cascade [] = c := by
  unfold cascade
  rfl

/-- A cascade goes through the listed subgraphs one by one, and passes over what is not stored. -/
theorem cascade_cons (c : Chart) (s : Subgraph) (rest : List Subgraph) :
    c.cascade (s :: rest) = if c.table.contains s
      then (c.detach s).2.cascade ((c.detach s).1.reverse ++ rest) else c.cascade rest := by
  have hstored : c.stored (s :: rest)
      = if c.table.contains s then s :: rest else c.stored rest := by
    unfold stored
    rw [List.dropWhile_cons]
    cases c.table.contains s <;> rfl
  by_cases hs : c.table.contains s = true
  · rw [if_pos hs] at hstored ⊢
    rw [cascade]
    split
    · next h => rw [hstored] at h; cases h
    · next h => rw [hstored] at h; cases h; rfl
  · rw [if_neg hs] at hstored ⊢
    rw [cascade, cascade]
    -- both sides start from the first subgraph that is stored
    split
    · next h =>
      rw [hstored] at h
      split
      · rfl
      · next h' => rw [h] at h'; cases h'
    · next h =>
      rw [hstored] at h
      split
      · next h' => rw [h] at h'; cases h'
      · next h' => rw [h] at h'; cases h'; rfl

/-- **A cascade breaks no rule of exact books.** -/
theorem Consistent.cascadeChecked_eq (h : c.Consistent) (doomed : List Subgraph)
    (hdoomed : ∀ s ∈ doomed, c.referenceCount s = 0) :
    c.cascadeChecked doomed = .ok (c.cascade doomed) := by
  fun_induction cascadeChecked c doomed with
  | case1 c => rw [cascade_nil]
  | case2 c s rest hpos =>
    have := hdoomed s List.mem_cons_self
    omega
  | case3 c s rest _ hs breach hbreach =>
    rw [h.detachChecked_eq s] at hbreach
    cases hbreach
  | case4 c s rest _ hs next hnext _ ih =>
    obtain rfl := eq_of_detachChecked hnext
    rw [cascade_cons, if_pos hs]
    refine ih (consistent_detach h s) (referenceCount_detach_eq_zero fun t ht => ?_)
    exact hdoomed t (List.mem_cons_of_mem _ ht)
  | case5 c s rest _ hs ih =>
    rw [cascade_cons, if_neg hs]
    exact ih h fun t ht => hdoomed t (List.mem_cons_of_mem _ ht)

theorem Consistent.deleteChecked_eq (h : c.Consistent) (s : Subgraph) :
    c.deleteChecked s = .ok (c.delete s) := by
  unfold deleteChecked delete
  split
  · rfl
  · next hzero =>
    have hdoomed : ∀ t ∈ [s], c.referenceCount t = 0 := by
      intro t ht
      rw [List.mem_singleton.mp ht]
      omega
    rw [h.cascadeChecked_eq [s] hdoomed]
    rfl

theorem Consistent.setSplitsChecked_eq (h : c.Consistent) (s : Subgraph) (splits : List Split) :
    c.setSplitsChecked s splits = .ok (c.setSplits s splits) := by
  unfold setSplitsChecked setSplits
  split
  · rfl
  · have hreplaced : ((c.detach s).2.addSplits s splits).Consistent :=
      consistent_addSplits (consistent_detach h s) s splits
    rw [h.detachChecked_eq s]
    simp only [Except.bind]
    rw [hreplaced.cascadeChecked_eq _ fun t ht => (mem_unreferencedIn.mp ht).2]
    rfl

/-! ## Operations -/

/-- What can be asked of a chart. -/
inductive Operation where
  | addSplit (subgraph : Subgraph) (split : Split)
  | addToplevel (subgraph : Subgraph)
  | setSplits (subgraph : Subgraph) (splits : List Split)
  | delete (subgraph : Subgraph)
  | count
  | countFor (subgraph : Subgraph)
deriving DecidableEq

/-- The chart after an operation; a chart that refuses stays as it is. -/
def perform (c : Chart) : Operation → Chart
  | .addSplit s split => c.addSplit s split
  | .addToplevel s => c.addToplevel s
  | .setSplits s splits => (c.setSplits s splits).toOption.getD c
  | .delete s => (c.delete s).toOption.getD c
  | .count => c.count.2
  | .countFor s => (c.countFor s).2

/-- The chart after an operation in which every rule is checked. -/
def performChecked (c : Chart) : Operation → Except Breach Chart
  | .setSplits s splits => (c.setSplitsChecked s splits).map fun after => after.toOption.getD c
  | .delete s => (c.deleteChecked s).map fun after => after.toOption.getD c
  | operation => .ok (c.perform operation)

/-- The chart that operations make of a new one. -/
def run (operations : List Operation) : Chart := operations.foldl perform empty

/-- The same with checks; the first broken rule ends the run. -/
def runChecked (operations : List Operation) : Except Breach Chart :=
  operations.foldlM performChecked empty

theorem performChecked_eq (h : c.Consistent) (operation : Operation) :
    c.performChecked operation = .ok (c.perform operation) := by
  cases operation with
  | setSplits s splits =>
    rw [performChecked, h.setSplitsChecked_eq]
    rfl
  | delete s =>
    rw [performChecked, h.deleteChecked_eq]
    rfl
  | _ => rfl

theorem consistent_setSplits (h : c.Consistent) {splits : List Split}
    (hset : c.setSplits s splits = .ok c') : c'.Consistent ∧ c'.toplevel = c.toplevel := by
  unfold setSplits at hset
  split at hset
  · cases hset
  · obtain ⟨hconsistent, htrims⟩ := cascade_spec
      (consistent_addSplits (consistent_detach h s) s splits) _
      fun t ht => (mem_unreferencedIn.mp ht).2
    rw [← Except.ok.inj hset]
    exact ⟨hconsistent.with_counts ∅, htrims.toplevel.trans (toplevel_addSplits _ _ _)⟩

theorem consistent_delete (h : c.Consistent) (hdelete : c.delete s = .ok c') :
    c'.Consistent ∧ c'.toplevel = c.toplevel := by
  unfold delete at hdelete
  split at hdelete
  · cases hdelete
  · next hzero =>
    obtain ⟨hconsistent, htrims⟩ := cascade_spec h [s] fun t ht => by
      rw [List.mem_singleton.mp ht]
      omega
    cases hdelete
    exact ⟨hconsistent.with_counts ∅, htrims.toplevel⟩

/-- **One operation keeps the books exact, and registers a top-level subgraph only if it is asked
to.** -/
theorem perform_consistent (h : c.Consistent) (operation : Operation) :
    (c.perform operation).Consistent ∧ ∀ s, (c.perform operation).toplevel.count s
      = c.toplevel.count s + if operation = .addToplevel s then 1 else 0 := by
  -- an operation that keeps the list of top-level subgraphs
  have hkeep : ∀ {after : Chart}, after.Consistent ∧ after.toplevel = c.toplevel →
      (∀ s, operation ≠ .addToplevel s) → after.Consistent ∧ ∀ s, after.toplevel.count s
        = c.toplevel.count s + if operation = .addToplevel s then 1 else 0 := by
    rintro after ⟨hafter, htop⟩ hne
    refine ⟨hafter, fun s => ?_⟩
    rw [htop, if_neg (hne s), Nat.add_zero]
  cases operation with
  | addSplit s split => exact hkeep ⟨consistent_addSplit h s split, rfl⟩ (by simp)
  | addToplevel s =>
    refine ⟨consistent_addToplevel h s, fun t => ?_⟩
    show (c.toplevel ++ [s]).count t = _
    rw [List.count_append, List.count_singleton]
    by_cases hst : s = t <;> simp [hst]
  | setSplits s splits =>
    rw [perform]
    cases hset : c.setSplits s splits with
    | error e => exact hkeep ⟨h, rfl⟩ (by simp)
    | ok after => exact hkeep (consistent_setSplits h hset) (by simp)
  | delete s =>
    rw [perform]
    cases hdelete : c.delete s with
    | error e => exact hkeep ⟨h, rfl⟩ (by simp)
    | ok after => exact hkeep (consistent_delete h hdelete) (by simp)
  | count => exact hkeep ⟨h.with_counts _, rfl⟩ (by simp)
  | countFor s => exact hkeep ⟨h.with_counts _, rfl⟩ (by simp)

/-- What a run of operations makes of a chart with exact books. -/
theorem foldl_perform_consistent (h : c.Consistent) (operations : List Operation) :
    (operations.foldl perform c).Consistent
      ∧ (∀ s, (operations.foldl perform c).toplevel.count s
          = c.toplevel.count s + operations.count (.addToplevel s))
      ∧ operations.foldlM performChecked c = .ok (operations.foldl perform c) := by
  induction operations generalizing c with
  | nil => exact ⟨h, fun _ => rfl, rfl⟩
  | cons operation operations ih =>
    obtain ⟨hnext, htop⟩ := perform_consistent h operation
    obtain ⟨hconsistent, hcount, hchecked⟩ := ih hnext
    refine ⟨hconsistent, fun s => ?_, ?_⟩
    · rw [List.foldl_cons, hcount, htop, List.count_cons]
      simp only [beq_iff_eq]
      omega
    · rw [List.foldlM_cons, performChecked_eq h]
      exact hchecked

/--
**Every run of operations leaves exact books, and breaks no rule on the way.**

The operations come in any order, refused ones included, and their splits may refer to anything,
also to the subgraph that they split.
A count changes nothing but the remembered counts, so it makes no difference what it finds.
-/
theorem books_balance (operations : List Operation) :
    (∀ s, (run operations).referenceCount s
        = (run operations).occurrences s + operations.count (.addToplevel s))
      ∧ (∀ (s : Subgraph) (n : Nat), (run operations).references[s]? = some n → 0 < n)
      ∧ (∀ (s : Subgraph) (splits : List Split),
          (run operations).table[s]? = some splits → splits ≠ [])
      ∧ (run operations).size = (run operations).total List.length
      ∧ runChecked operations = .ok (run operations) := by
  obtain ⟨hconsistent, htop, hchecked⟩ := foldl_perform_consistent consistent_empty operations
  refine ⟨fun s => ?_, hconsistent.positive, hconsistent.stored, hconsistent.size, hchecked⟩
  have hcounted := hconsistent.counted s
  have hcount := htop s
  have hnone : empty.toplevel.count s = 0 := rfl
  unfold run
  omega

end Dominance.Chart
