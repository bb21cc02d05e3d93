import Dominance.Graph.Spread
import Mathlib.Logic.Relation

/-!
# What a search reaches

`spread` moves nodes out of a supply as it meets them.
A search from a node reaches exactly the nodes to which a path within the supply leads, and what
stays in the supply is the rest of it, in the same order.

If neighbourhood is symmetric, no path leads from what a search left back to what it reached.
So `components` divides the supply into classes of nodes that are joined by paths.

* `mem_reached_reachFrom`, `mem_rest_reachFrom` — the two halves of a search
* `stays_in_rest` — paths from the rest stay in the rest
* `exists_of_mem_components`, `exists_mem_components` — the components are the classes
* `pairwise_components`, `pairwise_components_lt` — they are disjoint, and come in order
-/

namespace Dominance

open Relation

/-- A step from a node to one of its neighbours within a supply. -/
def StepIn (next : Nat → List Nat) (supply : List Nat) (m n : Nat) : Prop :=
  n ∈ next m ∧ n ∈ supply

/-- Neighbourhood goes both ways. -/
def Mutual (next : Nat → List Nat) : Prop := ∀ ⦃m n⦄, n ∈ next m → m ∈ next n

variable {next : Nat → List Nat}

theorem StepIn.mono {supply more : List Nat} (h : supply ⊆ more) {m n : Nat}
    (hs : StepIn next supply m n) : StepIn next more m n := ⟨hs.1, h hs.2⟩

theorem untouched_subset (supply listed : List Nat) : untouched supply listed ⊆ supply :=
  fun _ hn => (mem_untouched.mp hn).1

/-! ## One search -/

/--
The step of a search keeps what can still be reached.

Look at the last node of a path that lies among the touched nodes: what follows it lies in the
supply that is left.
-/
theorem exists_path_iff (p : Nat) (pending supply : List Nat) (n : Nat) :
    (n ∈ touched supply (next p) ∨ ∃ q ∈ touched supply (next p) ++ pending,
        TransGen (StepIn next (untouched supply (next p))) q n) ↔
      ∃ q ∈ p :: pending, TransGen (StepIn next supply) q n := by
  constructor
  · have hmono : ∀ {a b}, TransGen (StepIn next (untouched supply (next p))) a b →
        TransGen (StepIn next supply) a b :=
      TransGen.mono (fun _ _ hs => hs.mono (untouched_subset _ _)) _ _
    have hfirst : ∀ {a}, a ∈ touched supply (next p) → StepIn next supply p a :=
      fun ha => ⟨(mem_touched.mp ha).2, (mem_touched.mp ha).1⟩
    rintro (hn | ⟨q, hq, hpath⟩)
    · exact ⟨p, List.mem_cons_self, .single (hfirst hn)⟩
    · rcases List.mem_append.mp hq with hq | hq
      · exact ⟨p, List.mem_cons_self, .head (hfirst hq) (hmono hpath)⟩
      · exact ⟨q, List.mem_cons_of_mem _ hq, hmono hpath⟩
  · rintro ⟨q, hq, hpath⟩
    induction hpath with
    | @single m hstep =>
      by_cases hm : m ∈ next p
      · exact .inl (mem_touched.mpr ⟨hstep.2, hm⟩)
      · rcases List.mem_cons.mp hq with rfl | hq
        · exact absurd hstep.1 hm
        · exact .inr ⟨q, List.mem_append_right _ hq,
            .single ⟨hstep.1, mem_untouched.mpr ⟨hstep.2, hm⟩⟩⟩
    | @tail l m _ hstep ih =>
      by_cases hm : m ∈ next p
      · exact .inl (mem_touched.mpr ⟨hstep.2, hm⟩)
      · have hlast : StepIn next (untouched supply (next p)) l m :=
          ⟨hstep.1, mem_untouched.mpr ⟨hstep.2, hm⟩⟩
        rcases ih with hl | ⟨q', hq', hl⟩
        · exact .inr ⟨l, List.mem_append_left _ hl, .single hlast⟩
        · exact .inr ⟨q', hq', hl.tail hlast⟩

theorem mem_reached_spread (pending supply reached : List Nat) (n : Nat) :
    n ∈ (spread next pending supply reached).reached ↔
      n ∈ reached ∨ ∃ q ∈ pending, TransGen (StepIn next supply) q n := by
  fun_induction spread next pending supply reached with
  | case1 => simp
  | case2 supply reached p pending ih =>
    rw [ih, ← exists_path_iff, List.mem_append, or_assoc, or_left_comm]

theorem mem_rest_spread (pending supply reached : List Nat) (n : Nat) :
    n ∈ (spread next pending supply reached).rest ↔
      n ∈ supply ∧ ¬∃ q ∈ pending, TransGen (StepIn next supply) q n := by
  fun_induction spread next pending supply reached with
  | case1 => simp
  | case2 supply reached p pending ih =>
    rw [ih, ← exists_path_iff, mem_untouched, mem_touched, not_or, not_and]
    exact ⟨fun h => ⟨h.1.1, fun _ => h.1.2, h.2⟩, fun h => ⟨⟨h.1, h.2.1 h.1⟩, h.2.2⟩⟩

theorem rest_spread_sublist (pending supply reached : List Nat) :
    (spread next pending supply reached).rest.Sublist supply := by
  fun_induction spread next pending supply reached with
  | case1 => exact List.Sublist.refl _
  | case2 supply reached p pending ih => exact ih.trans List.filter_sublist

/-- **A search reaches exactly the nodes to which a path within the supply leads.** -/
theorem mem_reached_reachFrom {start n : Nat} {supply : List Nat} :
    n ∈ (reachFrom next start supply).reached ↔ ReflTransGen (StepIn next supply) start n := by
  rw [reachFrom, mem_reached_spread, reflTransGen_iff_eq_or_transGen]
  simp

theorem mem_rest_reachFrom {start n : Nat} {supply : List Nat} (hstart : start ∉ supply) :
    n ∈ (reachFrom next start supply).rest ↔
      n ∈ supply ∧ ¬ReflTransGen (StepIn next supply) start n := by
  rw [reachFrom, mem_rest_spread]
  refine and_congr_right fun hn => not_congr ?_
  have hne : n ≠ start := fun he => hstart (he ▸ hn)
  rw [reflTransGen_iff_eq_or_transGen]
  simp [hne]

theorem rest_reachFrom_sublist (start : Nat) (supply : List Nat) :
    (reachFrom next start supply).rest.Sublist supply := rest_spread_sublist _ _ _

/-- Taking the start out of the supply changes nothing: no path has to come back to it. -/
theorem path_cons_iff {start n : Nat} {supply : List Nat} :
    ReflTransGen (StepIn next (start :: supply)) start n ↔
      ReflTransGen (StepIn next supply) start n := by
  constructor
  · intro h
    induction h with
    | refl => exact .refl
    | tail _ hstep ih =>
      rcases List.mem_cons.mp hstep.2 with rfl | hm
      · exact .refl
      · exact ih.tail ⟨hstep.1, hm⟩
  · exact ReflTransGen.mono (fun _ _ hs => hs.mono (List.subset_cons_self _ _)) _ _

/-! ## Paths within the rest -/

theorem mem_of_path {supply : List Nat} {m n : Nat} (hm : m ∈ supply)
    (h : ReflTransGen (StepIn next supply) m n) : n ∈ supply := by
  cases h with
  | refl => exact hm
  | tail _ hstep => exact hstep.2

theorem path_symm (hnext : Mutual next) {supply : List Nat} {m n : Nat} (hm : m ∈ supply)
    (h : ReflTransGen (StepIn next supply) m n) : ReflTransGen (StepIn next supply) n m := by
  induction h with
  | refl => exact .refl
  | tail hpath hstep ih => exact .head ⟨hnext hstep.1, mem_of_path hm hpath⟩ ih

/-- **A path that starts in what a search left stays there.** -/
theorem stays_in_rest (hnext : Mutual next) {start m n : Nat} {supply : List Nat}
    (hstart : start ∉ supply) (hm : m ∈ (reachFrom next start supply).rest) :
    ReflTransGen (StepIn next (start :: supply)) m n ↔
      ReflTransGen (StepIn next (reachFrom next start supply).rest) m n := by
  constructor
  · intro h
    induction h with
    | refl => exact .refl
    | @tail k n hpath hstep ih =>
      have hk := (mem_rest_reachFrom hstart).mp (mem_of_path hm ih)
      refine ih.tail ⟨hstep.1, ?_⟩
      -- a step back from a reached node would have reached `k` as well
      have hback : ReflTransGen (StepIn next supply) start n → False :=
        fun hn => hk.2 (hn.tail ⟨hnext hstep.1, hk.1⟩)
      rcases List.mem_cons.mp hstep.2 with rfl | hn
      · exact absurd .refl hback
      · exact (mem_rest_reachFrom hstart).mpr ⟨hn, hback⟩
  · have hsub : (reachFrom next start supply).rest ⊆ start :: supply :=
      fun _ ha => List.mem_cons_of_mem _ ((rest_reachFrom_sublist _ _).subset ha)
    exact ReflTransGen.mono (fun _ _ hs => hs.mono hsub) _ _

/-! ## Components -/

/-- Every component holds the nodes that paths join to one node of the supply. -/
theorem exists_of_mem_components (hnext : Mutual next) {supply : List Nat} (hnd : supply.Nodup)
    {w : Subgraph} (hw : w ∈ components next supply) :
    ∃ a ∈ supply, ∀ n, n ∈ w ↔ ReflTransGen (StepIn next supply) a n := by
  fun_induction components next supply with
  | case1 => simp at hw
  | case2 start supply reach ih =>
    obtain ⟨hstart, hsupply⟩ := List.nodup_cons.mp hnd
    rcases List.mem_cons.mp hw with rfl | hw
    · refine ⟨start, List.mem_cons_self, fun n => ?_⟩
      rw [path_cons_iff, Subgraph.mem_ofList]
      exact mem_reached_reachFrom
    · have hsub : reach.rest.Sublist supply := rest_reachFrom_sublist _ _
      obtain ⟨a, ha, hiff⟩ := ih (hsub.nodup hsupply) hw
      refine ⟨a, List.mem_cons_of_mem _ (hsub.subset ha), fun n => ?_⟩
      rw [hiff n, stays_in_rest hnext hstart ha]

/-- Every node of the supply lies in a component. -/
theorem exists_mem_components (next : Nat → List Nat) {supply : List Nat} (hnd : supply.Nodup)
    {a : Nat} (ha : a ∈ supply) : ∃ w ∈ components next supply, a ∈ w := by
  fun_induction components next supply with
  | case1 => simp at ha
  | case2 start supply reach ih =>
    obtain ⟨hstart, hsupply⟩ := List.nodup_cons.mp hnd
    by_cases hreach : ReflTransGen (StepIn next supply) start a
    · exact ⟨_, List.mem_cons_self, Subgraph.mem_ofList.mpr (mem_reached_reachFrom.mpr hreach)⟩
    · have hne : a ≠ start := fun he => hreach (he ▸ .refl)
      have hrest : a ∈ reach.rest :=
        (mem_rest_reachFrom hstart).mpr ⟨List.mem_of_ne_of_mem hne ha, hreach⟩
      obtain ⟨w, hw, haw⟩ := ih ((rest_reachFrom_sublist _ _).nodup hsupply) hrest
      exact ⟨w, List.mem_cons_of_mem _ hw, haw⟩

/-- Components come in the order in which the supply lists their first nodes. -/
theorem pairwise_components_lt (hnext : Mutual next) {supply : List Nat}
    (h : supply.Pairwise (· < ·)) :
    (components next supply).Pairwise fun v w => ∃ a ∈ v, ∀ b ∈ w, a < b := by
  fun_induction components next supply with
  | case1 => exact .nil
  | case2 start supply reach ih =>
    obtain ⟨hstart, hsupply⟩ := List.pairwise_cons.mp h
    have hsub : reach.rest.Sublist supply := rest_reachFrom_sublist _ _
    have hrest := hsupply.sublist hsub
    have hself : start ∈ Subgraph.ofList reach.reached :=
      Subgraph.mem_ofList.mpr (mem_reached_reachFrom.mpr .refl)
    refine List.pairwise_cons.mpr ⟨fun w hw => ⟨start, hself, fun b hb => ?_⟩, ih hrest⟩
    obtain ⟨a, ha, hiff⟩ := exists_of_mem_components hnext (hrest.imp Nat.ne_of_lt) hw
    exact hstart b (hsub.subset (mem_of_path ha ((hiff b).mp hb)))

/-- No two components share a node. -/
theorem pairwise_components (hnext : Mutual next) {supply : List Nat} (hnd : supply.Nodup) :
    (components next supply).Pairwise fun v w => ∀ n ∈ v, n ∉ w := by
  fun_induction components next supply with
  | case1 => exact .nil
  | case2 start supply reach ih =>
    obtain ⟨hstart, hsupply⟩ := List.nodup_cons.mp hnd
    have hrest : reach.rest.Nodup := (rest_reachFrom_sublist _ _).nodup hsupply
    refine List.pairwise_cons.mpr ⟨fun w hw n hn hnw => ?_, ih hrest⟩
    obtain ⟨a, ha, hiff⟩ := exists_of_mem_components hnext hrest hw
    have hnrest : n ∈ reach.rest := mem_of_path ha ((hiff n).mp hnw)
    have hnot := ((mem_rest_reachFrom hstart).mp hnrest).2
    exact hnot (mem_reached_reachFrom.mp (Subgraph.mem_ofList.mp hn))

end Dominance
