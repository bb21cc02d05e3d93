import Mathlib.Data.List.TakeWhile
import Mathlib.Order.Bounds.Basic
import Dominance.Graph.Sweep
import Dominance.Proofs.Filling

/-!
# What a sweep finds

The members without a mark are the supply of a search: looking at the neighbours of a node marks
those in the supply and makes them pending.
So the search for one component reaches what paths through the supply lead to.

Two facts about the members ahead carry a sweep from one component to the next.
Every member without a mark is still ahead, so that none is skipped; and the first member ahead has
no mark, so that no component is found twice.

* `visits_iff`, `unmarked_visits` — one round of a search
* `mem_current_collect`, `mem_unmarked_collect` — a whole search
* `Steady`, `steady_collect` — where the sweep stands after the search
* `components_eq` — a sweep finds what is found by dividing the supply
* `components_are_exact` — which components these are
-/

namespace Dominance

open Relation

namespace Sweep

/-! ## One round of a search -/

section

variable {size : Nat} {s : Subgraph} {x : Sweep size} {m n : Nat}

@[simp]
theorem mem_unmarked : n ∈ x.unmarked s ↔ n ∈ s ∧ x.isMarked n = false := by
  simp [unmarked]

theorem ascending_unmarked (x : Sweep size) (s : Subgraph) :
    (x.unmarked s).Pairwise (· < ·) := s.ascending.filter _

theorem unmarked_mark (x : Sweep size) (s : Subgraph) (n : Nat) :
    (x.mark n).unmarked s = (x.unmarked s).filter (· ≠ n) :=
  filter_isMarked_mark x n s.ids

/-- A visit marks a member without a mark, and does nothing else. -/
theorem visit_cases (s : Subgraph) (x : Sweep size) (n : Nat) :
    n ∈ x.unmarked s ∧ x.visit s n = x.mark n ∨ n ∉ x.unmarked s ∧ x.visit s n = x := by
  have hiff : (s.contains n && !x.isMarked n) = true ↔ n ∈ x.unmarked s := by simp
  rw [visit]
  split
  · next h => exact .inl ⟨hiff.mp h, rfl⟩
  · next h => exact .inr ⟨fun hn => h (hiff.mpr hn), rfl⟩

theorem unmarked_visit (s : Subgraph) (x : Sweep size) (n : Nat) :
    (x.visit s n).unmarked s = (x.unmarked s).filter (· ≠ n) := by
  rcases visit_cases s x n with ⟨-, heq⟩ | ⟨hn, heq⟩
  · rw [heq, unmarked_mark]
  · rw [heq]
    refine (List.filter_eq_self.mpr fun m hm => decide_eq_true ?_).symm
    exact fun hmn => hn (hmn ▸ hm)

/-- **A round takes the nodes that were looked at out of the supply.** -/
theorem unmarked_visits (s : Subgraph) (x : Sweep size) (ns : List Nat) :
    (ns.foldl (visit s) x).unmarked s = untouched (x.unmarked s) ns := by
  induction ns generalizing x with
  | nil => exact (List.filter_eq_self.mpr fun _ _ => rfl).symm
  | cons n ns ih =>
    rw [List.foldl_cons, ih, unmarked_visit, untouched, untouched, List.filter_filter]
    exact List.filter_congr fun m _ => by simp [Bool.and_comm]

/-- **Whatever a mark adds a node to, a round adds the nodes to that were in the supply.** -/
theorem visits_iff {p : Sweep size → Nat → Prop}
    (hmark : ∀ x n m, p (x.mark n) m ↔ m = n ∨ p x m) (s : Subgraph) (x : Sweep size)
    (ns : List Nat) (m : Nat) :
    p (ns.foldl (visit s) x) m ↔ m ∈ touched (x.unmarked s) ns ∨ p x m := by
  induction ns generalizing x with
  | nil => simp
  | cons n ns ih =>
    rw [List.foldl_cons, ih, mem_touched, mem_touched, unmarked_visit, List.mem_filter,
      decide_eq_true_eq, List.mem_cons]
    rcases visit_cases s x n with ⟨hn, heq⟩ | ⟨hn, heq⟩
    · rw [heq, hmark]
      by_cases hmn : m = n
      · subst hmn
        simp [hn]
      · simp [hmn]
    · rw [heq]
      have hne : m ∈ x.unmarked s → m ≠ n := fun hm hmn => hn (hmn ▸ hm)
      by_cases hm : m ∈ x.unmarked s
      · simp [hm, hne hm]
      · simp [hm]

end

variable {g : Graph} {s : Subgraph} {x : Sweep g.size} {m n : Nat}

theorem unmarked_round (g : Graph) (s : Subgraph) (x : Sweep g.size) (n : Nat) :
    (x.round g s n).unmarked s = untouched (x.unmarked s) (g.neighbours n) :=
  unmarked_visits s x (g.neighbours n)

theorem mem_pending_round :
    m ∈ (x.round g s n).pending ↔ m ∈ touched (x.unmarked s) (g.neighbours n) ++ x.pending := by
  rw [List.mem_append]
  exact visits_iff (p := fun x m => m ∈ x.pending) (fun _ _ _ => List.mem_cons) s x _ m

theorem mem_current_round :
    m ∈ (x.round g s n).current ↔
      m ∈ touched (x.unmarked s) (g.neighbours n) ∨ m ∈ x.current :=
  visits_iff (p := fun x m => m ∈ x.current) (fun _ _ _ => Subgraph.mem_insert) s x _ m

/-- What can be reached before a round is what it reaches or leaves to be reached. -/
theorem path_round_iff (g : Graph) (s : Subgraph) (x : Sweep g.size) (pending : List Nat)
    (n m : Nat) :
    (m ∈ touched (x.unmarked s) (g.neighbours n)
        ∨ ∃ q ∈ ({ x with pending }.round g s n).pending,
          TransGen (StepIn g.neighbours (({ x with pending }.round g s n).unmarked s)) q m) ↔
      ∃ q ∈ n :: pending, TransGen (StepIn g.neighbours (x.unmarked s)) q m := by
  have hsupply : { x with pending }.unmarked s = x.unmarked s := rfl
  simp only [mem_pending_round, unmarked_round, hsupply]
  exact exists_path_iff n pending (x.unmarked s) m

/-! ## One search -/

/-- **A search adds what paths from the pending nodes through the supply lead to.** -/
theorem mem_current_collect (g : Graph) (s : Subgraph) (x : Sweep g.size) (m : Nat) :
    m ∈ (collect g s x).current ↔ m ∈ x.current
      ∨ ∃ q ∈ x.pending, TransGen (StepIn g.neighbours (x.unmarked s)) q m := by
  fun_induction collect g s x with
  | case1 x hpending => simp [hpending]
  | case2 x n pending hpending ih =>
    rw [ih, hpending, ← path_round_iff, mem_current_round, or_right_comm, or_comm]
    rfl

/-- **A search leaves the rest of the supply without a mark.** -/
theorem mem_unmarked_collect (g : Graph) (s : Subgraph) (x : Sweep g.size) (m : Nat) :
    m ∈ (collect g s x).unmarked s ↔ m ∈ x.unmarked s
      ∧ ¬∃ q ∈ x.pending, TransGen (StepIn g.neighbours (x.unmarked s)) q m := by
  fun_induction collect g s x with
  | case1 x hpending => simp [hpending]
  | case2 x n pending hpending ih =>
    have hrest : m ∈ ({ x with pending }.round g s n).unmarked s ↔
        m ∈ x.unmarked s ∧ m ∉ g.neighbours n := by
      rw [unmarked_round, mem_untouched]
      rfl
    rw [ih, hpending, ← path_round_iff, hrest, mem_touched, not_or, not_and]
    exact ⟨fun h => ⟨h.1.1, fun _ => h.1.2, h.2⟩, fun h => ⟨⟨h.1, h.2.1 h.1⟩, h.2.2⟩⟩

/-! ## Where a sweep stands -/

/-- Every member without a mark is ahead of the sweep. -/
def Covers (s : Subgraph) (x : Sweep g.size) : Prop :=
  x.ahead.filter (fun n => !x.isMarked n) = x.unmarked s

/-- Every member without a mark is ahead, and the first member ahead is one of them. -/
structure Steady (s : Subgraph) (x : Sweep g.size) : Prop where
  covers : Covers s x
  head : ∀ n ahead, x.ahead = n :: ahead → x.isMarked n = false

theorem covers_mark (h : Covers s x) (n : Nat) : Covers s (x.mark n) := by
  rw [Covers, filter_isMarked_mark, unmarked_mark, ← h]
  rfl

/-- A sweep moves past marked members only, up to the first one without a mark. -/
theorem steady_skip (h : Covers s x) : Steady s x.skip where
  covers := by
    have hmarked : (x.ahead.takeWhile x.isMarked).filter (fun n => !x.isMarked n) = [] := by
      refine List.filter_eq_nil_iff.mpr fun n hn => ?_
      rw [List.mem_takeWhile_imp hn]
      decide
    rw [Covers, ← List.takeWhile_append_dropWhile (p := x.isMarked) (l := x.ahead),
      List.filter_append, hmarked] at h
    exact h
  head n ahead hahead := by
    have hhead := List.head?_dropWhile_not x.isMarked x.ahead
    have hdrop : x.ahead.dropWhile x.isMarked = n :: ahead := hahead
    rw [hdrop] at hhead
    exact hhead

/-- What a round marks, the sweep moves past. -/
theorem steady_visits (h : Covers s x) (ns : List Nat) :
    Steady s (ns.foldl (visit s) x).skip := by
  induction ns generalizing x with
  | nil => exact steady_skip h
  | cons n ns ih =>
    refine ih ?_
    rcases visit_cases s x n with ⟨-, heq⟩ | ⟨-, heq⟩
    · rw [heq]
      exact covers_mark h n
    · rw [heq]
      exact h

theorem steady_collect (h : Steady s x) : Steady s (collect g s x) := by
  fun_induction collect g s x with
  | case1 => exact h
  | case2 x n pending _ ih =>
    exact ih (steady_visits (x := { x with pending }) h.covers (g.neighbours n))

/-! ## One component after the other -/

/-- Entering a component takes its first member out of the supply. -/
theorem enter_spec (h : Steady s x) {first : Nat} {ahead : List Nat}
    (hahead : x.ahead = first :: ahead) :
    x.unmarked s = first :: (x.enter first ahead).unmarked s ∧ Steady s (x.enter first ahead) := by
  have hfirst := h.head first ahead hahead
  have hsplit : x.unmarked s = first :: ahead.filter fun n => !x.isMarked n := by
    have hcovers := h.covers
    rw [Covers, hahead, List.filter_cons_of_pos (by rw [hfirst]; rfl)] at hcovers
    exact hcovers.symm
  have hnodup := List.nodup_cons.mp (hsplit ▸ (x.ascending_unmarked s).imp Nat.ne_of_lt)
  have hother : (ahead.filter fun n => !x.isMarked n).filter (· ≠ first)
      = ahead.filter fun n => !x.isMarked n :=
    List.filter_eq_self.mpr fun n hn => decide_eq_true fun heq => hnodup.1 (heq ▸ hn)
  have hrest : (x.enter first ahead).unmarked s = ahead.filter fun n => !x.isMarked n := by
    have hmark : (x.enter first ahead).unmarked s = (x.unmarked s).filter (· ≠ first) :=
      unmarked_mark _ s first
    rw [hmark, hsplit, List.filter_cons_of_neg (by simp), hother]
  refine ⟨hrest.symm ▸ hsplit, steady_skip ?_⟩
  rw [Covers, filter_isMarked_mark]
  exact hother.trans hrest.symm

/-- **A search finds what is reached from the first member, and leaves what that leaves.** -/
theorem find_spec (h : Steady s x) {first : Nat} {ahead supply : List Nat}
    (hahead : x.ahead = first :: ahead) (hsupply : x.unmarked s = first :: supply) :
    (find g s x first ahead).current = .ofList (reachFrom g.neighbours first supply).reached
      ∧ (find g s x first ahead).unmarked s = (reachFrom g.neighbours first supply).rest
      ∧ Steady s (find g s x first ahead) := by
  obtain ⟨hsplit, hsteady⟩ := enter_spec h hahead
  obtain rfl : supply = (x.enter first ahead).unmarked s := by
    rw [hsupply] at hsplit
    exact (List.cons.inj hsplit).2
  refine ⟨?_, ?_, steady_collect hsteady⟩
  · ext m
    rw [find, mem_current_collect, Subgraph.mem_ofList, reachFrom, mem_reached_spread]
    simp [enter, skip, mark]
  · have hrest : (reachFrom g.neighbours first ((x.enter first ahead).unmarked s)).rest.Pairwise
        (· < ·) := (ascending_unmarked _ s).sublist (rest_reachFrom_sublist _ _)
    refine Subgraph.eq_of_ascending (ascending_unmarked _ s) hrest fun m => ?_
    rw [find, mem_unmarked_collect, reachFrom, mem_rest_spread]
    rfl

/-- **A sweep finds what is found by dividing the members that it has not marked.** -/
theorem components_eq (h : Steady s x) :
    components g s x = Dominance.components g.neighbours (x.unmarked s) := by
  fun_induction components g s x with
  | case1 x hahead =>
    have hnone := h.covers
    rw [Covers, hahead] at hnone
    rw [← hnone, List.filter_nil, Dominance.components]
  | case2 x first ahead hahead ih =>
    obtain ⟨hsupply, -⟩ := enter_spec h hahead
    obtain ⟨hcurrent, hrest, hsteady⟩ := find_spec h hahead hsupply
    rw [hsupply, Dominance.components, ih hsteady, hcurrent, hrest]

theorem steady_start (hs : ∀ n ∈ s, n < g.size) :
    Steady s (start g.size s) ∧ (start g.size s).unmarked s = s.ids := by
  have hfresh : ∀ n ∈ s, (start g.size s).isMarked n = false := by
    intro n hn
    simp [start, isMarked, hs n hn]
  have hall : (start g.size s).unmarked s = s.ids :=
    List.filter_eq_self.mpr fun n hn => by rw [hfresh n hn]; rfl
  refine ⟨⟨rfl, fun n ahead hahead => hfresh n ?_⟩, hall⟩
  have hids : s.ids = n :: ahead := hahead
  rw [← Subgraph.mem_ids, hids]
  exact List.mem_cons_self

end Sweep

namespace Graph

variable {g : Graph} {s : Subgraph}

/-- **A sweep finds the components.** -/
theorem sweep_eq (hs : ∀ n ∈ s, n < g.size) : g.sweep s = g.componentsOf s := by
  obtain ⟨hsteady, hall⟩ := Sweep.steady_start hs
  rw [sweep, Sweep.components_eq hsteady, hall]
  rfl

theorem sweepOf_eq (hs : ∀ n ∈ s, n < g.size) : g.sweepOf s = .ok (g.componentsOf s) := by
  have hnone : g.stranger? s = none :=
    List.find?_eq_none.mpr fun n hn => by simpa using hs n hn
  rw [sweepOf, onNodes, hnone, sweep_eq hs]

/-- Components come in the order of their smallest nodes. -/
theorem pairwise_componentsOf_lt (g : Graph) (s : Subgraph) :
    (g.componentsOf s).Pairwise fun v w => ∃ a ∈ v, ∀ b ∈ w, a < b :=
  pairwise_components_lt g.mutual_neighbours s.ascending

/--
**The components that are found are the right ones.**

For nodes of the graph a sweep does not fail. It finds subgraphs with at least one node each; no two
of them share a node, and together they hold all nodes. They come in the order of their smallest
nodes. Two nodes are in the same of them if they are joined by a path of edges of either kind, in
either direction, that stays within the nodes in question. The components of the whole graph are
those of all its nodes.
-/
theorem components_are_exact (hs : ∀ n ∈ s, n < g.size) :
    ∃ ws, g.sweepOf s = .ok ws
      ∧ (∀ w ∈ ws, ∃ n, n ∈ w)
      ∧ (ws.Pairwise fun v w => ∀ n ∈ v, n ∉ w)
      ∧ (∀ n, n ∈ s ↔ ∃ w ∈ ws, n ∈ w)
      ∧ (ws.Pairwise fun v w =>
          ∀ a b, IsLeast {n | n ∈ v} a → IsLeast {n | n ∈ w} b → a < b)
      ∧ (∀ m ∈ s, ∀ n ∈ s, (∃ w ∈ ws, m ∈ w ∧ n ∈ w) ↔ g.Linked s m n)
      ∧ g.sweepOf g.allNodes = .ok g.wholeComponents := by
  refine ⟨g.componentsOf s, sweepOf_eq hs, fun w hw => (mem_componentsOf.mp hw).nonempty,
    pairwise_components g.mutual_neighbours s.nodup_ids, fun n => ⟨fun hn => ?_, ?_⟩, ?_,
    fun m hm n hn => ⟨?_, fun hpath => ?_⟩, sweepOf_eq fun n hn => Subgraph.mem_range.mp hn⟩
  · obtain ⟨w, hw, hnw⟩ := exists_component (g := g) hn
    exact ⟨w, mem_componentsOf.mpr hw, hnw⟩
  · rintro ⟨w, hw, hnw⟩
    exact (mem_componentsOf.mp hw).subset n hnw
  · refine (g.pairwise_componentsOf_lt s).imp ?_
    rintro v w ⟨c, hc, hlt⟩ a b ha hb
    exact Nat.lt_of_le_of_lt (ha.2 hc) (hlt b hb.1)
  · rintro ⟨w, hw, hmw, hnw⟩
    exact ((mem_componentsOf.mp hw).mem_iff_linked hmw).mp hnw
  · obtain ⟨w, hw, hmw⟩ := exists_component (g := g) hm
    exact ⟨w, mem_componentsOf.mpr hw, hmw, (hw.mem_iff_linked hmw).mpr hpath⟩

/-- A chain of four nodes with a loop and with two edges between the last ones, and two more
nodes. -/
def chained : Graph :=
  build [("a", some "f"), ("b", none), ("c", some "g"), ("d", some "h"), ("e", none),
      ("k", some "a")]
    [⟨.tree, 0, 1⟩, ⟨.dominance, 1, 2⟩, ⟨.tree, 2, 3⟩, ⟨.dominance, 3, 2⟩, ⟨.dominance, 3, 3⟩,
      ⟨.dominance, 5, 0⟩]

theorem components_are_exact_chained :
    (∀ n ∈ Subgraph.ofList [0, 2, 3, 5], n < chained.size)
      ∧ chained.sweepOf (.ofList [0, 2, 3, 5]) = .ok [.ofList [0, 5], .ofList [2, 3]]
      ∧ chained.Linked (.ofList [0, 2, 3, 5]) 0 5
      ∧ ¬chained.Linked (.ofList [0, 2, 3, 5]) 0 2 := by
  have hsize : chained.size = 6 := by decide +kernel
  have hs : ∀ n ∈ Subgraph.ofList [0, 2, 3, 5], n < chained.size := by
    intro n hn
    have hmem := Subgraph.mem_ofList.mp hn
    simp only [List.mem_cons, List.not_mem_nil, or_false] at hmem
    omega
  obtain ⟨ws, hws, -, -, -, -, hlinked, -⟩ := components_are_exact hs
  have hfound : ws = [.ofList [0, 5], .ofList [2, 3]] := by
    have hsweep := sweepOf_eq hs
    rw [hws] at hsweep
    exact (Except.ok.inj hsweep).trans (by decide +kernel)
  have hmem : ∀ {n}, n ∈ [0, 2, 3, 5] → n ∈ Subgraph.ofList [0, 2, 3, 5] := Subgraph.mem_ofList.mpr
  refine ⟨hs, hfound ▸ hws, (hlinked 0 (hmem (by decide)) 5 (hmem (by decide))).mp ?_, fun h => ?_⟩
  · exact ⟨.ofList [0, 5], by simp [hfound], by decide +kernel, by decide +kernel⟩
  · obtain ⟨w, hw, h0, h2⟩ := (hlinked 0 (hmem (by decide)) 2 (hmem (by decide))).mpr h
    rw [hfound] at hw
    have hnone : ∀ w ∈ [Subgraph.ofList [0, 5], .ofList [2, 3]], ¬(0 ∈ w ∧ 2 ∈ w) := by
      decide +kernel
    exact hnone w hw ⟨h0, h2⟩

end Graph

end Dominance
