import Dominance.Graph.Visit
import Dominance.Proofs.Filling

/-!
# What visits find

Every node that a search has met is reached by a path, and what is next to a visited node was met.
A search that is over with nothing pending has visited all nodes that it met, so that no path leads
out of them; none of them is its goal.
A search that breaks off has met its goal.

A search takes no more turns than there are nodes, since it visits no node twice.

* `Visiting` — what holds from turn to turn
* `Ends`, `ends_run` — how many turns a search takes
* `reachesOf_eq`, `fragmentOf_eq` — visits give the answers that spreading gives
* `searches_are_exact` — these answers are right
-/

namespace Dominance

open Relation

namespace Visit

variable {size : Nat} {ways : Ways size} {goal : Option Nat} {x y : Visit} {m n : Nat}

/-! ## One turn -/

theorem mem_met_meet : m ∈ (x.meet n).met ↔ m = n ∨ m ∈ x.met := by
  unfold meet
  split
  · next hmet =>
    refine ⟨.inr, fun h => h.elim (fun heq => ?_) id⟩
    exact heq ▸ Subgraph.contains_iff.mp hmet
  · exact Subgraph.mem_insert

theorem mem_pending_meet : m ∈ (x.meet n).pending ↔ (m = n ∧ n ∉ x.met) ∨ m ∈ x.pending := by
  unfold meet
  split
  · next hmet => simp [Subgraph.contains_iff.mp hmet]
  · next hmet =>
    have hmet : n ∉ x.met := fun h => hmet (Subgraph.contains_iff.mpr h)
    simp [hmet]

theorem mem_met_foldl_meet {ns : List Nat} : m ∈ (ns.foldl meet x).met ↔ m ∈ ns ∨ m ∈ x.met := by
  induction ns generalizing x with
  | nil => simp
  | cons n ns ih => rw [List.foldl_cons, ih, mem_met_meet, List.mem_cons, or_left_comm, or_assoc]

/-- What becomes pending was not met before. -/
theorem mem_pending_foldl_meet {ns : List Nat} :
    m ∈ (ns.foldl meet x).pending ↔ (m ∈ ns ∧ m ∉ x.met) ∨ m ∈ x.pending := by
  induction ns generalizing x with
  | nil => simp
  | cons n ns ih =>
    rw [List.foldl_cons, ih, mem_met_meet, mem_pending_meet, List.mem_cons]
    by_cases hmn : m = n
    · subst hmn
      by_cases hm : m ∈ x.met <;> simp [hm]
    · simp [hmn]

/-- **A turn visits the node that became pending last, which is not the goal.** -/
theorem turn?_eq_some_iff : x.turn? ways goal = some y ↔
    ∃ n pending, x.pending = n :: pending ∧ goal ≠ some n
      ∧ y = (ways.next n).foldl meet { x with pending } := by
  unfold turn?
  split
  · next hnil => simp [hnil]
  · next n pending hpending =>
    rw [hpending]
    split
    · next hgoal => simp [hgoal]
    · next hgoal =>
      constructor
      · intro h
        exact ⟨n, pending, rfl, hgoal, (Option.some.inj h).symm⟩
      · rintro ⟨_, _, heq, -, rfl⟩
        cases heq
        rfl

/-- **A search is over if nothing is pending or it is the turn of the goal.** -/
theorem turn?_eq_none_iff : x.turn? ways goal = none ↔
    x.pending = [] ∨ ∃ n pending, x.pending = n :: pending ∧ goal = some n := by
  unfold turn?
  split
  · next hnil => simp [hnil]
  · next n pending hpending =>
    rw [hpending]
    split
    · next hgoal => simp [hgoal]
    · next hgoal => simp [hgoal]

/-! ## The number of turns -/

/-- The search is over after some turns, in the given state. -/
inductive Ends (ways : Ways size) (goal : Option Nat) : Visit → Nat → Visit → Prop
  | ended {x : Visit} (h : x.turn? ways goal = none) : Ends ways goal x 0 x
  | turn {x y z : Visit} {turns : Nat} (h : x.turn? ways goal = some y)
      (hends : Ends ways goal y turns z) : Ends ways goal x (turns + 1) z

theorem ends_run (ways : Ways size) (goal : Option Nat) (x : Visit) :
    ∃ turns ≤ x.load size, Ends ways goal x turns (x.run ways goal) := by
  fun_induction run ways goal x with
  | case1 x hturn => exact ⟨0, Nat.zero_le _, .ended hturn⟩
  | case2 x y hturn ih =>
    obtain ⟨turns, hle, hends⟩ := ih
    have hlt := load_lt_of_turn? hturn
    exact ⟨turns + 1, by omega, .turn hturn hends⟩

theorem load_start (hn : n < size) : (start n).load size = size := by
  have hunmet : (start n).unmet size = (List.range size).erase n := by
    rw [List.nodup_range.erase_eq_filter]
    refine List.filter_congr fun m _ => ?_
    show (!(Subgraph.ofList [n]).contains m) = (m != n)
    rw [Bool.eq_iff_iff]
    simp [Subgraph.contains]
  unfold load
  rw [hunmet, List.length_erase_of_mem (List.mem_range.mpr hn), List.length_range]
  show 1 + (size - 1) = size
  omega

/-- **A search from a node takes no more turns than there are nodes.** -/
theorem ends_run_start (ways : Ways size) (goal : Option Nat) (hn : n < size) :
    ∃ turns ≤ size, Ends ways goal (start n) turns ((start n).run ways goal) := by
  have h := ends_run ways goal (start n)
  rwa [load_start hn] at h

/-! ## From turn to turn -/

/-- What holds while a search from a node goes on. -/
structure Visiting (ways : Ways size) (goal : Option Nat) (first : Nat) (x : Visit) : Prop where
  first_mem : first ∈ x.met
  reached : ∀ n ∈ x.met, ReflTransGen (fun a b => b ∈ ways.next a) first n
  met : ∀ n ∈ x.pending, n ∈ x.met
  visited : ∀ m ∈ x.met, m ∉ x.pending → goal ≠ some m ∧ ∀ n ∈ ways.next m, n ∈ x.met

namespace Visiting

variable {first : Nat}

theorem start (ways : Ways size) (goal : Option Nat) (n : Nat) :
    Visiting ways goal n (start n) where
  first_mem := Subgraph.mem_ofList.mpr (List.mem_singleton_self n)
  reached m hm := by
    rw [List.mem_singleton.mp (Subgraph.mem_ofList.mp hm)]
  met m hm := Subgraph.mem_ofList.mpr hm
  visited m hm hnot := absurd (Subgraph.mem_ofList.mp hm) hnot

/-- **A turn keeps what holds**: the visited node leaves the pending ones when all that is next to it
is met. -/
theorem turn (h : Visiting ways goal first x) (hturn : x.turn? ways goal = some y) :
    Visiting ways goal first y := by
  obtain ⟨n, pending, hpending, hgoal, rfl⟩ := turn?_eq_some_iff.mp hturn
  have hn : n ∈ x.met := h.met n (hpending ▸ List.mem_cons_self)
  refine ⟨mem_met_foldl_meet.mpr (.inr h.first_mem), fun m hm => ?_, fun m hm => ?_,
    fun m hm hnot => ?_⟩
  · rcases mem_met_foldl_meet.mp hm with hnext | hold
    · exact (h.reached n hn).tail hnext
    · exact h.reached m hold
  · rcases mem_pending_foldl_meet.mp hm with ⟨hnext, -⟩ | hold
    · exact mem_met_foldl_meet.mpr (.inl hnext)
    · exact mem_met_foldl_meet.mpr (.inr (h.met m (hpending ▸ List.mem_cons_of_mem _ hold)))
  · rw [mem_pending_foldl_meet, not_or, not_and_not_right] at hnot
    have hold : m ∈ x.met := (mem_met_foldl_meet.mp hm).elim hnot.1 id
    by_cases hmn : m = n
    · subst hmn
      exact ⟨hgoal, fun k hk => mem_met_foldl_meet.mpr (.inl hk)⟩
    · have hvisited : m ∉ x.pending := by
        rw [hpending, List.mem_cons, not_or]
        exact ⟨hmn, hnot.2⟩
      obtain ⟨hne, hclosed⟩ := h.visited m hold hvisited
      exact ⟨hne, fun k hk => mem_met_foldl_meet.mpr (.inr (hclosed k hk))⟩

/-- What holds at the start holds at the end. -/
theorem ends (h : Visiting ways goal first x) {turns : Nat} (hends : Ends ways goal x turns y) :
    Visiting ways goal first y ∧ y.turn? ways goal = none := by
  induction hends with
  | ended hover => exact ⟨h, hover⟩
  | turn hturn _ ih => exact ih (h.turn hturn)

/-- With nothing pending, no path leads out of what was met. -/
theorem mem_met_of_path (h : Visiting ways goal first x) (hnil : x.pending = [])
    (hpath : ReflTransGen (fun a b => b ∈ ways.next a) first n) : n ∈ x.met := by
  induction hpath with
  | refl => exact h.first_mem
  | @tail m n _ hnext ih => exact (h.visited m ih (by simp [hnil])).2 n hnext

/-- **A search without a goal meets what paths lead to.** -/
theorem mem_met_iff (h : Visiting ways none first x) (hover : x.turn? ways none = none) :
    n ∈ x.met ↔ ReflTransGen (fun a b => b ∈ ways.next a) first n := by
  have hnil : x.pending = [] := by
    rcases turn?_eq_none_iff.mp hover with hnil | ⟨_, _, _, hgoal⟩
    · exact hnil
    · cases hgoal
  exact ⟨h.reached n, h.mem_met_of_path hnil⟩

/-- **A search finds its goal if a path leads there.** -/
theorem found_iff (h : Visiting ways (some n) first x) (hover : x.turn? ways (some n) = none) :
    x.found = true ↔ ReflTransGen (fun a b => b ∈ ways.next a) first n := by
  rcases turn?_eq_none_iff.mp hover with hnil | ⟨goal, pending, hpending, hgoal⟩
  · -- the goal would have been met, and then its turn would have come
    have hfound : x.found = false := by rw [found, hnil]; rfl
    rw [hfound]
    constructor
    · intro hfalse
      cases hfalse
    · intro hpath
      exact absurd rfl (h.visited n (h.mem_met_of_path hnil hpath) (by simp [hnil])).1
  · cases hgoal
    have hfound : x.found = true := by rw [found, hpending]; rfl
    exact ⟨fun _ => h.reached n (h.met n (hpending ▸ List.mem_cons_self)), fun _ => hfound⟩

end Visiting

end Visit

namespace Graph

variable {g : Graph} {m n : Nat}

theorem onNode_eq {α : Type} {answer : α} (hn : n < g.size) : g.onNode n answer = .ok answer :=
  if_pos hn

/-! ## The two searches of a graph -/

/-- A search along directed edges ends in time, and finds what directed paths lead to. -/
theorem exists_ends_ways (hm : m < g.size) (n : Nat) :
    ∃ turns ≤ g.size, ∃ x, (Visit.start m).Ends g.ways (some n) turns x
      ∧ g.reachesOf m n = .ok x.found ∧ (x.found = true ↔ ReflTransGen g.Arc m n) := by
  obtain ⟨turns, hle, hends⟩ := Visit.ends_run_start g.ways (some n) hm
  obtain ⟨hvisiting, hover⟩ := (Visit.Visiting.start g.ways (some n) m).ends hends
  refine ⟨turns, hle, _, hends, onNode_eq hm, ?_⟩
  have hnext : (fun a b => b ∈ g.ways.next a) = g.Arc := by
    funext a b
    exact propext mem_successors
  rw [hvisiting.found_iff hover, hnext]

/-- A search along tree edges ends in time, and comes to what tree edges join. -/
theorem exists_ends_treeWays (hm : m < g.size) :
    ∃ turns ≤ g.size, ∃ x, (Visit.start m).Ends g.treeWays none turns x
      ∧ g.fragmentOf m = .ok x.met ∧ ∀ n, n ∈ x.met ↔ ReflTransGen g.TreeJoined m n := by
  obtain ⟨turns, hle, hends⟩ := Visit.ends_run_start g.treeWays none hm
  obtain ⟨hvisiting, hover⟩ := (Visit.Visiting.start g.treeWays none m).ends hends
  refine ⟨turns, hle, _, hends, onNode_eq hm, fun n => ?_⟩
  have hnext : (fun a b => b ∈ g.treeWays.next a) = g.TreeJoined := by
    funext a b
    exact propext mem_treeNeighbours
  rw [hvisiting.mem_met_iff hover, hnext]

/-- **Visits find the nodes that spreading reaches.** -/
theorem reachesOf_eq (hm : m < g.size) (n : Nat) : g.reachesOf m n = .ok (g.reaches m n) := by
  obtain ⟨_, _, x, -, hx, hfound⟩ := exists_ends_ways hm n
  rw [hx, Bool.eq_iff_iff.mpr (hfound.trans reaches_iff.symm)]

/-- **Visits along tree edges come to the fragment.** -/
theorem fragmentOf_eq (hm : m < g.size) : g.fragmentOf m = .ok (g.fragment m) := by
  obtain ⟨_, _, x, -, hx, hmem⟩ := exists_ends_treeWays hm
  have hsame : x.met = g.fragment m := by
    ext n
    rw [hmem, mem_fragment]
  rw [hx, hsame]

/--
**The searches of a graph end, and find what they should.**

The search from one node for another one takes no more turns than there are nodes. It finds the
other node if a directed path of edges of either kind leads there, maybe the empty one. The search
for a fragment takes no more turns than that either, and it finds the nodes that tree edges join to
the first one, in either direction. So every node is in its own fragment, fragments hold nodes only,
and two fragments that share a node are the same.
-/
theorem searches_are_exact (hm : m < g.size) (hn : n < g.size) :
    (∃ turns ≤ g.size, ∃ x, (Visit.start m).Ends g.ways (some n) turns x
        ∧ g.reachesOf m n = .ok x.found ∧ (x.found = true ↔ ReflTransGen g.Arc m n))
      ∧ (∃ turns ≤ g.size, ∃ x, (Visit.start m).Ends g.treeWays none turns x
        ∧ g.fragmentOf m = .ok x.met ∧ ∀ k, k ∈ x.met ↔ ReflTransGen g.TreeJoined m k)
      ∧ ∃ f f', g.fragmentOf m = .ok f ∧ g.fragmentOf n = .ok f'
        ∧ m ∈ f ∧ (∀ k ∈ f, k < g.size) ∧ (f = f' ∨ ∀ k ∈ f, k ∉ f') := by
  refine ⟨exists_ends_ways hm n, exists_ends_treeWays hm, _, _, fragmentOf_eq hm,
    fragmentOf_eq hn, self_mem_fragment, fun _ => lt_of_mem_fragment hm, ?_⟩
  by_cases hshare : ∃ k, k ∈ g.fragment m ∧ k ∈ g.fragment n
  · obtain ⟨k, hkm, hkn⟩ := hshare
    exact .inl ((fragment_eq_of_mem hkm).symm.trans (fragment_eq_of_mem hkn))
  · exact .inr fun k hkm hkn => hshare ⟨k, hkm, hkn⟩

/-- Two fragments: a loop and a cycle of tree edges, with two edges between the same nodes. A
dominance edge leads from the second one to the first one. -/
def tangled : Graph :=
  build [("a", some "f"), ("b", none), ("c", some "g"), ("d", some "h")]
    [⟨.tree, 0, 1⟩, ⟨.tree, 0, 1⟩, ⟨.tree, 1, 1⟩, ⟨.tree, 2, 3⟩, ⟨.tree, 3, 2⟩,
      ⟨.dominance, 3, 0⟩]

theorem searches_are_exact_tangled :
    2 < tangled.size ∧ 0 < tangled.size
      ∧ ReflTransGen tangled.Arc 2 0 ∧ ¬ReflTransGen tangled.Arc 0 2
      ∧ (∃ turns ≤ tangled.size, ∃ x, (Visit.start 2).Ends tangled.ways (some 0) turns x
        ∧ x.found = true)
      ∧ tangled.fragmentOf 2 = .ok (.ofList [2, 3]) := by
  have hsize : tangled.size = 4 := by decide +kernel
  have htwo : 2 < tangled.size := by omega
  have hzero : 0 < tangled.size := by omega
  obtain ⟨⟨turns, hle, x, hends, hx, hpath⟩, -, f, -, hf, -, -⟩ := searches_are_exact htwo hzero
  obtain ⟨⟨-, -, y, -, hy, hnone⟩, -⟩ := searches_are_exact hzero htwo
  have hfound : x.found = true := Except.ok.inj (hx.symm.trans (by decide +kernel))
  have hlost : y.found = false := Except.ok.inj (hy.symm.trans (by decide +kernel))
  refine ⟨htwo, hzero, hpath.mp hfound, fun h => ?_, ⟨turns, hle, x, hends, hfound⟩, ?_⟩
  · rw [hnone.mpr h] at hlost
    cases hlost
  · rw [hf]
    exact hf.symm.trans (by decide +kernel)

end Graph

end Dominance
