import Mathlib.Data.List.Forall2
import Mathlib.Data.Multiset.Bind
import Dominance.Proofs.Closure
import Dominance.Proofs.Survival

/-!
# The order of the edges

Solving asks which edges there are, and not in which order they were inserted or how often.
Searches only test whether a node is a neighbour, so they go the same way in both graphs; the order
of the edges shows in one place, where a fragment is taken away: the components below one of its
nodes are listed by the edge through which each of them was entered first.

So the splits of a subgraph are the same apart from the order of their parts, and an agenda is
unfolded into the same solutions apart from their order, since its entries are unfolded
independently of each other.
None of this needs the graph to be simple.

* `spread_congr`, `components_congr` — searches depend on the sets of neighbours only
* `SameEdges.splits` — the splits are the same, apart from the order of parts
* `bags_perm`, `bags_eq_of_alike` — the solutions of an agenda as bags of links
* `edge_order_is_irrelevant` — answers, counts and solved forms are the same
-/

namespace Dominance

open Relation

/-! ## Searches -/

section Searches

variable {next next' : Nat → List Nat}

theorem touched_congr {listed listed' : List Nat} (h : ∀ n, n ∈ listed ↔ n ∈ listed')
    (supply : List Nat) : touched supply listed = touched supply listed' := by
  refine List.filter_congr fun n _ => ?_
  rw [Bool.eq_iff_iff, List.contains_iff_mem, List.contains_iff_mem]
  exact h n

theorem untouched_congr {listed listed' : List Nat} (h : ∀ n, n ∈ listed ↔ n ∈ listed')
    (supply : List Nat) : untouched supply listed = untouched supply listed' := by
  refine List.filter_congr fun n _ => congrArg not ?_
  rw [Bool.eq_iff_iff, List.contains_iff_mem, List.contains_iff_mem]
  exact h n

/-- A search goes the same way if every node has the same neighbours. -/
theorem spread_congr (h : ∀ m n, n ∈ next m ↔ n ∈ next' m) (pending supply reached : List Nat) :
    spread next pending supply reached = spread next' pending supply reached := by
  fun_induction spread next pending supply reached with
  | case1 supply reached => rw [spread]
  | case2 supply reached n pending ih =>
    rw [ih, touched_congr (h n), untouched_congr (h n), spread]

theorem components_congr (h : ∀ m n, n ∈ next m ↔ n ∈ next' m) (supply : List Nat) :
    components next supply = components next' supply := by
  fun_induction components next supply with
  | case1 => rw [components]
  | case2 n supply reach ih =>
    have hreach : reach = reachFrom next' n supply := spread_congr h [n] supply [n]
    rw [ih, hreach, components]

end Searches

/-! ## Graphs with the same edges -/

/-- Two splits by the same fragment with the same parts, maybe in another order. -/
def Split.Alike (a b : Split) : Prop := a.root = b.root ∧ a.parts.Perm b.parts

namespace Graph

variable {g g' : Graph} {s w : Subgraph} {split : Split} {r : Nat}

/-- Two graphs with the same nodes and the same edges, whatever the order in which the edges were
inserted and however often. Names and labels play no part in solving, so they may differ. -/
structure SameEdges (g g' : Graph) : Prop where
  size : g.size = g'.size
  edges : ∀ e, e ∈ g.edges ↔ e ∈ g'.edges

namespace SameEdges

theorem symm (h : g.SameEdges g') : g'.SameEdges g := ⟨h.size.symm, fun e => (h.edges e).symm⟩

theorem arc (h : g.SameEdges g') : g.Arc = g'.Arc := by
  funext m n
  exact propext (exists_congr fun kind => h.edges ⟨kind, m, n⟩)

theorem treeArc (h : g.SameEdges g') : g.TreeArc = g'.TreeArc := by
  funext m n
  exact propext (h.edges ⟨.tree, m, n⟩)

theorem joined (h : g.SameEdges g') : g.Joined = g'.Joined := by
  funext m n
  rw [Joined, Joined, h.arc]

theorem fragment (h : g.SameEdges g') (n : Nat) : g.fragment n = g'.fragment n := by
  ext m
  have hjoined : g.TreeJoined = g'.TreeJoined := by
    funext a b
    rw [TreeJoined, TreeJoined, h.treeArc]
  rw [mem_fragment, mem_fragment, hjoined]

theorem topOf (h : g.SameEdges g') (r : Nat) (s : Subgraph) : g.topOf r s = g'.topOf r s := by
  rw [Graph.topOf, Graph.topOf, h.fragment]

theorem isRoot (h : g.SameEdges g') : g.isRoot = g'.isRoot := by
  funext n
  rw [Bool.eq_iff_iff, isRoot_iff, isRoot_iff, h.size, h.treeArc]

theorem rootsIn (h : g.SameEdges g') (s : Subgraph) : g.rootsIn s = g'.rootsIn s := by
  rw [Graph.rootsIn, Graph.rootsIn, h.isRoot]

theorem soleRoot? (h : g.SameEdges g') (s : Subgraph) : g.soleRoot? s = g'.soleRoot? s := by
  rw [Graph.soleRoot?, Graph.soleRoot?, h.rootsIn]

/-- The open roots are listed in the same order, by their numbers. -/
theorem openRoots (h : g.SameEdges g') (s : Subgraph) : g.openRoots s = g'.openRoots s := by
  have hascending : ∀ k : Graph, (k.openRoots s).Pairwise (· < ·) :=
    fun k => (List.pairwise_lt_range.filter _).filter _
  refine Subgraph.eq_of_ascending (hascending g) (hascending g') fun n => ?_
  rw [mem_openRoots, mem_openRoots, h.isRoot, h.arc]

theorem isComponent (h : g.SameEdges g') : g.IsComponent = g'.IsComponent := by
  funext s w
  have hlinked : g.Linked s = g'.Linked s := by
    rw [Linked, Linked, h.joined]
  rw [IsComponent, IsComponent, hlinked]

theorem wholeComponents (h : g.SameEdges g') : g.wholeComponents = g'.wholeComponents := by
  have hneighbours : ∀ m n, n ∈ g.neighbours m ↔ n ∈ g'.neighbours m := by
    intro m n
    rw [mem_neighbours, mem_neighbours, h.joined]
  rw [Graph.wholeComponents, Graph.wholeComponents, componentsOf, componentsOf, allNodes, allNodes,
    h.size]
  exact components_congr hneighbours _

/-! ## Splits -/

theorem divides (h : g.SameEdges g') {top : Subgraph} {parts : List Part}
    (hd : g.Divides top s parts) : g'.Divides top s parts where
  component := h.isComponent ▸ hd.component
  dominator := hd.dominator
  arc := h.arc ▸ hd.arc
  hangs := h.joined ▸ hd.hangs
  cover := hd.cover
  disjoint := hd.disjoint

/-- **A fragment that is free in one of the graphs is free in the other, with the same parts below
it.** -/
theorem exists_freeSplit? (h : g.SameEdges g') (hsplit : g.freeSplit? r s = some split) :
    ∃ split', g'.freeSplit? r s = some split' ∧ split.Alike split' := by
  obtain ⟨hroot, hd⟩ := divides_of_freeSplit? hsplit
  have hd' := h.divides hd
  rw [h.topOf] at hd'
  obtain ⟨split', hsplit'⟩ : ∃ split', g'.freeSplit? r s = some split' := by
    refine Graph.exists_freeSplit? fun w hw => ?_
    obtain ⟨n, hn⟩ := hw.nonempty
    obtain ⟨p, hp, hnp⟩ := hd'.cover n (hw.subset n hn)
    obtain rfl : p.component = w := (hd'.component p hp).eq_of_mem hw hnp hn
    exact ⟨p.dominator, hd'.dominator p hp, hd'.arc p hp, hd'.hangs p hp⟩
  obtain ⟨hroot', hd''⟩ := divides_of_freeSplit? hsplit'
  exact ⟨split', hsplit', hroot.trans hroot'.symm, hd'.perm hd''⟩

/-- **The splits of a subgraph are the same, apart from the order of their parts.** -/
theorem splits (h : g.SameEdges g') (s : Subgraph) :
    List.Forall₂ Split.Alike (g.splits s) (g'.splits s) := by
  rw [Graph.splits, Graph.splits, ← h.openRoots]
  induction g.openRoots s with
  | nil => exact .nil
  | cons r roots ih =>
    rw [List.filterMap_cons, List.filterMap_cons]
    cases hsplit : g.freeSplit? r s with
    | some split =>
      obtain ⟨split', hsplit', halike⟩ := h.exists_freeSplit? hsplit
      rw [hsplit']
      exact .cons halike ih
    | none =>
      cases hsplit' : g'.freeSplit? r s with
      | none => exact ih
      | some split' =>
        obtain ⟨split, hsome, -⟩ := h.symm.exists_freeSplit? hsplit'
        rw [hsplit] at hsome
        cases hsome

end SameEdges

end Graph

/-! ## Solutions without order -/

namespace Chart

variable {c c' : Chart} {g g' : Graph} {rank rank' : Subgraph → Nat} {agenda agenda' : List Pending}

/-- The solutions of an agenda as bags of links, in a bag of their own: neither the order of the
solutions nor that of their links counts. -/
def bags (c : Chart) (g : Graph) (agenda : List Pending) : Multiset (Multiset Link) :=
  .ofList ((c.unfolded g agenda).map .ofList)

/-- Every solution of one agenda goes with every solution of another one. -/
theorem Ranked.bags_append (hr : c.Ranked rank) (agenda agenda' : List Pending) :
    c.bags g (agenda ++ agenda')
      = (c.bags g agenda).bind fun bag => (c.bags g agenda').map (bag + ·) := by
  simp only [bags, hr.unfolded_append, List.map_flatMap, List.map_map, Multiset.map_coe,
    Multiset.coe_bind, List.flatMap_map, Function.comp_def, Multiset.coe_add]

theorem Ranked.bags_cons (hr : c.Ranked rank) (entry : Pending) (agenda : List Pending) :
    c.bags g (entry :: agenda)
      = (c.bags g [entry]).bind fun bag => (c.bags g agenda).map (bag + ·) :=
  hr.bags_append [entry] agenda

/-- **The order of the entries of an agenda does not matter.** -/
theorem Ranked.bags_perm (hr : c.Ranked rank) (h : agenda.Perm agenda') :
    c.bags g agenda = c.bags g agenda' := by
  induction h with
  | nil => rfl
  | @cons entry before after _ ih => rw [hr.bags_cons entry before, hr.bags_cons entry after, ih]
  | swap x y agenda =>
    have hpair : ∀ x y : Pending, c.bags g (x :: y :: agenda)
        = (c.bags g [x]).bind fun a => (c.bags g [y]).bind fun b =>
            (c.bags g agenda).map (a + b + ·) := by
      intro x y
      rw [hr.bags_cons x, hr.bags_cons y]
      simp only [Multiset.map_bind, Multiset.map_map, Function.comp_def, add_assoc]
    rw [hpair, hpair, Multiset.bind_bind]
    simp only [add_comm]
  | trans _ _ ih ih' => exact ih.trans ih'

theorem Ranked.bags_cons_of_sole (hr : c.Ranked rank) {entry : Pending} {root : Nat}
    (h : g.soleRoot? entry.subgraph = some root) (agenda : List Pending) :
    c.bags g (entry :: agenda)
      = (c.bags g agenda).map ((Machine.linksTo entry.dominator root : Multiset Link) + ·) := by
  simp only [bags, hr.unfolded_cons_of_sole h, List.map_map, Multiset.map_coe, Function.comp_def,
    Multiset.coe_add]

theorem Ranked.bags_cons_of_split (hr : c.Ranked rank) {entry : Pending}
    (h : g.soleRoot? entry.subgraph = none) (agenda : List Pending) :
    c.bags g (entry :: agenda) = ((c.splitsFor entry.subgraph).map fun split =>
      (c.bags g (g.unsettled split ++ agenda)).map
        ((Machine.linksTo entry.dominator split.root ++ g.settled split : List Link)
          + · : Multiset Link → Multiset Link)).sum := by
  simp only [bags, hr.unfolded_cons_of_split h, List.map_flatMap, List.map_map, Multiset.map_coe,
    Function.comp_def, Multiset.coe_add]
  induction c.splitsFor entry.subgraph with
  | nil => rfl
  | cons split splits ih =>
    rw [List.flatMap_cons, ← Multiset.coe_add, ih, List.map_cons, List.sum_cons]

/-! ## Charts with the same splits -/

theorem settled_perm_of_alike (hsole : ∀ s, g.soleRoot? s = g'.soleRoot? s) {a b : Split}
    (h : a.Alike b) : (g.settled a).Perm (g'.settled b) := by
  simp only [Graph.settled, hsole]
  exact h.2.filterMap _

theorem unsettled_perm_of_alike (hsole : ∀ s, g.soleRoot? s = g'.soleRoot? s) {a b : Split}
    (h : a.Alike b) : (g.unsettled a).Perm (g'.unsettled b) := by
  simp only [Graph.unsettled, hsole]
  exact (List.reverse_perm _).trans
    (((h.2.filter _).map _).trans (List.reverse_perm _).symm)

/--
**Charts with the same splits, apart from the order of their parts, have the same solutions.**

By induction along the unfolding of the agenda in one of the charts.
What two such splits put on the agenda differs by its order only.
-/
theorem bags_eq_of_alike (hr : c.Ranked rank) (hr' : c'.Ranked rank')
    (hsole : ∀ s, g.soleRoot? s = g'.soleRoot? s)
    (h : ∀ s, List.Forall₂ Split.Alike (c.splitsFor s) (c'.splitsFor s)) (agenda : List Pending) :
    c.bags g agenda = c'.bags g' agenda := by
  induction agenda using hr.agenda_induction g with
  | nil => simp only [bags, unfolded_nil]
  | sole entry agenda root hroot ih =>
    rw [hr.bags_cons_of_sole hroot, hr'.bags_cons_of_sole (hsole _ ▸ hroot), ih]
  | split entry agenda hroot ih =>
    rw [hr.bags_cons_of_split hroot, hr'.bags_cons_of_split (hsole _ ▸ hroot)]
    refine congrArg List.sum (List.forall₂_eq_eq_eq ▸ List.forall₂_map_left_iff.mpr
      (List.forall₂_map_right_iff.mpr ?_))
    have hmem := (List.forall₂_and_left _ _).mpr ⟨fun _ => id, h entry.subgraph⟩
    refine hmem.imp fun {a b} hab => ?_
    obtain ⟨ha, hroots, hparts⟩ := hab
    have hlinks : (Machine.linksTo entry.dominator a.root ++ g.settled a).Perm
        (Machine.linksTo entry.dominator b.root ++ g'.settled b) := by
      rw [hroots]
      exact (settled_perm_of_alike hsole ⟨hroots, hparts⟩).append_left _
    rw [ih a ha, Multiset.coe_eq_coe.mpr hlinks]
    rw [hr'.bags_perm ((unsettled_perm_of_alike hsole ⟨hroots, hparts⟩).append_right agenda)]

/-- Solutions with the same links are the same solved forms. -/
theorem listing_perm_of_bags (htop : c.toplevel = c'.toplevel)
    (h : ∀ agenda, c.bags g agenda = c'.bags g' agenda) :
    (c.listing g).Perm (c'.listing g') := by
  -- a solved form is determined by the bag of its links
  have hform : ∀ links : List Link,
      SolvedForm.ofLinks (Multiset.toList (Multiset.ofList links)) = SolvedForm.ofLinks links := by
    intro links
    refine SolvedForm.eq_of_perm ((SolvedForm.ofLinks_perm _).trans ?_)
    exact (Multiset.coe_eq_coe.mp (Multiset.coe_toList _)).trans
      (SolvedForm.ofLinks_perm links).symm
  have hperm := (Multiset.coe_eq_coe.mp (h (Machine.start c).agenda)).map
    fun bag => SolvedForm.ofLinks bag.toList
  simp only [List.map_map, Function.comp_def, hform] at hperm
  rw [listing_eq, listing_eq]
  have hstart : (Machine.start c').agenda = (Machine.start c).agenda := by
    rw [Machine.start, Machine.start, htop]
  rw [hstart]
  exact hperm

end Chart

/-! ## Solving -/

namespace Graph

variable {g g' : Graph} {s : Subgraph}

namespace SameEdges

theorem exists_split (h : g.SameEdges g') {split : Split} (hsplit : split ∈ g.splits s) :
    ∃ split' ∈ g'.splits s, split.Alike split' := by
  obtain ⟨hopen, hfree⟩ := mem_splits.mp hsplit
  obtain ⟨split', hfree', halike⟩ := h.exists_freeSplit? hfree
  refine ⟨split', mem_splits.mpr ⟨?_, halike.1 ▸ hfree'⟩, halike⟩
  rw [← halike.1, ← h.openRoots]
  exact hopen

/-- What has to be split is the same. -/
theorem needed (h : g.SameEdges g') (hs : g.Needed g.splits s) : g'.Needed g'.splits s := by
  induction hs with
  | component hw => exact .component (h.wholeComponents ▸ hw)
  | @part s w split _ hroots hsplit hw ih =>
    obtain ⟨split', hsplit', halike⟩ := h.exists_split hsplit
    exact .part ih (h.rootsIn s ▸ hroots) hsplit' ((halike.2.map _).mem_iff.mp hw)

/-- **One of the graphs can be solved if the other one can.** -/
theorem solved (h : g.SameEdges g') (hsolved : g.solving.solved = true) :
    g'.solving.solved = true := by
  have hanswered := (solved_iff_answered (SplitSource.selects_complete g)
    (SplitSource.steady_complete g) ()).mp hsolved
  refine (solved_iff_answered (SplitSource.selects_complete g')
    (SplitSource.steady_complete g') ()).mpr fun s hs hroots => ?_
  obtain ⟨split, hsplit⟩ := List.exists_mem_of_ne_nil _
    (hanswered s (h.symm.needed hs) (h.rootsIn s ▸ hroots))
  obtain ⟨split', hsplit', -⟩ := h.exists_split hsplit
  exact List.ne_nil_of_mem hsplit'

/-- The two charts have the same splits, apart from the order of their parts. -/
theorem splitsFor (h : g.SameEdges g') (hsolved : g.solving.solved = true)
    (hsolved' : g'.solving.solved = true) (s : Subgraph) :
    List.Forall₂ Split.Alike (g.solving.chart.splitsFor s) (g'.solving.chart.splitsFor s) := by
  have hclosure : ∀ {k : Graph}, k.solving.solved = true → k.solving.chart.Closure k k.splits :=
    fun hk => closure_solveInto (SplitSource.selects_complete _) (SplitSource.steady_complete _) hk
  have hstored : g.solving.chart.hasSplits s = g'.solving.chart.hasSplits s := by
    rw [Bool.eq_iff_iff, (hclosure hsolved).stored_iff, (hclosure hsolved').stored_iff, h.rootsIn]
    exact and_congr_left fun _ => ⟨h.needed, h.symm.needed⟩
  cases hs : g.solving.chart.hasSplits s with
  | true =>
    rw [(hclosure hsolved).given s hs, (hclosure hsolved').given s (hstored ▸ hs)]
    exact h.splits s
  | false =>
    have hnil : ∀ {c : Chart}, c.hasSplits s = false → c.splitsFor s = [] := by
      simp [Chart.hasSplits]
    rw [hnil hs, hnil (hstored ▸ hs)]
    exact .nil

/-- **The solved forms are the same, apart from the order in which they are listed.** -/
theorem listing_perm (h : g.SameEdges g') (hsolved : g.solving.solved = true)
    (hsolved' : g'.solving.solved = true) :
    (g.solving.chart.listing g).Perm (g'.solving.chart.listing g') := by
  refine Chart.listing_perm_of_bags ?_ (Chart.bags_eq_of_alike
    (complete_solving hsolved).sound.ranked (complete_solving hsolved').sound.ranked h.soleRoot?
    (h.splitsFor hsolved hsolved'))
  rw [toplevel_solving, toplevel_solving, h.wholeComponents]

end SameEdges

/--
**The order of the edges and their repetition are irrelevant to the solutions.**

Two graphs with the same nodes and the same edges are both solvable or both unsolvable. If they are
solvable, their charts count the same number of solved forms, and the solved forms that are
enumerated are the same ones, maybe in another order.
-/
theorem edge_order_is_irrelevant (h : g.SameEdges g') :
    (g.solve?.isSome = true ↔ g'.solve?.isSome = true)
      ∧ ∀ c c', g.solve? = some c → g'.solve? = some c' →
          c.count.1 = c'.count.1
            ∧ (Readings.start g c).rest.1.Perm (Readings.start g' c').rest.1 := by
  refine ⟨?_, fun c c' hc hc' => ?_⟩
  · rw [isSome_solve?, isSome_solve?]
    exact ⟨h.solved, h.symm.solved⟩
  · obtain ⟨hsolved, rfl⟩ := solve?_eq_some_iff.mp hc
    obtain ⟨hsolved', rfl⟩ := solve?_eq_some_iff.mp hc'
    have hperm := h.listing_perm hsolved hsolved'
    rw [Readings.rest_start (sane_solving hsolved), Readings.rest_start (sane_solving hsolved'),
      ← (sane_solving hsolved).length_listing, ← (sane_solving hsolved').length_listing]
    exact ⟨hperm.length_eq, hperm⟩

/-- As `twoReadings`, with the edges in another order and one of them given twice. -/
def shuffledReadings : Graph :=
  build [("x", some "f"), ("xh", none), ("y", some "g"), ("yh", none), ("z", some "a")]
    [⟨.dominance, 3, 4⟩, ⟨.tree, 2, 3⟩, ⟨.dominance, 1, 4⟩, ⟨.dominance, 3, 4⟩, ⟨.tree, 0, 1⟩]

theorem edge_order_is_irrelevant_shuffledReadings :
    twoReadings.SameEdges shuffledReadings ∧ twoReadings.edges ≠ shuffledReadings.edges
      ∧ ∃ c c', twoReadings.solve? = some c ∧ shuffledReadings.solve? = some c'
        ∧ c.count.1 = c'.count.1
        ∧ (Readings.start twoReadings c).rest.1.Perm
            (Readings.start shuffledReadings c').rest.1 := by
  have hsubset : twoReadings.edges ⊆ shuffledReadings.edges
      ∧ shuffledReadings.edges ⊆ twoReadings.edges := by decide +kernel
  have hsame : twoReadings.SameEdges shuffledReadings :=
    ⟨by decide +kernel, fun e => ⟨fun he => hsubset.1 he, fun he => hsubset.2 he⟩⟩
  have hsolve : twoReadings.solve? = some twoReadings.solving.chart :=
    solve?_eq_some_iff.mpr ⟨by decide +kernel, rfl⟩
  obtain ⟨hiff, hequal⟩ := edge_order_is_irrelevant hsame
  obtain ⟨c', hsolve'⟩ := Option.isSome_iff_exists.mp (hiff.mp (by rw [hsolve]; rfl))
  obtain ⟨hcount, hperm⟩ := hequal _ c' hsolve hsolve'
  exact ⟨hsame, by decide +kernel, _, c', hsolve, hsolve', hcount, hperm⟩

end Graph

end Dominance
