import Mathlib.Data.List.Nodup
import Dominance.Proofs.Enumeration

/-!
# Every solution is found

A solution of a graph is a forest with the tree edges of the graph in which all constraints of the
graph hold.
In a solution, a connected part of the graph has one node above all others, since what an edge of
the graph joins lies on one line.
In a normal graph this node is the root of a free fragment: the components below the fragment hang
from one hole each, because two holes of one fragment never lie on one line.

So every component of a normal graph with a solution is solvable, and the splits by the topmost
fragments lead to a solved form whose links all lead down in the solution.

* `Solves.exists_top` — what is on top of a connected part
* `Solves.exists_split` — the fragment on top is free
* `Solves.exists_unfolded` — there is a solved form below the solution
* `solutions_are_found` — solving and enumerating find every solution
-/

namespace Dominance.Graph

open Relation

variable {f g : Graph} {s w : Subgraph} {k m n x : Nat}

/-! ## Normal graphs -/

theorem isHole_source (h : g.isNormal = true) (he : ⟨.dominance, m, n⟩ ∈ g.edges) :
    g.isHole m = true := by
  simp only [isNormal, dominatesFromHoles, Bool.and_eq_true, List.all_eq_true] at h
  exact h.2 ⟨.dominance, m, n⟩ (mem_dominanceEdges.mpr ⟨he, rfl⟩)

/-- No tree edge leaves a hole. -/
theorem isLeafLabelled_iff :
    g.isLeafLabelled = true ↔ ∀ m n, g.isHole m = true → ¬g.TreeArc m n := by
  simp only [isLeafLabelled, List.all_eq_true, List.mem_range, Bool.or_eq_true,
    Bool.not_eq_true', isLeaf, Bool.and_eq_true, decide_eq_true_eq, List.isEmpty_iff]
  constructor
  · intro h m n hm harc
    rcases h m harc.arc.source_lt with hlabel | ⟨-, hleaf⟩
    · rw [hm] at hlabel
      cases hlabel
    · have hchild := mem_children.mpr harc
      rw [hleaf] at hchild
      cases hchild
  · intro h m hlt
    by_cases hm : g.isHole m = true
    · refine .inr ⟨hlt, List.eq_nil_iff_forall_not_mem.mpr fun n hn => ?_⟩
      exact h m n hm (mem_children.mp hn)
    · exact .inl (Bool.eq_false_iff.mpr hm)

theorem isLeafLabelled_of_isNormal (h : g.isNormal = true) : g.isLeafLabelled = true := by
  simp only [isNormal, Bool.and_eq_true] at h
  exact h.1.1.2

/-- Nothing lies below a hole. -/
theorem eq_of_treePath_of_isHole (h : g.isLeafLabelled = true) (hm : g.isHole m = true)
    (hpath : ReflTransGen g.TreeArc m n) : m = n := by
  rcases ReflTransGen.cases_head hpath with heq | ⟨k, hk, -⟩
  · exact heq
  · exact absurd hk (isLeafLabelled_iff.mp h m k hm)

/-- The fragment of a hole that is a root would have no label. -/
theorem isHole_eq_false_of_labelled (hg : g.isSimple = true) (hleaf : g.isLeafLabelled = true)
    (hempty : g.hasNoEmptyFragments = true) (hm : g.isRoot m = true) : g.isHole m = false := by
  by_contra hhole
  rw [Bool.not_eq_false] at hhole
  obtain ⟨n, hn, hlabel⟩ := List.any_eq_true.mp (List.all_eq_true.mp hempty m (mem_roots.mpr hm))
  have heq := eq_of_treePath_of_isHole hleaf hhole (treePath_of_mem_fragment hg hm hn)
  rw [← heq, hhole] at hlabel
  cases hlabel

theorem isHole_eq_false_of_isRoot (h : g.isNormal = true) (hm : g.isRoot m = true) :
    g.isHole m = false := by
  have hempty : g.hasNoEmptyFragments = true := by
    simp only [isNormal, Bool.and_eq_true] at h
    exact h.1.2
  exact isHole_eq_false_of_labelled (isSimple_of_isWeaklyNormal (isWeaklyNormal_of_isNormal h))
    (isLeafLabelled_of_isNormal h) hempty hm

/-! ## Solutions -/

/-- A forest with the tree edges of a graph in which all constraints of the graph hold. Its
dominance edges are its own, and so is what else it says about its nodes. -/
structure Solves (f g : Graph) : Prop where
  tree : ∀ m n, f.TreeArc m n ↔ g.TreeArc m n
  single : ∀ n, (f.incoming n).length ≤ 1
  acyclic : ∀ n, ¬TransGen f.Arc n n
  dominated : ∀ e ∈ g.dominanceEdges, f.reaches e.source e.target = true

/-- The node lies above all nodes of the subgraph, and is one of them. -/
def IsTop (f : Graph) (s : Subgraph) (m : Nat) : Prop := m ∈ s ∧ ∀ n ∈ s, ReflTransGen f.Arc m n

namespace Solves

theorem path_of_treePath (h : f.Solves g) (hpath : ReflTransGen g.TreeArc m n) :
    ReflTransGen f.Arc m n :=
  ReflTransGen.mono (fun a b hab => TreeArc.arc ((h.tree a b).mpr hab)) _ _ hpath

/-- Every edge of the graph leads down in a solution. -/
theorem path_of_arc (h : f.Solves g) (harc : g.Arc m n) : ReflTransGen f.Arc m n := by
  rcases harc.tree_or_dominance with htree | hdom
  · exact h.path_of_treePath (.single htree)
  · exact reaches_iff.mp (h.dominated ⟨.dominance, m, n⟩ (mem_dominanceEdges.mpr ⟨hdom, rfl⟩))

/-- **A connected part has one node above all others.** -/
theorem exists_top (h : f.Solves g) (hs : g.Whole s) : ∃ m, f.IsTop s m := by
  obtain ⟨a, ha⟩ := hs.nonempty
  obtain ⟨m, hm, hhighest⟩ := exists_highest h.acyclic (List.ne_nil_of_mem ha)
  refine ⟨m, hm, fun n hn => ?_⟩
  have hlinked := hs.connected m hm n hn
  clear hn
  induction hlinked with
  | refl => exact .refl
  | @tail b n hpath hstep ih =>
    rcases hstep.1 with hbn | hnb
    · exact ih.trans (h.path_of_arc hbn)
    · -- both lie above the node before, so one lies above the other
      rcases (singleAbove_arc h.single).above_or_below ih (h.path_of_arc hnb) with hmn | hnm
      · exact hmn
      · rw [hhighest n hstep.2 hnm]

theorem isRoot_top (h : f.Solves g) (hs : g.Whole s) (hm : f.IsTop s m) : g.isRoot m = true := by
  refine isRoot_iff.mpr ⟨hs.lt m hm.1, fun n hnm => ?_⟩
  have hn : n ∈ s := hs.closed m hm.1 n (.inr hnm)
  exact h.acyclic n (TransGen.head' (TreeArc.arc ((h.tree n m).mpr hnm)) (hm.2 n hn))

/-- What lies between the ends of a tree path lies on it. -/
theorem treePath_of_between (h : f.Solves g) (hpath : ReflTransGen g.TreeArc m k)
    (hm : ReflTransGen f.Arc m x) (hx : ReflTransGen f.Arc x k) : ReflTransGen g.TreeArc x k := by
  induction hpath with
  | refl => rw [eq_of_path_of_path h.acyclic hx hm]
  | @tail p k _ hpk ih =>
    have harc : f.Arc p k := TreeArc.arc ((h.tree p k).mpr hpk)
    rcases (singleAbove_arc h.single).path_above hx harc with rfl | hxp
    · exact .refl
    · exact (ih hxp).tail hpk

/-- The fragment on top can be split off: no edge enters its root. -/
theorem mem_openRoots_top (hg : g.isNormal = true) (h : f.Solves g) (hs : g.Whole s)
    (hm : f.IsTop s m) : m ∈ g.openRoots s := by
  have hroot := h.isRoot_top hs hm
  refine mem_openRoots.mpr ⟨hroot, hm.1, fun n hn harc => ?_⟩
  -- only a loop could enter it, and a loop would start from a hole
  have heq : n = m := eq_of_path_of_path h.acyclic (h.path_of_arc harc) (hm.2 n hn)
  subst heq
  rcases harc.tree_or_dominance with htree | hdom
  · exact (isRoot_iff.mp hroot).2 n htree
  · have hhole := isHole_source hg hdom
    rw [isHole_eq_false_of_isRoot hg hroot] at hhole
    cases hhole

/-- A node of the fragment on top from which an edge leads to another part lies above that part. -/
theorem path_to_top (hg : g.isNormal = true) (h : f.Solves g) (hs : g.Whole s) (hm : f.IsTop s m)
    (hw : ∀ n ∈ w, n ∈ s ∧ n ∉ g.fragment m) (hx : f.IsTop w x) (hk : k ∈ g.fragment m)
    (hn : n ∈ w) (harc : g.Arc k n) : ReflTransGen f.Arc k x := by
  have hsimple := isSimple_of_isWeaklyNormal (isWeaklyNormal_of_isNormal hg)
  have hxs := hw x hx.1
  rcases (singleAbove_arc h.single).above_or_below (h.path_of_arc harc) (hx.2 n hn) with hkx | hxk
  · exact hkx
  · have htree := treePath_of_mem_fragment hsimple (h.isRoot_top hs hm) hk
    have hbetween := h.treePath_of_between htree (hm.2 x hxs.1) hxk
    have hmem := mem_fragment_symm (mem_fragment_of_treePath hbetween)
    rw [fragment_eq_of_mem hk] at hmem
    exact absurd hmem hxs.2

/-- Two holes of the fragment on top do not lie above the same node. -/
theorem eq_of_isHole_of_path (hg : g.isNormal = true) (h : f.Solves g) (hs : g.Whole s)
    (hm : f.IsTop s m) {k k' : Nat} (hk : k ∈ g.fragment m) (hk' : k' ∈ g.fragment m)
    (hhole : g.isHole k = true) (hhole' : g.isHole k' = true) (hx : ReflTransGen f.Arc k x)
    (hx' : ReflTransGen f.Arc k' x) : k = k' := by
  have hsimple := isSimple_of_isWeaklyNormal (isWeaklyNormal_of_isNormal hg)
  have hleaf := isLeafLabelled_of_isNormal hg
  have htree : ∀ {a}, a ∈ g.fragment m → ReflTransGen g.TreeArc m a :=
    treePath_of_mem_fragment hsimple (h.isRoot_top hs hm)
  rcases (singleAbove_arc h.single).above_or_below hx hx' with hkk | hkk
  · have hbetween := h.treePath_of_between (htree hk') (h.path_of_treePath (htree hk)) hkk
    exact eq_of_treePath_of_isHole hleaf hhole hbetween
  · have hbetween := h.treePath_of_between (htree hk) (h.path_of_treePath (htree hk')) hkk
    exact (eq_of_treePath_of_isHole hleaf hhole' hbetween).symm

/-- **The fragment on top is free, and its dominators lie above the parts below them.** -/
theorem exists_split (hg : g.isNormal = true) (h : f.Solves g) (hs : g.Whole s)
    (hm : f.IsTop s m) :
    ∃ split ∈ g.splits s, split.root = m
      ∧ ∀ p ∈ split.parts, ∀ x, f.IsTop p.component x → ReflTransGen f.Arc p.dominator x := by
  have hweak := isWeaklyNormal_of_isNormal hg
  have hopen := h.mem_openRoots_top hg hs hm
  have hbelow : ∀ w, g.IsComponent (s.without (g.fragment m)) w →
      ∀ n ∈ w, n ∈ s ∧ n ∉ g.fragment m :=
    fun w hw n hn => Subgraph.mem_without.mp (hw.subset n hn)
  obtain ⟨split, hsplit, rfl⟩ : ∃ split ∈ g.splits s, split.root = m := by
    refine Graph.exists_split hweak hs hopen fun w hw => ?_
    have hdown : ∀ n ∈ w, ∀ a ∈ g.fragment m, g.Joined n a → g.Arc a n ∧ g.isHole a = true := by
      intro n hn a ha hj
      obtain ⟨hns, hnm⟩ := hbelow w hw n hn
      have harc := arc_of_joined_fragment hweak hopen hns hnm ha hj
      refine ⟨harc, isHole_source hg (harc.dominance_of_not_mem (k := m) fun hiff => ?_)⟩
      exact hnm (hiff.mp ha)
    obtain ⟨x, hx⟩ := h.exists_top (hs.of_component hw)
    obtain ⟨n, hn, d, hd, hj⟩ := exists_joined_fragment hs hm.1 hw
    refine ⟨d, fun n' hn' a ha hj' => ?_⟩
    obtain ⟨harc, hhole⟩ := hdown n hn d hd hj
    obtain ⟨harc', hhole'⟩ := hdown n' hn' a ha hj'
    exact h.eq_of_isHole_of_path hg hs hm ha hd hhole' hhole
      (h.path_to_top hg hs hm (hbelow w hw) hx ha hn' harc')
      (h.path_to_top hg hs hm (hbelow w hw) hx hd hn harc)
  refine ⟨split, hsplit, rfl, fun p hp x hx => ?_⟩
  have hd := hs.divides hsplit
  obtain ⟨n, hn, harc⟩ := hd.arc p hp
  exact h.path_to_top hg hs hm (hbelow _ (hd.component p hp)) hx (hd.dominator p hp) hn harc

/-- **Everything is solvable if the graph has a solution.** -/
theorem solvable (hg : g.isNormal = true) (h : f.Solves g) (hs : g.Whole s) : g.Solvable s := by
  induction hsize : s.size using Nat.strongRecOn generalizing s with
  | _ size ih =>
    obtain ⟨m, hm⟩ := h.exists_top hs
    obtain ⟨split, hsplit, -, -⟩ := h.exists_split hg hs hm
    refine .split hsplit fun w hw => ih w.size ?_ (hs.of_mem_components hsplit hw) rfl
    exact hsize ▸ size_lt_of_mem_components hsplit hw

/-- A solution by its list of edges: they lead to greater numbers, and no two to the same one. -/
theorem of_edges (htree : f.treeEdges = g.treeEdges) (hsingle : (f.edges.map (·.target)).Nodup)
    (hascending : ∀ e ∈ f.edges, e.source < e.target)
    (hdom : ∀ e ∈ g.dominanceEdges, f.reaches e.source e.target = true) : f.Solves g where
  tree m n := by
    have hedges : ∀ e : Edge, e ∈ f.treeEdges ↔ e ∈ g.treeEdges := by simp [htree]
    simpa [treeEdges, TreeArc] using hedges ⟨.tree, m, n⟩
  single n := by
    have hcount := List.nodup_iff_count_le_one.mp hsingle n
    rw [List.count_eq_countP, List.countP_map, List.countP_eq_length_filter] at hcount
    rw [incoming_eq]
    exact hcount
  acyclic n hcycle := by
    have hlt : ∀ m, TransGen f.Arc n m → n < m := by
      intro m hpath
      induction hpath with
      | single harc =>
        obtain ⟨kind, he⟩ := harc
        exact hascending _ he
      | tail _ harc ih =>
        obtain ⟨kind, he⟩ := harc
        exact Nat.lt_trans ih (hascending _ he)
    exact Nat.lt_irrefl n (hlt n hcycle)
  dominated := hdom

/-! ## A solved form below a solution -/

theorem isTop_of_sole (h : f.Solves g) (hs : g.Whole s) {root : Nat}
    (hroot : g.soleRoot? s = some root) : f.IsTop s root := by
  obtain ⟨m, hm⟩ := h.exists_top hs
  have hmem : m ∈ g.rootsIn s := mem_rootsIn.mpr ⟨hm.1, h.isRoot_top hs hm⟩
  rw [soleRoot?_eq_some_iff.mp hroot, List.mem_singleton] at hmem
  exact hmem ▸ hm

/-- What has to hold of an entry of the agenda: it can be unfolded, and its dominator lies above. -/
structure Fits (f g : Graph) (c : Chart) (entry : Pending) : Prop where
  whole : g.Whole entry.subgraph
  mentions : c.Mentions entry.subgraph
  above : ∀ d x, entry.dominator = some d → f.IsTop entry.subgraph x → ReflTransGen f.Arc d x

/-- The links to the top of an entry lead down in the solution. -/
theorem Fits.linksTo {c : Chart} {entry : Pending} (hfits : Fits f g c entry) {root : Nat}
    (hroot : f.IsTop entry.subgraph root) :
    ∀ l ∈ Machine.linksTo entry.dominator root, ReflTransGen f.Arc l.source l.target := by
  intro l hl
  cases hd : entry.dominator with
  | none => rw [hd] at hl; cases hl
  | some d =>
    rw [hd] at hl
    rw [List.mem_singleton.mp hl]
    exact hfits.above d root hd hroot

/-- **A chart with all splits has a solution of every agenda below the solution of the graph.** -/
theorem exists_unfolded (hg : g.isNormal = true) (h : f.Solves g) {c : Chart} (hc : c.Complete g)
    (hall : ∀ s, c.hasSplits s = true → c.splitsFor s = g.splits s) {agenda : List Pending}
    (hagenda : ∀ entry ∈ agenda, Fits f g c entry) :
    ∃ links ∈ c.unfolded g agenda, ∀ l ∈ links, ReflTransGen f.Arc l.source l.target := by
  have hr := hc.sound.ranked
  induction agenda using hr.agenda_induction g with
  | nil => exact ⟨[], by simp, by simp⟩
  | sole entry agenda root hroot ih =>
    have hentry := hagenda entry List.mem_cons_self
    obtain ⟨rest, hrest, hpaths⟩ := ih fun e he => hagenda e (List.mem_cons_of_mem _ he)
    refine ⟨Machine.linksTo entry.dominator root ++ rest, ?_, fun l hl => ?_⟩
    · rw [hr.unfolded_cons_of_sole hroot]
      exact List.mem_map_of_mem hrest
    · rcases List.mem_append.mp hl with hl | hl
      · exact hentry.linksTo (h.isTop_of_sole hentry.whole hroot) l hl
      · exact hpaths l hl
  | split entry agenda hroot ih =>
    have hentry := hagenda entry List.mem_cons_self
    obtain ⟨m, hm⟩ := h.exists_top hentry.whole
    obtain ⟨split, hsplit, rfl, habove⟩ := h.exists_split hg hentry.whole hm
    have hstored : split ∈ c.splitsFor entry.subgraph := by
      rw [hall _ (Chart.hasSplits_iff.mpr (hc.splitsFor_ne_nil hentry.mentions hroot))]
      exact hsplit
    have hpart : ∀ p ∈ split.parts, Fits f g c ⟨some p.dominator, p.component⟩ := by
      intro p hp
      have hw : p.component ∈ split.components := List.mem_map_of_mem hp
      refine ⟨hentry.whole.of_mem_components hsplit hw, .inr ⟨_, split, hstored, hw⟩, ?_⟩
      rintro d x hd hx
      cases hd
      exact habove p hp x hx
    have hfits : ∀ e ∈ g.unsettled split ++ agenda, Fits f g c e := by
      intro e he
      rcases List.mem_append.mp he with he | he
      · obtain ⟨p, hp, -, rfl⟩ := Chart.mem_unsettled.mp he
        exact hpart p hp
      · exact hagenda e (List.mem_cons_of_mem _ he)
    obtain ⟨rest, hrest, hpaths⟩ := ih split hstored hfits
    refine ⟨Machine.linksTo entry.dominator split.root ++ g.settled split ++ rest, ?_,
      fun l hl => ?_⟩
    · rw [hr.unfolded_cons_of_split hroot]
      exact List.mem_flatMap.mpr ⟨split, hstored, List.mem_map_of_mem hrest⟩
    · rcases List.mem_append.mp hl with hl | hl
      · rcases List.mem_append.mp hl with hl | hl
        · exact hentry.linksTo hm l hl
        · -- a part with a single root is linked to that root, which is on top of it
          obtain ⟨p, hp, hl⟩ := List.mem_filterMap.mp hl
          obtain ⟨root, hsole, rfl⟩ := Option.map_eq_some_iff.mp hl
          have hfit := hpart p hp
          exact hfit.above p.dominator root rfl (h.isTop_of_sole hfit.whole hsole)
      · exact hpaths l hl

end Solves

/-- The enumeration of a normal graph yields a solved form below every solution. -/
theorem Solves.exists_yielded (hg : g.isNormal = true) (h : f.Solves g) :
    ∃ c, g.solve? = some c ∧ ∃ n, ∃ form ∈ ((Readings.start g c).take n).1,
      ∀ l ∈ form.links, f.reaches l.source l.target = true := by
  have hsolved : g.solving.solved = true :=
    (solved_iff (isWeaklyNormal_of_isNormal hg) (SplitSource.selects_complete g) ()).mpr
      fun w hw => h.solvable hg (whole_of_mem_wholeComponents hw)
  have hc := complete_solving hsolved
  have hagenda : ∀ entry ∈ (Machine.start g.solving.chart).agenda,
      Fits f g g.solving.chart entry := by
    intro entry hentry
    obtain ⟨w, hw, rfl⟩ := List.mem_map.mp hentry
    refine ⟨whole_of_mem_wholeComponents ?_, .inl hw, fun d x hd => by cases hd⟩
    rwa [toplevel_solving] at hw
  obtain ⟨links, hlinks, hpaths⟩ := h.exists_unfolded hg hc (fun _ => splitsFor_solving) hagenda
  have hlisted : SolvedForm.ofLinks links ∈ g.solving.chart.listing g := by
    rw [Chart.listing_eq]
    exact List.mem_map_of_mem hlinks
  refine ⟨g.solving.chart, solve?_eq_some_iff.mpr ⟨hsolved, rfl⟩,
    (g.solving.chart.listing g).length, .ofLinks links, ?_, fun l hl => ?_⟩
  · rw [Readings.forms_take_start hc, List.take_length]
    exact hlisted
  · exact reaches_iff.mpr (hpaths l ((SolvedForm.ofLinks_perm links).mem_iff.mp hl))

/--
**Solving and enumerating find every solution of a normal graph.**

If the graph has a solution, solving succeeds, and some solved form that is enumerated has links
that lead down in the solution only.
In particular, solving fails only if there is no solution at all.
-/
theorem solutions_are_found (hg : g.isNormal = true) :
    (∀ f : Graph, f.Solves g → ∃ c, g.solve? = some c ∧
        ∃ n, ∃ form ∈ ((Readings.start g c).take n).1,
          ∀ l ∈ form.links, f.reaches l.source l.target = true)
      ∧ (g.solve? = none → ∀ f : Graph, ¬f.Solves g) := by
  refine ⟨fun f hf => hf.exists_yielded hg, fun hnone f hf => ?_⟩
  obtain ⟨c, hc, -⟩ := hf.exists_yielded hg
  rw [hnone] at hc
  cases hc

/-- The first fragment above the second one, and that above the third one. -/
def firstReading : Graph :=
  build [("x", some "f"), ("xh", none), ("y", some "g"), ("yh", none), ("z", some "a")]
    [⟨.tree, 0, 1⟩, ⟨.tree, 2, 3⟩, ⟨.dominance, 1, 2⟩, ⟨.dominance, 3, 4⟩]

theorem firstReading_solves : firstReading.Solves twoReadings :=
  .of_edges (by decide +kernel) (by decide +kernel) (by decide +kernel) (by decide +kernel)

theorem solutions_are_found_twoReadings :
    twoReadings.isNormal = true ∧ firstReading.Solves twoReadings
      ∧ ∃ c, twoReadings.solve? = some c ∧ ∃ n, ∃ form ∈ ((Readings.start twoReadings c).take n).1,
          ∀ l ∈ form.links, firstReading.reaches l.source l.target = true :=
  ⟨by decide +kernel, firstReading_solves,
    (solutions_are_found (by decide +kernel)).1 firstReading firstReading_solves⟩

end Dominance.Graph
