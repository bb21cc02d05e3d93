import Dominance.Proofs.Closure
import Dominance.Proofs.Exhaustion

/-!
# Graphs that mirror each other

Two graphs mirror each other if some nodes of one of them are the same as some nodes of the other:
all roots are among these nodes, fragments hold the same of these nodes, and the constraints are
between the same nodes.
Other nodes may differ.

Splitting looks at nothing else: it takes fragments away and follows constraints between them.
A constraint within a fragment shows if it enters the root, since it then keeps the fragment from
being taken away; but a fragment with nothing below it is never taken away from others, so that even
such a constraint does not matter there.
So a subgraph of one graph that is made of whole fragments has a counterpart in the other one, and
paths, components, splits, derivations and whole charts have counterparts as well.
Every statement is proved in one direction; the other one follows by symmetry.

* `Simulates.linked`, `Mirrors.exists_component` — paths and components
* `Mirrors.exists_split`, `Mirrors.exists_part` — splits and their parts
* `Mirrors.exists_derives`, `Mirrors.exists_arranged` — derivations
* `Mirrors.solved` — one graph is solvable if the other one is
* `Mirrors.exists_listed` — what is listed for one graph is listed for the other one
-/

namespace Dominance.Graph

open Relation

variable {g g' : Graph} {same : Nat → Nat → Prop} {s s' w w' : Subgraph} {a a' b b' r r' : Nat}
  {split split' : Split} {links links' : List Link}

/-! ## Nodes -/

/-- No edge leads out of the fragment of a node. -/
def Lowest (g : Graph) (a : Nat) : Prop := ∀ m ∈ g.fragment a, ∀ n, g.Arc m n → n ∈ g.fragment a

/-- The roots, fragments and constraints of a graph show in another one by the nodes that are the
same. A constraint within a fragment does not need to show, unless it enters the root of a fragment
that an edge leaves. -/
structure Simulates (g g' : Graph) (same : Nat → Nat → Prop) : Prop where
  simple : g.isSimple = true
  lt : ∀ {a a' : Nat}, same a a' → a < g.size
  unique : ∀ {a a' b' : Nat}, same a a' → same a b' → a' = b'
  root : ∀ {a : Nat}, g.isRoot a = true → ∃ a', same a a' ∧ g'.isRoot a' = true
  fragment : ∀ {a a' b b' : Nat}, same a a' → same b b' → b ∈ g.fragment a → b' ∈ g'.fragment a'
  edge : ∀ {a b : Nat}, ⟨.dominance, a, b⟩ ∈ g.edges →
    (∃ a' b', same a a' ∧ same b b' ∧ ⟨.dominance, a', b'⟩ ∈ g'.edges)
      ∨ (b ∈ g.fragment a ∧ (g.isRoot b = false ∨ g.Lowest a))

/-- Each of two graphs shows in the other one. -/
structure Mirrors (g g' : Graph) (same : Nat → Nat → Prop) : Prop where
  forth : g.Simulates g' same
  back : g'.Simulates g (flip same)

theorem Mirrors.symm (h : g.Mirrors g' same) : g'.Mirrors g (flip same) := ⟨h.back, h.forth⟩

/-- The fragments of two nodes are the same. -/
def Across (g g' : Graph) (same : Nat → Nat → Prop) (a a' : Nat) : Prop :=
  ∃ b b', same b b' ∧ a ∈ g.fragment b ∧ a' ∈ g'.fragment b'

theorem across_of_same (h : same a a') : Across g g' same a a' :=
  ⟨a, a', h, self_mem_fragment, self_mem_fragment⟩

theorem Across.symm (h : Across g g' same a a') : Across g' g (flip same) a' a := by
  obtain ⟨b, b', hb, ha, ha'⟩ := h
  exact ⟨b', b, hb, ha', ha⟩

theorem Across.of_mem_fragment (h : Across g g' same a a') (hb : b ∈ g.fragment a) :
    Across g g' same b a' := by
  obtain ⟨c, c', hc, ha, ha'⟩ := h
  exact ⟨c, c', hc, fragment_eq_of_mem ha ▸ hb, ha'⟩

namespace Simulates

/-- No fragment is the same as two others. -/
theorem mem_fragment_of_across (h : g.Simulates g' same) (ha : Across g g' same a a')
    (hb : Across g g' same a b') : b' ∈ g'.fragment a' := by
  obtain ⟨c, c', hc, hac, hac'⟩ := ha
  obtain ⟨d, d', hd, had, hbd'⟩ := hb
  have hdc : d ∈ g.fragment c := by
    rw [← fragment_eq_of_mem hac, fragment_eq_of_mem had]
    exact self_mem_fragment
  rw [fragment_eq_of_mem hac', ← fragment_eq_of_mem (h.fragment hc hd hdc)]
  exact hbd'

theorem lt_of_across (h : g.Simulates g' same) (ha : Across g g' same a a') : a < g.size := by
  obtain ⟨b, b', hb, ha, -⟩ := ha
  cases mem_fragment.mp ha with
  | refl => exact h.lt hb
  | tail _ hj => exact hj.joined.lt

theorem exists_across (h : g.Simulates g' same) (ha : a < g.size) :
    ∃ a', Across g g' same a a' := by
  obtain ⟨r, hr, hroot⟩ := exists_root_mem_fragment h.simple ha
  obtain ⟨r', hsame, -⟩ := h.root hroot
  exact ⟨r', (across_of_same hsame).of_mem_fragment (mem_fragment_symm hr)⟩

theorem isRoot (h : g.Simulates g' same) (hsame : same a a') (ha : g.isRoot a = true) :
    g'.isRoot a' = true := by
  obtain ⟨b', hb', hroot⟩ := h.root ha
  exact h.unique hsame hb' ▸ hroot

/-- An edge between two fragments shows. -/
theorem arc (h : g.Simulates g' same) (harc : g.Arc a b) (hb : b ∉ g.fragment a) :
    ∃ a' b', same a a' ∧ same b b' ∧ g'.Arc a' b' := by
  have hedge := harc.dominance_of_not_mem (k := a) fun hiff => hb (hiff.mp self_mem_fragment)
  rcases h.edge hedge with ⟨a', b', ha, hb, he⟩ | ⟨hwithin, -⟩
  · exact ⟨a', b', ha, hb, .dominance, he⟩
  · exact absurd hwithin hb

theorem joined (h : g.Simulates g' same) (hj : g.Joined a b) (hb : b ∉ g.fragment a) :
    ∃ a' b', same a a' ∧ same b b' ∧ g'.Joined a' b' := by
  rcases hj with hab | hba
  · obtain ⟨a', b', ha', hb', harc⟩ := h.arc hab hb
    exact ⟨a', b', ha', hb', .inl harc⟩
  · obtain ⟨b', a', hb', ha', harc⟩ := h.arc hba fun ha => hb (mem_fragment_symm ha)
    exact ⟨a', b', ha', hb', .inr harc⟩

end Simulates

/-! ## Subgraphs -/

/-- Two subgraphs hold the same fragments. -/
def Matches (g g' : Graph) (same : Nat → Nat → Prop) (s s' : Subgraph) : Prop :=
  ∀ a a', Across g g' same a a' → (a ∈ s ↔ a' ∈ s')

theorem Matches.symm (h : Matches g g' same s s') : Matches g' g (flip same) s' s :=
  fun a' a ha => (h a a' ha.symm).symm

/-- The subgraph is made of whole fragments. -/
def TreeClosed (g : Graph) (s : Subgraph) : Prop := ∀ m ∈ s, ∀ n, g.TreeJoined m n → n ∈ s

theorem TreeClosed.without (h : g.TreeClosed s) (r : Nat) :
    g.TreeClosed (s.without (g.fragment r)) := by
  intro m hm n hj
  obtain ⟨hms, hmr⟩ := Subgraph.mem_without.mp hm
  refine Subgraph.mem_without.mpr ⟨h m hms n hj, fun hnr => hmr ?_⟩
  exact mem_fragment_of_treeJoined hnr hj.symm

theorem treeClosed_allNodes (g : Graph) : g.TreeClosed g.allNodes :=
  fun _ _ _ hj => Subgraph.mem_range.mpr hj.joined.lt

/-- Tree edges join the nodes of a fragment within a subgraph. -/
theorem TreeClosed.linked (h : g.TreeClosed s) (ha : a ∈ s) (hb : b ∈ g.fragment a) :
    g.Linked s a b := by
  rw [mem_fragment] at hb
  induction hb with
  | refl => exact .refl
  | @tail c d _ hj ih => exact ih.tail ⟨hj.joined, h c (ih.mem ha) d hj⟩

/--
**Paths within a subgraph show in its counterpart.**

A step within a fragment goes nowhere, and a step to another fragment follows an edge that shows.
In between, tree edges lead from where one such edge ends to where the next one starts.
-/
theorem Simulates.linked (h : g.Simulates g' same) (hm : Matches g g' same s s')
    (hs' : g'.TreeClosed s') (ha : a ∈ s) (hpath : g.Linked s a b) (haa : Across g g' same a a')
    (hbb : Across g g' same b b') : g'.Linked s' a' b' := by
  have ha' : a' ∈ s' := (hm a a' haa).mp ha
  induction hpath generalizing b' with
  | refl => exact hs'.linked ha' (h.mem_fragment_of_across haa hbb)
  | @tail c d _ hstep ih =>
    by_cases hd : d ∈ g.fragment c
    · exact ih (hbb.of_mem_fragment (mem_fragment_symm hd))
    · obtain ⟨c', d', hc, hd, hj⟩ := h.joined hstep.1 hd
      have hd' : d' ∈ s' := (hm d d' (across_of_same hd)).mp hstep.2
      have hlast := hs'.linked hd' (h.mem_fragment_of_across (across_of_same hd) hbb)
      exact ((ih (across_of_same hc)).tail ⟨hj, hd'⟩).trans hlast

/-- A fragment that is taken away from other fragments has something below it. -/
theorem not_lowest_of_mem_splits (hg : g.isSimple = true) (hs : g.Whole s)
    (hroots : (g.rootsIn s).length ≠ 1) (hsplit : split ∈ g.splits s) : ¬g.Lowest split.root := by
  intro hlow
  have hroot := isRoot_root_of_mem_splits hsplit
  refine hroots (congrArg List.length
    (rootsIn_eq_singleton (root_mem_of_mem_splits hsplit) hroot fun t ht htroot => ?_))
  by_contra hne
  have hd := hs.divides hsplit
  have hout : t ∉ g.fragment split.root :=
    fun hmem => hne (eq_of_isRoot_of_mem_fragment hg hroot htroot hmem)
  obtain ⟨p, hp, -⟩ := hd.cover t (Subgraph.mem_without.mpr ⟨ht, hout⟩)
  obtain ⟨n, hn, harc⟩ := hd.arc p hp
  exact (Subgraph.mem_without.mp ((hd.component p hp).subset n hn)).2
    (hlow _ (hd.dominator p hp) n harc)

namespace Mirrors

theorem matches_without (h : g.Mirrors g' same) (hm : Matches g g' same s s') (hr : same r r') :
    Matches g g' same (s.without (g.fragment r)) (s'.without (g'.fragment r')) := by
  intro a a' haa
  rw [Subgraph.mem_without, Subgraph.mem_without, hm a a' haa]
  refine and_congr_right fun _ => not_congr ⟨fun ha => ?_, fun ha' => ?_⟩
  · have hr' := haa.of_mem_fragment (mem_fragment_symm ha)
    exact mem_fragment_symm (h.forth.mem_fragment_of_across hr' (across_of_same hr))
  · have hr' := haa.symm.of_mem_fragment (mem_fragment_symm ha')
    exact mem_fragment_symm (h.back.mem_fragment_of_across hr' (across_of_same hr))

theorem matches_allNodes (h : g.Mirrors g' same) :
    Matches g g' same g.allNodes g'.allNodes := by
  intro a a' haa
  simp only [allNodes, Subgraph.mem_range]
  exact iff_of_true (h.forth.lt_of_across haa) (h.back.lt_of_across haa.symm)

/-- Components that share a fragment are counterparts of each other. -/
theorem matches_of_component (h : g.Mirrors g' same) (hm : Matches g g' same s s')
    (hs : g.TreeClosed s) (hs' : g'.TreeClosed s') (hw : g.IsComponent s w)
    (hw' : g'.IsComponent s' w') (ha : a ∈ w) (ha' : a' ∈ w') (haa : Across g g' same a a') :
    Matches g g' same w w' := by
  intro b b' hbb
  rw [hw.mem_iff_linked ha, hw'.mem_iff_linked ha']
  constructor
  · exact fun hpath => h.forth.linked hm hs' (hw.subset a ha) hpath haa hbb
  · exact fun hpath => h.back.linked hm.symm hs (hw'.subset a' ha') hpath haa.symm hbb.symm

/-- **Every component has a counterpart.** -/
theorem exists_component (h : g.Mirrors g' same) (hm : Matches g g' same s s')
    (hs : g.TreeClosed s) (hs' : g'.TreeClosed s') (hlt : ∀ n ∈ s, n < g.size)
    (hw : g.IsComponent s w) : ∃ w', g'.IsComponent s' w' ∧ Matches g g' same w w' := by
  obtain ⟨a, ha⟩ := hw.nonempty
  obtain ⟨a', haa⟩ := h.forth.exists_across (hlt a (hw.subset a ha))
  obtain ⟨w', hw', ha'⟩ :=
    Graph.exists_component (g := g') ((hm a a' haa).mp (hw.subset a ha))
  exact ⟨w', hw', h.matches_of_component hm hs hs' hw hw' ha ha' haa⟩

theorem exists_component_without (h : g.Mirrors g' same) (hm : Matches g g' same s s')
    (hs : g.Whole s) (hs' : g'.Whole s') (hr : same r r')
    (hw : g.IsComponent (s.without (g.fragment r)) w) :
    ∃ w', g'.IsComponent (s'.without (g'.fragment r')) w' ∧ Matches g g' same w w' :=
  h.exists_component (h.matches_without hm hr) (TreeClosed.without hs.closed r)
    (TreeClosed.without hs'.closed r') (fun n hn => hs.lt n (Subgraph.mem_without.mp hn).1) hw

theorem exists_wholeComponent (h : g.Mirrors g' same) (hw : w ∈ g.wholeComponents) :
    ∃ w' ∈ g'.wholeComponents, Matches g g' same w w' := by
  obtain ⟨w', hw', hm⟩ := h.exists_component h.matches_allNodes g.treeClosed_allNodes
    g'.treeClosed_allNodes (fun _ => Subgraph.mem_range.mp) (mem_componentsOf.mp hw)
  exact ⟨w', mem_componentsOf.mpr hw', hm⟩

/-! ## Roots -/

theorem soleRoot? (h : g.Mirrors g' same) (hm : Matches g g' same s s')
    (hr : g.soleRoot? s = some r) : ∃ r', same r r' ∧ g'.soleRoot? s' = some r' := by
  have hroots := soleRoot?_eq_some_iff.mp hr
  obtain ⟨hrs, hroot⟩ := mem_rootsIn.mp (hroots ▸ List.mem_singleton_self r)
  obtain ⟨r', hrr, hroot'⟩ := h.forth.root hroot
  refine ⟨r', hrr, soleRoot?_eq_some_iff.mpr (rootsIn_eq_singleton ?_ hroot' ?_)⟩
  · exact (hm r r' (across_of_same hrr)).mp hrs
  · intro a' has' ha'
    obtain ⟨a, haa, ha⟩ := h.back.root ha'
    have has : a ∈ g.rootsIn s := mem_rootsIn.mpr ⟨(hm a a' (across_of_same haa)).mpr has', ha⟩
    rw [hroots, List.mem_singleton] at has
    exact h.forth.unique (has ▸ haa) hrr

theorem length_rootsIn_ne (h : g.Mirrors g' same) (hm : Matches g g' same s s')
    (hroots : (g.rootsIn s).length ≠ 1) : (g'.rootsIn s').length ≠ 1 := by
  rw [← soleRoot?_eq_none_iff] at *
  cases hr' : g'.soleRoot? s' with
  | none => rfl
  | some r' =>
    obtain ⟨r, -, hr⟩ := h.symm.soleRoot? hm.symm hr'
    rw [hroots] at hr
    cases hr

/-- An edge that leads out of a fragment shows as one that leads out of its counterpart. -/
theorem lowest (h : g.Mirrors g' same) (hrr : same r r') (hlow : g'.Lowest r') : g.Lowest r := by
  intro m hm n harc
  by_contra hn
  obtain ⟨m', n', hmm, hnn, harc'⟩ := h.forth.arc harc (fragment_eq_of_mem hm ▸ hn)
  exact hn (h.back.fragment hrr hnn (hlow m' (h.forth.fragment hrr hmm hm) n' harc'))

/-- No constraint enters the counterpart of an open root that has something below its fragment. -/
theorem mem_openRoots (h : g.Mirrors g' same) (hm : Matches g g' same s s') (hrr : same r r')
    (hr : r ∈ g.openRoots s) (hlow : ¬g.Lowest r) : r' ∈ g'.openRoots s' := by
  obtain ⟨hroot, hrs, hopen⟩ := Graph.mem_openRoots.mp hr
  have hroot' := h.forth.isRoot hrr hroot
  refine Graph.mem_openRoots.mpr
    ⟨hroot', (hm r r' (across_of_same hrr)).mp hrs, fun m' hm' harc => ?_⟩
  rcases harc.tree_or_dominance with htree | hdom
  · exact (isRoot_iff.mp hroot').2 m' htree
  · rcases h.back.edge hdom with ⟨m, n, hmm, hnn, he⟩ | ⟨hwithin, hno | hlow'⟩
    · have hnr : n = r := h.back.unique hnn hrr
      exact hopen m ((hm m m' (across_of_same hmm)).mpr hm') ⟨.dominance, hnr ▸ he⟩
    · rw [hroot'] at hno
      cases hno
    · rw [Lowest, ← fragment_eq_of_mem hwithin] at hlow'
      exact hlow (h.lowest hrr hlow')

/-! ## Splits -/

/-- The counterpart of a part hangs from the counterpart of its dominator, and from no other
node. -/
theorem exists_dominator (h : g.Mirrors g' same) (hrr : same r r') {parts : List Part}
    (hd : g.Divides (g.fragment r) s parts) {p : Part} (hp : p ∈ parts)
    (hw' : ∀ n ∈ w', n ∉ g'.fragment r') (hm : Matches g g' same p.component w') :
    ∃ d', same p.dominator d' ∧ d' ∈ g'.fragment r' ∧ (∃ n' ∈ w', g'.Arc d' n')
      ∧ ∀ n' ∈ w', ∀ m' ∈ g'.fragment r', g'.Joined n' m' → m' = d' := by
  have htop := hd.dominator p hp
  obtain ⟨n, hn, harc⟩ := hd.arc p hp
  have hout : n ∉ g.fragment p.dominator := by
    rw [fragment_eq_of_mem htop]
    exact (Subgraph.mem_without.mp ((hd.component p hp).subset n hn)).2
  obtain ⟨d', n', hdd, hnn, harc'⟩ := h.forth.arc harc hout
  refine ⟨d', hdd, h.forth.fragment hrr hdd htop,
    ⟨n', (hm n n' (across_of_same hnn)).mp hn, harc'⟩, fun k' hk' m' hm' hj => ?_⟩
  have hmk : m' ∉ g'.fragment k' := by
    intro hmem
    rw [← fragment_eq_of_mem hm', fragment_eq_of_mem hmem] at hw'
    exact hw' k' hk' self_mem_fragment
  obtain ⟨k, m, hkk, hmm, hj⟩ := h.back.joined hj hmk
  have hmr : m ∈ g.fragment r := h.back.fragment hrr hmm hm'
  have hmd := hd.hangs p hp k ((hm k k' (across_of_same hkk)).mpr hk') m hmr hj
  exact h.forth.unique (hmd ▸ hmm) hdd

/-- **The counterpart of a free fragment is free**, if there are other fragments. -/
theorem exists_split (h : g.Mirrors g' same) (hm : Matches g g' same s s') (hs : g.Whole s)
    (hs' : g'.Whole s') (hroots : (g.rootsIn s).length ≠ 1) (hsplit : split ∈ g.splits s) :
    ∃ split' ∈ g'.splits s', same split.root split'.root := by
  obtain ⟨r', hrr, -⟩ := h.forth.root (isRoot_root_of_mem_splits hsplit)
  have hopen := h.mem_openRoots hm hrr (mem_splits.mp hsplit).1
    (not_lowest_of_mem_splits h.forth.simple hs hroots hsplit)
  have htop := hs'.topOf_eq (Graph.mem_openRoots.mp hopen).2.1
  obtain ⟨split', hfree⟩ : ∃ split', g'.freeSplit? r' s' = some split' := by
    refine exists_freeSplit? fun w' hw' => ?_
    rw [htop] at hw' ⊢
    obtain ⟨w, hw, hmw⟩ := h.symm.exists_component_without hm.symm hs' hs hrr hw'
    obtain ⟨p, hp, rfl⟩ := mem_components.mp ((hs.mem_components_iff hsplit).mpr hw)
    obtain ⟨d', -, hd', harc, hhangs⟩ := h.exists_dominator hrr (hs.divides hsplit) hp
      (fun n hn => (Subgraph.mem_without.mp (hw'.subset n hn)).2) hmw.symm
    exact ⟨d', hd', harc, hhangs⟩
  have hroot : split'.root = r' := (divides_of_freeSplit? hfree).1
  exact ⟨split', mem_splits.mpr ⟨hroot ▸ hopen, hroot.symm ▸ hfree⟩, hroot.symm ▸ hrr⟩

/-- **Splits by the same root have the same parts.** -/
theorem exists_part (h : g.Mirrors g' same) (hm : Matches g g' same s s') (hs : g.Whole s)
    (hs' : g'.Whole s') (hsplit : split ∈ g.splits s) (hsplit' : split' ∈ g'.splits s')
    (hroot : same split.root split'.root) {p : Part} (hp : p ∈ split.parts) :
    ∃ p' ∈ split'.parts,
      same p.dominator p'.dominator ∧ Matches g g' same p.component p'.component := by
  have hd := hs.divides hsplit
  have hd' := hs'.divides hsplit'
  obtain ⟨w', hw', hmw⟩ := h.exists_component_without hm hs hs' hroot (hd.component p hp)
  obtain ⟨p', hp', rfl⟩ := mem_components.mp ((hs'.mem_components_iff hsplit').mpr hw')
  obtain ⟨d', hdd, -, -, hhangs⟩ := h.exists_dominator hroot hd hp
    (fun n hn => (Subgraph.mem_without.mp (hw'.subset n hn)).2) hmw
  obtain ⟨n', hn', harc⟩ := hd'.arc p' hp'
  have heq := hhangs n' hn' p'.dominator (hd'.dominator p' hp') (.inr harc)
  exact ⟨p', hp', heq ▸ hdd, hmw⟩

end Mirrors

/-! ## Derivations -/

/-- Two lists of links have links between the same nodes. -/
structure SameLinks (same : Nat → Nat → Prop) (links links' : List Link) : Prop where
  forth : ∀ l ∈ links, ∃ l' ∈ links', same l.source l'.source ∧ same l.target l'.target
  back : ∀ l' ∈ links', ∃ l ∈ links, same l.source l'.source ∧ same l.target l'.target

namespace SameLinks

theorem symm (h : SameLinks same links links') : SameLinks (flip same) links' links :=
  ⟨h.back, h.forth⟩

theorem nil : SameLinks same [] [] := ⟨by simp, by simp⟩

theorem cons (h : SameLinks same links links') (ha : same a a') (hb : same b b') :
    SameLinks same (⟨a, b⟩ :: links) (⟨a', b'⟩ :: links') := by
  constructor
  · intro l hl
    rcases List.mem_cons.mp hl with rfl | hl
    · exact ⟨_, List.mem_cons_self, ha, hb⟩
    · obtain ⟨l', hl', hsame⟩ := h.forth l hl
      exact ⟨l', List.mem_cons_of_mem _ hl', hsame⟩
  · intro l' hl'
    rcases List.mem_cons.mp hl' with rfl | hl'
    · exact ⟨_, List.mem_cons_self, ha, hb⟩
    · obtain ⟨l, hl, hsame⟩ := h.back l' hl'
      exact ⟨l, List.mem_cons_of_mem _ hl, hsame⟩

theorem flatMap {α β : Type} {as : List α} {bs : List β} {f : α → List Link} {f' : β → List Link}
    (hforth : ∀ x ∈ as, ∃ y ∈ bs, SameLinks same (f x) (f' y))
    (hback : ∀ y ∈ bs, ∃ x ∈ as, SameLinks same (f x) (f' y)) :
    SameLinks same (as.flatMap f) (bs.flatMap f') := by
  constructor
  · intro l hl
    obtain ⟨x, hx, hl⟩ := List.mem_flatMap.mp hl
    obtain ⟨y, hy, hsame⟩ := hforth x hx
    obtain ⟨l', hl', hends⟩ := hsame.forth l hl
    exact ⟨l', List.mem_flatMap.mpr ⟨y, hy, hl'⟩, hends⟩
  · intro l' hl'
    obtain ⟨y, hy, hl'⟩ := List.mem_flatMap.mp hl'
    obtain ⟨x, hx, hsame⟩ := hback y hy
    obtain ⟨l, hl, hends⟩ := hsame.back l' hl'
    exact ⟨l, List.mem_flatMap.mpr ⟨x, hx, hl⟩, hends⟩

theorem of_perm {links₁ links₁' : List Link} (h : SameLinks same links links')
    (hperm : links₁.Perm links) (hperm' : links₁'.Perm links') :
    SameLinks same links₁ links₁' := by
  constructor
  · intro l hl
    obtain ⟨l', hl', hends⟩ := h.forth l (hperm.mem_iff.mp hl)
    exact ⟨l', hperm'.mem_iff.mpr hl', hends⟩
  · intro l' hl'
    obtain ⟨l, hl, hends⟩ := h.back l' (hperm'.mem_iff.mp hl')
    exact ⟨l, hperm.mem_iff.mpr hl, hends⟩

/-- Choices for the members of one list that give the same links as the members of another one that
they stand for. -/
theorem exists_choice {α β : Type} {as : List α} {bs : List β} {R : α → β → Prop}
    {D : β → Nat → List Link → Prop} {f : α → List Link} {f' : β → Nat → List Link → List Link}
    (hforth : ∀ x ∈ as, ∃ y ∈ bs, R x y)
    (hunique : ∀ x ∈ as, ∀ z ∈ as, ∀ y, R x y → R z y → x = z)
    (hback : ∀ y ∈ bs, ∃ x ∈ as, R x y ∧ ∃ top inner, D y top inner
      ∧ SameLinks same (f x) (f' y top inner)) :
    ∃ (top : β → Nat) (inner : β → List Link), (∀ y ∈ bs, D y (top y) (inner y))
      ∧ SameLinks same (as.flatMap f) (bs.flatMap fun y => f' y (top y) (inner y)) := by
  have hchoice : ∀ y, ∃ top inner, y ∈ bs → ∃ x ∈ as, R x y ∧ D y top inner
      ∧ SameLinks same (f x) (f' y top inner) := by
    intro y
    by_cases hy : y ∈ bs
    · obtain ⟨x, hx, hxy, top, inner, hd, hlinks⟩ := hback y hy
      exact ⟨top, inner, fun _ => ⟨x, hx, hxy, hd, hlinks⟩⟩
    · exact ⟨0, [], fun hmem => absurd hmem hy⟩
  choose top inner hchoice using hchoice
  refine ⟨top, inner, fun y hy => ?_, .flatMap (fun x hx => ?_) fun y hy => ?_⟩
  · obtain ⟨-, -, -, hd, -⟩ := hchoice y hy
    exact hd
  · obtain ⟨y, hy, hxy⟩ := hforth x hx
    obtain ⟨z, hz, hzy, -, hlinks⟩ := hchoice y hy
    exact ⟨y, hy, hunique x hx z hz y hxy hzy ▸ hlinks⟩
  · obtain ⟨x, hx, -, -, hlinks⟩ := hchoice y hy
    exact ⟨x, hx, hlinks⟩

end SameLinks

/-- Subgraphs with the same counterpart share a node. -/
theorem Simulates.exists_mem_of_matches (h : g.Simulates g' same) (hs : g.Whole s)
    (hm : Matches g g' same s s') (hw : Matches g g' same w s') : ∃ n ∈ s, n ∈ w := by
  obtain ⟨n, hn⟩ := hs.nonempty
  obtain ⟨n', hnn⟩ := h.exists_across (hs.lt n hn)
  exact ⟨n, hn, (hw n n' hnn).mpr ((hm n n' hnn).mp hn)⟩

namespace Mirrors

theorem exists_derives_of_sole (h : g.Mirrors g' same) (hm : Matches g g' same s s')
    (hr : g.soleRoot? s = some r) :
    ∃ r' links', same r r' ∧ g'.Derives s' r' links' ∧ SameLinks same [] links' := by
  obtain ⟨r', hrr, hr'⟩ := h.soleRoot? hm hr
  exact ⟨r', [], hrr, .sole hr', .nil⟩

/--
**Every derivation has a counterpart.**

By induction on the derivation.
If a subgraph with a single root is split, this is as good as no split.
The counterpart of any other split has the same parts, and each part goes on with the counterpart of
the derivation below it.
-/
theorem exists_derives (h : g.Mirrors g' same) (hm : Matches g g' same s s') (hs : g.Whole s)
    (hs' : g'.Whole s') (hder : g.Derives s r links) :
    ∃ r' links', same r r' ∧ g'.Derives s' r' links' ∧ SameLinks same links links' := by
  induction hder generalizing s' with
  | sole hr => exact h.exists_derives_of_sole hm hr
  | @split s split links top inner hsplit below perm ih =>
    cases hsole : g.soleRoot? s with
    | some root =>
      obtain ⟨rfl, rfl⟩ :=
        (Derives.split top inner hsplit below perm).eq_of_sole h.forth.simple hs hsole
      exact h.exists_derives_of_sole hm hsole
    | none =>
      obtain ⟨split', hsplit', hroot⟩ :=
        h.exists_split hm hs hs' (soleRoot?_eq_none_iff.mp hsole) hsplit
      have hwhole : ∀ p ∈ split.parts, g.Whole p.component :=
        fun p hp => hs.of_mem_components hsplit (List.mem_map_of_mem hp)
      have hunique : ∀ p ∈ split.parts, ∀ q ∈ split.parts, ∀ p' : Part,
          Matches g g' same p.component p'.component →
            Matches g g' same q.component p'.component → p = q := by
        intro p hp q hq p' hmp hmq
        obtain ⟨n, hnp, hnq⟩ := h.forth.exists_mem_of_matches (hwhole p hp) hmp hmq
        exact (hs.divides hsplit).eq_of_mem (hs.divides hsplit) hp hq hnp hnq
      have hforth : ∀ p ∈ split.parts, ∃ p' ∈ split'.parts,
          Matches g g' same p.component p'.component := by
        intro p hp
        obtain ⟨p', hp', -, hmp⟩ := h.exists_part hm hs hs' hsplit hsplit' hroot hp
        exact ⟨p', hp', hmp⟩
      have hback : ∀ p' ∈ split'.parts, ∃ p ∈ split.parts,
          Matches g g' same p.component p'.component ∧ ∃ top' inner',
            g'.Derives p'.component top' inner' ∧ SameLinks same (⟨p.dominator, top p⟩ :: inner p)
              (⟨p'.dominator, top'⟩ :: inner') := by
        intro p' hp'
        obtain ⟨p, hp, hdd, hmp⟩ := h.symm.exists_part hm.symm hs' hs hsplit' hsplit hroot hp'
        obtain ⟨top', inner', htt, hder, hlinks⟩ := ih p hp hmp.symm (hwhole p hp)
          (hs'.of_mem_components hsplit' (List.mem_map_of_mem hp'))
        exact ⟨p, hp, hmp.symm, top', inner', hder, hlinks.cons hdd htt⟩
      obtain ⟨top', inner', hder, hlinks⟩ := SameLinks.exists_choice hforth hunique hback
      exact ⟨split'.root, _, hroot, .split top' inner' hsplit' hder (.refl _),
        hlinks.of_perm perm (.refl _)⟩

/-- **Derivations of all components have counterparts.** -/
theorem exists_arranged (h : g.Mirrors g' same) {top : Subgraph → Nat}
    {inner : Subgraph → List Link} (ha : g.Arranged links top inner) :
    ∃ links' top' inner', g'.Arranged links' top' inner' ∧ SameLinks same links links' := by
  have hunique : ∀ w ∈ g.wholeComponents, ∀ v ∈ g.wholeComponents, ∀ w',
      Matches g g' same w w' → Matches g g' same v w' → w = v := by
    intro w hw v hv w' hmw hmv
    obtain ⟨n, hnw, hnv⟩ :=
      h.forth.exists_mem_of_matches (whole_of_mem_wholeComponents hw) hmw hmv
    exact (mem_componentsOf.mp hw).eq_of_mem (mem_componentsOf.mp hv) hnw hnv
  obtain ⟨top', inner', hder, hlinks⟩ := SameLinks.exists_choice
    (fun w hw => h.exists_wholeComponent hw) hunique fun w' hw' => by
      obtain ⟨w, hw, hmw⟩ := h.symm.exists_wholeComponent hw'
      obtain ⟨top', inner', -, hder, hlinks⟩ := h.exists_derives hmw.symm
        (whole_of_mem_wholeComponents hw) (whole_of_mem_wholeComponents hw') (ha.derives w hw)
      exact ⟨w, hw, hmw.symm, top', inner', hder, hlinks⟩
  exact ⟨_, top', inner', ⟨hder, .refl _⟩, hlinks.of_perm ha.perm (.refl _)⟩

/-! ## Charts -/

/-- Everything that solving comes across has a counterpart. -/
theorem exists_needed (h : g.Mirrors g' same) (hs : g.Needed g.splits s) :
    ∃ s', g'.Needed g'.splits s' ∧ Matches g g' same s s' := by
  have hsub : ∀ (k : Graph) (t : Subgraph), (k.splits t).Sublist (k.splits t) :=
    fun _ _ => List.Sublist.refl _
  induction hs with
  | component hw =>
    obtain ⟨w', hw', hm⟩ := h.exists_wholeComponent hw
    exact ⟨w', .component hw', hm⟩
  | @part s w split hs hroots hsplit hw ih =>
    obtain ⟨s', hs', hm⟩ := ih
    have hwhole := hs.whole (hsub g)
    have hwhole' := hs'.whole (hsub g')
    obtain ⟨split', hsplit', hroot⟩ := h.exists_split hm hwhole hwhole' hroots hsplit
    obtain ⟨p, hp, rfl⟩ := mem_components.mp hw
    obtain ⟨p', hp', -, hmp⟩ := h.exists_part hm hwhole hwhole' hsplit hsplit' hroot hp
    refine ⟨p'.component, .part hs' ?_ hsplit' (List.mem_map_of_mem hp'), hmp⟩
    exact h.length_rootsIn_ne hm hroots

/-- **A graph is solvable if its counterpart is.** -/
theorem solved (h : g.Mirrors g' same) (hsolved : g.solving.solved = true) :
    g'.solving.solved = true := by
  have hanswered := (solved_iff_answered (SplitSource.selects_complete g)
    (SplitSource.steady_complete g) ()).mp hsolved
  refine (solved_iff_answered (SplitSource.selects_complete g')
    (SplitSource.steady_complete g') ()).mpr fun s' hs' hroots => ?_
  obtain ⟨s, hs, hm⟩ := h.symm.exists_needed hs'
  have hseveral := h.symm.length_rootsIn_ne hm hroots
  obtain ⟨split, hsplit⟩ := List.exists_mem_of_ne_nil _ (hanswered s hs hseveral)
  obtain ⟨split', hsplit', -⟩ := h.exists_split hm.symm (hs.whole fun _ => List.Sublist.refl _)
    (hs'.whole fun _ => List.Sublist.refl _) hseveral hsplit
  exact List.ne_nil_of_mem hsplit'

/-- Every solved form that is listed has a counterpart that is listed. -/
theorem exists_listed (h : g.Mirrors g' same) (hsolved : g.solving.solved = true)
    (hsolved' : g'.solving.solved = true) {f : SolvedForm}
    (hf : f ∈ g.solving.chart.listing g) :
    ∃ f' ∈ g'.solving.chart.listing g', SameLinks same f.links f'.links := by
  obtain ⟨top, inner, ha⟩ := (mem_listing_solving_iff h.forth.simple hsolved).mp hf
  obtain ⟨links', top', inner', ha', hlinks⟩ := h.exists_arranged ha
  have hperm := SolvedForm.ofLinks_perm links'
  refine ⟨.ofLinks links', ?_, hlinks.of_perm (.refl _) hperm⟩
  exact (mem_listing_solving_iff h.back.simple hsolved').mpr
    ⟨top', inner', ha'.derives, hperm.trans ha'.perm⟩

end Mirrors

end Dominance.Graph
