import Dominance.Proofs.Soundness

/-!
# Every reading once

The links of a derivation tell which root is on top: it is the only root that no link of the
derivation leads to.
If two solutions of an agenda split the same subgraph in two ways, the root on top of the first
split is below the other one in the second solution, so a link from within the subgraph leads to
it there; in the first solution a link from outside does, or none at all.
So different choices never lead to the same links, however the choices below them are made, and an
enumeration yields no solved form twice.

Every root of the graph is on top of a component or the target of one link, which gives the number
of links.

* `Apart` — agendas whose subgraphs have nothing in common
* `not_perm_of_root_ne` — two splits of a subgraph never lead to the same links
* `pairwise_unfolded`, `nodup_listing` — solutions differ from each other
* `Arranged.roots_perm` — where the roots of the graph go
* `readings_are_distinct` — what is enumerated
-/

namespace Dominance

theorem Graph.nodup_roots (g : Graph) : g.roots.Nodup := List.nodup_range.filter _

/-- The splits of a subgraph have different roots. -/
theorem Graph.pairwise_splits (g : Graph) (s : Subgraph) :
    (g.splits s).Pairwise fun split split' => split.root ≠ split'.root := by
  have hnodup : (g.openRoots s).Nodup := g.nodup_roots.filter _
  unfold splits
  rw [List.pairwise_filterMap]
  refine hnodup.imp ?_
  intro r r' hne split hsplit split' hsplit'
  rw [(divides_of_freeSplit? hsplit).1, (divides_of_freeSplit? hsplit').1]
  exact hne

namespace Chart

variable {c : Chart} {g : Graph} {entry : Pending} {agenda : List Pending} {split : Split}

/-! ## Agendas whose subgraphs have nothing in common -/

/-- The subgraphs of the agenda are whole and share no node, and each dominator is outside its
subgraph. -/
structure Apart (g : Graph) (agenda : List Pending) : Prop where
  whole : ∀ entry ∈ agenda, g.Whole entry.subgraph
  outside : ∀ entry ∈ agenda, ∀ d, entry.dominator = some d → d ∉ entry.subgraph
  disjoint : agenda.Pairwise fun entry other => ∀ n ∈ entry.subgraph, n ∉ other.subgraph

namespace Apart

theorem tail (h : Apart g (entry :: agenda)) : Apart g agenda where
  whole e he := h.whole e (List.mem_cons_of_mem _ he)
  outside e he := h.outside e (List.mem_cons_of_mem _ he)
  disjoint := (List.pairwise_cons.mp h.disjoint).2

theorem not_mem_of_mem (h : Apart g (entry :: agenda)) {n : Nat} (hn : n ∈ entry.subgraph) :
    ∀ other ∈ agenda, n ∉ other.subgraph := by
  intro other hother
  exact (List.pairwise_cons.mp h.disjoint).1 other hother n hn

theorem nodup (h : Apart g agenda) : agenda.Nodup := by
  refine h.disjoint.imp_of_mem ?_
  intro e e' he _ hdisjoint heq
  obtain ⟨n, hn⟩ := (h.whole e he).nonempty
  exact hdisjoint n hn (heq ▸ hn)

/-- **Splitting a subgraph leaves the agenda apart.** -/
theorem unsettled (h : Apart g (entry :: agenda)) (hsplit : split ∈ g.splits entry.subgraph) :
    Apart g (g.unsettled split ++ agenda) := by
  have hwhole := h.whole entry List.mem_cons_self
  have hd := hwhole.divides hsplit
  have hbelow : ∀ p ∈ split.parts, ∀ n ∈ p.component,
      n ∈ entry.subgraph ∧ n ∉ g.fragment split.root :=
    fun p hp n hn => Subgraph.mem_without.mp ((hd.component p hp).subset n hn)
  refine ⟨fun e he => ?_, fun e he d hdom => ?_, ?_⟩
  · rcases List.mem_append.mp he with he | he
    · exact hwhole.of_mem_components hsplit (mem_components_of_mem_unsettled he)
    · exact h.tail.whole e he
  · rcases List.mem_append.mp he with he | he
    · obtain ⟨p, hp, -, rfl⟩ := mem_unsettled.mp he
      cases hdom
      -- the dominator is a node of the top fragment, the component is what lies below it
      exact fun hmem => (hbelow p hp _ hmem).2 (hd.dominator p hp)
    · exact h.tail.outside e he d hdom
  · refine List.pairwise_append.mpr ⟨?_, h.tail.disjoint, fun e he other hother => ?_⟩
    · unfold Graph.unsettled
      rw [List.pairwise_reverse, List.pairwise_map]
      refine (hd.disjoint.filter _).imp ?_
      intro p q hpq n hnq hnp
      exact hpq n hnp hnq
    · obtain ⟨p, hp, -, rfl⟩ := mem_unsettled.mp he
      exact fun n hn => h.not_mem_of_mem (hbelow p hp n hn).1 other hother

end Apart

/-! ## Two solutions -/

/-- Every link of a solution leads into a subgraph of the agenda. -/
theorem Sound.target_mem (hc : c.Sound g) (hg : g.isSimple = true) (h : Apart g agenda)
    {links : List Link} (hlinks : links ∈ c.unfolded g agenda) :
    ∀ l ∈ links, ∃ entry ∈ agenda, l.target ∈ entry.subgraph := by
  obtain ⟨top, inner, hall, hperm⟩ :=
    hc.ranked.exists_derivations h.nodup (fun _ _ _ => hc.exists_derives) hlinks
  intro l hl
  obtain ⟨entry, hentry, hl⟩ := List.mem_flatMap.mp (hperm.mem_iff.mp hl)
  refine ⟨entry, hentry, ?_⟩
  rcases List.mem_append.mp hl with hl | hl
  · -- the link from the dominator leads to the root on top
    cases hd : entry.dominator with
    | none => rw [hd] at hl; cases hl
    | some d =>
      rw [hd] at hl
      rw [List.mem_singleton.mp hl]
      exact (hall entry hentry).isRoot_top.1
  · exact ((hall entry hentry).target_mem hg (h.whole entry hentry) hl).1

/-- A solution that starts with a split is a derivation with the root of the split on top, and a
solution of the rest of the agenda. -/
theorem Sound.exists_derivation (hc : c.Sound g) (h : split ∈ c.splitsFor entry.subgraph)
    {rest : List Link} (hrest : rest ∈ c.unfolded g (g.unsettled split ++ agenda)) :
    ∃ inner after, g.Derives entry.subgraph split.root inner ∧ after ∈ c.unfolded g agenda
      ∧ g.settled split ++ rest = inner ++ after := by
  obtain ⟨before, hbefore, after, hafter, rfl⟩ := hc.ranked.mem_unfolded_append.mp hrest
  have hderives := hc.ranked.derives_split (hc _ split h).1
    (fun _ _ _ => hc.exists_derives) hbefore
  exact ⟨g.settled split ++ before, after, hderives, hafter, by rw [List.append_assoc]⟩

/-- **Two splits of a subgraph with different roots never lead to the same links.** -/
theorem Sound.not_perm_of_root_ne (hc : c.Sound g) (hg : g.isSimple = true)
    (h : Apart g (entry :: agenda)) {split' : Split} (hne : split.root ≠ split'.root)
    (hsplit : split ∈ c.splitsFor entry.subgraph) (hsplit' : split' ∈ c.splitsFor entry.subgraph)
    {rest rest' : List Link} (hrest : rest ∈ c.unfolded g (g.unsettled split ++ agenda))
    (hrest' : rest' ∈ c.unfolded g (g.unsettled split' ++ agenda)) :
    ¬(Machine.linksTo entry.dominator split.root ++ g.settled split ++ rest).Perm
      (Machine.linksTo entry.dominator split'.root ++ g.settled split' ++ rest') := by
  have hwhole := h.whole entry List.mem_cons_self
  obtain ⟨inner, after, hderives, hafter, heq⟩ := hc.exists_derivation hsplit hrest
  obtain ⟨inner', after', hderives', -, heq'⟩ := hc.exists_derivation hsplit' hrest'
  rw [List.append_assoc, List.append_assoc, heq, heq']
  intro hperm
  -- in the second solution a link from within the subgraph leads to the first root
  have hroot : split.root ∈ split'.root :: inner'.map (·.target) :=
    (hderives'.targets_perm hg hwhole).mem_iff.mpr (Graph.mem_rootsIn.mpr hderives.isRoot_top)
  obtain ⟨l, hl, htarget⟩ := List.mem_map.mp ((List.mem_cons.mp hroot).resolve_left hne)
  have hsource := (hderives'.source_mem hwhole l hl).1
  have hmem : l ∈ Machine.linksTo entry.dominator split.root ++ (inner ++ after) :=
    hperm.mem_iff.mpr (by simp [hl])
  -- in the first solution only a link from the dominator does
  rcases List.mem_append.mp hmem with hmem | hmem
  · cases hd : entry.dominator with
    | none => rw [hd] at hmem; cases hmem
    | some d =>
      rw [hd] at hmem
      rw [List.mem_singleton.mp hmem] at hsource
      exact h.outside entry List.mem_cons_self d hd hsource
  · rcases List.mem_append.mp hmem with hmem | hmem
    · have hnodup := (hderives.targets_perm hg hwhole).nodup_iff.mpr (g.nodup_rootsIn _)
      exact (List.nodup_cons.mp hnodup).1 (List.mem_map.mpr ⟨l, hmem, htarget⟩)
    · obtain ⟨other, hother, hlother⟩ := hc.target_mem hg h.tail hafter l hmem
      rw [htarget] at hlother
      exact h.not_mem_of_mem hderives.isRoot_top.1 other hother hlother

/-- **The solutions of an agenda differ in their links.** -/
theorem Sound.pairwise_unfolded (hc : c.Sound g) (hg : g.isSimple = true)
    (hroots : ∀ s, (c.splitsFor s).Pairwise fun split split' => split.root ≠ split'.root)
    (h : Apart g agenda) :
    (c.unfolded g agenda).Pairwise fun links links' => ¬links.Perm links' := by
  have hr := hc.ranked
  induction agenda using hr.agenda_induction g with
  | nil => simp
  | sole entry agenda root hroot ih =>
    rw [hr.unfolded_cons_of_sole hroot, List.pairwise_map]
    refine (ih h.tail).imp ?_
    intro links links' hne hperm
    exact hne ((List.perm_append_left_iff _).mp hperm)
  | split entry agenda hroot ih =>
    rw [hr.unfolded_cons_of_split hroot, List.pairwise_flatMap]
    refine ⟨fun split hsplit => ?_, (hroots entry.subgraph).imp_of_mem ?_⟩
    · rw [List.pairwise_map]
      refine (ih split hsplit (h.unsettled (hc _ split hsplit).1)).imp ?_
      intro links links' hne hperm
      exact hne ((List.perm_append_left_iff _).mp hperm)
    · intro split split' hsplit hsplit' hne links hlinks links' hlinks'
      obtain ⟨rest, hrest, rfl⟩ := List.mem_map.mp hlinks
      obtain ⟨rest', hrest', rfl⟩ := List.mem_map.mp hlinks'
      exact hc.not_perm_of_root_ne hg h hne hsplit hsplit' hrest hrest'

/-- **The listing of a chart of the graph has no solved form twice.** -/
theorem Sound.nodup_listing (hc : c.Sound g) (hg : g.isSimple = true)
    (htop : c.toplevel = g.wholeComponents)
    (hroots : ∀ s, (c.splitsFor s).Pairwise fun split split' => split.root ≠ split'.root) :
    (c.listing g).Nodup := by
  have hapart : Apart g (Machine.start c).agenda := by
    unfold Machine.start
    rw [htop]
    refine ⟨fun e he => ?_, fun e he d hd => ?_, ?_⟩
    · obtain ⟨w, hw, rfl⟩ := List.mem_map.mp he
      exact Graph.whole_of_mem_wholeComponents hw
    · obtain ⟨w, hw, rfl⟩ := List.mem_map.mp he
      cases hd
    · exact List.pairwise_map.mpr g.pairwise_wholeComponents
  rw [listing_eq]
  refine List.pairwise_map.mpr ((hc.pairwise_unfolded hg hroots hapart).imp ?_)
  intro links links' hne heq
  have hperm := SolvedForm.ofLinks_perm links
  rw [heq] at hperm
  exact hne (hperm.symm.trans (SolvedForm.ofLinks_perm links'))

end Chart

/-! ## The number of links -/

namespace Graph

variable {g : Graph} {links : List Link} {top : Subgraph → Nat} {inner : Subgraph → List Link}

/-- Every root of the graph is a root of one component. -/
theorem roots_perm (g : Graph) : (g.wholeComponents.flatMap g.rootsIn).Perm g.roots := by
  have hnodup : (g.wholeComponents.flatMap g.rootsIn).Nodup := by
    refine List.nodup_flatMap.mpr ⟨fun w _ => g.nodup_rootsIn w, ?_⟩
    refine g.pairwise_wholeComponents.imp ?_
    intro v w hvw n hnv hnw
    exact hvw n (mem_rootsIn.mp hnv).1 (mem_rootsIn.mp hnw).1
  refine (List.perm_ext_iff_of_nodup hnodup g.nodup_roots).mpr fun n => ?_
  rw [List.mem_flatMap, mem_roots]
  constructor
  · rintro ⟨w, -, hn⟩
    exact (mem_rootsIn.mp hn).2
  · intro hn
    obtain ⟨w, hw, hnw⟩ := exists_mem_wholeComponents (isRoot_iff.mp hn).1
    exact ⟨w, hw, mem_rootsIn.mpr ⟨hnw, hn⟩⟩

/-- **Every root of the graph is on top of a component or the target of one link.** -/
theorem Arranged.roots_perm (hg : g.isSimple = true) (h : g.Arranged links top inner) :
    (g.wholeComponents.map top ++ links.map (·.target)).Perm g.roots := by
  have hlinks : (links.map (·.target)).Perm
      (g.wholeComponents.flatMap fun w => (inner w).map (·.target)) := by
    rw [← List.map_flatMap]
    exact h.perm.map _
  have hroots : (g.wholeComponents.flatMap fun w => top w :: (inner w).map (·.target)).Perm
      (g.wholeComponents.flatMap g.rootsIn) := by
    refine List.Perm.flatMap_left _ fun w hw => ?_
    exact (h.derives w hw).targets_perm hg (whole_of_mem_wholeComponents hw)
  have htops := (hlinks.append_left (g.wholeComponents.map top)).trans
    (List.map_append_flatMap_perm _ _ _)
  exact htops.trans (hroots.trans g.roots_perm)

/--
**The enumeration of a simple graph yields no solved form twice, and each has a link to every root
but one of each component.**
-/
theorem readings_are_distinct (hg : g.isSimple = true) {c : Chart} (hc : g.solve? = some c)
    (n : Nat) :
    ((Readings.start g c).take n).1.Nodup
      ∧ ∀ f ∈ ((Readings.start g c).take n).1,
          f.size + g.wholeComponents.length = g.roots.length
            ∧ (f.links.map (·.target)).Nodup
            ∧ ∀ l ∈ f.links, l.target ∈ g.roots := by
  obtain ⟨hsolved, rfl⟩ := solve?_eq_some_iff.mp hc
  have hcomplete := complete_solving hsolved
  rw [Readings.forms_take_start hcomplete]
  refine ⟨?_, fun f hf => ?_⟩
  · refine (hcomplete.sound.nodup_listing hg toplevel_solving fun s => ?_).sublist
      (List.take_sublist _ _)
    by_cases hs : g.solving.chart.hasSplits s = true
    · rw [splitsFor_solving hs]
      exact g.pairwise_splits s
    · rw [Chart.hasSplits_iff, not_not] at hs
      rw [hs]
      exact .nil
  · obtain ⟨top, inner, ha⟩ :=
      exists_arranged hcomplete.sound toplevel_solving (List.mem_of_mem_take hf)
    have hperm := ha.roots_perm hg
    have hnodup := hperm.nodup_iff.mpr g.nodup_roots
    refine ⟨?_, (List.nodup_append.mp hnodup).2.1, fun l hl => ?_⟩
    · have hlength := hperm.length_eq
      rw [List.length_append, List.length_map, List.length_map] at hlength
      unfold SolvedForm.size
      omega
    · exact hperm.mem_iff.mp (List.mem_append_right _ (List.mem_map_of_mem hl))

theorem readings_are_distinct_twoReadings :
    twoReadings.isSimple = true
      ∧ ((Readings.start twoReadings twoReadings.solving.chart).take 2).1
          = [.ofLinks [⟨1, 2⟩, ⟨3, 4⟩], .ofLinks [⟨1, 4⟩, ⟨3, 0⟩]]
      ∧ ((Readings.start twoReadings twoReadings.solving.chart).take 2).1.Nodup :=
  ⟨by decide +kernel, by decide +kernel,
    (readings_are_distinct (by decide +kernel)
      (solve?_eq_some_iff.mpr ⟨by decide +kernel, rfl⟩) 2).1⟩

end Graph

end Dominance
