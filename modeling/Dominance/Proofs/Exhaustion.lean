import Dominance.Proofs.Distinctness

/-!
# Every derivation is enumerated

A chart that has all splits of what it mentions leaves no derivation out: whatever way there is to
split a subgraph all the way down, the unfolding of the subgraph contains its links.
So the listing of a solved simple graph has exactly the solved forms that come from derivations of
all its components, and it has each of them once.

* `Derives.eq_of_sole` — a single root leaves nothing to choose
* `Complete.exists_unfolded_of_derives` — every derivation is among the solutions
* `mem_listing_solving_iff` — what the listing of a solved graph contains
-/

namespace Dominance

variable {c : Chart} {g : Graph} {s : Subgraph} {r : Nat} {links : List Link} {f : SolvedForm}

/-- The part that an entry below a dominator stands for. -/
def Pending.part (entry : Pending) : Part := ⟨entry.dominator.getD 0, entry.subgraph⟩

/-- A subgraph with a single root has no other derivation than the one without links. -/
theorem Graph.Derives.eq_of_sole (hg : g.isSimple = true) (hs : g.Whole s)
    (h : g.Derives s r links) {root : Nat} (hroot : g.soleRoot? s = some root) :
    r = root ∧ links = [] := by
  have hperm := h.targets_perm hg hs
  rw [soleRoot?_eq_some_iff.mp hroot, List.perm_singleton, List.cons.injEq,
    List.map_eq_nil_iff] at hperm
  exact hperm

namespace Chart

/-- An entry with a single root is linked to it, and that is all. -/
theorem Ranked.linksTo_mem_unfolded {rank : Subgraph → Nat} (hr : c.Ranked rank) {root : Nat}
    (hroot : g.soleRoot? s = some root) (dominator : Option Nat) :
    Machine.linksTo dominator root ∈ c.unfolded g [⟨dominator, s⟩] := by
  rw [hr.unfolded_cons_of_sole hroot, unfolded_nil, List.map_singleton, List.append_nil,
    List.mem_singleton]

/-- Solutions of the entries of an agenda make up a solution of the agenda. -/
theorem Ranked.exists_unfolded_of_entries {rank : Subgraph → Nat} (hr : c.Ranked rank)
    {solution : Pending → List Link} {agenda : List Pending}
    (h : ∀ entry ∈ agenda, ∃ links ∈ c.unfolded g [entry], links.Perm (solution entry)) :
    ∃ links ∈ c.unfolded g agenda, links.Perm (agenda.flatMap solution) := by
  induction agenda with
  | nil => exact ⟨[], by simp, by simp⟩
  | cons entry agenda ih =>
    obtain ⟨before, hbefore, hperm⟩ := h entry List.mem_cons_self
    obtain ⟨after, hafter, hperm'⟩ := ih fun e he => h e (List.mem_cons_of_mem _ he)
    refine ⟨before ++ after, ?_, ?_⟩
    · show _ ∈ c.unfolded g ([entry] ++ agenda)
      exact hr.mem_unfolded_append.mpr ⟨before, hbefore, after, hafter, rfl⟩
    · rw [List.flatMap_cons]
      exact hperm.append hperm'

/--
**A chart with all splits has every derivation among its solutions.**

By induction on the derivation.
The links to the parts with a single root stand in front, those of the other parts come from
unfolding these one by one.
-/
theorem Complete.exists_unfolded_of_derives (hc : c.Complete g) (hg : g.isSimple = true)
    (hall : ∀ s, c.hasSplits s = true → c.splitsFor s = g.splits s) (hs : g.Whole s)
    (hmentions : c.Mentions s) (h : g.Derives s r links) (dominator : Option Nat) :
    ∃ found ∈ c.unfolded g [⟨dominator, s⟩],
      found.Perm (Machine.linksTo dominator r ++ links) := by
  have hr := hc.sound.ranked
  induction h generalizing dominator with
  | @sole s r hroot =>
    exact ⟨_, hr.linksTo_mem_unfolded hroot dominator, by simp⟩
  | @split s split links top inner h below perm ih =>
    cases hroot : g.soleRoot? s with
    | some root =>
      obtain ⟨hr', rfl⟩ := (Graph.Derives.split top inner h below perm).eq_of_sole hg hs hroot
      exact ⟨_, hr.linksTo_mem_unfolded hroot dominator, by simp [hr']⟩
    | none =>
      have hstored : split ∈ c.splitsFor s := by
        rw [hall s (hasSplits_iff.mpr (hc.splitsFor_ne_nil hmentions hroot))]
        exact h
      have hwhole : ∀ p ∈ split.parts, g.Whole p.component :=
        fun p hp => hs.of_mem_components h (List.mem_map_of_mem hp)
      obtain ⟨rest, hrest, hperm⟩ : ∃ rest ∈ c.unfolded g (g.unsettled split),
          rest.Perm ((g.unsettled split).flatMap fun entry =>
            Machine.linksTo entry.dominator (top entry.part) ++ inner entry.part) := by
        refine hr.exists_unfolded_of_entries fun entry hentry => ?_
        obtain ⟨p, hp, -, rfl⟩ := mem_unsettled.mp hentry
        exact ih p hp (hwhole p hp) (.inr ⟨s, split, hstored, List.mem_map_of_mem hp⟩) _
      refine ⟨Machine.linksTo dominator split.root ++ g.settled split ++ rest, ?_, ?_⟩
      · rw [hr.unfolded_cons_of_split hroot]
        refine List.mem_flatMap.mpr ⟨split, hstored, List.mem_map_of_mem ?_⟩
        rwa [List.append_nil]
      · have hlinks := perm.trans (settled_perm (g := g) fun p hp root hsole => by
          obtain ⟨htop, hinner⟩ := (below p hp).eq_of_sole hg (hwhole p hp) hsole
          rw [htop, hinner])
        have hunsettled : ((g.unsettled split).flatMap fun entry =>
              Machine.linksTo entry.dominator (top entry.part) ++ inner entry.part).Perm
            ((split.parts.filter fun p => (g.soleRoot? p.component).isNone).flatMap
              fun p => ⟨p.dominator, top p⟩ :: inner p) := by
          refine ((List.reverse_perm _).flatMap_right _).trans ?_
          rw [List.flatMap_map]
          exact .refl _
        rw [List.append_assoc]
        exact ((hperm.trans hunsettled).append_left _ |>.trans hlinks.symm).append_left _

end Chart

namespace Graph

/-- Nothing is listed twice for a solved simple graph. -/
theorem nodup_listing_solving (hg : g.isSimple = true) (h : g.solving.solved = true) :
    (g.solving.chart.listing g).Nodup := by
  refine (complete_solving h).sound.nodup_listing hg toplevel_solving fun t => ?_
  by_cases ht : g.solving.chart.hasSplits t = true
  · rw [splitsFor_solving ht]
    exact g.pairwise_splits t
  · rw [Chart.hasSplits_iff, not_not] at ht
    rw [ht]
    exact .nil

/-- **The listing of a solved simple graph has all solved forms that come from derivations, and no
others.** -/
theorem mem_listing_solving_iff (hg : g.isSimple = true) (h : g.solving.solved = true) :
    f ∈ g.solving.chart.listing g ↔ ∃ top inner, g.Arranged f.links top inner := by
  have hc := complete_solving h
  refine ⟨exists_arranged hc.sound toplevel_solving, ?_⟩
  rintro ⟨top, inner, ha⟩
  obtain ⟨links, hlinks, hperm⟩ : ∃ links ∈ g.solving.chart.unfolded g
      (Machine.start g.solving.chart).agenda,
      links.Perm ((Machine.start g.solving.chart).agenda.flatMap fun e => inner e.subgraph) := by
    refine hc.sound.ranked.exists_unfolded_of_entries fun entry hentry => ?_
    obtain ⟨w, hw, rfl⟩ := List.mem_map.mp hentry
    rw [toplevel_solving] at hw
    exact hc.exists_unfolded_of_derives hg (fun _ => splitsFor_solving)
      (whole_of_mem_wholeComponents hw) (.inl (toplevel_solving ▸ hw)) (ha.derives w hw) none
  rw [Chart.listing_eq, List.mem_map]
  refine ⟨links, hlinks, SolvedForm.eq_of_perm ((SolvedForm.ofLinks_perm links).trans ?_)⟩
  refine hperm.trans (List.Perm.trans ?_ ha.perm.symm)
  rw [Machine.start, toplevel_solving, List.flatMap_map]

theorem nodup_links_of_mem_listing (hg : g.isSimple = true) (h : g.solving.solved = true)
    (hf : f ∈ g.solving.chart.listing g) : f.links.Nodup := by
  obtain ⟨top, inner, ha⟩ := (mem_listing_solving_iff hg h).mp hf
  exact (ha.targets hg).1.of_map _

end Graph

end Dominance
