import Mathlib.Data.List.Perm.Subperm
import Dominance.Proofs.Forest
import Dominance.Split.Source

/-!
# What a free fragment leaves

The doors of a top fragment claim regions one after the other.
Each region is a component of what lies below the top, and no component is claimed twice, because a
region takes all that hangs together with its entry.
So a split lists every component below its top once, each below the only node of the top that edges
join to it; and there is such a split whenever every component can be reached in this way.

* `divides_of_freeSplit?` — what a split says about its subgraph
* `exists_freeSplit?` — when there is a split
* `mem_splits` — the splits of a subgraph, by their roots
* `Whole.divides` — a split of a whole subgraph, whose top is a fragment
-/

namespace Dominance

open Relation

/-! ## Regions -/

theorem stepIn_congr {next : Nat → List Nat} {supply supply' : List Nat}
    (h : ∀ n, n ∈ supply ↔ n ∈ supply') : StepIn next supply = StepIn next supply' := by
  funext a b
  exact propext (and_congr_right fun _ => h b)

namespace Graph

variable {g : Graph} {top s w : Subgraph} {r : Nat}

/-- The nodes that paths within a supply join to a node. -/
abbrev Reached (g : Graph) (supply : List Nat) : Nat → Nat → Prop :=
  ReflTransGen (StepIn g.neighbours supply)

/-- What the doors claimed of a supply. -/
structure Claimed (g : Graph) (top : Subgraph) (doors : List Link) (supply : List Nat)
    (regions : List Region) : Prop where
  door : ∀ x ∈ regions, x.door ∈ doors
  entry : ∀ x ∈ regions, x.door.target ∈ supply
  nodes : ∀ x ∈ regions, ∀ n, n ∈ x.nodes ↔ g.Reached supply x.door.target n
  hangs : ∀ x ∈ regions, g.hangsFrom top x.door.source x.nodes = true
  cover : ∀ n ∈ supply, ∃ x ∈ regions, n ∈ x.nodes
  disjoint : regions.Pairwise fun x y => ∀ n ∈ x.nodes, n ∉ y.nodes

/-- The supply without one node, and what a search from that node does to it. -/
theorem reachFrom_filter {supply : List Nat} {e : Nat} (he : e ∈ supply) :
    (∀ n, n ∈ (reachFrom g.neighbours e (supply.filter (· ≠ e))).reached ↔ g.Reached supply e n)
      ∧ (∀ n, n ∈ (reachFrom g.neighbours e (supply.filter (· ≠ e))).rest ↔
          n ∈ supply ∧ ¬g.Reached supply e n)
      ∧ ∀ m ∈ (reachFrom g.neighbours e (supply.filter (· ≠ e))).rest, ∀ n,
          g.Reached supply m n ↔
            g.Reached (reachFrom g.neighbours e (supply.filter (· ≠ e))).rest m n := by
  have hfresh : e ∉ supply.filter (· ≠ e) := by simp
  have hmem : ∀ n, n ∈ e :: supply.filter (· ≠ e) ↔ n ∈ supply := by
    intro n
    by_cases hn : n = e
    · simp [hn, he]
    · simp [hn]
  have hpath : ∀ m n, g.Reached supply m n ↔
      ReflTransGen (StepIn g.neighbours (e :: supply.filter (· ≠ e))) m n := by
    intro m n
    rw [Reached, stepIn_congr hmem]
  refine ⟨fun n => ?_, fun n => ?_, fun m hm n => ?_⟩
  · rw [hpath, path_cons_iff]
    exact mem_reached_reachFrom
  · rw [mem_rest_reachFrom hfresh, hpath, path_cons_iff]
    have hne : ¬ReflTransGen (StepIn g.neighbours (supply.filter (· ≠ e))) e n → n ≠ e :=
      fun h he => h (he ▸ .refl)
    simp only [List.mem_filter, decide_eq_true_eq]
    exact ⟨fun h => ⟨h.1.1, h.2⟩, fun h => ⟨⟨h.1, hne h.2⟩, h.2⟩⟩
  · rw [hpath]
    exact stays_in_rest g.mutual_neighbours hfresh hm

/-- **The regions are the classes of the supply, each claimed once.** -/
theorem claimed_of_claimRegions {doors : List Link} {supply : List Nat} {regions : List Region}
    (h : g.claimRegions top doors supply = some regions) :
    g.Claimed top doors supply regions := by
  induction doors generalizing supply regions with
  | nil =>
    cases supply with
    | nil => cases h; constructor <;> simp
    | cons n supply => cases h
  | cons door doors ih =>
    rw [claimRegions] at h
    split at h
    · next he =>
      obtain ⟨hreached, hrest, hstay⟩ := reachFrom_filter (g := g) he
      simp only at h
      generalize reachFrom g.neighbours door.target (supply.filter (· ≠ door.target)) = reach at *
      split at h
      · next hhangs =>
        obtain ⟨later, hlater, rfl⟩ := Option.map_eq_some_iff.mp h
        have hc := ih hlater
        -- a region claimed later is a class of the rest, and so a class of the whole supply
        have hnodes : ∀ x ∈ later, ∀ n, n ∈ x.nodes ↔ g.Reached supply x.door.target n :=
          fun x hx n => (hc.nodes x hx n).trans (hstay _ (hc.entry x hx) n).symm
        refine ⟨?_, ?_, ?_, ?_, ?_, ?_⟩
        · rintro x (_ | ⟨_, hx⟩)
          · exact List.mem_cons_self
          · exact List.mem_cons_of_mem _ (hc.door x hx)
        · rintro x (_ | ⟨_, hx⟩)
          · exact he
          · exact ((hrest _).mp (hc.entry x hx)).1
        · rintro x (_ | ⟨_, hx⟩)
          · exact hreached
          · exact hnodes x hx
        · rintro x (_ | ⟨_, hx⟩)
          · exact hhangs
          · exact hc.hangs x hx
        · intro n hn
          by_cases hr : g.Reached supply door.target n
          · exact ⟨_, List.mem_cons_self, (hreached n).mpr hr⟩
          · obtain ⟨x, hx, hnx⟩ := hc.cover n ((hrest n).mpr ⟨hn, hr⟩)
            exact ⟨x, List.mem_cons_of_mem _ hx, hnx⟩
        · refine List.pairwise_cons.mpr ⟨fun x hx n hn hnx => ?_, hc.disjoint⟩
          have hin := mem_of_path (hc.entry x hx) ((hc.nodes x hx n).mp hnx)
          exact ((hrest n).mp hin).2 ((hreached n).mp hn)
      · cases h
    · have hc := ih h
      exact ⟨fun x hx => List.mem_cons_of_mem _ (hc.door x hx), hc.entry, hc.nodes, hc.hangs,
        hc.cover, hc.disjoint⟩

/-- **The doors claim the whole supply if every class has a door, and hangs from each of its
doors.** -/
theorem exists_claimRegions {doors : List Link} {supply : List Nat}
    (hdoor : ∀ n ∈ supply, ∃ x ∈ doors, x.target ∈ supply ∧ g.Reached supply n x.target)
    (hhangs : ∀ x ∈ doors, x.target ∈ supply → ∀ nodes : List Nat,
      (∀ n, n ∈ nodes ↔ g.Reached supply x.target n) → g.hangsFrom top x.source nodes = true) :
    ∃ regions, g.claimRegions top doors supply = some regions := by
  induction doors generalizing supply with
  | nil =>
    cases supply with
    | nil => exact ⟨[], rfl⟩
    | cons n supply =>
      obtain ⟨x, hx, -⟩ := hdoor n List.mem_cons_self
      cases hx
  | cons door doors ih =>
    rw [claimRegions]
    split
    · next he =>
      obtain ⟨hreached, hrest, hstay⟩ := reachFrom_filter (g := g) he
      simp only
      generalize reachFrom g.neighbours door.target (supply.filter (· ≠ door.target)) = reach at *
      rw [if_pos (hhangs door List.mem_cons_self he _ hreached)]
      suffices ∃ regions, g.claimRegions top doors reach.rest = some regions by
        obtain ⟨regions, hregions⟩ := this
        exact ⟨_, by rw [hregions]; rfl⟩
      refine ih (fun n hn => ?_) fun x hx hxr nodes hnodes => ?_
      · obtain ⟨x, hx, -, hpath⟩ := hdoor n ((hrest n).mp hn).1
        have hin := (hstay n hn x.target).mp hpath
        have hxr : x.target ∈ reach.rest := mem_of_path hn hin
        rcases List.mem_cons.mp hx with rfl | hx
        · exact absurd .refl ((hrest _).mp hxr).2
        · exact ⟨x, hx, hxr, hin⟩
      · refine hhangs x (List.mem_cons_of_mem _ hx) ((hrest _).mp hxr).1 nodes fun n => ?_
        rw [hnodes n, hstay _ hxr]
    · next he =>
      refine ih (fun n hn => ?_) fun x hx => hhangs x (List.mem_cons_of_mem _ hx)
      obtain ⟨x, hx, hxs, hpath⟩ := hdoor n hn
      rcases List.mem_cons.mp hx with rfl | hx
      · exact absurd hxs he
      · exact ⟨x, hx, hxs, hpath⟩

theorem hangsFrom_iff {d : Nat} {nodes : List Nat} :
    g.hangsFrom top d nodes = true ↔ ∀ n ∈ nodes, ∀ m ∈ top, g.Joined n m → m = d := by
  simp only [hangsFrom, List.all_eq_true, mem_neighbours, Bool.or_eq_true, Bool.not_eq_true',
    decide_eq_true_eq]
  refine forall₂_congr fun n _ => ⟨fun h m hm hj => ?_, fun h m hj => ?_⟩
  · rcases h m hj with hc | he
    · rw [Subgraph.contains_iff.mpr hm] at hc
      cases hc
    · exact he
  · by_cases hm : m ∈ top
    · exact .inr (h m hm hj)
    · exact .inl (by simpa [Subgraph.contains] using hm)

theorem mem_doors {x : Link} : x ∈ g.doors top ↔ x.source ∈ top ∧ g.Arc x.source x.target := by
  simp only [doors, List.mem_flatMap, List.mem_map, mem_successors, Subgraph.mem_ids]
  constructor
  · rintro ⟨d, hd, e, he, rfl⟩
    exact ⟨hd, he⟩
  · rintro ⟨hd, he⟩
    exact ⟨x.source, hd, x.target, he, rfl⟩

end Graph

/-! ## From regions to parts -/

/-- The part that a region becomes. -/
def Region.part (x : Region) : Part := ⟨x.door.source, Subgraph.ofList x.nodes⟩

theorem Split.place_perm (p : Part) (qs : List Part) : (place p qs).Perm (p :: qs) := by
  rw [place_eq_merge]
  exact (List.merge_perm_append _).trans List.perm_append_comm

/-- Regions are sorted by their doors. -/
theorem sortBy_door (regions : List Region) :
    sortBy (fun a b => a.door.le b.door) regions
      = regions.mergeSort fun a b => a.door.le b.door :=
  sortBy_eq_mergeSort (fun a b c => Link.le_trans a.door b.door c.door)
    (fun a b => Link.le_total a.door b.door) regions

theorem Graph.splitOfRegions_root (root : Nat) (regions : List Region) :
    (splitOfRegions root regions).root = root := by
  unfold splitOfRegions
  generalize sortBy _ regions = sorted
  suffices ∀ split : Split, (sorted.foldl (fun split region =>
      split.attach region.door.source (Subgraph.ofList region.nodes)) split).root = split.root from
    this _
  induction sorted with
  | nil => exact fun _ => rfl
  | cons x sorted ih => exact fun split => ih _

theorem Graph.splitOfRegions_perm (root : Nat) (regions : List Region) :
    (splitOfRegions root regions).parts.Perm (regions.map Region.part) := by
  unfold splitOfRegions
  rw [sortBy_door]
  have hperm := List.mergeSort_perm regions fun a b => a.door.le b.door
  refine List.Perm.trans ?_ (hperm.map Region.part)
  generalize regions.mergeSort _ = sorted
  suffices ∀ split : Split, (sorted.foldl (fun split region =>
      split.attach region.door.source (Subgraph.ofList region.nodes)) split).parts.Perm
        (sorted.map Region.part ++ split.parts) by
    simpa [Split.bare] using this (Split.bare root)
  induction sorted with
  | nil => exact fun _ => List.Perm.refl _
  | cons x sorted ih =>
    intro split
    refine (ih _).trans ?_
    exact ((Split.place_perm x.part split.parts).append_left _).trans List.perm_middle

/-! ## Splits -/

namespace Graph

variable {g : Graph} {top s w : Subgraph} {r : Nat} {split : Split}

/-- How parts divide what a subgraph has below a top. -/
structure Divides (g : Graph) (top s : Subgraph) (parts : List Part) : Prop where
  component : ∀ p ∈ parts, g.IsComponent (s.without top) p.component
  dominator : ∀ p ∈ parts, p.dominator ∈ top
  arc : ∀ p ∈ parts, ∃ n ∈ p.component, g.Arc p.dominator n
  hangs : ∀ p ∈ parts, ∀ n ∈ p.component, ∀ m ∈ top, g.Joined n m → m = p.dominator
  cover : ∀ n ∈ s.without top, ∃ p ∈ parts, n ∈ p.component
  disjoint : parts.Pairwise fun p q => ∀ n ∈ p.component, n ∉ q.component

namespace Divides

variable {parts parts' : List Part}

theorem nodup (h : g.Divides top s parts) : parts.Nodup := by
  refine h.disjoint.imp_of_mem fun {p q} hp _ hpq heq => ?_
  obtain ⟨n, hn⟩ := (h.component p hp).nonempty
  exact hpq n hn (heq ▸ hn)

/-- Parts that share a node are the same, also if they come from two ways to divide the subgraph. -/
theorem eq_of_mem (h : g.Divides top s parts) (h' : g.Divides top s parts') {p q : Part}
    (hp : p ∈ parts) (hq : q ∈ parts') {n : Nat} (hnp : n ∈ p.component) (hnq : n ∈ q.component) :
    p = q := by
  have hcomponent := (h.component p hp).eq_of_mem (h'.component q hq) hnp hnq
  obtain ⟨m, hm, harc⟩ := h'.arc q hq
  have hdominator : q.dominator = p.dominator :=
    h.hangs p hp m (hcomponent ▸ hm) q.dominator (h'.dominator q hq) (.inr harc)
  cases p
  cases q
  rw [Part.mk.injEq]
  exact ⟨hdominator.symm, hcomponent⟩

theorem subset (h : g.Divides top s parts) (h' : g.Divides top s parts') :
    ∀ p ∈ parts, p ∈ parts' := by
  intro p hp
  obtain ⟨n, hn⟩ := (h.component p hp).nonempty
  obtain ⟨q, hq, hnq⟩ := h'.cover n ((h.component p hp).subset n hn)
  exact h.eq_of_mem h' hp hq hn hnq ▸ hq

/-- **There is only one way to divide what a subgraph has below a top**, apart from the order of the
parts. -/
theorem perm (h : g.Divides top s parts) (h' : g.Divides top s parts') : parts.Perm parts' :=
  (List.perm_ext_iff_of_nodup h.nodup h'.nodup).mpr fun p => ⟨h.subset h' p, h'.subset h p⟩

end Divides

/-- **A split lists every component below its top once, with the node that it hangs from.** -/
theorem divides_of_freeSplit? (h : g.freeSplit? r s = some split) :
    split.root = r ∧ g.Divides (g.topOf r s) s split.parts := by
  obtain ⟨regions, hregions, rfl⟩ := Option.map_eq_some_iff.mp h
  have hc := claimed_of_claimRegions hregions
  have hperm := splitOfRegions_perm r regions
  have hpart : ∀ p ∈ (splitOfRegions r regions).parts, ∃ x ∈ regions, x.part = p :=
    fun p hp => List.mem_map.mp (hperm.mem_iff.mp hp)
  have hnodes : ∀ x ∈ regions, ∀ n, n ∈ x.part.component ↔
      g.Linked (s.without (g.topOf r s)) x.door.target n := by
    intro x hx n
    rw [linked_iff, Region.part, Subgraph.mem_ofList]
    exact hc.nodes x hx n
  refine ⟨splitOfRegions_root r regions, ?_, ?_, ?_, ?_, ?_, ?_⟩
  · intro p hp
    obtain ⟨x, hx, rfl⟩ := hpart p hp
    exact ⟨x.door.target, hc.entry x hx, hnodes x hx⟩
  · intro p hp
    obtain ⟨x, hx, rfl⟩ := hpart p hp
    exact (mem_doors.mp (hc.door x hx)).1
  · intro p hp
    obtain ⟨x, hx, rfl⟩ := hpart p hp
    exact ⟨x.door.target, (hnodes x hx _).mpr .refl, (mem_doors.mp (hc.door x hx)).2⟩
  · intro p hp n hn
    obtain ⟨x, hx, rfl⟩ := hpart p hp
    exact hangsFrom_iff.mp (hc.hangs x hx) n (Subgraph.mem_ofList.mp hn)
  · intro n hn
    obtain ⟨x, hx, hnx⟩ := hc.cover n hn
    exact ⟨x.part, hperm.mem_iff.mpr (List.mem_map_of_mem hx), Subgraph.mem_ofList.mpr hnx⟩
  · refine (hperm.pairwise_iff fun {p q} hpq n hnq hnp => hpq n hnp hnq).mpr ?_
    refine List.pairwise_map.mpr (hc.disjoint.imp fun {x y} hxy n hn hny => ?_)
    exact hxy n (Subgraph.mem_ofList.mp hn) (Subgraph.mem_ofList.mp hny)

/-- **There is a split if every component below the top hangs from one node of the top, and an edge
leads down to it from there.** -/
theorem exists_freeSplit? (h : ∀ w, g.IsComponent (s.without (g.topOf r s)) w →
      ∃ d ∈ g.topOf r s, (∃ n ∈ w, g.Arc d n) ∧ ∀ n ∈ w, ∀ m ∈ g.topOf r s, g.Joined n m → m = d) :
    ∃ split, g.freeSplit? r s = some split := by
  suffices ∃ regions, g.claimRegions (g.topOf r s) (g.doors (g.topOf r s))
      (s.without (g.topOf r s)).ids = some regions by
    obtain ⟨regions, hregions⟩ := this
    exact ⟨splitOfRegions r regions, Option.map_eq_some_iff.mpr ⟨regions, hregions, rfl⟩⟩
  apply exists_claimRegions
  · intro n hn
    obtain ⟨w, hw, hnw⟩ := exists_component (g := g) hn
    obtain ⟨d, hd, ⟨e, he, harc⟩, -⟩ := h w hw
    refine ⟨⟨d, e⟩, mem_doors.mpr ⟨hd, harc⟩, hw.subset e he, ?_⟩
    exact linked_iff.mp ((hw.mem_iff_linked hnw).mp he)
  · intro x hx hxs nodes hnodes
    obtain ⟨hsource, harc⟩ := mem_doors.mp hx
    obtain ⟨w, hw, hxw⟩ := exists_component (g := g) hxs
    obtain ⟨d, -, -, hhangs⟩ := h w hw
    rw [hhangs x.target hxw x.source hsource (.inr harc), hangsFrom_iff]
    intro n hn
    exact hhangs n ((hw.mem_iff_linked hxw).mpr (linked_iff.mpr ((hnodes n).mp hn)))

theorem mem_openRoots :
    r ∈ g.openRoots s ↔ g.isRoot r = true ∧ r ∈ s ∧ ∀ m ∈ s, ¬g.Arc m r := by
  rw [openRoots, List.mem_filter, mem_roots, Bool.and_eq_true, Subgraph.contains_iff,
    decide_eq_true_eq, indegreeIn, List.length_eq_zero_iff, List.filter_eq_nil_iff]
  refine and_congr_right fun _ => and_congr_right fun _ =>
    ⟨fun h m hm harc => ?_, fun h e he hm => ?_⟩
  · obtain ⟨kind, he⟩ := harc
    exact h _ (mem_incoming.mpr ⟨he, rfl⟩) (Subgraph.contains_iff.mpr hm)
  · obtain ⟨hmem, rfl⟩ := mem_incoming.mp he
    exact h e.source (Subgraph.contains_iff.mp hm) ⟨e.kind, hmem⟩

theorem mem_splits :
    split ∈ g.splits s ↔ split.root ∈ g.openRoots s ∧ g.freeSplit? split.root s = some split := by
  simp only [splits, List.mem_filterMap]
  constructor
  · rintro ⟨r, hr, h⟩
    rw [(divides_of_freeSplit? h).1]
    exact ⟨hr, h⟩
  · exact fun h => ⟨split.root, h⟩

theorem mem_topOf {n : Nat} : n ∈ g.topOf r s ↔ n ∈ g.fragment r ∧ n ∈ s := by
  simp [topOf]

theorem root_mem_of_mem_splits (h : split ∈ g.splits s) : split.root ∈ s :=
  (mem_openRoots.mp (mem_splits.mp h).1).2.1

theorem isRoot_root_of_mem_splits (h : split ∈ g.splits s) : g.isRoot split.root = true :=
  (mem_openRoots.mp (mem_splits.mp h).1).1

theorem divides_of_mem_splits (h : split ∈ g.splits s) :
    g.Divides (g.topOf split.root s) s split.parts :=
  (divides_of_freeSplit? (mem_splits.mp h).2).2

theorem mem_components {split : Split} :
    w ∈ split.components ↔ ∃ p ∈ split.parts, p.component = w :=
  List.mem_map

/-- A component of a split is a part of the subgraph without the root. -/
theorem subset_of_mem_components (h : split ∈ g.splits s) (hw : w ∈ split.components) :
    ∀ n ∈ w, n ∈ s ∧ n ≠ split.root := by
  obtain ⟨p, hp, rfl⟩ := mem_components.mp hw
  intro n hn
  have hns := Subgraph.mem_without.mp (((divides_of_mem_splits h).component p hp).subset n hn)
  refine ⟨hns.1, fun he => hns.2 (mem_topOf.mpr ⟨?_, hns.1⟩)⟩
  rw [he]
  exact self_mem_fragment

theorem nonempty_of_mem_components (h : split ∈ g.splits s) (hw : w ∈ split.components) :
    ∃ n, n ∈ w := by
  obtain ⟨p, hp, rfl⟩ := mem_components.mp hw
  exact ((divides_of_mem_splits h).component p hp).nonempty

theorem lt_of_mem_components (h : split ∈ g.splits s) (hw : w ∈ split.components) :
    ∀ n ∈ w, n < g.size := by
  obtain ⟨p, hp, rfl⟩ := mem_components.mp hw
  have hd := divides_of_mem_splits h
  obtain ⟨a, ha, harc⟩ := hd.arc p hp
  intro n hn
  -- the entry is the target of an edge, and so is every other node that a path joins to it
  cases ((hd.component p hp).mem_iff_linked ha).mp hn with
  | refl => exact harc.target_lt
  | tail _ hstep => exact hstep.1.lt

/-- **Every component of a split is smaller than the subgraph that was split.** -/
theorem size_lt_of_mem_components (h : split ∈ g.splits s) (hw : w ∈ split.components) :
    w.size < s.size := by
  have hsub := subset_of_mem_components h hw
  have hnd : (split.root :: w.ids).Nodup :=
    List.nodup_cons.mpr ⟨fun hr => (hsub _ hr).2 rfl, w.nodup_ids⟩
  have hincl : (split.root :: w.ids) ⊆ s.ids := by
    intro n hn
    rcases List.mem_cons.mp hn with rfl | hn
    · exact root_mem_of_mem_splits h
    · exact (hsub n hn).1
  exact (List.subperm_of_subset hnd hincl).length_le

/-! ## Splits of whole subgraphs -/

theorem Whole.topOf_eq (h : g.Whole s) (hr : r ∈ s) : g.topOf r s = g.fragment r := by
  ext n
  rw [mem_topOf]
  exact ⟨fun hn => hn.1, fun hn => ⟨hn, h.fragment_subset hr n hn⟩⟩

/-- A split of a whole subgraph takes one fragment away. -/
theorem Whole.divides (hs : g.Whole s) (h : split ∈ g.splits s) :
    g.Divides (g.fragment split.root) s split.parts := by
  have hd := divides_of_mem_splits h
  rwa [hs.topOf_eq (root_mem_of_mem_splits h)] at hd

theorem Whole.of_mem_components (hs : g.Whole s) (h : split ∈ g.splits s)
    (hw : w ∈ split.components) : g.Whole w := by
  obtain ⟨p, hp, rfl⟩ := mem_components.mp hw
  exact hs.of_component ((hs.divides h).component p hp)

/-- The components of a split are all the components below its top. -/
theorem Whole.mem_components_iff (hs : g.Whole s) (h : split ∈ g.splits s) :
    w ∈ split.components ↔ g.IsComponent (s.without (g.fragment split.root)) w := by
  have hd := hs.divides h
  constructor
  · intro hw
    obtain ⟨p, hp, rfl⟩ := mem_components.mp hw
    exact hd.component p hp
  · intro hw
    obtain ⟨n, hn⟩ := hw.nonempty
    obtain ⟨p, hp, hnp⟩ := hd.cover n (hw.subset n hn)
    exact mem_components.mpr ⟨p, hp, (hd.component p hp).eq_of_mem hw hnp hn⟩

end Graph

end Dominance
