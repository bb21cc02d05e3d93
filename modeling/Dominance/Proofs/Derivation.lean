import Mathlib.Data.List.Nodup
import Mathlib.Data.List.Perm.Basic
import Dominance.Proofs.Unfolding

/-!
# Derivations of solved forms

The links of a solution are collected in the order in which the agenda is worked off.
A derivation says where they come from: a subgraph with a single root needs no link, and any other
subgraph is split, with a link from the dominator of each part to the top of the derivation below
it.

Constraints between two fragments are checked when a split separates them.
If the upper one is the top of that split, its link leads to the part that holds the lower one, and
the derivation below reaches all of that part; otherwise both lie in the same part.

* `derives_split`, `exists_derives` — every solution comes from derivations
* `Derives.targets_perm` — every root but the top is the target of one link
* `Derives.reached` — the top reaches everything
* `Derives.dominated` — all constraints between fragments are met
-/

namespace Dominance

open Relation

/-! ## Derivations -/

/-- The links that splitting a subgraph all the way down leads to, with the root on top. -/
inductive Graph.Derives (g : Graph) : Subgraph → Nat → List Link → Prop
  | sole {s : Subgraph} {r : Nat} (h : g.soleRoot? s = some r) : Derives g s r []
  | split {s : Subgraph} {split : Split} {links : List Link} (top : Part → Nat)
    (inner : Part → List Link) (h : split ∈ g.splits s)
    (below : ∀ p ∈ split.parts, Derives g p.component (top p) (inner p))
    (perm : links.Perm (split.parts.flatMap fun p => ⟨p.dominator, top p⟩ :: inner p)) :
    Derives g s split.root links

namespace Chart

variable {c : Chart} {g : Graph} {rank : Subgraph → Nat} {s : Subgraph} {links : List Link}

/-- Where the links of a solution of one entry come from. -/
def Derived (g : Graph) (entry : Pending) (links : List Link) : Prop :=
  ∃ top inner, g.Derives entry.subgraph top inner
    ∧ links.Perm (Machine.linksTo entry.dominator top ++ inner)

/-- Solutions of single entries make up the solutions of an agenda. -/
theorem Ranked.exists_derivations (hr : c.Ranked rank) {agenda : List Pending}
    (hnodup : agenda.Nodup)
    (h : ∀ entry ∈ agenda, ∀ links ∈ c.unfolded g [entry], Derived g entry links)
    (hlinks : links ∈ c.unfolded g agenda) :
    ∃ (top : Pending → Nat) (inner : Pending → List Link),
      (∀ entry ∈ agenda, g.Derives entry.subgraph (top entry) (inner entry))
        ∧ links.Perm (agenda.flatMap fun entry =>
            Machine.linksTo entry.dominator (top entry) ++ inner entry) := by
  induction agenda generalizing links with
  | nil =>
    rw [unfolded_nil, List.mem_singleton] at hlinks
    exact ⟨fun _ => 0, fun _ => [], by simp, by rw [hlinks]; exact .refl _⟩
  | cons entry agenda ih =>
    obtain ⟨hfresh, hnodup⟩ := List.nodup_cons.mp hnodup
    obtain ⟨before, hbefore, after, hafter, rfl⟩ :=
      hr.mem_unfolded_append.mp (show links ∈ c.unfolded g ([entry] ++ agenda) from hlinks)
    obtain ⟨root, own, hderives, hperm⟩ := h entry List.mem_cons_self before hbefore
    obtain ⟨top, inner, hall, hperm'⟩ :=
      ih hnodup (fun e he => h e (List.mem_cons_of_mem _ he)) hafter
    -- the entry occurs once, so the derivations of the others are not touched
    have hne : ∀ e ∈ agenda, e ≠ entry := fun e he heq => hfresh (heq ▸ he)
    refine ⟨fun e => if e = entry then root else top e,
      fun e => if e = entry then own else inner e, fun e he => ?_, ?_⟩
    · by_cases heq : e = entry
      · simp only [heq, if_true]
        exact hderives
      · simp only [heq, if_false]
        exact hall e ((List.mem_cons.mp he).resolve_left heq)
    · rw [List.flatMap_cons]
      simp only [if_true]
      refine hperm.append (hperm'.trans (List.Perm.flatMap_left _ fun e he => ?_))
      rw [if_neg (hne e he), if_neg (hne e he)]

/-- The links to the parts with a single root stand apart from all others. -/
theorem settled_perm {f : Part → List Link} {parts : List Part}
    (hf : ∀ p ∈ parts, ∀ root, g.soleRoot? p.component = some root → f p = [⟨p.dominator, root⟩]) :
    (parts.flatMap f).Perm
      ((parts.filterMap fun p => (g.soleRoot? p.component).map fun root => ⟨p.dominator, root⟩)
        ++ (parts.filter fun p => (g.soleRoot? p.component).isNone).flatMap f) := by
  induction parts with
  | nil => exact .refl _
  | cons p parts ih =>
    have hrest := ih fun q hq => hf q (List.mem_cons_of_mem _ hq)
    rw [List.flatMap_cons]
    cases hroot : g.soleRoot? p.component with
    | some root =>
      rw [hf p List.mem_cons_self root hroot]
      simp only [List.filterMap_cons, List.filter_cons, hroot, Option.map_some, Option.isNone_some,
        Bool.false_eq_true, if_false, List.cons_append, List.nil_append]
      exact hrest.cons _
    | none =>
      simp only [List.filterMap_cons, List.filter_cons, hroot, Option.map_none, Option.isNone_none,
        if_true, List.flatMap_cons]
      exact (hrest.append_left (f p)).trans (List.perm_append_comm_assoc _ _ _)

theorem nodup_parts {split : Split} (h : split ∈ g.splits s) : split.parts.Nodup :=
  (Graph.divides_of_mem_splits h).nodup

theorem nodup_unsettled {split : Split} (h : split ∈ g.splits s) : (g.unsettled split).Nodup := by
  refine List.nodup_reverse.mpr (((nodup_parts h).filter _).map ?_)
  intro p q heq
  cases p
  cases q
  cases heq
  rfl

/-- The derivation that starts with a split, if the components that it leaves to be split come from
derivations. -/
theorem Ranked.derives_split (hr : c.Ranked rank) {split : Split} (h : split ∈ g.splits s)
    (hbelow : ∀ entry ∈ g.unsettled split, ∀ links ∈ c.unfolded g [entry], Derived g entry links)
    {rest : List Link} (hrest : rest ∈ c.unfolded g (g.unsettled split)) :
    g.Derives s split.root (g.settled split ++ rest) := by
  obtain ⟨top, inner, hall, hperm⟩ := hr.exists_derivations (nodup_unsettled h) hbelow hrest
  -- a part with a single root is its own derivation, any other is derived as an entry
  refine .split
    (fun p => (g.soleRoot? p.component).getD (top ⟨some p.dominator, p.component⟩))
    (fun p => if (g.soleRoot? p.component).isNone
      then inner ⟨some p.dominator, p.component⟩ else [])
    h (fun p hp => ?_) ?_
  · cases hp' : g.soleRoot? p.component with
    | some root => exact .sole hp'
    | none => exact hall _ (mem_unsettled.mpr ⟨p, hp, hp', rfl⟩)
  · refine List.Perm.symm ((settled_perm (g := g) fun p _ root hp => ?_).trans ?_)
    · simp [hp]
    · refine List.Perm.append_left _ (List.Perm.trans ?_ hperm.symm)
      rw [Graph.unsettled]
      refine List.Perm.trans ?_ ((List.reverse_perm _).symm.flatMap_right _)
      rw [List.flatMap_map]
      refine List.Perm.flatMap_left _ fun p hp => ?_
      have hnone := Option.isNone_iff_eq_none.mp (List.mem_filter.mp hp).2
      rw [hnone]
      exact .refl _

/-- **Every solution of an entry comes from a derivation.** -/
theorem Sound.exists_derives (hc : c.Sound g) {entry : Pending}
    (hlinks : links ∈ c.unfolded g [entry]) : Derived g entry links := by
  have hr := hc.ranked
  induction hsize : entry.subgraph.size using Nat.strongRecOn generalizing entry links with
  | _ size ih =>
    cases hroot : g.soleRoot? entry.subgraph with
    | some root =>
      rw [hr.unfolded_cons_of_sole hroot, unfolded_nil, List.map_singleton,
        List.mem_singleton] at hlinks
      exact ⟨root, [], .sole hroot, by rw [hlinks]⟩
    | none =>
      rw [hr.unfolded_cons_of_split hroot, List.mem_flatMap] at hlinks
      obtain ⟨split, hsplit, hlinks⟩ := hlinks
      obtain ⟨rest, hrest, rfl⟩ := List.mem_map.mp hlinks
      rw [List.append_nil] at hrest
      have hg := (hc _ split hsplit).1
      have hbelow : ∀ e ∈ g.unsettled split, ∀ l ∈ c.unfolded g [e], Derived g e l := by
        intro e he l hl
        have hlt := Graph.size_lt_of_mem_components hg (mem_components_of_mem_unsettled he)
        exact ih _ (hsize ▸ hlt) hl rfl
      exact ⟨split.root, _, hr.derives_split hg hbelow hrest, by rw [List.append_assoc]⟩

end Chart

/-! ## What derivations achieve -/

namespace Graph

variable {g : Graph} {s : Subgraph} {r : Nat} {links links' : List Link} {split : Split}

/-- A tree edge or a link leads from one node to another. -/
def Below (g : Graph) (links : List Link) (m n : Nat) : Prop := g.TreeArc m n ∨ ⟨m, n⟩ ∈ links

theorem below_path_mono (h : ∀ l ∈ links, l ∈ links') {m n : Nat}
    (hpath : ReflTransGen (g.Below links) m n) : ReflTransGen (g.Below links') m n :=
  ReflTransGen.mono (fun _ _ hstep => hstep.imp id (h _)) _ _ hpath

theorem below_of_treePath {m n : Nat} (h : ReflTransGen g.TreeArc m n) :
    ReflTransGen (g.Below links) m n :=
  ReflTransGen.mono (fun _ _ => Or.inl) _ _ h

theorem Derives.isRoot_top (h : g.Derives s r links) : r ∈ s ∧ g.isRoot r = true := by
  cases h with
  | sole hr =>
    exact mem_rootsIn.mp (soleRoot?_eq_some_iff.mp hr ▸ List.mem_singleton_self r)
  | split top inner h => exact ⟨root_mem_of_mem_splits h, isRoot_root_of_mem_splits h⟩

/-- The links of a split lead from the dominators to the tops of the parts. -/
theorem mem_links_of_perm {top : Part → Nat} {inner : Part → List Link}
    (perm : links.Perm (split.parts.flatMap fun p => ⟨p.dominator, top p⟩ :: inner p)) {l : Link} :
    l ∈ links ↔ ∃ p ∈ split.parts, l = ⟨p.dominator, top p⟩ ∨ l ∈ inner p := by
  rw [perm.mem_iff, List.mem_flatMap]
  simp only [List.mem_cons]

theorem nodup_rootsIn (g : Graph) (s : Subgraph) : (g.rootsIn s).Nodup := s.nodup_ids.filter _

/-- A subgraph with one root and no other. -/
theorem rootsIn_eq_singleton (hr : r ∈ s) (hroot : g.isRoot r = true)
    (hall : ∀ n ∈ s, g.isRoot n = true → n = r) : g.rootsIn s = [r] := by
  refine List.perm_singleton.mp ((List.perm_ext_iff_of_nodup (g.nodup_rootsIn s)
    (List.nodup_singleton r)).mpr fun n => ?_)
  rw [List.mem_singleton, mem_rootsIn]
  exact ⟨fun hn => hall n hn.1 hn.2, fun heq => heq ▸ ⟨hr, hroot⟩⟩

/-- The roots of a subgraph are the root of a split and the roots of its components. -/
theorem rootsIn_perm (hg : g.isSimple = true) (hs : g.Whole s) (h : split ∈ g.splits s) :
    (g.rootsIn s).Perm (split.root :: split.parts.flatMap fun p => g.rootsIn p.component) := by
  have hd := hs.divides h
  have hroot := isRoot_root_of_mem_splits h
  have hsub : ∀ p ∈ split.parts, ∀ n ∈ p.component, n ∈ s ∧ n ∉ g.fragment split.root :=
    fun p hp n hn => Subgraph.mem_without.mp ((hd.component p hp).subset n hn)
  refine (List.perm_ext_iff_of_nodup (g.nodup_rootsIn s) ?_).mpr fun n => ?_
  · refine List.nodup_cons.mpr ⟨fun hmem => ?_, List.nodup_flatMap.mpr ⟨fun p _ => ?_, ?_⟩⟩
    · obtain ⟨p, hp, hn⟩ := List.mem_flatMap.mp hmem
      exact (hsub p hp _ (mem_rootsIn.mp hn).1).2 self_mem_fragment
    · exact g.nodup_rootsIn p.component
    · refine hd.disjoint.imp fun {p q} hpq => ?_
      intro n hnp hnq
      exact hpq n (mem_rootsIn.mp hnp).1 (mem_rootsIn.mp hnq).1
  · rw [List.mem_cons, List.mem_flatMap, mem_rootsIn]
    constructor
    · rintro ⟨hns, hn⟩
      by_cases hnr : n ∈ g.fragment split.root
      · exact .inl (eq_of_isRoot_of_mem_fragment hg hroot hn hnr)
      · obtain ⟨p, hp, hnp⟩ := hd.cover n (Subgraph.mem_without.mpr ⟨hns, hnr⟩)
        exact .inr ⟨p, hp, mem_rootsIn.mpr ⟨hnp, hn⟩⟩
    · rintro (rfl | ⟨p, hp, hn⟩)
      · exact ⟨root_mem_of_mem_splits h, hroot⟩
      · exact ⟨(hsub p hp n (mem_rootsIn.mp hn).1).1, (mem_rootsIn.mp hn).2⟩

/-- **Every root but the one on top is the target of one link.** -/
theorem Derives.targets_perm (hg : g.isSimple = true) (hs : g.Whole s)
    (h : g.Derives s r links) : (r :: links.map (·.target)).Perm (g.rootsIn s) := by
  induction h with
  | sole hr =>
    rw [soleRoot?_eq_some_iff.mp hr]
    exact .refl _
  | @split s split links top inner h below perm ih =>
    refine List.Perm.trans (List.Perm.cons _ ?_) (rootsIn_perm hg hs h).symm
    refine (perm.map _).trans ?_
    rw [List.map_flatMap]
    refine List.Perm.flatMap_left _ fun p hp => ?_
    exact ih p hp (hs.of_mem_components h (List.mem_map_of_mem hp))

theorem Derives.target_mem (hg : g.isSimple = true) (hs : g.Whole s)
    (h : g.Derives s r links) {l : Link} (hl : l ∈ links) :
    l.target ∈ s ∧ g.isRoot l.target = true := by
  have hmem : l.target ∈ r :: links.map (·.target) :=
    List.mem_cons_of_mem _ (List.mem_map_of_mem hl)
  exact mem_rootsIn.mp ((h.targets_perm hg hs).mem_iff.mp hmem)

/-- Links start where dominance edges start. -/
theorem Derives.source_mem (hs : g.Whole s) (h : g.Derives s r links) :
    ∀ l ∈ links, l.source ∈ s ∧ ∃ n, ⟨.dominance, l.source, n⟩ ∈ g.edges := by
  induction h with
  | sole hr => simp
  | @split s split links top inner h below perm ih =>
    have hd := hs.divides h
    intro l hl
    obtain ⟨p, hp, rfl | hl⟩ := (mem_links_of_perm perm).mp hl
    · -- the edge from the dominator into the part leaves the fragment, so it is a dominance edge
      have htop := hd.dominator p hp
      obtain ⟨n, hn, harc⟩ := hd.arc p hp
      refine ⟨hs.fragment_subset (root_mem_of_mem_splits h) _ htop, n, ?_⟩
      refine harc.dominance_of_not_mem (k := split.root) fun hiff => ?_
      exact (Subgraph.mem_without.mp ((hd.component p hp).subset n hn)).2 (hiff.mp htop)
    · have hw := List.mem_map_of_mem (f := Part.component) hp
      obtain ⟨hsource, hedge⟩ := ih p hp (hs.of_mem_components h hw) l hl
      exact ⟨(subset_of_mem_components h hw _ hsource).1, hedge⟩

/-- **The top reaches everything.** -/
theorem Derives.reached (hg : g.isSimple = true) (hs : g.Whole s)
    (h : g.Derives s r links) : ∀ n ∈ s, ReflTransGen (g.Below links) r n := by
  induction h with
  | sole hr =>
    intro n hn
    rw [hs.eq_fragment hg hr] at hn
    have hroot := (mem_rootsIn.mp (soleRoot?_eq_some_iff.mp hr ▸ List.mem_singleton_self _)).2
    exact below_of_treePath (treePath_of_mem_fragment hg hroot hn)
  | @split s split links top inner h below perm ih =>
    have hd := hs.divides h
    have hroot := isRoot_root_of_mem_splits h
    intro n hn
    by_cases hnr : n ∈ g.fragment split.root
    · exact below_of_treePath (treePath_of_mem_fragment hg hroot hnr)
    · -- down the fragment to the dominator, over the link, and on within the part
      obtain ⟨p, hp, hnp⟩ := hd.cover n (Subgraph.mem_without.mpr ⟨hn, hnr⟩)
      have hdown : ReflTransGen (g.Below links) split.root p.dominator :=
        below_of_treePath (treePath_of_mem_fragment hg hroot (hd.dominator p hp))
      have hlink : g.Below links p.dominator (top p) :=
        .inr ((mem_links_of_perm perm).mpr ⟨p, hp, .inl rfl⟩)
      have hinner := ih p hp (hs.of_mem_components h (List.mem_map_of_mem hp)) n hnp
      refine (hdown.tail hlink).trans (below_path_mono (fun l hl => ?_) hinner)
      exact (mem_links_of_perm perm).mpr ⟨p, hp, .inr hl⟩

/-- **All constraints between different fragments are met.** -/
theorem Derives.dominated (hg : g.isWeaklyNormal = true) (hs : g.Whole s)
    (h : g.Derives s r links) {u v : Nat} (hu : u ∈ s) (hv : v ∈ s)
    (he : ⟨.dominance, u, v⟩ ∈ g.edges) (hne : v ∉ g.fragment u) :
    ReflTransGen (g.Below links) u v := by
  have hsimple := isSimple_of_isWeaklyNormal hg
  have harc : g.Arc u v := ⟨.dominance, he⟩
  induction h with
  | sole hr =>
    -- there is only one fragment
    rw [hs.eq_fragment hsimple hr] at hu hv
    rw [fragment_eq_of_mem hu] at hne
    exact absurd hv hne
  | @split s split links top inner h below perm ih =>
    have hd := hs.divides h
    by_cases hur : u ∈ g.fragment split.root
    · rw [fragment_eq_of_mem hur] at hne
      obtain ⟨p, hp, hvp⟩ := hd.cover v (Subgraph.mem_without.mpr ⟨hv, hne⟩)
      have hdom : u = p.dominator := hd.hangs p hp v hvp u hur (.inr harc)
      have hlink : g.Below links u (top p) :=
        .inr ((mem_links_of_perm perm).mpr ⟨p, hp, .inl (by rw [hdom])⟩)
      have hwhole := hs.of_mem_components h (List.mem_map_of_mem hp)
      have hinner := (below p hp).reached hsimple hwhole v hvp
      refine .head hlink (below_path_mono (fun l hl => ?_) hinner)
      exact (mem_links_of_perm perm).mpr ⟨p, hp, .inr hl⟩
    · obtain ⟨p, hp, hup⟩ := hd.cover u (Subgraph.mem_without.mpr ⟨hu, hur⟩)
      have hvr : v ∉ g.fragment split.root := by
        -- the target is a root, and no edge enters the root of a split from within
        intro hvr
        have hveq := eq_of_isRoot_of_mem_fragment hsimple (isRoot_root_of_mem_splits h)
          (isRoot_target hg he) hvr
        exact (mem_openRoots.mp (mem_splits.mp h).1).2.2 u hu (hveq ▸ harc)
      have hvp := (hd.component p hp).mem_of_joined hup (.inl harc)
        (Subgraph.mem_without.mpr ⟨hv, hvr⟩)
      have hinner := ih p hp (hs.of_mem_components h (List.mem_map_of_mem hp)) hup hvp
      refine below_path_mono (fun l hl => ?_) hinner
      exact (mem_links_of_perm perm).mpr ⟨p, hp, .inr hl⟩

end Graph

end Dominance
