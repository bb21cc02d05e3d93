import Mathlib.Data.List.Find
import Mathlib.Data.List.Nodup
import Mathlib.Data.Nat.Init
import Dominance.Proofs.Filling
import Dominance.Proofs.Tagging

/-!
# Splits, exactly

The regions of a search become the parts of a split in the order of their doors, so the split
depends on the doors and the sets of nodes only.
The door of a region is the first one that leads into it, and below one dominator the parts come in
the order of these entries.

With this the answers of the search with tags and of the search by claims are the same, and they are
what the components below the top fragment say: there is a split if each of them hangs from exactly
one node of the top fragment, by an edge down to it.

* `splitOfRegions_congr`, `below_splitOfRegions` — from regions to parts
* `find?_of_claimRegions` — the door of a region
* `query_eq` — the search with tags
* `split_is_exact` — the answer to a question, after any other questions
-/

namespace Dominance

open Relation

/-! ## From regions to parts -/

/-- The door of a region with the set of its nodes. -/
def Region.keyed (r : Region) : Link × Subgraph := (r.door, Subgraph.ofList r.nodes)

/-- Whether one door comes before another. -/
def doorLe (a b : Link × Subgraph) : Bool := a.1.le b.1

theorem pairwise_doorLe (ks : List (Link × Subgraph)) :
    (ks.mergeSort doorLe).Pairwise fun a b => doorLe a b = true :=
  List.pairwise_mergeSort (fun a b c => Link.le_trans a.1 b.1 c.1)
    (fun a b => Link.le_total a.1 b.1) ks

namespace Split

/-- Hangs components below the dominators of their doors. -/
def hang (split : Split) (ks : List (Link × Subgraph)) : Split :=
  ks.foldl (fun split k => split.attach k.1.source k.2) split

/-- A part that is placed comes after the parts with the same dominator. -/
theorem filter_place (p : Part) {qs : List Part} (h : qs.Pairwise (·.dominator ≤ ·.dominator))
    (d : Nat) : (place p qs).filter (·.dominator = d) =
      qs.filter (·.dominator = d) ++ if p.dominator = d then [p] else [] := by
  induction qs with
  | nil => simp [place, List.filter_cons]
  | cons q qs ih =>
    obtain ⟨hq, hqs⟩ := List.pairwise_cons.mp h
    unfold place
    split
    · rw [List.filter_cons, ih hqs, List.filter_cons]
      split <;> rfl
    · next hlt =>
      by_cases hp : p.dominator = d
      · -- all that follows has a greater dominator
        have hnone : (q :: qs).filter (·.dominator = d) = [] := by
          rw [List.filter_eq_nil_iff]
          intro r hr
          have hle : q.dominator ≤ r.dominator := by
            rcases List.mem_cons.mp hr with rfl | hr
            · exact Nat.le_refl _
            · exact hq r hr
          simp only [decide_eq_true_eq]
          omega
        rw [hnone, List.filter_cons_of_pos (by simpa using hp), hnone, if_pos hp, List.nil_append]
      · rw [List.filter_cons_of_neg (by simpa using hp), if_neg hp, List.append_nil]

theorem below_attach (split : Split) (d d' : Nat) (w : Subgraph) :
    (split.attach d' w).below d = split.below d ++ if d' = d then [w] else [] := by
  unfold below
  show ((place ⟨d', w⟩ split.parts).filter _).map _ = _
  rw [filter_place _ split.ordered, List.map_append]
  split <;> rfl

theorem below_hang (split : Split) (ks : List (Link × Subgraph)) (d : Nat) :
    (split.hang ks).below d = split.below d ++ (ks.filter (·.1.source = d)).map (·.2) := by
  induction ks generalizing split with
  | nil => simp [hang]
  | cons k ks ih =>
    show ((split.attach k.1.source k.2).hang ks).below d = _
    rw [ih, below_attach, List.append_assoc]
    by_cases hk : k.1.source = d
    · simp [hk]
    · simp [hk]

end Split

namespace Graph

variable {g : Graph} {s top : Subgraph} {root : Nat} {regions regions' : List Region}

/-- A split depends on the doors and the sets of nodes of its regions. -/
theorem splitOfRegions_eq (root : Nat) (regions : List Region) :
    splitOfRegions root regions =
      (Split.bare root).hang ((regions.map Region.keyed).mergeSort doorLe) := by
  have hkeyed : (regions.mergeSort fun a b => a.door.le b.door).map Region.keyed
      = (regions.map Region.keyed).mergeSort doorLe := List.map_mergeSort fun _ _ _ _ => rfl
  rw [splitOfRegions, sortBy_door, ← hkeyed, Split.hang, List.foldl_map]
  rfl

/-- **The order in which the regions were found makes no difference**, if their doors are
different. -/
theorem splitOfRegions_congr (hnodup : (regions.map Region.door).Nodup)
    (hperm : (regions.map Region.keyed).Perm (regions'.map Region.keyed)) :
    splitOfRegions root regions = splitOfRegions root regions' := by
  have hsame : ∀ a ∈ regions.map Region.keyed, ∀ b ∈ regions.map Region.keyed,
      a.1 = b.1 → a = b := by
    intro a ha b hb hab
    obtain ⟨r, hr, rfl⟩ := List.mem_map.mp ha
    obtain ⟨r', hr', rfl⟩ := List.mem_map.mp hb
    rw [List.inj_on_of_nodup_map hnodup hr hr' hab]
  rw [splitOfRegions_eq, splitOfRegions_eq]
  congr 1
  refine List.Perm.eq_of_pairwise ?_ (pairwise_doorLe _) (pairwise_doorLe _)
    ((List.mergeSort_perm _ _).trans (hperm.trans (List.mergeSort_perm _ _).symm))
  intro a b ha hb hab hba
  rw [List.mem_mergeSort] at ha hb
  exact hsame a ha b (hperm.mem_iff.mpr hb) (Link.le_antisymm hab hba)

/-- **The components below a dominator, in the order of their doors.** -/
theorem below_splitOfRegions (root d : Nat) (regions : List Region) :
    (splitOfRegions root regions).below d =
      (((regions.map Region.keyed).mergeSort doorLe).filter (·.1.source = d)).map (·.2) := by
  rw [splitOfRegions_eq, Split.below_hang]
  rfl

/-! ## Doors of regions -/

/-- The regions have different doors, because each holds its own entry. -/
theorem Claimed.nodup_doors {doors : List Link} {supply : List Nat}
    (h : g.Claimed top doors supply regions) : (regions.map Region.door).Nodup := by
  rw [List.Nodup, List.pairwise_map]
  refine h.disjoint.imp_of_mem fun {r r'} hr hr' hdisjoint heq => ?_
  have hentry : r.door.target ∈ r.nodes := (h.nodes r hr _).mpr .refl
  have hentry' : r'.door.target ∈ r'.nodes := (h.nodes r' hr' _).mpr .refl
  exact hdisjoint _ hentry (heq ▸ hentry')

/-- **The door of a region is the first one that leads into it.** -/
theorem find?_of_claimRegions {doors : List Link} {supply : List Nat}
    (h : g.claimRegions top doors supply = some regions) :
    ∀ r ∈ regions, doors.find? (fun door => door.target ∈ r.nodes) = some r.door := by
  induction doors generalizing supply regions with
  | nil =>
    cases supply with
    | nil =>
      cases h
      simp
    | cons n supply => cases h
  | cons door doors ih =>
    -- what is claimed from a supply without the target of the door does not hold this target
    have hskip : ∀ {rest later}, g.claimRegions top doors rest = some later →
        door.target ∉ rest → ∀ r ∈ later,
          (door :: doors).find? (fun door => door.target ∈ r.nodes) = some r.door := by
      intro rest later hlater hnot r hr
      have hclaimed := claimed_of_claimRegions hlater
      have hmem : door.target ∉ r.nodes := fun hmem =>
        hnot (mem_of_path (hclaimed.entry r hr) ((hclaimed.nodes r hr _).mp hmem))
      rw [List.find?_cons_of_neg (by simpa using hmem)]
      exact ih hlater r hr
    rw [claimRegions] at h
    split at h
    · next he =>
      obtain ⟨hreached, hrest, -⟩ := reachFrom_filter (g := g) he
      simp only at h
      generalize reachFrom g.neighbours door.target (supply.filter (· ≠ door.target)) = reach at *
      split at h
      · obtain ⟨later, hlater, rfl⟩ := Option.map_eq_some_iff.mp h
        intro r hr
        rcases List.mem_cons.mp hr with rfl | hr
        · exact List.find?_cons_of_pos (by simpa using (hreached _).mpr .refl)
        · exact hskip hlater (fun hmem => ((hrest _).mp hmem).2 .refl) r hr
      · cases h
    · next he => exact hskip h he

/-- The doors of one dominator, in the order of its edges. -/
theorem filter_doors {d : Nat} (hd : d ∈ top) :
    (g.doors top).filter (·.source = d) = (g.successors d).map fun e => ⟨d, e⟩ := by
  have hgroup : ∀ d', ((g.successors d').map fun e => (⟨d', e⟩ : Link)).filter (·.source = d) =
      if d' = d then (g.successors d).map fun e => ⟨d, e⟩ else [] := by
    intro d'
    by_cases heq : d' = d
    · subst heq
      simp
    · simp [heq]
  have hgather : ∀ ds : List Nat, ds.Nodup → d ∈ ds →
      (ds.flatMap fun d' => if d' = d then (g.successors d).map fun e => (⟨d, e⟩ : Link) else []) =
        (g.successors d).map fun e => ⟨d, e⟩ := by
    intro ds hnodup hmem
    induction ds with
    | nil => cases hmem
    | cons d' ds ih =>
      obtain ⟨hnot, hnodup⟩ := List.nodup_cons.mp hnodup
      rw [List.flatMap_cons]
      by_cases heq : d' = d
      · subst heq
        rw [if_pos rfl, List.flatMap_eq_nil_iff.mpr, List.append_nil]
        intro d'' hd''
        exact if_neg (by rintro rfl; exact hnot hd'')
      · rw [if_neg heq, List.nil_append, ih hnodup]
        exact (List.mem_cons.mp hmem).resolve_left (Ne.symm heq)
  rw [doors, List.filter_flatMap]
  simp only [hgroup]
  exact hgather top.ids top.nodup_ids hd

/-- The first target, among the edges out of a node in the order of insertion, that lies in a
subgraph. -/
def firstTarget? (g : Graph) (d : Nat) (w : Subgraph) : Option Nat :=
  (g.successors d).find? w.contains

/-- **The entry of a region is the first target of its dominator that lies in it.** -/
theorem firstTarget?_of_claimRegions {supply : List Nat}
    (h : g.claimRegions top (g.doors top) supply = some regions) {r : Region} (hr : r ∈ regions) :
    g.firstTarget? r.door.source (Subgraph.ofList r.nodes) = some r.door.target := by
  have hclaimed := claimed_of_claimRegions h
  have hsource := (mem_doors.mp (hclaimed.door r hr)).1
  have hhangs := hangsFrom_iff.mp (hclaimed.hangs r hr)
  have hfind := find?_of_claimRegions h r hr
  -- all doors into the region belong to its dominator
  have hsame : (g.doors top).find? (fun door => door.target ∈ r.nodes) =
      ((g.doors top).filter (·.source = r.door.source)).find?
        (fun door => door.target ∈ r.nodes) := by
    rw [List.find?_filter]
    refine List.find?_congr fun door hdoor => ?_
    by_cases hmem : door.target ∈ r.nodes
    · have hdominator : door.source = r.door.source :=
        hhangs _ hmem _ (mem_doors.mp hdoor).1 (.inr (mem_doors.mp hdoor).2)
      simp [hmem, hdominator]
    · simp [hmem]
  rw [hsame, filter_doors hsource, List.find?_map, Option.map_eq_some_iff] at hfind
  obtain ⟨e, he, heq⟩ := hfind
  have htarget : r.door.target = e := by rw [← heq]
  rw [firstTarget?, htarget, ← he]
  refine List.find?_congr fun k _ => ?_
  simp [Subgraph.contains]

end Graph

/-! ## The search with tags -/

theorem nodup_eraseDups {α : Type} [DecidableEq α] (as : List α) : as.eraseDups.Nodup := by
  induction hn : as.length using Nat.strong_induction_on generalizing as with
  | _ n ih =>
    cases as with
    | nil => simp
    | cons a as =>
      have hlt : (as.filter fun b => !b == a).length < n := by
        rw [← hn, List.length_cons]
        exact Nat.lt_succ_of_le (List.length_filter_le _ _)
      rw [List.eraseDups_cons, List.nodup_cons, List.mem_eraseDups]
      exact ⟨by simp, ih _ hlt _ rfl⟩

namespace Scratch

variable {g : Graph} {s top : Subgraph} {supply : List Nat}
  {regions : List Region} {x : Scratch g.size}

/-- A question starts with the top marked and nothing tagged. -/
theorem matches_start (hsub : ∀ n ∈ top, n < g.size) :
    Matches g s top (s.without top).ids [] ((fresh g.size).markTop top) := by
  have htag : ∀ n, ((fresh g.size).markTop top).tag? n = none := tag?_fresh g.size
  refine ⟨fun _ => isTop_markTop hsub, rfl, ⟨?_, ?_⟩, ?_, ?_, by simp⟩
  · exact fun n hn => Subgraph.mem_without.mp hn
  · exact fun _ _ m hs hnot _ => Subgraph.mem_without.mpr ⟨hs, hnot⟩
  · intro n hs hnot
    simp [htag, hs, hnot]
  · intro n _ _ tag
    simp [htag]

/-- The ground below the top, as the marks show it. -/
theorem Matches.mem_ground (hx : Matches g s top supply regions x) {n : Nat} :
    n ∈ (s.ids.filter fun n => !x.isTop n) ↔ n ∈ s ∧ n ∉ top := by
  rw [List.mem_filter, Subgraph.mem_ids, Bool.not_eq_true', ← Bool.not_eq_true, hx.isTop]

/-- Ground that is left makes the answer fail. -/
theorem Matches.regions?_eq_none (hx : Matches g s top supply regions x) (hne : supply ≠ []) :
    x.regions? (s.ids.filter fun n => !x.isTop n) = none := by
  obtain ⟨n, hn⟩ := List.exists_mem_of_ne_nil supply hne
  obtain ⟨hs, hnot⟩ := hx.secluded.mem n hn
  have hground := hx.mem_ground.mpr ⟨hs, hnot⟩
  have htag := (hx.untagged n hs hnot).mpr hn
  unfold regions?
  rw [if_neg]
  intro hall
  have hsome := List.all_eq_true.mp hall n hground
  simp [htag] at hsome

/-- If nothing is left, the nodes with the tag of a region are the nodes of the region. -/
theorem Matches.mem_nodes_iff (hx : Matches g s top [] regions x)
    (hclaimed : g.Claimed top (g.doors top) (s.without top).ids regions) {r : Region}
    (hr : r ∈ regions) {n : Nat} :
    (n ∈ (s.ids.filter fun n => !x.isTop n) ∧ x.tag? n = some r.door) ↔ n ∈ r.nodes := by
  rw [hx.mem_ground]
  constructor
  · rintro ⟨⟨hs, hnot⟩, hdoor⟩
    obtain ⟨r', hr', hsame, hmem⟩ := (hx.tagged n hs hnot _).mp hdoor
    rwa [List.inj_on_of_nodup_map hclaimed.nodup_doors hr' hr hsame] at hmem
  · intro hmem
    have hsupply := mem_of_path (hclaimed.entry r hr) ((hclaimed.nodes r hr n).mp hmem)
    obtain ⟨hs, hnot⟩ := Subgraph.mem_without.mp hsupply
    exact ⟨⟨hs, hnot⟩, (hx.tagged n hs hnot _).mpr ⟨r, hr, rfl, hmem⟩⟩

/-- If nothing is left, the tags are the doors of the regions. -/
theorem Matches.mem_tags_iff (hx : Matches g s top [] regions x)
    (hclaimed : g.Claimed top (g.doors top) (s.without top).ids regions) {door : Link} :
    door ∈ (s.ids.filter fun n => !x.isTop n).filterMap x.tag? ↔ ∃ r ∈ regions, r.door = door := by
  rw [List.mem_filterMap]
  constructor
  · rintro ⟨n, hn, hdoor⟩
    obtain ⟨hs, hnot⟩ := hx.mem_ground.mp hn
    obtain ⟨r, hr, hsame, -⟩ := (hx.tagged n hs hnot _).mp hdoor
    exact ⟨r, hr, hsame⟩
  · rintro ⟨r, hr, rfl⟩
    exact ⟨r.door.target, (hx.mem_nodes_iff hclaimed hr).mpr ((hclaimed.nodes r hr _).mpr .refl)⟩

/-- **If nothing is left, the tags give the claimed regions back**, apart from their order. -/
theorem Matches.regions?_eq_some (hx : Matches g s top [] regions x)
    (hclaimed : g.Claimed top (g.doors top) (s.without top).ids regions) :
    ∃ regions', x.regions? (s.ids.filter fun n => !x.isTop n) = some regions'
      ∧ (regions.map Region.keyed).Perm (regions'.map Region.keyed) := by
  have hkey : ∀ r ∈ regions, Subgraph.ofList ((s.ids.filter fun n => !x.isTop n).filter fun n =>
      x.tag? n = some r.door) = Subgraph.ofList r.nodes := by
    intro r hr
    ext n
    rw [Subgraph.mem_ofList, Subgraph.mem_ofList, List.mem_filter, decide_eq_true_eq]
    exact hx.mem_nodes_iff hclaimed hr
  refine ⟨_, if_pos ?_, ?_⟩
  · rw [List.all_eq_true]
    intro n hn
    obtain ⟨hs, hnot⟩ := hx.mem_ground.mp hn
    rw [Option.isSome_iff_ne_none, Ne, hx.untagged n hs hnot]
    exact List.not_mem_nil
  · rw [List.map_map]
    -- on both sides the doors are different, so it is enough to compare members
    refine (List.perm_ext_iff_of_nodup (.of_map Prod.fst ?_) (.of_map Prod.fst ?_)).mpr fun k => ?_
    · rw [List.map_map]
      exact hclaimed.nodup_doors
    · rw [List.map_map]
      show (List.map id _).Nodup
      rw [List.map_id]
      exact nodup_eraseDups _
    · simp only [List.mem_map, Function.comp_apply, Region.keyed, List.mem_eraseDups,
        hx.mem_tags_iff hclaimed]
      constructor
      · rintro ⟨r, hr, rfl⟩
        exact ⟨r.door, ⟨r, hr, rfl⟩, by rw [hkey r hr]⟩
      · rintro ⟨_, ⟨r, hr, rfl⟩, rfl⟩
        exact ⟨r, hr, by rw [hkey r hr]⟩

/-- **The search with tags and the search by claims give the same answer**, whatever marks an
earlier search left behind. -/
theorem query_eq (x : Scratch g.size) (root : Nat) (hs : ∀ n ∈ s, n < g.size) :
    (x.query g root s).1 = g.freeSplit? root s := by
  have hsub : ∀ n ∈ g.topOf root s, n ∈ s := fun n hn => (Graph.mem_topOf.mp hn).2
  have hstart : Matches g s (g.topOf root s) (s.without (g.topOf root s)).ids []
      ((fresh g.size).markTop (g.topOf root s)) := matches_start fun n hn => hs n (hsub n hn)
  have hdoors := hstart.attempt_enter hsub (g.doors (g.topOf root s))
    fun door hdoor => Graph.mem_doors.mp hdoor
  unfold query
  rw [wipe_eq]
  show _ = (g.claimRegions (g.topOf root s) (g.doors (g.topOf root s))
    (s.without (g.topOf root s)).ids).map (Graph.splitOfRegions root)
  cases hclaims : g.claimRegions (g.topOf root s) (g.doors (g.topOf root s))
      (s.without (g.topOf root s)).ids with
  | some regions =>
    have hclaimed := Graph.claimed_of_claimRegions hclaims
    rw [hclaims] at hdoors
    obtain ⟨x', hattempt, hx'⟩ := hdoors
    obtain ⟨regions', hregions, hperm⟩ := hx'.regions?_eq_some hclaimed
    simp only [hattempt, hregions, Option.map_some]
    rw [Graph.splitOfRegions_congr hclaimed.nodup_doors hperm]
  | none =>
    rw [hclaims] at hdoors
    rcases hdoors with hfail | ⟨x', supply', regions', hattempt, hx', hne⟩
    · simp only [Option.map_none]
      split
      · next hok =>
        rw [hok] at hfail
        cases hfail
      · rfl
    · simp only [hattempt, hx'.regions?_eq_none hne]

/-- The same for numbers from outside. -/
theorem queryOf_eq (x : Scratch g.size) (root : Nat) (s : Subgraph) :
    (x.queryOf g root s).1 = g.freeSplitOf root s := by
  have hquery := x.query_eq root (s := s.filter (· < g.size)) fun n hn => by
    simpa using (Subgraph.mem_filter.mp hn).2
  unfold queryOf Graph.freeSplitOf
  split
  · rw [← hquery]
    split
    · next heq => rw [heq]
    · next heq => rw [heq]
  · rfl

end Scratch

/-! ## The answer -/

namespace Graph

variable {g : Graph} {s top w : Subgraph} {root : Nat} {split : Split}

/-- A component hangs below a node of the top: this is the only node of the top that edges join to
it, and one of them leads down. -/
structure HangsBelow (g : Graph) (top : Subgraph) (d : Nat) (w : Subgraph) : Prop where
  dominator : d ∈ top
  sole : ∀ m ∈ top, (∃ n ∈ w, g.Joined n m) ↔ m = d
  arc : ∃ n ∈ w, g.Arc d n

theorem nodup_componentsOf (g : Graph) (s : Subgraph) : (g.componentsOf s).Nodup := by
  refine (pairwise_components g.mutual_neighbours s.nodup_ids).imp_of_mem ?_
  intro v w hv _ hdisjoint heq
  obtain ⟨n, hn⟩ := (mem_componentsOf.mp hv).nonempty
  exact hdisjoint n hn (heq ▸ hn)

namespace Divides

variable {parts : List Part}

theorem hangsBelow (h : g.Divides top s parts) {p : Part} (hp : p ∈ parts) :
    g.HangsBelow top p.dominator p.component := by
  obtain ⟨n, hn, harc⟩ := h.arc p hp
  refine ⟨h.dominator p hp, fun m hm => ⟨?_, ?_⟩, n, hn, harc⟩
  · rintro ⟨k, hk, hj⟩
    exact h.hangs p hp k hk m hm hj
  · rintro rfl
    exact ⟨n, hn, .inr harc⟩

/-- The parts hold every component once. -/
theorem perm_componentsOf (h : g.Divides top s parts) :
    (parts.map (·.component)).Perm (g.componentsOf (s.without top)) := by
  have hnodup : (parts.map (·.component)).Nodup := by
    rw [List.Nodup, List.pairwise_map]
    refine h.disjoint.imp_of_mem fun {p q} hp _ hdisjoint heq => ?_
    obtain ⟨n, hn⟩ := (h.component p hp).nonempty
    exact hdisjoint n hn (heq ▸ hn)
  refine (List.perm_ext_iff_of_nodup hnodup (g.nodup_componentsOf _)).mpr fun w => ?_
  rw [mem_componentsOf, List.mem_map]
  constructor
  · rintro ⟨p, hp, rfl⟩
    exact h.component p hp
  · intro hw
    obtain ⟨n, hn⟩ := hw.nonempty
    obtain ⟨p, hp, hnp⟩ := h.cover n (hw.subset n hn)
    exact ⟨p, hp, (h.component p hp).eq_of_mem hw hnp hn⟩

end Divides

/-- **There is a split exactly if every component below the top hangs below one node of the
top.** -/
theorem freeSplit?_isSome_iff : (g.freeSplit? root s).isSome = true ↔
    ∀ w ∈ g.componentsOf (s.without (g.topOf root s)), ∃ d, g.HangsBelow (g.topOf root s) d w := by
  rw [Option.isSome_iff_exists]
  constructor
  · rintro ⟨split, hsplit⟩ w hw
    obtain ⟨-, hdivides⟩ := divides_of_freeSplit? hsplit
    obtain ⟨p, hp, rfl⟩ := List.mem_map.mp (hdivides.perm_componentsOf.mem_iff.mpr hw)
    exact ⟨p.dominator, hdivides.hangsBelow hp⟩
  · intro h
    refine exists_freeSplit? fun w hw => ?_
    obtain ⟨d, hd⟩ := h w (mem_componentsOf.mpr hw)
    exact ⟨d, hd.dominator, hd.arc, fun n hn m hm hj => (hd.sole m hm).mp ⟨n, hn, hj⟩⟩

/-- **Below one dominator the components come in the order of their entries.** -/
theorem pairwise_below (h : g.freeSplit? root s = some split) (d : Nat) :
    (split.below d).Pairwise fun v w =>
      ∃ a b, g.firstTarget? d v = some a ∧ g.firstTarget? d w = some b ∧ a < b := by
  obtain ⟨regions, hclaims, rfl⟩ := Option.map_eq_some_iff.mp h
  have hnodup := (claimed_of_claimRegions hclaims).nodup_doors
  have hkeyed : ((regions.map Region.keyed).mergeSort doorLe).Pairwise fun a b => a.1 ≠ b.1 := by
    have hperm := (List.mergeSort_perm (regions.map Region.keyed) doorLe).map Prod.fst
    rw [← List.pairwise_map (R := (· ≠ ·))]
    refine hperm.nodup_iff.mpr ?_
    rw [List.map_map]
    exact hnodup
  have hfirst : ∀ k ∈ (regions.map Region.keyed).mergeSort doorLe,
      g.firstTarget? k.1.source k.2 = some k.1.target := by
    intro k hk
    obtain ⟨r, hr, rfl⟩ := List.mem_map.mp (List.mem_mergeSort.mp hk)
    exact firstTarget?_of_claimRegions hclaims hr
  rw [below_splitOfRegions, List.pairwise_map]
  refine List.Pairwise.imp_of_mem ?_ (((pairwise_doorLe _).and hkeyed).filter _)
  rintro a b ha hb ⟨hle, hne⟩
  rw [List.mem_filter, decide_eq_true_eq] at ha hb
  have hfa := hfirst a ha.1
  have hfb := hfirst b hb.1
  rw [ha.2] at hfa
  rw [hb.2] at hfb
  refine ⟨_, _, hfa, hfb, ?_⟩
  by_contra hge
  have hback : b.1.le a.1 = true :=
    Link.le_iff.mpr (.inr ⟨hb.2.trans ha.2.symm, Nat.le_of_not_lt hge⟩)
  exact hne (Link.le_antisymm hle hback)

/--
**The split of a subgraph, exactly.**

Let some questions about splits be asked with the same marks, whatever the answers were. The answer
to the next one does not depend on them; it is the answer that the search by claims gives. There is
a split if and only if each component of the subgraph without the top fragment hangs below exactly
one node of the top. The split has the given root, and lists these components, each once and with
the node that it hangs below, so that they divide what lies below the top. The components below one
node are ordered by the first target among the edges of this node that lies in them.
-/
theorem split_is_exact (hs : ∀ n ∈ s, n < g.size) (earlier : List (Nat × Subgraph)) (root : Nat) :
    let answer := ((Scratch.afterQueries g earlier).query g root s).1
    let top := g.topOf root s
    answer = g.freeSplit? root s
      ∧ (answer.isSome = true ↔ ∀ w ∈ g.componentsOf (s.without top), ∃ d, g.HangsBelow top d w)
      ∧ ∀ split, answer = some split →
          split.root = root
          ∧ split.components.Perm (g.componentsOf (s.without top))
          ∧ (∀ p ∈ split.parts, g.HangsBelow top p.dominator p.component)
          ∧ split.components.Pairwise (fun v w => ∀ n ∈ v, n ∉ w)
          ∧ (∀ n, n ∈ s.without top ↔ ∃ w ∈ split.components, n ∈ w)
          ∧ ∀ d, (split.below d).Pairwise fun v w =>
              ∃ a b, g.firstTarget? d v = some a ∧ g.firstTarget? d w = some b ∧ a < b := by
  intro answer top
  have hanswer : answer = g.freeSplit? root s := Scratch.query_eq _ root hs
  refine ⟨hanswer, ?_, fun split hsplit => ?_⟩
  · rw [hanswer]
    exact freeSplit?_isSome_iff
  · rw [hanswer] at hsplit
    obtain ⟨hroot, hdivides⟩ := divides_of_freeSplit? hsplit
    refine ⟨hroot, hdivides.perm_componentsOf, fun p hp => hdivides.hangsBelow hp, ?_, ?_,
      pairwise_below hsplit⟩
    · exact List.pairwise_map.mpr hdivides.disjoint
    · intro n
      constructor
      · intro hn
        obtain ⟨p, hp, hnp⟩ := hdivides.cover n hn
        exact ⟨p.component, List.mem_map_of_mem hp, hnp⟩
      · rintro ⟨w, hw, hn⟩
        obtain ⟨p, hp, rfl⟩ := mem_components.mp hw
        exact (hdivides.component p hp).subset n hn

/-- A fragment with components below both of its nodes, where the edges were not inserted in the
order of their targets, and with an edge back into it. The fragment of `w` is not free, because two
of its nodes lead to the same component. -/
def spreading : Graph :=
  build [("x", some "f"), ("xh", none), ("y", some "a"), ("z", some "b"), ("u", some "c"),
      ("v", some "d"), ("w", some "g"), ("wh", none)]
    [⟨.tree, 0, 1⟩, ⟨.tree, 6, 7⟩, ⟨.dominance, 1, 5⟩, ⟨.dominance, 5, 2⟩, ⟨.dominance, 1, 2⟩,
      ⟨.dominance, 1, 3⟩, ⟨.dominance, 3, 3⟩, ⟨.dominance, 2, 1⟩, ⟨.dominance, 0, 4⟩,
      ⟨.dominance, 6, 4⟩, ⟨.dominance, 7, 4⟩]

theorem split_is_exact_spreading :
    spreading.freeSplit? 6 (.range 8) = none
      ∧ ∃ split, ((Scratch.afterQueries spreading [(6, .range 8)]).query spreading 0 (.range 8)).1 =
            some split
          ∧ split.root = 0 ∧ split.below 1 = [.ofList [3], .ofList [2, 5]]
          ∧ split.components.Perm
              (spreading.componentsOf ((Subgraph.range 8).without (spreading.topOf 0 (.range 8))))
          ∧ ∀ p ∈ split.parts,
              spreading.HangsBelow (spreading.topOf 0 (.range 8)) p.dominator p.component := by
  have hs : ∀ n ∈ (Subgraph.range 8).ids, n < spreading.size := by decide +kernel
  obtain ⟨heq, -, hexact⟩ := split_is_exact hs [(6, .range 8)] 0
  have hbelow : (spreading.freeSplit? 0 (.range 8)).map (·.below 1) =
      some [.ofList [3], .ofList [2, 5]] := by
    decide +kernel
  obtain ⟨split, hsplit, hbelow⟩ := Option.map_eq_some_iff.mp hbelow
  obtain ⟨hroot, hperm, hhangs, -⟩ := hexact split (heq.trans hsplit)
  exact ⟨by decide +kernel, split, heq.trans hsplit, hroot, hbelow, hperm, hhangs⟩

end Graph

end Dominance
