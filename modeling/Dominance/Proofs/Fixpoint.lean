import Dominance.Proofs.Completeness
import Dominance.Proofs.Exhaustion
import Dominance.Proofs.Survival

/-!
# Solved forms solve themselves

The graph of a solved form is a forest, and a forest is its own solution.
So every connected part of it has one node on top, and the components below the topmost fragment
hang from one node each, because only one edge leads into each of them.
Hence the graph is solvable, and as no node has two edges above it, every link that solving it again
can come up with is an edge that is there already.

* `exists_split_of_forest`, `solvable_of_forest` — a weakly normal forest can be split all the way
* `Derives.arc` — the links of a derivation in a forest are edges of it
* `Realizes.eq_of_arranged` — the graph of a solved form has no other solved form
* `solved_forms_are_fixpoints` — solving the graph of a solved form yields that solved form only
-/

namespace Dominance.Graph

open Relation

variable {g s : Graph} {f f' : SolvedForm} {t w : Subgraph} {m r : Nat} {links : List Link}
  {top top' : Subgraph → Nat} {inner inner' : Subgraph → List Link}

/-! ## Forests -/

/-- A forest is its own solution. -/
theorem solves_self (hsingle : ∀ n, (g.incoming n).length ≤ 1)
    (hacyclic : ∀ n, ¬TransGen g.Arc n n) : g.Solves g where
  tree _ _ := Iff.rfl
  single := hsingle
  acyclic := hacyclic
  dominated e he := by
    obtain ⟨he, hkind⟩ := mem_dominanceEdges.mp he
    exact reaches_iff.mpr (.single ⟨e.kind, he⟩)

/-- The only edge from the topmost fragment of a forest to a part below leads to the top of the
part. -/
theorem eq_top_of_arc (hg : g.isSimple = true) (h : g.Solves g) (ht : g.Whole t)
    (hm : g.IsTop t m) (hw : ∀ n ∈ w, n ∈ t ∧ n ∉ g.fragment m) {x : Nat} (hx : g.IsTop w x)
    {a n : Nat} (ha : a ∈ g.fragment m) (hn : n ∈ w) (harc : g.Arc a n) : n = x := by
  rcases (singleAbove_arc h.single).path_above (hx.2 n hn) harc with heq | hxa
  · exact heq.symm
  · -- otherwise the top of the part would lie within the fragment
    have htree := treePath_of_mem_fragment hg (h.isRoot_top ht hm) ha
    have hbetween := h.treePath_of_between htree (hm.2 x (hw x hx.1).1) hxa
    have hmem := mem_fragment_symm (mem_fragment_of_treePath hbetween)
    rw [fragment_eq_of_mem ha] at hmem
    exact absurd hmem (hw x hx.1).2

/-- **The topmost fragment of a part of a weakly normal forest is free.** -/
theorem exists_split_of_forest (hg : g.isWeaklyNormal = true) (h : g.Solves g) (ht : g.Whole t) :
    ∃ split, split ∈ g.splits t := by
  have hsimple := isSimple_of_isWeaklyNormal hg
  obtain ⟨m, hm⟩ := h.exists_top ht
  have hopen : m ∈ g.openRoots t :=
    mem_openRoots.mpr ⟨h.isRoot_top ht hm, hm.1, fun n hn harc =>
      h.acyclic n (TransGen.head' harc (hm.2 n hn))⟩
  obtain ⟨split, hsplit, -⟩ := exists_split hg ht hopen fun w hw => by
    have hbelow : ∀ n ∈ w, n ∈ t ∧ n ∉ g.fragment m :=
      fun n hn => Subgraph.mem_without.mp (hw.subset n hn)
    obtain ⟨x, hx⟩ := h.exists_top (ht.of_component hw)
    have harc : ∀ n ∈ w, ∀ a ∈ g.fragment m, g.Joined n a → g.Arc a x := by
      intro n hn a ha hj
      have han := arc_of_joined_fragment hg hopen (hbelow n hn).1 (hbelow n hn).2 ha hj
      exact eq_top_of_arc hsimple h ht hm hbelow hx ha hn han ▸ han
    obtain ⟨n, hn, d, hd, hj⟩ := exists_joined_fragment ht hm.1 hw
    exact ⟨d, fun n' hn' a ha hj' =>
      singleAbove_arc h.single (harc n' hn' a ha hj') (harc n hn d hd hj)⟩
  exact ⟨split, hsplit⟩

theorem solvable_of_forest (hg : g.isWeaklyNormal = true) (h : g.Solves g) (ht : g.Whole t) :
    g.Solvable t := by
  induction hsize : t.size using Nat.strongRecOn generalizing t with
  | _ size ih =>
    obtain ⟨split, hsplit⟩ := exists_split_of_forest hg h ht
    refine .split hsplit fun w hw => ih w.size ?_ (ht.of_mem_components hsplit hw) rfl
    exact hsize ▸ size_lt_of_mem_components hsplit hw

/-! ## Derivations in forests -/

/--
**The links of a derivation in a forest are edges of the forest.**

By induction on the derivation.
An edge leads from the dominator of a part to some node of the part, which the top of the part
reaches within the part.
If this node were not the top itself, a second edge would enter it.
-/
theorem Derives.arc (hg : g.isSimple = true) (hsingle : ∀ n, (g.incoming n).length ≤ 1)
    (ht : g.Whole t) (h : g.Derives t r links) : ∀ l ∈ links, g.Arc l.source l.target := by
  induction h with
  | sole => simp
  | @split t split links top inner h below perm ih =>
    have hd := ht.divides h
    intro l hl
    obtain ⟨p, hp, rfl | hl⟩ := (mem_links_of_perm perm).mp hl
    · have hwhole := ht.of_mem_components h (List.mem_map_of_mem hp)
      obtain ⟨n, hn, harc⟩ := hd.arc p hp
      have hpath := (below p hp).reached hg hwhole n hn
      rcases ReflTransGen.cases_tail hpath with rfl | ⟨k, -, hkn⟩
      · exact harc
      · have hk : k ∈ p.component ∧ g.Arc k n := by
          rcases hkn with htree | hlink
          · exact ⟨hwhole.closed n hn k (.inr htree), htree.arc⟩
          · exact ⟨((below p hp).source_mem hwhole _ hlink).1, ih p hp hwhole _ hlink⟩
        have heq : k = p.dominator := singleAbove_arc hsingle hk.2 harc
        have hout := (Subgraph.mem_without.mp ((hd.component p hp).subset k hk.1)).2
        exact absurd (heq ▸ hd.dominator p hp) hout
    · exact ih p hp (ht.of_mem_components h (List.mem_map_of_mem hp)) l hl

/-- No edge enters the top of a derivation in a forest. -/
theorem Derives.not_arc_top (hg : g.isSimple = true) (h : g.Solves g) (hw : w ∈ g.wholeComponents)
    (hder : g.Derives w r links) (k : Nat) : ¬g.Arc k r := by
  intro harc
  have hwhole := whole_of_mem_wholeComponents hw
  have hk : k ∈ w := (mem_componentsOf.mp hw).mem_of_joined hder.isRoot_top.1 (.inr harc)
    (Subgraph.mem_range.mpr harc.source_lt)
  have hpath : ReflTransGen g.Arc r k :=
    ReflTransGen.mono (fun _ _ hab => hab.elim TreeArc.arc (hder.arc hg h.single hwhole _)) _ _
      (hder.reached hg hwhole k hk)
  exact h.acyclic k (TransGen.head' harc hpath)

/-! ## The graph of a solved form -/

namespace Realizes

theorem solves_self (hg : g.isSimple = true) (h : s.Realizes g f)
    (ha : g.Arranged f.links top inner) : s.Solves s :=
  Graph.solves_self (h.length_incoming_le hg ha) (h.acyclic hg ha)

/-- **The graph of a solved form has no other solved form.** -/
theorem eq_of_arranged (hg : g.isSimple = true) (h : s.Realizes g f)
    (ha : g.Arranged f.links top inner) (ha' : s.Arranged f'.links top' inner') : f' = f := by
  have hs : s.isSimple = true := h.isSimple ▸ hg
  have hself := h.solves_self hg ha
  have hnodup := (ha.targets hg).1.of_map _
  have hnodup' := (ha'.targets hs).1.of_map _
  have harc' : ∀ l ∈ f'.links, s.Arc l.source l.target := by
    intro l hl
    obtain ⟨w, hw, hlw⟩ := ha'.mem_links_iff.mp hl
    exact (ha'.derives w hw).arc hs hself.single (whole_of_mem_wholeComponents hw) l hlw
  refine SolvedForm.eq_of_perm ((List.perm_ext_iff_of_nodup hnodup' hnodup).mpr fun l => ?_)
  constructor
  · intro hl
    obtain ⟨w, hw, hlw⟩ := ha'.mem_links_iff.mp hl
    have hroot := ((ha'.derives w hw).target_mem hs (whole_of_mem_wholeComponents hw) hlw).2
    rw [h.isRoot] at hroot
    exact (h.arc_iff.mp (harc' l hl)).resolve_left ((isRoot_iff.mp hroot).2 _)
  · -- the target of a link is no top, so that a link of the other solved form enters it as well
    intro hl
    have harc : s.Arc l.source l.target := h.arc_iff.mpr (.inr hl)
    obtain ⟨w, hw, hlw⟩ := exists_mem_wholeComponents harc.target_lt
    have hroot : s.isRoot l.target = true := by
      obtain ⟨v, hv, hlv⟩ := ha.mem_links_iff.mp hl
      rw [h.isRoot]
      exact ((ha.derives v hv).target_mem hg (whole_of_mem_wholeComponents hv) hlv).2
    have htop : l.target ≠ top' w := fun heq =>
      (ha'.derives w hw).not_arc_top hs hself hw l.source (heq ▸ harc)
    obtain ⟨l', hl', heq⟩ :=
      List.mem_map.mp (((ha'.targets hs).2 l.target w hw hlw).mpr ⟨hroot, htop⟩)
    have hsource := singleAbove_arc hself.single (heq ▸ harc' l' hl') harc
    have hll : l' = l := by
      cases l'
      cases l
      rw [Link.mk.injEq]
      exact ⟨hsource, heq⟩
    exact hll ▸ hl'

end Realizes

/--
**Solving the graph of a solved form yields that solved form only.**

Every solved form that is enumerated for a simple graph makes a weakly normal graph that is solvable
again. Its chart counts one solved form, and the one that is enumerated is the one before.
-/
theorem solved_forms_are_fixpoints (hg : g.isSimple = true) {c : Chart} (hc : g.solve? = some c)
    {n : Nat} {f : SolvedForm} (hf : f ∈ ((Readings.start g c).take n).1) :
    ∃ s c', g.withSolvedForm f = .ok s ∧ s.isWeaklyNormal = true ∧ s.solve? = some c'
      ∧ c'.count.1 = 1 ∧ (Readings.start s c').rest.1 = [f] := by
  obtain ⟨hsolved, rfl⟩ := solve?_eq_some_iff.mp hc
  have hcomplete := complete_solving hsolved
  have hlisted : f ∈ (g.solving.chart).listing g := by
    rw [Readings.forms_take_start hcomplete] at hf
    exact List.mem_of_mem_take hf
  obtain ⟨top, inner, ha⟩ := exists_arranged hcomplete.sound toplevel_solving hlisted
  have hlt : ∀ l ∈ f.links, l.source < g.size ∧ l.target < g.size := by
    intro l hl
    obtain ⟨w, hw, -, hsource, htarget⟩ := ha.exists_component hg hl
    have hwhole := whole_of_mem_wholeComponents hw
    exact ⟨hwhole.lt _ hsource, hwhole.lt _ htarget⟩
  obtain ⟨s, hs, hreal⟩ := exists_realizes hlt
  have hweak := hreal.isWeaklyNormal hg ha
  have hsimple := isSimple_of_isWeaklyNormal hweak
  have hsolved' : s.solving.solved = true :=
    (solved_iff hweak (SplitSource.selects_complete s) ()).mpr fun w hw =>
      solvable_of_forest hweak (hreal.solves_self hg ha) (whole_of_mem_wholeComponents hw)
  have hsane := sane_solving hsolved'
  have hlisting : s.solving.chart.listing s = [f] := by
    have hall : ∀ f' ∈ s.solving.chart.listing s, f' = f := by
      intro f' hf'
      obtain ⟨top', inner', ha'⟩ := exists_arranged hsane.complete.sound toplevel_solving hf'
      exact hreal.eq_of_arranged hg ha ha'
    have hreplicate := List.eq_replicate_of_mem hall
    have hlength := List.nodup_replicate.mp (hreplicate ▸ nodup_listing_solving hsimple hsolved')
    have hpos := List.length_pos_iff.mpr hsane.complete.listing_ne_nil
    rw [hreplicate, Nat.le_antisymm hlength hpos, List.replicate_one]
  refine ⟨s, s.solving.chart, hs, hweak, solve?_eq_some_iff.mpr ⟨hsolved', rfl⟩, ?_, ?_⟩
  · rw [← hsane.length_listing, hlisting, List.length_singleton]
  · rw [Readings.rest_start hsane, hlisting]

theorem solved_forms_are_fixpoints_twoReadings :
    ∃ s c', twoReadings.withSolvedForm (.ofLinks [⟨1, 2⟩, ⟨3, 4⟩]) = .ok s
      ∧ s.isWeaklyNormal = true ∧ s.solve? = some c' ∧ c'.count.1 = 1
      ∧ (Readings.start s c').rest.1 = [.ofLinks [⟨1, 2⟩, ⟨3, 4⟩]] :=
  solved_forms_are_fixpoints (by decide +kernel) (solve?_eq_some_iff.mpr ⟨by decide +kernel, rfl⟩)
    (n := 2) (by decide +kernel)

end Dominance.Graph
