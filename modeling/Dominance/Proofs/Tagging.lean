import Mathlib.Data.List.Perm.Subperm
import Dominance.Proofs.FreeFragment
import Dominance.Split.Tagging

/-!
# What the tags say

While a search explores the ground behind a door, the tagged nodes are joined to the entry, and
everything at a tagged node that is no longer pending was looked at.
So when no node is pending, exactly the nodes that paths join to the entry are tagged, and they hang
from the dominator of the door; and a search breaks off only if they do not.

Ground that was tagged before is cut off from the rest, so an exploration never meets it.
Door by door the tags agree with the regions that are claimed from a supply.
The marks of an earlier search have no part in this, because they are wiped.

* `wipe_eq` — marks after they were wiped
* `explore_cases` — exploring the ground behind a door
* `Matches.enter_of_not_mem`, `Matches.enter_of_mem` — one door
* `Matches.attempt_enter` — all doors
-/

namespace Dominance

open Relation

/-! ## Marks -/

namespace Scratch

section

variable {size : Nat} {x : Scratch size} {door : Link} {m n : Nat}

theorem wipe_eq (x : Scratch size) : x.wipe = fresh size := by
  unfold wipe fresh
  rw [Vector.map_const', Vector.map_const']

theorem getElem?_foldl_set {ns : List Nat} {marks : Vector Bool size} (hns : ∀ n ∈ ns, n < size) :
    (ns.foldl (fun marks n => marks.setIfInBounds n true) marks)[m]?.getD false = true ↔
      m ∈ ns ∨ marks[m]?.getD false = true := by
  induction ns generalizing marks with
  | nil => simp
  | cons n ns ih =>
    obtain ⟨hn, hns⟩ := List.forall_mem_cons.mp hns
    rw [List.foldl_cons, ih hns, Vector.getElem?_setIfInBounds]
    by_cases hmn : n = m
    · subst hmn
      simp [hn]
    · simp [hmn, Ne.symm hmn]

theorem isTop_markTop {top : Subgraph} (h : ∀ n ∈ top, n < size) :
    ((fresh size).markTop top).isTop n = true ↔ n ∈ top := by
  have hnone : (fresh size).inTop[n]?.getD false = false := by
    unfold fresh
    rw [Vector.getElem?_replicate]
    split <;> rfl
  unfold isTop markTop
  rw [getElem?_foldl_set h, hnone]
  simp

theorem tag?_fresh (size n : Nat) : (fresh size).tag? n = none := by
  unfold tag? fresh
  rw [Vector.getElem?_replicate]
  split <;> rfl

theorem tag?_claim (hn : n < size) :
    (x.claim door n).tag? m = if m = n then some door else x.tag? m := by
  unfold tag? claim
  rw [Vector.getElem?_setIfInBounds]
  by_cases hmn : m = n
  · simp [hmn, hn]
  · simp [hmn, Ne.symm hmn]

end

/-! ## Exploring -/

variable {g : Graph} {s top : Subgraph} {supply : List Nat} {door : Link}
  {before x : Scratch g.size} {busy : List Nat} {m n : Nat}

/-- Ground below the top that no edge joins to other ground below the top. -/
structure Sealed (g : Graph) (s top : Subgraph) (supply : List Nat) : Prop where
  mem : ∀ n ∈ supply, n ∈ s ∧ n ∉ top
  closed : ∀ n ∈ supply, ∀ m ∈ s, m ∉ top → g.Joined n m → m ∈ supply

/-- An edge from tagged ground to the node is fine, and the search has followed it. -/
structure Followed (top : Subgraph) (supply : List Nat) (door : Link) (x : Scratch g.size)
    (m : Nat) : Prop where
  tagged : m ∈ supply → x.tag? m = some door
  hangs : m ∈ top → m = door.source

/-- The marks while the ground behind a door is explored; `busy` are nodes whose edges are just
being followed. -/
structure Exploring (g : Graph) (top : Subgraph) (supply : List Nat) (door : Link)
    (before : Scratch g.size) (busy : List Nat) (x : Scratch g.size) : Prop where
  isTop : ∀ n, x.isTop n = before.isTop n
  kept : ∀ n, n ∉ supply → x.tag? n = before.tag? n
  tagged : ∀ n ∈ supply, x.tag? n = none ∨ x.tag? n = some door ∧ g.Reached supply door.target n
  entry : x.tag? door.target = some door
  pending : ∀ n ∈ x.pending, n ∈ supply ∧ x.tag? n = some door
  followed : ∀ n ∈ supply, x.tag? n = some door → n ∉ x.pending → n ∉ busy →
    ∀ m, g.Joined n m → Followed top supply door x m

/-- A claim keeps what was said about other nodes. -/
theorem Followed.claim (h : Followed top supply door x m) (hn : n < g.size) :
    Followed top supply door (x.claim door n) m := by
  refine ⟨fun hm => ?_, h.hangs⟩
  rw [tag?_claim hn]
  split
  · rfl
  · exact h.tagged hm

theorem Exploring.reached_of_tag (hx : Exploring g top supply door before busy x) (hn : n ∈ supply)
    (htag : x.tag? n = some door) : g.Reached supply door.target n := by
  rcases hx.tagged n hn with hnone | ⟨-, hreached⟩
  · rw [hnone] at htag
    cases htag
  · exact hreached

/-- Claiming a node that is joined to tagged ground. -/
theorem Exploring.claim (hx : Exploring g top supply door before busy x) (hn : n ∈ supply)
    (htag : x.tag? n = some door) (hm : m ∈ supply) (hj : g.Joined n m) :
    Exploring g top supply door before busy (x.claim door m) := by
  have hlt : m < g.size := hj.lt
  have hreached : g.Reached supply door.target m :=
    (hx.reached_of_tag hn htag).tail ⟨Graph.mem_neighbours.mpr hj, hm⟩
  refine ⟨hx.isTop, fun k hk => ?_, fun k hk => ?_, ?_, fun k hk => ?_, ?_⟩
  · rw [tag?_claim hlt, if_neg (by rintro rfl; exact hk hm)]
    exact hx.kept k hk
  · rw [tag?_claim hlt]
    split
    · next he => exact .inr ⟨rfl, he ▸ hreached⟩
    · exact hx.tagged k hk
  · rw [tag?_claim hlt, hx.entry]
    split <;> rfl
  · rw [tag?_claim hlt]
    rcases List.mem_cons.mp hk with rfl | hk
    · exact ⟨hm, if_pos rfl⟩
    · obtain ⟨hks, hkt⟩ := hx.pending k hk
      refine ⟨hks, ?_⟩
      split
      · rfl
      · exact hkt
  · intro k hk hkt hnot hbusy l hl
    have hne : k ≠ m := by
      rintro rfl
      exact hnot List.mem_cons_self
    rw [tag?_claim hlt, if_neg hne] at hkt
    have hold : k ∉ x.pending := fun hmem => hnot (List.mem_cons_of_mem m hmem)
    exact (hx.followed k hk hkt hold hbusy l hl).claim hlt

/-- **Following one edge from tagged ground fails only at another node of the top.** -/
theorem Exploring.visit (hsealed : Sealed g s top supply) (hsub : ∀ n ∈ top, n ∈ s)
    (htop : ∀ n, before.isTop n = true ↔ n ∈ top) (hx : Exploring g top supply door before busy x)
    (hn : n ∈ supply) (htag : x.tag? n = some door) (hj : g.Joined n m) :
    (∃ x', x.visit s door m = (x', true) ∧ Exploring g top supply door before busy x'
        ∧ Followed top supply door x' m
        ∧ ∀ k, Followed top supply door x k → Followed top supply door x' k)
      ∨ (x.visit s door m).2 = false ∧ m ∈ top ∧ m ≠ door.source := by
  have hlt : m < g.size := hj.lt
  unfold Scratch.visit
  by_cases hs : m ∈ s
  · have hcond : (s.contains m && decide (m < g.size)) = true := by simp [hs, hlt]
    rw [if_pos hcond]
    by_cases hmt : m ∈ top
    · have hmark : x.isTop m = true := by rw [hx.isTop, htop]; exact hmt
      rw [if_pos hmark]
      by_cases hsource : m = door.source
      · refine .inl ⟨x, by simp [hsource], hx, ⟨fun hm => ?_, fun _ => hsource⟩, fun k hk => hk⟩
        exact absurd hmt (hsealed.mem m hm).2
      · exact .inr ⟨by simp [hsource], hmt, hsource⟩
    · have hmark : ¬ x.isTop m = true := by rw [hx.isTop, htop]; exact hmt
      rw [if_neg hmark]
      -- the node belongs to the supply, where nothing is tagged for another door
      have hm : m ∈ supply := hsealed.closed n hn m hs hmt hj
      rcases hx.tagged m hm with hnone | ⟨hsome, -⟩
      · rw [hnone]
        refine .inl ⟨_, rfl, hx.claim hn htag hm hj, ⟨fun _ => ?_, fun h => absurd h hmt⟩,
          fun k hk => hk.claim hlt⟩
        rw [tag?_claim hlt, if_pos rfl]
      · rw [hsome]
        exact .inl ⟨x, by simp, hx, ⟨fun _ => hsome, fun h => absurd h hmt⟩, fun k hk => hk⟩
  · have hcond : ¬ (s.contains m && decide (m < g.size)) = true := by simp [hs]
    rw [if_neg hcond]
    refine .inl ⟨x, rfl, hx, ⟨fun hm => ?_, fun hm => ?_⟩, fun k hk => hk⟩
    · exact absurd (hsealed.mem m hm).1 hs
    · exact absurd (hsub m hm) hs

/-- Following edges from a tagged node, one after the other. -/
theorem Exploring.attempt_visit (hsealed : Sealed g s top supply) (hsub : ∀ n ∈ top, n ∈ s)
    (htop : ∀ n, before.isTop n = true ↔ n ∈ top) (hx : Exploring g top supply door before busy x)
    (hn : n ∈ supply) (htag : x.tag? n = some door) {ms : List Nat}
    (hms : ∀ m ∈ ms, g.Joined n m) :
    (∃ x', attempt (Scratch.visit s door) x ms = (x', true)
        ∧ Exploring g top supply door before busy x'
        ∧ (∀ m ∈ ms, Followed top supply door x' m)
        ∧ ∀ k, Followed top supply door x k → Followed top supply door x' k)
      ∨ (attempt (Scratch.visit s door) x ms).2 = false
        ∧ ∃ m ∈ top, g.Joined n m ∧ m ≠ door.source := by
  induction ms generalizing x with
  | nil => exact .inl ⟨x, rfl, hx, by simp, fun k hk => hk⟩
  | cons m ms ih =>
    obtain ⟨hj, hms⟩ := List.forall_mem_cons.mp hms
    unfold attempt
    rcases hx.visit hsealed hsub htop hn htag hj with
      ⟨x', hvisit, hx', hm, hmono⟩ | ⟨hfail, hmt, hne⟩
    · rw [hvisit]
      have htag' : x'.tag? n = some door :=
        (hmono n ⟨fun _ => htag, fun h => absurd h (hsealed.mem n hn).2⟩).tagged hn
      rcases ih hx' htag' hms with ⟨x'', hrest, hx'', hms', hmono'⟩ | hfail
      · refine .inl ⟨x'', hrest, hx'', List.forall_mem_cons.mpr ⟨hmono' m hm, hms'⟩, ?_⟩
        exact fun k hk => hmono' k (hmono k hk)
      · exact .inr hfail
    · refine .inr ⟨?_, m, hmt, hj, hne⟩
      have hpair : x.visit s door m = ((x.visit s door m).1, false) := Prod.ext rfl hfail
      rw [hpair]

/-- The first pending node is the one whose edges are followed next. -/
theorem Exploring.pop {pending : List Nat} (hx : Exploring g top supply door before [] x)
    (hpending : x.pending = n :: pending) :
    n ∈ supply ∧ x.tag? n = some door
      ∧ Exploring g top supply door before [n] { x with pending } := by
  obtain ⟨hn, htag⟩ := hx.pending n (by rw [hpending]; exact List.mem_cons_self)
  refine ⟨hn, htag, hx.isTop, hx.kept, hx.tagged, hx.entry, fun k hk => ?_, ?_⟩
  · exact hx.pending k (by rw [hpending]; exact List.mem_cons_of_mem n hk)
  · intro k hk hkt hnot hne m hj
    have hold : k ∉ x.pending := by
      rw [hpending, List.mem_cons, not_or]
      exact ⟨by simpa using hne, hnot⟩
    have hm := hx.followed k hk hkt hold List.not_mem_nil m hj
    exact ⟨hm.tagged, hm.hangs⟩

/-- **An exploration either follows every edge of the ground that it reaches, or meets an edge to
another node of the top.** -/
theorem explore_cases (hsealed : Sealed g s top supply) (hsub : ∀ n ∈ top, n ∈ s)
    (htop : ∀ n, before.isTop n = true ↔ n ∈ top)
    (hx : Exploring g top supply door before [] x) :
    (∃ x', explore g s door x = (x', true) ∧ Exploring g top supply door before [] x'
        ∧ x'.pending = [])
      ∨ (explore g s door x).2 = false
        ∧ ∃ n m, g.Reached supply door.target n ∧ m ∈ top ∧ g.Joined n m ∧ m ≠ door.source := by
  fun_induction explore g s door x with
  | case1 x hpending => exact .inl ⟨x, rfl, hx, hpending⟩
  | case2 x n pending hpending x' hvisit ih =>
    obtain ⟨hn, htag, hbusy⟩ := hx.pop hpending
    rcases hbusy.attempt_visit hsealed hsub htop hn htag fun m hm => Graph.mem_neighbours.mp hm with
      ⟨x'', hvisit', hx'', hms, -⟩ | ⟨hfail, -⟩
    · rw [hvisit] at hvisit'
      cases hvisit'
      refine ih ⟨hx''.isTop, hx''.kept, hx''.tagged, hx''.entry, hx''.pending, ?_⟩
      intro k hk hkt hnot _ m hj
      by_cases hkn : k = n
      · subst hkn
        exact hms m (Graph.mem_neighbours.mpr hj)
      · exact hx''.followed k hk hkt hnot (by simpa using hkn) m hj
    · rw [hvisit] at hfail
      cases hfail
  | case3 x n pending hpending x' hvisit =>
    obtain ⟨hn, htag, hbusy⟩ := hx.pop hpending
    rcases hbusy.attempt_visit hsealed hsub htop hn htag fun m hm => Graph.mem_neighbours.mp hm with
      ⟨x'', hvisit', -⟩ | ⟨-, m, hm, hj, hne⟩
    · rw [hvisit] at hvisit'
      cases hvisit'
    · exact .inr ⟨rfl, n, m, hx.reached_of_tag hn htag, hm, hj, hne⟩

/-- When no node is pending, the nodes that paths join to the entry are tagged. -/
theorem Exploring.tag?_of_reached (hx : Exploring g top supply door before [] x)
    (hpending : x.pending = []) (hentry : door.target ∈ supply)
    (h : g.Reached supply door.target n) : x.tag? n = some door := by
  induction h with
  | refl => exact hx.entry
  | @tail k n hpath hstep ih =>
    have hk : k ∈ supply := mem_of_path hentry hpath
    have hnot : k ∉ x.pending := by simp [hpending]
    have hj := Graph.mem_neighbours.mp hstep.1
    exact (hx.followed k hk ih hnot List.not_mem_nil n hj).tagged hstep.2

/-- No other nodes of the supply are tagged. -/
theorem Exploring.tag?_of_not_reached (hx : Exploring g top supply door before busy x)
    (hn : n ∈ supply) (h : ¬g.Reached supply door.target n) : x.tag? n = none := by
  rcases hx.tagged n hn with hnone | ⟨-, hpath⟩
  · exact hnone
  · exact absurd hpath h

/-- When no node is pending, edges join what was reached to one node of the top only. -/
theorem Exploring.hangs (hx : Exploring g top supply door before [] x) (hpending : x.pending = [])
    (hentry : door.target ∈ supply) (h : g.Reached supply door.target n) :
    ∀ m ∈ top, g.Joined n m → m = door.source := by
  intro m hm hj
  have hn : n ∈ supply := mem_of_path hentry h
  have htag := hx.tag?_of_reached hpending hentry h
  have hnot : n ∉ x.pending := by simp [hpending]
  exact (hx.followed n hn htag hnot List.not_mem_nil m hj).hangs hm

/-! ## Doors -/

variable {regions : List Region}

/-- The marks between two doors: the claimed regions are tagged, and the supply is not. -/
structure Matches (g : Graph) (s top : Subgraph) (supply : List Nat) (regions : List Region)
    (x : Scratch g.size) : Prop where
  isTop : ∀ n, x.isTop n = true ↔ n ∈ top
  pending : x.pending = []
  secluded : Sealed g s top supply
  untagged : ∀ n ∈ s, n ∉ top → (x.tag? n = none ↔ n ∈ supply)
  tagged : ∀ n ∈ s, n ∉ top → ∀ tag, x.tag? n = some tag ↔
    ∃ r ∈ regions, r.door = tag ∧ n ∈ r.nodes
  hangs : ∀ r ∈ regions, ∀ n ∈ r.nodes, ∀ m ∈ top, g.Joined n m → m = r.door.source

/-- **A door that leads to no untagged ground is passed over.** -/
theorem Matches.enter_of_not_mem (hx : Matches g s top supply regions x)
    (hsource : door.source ∈ top) (harc : g.Arc door.source door.target)
    (h : door.target ∉ supply) : x.enter g s door = (x, true) := by
  unfold enter
  split
  · next hcond =>
    simp only [Bool.and_eq_true, decide_eq_true_eq, Subgraph.contains_iff,
      Bool.not_eq_true'] at hcond
    have hnot : door.target ∉ top := by
      rw [← hx.isTop]
      simp [hcond.2]
    cases htag : x.tag? door.target with
    | none => exact absurd ((hx.untagged _ hcond.1.1 hnot).mp htag) h
    | some tag =>
      -- the region that was claimed there hangs from one dominator only
      obtain ⟨r, hr, rfl, hmem⟩ := (hx.tagged _ hcond.1.1 hnot tag).mp htag
      have heq := hx.hangs r hr _ hmem door.source hsource (.inr harc)
      simp [heq]
  · rfl

/-- The marks right after the entry of a door was claimed. -/
theorem Matches.exploring (hx : Matches g s top supply regions x) (htarget : door.target ∈ supply)
    (hlt : door.target < g.size) :
    Exploring g top supply door x [] (x.claim door door.target) := by
  have hnone : ∀ n ∈ supply, x.tag? n = none := by
    intro n hn
    obtain ⟨hs, hnot⟩ := hx.secluded.mem n hn
    exact (hx.untagged n hs hnot).mpr hn
  refine ⟨fun _ => rfl, fun n hn => ?_, fun n hn => ?_, ?_, fun n hn => ?_, ?_⟩
  · rw [tag?_claim hlt, if_neg (by rintro rfl; exact hn htarget)]
  · rw [tag?_claim hlt]
    split
    · next he => exact .inr ⟨rfl, he ▸ .refl⟩
    · exact .inl (hnone n hn)
  · rw [tag?_claim hlt, if_pos rfl]
  · have heq : n = door.target := by simpa [claim, hx.pending] using hn
    rw [heq, tag?_claim hlt, if_pos rfl]
    exact ⟨htarget, rfl⟩
  · intro n hn htag hnot
    have hne : n ≠ door.target := by
      rintro rfl
      exact hnot List.mem_cons_self
    rw [tag?_claim hlt, if_neg hne, hnone n hn] at htag
    cases htag

/-- What is left of sealed ground after a search is sealed. -/
theorem Sealed.rest (h : Sealed g s top supply) {rest : List Nat}
    (hrest : ∀ n, n ∈ rest ↔ n ∈ supply ∧ ¬g.Reached supply m n) : Sealed g s top rest := by
  refine ⟨fun n hn => h.mem n ((hrest n).mp hn).1, fun n hn k hs hnot hj => ?_⟩
  obtain ⟨hsupply, hpath⟩ := (hrest n).mp hn
  refine (hrest k).mpr ⟨h.closed n hsupply k hs hnot hj, fun hreached => hpath ?_⟩
  exact hreached.tail ⟨Graph.mem_neighbours.mpr hj.symm, hsupply⟩

/-- The marks after the ground behind a door was explored: one more region is tagged. -/
theorem Matches.explored {x' : Scratch g.size} (hx : Matches g s top supply regions x)
    (hx' : Exploring g top supply door x [] x') (hpending : x'.pending = [])
    (htarget : door.target ∈ supply) {reach : Reach}
    (hreached : ∀ n, n ∈ reach.reached ↔ g.Reached supply door.target n)
    (hrest : ∀ n, n ∈ reach.rest ↔ n ∈ supply ∧ ¬g.Reached supply door.target n) :
    Matches g s top reach.rest (regions ++ [⟨door, reach.reached⟩]) x' := by
  refine ⟨fun n => ?_, hpending, hx.secluded.rest hrest, ?_, ?_, ?_⟩
  · rw [hx'.isTop, hx.isTop]
  · intro n hs hnot
    rw [hrest]
    by_cases hn : n ∈ supply
    · by_cases hpath : g.Reached supply door.target n
      · simp [hn, hx'.tag?_of_reached hpending htarget hpath, hpath]
      · simp [hn, hx'.tag?_of_not_reached hn hpath, hpath]
    · rw [hx'.kept n hn, hx.untagged n hs hnot]
      simp [hn]
  · intro n hs hnot tag
    simp only [List.mem_append, List.mem_singleton, or_and_right, exists_or, exists_eq_left,
      hreached]
    by_cases hn : n ∈ supply
    · have hold : ¬∃ r ∈ regions, r.door = tag ∧ n ∈ r.nodes := by
        rw [← hx.tagged n hs hnot, (hx.untagged n hs hnot).mpr hn]
        simp
      by_cases hpath : g.Reached supply door.target n
      · simp [hold, hx'.tag?_of_reached hpending htarget hpath, hpath]
      · simp [hold, hx'.tag?_of_not_reached hn hpath, hpath]
    · have hpath : ¬g.Reached supply door.target n := fun hpath => hn (mem_of_path htarget hpath)
      rw [hx'.kept n hn, hx.tagged n hs hnot]
      simp [hpath]
  · intro r hr
    rcases List.mem_append.mp hr with hr | hr
    · exact hx.hangs r hr
    · rw [List.mem_singleton] at hr
      subst hr
      exact fun n hn => hx'.hangs hpending htarget ((hreached n).mp hn)

/-- **A door to untagged ground tags the region that it claims**, unless this region hangs from
another node of the top as well. -/
theorem Matches.enter_of_mem (hx : Matches g s top supply regions x) (hsub : ∀ n ∈ top, n ∈ s)
    (hlt : door.target < g.size) (htarget : door.target ∈ supply) {reach : Reach}
    (hreached : ∀ n, n ∈ reach.reached ↔ g.Reached supply door.target n)
    (hrest : ∀ n, n ∈ reach.rest ↔ n ∈ supply ∧ ¬g.Reached supply door.target n) :
    (g.hangsFrom top door.source reach.reached = true
        ∧ ∃ x', x.enter g s door = (x', true)
          ∧ Matches g s top reach.rest (regions ++ [⟨door, reach.reached⟩]) x')
      ∨ g.hangsFrom top door.source reach.reached = false ∧ (x.enter g s door).2 = false := by
  obtain ⟨hs, hnot⟩ := hx.secluded.mem _ htarget
  have henter : x.enter g s door = explore g s door (x.claim door door.target) := by
    have hmark : x.isTop door.target = false := by
      rw [← Bool.not_eq_true, hx.isTop]
      exact hnot
    unfold enter
    rw [if_pos (by simp [hs, hlt, hmark]), (hx.untagged _ hs hnot).mpr htarget]
  rw [henter]
  rcases explore_cases hx.secluded hsub hx.isTop (hx.exploring htarget hlt) with
    ⟨x', hexplore, hx', hpending⟩ | ⟨hfail, n, m, hn, hm, hj, hne⟩
  · refine .inl ⟨?_, x', hexplore, hx.explored hx' hpending htarget hreached hrest⟩
    rw [Graph.hangsFrom_iff]
    exact fun n hn => hx'.hangs hpending htarget ((hreached n).mp hn)
  · refine .inr ⟨?_, hfail⟩
    rw [← Bool.not_eq_true, Graph.hangsFrom_iff]
    exact fun hhangs => hne (hhangs n ((hreached n).mpr hn) m hm hj)

/-- **Door by door, the tags follow the claims.** If the doors do not claim all the supply, the
search breaks off or leaves ground without a tag. -/
theorem Matches.attempt_enter (hx : Matches g s top supply regions x) (hsub : ∀ n ∈ top, n ∈ s)
    (doors : List Link) (hdoors : ∀ d ∈ doors, d.source ∈ top ∧ g.Arc d.source d.target) :
    match g.claimRegions top doors supply with
    | some later => ∃ x', attempt (enter g s) x doors = (x', true)
        ∧ Matches g s top [] (regions ++ later) x'
    | none => (attempt (enter g s) x doors).2 = false ∨ ∃ x' supply' regions',
        attempt (enter g s) x doors = (x', true) ∧ Matches g s top supply' regions' x'
          ∧ supply' ≠ [] := by
  induction doors generalizing supply regions x with
  | nil =>
    cases supply with
    | nil => exact ⟨x, rfl, by rwa [List.append_nil]⟩
    | cons n supply => exact .inr ⟨x, _, regions, rfl, hx, List.cons_ne_nil n supply⟩
  | cons door doors ih =>
    obtain ⟨⟨hsource, harc⟩, hdoors⟩ := List.forall_mem_cons.mp hdoors
    unfold attempt Graph.claimRegions
    by_cases htarget : door.target ∈ supply
    · rw [if_pos htarget]
      obtain ⟨hreached, hrest, -⟩ := Graph.reachFrom_filter (g := g) htarget
      simp only
      generalize reachFrom g.neighbours door.target (supply.filter (· ≠ door.target)) = reach at *
      rcases hx.enter_of_mem hsub harc.target_lt htarget hreached hrest with
        ⟨hhangs, x', henter, hx'⟩ | ⟨hhangs, hfail⟩
      · rw [if_pos hhangs, henter]
        have hnext := ih hx' hdoors
        cases hlater : g.claimRegions top doors reach.rest with
        | some later =>
          rw [hlater] at hnext
          simpa [List.append_assoc] using hnext
        | none =>
          rw [hlater] at hnext
          exact hnext
      · have hpair : x.enter g s door = ((x.enter g s door).1, false) := Prod.ext rfl hfail
        rw [hhangs, hpair]
        exact .inl rfl
    · rw [if_neg htarget, hx.enter_of_not_mem hsource harc htarget]
      exact ih hx hdoors

end Scratch

end Dominance
