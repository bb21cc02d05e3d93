import Mathlib.Algebra.Ring.Nat
import Dominance.Enumeration.Listing
import Dominance.Proofs.Filling

/-!
# Unfolding an agenda

Unfolding replaces the first entry of an agenda by the components of one of its splits.
In a chart whose components rank below the subgraphs they come from, this comes to an end, and
`Chart.unfolding` is a bound for it: an entry weighs more than all that one of its splits puts in
its place.
So the bound never cuts a solution off, and the solutions of an agenda obey the recursion without
it.

* `agenda_induction` — induction along the unfolding of an agenda
* `unfolded_cons_of_sole`, `unfolded_cons_of_split` — the recursion without a bound
* `unfolded_append` — the entries of an agenda are unfolded independently of each other
-/

namespace Dominance.Chart

variable {c : Chart} {g : Graph} {rank : Subgraph → Nat} {s t w : Subgraph} {split : Split}

/-! ## Ranks -/

/-- Every component of a stored split ranks below the subgraph that was split. -/
def Ranked (c : Chart) (rank : Subgraph → Nat) : Prop :=
  ∀ t, ∀ split ∈ c.splitsFor t, ∀ w ∈ split.components, rank w < rank t

/-- The components of the splits of a graph rank by their size. -/
theorem Sound.ranked (h : c.Sound g) : c.Ranked Subgraph.size :=
  fun t split hsplit _ hw => Graph.size_lt_of_mem_components (h t split hsplit).1 hw

theorem mem_table_of_mem_splitsFor (h : split ∈ c.splitsFor s) :
    (s, c.splitsFor s) ∈ c.table.toList := by
  rw [Std.TreeMap.mem_toList_iff_getElem?_eq_some]
  rw [splitsFor, Std.TreeMap.getD_eq_getD_getElem?] at *
  cases hs : c.table[s]? with
  | some splits => rfl
  | none => rw [hs] at h; cases h

theorem mem_subgraphs_of_mem_splitsFor (h : split ∈ c.splitsFor s) : s ∈ c.subgraphs := by
  rw [subgraphs, ← Std.TreeMap.map_fst_toList_eq_keys]
  exact List.mem_map_of_mem (mem_table_of_mem_splitsFor h)

theorem nodup_subgraphs (c : Chart) : c.subgraphs.Nodup := Std.TreeMap.nodup_keys

/-- The number of stored subgraphs that do not rank above a subgraph. -/
def height (c : Chart) (rank : Subgraph → Nat) (s : Subgraph) : Nat :=
  (c.subgraphs.filter (rank · ≤ rank s)).length

theorem height_le (c : Chart) (rank : Subgraph → Nat) (s : Subgraph) :
    c.height rank s ≤ c.subgraphCount := by
  have h := List.length_filter_le (rank · ≤ rank s) c.subgraphs
  rwa [subgraphs, Std.TreeMap.length_keys] at h

/-- **Splitting goes down in height.** -/
theorem Ranked.height_lt (hr : c.Ranked rank) (h : split ∈ c.splitsFor t)
    (hw : w ∈ split.components) : c.height rank w < c.height rank t := by
  have hlt := hr t split h w hw
  -- what counts for the component counts for the subgraph as well, and the subgraph itself is new
  have hnd : (t :: c.subgraphs.filter (rank · ≤ rank w)).Nodup := by
    refine List.nodup_cons.mpr ⟨fun ht => ?_, c.nodup_subgraphs.filter _⟩
    have := of_decide_eq_true (List.mem_filter.mp ht).2
    omega
  have hsub : t :: c.subgraphs.filter (rank · ≤ rank w) ⊆ c.subgraphs.filter (rank · ≤ rank t) := by
    intro u hu
    rcases List.mem_cons.mp hu with rfl | hu
    · exact List.mem_filter.mpr
        ⟨mem_subgraphs_of_mem_splitsFor h, decide_eq_true (Nat.le_refl _)⟩
    · obtain ⟨hmem, hle⟩ := List.mem_filter.mp hu
      have := of_decide_eq_true hle
      exact List.mem_filter.mpr ⟨hmem, decide_eq_true (by omega)⟩
  exact (List.subperm_of_subset hnd hsub).length_le

/-! ## Weights -/

/-- A running maximum is never below where it starts, nor below what it has passed. -/
theorem le_foldl_of_le {α : Type} {f : Nat → α → Nat} (hf : ∀ n a, n ≤ f n a) (as : List α)
    {m n : Nat} (h : m ≤ n) : m ≤ as.foldl f n := by
  induction as generalizing n with
  | nil => exact h
  | cons a as ih => exact ih (Nat.le_trans h (hf n a))

theorem le_foldl_of_mem {α : Type} {f : Nat → α → Nat} (hf : ∀ n a, n ≤ f n a) {as : List α}
    {a : α} (ha : a ∈ as) {m : Nat} (hm : ∀ n, m ≤ f n a) (n : Nat) : m ≤ as.foldl f n := by
  obtain ⟨before, after, rfl⟩ := List.append_of_mem ha
  rw [List.foldl_append, List.foldl_cons]
  exact le_foldl_of_le hf after (hm _)

theorem length_parts_le_width (h : split ∈ c.splitsFor s) : split.parts.length ≤ c.width := by
  refine le_foldl_of_mem (fun n entry => ?_) (mem_table_of_mem_splitsFor h) (fun n => ?_) 0
  · exact le_foldl_of_le (fun _ _ => Nat.le_max_left _ _) entry.2 (Nat.le_refl n)
  · exact le_foldl_of_mem (f := fun widest split => max widest split.parts.length)
      (fun _ _ => Nat.le_max_left _ _) h (fun _ => Nat.le_max_right _ _) n

/-- A bound on the entries that the entries of an agenda give rise to. -/
def weight (c : Chart) (rank : Subgraph → Nat) (agenda : List Pending) : Nat :=
  (agenda.map fun entry => (c.width + 1) ^ c.height rank entry.subgraph).sum

theorem weight_cons (entry : Pending) (agenda : List Pending) :
    c.weight rank (entry :: agenda)
      = (c.width + 1) ^ c.height rank entry.subgraph + c.weight rank agenda := by
  simp [weight]

theorem weight_append (agenda agenda' : List Pending) :
    c.weight rank (agenda ++ agenda') = c.weight rank agenda + c.weight rank agenda' := by
  simp [weight]

theorem weight_lt_weight_cons (c : Chart) (rank : Subgraph → Nat) (entry : Pending)
    (agenda : List Pending) :
    c.weight rank agenda < c.weight rank (entry :: agenda) := by
  have hpos : 0 < (c.width + 1) ^ c.height rank entry.subgraph := Nat.pow_pos (Nat.succ_pos _)
  rw [weight_cons]
  omega

theorem weight_le_of_height_le {agenda : List Pending} {k : Nat}
    (h : ∀ entry ∈ agenda, c.height rank entry.subgraph ≤ k) :
    c.weight rank agenda ≤ agenda.length * (c.width + 1) ^ k := by
  induction agenda with
  | nil => simp [weight]
  | cons entry agenda ih =>
    have hrest := ih fun e he => h e (List.mem_cons_of_mem _ he)
    have hfirst : (c.width + 1) ^ c.height rank entry.subgraph ≤ (c.width + 1) ^ k :=
      Nat.pow_le_pow_right (Nat.succ_pos _) (h entry List.mem_cons_self)
    rw [weight_cons, List.length_cons, Nat.succ_mul]
    omega

/-- The bound that the machine and the listing use is enough for every agenda. -/
theorem weight_le (c : Chart) (rank : Subgraph → Nat) (agenda : List Pending) :
    c.weight rank agenda ≤ agenda.length * c.unfolding :=
  weight_le_of_height_le fun entry _ => c.height_le rank entry.subgraph

theorem mem_unsettled {entry : Pending} :
    entry ∈ g.unsettled split ↔ ∃ part ∈ split.parts, g.soleRoot? part.component = none
      ∧ entry = ⟨some part.dominator, part.component⟩ := by
  simp only [Graph.unsettled, List.mem_reverse, List.mem_map, List.mem_filter,
    Option.isNone_iff_eq_none]
  constructor
  · rintro ⟨part, ⟨hpart, hnone⟩, rfl⟩
    exact ⟨part, hpart, hnone, rfl⟩
  · rintro ⟨part, hpart, hnone, rfl⟩
    exact ⟨part, ⟨hpart, hnone⟩, rfl⟩

theorem mem_components_of_mem_unsettled {entry : Pending} (h : entry ∈ g.unsettled split) :
    entry.subgraph ∈ split.components := by
  obtain ⟨part, hpart, -, rfl⟩ := mem_unsettled.mp h
  exact List.mem_map_of_mem hpart

theorem length_unsettled_le : (g.unsettled split).length ≤ split.parts.length := by
  simp only [Graph.unsettled, List.length_reverse, List.length_map]
  exact List.length_filter_le _ _

/-- **An entry outweighs all that one of its splits puts in its place.** -/
theorem Ranked.weight_unsettled_lt (hr : c.Ranked rank) (h : split ∈ c.splitsFor s) :
    c.weight rank (g.unsettled split) < (c.width + 1) ^ c.height rank s := by
  have hpos : 0 < c.height rank s := List.length_pos_of_mem
    (List.mem_filter.mpr ⟨mem_subgraphs_of_mem_splitsFor h, decide_eq_true (Nat.le_refl _)⟩)
  obtain ⟨k, hk⟩ : ∃ k, c.height rank s = k + 1 := ⟨c.height rank s - 1, by omega⟩
  have hheight : ∀ entry ∈ g.unsettled split, c.height rank entry.subgraph ≤ k := by
    intro entry hentry
    have hlt := hr.height_lt h (mem_components_of_mem_unsettled hentry)
    omega
  have hwidth : (g.unsettled split).length ≤ c.width :=
    Nat.le_trans length_unsettled_le (length_parts_le_width h)
  calc c.weight rank (g.unsettled split)
      ≤ (g.unsettled split).length * (c.width + 1) ^ k := weight_le_of_height_le hheight
    _ ≤ c.width * (c.width + 1) ^ k := Nat.mul_le_mul_right _ hwidth
    _ < (c.width + 1) * (c.width + 1) ^ k :=
      Nat.mul_lt_mul_of_pos_right (Nat.lt_succ_self _) (Nat.pow_pos (Nat.succ_pos _))
    _ = (c.width + 1) ^ c.height rank s := by rw [hk, Nat.pow_succ, Nat.mul_comm]

theorem Ranked.weight_replace_lt (hr : c.Ranked rank) {entry : Pending}
    (h : split ∈ c.splitsFor entry.subgraph) (agenda : List Pending) :
    c.weight rank (g.unsettled split ++ agenda) < c.weight rank (entry :: agenda) := by
  rw [weight_append, weight_cons]
  have := hr.weight_unsettled_lt (g := g) h
  omega

/-- **Induction along the unfolding of an agenda.** -/
theorem Ranked.agenda_induction (hr : c.Ranked rank) (g : Graph)
    {motive : List Pending → Prop} (nil : motive [])
    (sole : ∀ entry agenda root, g.soleRoot? entry.subgraph = some root → motive agenda →
      motive (entry :: agenda))
    (split : ∀ entry agenda, g.soleRoot? entry.subgraph = none →
      (∀ split ∈ c.splitsFor entry.subgraph, motive (g.unsettled split ++ agenda)) →
      motive (entry :: agenda))
    (agenda : List Pending) : motive agenda := by
  induction hw : c.weight rank agenda using Nat.strongRecOn generalizing agenda with
  | _ n ih =>
    subst hw
    cases agenda with
    | nil => exact nil
    | cons entry agenda =>
      cases hroot : g.soleRoot? entry.subgraph with
      | some root =>
        exact sole entry agenda root hroot (ih _ (c.weight_lt_weight_cons rank entry agenda) _ rfl)
      | none =>
        refine split entry agenda hroot fun split hsplit => ?_
        exact ih _ (hr.weight_replace_lt hsplit agenda) _ rfl

/-! ## The solutions of an agenda -/

/-- A bound above the weight makes no difference. -/
theorem Ranked.solutions_eq (hr : c.Ranked rank) (g : Graph) {agenda : List Pending} {m n : Nat}
    (hm : c.weight rank agenda ≤ m) (hn : c.weight rank agenda ≤ n) :
    c.solutions g m agenda = c.solutions g n agenda := by
  induction agenda using hr.agenda_induction g generalizing m n with
  | nil => simp only [solutions]
  | sole entry agenda root hroot ih =>
    have hlt := c.weight_lt_weight_cons rank entry agenda
    -- the entry weighs something, so neither bound is zero
    obtain ⟨m, rfl⟩ : ∃ k, m = k + 1 := ⟨m - 1, by omega⟩
    obtain ⟨n, rfl⟩ : ∃ k, n = k + 1 := ⟨n - 1, by omega⟩
    simp only [solutions, hroot]
    rw [ih (m := m) (n := n) (by omega) (by omega)]
  | split entry agenda hroot ih =>
    have hlt := c.weight_lt_weight_cons rank entry agenda
    obtain ⟨m, rfl⟩ : ∃ k, m = k + 1 := ⟨m - 1, by omega⟩
    obtain ⟨n, rfl⟩ : ∃ k, n = k + 1 := ⟨n - 1, by omega⟩
    simp only [solutions, hroot]
    refine List.flatMap_congr fun split hsplit => ?_
    have hless := hr.weight_replace_lt (g := g) hsplit agenda
    rw [ih split hsplit (m := m) (n := n) (by omega) (by omega)]

/-- The links of each solution of an agenda. -/
def unfolded (c : Chart) (g : Graph) (agenda : List Pending) : List (List Link) :=
  c.solutions g (agenda.length * c.unfolding) agenda

theorem Ranked.unfolded_eq (hr : c.Ranked rank) (g : Graph) (agenda : List Pending) {n : Nat}
    (hn : c.weight rank agenda ≤ n) : c.unfolded g agenda = c.solutions g n agenda :=
  hr.solutions_eq g (c.weight_le rank agenda) hn

@[simp]
theorem unfolded_nil : c.unfolded g [] = [[]] := by
  simp only [unfolded, solutions]

theorem Ranked.unfolded_cons_of_sole (hr : c.Ranked rank) {entry : Pending} {root : Nat}
    (h : g.soleRoot? entry.subgraph = some root) (agenda : List Pending) :
    c.unfolded g (entry :: agenda)
      = (c.unfolded g agenda).map (Machine.linksTo entry.dominator root ++ ·) := by
  have hlt := c.weight_lt_weight_cons rank entry agenda
  rw [hr.unfolded_eq g _ (n := c.weight rank (entry :: agenda) + 1) (by omega),
    hr.unfolded_eq g agenda (n := c.weight rank (entry :: agenda)) (by omega)]
  simp only [solutions, h]

theorem Ranked.unfolded_cons_of_split (hr : c.Ranked rank) {entry : Pending}
    (h : g.soleRoot? entry.subgraph = none) (agenda : List Pending) :
    c.unfolded g (entry :: agenda) = (c.splitsFor entry.subgraph).flatMap fun split =>
      (c.unfolded g (g.unsettled split ++ agenda)).map
        (Machine.linksTo entry.dominator split.root ++ g.settled split ++ ·) := by
  rw [hr.unfolded_eq g _ (n := c.weight rank (entry :: agenda) + 1) (by omega)]
  simp only [solutions, h]
  refine List.flatMap_congr fun split hsplit => ?_
  have hlt := hr.weight_replace_lt (g := g) hsplit agenda
  rw [hr.unfolded_eq g _ (n := c.weight rank (entry :: agenda)) (by omega)]

/-- **The entries of an agenda are unfolded independently of each other.** -/
theorem Ranked.unfolded_append (hr : c.Ranked rank) (g : Graph) (agenda agenda' : List Pending) :
    c.unfolded g (agenda ++ agenda')
      = (c.unfolded g agenda).flatMap fun links => (c.unfolded g agenda').map (links ++ ·) := by
  induction agenda using hr.agenda_induction g with
  | nil => simp
  | sole entry agenda root hroot ih =>
    rw [List.cons_append, hr.unfolded_cons_of_sole hroot, hr.unfolded_cons_of_sole hroot, ih]
    simp only [List.map_flatMap, List.flatMap_map, List.map_map, Function.comp_def,
      List.append_assoc]
  | split entry agenda hroot ih =>
    rw [List.cons_append, hr.unfolded_cons_of_split hroot, hr.unfolded_cons_of_split hroot,
      List.flatMap_assoc]
    refine List.flatMap_congr fun split hsplit => ?_
    rw [← List.append_assoc, ih split hsplit]
    simp only [List.map_flatMap, List.flatMap_map, List.map_map, Function.comp_def,
      List.append_assoc]

theorem Ranked.mem_unfolded_append (hr : c.Ranked rank) {agenda agenda' : List Pending}
    {links : List Link} :
    links ∈ c.unfolded g (agenda ++ agenda') ↔
      ∃ before ∈ c.unfolded g agenda, ∃ after ∈ c.unfolded g agenda', before ++ after = links := by
  simp only [hr.unfolded_append, List.mem_flatMap, List.mem_map]

theorem listing_eq :
    c.listing g = (c.unfolded g (Machine.start c).agenda).map SolvedForm.ofLinks := by
  simp only [listing, unfolded, Machine.start, List.length_map]

end Dominance.Chart
