import Dominance.Proofs.Enumeration

/-!
# Charts of unsolvable graphs

If the machine works its agenda off without a halt, it has split every subgraph on the agenda down
to single roots, so that all of them are solvable.
The partial chart of an unsolvable graph therefore halts the machine before it stands at a solved
form, and a halt is final: such a chart has no readings at all.

* `solvable_of_descendWithin` — what a descent without a halt shows
* `no_reading` — an unsolvable top-level subgraph leaves nothing to read
* `preference_keeps_solvability` — preferences do not change whether a graph is solvable
-/

namespace Dominance

variable {c : Chart} {g : Graph} {m : Machine} {s : Subgraph}

theorem Graph.soleRoot?_of_soleRootOf {root : Nat} (h : g.soleRootOf s = .ok (some root)) :
    g.soleRoot? s = some root := by
  unfold soleRootOf onNodes at h
  split at h
  · cases h
  · split at h
    · exact Except.ok.inj h
    · cases h

namespace Machine

/-! ## Halting -/

/-- A machine that was halted has given up its agenda and its choices. -/
def HaltsClean (m : Machine) : Prop := m.halt ≠ none → m.agenda = [] ∧ m.choices = []

theorem haltsClean_stop (m : Machine) (reason : Halt) : (m.stop reason).HaltsClean :=
  fun _ => ⟨rfl, rfl⟩

theorem haltsClean_of_halt_eq_none (h : m.halt = none) : m.HaltsClean := fun hne => absurd h hne

/-- A step down halts, adds a link for a single root, or tries the first split. -/
theorem stepDown_cases (g : Graph) (c : Chart) (m : Machine) (entry : Pending)
    (agenda : List Pending) :
    (∃ reason, stepDown g c m entry agenda = m.stop reason)
      ∨ (∃ root, g.soleRoot? entry.subgraph = some root ∧ stepDown g c m entry agenda
          = { m with agenda, choices := addLinks (linksTo entry.dominator root) m.choices })
      ∨ ∃ split untried links next, c.splitsFor entry.subgraph = split :: untried
          ∧ expand g split.parts agenda = .ok (links, next)
          ∧ stepDown g c m entry agenda =
            { m with
              agenda := next
              choices := ⟨entry.dominator, untried,
                linksTo entry.dominator split.root ++ links, agenda⟩ :: m.choices
              chose := true } := by
  unfold stepDown
  split
  · exact .inl ⟨_, rfl⟩
  · next root hroot => exact .inr (.inl ⟨root, Graph.soleRoot?_of_soleRootOf hroot, rfl⟩)
  · split
    · exact .inl ⟨_, rfl⟩
    · next split untried hsplits =>
      unfold enter
      split
      · exact .inl ⟨_, rfl⟩
      · next links next hexpand =>
        exact .inr (.inr ⟨split, untried, links, next, hsplits, hexpand, rfl⟩)

theorem haltsClean_stepDown (hm : m.halt = none) (entry : Pending) (agenda : List Pending) :
    (stepDown g c m entry agenda).HaltsClean := by
  obtain ⟨reason, h⟩ | ⟨root, -, h⟩ | ⟨split, untried, links, next, -, -, h⟩ :=
    stepDown_cases g c m entry agenda
  · rw [h]
    exact haltsClean_stop m reason
  · rw [h]
    exact haltsClean_of_halt_eq_none hm
  · rw [h]
    exact haltsClean_of_halt_eq_none hm

theorem haltsClean_descendWithin (steps : Nat) (hm : m.HaltsClean) :
    (descendWithin g c steps m).HaltsClean := by
  induction steps generalizing m with
  | zero =>
    unfold descendWithin
    split
    · exact hm
    · exact haltsClean_stop m _
  | succ steps ih =>
    cases hagenda : m.agenda with
    | nil => rw [descendWithin_of_agenda_nil _ hagenda]; exact hm
    | cons entry agenda =>
      rw [descendWithin, hagenda]
      refine ih (haltsClean_stepDown ?_ entry agenda)
      by_contra hne
      rw [(hm hne).1] at hagenda
      cases hagenda

theorem halt_descendWithin_stop (steps : Nat) (reason : Halt) :
    (descendWithin g c steps (m.stop reason)).halt = some reason := by
  rw [descendWithin_of_agenda_nil steps rfl]
  rfl

/-! ## Descending without a halt -/

/-- Every part of a split has a single root or goes to the agenda. -/
theorem mem_of_expand {parts : List Part} {agenda next : List Pending} {links : List Link}
    (h : expand g parts agenda = .ok (links, next)) :
    (∀ entry ∈ agenda, entry ∈ next)
      ∧ ∀ p ∈ parts, (∃ root, g.soleRoot? p.component = some root)
          ∨ ⟨some p.dominator, p.component⟩ ∈ next := by
  induction parts generalizing agenda links with
  | nil =>
    cases h
    exact ⟨fun _ => id, by simp⟩
  | cons p parts ih =>
    rw [expand] at h
    split at h
    · cases h
    · next root hroot =>
      split at h
      · cases h
      · next links' next' hrest =>
        cases h
        obtain ⟨hagenda, hparts⟩ := ih hrest
        refine ⟨hagenda, fun q hq => ?_⟩
        rcases List.mem_cons.mp hq with rfl | hq
        · exact .inl ⟨root, Graph.soleRoot?_of_soleRootOf hroot⟩
        · exact hparts q hq
    · obtain ⟨hagenda, hparts⟩ := ih h
      refine ⟨fun entry hentry => hagenda entry (List.mem_cons_of_mem _ hentry), fun q hq => ?_⟩
      rcases List.mem_cons.mp hq with rfl | hq
      · exact .inr (hagenda _ List.mem_cons_self)
      · exact hparts q hq

/-- **If the agenda is worked off without a halt, all its subgraphs are solvable.** -/
theorem solvable_of_descendWithin (hc : c.Sound g) (steps : Nat)
    (h : (descendWithin g c steps m).halt = none) :
    ∀ entry ∈ m.agenda, g.Solvable entry.subgraph := by
  induction steps generalizing m with
  | zero =>
    unfold descendWithin at h
    split at h
    · next hempty => rw [List.isEmpty_iff.mp hempty]; simp
    · cases h
  | succ steps ih =>
    cases hagenda : m.agenda with
    | nil => simp
    | cons entry agenda =>
      rw [descendWithin, hagenda] at h
      have hnext := ih h
      rw [List.forall_mem_cons]
      obtain ⟨reason, hstep⟩ | ⟨root, hroot, hstep⟩
        | ⟨split, untried, links, next, hsplits, hexpand, hstep⟩ :=
        stepDown_cases g c m entry agenda
      · simp only [hstep, halt_descendWithin_stop] at h
        cases h
      · rw [hstep] at hnext
        exact ⟨.sole hroot, hnext⟩
      · rw [hstep] at hnext
        obtain ⟨hkept, hparts⟩ := mem_of_expand hexpand
        have hsplit : split ∈ c.splitsFor entry.subgraph := hsplits ▸ List.mem_cons_self
        refine ⟨.split (hc _ split hsplit).1 fun w hw => ?_, fun e he => hnext e (hkept e he)⟩
        obtain ⟨p, hp, rfl⟩ := Graph.mem_components.mp hw
        rcases hparts p hp with ⟨root, hroot⟩ | hmem
        · exact .sole hroot
        · exact hnext _ hmem

end Machine

/-! ## Charts without readings -/

theorem Enumeration.ready_start_eq_none (hc : c.Sound g) (hs : s ∈ c.toplevel)
    (h : ¬g.Solvable s) : (start g c).ready = none := by
  have hhalt : (Machine.descend g c (Machine.start c)).halt ≠ none := by
    intro hnone
    exact h (Machine.solvable_of_descendWithin hc _ hnone ⟨none, s⟩ (List.mem_map_of_mem hs))
  have hclean : (Machine.descend g c (Machine.start c)).HaltsClean :=
    Machine.haltsClean_descendWithin _ (Machine.haltsClean_of_halt_eq_none rfl)
  unfold start
  rw [Machine.advance_start]
  simp only [Machine.solvedForm?, (hclean hhalt).2]
  rw [Option.isSome_iff_ne_none.mpr hhalt, Bool.or_true]
  rfl

theorem Enumeration.take_of_ready_eq_none {e : Enumeration} (h : e.ready = none) (n : Nat) :
    e.take n = ([], e) := by
  cases n with
  | zero => rfl
  | succ n => rw [take, next_of_ready_eq_none h]

theorem Readings.news_self (e : Enumeration) : news e e = [] := by
  unfold news
  split
  · rfl
  · next h => rw [h]; rfl

/-- There is no next solved form and none at any position, and asking for one changes nothing. -/
structure Readings.Barren (r : Readings) : Prop where
  hasNext : r.hasNext = false
  next : r.next = (none, r)
  get : ∀ position, r.get position = (none, r)

/-- **A sound chart with an unsolvable top-level subgraph has no readings.** -/
theorem Readings.no_reading (hc : c.Sound g) (hs : s ∈ c.toplevel) (h : ¬g.Solvable s) :
    (start g c).Barren := by
  have hready := Enumeration.ready_start_eq_none hc hs h
  refine ⟨?_, ?_, fun position => ?_⟩
  · simp only [hasNext, start, hready]
    rfl
  · simp only [Readings.next, start, Enumeration.next_of_ready_eq_none hready, news_self,
      List.append_nil]
  · simp only [get, start, Enumeration.take_of_ready_eq_none hready, news_self, List.append_nil]
    simp

namespace Graph

variable {σ τ : Type}

/-- The chart of a filling that got stuck has no readings. -/
theorem barren_of_not_solved (hg : g.isWeaklyNormal = true) {source : SplitSource σ}
    (hsel : source.Selects g) {memory : σ}
    (h : (g.solveInto source memory .empty).solved = false) :
    (Readings.start g (g.solveInto source memory .empty).chart).Barren := by
  have hnot : ¬∀ w ∈ g.wholeComponents, g.Solvable w := by
    intro hall
    rw [(solved_iff hg hsel memory).mpr hall] at h
    cases h
  simp only [not_forall] at hnot
  obtain ⟨w, hw, hunsolvable⟩ := hnot
  refine Readings.no_reading (sound_solveInto hsel memory) ?_ hunsolvable
  rw [toplevel_solveInto]
  exact hw

/--
**Preferences do not change whether a weakly normal graph is solvable, and solving fails only if
there is nothing to enumerate.**

The second part is about every chart that solving leaves behind when it gets stuck, whether it was
filled with all splits or with those that a preference left.
-/
theorem preference_keeps_solvability (hg : g.isWeaklyNormal = true) (p : Preference σ) (memory : σ)
    {source : SplitSource τ} (hsource : source.Standard g) (memory' : τ) :
    ((g.solveInto (.preferred g p) memory .empty).solved = true ↔ g.solve?.isSome = true)
      ∧ ((g.solveInto source memory' .empty).solved = false →
          (Readings.start g (g.solveInto source memory' .empty).chart).Barren) := by
  refine ⟨?_, barren_of_not_solved hg hsource.selects⟩
  have hpreferred := solved_iff hg (SplitSource.selects_preferred g p) memory
  have hcomplete := solved_iff hg (SplitSource.selects_complete g) ()
  have hsome : g.solve?.isSome = true ↔ g.solving.solved = true := by
    simp [Option.isSome_iff_exists, solve?_eq_some_iff]
  rw [hpreferred, hsome]
  exact hcomplete.symm

/-- Solving gets stuck below a split that the chart keeps, and there is nothing to enumerate. -/
theorem preference_keeps_solvability_sunken :
    ((sunken.solveInto (.preferred sunken (.ofTest fun _ _ => false)) () .empty).solved = true
        ↔ sunken.solve?.isSome = true)
      ∧ sunken.solving.chart.size = 1
      ∧ (Readings.start sunken sunken.solving.chart).Barren := by
  have h := preference_keeps_solvability (g := sunken) (by decide +kernel)
    (.ofTest fun _ _ => false) () .complete ()
  exact ⟨h.1, by decide +kernel, h.2 (by decide +kernel)⟩

end Graph

end Dominance
