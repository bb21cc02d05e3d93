import Dominance.Enumeration.Readings
import Dominance.Proofs.Descent

/-!
# The enumeration goes through the listing

What the machine has ahead of it can be read off its state: first the solutions of its agenda, each
behind the links placed so far, then those of the splits that its choices left untried, from the
innermost choice outwards.
Working the agenda off changes nothing about this, and going back to an untried split drops the
solution at which the machine stands.
So the enumeration of a chart that can be unfolded from the top yields its listing, form by form,
and then ends.

A machine that meets a subgraph without the splits that it needs is stopped for good, so that what
it had ahead is not returned.

* `expand_parts` — what one split adds to the links and to the agenda
* `descendWithin_spec`, `retry_cases` — what each move does to the solutions ahead
* `start_cases`, `next_cases` — each call, if splits may be missing
* `Drains` — the list of solved forms that calls of `next` return
* `take_start` — the enumeration and the listing are the same
-/

namespace Dominance

variable {c : Chart} {g : Graph} {m : Machine}

theorem Graph.soleRootOf_eq {s : Subgraph} (h : ∀ n ∈ s, n < g.size) :
    g.soleRootOf s = .ok (g.soleRoot? s) := by
  unfold soleRootOf
  split
  · next hlen =>
    cases hroot : g.soleRoot? s with
    | none => rfl
    | some r =>
      rw [soleRoot?_eq_some_iff.mp hroot] at hlen
      simp at hlen
  · have hnone : g.stranger? s = none := by
      refine List.find?_eq_none.mpr fun n hn => ?_
      have := h n hn
      simp only [decide_eq_true_eq]
      omega
    rw [onNodes, hnone]

namespace Machine

/-! ## One split -/

theorem expand_eq {parts : List Part} (h : ∀ p ∈ parts, ∀ n ∈ p.component, n < g.size)
    (agenda : List Pending) :
    expand g parts agenda = .ok
      (parts.filterMap fun p => (g.soleRoot? p.component).map fun root => ⟨p.dominator, root⟩,
        ((parts.filter fun p => (g.soleRoot? p.component).isNone).map fun p =>
          ⟨some p.dominator, p.component⟩).reverse ++ agenda) := by
  induction parts generalizing agenda with
  | nil => rfl
  | cons p parts ih =>
    have hrest := ih fun q hq => h q (List.mem_cons_of_mem _ hq)
    rw [expand, Graph.soleRootOf_eq (h p List.mem_cons_self)]
    cases hroot : g.soleRoot? p.component with
    | some root =>
      simp only
      rw [hrest agenda]
      simp [hroot]
    | none =>
      simp only
      rw [hrest]
      simp [hroot]

/-- The components of a split with one root become links, the others go to the agenda. -/
theorem expand_parts (hc : c.Unfoldable g) {s : Subgraph} (hs : c.Reaches s) {split : Split}
    (h : split ∈ c.splitsFor s) (agenda : List Pending) :
    expand g split.parts agenda = .ok (g.settled split, g.unsettled split ++ agenda) :=
  expand_eq (fun _ hp => hc.lt _ (hs.component h (List.mem_map_of_mem hp))) agenda

theorem enter_eq (hc : c.Unfoldable g) {s : Subgraph} (hs : c.Reaches s) {split : Split}
    (h : split ∈ c.splitsFor s) (m : Machine) (dominator : Option Nat) (untried : List Split)
    (agenda : List Pending) (outer : List Choice) :
    enter g m dominator split untried agenda outer =
      { m with
        agenda := g.unsettled split ++ agenda
        choices :=
          ⟨dominator, untried, linksTo dominator split.root ++ g.settled split, agenda⟩ :: outer
        chose := true } := by
  rw [enter, expand_parts hc hs h]

/-! ## What lies ahead -/

/-- The links of all choices, the outermost first. -/
def placed (choices : List Choice) : List Link := choices.reverse.flatMap (·.links)

theorem placed_cons (choice : Choice) (outer : List Choice) :
    placed (choice :: outer) = placed outer ++ choice.links := by
  simp [placed]

/-- The solutions that start with the choice of a split. -/
def behind (c : Chart) (g : Graph) (dominator : Option Nat) (agenda : List Pending)
    (outer : List Choice) (split : Split) : List (List Link) :=
  (c.unfolded g (g.unsettled split ++ agenda)).map
    (placed outer ++ (linksTo dominator split.root ++ g.settled split) ++ ·)

/-- The solutions that choices have left untried, those of the innermost choice first. -/
def later (c : Chart) (g : Graph) : List Choice → List (List Link)
  | [] => []
  | choice :: outer =>
    choice.untried.flatMap (behind c g choice.dominator choice.agenda outer) ++ later c g outer

/-- The solutions that a machine has not been through, in its order. -/
def ahead (c : Chart) (g : Graph) (m : Machine) : List (List Link) :=
  (c.unfolded g m.agenda).map (placed m.choices ++ ·) ++ later c g m.choices

/-- The choice goes back to subgraphs to which the top leads, and to splits of such. -/
structure Grounded (c : Chart) (choice : Choice) : Prop where
  agenda : ∀ entry ∈ choice.agenda, c.Reaches entry.subgraph
  untried : ∀ split ∈ choice.untried, ∃ s, c.Reaches s ∧ split ∈ c.splitsFor s

/-- The machine works on subgraphs to which the top leads, and was not stopped. As long as it has
not made a choice, only top-level subgraphs are on its agenda. -/
structure Running (c : Chart) (m : Machine) : Prop where
  halt : m.halt = none
  agenda : ∀ entry ∈ m.agenda, c.Reaches entry.subgraph
  choices : ∀ choice ∈ m.choices, Grounded c choice
  top : m.choices = [] → ∀ entry ∈ m.agenda, entry.dominator = none
  chose : m.chose = !m.choices.isEmpty

theorem ahead_of_agenda_nil (h : m.agenda = []) :
    ahead c g m = placed m.choices :: later c g m.choices := by
  rw [ahead, h, Chart.unfolded_nil]
  simp

/-! ## Working the agenda off -/

theorem placed_addLinks {links : List Link} {choices : List Choice}
    (h : choices = [] → links = []) :
    placed (addLinks links choices) = placed choices ++ links := by
  cases choices with
  | nil => rw [h rfl]; rfl
  | cons choice outer => simp only [addLinks, placed_cons, List.append_assoc]

theorem later_addLinks (links : List Link) (choices : List Choice) :
    later c g (addLinks links choices) = later c g choices := by
  cases choices <;> rfl

theorem addLinks_ne_nil {links : List Link} {choices : List Choice} (h : choices ≠ []) :
    addLinks links choices ≠ [] := by
  cases choices with
  | nil => exact absurd rfl h
  | cons choice outer => exact List.cons_ne_nil _ _

/-- What holds of the components of a split holds of all that the split puts on the agenda. -/
theorem forall_mem_unsettled_append {P : Subgraph → Prop} {split : Split}
    (h : ∀ w ∈ split.components, P w) {agenda : List Pending}
    (hagenda : ∀ entry ∈ agenda, P entry.subgraph) :
    ∀ entry ∈ g.unsettled split ++ agenda, P entry.subgraph := by
  intro entry hentry
  rcases List.mem_append.mp hentry with hentry | hentry
  · exact h _ (Chart.mem_components_of_mem_unsettled hentry)
  · exact hagenda entry hentry

/-- The machine after it has added links to its innermost choice. -/
theorem running_link (hm : Running c m) {agenda : List Pending}
    (hagenda : ∀ entry ∈ agenda, entry ∈ m.agenda) (links : List Link) :
    Running c { m with agenda, choices := addLinks links m.choices } where
  halt := hm.halt
  agenda entry hentry := hm.agenda entry (hagenda entry hentry)
  choices choice hchoice := by
    cases hchoices : m.choices with
    | nil => rw [hchoices] at hchoice; cases hchoice
    | cons first outer =>
      have hall := hm.choices
      rw [hchoices] at hchoice hall
      rcases List.mem_cons.mp hchoice with rfl | hchoice
      · exact ⟨(hall first List.mem_cons_self).agenda, (hall first List.mem_cons_self).untried⟩
      · exact hall choice (List.mem_cons_of_mem _ hchoice)
  top hnil entry hentry := by
    refine hm.top ?_ entry (hagenda entry hentry)
    by_contra hne
    exact addLinks_ne_nil hne hnil
  chose := by
    rw [hm.chose]
    cases m.choices <;> rfl

/-- The machine after it has chosen a split. -/
theorem running_choose {s : Subgraph} (hs : c.Reaches s) {split : Split} {untried : List Split}
    (hm : m.halt = none) (h : split ∈ c.splitsFor s)
    (huntried : ∀ other ∈ untried, ∃ t, c.Reaches t ∧ other ∈ c.splitsFor t)
    {agenda : List Pending} (hagenda : ∀ entry ∈ agenda, c.Reaches entry.subgraph)
    {outer : List Choice} (houter : ∀ choice ∈ outer, Grounded c choice)
    (dominator : Option Nat) (links : List Link) :
    Running c
      { m with
        agenda := g.unsettled split ++ agenda
        choices := ⟨dominator, untried, links, agenda⟩ :: outer
        chose := true } where
  halt := hm
  agenda := forall_mem_unsettled_append (fun _ hw => hs.component h hw) hagenda
  choices choice hchoice := by
    rcases List.mem_cons.mp hchoice with rfl | hchoice
    · exact ⟨hagenda, huntried⟩
    · exact houter choice hchoice
  top hnil := absurd hnil (List.cons_ne_nil _ _)
  chose := rfl

/-- The machine was stopped by a subgraph that needs a split and has none. -/
structure Stranded (c : Chart) (g : Graph) (m : Machine) : Prop where
  halt : ∃ s, c.Reaches s ∧ g.soleRoot? s = none ∧ c.splitsFor s = [] ∧ m.halt = some (.noSplit s)
  agenda : m.agenda = []
  choices : m.choices = []

/-- Where no split is missing, the machine is never stopped by one. -/
theorem not_stranded (hc : c.Navigable g) : ¬Stranded c g m := by
  rintro ⟨⟨s, hs, hroot, hnil, -⟩, -, -⟩
  exact hc.split s hs hroot hnil

/-- The machine has moved on to a state from which it goes through the same solutions. -/
structure Follows (c : Chart) (g : Graph) (m m' : Machine) : Prop where
  running : Running c m'
  ahead : ahead c g m' = ahead c g m
  choices : m.choices ≠ [] → m'.choices ≠ []

theorem Follows.trans {m' m'' : Machine} (h : Follows c g m m') (h' : Follows c g m' m'') :
    Follows c g m m'' where
  running := h'.running
  ahead := h'.ahead.trans h.ahead
  choices hne := h'.choices (h.choices hne)

/-- **One step down keeps all that lies ahead**, unless a split is missing. -/
theorem stepDown_spec {rank : Subgraph → Nat} (hc : c.Unfoldable g) (hr : c.Ranked rank)
    (hm : Running c m) {entry : Pending} {agenda : List Pending} (h : m.agenda = entry :: agenda) :
    Stranded c g (stepDown g c m entry agenda)
      ∨ Follows c g m (stepDown g c m entry agenda)
        ∧ c.weight rank (stepDown g c m entry agenda).agenda < c.weight rank m.agenda := by
  have hentry : entry ∈ m.agenda := h ▸ List.mem_cons_self
  have hagenda : ∀ e ∈ agenda, e ∈ m.agenda := fun e he => h ▸ List.mem_cons_of_mem _ he
  have hreach := hm.agenda entry hentry
  rw [stepDown, Graph.soleRootOf_eq (hc.lt _ hreach)]
  cases hroot : g.soleRoot? entry.subgraph with
  | some root =>
    -- before the first choice there is no choice to add links to, but then there are none to add
    have hlinks : m.choices = [] → linksTo entry.dominator root = [] := by
      intro hnil
      rw [hm.top hnil entry hentry]
      rfl
    refine .inr ⟨⟨running_link hm hagenda _, ?_, addLinks_ne_nil⟩, ?_⟩
    · simp only [ahead]
      rw [placed_addLinks hlinks, later_addLinks, h, hr.unfolded_cons_of_sole hroot]
      simp only [List.map_map, Function.comp_def, List.append_assoc]
    · rw [h]
      exact c.weight_lt_weight_cons rank entry agenda
  | none =>
    cases hlist : c.splitsFor entry.subgraph with
    | nil => exact .inl ⟨⟨_, hreach, hroot, hlist, rfl⟩, rfl, rfl⟩
    | cons split untried =>
      have hsplit : split ∈ c.splitsFor entry.subgraph := hlist ▸ List.mem_cons_self
      simp only
      rw [enter_eq hc hreach hsplit]
      refine .inr ⟨⟨running_choose hreach hm.halt hsplit (fun other hother => ?_)
        (fun e he => hm.agenda e (hagenda e he)) hm.choices _ _, ?_, ?_⟩, ?_⟩
      · exact ⟨entry.subgraph, hreach, hlist ▸ List.mem_cons_of_mem _ hother⟩
      · simp only [ahead, later, placed_cons]
        rw [h, hr.unfolded_cons_of_split hroot, hlist, List.flatMap_cons, List.map_append,
          List.map_flatMap, List.append_assoc]
        unfold behind
        simp only [List.map_map, Function.comp_def, List.append_assoc]
      · exact fun _ => List.cons_ne_nil _ _
      · rw [h]
        exact hr.weight_replace_lt hsplit agenda

theorem descendWithin_of_agenda_nil (steps : Nat) (h : m.agenda = []) :
    descendWithin g c steps m = m := by
  cases steps with
  | zero => rw [descendWithin, h]; rfl
  | succ steps => rw [descendWithin, h]

theorem descendWithin_of_agenda_cons (steps : Nat) {entry : Pending} {agenda : List Pending}
    (h : m.agenda = entry :: agenda) :
    descendWithin g c (steps + 1) m = descendWithin g c steps (stepDown g c m entry agenda) := by
  rw [descendWithin, h]

/-- **Working the agenda off ends at the first of the solutions ahead**, unless a split is
missing. -/
theorem descendWithin_spec {rank : Subgraph → Nat} (hc : c.Unfoldable g) (hr : c.Ranked rank)
    (steps : Nat) (hm : Running c m) (hsteps : c.weight rank m.agenda ≤ steps) :
    Stranded c g (descendWithin g c steps m)
      ∨ Follows c g m (descendWithin g c steps m) ∧ (descendWithin g c steps m).agenda = [] := by
  induction steps generalizing m with
  | zero =>
    cases hagenda : m.agenda with
    | nil =>
      rw [descendWithin_of_agenda_nil _ hagenda]
      exact .inr ⟨⟨hm, rfl, id⟩, hagenda⟩
    | cons entry agenda =>
      have := c.weight_lt_weight_cons rank entry agenda
      rw [hagenda] at hsteps
      omega
  | succ steps ih =>
    cases hagenda : m.agenda with
    | nil =>
      rw [descendWithin_of_agenda_nil _ hagenda]
      exact .inr ⟨⟨hm, rfl, id⟩, hagenda⟩
    | cons entry agenda =>
      rw [descendWithin_of_agenda_cons steps hagenda]
      rcases stepDown_spec hc hr hm hagenda with hstranded | ⟨hfollows, hweight⟩
      · rw [descendWithin_of_agenda_nil _ hstranded.agenda]
        exact .inl hstranded
      · rcases ih hfollows.running (by omega) with hstranded | ⟨hfollows', hnil⟩
        · exact .inl hstranded
        · exact .inr ⟨hfollows.trans hfollows', hnil⟩

theorem descend_spec (hc : c.Unfoldable g) (hm : Running c m) :
    Stranded c g (descend g c m)
      ∨ Follows c g m (descend g c m) ∧ (descend g c m).agenda = [] := by
  obtain ⟨rank, hr⟩ := hc.ranked
  exact descendWithin_spec hc hr _ hm (c.weight_le _ _)

theorem descend_of_agenda_nil (h : m.agenda = []) : descend g c m = m :=
  descendWithin_of_agenda_nil _ h

/-! ## Going back -/

/-- **Going back finds the first untried split, or nothing is left.** -/
theorem retry_cases (hc : c.Unfoldable g) (hm : m.halt = none) {choices : List Choice}
    (h : ∀ choice ∈ choices, Grounded c choice) :
    (later c g choices = [] ∧ retry g m choices = { m with agenda := [], choices := [] })
      ∨ (Running c (retry g m choices) ∧ (retry g m choices).choices ≠ []
          ∧ ahead c g (retry g m choices) = later c g choices) := by
  induction choices with
  | nil => exact .inl ⟨rfl, rfl⟩
  | cons choice outer ih =>
    have houter : ∀ other ∈ outer, Grounded c other :=
      fun other hother => h other (List.mem_cons_of_mem _ hother)
    have hfirst := h choice List.mem_cons_self
    cases huntried : choice.untried with
    | nil =>
      -- a choice that has been tried in all ways has nothing ahead
      have hlater : later c g (choice :: outer) = later c g outer := by
        rw [later, huntried, List.flatMap_nil, List.nil_append]
      rw [hlater, retry, huntried]
      exact ih houter
    | cons split untried =>
      have hmem : ∀ other ∈ split :: untried, ∃ s, c.Reaches s ∧ other ∈ c.splitsFor s :=
        huntried ▸ hfirst.untried
      obtain ⟨s, hs, hsplit⟩ := hmem split List.mem_cons_self
      rw [retry, huntried]
      simp only
      rw [enter_eq hc hs hsplit]
      refine .inr ⟨?_, List.cons_ne_nil _ _, ?_⟩
      · have huntried' : ∀ other ∈ untried, ∃ t, c.Reaches t ∧ other ∈ c.splitsFor t :=
          fun other hother => hmem other (List.mem_cons_of_mem _ hother)
        exact running_choose hs hm hsplit huntried' hfirst.agenda houter _ _
      · simp only [ahead, later, placed_cons]
        rw [huntried, List.flatMap_cons, List.append_assoc]
        rfl

theorem advance_of_agenda_nil (h : m.agenda = []) :
    m.advance g c = descend g c (retry g m m.choices) := by
  rw [advance, h]

/-- **A machine that stands at a solution goes on to the next of the solutions ahead**, unless it
has been through all of them or a split is missing. -/
theorem advance_cases (hc : c.Unfoldable g) (hm : Running c m) (h : m.agenda = []) :
    (later c g m.choices = [] ∧ m.advance g c = { m with agenda := [], choices := [] })
      ∨ Stranded c g (m.advance g c)
      ∨ Running c (m.advance g c) ∧ (m.advance g c).agenda = [] ∧ (m.advance g c).choices ≠ []
        ∧ later c g m.choices
          = placed (m.advance g c).choices :: later c g (m.advance g c).choices := by
  rw [advance_of_agenda_nil h]
  rcases retry_cases (g := g) hc hm.halt hm.choices with ⟨hlater, hretry⟩ | ⟨hrun, hne, hahead⟩
  · rw [hretry, descend_of_agenda_nil rfl]
    exact .inl ⟨hlater, rfl⟩
  · rcases descend_spec hc hrun with hstranded | ⟨hfollows, hnil⟩
    · exact .inr (.inl hstranded)
    · refine .inr (.inr ⟨hfollows.running, hnil, hfollows.choices hne, ?_⟩)
      rw [← hahead, ← hfollows.ahead, ahead_of_agenda_nil hnil]

theorem reaches_of_mem_start {entry : Pending} (h : entry ∈ (start c).agenda) :
    c.Reaches entry.subgraph := by
  obtain ⟨s, hs, rfl⟩ := List.mem_map.mp h
  exact .toplevel hs

/-- The machine runs before its first step. -/
theorem running_start (c : Chart) : Running c (start c) where
  halt := rfl
  agenda _ := reaches_of_mem_start
  choices := by simp [start]
  top _ entry hentry := by
    obtain ⟨s, -, rfl⟩ := List.mem_map.mp hentry
    rfl
  chose := rfl

theorem advance_start : (start c).advance g c = descend g c (start c) := by
  unfold advance
  split
  · next hnil =>
    have hretry : retry g (start c) [] = start c := by
      rw [retry, ← hnil]
      rfl
    exact congrArg (descend g c) hretry
  · rfl

theorem solvedForm?_of_choices_ne_nil (h : m.choices ≠ []) :
    m.solvedForm? = some (.ofLinks (placed m.choices)) := by
  unfold solvedForm?
  split
  · next hnil => exact absurd hnil h
  · rfl

end Machine

/-! ## The enumeration -/

namespace Enumeration

open Machine

variable {e : Enumeration}

/-- The enumeration is about to return the given solutions one after the other. -/
def Returns (e : Enumeration) : List (List Link) → Prop
  | [] => e.ready = none
  | links :: rest => e.ready = some (.ofLinks links) ∧ Running e.chart e.machine
      ∧ e.machine.agenda = [] ∧ later e.chart e.graph e.machine.choices = rest

/-- The enumeration is at its end because a split is missing. -/
def Stopped (e : Enumeration) : Prop := e.ready = none ∧ Stranded e.chart e.graph e.machine

/-- An enumeration is about to return the unfolded agenda, unless a split is missing. -/
theorem start_cases (hc : c.Unfoldable g) :
    (start g c).Stopped ∨ (start g c).machine.halt = none
      ∧ (start g c).Returns (c.unfolded g (Machine.start c).agenda) := by
  unfold start
  rw [advance_start]
  rcases descend_spec hc (running_start c) with hstranded | ⟨hfollows, hnil⟩
  · refine .inl ⟨?_, hstranded⟩
    obtain ⟨s, -, -, -, hhalt⟩ := hstranded.halt
    simp only [solvedForm?, hstranded.choices, hhalt, Option.isSome_some, Bool.or_true, if_true]
  · have hlist : c.unfolded g (Machine.start c).agenda
        = ahead c g (descend g c (Machine.start c)) := by
      rw [hfollows.ahead]
      simp [ahead, Machine.start, placed, later]
    rw [hlist, ahead_of_agenda_nil hnil]
    refine .inr ⟨hfollows.running.halt, ?_, hfollows.running, hnil, rfl⟩
    -- a machine that stands at no choice stands at the empty solved form
    by_cases hchoices : (descend g c (Machine.start c)).choices = []
    · have hchose := hfollows.running.chose
      rw [hchoices] at hchose
      simp only [solvedForm?, hchoices, hchose, hfollows.running.halt]
      rfl
    · simp only [solvedForm?_of_choices_ne_nil hchoices]

/-- Each call of `next` returns the first of the solutions ahead; a missing split may keep the
others from being returned. -/
theorem next_cases (hc : e.chart.Unfoldable e.graph) {links : List Link} {rest : List (List Link)}
    (h : e.Returns (links :: rest)) :
    e.next.1 = some (.ofLinks links) ∧ e.next.2.chart = e.chart ∧ e.next.2.graph = e.graph
      ∧ (e.next.2.Stopped ∨ e.next.2.machine.halt = none ∧ e.next.2.Returns rest) := by
  obtain ⟨hready, hrun, hnil, hrest⟩ := h
  rw [next, hready]
  refine ⟨rfl, rfl, rfl, ?_⟩
  rw [← hrest]
  rcases advance_cases (g := e.graph) hc hrun hnil with
    ⟨hlater, hadvance⟩ | hstranded | ⟨hrun', hnil', hne, hlater⟩
  · rw [hlater, hadvance]
    exact .inr ⟨hrun.halt, rfl⟩
  · exact .inl ⟨by simp only [solvedForm?, hstranded.choices], hstranded⟩
  · rw [hlater]
    exact .inr ⟨hrun'.halt, solvedForm?_of_choices_ne_nil hne, hrun', hnil', rfl⟩

theorem returns_start (hc : c.Navigable g) :
    (start g c).Returns (c.unfolded g (Machine.start c).agenda) :=
  ((start_cases hc.unfoldable).resolve_left fun hstopped => not_stranded hc hstopped.2).2

/-- **Each call of `next` returns the first of the solutions ahead.** -/
theorem returns_next (hc : e.chart.Navigable e.graph) {solutions : List (List Link)}
    (h : e.Returns solutions) :
    e.next.1 = solutions.head?.map SolvedForm.ofLinks ∧ e.next.2.Returns solutions.tail
      ∧ e.next.2.chart = e.chart ∧ e.next.2.graph = e.graph := by
  cases solutions with
  | nil =>
    have hready : e.ready = none := h
    rw [next, hready]
    exact ⟨rfl, hready, rfl, rfl⟩
  | cons links rest =>
    obtain ⟨hform, hchart, hgraph, hrest⟩ := next_cases hc.unfoldable h
    refine ⟨hform, (hrest.resolve_left fun hstopped => ?_).2, hchart, hgraph⟩
    have hstranded := hstopped.2
    rw [hchart, hgraph] at hstranded
    exact not_stranded hc hstranded

/-! ## Draining -/

/-- Calls of `next` return the listed solved forms one after the other, and then none. -/
inductive Drains : Enumeration → List SolvedForm → Prop
  | nil {e : Enumeration} (h : e.next.1 = none) : Drains e []
  | cons {e : Enumeration} {form : SolvedForm} {forms : List SolvedForm}
    (h : e.next.1 = some form) (hrest : Drains e.next.2 forms) : Drains e (form :: forms)

theorem next_of_ready_eq_none (h : e.ready = none) : e.next = (none, e) := by
  rw [next, h]

theorem fst_next (e : Enumeration) : e.next.1 = e.ready := by
  unfold next
  split
  · next h => rw [h]
  · next h => rw [h]

namespace Drains

variable {forms : List SolvedForm}

theorem fst_next (h : e.Drains forms) : e.next.1 = forms.head? := by
  cases h with
  | nil h => exact h
  | cons h _ => exact h

/-- A call takes the first solved form off the list; at the end it changes nothing. -/
theorem next (h : e.Drains forms) : e.next.2.Drains forms.tail := by
  cases h with
  | nil h =>
    have hready : e.ready = none := (Enumeration.fst_next e).symm.trans h
    rw [next_of_ready_eq_none hready]
    exact .nil h
  | cons _ hrest => exact hrest

theorem take (h : e.Drains forms) (n : Nat) :
    (e.take n).1 = forms.take n ∧ (e.take n).2.Drains (forms.drop n) := by
  induction n generalizing e forms with
  | zero => exact ⟨rfl, h⟩
  | succ n ih =>
    have hfirst := h.fst_next
    have hrest := h.next
    rw [Enumeration.take]
    cases forms with
    | nil =>
      cases hnext : e.next with
      | mk form after =>
        rw [hnext] at hfirst hrest
        cases hfirst
        exact ⟨rfl, hrest⟩
    | cons form forms =>
      cases hnext : e.next with
      | mk first after =>
        rw [hnext] at hfirst hrest
        cases hfirst
        obtain ⟨htake, hdrains⟩ := ih hrest
        exact ⟨congrArg (form :: ·) htake, hdrains⟩

end Drains

/-- Where no split is missing, an enumeration returns all that it has ahead. -/
theorem returns_drains (hc : e.chart.Navigable e.graph) {solutions : List (List Link)}
    (h : e.Returns solutions) : e.Drains (solutions.map SolvedForm.ofLinks) := by
  induction solutions generalizing e with
  | nil => exact .nil ((fst_next e).trans h)
  | cons links rest ih =>
    obtain ⟨hform, hrest, hchart, hgraph⟩ := returns_next hc h
    exact .cons hform (ih (by rwa [hchart, hgraph]) hrest)

theorem drains_start (hc : c.Navigable g) : (start g c).Drains (c.listing g) := by
  rw [Chart.listing_eq]
  exact returns_drains hc (returns_start hc)

/-- **The enumeration of a chart goes through its listing.** -/
theorem take_start (hc : c.Navigable g) (n : Nat) :
    ((start g c).take n).1 = (c.listing g).take n :=
  ((drains_start hc).take n).1

/-- Nothing is left once as many solved forms were taken as there are. -/
theorem ready_take_start (hc : c.Navigable g) {n : Nat} (hn : (c.listing g).length ≤ n) :
    ((start g c).take n).2.ready = none := by
  have h := ((drains_start hc).take n).2
  rw [List.drop_eq_nil_of_le hn] at h
  rw [← fst_next, h.fst_next]
  rfl

end Enumeration

theorem Readings.forms_take_start (hc : c.Complete g) (n : Nat) :
    ((start g c).take n).1 = (c.listing g).take n :=
  Enumeration.take_start hc.navigable n

end Dominance
