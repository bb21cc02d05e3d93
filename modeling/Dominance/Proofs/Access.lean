import Dominance.Proofs.Enumeration

/-!
# Access in sequence and by position

The two ways to the readings of a chart have an enumeration each, which start alike and then never
touch each other.
What an enumeration is going to return is a list, which only its own steps shorten.
So the calls made before decide nothing but how far the sequence has come: a position gives the same
solved form before and after any other call, whether it was asked for in order or far behind the
end.

The splits of the chart may have gaps.
A subgraph without the splits that it needs stops an enumeration for good, just as the end does.

* `exists_drains` — calls of `next` come to an end
* `Placed.call` — what one call leaves of both lists
* `access_is_independent` — the answers after any calls
-/

namespace Dominance

variable {c : Chart} {g : Graph} {forms : List SolvedForm}

/-! ## Orderly enumerations -/

namespace Enumeration

variable {e : Enumeration}

/-- Nothing but a missing split has stopped the enumeration, and it goes through the solutions that
it has ahead unless one stops it. -/
structure Orderly (e : Enumeration) : Prop where
  unfoldable : e.chart.Unfoldable e.graph
  halt : ∀ reason, e.machine.halt = some reason → ∃ s, reason = .noSplit s
  returns : ∃ solutions, e.Returns solutions

theorem orderly_of_halt_eq_none (hc : e.chart.Unfoldable e.graph) (h : e.machine.halt = none)
    {solutions : List (List Link)} (hreturns : e.Returns solutions) : e.Orderly where
  unfoldable := hc
  halt reason hreason := by
    rw [h] at hreason
    cases hreason
  returns := ⟨solutions, hreturns⟩

/-- An enumeration that a missing split has stopped has nothing ahead. -/
theorem Stopped.orderly (hc : e.chart.Unfoldable e.graph) (h : e.Stopped) : e.Orderly where
  unfoldable := hc
  halt reason hreason := by
    obtain ⟨s, -, -, -, hhalt⟩ := h.2.halt
    exact ⟨s, Option.some.inj (hreason.symm.trans hhalt)⟩
  returns := ⟨[], h.1⟩

theorem orderly_start (hc : c.Unfoldable g) : (start g c).Orderly := by
  rcases start_cases hc with hstopped | ⟨hhalt, hreturns⟩
  · exact hstopped.orderly hc
  · exact orderly_of_halt_eq_none hc hhalt hreturns

theorem Orderly.next (h : e.Orderly) : e.next.2.Orderly := by
  obtain ⟨solutions, hreturns⟩ := h.returns
  cases solutions with
  | nil =>
    rw [next_of_ready_eq_none hreturns]
    exact h
  | cons links rest =>
    obtain ⟨-, hchart, hgraph, hrest⟩ := next_cases h.unfoldable hreturns
    have hc : e.next.2.chart.Unfoldable e.next.2.graph := by
      rw [hchart, hgraph]
      exact h.unfoldable
    rcases hrest with hstopped | ⟨hhalt, hreturns'⟩
    · exact hstopped.orderly hc
    · exact orderly_of_halt_eq_none hc hhalt hreturns'

theorem Orderly.take (h : e.Orderly) (n : Nat) : (e.take n).2.Orderly := by
  induction n generalizing e with
  | zero => exact h
  | succ n ih =>
    have hnext := h.next
    rw [Enumeration.take]
    split
    · next heq =>
      rw [heq] at hnext
      exact hnext
    · next heq =>
      rw [heq] at hnext
      exact ih hnext

/-- **Calls of `next` come to an end**, at the latest when all solutions ahead are used up. -/
theorem exists_drains (hc : e.chart.Unfoldable e.graph) {solutions : List (List Link)}
    (h : e.Returns solutions) : ∃ forms, e.Drains forms := by
  induction solutions generalizing e with
  | nil => exact ⟨[], .nil ((fst_next e).trans h)⟩
  | cons links rest ih =>
    obtain ⟨hform, hchart, hgraph, hrest⟩ := next_cases hc h
    rcases hrest with hstopped | ⟨-, hreturns⟩
    · exact ⟨_, .cons hform (.nil ((fst_next _).trans hstopped.1))⟩
    · obtain ⟨forms, hforms⟩ := ih (by rwa [hchart, hgraph]) hreturns
      exact ⟨_, .cons hform hforms⟩

theorem Orderly.exists_drains (h : e.Orderly) : ∃ forms, e.Drains forms := by
  obtain ⟨solutions, hreturns⟩ := h.returns
  exact Enumeration.exists_drains h.unfoldable hreturns

/-- An orderly enumeration has met no fault, and has come to its end within its bound. -/
theorem Orderly.sound (h : e.Orderly) : e.fault? = none ∧ e.machine.halt ≠ some .endless := by
  refine ⟨?_, fun hendless => ?_⟩
  · unfold fault?
    split
    · next fault hfault =>
      obtain ⟨s, hs⟩ := h.halt _ hfault
      cases hs
    · rfl
  · obtain ⟨s, hs⟩ := h.halt _ hendless
    cases hs

end Enumeration

/-! ## Calls -/

namespace Readings

/-- What can be asked of readings. -/
inductive Call where
  | next
  | hasNext
  | get (position : Nat)
deriving DecidableEq

/-- The readings after a call. -/
def call (r : Readings) : Call → Readings
  | .next => r.next.2
  | .hasNext => r
  | .get position => (r.get position).2

/-- The readings after calls in the given order. -/
def called (r : Readings) (calls : List Call) : Readings := calls.foldl call r

/-- The sequence has returned some of the listed solved forms, and the others are those that the
search by position has found and those that it is going to find. -/
structure Placed (forms : List SolvedForm) (returned : Nat) (r : Readings) : Prop where
  sequence : r.sequence.Orderly ∧ r.sequence.Drains (forms.drop returned)
  lookup : r.lookup.Orderly ∧ ∃ rest, r.lookup.Drains rest ∧ r.found.toList ++ rest = forms

variable {returned : Nat} {r : Readings}

/-- The sequence returns the next of the listed forms, and the search by position stays as it is. -/
theorem Placed.next (h : r.Placed forms returned) : r.next.2.Placed forms (returned + 1) where
  sequence := by
    refine ⟨h.sequence.1.next, ?_⟩
    have hdrains := h.sequence.2.next
    rwa [List.tail_drop] at hdrains
  lookup := h.lookup

/-- The search by position goes on if it has not come that far yet. -/
theorem Placed.get (h : r.Placed forms returned) (position : Nat) :
    (r.get position).1 = forms[position]? ∧ (r.get position).2.Placed forms returned := by
  obtain ⟨horderly, rest, hdrains, hforms⟩ := h.lookup
  obtain ⟨htake, hdrop⟩ := hdrains.take (position + 1 - r.found.size)
  have hfound : (r.get position).2.found.toList
      = r.found.toList ++ rest.take (position + 1 - r.found.size) := by
    rw [← htake]
    simp [Readings.get]
  refine ⟨?_, h.sequence, horderly.take _, _, hdrop, ?_⟩
  · -- the forms found now are the first ones of the list, up to the position at least
    have hprefix : (r.get position).2.found.toList
        = forms.take (r.found.size + (position + 1 - r.found.size)) := by
      rw [hfound, ← hforms, ← Array.length_toList, List.take_length_add_append]
    show (r.get position).2.found[position]? = _
    rw [← Array.getElem?_toList, hprefix, List.getElem?_take_of_lt (by omega)]
  · rw [hfound, List.append_assoc, List.take_append_drop, hforms]

/-- **One call leaves both ways where they were**, but for one step of the sequence if it asks for
the next solved form. -/
theorem Placed.call (h : r.Placed forms returned) (asked : Call) :
    (r.call asked).Placed forms (returned + if asked = .next then 1 else 0) := by
  cases asked with
  | next => exact h.next
  | hasNext => exact h
  | get position => exact (h.get position).2

theorem Placed.called (h : r.Placed forms returned) (calls : List Call) :
    (r.called calls).Placed forms (returned + calls.count .next) := by
  induction calls generalizing r returned with
  | nil => exact h
  | cons asked calls ih =>
    have hrest := ih (h.call asked)
    rw [List.count_cons, Nat.add_comm (calls.count _), ← Nat.add_assoc]
    simp only [beq_iff_eq]
    exact hrest

theorem Placed.fst_next (h : r.Placed forms returned) : r.next.1 = forms[returned]? := by
  rw [← List.head?_drop]
  exact h.sequence.2.fst_next

theorem hasNext_eq (r : Readings) : r.hasNext = r.next.1.isSome :=
  congrArg Option.isSome (Enumeration.fst_next r.sequence).symm

theorem Placed.fault? (h : r.Placed forms returned) : r.fault? = none := by
  rw [Readings.fault?, h.sequence.1.sound.1, h.lookup.1.sound.1]
  rfl

end Readings

open Readings in
/--
**Access in sequence and access by position agree, whatever calls were made before.**

The chart need not be filled: from the top it leads to nodes of the graph only, and it does not
refer to itself in a circle, but splits may be missing. Calls of `next` on fresh readings return a
finite list of solved forms. After any calls, the next call of `next` returns the solved form of
this list that comes behind those returned already, and nothing once there is none; `hasNext` says
which of the two it is; and a position gives the solved form of the list at that position, if the
list is that long. No call meets a fault, and none runs into the bound on the steps of the machine.
-/
theorem access_is_independent (hnodes : ∀ s, c.Reaches s → ∀ n ∈ s, n < g.size)
    (hacyclic : c.Acyclic) :
    ∃ forms, (start g c).sequence.Drains forms ∧ ∀ calls,
      ((start g c).called calls).next.1 = forms[calls.count .next]?
        ∧ ((start g c).called calls).hasNext = ((start g c).called calls).next.1.isSome
        ∧ (∀ position, (((start g c).called calls).get position).1 = forms[position]?)
        ∧ ((start g c).called calls).fault? = none
        ∧ ((start g c).called calls).sequence.machine.halt ≠ some .endless
        ∧ ((start g c).called calls).lookup.machine.halt ≠ some .endless := by
  have hstart := Enumeration.orderly_start (c := c) (g := g) ⟨hnodes, _, hacyclic.ranked⟩
  obtain ⟨forms, hdrains⟩ := hstart.exists_drains
  refine ⟨forms, hdrains, fun calls => ?_⟩
  have hplaced : (start g c).Placed forms 0 := ⟨⟨hstart, hdrains⟩, hstart, forms, hdrains, rfl⟩
  have hcalled := hplaced.called calls
  rw [Nat.zero_add] at hcalled
  exact ⟨hcalled.fst_next, hasNext_eq _, fun position => (hcalled.get position).1, hcalled.fault?,
    hcalled.sequence.1.sound.2, hcalled.lookup.1.sound.2⟩

/-- A chart for two fragments above a third one, in which one of two splits leads to a subgraph
without splits. -/
def Chart.gapped : Chart :=
  (Chart.empty.addToplevel (.range 5)).addSplits (.range 5)
      [(Split.bare 0).attach 1 (.ofList [2, 3, 4]), (Split.bare 2).attach 3 (.ofList [0, 1, 4])]
    |>.addSplit (.ofList [2, 3, 4]) ((Split.bare 2).attach 3 (.ofList [4]))

theorem access_is_independent_gapped :
    Chart.gapped.Acyclic
      ∧ ∃ form, (Readings.start Graph.twoReadings Chart.gapped).sequence.Drains [form]
        ∧ ∀ calls,
          ((Readings.start Graph.twoReadings Chart.gapped).called calls).next.1
              = [form][calls.count .next]?
            ∧ (((Readings.start Graph.twoReadings Chart.gapped).called calls).get 0).1 = some form
            ∧ (((Readings.start Graph.twoReadings Chart.gapped).called calls).get 7).1 = none := by
  have hacyclic : Chart.gapped.Acyclic :=
    (Chart.ranked_of_table Subgraph.size (by decide +kernel)).acyclic
  have hnodes : ∀ s, Chart.gapped.Reaches s → ∀ n ∈ s.ids, n < Graph.twoReadings.size := by
    intro s hs
    refine Chart.Reaches.of_table (P := fun s => ∀ n ∈ s.ids, n < Graph.twoReadings.size)
      ?_ ?_ hs <;> decide +kernel
  obtain ⟨forms, hdrains, hanswers⟩ := access_is_independent hnodes hacyclic
  have hget := (hanswers []).2.2.1
  have hfirst : (((Readings.start Graph.twoReadings Chart.gapped).called []).get 0).1.isSome
      = true := by decide +kernel
  have hsecond : (((Readings.start Graph.twoReadings Chart.gapped).called []).get 1).1 = none := by
    decide +kernel
  rw [hget] at hfirst hsecond
  match forms with
  | [] => cases hfirst
  | [form] =>
    refine ⟨hacyclic, form, hdrains, fun calls => ?_⟩
    obtain ⟨hnext, -, hget, -⟩ := hanswers calls
    exact ⟨hnext, hget 0, hget 7⟩
  | _ :: _ :: _ => cases hsecond

end Dominance
