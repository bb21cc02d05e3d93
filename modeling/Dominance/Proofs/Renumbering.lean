import Dominance.Clause.Write
import Dominance.Proofs.Mirror
import Dominance.Proofs.Survival

/-!
# Graphs with other numbers

If two graphs mirror each other and a function tells the number in one of them from the number in the
other, then it also turns the solved forms of one into the solved forms of the other.
Solved forms are sorted by number, so the function has to keep the order of the nodes if the links
are to be read in the same order.
Then the solved forms are the same by the names of the nodes.

* `Renumbers.listing_perm` — the solved forms are the same, apart from the numbers
* `Renumbers.couples_perm` — the solved forms are the same by name
* `Mirrors.isSome_solve?_iff`, `Renumbers.count_eq` — the answers are the same
-/

namespace Dominance

/-- The link between nodes with other numbers. -/
def Link.renumber (number : Nat → Nat) (l : Link) : Link := ⟨number l.source, number l.target⟩

/-- The solved form of nodes with other numbers. -/
def SolvedForm.renumber (number : Nat → Nat) (f : SolvedForm) : SolvedForm :=
  .ofLinks (f.links.map (Link.renumber number))

theorem SolvedForm.renumber_id : SolvedForm.renumber id = id := by
  funext f
  refine SolvedForm.eq_of_perm ((SolvedForm.ofLinks_perm _).trans (List.Perm.of_eq ?_))
  exact List.map_id f.links

namespace Graph

/-- The links of a solved form as couples of names. -/
def couples (g : Graph) (f : SolvedForm) : List (String × String) :=
  f.links.map fun l => (g.spell l.source, g.spell l.target)

/-- Two graphs that mirror each other, with the nodes in the same order and under the same names. -/
structure Renumbers (g g' : Graph) (same : Nat → Nat → Prop) (number : Nat → Nat) : Prop
    extends g.Mirrors g' same where
  number_eq : ∀ {a a' : Nat}, same a a' → number a = a'
  lt_of_lt : ∀ {a a' b b' : Nat}, same a a' → same b b' → a < b → a' < b'
  spell_eq : ∀ {a a' : Nat}, same a a' → g'.spell a' = g.spell a

variable {g g' : Graph} {same : Nat → Nat → Prop} {number : Nat → Nat} {f f' : SolvedForm}
  {links links' : List Link}

/-! ## Links -/

theorem Mirrors.link_eq (h : g.Mirrors g' same) {l₁ l₂ l' : Link}
    (h₁ : same l₁.source l'.source ∧ same l₁.target l'.target)
    (h₂ : same l₂.source l'.source ∧ same l₂.target l'.target) : l₁ = l₂ := by
  cases l₁
  cases l₂
  rw [Link.mk.injEq]
  exact ⟨h.back.unique h₁.1 h₂.1, h.back.unique h₁.2 h₂.2⟩

/-- No two lists have links between the same nodes as a third one. -/
theorem Mirrors.links_perm (h : g.Mirrors g' same) {links₁ links₂ : List Link}
    (h₁ : SameLinks same links₁ links') (h₂ : SameLinks same links₂ links')
    (hnodup₁ : links₁.Nodup) (hnodup₂ : links₂.Nodup) : links₁.Perm links₂ := by
  have hsubset : ∀ {as bs : List Link}, SameLinks same as links' → SameLinks same bs links' →
      ∀ l ∈ as, l ∈ bs := by
    intro as bs has hbs l hl
    obtain ⟨l', hl', hends⟩ := has.forth l hl
    obtain ⟨k, hk, hends'⟩ := hbs.back l' hl'
    exact h.link_eq hends' hends ▸ hk
  exact (List.perm_ext_iff_of_nodup hnodup₁ hnodup₂).mpr fun l =>
    ⟨hsubset h₁ h₂ l, hsubset h₂ h₁ l⟩

namespace Renumbers

theorem renumber_link (h : g.Renumbers g' same number) {l l' : Link}
    (hends : same l.source l'.source ∧ same l.target l'.target) : l.renumber number = l' := by
  rw [Link.renumber, h.number_eq hends.1, h.number_eq hends.2]

/-- Links between the same nodes differ by the numbers of the nodes only. -/
theorem perm_renumber (h : g.Renumbers g' same number) (hsame : SameLinks same links links')
    (hnodup : links.Nodup) (hnodup' : links'.Nodup) :
    (links.map (Link.renumber number)).Perm links' := by
  refine (List.perm_ext_iff_of_nodup (hnodup.map_on ?_) hnodup').mpr fun l' => ?_
  · intro l₁ hl₁ l₂ hl₂ heq
    obtain ⟨l₁', -, hends₁⟩ := hsame.forth l₁ hl₁
    obtain ⟨l₂', -, hends₂⟩ := hsame.forth l₂ hl₂
    rw [h.renumber_link hends₁, h.renumber_link hends₂] at heq
    exact h.link_eq hends₁ (heq ▸ hends₂)
  · rw [List.mem_map]
    constructor
    · rintro ⟨l, hl, rfl⟩
      obtain ⟨l', hl', hends⟩ := hsame.forth l hl
      exact h.renumber_link hends ▸ hl'
    · intro hl'
      obtain ⟨l, hl, hends⟩ := hsame.back l' hl'
      exact ⟨l, hl, h.renumber_link hends⟩

/-- Numbers in the same order leave the links in the same order. -/
theorem links_renumber (h : g.Renumbers g' same number)
    (hsame : SameLinks same f.links f'.links) :
    (f.renumber number).links = f.links.map (Link.renumber number) := by
  have hsorted : (f.links.map (Link.renumber number)).Pairwise fun a b => a.le b = true := by
    refine List.pairwise_map.mpr (f.sorted.imp_of_mem fun {l k} hl hk hle => ?_)
    obtain ⟨l', -, hl⟩ := hsame.forth l hl
    obtain ⟨k', -, hk⟩ := hsame.forth k hk
    rw [h.renumber_link hl, h.renumber_link hk, Link.le_iff]
    rcases Link.le_iff.mp hle with hlt | ⟨hsource, htarget⟩
    · exact .inl (h.lt_of_lt hl.1 hk.1 hlt)
    · refine .inr ⟨?_, ?_⟩
      · rw [← h.number_eq hl.1, ← h.number_eq hk.1, hsource]
      · rcases Nat.lt_or_eq_of_le htarget with hlt | heq
        · exact Nat.le_of_lt (h.lt_of_lt hl.2 hk.2 hlt)
        · rw [← h.number_eq hl.2, ← h.number_eq hk.2, heq]
  exact (SolvedForm.ofLinks_perm _).eq_of_pairwise (fun _ _ _ _ => Link.le_antisymm)
    (f.renumber number).sorted hsorted

/-! ## Solved forms -/

theorem renumber_eq (h : g.Renumbers g' same number) (hsolved : g.solving.solved = true)
    (hsolved' : g'.solving.solved = true) (hf : f ∈ g.solving.chart.listing g)
    (hf' : f' ∈ g'.solving.chart.listing g') (hsame : SameLinks same f.links f'.links) :
    f.renumber number = f' := by
  have hperm := h.perm_renumber hsame (nodup_links_of_mem_listing h.forth.simple hsolved hf)
    (nodup_links_of_mem_listing h.back.simple hsolved' hf')
  exact SolvedForm.eq_of_perm ((SolvedForm.ofLinks_perm _).trans hperm)

/-- **The solved forms are the same**, apart from the numbers of the nodes and the order in which the
solved forms are listed. -/
theorem listing_perm (h : g.Renumbers g' same number) (hsolved : g.solving.solved = true)
    (hsolved' : g'.solving.solved = true) :
    (g'.solving.chart.listing g').Perm
      ((g.solving.chart.listing g).map (SolvedForm.renumber number)) := by
  have hrenumber : ∀ f ∈ g.solving.chart.listing g, ∃ f' ∈ g'.solving.chart.listing g',
      SameLinks same f.links f'.links ∧ f.renumber number = f' := by
    intro f hf
    obtain ⟨f', hf', hsame⟩ := h.exists_listed hsolved hsolved' hf
    exact ⟨f', hf', hsame, h.renumber_eq hsolved hsolved' hf hf' hsame⟩
  refine (List.perm_ext_iff_of_nodup (nodup_listing_solving h.back.simple hsolved')
    ((nodup_listing_solving h.forth.simple hsolved).map_on ?_)).mpr fun f' => ?_
  · intro f₁ hf₁ f₂ hf₂ heq
    obtain ⟨f₁', -, hsame₁, hf₁'⟩ := hrenumber f₁ hf₁
    obtain ⟨f₂', -, hsame₂, hf₂'⟩ := hrenumber f₂ hf₂
    rw [hf₁', hf₂'] at heq
    exact SolvedForm.eq_of_perm (h.links_perm hsame₁ (heq ▸ hsame₂)
      (nodup_links_of_mem_listing h.forth.simple hsolved hf₁)
      (nodup_links_of_mem_listing h.forth.simple hsolved hf₂))
  · rw [List.mem_map]
    constructor
    · intro hf'
      obtain ⟨f, hf, hsame⟩ := h.symm.exists_listed hsolved' hsolved hf'
      exact ⟨f, hf, h.renumber_eq hsolved hsolved' hf hf' hsame.symm⟩
    · rintro ⟨f, hf, rfl⟩
      obtain ⟨f', hf', -, heq⟩ := hrenumber f hf
      exact heq ▸ hf'

/-- **The solved forms are the same by name.** -/
theorem couples_perm (h : g.Renumbers g' same number) (hsolved : g.solving.solved = true)
    (hsolved' : g'.solving.solved = true) :
    ((g'.solving.chart.listing g').map g'.couples).Perm
      ((g.solving.chart.listing g).map g.couples) := by
  refine ((h.listing_perm hsolved hsolved').map g'.couples).trans ?_
  rw [List.map_map]
  refine List.Perm.of_eq (List.map_congr_left fun f hf => ?_)
  obtain ⟨f', -, hsame⟩ := h.exists_listed hsolved hsolved' hf
  rw [Function.comp_apply, couples, h.links_renumber hsame, List.map_map]
  refine List.map_congr_left fun l hl => ?_
  obtain ⟨l', -, hends⟩ := hsame.forth l hl
  rw [Function.comp_apply, h.renumber_link hends, h.spell_eq hends.1, h.spell_eq hends.2]

end Renumbers

/-! ## Answers -/

theorem Mirrors.isSome_solve?_iff (h : g.Mirrors g' same) :
    g.solve?.isSome = true ↔ g'.solve?.isSome = true := by
  rw [isSome_solve?, isSome_solve?]
  exact ⟨h.solved, h.symm.solved⟩

namespace Renumbers

variable {c c' : Chart}

theorem count_eq (h : g.Renumbers g' same number) (hc : g.solve? = some c)
    (hc' : g'.solve? = some c') : c.count.1 = c'.count.1 := by
  obtain ⟨hsolved, rfl⟩ := solve?_eq_some_iff.mp hc
  obtain ⟨hsolved', rfl⟩ := solve?_eq_some_iff.mp hc'
  have hlength := (h.listing_perm hsolved hsolved').length_eq
  rw [List.length_map, (sane_solving hsolved).length_listing,
    (sane_solving hsolved').length_listing] at hlength
  exact hlength.symm

theorem rest_perm (h : g.Renumbers g' same number) (hc : g.solve? = some c)
    (hc' : g'.solve? = some c') :
    (Readings.start g' c').rest.1.Perm
      ((Readings.start g c).rest.1.map (SolvedForm.renumber number)) := by
  obtain ⟨hsolved, rfl⟩ := solve?_eq_some_iff.mp hc
  obtain ⟨hsolved', rfl⟩ := solve?_eq_some_iff.mp hc'
  rw [Readings.rest_start (sane_solving hsolved), Readings.rest_start (sane_solving hsolved')]
  exact h.listing_perm hsolved hsolved'

theorem couples_rest_perm (h : g.Renumbers g' same number) (hc : g.solve? = some c)
    (hc' : g'.solve? = some c') :
    ((Readings.start g' c').rest.1.map g'.couples).Perm
      ((Readings.start g c).rest.1.map g.couples) := by
  obtain ⟨hsolved, rfl⟩ := solve?_eq_some_iff.mp hc
  obtain ⟨hsolved', rfl⟩ := solve?_eq_some_iff.mp hc'
  rw [Readings.rest_start (sane_solving hsolved), Readings.rest_start (sane_solving hsolved')]
  exact h.couples_perm hsolved hsolved'

end Renumbers

end Graph

end Dominance
