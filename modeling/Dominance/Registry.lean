/-!
# Registries of names

A registry gives identifiers to names: the identifier of a name is its position in the order of
first registration, and registering a name again changes nothing.
Each name may carry a value.

No name is registered twice; a registry carries the proof of that.

* `register_of_idOf?_eq_some`, `register_of_idOf?_eq_none`: the two cases of a registration
* `name?_of_idOf?`, `idOf?_of_name?`: the identifier of a name leads back to the name, and the name
  of an identifier to the identifier
* `value?_modify`, `value?_mapValues`: what changes of values do to the values
-/

namespace Dominance

/-- The names of listed entries. -/
def namesIn {α : Type} (entries : Array (String × α)) : List String := entries.toList.map (·.1)

/-- Names with their values, in the order of first registration. -/
structure Registry (α : Type) where
  entries : Array (String × α)
  distinct : (namesIn entries).Nodup

namespace Registry

variable {α : Type}

/-- The registry without names. -/
def empty : Registry α := ⟨#[], List.nodup_nil⟩

instance : Inhabited (Registry α) := ⟨empty⟩

/-- The number of names. -/
def size (r : Registry α) : Nat := r.entries.size

/-- Whether no name is registered. -/
def isEmpty (r : Registry α) : Bool := r.entries.isEmpty

/-- The identifier of a name. -/
def idOf? (r : Registry α) (name : String) : Option Nat :=
  r.entries.findIdx? fun entry => entry.1 = name

/-- Whether a name is registered. -/
def contains (r : Registry α) (name : String) : Bool := (r.idOf? name).isSome

/-- The name with a given identifier. -/
def name? (r : Registry α) (id : Nat) : Option String := r.entries[id]?.map (·.1)

/-- The value of the name with a given identifier. -/
def value? (r : Registry α) (id : Nat) : Option α := r.entries[id]?.map (·.2)

/-- All names, by identifier. -/
def names (r : Registry α) : List String := namesIn r.entries

theorem nodup_namesIn_push {r : Registry α} {name : String} (value : α)
    (h : r.idOf? name = none) : (namesIn (r.entries.push (name, value))).Nodup := by
  have hfresh : name ∉ namesIn r.entries := by
    intro hmem
    obtain ⟨entry, hentry, rfl⟩ := List.mem_map.mp hmem
    have := Array.findIdx?_eq_none_iff.mp h entry (Array.mem_toList_iff.mp hentry)
    simp at this
  simp only [namesIn, Array.toList_push, List.map_append, List.map_cons, List.map_nil]
  refine List.nodup_append.mpr ⟨r.distinct, by simp, ?_⟩
  intro a ha b hb
  rw [List.mem_singleton.mp hb]
  exact fun he => hfresh (he ▸ ha)

theorem namesIn_modify (entries : Array (String × α)) (id : Nat) (f : α → α) :
    namesIn (entries.modify id fun entry => (entry.1, f entry.2)) = namesIn entries := by
  apply List.ext_getElem?
  intro i
  simp only [namesIn, List.getElem?_map, Array.getElem?_toList, Array.getElem?_modify]
  split
  · cases entries[i]? <;> rfl
  · rfl

theorem namesIn_mapValues {β : Type} (entries : Array (String × α)) (f : α → β) :
    namesIn (entries.map fun entry => (entry.1, f entry.2)) = namesIn entries := by
  simp [namesIn]

/-- Registers a name unless it is known; the result is its identifier and the registry. -/
def register (r : Registry α) (name : String) (value : α) : Nat × Registry α :=
  match h : r.idOf? name with
  | some id => (id, r)
  | none => (r.size, ⟨r.entries.push (name, value), nodup_namesIn_push value h⟩)

/-- Changes the value of the name with a given identifier, if there is one. -/
def modify (r : Registry α) (id : Nat) (f : α → α) : Registry α where
  entries := r.entries.modify id fun entry => (entry.1, f entry.2)
  distinct := (namesIn_modify r.entries id f).symm ▸ r.distinct

/-- Changes the values of all names. -/
def mapValues {β : Type} (r : Registry α) (f : α → β) : Registry β where
  entries := r.entries.map fun entry => (entry.1, f entry.2)
  distinct := (namesIn_mapValues r.entries f).symm ▸ r.distinct

/-- The registry of the listed names. -/
def ofNames (names : List String) : Registry Unit :=
  names.foldl (fun r name => (r.register name ()).2) empty

/-! ## Laws -/

theorem register_of_idOf?_eq_some {r : Registry α} {name : String} {id : Nat} (value : α)
    (h : r.idOf? name = some id) : r.register name value = (id, r) := by
  unfold register
  split
  · next h' => rw [h] at h'; cases h'; rfl
  · next h' => rw [h] at h'; cases h'

theorem register_of_idOf?_eq_none {r : Registry α} {name : String} (value : α)
    (h : r.idOf? name = none) :
    r.register name value
      = (r.size, ⟨r.entries.push (name, value), nodup_namesIn_push value h⟩) := by
  unfold register
  split
  · next h' => rw [h] at h'; cases h'
  · rfl

theorem name?_of_idOf? {r : Registry α} {name : String} {id : Nat} (h : r.idOf? name = some id) :
    r.name? id = some name := by
  obtain ⟨hlt, hname, -⟩ := Array.findIdx?_eq_some_iff_getElem.mp h
  have : r.entries[id].1 = name := by simpa using hname
  simp [name?, Array.getElem?_eq_getElem hlt, this]

@[simp]
theorem size_modify (r : Registry α) (id : Nat) (f : α → α) : (r.modify id f).size = r.size := by
  simp [size, modify]

@[simp]
theorem size_mapValues {β : Type} (r : Registry α) (f : α → β) :
    (r.mapValues f).size = r.size := by
  simp [size, mapValues]

/-- The identifiers are the numbers below the size. -/
theorem value?_isSome {r : Registry α} {n : Nat} : (r.value? n).isSome = true ↔ n < r.size := by
  simp [value?, size]

theorem name?_eq (r : Registry α) (n : Nat) : r.name? n = r.names[n]? := by
  simp [name?, names, namesIn]

theorem length_names (r : Registry α) : r.names.length = r.size := by
  simp [names, namesIn, size]

theorem value?_modify (r : Registry α) (id : Nat) (f : α → α) (n : Nat) :
    (r.modify id f).value? n = if id = n then (r.value? n).map f else r.value? n := by
  simp only [value?, modify, Array.getElem?_modify]
  split
  · cases r.entries[n]? <;> rfl
  · rfl

theorem value?_mapValues {β : Type} (r : Registry α) (f : α → β) (n : Nat) :
    (r.mapValues f).value? n = (r.value? n).map f := by
  simp only [value?, mapValues, Array.getElem?_map]
  cases r.entries[n]? <;> rfl

theorem idOf?_eq_none {r : Registry α} {name : String} (h : name ∉ r.names) :
    r.idOf? name = none := by
  refine Array.findIdx?_eq_none_iff.mpr fun entry hentry => ?_
  refine decide_eq_false fun heq => h ?_
  exact List.mem_map.mpr ⟨entry, Array.mem_toList_iff.mpr hentry, heq⟩

/-- The name with an identifier leads back to the identifier, because no name comes twice. -/
theorem idOf?_of_name? {r : Registry α} {name : String} {id : Nat} (h : r.name? id = some name) :
    r.idOf? name = some id := by
  cases hid : r.idOf? name with
  | none =>
    rw [name?_eq] at h
    obtain ⟨entry, hentry, rfl⟩ := List.mem_map.mp (List.mem_of_getElem? h)
    have := Array.findIdx?_eq_none_iff.mp hid entry (Array.mem_toList_iff.mp hentry)
    simp at this
  | some id' =>
    have h' := name?_of_idOf? hid
    rw [name?_eq] at h h'
    have hlt : id' < r.names.length := (List.getElem?_eq_some_iff.mp h').1
    rw [(List.getElem?_inj hlt r.distinct).mp (h'.trans h.symm)]

/-- A registration changes no value, and gives its own value to a new name only. -/
theorem value?_register {r : Registry α} {name : String} {value v : α} {n : Nat}
    (h : (r.register name value).2.value? n = some v) :
    r.value? n = some v ∨ (n = r.size ∧ v = value) := by
  cases hid : r.idOf? name with
  | some id =>
    rw [register_of_idOf?_eq_some value hid] at h
    exact .inl h
  | none =>
    rw [register_of_idOf?_eq_none value hid] at h
    simp only [value?, Array.getElem?_push] at h
    split at h
    · next hn => exact .inr ⟨hn, by simpa using h.symm⟩
    · exact .inl h

theorem size_le_size_register (r : Registry α) (name : String) (value : α) :
    r.size ≤ (r.register name value).2.size := by
  cases hid : r.idOf? name with
  | some id => simp [register_of_idOf?_eq_some value hid]
  | none => simp [register_of_idOf?_eq_none value hid, size]

end Registry

end Dominance
