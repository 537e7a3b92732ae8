import Mathlib.Data.List.AList

/-! # Hash maps

`std::unordered_map` as an association list without repeated keys. The iteration order of the source is not
specified; here it is the order of the entries. -/

namespace Lib

/-- `std::unordered_map`. -/
abbrev UMap (κ ν : Type) := AList fun _ : κ => ν

namespace UMap
variable {κ ν : Type}

def size (m : UMap κ ν) : Nat := m.entries.length

/-- Every value is changed, and no key. -/
def mapValues (f : ν → ν) (m : UMap κ ν) : UMap κ ν where
  entries := m.entries.map fun e => ⟨e.1, f e.2⟩
  nodupKeys := by
    have := m.nodupKeys
    unfold List.NodupKeys List.keys at this ⊢
    rwa [List.map_map]

/-- The values, in the order of the entries. -/
def values (m : UMap κ ν) : List ν := m.entries.map (·.2)

variable [DecidableEq κ]

/-- `unordered_map::insert`: an existing entry stays as it is. -/
def emplace (m : UMap κ ν) (k : κ) (v : ν) : UMap κ ν := if k ∈ m then m else m.insert k v

variable {m : UMap κ ν} {k k' : κ} {v : ν}

theorem lookup_emplace_self (h : k ∉ m) (v : ν) : (m.emplace k v).lookup k = some v := by
  simp [emplace, h]

theorem emplace_of_mem (h : k ∈ m) (v : ν) : m.emplace k v = m := if_pos h

theorem emplace_of_notMem (h : k ∉ m) (v : ν) : m.emplace k v = m.insert k v := if_neg h

theorem lookup_emplace_ne (h : k' ≠ k) (v : ν) : (m.emplace k v).lookup k' = m.lookup k' := by
  unfold emplace
  split
  · rfl
  · exact AList.lookup_insert_ne h

/-- An entry of the grown map is an old one, or the new one when its key was free. -/
theorem lookup_emplace_eq_some {w : ν} (h : (m.emplace k v).lookup k' = some w) :
    m.lookup k' = some w ∨ (k' = k ∧ k ∉ m ∧ w = v) := by
  by_cases hk : k ∈ m
  · rw [emplace_of_mem hk] at h
    exact Or.inl h
  · rw [emplace_of_notMem hk] at h
    by_cases hkk : k' = k
    · subst hkk
      rw [AList.lookup_insert, Option.some.injEq] at h
      exact Or.inr ⟨rfl, hk, h.symm⟩
    · rw [AList.lookup_insert_ne hkk] at h
      exact Or.inl h

theorem lookup_erase_eq_some {w : ν} (h : (m.erase k).lookup k' = some w) : k' ≠ k ∧ m.lookup k' = some w := by
  by_cases hk : k' = k
  · subst hk
    rw [AList.lookup_erase] at h
    cases h
  · exact ⟨hk, by rwa [AList.lookup_erase_ne hk] at h⟩

theorem lookup_emplace (m : UMap κ ν) (k : κ) (v : ν) (k' : κ) :
    (m.emplace k v).lookup k' = (m.lookup k').or (if k' = k then some v else none) := by
  by_cases hk : k' = k
  · subst hk
    rw [if_pos rfl]
    by_cases hm : k' ∈ m
    · rw [emplace_of_mem hm, Option.or_of_isSome (AList.lookup_isSome.mpr hm)]
    · rw [lookup_emplace_self hm, AList.lookup_eq_none.mpr hm, Option.none_or]
  · rw [lookup_emplace_ne hk, if_neg hk, Option.or_none]

theorem lookup_erase (m : UMap κ ν) (k k' : κ) : (m.erase k).lookup k' = if k' = k then none else m.lookup k' := by
  split
  · next h => rw [h, AList.lookup_erase]
  · next h => exact AList.lookup_erase_ne h

theorem lookup_insert (m : UMap κ ν) (k k' : κ) (v : ν) :
    (m.insert k v).lookup k' = if k' = k then some v else m.lookup k' := by
  split
  · next h => rw [h, AList.lookup_insert]
  · next h => exact AList.lookup_insert_ne h

/-- Rows are entered one after the other: of several with one key, the first counts. -/
theorem lookup_foldl_emplace {ρ : Type} (key : ρ → κ) (val : ρ → ν) (k : κ) : ∀ (rows : List ρ) (m : UMap κ ν),
    (rows.foldl (fun m row => m.emplace (key row) (val row)) m).lookup k =
      (m.lookup k).or ((rows.find? (key · = k)).map val)
  | [], m => by rw [List.foldl_nil, List.find?_nil, Option.map_none, Option.or_none]
  | row :: rows, m => by
    rw [List.foldl_cons, lookup_foldl_emplace key val k rows, lookup_emplace, Option.or_assoc, List.find?_cons]
    by_cases hk : key row = k
    · rw [if_pos hk.symm, Option.some_or, decide_eq_true hk, Option.map_some]
    · rw [if_neg fun h => hk h.symm, Option.none_or, decide_eq_false hk]

theorem mem_of_lookup (h : m.lookup k = some v) : k ∈ m := AList.lookup_isSome.mp (by simp [h])

theorem mem_entries_iff : ⟨k, v⟩ ∈ m.entries ↔ m.lookup k = some v := AList.mem_lookup_iff.symm

theorem mem_values_of_lookup (h : m.lookup k = some v) : v ∈ m.values :=
  List.mem_map.mpr ⟨⟨k, v⟩, mem_entries_iff.mpr h, rfl⟩

theorem values_emplace_of_notMem (h : k ∉ m) (v : ν) : (m.emplace k v).values = v :: m.values := by
  rw [emplace_of_notMem h, values, AList.entries_insert_of_notMem h]
  rfl

/-- An erased entry takes one value along. -/
theorem values_perm_erase (h : m.lookup k = some v) : m.values.Perm (v :: values (m.erase k)) := by
  obtain ⟨w, l₁, l₂, -, hentries, hrest⟩ := List.exists_of_kerase (AList.mem_keys.mp (mem_of_lookup h))
  have hw : m.lookup k = some w := by
    rw [← mem_entries_iff, hentries]
    exact List.mem_append_right _ List.mem_cons_self
  obtain rfl : v = w := Option.some.inj (h.symm.trans hw)
  have herase : (m.erase k).entries = l₁ ++ l₂ := hrest
  rw [values, values, hentries, herase, List.map_append, List.map_append, List.map_cons]
  exact List.perm_middle

theorem eq_empty_of_lookup (h : ∀ k, m.lookup k = none) : m = ∅ := by
  refine AList.ext (List.eq_nil_iff_forall_not_mem.mpr fun e he => ?_)
  have hk := h e.1
  rw [mem_entries_iff.mp he] at hk
  cases hk

theorem mem_emplace : k' ∈ m.emplace k v ↔ k' = k ∨ k' ∈ m := by
  by_cases hk : k ∈ m
  · rw [emplace_of_mem hk]
    exact ⟨Or.inr, fun h => h.elim (fun e => e ▸ hk) id⟩
  · rw [emplace_of_notMem hk, AList.mem_insert]

omit [DecidableEq κ] in
theorem mem_mapValues {f : ν → ν} : k ∈ m.mapValues f ↔ k ∈ m := by
  have hkeys : (m.mapValues f).keys = m.keys := List.map_map ..
  rw [AList.mem_keys, hkeys, AList.mem_keys]

theorem lookup_mapValues (f : ν → ν) (k : κ) : (m.mapValues f).lookup k = (m.lookup k).map f := by
  cases h : m.lookup k with
  | none =>
    rw [AList.lookup_eq_none] at h
    rw [Option.map_none, AList.lookup_eq_none, mem_mapValues]
    exact h
  | some v =>
    rw [← mem_entries_iff] at h
    exact mem_entries_iff.mp (List.mem_map.mpr ⟨_, h, rfl⟩)

end UMap
end Lib
