/-
CanChat/UnorderedMap.lean

Finite maps with a non-dependent interface, after `std::unordered_map`.

Mathlib's `AList` carries the invariant that keys are distinct, but its
`lookup` has a type that depends on the key, so `simp` cannot rewrite inside
the key.  Here the operations are restated for a constant value type, each
with the one equation `simp` needs: what a lookup finds afterwards.  The order
of `values` is that of the underlying list; `std::unordered_map` promises
none, and no result below depends on it.
-/
import Mathlib.Data.List.AList

/-- A finite map from `κ` to `ν` that can be iterated. -/
def UnorderedMap (κ ν : Type*) := AList fun _ : κ => ν

namespace UnorderedMap

variable {κ ν : Type*}

instance : EmptyCollection (UnorderedMap κ ν) := ⟨(∅ : AList fun _ : κ => ν)⟩

instance : Inhabited (UnorderedMap κ ν) := ⟨∅⟩

/-- The number of entries. -/
def size (m : UnorderedMap κ ν) : ℕ := m.entries.length

/-- The values, in the order of iteration. -/
def values (m : UnorderedMap κ ν) : List ν := m.entries.map Sigma.snd

@[simp] theorem values_empty : (∅ : UnorderedMap κ ν).values = [] := rfl

section Lookup

variable [DecidableEq κ]

/-- `find`, as an option. -/
def lookup (m : UnorderedMap κ ν) (k : κ) : Option ν := AList.lookup k m

/-- `operator[]` with an assignment: a value under the same key is replaced. -/
def insert (m : UnorderedMap κ ν) (k : κ) (v : ν) : UnorderedMap κ ν := AList.insert k v m

/-- `erase` by key; nothing happens to an absent key. -/
def erase (m : UnorderedMap κ ν) (k : κ) : UnorderedMap κ ν := AList.erase k m

/-! ### What a lookup finds -/

@[simp] theorem lookup_empty (k : κ) : (∅ : UnorderedMap κ ν).lookup k = none :=
  AList.lookup_empty k

/-- What is found after an insertion. -/
theorem lookup_insert (m : UnorderedMap κ ν) (k k' : κ) (v : ν) :
    (m.insert k v).lookup k' = if k' = k then some v else m.lookup k' := by
  split
  · next h => subst h; exact AList.lookup_insert m
  · next h => exact AList.lookup_insert_ne h

/-- What is found after an erasure. -/
theorem lookup_erase (m : UnorderedMap κ ν) (k k' : κ) :
    (m.erase k).lookup k' = if k' = k then none else m.lookup k' := by
  split
  · next h => subst h; exact AList.lookup_erase k' m
  · next h => exact AList.lookup_erase_ne h

@[simp] theorem lookup_insert_self (m : UnorderedMap κ ν) (k : κ) (v : ν) :
    (m.insert k v).lookup k = some v := by simp [lookup_insert]

@[simp] theorem lookup_erase_self (m : UnorderedMap κ ν) (k : κ) :
    (m.erase k).lookup k = none := by simp [lookup_erase]

theorem lookup_erase_eq_some {m : UnorderedMap κ ν} {k k' : κ} {v : ν} :
    (m.erase k).lookup k' = some v ↔ k' ≠ k ∧ m.lookup k' = some v := by
  rw [lookup_erase]
  split <;> simp [*]

/-! ### Iteration -/

/-- The values are what is found under some key. -/
theorem mem_values {m : UnorderedMap κ ν} {v : ν} :
    v ∈ m.values ↔ ∃ k, m.lookup k = some v := by
  simp only [values, List.mem_map, Sigma.exists]
  constructor
  · rintro ⟨k, w, hmem, rfl⟩
    exact ⟨k, AList.mem_lookup_iff.mpr hmem⟩
  · rintro ⟨k, hk⟩
    exact ⟨k, v, AList.mem_lookup_iff.mp hk, rfl⟩

/-- Under distinct keys are distinct values, so none is iterated twice. -/
theorem nodup_values {m : UnorderedMap κ ν}
    (h : ∀ k k' v, m.lookup k = some v → m.lookup k' = some v → k = k') : m.values.Nodup := by
  have hentries : m.entries.Nodup := List.NodupKeys.nodup m.nodupKeys
  refine hentries.map_on ?_
  rintro ⟨k, v⟩ hv ⟨k', v'⟩ hv' heq
  obtain rfl : v = v' := heq
  obtain rfl := h k k' v (AList.mem_lookup_iff.mpr hv) (AList.mem_lookup_iff.mpr hv')
  rfl

/-- A map is empty exactly if it finds nothing. -/
theorem size_eq_zero_iff {m : UnorderedMap κ ν} : m.size = 0 ↔ ∀ k, m.lookup k = none := by
  constructor
  · intro h k
    rcases e : m.lookup k with - | v
    · rfl
    · have hmem : (⟨k, v⟩ : Sigma fun _ : κ => ν) ∈ m.entries := AList.mem_lookup_iff.mp e
      rw [List.length_eq_zero_iff.mp h] at hmem
      cases hmem
  · intro h
    refine List.length_eq_zero_iff.mpr (List.eq_nil_iff_forall_not_mem.mpr ?_)
    rintro ⟨k, v⟩ hmem
    have hk : m.lookup k = some v := AList.mem_lookup_iff.mpr hmem
    rw [h k] at hk
    cases hk

end Lookup

end UnorderedMap
