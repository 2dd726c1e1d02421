import Mathlib.Tactic
import Mathlib.Data.Finmap

/-!
# Finite maps with a bound on their size

A finite map together with the proof that it has at most `cap` keys. A new
key is accepted only while there is room, so a map over its bound cannot be
built.
-/

set_option autoImplicit false

namespace BoundedMaps

variable {κ ν : Type*} [DecidableEq κ] {cap : ℕ}

structure BoundedMap (κ ν : Type*) [DecidableEq κ] (cap : ℕ) where
  map : Finmap (fun _ : κ => ν)
  bounded : map.keys.card ≤ cap

theorem keys_insert (k : κ) (v : ν) (m : Finmap (fun _ : κ => ν)) :
    (m.insert k v).keys = insert k m.keys := by
  ext x
  simp [Finmap.mem_keys]

def empty : BoundedMap κ ν cap := ⟨∅, by simp⟩

def lookup (m : BoundedMap κ ν cap) (k : κ) : Option ν := m.map.lookup k

def size (m : BoundedMap κ ν cap) : ℕ := m.map.keys.card

def Has (m : BoundedMap κ ν cap) (k : κ) : Prop := k ∈ m.map

instance (m : BoundedMap κ ν cap) (k : κ) : Decidable (Has m k) :=
  inferInstanceAs (Decidable (k ∈ m.map))

/-- A new key; refused when the key exists or the map is full. -/
def create (m : BoundedMap κ ν cap) (k : κ) (v : ν) : Option (BoundedMap κ ν cap) :=
  if h : m.map.keys.card < cap then
    if Has m k then none
    else some ⟨m.map.insert k v, by
      rw [keys_insert]
      exact (Finset.card_insert_le k m.map.keys).trans h⟩
  else none

/-- A new value for an existing key; refused when the key is absent. -/
def write (m : BoundedMap κ ν cap) (k : κ) (v : ν) : Option (BoundedMap κ ν cap) :=
  if h : k ∈ m.map then
    some ⟨m.map.insert k v, by
      rw [keys_insert, Finset.insert_eq_of_mem (Finmap.mem_keys.mpr h)]
      exact m.bounded⟩
  else none

def delete (m : BoundedMap κ ν cap) (k : κ) : Option (BoundedMap κ ν cap) :=
  if k ∈ m.map then
    some ⟨m.map.erase k, by
      rw [Finmap.keys_erase]
      exact (Finset.card_erase_le).trans m.bounded⟩
  else none

theorem has_iff (m : BoundedMap κ ν cap) (k : κ) : Has m k ↔ ∃ v, lookup m k = some v :=
  Finmap.mem_iff

theorem not_has (m : BoundedMap κ ν cap) (k : κ) : ¬ Has m k ↔ lookup m k = none :=
  Finmap.lookup_eq_none.symm

theorem empty_lookup (k : κ) : lookup (empty : BoundedMap κ ν cap) k = none :=
  Finmap.lookup_empty k

theorem create_none (m : BoundedMap κ ν cap) (k : κ) (v : ν) :
    create m k v = none ↔ Has m k ∨ size m = cap := by
  have hb := m.bounded
  unfold create size
  split
  · split
    · next h => simp [h]
    · next h h' => simp [h']; omega
  · next h => simp; omega

theorem create_some (m : BoundedMap κ ν cap) (k : κ) (v : ν) (h : ¬ Has m k)
    (hs : size m < cap) : ∃ m', create m k v = some m' ∧
      ∀ x, lookup m' x = if x = k then some v else lookup m x := by
  refine ⟨_, (dif_pos hs).trans (if_neg h), fun x => ?_⟩
  by_cases hx : x = k
  · subst hx
    simp [lookup]
  · simp [lookup, hx, Finmap.lookup_insert_of_ne]

theorem write_some (m : BoundedMap κ ν cap) (k : κ) (v : ν) (h : Has m k) :
    ∃ m', write m k v = some m' ∧ ∀ x, lookup m' x = if x = k then some v else lookup m x := by
  refine ⟨_, dif_pos h, fun x => ?_⟩
  by_cases hx : x = k
  · subst hx
    simp [lookup]
  · simp [lookup, hx, Finmap.lookup_insert_of_ne]

theorem write_none (m : BoundedMap κ ν cap) (k : κ) (v : ν) (h : ¬ Has m k) :
    write m k v = none := dif_neg h

theorem delete_some (m : BoundedMap κ ν cap) (k : κ) (h : Has m k) :
    ∃ m', delete m k = some m' ∧ ∀ x, lookup m' x = if x = k then none else lookup m x := by
  refine ⟨_, if_pos h, fun x => ?_⟩
  by_cases hx : x = k
  · subst hx
    simp [lookup]
  · simp [lookup, hx, Finmap.lookup_erase_ne]

theorem delete_none (m : BoundedMap κ ν cap) (k : κ) (h : ¬ Has m k) : delete m k = none :=
  if_neg h

end BoundedMaps
