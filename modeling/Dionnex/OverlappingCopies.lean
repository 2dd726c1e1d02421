import Mathlib.Tactic

/-!
# Copies between ranges that may overlap

A copy item by item is right when no write reaches an item that is still to
be read. Going up this fails only for a destination inside the source range
and behind its start; going down, only for a source inside the destination
range and behind its start.
-/

set_option autoImplicit false

namespace OverlappingCopies

variable {α : Type*}

/-- As if all items had been read before the first was written. -/
structure Moved (dest src n : ℕ) (m m' : ℕ → α) : Prop where
  copied : ∀ i < n, m' (dest+i) = m (src+i)
  kept : ∀ x, x < dest ∨ dest+n ≤ x → m' x = m x

def copyUp (m : ℕ → α) (dest src : ℕ) : ℕ → (ℕ → α)
  | 0 => m
  | n+1 => copyUp (Function.update m dest (m src)) (dest+1) (src+1) n

/-- `dest` and `src` are the ends of the ranges. -/
def copyDown (m : ℕ → α) (dest src : ℕ) : ℕ → (ℕ → α)
  | 0 => m
  | n+1 => copyDown (Function.update m (dest-1) (m (src-1))) (dest-1) (src-1) n

variable {m m' m'' : ℕ → α} {dest src n i : ℕ}

theorem Moved.none (m : ℕ → α) (dest src : ℕ) : Moved dest src 0 m m :=
  ⟨fun i hi => absurd hi (Nat.not_lt_zero i), fun _ _ => rfl⟩

/-- A range moved onto itself. -/
theorem Moved.same (m : ℕ → α) (dest n : ℕ) : Moved dest dest n m m := ⟨fun _ _ => rfl, fun _ _ => rfl⟩

theorem Moved.unique (h : Moved dest src n m m') (h' : Moved dest src n m m'') : m' = m'' := by
  funext x
  by_cases hx : x < dest ∨ dest+n ≤ x
  · rw [h.kept x hx, h'.kept x hx]
  · obtain ⟨i, rfl⟩ := Nat.exists_eq_add_of_le (Nat.not_lt.mp (not_or.mp hx).1)
    rw [h.copied i (by omega), h'.copied i (by omega)]

/-- The first item is written ahead of the others and is none of them. -/
theorem Moved.first (h : Moved (dest+1) (src+1) n (Function.update m dest (m src)) m')
    (hread : ∀ i < n, src+1+i ≠ dest) : Moved dest src (n+1) m m' where
  copied i hi := by
    cases i with
    | zero => rw [Nat.add_zero, Nat.add_zero, h.kept dest (.inl (Nat.lt_succ_self dest)), Function.update_self]
    | succ i =>
      have hcopied := h.copied i (by omega)
      rw [Function.update_of_ne (hread i (by omega))] at hcopied
      rw [Nat.add_comm i 1, ← Nat.add_assoc, ← Nat.add_assoc, hcopied]
  kept x hx := by
    rw [h.kept x (by omega), Function.update_of_ne (by omega)]

theorem Moved.last (h : Moved dest src n (Function.update m (dest+n) (m (src+n))) m')
    (hread : ∀ i < n, src+i ≠ dest+n) : Moved dest src (n+1) m m' where
  copied i hi := by
    rcases Nat.eq_or_lt_of_le (Nat.le_of_lt_succ hi) with rfl | hlt
    · rw [h.kept (dest+i) (.inr le_rfl), Function.update_self]
    · rw [h.copied i hlt, Function.update_of_ne (hread i hlt)]
  kept x hx := by
    rw [h.kept x (by omega), Function.update_of_ne (by omega)]

/-- Going up, every item is read before it is written over. -/
theorem copyUp_moved (h : dest ≤ src ∨ src+n ≤ dest) : Moved dest src n m (copyUp m dest src n) := by
  induction n generalizing m dest src with
  | zero => exact Moved.none m dest src
  | succ n ih => exact (ih (by omega)).first (fun i hi => by omega)

theorem copyDown_moved (h : src ≤ dest ∨ dest+n ≤ src) : Moved dest src n m (copyDown m (dest+n) (src+n) n) := by
  induction n generalizing m with
  | zero => exact Moved.none m dest src
  | succ n ih => exact (ih (by omega)).last (fun i hi => by omega)

theorem copyUp_below {x : ℕ} (hx : x < dest) : copyUp m dest src n x = m x := by
  induction n generalizing m dest src with
  | zero => rfl
  | succ n ih => rw [copyUp, ih (by omega), Function.update_of_ne (by omega)]

/-- What arrives is what the earlier steps have left there. -/
theorem copyUp_item (hi : i < n) : copyUp m dest src n (dest+i) = copyUp m dest src i (src+i) := by
  induction i generalizing m dest src n with
  | zero =>
    obtain ⟨n, rfl⟩ := Nat.exists_eq_succ_of_ne_zero (Nat.ne_of_gt hi)
    have hrest : copyUp (Function.update m dest (m src)) (dest+1) (src+1) n dest = m src := by
      rw [copyUp_below (Nat.lt_succ_self dest), Function.update_self]
    exact hrest
  | succ i ih =>
    obtain ⟨n, rfl⟩ := Nat.exists_eq_succ_of_ne_zero (Nat.ne_of_gt (Nat.zero_lt_of_lt hi))
    rw [copyUp, copyUp, Nat.add_comm i 1, ← Nat.add_assoc, ← Nat.add_assoc]
    exact ih (Nat.lt_of_succ_lt_succ hi)

/-- Otherwise the first item comes back where the destination meets the source again. -/
theorem copyUp_repeats (hlt : src < dest) (hin : dest < src+n) :
    copyUp m dest src n (dest + (dest-src)) = m src := by
  have hfirst : copyUp m dest src (dest-src) (dest+0) = copyUp m dest src 0 (src+0) := copyUp_item (by omega)
  have hback : src + (dest-src) = dest+0 := by omega
  rw [copyUp_item (by omega), hback, hfirst]
  rfl

/-- Where two items differ somewhere, going up is right exactly off that overlap. -/
theorem copyUp_exact [Nontrivial α] :
    (∀ m : ℕ → α, Moved dest src n m (copyUp m dest src n)) ↔ dest ≤ src ∨ src+n ≤ dest := by
  refine ⟨fun h => ?_, fun h m => copyUp_moved h⟩
  by_contra hover
  obtain ⟨hlt, hin⟩ := not_or.mp hover
  obtain ⟨a, b, hab⟩ := exists_pair_ne α
  have hmoved := (h (Function.update (fun _ => b) src a)).copied (dest-src) (by omega)
  rw [copyUp_repeats (by omega) (by omega), Function.update_self, Function.update_of_ne (by omega)] at hmoved
  exact hab hmoved

end OverlappingCopies
