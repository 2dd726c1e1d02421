import Mathlib.Tactic

/-!
# Circular buffers

Slots are numbered below a capacity `n`, and the slot after the last one is
the first. What a buffer holds is the list read off by walking from a slot;
writing behind its end appends, stepping past its front removes the first
entry, and on a full buffer the two happen in the same slot.
-/

set_option autoImplicit false

namespace CircularBuffer

variable {α : Type*} {n i d e count : ℕ} {buffer buffer' : ℕ → α} {x : α}

def contents (buffer : ℕ → α) (n : ℕ) : ℕ → ℕ → List α
  | _, 0 => []
  | i, count+1 => buffer i :: contents buffer n ((i+1)%n) count

@[simp] theorem contents_length : (contents buffer n i count).length = count := by
  induction count generalizing i with
  | zero => rfl
  | succ count ih => simp [contents, ih]

theorem slot_shift : ((i+1)%n+d)%n = (i+(d+1))%n := by
  rw [Nat.mod_add_mod, Nat.add_assoc, Nat.add_comm 1 d]

/-- Fewer steps than there are slots never meet the same slot twice. -/
theorem slot_injective (hd : d < n) (he : e < n) (h : (i+d)%n = (i+e)%n) : d = e := by
  have hmod : i+d ≡ i+e [MOD n] := h
  exact Nat.ModEq.eq_of_lt_of_lt (Nat.ModEq.add_left_cancel' i hmod) hd he

theorem contents_congr (hi : i < n) (h : ∀ d < count, buffer' ((i+d)%n) = buffer ((i+d)%n)) :
    contents buffer' n i count = contents buffer n i count := by
  induction count generalizing i with
  | zero => rfl
  | succ count ih =>
    have hhead := h 0 (by omega)
    rw [Nat.add_zero, Nat.mod_eq_of_lt hi] at hhead
    have hnext : (i+1)%n < n := Nat.mod_lt _ (by omega)
    have hrest := ih hnext (fun d hd => by
      rw [slot_shift]
      exact h (d+1) (by omega))
    rw [contents, contents, hhead, hrest]

theorem contents_snoc (hi : i < n) :
    contents buffer n i (count+1) = contents buffer n i count ++ [buffer ((i+count)%n)] := by
  induction count generalizing i with
  | zero => simp [contents, Nat.mod_eq_of_lt hi]
  | succ count ih =>
    have hnext : (i+1)%n < n := Nat.mod_lt _ (by omega)
    rw [contents, ih hnext, slot_shift]
    rfl

theorem contents_take (m : ℕ) : (contents buffer n i count).take m = contents buffer n i (min m count) := by
  induction count generalizing i m with
  | zero => simp [contents]
  | succ count ih =>
    cases m with
    | zero => simp [contents]
    | succ m => rw [contents, List.take_succ_cons, ih, Nat.succ_min_succ, contents]

/-- Writing behind the end of the contents leaves them alone. -/
theorem contents_update (hi : i < n) (hc : count < n) :
    contents (Function.update buffer ((i+count)%n) x) n i count = contents buffer n i count := by
  apply contents_congr hi
  intro d hd
  apply Function.update_of_ne
  intro h
  have hslot := slot_injective (hd.trans hc) hc h
  omega

theorem contents_push (hi : i < n) (hc : count < n) :
    contents (Function.update buffer ((i+count)%n) x) n i (count+1) = contents buffer n i count ++ [x] := by
  rw [contents_snoc hi, contents_update hi hc, Function.update_self]

/-- On a full buffer the new entry takes the place of the first one. -/
theorem contents_overwrite (hi : i < n) :
    contents (Function.update buffer i x) n ((i+1)%n) n = (contents buffer n i n).tail ++ [x] := by
  obtain ⟨m, rfl⟩ := Nat.exists_eq_succ_of_ne_zero (Nat.ne_of_gt (Nat.zero_lt_of_lt hi))
  have hnext : (i+1)%(m+1) < m+1 := Nat.mod_lt _ (by omega)
  have hlast : ((i+1)%(m+1)+m)%(m+1) = i := by
    rw [slot_shift, Nat.add_mod_right, Nat.mod_eq_of_lt hi]
  have hpush := @contents_push _ (m+1) _ m buffer x hnext (by omega)
  rw [hlast] at hpush
  rw [hpush]
  rfl

end CircularBuffer
