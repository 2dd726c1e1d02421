import Mathlib.Tactic

/-!
# The bytes of a 32-bit word

A word is given by its four bytes. Shifting and masking, as code does that
has only whole words to read and to write, picks out single bytes and pairs
of them, and replaces these without a change to the others.
-/

set_option autoImplicit false

namespace WordBytes

def byteOf (v : BitVec 32) (i : ℕ) : BitVec 8 := v.extractLsb' (8*i) 8

/-- The word with these bytes, the lowest one first. -/
def ofBytes (f : ℕ → BitVec 8) : BitVec 32 := f 3 ++ f 2 ++ f 1 ++ f 0

variable {v old : BitVec 32} {i k : ℕ}

theorem byteOf_bit {j : ℕ} (hj : j < 8) : (byteOf v i).getLsbD j = v.getLsbD (8*i+j) := by
  unfold byteOf
  rw [BitVec.getLsbD_extractLsb']
  simp [hj]

theorem byteOf_ofBytes (f : ℕ → BitVec 8) (hi : i < 4) : byteOf (ofBytes f) i = f i := by
  apply BitVec.eq_of_getLsbD_eq
  intro j hj
  rw [byteOf_bit hj]
  unfold ofBytes
  simp only [BitVec.getLsbD_append]
  have hcases : i = 0 ∨ i = 1 ∨ i = 2 ∨ i = 3 := by omega
  rcases hcases with rfl | rfl | rfl | rfl
  · rw [if_pos (show 8*0+j < 8 by omega), show 8*0+j = j by omega]
  · rw [if_neg (show ¬ 8*1+j < 8 by omega), if_pos (show 8*1+j-8 < 8 by omega), show 8*1+j-8 = j by omega]
  · rw [if_neg (show ¬ 8*2+j < 8 by omega), if_neg (show ¬ 8*2+j-8 < 8 by omega),
      if_pos (show 8*2+j-8-8 < 8 by omega), show 8*2+j-8-8 = j by omega]
  · rw [if_neg (show ¬ 8*3+j < 8 by omega), if_neg (show ¬ 8*3+j-8 < 8 by omega),
      if_neg (show ¬ 8*3+j-8-8 < 8 by omega), show 8*3+j-8-8-8 = j by omega]

/-- A byte is read by shifting it down. -/
theorem shift_byte : (v >>> (8*i)).setWidth 8 = byteOf v i := by
  apply BitVec.eq_of_getLsbD_eq
  intro j hj
  rw [byteOf_bit hj, BitVec.getLsbD_setWidth, BitVec.getLsbD_ushiftRight]
  simp [hj]

theorem shift_pair : (v >>> (8*i)).setWidth 16 = byteOf v (i+1) ++ byteOf v i := by
  apply BitVec.eq_of_getLsbD_eq
  intro j hj
  rw [BitVec.getLsbD_setWidth, BitVec.getLsbD_ushiftRight, BitVec.getLsbD_append]
  by_cases h8 : j < 8
  · rw [if_pos h8, byteOf_bit h8]
    simp [hj]
  · rw [if_neg h8, byteOf_bit (by omega), show 8*(i+1) + (j-8) = 8*i+j by omega]
    simp [hj]

/-- The low `w` bits of a word at a distance. -/
theorem merge_bit {w : ℕ} (mask : BitVec 32) (new : BitVec w) (hmask : ∀ j, mask.getLsbD j = decide (j < w)) {s j : ℕ}
    (hj : j < 32) : ((old &&& ~~~(mask <<< s)) ||| (new.setWidth 32 <<< s)).getLsbD j =
      if s ≤ j ∧ j < s+w then new.getLsbD (j-s) else old.getLsbD j := by
  rw [BitVec.getLsbD_or, BitVec.getLsbD_and, BitVec.getLsbD_not, BitVec.getLsbD_shiftLeft, BitVec.getLsbD_shiftLeft,
    hmask, BitVec.getLsbD_setWidth]
  by_cases hs : s ≤ j
  · by_cases hw : j < s+w
    · have hlt : j-s < w := by omega
      have h32 : j-s < 32 := by omega
      simp [hj, Nat.not_lt.mpr hs, hlt, h32, hs, hw]
    · have hge : ¬ j-s < w := by omega
      simp [hj, hge, hs, hw, BitVec.getLsbD_of_ge new (j-s) (by omega)]
  · simp [hj, Nat.lt_of_not_le hs, hs]

theorem mask_byte (j : ℕ) : (0xFF#32).getLsbD j = decide (j < 8) := by
  rw [BitVec.getLsbD_ofNat, show (0xFF : ℕ) = 2^8-1 from rfl, Nat.testBit_two_pow_sub_one]
  by_cases h : j < 8
  · simp [h, show j < 32 by omega]
  · simp [h]

theorem mask_pair (j : ℕ) : (0xFFFF#32).getLsbD j = decide (j < 16) := by
  rw [BitVec.getLsbD_ofNat, show (0xFFFF : ℕ) = 2^16-1 from rfl, Nat.testBit_two_pow_sub_one]
  by_cases h : j < 16
  · simp [h, show j < 32 by omega]
  · simp [h]

/-- Replacing a byte keeps the other three. -/
theorem merge_byte (new : BitVec 8) (hk : k < 4) (hi : i < 4) :
    byteOf ((old &&& ~~~(0xFF#32 <<< (8*k))) ||| (new.setWidth 32 <<< (8*k))) i = if i = k then new else byteOf old i := by
  apply BitVec.eq_of_getLsbD_eq
  intro j hj
  rw [byteOf_bit hj, merge_bit _ new mask_byte (by omega)]
  by_cases hik : i = k
  · subst hik
    rw [if_pos (by omega), if_pos rfl, show 8*i+j-8*i = j by omega]
  · rw [if_neg (by omega), if_neg hik, byteOf_bit hj]

theorem merge_pair (new : BitVec 16) (hk : k+1 < 4) (hi : i < 4) :
    byteOf ((old &&& ~~~(0xFFFF#32 <<< (8*k))) ||| (new.setWidth 32 <<< (8*k))) i =
      if i = k then new.extractLsb' 0 8 else if i = k+1 then new.extractLsb' 8 8 else byteOf old i := by
  apply BitVec.eq_of_getLsbD_eq
  intro j hj
  rw [byteOf_bit hj, merge_bit _ new mask_pair (by omega)]
  by_cases hik : i = k
  · subst hik
    rw [if_pos (by omega), if_pos rfl, BitVec.getLsbD_extractLsb', show 8*i+j-8*i = 0+j by omega]
    simp [hj]
  · by_cases hik1 : i = k+1
    · subst hik1
      rw [if_pos (by omega), if_neg hik, if_pos rfl, BitVec.getLsbD_extractLsb', show 8*(k+1)+j-8*k = 8+j by omega]
      simp [hj]
    · rw [if_neg (by omega), if_neg hik, if_neg hik1, byteOf_bit hj]

end WordBytes
