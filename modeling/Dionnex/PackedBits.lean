import Mathlib.Tactic

/-!
# Bits packed into 32-bit words

A bit map stored as a sequence of words: bit `p` is bit `p % 32` of word
`p / 32`. Setting and clearing one bit is an update of one word, and the
lemmas say that it touches no other bit. The search rule turns a word by
word, bit by bit scan into "the least clear bit".
-/

set_option autoImplicit false

namespace PackedBits

abbrev Words := ℕ → BitVec 32

def bit (w : Words) (p : ℕ) : Bool := (w (p/32)).getLsbD (p%32)

def setBit (w : Words) (p : ℕ) : Words :=
  Function.update w (p/32) (w (p/32) ||| (1#32 <<< (p%32)))

def clearBit (w : Words) (p : ℕ) : Words :=
  Function.update w (p/32) (w (p/32) &&& ~~~(1#32 <<< (p%32)))

theorem one_shift_bit (j k : ℕ) (hk : k < 32) :
    (1#32 <<< j).getLsbD k = decide (k = j) := by
  by_cases h : k < j
  · simp [h, show k ≠ j by omega]
  · by_cases he : k = j
    · subst he; simp [hk]
    · simp [he, hk, h]
      omega

theorem shift_mask (x : BitVec 32) (j : ℕ) (hj : j < 32) :
    x &&& (1#32 <<< j) = 0#32 ↔ x.getLsbD j = false := by
  constructor
  · intro h
    have hb := congrArg (fun y => y.getLsbD j) h
    simpa [one_shift_bit j j hj, hj] using hb
  · intro h
    apply BitVec.eq_of_getLsbD_eq
    intro k hk
    rw [BitVec.getLsbD_and, one_shift_bit j k hk]
    by_cases he : k = j <;> simp [he, h]

theorem shift_test (x : BitVec 32) (j : ℕ) :
    (x >>> j) &&& 1#32 ≠ 0#32 ↔ x.getLsbD j = true := by
  constructor
  · intro h
    by_contra hx
    apply h
    apply BitVec.eq_of_getLsbD_eq
    intro k hk
    rw [BitVec.getLsbD_and, BitVec.getLsbD_ushiftRight]
    by_cases hk0 : k = 0
    · subst hk0; simpa using hx
    · simp [hk0]
  · intro h he
    have hb := congrArg (fun y => y.getLsbD 0) he
    simp [h] at hb

theorem bit_index (p q : ℕ) (h : q/32 = p/32) (hr : q%32 = p%32) : q = p := by omega

theorem bit_setBit (w : Words) (p q : ℕ) :
    bit (setBit w p) q = (bit w q || decide (q = p)) := by
  unfold bit setBit
  by_cases h : q/32 = p/32
  · rw [h, Function.update_self, BitVec.getLsbD_or,
      one_shift_bit _ _ (Nat.mod_lt _ (by decide))]
    have he : q%32 = p%32 ↔ q = p := ⟨bit_index p q h, fun e => by rw [e]⟩
    simp [he]
  · rw [Function.update_of_ne h]
    simp [show q ≠ p by rintro rfl; exact h rfl]

theorem bit_clearBit (w : Words) (p q : ℕ) :
    bit (clearBit w p) q = (bit w q && decide (q ≠ p)) := by
  unfold bit clearBit
  by_cases h : q/32 = p/32
  · rw [h, Function.update_self, BitVec.getLsbD_and, BitVec.getLsbD_not,
      one_shift_bit _ _ (Nat.mod_lt _ (by decide))]
    have he : q%32 = p%32 ↔ q = p := ⟨bit_index p q h, fun e => by rw [e]⟩
    simp [he, Nat.mod_lt]
  · rw [Function.update_of_ne h]
    simp [show q ≠ p by rintro rfl; exact h rfl]

theorem all_ones_bit (x : BitVec 32) : x = 0xFFFFFFFF#32 ↔ ∀ j < 32, x.getLsbD j = true := by
  have hones : ∀ j < 32, (0xFFFFFFFF#32).getLsbD j = true := by decide
  constructor
  · rintro rfl
    exact hones
  · intro h
    apply BitVec.eq_of_getLsbD_eq
    intro k hk
    rw [h k hk, hones k hk]

theorem filled_bit (w : Words) (p : ℕ) (h : w (p/32) = 0xFFFFFFFF#32) : bit w p = true :=
  (all_ones_bit _).mp h _ (Nat.mod_lt _ (by decide))

/-- A search through `0, …, n-1` returns the answer of the first index that has one. -/
theorem findSome_range_some {β : Type*} (n : ℕ) (f : ℕ → Option β) (b : β)
    (h : (List.range n).findSome? f = some b) :
    ∃ i < n, f i = some b ∧ ∀ k < i, f k = none := by
  induction n with
  | zero => simp at h
  | succ n ih =>
    rw [List.range_succ, List.findSome?_append] at h
    cases hn : (List.range n).findSome? f with
    | some c =>
      rw [hn] at h
      obtain rfl : c = b := by simpa using h
      obtain ⟨i, hi, hf, hk⟩ := ih hn
      exact ⟨i, by omega, hf, hk⟩
    | none =>
      rw [hn] at h
      refine ⟨n, by omega, by simpa using h, ?_⟩
      intro k hk
      exact (List.findSome?_eq_none_iff.mp hn) k (List.mem_range.mpr hk)

theorem findSome_range_none {β : Type*} (n : ℕ) (f : ℕ → Option β) :
    (List.range n).findSome? f = none ↔ ∀ i < n, f i = none := by
  simp [List.findSome?_eq_none_iff]

end PackedBits
