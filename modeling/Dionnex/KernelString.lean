import Mathlib.Tactic

/-!
# C strings in byte buffers

The kernel's own `strcmp` and `strncpy`. A buffer is the list of its bytes
and reading past its end yields NUL; the string it holds is everything
before the first NUL.
-/

set_option autoImplicit false

namespace Dionnex.KernelString

/-- The string stored in a buffer. -/
def cstr (buf : List UInt8) : List UInt8 := buf.takeWhile (fun c => c ≠ 0)

def strcmp : List UInt8 → List UInt8 → ℤ
  | [], [] => 0
  | [], b::_ => - (b.toNat : ℤ)
  | a::_, [] => a.toNat
  | a::s, b::t => if a ≠ 0 ∧ a = b then strcmp s t else (a.toNat : ℤ) - b.toNat

/-- `n` bytes of `dest` are overwritten: the string first, NULs after it. -/
def strncpy : ℕ → List UInt8 → List UInt8 → List UInt8
  | 0, dest, _ => dest
  | _+1, [], _ => []
  | n+1, _::dest, [] => 0 :: strncpy n dest []
  | n+1, _::dest, c::src => if c ≠ 0 then c :: strncpy n dest src else 0 :: strncpy n dest []

@[simp] theorem cstr_nil : cstr [] = [] := rfl

@[simp] theorem cstr_zero (s : List UInt8) : cstr (0::s) = [] := by simp [cstr]

theorem cstr_cons (a : UInt8) (s : List UInt8) (h : a ≠ 0) : cstr (a::s) = a :: cstr s := by
  simp [cstr, h]

theorem cstr_of_nulFree (s : List UInt8) (h : (0 : UInt8) ∉ s) : cstr s = s := by
  induction s with
  | nil => rfl
  | cons a s ih =>
    have ha : a ≠ 0 := fun h0 => h (by simp [h0])
    rw [cstr_cons a s ha, ih (fun h0 => h (by simp [h0]))]

theorem cstr_nulFree (s : List UInt8) : (0 : UInt8) ∉ cstr s := by
  induction s with
  | nil => simp
  | cons a s ih =>
    by_cases ha : a = 0
    · simp [ha]
    · rw [cstr_cons a s ha]
      simp [Ne.symm ha, ih]

theorem cstr_length (buf : List UInt8) (n : ℕ) (h : buf[n]? = some 0) : (cstr buf).length ≤ n := by
  induction buf generalizing n with
  | nil => simp at h
  | cons a s ih =>
    by_cases ha : a = 0
    · simp [ha]
    · cases n with
      | zero => exact absurd (by simpa using h) ha
      | succ n =>
        have hs := ih n (by simpa using h)
        rw [cstr_cons a s ha, List.length_cons]
        omega

theorem byte_pos (b : UInt8) (hb : b ≠ 0) : (b.toNat : ℤ) ≠ 0 := by
  intro h
  have hn : b.toNat = (0 : UInt8).toNat := by simpa using h
  exact hb (UInt8.toNat_inj.mp hn)

theorem byte_sub (a b : UInt8) (hab : a ≠ b) : (a.toNat : ℤ) - b.toNat ≠ 0 := by
  intro h
  have hn : a.toNat = b.toNat := by omega
  exact hab (UInt8.toNat_inj.mp hn)

/-- `strcmp` returns zero exactly for equal strings. -/
theorem strcmp_eq_zero (s t : List UInt8) : strcmp s t = 0 ↔ cstr s = cstr t := by
  induction s generalizing t with
  | nil =>
    cases t with
    | nil => simp [strcmp]
    | cons b t =>
      by_cases hb : b = 0
      · simp [strcmp, hb]
      · have hn := byte_pos b hb
        rw [cstr_cons b t hb]
        simp only [strcmp, cstr_nil]
        exact iff_of_false (by omega) (by simp)
  | cons a s ih =>
    cases t with
    | nil =>
      by_cases ha : a = 0
      · simp [strcmp, ha]
      · rw [cstr_cons a s ha]
        exact iff_of_false (byte_pos a ha) (by simp)
    | cons b t =>
      by_cases hab : a = b
      · subst hab
        by_cases ha : a = 0
        · simp [strcmp, ha]
        · simp [strcmp, ha, cstr_cons a s ha, cstr_cons a t ha, ih]
      · rw [strcmp, if_neg (fun h => hab h.2)]
        refine iff_of_false (byte_sub a b hab) ?_
        by_cases ha : a = 0
        · have hb : b ≠ 0 := fun h => hab (ha.trans h.symm)
          simp [ha, cstr_cons b t hb]
        · by_cases hb : b = 0
          · simp [hb, cstr_cons a s ha]
          · simp [cstr_cons a s ha, cstr_cons b t hb, hab]

@[simp] theorem strncpy_length (n : ℕ) (dest src : List UInt8) :
    (strncpy n dest src).length = dest.length := by
  induction n generalizing dest src with
  | zero => rfl
  | succ n ih =>
    cases dest with
    | nil => rfl
    | cons d dest =>
      cases src with
      | nil => simp [strncpy, ih]
      | cons c src => by_cases hc : c = 0 <;> simp [strncpy, hc, ih]

/-- Bytes past the copied range keep their value. -/
theorem strncpy_rest (n : ℕ) (dest src : List UInt8) :
    (strncpy n dest src).drop n = dest.drop n := by
  induction n generalizing dest src with
  | zero => rfl
  | succ n ih =>
    cases dest with
    | nil => rfl
    | cons d dest =>
      cases src with
      | nil => simp [strncpy, ih]
      | cons c src => by_cases hc : c = 0 <;> simp [strncpy, hc, ih]

/-- A bounded copy into a buffer with a NUL after the copied range stores
the string cut to the bound. -/
theorem strncpy_cstr (n : ℕ) (dest src : List UInt8) (hend : dest[n]? = some 0) :
    cstr (strncpy n dest src) = (cstr src).take n := by
  induction n generalizing dest src with
  | zero =>
    cases dest with
    | nil => simp at hend
    | cons d dest =>
      have hd : d = 0 := by simpa using hend
      simp [strncpy, hd]
  | succ n ih =>
    cases dest with
    | nil => simp at hend
    | cons d dest =>
      have hend' : dest[n]? = some 0 := by simpa using hend
      cases src with
      | nil => simp [strncpy]
      | cons c src =>
        by_cases hc : c = 0
        · simp [strncpy, hc]
        · simp [strncpy, hc, cstr_cons c _ hc, ih dest src hend']

end Dionnex.KernelString
