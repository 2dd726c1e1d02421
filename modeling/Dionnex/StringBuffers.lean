import Mathlib.Data.List.GetD
import Mathlib.Tactic

/-!
# C strings written in place

A buffer is the memory from its first byte on. Strings are put into it byte
by byte; where one ends is found by looking for the NUL, so what a reader
sees of a buffer is what was there before wherever nothing was written.
-/

set_option autoImplicit false

namespace StringBuffers

abbrev Buffer := ℕ → UInt8

/-- The bytes of the list go to `p` and behind it, the first one first. -/
def put (buf : Buffer) (p : ℕ) : List UInt8 → Buffer
  | [] => buf
  | c::s => put (Function.update buf p c) (p+1) s

/-- The string `s` with its NUL is at `p`. -/
def Holds (buf : Buffer) (p : ℕ) (s : List UInt8) : Prop :=
  (0 : UInt8) ∉ s ∧ ∀ i ≤ s.length, buf (p+i) = s.getD i 0

/-- The number of bytes before the first NUL at `p` or behind it, if there is one within `n` bytes. -/
def scan (buf : Buffer) (p : ℕ) : ℕ → Option ℕ
  | 0 => none
  | n+1 => if buf p = 0 then some 0 else (scan buf (p+1) n).map (fun len => len+1)

/-- The bytes at `p` and behind it up to the first NUL, at most `n` of them. -/
def text (buf : Buffer) (p : ℕ) : ℕ → List UInt8
  | 0 => []
  | n+1 => if buf p = 0 then [] else buf p :: text buf (p+1) n

/-- The first position from `p` on with a byte that is not in the class, after at most `n` steps. -/
def skip (stays : UInt8 → Bool) (buf : Buffer) (p : ℕ) : ℕ → ℕ
  | 0 => p
  | n+1 => if stays (buf p) then skip stays buf (p+1) n else p

section Put

variable {buf : Buffer} {p i : ℕ} {c : UInt8} {s t : List UInt8}

theorem put_apply : put buf p s i = if p ≤ i then s.getD (i-p) (buf i) else buf i := by
  induction s generalizing buf p with
  | nil => simp [put]
  | cons c s ih =>
    rw [put, ih]
    rcases Nat.lt_trichotomy i p with hi | rfl | hi
    · rw [if_neg (by omega), if_neg (by omega), Function.update_of_ne (by omega)]
    · rw [if_neg (by omega), if_pos le_rfl, Function.update_self, Nat.sub_self, List.getD_cons_zero]
    · obtain ⟨d, rfl⟩ := Nat.exists_eq_add_of_lt hi
      rw [if_pos (by omega), if_pos (by omega), Function.update_of_ne (by omega)]
      rw [show p+d+1-(p+1) = d by omega, show p+d+1-p = d+1 by omega, List.getD_cons_succ]

theorem put_inside (hi : i < s.length) (d : UInt8) : put buf p s (p+i) = s.getD i d := by
  rw [put_apply, if_pos (Nat.le_add_right p i), Nat.add_sub_cancel_left, List.getD_eq_getElem _ _ hi,
    List.getD_eq_getElem _ _ hi]

theorem put_outside (hi : i < p ∨ p + s.length ≤ i) : put buf p s i = buf i := by
  rw [put_apply]
  by_cases hp : p ≤ i
  · rw [if_pos hp, List.getD_eq_default _ _ (by omega)]
  · rw [if_neg hp]

theorem put_append : put buf p (s++t) = put (put buf p s) (p + s.length) t := by
  induction s generalizing buf p with
  | nil => rfl
  | cons c s ih =>
    rw [List.cons_append, put, ih, put, List.length_cons, Nat.add_assoc, Nat.add_comm 1]

end Put

section Strings

variable {buf : Buffer} {p i n : ℕ} {s t : List UInt8}

theorem holds_byte (h : Holds buf p s) (hi : i < s.length) : buf (p+i) = s.getD i 0 ∧ buf (p+i) ≠ 0 := by
  have hbyte := h.2 i hi.le
  refine ⟨hbyte, fun h0 => h.1 ?_⟩
  rw [h0, List.getD_eq_getElem _ _ hi] at hbyte
  rw [hbyte]
  exact List.getElem_mem hi

theorem holds_end (h : Holds buf p s) : buf (p + s.length) = 0 := by
  rw [h.2 _ le_rfl, List.getD_eq_default _ _ le_rfl]

theorem holds_put (h : (0 : UInt8) ∉ s) : Holds (put buf p (s++[0])) p s := by
  refine ⟨h, fun i hi => ?_⟩
  rw [put_inside (by simp; omega) 0]
  rcases Nat.eq_or_lt_of_le hi with rfl | hlt
  · simp
  · rw [List.getD_append _ _ _ _ hlt]

/-- A string begins with a NUL exactly if it is empty. -/
theorem holds_empty (h : Holds buf p s) : buf p = 0 ↔ s = [] := by
  cases s with
  | nil => exact iff_of_true (holds_end h) rfl
  | cons c s => exact iff_of_false (holds_byte h (by simp : 0 < (c::s).length)).2 (List.cons_ne_nil c s)

/-- What is written outside of a string leaves it. -/
theorem holds_congr {buf' : Buffer} (h : Holds buf p s) (hsame : ∀ i ≤ s.length, buf' (p+i) = buf (p+i)) :
    Holds buf' p s := ⟨h.1, fun i hi => (hsame i hi).trans (h.2 i hi)⟩

theorem holds_tail {c : UInt8} (h : Holds buf p (c::s)) : Holds buf (p+1) s := by
  refine ⟨fun h0 => h.1 (List.mem_cons_of_mem c h0), fun i hi => ?_⟩
  have hbyte := h.2 (i+1) (by rw [List.length_cons]; omega)
  rw [List.getD_cons_succ] at hbyte
  rw [← hbyte, Nat.add_assoc, Nat.add_comm 1]

/-- In front of a NUL there is a string. -/
theorem holds_within (h0 : buf (p+n) = 0) : ∃ s, Holds buf p s ∧ s.length ≤ n := by
  induction n generalizing p with
  | zero =>
    refine ⟨[], ⟨List.not_mem_nil, fun i hi => ?_⟩, le_rfl⟩
    rw [Nat.le_zero.mp hi]
    exact h0
  | succ n ih =>
    by_cases hfirst : buf p = 0
    · refine ⟨[], ⟨List.not_mem_nil, fun i hi => ?_⟩, Nat.zero_le _⟩
      rw [Nat.le_zero.mp hi]
      exact hfirst
    · obtain ⟨s, hs, hlen⟩ := @ih (p+1) (by rw [← h0, Nat.add_assoc, Nat.add_comm 1])
      refine ⟨buf p :: s, ⟨?_, fun i hi => ?_⟩, Nat.succ_le_succ hlen⟩
      · rw [List.mem_cons]
        exact not_or.mpr ⟨fun he => hfirst he.symm, hs.1⟩
      · cases i with
        | zero => rfl
        | succ i => rw [List.getD_cons_succ, ← hs.2 i (Nat.le_of_succ_le_succ hi), Nat.add_assoc, Nat.add_comm 1]

theorem scan_holds (h : Holds buf p s) (hn : s.length < n) : scan buf p n = some s.length := by
  induction s generalizing p n with
  | nil =>
    obtain ⟨n, rfl⟩ := Nat.exists_eq_succ_of_ne_zero (Nat.ne_of_gt hn)
    have hend := holds_end h
    rw [List.length_nil, Nat.add_zero] at hend
    rw [scan, if_pos hend, List.length_nil]
  | cons c s ih =>
    obtain ⟨n, rfl⟩ := Nat.exists_eq_succ_of_ne_zero (Nat.ne_of_gt (Nat.zero_lt_of_lt hn))
    have hfirst := (holds_byte h (by simp : 0 < (c::s).length)).2
    rw [Nat.add_zero] at hfirst
    rw [scan, if_neg hfirst, ih (holds_tail h) (by rw [List.length_cons] at hn; omega), Option.map_some,
      List.length_cons]

theorem text_holds (h : Holds buf p s) (hn : s.length ≤ n) : text buf p n = s := by
  induction s generalizing p n with
  | nil =>
    have hend := holds_end h
    rw [List.length_nil, Nat.add_zero] at hend
    cases n with
    | zero => rfl
    | succ n => rw [text, if_pos hend]
  | cons c s ih =>
    obtain ⟨n, rfl⟩ := Nat.exists_eq_succ_of_ne_zero (show n ≠ 0 by rw [List.length_cons] at hn; omega)
    have hfirst := holds_byte h (by simp : 0 < (c::s).length)
    rw [Nat.add_zero, List.getD_cons_zero] at hfirst
    rw [text, if_neg hfirst.2, hfirst.1, ih (holds_tail h) (by rw [List.length_cons] at hn; omega)]

/-- A string put where another one ends makes it longer. -/
theorem holds_extend (h : Holds buf p s) (ht : (0 : UInt8) ∉ t) :
    Holds (put buf (p + s.length) (t++[0])) p (s++t) := by
  refine ⟨fun h0 => (List.mem_append.mp h0).elim h.1 ht, fun i hi => ?_⟩
  rw [List.length_append] at hi
  by_cases hlt : i < s.length
  · rw [put_outside (Or.inl (by omega)), h.2 i hlt.le, List.getD_append _ _ _ _ hlt]
  · have hbyte := (@holds_put buf (p + s.length) t ht).2 (i - s.length) (by omega)
    rw [show p + s.length + (i - s.length) = p+i by omega] at hbyte
    rw [hbyte, List.getD_append_right _ _ _ _ (by omega)]

/-- What is behind the beginning of a string is a string. -/
theorem holds_right (h : Holds buf p (s++t)) : Holds buf (p + s.length) t := by
  induction s generalizing p with
  | nil => exact h
  | cons c s ih =>
    have hrest := ih (holds_tail h)
    rwa [Nat.add_assoc, Nat.add_comm 1] at hrest

/-- A NUL in the place of a byte cuts the string in two. -/
theorem holds_cut {c : UInt8} (h : Holds buf p (s++c::t)) :
    Holds (Function.update buf (p + s.length) 0) p s ∧
      Holds (Function.update buf (p + s.length) 0) (p + s.length + 1) t := by
  have hright := holds_tail (holds_right h)
  constructor
  · refine ⟨fun h0 => h.1 (List.mem_append_left _ h0), fun i hi => ?_⟩
    rcases Nat.eq_or_lt_of_le hi with rfl | hlt
    · rw [Function.update_self, List.getD_eq_default _ _ le_rfl]
    · have hbyte := h.2 i (by rw [List.length_append]; omega)
      rw [Function.update_of_ne (by omega), hbyte, List.getD_append _ _ _ _ hlt]
  · exact holds_congr hright (fun i _ => Function.update_of_ne (by omega) _ _)

theorem skip_holds {stays : UInt8 → Bool} (h : Holds buf p s) (h0 : stays 0 = false) (hn : s.length ≤ n) :
    skip stays buf p n = p + (s.takeWhile stays).length := by
  induction s generalizing p n with
  | nil =>
    have hend := holds_end h
    rw [List.length_nil, Nat.add_zero] at hend
    cases n with
    | zero => rfl
    | succ n =>
      rw [skip, hend, h0]
      rfl
  | cons c s ih =>
    obtain ⟨n, rfl⟩ := Nat.exists_eq_succ_of_ne_zero (show n ≠ 0 by rw [List.length_cons] at hn; omega)
    have hfirst := (holds_byte h (by simp : 0 < (c::s).length)).1
    rw [Nat.add_zero, List.getD_cons_zero] at hfirst
    rw [skip, hfirst, List.takeWhile_cons]
    cases stays c with
    | true =>
      rw [if_pos rfl, if_pos rfl, ih (holds_tail h) (by rw [List.length_cons] at hn; omega), List.length_cons]
      omega
    | false => rfl

theorem skip_rest {stays : UInt8 → Bool} (h : Holds buf p s) :
    Holds buf (p + (s.takeWhile stays).length) (s.dropWhile stays) := by
  have hall := h
  rw [← List.takeWhile_append_dropWhile (p := stays) (l := s)] at hall
  exact holds_right hall

/-- The scan stops at the first NUL. -/
theorem scan_some {len : ℕ} : scan buf p n = some len ↔ len < n ∧ buf (p+len) = 0 ∧ ∀ i < len, buf (p+i) ≠ 0 := by
  induction n generalizing p len with
  | zero => simp [scan]
  | succ n ih =>
    rw [scan]
    by_cases h0 : buf p = 0
    · rw [if_pos h0, Option.some_inj]
      constructor
      · rintro rfl
        exact ⟨Nat.succ_pos n, h0, fun i hi => (Nat.not_lt_zero i hi).elim⟩
      · rintro ⟨-, -, hno⟩
        by_contra hne
        exact hno 0 (by omega) h0
    · rw [if_neg h0, Option.map_eq_some_iff]
      constructor
      · rintro ⟨l, hl, rfl⟩
        obtain ⟨hlt, hend, hno⟩ := ih.mp hl
        refine ⟨by omega, by rw [← hend, Nat.add_assoc, Nat.add_comm 1], fun i hi => ?_⟩
        cases i with
        | zero => exact h0
        | succ i =>
          have hbyte := hno i (by omega)
          rw [Nat.add_assoc, Nat.add_comm 1] at hbyte
          exact hbyte
      · rintro ⟨hlt, hend, hno⟩
        cases len with
        | zero => exact (h0 hend).elim
        | succ len =>
          refine ⟨len, ih.mpr ⟨by omega, ?_, fun i hi => ?_⟩, rfl⟩
          · rw [← hend, Nat.add_assoc, Nat.add_comm 1]
          · have hbyte := hno (i+1) (by omega)
            rw [Nat.add_assoc, Nat.add_comm 1]
            exact hbyte

end Strings

end StringBuffers
