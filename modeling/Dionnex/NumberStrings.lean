import Dionnex.Printk
import Dionnex.StringBuffers

/-!
# Numbers as strings

`utoa` and `itoa` write the digits from the least significant one upwards,
and then turn the string around in its buffer. `atoi` and `atox` read a
number from its most significant digit on, in 32-bit arithmetic.
-/

set_option autoImplicit false

namespace Dionnex.NumberStrings
open StringBuffers Dionnex.Printk

/-! ## The code -/

def digitChar (rem : ℕ) : UInt8 := if rem < 10 then UInt8.ofNat (rem+48) else UInt8.ofNat (rem-10+97)

/-- The digits from `ptr` on, until the value is zero; the pointer behind them. -/
def digitLoop (base : ℕ) (buf : Buffer) (ptr val : ℕ) : ℕ → Buffer × ℕ
  | 0 => (buf, ptr)
  | n+1 =>
    let buf := Function.update buf ptr (digitChar (val % base))
    if val/base = 0 then (buf, ptr+1) else digitLoop base buf (ptr+1) (val/base) n

/-- Two pointers that approach each other. -/
def reverseLoop (buf : Buffer) (first last : ℕ) : ℕ → Buffer
  | 0 => buf
  | n+1 =>
    if first < last then
      reverseLoop (Function.update (Function.update buf first (buf last)) last (buf first)) (first+1) (last-1) n
    else buf

/-- The NUL behind the string, and the string turned around. -/
def reversed (r : Buffer × ℕ) : Buffer := reverseLoop (Function.update r.1 r.2 0) 0 (r.2-1) r.2

/-- No base from 2 on needs more than 32 digits. -/
def utoa (val : UInt32) (buf : Buffer) (base : ℤ) : Buffer :=
  if base < 2 ∨ 36 < base then Function.update buf 0 0
  else reversed (digitLoop base.toNat buf 0 val.toNat 32)

/-- The value is given by its 32 bits; the smallest one is its own negation. -/
def itoa (val : UInt32) (buf : Buffer) (base : ℤ) : Buffer :=
  if base < 2 ∨ 36 < base then Function.update buf 0 0
  else if asInt32 val < 0 ∧ base = 10 then
    let r := digitLoop base.toNat buf 0 (-val).toNat 32
    reversed (Function.update r.1 r.2 45, r.2+1)
  else reversed (digitLoop base.toNat buf 0 val.toNat 32)

/-- A string is given by its bytes before the NUL, here and in `atox`. -/
def skipBlanks (s : List UInt8) : List UInt8 := s.dropWhile (fun c => c = 32 ∨ c = 9)

def atoiLoop (res : UInt32) : List UInt8 → UInt32
  | [] => res
  | c::s => if 48 ≤ c ∧ c ≤ 57 then atoiLoop (res*10 + (c.toUInt32-48)) s else res

/-- The bits of the answer. -/
def atoi (s : List UInt8) : UInt32 :=
  match skipBlanks s with
  | 45::s => atoiLoop 0 s * (-1)
  | 43::s => atoiLoop 0 s * 1
  | s => atoiLoop 0 s * 1

def hexValue (c : UInt8) : Option UInt32 :=
  if 48 ≤ c ∧ c ≤ 57 then some (c.toUInt32-48)
  else if 97 ≤ c ∧ c ≤ 102 then some (c.toUInt32-97+10)
  else if 65 ≤ c ∧ c ≤ 70 then some (c.toUInt32-65+10)
  else none

def atoxLoop (res : UInt32) : List UInt8 → UInt32
  | [] => res
  | c::s =>
    match hexValue c with
    | some val => atoxLoop (res <<< 4 ||| val) s
    | none => res

def atox (s : List UInt8) : UInt32 :=
  match skipBlanks s with
  | 48::120::s => atoxLoop 0 s
  | 48::88::s => atoxLoop 0 s
  | s => atoxLoop 0 s

/-! ## Digits -/

/-- The digits of a number as they are written, the least significant first. -/
def lowFirst (base n : ℕ) : List UInt8 := (if n = 0 then [0] else Nat.digits base n).map digitChar

section Digits

variable {base n val ptr p : ℕ} {buf : Buffer} {s : List UInt8}

theorem digitChar_eq : digitChar n = digit false n := by
  unfold digitChar digit
  by_cases h : n < 10
  · rw [if_pos h, if_pos h, Nat.add_comm]
  · rw [if_neg h, if_neg h, if_neg (by decide), show n-10+97 = 87+n by omega]

theorem lowFirst_reverse : (lowFirst base n).reverse = numText false base n := by
  unfold lowFirst numText
  by_cases h : n = 0
  · rw [if_pos h, if_pos h]
    rfl
  · rw [if_neg h, if_neg h]
    congr 2
    funext d
    exact digitChar_eq

theorem lowFirst_last (h : val/base = 0) (hb : 1 < base) : lowFirst base val = [digitChar (val % base)] := by
  have hlt : val < base := (Nat.div_eq_zero_iff.mp h).resolve_left (by omega)
  unfold lowFirst
  by_cases h0 : val = 0
  · rw [if_pos h0, h0, Nat.zero_mod]
    rfl
  · rw [if_neg h0, Nat.digits_of_lt base val h0 hlt, Nat.mod_eq_of_lt hlt]
    rfl

theorem lowFirst_step (h : val/base ≠ 0) (hb : 1 < base) :
    lowFirst base val = digitChar (val % base) :: lowFirst base (val/base) := by
  have h0 : val ≠ 0 := by
    rintro rfl
    rw [Nat.zero_div] at h
    exact h rfl
  unfold lowFirst
  rw [if_neg h0, if_neg h, Nat.digits_def' hb (Nat.pos_of_ne_zero h0), List.map_cons]

/-- The loop puts all digits into the buffer. -/
theorem digitLoop_put (hb : 1 < base) (hn : val < base^(n+1)) :
    digitLoop base buf ptr val (n+1) = (put buf ptr (lowFirst base val), ptr + (lowFirst base val).length) := by
  induction n generalizing buf ptr val with
  | zero =>
    have hdiv : val/base = 0 := Nat.div_eq_of_lt (by simpa using hn)
    rw [digitLoop, if_pos hdiv, lowFirst_last hdiv hb]
    rfl
  | succ n ih =>
    rw [digitLoop]
    by_cases hdiv : val/base = 0
    · rw [if_pos hdiv, lowFirst_last hdiv hb]
      rfl
    · have hlt : val/base < base^(n+1) := by
        rw [Nat.div_lt_iff_lt_mul (by omega), ← Nat.pow_succ]
        exact hn
      rw [if_neg hdiv, ih hlt, lowFirst_step hdiv hb, put, List.length_cons, Nat.add_assoc, Nat.add_comm 1]

theorem update_put {q : ℕ} (c : UInt8) (hq : q < p ∨ p + s.length ≤ q) :
    Function.update (put buf p s) q c = put (Function.update buf q c) p s := by
  funext i
  by_cases hi : i = q
  · subst hi
    rw [Function.update_self, put_outside hq, Function.update_self]
  · rw [Function.update_of_ne hi, put_apply, put_apply, Function.update_of_ne hi]

/-- The outermost two bytes change places. -/
theorem swap_put (a b : UInt8) : Function.update (Function.update (put buf p (a::(s++[b]))) p b) (p+1 + s.length) a =
    put (Function.update (Function.update buf p b) (p+1 + s.length) a) (p+1) s := by
  have hne : p ≠ p+1 + s.length := by omega
  rw [put, put_append, put, put, update_put b (Or.inr le_rfl), update_put b (Or.inl (Nat.lt_succ_self p)),
    update_put a (Or.inr le_rfl), Function.update_comm hne, Function.update_idem, Function.update_comm hne.symm,
    Function.update_idem]

/-- Turning around a string in its place. -/
theorem reverseLoop_put (hn : s.length ≤ n) :
    reverseLoop (put buf p s) p (p + s.length - 1) n = put buf p s.reverse := by
  induction s using List.bidirectionalRec generalizing buf p n with
  | nil =>
    cases n with
    | zero => rfl
    | succ n =>
      rw [reverseLoop, if_neg (by simp)]
      rfl
  | singleton c =>
    cases n with
    | zero => cases hn
    | succ n =>
      rw [reverseLoop, if_neg (by simp)]
      rfl
  | cons_append a s b ih =>
    have hlen : (a::(s++[b])).length = s.length+2 := by simp
    rw [hlen] at hn ⊢
    obtain ⟨n, rfl⟩ : ∃ k, n = k+1 := Nat.exists_eq_succ_of_ne_zero (by omega)
    have hlast : p + (s.length+2) - 1 = p+1 + s.length := by omega
    have hfirst : put buf p (a::(s++[b])) p = a := @put_inside buf p 0 _ (by simp) 0
    have hend : put buf p (a::(s++[b])) (p+1 + s.length) = b := by
      rw [put, put_append, put, put, Function.update_self]
    rw [hlast, reverseLoop, if_pos (by omega), hfirst, hend, swap_put, ih (by omega)]
    rw [List.reverse_cons, List.reverse_append, List.reverse_singleton, List.singleton_append, List.cons_append, put,
      put_append, put, put, List.length_reverse, update_put a (Or.inr (by rw [List.length_reverse]))]

theorem reversed_put : reversed (put buf 0 s, s.length) = put buf 0 (s.reverse ++ [0]) := by
  unfold reversed
  dsimp only
  have hturn := @reverseLoop_put s.length 0 (Function.update buf s.length 0) s le_rfl
  rw [Nat.zero_add] at hturn
  rw [update_put 0 (Or.inr (by rw [Nat.zero_add])), hturn, put_append, put, put, List.length_reverse, Nat.zero_add,
    update_put 0 (Or.inr (by rw [List.length_reverse, Nat.zero_add]))]

end Digits

/-! ## What is written -/

section Written

variable {val : UInt32} {buf : Buffer} {base : ℤ} {n b : ℕ}

theorem digit_bounds {uppercase : Bool} {d : ℕ} (hd : d < 36) :
    48 ≤ digit uppercase d ∧ digit uppercase d ≤ 122 := by
  have hall : ∀ u : Bool, ∀ d < 36, 48 ≤ digit u d ∧ digit u d ≤ 122 := by decide
  exact hall uppercase d hd

theorem numText_bytes {uppercase : Bool} {c : UInt8} (hb : 1 < b) (hb' : b ≤ 36) (hc : c ∈ numText uppercase b n) :
    48 ≤ c ∧ c ≤ 122 := by
  unfold numText at hc
  split at hc
  · rw [List.mem_singleton.mp hc]
    decide
  · rw [List.mem_reverse] at hc
    obtain ⟨d, hd, rfl⟩ := List.mem_map.mp hc
    exact digit_bounds (lt_of_lt_of_le (Nat.digits_lt_base hb hd) hb')

theorem numText_nulFree {uppercase : Bool} (hb : 1 < b) (hb' : b ≤ 36) : (0 : UInt8) ∉ numText uppercase b n :=
  fun h => absurd (numText_bytes hb hb' h).1 (by decide)

theorem numText_size {uppercase : Bool} {k : ℕ} (hb : 1 < b) (hk : 0 < k) (hn : n < b^k) :
    (numText uppercase b n).length ≤ k := by
  unfold numText
  split
  · exact hk
  · rw [List.length_reverse, List.length_map, Nat.digits_length_le_iff hb]
    exact hn

theorem digits_put (hb : 2 ≤ base) :
    reversed (digitLoop base.toNat buf 0 val.toNat 32) = put buf 0 (numText false base.toNat val.toNat ++ [0]) := by
  have hb' : 1 < base.toNat := by omega
  have hlt : val.toNat < base.toNat^32 := lt_of_lt_of_le val.toNat_lt (Nat.pow_le_pow_left hb' 32)
  rw [digitLoop_put hb' hlt, Nat.zero_add, reversed_put, lowFirst_reverse]

theorem utoa_put (hb : 2 ≤ base) (hb' : base ≤ 36) :
    utoa val buf base = put buf 0 (numText false base.toNat val.toNat ++ [0]) := by
  unfold utoa
  rw [if_neg (by omega), digits_put hb]

/-- `utoa` leaves the numeral of the value, whatever was in the buffer. -/
theorem utoa_holds (hb : 2 ≤ base) (hb' : base ≤ 36) :
    Holds (utoa val buf base) 0 (numText false base.toNat val.toNat) := by
  rw [utoa_put hb hb']
  exact holds_put (numText_nulFree (by omega) (by omega))

theorem neg_natAbs (h : asInt32 val < 0) : (-val).toNat = (asInt32 val).natAbs := by
  have hint : asInt32 val = if 2*val.toNat < 4294967296 then (val.toNat : ℤ)
      else (val.toNat : ℤ) - 4294967296 := BitVec.toInt_eq_toNat_cond val.toBitVec
  have hlt := val.toNat_lt
  rw [UInt32.toNat_neg, show UInt32.size = 4294967296 from rfl]
  split at hint <;> omega

theorem toNat_natAbs (h : ¬ asInt32 val < 0) : val.toNat = (asInt32 val).natAbs := by
  have hint : asInt32 val = if 2*val.toNat < 4294967296 then (val.toNat : ℤ)
      else (val.toNat : ℤ) - 4294967296 := BitVec.toInt_eq_toNat_cond val.toBitVec
  have hlt := val.toNat_lt
  split at hint <;> omega

theorem itoa_put : itoa val buf 10 = put buf 0 (signedText (asInt32 val) ++ [0]) := by
  unfold itoa signedText
  rw [if_neg (by decide)]
  by_cases hneg : asInt32 val < 0
  · have hlt : (-val).toNat < 10^32 := lt_of_lt_of_le (-val).toNat_lt (by decide)
    have hsign : put buf 0 (lowFirst 10 (-val).toNat ++ [45]) =
        Function.update (put buf 0 (lowFirst 10 (-val).toNat)) (lowFirst 10 (-val).toNat).length 45 := by
      rw [put_append, Nat.zero_add]
      rfl
    have hturn := @reversed_put buf (lowFirst 10 (-val).toNat ++ [45])
    rw [List.length_append, List.length_singleton, hsign] at hturn
    rw [if_pos ⟨hneg, rfl⟩, if_pos hneg, ← neg_natAbs hneg]
    dsimp only
    rw [show (10 : ℤ).toNat = 10 from rfl, digitLoop_put (by decide) hlt, Nat.zero_add, hturn, List.reverse_append,
      lowFirst_reverse, List.reverse_singleton, List.singleton_append]
  · rw [if_neg (fun h => hneg h.1), if_neg hneg, digits_put (by decide), ← toNat_natAbs hneg]
    rfl

theorem signedText_nulFree {z : ℤ} : (0 : UInt8) ∉ signedText z := by
  have hdigits : (0 : UInt8) ∉ numText false 10 z.natAbs := numText_nulFree (by decide) (by decide)
  unfold signedText
  split
  · intro h
    rcases List.mem_cons.mp h with h0 | h0
    · exact absurd h0 (by decide)
    · exact hdigits h0
  · exact hdigits

theorem itoa_holds : Holds (itoa val buf 10) 0 (signedText (asInt32 val)) := by
  rw [itoa_put]
  exact holds_put signedText_nulFree

end Written

/-! ## What is read back -/

section Read

variable {s t : List UInt8} {r v : UInt32}

theorem digit_decimal {d : ℕ} (hd : d < 10) : (48 ≤ digit false d ∧ digit false d ≤ 57) ∧
    (digit false d).toUInt32 - 48 = UInt32.ofNat d := by
  have hall : ∀ d < 10, (48 ≤ digit false d ∧ digit false d ≤ 57) ∧
    (digit false d).toUInt32 - 48 = UInt32.ofNat d := by decide
  exact hall d hd

theorem ofDigits_step (b a d : ℕ) (ds : List ℕ) :
    a*b^(d::ds).length + Nat.ofDigits b (d::ds) = (a*b^ds.length + Nat.ofDigits b ds)*b + d := by
  rw [List.length_cons, Nat.ofDigits_cons, pow_succ]
  ring

/-- A loop that makes `a*b+d` of `a` at the digit `d` reads the digits of a number on top of what it has read. -/
theorem read_digits {f : UInt32 → List UInt8 → UInt32} {b : ℕ}
    (hstep : ∀ a d s, d < b → f (UInt32.ofNat a) (digit false d :: s) = f (UInt32.ofNat (a*b+d)) s) {ds : List ℕ}
    (h : ∀ d ∈ ds, d < b) (a : ℕ) (s : List UInt8) :
    f (UInt32.ofNat a) ((ds.map (digit false)).reverse ++ s) =
      f (UInt32.ofNat (a*b^ds.length + Nat.ofDigits b ds)) s := by
  induction ds generalizing s with
  | nil => simp
  | cons d ds ih =>
    have hds : ∀ e ∈ ds, e < b := fun e he => h e (List.mem_cons_of_mem d he)
    rw [List.map_cons, List.reverse_cons, List.append_assoc, List.singleton_append, ih hds,
      hstep _ _ _ (h d List.mem_cons_self), ofDigits_step]

theorem read_numText {f : UInt32 → List UInt8 → UInt32} {b : ℕ} (hb : 1 < b)
    (hstep : ∀ a d s, d < b → f (UInt32.ofNat a) (digit false d :: s) = f (UInt32.ofNat (a*b+d)) s)
    (hend : ∀ r, f r [] = r) (n : ℕ) : f 0 (numText false b n) = UInt32.ofNat n := by
  unfold numText
  by_cases h : n = 0
  · rw [if_pos h, h]
    have hzero := hstep 0 0 [] (by omega)
    rw [hend, Nat.zero_mul] at hzero
    exact hzero
  · have hread := read_digits hstep (fun d hd => Nat.digits_lt_base hb hd : ∀ d ∈ Nat.digits b n, d < b) 0 []
    rw [List.append_nil, hend, Nat.zero_mul, Nat.zero_add, Nat.ofDigits_digits] at hread
    rw [if_neg h]
    exact hread

theorem atoiLoop_numText (n : ℕ) : atoiLoop 0 (numText false 10 n) = UInt32.ofNat n := by
  refine read_numText (by decide) (fun a d s hd => ?_) (fun _ => rfl) n
  obtain ⟨hdigit, hvalue⟩ := digit_decimal hd
  rw [atoiLoop, if_pos hdigit, hvalue, UInt32.ofNat_add _ d, UInt32.ofNat_mul _ 10]
  rfl

theorem skipBlanks_cons {c : UInt8} (h : 33 ≤ c) : skipBlanks (c::s) = c::s := by
  have hblank : ¬ (c = 32 ∨ c = 9) := by
    rintro (rfl | rfl)
    · exact absurd h (by decide)
    · exact absurd h (by decide)
  exact List.dropWhile_cons_of_neg (by simpa using hblank)

theorem numText_cons {uppercase : Bool} {b n : ℕ} (hb : 1 < b) (hb' : b ≤ 10) :
    ∃ c s, numText uppercase b n = c::s ∧ 48 ≤ c ∧ c ≤ 57 := by
  have hall : ∀ u : Bool, ∀ d < 10, 48 ≤ digit u d ∧ digit u d ≤ 57 := by decide
  unfold numText
  by_cases h : n = 0
  · rw [if_pos h]
    exact ⟨48, [], rfl, by decide⟩
  · rw [if_neg h]
    cases hs : ((Nat.digits b n).map (digit uppercase)).reverse with
    | nil =>
      rw [List.reverse_eq_nil_iff, List.map_eq_nil_iff, Nat.digits_eq_nil_iff_eq_zero] at hs
      exact (h hs).elim
    | cons c s =>
      have hc : c ∈ ((Nat.digits b n).map (digit uppercase)).reverse := hs ▸ List.mem_cons_self
      obtain ⟨d, hd, rfl⟩ := List.mem_map.mp (List.mem_reverse.mp hc)
      exact ⟨_, s, rfl, hall uppercase d (lt_of_lt_of_le (Nat.digits_lt_base hb hd) hb')⟩

/-- A string that starts with a digit has neither blanks nor a sign. -/
theorem atoi_numText (n : ℕ) : atoi (numText false 10 n) = UInt32.ofNat n := by
  obtain ⟨c, s, hs, hlo, hhi⟩ := @numText_cons false 10 n (by decide) le_rfl
  rw [← atoiLoop_numText n, hs]
  unfold atoi
  rw [skipBlanks_cons (UInt8.le_trans (by decide : (33 : UInt8) ≤ 48) hlo)]
  split
  · next h =>
    cases h
    exact absurd hlo (by decide)
  · next h =>
    cases h
    exact absurd hlo (by decide)
  · exact UInt32.mul_one _

theorem atoi_signedText (v : UInt32) : atoi (signedText (asInt32 v)) = v := by
  unfold signedText
  by_cases hneg : asInt32 v < 0
  · rw [if_pos hneg]
    change atoiLoop 0 (numText false 10 (asInt32 v).natAbs) * (-1) = v
    rw [atoiLoop_numText, ← neg_natAbs hneg, UInt32.ofNat_toNat, UInt32.neg_mul_neg, UInt32.mul_one]
  · rw [if_neg hneg, atoi_numText, ← toNat_natAbs hneg, UInt32.ofNat_toNat]

theorem digit_hex {d : ℕ} (hd : d < 16) : hexValue (digit false d) = some (UInt32.ofNat d) := by
  have hall : ∀ d < 16, hexValue (digit false d) = some (UInt32.ofNat d) := by decide
  exact hall d hd

/-- The four low bits are free for the next digit. -/
theorem shift_or {a d : ℕ} (hd : d < 16) :
    UInt32.ofNat a <<< 4 ||| UInt32.ofNat d = UInt32.ofNat (a*16+d) := by
  apply UInt32.toNat_inj.mp
  have hor := Nat.shiftLeft_add_eq_or_of_lt (i := 4) hd (a % 268435456)
  have hlow : UInt32.ofNat d = UInt32.ofNat (d % 4294967296) := by rw [Nat.mod_eq_of_lt (by omega)]
  have hshift : (UInt32.ofNat a <<< 4).toNat = (a % 268435456) <<< 4 := by
    rw [UInt32.toNat_shiftLeft, UInt32.toNat_ofNat', Nat.shiftLeft_eq, Nat.shiftLeft_eq,
      show (4 : UInt32).toNat % 32 = 4 from rfl]
    omega
  rw [UInt32.toNat_or, hshift, UInt32.toNat_ofNat', Nat.mod_eq_of_lt (show d < 2^32 by omega), ← hor,
    UInt32.toNat_ofNat', Nat.shiftLeft_eq]
  omega

theorem atoxLoop_numText (n : ℕ) : atoxLoop 0 (numText false 16 n) = UInt32.ofNat n := by
  refine read_numText (by decide) (fun a d s hd => ?_) (fun _ => rfl) n
  rw [atoxLoop, digit_hex hd, ← shift_or hd]

/-- No numeral looks like a prefix `0x`. -/
theorem atox_numText (n : ℕ) : atox (numText false 16 n) = UInt32.ofNat n := by
  have hbytes : ∀ c ∈ numText false 16 n, 33 ≤ c ∧ c ≠ 88 ∧ c ≠ 120 := by
    have hall : ∀ d < 16, 33 ≤ digit false d ∧ digit false d ≠ 88 ∧ digit false d ≠ 120 := by decide
    intro c hc
    unfold numText at hc
    split at hc
    · rw [List.mem_singleton.mp hc]
      decide
    · obtain ⟨d, hd, rfl⟩ := List.mem_map.mp (List.mem_reverse.mp hc)
      exact hall d (Nat.digits_lt_base (by decide) hd)
  have hskip : skipBlanks (numText false 16 n) = numText false 16 n := by
    cases hs : numText false 16 n with
    | nil => rfl
    | cons c s => exact skipBlanks_cons (hbytes c (hs ▸ List.mem_cons_self)).1
  rw [← atoxLoop_numText n]
  unfold atox
  rw [hskip]
  split
  · next h => exact ((hbytes 120 (by rw [h]; simp)).2.2 rfl).elim
  · next h => exact ((hbytes 88 (by rw [h]; simp)).2.1 rfl).elim
  · rfl

/-- The digits are below the base, the most significant one first, and there is no leading zero. -/
structure IsNumeral (base n : ℕ) (s : List UInt8) : Prop where
  digits : ∃ ds : List ℕ, (∀ d ∈ ds, d < base) ∧ s = ds.map digitChar ∧ Nat.ofDigits base ds.reverse = n
  nonempty : s ≠ []
  leading : s.head? = some 48 → s = [48]

theorem digitChar_zero {d : ℕ} (hd : d < 36) (h : digitChar d = 48) : d = 0 := by
  have hall : ∀ d < 36, digitChar d = 48 → d = 0 := by decide
  exact hall d hd h

theorem numText_isNumeral {b n : ℕ} (hb : 1 < b) (hb' : b ≤ 36) : IsNumeral b n (numText false b n) := by
  have hchars : digit false = digitChar := funext (fun _ => digitChar_eq.symm)
  unfold numText
  rw [hchars]
  by_cases h : n = 0
  · rw [if_pos h]
    exact ⟨⟨[0], by simpa using Nat.zero_lt_of_lt hb, rfl, by simp [h]⟩, by simp, fun _ => rfl⟩
  · rw [if_neg h]
    have hdigits : Nat.digits b n ≠ [] := Nat.digits_ne_nil_iff_ne_zero.mpr h
    refine ⟨⟨(Nat.digits b n).reverse, ?_, List.map_reverse.symm, ?_⟩, by simpa using hdigits, ?_⟩
    · intro d hd
      exact Nat.digits_lt_base hb (List.mem_reverse.mp hd)
    · rw [List.reverse_reverse, Nat.ofDigits_digits]
    · intro hhead
      have hlast := Nat.getLast_digit_ne_zero b h
      rw [List.head?_reverse, List.getLast?_map, List.getLast?_eq_some_getLast hdigits, Option.map_some,
        Option.some_inj] at hhead
      have hlt : (Nat.digits b n).getLast hdigits < 36 :=
        lt_of_lt_of_le (Nat.digits_lt_base hb (List.getLast_mem hdigits)) hb'
      exact (hlast (digitChar_zero hlt hhead)).elim

/-- `utoa` writes the numeral of the value, and the readers get back from a numeral the value that was written. -/
theorem numbers_round_trip (v : UInt32) (buf : Buffer) :
    (∀ base : ℤ, 2 ≤ base → base ≤ 36 → Holds (utoa v buf base) 0 (numText false base.toNat v.toNat) ∧
      IsNumeral base.toNat v.toNat (numText false base.toNat v.toNat)) ∧
    (∃ s, Holds (utoa v buf 16) 0 s ∧ atox s = v) ∧ ∃ s, Holds (itoa v buf 10) 0 s ∧ atoi s = v := by
  refine ⟨?_, ⟨_, utoa_holds (by decide) (by decide), ?_⟩, _, itoa_holds, atoi_signedText v⟩
  · intro base hb hb'
    exact ⟨utoa_holds hb hb', numText_isNumeral (by omega) (by omega)⟩
  · exact (atox_numText v.toNat).trans UInt32.ofNat_toNat

/-- A value in base 36, and the smallest one with its sign. -/
theorem numbers_round_trip_sample : Holds (utoa 71 (fun _ => 255) 36) 0 (numText false 36 71) ∧
    ∃ s, Holds (itoa 2147483648 (fun _ => 255) 10) 0 s ∧ atoi s = 2147483648 :=
  ⟨((numbers_round_trip 71 (fun _ => 255)).1 36 (by decide) (by decide)).1,
    (numbers_round_trip 2147483648 (fun _ => 255)).2.2⟩

end Read

end Dionnex.NumberStrings
