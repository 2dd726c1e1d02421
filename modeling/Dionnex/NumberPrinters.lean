import Dionnex.NumberStrings

/-!
# The kernel's other number printers

`printk_utoa` collects the digits in a buffer of its own and copies them
backwards, and `vga_write_dec` sends them straight to the screen. They give
the same characters as `utoa` and `itoa`, and no buffer is too small.
-/

set_option autoImplicit false

namespace Dionnex.NumberPrinters
open StringBuffers Dionnex.KernelLog Dionnex.Printk Dionnex.NumberStrings

/-! ## The code -/

/-- The digits of the value from `pos` on, and the position behind them; zero has none. -/
def fillDigits (char : ℕ → UInt8) (base : ℕ) (tmp : Buffer) (pos val : ℕ) : ℕ → Buffer × ℕ
  | 0 => (tmp, pos)
  | n+1 =>
    if val > 0 then fillDigits char base (Function.update tmp pos (char (val % base))) (pos+1) (val/base) n
    else (tmp, pos)

/-- The bytes before index `j` of `tmp` go to `i` and behind it, the last one first. -/
def copyBack (buf tmp : Buffer) (i : ℕ) : ℕ → Buffer × ℕ
  | 0 => (buf, i)
  | j+1 => copyBack (Function.update buf i (tmp j)) tmp (i+1) j

/-- `tmp` is what the local array was before. A value of 32 bits is zero after 32 divisions. -/
def printkUtoaAt (val : UInt32) (buf : Buffer) (p base : ℕ) (uppercase : Bool) (tmp : Buffer) : Buffer :=
  if val = 0 then Function.update (Function.update buf p 48) (p+1) 0
  else
    let filled := fillDigits (digit uppercase) base tmp 0 val.toNat 32
    let copied := copyBack buf filled.1 p filled.2
    Function.update copied.1 copied.2 0

def printkItoaAt (val : UInt32) (buf : Buffer) (base : ℕ) (tmp : Buffer) : Buffer :=
  if asInt32 val < 0 ∧ base = 10 then printkUtoaAt (-val) (Function.update buf 0 45) 1 base false tmp
  else printkUtoaAt val buf 0 base false tmp

def decChar (d : ℕ) : UInt8 := UInt8.ofNat (48+d)

/-- The bytes before index `i` are put out, the last one first. -/
def putBack (buf : Buffer) : ℕ → List Output
  | 0 => []
  | i+1 => .vgaPutchar (buf i) :: putBack buf i

def vgaWriteDec (val : UInt32) (buf : Buffer) : List Output :=
  if val = 0 then [.vgaPutchar 48]
  else
    let filled := fillDigits decChar 10 buf 0 val.toNat 32
    putBack filled.1 filled.2

/-! ## Digits in the scratch buffers -/

section Scratch

variable {char : ℕ → UInt8} {base pos val n i : ℕ} {tmp buf : Buffer} {s : List UInt8}

theorem fillDigits_put (hb : 1 < base) (hn : val < base^n) : fillDigits char base tmp pos val n =
    (put tmp pos ((Nat.digits base val).map char), pos + (Nat.digits base val).length) := by
  induction n generalizing tmp pos val with
  | zero =>
    obtain rfl : val = 0 := by simpa using hn
    rw [Nat.digits_zero]
    rfl
  | succ n ih =>
    rw [fillDigits]
    by_cases hval : val > 0
    · have hdiv : val/base < base^n := by
        rw [Nat.div_lt_iff_lt_mul (by omega), ← Nat.pow_succ]
        exact hn
      rw [if_pos hval, ih hdiv, Nat.digits_def' hb hval, List.map_cons, put, List.length_cons, Nat.add_assoc,
        Nat.add_comm 1]
    · obtain rfl : val = 0 := by omega
      rw [if_neg hval, Nat.digits_zero]
      rfl

/-- However many rounds are made, no byte is stored behind those of the digits. -/
theorem fillDigits_outside (hb : 1 < base) (hi : pos + (Nat.digits base val).length ≤ i) :
    (fillDigits char base tmp pos val n).1 i = tmp i := by
  induction n generalizing tmp pos val with
  | zero => rfl
  | succ n ih =>
    rw [fillDigits]
    by_cases hval : val > 0
    · rw [Nat.digits_def' hb hval, List.length_cons] at hi
      rw [if_pos hval, ih (by omega), Function.update_of_ne (by omega)]
    · rw [if_neg hval]

theorem copyBack_put : copyBack buf tmp i n = (put buf i ((List.range n).map tmp).reverse, i+n) := by
  induction n generalizing buf i with
  | zero => rfl
  | succ n ih =>
    rw [copyBack, ih, List.range_succ, List.map_append, List.map_singleton, List.reverse_append,
      List.reverse_singleton, List.singleton_append, put, Nat.add_assoc, Nat.add_comm 1]

theorem putBack_map : putBack buf n = ((List.range n).map buf).reverse.map Output.vgaPutchar := by
  induction n with
  | zero => rfl
  | succ n ih =>
    rw [putBack, ih, List.range_succ, List.map_append, List.map_singleton, List.reverse_append,
      List.reverse_singleton, List.singleton_append, List.map_cons]

/-- What was put is read back. -/
theorem map_put : (List.range s.length).map (put tmp 0 s) = s := by
  apply List.ext_getElem
  · simp
  · intro i hi hi'
    have hbyte := @put_inside tmp 0 i s hi' 0
    rw [Nat.zero_add, List.getD_eq_getElem _ _ hi'] at hbyte
    simpa using hbyte

end Scratch

/-! ## The printers agree -/

section Agree

variable {v : UInt32} {buf tmp : Buffer} {p base : ℕ} {uppercase : Bool}

theorem length_map_digits {char : ℕ → UInt8} {n : ℕ} :
    ((Nat.digits base n).map char).length = (Nat.digits base n).length := List.length_map char

/-- The digits filled in and copied backwards are the numeral. -/
theorem printkUtoaAt_put (hb : 1 < base) :
    printkUtoaAt v buf p base uppercase tmp = put buf p (numText uppercase base v.toNat ++ [0]) := by
  unfold printkUtoaAt numText
  by_cases h : v = 0
  · subst h
    rfl
  · have hne : v.toNat ≠ 0 := fun he => h (UInt32.toNat_inj.mp he)
    have hlt : v.toNat < base^32 := lt_of_lt_of_le v.toNat_lt (Nat.pow_le_pow_left hb 32)
    have hread := @map_put tmp ((Nat.digits base v.toNat).map (digit uppercase))
    rw [length_map_digits] at hread
    rw [if_neg h, if_neg hne, fillDigits_put hb hlt]
    dsimp only
    rw [Nat.zero_add, copyBack_put, hread, put_append, put, put, List.length_reverse, length_map_digits]

theorem printkItoaAt_put : printkItoaAt v buf 10 tmp = put buf 0 (signedText (asInt32 v) ++ [0]) := by
  unfold printkItoaAt signedText
  by_cases hneg : asInt32 v < 0
  · rw [if_pos ⟨hneg, rfl⟩, if_pos hneg, printkUtoaAt_put (by decide), neg_natAbs hneg, List.cons_append, put]
  · rw [if_neg (fun h => hneg h.1), if_neg hneg, printkUtoaAt_put (by decide), toNat_natAbs hneg]

theorem decChar_eq {d : ℕ} (hd : d < 10) : decChar d = digit false d := (if_pos hd).symm

theorem vgaWriteDec_text : vgaWriteDec v buf = (numText false 10 v.toNat).map Output.vgaPutchar := by
  unfold vgaWriteDec numText
  by_cases h : v = 0
  · subst h
    rfl
  · have hne : v.toNat ≠ 0 := fun he => h (UInt32.toNat_inj.mp he)
    have hlt : v.toNat < 10^32 := lt_of_lt_of_le v.toNat_lt (by decide)
    have hchars : (Nat.digits 10 v.toNat).map decChar = (Nat.digits 10 v.toNat).map (digit false) :=
      List.map_congr_left (fun d hd => decChar_eq (Nat.digits_lt_base (by decide) hd))
    have hread := @map_put buf ((Nat.digits 10 v.toNat).map (digit false))
    rw [length_map_digits] at hread
    rw [if_neg h, if_neg hne, fillDigits_put (by decide) hlt]
    dsimp only
    rw [Nat.zero_add, putBack_map, hchars, hread]

/-- No byte from index `n` on is stored to. -/
def Within (n : ℕ) (f : Buffer → Buffer) : Prop := ∀ buf i, n ≤ i → f buf i = buf i

/-- The same characters from all of them; `tmp`, `buf` and the array of `vga_write_dec` are large enough. -/
structure Agree (v : UInt32) : Prop where
  decimal : ∀ buf buf' tmp vga, ∃ s, Holds (utoa v buf 10) 0 s ∧
    Holds (printkUtoaAt v buf' 0 10 false tmp) 0 s ∧ vgaWriteDec v vga = s.map Output.vgaPutchar
  hex : ∀ buf buf' tmp, ∃ s, Holds (utoa v buf 16) 0 s ∧ Holds (printkUtoaAt v buf' 0 16 false tmp) 0 s
  signed : ∀ buf buf' tmp, ∃ s, Holds (itoa v buf 10) 0 s ∧ Holds (printkItoaAt v buf' 10 tmp) 0 s
  tmp : ∀ uppercase base n, base = 10 ∨ base = 16 →
    Within 32 (fun tmp => (fillDigits (digit uppercase) base tmp 0 v.toNat n).1)
  buf : ∀ uppercase tmp, Within 64 (fun buf => printkItoaAt v buf 10 tmp) ∧
    ∀ base, base = 10 ∨ base = 16 → Within 64 (fun buf => printkUtoaAt v buf 0 base uppercase tmp)
  vga : ∀ n, Within 12 (fun buf => (fillDigits decChar 10 buf 0 v.toNat n).1)

theorem put_within {s : List UInt8} {n : ℕ} (h : s.length ≤ n) : Within n (fun buf => put buf 0 s) :=
  fun _ _ hi => put_outside (Or.inr (by omega))

theorem digits_ten {n : ℕ} (hb : 10 ≤ base) (hn : n < 4294967296) : (Nat.digits base n).length ≤ 10 := by
  rw [Nat.digits_length_le_iff (by omega)]
  exact lt_of_lt_of_le hn (le_trans (by decide) (Nat.pow_le_pow_left hb 10))

theorem numText_length {n : ℕ} (hb : 10 ≤ base) (hn : n < 4294967296) : (numText uppercase base n).length ≤ 10 :=
  numText_size (by omega) (by decide) (lt_of_lt_of_le hn (le_trans (by decide) (Nat.pow_le_pow_left hb 10)))

theorem signedText_length : (signedText (asInt32 v)).length ≤ 11 := by
  unfold signedText
  split
  · next h =>
    have hdigits := @numText_length 10 false (-v).toNat le_rfl (-v).toNat_lt
    rw [neg_natAbs h] at hdigits
    rw [List.length_cons]
    omega
  · next h =>
    have hdigits := @numText_length 10 false v.toNat le_rfl v.toNat_lt
    rw [toNat_natAbs h] at hdigits
    omega

/-- All printers give the same characters for every value, and none of them runs over its scratch buffer. -/
theorem printers_agree (v : UInt32) : Agree v where
  decimal buf buf' tmp vga := by
    refine ⟨_, utoa_holds (by decide) (by decide), ?_, vgaWriteDec_text⟩
    rw [printkUtoaAt_put (by decide)]
    exact holds_put (numText_nulFree (by decide) (by decide))
  hex buf buf' tmp := by
    refine ⟨_, utoa_holds (by decide) (by decide), ?_⟩
    rw [printkUtoaAt_put (by decide)]
    exact holds_put (numText_nulFree (by decide) (by decide))
  signed buf buf' tmp := by
    refine ⟨_, itoa_holds, ?_⟩
    rw [printkItoaAt_put]
    exact holds_put signedText_nulFree
  tmp uppercase base n hbase := by
    intro tmp i hi
    have hlen := @digits_ten base v.toNat (by omega) v.toNat_lt
    exact fillDigits_outside (by omega) (by omega)
  buf uppercase tmp := by
    constructor
    · have hlen := @signedText_length v
      simp only [printkItoaAt_put]
      exact put_within (by simp; omega)
    · intro base hbase
      have hlen := @numText_length base uppercase v.toNat (by omega) v.toNat_lt
      simp only [printkUtoaAt_put (show 1 < base by omega)]
      exact put_within (by simp; omega)
  vga n := by
    intro buf i hi
    have hlen := @digits_ten 10 v.toNat le_rfl v.toNat_lt
    exact fillDigits_outside (by decide) (by omega)

end Agree

end Dionnex.NumberPrinters
