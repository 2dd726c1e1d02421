import Dionnex.NumberPrinters

/-!
# Texts put together with `strcat`

The generated files and the header of a log message are built by appending
strings and numbers to what the buffer holds already. Each step looks for
the end of the string again.
-/

set_option autoImplicit false

namespace Dionnex.StringAppends
open StringBuffers Dionnex.KernelString Dionnex.Printk Dionnex.NumberStrings Dionnex.NumberPrinters

/-- `strlen`, if there is a NUL in the address space behind the pointer. -/
def strlen (buf : Buffer) : Option ℕ := scan buf 0 4294967296

/-- `strcpy`; `src` is what is found behind the other pointer. -/
def strcpy (dest : Buffer) (src : List UInt8) : Buffer := put dest 0 (cstr src ++ [0])

/-- `dest` is a buffer and `src` what is found behind the other pointer. -/
def strcat (dest : Buffer) (src : List UInt8) : Option Buffer :=
  (scan dest 0 4294967296).map (fun len => put dest len (cstr src ++ [0]))

/-- A step of the callers: `strcat(buf, s)`, or a number that goes through their array for digits. -/
inductive Part where
  | string (s : List UInt8)
  | number (v : UInt32) (base : ℤ)

/-- The buffer and the array for digits after the step. -/
def append (b : Buffer × Buffer) : Part → Option (Buffer × Buffer)
  | .string s => (strcat b.1 s).map (fun buf => (buf, b.2))
  | .number v base =>
    let tmp := utoa v b.2 base
    (strcat b.1 (text tmp 0 4294967296)).map (fun buf => (buf, tmp))

def appendAll (b : Buffer × Buffer) (ps : List Part) : Option (Buffer × Buffer) := ps.foldlM append b

/-- The characters of a string literal. -/
def chars (s : String) : List UInt8 := s.toList.map (fun c => UInt8.ofNat c.toNat)

def Part.text : Part → List UInt8
  | .string s => cstr s
  | .number v base => numText false base.toNat v.toNat

/-- No number is in a base that there are no digits for; no caller asks for one below ten. -/
def Part.Printable : Part → Prop
  | .string _ => True
  | .number _ base => 10 ≤ base ∧ base ≤ 36

/-- As many characters as a part can have, whatever its number is. -/
def Part.bound : Part → ℕ
  | .string s => (cstr s).length
  | .number _ _ => 10

/-- All that the parts add. -/
def joined (ps : List Part) : List UInt8 := ps.flatMap Part.text

/-- The buffer holds the string, and is as it was behind the NUL. -/
def Filled (old buf : Buffer) (s : List UInt8) : Prop := Holds buf 0 s ∧ ∀ i, s.length < i → buf i = old i

section Appends

variable {old buf tmp : Buffer} {s t : List UInt8} {p : Part} {ps qs : List Part}

theorem filled_empty : Filled old (Function.update old 0 0) [] := by
  refine ⟨⟨List.not_mem_nil, fun i hi => ?_⟩, fun i hi => Function.update_of_ne (Nat.ne_of_gt hi) _ _⟩
  obtain rfl : i = 0 := Nat.le_zero.mp hi
  simp

theorem strcpy_filled : Filled old (strcpy old t) (cstr t) := by
  refine ⟨holds_put (cstr_nulFree t), fun i hi => ?_⟩
  rw [strcpy, put_outside (Or.inr (by simp; omega))]

theorem strlen_filled (h : Filled old buf s) (hs : s.length < 4294967296) : strlen buf = some s.length :=
  scan_holds h.1 hs

theorem strcat_filled (h : Filled old buf s) (hs : s.length < 4294967296) :
    ∃ buf', strcat buf t = some buf' ∧ Filled old buf' (s ++ cstr t) := by
  have hlong := holds_extend h.1 (cstr_nulFree t)
  rw [Nat.zero_add] at hlong
  refine ⟨put buf s.length (cstr t ++ [0]), ?_, hlong, fun i hi => ?_⟩
  · rw [strcat, scan_holds h.1 hs, Option.map_some]
  · rw [List.length_append] at hi
    rw [put_outside (Or.inr (by simp; omega)), h.2 i (by omega)]

theorem append_filled (h : Filled old buf s) (hs : s.length < 4294967296) (hp : p.Printable) :
    ∃ r, append (buf, tmp) p = some r ∧ Filled old r.1 (s ++ p.text) := by
  cases p with
  | string t =>
    obtain ⟨buf', hcat, hfill⟩ := @strcat_filled old buf s t h hs
    exact ⟨(buf', tmp), by rw [append, hcat, Option.map_some], hfill⟩
  | number v base =>
    have hnum := @utoa_holds v tmp base (le_trans (by decide) hp.1) hp.2
    have hlen := @numText_length base.toNat false v.toNat (by have := hp.1; omega) v.toNat_lt
    have hread := text_holds hnum (hlen.trans (show 10 ≤ 4294967296 by decide))
    obtain ⟨buf', hcat, hfill⟩ := @strcat_filled old buf s (numText false base.toNat v.toNat) h hs
    rw [cstr_of_nulFree _ hnum.1] at hfill
    refine ⟨(buf', utoa v tmp base), ?_, hfill⟩
    rw [append, hread, hcat, Option.map_some]

theorem joined_length (hp : ∀ p ∈ ps, p.Printable) : (joined ps).length ≤ (ps.map Part.bound).sum := by
  induction ps with
  | nil => exact Nat.le_refl 0
  | cons p ps ih =>
    have hrest := ih (fun q hq => hp q (List.mem_cons_of_mem p hq))
    have hfirst : p.text.length ≤ p.bound := by
      have hp0 := hp p List.mem_cons_self
      cases p with
      | string s => exact Nat.le_refl _
      | number v base => exact numText_length (by have := hp0.1; omega) v.toNat_lt
    rw [joined, List.flatMap_cons, List.length_append, List.map_cons, List.sum_cons]
    exact Nat.add_le_add hfirst hrest

/-- The parts come one behind the other. -/
theorem appendAll_filled (hp : ∀ p ∈ ps, p.Printable) (h : Filled old buf s)
    (hs : s.length + (joined ps).length < 4294967296) :
    ∃ r, appendAll (buf, tmp) ps = some r ∧ Filled old r.1 (s ++ joined ps) := by
  induction ps generalizing buf tmp s with
  | nil => exact ⟨(buf, tmp), rfl, by simpa [joined] using h⟩
  | cons p ps ih =>
    have hjoin : joined (p::ps) = p.text ++ joined ps := List.flatMap_cons
    rw [hjoin, List.length_append] at hs
    obtain ⟨b, hb, hfill⟩ := @append_filled _ _ tmp _ _ h (by omega) (hp p List.mem_cons_self)
    obtain ⟨r, hr, hall⟩ := @ih _ b.2 _ (fun q hq => hp q (List.mem_cons_of_mem p hq)) hfill
      (by rw [List.length_append]; omega)
    refine ⟨r, ?_, ?_⟩
    · rw [appendAll, List.foldlM_cons, hb]
      exact hr
    · rw [hjoin, ← List.append_assoc]
      exact hall

end Appends

end Dionnex.StringAppends
