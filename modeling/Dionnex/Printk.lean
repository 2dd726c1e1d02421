import Dionnex.KernelLog
import Dionnex.KernelString

/-!
# Formatted output of the kernel

`printk` reads its format one byte after the other. A percent sign and the
byte behind it are one conversion; there are no flags and no widths, so a
conversion that has one is printed as it stands and takes no argument. A
format made of literal text and conversions keeps in step with its
arguments exactly when none of them carries a flag or a width.
-/

set_option autoImplicit false

namespace Dionnex.Printk
open Dionnex.KernelString Dionnex.KernelLog

/-! ## The code -/

/-- `digits[v]` in the chosen table. -/
def digit (uppercase : Bool) (v : ℕ) : UInt8 :=
  if v < 10 then UInt8.ofNat (48+v) else UInt8.ofNat ((if uppercase then 55 else 87)+v)

/-- The bytes put into `tmp`, which has room for `n` of them. -/
def tmpDigits (uppercase : Bool) (base : ℕ) : ℕ → ℕ → List UInt8
  | 0, _ => []
  | n+1, val => if val > 0 then digit uppercase (val % base) :: tmpDigits uppercase base n (val/base) else []

/-- The string left in `buf`. -/
def printkUtoa (val : UInt32) (base : ℕ) (uppercase : Bool) : List UInt8 :=
  if val = 0 then [48] else (tmpDigits uppercase base 32 val.toNat).reverse

/-- `(int32_t)val`. -/
def asInt32 (val : UInt32) : ℤ := val.toBitVec.toInt

def printkItoa (val : UInt32) (base : ℕ) : List UInt8 :=
  if asInt32 val < 0 ∧ base = 10 then 45 :: printkUtoa (-val) base false
  else printkUtoa val base false

def printkOutChar (c : UInt8) : List Output :=
  .vgaPutchar c :: ((if c = 10 then [.serialPutchar 13] else []) ++ [.serialPutchar c])

def printkOutStr (s : List UInt8) : List Output := s.flatMap printkOutChar

/-- `(null)` -/
def nullText : List UInt8 := [40, 110, 117, 108, 108, 41]

/-- What `printk` finds behind a pointer. -/
def stringAt (strAt : UInt32 → List UInt8) (p : UInt32) : List UInt8 :=
  if p = 0 then nullText else cstr (strAt p)

/-- The switch on the byte behind a percent sign: the output and the words
left. Taking a word when none is left has no result. -/
def convert (strAt : UInt32 → List UInt8) (c : UInt8) (args : List UInt32) :
    Option (List Output × List UInt32) :=
  if c = 115 then args.head?.map (fun p => (printkOutStr (stringAt strAt p), args.tail))
  else if c = 100 ∨ c = 105 then args.head?.map (fun v => (printkOutStr (printkItoa v 10), args.tail))
  else if c = 117 then args.head?.map (fun v => (printkOutStr (printkUtoa v 10 false), args.tail))
  else if c = 120 then args.head?.map (fun v => (printkOutStr (printkUtoa v 16 false), args.tail))
  else if c = 88 then args.head?.map (fun v => (printkOutStr (printkUtoa v 16 true), args.tail))
  else if c = 99 then args.head?.map (fun v => (printkOutChar v.toUInt8, args.tail))
  else if c = 37 then some (printkOutChar 37, args)
  else some (printkOutChar 37 ++ printkOutChar c, args)

def printkLoop (strAt : UInt32 → List UInt8) : List UInt8 → List UInt32 →
    Option (List Output × List UInt32)
  | [], args => some ([], args)
  | [c], args => if c = 0 ∨ c = 37 then some ([], args) else some (printkOutChar c, args)
  | c::d::fmt, args =>
    if c = 0 then some ([], args)
    else if c ≠ 37 then
      (printkLoop strAt (d::fmt) args).map (fun r => (printkOutChar c ++ r.1, r.2))
    else if d = 0 then some ([], args)
    else (convert strAt d args).bind (fun r =>
      (printkLoop strAt fmt r.2).map (fun r' => (r.1 ++ r'.1, r'.2)))

/-- The words of the variable arguments go in, those not taken come out. -/
def printk (strAt : UInt32 → List UInt8) (fmt : Option (List UInt8)) (args : List UInt32) :
    Option (List Output × List UInt32) :=
  match fmt with
  | none => some ([], args)
  | some fmt => printkLoop strAt fmt args

/-! ## Formats and what they mean -/

/-- The kinds of conversion. -/
inductive Conv where
  | s | d | i | u | x | upperX | c
  deriving DecidableEq, Repr

def Conv.char : Conv → UInt8
  | .s => 115
  | .d => 100
  | .i => 105
  | .u => 117
  | .x => 120
  | .upperX => 88
  | .c => 99

/-- A number in a base of at most 16, most significant digit first. -/
def numText (uppercase : Bool) (base n : ℕ) : List UInt8 :=
  if n = 0 then [48] else ((Nat.digits base n).map (digit uppercase)).reverse

/-- A piece of a format; a width of 0 is no width. -/
inductive Piece where
  | lit (c : UInt8) (h : c ≠ 0 ∧ c ≠ 37)
  | percent
  | conv (minus zero : Bool) (width : ℕ) (k : Conv)

def flagText (minus zero : Bool) (width : ℕ) : List UInt8 :=
  (if minus then [45] else []) ++ (if zero then [48] else []) ++
    (if width = 0 then [] else numText false 10 width)

def Piece.text : Piece → List UInt8
  | .lit c _ => [c]
  | .percent => [37, 37]
  | .conv minus zero width k => 37 :: (flagText minus zero width ++ [k.char])

def Piece.converts : Piece → Bool
  | .conv _ _ _ _ => true
  | _ => false

/-- A conversion without flags and width, or no conversion. -/
def Piece.Plain : Piece → Prop
  | .conv minus zero width _ => minus = false ∧ zero = false ∧ width = 0
  | _ => True

instance : DecidablePred Piece.Plain := fun p =>
  match p with
  | .lit _ _ => isTrue trivial
  | .percent => isTrue trivial
  | .conv _ _ _ _ => inferInstanceAs (Decidable (_ ∧ _ ∧ _))

def formatText (ps : List Piece) : List UInt8 := ps.flatMap Piece.text

def convCount (ps : List Piece) : ℕ := ps.countP Piece.converts

def signedText (v : ℤ) : List UInt8 :=
  if v < 0 then 45 :: numText false 10 v.natAbs else numText false 10 v.natAbs

/-- What a conversion shows of its argument, before padding. -/
def valueText (strAt : UInt32 → List UInt8) : Conv → UInt32 → List UInt8
  | .s, p => stringAt strAt p
  | .d, v => signedText (asInt32 v)
  | .i, v => signedText (asInt32 v)
  | .u, v => numText false 10 v.toNat
  | .x, v => numText false 16 v.toNat
  | .upperX, v => numText true 16 v.toNat
  | .c, v => [v.toUInt8]

def Conv.Numeric : Conv → Prop
  | .s => False
  | .c => False
  | _ => True

instance : DecidablePred Conv.Numeric := fun k =>
  match k with
  | .s => isFalse id
  | .c => isFalse id
  | .d => isTrue trivial
  | .i => isTrue trivial
  | .u => isTrue trivial
  | .x => isTrue trivial
  | .upperX => isTrue trivial

/-- Padding to a width: on the right, with zeros behind a sign, or on the left. -/
def pad (minus zero : Bool) (width : ℕ) (k : Conv) (body : List UInt8) : List UInt8 :=
  if minus then body ++ List.replicate (width-body.length) 32
  else if zero = true ∧ k.Numeric then
    body.takeWhile (fun c => c = 45) ++ List.replicate (width-body.length) 48 ++
      body.dropWhile (fun c => c = 45)
  else List.replicate (width-body.length) 32 ++ body

/-- Literal text unchanged, the `k`-th conversion from the `k`-th argument. -/
def rendered (strAt : UInt32 → List UInt8) : List Piece → List UInt32 → List UInt8
  | [], _ => []
  | .lit c _::ps, args => c :: rendered strAt ps args
  | .percent::ps, args => 37 :: rendered strAt ps args
  | .conv minus zero width k::ps, v::args =>
    pad minus zero width k (valueText strAt k v) ++ rendered strAt ps args
  | .conv _ _ _ _::_, [] => []

/-- The format is printed as it means, and every argument has been taken. -/
def InStep (strAt : UInt32 → List UInt8) (ps : List Piece) (args : List UInt32) : Prop :=
  printk strAt (some (formatText ps)) args = some (printkOutStr (rendered strAt ps args), [])

/-! ## Numbers -/

theorem tmpDigits_eq (uppercase : Bool) {base : ℕ} (hb : 1 < base) (n val : ℕ) (hn : val < base^n) :
    tmpDigits uppercase base n val = (Nat.digits base val).map (digit uppercase) := by
  induction n generalizing val with
  | zero =>
    obtain rfl : val = 0 := by simpa using hn
    simp [tmpDigits]
  | succ n ih =>
    unfold tmpDigits
    by_cases hval : val > 0
    · have hdiv : val/base < base^n := by
        rw [Nat.div_lt_iff_lt_mul (by omega), ← Nat.pow_succ]
        exact hn
      rw [if_pos hval, ih _ hdiv, Nat.digits_def' hb hval, List.map_cons]
    · obtain rfl : val = 0 := by omega
      simp

/-- `tmp` is long enough for every number. -/
theorem utoa_text (val : UInt32) (uppercase : Bool) {base : ℕ} (hb : 1 < base) :
    printkUtoa val base uppercase = numText uppercase base val.toNat := by
  have hlt : val.toNat < base^32 :=
    lt_of_lt_of_le val.toNat_lt (Nat.pow_le_pow_left hb 32)
  unfold printkUtoa numText
  by_cases h : val = 0
  · subst h
    rfl
  · have hne : val.toNat ≠ 0 := fun he => h (UInt32.toNat_inj.mp he)
    rw [if_neg h, if_neg hne, tmpDigits_eq uppercase hb 32 _ hlt]

theorem itoa_text (val : UInt32) : printkItoa val 10 = signedText (asInt32 val) := by
  have hint : asInt32 val = if 2*val.toNat < 4294967296 then (val.toNat : ℤ)
      else (val.toNat : ℤ) - 4294967296 := BitVec.toInt_eq_toNat_cond val.toBitVec
  have hlt := val.toNat_lt
  unfold printkItoa signedText
  by_cases hneg : asInt32 val < 0
  · have habs : (-val).toNat = (asInt32 val).natAbs := by
      rw [UInt32.toNat_neg, show UInt32.size = 4294967296 from rfl]
      split at hint <;> omega
    rw [if_pos ⟨hneg, rfl⟩, if_pos hneg, utoa_text _ _ (by decide), habs]
  · have habs : val.toNat = (asInt32 val).natAbs := by
      split at hint <;> omega
    rw [if_neg (fun h => hneg h.1), if_neg hneg, utoa_text _ _ (by decide), habs]

/-! ## One piece at a time -/

section Loop

variable {strAt : UInt32 → List UInt8}

/-- The output goes in front of what the rest of the format gives. -/
def before (out : List Output) (r : List Output × List UInt32) : List Output × List UInt32 :=
  (out ++ r.1, r.2)

theorem before_before (a b : List Output) :
    before a ∘ before b = before (a ++ b) := by
  funext r
  simp [before]

theorem loop_literal {c : UInt8} (h0 : c ≠ 0) (hp : c ≠ 37) (fmt : List UInt8) (args : List UInt32) :
    printkLoop strAt (c::fmt) args = (printkLoop strAt fmt args).map (before (printkOutChar c)) := by
  cases fmt with
  | nil => simp [printkLoop, h0, hp, before]
  | cons d fmt =>
    rw [printkLoop, if_neg h0, if_pos hp]
    rfl

theorem loop_percent {d : UInt8} (h0 : d ≠ 0) (fmt : List UInt8) (args : List UInt32) :
    printkLoop strAt (37::d::fmt) args = (convert strAt d args).bind (fun r =>
      (printkLoop strAt fmt r.2).map (before r.1)) := by
  rw [printkLoop, if_neg (by decide), if_neg (by decide), if_neg h0]
  rfl

/-- A run of bytes without NUL and percent sign is printed as it stands. -/
theorem loop_literals {s : List UInt8} (h : ∀ c ∈ s, c ≠ 0 ∧ c ≠ 37) (fmt : List UInt8)
    (args : List UInt32) :
    printkLoop strAt (s++fmt) args = (printkLoop strAt fmt args).map (before (printkOutStr s)) := by
  induction s with
  | nil =>
    rw [List.nil_append]
    cases printkLoop strAt fmt args <;> rfl
  | cons c s ih =>
    have hc := h c List.mem_cons_self
    rw [List.cons_append, loop_literal hc.1 hc.2, ih fun d hd => h d (List.mem_cons_of_mem _ hd),
      Option.map_map, before_before]
    rfl

theorem convert_conv (k : Conv) (v : UInt32) (args : List UInt32) :
    convert strAt k.char (v::args) = some (printkOutStr (valueText strAt k v), args) := by
  cases k with
  | s => rfl
  | d => exact congrArg (fun s => some (printkOutStr s, args)) (itoa_text v)
  | i => exact congrArg (fun s => some (printkOutStr s, args)) (itoa_text v)
  | u => exact congrArg (fun s => some (printkOutStr s, args)) (utoa_text v false (by decide))
  | x => exact congrArg (fun s => some (printkOutStr s, args)) (utoa_text v false (by decide))
  | upperX => exact congrArg (fun s => some (printkOutStr s, args)) (utoa_text v true (by decide))
  | c =>
    change some (printkOutChar v.toUInt8, args) = some (printkOutStr [v.toUInt8], args)
    simp [printkOutStr]

theorem convert_conv_nil (k : Conv) : convert strAt k.char [] = none := by
  cases k <;> rfl

/-- No conversion: the percent sign and the byte are printed. -/
theorem convert_other {c : UInt8} (h : c = 45 ∨ (48 ≤ c ∧ c ≤ 57)) (args : List UInt32) :
    convert strAt c args = some (printkOutStr [37, c], args) := by
  have hne : ∀ d : UInt8, d = 115 ∨ d = 100 ∨ d = 105 ∨ d = 117 ∨ d = 120 ∨ d = 88 ∨ d = 99 ∨ d = 37 →
      c ≠ d := by
    rintro d hd rfl
    rcases hd with rfl | rfl | rfl | rfl | rfl | rfl | rfl | rfl <;> revert h <;> decide
  simp [convert, hne, printkOutStr]

/-- What the code makes of one piece: its text and the words left. -/
def pieceOut (strAt : UInt32 → List UInt8) (p : Piece) (args : List UInt32) :
    Option (List UInt8 × List UInt32) :=
  match p with
  | .lit c _ => some ([c], args)
  | .percent => some ([37], args)
  | .conv minus zero width k =>
    if minus = false ∧ zero = false ∧ width = 0 then
      args.head?.map (fun v => (valueText strAt k v, args.tail))
    else some ((Piece.conv minus zero width k).text, args)

theorem digit_range {v : ℕ} (h : v < 10) : 48 ≤ digit false v ∧ digit false v ≤ 57 := by
  have hall : ∀ v < 10, 48 ≤ digit false v ∧ digit false v ≤ 57 := by decide
  exact hall v h

theorem flag_bytes {minus zero : Bool} {width : ℕ} {c : UInt8} (h : c ∈ flagText minus zero width) :
    c = 45 ∨ (48 ≤ c ∧ c ≤ 57) := by
  unfold flagText at h
  rw [List.mem_append, List.mem_append] at h
  rcases h with (h | h) | h
  · left
    split at h
    · simpa using h
    · cases h
  · right
    split at h
    · obtain rfl : c = 48 := by simpa using h
      decide
    · cases h
  · right
    split at h
    · cases h
    · next hw =>
      rw [numText, if_neg hw, List.mem_reverse, List.mem_map] at h
      obtain ⟨v, hv, rfl⟩ := h
      exact digit_range (Nat.digits_lt_base (by decide) hv)

theorem flag_nonempty {minus zero : Bool} {width : ℕ}
    (h : ¬ (minus = false ∧ zero = false ∧ width = 0)) : flagText minus zero width ≠ [] := by
  intro he
  simp only [flagText, List.append_eq_nil_iff] at he
  obtain ⟨⟨hm, hz⟩, hw⟩ := he
  refine h ⟨by simpa using hm, by simpa using hz, ?_⟩
  by_contra hne
  rw [if_neg hne, numText, if_neg hne, List.reverse_eq_nil_iff, List.map_eq_nil_iff] at hw
  exact hne (Nat.digits_eq_nil_iff_eq_zero.mp hw)

/-- A byte of a flag or a width, or the letter of a conversion. -/
theorem flag_literal {c : UInt8} (h : c = 45 ∨ (48 ≤ c ∧ c ≤ 57)) : c ≠ 0 ∧ c ≠ 37 := by
  constructor
  · rintro rfl
    revert h
    decide
  · rintro rfl
    revert h
    decide

theorem char_literal (k : Conv) : k.char ≠ 0 ∧ k.char ≠ 37 := by
  cases k <;> decide

/-- A conversion with a flag or a width comes out as it is written. -/
theorem loop_flagged {minus zero : Bool} {width : ℕ}
    (h : ¬ (minus = false ∧ zero = false ∧ width = 0)) (k : Conv) (fmt : List UInt8)
    (args : List UInt32) :
    printkLoop strAt ((Piece.conv minus zero width k).text ++ fmt) args =
      (printkLoop strAt fmt args).map (before (printkOutStr (Piece.conv minus zero width k).text)) := by
  have hbytes : ∀ c ∈ flagText minus zero width, c = 45 ∨ (48 ≤ c ∧ c ≤ 57) := fun c => flag_bytes
  cases hflag : flagText minus zero width with
  | nil => exact absurd hflag (flag_nonempty h)
  | cons f fs =>
    rw [hflag] at hbytes
    have hf := hbytes f List.mem_cons_self
    have hrest : ∀ c ∈ fs++[k.char], c ≠ 0 ∧ c ≠ 37 := by
      intro c hc
      rcases List.mem_append.mp hc with hc | hc
      · exact flag_literal (hbytes c (List.mem_cons_of_mem _ hc))
      · obtain rfl : c = k.char := by simpa using hc
        exact char_literal k
    have htext : (Piece.conv minus zero width k).text = 37::f::(fs++[k.char]) := by
      change 37 :: (flagText minus zero width ++ [k.char]) = _
      rw [hflag, List.cons_append]
    rw [htext, List.cons_append, List.cons_append, loop_percent (flag_literal hf).1,
      convert_other hf, Option.bind_some, loop_literals hrest, Option.map_map, before_before]
    simp [printkOutStr]

theorem loop_piece (p : Piece) (fmt : List UInt8) (args : List UInt32) :
    printkLoop strAt (p.text++fmt) args = (pieceOut strAt p args).bind (fun r =>
      (printkLoop strAt fmt r.2).map (before (printkOutStr r.1))) := by
  cases p with
  | lit c h => exact (loop_literal h.1 h.2 fmt args).trans (by simp [pieceOut, printkOutStr])
  | percent =>
    change printkLoop strAt (37::37::fmt) args = _
    rw [loop_percent (by decide)]
    simp [convert, pieceOut, printkOutStr]
  | conv minus zero width k =>
    by_cases h : minus = false ∧ zero = false ∧ width = 0
    · obtain ⟨rfl, rfl, rfl⟩ := h
      change printkLoop strAt (37::k.char::fmt) args = _
      rw [loop_percent (char_literal k).1]
      cases args with
      | nil =>
        rw [convert_conv_nil]
        rfl
      | cons v args =>
        rw [convert_conv]
        rfl
    · rw [loop_flagged h, pieceOut, if_neg h]
      rfl

end Loop

/-! ## Whole formats -/

/-- The conversions that take an argument. -/
def plainCount (ps : List Piece) : ℕ := ps.countP (fun p => p.converts && decide p.Plain)

theorem plainCount_cons (p : Piece) (ps : List Piece) : plainCount (p::ps) =
    plainCount ps + if p.converts && decide p.Plain then 1 else 0 := List.countP_cons

theorem convCount_cons (p : Piece) (ps : List Piece) :
    convCount (p::ps) = convCount ps + if p.converts then 1 else 0 := List.countP_cons

theorem pieceOut_takes {strAt : UInt32 → List UInt8} {p : Piece} {args : List UInt32}
    {r : List UInt8 × List UInt32} (h : pieceOut strAt p args = some r) :
    r.2.length + (if p.converts && decide p.Plain then 1 else 0) = args.length := by
  cases p with
  | lit c hc =>
    obtain rfl := Option.some.inj h
    simp [Piece.converts]
  | percent =>
    obtain rfl := Option.some.inj h
    simp [Piece.converts]
  | conv minus zero width k =>
    unfold pieceOut at h
    dsimp only at h
    by_cases hp : minus = false ∧ zero = false ∧ width = 0
    · rw [if_pos hp] at h
      cases args with
      | nil => cases h
      | cons v args =>
        obtain rfl := Option.some.inj h
        simp [Piece.converts, Piece.Plain, hp]
    · rw [if_neg hp] at h
      obtain rfl := Option.some.inj h
      simp [Piece.converts, Piece.Plain, hp]

/-- One argument is taken for each plain conversion and none for the others. -/
theorem loop_takes {strAt : UInt32 → List UInt8} (ps : List Piece) (args : List UInt32)
    {r : List Output × List UInt32} (h : printkLoop strAt (formatText ps) args = some r) :
    r.2.length + plainCount ps = args.length := by
  induction ps generalizing args r with
  | nil =>
    obtain rfl := Option.some.inj h
    simp [plainCount]
  | cons p ps ih =>
    rw [formatText, List.flatMap_cons, loop_piece] at h
    obtain ⟨q, hq, hrest⟩ := Option.bind_eq_some_iff.mp h
    obtain ⟨r', hr', rfl⟩ := Option.map_eq_some_iff.mp hrest
    have hhead := pieceOut_takes hq
    have htail := ih q.2 hr'
    rw [plainCount_cons]
    change r'.2.length + (plainCount ps + _) = args.length
    omega

theorem plainCount_le (ps : List Piece) : plainCount ps ≤ convCount ps :=
  List.countP_mono_left fun p _ h => by
    rw [Bool.and_eq_true] at h
    exact h.1

/-- All conversions take an argument only if all are plain. -/
theorem plainCount_eq {ps : List Piece} (h : plainCount ps = convCount ps) : ∀ p ∈ ps, p.Plain := by
  induction ps with
  | nil => exact fun p hp => by cases hp
  | cons q ps ih =>
    have hle := plainCount_le ps
    rw [plainCount_cons, convCount_cons] at h
    have hq : q.Plain := by
      cases q with
      | lit c hc => trivial
      | percent => trivial
      | conv minus zero width k =>
        by_contra hp
        rw [if_neg (by simp [hp]),
          if_pos (show (Piece.conv minus zero width k).converts = true from rfl)] at h
        omega
    have htail : plainCount ps = convCount ps := by
      simp only [hq, decide_true, Bool.and_true] at h
      omega
    exact List.forall_mem_cons.mpr ⟨hq, ih htail⟩

/-- A format of plain conversions is printed as it means. -/
theorem loop_plain {strAt : UInt32 → List UInt8} (ps : List Piece) (args : List UInt32)
    (h : ∀ p ∈ ps, p.Plain) (hargs : args.length = convCount ps) :
    printkLoop strAt (formatText ps) args = some (printkOutStr (rendered strAt ps args), []) := by
  induction ps generalizing args with
  | nil =>
    obtain rfl : args = [] := List.length_eq_zero_iff.mp hargs
    rfl
  | cons p ps ih =>
    obtain ⟨hp, hps⟩ := List.forall_mem_cons.mp h
    rw [formatText, List.flatMap_cons, loop_piece]
    change (pieceOut strAt p args).bind (fun r =>
      (printkLoop strAt (formatText ps) r.2).map (before (printkOutStr r.1))) = _
    rw [convCount_cons] at hargs
    cases p with
    | lit c hc =>
      rw [pieceOut, Option.bind_some, ih args hps (by simpa [Piece.converts] using hargs)]
      simp [before, rendered, printkOutStr]
    | percent =>
      rw [pieceOut, Option.bind_some, ih args hps (by simpa [Piece.converts] using hargs)]
      simp [before, rendered, printkOutStr]
    | conv minus zero width k =>
      obtain ⟨rfl, rfl, rfl⟩ := hp
      cases args with
      | nil => simp [Piece.converts] at hargs
      | cons v args =>
        have hlen : args.length = convCount ps := by simpa [Piece.converts] using hargs
        have hpad : pad false false 0 k (valueText strAt k v) = valueText strAt k v := by
          simp [pad]
        change ((printkLoop strAt (formatText ps) args).map
          (before (printkOutStr (valueText strAt k v)))) = _
        rw [ih args hps hlen, rendered, hpad]
        simp [before, printkOutStr]

/-- Format and arguments stay in step exactly when no conversion has a flag or a width. -/
theorem printk_in_step_iff (strAt : UInt32 → List UInt8) (ps : List Piece) (args : List UInt32)
    (hargs : args.length = convCount ps) : InStep strAt ps args ↔ ∀ p ∈ ps, p.Plain := by
  constructor
  · intro h
    have htakes := loop_takes ps args h
    refine plainCount_eq ?_
    simpa [hargs] using htakes
  · exact fun h => loop_plain ps args h hargs

/-- `%u of %s` -/
def sampleFormat : List Piece :=
  [.conv false false 0 .u, .lit 32 (by decide), .lit 111 (by decide), .lit 102 (by decide),
    .lit 32 (by decide), .conv false false 0 .s]

theorem printk_in_step_iff_sample :
    InStep (fun _ => [97, 98]) sampleFormat [40, 4096] ↔ ∀ p ∈ sampleFormat, p.Plain :=
  printk_in_step_iff (fun _ => [97, 98]) sampleFormat [40, 4096] rfl

/-- `%-20s %u bytes` of `vfs_list`, without the words after it. -/
def listFormat : List Piece :=
  [.conv true false 20 .s, .lit 32 (by decide), .conv false false 0 .u]

/-- `%-20s` is printed as it stands and `%u` shows the pointer, not the size. -/
theorem flags_shift_arguments :
    printk (fun _ => [97, 98]) (some (formatText listFormat)) [4096, 40] =
        some (printkOutStr [37, 45, 50, 48, 115, 32, 52, 48, 57, 54], [40]) ∧
      ¬ InStep (fun _ => [97, 98]) listFormat [4096, 40] := by
  have hrun : printk (fun _ => [97, 98]) (some (formatText listFormat)) [4096, 40] =
      some (printkOutStr [37, 45, 50, 48, 115, 32, 52, 48, 57, 54], [40]) := by decide +kernel
  refine ⟨hrun, fun h => ?_⟩
  rw [InStep, hrun] at h
  cases h

end Dionnex.Printk
