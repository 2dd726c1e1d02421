import Dionnex.StringAppends

/-!
# Messages for the kernel log

`klog` puts a header and the formatted text together in an array of 512
bytes. Unlike `printk` it does not look for the end of the format behind a
percent sign, and nothing compares the pointer into the array with its end.
-/

set_option autoImplicit false

namespace Dionnex.KernelMessages
open StringBuffers Dionnex.KernelString Dionnex.KernelLog Dionnex.Printk Dionnex.NumberStrings
open Dionnex.NumberPrinters Dionnex.StringAppends

/-! ## The code -/

def klogInfo : UInt8 := 1

def klogPanic : UInt8 := 4

def levelStrings : List String := ["[DEBUG]", "[INFO] ", "[WARN] ", "[ERROR]", "[PANIC]"]

/-- The local variables, the pointers as indexes; `taken` counts the arguments. For the record `reads` lists the
indexes at which the format was read. -/
structure Message where
  fmt : ℕ
  msgBuf : Buffer
  outPtr : ℕ
  numBuf : Buffer
  taken : ℕ
  reads : List ℕ

/-- `*out_ptr++ = c`. -/
def Message.outChar (s : Message) (c : UInt8) : Message :=
  { s with msgBuf := Function.update s.msgBuf s.outPtr c, outPtr := s.outPtr+1 }

def Message.outString (s : Message) (t : List UInt8) : Message := t.foldl Message.outChar s

/-- The string that a conversion has left in the array for digits. -/
def Message.outNumber (s : Message) (numBuf : Buffer) : Message :=
  { s with numBuf := numBuf }.outString (text numBuf 0 4294967296)

def Message.look (s : Message) : Message := { s with reads := s.reads ++ [s.fmt] }

def Message.next (s : Message) : Message := { s with fmt := s.fmt+1 }

def Message.takeArg (s : Message) : Message := { s with taken := s.taken+1 }

/-- The branches on the byte behind a percent sign. -/
def convert (strAt : UInt32 → List UInt8) (args : ℕ → UInt32) (s : Message) (c : UInt8) : Message :=
  let arg := args s.taken
  if c = 115 then s.takeArg.outString (stringAt strAt arg)
  else if c = 100 then s.takeArg.outNumber (itoa arg s.numBuf 10)
  else if c = 117 then s.takeArg.outNumber (utoa arg s.numBuf 10)
  else if c = 120 ∨ c = 88 then s.takeArg.outNumber (utoa arg s.numBuf 16)
  else if c = 99 then s.takeArg.outChar arg.toUInt8
  else if c = 37 then s.outChar 37
  else s

/-- The body of the loop. -/
def round (strAt : UInt32 → List UInt8) (args : ℕ → UInt32) (mem : Buffer) (s : Message) : Message :=
  if mem s.fmt = 37 then
    let s := s.next.look
    (convert strAt args s (mem s.fmt)).next
  else (s.outChar (mem s.fmt)).next

/-- The loop, if it ends within so many looks at the format. -/
def formatLoop (strAt : UInt32 → List UInt8) (args : ℕ → UInt32) (mem : Buffer) : ℕ → Message → Option Message
  | 0, _ => none
  | n+1, s => if mem s.fmt = 0 then some s.look else formatLoop strAt args mem n (round strAt args mem s.look)

/-- What the header is put together from. -/
def header (level : UInt8) (ticks : UInt32) : List Part :=
  let level := if level > klogPanic then klogInfo else level
  [.string (chars "["), .number ticks 10, .string (chars "] "), .string (chars (levelStrings.getD level.toNat "")),
    .string (chars " ")]

/-- The format is at the beginning of `mem`; `args` are the words on the stack, those that the caller has passed
first. There is no result unless the loop ends within `n` rounds. -/
def klogMessage (strAt : UInt32 → List UInt8) (args : ℕ → UInt32) (mem : Buffer) (level : UInt8) (ticks : UInt32)
    (msgBuf numBuf : Buffer) (n : ℕ) : Option Message := do
  let b ← appendAll (Function.update msgBuf 0 0, numBuf) (header level ticks)
  let hdrLen ← strlen b.1
  let s ← formatLoop strAt args mem n ⟨0, b.1, hdrLen, b.2, 0, []⟩
  return { s with msgBuf := Function.update s.msgBuf s.outPtr 0 }

def klogPushString (k : Klog) (s : List UInt8) : Klog := (cstr s).foldl klogPushChar k

def serialWrite (s : List UInt8) : List Output :=
  (cstr s).flatMap (fun c => if c = 10 then [.serialPutchar 13, .serialPutchar c] else [.serialPutchar c])

/-- The message goes to the log and to the serial port. -/
def klog (k : Klog) (strAt : UInt32 → List UInt8) (args : ℕ → UInt32) (mem : Buffer) (level : UInt8) (ticks : UInt32)
    (msgBuf numBuf : Buffer) (n : ℕ) : Option (Message × Klog × List Output) :=
  (klogMessage strAt args mem level ticks msgBuf numBuf n).map (fun s =>
    let message := text s.msgBuf 0 (s.outPtr+1)
    (s, klogPushString k message, serialWrite message))

/-- The calls that change the log; a message is what `klog` has put together. -/
inductive LogCall where
  | init
  | clear
  | message (s : List UInt8)

def called (k : Klog) : LogCall → Klog
  | .init => klogInit k
  | .clear => klogClear k
  | .message s => klogPushString k s

def logAfter (calls : List LogCall) : Klog := calls.foldl called Klog.zero

/-! ## The log after messages -/

/-- What a call does to the ring, character by character. -/
def LogCall.events : LogCall → List Event
  | .init => [.init]
  | .clear => [.clear]
  | .message s => (cstr s).map .push

theorem called_events (k : Klog) (c : LogCall) : called k c = c.events.foldl perform k := by
  cases c with
  | init => rfl
  | clear => rfl
  | message s =>
    rw [LogCall.events, List.foldl_map]
    rfl

theorem logAfter_execute (calls : List LogCall) : logAfter calls = execute (calls.flatMap LogCall.events) := by
  have hrun : ∀ k, calls.foldl called k = (calls.flatMap LogCall.events).foldl perform k := by
    induction calls with
    | nil => exact fun _ => rfl
    | cons c calls ih =>
      intro k
      rw [List.foldl_cons, ih, called_events, List.flatMap_cons, List.foldl_append]
  exact hrun Klog.zero

/-- No NUL gets into the log. -/
theorem history_nulFree (calls : List LogCall) : (0 : UInt8) ∉ history (calls.flatMap LogCall.events) := by
  have hstep : ∀ (c : LogCall) (l : List UInt8), (0 : UInt8) ∉ l → (0 : UInt8) ∉ c.events.foldl logged l := by
    intro c l hl
    cases c with
    | init => exact List.not_mem_nil
    | clear => exact List.not_mem_nil
    | message s =>
      have hpush : ∀ t l, ((t : List UInt8).map Event.push).foldl logged l = l++t := by
        intro t
        induction t with
        | nil => exact fun l => (List.append_nil l).symm
        | cons a t ih =>
          intro l
          rw [List.map_cons, List.foldl_cons, ih, logged, List.append_assoc, List.singleton_append]
      rw [LogCall.events, hpush]
      exact fun h0 => (List.mem_append.mp h0).elim hl (cstr_nulFree s)
  have hrun : ∀ l : List UInt8, (0 : UInt8) ∉ l → (0 : UInt8) ∉ (calls.flatMap LogCall.events).foldl logged l := by
    induction calls with
    | nil => exact fun _ hl => hl
    | cons c calls ih =>
      intro l hl
      rw [List.flatMap_cons, List.foldl_append]
      exact ih _ (hstep c l hl)
  exact hrun [] List.not_mem_nil

/-! ## The size of a message -/

/-- The conversions that have an argument. -/
def Takes (c : UInt8) : Prop := c ∈ [115, 100, 117, 120, 88, 99]

instance : DecidablePred Takes := fun c => inferInstanceAs (Decidable (c ∈ _))

/-- The number of characters that stand for a percent sign and `c`. -/
def width (strAt : UInt32 → List UInt8) (c : UInt8) (arg : UInt32) : ℕ :=
  if c = 115 then (stringAt strAt arg).length
  else if c = 100 then (signedText (asInt32 arg)).length
  else if c = 117 then (numText false 10 arg.toNat).length
  else if c = 120 ∨ c = 88 then (numText false 16 arg.toNat).length
  else if c = 99 ∨ c = 37 then 1
  else 0

/-- The number of characters that the format stands for with the arguments from number `k` on. -/
def size (strAt : UInt32 → List UInt8) (args : ℕ → UInt32) : ℕ → List UInt8 → ℕ
  | _, [] => 0
  | _, [_] => 1
  | k, c::d::fmt =>
    if c = 37 then width strAt d (args k) + size strAt args (if Takes d then k+1 else k) fmt
    else 1 + size strAt args k (d::fmt)

/-- The format ends in a percent sign that does not belong to a conversion. -/
def OpenEnded : List UInt8 → Prop
  | [] => False
  | [c] => c = 37
  | c::d::fmt => if c = 37 then OpenEnded fmt else OpenEnded (d::fmt)

/-- The brackets, the blanks and the name of the level, and the digits. -/
def headerSize (ticks : UInt32) : ℕ := 11 + (numText false 10 ticks.toNat).length

/-- `klog` ends, reads nothing behind the NUL of the format, and stores nothing behind the 512 bytes. -/
structure Contained (fmt : List UInt8) (msgBuf : Buffer) (r : Message) : Prop where
  reads : ∀ i ∈ r.reads, i ≤ fmt.length
  length : r.outPtr ≤ 511
  ended : r.msgBuf r.outPtr = 0
  kept : ∀ i, 512 ≤ i → r.msgBuf i = msgBuf i

section Loop

variable {strAt : UInt32 → List UInt8} {args : ℕ → UInt32} {mem : Buffer} {fmt t : List UInt8} {c : UInt8}
variable {s r : Message} {n m k : ℕ}

/-- Between `s` and `r` the pointer into the array has gone `k` bytes on, and nothing has been stored behind them. -/
structure Advanced (s r : Message) (k : ℕ) : Prop where
  fmt : r.fmt = s.fmt
  reads : r.reads = s.reads
  outPtr : r.outPtr = s.outPtr+k
  kept : ∀ i, s.outPtr+k ≤ i → r.msgBuf i = s.msgBuf i

theorem outChar_advanced : Advanced s (s.outChar c) 1 :=
  ⟨rfl, rfl, rfl, fun _ hi => Function.update_of_ne (show _ ≠ s.outPtr by omega) _ _⟩

theorem outString_advanced : Advanced s (s.outString t) t.length ∧ (s.outString t).taken = s.taken := by
  induction t generalizing s with
  | nil => exact ⟨⟨rfl, rfl, rfl, fun _ _ => rfl⟩, rfl⟩
  | cons c t ih =>
    obtain ⟨h, htaken⟩ := ih (s := s.outChar c)
    have hfirst := @outChar_advanced c s
    refine ⟨⟨h.fmt, h.reads, ?_, fun i hi => ?_⟩, htaken⟩
    · rw [Message.outString, List.foldl_cons]
      rw [Message.outString] at h
      rw [h.outPtr, hfirst.outPtr, List.length_cons]
      omega
    · rw [List.length_cons] at hi
      have hlater := h.kept i (by rw [hfirst.outPtr]; omega)
      rw [Message.outString] at hlater
      rw [Message.outString, List.foldl_cons, hlater, hfirst.kept i (by omega)]

theorem outNumber_advanced {numBuf : Buffer} (h : Holds numBuf 0 t) (ht : t.length ≤ 4294967296) :
    Advanced s (s.outNumber numBuf) t.length ∧ (s.outNumber numBuf).taken = s.taken := by
  unfold Message.outNumber
  rw [text_holds h ht]
  obtain ⟨hadv, htaken⟩ := @outString_advanced t { s with numBuf := numBuf }
  exact ⟨⟨hadv.fmt, hadv.reads, hadv.outPtr, hadv.kept⟩, htaken⟩

theorem takeArg_advanced (h : Advanced s.takeArg r k ∧ r.taken = s.takeArg.taken) :
    Advanced s r k ∧ r.taken = s.taken+1 :=
  ⟨⟨h.1.fmt, h.1.reads, h.1.outPtr, h.1.kept⟩, h.2⟩

theorem unsigned_advanced {v : UInt32} {base : ℤ} (hb : 10 ≤ base) (hb' : base ≤ 36) :
    Advanced s (s.takeArg.outNumber (utoa v s.numBuf base)) (numText false base.toNat v.toNat).length ∧
      (s.takeArg.outNumber (utoa v s.numBuf base)).taken = s.taken+1 := by
  have hholds := @utoa_holds v s.numBuf base (le_trans (by decide) hb) hb'
  have hlen := @numText_length base.toNat false v.toNat (by omega) v.toNat_lt
  exact takeArg_advanced (outNumber_advanced hholds (hlen.trans (by decide)))

/-- Every conversion puts out as many characters as its width says and takes its argument, if it has one. -/
theorem convert_advanced : Advanced s (convert strAt args s c) (width strAt c (args s.taken)) ∧
    (convert strAt args s c).taken = if Takes c then s.taken+1 else s.taken := by
  unfold convert width
  dsimp only
  by_cases hs : c = 115
  · subst hs
    exact takeArg_advanced outString_advanced
  rw [if_neg hs, if_neg hs]
  by_cases hd : c = 100
  · subst hd
    have hlen := @signedText_length (args s.taken)
    exact takeArg_advanced (outNumber_advanced itoa_holds (hlen.trans (by decide)))
  rw [if_neg hd, if_neg hd]
  by_cases hu : c = 117
  · subst hu
    exact unsigned_advanced (by decide) (by decide)
  rw [if_neg hu, if_neg hu]
  by_cases hx : c = 120 ∨ c = 88
  · have hin : Takes c := by
      rcases hx with rfl | rfl
      · decide
      · decide
    rw [if_pos hx, if_pos hx, if_pos hin]
    exact unsigned_advanced (by decide) (by decide)
  rw [if_neg hx, if_neg hx]
  by_cases hc : c = 99
  · subst hc
    exact takeArg_advanced ⟨outChar_advanced, rfl⟩
  have hout : ¬ Takes c := by
    simp only [Takes, List.mem_cons, List.not_mem_nil, or_false]
    tauto
  rw [if_neg hc, if_neg hout]
  by_cases hp : c = 37
  · subst hp
    exact ⟨outChar_advanced, rfl⟩
  · rw [if_neg hp, if_neg (by tauto)]
    exact ⟨⟨rfl, rfl, rfl, fun _ _ => rfl⟩, rfl⟩

theorem round_literal (h : mem s.fmt ≠ 37) : Advanced s.next (round strAt args mem s) 1 ∧
    (round strAt args mem s).taken = s.taken := by
  have hout := @outChar_advanced (mem s.fmt) s
  rw [round, if_neg h]
  exact ⟨⟨rfl, rfl, rfl, hout.kept⟩, rfl⟩

theorem round_percent (h : mem s.fmt = 37) :
    Advanced s.next.look.next (round strAt args mem s) (width strAt (mem (s.fmt+1)) (args s.taken)) ∧
      (round strAt args mem s).taken = if Takes (mem (s.fmt+1)) then s.taken+1 else s.taken := by
  obtain ⟨hconv, htaken⟩ := @convert_advanced strAt args (mem (s.fmt+1)) s.next.look
  rw [round, if_pos h]
  exact ⟨⟨congrArg Nat.succ hconv.fmt, hconv.reads, hconv.outPtr, hconv.kept⟩, htaken⟩

theorem round_reads {i : ℕ} (hi : i ∈ s.reads) : i ∈ (round strAt args mem s).reads := by
  by_cases h : mem s.fmt = 37
  · rw [(round_percent h).1.reads]
    exact List.mem_append_left _ hi
  · rw [(round_literal h).1.reads]
    exact hi

/-- What has been read stays on the record. -/
theorem formatLoop_reads {i : ℕ} (h : formatLoop strAt args mem n s = some r) (hi : i ∈ s.reads ∨ i = s.fmt) :
    i ∈ r.reads := by
  induction n generalizing s i with
  | zero => exact absurd h (by simp [formatLoop])
  | succ n ih =>
    have hlook : i ∈ s.look.reads := by
      rw [Message.look, List.mem_append, List.mem_singleton]
      exact hi
    rw [formatLoop] at h
    by_cases h0 : mem s.fmt = 0
    · rw [if_pos h0, Option.some_inj] at h
      exact h ▸ hlook
    · rw [if_neg h0] at h
      exact ih h (Or.inl (round_reads hlook))

theorem formatLoop_mono (h : formatLoop strAt args mem n s = some r) (hm : n ≤ m) :
    formatLoop strAt args mem m s = some r := by
  induction n generalizing s m with
  | zero => exact absurd h (by simp [formatLoop])
  | succ n ih =>
    obtain ⟨m, rfl⟩ := Nat.exists_eq_succ_of_ne_zero (show m ≠ 0 by omega)
    rw [formatLoop] at h ⊢
    split at h
    · next h0 => rw [if_pos h0, h]
    · next h0 => rw [if_neg h0, ih h (by omega)]

/-- From `s` to `r` a format of `len` bytes has been worked through, and `k` characters have been put out. -/
structure Formatted (s r : Message) (len k : ℕ) : Prop where
  reads : ∀ i ∈ r.reads, i ∈ s.reads ∨ i ≤ s.fmt+len
  outPtr : r.outPtr = s.outPtr+k
  kept : ∀ i, s.outPtr+k ≤ i → r.msgBuf i = s.msgBuf i

theorem look_formatted : Formatted s s.look 0 0 := by
  refine ⟨fun i hi => ?_, rfl, fun _ _ => rfl⟩
  rw [Message.look, List.mem_append, List.mem_singleton] at hi
  exact hi.imp_right (fun h => h.le)

/-- A round for `a` bytes of the format, and the rest of the loop. -/
theorem formatted_step {t : Message} {a len j : ℕ} (hfmt : t.fmt = s.fmt+a)
    (hreads : ∀ i ∈ t.reads, i ∈ s.reads ∨ i ≤ s.fmt+a) (hout : t.outPtr = s.outPtr+j)
    (hkept : ∀ i, s.outPtr+j ≤ i → t.msgBuf i = s.msgBuf i) (h : Formatted t r len k) :
    Formatted s r (a+len) (j+k) := by
  have hend := h.outPtr
  refine ⟨fun i hi => ?_, by omega, fun i hi => ?_⟩
  · rcases h.reads i hi with hin | hle
    · exact (hreads i hin).imp_right (fun hle => by omega)
    · exact Or.inr (by omega)
  · rw [h.kept i (by omega), hkept i (by omega)]

theorem literal_step (hc : mem s.fmt ≠ 37) (h : Formatted (round strAt args mem s.look) r n k) :
    Formatted s r (1+n) (1+k) := by
  obtain ⟨hadv, -⟩ := @round_literal strAt args mem s.look hc
  have hlook := @look_formatted s
  refine formatted_step hadv.fmt (fun i hi => ?_) hadv.outPtr hadv.kept h
  rw [hadv.reads] at hi
  exact (hlook.reads i hi).imp_right (fun hle => by omega)

theorem percent_step (hc : mem s.fmt = 37) (h : Formatted (round strAt args mem s.look) r n k) :
    Formatted s r (2+n) (width strAt (mem (s.fmt+1)) (args s.taken) + k) := by
  obtain ⟨hadv, -⟩ := @round_percent strAt args mem s.look hc
  have hlook := @look_formatted s
  refine formatted_step hadv.fmt (fun i hi => ?_) hadv.outPtr hadv.kept h
  rw [hadv.reads] at hi
  rcases List.mem_append.mp hi with hi | hi
  · exact (hlook.reads i hi).imp_right (fun hle => by omega)
  · rw [List.mem_singleton.mp hi]
    exact Or.inr (Nat.add_le_add_left (by decide) s.fmt)

theorem formatLoop_end (h : mem s.fmt = 0) : formatLoop strAt args mem (n+1) s = some s.look := by
  rw [formatLoop, if_pos h]

theorem formatLoop_round (h : mem s.fmt ≠ 0) :
    formatLoop strAt args mem (n+1) s = formatLoop strAt args mem n (round strAt args mem s.look) := by
  rw [formatLoop, if_neg h]

theorem holds_first (h : Holds mem k (c::fmt)) : mem k = c ∧ mem k ≠ 0 := by
  have hbyte := holds_byte h (show 0 < (c::fmt).length by simp)
  rwa [Nat.add_zero, List.getD_cons_zero] at hbyte

/-- After a round the rest of the format is ahead. -/
theorem literal_rest (hmem : Holds mem s.fmt (c::fmt)) (hc : c ≠ 37) :
    mem s.fmt ≠ 37 ∧ Holds mem (round strAt args mem s.look).fmt fmt := by
  have hlit : mem s.fmt ≠ 37 := fun h => hc ((holds_first hmem).1.symm.trans h)
  rw [(@round_literal strAt args mem s.look hlit).1.fmt]
  exact ⟨hlit, holds_tail hmem⟩

theorem percent_rest (hmem : Holds mem s.fmt (37::c::fmt)) :
    mem s.fmt = 37 ∧ mem (s.fmt+1) = c ∧ Holds mem (round strAt args mem s.look).fmt fmt := by
  have hpercent := (holds_first hmem).1
  rw [(@round_percent strAt args mem s.look hpercent).1.fmt]
  exact ⟨hpercent, (holds_first (holds_tail hmem)).1, holds_tail (holds_tail hmem)⟩

/-- A format that does not end in an open percent sign is worked through up to its NUL. -/
theorem formatLoop_closed (hmem : Holds mem s.fmt fmt) (hopen : ¬ OpenEnded fmt) :
    ∃ n r, formatLoop strAt args mem n s = some r ∧ Formatted s r fmt.length (size strAt args s.taken fmt) := by
  induction fmt using OpenEnded.induct generalizing s with
  | case1 =>
    have hend := holds_end hmem
    exact ⟨1, s.look, formatLoop_end hend, look_formatted⟩
  | case2 c =>
    obtain ⟨hlit, hrest⟩ := @literal_rest strAt args _ _ _ _ hmem hopen
    refine ⟨2, _, (formatLoop_round (holds_first hmem).2).trans (formatLoop_end (holds_end hrest)), ?_⟩
    exact literal_step hlit look_formatted
  | case3 d fmt ih =>
    obtain ⟨hpercent, hd, hrest⟩ := @percent_rest strAt args _ _ _ _ hmem
    obtain ⟨n, r, hr, hf⟩ := ih hrest (by simpa [OpenEnded] using hopen)
    refine ⟨n+1, r, (formatLoop_round (holds_first hmem).2).trans hr, ?_⟩
    have hall := percent_step hpercent hf
    rw [(@round_percent strAt args mem s.look hpercent).2] at hall
    change Formatted s r (2 + fmt.length) (width strAt (mem (s.fmt+1)) (args s.taken) +
      size strAt args (if Takes (mem (s.fmt+1)) then s.taken+1 else s.taken) fmt) at hall
    rw [hd] at hall
    rw [size, if_pos rfl, List.length_cons, List.length_cons, show fmt.length+1+1 = 2 + fmt.length by omega]
    exact hall
  | case4 c d fmt hne ih =>
    obtain ⟨hlit, hrest⟩ := @literal_rest strAt args _ _ _ _ hmem hne
    obtain ⟨n, r, hr, hf⟩ := ih hrest (by simpa [OpenEnded, hne] using hopen)
    refine ⟨n+1, r, (formatLoop_round (holds_first hmem).2).trans hr, ?_⟩
    have hall := literal_step hlit hf
    rw [(@round_literal strAt args mem s.look hlit).2] at hall
    rw [size, if_neg hne, List.length_cons, Nat.add_comm _ 1]
    exact hall

/-- A loop that ends on a nonempty format has made its first round. -/
theorem formatLoop_next (h0 : mem s.fmt ≠ 0) (h : formatLoop strAt args mem n s = some r) :
    ∃ m, formatLoop strAt args mem m (round strAt args mem s.look) = some r := by
  cases n with
  | zero => exact absurd h (by simp [formatLoop])
  | succ n =>
    rw [formatLoop_round h0] at h
    exact ⟨n, h⟩

/-- Behind an open percent sign the loop looks at the byte after the NUL. -/
theorem formatLoop_open (hmem : Holds mem s.fmt fmt) (hopen : OpenEnded fmt)
    (h : formatLoop strAt args mem n s = some r) : s.fmt + fmt.length + 1 ∈ r.reads := by
  induction fmt using OpenEnded.induct generalizing s n with
  | case1 => exact hopen.elim
  | case2 c =>
    obtain ⟨hc, h0⟩ := holds_first hmem
    obtain ⟨m, hm⟩ := formatLoop_next h0 h
    obtain ⟨hadv, -⟩ := @round_percent strAt args mem s.look (hc.trans hopen)
    exact formatLoop_reads hm (Or.inr hadv.fmt.symm)
  | case3 d fmt ih =>
    obtain ⟨hpercent, -, hrest⟩ := @percent_rest strAt args _ _ _ _ hmem
    obtain ⟨m, hm⟩ := formatLoop_next (holds_first hmem).2 h
    have hread := ih hrest (by simpa [OpenEnded] using hopen) hm
    rw [(@round_percent strAt args mem s.look hpercent).1.fmt] at hread
    convert hread using 1
    change s.fmt + (fmt.length+1+1) + 1 = s.fmt+1+1 + fmt.length + 1
    omega
  | case4 c d fmt hne ih =>
    obtain ⟨hlit, hrest⟩ := @literal_rest strAt args _ _ _ _ hmem hne
    obtain ⟨m, hm⟩ := formatLoop_next (holds_first hmem).2 h
    have hread := ih hrest (by simpa [OpenEnded, hne] using hopen) hm
    rw [(@round_literal strAt args mem s.look hlit).1.fmt] at hread
    convert hread using 1
    change s.fmt + ((d::fmt).length+1) + 1 = s.fmt+1 + (d::fmt).length + 1
    omega

end Loop

/-! ## Which messages fit -/

section Messages

variable {strAt : UInt32 → List UInt8} {args : ℕ → UInt32} {mem msgBuf numBuf : Buffer} {fmt : List UInt8}
variable {level : UInt8} {ticks : UInt32} {k : Klog}

/-- All names of levels have the same length. -/
theorem level_chars : ∃ s, (cstr s).length = 7 ∧
    header level ticks = [.string (chars "["), .number ticks 10, .string (chars "] "), .string s, .string (chars " ")] := by
  have hall : ∀ i < 5, (cstr (chars (levelStrings.getD i ""))).length = 7 := by decide
  refine ⟨_, hall _ ?_, rfl⟩
  split
  · decide
  · next h => exact Nat.lt_succ_of_le (UInt8.le_iff_toNat_le.mp (UInt8.not_lt.mp h))

theorem header_printable : ∀ p ∈ header level ticks, p.Printable := by
  obtain ⟨s, -, hheader⟩ := @level_chars level ticks
  have hbase : (10 : ℤ) ≤ 10 ∧ (10 : ℤ) ≤ 36 := by decide
  rw [hheader]
  simp only [List.forall_mem_cons, List.not_mem_nil, false_implies, implies_true, and_true]
  exact ⟨trivial, hbase, trivial, trivial, trivial⟩

theorem header_size : (joined (header level ticks)).length = headerSize ticks := by
  obtain ⟨s, hs, hheader⟩ := @level_chars level ticks
  have hopen : (cstr (chars "[")).length = 1 := by decide
  have hclose : (cstr (chars "] ")).length = 2 := by decide
  have hblank : (cstr (chars " ")).length = 1 := by decide
  rw [hheader, headerSize]
  simp only [joined, List.flatMap_cons, List.flatMap_nil, List.length_append, Part.text, List.length_nil, hs, hopen,
    hclose, hblank, Int.reduceToNat]
  omega

/-- The state when the loop starts. -/
def started (ticks : UInt32) (buf tmp : Buffer) : Message := ⟨0, buf, headerSize ticks, tmp, 0, []⟩

/-- The loop starts behind the header. -/
theorem klogMessage_loop : ∃ buf tmp, Filled msgBuf buf (joined (header level ticks)) ∧ ∀ n,
    klogMessage strAt args mem level ticks msgBuf numBuf n =
      (formatLoop strAt args mem n (started ticks buf tmp)).map
        (fun s => { s with msgBuf := Function.update s.msgBuf s.outPtr 0 }) := by
  have hdigits := @numText_length 10 false ticks.toNat (by decide) ticks.toNat_lt
  have hsize := @header_size level ticks
  rw [headerSize] at hsize
  obtain ⟨b, hb, hfill⟩ := @appendAll_filled _ _ numBuf _ _ (@header_printable level ticks) (@filled_empty msgBuf)
    (by rw [List.length_nil]; omega)
  have hlen := strlen_filled hfill (by rw [List.nil_append]; omega)
  refine ⟨b.1, b.2, hfill, fun n => ?_⟩
  rw [List.nil_append, header_size] at hlen
  rw [klogMessage, hb, Option.bind_eq_bind, Option.bind_some, hlen, Option.bind_eq_bind, Option.bind_some]
  change (formatLoop strAt args mem n (started ticks b.1 b.2)).bind _ = _
  cases formatLoop strAt args mem n (started ticks b.1 b.2) with
  | none => rfl
  | some s => rfl

theorem klog_of_fits (hmem : Holds mem 0 fmt) (hopen : ¬ OpenEnded fmt)
    (hsize : headerSize ticks + size strAt args 0 fmt ≤ 511) :
    ∃ n r, klog k strAt args mem level ticks msgBuf numBuf n = some r ∧ Contained fmt msgBuf r.1 := by
  obtain ⟨buf, tmp, hfill, hloop⟩ := @klogMessage_loop strAt args mem msgBuf numBuf level ticks
  obtain ⟨n, r, hr, hf⟩ := @formatLoop_closed strAt args mem fmt (started ticks buf tmp) hmem hopen
  have hkept : ∀ i, headerSize ticks + size strAt args 0 fmt ≤ i → r.msgBuf i = buf i := hf.kept
  have hout : r.outPtr = headerSize ticks + size strAt args 0 fmt := hf.outPtr
  refine ⟨n, _, by rw [klog, hloop, hr]; rfl, ⟨fun i hi => ?_, ?_, Function.update_self _ _ _, fun i hi => ?_⟩⟩
  · rcases hf.reads i hi with hin | hle
    · exact absurd hin List.not_mem_nil
    · exact hle.trans (Nat.zero_add fmt.length).le
  · exact hout.trans_le hsize
  · have hheader := hfill.2 i (by rw [header_size]; omega)
    change Function.update r.msgBuf r.outPtr 0 i = _
    rw [Function.update_of_ne (by omega), hkept i (by omega), hheader]

theorem fits_of_klog {n : ℕ} {r : Message × Klog × List Output} (hmem : Holds mem 0 fmt)
    (hr : klog k strAt args mem level ticks msgBuf numBuf n = some r) (h : Contained fmt msgBuf r.1) :
    ¬ OpenEnded fmt ∧ headerSize ticks + size strAt args 0 fmt ≤ 511 := by
  obtain ⟨buf, tmp, -, hloop⟩ := @klogMessage_loop strAt args mem msgBuf numBuf level ticks
  rw [klog, hloop, Option.map_map, Option.map_eq_some_iff] at hr
  obtain ⟨t, ht, rfl⟩ := hr
  have hclosed : ¬ OpenEnded fmt := by
    intro hopen
    have hread := h.reads _ (@formatLoop_open strAt args mem fmt (started ticks buf tmp) t n hmem hopen ht)
    change 0 + fmt.length + 1 ≤ fmt.length at hread
    omega
  refine ⟨hclosed, ?_⟩
  obtain ⟨n', r, hr, hf⟩ := @formatLoop_closed strAt args mem fmt (started ticks buf tmp) hmem hclosed
  -- Both runs of the loop end in the same state.
  have hsame := (formatLoop_mono hr (Nat.le_max_left n' n)).symm.trans (formatLoop_mono ht (Nat.le_max_right n' n))
  rw [Option.some_inj] at hsame
  subst hsame
  exact hf.outPtr.symm.trans_le h.length

/-- A call stays within its format and its array exactly if the format does not end in a percent sign of its own and
header and text have at most 511 characters. -/
theorem klog_contained_iff (hmem : Holds mem 0 fmt) (k : Klog) (strAt : UInt32 → List UInt8) (args : ℕ → UInt32)
    (level : UInt8) (ticks : UInt32) (msgBuf numBuf : Buffer) :
    (∃ n r, klog k strAt args mem level ticks msgBuf numBuf n = some r ∧ Contained fmt msgBuf r.1) ↔
      ¬ OpenEnded fmt ∧ headerSize ticks + size strAt args 0 fmt ≤ 511 := by
  constructor
  · rintro ⟨n, r, hr, h⟩
    exact fits_of_klog hmem hr h
  · rintro ⟨hopen, hsize⟩
    exact klog_of_fits hmem hopen hsize

/-- A format at the beginning of memory that is zero behind it. -/
def formatAt (fmt : List UInt8) : Buffer := put (fun _ => 0) 0 (fmt++[0])

theorem klog_contained_iff_sample :
    (∃ n r, klog Klog.zero (fun _ => []) (fun _ => 7) (formatAt (chars "%d pages\n")) 1 99 (fun _ => 255) (fun _ => 255)
      n = some r ∧ Contained (chars "%d pages\n") (fun _ => 255) r.1) ↔
      ¬ OpenEnded (chars "%d pages\n") ∧
        headerSize 99 + size (fun _ => []) (fun _ => 7) 0 (chars "%d pages\n") ≤ 511 :=
  klog_contained_iff (holds_put (by decide)) Klog.zero _ _ 1 99 _ _

/-- The message of `kernel_panic` with a text of 492 characters, and a format that ends in a percent sign. -/
theorem klog_overruns :
    (¬ ∃ n r, klog Klog.zero (fun _ => List.replicate 492 65) (fun _ => 4096) (formatAt (chars "PANIC: %s\n")) 4 0
      (fun _ => 255) (fun _ => 255) n = some r ∧ Contained (chars "PANIC: %s\n") (fun _ => 255) r.1) ∧
    ¬ ∃ n r, klog Klog.zero (fun _ => []) (fun _ => 0) (formatAt (chars "load 100%")) 1 0
      (fun _ => 255) (fun _ => 255) n = some r ∧ Contained (chars "load 100%") (fun _ => 255) r.1 := by
  constructor
  · rintro ⟨n, r, hr, h⟩
    have hsize := (fits_of_klog (holds_put (by decide)) hr h).2
    exact absurd hsize (by decide +kernel)
  · rintro ⟨n, r, hr, h⟩
    have hopen := (fits_of_klog (holds_put (by decide)) hr h).1
    exact hopen rfl

end Messages

end Dionnex.KernelMessages
