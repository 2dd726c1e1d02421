import Dionnex.KernelMessages
import Dionnex.NumberPrinters
import Dionnex.PortDevices
import Dionnex.VgaConsole

/-!
# What is printed and where it appears

`printk` sends its characters to the screen and to the first serial port,
`klog` only to the port, the functions of the screen only to the screen. The
port is busy for any time after a character. For every list of calls the
screen is the terminal that was given the texts, and the line carries the
texts with a carriage return before each line feed; only `klog_dump` leaves
those out.
-/

set_option autoImplicit false

namespace Dionnex.KernelConsole
open PortDevices Dionnex.KernelString Dionnex.KernelLog Dionnex.Printk Dionnex.KernelMessages Dionnex.NumberPrinters
open Dionnex.VgaConsole (Console vgaPutchar vgaClear vgaSetColor Terminal Correct shown)

/-! ## The port -/

section Driver

variable {σ : Type*} (io : Bus σ)

def serialInit (s : σ) : σ :=
  let s := io.out 8 0x3F9 0x00 s
  let s := io.out 8 0x3FB 0x80 s
  let s := io.out 8 0x3F8 0x01 s
  let s := io.out 8 0x3F9 0x00 s
  let s := io.out 8 0x3FB 0x03 s
  let s := io.out 8 0x3FA 0xC7 s
  io.out 8 0x3FC 0x0B s

def serialIsTransmitEmpty (s : σ) : Bool × σ :=
  let status := io.inp 8 0x3FD s
  (status.1 &&& 0x20 ≠ 0, status.2)

/-- `none` when the rounds of the waiting loop do not suffice. -/
def serialPutchar (rounds : ℕ) (c : UInt8) (s : σ) : Option σ :=
  let first := serialIsTransmitEmpty io s
  (pollWhile (serialIsTransmitEmpty io) (fun empty => !empty) rounds first.1 first.2).bind (fun r =>
    some (io.out 8 0x3F8 c.toBitVec r.2))

end Driver

/-- A transmitter: what it has sent, and for how many looks at the status it is busy. -/
structure Wire where
  sent : List UInt8
  wait : ℕ
  delays : ℕ → ℕ
  lineControl : BitVec 8
  divisorLow : BitVec 8
  divisorHigh : BitVec 8

/-- The divisor is behind the data ports. -/
def Wire.latch (w : Wire) : Bool := w.lineControl.getLsbD 7

/-- Eight bits, no parity and one stop bit at the full rate. -/
def Wire.Framed (w : Wire) : Prop := w.lineControl = 0x03 ∧ w.divisorLow = 0x01 ∧ w.divisorHigh = 0x00

theorem framed_latch {w : Wire} (h : w.Framed) : w.latch = false := by
  unfold Wire.latch
  rw [h.1]
  decide

/-- A character is lost when the transmitter is busy, and nothing is said of that here. -/
structure Uart {σ : Type*} (io : Bus σ) where
  view : σ → Wire
  data : ∀ c s, (view s).latch = false → (view s).wait = 0 → view (io.out 8 0x3F8 (UInt8.toBitVec c) s) =
    { view s with sent := (view s).sent ++ [c], wait := (view s).delays (view s).sent.length }
  interrupts : ∀ v s, (view s).latch = false → view (io.out 8 0x3F9 v s) = view s
  low : ∀ v s, (view s).latch = true → view (io.out 8 0x3F8 v s) = { view s with divisorLow := v }
  high : ∀ v s, (view s).latch = true → view (io.out 8 0x3F9 v s) = { view s with divisorHigh := v }
  control : ∀ v s, view (io.out 8 0x3FB v s) = { view s with lineControl := v }
  fifo : ∀ v s, view (io.out 8 0x3FA v s) = view s
  modem : ∀ v s, view (io.out 8 0x3FC v s) = view s
  status : ∀ s, ((io.inp 8 0x3FD s).1 &&& 0x20 ≠ 0 ↔ (view s).wait = 0) ∧
    view (io.inp 8 0x3FD s).2 = { view s with wait := (view s).wait-1 }

/-! ## Output -/

section Output

variable {σ : Type*} (io : Bus σ)

def emit (rounds : ℕ) : Output → Console × σ → Option (Console × σ)
  | .vgaPutchar c, (v, s) => some (vgaPutchar v c, s)
  | .serialPutchar c, (v, s) => (serialPutchar io rounds c s).bind (fun s => some (v, s))

def emitAll (rounds : ℕ) : List Output → Console × σ → Option (Console × σ)
  | [], x => some x
  | o::os, x => (emit io rounds o x).bind (emitAll rounds os)

def vgaWrite (s : List UInt8) : List Output := (cstr s).map .vgaPutchar

/-- The nibbles from the upper end on. -/
def vgaWriteHex (val : UInt32) : List Output :=
  vgaWrite [48, 120] ++ [28, 24, 20, 16, 12, 8, 4, 0].map (fun i =>
    .vgaPutchar (digit true ((val.toBitVec >>> i) &&& 0x0F#32).toNat))

/-- The calls that print, with the arguments and the memory that they find. -/
inductive Call where
  | printk (strAt : UInt32 → List UInt8) (fmt : Option (List UInt8)) (args : List UInt32)
  | serialWrite (s : List UInt8)
  | klogDump (k : Klog)
  | vgaWrite (s : List UInt8)
  | vgaWriteHex (val : UInt32)
  | vgaWriteDec (val : UInt32) (buf : StringBuffers.Buffer)
  | vgaClear
  | vgaSetColor (fg bg : UInt8)

def perform (rounds : ℕ) (x : Console × σ) : Call → Option (Console × σ)
  | .printk strAt fmt args => (printk strAt fmt args).bind (fun r => emitAll io rounds r.1 x)
  | .serialWrite s => emitAll io rounds (serialWrite s) x
  | .klogDump k => emitAll io rounds (klogDump k) x
  | .vgaWrite s => emitAll io rounds (vgaWrite s) x
  | .vgaWriteHex val => emitAll io rounds (vgaWriteHex val) x
  | .vgaWriteDec val buf => emitAll io rounds (vgaWriteDec val buf) x
  | .vgaClear => some (VgaConsole.vgaClear x.1, x.2)
  | .vgaSetColor fg bg => some (VgaConsole.vgaSetColor x.1 fg bg, x.2)

def performAll (rounds : ℕ) : List Call → Console × σ → Option (Console × σ)
  | [], x => some x
  | c::cs, x => (perform io rounds x c).bind (performAll rounds cs)

end Output

/-! ## What is said -/

/-- A carriage return before each line feed. -/
def crlf (t : List UInt8) : List UInt8 := t.flatMap (fun c => if c = 10 then [13, 10] else [c])

def hexText (val : UInt32) : List UInt8 :=
  48 :: 120 :: (List.range 8).map (fun k => digit true (val.toNat / 16^(7-k) % 16))

/-- What a call gives to the screen and to the line. -/
inductive Says : Call → List VgaConsole.Event → List UInt8 → Prop
  | printk {strAt : UInt32 → List UInt8} {fmt : Option (List UInt8)} {args rest : List UInt32} {t : List UInt8}
      (h : printk strAt fmt args = some (printkOutStr t, rest)) : Says (.printk strAt fmt args) (t.map .putchar) (crlf t)
  | serialWrite (s : List UInt8) : Says (.serialWrite s) [] (crlf (cstr s))
  | klogDump (k : Klog) : Says (.klogDump k) ((CircularBuffer.contents k.buffer klogSize k.tail k.count).map .putchar)
      (CircularBuffer.contents k.buffer klogSize k.tail k.count)
  | vgaWrite (s : List UInt8) : Says (.vgaWrite s) ((cstr s).map .putchar) []
  | vgaWriteHex (val : UInt32) : Says (.vgaWriteHex val) ((hexText val).map .putchar) []
  | vgaWriteDec (val : UInt32) (buf : StringBuffers.Buffer) :
      Says (.vgaWriteDec val buf) ((numText false 10 val.toNat).map .putchar) []
  | vgaClear : Says .vgaClear [.clear] []
  | vgaSetColor (fg bg : UInt8) : Says (.vgaSetColor fg bg) [.setColor fg bg] []

theorem outStr_append (t u : List UInt8) : printkOutStr (t++u) = printkOutStr t ++ printkOutStr u := List.flatMap_append

theorem outStr_char (c : UInt8) : printkOutChar c = printkOutStr [c] := (List.append_nil _).symm

/-- A conversion puts out some text. -/
theorem convert_text {strAt : UInt32 → List UInt8} {c : UInt8} {args : List UInt32} {r : List Output × List UInt32}
    (h : Printk.convert strAt c args = some r) : ∃ t, r.1 = printkOutStr t := by
  have hword : ∀ f : UInt32 → List UInt8, args.head?.map (fun v => (printkOutStr (f v), args.tail)) = some r →
      ∃ t, r.1 = printkOutStr t := by
    intro f hf
    obtain ⟨v, -, rfl⟩ := Option.map_eq_some_iff.mp hf
    exact ⟨f v, rfl⟩
  unfold Printk.convert at h
  split_ifs at h
  · exact hword _ h
  · exact hword _ h
  · exact hword _ h
  · exact hword _ h
  · exact hword _ h
  · obtain ⟨v, -, rfl⟩ := Option.map_eq_some_iff.mp h
    exact ⟨[v.toUInt8], outStr_char _⟩
  · cases h
    exact ⟨[37], outStr_char _⟩
  · cases h
    exact ⟨[37] ++ [c], by rw [outStr_append, ← outStr_char, ← outStr_char]⟩

theorem loop_text (strAt : UInt32 → List UInt8) (fmt : List UInt8) (args : List UInt32) (r : List Output × List UInt32)
    (h : printkLoop strAt fmt args = some r) : ∃ t, r.1 = printkOutStr t := by
  induction fmt, args using printkLoop.induct generalizing r with
  | case1 args =>
    cases h
    exact ⟨[], rfl⟩
  | case2 c args hc =>
    rw [printkLoop, if_pos hc] at h
    cases h
    exact ⟨[], rfl⟩
  | case3 c args hc =>
    rw [printkLoop, if_neg hc] at h
    cases h
    exact ⟨[c], outStr_char c⟩
  | case4 d fmt args =>
    rw [printkLoop, if_pos rfl] at h
    cases h
    exact ⟨[], rfl⟩
  | case5 c d fmt args hc hne ih =>
    rw [printkLoop, if_neg hc, if_pos hne] at h
    obtain ⟨r', hr', rfl⟩ := Option.map_eq_some_iff.mp h
    obtain ⟨t, ht⟩ := ih r' hr'
    exact ⟨c::t, by rw [ht, outStr_char, ← outStr_append, List.singleton_append]⟩
  | case6 c fmt args hc hne =>
    rw [printkLoop, if_neg hc, if_neg hne, if_pos rfl] at h
    cases h
    exact ⟨[], rfl⟩
  | case7 c d fmt args hc hne hd ih =>
    rw [printkLoop, if_neg hc, if_neg hne, if_neg hd] at h
    obtain ⟨r1, h1, h⟩ := Option.bind_eq_some_iff.mp h
    obtain ⟨r2, h2, rfl⟩ := Option.map_eq_some_iff.mp h
    obtain ⟨t, ht⟩ := convert_text h1
    obtain ⟨u, hu⟩ := ih r1 r2 h2
    exact ⟨t++u, by rw [ht, hu, outStr_append]⟩

theorem printk_text {strAt : UInt32 → List UInt8} {fmt : Option (List UInt8)} {args : List UInt32}
    {r : List Output × List UInt32} (h : printk strAt fmt args = some r) : ∃ t, r.1 = printkOutStr t := by
  cases fmt with
  | none =>
    cases h
    exact ⟨[], rfl⟩
  | some fmt => exact loop_text strAt fmt args r h

/-- Every call says something, `printk` as long as it is given enough words. -/
theorem call_says (c : Call) (h : ∀ strAt fmt args, c = .printk strAt fmt args → (printk strAt fmt args).isSome) :
    ∃ es bs, Says c es bs := by
  cases c with
  | printk strAt fmt args =>
    obtain ⟨⟨os, rest⟩, hr⟩ := Option.isSome_iff_exists.mp (h strAt fmt args rfl)
    obtain ⟨t, ht⟩ := printk_text hr
    obtain rfl : os = printkOutStr t := ht
    exact ⟨_, _, .printk hr⟩
  | serialWrite s => exact ⟨_, _, .serialWrite s⟩
  | klogDump k => exact ⟨_, _, .klogDump k⟩
  | vgaWrite s => exact ⟨_, _, .vgaWrite s⟩
  | vgaWriteHex val => exact ⟨_, _, .vgaWriteHex val⟩
  | vgaWriteDec val buf => exact ⟨_, _, .vgaWriteDec val buf⟩
  | vgaClear => exact ⟨_, _, .vgaClear⟩
  | vgaSetColor fg bg => exact ⟨_, _, .vgaSetColor fg bg⟩

/-! ## On the devices -/

section Devices

variable {σ : Type*} {io : Bus σ} (U : Uart io) {v : Console} {t : Terminal} {s : σ}

theorem empty_view (s : σ) : (serialIsTransmitEmpty io s).1 = decide ((U.view s).wait = 0) ∧
    U.view (serialIsTransmitEmpty io s).2 = { U.view s with wait := (U.view s).wait-1 } :=
  ⟨decide_eq_decide.mpr (U.status s).1, (U.status s).2⟩

/-- The loop waits as long as the transmitter is busy. -/
theorem wait_over {w : ℕ} (hw : (U.view s).wait = w) :
    ∃ r, Settles (fun n => pollWhile (serialIsTransmitEmpty io) (fun empty => !empty) n (serialIsTransmitEmpty io s).1
        (serialIsTransmitEmpty io s).2) r ∧ U.view r.2 = { U.view s with wait := 0 } := by
  induction w generalizing s with
  | zero =>
    obtain ⟨hempty, hview⟩ := empty_view U s
    rw [hw] at hempty hview
    refine ⟨_, poll_done ?_, hview⟩
    rw [hempty]
    rfl
  | succ w ih =>
    obtain ⟨hempty, hview⟩ := empty_view U s
    rw [hw] at hempty hview
    obtain ⟨r, hr, hlast⟩ := ih (s := (serialIsTransmitEmpty io s).2) (by rw [hview]; rfl)
    refine ⟨r, poll_next ?_ hr, ?_⟩
    · rw [hempty]
      rfl
    · rw [hlast, hview]

theorem putchar_sent (c : UInt8) (hl : (U.view s).Framed) :
    ∃ s', Settles (fun n => serialPutchar io n c s) s' ∧ (U.view s').Framed ∧
      (U.view s').sent = (U.view s).sent ++ [c] := by
  obtain ⟨r, hr, hview⟩ := wait_over U (s := s) rfl
  have hsent := U.data c r.2 (by rw [hview]; exact framed_latch hl) (by rw [hview])
  refine ⟨_, settles_bind hr settles_some, ?_, ?_⟩
  · rw [hsent, hview]
    exact hl
  · rw [hsent, hview]

/-- The part of an output that the screen shows, and the part that the line carries. -/
def outputEvent : Output → List VgaConsole.Event
  | .vgaPutchar c => [.putchar c]
  | .serialPutchar _ => []

def outputByte : Output → List UInt8
  | .vgaPutchar _ => []
  | .serialPutchar c => [c]

/-- The screen is that terminal, and the line has carried these bytes. -/
structure Appears (x : Console × σ) (t : Terminal) (sent : List UInt8) : Prop where
  screen : Correct x.1 t
  line : (U.view x.2).Framed
  sent : (U.view x.2).sent = sent

theorem output_appears {x : Console × σ} {sent : List UInt8} (h : Appears U x t sent) (o : Output) :
    ∃ x', Settles (fun n => emit io n o x) x' ∧ Appears U x' ((outputEvent o).foldl shown t) (sent ++ outputByte o) := by
  obtain ⟨v, s⟩ := x
  cases o with
  | vgaPutchar c =>
    refine ⟨_, settles_some, VgaConsole.putchar_correct h.screen, h.line, ?_⟩
    exact h.sent.trans (List.append_nil sent).symm
  | serialPutchar c =>
    obtain ⟨s', hs, hline, hsent⟩ := putchar_sent U c h.line
    exact ⟨_, settles_bind hs settles_some, h.screen, hline, hsent.trans (congrArg (· ++ [c]) h.sent)⟩

theorem outputs_appear {x : Console × σ} {sent : List UInt8} (h : Appears U x t sent) (os : List Output) :
    ∃ x', Settles (fun n => emitAll io n os x) x' ∧
      Appears U x' ((os.flatMap outputEvent).foldl shown t) (sent ++ os.flatMap outputByte) := by
  induction os generalizing x t sent with
  | nil => exact ⟨x, settles_some, by rw [List.flatMap_nil, List.flatMap_nil, List.append_nil]; exact h⟩
  | cons o os ih =>
    obtain ⟨y, hy, happears⟩ := output_appears U h o
    obtain ⟨z, hz, hlast⟩ := ih happears
    rw [← List.foldl_append, List.append_assoc] at hlast
    exact ⟨z, settles_bind hy hz, hlast⟩

/-! ### Texts -/

theorem outStr_parts (t : List UInt8) : (printkOutStr t).flatMap outputEvent = t.map .putchar ∧
    (printkOutStr t).flatMap outputByte = crlf t := by
  have hchar : ∀ c, (printkOutChar c).flatMap outputEvent = [.putchar c] ∧
      (printkOutChar c).flatMap outputByte = if c = 10 then [13, 10] else [c] := by
    intro c
    unfold printkOutChar
    by_cases hc : c = 10
    · subst hc
      exact ⟨rfl, rfl⟩
    · rw [if_neg hc, if_neg hc]
      exact ⟨rfl, rfl⟩
  induction t with
  | nil => exact ⟨rfl, rfl⟩
  | cons c t ih =>
    have hcons : printkOutStr (c::t) = printkOutChar c ++ printkOutStr t := List.flatMap_cons
    rw [hcons, List.flatMap_append, List.flatMap_append, (hchar c).1, (hchar c).2, ih.1, ih.2]
    have hcrlf : crlf (c::t) = (if c = 10 then [13, 10] else [c]) ++ crlf t := List.flatMap_cons
    exact ⟨rfl, hcrlf.symm⟩

theorem serialWrite_parts (s : List UInt8) : (serialWrite s).flatMap outputEvent = [] ∧
    (serialWrite s).flatMap outputByte = crlf (cstr s) := by
  unfold serialWrite crlf
  induction cstr s with
  | nil => exact ⟨rfl, rfl⟩
  | cons c t ih =>
    rw [List.flatMap_cons, List.flatMap_cons, List.flatMap_append, List.flatMap_append, ih.1, ih.2]
    by_cases hc : c = 10
    · subst hc
      exact ⟨rfl, rfl⟩
    · rw [if_neg hc, if_neg hc]
      exact ⟨rfl, rfl⟩

theorem screen_parts (t : List UInt8) : (t.map Output.vgaPutchar).flatMap outputEvent = t.map .putchar ∧
    (t.map Output.vgaPutchar).flatMap outputByte = [] := by
  induction t with
  | nil => exact ⟨rfl, rfl⟩
  | cons c t ih =>
    rw [List.map_cons, List.flatMap_cons, List.flatMap_cons, ih.1, ih.2]
    exact ⟨rfl, rfl⟩

theorem dump_parts (k : Klog) (n i : ℕ) :
    (dumpLoop k n i).flatMap outputEvent = (CircularBuffer.contents k.buffer klogSize i n).map .putchar ∧
    (dumpLoop k n i).flatMap outputByte = CircularBuffer.contents k.buffer klogSize i n := by
  rw [dumpLoop_contents]
  induction CircularBuffer.contents k.buffer klogSize i n with
  | nil => exact ⟨rfl, rfl⟩
  | cons c t ih =>
    rw [List.flatMap_cons, List.flatMap_append, List.flatMap_append, ih.1, ih.2]
    exact ⟨rfl, rfl⟩

theorem nibble (val : UInt32) (k : ℕ) :
    ((val.toBitVec >>> k) &&& 0x0F#32).toNat = val.toNat / 2^k % 16 := by
  rw [BitVec.toNat_and, BitVec.toNat_ushiftRight, Nat.shiftRight_eq_div_pow]
  exact Nat.and_two_pow_sub_one_eq_mod _ 4

theorem hex_text (val : UInt32) : vgaWriteHex val = (hexText val).map Output.vgaPutchar := by
  unfold vgaWriteHex hexText
  simp only [nibble, List.map_cons, List.map_nil, List.map_map]
  rfl

/-- A call ends, and what it says appears. -/
theorem call_appears {x : Console × σ} {sent : List UInt8} (h : Appears U x t sent) {c : Call}
    {es : List VgaConsole.Event} {bs : List UInt8} (hc : Says c es bs) :
    ∃ x', Settles (fun n => perform io n x c) x' ∧ Appears U x' (es.foldl shown t) (sent++bs) := by
  have hput : ∀ os : List Output, os.flatMap outputEvent = es → os.flatMap outputByte = bs →
      ∃ x', Settles (fun n => emitAll io n os x) x' ∧ Appears U x' (es.foldl shown t) (sent++bs) := by
    rintro os rfl rfl
    exact outputs_appear U h os
  cases hc with
  | @printk strAt fmt args rest u hu =>
    obtain ⟨x', hx, hlast⟩ := hput _ (outStr_parts u).1 (outStr_parts u).2
    refine ⟨x', ?_, hlast⟩
    simp only [perform, hu, Option.bind_some]
    exact hx
  | serialWrite s => exact hput _ (serialWrite_parts s).1 (serialWrite_parts s).2
  | klogDump k => exact hput _ (dump_parts k _ _).1 (dump_parts k _ _).2
  | vgaWrite s => exact hput _ (screen_parts _).1 (screen_parts _).2
  | vgaWriteHex val =>
    have hparts := screen_parts (hexText val)
    rw [← hex_text] at hparts
    exact hput _ hparts.1 hparts.2
  | vgaWriteDec val buf =>
    have hparts := screen_parts (numText false 10 val.toNat)
    rw [← vgaWriteDec_text] at hparts
    exact hput _ hparts.1 hparts.2
  | vgaClear =>
    exact ⟨_, settles_some, VgaConsole.clear_correct h.screen.window.stored, h.line, h.sent.trans (List.append_nil sent).symm⟩
  | vgaSetColor fg bg =>
    exact ⟨_, settles_some, VgaConsole.step_correct h.screen (.setColor fg bg), h.line,
      h.sent.trans (List.append_nil sent).symm⟩

theorem calls_appear {x : Console × σ} {sent : List UInt8} (h : Appears U x t sent) {cs : List Call}
    {said : List (List VgaConsole.Event × List UInt8)} (hcs : List.Forall₂ (fun c p => Says c p.1 p.2) cs said) :
    ∃ x', Settles (fun n => performAll io n cs x) x' ∧
      Appears U x' ((said.flatMap Prod.fst).foldl shown t) (sent ++ said.flatMap Prod.snd) := by
  induction hcs generalizing x t sent with
  | nil => exact ⟨x, settles_some, by rw [List.flatMap_nil, List.flatMap_nil, List.append_nil]; exact h⟩
  | @cons c p cs said hc _ ih =>
    obtain ⟨y, hy, happears⟩ := call_appears U h hc
    obtain ⟨z, hz, hlast⟩ := ih happears
    rw [← List.foldl_append, List.append_assoc] at hlast
    exact ⟨z, settles_bind hy hz, hlast⟩

theorem serial_ready (s : σ) : (U.view (serialInit io s)).Framed ∧ (U.view (serialInit io s)).sent = (U.view s).sent := by
  let s1 := io.out 8 0x3F9 0x00 s
  let s2 := io.out 8 0x3FB 0x80 s1
  let s3 := io.out 8 0x3F8 0x01 s2
  let s4 := io.out 8 0x3F9 0x00 s3
  let s5 := io.out 8 0x3FB 0x03 s4
  have h1 : (U.view s1).sent = (U.view s).sent := by
    cases hl : (U.view s).latch with
    | true => rw [U.high 0x00 s hl]
    | false => rw [U.interrupts 0x00 s hl]
  have h2 : U.view s2 = { U.view s1 with lineControl := 0x80 } := U.control 0x80 s1
  have hlatch : (0x80#8).getLsbD 7 = true := by decide
  have h3 : U.view s3 = { U.view s2 with divisorLow := 0x01 } := U.low 0x01 s2 (by rw [h2]; exact hlatch)
  have h4 : U.view s4 = { U.view s3 with divisorHigh := 0x00 } := U.high 0x00 s3 (by rw [h3, h2]; exact hlatch)
  have h5 : U.view s5 = { U.view s4 with lineControl := 0x03 } := U.control 0x03 s4
  have hlast : U.view (serialInit io s) = U.view s5 := (U.modem 0x0B _).trans (U.fifo 0xC7 s5)
  rw [hlast, h5, h4, h3, h2]
  exact ⟨⟨rfl, rfl, rfl⟩, h1⟩

end Devices

/-- After the initialisation every list of calls ends, however long the port is busy: the screen is the terminal that
was given the texts, and the line has carried them, in the frame that was set up and with its line ends. -/
theorem console_faithful {σ : Type*} {io : Bus σ} (U : Uart io) (buffer : ℕ → UInt16) (s : σ) (cs : List Call)
    (hfed : ∀ c ∈ cs, ∀ strAt fmt args, c = .printk strAt fmt args → (printk strAt fmt args).isSome) :
    ∃ said x, List.Forall₂ (fun c p => Says c p.1 p.2) cs said ∧
      Settles (fun n => performAll io n cs (VgaConsole.vgaInit (Console.zero buffer), serialInit io s)) x ∧
      Correct x.1 ((said.flatMap Prod.fst).foldl shown Terminal.blank) ∧ (U.view x.2).Framed ∧
      (U.view x.2).sent = (U.view s).sent ++ said.flatMap Prod.snd := by
  obtain ⟨said, hsaid⟩ : ∃ said : List (List VgaConsole.Event × List UInt8),
      List.Forall₂ (fun c p => Says c p.1 p.2) cs said := by
    induction cs with
    | nil => exact ⟨[], List.Forall₂.nil⟩
    | cons c cs ih =>
      obtain ⟨es, bs, hc⟩ := call_says c (hfed c List.mem_cons_self)
      obtain ⟨said, hsaid⟩ := ih (fun c hc => hfed c (List.mem_cons_of_mem _ hc))
      exact ⟨(es, bs)::said, List.Forall₂.cons hc hsaid⟩
  obtain ⟨hframed, hsent⟩ := serial_ready U s
  have hscreen : Correct (VgaConsole.vgaInit (Console.zero buffer)) Terminal.blank :=
    VgaConsole.clear_correct (fun i hi => by cases hi)
  obtain ⟨x, hx, happears⟩ := calls_appear U (x := (_, serialInit io s)) ⟨hscreen, hframed, hsent⟩ hsaid
  exact ⟨said, x, hsaid, hx, happears.screen, happears.line, happears.sent⟩

/-- A port alone behind its addresses. -/
def wireBus : Bus Wire where
  inp := fun w port s =>
    if port = 0x3FD then (if s.wait = 0 then BitVec.ofNat w 0x60 else 0, { s with wait := s.wait-1 }) else (0, s)
  out := fun _ port v s =>
    if port = 0x3F8 then
      if s.latch then { s with divisorLow := v.setWidth 8 }
      else if s.wait = 0 then { s with sent := s.sent ++ [⟨v.setWidth 8⟩], wait := s.delays s.sent.length }
      else s
    else if port = 0x3F9 then (if s.latch then { s with divisorHigh := v.setWidth 8 } else s)
    else if port = 0x3FB then { s with lineControl := v.setWidth 8 }
    else s

def wireUart : Uart wireBus where
  view := id
  data := by
    intro c s hl hw
    simp only [id] at hl hw
    simp only [wireBus, if_true, hl, Bool.false_eq_true, if_false, hw, BitVec.setWidth_eq, id]
  interrupts := by
    intro v s hl
    simp only [id] at hl
    simp [wireBus, hl]
  low := by
    intro v s hl
    simp only [id] at hl
    simp [wireBus, hl]
  high := by
    intro v s hl
    simp only [id] at hl
    simp [wireBus, hl]
  control := by
    intro v s
    simp [wireBus]
  fifo := by
    intro v s
    simp [wireBus]
  modem := by
    intro v s
    simp [wireBus]
  status := by
    intro s
    simp only [wireBus, if_true, id]
    by_cases hw : s.wait = 0
    · simp [hw]
    · simp [hw]

/-- A line is printed while the port is busy for longer and longer. -/
theorem console_faithful_sample : ∃ said x,
    List.Forall₂ (fun c p => Says c p.1 p.2) [.printk (fun _ => []) (some [37, 117, 10]) [42], .vgaWrite [65]] said ∧
    Settles (fun n => performAll wireBus n [.printk (fun _ => []) (some [37, 117, 10]) [42], .vgaWrite [65]]
      (VgaConsole.vgaInit (Console.zero (fun _ => 0)), serialInit wireBus ⟨[], 3, fun n => n, 0x80, 0, 0⟩)) x ∧
    Correct x.1 ((said.flatMap Prod.fst).foldl shown Terminal.blank) ∧ x.2.Framed ∧ x.2.sent = said.flatMap Prod.snd :=
  console_faithful wireUart (fun _ => 0) ⟨[], 3, fun n => n, 0x80, 0, 0⟩ _ (by
    intro c hc strAt fmt args heq
    subst heq
    simp only [List.mem_cons, Call.printk.injEq, reduceCtorEq, List.not_mem_nil, or_false] at hc
    obtain ⟨rfl, rfl, rfl⟩ := hc
    rfl)

example : crlf [72, 105, 10] = [72, 105, 13, 10] := by decide

end Dionnex.KernelConsole
