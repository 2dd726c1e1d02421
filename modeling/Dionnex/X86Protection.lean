import Dionnex.X86Stack

/-!
# Protected mode: descriptors, gates, and the way into a handler and back

The processor's side of interrupts in 32-bit protected mode. Descriptors and
gates are decoded from memory where the table registers point. Delivery checks
the gate and its code segment, takes the stack of the task state segment when
the privilege level changes, and pushes what `iret` takes back. Segments are
flat, so that offsets are addresses; a segment that is not, a task gate, nested
tasks and virtual-8086 mode are beyond the model.
-/

set_option autoImplicit false

namespace X86Protection
open ByteMemory X86Stack

/-- The faults with their error codes. -/
inductive Fault where
  | invalidTss (code : ℕ)
  | notPresent (code : ℕ)
  | stack (code : ℕ)
  | protection (code : ℕ)
  | unsupported
  deriving DecidableEq, Repr

/-! ## Descriptors and gates -/

/-- The limit has 20 bits, `flags` is the upper half of the byte that holds their rest. -/
structure Descriptor where
  base : ℕ
  limit : ℕ
  access : ℕ
  flags : ℕ
  deriving DecidableEq, Repr

def descriptorAt (m : Mem) (a : ℕ) : Descriptor where
  base := load16 m (a+2) + 65536*load8 m (a+4) + 16777216*load8 m (a+7)
  limit := load16 m a + 65536*(load8 m (a+6) % 16)
  access := load8 m (a+5)
  flags := load8 m (a+6) / 16

def Descriptor.dpl (d : Descriptor) : ℕ := d.access / 32 % 4

def Descriptor.isPresent (d : Descriptor) : Bool := d.access.testBit 7

def Descriptor.isSegment (d : Descriptor) : Bool := d.access.testBit 4

def Descriptor.isCode (d : Descriptor) : Bool := d.isSegment && d.access.testBit 3

def Descriptor.isConforming (d : Descriptor) : Bool := d.isCode && d.access.testBit 2

def Descriptor.isWritable (d : Descriptor) : Bool := d.isSegment && !d.access.testBit 3 && d.access.testBit 1

/-- Data, or code that can be read. -/
def Descriptor.isLoadable (d : Descriptor) : Bool := d.isSegment && (!d.access.testBit 3 || d.access.testBit 1)

/-- All four gigabytes from address 0, 32 bits, and not expanding down. -/
def Descriptor.isFlat (d : Descriptor) : Bool :=
  d.base = 0 && d.limit = 0xFFFFF && d.flags.testBit 3 && d.flags.testBit 2 && !(d.access.testBit 2 && !d.access.testBit 3)

structure Gate where
  offset : ℕ
  selector : ℕ
  flags : ℕ
  deriving DecidableEq, Repr

def gateAt (m : Mem) (a : ℕ) : Gate := ⟨load16 m a + 65536*load16 m (a+6), load16 m (a+2), load8 m (a+5)⟩

def Gate.kind (g : Gate) : ℕ := g.flags % 32

def Gate.dpl (g : Gate) : ℕ := g.flags / 32 % 4

def Gate.isPresent (g : Gate) : Bool := g.flags.testBit 7

section Records

variable {m m' : Mem} {a v i j : ℕ}

theorem load8_other (h : i ≠ j) (hi : i < 8) (hj : j < 8) : load8 (store8 m (a+i) v) (a+j) = load8 m (a+j) :=
  store8_load m (a+i) (a+j) v (by unfold wrap; omega)

theorem load8_above (h : j ≠ 0) (hj : j < 8) : load8 (store8 m a v) (a+j) = load8 m (a+j) :=
  store8_load m a (a+j) v (by unfold wrap; omega)

theorem load8_below (h : i ≠ 0) (hi : i < 8) : load8 (store8 m (a+i) v) a = load8 m a :=
  store8_load m (a+i) a v (by unfold wrap; omega)

theorem load16_off_span {R : Set ℕ} (h : SameOff R m m') {n : ℕ} (hd : Disjoint (span a n) R) (hi : i+2 ≤ n) :
    load16 m' (a+i) = load16 m (a+i) :=
  load16_off h (hd.mono_left (span_shift hi))

theorem load8_off_span {R : Set ℕ} (h : SameOff R m m') {n : ℕ} (hd : Disjoint (span a n) R) (hi : i < n) :
    load8 m' (a+i) = load8 m (a+i) :=
  load8_off h (Set.disjoint_left.mp hd ⟨i, hi, rfl⟩)

theorem descriptorAt_off {R : Set ℕ} (h : SameOff R m m') (hd : Disjoint (span a 8) R) :
    descriptorAt m' a = descriptorAt m a := by
  have h0 := load16_off_span h hd (i := 0) (by decide)
  rw [Nat.add_zero] at h0
  rw [descriptorAt, h0, load16_off_span h hd (by decide), load8_off_span h hd (by decide), load8_off_span h hd (by decide),
    load8_off_span h hd (by decide), load8_off_span h hd (by decide), descriptorAt]

theorem gateAt_off {R : Set ℕ} (h : SameOff R m m') (hd : Disjoint (span a 8) R) : gateAt m' a = gateAt m a := by
  have h0 := load16_off_span h hd (i := 0) (by decide)
  rw [Nat.add_zero] at h0
  rw [gateAt, h0, load16_off_span h hd (by decide), load16_off_span h hd (by decide), load8_off_span h hd (by decide), gateAt]

end Records

/-! ## The processor -/

structure TableRegister where
  base : ℕ
  limit : ℕ
  deriving DecidableEq, Repr

structure TaskRegister where
  selector : ℕ
  base : ℕ
  limit : ℕ
  deriving DecidableEq, Repr

inductive DataSegment where
  | ds | es | fs | gs
  deriving DecidableEq, Repr

structure Selectors where
  ds : ℕ
  es : ℕ
  fs : ℕ
  gs : ℕ
  deriving DecidableEq, Repr

def Selectors.get (x : Selectors) : DataSegment → ℕ
  | .ds => x.ds
  | .es => x.es
  | .fs => x.fs
  | .gs => x.gs

def Selectors.set (x : Selectors) (v : ℕ) : DataSegment → Selectors
  | .ds => { x with ds := v }
  | .es => { x with es := v }
  | .fs => { x with fs := v }
  | .gs => { x with gs := v }

structure Processor where
  regs : Regs
  eflags : ℕ
  eip : ℕ
  cs : ℕ
  ss : ℕ
  data : Selectors
  gdtr : TableRegister
  idtr : TableRegister
  tr : TaskRegister
  mem : Mem

def Processor.cpl (p : Processor) : ℕ := p.cs % 4

/-- The registers hold words. -/
structure Processor.Bounded (p : Processor) : Prop where
  regs : ∀ r, p.regs.get r < 4294967296
  eip : p.eip < 4294967296
  eflags : p.eflags < 4294967296

/-- The `i`-th word above the stack pointer. -/
def Processor.word (p : Processor) (i : ℕ) : ℕ := load32 p.mem (p.regs.esp + 4*i)

def Processor.push (p : Processor) (ws : List ℕ) : Processor :=
  { p with
    regs := { p.regs with esp := (pushWords p.mem p.regs.esp ws).2 }
    mem := (pushWords p.mem p.regs.esp ws).1 }

def Processor.pop (p : Processor) (n : ℕ) : Processor := { p with regs := { p.regs with esp := wrap (p.regs.esp + n) } }

/-- The bits of `mask` cleared. -/
def clearFlags (e mask : ℕ) : ℕ := e ^^^ (e &&& mask)

/-- The exceptions that come with an error code. -/
def errorVectors : List ℕ := [8, 10, 11, 12, 13, 14, 17, 21, 29, 30]

def trapBit : ℕ := 8
def interruptBit : ℕ := 9
def nestedBit : ℕ := 14
def resumeBit : ℕ := 16
def virtualBit : ℕ := 17

/-! ## Segment checks -/

/-- A null selector is the callers' matter. -/
def lookup (p : Processor) (sel : ℕ) : Except Fault Descriptor :=
  if sel / 4 % 2 = 1 ∨ p.gdtr.limit < 8*(sel/8)+7 then .error (.protection (sel/4*4))
  else .ok (descriptorAt p.mem (p.gdtr.base + 8*(sel/8)))

def describe (p : Processor) (sel : ℕ) : Except Fault Descriptor :=
  (lookup p sel).bind (fun d => if d.isFlat then .ok d else .error .unsupported)

/-- A load of `ds`, `es`, `fs` or `gs`. -/
def checkData (p : Processor) (sel : ℕ) : Except Fault Unit :=
  if sel/4 = 0 then .ok ()
  else (describe p sel).bind (fun d =>
    if d.isLoadable ∧ (d.isConforming ∨ max p.cpl (sel%4) ≤ d.dpl) then
      if d.isPresent then .ok () else .error (.notPresent (sel/4*4))
    else .error (.protection (sel/4*4)))

/-- A load of `ss` for a privilege level; `bad` is the fault that its caller raises. -/
def checkStack (p : Processor) (level sel : ℕ) (bad : ℕ → Fault) : Except Fault Unit :=
  if sel/4 = 0 then .error (bad 0)
  else match lookup p sel with
    | .error _ => .error (bad (sel/4*4))
    | .ok d =>
      if sel%4 = level ∧ d.isWritable ∧ d.dpl = level then
        if d.isPresent then
          if d.isFlat then .ok () else .error .unsupported
        else .error (.stack (sel/4*4))
      else .error (bad (sel/4*4))

/-- The code segment of a gate: no less privileged than the code that is interrupted. -/
def checkTarget (p : Processor) (sel : ℕ) : Except Fault Descriptor :=
  if sel/4 = 0 then .error (.protection 0)
  else (describe p sel).bind (fun d =>
    if d.isCode ∧ d.dpl ≤ p.cpl then
      if d.isPresent then .ok d else .error (.notPresent (sel/4*4))
    else .error (.protection (sel/4*4)))

/-- The code segment that `iret` goes back to. -/
def checkReturn (p : Processor) (sel : ℕ) : Except Fault Unit :=
  if sel/4 = 0 then .error (.protection 0)
  else (describe p sel).bind (fun d =>
    if d.isCode ∧ p.cpl ≤ sel%4 ∧ (if d.isConforming then d.dpl ≤ sel%4 else d.dpl = sel%4) then
      if d.isPresent then .ok () else .error (.notPresent (sel/4*4))
    else .error (.protection (sel/4*4)))

/-- The code segment of a far jump, which keeps the privilege level. -/
def checkJump (p : Processor) (sel : ℕ) : Except Fault Unit :=
  if sel/4 = 0 then .error (.protection 0)
  else (describe p sel).bind (fun d =>
    if d.isCode ∧ (if d.isConforming then d.dpl ≤ p.cpl else sel%4 ≤ p.cpl ∧ d.dpl = p.cpl) then
      if d.isPresent then .ok () else .error (.notPresent (sel/4*4))
    else .error (.protection (sel/4*4)))

/-! ## Delivery and return -/

/-- The gate of a vector. Only an `int` instruction needs the gate's privilege. -/
def gateFor (p : Processor) (vector : ℕ) (software : Bool) : Except Fault Gate :=
  let code := 8*vector+2 + (if software then 0 else 1)
  if p.idtr.limit < 8*vector+7 then .error (.protection code)
  else
    let g := gateAt p.mem (p.idtr.base + 8*vector)
    if g.kind = 5 ∨ g.kind = 6 ∨ g.kind = 7 then .error .unsupported
    else if g.kind ≠ 14 ∧ g.kind ≠ 15 then .error (.protection code)
    else if software ∧ g.dpl < p.cpl then .error (.protection code)
    else if g.isPresent then .ok g
    else .error (.notPresent code)

/-- `ss` and `esp` for a privilege level, from the task state segment. -/
def tssStack (p : Processor) (level : ℕ) : Except Fault (ℕ × ℕ) :=
  if p.tr.limit < 8*level+9 then .error (.invalidTss (p.tr.selector/4*4))
  else .ok (load16 p.mem (p.tr.base + 8*level+8), load32 p.mem (p.tr.base + 8*level+4))

/-- An interrupt gate closes interrupts, a trap gate does not. -/
def gateMask (g : Gate) : ℕ :=
  2^trapBit + (if g.kind = 14 then 2^interruptBit else 0) + 2^nestedBit + 2^resumeBit + 2^virtualBit

/-- The jump through the gate at a privilege level. -/
def enterGate (p : Processor) (g : Gate) (level : ℕ) : Processor :=
  { p with cs := g.selector/4*4 + level, eip := g.offset, eflags := clearFlags p.eflags (gateMask g) }

def deliver (p : Processor) (vector : ℕ) (software : Bool) (error : Option ℕ) : Except Fault Processor :=
  if p.eflags.testBit virtualBit then .error .unsupported
  else (gateFor p vector software).bind (fun g => (checkTarget p g.selector).bind (fun d =>
    if d.isConforming ∨ d.dpl = p.cpl then
      .ok (enterGate (p.push ([p.eflags, p.cs, p.eip] ++ error.toList)) g p.cpl)
    else (tssStack p d.dpl).bind (fun top => (checkStack p d.dpl top.1 .invalidTss).bind (fun _ =>
      .ok (enterGate (({ p with ss := top.1, regs := { p.regs with esp := top.2 } }).push
        ([p.ss, p.regs.esp, p.eflags, p.cs, p.eip] ++ error.toList)) g d.dpl)))))

/-- On the way out a data segment that the outer level may not use becomes null. -/
def outerSelector (p : Processor) (level sel : ℕ) : ℕ :=
  match lookup p sel with
  | .ok d => if sel/4 ≠ 0 ∧ d.isConforming = false ∧ d.dpl < level then 0 else sel
  | .error _ => sel

def Selectors.map (x : Selectors) (f : ℕ → ℕ) : Selectors := ⟨f x.ds, f x.es, f x.fs, f x.gs⟩

/-- At privilege level 0. -/
def iret (p : Processor) : Except Fault Processor :=
  if p.cpl ≠ 0 ∨ p.eflags.testBit nestedBit ∨ (p.word 2).testBit virtualBit then .error .unsupported
  else (checkReturn p (p.word 1 % 65536)).bind (fun _ =>
    let back := { p with eip := p.word 0, cs := p.word 1 % 65536, eflags := p.word 2 }
    if p.word 1 % 4 = 0 then .ok (back.pop 12)
    else (checkStack p (p.word 1 % 4) (p.word 4 % 65536) .protection).bind (fun _ =>
      .ok { back with
        ss := p.word 4 % 65536
        regs := { p.regs with esp := p.word 3 }
        data := p.data.map (outerSelector p (p.word 1 % 4)) }))

/-! ## Instructions -/

inductive Instr where
  | cli
  | push (v : ℕ)
  | pushReg (r : Reg)
  | popReg (r : Reg)
  | pusha
  | popa
  | pushf
  | pushSegment (s : DataSegment)
  | popSegment (s : DataSegment)
  | movAx (v : ℕ)
  | movSegment (s : DataSegment)
  | movStack
  | or (r : Reg) (v : ℕ)
  | addEsp (n : ℕ)
  | lgdt (a : ℕ)
  | lidt (a : ℕ)
  | ltr
  | jumpFar (sel : ℕ)
  | iret
  deriving DecidableEq, Repr

def ax (r : Regs) : ℕ := r.eax % 65536

/-- `ltr` marks the task state segment busy. -/
def loadTask (p : Processor) (sel : ℕ) : Except Fault Processor :=
  if sel/4 = 0 then .error (.protection 0)
  else (lookup p sel).bind (fun d =>
    if d.access % 32 = 9 then
      if d.isPresent then
        .ok { p with
          tr := ⟨sel, d.base, if d.flags.testBit 3 then d.limit*4096+4095 else d.limit⟩
          mem := store8 p.mem (p.gdtr.base + 8*(sel/8) + 5) (d.access ||| 2) }
      else .error (.notPresent (sel/4*4))
    else .error (.protection (sel/4*4)))

def setSegment (p : Processor) (s : DataSegment) (sel : ℕ) : Except Fault Processor :=
  (checkData p sel).map (fun _ => { p with data := p.data.set sel s })

def tableAt (m : Mem) (a : ℕ) : TableRegister := ⟨load32 m (a+2), load16 m a⟩

def privileged (p : Processor) (r : Except Fault Processor) : Except Fault Processor :=
  if p.cpl = 0 then r else .error (.protection 0)

def step (p : Processor) : Instr → Except Fault Processor
  | .cli =>
    if p.cpl ≤ p.eflags / 4096 % 4 then .ok { p with eflags := clearFlags p.eflags (2^interruptBit) }
    else .error (.protection 0)
  | .push v => .ok (p.push [v])
  | .pushReg r => .ok (p.push [p.regs.get r])
  | .popReg r => .ok { p.pop 4 with regs := (p.pop 4).regs.set r (p.word 0) }
  | .pusha => .ok (p.push p.regs.pushOrder)
  | .popa => .ok { p with
      regs := ⟨p.word 7, p.word 6, p.word 5, p.word 4, wrap (p.regs.esp+32), p.word 2, p.word 1, p.word 0⟩ }
  | .pushf => .ok (p.push [p.eflags])
  | .pushSegment s => .ok (p.push [p.data.get s])
  | .popSegment s => (setSegment p s (p.word 0 % 65536)).map (fun q => q.pop 4)
  | .movAx v => .ok { p with regs := { p.regs with eax := p.regs.eax / 65536 * 65536 + v } }
  | .movSegment s => setSegment p s (ax p.regs)
  | .movStack => (checkStack p p.cpl (ax p.regs) .protection).map (fun _ => { p with ss := ax p.regs })
  | .or r v => .ok { p with regs := p.regs.set r (p.regs.get r ||| v) }
  | .addEsp n => .ok (p.pop n)
  | .lgdt a => privileged p (.ok { p with gdtr := tableAt p.mem a })
  | .lidt a => privileged p (.ok { p with idtr := tableAt p.mem a })
  | .ltr => privileged p (loadTask p (ax p.regs))
  | .jumpFar sel => (checkJump p sel).map (fun _ => { p with cs := sel/4*4 + p.cpl })
  | .iret => iret p

def exec : List Instr → Processor → Except Fault Processor
  | [], p => .ok p
  | i::is, p => (step p i).bind (exec is)

theorem exec_cons {i : Instr} {is : List Instr} {p q : Processor} (h : step p i = .ok q) :
    exec (i::is) p = exec is q := by
  rw [exec, h]
  rfl

theorem exec_append (is js : List Instr) (p : Processor) : exec (is++js) p = (exec is p).bind (exec js) := by
  induction is generalizing p with
  | nil => rfl
  | cons i is ih =>
    rw [List.cons_append, exec, exec]
    cases step p i with
    | error f => rfl
    | ok q => exact ih q

section Steps

variable {p : Processor}

theorem step_lgdt (hcpl : p.cpl = 0) {a : ℕ} {t : TableRegister} (ht : tableAt p.mem a = t) :
    step p (.lgdt a) = .ok { p with gdtr := t } := by
  rw [step, privileged, if_pos hcpl, ht]

theorem step_lidt (hcpl : p.cpl = 0) {a : ℕ} {t : TableRegister} (ht : tableAt p.mem a = t) :
    step p (.lidt a) = .ok { p with idtr := t } := by
  rw [step, privileged, if_pos hcpl, ht]

theorem step_movStack {sel : ℕ} (hax : ax p.regs = sel) (h : checkStack p p.cpl sel .protection = .ok ()) :
    step p .movStack = .ok { p with ss := sel } := by
  rw [step, hax, h]
  rfl

theorem step_jumpFar {sel : ℕ} (h : checkJump p sel = .ok ()) :
    step p (.jumpFar sel) = .ok { p with cs := sel/4*4 + p.cpl } := by
  rw [step, h]
  rfl

theorem step_ltr (hcpl : p.cpl = 0) {sel : ℕ} (hax : ax p.regs = sel) {d : Descriptor} (hsel : sel/4 ≠ 0)
    (hlookup : lookup p sel = .ok d) (hd : d.access % 32 = 9 ∧ d.isPresent ∧ d.flags.testBit 3 = false) :
    step p .ltr = .ok { p with
      tr := ⟨sel, d.base, d.limit⟩
      mem := store8 p.mem (p.gdtr.base + 8*(sel/8) + 5) (d.access ||| 2) } := by
  rw [step, privileged, if_pos hcpl, hax, loadTask, if_neg hsel, hlookup, Except.bind, if_pos hd.1, if_pos hd.2.1, hd.2.2]
  rfl

end Steps

/-- The access byte alone is rewritten. -/
theorem descriptorAt_access (m : Mem) (a v : ℕ) :
    descriptorAt (store8 m (a+5) v) a = { descriptorAt m a with access := v % 256 } := by
  simp (disch := decide) only [descriptorAt, load16, Nat.add_assoc, Nat.reduceAdd, store8_same, load8_other, load8_below]

end X86Protection
