import Dionnex.BootTables

/-!
# Interrupts in and out

The assembly stubs between the processor and the C handlers. A stub saves what
the processor has not saved, calls its handler with the address of the saved
words, and takes them back.
-/

set_option autoImplicit false

namespace Dionnex.InterruptStubs
open ByteMemory X86Protection Dionnex.BootTables
open X86Stack (pushWords pushWords_append pushWords_esp pushWords_off pushWords_word)

/-! ## The stubs -/

inductive Stub where
  | isr (v : ℕ)
  | irq (n : ℕ)
  | syscall
  deriving DecidableEq, Repr

/-- The vectors of `ISR_ERRCODE`. -/
def errorCodes : List ℕ := [8, 10, 11, 12, 13, 14, 17, 21, 29, 30]

def saveSegments : List Instr :=
  [.pusha, .pushSegment .ds, .pushSegment .es, .pushSegment .fs, .pushSegment .gs]

/-- Up to the `call`, whose only argument is the address of the saved words. -/
def saving : List Instr := saveSegments ++ (loadData 0x10 ++ [.pushReg .esp])

def restoring : List Instr :=
  [.addEsp 4, .popSegment .gs, .popSegment .fs, .popSegment .es, .popSegment .ds, .popa]

def Stub.numbers : Stub → List ℕ
  | .isr v => if v ∈ errorCodes then [v] else [0, v]
  | .irq n => [0, 32+n]
  | .syscall => []

def Stub.entry (s : Stub) : List Instr := .cli :: (s.numbers.map Instr.push ++ saving)

def Stub.exit : Stub → List Instr
  | .syscall => restoring ++ [.iret]
  | _ => restoring ++ [.addEsp 8, .iret]

/-- `enter_userspace`, with its two operands. -/
def enterUserspace (eip esp : ℕ) : List Instr :=
  .cli :: (loadData 0x23 ++ [.push 0x23, .push esp, .pushf, .popReg .eax, .or .eax 0x200, .pushReg .eax, .push 0x1B, .push eip,
    .iret])

def stubs : List Stub := (List.range 32).map .isr ++ (List.range 16).map .irq ++ [.syscall]

def Stub.address (im : Image) : Stub → ℕ
  | .isr v => im.isr v
  | .irq n => im.irq n
  | .syscall => im.syscallIsrStub

/-- The code at an address. -/
def stubAt (im : Image) (a : ℕ) : Option Stub := stubs.find? (fun s => s.address im = a)

/-! ## Requests -/

inductive Request where
  | exception (v : ℕ) (error : Option ℕ)
  | irq (n : ℕ)
  | int (n : ℕ)

/-- A fault of delivery is delivered in its turn. -/
def raise (p : Processor) : Fault → Except Fault Processor
  | .invalidTss c => deliver p 10 false (some c)
  | .notPresent c => deliver p 11 false (some c)
  | .stack c => deliver p 12 false (some c)
  | .protection c => deliver p 13 false (some c)
  | .unsupported => .error .unsupported

def Request.deliver (p : Processor) : Request → Except Fault Processor
  | .exception v e => X86Protection.deliver p v false e
  | .irq n => X86Protection.deliver p (32+n) false none
  | .int n =>
    match X86Protection.deliver p n true none with
    | .ok q => .ok q
    | .error f => raise p f

/-- The processor before the `call` of the C handler, and the stub that calls it. -/
def arrive (im : Image) (p : Processor) (r : Request) : Except Fault (Stub × Processor) :=
  (r.deliver p).bind (fun q =>
    match stubAt im q.eip with
    | none => .error .unsupported
    | some s => (exec s.entry q).map (fun q => (s, q)))

/-- What hardware and user mode can ask for; the kernel's only `int` is the system call. -/
def Request.Allowed (p : Processor) : Request → Prop
  | .exception v e => v < 32 ∧ (e.isSome ↔ v ∈ errorVectors) ∧ ∀ c ∈ e, c < 4294967296
  | .irq n => n < 16
  | .int n => n < 256 ∧ (n = 0x80 ∨ p.cpl = 3)

def Request.stub : Request → Stub
  | .exception v _ => .isr v
  | .irq n => .irq n
  | .int n => if n = 0x80 then .syscall else .isr 13

def Request.error : Request → Option ℕ
  | .exception _ e => e
  | .irq _ => none
  | .int n => if n = 0x80 then none else some (8*n+2)

/-! ## The saved words -/

def Stub.codes (error : Option ℕ) : Stub → List ℕ
  | .isr v => [v, error.getD 0]
  | .irq n => [32+n, 0]
  | .syscall => []

/-- What the processor has pushed above the error code. -/
def returnWords (p : Processor) : List ℕ := [p.eip, p.cs, p.eflags] ++ (if p.cpl = 0 then [] else [p.regs.esp, p.ss])

/-- The words from the handler's argument at `a` on. -/
def savedWords (p : Processor) (s : Stub) (error : Option ℕ) (a : ℕ) : List ℕ :=
  [a+4, p.data.gs, p.data.fs, p.data.es, p.data.ds, p.regs.edi, p.regs.esi, p.regs.ebp, a+52, p.regs.ebx, p.regs.edx,
    p.regs.ecx, p.regs.eax] ++ (s.codes error ++ returnWords p)

/-- The stack that a handler runs on, from the top. -/
def stackTop (im : Image) (p : Processor) : ℕ := if p.cpl = 0 then p.regs.esp else kernelStack im p.mem

structure Frame where
  stub : Stub
  context : Processor
  error : Option ℕ
  address : ℕ

def Frame.words (f : Frame) : List ℕ := savedWords f.context f.stub f.error f.address

/-- The frame of a request, below the top of the stack. -/
def frameOf (im : Image) (p : Processor) (r : Request) : Frame :=
  ⟨r.stub, p, r.error, stackTop im p - 4*(13 + (r.stub.codes r.error ++ returnWords p).length)⟩

/-- The room that the longest frame takes. -/
def room (im : Image) (p : Processor) : Set ℕ := Set.Ico (stackTop im p - 80) (stackTop im p)

/-- The processor at the call of the handler. -/
def entered (im : Image) (p : Processor) (r : Request) : Processor :=
  { p with
    regs := { p.regs with eax := p.regs.eax / 65536 * 65536 + 0x10, esp := (frameOf im p r).address }
    eflags := clearFlags (clearFlags p.eflags (2^trapBit + 2^interruptBit + 2^nestedBit + 2^resumeBit + 2^virtualBit))
      (2^interruptBit)
    eip := r.stub.address im
    cs := 0x08
    ss := 0x10
    data := ⟨0x10, 0x10, 0x10, 0x10⟩
    mem := (pushWords p.mem (stackTop im p) (frameOf im p r).words.reverse).1 }

/-- What the kernel and its programs keep to. -/
structure Context (p : Processor) : Prop where
  bounded : p.Bounded
  nested : p.eflags.testBit nestedBit = false
  virtual : p.eflags.testBit virtualBit = false
  mode : p.cs = 0x08 ∧ p.ss = 0x10 ∨ p.cs = 0x1B ∧ p.ss = 0x23
  data : ∀ s, Usable p.cpl (p.data.get s)

/-! ## The way in -/

section Entry

variable {im : Image} {p : Processor}

theorem push_push (p : Processor) (vs ws : List ℕ) : (p.push vs).push ws = p.push (vs++ws) := by
  simp only [Processor.push, pushWords_append]

theorem step_push (v : ℕ) (p : Processor) : step p (.push v) = .ok (p.push [v]) := by rw [step]

theorem exec_numbers (vs : List ℕ) (is : List Instr) (p : Processor) :
    exec (vs.map Instr.push ++ is) p = exec is (p.push vs) := by
  induction vs generalizing p with
  | nil => rfl
  | cons v vs ih =>
    rw [List.map_cons, List.cons_append, exec_cons (step_push v p), ih, push_push]
    rfl

/-- The words that the common part of the stubs pushes before the handler's argument. -/
def savedOrder (p : Processor) : List ℕ := p.regs.pushOrder ++ [p.data.ds, p.data.es, p.data.fs, p.data.gs]

theorem withData_push (p : Processor) (vs : List ℕ) (v : ℕ) : withData (p.push vs) v = (withData p v).push vs := rfl

theorem push_data (p : Processor) (vs : List ℕ) : (p.push vs).data = p.data := rfl

theorem push_cpl (p : Processor) (vs : List ℕ) : (p.push vs).cpl = p.cpl := rfl

theorem exec_pushReg (p : Processor) (r : X86Stack.Reg) (is : List Instr) :
    exec (.pushReg r :: is) p = exec is (p.push [p.regs.get r]) :=
  exec_cons (by rw [step])

theorem push_eflags (p : Processor) (vs : List ℕ) : (p.push vs).eflags = p.eflags := rfl

theorem exec_pushf (p : Processor) (is : List Instr) : exec (.pushf :: is) p = exec is (p.push [p.eflags]) :=
  exec_cons (by rw [step])

theorem exec_pushSegment (p : Processor) (s : DataSegment) (is : List Instr) :
    exec (.pushSegment s :: is) p = exec is (p.push [p.data.get s]) :=
  exec_cons (by rw [step])

theorem exec_saveSegments (p : Processor) (is : List Instr) :
    exec (saveSegments ++ is) p = exec is (p.push (savedOrder p)) := by
  have hpusha (is : List Instr) : exec (.pusha :: is) p = exec is (p.push p.regs.pushOrder) :=
    exec_cons (by rw [step])
  have hsegment (vs : List ℕ) (s : DataSegment) (is : List Instr) :
      exec (.pushSegment s :: is) (p.push vs) = exec is (p.push (vs ++ [p.data.get s])) := by
    rw [exec_pushSegment, push_data, push_push]
  rw [saveSegments, List.cons_append, hpusha, List.cons_append, hsegment, List.cons_append, hsegment, List.cons_append, hsegment,
    List.cons_append, hsegment, List.nil_append, List.append_assoc, List.append_assoc, List.append_assoc]
  rfl

theorem exec_saving (hcpl : p.cpl = 0) (hseg : Segments im (p.push (savedOrder p))) :
    exec saving p = .ok ((withData p 0x10).push (savedOrder p ++ [(p.push (savedOrder p)).regs.esp])) := by
  obtain ⟨q, hp⟩ : ∃ q, p.push (savedOrder p) = q := ⟨_, rfl⟩
  rw [hp] at hseg ⊢
  have hq : withData q 0x10 = (withData p 0x10).push (savedOrder p) := by rw [← hp, withData_push]
  have husable : Usable q.cpl 0x10 := by
    rw [← hp, push_cpl]
    exact ⟨by decide, Or.inr (Or.inr ⟨hcpl, Or.inr rfl⟩)⟩
  have hesp : (withData q 0x10).regs.get .esp = q.regs.esp := rfl
  have hlast : exec [.pushReg .esp] (withData q 0x10) =
      .ok ((withData p 0x10).push (savedOrder p ++ [q.regs.esp])) := by
    rw [exec_pushReg, hesp, hq, push_push, exec]
  rw [saving, exec_saveSegments, hp, exec_loadData hseg husable, hlast]

/-- What the processor pushes by itself, in order. -/
def trapWords (p : Processor) : List ℕ := (if p.cpl = 0 then [] else [p.ss, p.regs.esp]) ++ [p.eflags, p.cs, p.eip]

/-- The processor behind a gate of the kernel, its stack still empty. -/
def opened (im : Image) (p : Processor) (g : Gate) : Processor :=
  { p with
    cs := 0x08
    ss := 0x10
    eip := g.offset
    eflags := clearFlags p.eflags (gateMask g)
    regs := { p.regs with esp := stackTop im p } }

theorem enterGate_push (p : Processor) (vs : List ℕ) (g : Gate) : enterGate (p.push vs) g 0 = (enterGate p g 0).push vs := rfl

theorem Context.levels (h : Context p) :
    p.cpl = 0 ∧ p.cs = 0x08 ∧ p.ss = 0x10 ∨ p.cpl = 3 ∧ p.cs = 0x1B ∧ p.ss = 0x23 := by
  rcases h.mode with ⟨hcs, hss⟩ | ⟨hcs, hss⟩
  · exact Or.inl ⟨by rw [Processor.cpl, hcs], hcs, hss⟩
  · exact Or.inr ⟨by rw [Processor.cpl, hcs], hcs, hss⟩

theorem tssStack_kernel (h : Loaded im p) : tssStack p 0 = .ok (0x10, kernelStack im p.mem) := by
  rw [tssStack, h.tr, if_neg (by dsimp only; omega)]
  simp only [Nat.mul_zero, Nat.add_zero, h.stored.ss0, kernelStack]

theorem deliver_open (h : Loaded im p) (hc : Context p) {v : ℕ} {soft : Bool} {g : Gate}
    (hgate : gateFor p v soft = .ok g) (hsel : g.selector = 0x08) (error : Option ℕ) :
    deliver p v soft error = .ok ((opened im p g).push (trapWords p ++ error.toList)) := by
  have hvirtual : ¬p.eflags.testBit virtualBit = true := by
    rw [hc.virtual]
    decide
  have hconforming : (segmentDescriptor 1).isConforming = false := by decide
  have hdpl : (segmentDescriptor 1).dpl = 0 := by decide
  rw [deliver, if_neg hvirtual, hgate, Except.bind, hsel, checkTarget_kernel h.segments, Except.bind, hconforming, hdpl]
  rcases hc.levels with ⟨hcpl, -, hss⟩ | ⟨hcpl, -, -⟩
  · have hopened : opened im p g = enterGate p g 0 := by
      unfold opened enterGate
      rw [hsel, stackTop, if_pos hcpl, ← hss]
    have hwords : trapWords p = [p.eflags, p.cs, p.eip] := by
      rw [trapWords, if_pos hcpl]
      rfl
    rw [hcpl, if_pos (Or.inr rfl), hwords, hopened, enterGate_push]
  · have hopened : opened im p g =
        enterGate { p with ss := 0x10, regs := { p.regs with esp := kernelStack im p.mem } } g 0 := by
      unfold opened enterGate
      rw [hsel, stackTop, if_neg (by rw [hcpl]; decide)]
    have hwords : trapWords p = [p.ss, p.regs.esp, p.eflags, p.cs, p.eip] := by
      rw [trapWords, if_neg (by rw [hcpl]; decide)]
      rfl
    rw [hcpl, if_neg (by decide), tssStack_kernel h, Except.bind, checkStack_kernel h.segments, Except.bind, hwords, hopened,
      enterGate_push]

theorem gateFor_open (h : Loaded im p) {v : ℕ} (hv : v < 256) {soft : Bool} (hkind : (kernelGate im v).kind = 14)
    (hpresent : (kernelGate im v).isPresent = true) (hdpl : soft = true → p.cpl ≤ (kernelGate im v).dpl) :
    gateFor p v soft = .ok (kernelGate im v) := by
  have hlimit : ¬p.idtr.limit < 8*v+7 := by
    rw [h.idtr]
    dsimp only
    omega
  have hgate : gateAt p.mem (p.idtr.base + 8*v) = kernelGate im v := by
    rw [h.idtr]
    exact h.stored.idt v hv
  have hallowed : ¬(soft = true ∧ (kernelGate im v).dpl < p.cpl) := fun hs => absurd (hdpl hs.1) (Nat.not_le.mpr hs.2)
  rw [gateFor, if_neg hlimit]
  dsimp only
  rw [hgate, hkind, if_neg (by decide), if_neg (by decide), if_neg hallowed, if_pos hpresent]

/-- Without privilege, an `int` through any gate but the system call's is a protection fault. -/
theorem gateFor_closed (h : Loaded im p) {n : ℕ} (hn : n < 256) (h80 : n ≠ 0x80) (hcpl : p.cpl = 3) :
    gateFor p n true = .error (.protection (8*n+2)) := by
  have hlimit : ¬p.idtr.limit < 8*n+7 := by
    rw [h.idtr]
    dsimp only
    omega
  have hgate : gateAt p.mem (p.idtr.base + 8*n) = kernelGate im n := by
    rw [h.idtr]
    exact h.stored.idt n hn
  rw [gateFor, if_neg hlimit]
  dsimp only
  rw [hgate, hcpl]
  have hflags : (kernelGate im n).flags = 0x8E ∨ (kernelGate im n).flags = 0 := by
    unfold kernelGate
    rw [if_neg h80]
    split
    · exact Or.inl rfl
    · split
      · exact Or.inl rfl
      · exact Or.inr rfl
  rcases hflags with hf | hf
  · rw [Gate.kind, Gate.dpl, hf, if_neg (by decide), if_neg (by decide), if_pos (by decide)]
    rfl
  · rw [Gate.kind, hf, if_neg (by decide), if_pos (by decide)]
    rfl

theorem mem_stubs {s : Stub} (hs : s ∈ stubs) : (∃ v < 32, s = .isr v) ∨ (∃ n < 16, s = .irq n) ∨ s = .syscall := by
  rcases List.mem_append.mp hs with hs | hs
  · rcases List.mem_append.mp hs with hs | hs
    · obtain ⟨v, hv, rfl⟩ := List.mem_map.mp hs
      exact Or.inl ⟨v, List.mem_range.mp hv, rfl⟩
    · obtain ⟨n, hn, rfl⟩ := List.mem_map.mp hs
      exact Or.inr (Or.inl ⟨n, List.mem_range.mp hn, rfl⟩)
  · exact Or.inr (Or.inr (List.mem_singleton.mp hs))

theorem isr_mem {v : ℕ} (hv : v < 32) : Stub.isr v ∈ stubs :=
  List.mem_append_left _ (List.mem_append_left _ (List.mem_map.mpr ⟨v, List.mem_range.mpr hv, rfl⟩))

theorem irq_mem {n : ℕ} (hn : n < 16) : Stub.irq n ∈ stubs :=
  List.mem_append_left _ (List.mem_append_right _ (List.mem_map.mpr ⟨n, List.mem_range.mpr hn, rfl⟩))

theorem syscall_mem : Stub.syscall ∈ stubs := List.mem_append_right _ (List.mem_singleton_self _)

/-- No two stubs have one address. -/
theorem stubAt_address {s : Stub} (hs : s ∈ stubs) : stubAt im (s.address im) = some s := by
  have haddresses : stubs.map (Stub.address im) =
      (List.range 32).map im.isr ++ (List.range 16).map im.irq ++ [im.syscallIsrStub] := by
    rw [stubs, List.map_append, List.map_append, List.map_map, List.map_map]
    rfl
  have hinj := List.inj_on_of_nodup_map (haddresses ▸ im.stubs : (stubs.map (Stub.address im)).Nodup)
  have hfound : (stubs.find? (fun t => t.address im = s.address im)).isSome :=
    List.find?_isSome.mpr ⟨s, hs, decide_eq_true rfl⟩
  obtain ⟨t, ht⟩ := Option.isSome_iff_exists.mp hfound
  have haddress : t.address im = s.address im := by
    have hfind := List.find?_some ht
    exact of_decide_eq_true hfind
  rw [stubAt, ht, hinj (List.mem_of_find?_eq_some ht) hs haddress]

theorem gate_open {o f : ℕ} (hf : f = 0x8E ∨ f = 0xEE) :
    (Gate.mk o 0x08 f).kind = 14 ∧ (Gate.mk o 0x08 f).isPresent = true := by
  change f % 32 = 14 ∧ f.testBit 7 = true
  rcases hf with rfl | rfl <;> decide

theorem gateMask_open {g : Gate} (hg : g.kind = 14) :
    gateMask g = 2^trapBit + 2^interruptBit + 2^nestedBit + 2^resumeBit + 2^virtualBit := by
  rw [gateMask, if_pos hg]

/-- Every request that is allowed goes through the gate of its stub. -/
theorem request_delivered (h : Loaded im p) (hc : Context p) (r : Request) (hr : r.Allowed p) :
    ∃ g : Gate, r.deliver p = .ok ((opened im p g).push (trapWords p ++ r.error.toList)) ∧ g.offset = r.stub.address im ∧
      r.stub ∈ stubs ∧ gateMask g = 2^trapBit + 2^interruptBit + 2^nestedBit + 2^resumeBit + 2^virtualBit := by
  have hisr {v : ℕ} (hv : v < 32) : kernelGate im v = ⟨im.isr v, 0x08, 0x8E⟩ := if_pos hv
  have hopen {v : ℕ} (hv : v < 32) : gateFor p v false = .ok ⟨im.isr v, 0x08, 0x8E⟩ := by
    have hgate : gateFor p v false = .ok (kernelGate im v) :=
      gateFor_open h (by omega) (by rw [hisr hv]; exact (gate_open (Or.inl rfl)).1)
        (by rw [hisr hv]; exact (gate_open (Or.inl rfl)).2) nofun
    rwa [hisr hv] at hgate
  cases r with
  | exception v e =>
    exact ⟨_, deliver_open h hc (hopen hr.1) rfl e, rfl, isr_mem hr.1, gateMask_open (gate_open (Or.inl rfl)).1⟩
  | irq n =>
    have hn : n < 16 := hr
    have hirq : kernelGate im (32+n) = ⟨im.irq n, 0x08, 0x8E⟩ := by
      rw [kernelGate, if_neg (by omega), if_pos (by omega), Nat.add_sub_cancel_left]
    have hgate : gateFor p (32+n) false = .ok (kernelGate im (32+n)) :=
      gateFor_open h (by omega) (by rw [hirq]; exact (gate_open (Or.inl rfl)).1)
        (by rw [hirq]; exact (gate_open (Or.inl rfl)).2) nofun
    rw [hirq] at hgate
    exact ⟨_, deliver_open h hc hgate rfl none, rfl, irq_mem hn, gateMask_open (gate_open (Or.inl rfl)).1⟩
  | int n =>
    by_cases h80 : n = 0x80
    · subst h80
      have hsys : kernelGate im 0x80 = ⟨im.syscallIsrStub, 0x08, 0xEE⟩ := rfl
      have hcpl : p.cpl ≤ 3 := Nat.le_of_lt_succ (Nat.mod_lt _ (by decide))
      have hgate : gateFor p 0x80 true = .ok (kernelGate im 0x80) :=
        gateFor_open h (by decide) (gate_open (Or.inr rfl)).1 (gate_open (Or.inr rfl)).2
          (fun _ => hcpl.trans (show 3 ≤ 0xEE/32%4 by decide))
      rw [hsys] at hgate
      refine ⟨_, ?_, rfl, syscall_mem, gateMask_open (gate_open (Or.inr rfl)).1⟩
      rw [Request.deliver, deliver_open h hc hgate rfl none]
      rfl
    · have hcpl : p.cpl = 3 := hr.2.resolve_left h80
      refine ⟨⟨im.isr 13, 0x08, 0x8E⟩, ?_, ?_, ?_, gateMask_open (gate_open (Or.inl rfl)).1⟩
      · have hfault : deliver p n true none = .error (.protection (8*n+2)) := by
          rw [deliver, if_neg (by rw [hc.virtual]; decide), gateFor_closed h hr.1 h80 hcpl]
          rfl
        rw [Request.deliver, hfault]
        dsimp only
        rw [raise, Request.error, if_neg h80]
        exact deliver_open h hc (hopen (by decide)) rfl _
      · rw [Request.stub, if_neg h80]
        rfl
      · rw [Request.stub, if_neg h80]
        exact isr_mem (by decide)

/-- A stub pushes what the processor has left out. -/
theorem request_codes (r : Request) (hr : r.Allowed p) :
    r.error.toList ++ r.stub.numbers = (r.stub.codes r.error).reverse := by
  cases r with
  | exception v e =>
    have hcode : e.isSome ↔ v ∈ errorCodes := hr.2.1
    change e.toList ++ (if v ∈ errorCodes then [v] else [0, v]) = [v, e.getD 0].reverse
    cases e with
    | none =>
      rw [if_neg (fun hv => absurd (hcode.mpr hv) (by decide))]
      rfl
    | some c =>
      rw [if_pos (hcode.mp rfl)]
      rfl
  | irq n => rfl
  | int n =>
    by_cases h80 : n = 0x80
    · subst h80
      rfl
    · rw [Request.error, Request.stub, if_neg h80, if_neg h80]
      rfl

theorem savedWords_reverse (p : Processor) (s : Stub) (error : Option ℕ) (a : ℕ) :
    (savedWords p s error a).reverse = trapWords p ++ (s.codes error).reverse ++
      ([p.regs.eax, p.regs.ecx, p.regs.edx, p.regs.ebx, a+52, p.regs.ebp, p.regs.esi, p.regs.edi] ++
        [p.data.ds, p.data.es, p.data.fs, p.data.gs] ++ [a+4]) := by
  have htrap : (returnWords p).reverse = trapWords p := by
    unfold returnWords trapWords
    split <;> rfl
  rw [savedWords, List.reverse_append, List.reverse_append, htrap]
  rfl

theorem codes_length (s : Stub) (error : Option ℕ) (p : Processor) : (s.codes error ++ returnWords p).length ≤ 7 := by
  have hcodes : (s.codes error).length ≤ 2 := by
    cases s <;> exact Nat.le_of_ble_eq_true rfl
  have hreturn : (returnWords p).length ≤ 5 := by
    unfold returnWords
    split <;> exact Nat.le_of_ble_eq_true rfl
  rw [List.length_append]
  omega

theorem words_length (p : Processor) (s : Stub) (error : Option ℕ) (a : ℕ) :
    (savedWords p s error a).length = 13 + (s.codes error ++ returnWords p).length := by
  rw [savedWords, List.length_append]
  rfl

theorem exec_entry {q : Processor} {s : Stub} {ws : List ℕ} (hcpl : q.cpl = 0)
    (hseg : ∀ vs, vs.length ≤ ws.length + s.numbers.length + 12 → Segments im (q.push vs)) :
    exec s.entry (q.push ws) =
      .ok ((withData { q with eflags := clearFlags q.eflags (2^interruptBit) } 0x10).push (ws ++ s.numbers ++
        (savedOrder (q.push (ws ++ s.numbers)) ++
          [(q.push (ws ++ s.numbers ++ savedOrder (q.push (ws ++ s.numbers)))).regs.esp]))) := by
  have hcli : step (q.push ws) .cli = .ok ({ q with eflags := clearFlags q.eflags (2^interruptBit) }.push ws) := by
    rw [step, push_cpl, hcpl, if_pos (Nat.zero_le _)]
    rfl
  have hcplq : ({ q with eflags := clearFlags q.eflags (2^interruptBit) } : Processor).cpl = 0 := hcpl
  have hsegq (vs : List ℕ) (hvs : vs.length ≤ ws.length + s.numbers.length + 12) :
      Segments im ({ q with eflags := clearFlags q.eflags (2^interruptBit) }.push vs) :=
    ⟨(hseg vs hvs).gdtr, (hseg vs hvs).gdt⟩
  have horder (vs : List ℕ) : savedOrder (({ q with eflags := clearFlags q.eflags (2^interruptBit) } : Processor).push vs) =
      savedOrder (q.push vs) := rfl
  have hesp (vs : List ℕ) : (({ q with eflags := clearFlags q.eflags (2^interruptBit) } : Processor).push vs).regs.esp =
      (q.push vs).regs.esp := rfl
  rw [Stub.entry, exec_cons hcli, exec_numbers, push_push]
  obtain ⟨t, ht⟩ : ∃ t : Processor, { q with eflags := clearFlags q.eflags (2^interruptBit) } = t := ⟨_, rfl⟩
  rw [ht] at hcplq hsegq horder hesp ⊢
  have hlength : (ws ++ s.numbers ++ savedOrder (q.push (ws ++ s.numbers))).length ≤ ws.length + s.numbers.length + 12 := by
    rw [List.length_append, List.length_append]
    exact le_refl _
  have hsegt : Segments im ((t.push (ws ++ s.numbers)).push (savedOrder (t.push (ws ++ s.numbers)))) := by
    rw [push_push, horder]
    exact hsegq _ hlength
  rw [exec_saving (by rw [push_cpl]; exact hcplq) hsegt, withData_push, push_push, push_push, horder, hesp]

/-- Memory as a frame leaves it, on a stack with room. -/
theorem frame_off (hroom : 80 ≤ stackTop im p) (htop : stackTop im p < 4294967296) (vs : List ℕ) (hvs : vs.length ≤ 20) :
    SameOff (room im p) p.mem (pushWords p.mem (stackTop im p) vs).1 := by
  refine (pushWords_off p.mem _ vs (by omega) htop).mono ?_
  exact Set.Ico_subset_Ico_left (by omega)

theorem entry_length {r : Request} (hr : r.Allowed p) : (trapWords p ++ r.error.toList ++ r.stub.numbers).length =
    (r.stub.codes r.error).length + (returnWords p).length := by
  have hcodes : (r.stub.codes r.error).length = r.error.toList.length + r.stub.numbers.length := by
    rw [← List.length_reverse, ← request_codes r hr, List.length_append]
  have htrap : (trapWords p).length = (returnWords p).length := by
    unfold trapWords returnWords
    split <;> rfl
  rw [List.length_append, List.length_append]
  omega

/-- What the processor and the stub push between them is the frame. -/
theorem entry_words (hroom : 80 ≤ stackTop im p) (htop : stackTop im p < 4294967296) {r : Request} (hr : r.Allowed p)
    (g : Gate) : trapWords p ++ r.error.toList ++ r.stub.numbers ++
      (savedOrder ((opened im p g).push (trapWords p ++ r.error.toList ++ r.stub.numbers)) ++
        [((opened im p g).push (trapWords p ++ r.error.toList ++ r.stub.numbers ++
          savedOrder ((opened im p g).push (trapWords p ++ r.error.toList ++ r.stub.numbers)))).regs.esp]) =
      (frameOf im p r).words.reverse := by
  have hseven := codes_length r.stub r.error p
  have hlength := entry_length hr
  have haddress : (frameOf im p r).address = stackTop im p - 4*(13 + (r.stub.codes r.error ++ returnWords p).length) := rfl
  rw [List.length_append] at hseven haddress
  have hesp (vs : List ℕ) (hvs : vs.length ≤ 20) : ((opened im p g).push vs).regs.esp = stackTop im p - 4*vs.length :=
    pushWords_esp _ _ vs (by change 4*vs.length ≤ stackTop im p; omega) htop
  have hsaved (vs : List ℕ) : (savedOrder ((opened im p g).push vs)) =
      [p.regs.eax, p.regs.ecx, p.regs.edx, p.regs.ebx, ((opened im p g).push vs).regs.esp, p.regs.ebp, p.regs.esi, p.regs.edi] ++
        [p.data.ds, p.data.es, p.data.fs, p.data.gs] := rfl
  have hsavedLength (vs : List ℕ) : (savedOrder ((opened im p g).push vs)).length = 12 := rfl
  rw [hesp _ (by rw [List.length_append, hlength, hsavedLength]; omega), List.length_append, hlength, hsavedLength, hsaved,
    hesp _ (by rw [hlength]; omega), hlength, List.append_assoc (trapWords p), request_codes r hr, Frame.words,
    savedWords_reverse]
  have hfirst : stackTop im p - 4*((r.stub.codes r.error).length + (returnWords p).length) = (frameOf im p r).address + 52 := by
    omega
  have hlast : stackTop im p - 4*((r.stub.codes r.error).length + (returnWords p).length + 12) =
      (frameOf im p r).address + 4 := by
    omega
  rw [hfirst, hlast]
  rfl

theorem arrive_entered (h : Loaded im p) (hc : Context p) (hroom : 80 ≤ stackTop im p) (htop : stackTop im p < 4294967296)
    (htables : Disjoint im.tables (room im p)) (r : Request) (hr : r.Allowed p) :
    arrive im p r = .ok (r.stub, entered im p r) := by
  obtain ⟨g, hdeliver, hoffset, hmem, hmask⟩ := request_delivered h hc r hr
  have hseven := codes_length r.stub r.error p
  rw [List.length_append] at hseven
  have hlength := entry_length hr
  have hseg (vs : List ℕ) (hvs : vs.length ≤ (trapWords p ++ r.error.toList).length + r.stub.numbers.length + 12) :
      Segments im ((opened im p g).push vs) := by
    have htwenty : vs.length ≤ 20 := by
      rw [List.length_append] at hlength
      omega
    have hstored := h.stored.off (frame_off hroom htop vs htwenty) htables
    exact ⟨h.gdtr, fun i _ hi => (hstored.gdt i (by omega)).trans (if_neg (by omega))⟩
  have hstub : stubAt im ((opened im p g).push (trapWords p ++ r.error.toList)).eip = some r.stub := by
    change stubAt im g.offset = some r.stub
    rw [hoffset, stubAt_address hmem]
  have hfinal : ((withData { opened im p g with eflags := clearFlags (opened im p g).eflags (2^interruptBit) } 0x10).push
      (frameOf im p r).words.reverse) = entered im p r := by
    have hpushed : (pushWords p.mem (stackTop im p) (frameOf im p r).words.reverse).2 = (frameOf im p r).address := by
      have hcount : (frameOf im p r).words.reverse.length = 13 + (r.stub.codes r.error ++ returnWords p).length := by
        rw [List.length_reverse]
        exact words_length _ _ _ _
      have haddress : (frameOf im p r).address = stackTop im p - 4*(13 + (r.stub.codes r.error ++ returnWords p).length) := rfl
      rw [List.length_append] at hcount haddress
      rw [pushWords_esp _ _ _ (by omega) htop, hcount, haddress]
    unfold entered
    rw [← hpushed, ← hoffset, ← hmask]
    rfl
  rw [arrive, hdeliver, Except.bind, hstub]
  dsimp only
  rw [exec_entry (show (opened im p g).cpl = 0 from (show 0x08 % 4 = 0 from rfl)) hseg, entry_words hroom htop hr, hfinal]
  rfl

end Entry

/-! ## The way out -/

/-- What the handler goes back to: it may write `eax` and nothing else of its frame. -/
def Frame.resumed (f : Frame) (m : Mem) : Processor :=
  { f.context with regs := { f.context.regs with eax := load32 m (f.address+48) }, mem := m }

/-- A frame whose handler has not come back. -/
structure Kept (im : Image) (m : Mem) (f : Frame) : Prop where
  context : Context f.context
  gdtr : f.context.gdtr = ⟨im.gdtEntries, 47⟩
  idtr : f.context.idtr = ⟨im.idtEntries, 2047⟩
  tr : f.context.tr = ⟨0x28, im.tss, 103⟩
  bound : f.address + 4*f.words.length < 4294967296
  top : f.context.cpl = 0 → f.context.regs.esp = f.address + 4*f.words.length
  words : ∀ i v, f.words[i]? = some v → i ≠ 0 → i ≠ 12 → load32 m (f.address + 4*i) = wrap v

section Exit

variable {im : Image} {c : Processor}

theorem exec_popSegment (h : Segments im c) {v : ℕ} (hword : c.word 0 = v) (hu : Usable c.cpl v) (s : DataSegment)
    (is : List Instr) : exec (.popSegment s :: is) c = exec is { c.pop 4 with data := c.data.set v s } := by
  refine exec_cons ?_
  rw [step, hword, Nat.mod_eq_of_lt hu.1, setSegment_usable h hu]
  rfl

/-- The processor with the general registers taken back from above `a`. -/
def restored (c : Processor) (a n : ℕ) (d : Selectors) : Processor :=
  { c with
    regs := ⟨load32 c.mem (a+48), load32 c.mem (a+44), load32 c.mem (a+40), load32 c.mem (a+36), n, load32 c.mem (a+28),
      load32 c.mem (a+24), load32 c.mem (a+20)⟩
    data := d }

theorem exec_restoring (h : Segments im c) (hcpl : c.cpl = 0) {a : ℕ} (ha : c.regs.esp = a) (hbound : a+52 < 4294967296)
    {d : Selectors} (hgs : load32 c.mem (a+4) = d.gs) (hfs : load32 c.mem (a+8) = d.fs) (hes : load32 c.mem (a+12) = d.es)
    (hds : load32 c.mem (a+16) = d.ds) (hu : ∀ s, Usable 0 (d.get s)) (is : List Instr) :
    exec (restoring ++ is) c = exec is (restored c a (a+52) d) := by
  have hadd : step c (.addEsp 4) = .ok { c with regs := { c.regs with esp := a+4 } } := by
    rw [step, Processor.pop, ha, wrap_of_lt (by omega)]
  have hpop (n : ℕ) (x : Selectors) (s : DataSegment) (v : ℕ) (hn : n+4 < 4294967296) (hv : load32 c.mem n = v)
      (huv : Usable 0 v) (is : List Instr) : exec (.popSegment s :: is) { c with regs := { c.regs with esp := n }, data := x } =
        exec is { c with regs := { c.regs with esp := n+4 }, data := x.set v s } := by
    have hseg : Segments im { c with regs := { c.regs with esp := n }, data := x } := ⟨h.gdtr, h.gdt⟩
    rw [exec_popSegment hseg hv (show Usable c.cpl v by rw [hcpl]; exact huv), Processor.pop]
    dsimp only
    rw [wrap_of_lt hn]
  have hpopa (x : Selectors) : step { c with regs := { c.regs with esp := a+20 }, data := x } .popa =
      .ok (restored c a (a+52) x) := by
    rw [step, restored]
    dsimp only
    rw [wrap_of_lt (by omega)]
    rfl
  rw [restoring, List.cons_append, exec_cons hadd, List.cons_append,
    hpop (a+4) c.data .gs d.gs (by omega) hgs (hu .gs), List.cons_append,
    hpop (a+4+4) _ .fs d.fs (by omega) hfs (hu .fs), List.cons_append,
    hpop (a+4+4+4) _ .es d.es (by omega) hes (hu .es), List.cons_append,
    hpop (a+4+4+4+4) _ .ds d.ds (by omega) hds (hu .ds), List.cons_append, exec_cons (hpopa _), List.nil_append]
  rfl

theorem exec_exit (h : Segments im c) (hcpl : c.cpl = 0) {f : Frame} (hf : Kept im c.mem f) (hesp : c.regs.esp = f.address) :
    exec f.stub.exit c = exec [.iret]
      (restored c f.address (f.address + 4*(13 + (f.stub.codes f.error).length)) f.context.data) := by
  have hlength : f.words.length = 13 + (f.stub.codes f.error ++ returnWords f.context).length := words_length _ _ _ _
  have hbound := hf.bound
  rw [hlength, List.length_append] at hbound
  have hu (s : DataSegment) : Usable 0 (f.context.data.get s) := (hf.context.data s).kernel
  have hsegment (i : ℕ) (s : DataSegment) (hi : f.words[i]? = some (f.context.data.get s)) (h0 : i ≠ 0) (h12 : i ≠ 12) :
      load32 c.mem (f.address + 4*i) = f.context.data.get s := by
    have hlt := (hu s).1
    rw [hf.words i _ hi h0 h12, wrap_of_lt (by omega)]
  have hrestoring := exec_restoring h hcpl hesp (by omega) (hsegment 1 .gs rfl (by decide) (by decide))
    (hsegment 2 .fs rfl (by decide) (by decide)) (hsegment 3 .es rfl (by decide) (by decide))
    (hsegment 4 .ds rfl (by decide) (by decide)) hu
  have height (hcodes : (f.stub.codes f.error).length = 2) :
      exec [.addEsp 8, .iret] (restored c f.address (f.address+52) f.context.data) =
      exec [.iret] (restored c f.address (f.address + 4*(13 + 2)) f.context.data) := by
    refine exec_cons ?_
    have hwrap : wrap (f.address + 52 + 8) = f.address + 4*(13+2) := wrap_of_lt (by omega)
    rw [step, Processor.pop, restored, restored]
    dsimp only
    rw [hwrap]
  cases hstub : f.stub with
  | isr v =>
    have hcodes : (f.stub.codes f.error).length = 2 := by rw [hstub]; rfl
    rw [hstub] at hcodes height
    change exec (restoring ++ [.addEsp 8, .iret]) c = _
    rw [hrestoring, hcodes]
    exact height hcodes
  | irq n =>
    have hcodes : (f.stub.codes f.error).length = 2 := by rw [hstub]; rfl
    rw [hstub] at hcodes height
    change exec (restoring ++ [.addEsp 8, .iret]) c = _
    rw [hrestoring, hcodes]
    exact height hcodes
  | syscall => exact hrestoring _

theorem restored_regs {f : Frame} (hf : Kept im c.mem f) (n : ℕ) (d : Selectors) : (restored c f.address n d).regs =
    { f.context.regs with eax := load32 c.mem (f.address+48), esp := n } := by
  have hreg (i : ℕ) (r : X86Stack.Reg) (hi : f.words[i]? = some (f.context.regs.get r)) (h0 : i ≠ 0) (h12 : i ≠ 12) :
      load32 c.mem (f.address + 4*i) = f.context.regs.get r := by
    rw [hf.words i _ hi h0 h12, wrap_of_lt (hf.context.bounded.regs r)]
  have hecx : load32 c.mem (f.address+44) = f.context.regs.ecx := hreg 11 .ecx rfl (by decide) (by decide)
  have hedx : load32 c.mem (f.address+40) = f.context.regs.edx := hreg 10 .edx rfl (by decide) (by decide)
  have hebx : load32 c.mem (f.address+36) = f.context.regs.ebx := hreg 9 .ebx rfl (by decide) (by decide)
  have hebp : load32 c.mem (f.address+28) = f.context.regs.ebp := hreg 7 .ebp rfl (by decide) (by decide)
  have hesi : load32 c.mem (f.address+24) = f.context.regs.esi := hreg 6 .esi rfl (by decide) (by decide)
  have hedi : load32 c.mem (f.address+20) = f.context.regs.edi := hreg 5 .edi rfl (by decide) (by decide)
  rw [restored, hecx, hedx, hebx, hebp, hesi, hedi]

/-- The words that `iret` takes back. -/
theorem kept_return {f : Frame} {m : Mem} (hf : Kept im m f) {i v : ℕ} (hi : (returnWords f.context)[i]? = some v)
    (hv : v < 4294967296) : load32 m (f.address + 4*(13 + (f.stub.codes f.error).length) + 4*i) = v := by
  have hword : f.words[13 + (f.stub.codes f.error).length + i]? = some v := by
    rw [Frame.words, savedWords, List.getElem?_append_right (by simp; omega), List.getElem?_append_right (by simp; omega), ← hi]
    congr 1
    simp
    omega
  have hload := hf.words _ v hword (by omega) (by omega)
  rw [wrap_of_lt hv] at hload
  rw [← hload]
  congr 1
  omega

theorem resumed_eq {f : Frame} {q : Processor} (hregs : q.regs = { f.context.regs with eax := load32 q.mem (f.address+48) })
    (hsegments : q.eflags = f.context.eflags ∧ q.eip = f.context.eip ∧ q.cs = f.context.cs ∧ q.ss = f.context.ss ∧
      q.data = f.context.data)
    (htables : q.gdtr = f.context.gdtr ∧ q.idtr = f.context.idtr ∧ q.tr = f.context.tr) : q = f.resumed q.mem := by
  obtain ⟨regs, eflags, eip, cs, ss, data, gdtr, idtr, tr, mem⟩ := q
  dsimp only at hregs hsegments htables
  obtain ⟨rfl, rfl, rfl, rfl, rfl⟩ := hsegments
  obtain ⟨rfl, rfl, rfl⟩ := htables
  rw [hregs]
  rfl

theorem selectors_map (x : Selectors) (g : ℕ → ℕ) (h : ∀ s, g (x.get s) = x.get s) : x.map g = x := by
  rw [Selectors.map, show g x.ds = x.ds from h .ds, show g x.es = x.es from h .es, show g x.fs = x.fs from h .fs,
    show g x.gs = x.gs from h .gs]

theorem iret_valid (hcpl : c.cpl = 0) (hnested : c.eflags.testBit nestedBit = false) {flags : ℕ}
    (hvirtual : flags.testBit virtualBit = false) :
    ¬(c.cpl ≠ 0 ∨ c.eflags.testBit nestedBit = true ∨ flags.testBit virtualBit = true) := by
  rw [hcpl, hnested, hvirtual]
  decide

section Iret

variable (h : Segments im c) (hcpl : c.cpl = 0) (hnested : c.eflags.testBit nestedBit = false) {eip flags : ℕ}
  (h0 : c.word 0 = eip) (h2 : c.word 2 = flags) (hvirtual : flags.testBit virtualBit = false)
include h hcpl hnested h0 h2 hvirtual

theorem iret_inner (h1 : c.word 1 = 0x08) : iret c = .ok ({ c with eip := eip, cs := 0x08, eflags := flags }.pop 12) := by
  rw [iret, h0, h1, h2, if_neg (iret_valid hcpl hnested hvirtual), show 0x08 % 65536 = 0x08 from rfl,
    checkReturn_kernel h hcpl (Or.inl rfl), Except.bind, if_pos rfl]

theorem iret_outer {esp : ℕ} (h1 : c.word 1 = 0x1B) (h3 : c.word 3 = esp) (h4 : c.word 4 = 0x23)
    (hdata : ∀ s, Usable 3 (c.data.get s)) : iret c = .ok { c with
      eip := eip
      cs := 0x1B
      eflags := flags
      ss := 0x23
      regs := { c.regs with esp := esp } } := by
  have hkept : c.data.map (outerSelector c 3) = c.data := selectors_map _ _ (fun s => outerSelector_usable h (hdata s))
  rw [iret, h0, h1, h2, h3, h4, if_neg (iret_valid hcpl hnested hvirtual), show 0x1B % 65536 = 0x1B from rfl,
    checkReturn_kernel h hcpl (Or.inr rfl), Except.bind, if_neg (by decide), show 0x1B % 4 = 3 from rfl,
    show 0x23 % 65536 = 0x23 from rfl, checkStack_user h, Except.bind, hkept]

end Iret

/-- Back to what the frame has interrupted. -/
theorem exit_resumes (h : Loaded im c) (hc : Context c) (hcpl : c.cpl = 0) {f : Frame} (hf : Kept im c.mem f)
    (hesp : c.regs.esp = f.address) : exec f.stub.exit c = .ok (f.resumed c.mem) := by
  have hlength : f.words.length = 13 + (f.stub.codes f.error ++ returnWords f.context).length := words_length _ _ _ _
  have hcss : c.ss = 0x10 := by
    rcases hc.levels with ⟨-, -, hss⟩ | ⟨hthree, -, -⟩
    · exact hss
    · rw [hcpl] at hthree
      cases hthree
  obtain ⟨b, hb⟩ : ∃ b, f.address + 4*(13 + (f.stub.codes f.error).length) = b := ⟨_, rfl⟩
  have hregs := restored_regs hf b f.context.data
  have hreturn (i v : ℕ) (hi : (returnWords f.context)[i]? = some v) (hv : v < 4294967296) :
      (restored c f.address b f.context.data).word i = v := by
    have hword : load32 c.mem (b + 4*i) = v := by
      rw [← hb]
      exact kept_return hf hi hv
    exact hword
  have heip := hreturn 0 f.context.eip rfl hf.context.bounded.eip
  have heflags := hreturn 2 f.context.eflags rfl hf.context.bounded.eflags
  have hseg : Segments im (restored c f.address b f.context.data) := ⟨h.segments.gdtr, h.segments.gdt⟩
  rw [exec_exit h.segments hcpl hf hesp, hb]
  rcases hf.context.levels with ⟨hlevel, hcs, hss⟩ | ⟨hlevel, hcs, hss⟩
  · have hthree : (returnWords f.context).length = 3 := by
      rw [returnWords, if_pos hlevel]
      rfl
    have htop := hf.top hlevel
    have hbound := hf.bound
    rw [hlength, List.length_append, hthree] at htop hbound
    have hwrap : wrap (b+12) = f.context.regs.esp := by
      rw [wrap_of_lt (by omega)]
      omega
    have hiret := iret_inner hseg hcpl hc.nested heip heflags hf.context.virtual
      (hreturn 1 0x08 (by rw [← hcs]; rfl) (by decide))
    refine exec_cons (hiret.trans (congrArg Except.ok (resumed_eq ?_ ⟨rfl, rfl, hcs.symm, hcss.trans hss.symm, rfl⟩
      ⟨h.gdtr.trans hf.gdtr.symm, h.idtr.trans hf.idtr.symm, h.tr.trans hf.tr.symm⟩)))
    change { (restored c f.address b f.context.data).regs with esp := wrap (b+12) } = _
    rw [hregs, hwrap]
    rfl
  · have hlist : returnWords f.context =
        [f.context.eip, f.context.cs, f.context.eflags, f.context.regs.esp, f.context.ss] := by
      rw [returnWords, if_neg (by rw [hlevel]; decide)]
      rfl
    have husable (s : DataSegment) : Usable 3 (f.context.data.get s) := by
      rw [← hlevel]
      exact hf.context.data s
    have hiret := iret_outer hseg hcpl hc.nested heip heflags hf.context.virtual
      (hreturn 1 0x1B (by rw [← hcs]; rfl) (by decide))
      (hreturn 3 f.context.regs.esp (by rw [hlist]; rfl) (hf.context.bounded.regs .esp))
      (hreturn 4 0x23 (by rw [hlist, ← hss]; rfl) (by decide)) husable
    refine exec_cons (hiret.trans (congrArg Except.ok (resumed_eq ?_ ⟨rfl, rfl, hcs.symm, hss.symm, rfl⟩
      ⟨h.gdtr.trans hf.gdtr.symm, h.idtr.trans hf.idtr.symm, h.tr.trans hf.tr.symm⟩)))
    change { (restored c f.address b f.context.data).regs with esp := f.context.regs.esp } = _
    rw [hregs]
    rfl

end Exit

/-! ## Into user mode -/

section Userspace

variable {im : Image} {c : Processor}

theorem testBit_clearFlags (e mask i : ℕ) : (clearFlags e mask).testBit i = (e.testBit i && !mask.testBit i) := by
  rw [clearFlags, Nat.testBit_xor, Nat.testBit_and]
  cases e.testBit i <;> cases mask.testBit i <;> rfl

theorem clearFlags_lt {e : ℕ} (he : e < 4294967296) (mask : ℕ) : clearFlags e mask < 4294967296 := by
  have hand : e &&& mask < 2^32 := lt_of_le_of_lt Nat.and_le_left he
  exact Nat.xor_lt_two_pow (show e < 2^32 from he) hand

/-- The flags that a program starts with. -/
def userFlags (e : ℕ) : ℕ := clearFlags e (2^interruptBit) ||| 0x200

theorem userFlags_lt {e : ℕ} (he : e < 4294967296) : userFlags e < 4294967296 :=
  Nat.or_lt_two_pow (show clearFlags e (2^interruptBit) < 2^32 from clearFlags_lt he _) (by decide)

theorem testBit_userFlags {e i : ℕ} (he : e.testBit i = false) (hi : Nat.testBit 0x200 i = false) :
    (userFlags e).testBit i = false := by
  rw [userFlags, Nat.testBit_or, testBit_clearFlags, he, hi]
  rfl

theorem user_usable : Usable 3 0x23 := ⟨by decide, Or.inr (Or.inl ⟨by decide, Or.inr (by decide)⟩)⟩

/-- The processor of `enter_userspace` with the flags of the program in `eax`. -/
def flagged (c : Processor) (m : Mem) (n : ℕ) : Processor :=
  { c with
    eflags := clearFlags c.eflags (2^interruptBit)
    data := ⟨0x23, 0x23, 0x23, 0x23⟩
    regs := { c.regs with eax := userFlags c.eflags, esp := n }
    mem := m }

theorem flagged_mem (c : Processor) (m : Mem) (n : ℕ) (vs : List ℕ) :
    ((flagged c m n).push vs).mem = (pushWords m n vs).1 := rfl

theorem flagged_esp (c : Processor) (m : Mem) (n : ℕ) (vs : List ℕ) :
    ((flagged c m n).push vs).regs.esp = (pushWords m n vs).2 := rfl

theorem flagged_get (c : Processor) (m : Mem) (n : ℕ) (vs : List ℕ) {r : X86Stack.Reg} (hr : r ≠ .esp) :
    ((flagged c m n).push vs).regs.get r = if r = .eax then userFlags c.eflags else c.regs.get r := by
  cases r
  case esp => exact absurd rfl hr
  all_goals rfl

/-- Up to the flags, then the rest of the frame. -/
theorem exec_enterUserspace (h : Segments im c) (hcpl : c.cpl = 0) (hroom : 80 ≤ c.regs.esp) (htop : c.regs.esp < 4294967296)
    (hflags : c.eflags < 4294967296) (eip esp : ℕ) : exec (enterUserspace eip esp) c = exec [.iret]
      ((flagged c (pushWords c.mem c.regs.esp [0x23, esp, clearFlags c.eflags (2^interruptBit)]).1 (c.regs.esp-8)).push
        [userFlags c.eflags, 0x1B, eip]) := by
  obtain ⟨b, hb⟩ : ∃ b, c.regs.esp = b := ⟨_, rfl⟩
  obtain ⟨f, hf⟩ : ∃ f, clearFlags c.eflags (2^interruptBit) = f := ⟨_, rfl⟩
  have hflt : f < 4294967296 := by
    rw [← hf]
    exact clearFlags_lt hflags _
  rw [hb] at hroom htop
  rw [hb, hf]
  have hcli : step c .cli = .ok { c with eflags := f } := by
    rw [step, hcpl, if_pos (Nat.zero_le _), hf]
  have hseg : Segments im { c with eflags := f } := ⟨h.gdtr, h.gdt⟩
  have husable : Usable ({ c with eflags := f } : Processor).cpl 0x23 := by
    rw [show ({ c with eflags := f } : Processor).cpl = 0 from hcpl]
    exact user_usable.kernel
  have hthree (is : List Instr) : exec (.push 0x23 :: .push esp :: .pushf :: is) (withData { c with eflags := f } 0x23) =
      exec is ((withData { c with eflags := f } 0x23).push [0x23, esp, f]) := by
    have heflags : (withData { c with eflags := f } 0x23).eflags = f := rfl
    rw [exec_cons (step_push _ _), exec_cons (step_push _ _), push_push, exec_pushf, push_eflags, heflags, push_push]
    simp only [List.cons_append, List.nil_append]
  have hpushed : (pushWords c.mem b [0x23, esp, f]).2 = b-12 := pushWords_esp _ _ _ (by simp; omega) htop
  have hlast : load32 (pushWords c.mem b [0x23, esp, f]).1 (b-12+4*0) = f := by
    have hword := pushWords_word c.mem b [0x23, esp, f] 0 (by simp) (by simp; omega) htop
    exact hword.trans (wrap_of_lt hflt)
  obtain ⟨m, hm⟩ : ∃ m, (pushWords c.mem b [0x23, esp, f]).1 = m := ⟨_, rfl⟩
  rw [hm] at hlast ⊢
  have hpop : step ((withData { c with eflags := f } 0x23).push [0x23, esp, f]) (.popReg .eax) =
      .ok { withData { c with eflags := f } 0x23 with regs := { c.regs with eax := f, esp := b-8 }, mem := m } := by
    have hstart : (withData { c with eflags := f } 0x23).push [0x23, esp, f] =
        { withData { c with eflags := f } 0x23 with
          regs := { (withData { c with eflags := f } 0x23).regs with esp := b-12 }
          mem := m } := by
      rw [← hpushed, ← hm, ← hb]
      rfl
    rw [step, hstart, Processor.word, Processor.pop]
    dsimp only
    rw [hlast, show wrap (b-12+4) = b-8 by rw [wrap_of_lt (by omega)]; omega]
    rfl
  have hor : step { withData { c with eflags := f } 0x23 with regs := { c.regs with eax := f, esp := b-8 }, mem := m }
      (.or .eax 0x200) = .ok (flagged c m (b-8)) := by
    rw [step, flagged, userFlags, hf]
    rfl
  have hrest (is : List Instr) : exec (.pushReg .eax :: .push 0x1B :: .push eip :: is) (flagged c m (b-8)) =
      exec is ((flagged c m (b-8)).push [userFlags c.eflags, 0x1B, eip]) := by
    have heax : (flagged c m (b-8)).regs.get .eax = userFlags c.eflags := rfl
    rw [exec_pushReg, heax, exec_cons (step_push _ _), exec_cons (step_push _ _), push_push, push_push]
    simp only [List.cons_append, List.nil_append]
  rw [enterUserspace, exec_cons hcli, exec_loadData hseg husable, hthree, exec_cons hpop, exec_cons hor, hrest]

section Pushed

variable {m : Mem} {b : ℕ} (u v w x y z : ℕ)

/-- Three words, one of them taken back, and three more. -/
theorem pushed_below (hroom : 80 ≤ b) (htop : b < 4294967296) :
    (pushWords (pushWords m b [u, v, w]).1 (b-8) [x, y, z]).2 = b-20 ∧
      SameOff (Set.Ico (b-80) b) m (pushWords (pushWords m b [u, v, w]).1 (b-8) [x, y, z]).1 := by
  have hfirst := pushWords_off m b [u, v, w] (by simp; omega) htop
  have hlast := pushWords_off (pushWords m b [u, v, w]).1 (b-8) [x, y, z] (by simp; omega) (by omega)
  simp only [List.length_cons, List.length_nil] at hfirst hlast
  constructor
  · rw [pushWords_esp _ _ _ (by simp; omega) (by omega)]
    simp
    omega
  · refine (hfirst.mono (Set.Ico_subset_Ico_left ?_)).trans (hlast.mono (Set.Ico_subset_Ico ?_ ?_)) <;> omega

theorem pushed_low (hroom : 80 ≤ b) (htop : b < 4294967296) {k : ℕ} (hk : k < [x, y, z].length) :
    load32 (pushWords (pushWords m b [u, v, w]).1 (b-8) [x, y, z]).1 (b-20 + 4*k) =
      wrap ([x, y, z].get ⟨2-k, by simp; omega⟩) := by
  rw [show b-20 = b-8 - 4*3 by omega]
  exact pushWords_word _ (b-8) [x, y, z] k hk (by simp; omega) (by omega)

theorem pushed_high (hroom : 80 ≤ b) (htop : b < 4294967296) {k : ℕ} (h1 : 1 ≤ k) (hk : k < [u, v, w].length) :
    load32 (pushWords (pushWords m b [u, v, w]).1 (b-8) [x, y, z]).1 (b-20 + 4*(k+2)) =
      wrap ([u, v, w].get ⟨2-k, by simp; omega⟩) := by
  have hoff := pushWords_off (pushWords m b [u, v, w]).1 (b-8) [x, y, z] (by simp; omega) (by omega)
  simp only [List.length_cons, List.length_nil] at hoff hk
  have hword := pushWords_word m b [u, v, w] k (by simp; omega) (by simp; omega) htop
  rw [show b-20+4*(k+2) = b-4*3+4*k by omega, load32_off hoff]
  · exact hword
  · rw [span_eq (by omega), Set.Ico_disjoint_Ico]
    omega

end Pushed

/-- The frame that `enter_userspace` builds for its `iret`. -/
theorem exec_userFrame (h : Loaded im c) (hc : Context c) (hcpl : c.cpl = 0) (hroom : 80 ≤ c.regs.esp) {eip esp : ℕ}
    (heip : eip < 4294967296) (hesp : esp < 4294967296) : ∃ w, exec (enterUserspace eip esp) c = exec [.iret] w ∧
      w.cs = 0x08 ∧ w.eflags = clearFlags c.eflags (2^interruptBit) ∧ w.data = ⟨0x23, 0x23, 0x23, 0x23⟩ ∧
      w.gdtr = c.gdtr ∧ w.idtr = c.idtr ∧ w.tr = c.tr ∧ (∀ r, w.regs.get r < 4294967296) ∧
      SameOff (Set.Ico (c.regs.esp - 80) c.regs.esp) c.mem w.mem ∧
      w.word 0 = eip ∧ w.word 1 = 0x1B ∧ w.word 2 = userFlags c.eflags ∧ w.word 3 = esp ∧ w.word 4 = 0x23 := by
  have htop : c.regs.esp < 4294967296 := hc.bounded.regs .esp
  have hexec := exec_enterUserspace h.segments hcpl hroom htop hc.bounded.eflags eip esp
  obtain ⟨b, hb⟩ : ∃ b, c.regs.esp = b := ⟨_, rfl⟩
  obtain ⟨f, hf⟩ : ∃ f, clearFlags c.eflags (2^interruptBit) = f := ⟨_, rfl⟩
  have hultimate := userFlags_lt hc.bounded.eflags
  rw [hb] at hroom htop ⊢
  rw [hb, hf] at hexec
  obtain ⟨hend, hoff⟩ := @pushed_below c.mem b 0x23 esp f (userFlags c.eflags) 0x1B eip hroom htop
  have hword (k : ℕ) : ((flagged c (pushWords c.mem b [0x23, esp, f]).1 (b-8)).push [userFlags c.eflags, 0x1B, eip]).word k =
      load32 (pushWords (pushWords c.mem b [0x23, esp, f]).1 (b-8) [userFlags c.eflags, 0x1B, eip]).1 (b-20 + 4*k) := by
    rw [Processor.word, flagged_esp, flagged_mem, hend]
  refine ⟨_, hexec, ?_, rfl, rfl, rfl, rfl, rfl, ?_, ?_, ?_, ?_, ?_, ?_, ?_⟩
  · rcases hc.levels with ⟨-, hcs, -⟩ | ⟨hthree, -, -⟩
    · exact hcs
    · rw [hcpl] at hthree
      cases hthree
  · intro r
    by_cases hr : r = .esp
    · rw [hr, show ∀ x : X86Stack.Regs, x.get .esp = x.esp from fun _ => rfl, flagged_esp, hend]
      omega
    · rw [flagged_get c _ (b-8) _ hr]
      split
      · exact hultimate
      · exact hc.bounded.regs r
  · rw [flagged_mem]
    exact hoff
  · exact (hword 0).trans ((pushed_low _ _ _ _ _ _ hroom htop (by simp)).trans (wrap_of_lt heip))
  · exact (hword 1).trans (pushed_low _ _ _ _ _ _ hroom htop (by simp))
  · exact (hword 2).trans ((pushed_low _ _ _ _ _ _ hroom htop (by simp)).trans (wrap_of_lt hultimate))
  · exact (hword 3).trans ((pushed_high _ _ _ _ _ _ hroom htop (k := 1) (by decide) (by simp)).trans (wrap_of_lt hesp))
  · exact (hword 4).trans (pushed_high _ _ _ _ _ _ hroom htop (k := 2) (by decide) (by simp))

theorem enterUserspace_enters (h : Loaded im c) (hc : Context c) (hcpl : c.cpl = 0) (hroom : 80 ≤ stackTop im c)
    (htables : Disjoint im.tables (room im c)) {eip esp : ℕ} (heip : eip < 4294967296) (hesp : esp < 4294967296) :
    ∃ q, exec (enterUserspace eip esp) c = .ok q ∧ Context q ∧ q.cs = 0x1B ∧ q.eip = eip ∧ q.regs.esp = esp ∧
      q.eflags.testBit interruptBit = true ∧ q.gdtr = c.gdtr ∧ q.idtr = c.idtr ∧ q.tr = c.tr ∧
      SameOff (room im c) c.mem q.mem := by
  have htop : stackTop im c = c.regs.esp := if_pos hcpl
  rw [htop] at hroom
  obtain ⟨w, hw, hcs, hflags, hdata, hgdtr, hidtr, htr, hregs, hoff, h0, h1, h2, h3, h4⟩ :=
    exec_userFrame h hc hcpl hroom heip hesp
  have hsame : SameOff (room im c) c.mem w.mem := by
    rw [room, htop]
    exact hoff
  have hstored := h.stored.off hsame htables
  have hseg : Segments im w := ⟨hgdtr.trans h.gdtr, fun i _ hi => (hstored.gdt i (by omega)).trans (if_neg (by omega))⟩
  have hcplw : w.cpl = 0 := by rw [Processor.cpl, hcs]
  have hnested : (userFlags c.eflags).testBit nestedBit = false := testBit_userFlags hc.nested (by decide)
  have hvirtual : (userFlags c.eflags).testBit virtualBit = false := testBit_userFlags hc.virtual (by decide)
  have hnestedw : w.eflags.testBit nestedBit = false := by
    rw [hflags, testBit_clearFlags, hc.nested]
    rfl
  have hdataw (s : DataSegment) : Usable 3 (w.data.get s) := by
    rw [hdata]
    cases s <;> exact user_usable
  have hiret := iret_outer hseg hcplw hnestedw h0 h2 hvirtual h1 h3 h4 hdataw
  have hinterrupts : (userFlags c.eflags).testBit interruptBit = true := by
    rw [userFlags, Nat.testBit_or, show Nat.testBit 0x200 interruptBit = true by decide, Bool.or_true]
  refine ⟨_, hw.trans (exec_cons hiret),
    ⟨⟨?_, heip, userFlags_lt hc.bounded.eflags⟩, hnested, hvirtual, Or.inr ⟨rfl, rfl⟩, ?_⟩, rfl, rfl, rfl, hinterrupts,
    hgdtr, hidtr, htr, hsame⟩
  · intro r
    have hr := hregs r
    cases r
    case esp => exact hesp
    all_goals exact hr
  · intro s
    change Usable (0x1B % 4) (w.data.get s)
    exact hdataw s

end Userspace

end Dionnex.InterruptStubs
