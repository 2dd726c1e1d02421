import Dionnex.ByteMemory

/-!
# The stack instructions of a 32-bit x86 processor

Enough of the machine to run code that moves registers through a stack:
the pushes and pops of all general registers and of the flags, moves
between a register and a memory word, and the near return.
-/

set_option autoImplicit false

namespace X86Stack
open ByteMemory

inductive Reg where
  | eax | ecx | edx | ebx | esp | ebp | esi | edi
  deriving DecidableEq, Repr

structure Regs where
  eax : ℕ
  ecx : ℕ
  edx : ℕ
  ebx : ℕ
  esp : ℕ
  ebp : ℕ
  esi : ℕ
  edi : ℕ
  deriving DecidableEq, Repr

def Regs.get (r : Regs) : Reg → ℕ
  | .eax => r.eax
  | .ecx => r.ecx
  | .edx => r.edx
  | .ebx => r.ebx
  | .esp => r.esp
  | .ebp => r.ebp
  | .esi => r.esi
  | .edi => r.edi

def Regs.set (r : Regs) (x : Reg) (v : ℕ) : Regs :=
  match x with
  | .eax => { r with eax := v }
  | .ecx => { r with ecx := v }
  | .edx => { r with edx := v }
  | .ebx => { r with ebx := v }
  | .esp => { r with esp := v }
  | .ebp => { r with ebp := v }
  | .esi => { r with esi := v }
  | .edi => { r with edi := v }

structure Cpu where
  regs : Regs
  eflags : ℕ
  eip : ℕ
  mem : Mem

inductive Instr where
  | pusha
  | pushf
  | popf
  | popa
  | ret
  | load (dst base : Reg) (disp : ℕ)
  | store (base src : Reg)
  deriving DecidableEq, Repr

/-- Words pushed in the order of the list; the result is memory and stack pointer. -/
def pushWords (m : Mem) (sp : ℕ) : List ℕ → Mem × ℕ
  | [] => (m, sp)
  | v::vs => pushWords (store32 m (sub32 sp 4) v) (sub32 sp 4) vs

def pushAll (c : Cpu) (vs : List ℕ) : Cpu :=
  { c with
    regs := { c.regs with esp := (pushWords c.mem c.regs.esp vs).2 }
    mem := (pushWords c.mem c.regs.esp vs).1 }

/-- The `i`-th word above the stack pointer. -/
def word (c : Cpu) (i : ℕ) : ℕ := load32 c.mem (c.regs.esp + 4*i)

/-- The general registers in the order in which they are pushed. -/
def Regs.pushOrder (r : Regs) : List ℕ := [r.eax, r.ecx, r.edx, r.ebx, r.esp, r.ebp, r.esi, r.edi]

def step (c : Cpu) : Instr → Cpu
  | .pusha => pushAll c c.regs.pushOrder
  | .pushf => pushAll c [c.eflags]
  | .popf => { c with eflags := word c 0, regs := { c.regs with esp := wrap (c.regs.esp+4) } }
  | .popa => { c with
      regs := ⟨word c 7, word c 6, word c 5, word c 4, wrap (c.regs.esp+32), word c 2, word c 1,
        word c 0⟩ }
  | .ret => { c with eip := word c 0, regs := { c.regs with esp := wrap (c.regs.esp+4) } }
  | .load dst base disp => { c with regs := c.regs.set dst (load32 c.mem (c.regs.get base + disp)) }
  | .store base src => { c with mem := store32 c.mem (c.regs.get base) (c.regs.get src) }

def exec (is : List Instr) (c : Cpu) : Cpu := is.foldl step c

theorem exec_nil (c : Cpu) : exec [] c = c := rfl

theorem exec_pusha (is : List Instr) (c : Cpu) :
    exec (.pusha::is) c = exec is (pushAll c c.regs.pushOrder) := by
  rw [exec, List.foldl_cons, step, exec]

theorem exec_pushf (is : List Instr) (c : Cpu) :
    exec (.pushf::is) c = exec is (pushAll c [c.eflags]) := by
  rw [exec, List.foldl_cons, step, exec]

theorem exec_append (is js : List Instr) (c : Cpu) : exec (is++js) c = exec js (exec is c) :=
  List.foldl_append

theorem pushWords_append (m : Mem) (sp : ℕ) (vs ws : List ℕ) :
    pushWords m sp (vs++ws) = pushWords (pushWords m sp vs).1 (pushWords m sp vs).2 ws := by
  induction vs generalizing m sp with
  | nil => rfl
  | cons v vs ih => exact ih _ _

theorem pushAll_append (c : Cpu) (vs ws : List ℕ) :
    pushAll c (vs++ws) = pushAll (pushAll c vs) ws := by
  simp only [pushAll, pushWords_append]

theorem pushAll_eflags (c : Cpu) (vs : List ℕ) : (pushAll c vs).eflags = c.eflags := rfl

theorem pushWords_esp (m : Mem) (sp : ℕ) (vs : List ℕ) (h : 4*vs.length ≤ sp)
    (hsp : sp < 4294967296) : (pushWords m sp vs).2 = sp - 4*vs.length := by
  induction vs generalizing m sp with
  | nil => rfl
  | cons v vs ih =>
    simp only [List.length_cons] at h ⊢
    have hs : sub32 sp 4 = sp-4 := sub32_of_le (by omega) hsp
    rw [pushWords, hs, ih _ (sp-4) (by omega) (by omega)]
    omega

/-- Pushing writes only below the old stack pointer. -/
theorem pushWords_off (m : Mem) (sp : ℕ) (vs : List ℕ) (h : 4*vs.length ≤ sp)
    (hsp : sp < 4294967296) :
    SameOff (Set.Ico (sp - 4*vs.length) sp) m (pushWords m sp vs).1 := by
  induction vs generalizing m sp with
  | nil => exact SameOff.refl _ m
  | cons v vs ih =>
    simp only [List.length_cons] at h ⊢
    have hs : sub32 sp 4 = sp-4 := sub32_of_le (by omega) hsp
    rw [pushWords, hs]
    have hstore := store32_off m (sp-4) v
    rw [span_eq (by omega)] at hstore
    refine (hstore.mono ?_).trans ((ih _ (sp-4) (by omega) (by omega)).mono ?_)
    · exact Set.Ico_subset_Ico (by omega) (by omega)
    · exact Set.Ico_subset_Ico (by omega) (by omega)

/-- The word pushed with `k` words after it lies `4*k` above the final stack pointer. -/
theorem pushWords_word (m : Mem) (sp : ℕ) (vs : List ℕ) (k : ℕ) (hk : k < vs.length)
    (h : 4*vs.length ≤ sp) (hsp : sp < 4294967296) :
    load32 (pushWords m sp vs).1 (sp - 4*vs.length + 4*k) =
      wrap (vs.get ⟨vs.length-1-k, by omega⟩) := by
  induction vs generalizing m sp with
  | nil => simp at hk
  | cons v vs ih =>
    simp only [List.length_cons] at h hk ⊢
    have hs : sub32 sp 4 = sp-4 := sub32_of_le (by omega) hsp
    rw [pushWords, hs]
    by_cases hlast : k = vs.length
    · subst hlast
      have hoff := pushWords_off (store32 m (sp-4) v) (sp-4) vs (by omega) (by omega)
      rw [show sp - 4*(vs.length+1) + 4*vs.length = sp-4 by omega, load32_off hoff, load32_store32]
      · simp
      · rw [span_eq (by omega)]
        exact (Set.Ico_disjoint_Ico_same).symm
    · have hrec := ih (store32 m (sp-4) v) (sp-4) (by omega) (by omega) (by omega)
      have hget : vs.get ⟨vs.length-1-k, by omega⟩ = (v::vs).get ⟨vs.length+1-1-k, by simp⟩ := by
        simp only [List.get_eq_getElem]
        rw [List.getElem_cons, dif_neg (by omega)]
        simp only [show vs.length+1-1-k-1 = vs.length-1-k by omega]
      rw [show sp - 4*(vs.length+1) = sp - 4 - 4*vs.length by omega, hrec, hget]

/-- The pop sequence reads flags, registers and return address from ten
consecutive words and leaves the stack pointer above them. -/
theorem exec_pops (c : Cpu) :
    exec [.popf, .popa, .ret] c =
      ⟨⟨load32 c.mem (wrap (c.regs.esp+4) + 28), load32 c.mem (wrap (c.regs.esp+4) + 24),
          load32 c.mem (wrap (c.regs.esp+4) + 20), load32 c.mem (wrap (c.regs.esp+4) + 16),
          wrap (wrap (wrap (c.regs.esp+4) + 32) + 4), load32 c.mem (wrap (c.regs.esp+4) + 8),
          load32 c.mem (wrap (c.regs.esp+4) + 4), load32 c.mem (wrap (c.regs.esp+4))⟩,
        load32 c.mem c.regs.esp, load32 c.mem (wrap (wrap (c.regs.esp+4) + 32)), c.mem⟩ := rfl

end X86Stack
