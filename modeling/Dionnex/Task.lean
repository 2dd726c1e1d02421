import Dionnex.PmmBitmap
import Dionnex.X86Stack

/-!
# Task creation

A task is a record at the start of a page. `task_create` takes that page and
a page for the stack, asks for a second stack page without looking at the
answer, and builds by hand at the stack top the frame that a context switch
is meant to decode. The record is reached through its field offsets.
-/

set_option autoImplicit false

namespace Dionnex.Task
open ByteMemory X86Stack Dionnex.PmmBitmap

def nameOffset : ℕ := 4
def stateOffset : ℕ := 36
def espOffset : ℕ := 40
def stackBaseOffset : ℕ := 44
def vruntimeOffset : ℕ := 48
def priorityOffset : ℕ := 52
def nextOffset : ℕ := 56

def taskRunning : ℕ := 0
def taskReady : ℕ := 1
def taskStackSize : ℕ := 8192

/-- The globals of the scheduler and the memory they point into. -/
structure Kernel where
  mem : Mem
  pmm : Pmm
  currentTask : ℕ
  taskListHead : ℕ
  nextPid : ℕ

/-- The addresses fixed when the kernel is linked. -/
structure Image where
  kernelTask : ℕ
  idleName : ℕ
  defaultName : ℕ

/-- The loop of `strncpy_manual` from index `i` with room for `k` more characters. -/
def copyName (m : Mem) (dst src : ℕ) : ℕ → ℕ → Mem
  | 0, i => store8 m (dst+i) 0
  | k+1, i =>
    if load8 m (src+i) = 0 then store8 m (dst+i) 0
    else copyName (store8 m (dst+i) (load8 m (src+i))) dst src k (i+1)

def strncpyManual (m : Mem) (dst src maxLen : ℕ) : Mem :=
  if src = 0 then store8 m dst 0 else copyName m dst src (maxLen-1) 0

/-- `pid`, name, state, `vruntime`, `priority` and `next`, in this order. -/
def writeRecord (m : Mem) (task pid name state priority : ℕ) : Mem :=
  let m := store32 m task pid
  let m := strncpyManual m (task+nameOffset) name 32
  let m := store32 m (task+stateOffset) state
  let m := store32 m (task+vruntimeOffset) 0
  let m := store32 m (task+priorityOffset) priority
  store32 m (task+nextOffset) 0

def taskInit (im : Image) (k : Kernel) : Kernel :=
  let m := store32 k.mem im.kernelTask 0
  let m := strncpyManual m (im.kernelTask+nameOffset) im.idleName 32
  let m := store32 m (im.kernelTask+stateOffset) taskRunning
  let m := store32 m (im.kernelTask+espOffset) 0
  let m := store32 m (im.kernelTask+stackBaseOffset) 0
  let m := store32 m (im.kernelTask+vruntimeOffset) 0
  let m := store32 m (im.kernelTask+priorityOffset) 0
  let m := store32 m (im.kernelTask+nextOffset) 0
  { k with mem := m, currentTask := im.kernelTask, taskListHead := im.kernelTask, nextPid := 1 }

/-- The words of the first frame in the order in which they are written. -/
def frameWords (entry : ℕ) : List ℕ := [entry, 0x202, 0, 0, 0, 0, 0, 0, 0, 0]

/-- Follows `next` to the last record; `none` when the chain does not end. -/
def lastTask (m : Mem) : ℕ → ℕ → Option ℕ
  | 0, _ => none
  | fuel+1, curr =>
    if load32 m (curr+nextOffset) = 0 then some curr
    else lastTask m fuel (load32 m (curr+nextOffset))

/-- More steps than there are addresses. -/
def chainBound : ℕ := 4294967297

/-- The new record's address, 0 when a page is missing; `none` when the list walk hangs. -/
def taskCreate (im : Image) (k : Kernel) (name entry priority : ℕ) : Option (ℕ × Kernel) :=
  let page := pmmAllocPage k.pmm
  let task := page.1
  if task = 0 then some (0, { k with pmm := page.2 })
  else
    let m := writeRecord k.mem task k.nextPid (if name = 0 then im.defaultName else name) taskReady
      priority
    let first := pmmAllocPage page.2
    let m := store32 m (task+stackBaseOffset) first.1
    let pid := wrap (k.nextPid+1)
    if first.1 = 0 then
      some (0, { k with mem := m, pmm := pmmFreePage first.2 task, nextPid := pid })
    else
      let second := pmmAllocPage first.2
      let frame := pushWords m (wrap (first.1+taskStackSize)) (frameWords entry)
      let m := store32 frame.1 (task+espOffset) frame.2
      (lastTask m chainBound k.taskListHead).map (fun last =>
        (task, { k with mem := store32 m (last+nextOffset) task, pmm := second.2, nextPid := pid }))

/-- The page that `task_create` takes for the stack. -/
def stackBase (k : Kernel) : ℕ := (pmmAllocPage (pmmAllocPage k.pmm).2).1

theorem taskCreate_stack (im : Image) (k : Kernel) (name entry priority task : ℕ) (k' : Kernel)
    (h : taskCreate im k name entry priority = some (task, k')) (ht : task ≠ 0) :
    stackBase k ≠ 0 := by
  intro h0
  change (pmmAllocPage (pmmAllocPage k.pmm).2).1 = 0 at h0
  unfold taskCreate at h
  by_cases hpage : (pmmAllocPage k.pmm).1 = 0
  · simp only [hpage, if_true, Option.some.injEq, Prod.mk.injEq] at h
    exact ht h.1.symm
  · simp only [hpage, if_false, h0, if_true, Option.some.injEq, Prod.mk.injEq] at h
    exact ht h.1.symm

theorem frame_pushed (m : Mem) (top entry : ℕ) (htop : 40 ≤ top) (hlt : top < 4294967296)
    (i : ℕ) (hi : i < 10) :
    load32 (pushWords m top (frameWords entry)).1 (top-40+4*i) =
      wrap ((frameWords entry).get ⟨9-i, by simp only [frameWords, List.length_cons, List.length_nil]; omega⟩) :=
  pushWords_word m top (frameWords entry) i hi htop hlt

/-- A processor whose stack pointer is at a fresh frame, with nothing written
over the frame since, and which runs the pops of the context switch: it
reaches the entry point, but the flags it loads are the saved `EDI` and the
intended flags end up in `EAX`. -/
theorem fresh_frame_decoded (m : Mem) (top entry : ℕ) (htop : 40 ≤ top) (hlt : top < 4294967296)
    (R : Set ℕ) (c : Cpu) (hoff : SameOff R (pushWords m top (frameWords entry)).1 c.mem)
    (hframe : Disjoint (Set.Ico (top-40) top) R) (hesp : c.regs.esp = top-40) :
    (exec [.popf, .popa, .ret] c).eip = wrap entry ∧
    (exec [.popf, .popa, .ret] c).eflags = 0 ∧
    (exec [.popf, .popa, .ret] c).regs.eax = 0x202 ∧
    (exec [.popf, .popa, .ret] c).regs.esp = wrap top := by
  have hword : ∀ i (hi : i < 10), load32 c.mem (top-40+4*i) =
      wrap ((frameWords entry).get ⟨9-i, by simp only [frameWords, List.length_cons, List.length_nil]; omega⟩) := by
    intro i hi
    rw [load32_off hoff, frame_pushed m top entry htop hlt i hi]
    refine Disjoint.mono_left ?_ hframe
    rw [span_eq (by omega)]
    exact Set.Ico_subset_Ico (by omega) (by omega)
  have h4 : wrap (c.regs.esp+4) = top-40+4 := by rw [hesp]; exact wrap_of_lt (by omega)
  have h36 : wrap (wrap (c.regs.esp+4) + 32) = top-40+4*9 := by rw [h4]; exact wrap_of_lt (by omega)
  rw [exec_pops]
  refine ⟨?_, ?_, ?_, ?_⟩
  · change load32 c.mem (wrap (wrap (c.regs.esp+4) + 32)) = wrap entry
    rw [h36]
    exact hword 9 (by decide)
  · change load32 c.mem c.regs.esp = 0
    rw [hesp]
    exact hword 0 (by decide)
  · change load32 c.mem (wrap (c.regs.esp+4) + 28) = 0x202
    rw [h4]
    exact hword 8 (by decide)
  · change wrap (wrap (wrap (c.regs.esp+4) + 32) + 4) = wrap top
    rw [h36, show top-40+4*9+4 = top by omega]

end Dionnex.Task
