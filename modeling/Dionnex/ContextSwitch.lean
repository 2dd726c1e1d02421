import Dionnex.LabelledRuns
import Dionnex.Task

/-!
# The context switch

`context_switch` pushes nine words and then reads its arguments at fixed
offsets, one word short of where the call left them. It therefore takes its
own return address for the first argument and the first argument for the
second. The runs below create tasks and switch between them; beside the
kernel's memory they record what each task that is not running must find
when it continues.
-/

set_option autoImplicit false

namespace Dionnex.ContextSwitch
open ByteMemory X86Stack LabelledRuns Dionnex.PmmBitmap Dionnex.Task

def contextSwitch : List Instr :=
  [.pusha, .pushf, .load .eax .esp 36, .store .eax .esp, .load .esp .esp 40, .popf, .popa, .ret]

/-- The nine words that `pusha` and `pushf` save. -/
def savedWords (c : Cpu) : List ℕ := c.regs.pushOrder ++ [c.eflags]

/-- What a task expects at its next turn. -/
inductive Suspended where
  | fresh (entry : ℕ)
  | called (regs : Regs) (eflags returnAddress : ℕ)

def Suspended.Continues : Suspended → Cpu → Prop
  | .fresh entry, c => c.eip = entry ∧ c.eflags = 0x202
  | .called regs eflags returnAddress, c => c.eip = returnAddress ∧ c.eflags = eflags ∧
      c.regs = { regs with esp := wrap (regs.esp+4) }

/-- Stacks as half-open address intervals. -/
structure System where
  kernel : Kernel
  stack : ℕ → ℕ × ℕ
  waiting : ℕ → Option Suspended

def System.stackOf (s : System) (task : ℕ) : Set ℕ := Set.Ico (s.stack task).1 (s.stack task).2

/-- What the running task leaves alone: every record, and the stacks of the waiting tasks. -/
def System.Foreign (s : System) : Set ℕ :=
  span s.kernel.currentTask 60 ∪
    {x | ∃ t, s.waiting t ≠ none ∧ (x ∈ span t 60 ∨ x ∈ s.stackOf t)}

inductive Event where
  | compute
  | create (name entry priority : ℕ)
  | switch (c : Cpu) (next : ℕ)

/-- The state of the processor when the running task enters `context_switch(&old->esp, new->esp)`. -/
structure Calls (s : System) (c : Cpu) (next : ℕ) : Prop where
  memory : c.mem = s.kernel.mem
  room : (s.stack s.kernel.currentTask).1 + 36 ≤ c.regs.esp
  inside : c.regs.esp + 12 ≤ (s.stack s.kernel.currentTask).2
  addressable : (s.stack s.kernel.currentTask).2 ≤ 4294967296
  oldArg : word c 1 = s.kernel.currentTask + espOffset
  newArg : word c 2 = load32 c.mem (next+espOffset)
  returnsToText : Disjoint (span (word c 0) 4) (s.stackOf s.kernel.currentTask)
  suspended : s.waiting next ≠ none

def Step (im : Image) (s : System) : Event → System → Prop
  | .compute, t => SameOff (Set.compl s.Foreign) s.kernel.mem t.kernel.mem ∧
      t = { s with kernel := { s.kernel with mem := t.kernel.mem } }
  | .create name entry priority, t => ∃ task,
      taskCreate im s.kernel name entry priority = some (task, t.kernel) ∧
      if task = 0 then t.stack = s.stack ∧ t.waiting = s.waiting
      else
        t.stack = Function.update s.stack task
          (stackBase s.kernel, stackBase s.kernel + taskStackSize) ∧
        t.waiting = Function.update s.waiting task (some (.fresh (wrap entry)))
  | .switch c next, t => Calls s c next ∧
      t.kernel = { s.kernel with mem := (exec contextSwitch c).mem, currentTask := next } ∧
      t.stack = s.stack ∧
      t.waiting = Function.update
        (Function.update s.waiting s.kernel.currentTask
          (some (.called c.regs c.eflags (word c 0)))) next none

/-- What one call of `context_switch` owes its two tasks. -/
structure Switched (s : System) (c : Cpu) (next : ℕ) : Prop where
  stored : load32 (exec contextSwitch c).mem (s.kernel.currentTask+espOffset) = c.regs.esp - 36
  frame : SameOff (s.stackOf s.kernel.currentTask ∪ span (s.kernel.currentTask+espOffset) 4)
    c.mem (exec contextSwitch c).mem
  continues : ∃ w, s.waiting next = some w ∧ w.Continues (exec contextSwitch c)

def Correct (s : System) : Event → System → Prop
  | .switch c next, _ => Switched s c next
  | _, _ => True

def IsSwitch : Event → Prop
  | .switch _ _ => True
  | _ => False

/-- The system as `task_init` leaves it, running on the boot stack. -/
def booted (im : Image) (k : Kernel) (bootStack : ℕ × ℕ) : System where
  kernel := taskInit im k
  stack _ := bootStack
  waiting _ := none

theorem savedWords_length (c : Cpu) : (savedWords c).length = 9 := rfl

theorem contextSwitch_parts : contextSwitch = [.pusha, .pushf] ++
    ([.load .eax .esp 36, .store .eax .esp, .load .esp .esp 40] ++ [.popf, .popa, .ret]) := rfl

theorem exec_saves (c : Cpu) : exec [.pusha, .pushf] c = pushAll c (savedWords c) := by
  rw [savedWords, pushAll_append, exec_pusha, exec_pushf, exec_nil, pushAll_eflags]

/-- The pops run on the stack at the first argument, and the saved stack
pointer goes to the return address. -/
theorem exec_contextSwitch (c : Cpu) (hlow : 36 ≤ c.regs.esp) (hhigh : c.regs.esp + 12 ≤ 4294967296)
    (hret : Disjoint (span (word c 0) 4) (Set.Ico c.regs.esp (c.regs.esp+12))) :
    exec contextSwitch c = exec [.popf, .popa, .ret]
      { c with
        regs := { c.regs with eax := word c 0, esp := word c 1 }
        mem := store32 (pushWords c.mem c.regs.esp (savedWords c)).1 (word c 0) (c.regs.esp-36) } := by
  have hlen : 4*(savedWords c).length = 36 := by rw [savedWords_length]
  have hsp : (pushWords c.mem c.regs.esp (savedWords c)).2 = c.regs.esp-36 := by
    rw [pushWords_esp c.mem c.regs.esp (savedWords c) (by rw [hlen]; exact hlow) (by omega), hlen]
  have hoff := pushWords_off c.mem c.regs.esp (savedWords c) (by rw [hlen]; exact hlow) (by omega)
  rw [hlen] at hoff
  have harg : ∀ i < 3, load32 (pushWords c.mem c.regs.esp (savedWords c)).1 (c.regs.esp+4*i) =
      word c i := by
    intro i hi
    rw [load32_off hoff, word]
    rw [span_eq (by omega), Set.Ico_disjoint_Ico]
    omega
  have h36 : c.regs.esp-36+36 = c.regs.esp+4*0 := by omega
  have h40 : c.regs.esp-36+40 = c.regs.esp+4*1 := by omega
  have hsecond : load32 (store32 (pushWords c.mem c.regs.esp (savedWords c)).1 (word c 0)
      (c.regs.esp-36)) (c.regs.esp+4*1) = word c 1 := by
    rw [load32_off (store32_off _ _ _), harg 1 (by decide)]
    refine (hret.mono_right ?_).symm
    rw [span_eq (by omega)]
    exact Set.Ico_subset_Ico (by omega) (by omega)
  have hmiddle : exec [.load .eax .esp 36, .store .eax .esp, .load .esp .esp 40]
      (pushAll c (savedWords c)) =
      { c with
        regs := { c.regs with eax := word c 0, esp := word c 1 }
        mem := store32 (pushWords c.mem c.regs.esp (savedWords c)).1 (word c 0) (c.regs.esp-36) } := by
    simp only [exec, List.foldl_cons, List.foldl_nil, step, pushAll, Regs.get, Regs.set, hsp, h36,
      h40, harg 0 (by decide), hsecond]
  rw [contextSwitch_parts, exec_append, exec_append, exec_saves, hmiddle]

theorem calls_bounds (s : System) (c : Cpu) (next : ℕ) (h : Calls s c next) :
    36 ≤ c.regs.esp ∧ c.regs.esp + 12 ≤ 4294967296 ∧
    Disjoint (span (word c 0) 4) (Set.Ico c.regs.esp (c.regs.esp+12)) := by
  have hroom := h.room
  have hin := h.inside
  have haddr := h.addressable
  refine ⟨by omega, by omega, h.returnsToText.mono_right ?_⟩
  exact Set.Ico_subset_Ico (by omega) hin

/-- After any call the flags are the word that lies in `old->esp`. -/
theorem switch_flags (s : System) (c : Cpu) (next : ℕ) (h : Calls s c next) :
    (exec contextSwitch c).eflags =
      load32 (exec contextSwitch c).mem (s.kernel.currentTask+espOffset) := by
  obtain ⟨hlow, hhigh, hret⟩ := calls_bounds s c next h
  rw [exec_contextSwitch c hlow hhigh hret, exec_pops, ← h.oldArg]

/-- After any call the stack pointer is 40 bytes above `&old->esp`, wherever the new stack is. -/
theorem switch_stack (s : System) (c : Cpu) (next : ℕ) (h : Calls s c next) :
    (exec contextSwitch c).regs.esp =
      wrap (wrap (wrap (s.kernel.currentTask+espOffset+4) + 32) + 4) := by
  obtain ⟨hlow, hhigh, hret⟩ := calls_bounds s c next h
  rw [exec_contextSwitch c hlow hhigh hret, exec_pops, ← h.oldArg]

/-- A call into a task that has never run cannot keep both promises. -/
theorem first_switch_fails (s : System) (c : Cpu) (next entry : ℕ) (h : Calls s c next)
    (hw : s.waiting next = some (.fresh entry)) (hlow : 4096 ≤ (s.stack s.kernel.currentTask).1) :
    ¬ Switched s c next := by
  intro hsw
  obtain ⟨w, hnext, hcont⟩ := hsw.continues
  rw [hw] at hnext
  cases hnext
  have hflags : c.regs.esp - 36 = 0x202 := by
    rw [← hsw.stored, ← switch_flags s c next h]
    exact hcont.2
  have hroom := h.room
  omega

/-- As long as nothing was switched, every task but the running one is fresh. -/
structure Unswitched (s : System) : Prop where
  low : ∀ t, 4096 ≤ (s.stack t).1
  fresh : ∀ t w, s.waiting t = some w → ∃ entry, w = .fresh entry

theorem create_unswitched (im : Image) (s t : System) (name entry priority : ℕ)
    (hs : Unswitched s) (h : Step im s (.create name entry priority) t) : Unswitched t := by
  obtain ⟨task, hcreate, hrest⟩ := h
  by_cases h0 : task = 0
  · rw [if_pos h0] at hrest
    exact ⟨hrest.1 ▸ hs.low, hrest.2 ▸ hs.fresh⟩
  · rw [if_neg h0] at hrest
    have hbase : stackBase s.kernel ≠ 0 := taskCreate_stack im s.kernel name entry priority task _ hcreate h0
    refine ⟨?_, ?_⟩
    · intro u
      rw [hrest.1]
      by_cases hu : u = task
      · subst hu
        rw [Function.update_self]
        exact alloc_page_low _ hbase
      · rw [Function.update_of_ne hu]
        exact hs.low u
    · intro u w hw
      rw [hrest.2] at hw
      by_cases hu : u = task
      · subst hu
        rw [Function.update_self] at hw
        exact ⟨_, (Option.some.inj hw).symm⟩
      · rw [Function.update_of_ne hu] at hw
        exact hs.fresh u w hw

theorem step_unswitched (im : Image) (s t : System) (e : Event) (hs : Unswitched s)
    (h : Step im s e t) : (¬ IsSwitch e → Unswitched t) ∧ (IsSwitch e → ¬ Correct s e t) := by
  cases e with
  | compute =>
    refine ⟨fun _ => ?_, fun hsw => hsw.elim⟩
    have ht := h.2
    exact ⟨by rw [ht]; exact hs.low, by rw [ht]; exact hs.fresh⟩
  | create name entry priority =>
    exact ⟨fun _ => create_unswitched im s t name entry priority hs h, fun hsw => hsw.elim⟩
  | switch c next =>
    refine ⟨fun hsw => (hsw trivial).elim, fun _ => ?_⟩
    have hc := h.1
    cases hw : s.waiting next with
    | none => exact (hc.suspended hw).elim
    | some w =>
      obtain ⟨entry, rfl⟩ := hs.fresh next w hw
      exact first_switch_fails s c next entry hc hw (hs.low _)

/-- A run meets its specification only if it never switches. -/
theorem switch_never_correct (im : Image) (k : Kernel) (bootStack : ℕ × ℕ)
    (hb : 4096 ≤ bootStack.1) (tr : List (Event × System))
    (hr : Run (Step im) (booted im k bootStack) tr) :
    Along Correct (booted im k bootStack) tr ↔ Along (fun _ e _ => ¬ IsSwitch e) (booted im k bootStack) tr := by
  have hboot : Unswitched (booted im k bootStack) := ⟨fun _ => hb, fun _ _ h => by cases h⟩
  refine run_guard_exact (I := Unswitched) ?_ ?_ _ tr hboot hr
  · intro s e t hs h hok
    refine ⟨(step_unswitched im s t e hs h).1 hok, ?_⟩
    cases e with
    | compute => trivial
    | create name entry priority => trivial
    | switch c next => exact (hok trivial).elim
  · intro s e t hs h hpost hsw
    exact (step_unswitched im s t e hs h).2 hsw hpost

def sampleImage : Image := ⟨0x110000, 0x120000, 0x120010⟩

def sampleKernel : Kernel := ⟨fun _ => 0, ⟨fun i => if i = 0 then 1#32 else 0#32, 32, 1024, 1023⟩, 0, 0, 0⟩

def sampleBoot : System := booted sampleImage sampleKernel (0x108000, 0x10C000)

/-- After the creation of one task with entry point `0x101000`; its record is page 1. -/
def sampleCreated : System where
  kernel := ((taskCreate sampleImage sampleBoot.kernel 0 0x101000 1).getD (0, sampleKernel)).2
  stack := Function.update sampleBoot.stack 0x1000 (0x2000, 0x4000)
  waiting := Function.update sampleBoot.waiting 0x1000 (some (.fresh 0x101000))

/-- The boot task has pushed both arguments and the return address `0x102000`. -/
def sampleCalling : System :=
  { sampleCreated with
    kernel := { sampleCreated.kernel with
      mem := (pushWords sampleCreated.kernel.mem 0x10B000 [16344, 0x110028, 0x102000]).1 } }

def sampleCpu : Cpu := ⟨⟨1, 2, 3, 4, 0x10AFF4, 6, 7, 8⟩, 0x202, 0x102000, sampleCalling.kernel.mem⟩

def sampleSwitched : System where
  kernel := { sampleCalling.kernel with mem := (exec contextSwitch sampleCpu).mem, currentTask := 0x1000 }
  stack := sampleCalling.stack
  waiting := Function.update
    (Function.update sampleCalling.waiting 0x110000
      (some (.called sampleCpu.regs sampleCpu.eflags (word sampleCpu 0)))) 0x1000 none

def sampleRun : List (Event × System) :=
  [(.create 0 0x101000 1, sampleCreated), (.compute, sampleCalling),
    (.switch sampleCpu 0x1000, sampleSwitched)]

theorem sample_create : Step sampleImage sampleBoot (.create 0 0x101000 1) sampleCreated := by
  refine ⟨0x1000, ?_, ?_⟩
  · have hsome : (taskCreate sampleImage sampleBoot.kernel 0 0x101000 1).map Prod.fst = some 0x1000 := by
      decide +kernel
    obtain ⟨r, hr, h1⟩ := Option.map_eq_some_iff.mp hsome
    have hk : sampleCreated.kernel = r.2 := by rw [sampleCreated, hr, Option.getD_some]
    rw [hr, hk, ← h1]
  · have hbase : stackBase sampleBoot.kernel = 0x2000 := by decide +kernel
    rw [if_neg (by decide), hbase]
    exact ⟨rfl, rfl⟩

theorem sample_compute : Step sampleImage sampleCreated .compute sampleCalling := by
  refine ⟨?_, rfl⟩
  have hoff := pushWords_off sampleCreated.kernel.mem 0x10B000 [16344, 0x110028, 0x102000]
    (by decide) (by decide)
  refine hoff.mono ?_
  have hcur : sampleCreated.kernel.currentTask = 0x110000 := by decide +kernel
  rintro x ⟨hx1, hx2⟩ (hx | ⟨t, ht, hx⟩)
  · rw [hcur, span_eq (by decide)] at hx
    simp only [List.length_cons, List.length_nil, Set.mem_Ico] at hx1 hx
    omega
  · by_cases ht1 : t = 0x1000
    · subst ht1
      simp only [List.length_cons, List.length_nil] at hx1
      rcases hx with hx | hx
      · rw [span_eq (by decide), Set.mem_Ico] at hx
        omega
      · change x ∈ Set.Ico 0x2000 0x4000 at hx
        rw [Set.mem_Ico] at hx
        omega
    · exact (ht (Function.update_of_ne ht1 _ _)).elim

theorem sample_calls : Calls sampleCalling sampleCpu 0x1000 where
  memory := rfl
  room := by decide +kernel
  inside := by decide +kernel
  addressable := by decide +kernel
  oldArg := by decide +kernel
  newArg := by decide +kernel
  returnsToText := by
    have hret : word sampleCpu 0 = 0x102000 := by decide +kernel
    have hstack : sampleCalling.stack sampleCalling.kernel.currentTask = (0x108000, 0x10C000) := by
      decide +kernel
    rw [hret, System.stackOf, hstack, span_eq (by decide), Set.Ico_disjoint_Ico]
    decide
  suspended h := by cases h

theorem sampleRun_runs : Run (Step sampleImage) sampleBoot sampleRun :=
  ⟨sample_create, sample_compute, ⟨sample_calls, rfl, rfl, rfl⟩, trivial⟩

/-- The first switch to a new task. -/
theorem first_switch_goes_wrong :
    Run (Step sampleImage) (booted sampleImage sampleKernel (0x108000, 0x10C000)) sampleRun ∧
    ¬ Along Correct (booted sampleImage sampleKernel (0x108000, 0x10C000)) sampleRun := by
  refine ⟨sampleRun_runs, fun h => ?_⟩
  have hlow : 4096 ≤ (sampleCalling.stack sampleCalling.kernel.currentTask).1 := by decide +kernel
  exact first_switch_fails sampleCalling sampleCpu 0x1000 0x101000 sample_calls rfl hlow h.2.2.1

theorem switch_never_correct_sample :
    Along Correct (booted sampleImage sampleKernel (0x108000, 0x10C000)) sampleRun ↔
      Along (fun _ e _ => ¬ IsSwitch e) (booted sampleImage sampleKernel (0x108000, 0x10C000))
        sampleRun :=
  switch_never_correct sampleImage sampleKernel (0x108000, 0x10C000) (by decide) sampleRun
    sampleRun_runs

end Dionnex.ContextSwitch
