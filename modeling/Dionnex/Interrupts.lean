import Dionnex.Keyboard
import Dionnex.ProcessScheduler
import Dionnex.TaskTurns

/-!
# Interrupts and the way back

The C handlers behind the interrupt stubs, with both schedulers, the timer
and the keyboard in one machine. A handler's outcome says how control leaves
the interrupted context and which end-of-interrupt signals were sent before.
-/

set_option autoImplicit false

namespace Dionnex.Interrupts
open ByteMemory X86Stack LinkedChain Dionnex.Task Dionnex.TaskScheduler Dionnex.TaskLists Dionnex.TaskTurns
open Dionnex.Process Dionnex.ProcessScheduler
open Dionnex.Keyboard (keyboardHandler)

/-- The functions that `isr_register_handler` is called with. -/
inductive Handler where
  | timerHandler
  | keyboardHandler
  deriving DecidableEq, Repr

structure Machine where
  interruptHandlers : ℕ → Option Handler
  timerTicks : ℕ
  tasks : Task.Kernel
  procs : Process.Kernel
  keyboard : Keyboard.Driver

/-- The fields of `registers_t` that the handlers read and write. -/
structure Frame where
  eax : ℕ
  ebx : ℕ
  intNo : ℕ
  eip : ℕ
  cs : ℕ

inductive Signal where
  | apicEoi
  | picSendEoi (irq : ℕ)
  deriving DecidableEq, Repr

/-- How control leaves: back to the frame, into another task, into user mode at an entry point, or never. -/
inductive Control where
  | returns (frame : Frame)
  | switches
  | enters (eip esp : ℕ)
  | panics

structure Outcome where
  machine : Machine
  signals : List Signal
  control : Control

/-- The machine after the handler, and whether `schedule` has switched away
from the task it was called in; `c` is the processor at `context_switch`. -/
def runHandler (m : Machine) (c : Cpu) (scancode : UInt8) : Handler → Option (Machine × Bool)
  | .timerHandler =>
    let m := { m with timerTicks := wrap (m.timerTicks+1) }
    if m.timerTicks % 10 = 0 then
      (schedule m.tasks c).map (fun tasks =>
        ({ m with tasks := tasks }, tasks.currentTask ≠ m.tasks.currentTask))
    else some (m, false)
  | .keyboardHandler => some ({ m with keyboard := Keyboard.keyboardHandler m.keyboard scancode }, false)

/-- The registered handler, if there is one. -/
def handle (m : Machine) (c : Cpu) (scancode : UInt8) (f : Frame) : Option (Machine × Bool) :=
  match m.interruptHandlers f.intNo with
  | none => some (m, false)
  | some h => runHandler m c scancode h

/-- `process_exit` or the tick has returned, or entered user mode for another process. -/
def resume (m : Machine) (f : Frame) (signals : List Signal) (r : Process.Kernel × Option (ℕ × ℕ)) : Outcome :=
  match r.2 with
  | some (eip, esp) => ⟨{ m with procs := r.1 }, [], .enters eip esp⟩
  | none => ⟨{ m with procs := r.1 }, signals, .returns f⟩

def irqHandler (m : Machine) (c : Cpu) (scancode : UInt8) (f : Frame) : Option Outcome :=
  (handle m c scancode f).bind (fun h =>
    if h.2 then some ⟨h.1, [], .switches⟩
    else
      (if f.intNo = 32 then schedProcTick h.1.procs else some (h.1.procs, none)).map
        (resume h.1 f (if 32 ≤ f.intNo ∧ f.intNo < 48 then [.apicEoi, .picSendEoi (f.intNo-32)] else [])))

def isrHandler (m : Machine) (c : Cpu) (scancode : UInt8) (f : Frame) : Option Outcome :=
  match m.interruptHandlers f.intNo with
  | some h => (runHandler m c scancode h).map (fun h => ⟨h.1, [], if h.2 then .switches else .returns f⟩)
  | none =>
    if f.cs % 4 ≠ 0 ∧ m.procs.currentProcess ≠ 0 then
      (processExit m.procs (128+f.intNo)).map (resume m f [])
    else some ⟨m, [], .panics⟩

/-- `SYS_EXIT` through `syscall_handler`; the answer 0 goes to `eax`. -/
def sysExit (m : Machine) (f : Frame) : Option Outcome :=
  (processExit m.procs f.ebx).map (resume m { f with eax := 0 } [])

/-! ## Entering user mode -/

/-- Some other queued process is ready and was never started. -/
def FreshWaiting (k : Process.Kernel) (l : List ℕ) : Prop :=
  ∃ p ∈ l, p ≠ k.currentProcess ∧ (k.procs p).state = .ready ∧ (k.procs p).vruntime = 0

section Entering

variable {k : Process.Kernel} {l : List ℕ}

theorem demote_fields (k : Process.Kernel) (p : ℕ) :
    ((demoteCurrent k).procs p).vruntime = (k.procs p).vruntime ∧
    ((demoteCurrent k).procs p).userEip = (k.procs p).userEip ∧
    ((demoteCurrent k).procs p).userEsp = (k.procs p).userEsp := by
  rw [demote_procs]
  by_cases hrun : Running k
  · by_cases hp : p = k.currentProcess
    · simp [hrun, hp]
    · simp [hrun, hp]
  · simp [hrun]

/-- The least counter is zero exactly if some ready process has not started. -/
theorem schedule_enters (hl : Chain k.next k.schedQueue l) (hb : ∀ p ∈ l, p < wordMod) :
    ∃ r, scheduleProcess k = some r ∧
      (r.2.isSome ↔ ∃ p ∈ l, (k.procs p).state = .ready ∧ (k.procs p).vruntime = 0) ∧
      ∀ e, r.2 = some e → ∃ p, (k.procs p).state = .ready ∧ e = ((k.procs p).userEip, (k.procs p).userEsp) := by
  refine ⟨_, schedule_spec hl hb, ?_⟩
  cases hbest : best k l with
  | none =>
    have hnone := best_none.mp hbest
    constructor
    · constructor
      · intro h
        cases h
      · rintro ⟨p, hp, hready, -⟩
        exact absurd hready (hnone p hp)
    · intro e he
      cases he
  | some p =>
    obtain ⟨hpl, hready⟩ := best_mem hbest
    obtain ⟨hv, heip, hesp⟩ := demote_fields k p
    dsimp only
    rw [dispatch_entry, hv, heip, hesp]
    by_cases hz : (k.procs p).vruntime = 0
    · rw [if_pos hz]
      constructor
      · exact ⟨fun _ => ⟨p, hpl, hready, hz⟩, fun _ => rfl⟩
      · intro e he
        exact ⟨p, hready, (Option.some.inj he).symm⟩
    · rw [if_neg hz]
      constructor
      · constructor
        · intro h
          cases h
        · rintro ⟨q, hq, hqready, hqz⟩
          have hle := best_le hbest hq hqready
          omega
      · intro e he
        cases he

theorem exited_procs (code : ℕ) {p : ℕ} (hp : p ≠ k.currentProcess) : (exited k code).procs p = k.procs p :=
  Function.update_of_ne hp _ _

theorem exited_ready (code p : ℕ) :
    ((exited k code).procs p).state = .ready ↔ p ≠ k.currentProcess ∧ (k.procs p).state = .ready := by
  by_cases hp : p = k.currentProcess
  · simp [exited, Process.Kernel.put, hp]
  · simp [exited_procs code hp, hp]

theorem exit_enters (hl : Chain k.next k.schedQueue l) (hb : ∀ p ∈ l, p < wordMod) (hcur : k.currentProcess ≠ 0)
    (code : ℕ) : ∃ r, processExit k code = some r ∧ (r.2.isSome ↔ FreshWaiting k l) ∧
      ∀ e, r.2 = some e → ∃ p, p ≠ k.currentProcess ∧ e = ((k.procs p).userEip, (k.procs p).userEsp) := by
  have hsame : ProcessLists.SameLists k (exited k code) := ProcessLists.put_sameLists k _ _ rfl
  have hchain : Chain (exited k code).next (exited k code).schedQueue l := by
    rw [hsame.next, hsame.schedQueue]
    exact hl
  obtain ⟨r, hr, hsome, hentry⟩ := schedule_enters hchain hb
  refine ⟨r, (if_neg hcur).trans hr, ?_, ?_⟩
  · rw [hsome]
    constructor
    · rintro ⟨p, hp, hready, hz⟩
      obtain ⟨hne, hready⟩ := (exited_ready code p).mp hready
      rw [exited_procs code hne] at hz
      exact ⟨p, hp, hne, hready, hz⟩
    · rintro ⟨p, hp, hne, hready, hz⟩
      refine ⟨p, hp, (exited_ready code p).mpr ⟨hne, hready⟩, ?_⟩
      rw [exited_procs code hne]
      exact hz
  · intro e he
    obtain ⟨p, hready, hp⟩ := hentry e he
    obtain ⟨hne, -⟩ := (exited_ready code p).mp hready
    rw [exited_procs code hne] at hp
    exact ⟨p, hne, hp⟩

theorem tick_enters (hl : Chain k.next k.schedQueue l) (hb : ∀ p ∈ l, p < wordMod) :
    ∃ r, schedProcTick k = some r ∧ (r.2.isSome ↔ Running k ∧ FreshWaiting k l) := by
  by_cases hrun : Running k
  · have hsame : ProcessLists.SameLists k (charged k) := ProcessLists.put_sameLists k _ _ rfl
    have hchain : Chain (charged k).next (charged k).schedQueue l := by
      rw [hsame.next, hsame.schedQueue]
      exact hl
    obtain ⟨r, hr, hsome, -⟩ := schedule_enters hchain hb
    refine ⟨r, (if_pos hrun).trans hr, ?_⟩
    rw [hsome]
    have hother : ∀ p, (k.procs p).state = .ready → p ≠ k.currentProcess ∧ (charged k).procs p = k.procs p := by
      intro p hready
      have hne : p ≠ k.currentProcess := by
        rintro rfl
        rw [hrun.2] at hready
        cases hready
      exact ⟨hne, Function.update_of_ne hne _ _⟩
    constructor
    · rintro ⟨p, hp, hready, hz⟩
      rw [charged_state] at hready
      obtain ⟨hne, heq⟩ := hother p hready
      rw [heq] at hz
      exact ⟨hrun, p, hp, hne, hready, hz⟩
    · rintro ⟨-, p, hp, -, hready, hz⟩
      obtain ⟨-, heq⟩ := hother p hready
      exact ⟨p, hp, by rw [charged_state]; exact hready, by rw [heq]; exact hz⟩
  · refine ⟨(k, none), if_neg hrun, ?_⟩
    simp [hrun]

end Entering

/-! ## Exiting -/

/-- Control never comes back to the interrupted context. -/
def Gone (o : Outcome) : Prop := ∀ f, o.control ≠ .returns f

/-- Another process is entered. -/
def LeftFor (k : Process.Kernel) (o : Outcome) : Prop :=
  ∃ p, p ≠ k.currentProcess ∧ o.control = .enters (k.procs p).userEip (k.procs p).userEsp

theorem resume_gone (m : Machine) (f : Frame) (signals : List Signal) (r : Process.Kernel × Option (ℕ × ℕ)) :
    Gone (resume m f signals r) ↔ r.2.isSome := by
  obtain ⟨k, entry⟩ := r
  cases entry with
  | none => simp [resume, Gone]
  | some e => simp [resume, Gone]

theorem resume_exited {m : Machine} {k : Process.Kernel} {l : List ℕ} {r : Process.Kernel × Option (ℕ × ℕ)}
    (hsome : r.2.isSome ↔ FreshWaiting k l)
    (hentry : ∀ e, r.2 = some e → ∃ p, p ≠ k.currentProcess ∧ e = ((k.procs p).userEip, (k.procs p).userEsp))
    (f : Frame) (signals : List Signal) : (Gone (resume m f signals r) ↔ FreshWaiting k l) ∧
      (Gone (resume m f signals r) → LeftFor k (resume m f signals r)) := by
  rw [resume_gone, hsome]
  refine ⟨Iff.rfl, fun hfresh => ?_⟩
  obtain ⟨e, he⟩ := Option.isSome_iff_exists.mp (hsome.mpr hfresh)
  obtain ⟨p, hne, rfl⟩ := hentry e he
  exact ⟨p, hne, by simp [resume, he]⟩

/-- `process_exit` leaves its caller, for another process, exactly if one that
was never started is waiting; otherwise the exited process goes on. -/
theorem exit_leaves_iff (m : Machine) (f : Frame) (c : Cpu) (scancode : UInt8) (l : List ℕ)
    (hl : Chain m.procs.next m.procs.schedQueue l) (hb : ∀ p ∈ l, p < wordMod)
    (hcur : m.procs.currentProcess ≠ 0) :
    (∃ o, sysExit m f = some o ∧ (Gone o ↔ FreshWaiting m.procs l) ∧ (Gone o → LeftFor m.procs o)) ∧
    (m.interruptHandlers f.intNo = none → f.cs % 4 ≠ 0 →
      ∃ o, isrHandler m c scancode f = some o ∧ (Gone o ↔ FreshWaiting m.procs l) ∧
        (Gone o → LeftFor m.procs o)) := by
  constructor
  · obtain ⟨r, hr, hsome, hentry⟩ := exit_enters hl hb hcur f.ebx
    have ho : sysExit m f = some (resume m { f with eax := 0 } [] r) := by rw [sysExit, hr, Option.map_some]
    exact ⟨_, ho, resume_exited hsome hentry _ _⟩
  · intro hnone hring
    obtain ⟨r, hr, hsome, hentry⟩ := exit_enters hl hb hcur (128+f.intNo)
    have ho : isrHandler m c scancode f = some (resume m f [] r) := by
      unfold isrHandler
      rw [hnone]
      dsimp only
      rw [if_pos ⟨hring, hcur⟩, hr, Option.map_some]
    exact ⟨_, ho, resume_exited hsome hentry _ _⟩

/-- Only the timer and the keyboard have handlers. -/
def registered : ℕ → Option Handler := fun n =>
  if n = 32 then some .timerHandler else if n = 33 then some .keyboardHandler else none

/-- One process runs and nobody else is queued. -/
def sampleLone : Machine := ⟨registered, 0, sampleStart, sampleStarted.kernel, Keyboard.Driver.zero⟩

/-- A page fault in user mode. -/
def sampleFault : Frame := ⟨1, 0, 14, 0x8048010, 0x1B⟩

theorem sampleLone_chain : Chain sampleLone.procs.next sampleLone.procs.schedQueue [0x1000] := by
  refine ⟨?_, by decide, ?_⟩
  · decide +kernel
  · change sampleLone.procs.next 0x1000 = 0
    decide +kernel

theorem exit_leaves_iff_sample :
    (∃ o, sysExit sampleLone sampleFault = some o ∧ (Gone o ↔ FreshWaiting sampleLone.procs [0x1000]) ∧
      (Gone o → LeftFor sampleLone.procs o)) ∧
    ∃ o, isrHandler sampleLone sampleCpu 0 sampleFault = some o ∧
      (Gone o ↔ FreshWaiting sampleLone.procs [0x1000]) ∧ (Gone o → LeftFor sampleLone.procs o) := by
  have h := exit_leaves_iff sampleLone sampleFault sampleCpu 0 [0x1000] sampleLone_chain (by decide)
    (by decide +kernel)
  exact ⟨h.1, h.2 rfl (by decide)⟩

/-- The last process exits by a system call and by a fault, and both times it is returned to. -/
theorem exited_process_resumes :
    sampleLone.procs.currentProcess ≠ 0 ∧ sampleFault.cs % 4 ≠ 0 ∧
    (∃ o, sysExit sampleLone sampleFault = some o ∧ o.control = .returns { sampleFault with eax := 0 }) ∧
    ∃ o, isrHandler sampleLone sampleCpu 0 sampleFault = some o ∧ o.control = .returns sampleFault := by
  refine ⟨by decide +kernel, by decide, ⟨_, rfl, ?_⟩, ⟨_, rfl, ?_⟩⟩
  · rfl
  · rfl

/-! ## End of interrupt -/

/-- Both controllers were told before control left. -/
def EoiSent (f : Frame) (o : Outcome) : Prop :=
  .apicEoi ∈ o.signals ∧ .picSendEoi (f.intNo-32) ∈ o.signals

/-- A tenth tick at which another task is the first of those with the least `vruntime`. -/
def TimerSwitches (m : Machine) (f : Frame) (tasks : List ℕ) : Prop :=
  m.interruptHandlers f.intNo = some .timerHandler ∧ wrap (m.timerTicks+1) % 10 = 0 ∧
    m.tasks.currentTask ≠ 0 ∧ ∃ b, nextTask m.tasks.mem tasks = some b ∧ b ≠ m.tasks.currentTask

/-- A tick under a running process while one that was never started is waiting. -/
def TickEnters (m : Machine) (f : Frame) (procs : List ℕ) : Prop :=
  f.intNo = 32 ∧ Running m.procs ∧ FreshWaiting m.procs procs

theorem handle_spec (m : Machine) (c : Cpu) (scancode : UInt8) (f : Frame) (tasks : List ℕ)
    (ht : Seated m.tasks tasks) : ∃ h, handle m c scancode f = some h ∧ h.1.procs = m.procs ∧
      (h.2 = true ↔ TimerSwitches m f tasks) := by
  unfold handle TimerSwitches
  cases hreg : m.interruptHandlers f.intNo with
  | none => exact ⟨(m, false), rfl, rfl, by simp⟩
  | some h =>
    cases h with
    | keyboardHandler => exact ⟨_, rfl, rfl, by simp⟩
    | timerHandler =>
      by_cases htenth : wrap (m.timerTicks+1) % 10 = 0
      · obtain ⟨k', hs, hswitch⟩ := @schedule_next m.tasks tasks c ht
        refine ⟨_, by simp only [runHandler, if_pos htenth, hs, Option.map_some]; rfl, rfl, ?_⟩
        simpa [htenth] using hswitch
      · exact ⟨_, by simp only [runHandler, if_neg htenth]; rfl, rfl, by simp [htenth]⟩

/-- The end of interrupt is lost exactly at the ticks at which a scheduler takes control away for good. -/
theorem eoi_iff (m : Machine) (c : Cpu) (scancode : UInt8) (f : Frame) (tasks procs : List ℕ)
    (hirq : 32 ≤ f.intNo ∧ f.intNo < 48) (ht : Seated m.tasks tasks)
    (hl : Chain m.procs.next m.procs.schedQueue procs) (hb : ∀ p ∈ procs, p < wordMod) :
    ∃ o, irqHandler m c scancode f = some o ∧
      (EoiSent f o ↔ ¬ (TimerSwitches m f tasks ∨ TickEnters m f procs)) := by
  obtain ⟨h, hh, hprocs, hleft⟩ := handle_spec m c scancode f tasks ht
  unfold irqHandler
  rw [hh, Option.bind_some]
  by_cases hswitch : h.2 = true
  · refine ⟨_, if_pos hswitch, ?_⟩
    simp [EoiSent, hleft.mp hswitch]
  · rw [if_neg hswitch, if_pos hirq]
    have hstay : ¬ TimerSwitches m f tasks := fun hsw => hswitch (hleft.mpr hsw)
    obtain ⟨r, hr, hsome⟩ : ∃ r, (if f.intNo = 32 then schedProcTick h.1.procs else some (h.1.procs, none)) = some r ∧
        (r.2.isSome ↔ TickEnters m f procs) := by
      by_cases h32 : f.intNo = 32
      · rw [if_pos h32, hprocs]
        obtain ⟨r, hr, hsome⟩ := tick_enters hl hb
        exact ⟨r, hr, by simp [TickEnters, h32, hsome]⟩
      · exact ⟨_, if_neg h32, by simp [TickEnters, h32]⟩
    refine ⟨_, by rw [hr, Option.map_some], ?_⟩
    obtain ⟨k, entry⟩ := r
    cases entry with
    | none =>
      have hno : ¬ TickEnters m f procs := by simpa using hsome
      simp [EoiSent, resume, hstay, hno]
    | some e =>
      have hyes : TickEnters m f procs := hsome.mp rfl
      simp [EoiSent, resume, hyes]

/-- Beside the running process a second one is queued. -/
def samplePair : System :=
  advance (advance sampleStarted (.create none ⟨true, 0x2000, 0x301000, true, 0x8048000, 0x7000⟩)) (.add 0x2000)

def sampleBusy : Machine := { sampleLone with procs := samplePair.kernel }

def sampleTick : Frame := ⟨0, 0, 32, 0x8048010, 0x1B⟩

theorem sampleBusy_chain : Chain sampleBusy.procs.next sampleBusy.procs.schedQueue [0x2000, 0x1000] := by
  refine ⟨?_, by decide, ?_, by decide, ?_⟩
  · decide +kernel
  · decide +kernel
  · change sampleBusy.procs.next 0x1000 = 0
    decide +kernel

theorem sampleBusy_seated : Seated sampleBusy.tasks [0x110000] :=
  inv_seated sample_linked (taskInit_inv sample_linked TaskLists.sampleBoot samplePmm_padded sample_far)

theorem eoi_iff_sample : ∃ o, irqHandler sampleBusy sampleCpu 0 sampleTick = some o ∧
    (EoiSent sampleTick o ↔
      ¬ (TimerSwitches sampleBusy sampleTick [0x110000] ∨ TickEnters sampleBusy sampleTick [0x2000, 0x1000])) :=
  eoi_iff sampleBusy sampleCpu 0 sampleTick [0x110000] [0x2000, 0x1000] (by decide) sampleBusy_seated
    sampleBusy_chain (by decide)

/-- The tick enters the queued process and no end of interrupt is sent. -/
theorem tick_loses_eoi : (32 ≤ sampleTick.intNo ∧ sampleTick.intNo < 48) ∧
    ∃ o, irqHandler sampleBusy sampleCpu 0 sampleTick = some o ∧ ¬ EoiSent sampleTick o := by
  have hsignals : (irqHandler sampleBusy sampleCpu 0 sampleTick).map Outcome.signals = some [] := by
    decide +kernel
  obtain ⟨o, ho, hnone⟩ := Option.map_eq_some_iff.mp hsignals
  refine ⟨by decide, o, ho, fun h => ?_⟩
  have hsent := h.1
  rw [hnone] at hsent
  cases hsent

end Dionnex.Interrupts
