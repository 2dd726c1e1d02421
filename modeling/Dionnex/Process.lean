import Dionnex.KernelString
import Dionnex.LinkedChain

/-!
# User processes and their scheduler

The process records are a map from addresses to records. The process list
and the scheduler queue are two heads into the same `next` field, and
`current_process` is a third reference. What the allocator, the page pool
and the ELF loader answer to `process_create` is input.
-/

set_option autoImplicit false

namespace Dionnex.Process
open Dionnex.KernelString

inductive ProcState where
  | new
  | ready
  | running
  | blocked
  | zombie
  | dead
  deriving DecidableEq, Repr

structure Record where
  pid : ℕ
  name : List UInt8
  state : ProcState
  pageDirectory : ℕ
  esp0 : ℕ
  kernelStack : ℕ
  userEsp : ℕ
  userEip : ℕ
  entryPoint : ℕ
  brk : ℕ
  brkMax : ℕ
  fds : List ℤ
  exitCode : ℕ
  vruntime : ℕ
  parent : ℕ
  next : ℕ
  deriving DecidableEq, Repr

def wordMod : ℕ := 4294967296
def procNameLen : ℕ := 64
def procMaxFds : ℕ := 16
def procStackBase : ℕ := 0xBFFFFFFF
def procHeapBase : ℕ := 0x08100000

/-- The record after its `memset`. -/
def blankRecord : Record :=
  ⟨0, List.replicate procNameLen 0, .new, 0, 0, 0, 0, 0, 0, 0, 0, List.replicate procMaxFds 0, 0, 0, 0, 0⟩

structure Kernel where
  procs : ℕ → Record
  procList : ℕ
  schedQueue : ℕ
  currentProcess : ℕ
  nextPid : ℕ
  tssEsp0 : ℕ

def Kernel.next (k : Kernel) (p : ℕ) : ℕ := (k.procs p).next

def Kernel.put (k : Kernel) (p : ℕ) (r : Record) : Kernel :=
  { k with procs := Function.update k.procs p r }

/-- The answers of the services that `process_create` calls; a null address is a failure. -/
structure Resources where
  elfValid : Bool
  proc : ℕ
  pageDirectory : ℕ
  segmentsLoaded : Bool
  entry : ℕ
  kernelStack : ℕ

/-- "user_proc" -/
def defaultName : List UInt8 := [117, 115, 101, 114, 95, 112, 114, 111, 99]

def freshRecord (k : Kernel) (name : Option (List UInt8)) : Record :=
  { blankRecord with
    pid := k.nextPid
    name := strncpy (procNameLen-1) blankRecord.name (name.getD defaultName) }

def withMemory (r : Record) (pageDirectory : ℕ) : Record :=
  { r with pageDirectory := pageDirectory, brk := procHeapBase, brkMax := procHeapBase + 16*4096 }

def withEntry (r : Record) (entry kernelStack : ℕ) : Record :=
  { r with entryPoint := entry, userEip := entry, userEsp := procStackBase - 16,
           kernelStack := kernelStack }

def standardFds : List ℤ := [0, 1, 2] ++ List.replicate (procMaxFds-3) (-1)

/-- The new record's address or 0. -/
def processCreate (k : Kernel) (name : Option (List UInt8)) (res : Resources) : ℕ × Kernel :=
  if res.elfValid = false then (0, k)
  else if res.proc = 0 then (0, k)
  else
    let r := freshRecord k name
    let k := { k with nextPid := (k.nextPid+1) % wordMod }
    if res.pageDirectory = 0 then (0, k.put res.proc r)
    else
      let r := withMemory r res.pageDirectory
      if res.segmentsLoaded = false then (0, k.put res.proc r)
      else
        let r := withEntry r res.entry res.kernelStack
        if res.kernelStack = 0 then (0, k.put res.proc r)
        else
          let r := { r with esp0 := (res.kernelStack+8192) % wordMod, fds := standardFds,
                            state := .ready, next := k.procList }
          (res.proc, { k.put res.proc r with procList := res.proc })

def schedProcAdd (k : Kernel) (p : ℕ) : Kernel :=
  if p = 0 then k
  else { k.put p { k.procs p with state := .ready, next := k.schedQueue } with schedQueue := p }

/-- `process_create` and then, for a new process, `sched_proc_add`. -/
def spawn (k : Kernel) (name : Option (List UInt8)) (res : Resources) : ℕ × Kernel :=
  ((processCreate k name res).1, schedProcAdd (processCreate k name res).2 (processCreate k name res).1)

/-- The loop of `schedule_process` from `curr` with the best candidate so far. -/
def pickBest (k : Kernel) : ℕ → ℕ → ℕ → Option ℕ
  | 0, _, _ => none
  | fuel+1, curr, best =>
    if curr = 0 then some best
    else
      pickBest k fuel (k.next curr)
        (if (k.procs curr).state = .ready ∧
            (best = 0 ∨ (k.procs curr).vruntime < (k.procs best).vruntime) then curr else best)

/-- More steps than there are addresses; a walk that outlives them hangs. -/
def walkBound : ℕ := 4294967298

def demoteCurrent (k : Kernel) : Kernel :=
  if k.currentProcess ≠ 0 ∧ (k.procs k.currentProcess).state = .running then
    k.put k.currentProcess { k.procs k.currentProcess with state := .ready }
  else k

/-- The new current process, and its first entry to user mode if it has not started yet. -/
def dispatch (k : Kernel) (best : ℕ) : Kernel × Option (ℕ × ℕ) :=
  let k := { k.put best { k.procs best with state := .running } with
    currentProcess := best, tssEsp0 := (k.procs best).esp0 }
  if (k.procs best).vruntime = 0 then
    (k.put best { k.procs best with vruntime := 1 },
      some ((k.procs best).userEip, (k.procs best).userEsp))
  else (k, none)

def scheduleProcess (k : Kernel) : Option (Kernel × Option (ℕ × ℕ)) :=
  if k.schedQueue = 0 then some (k, none)
  else
    (pickBest k walkBound k.schedQueue 0).map (fun best =>
      if best = 0 then (k, none) else dispatch (demoteCurrent k) best)

def schedProcTick (k : Kernel) : Option (Kernel × Option (ℕ × ℕ)) :=
  if k.currentProcess ≠ 0 ∧ (k.procs k.currentProcess).state = .running then
    scheduleProcess (k.put k.currentProcess
      { k.procs k.currentProcess with
        vruntime := ((k.procs k.currentProcess).vruntime + 10) % wordMod })
  else some (k, none)

def processExit (k : Kernel) (code : ℕ) : Option (Kernel × Option (ℕ × ℕ)) :=
  if k.currentProcess = 0 then some (k, none)
  else
    scheduleProcess (k.put k.currentProcess
      { k.procs k.currentProcess with exitCode := code % wordMod, state := .zombie })

def processGetByPid (k : Kernel) (pid : ℕ) : ℕ → ℕ → Option ℕ
  | 0, _ => none
  | fuel+1, curr =>
    if curr = 0 then some 0
    else if (k.procs curr).pid = pid then some curr
    else processGetByPid k pid fuel (k.next curr)

def findProcess (k : Kernel) (pid : ℕ) : Option ℕ := processGetByPid k pid walkBound k.procList

/-- The common part of `sys_kill` with signal 9 and the shell's `kill`. -/
def killProcess (k : Kernel) (p : ℕ) : Kernel :=
  if p = 0 then k else k.put p { k.procs p with state := .zombie, exitCode := 137 }

/-- The loop of `process_destroy`: the record before `p`, or the last one. -/
def predecessor (k : Kernel) (p : ℕ) : ℕ → ℕ → Option ℕ
  | 0, _ => none
  | fuel+1, curr =>
    if k.next curr = 0 ∨ k.next curr = p then some curr else predecessor k p fuel (k.next curr)

def unlinkProcess (k : Kernel) (p : ℕ) : Option Kernel :=
  if k.procList = p then some { k with procList := k.next p }
  else if k.procList = 0 then some k
  else
    (predecessor k p walkBound k.procList).map (fun curr =>
      if k.next curr = p then k.put curr { k.procs curr with next := k.next p } else k)

/-- The record's memory and its kernel stack go back to the allocator. -/
def processDestroy (k : Kernel) (p : ℕ) : Option Kernel :=
  if p = 0 then some k
  else (unlinkProcess k p).map (fun k => k.put p { k.procs p with state := .dead })

end Dionnex.Process
