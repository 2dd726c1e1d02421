import Dionnex.ContextSwitch

/-!
# The task list and its scheduler

`schedule` drops a dead current task from the list, takes the runnable task
with the least `vruntime` and switches to it; `task_exit` marks the current
task dead and schedules. Records are reached through their field offsets;
the walks over the list have a bound that no list of distinct addresses
reaches.
-/

set_option autoImplicit false

namespace Dionnex.TaskScheduler
open ByteMemory X86Stack Dionnex.Task Dionnex.ContextSwitch

def taskDead : ℕ := 3

/-- `sizeof(task_t)`. -/
def recordSize : ℕ := 60

def stateOf (m : Mem) (task : ℕ) : ℕ := load32 m (task+stateOffset)

def vruntimeOf (m : Mem) (task : ℕ) : ℕ := load32 m (task+vruntimeOffset)

def priorityOf (m : Mem) (task : ℕ) : ℕ := load32 m (task+priorityOffset)

def nextOf (m : Mem) (task : ℕ) : ℕ := load32 m (task+nextOffset)

/-- The loop of `scheduler_remove_task`. -/
def removeLoop (m : Mem) (task : ℕ) : ℕ → ℕ → Option Mem
  | 0, _ => none
  | fuel+1, curr =>
    if nextOf m curr = 0 then some m
    else if nextOf m curr = task then some (store32 m (curr+nextOffset) (nextOf m task))
    else removeLoop m task fuel (nextOf m curr)

def schedulerRemoveTask (k : Kernel) (task : ℕ) : Option Kernel :=
  if task = 0 ∨ k.taskListHead = 0 then some k
  else if k.taskListHead = task then some { k with taskListHead := nextOf k.mem k.taskListHead }
  else (removeLoop k.mem task chainBound k.taskListHead).map (fun m => { k with mem := m })

/-- The search loop of `schedule`. -/
def findMin (m : Mem) : ℕ → ℕ → ℕ → ℕ → Option ℕ
  | 0, _, _, _ => none
  | fuel+1, curr, minVruntime, minTask =>
    if curr = 0 then some minTask
    else if (stateOf m curr = taskReady ∨ stateOf m curr = taskRunning) ∧
        vruntimeOf m curr < minVruntime then
      findMin m fuel (nextOf m curr) (vruntimeOf m curr) curr
    else findMin m fuel (nextOf m curr) minVruntime minTask

/-- A task that gives up the processor while running is ready again and pays for its turn. -/
def demote (m : Mem) (prev : ℕ) : Mem :=
  if stateOf m prev = taskRunning then
    let m := store32 m (prev+stateOffset) taskReady
    store32 m (prev+vruntimeOffset) (vruntimeOf m prev + sub32 10 (priorityOf m prev))
  else m

/-- `c` is the processor on entry to `context_switch`. -/
def switchTo (k : Kernel) (c : Cpu) (next : ℕ) : Kernel :=
  let m := store32 (demote k.mem k.currentTask) (next+stateOffset) taskRunning
  { k with mem := (exec contextSwitch { c with mem := m }).mem, currentTask := next }

def dropDead (k : Kernel) : Option Kernel :=
  if stateOf k.mem k.currentTask = taskDead then schedulerRemoveTask k k.currentTask else some k

def schedule (k : Kernel) (c : Cpu) : Option Kernel :=
  if k.currentTask = 0 ∨ k.taskListHead = 0 then some k
  else
    (dropDead k).bind (fun k =>
      (findMin k.mem chainBound k.taskListHead 0xFFFFFFFF 0).map (fun minTask =>
        if minTask = 0 ∨ minTask = k.currentTask then k else switchTo k c minTask))

def taskExit (k : Kernel) (c : Cpu) : Option Kernel :=
  if k.currentTask = 0 then some k
  else schedule { k with mem := store32 k.mem (k.currentTask+stateOffset) taskDead } c

end Dionnex.TaskScheduler
