import Dionnex.ProcessFork
import Dionnex.ProcessImage

/-!
# System calls

The dispatcher and the calls behind it, on one machine. The kernel follows
the addresses that a process passes through the tables in use, and a page
that is not present is a page fault. `Env` is what the calls find outside:
the keys that are pressed, the clock, the files of the initrd and of the
VFS, and what runs when a call jumps to code that its caller has chosen. A
call that has no result does not return.
-/

set_option autoImplicit false

namespace Dionnex.Syscalls
open ByteMemory PageTables Dionnex.PmmBitmap Dionnex.Vmm Dionnex.UserPages Dionnex.UserMemory
open Dionnex.PagedAccess Dionnex.ElfLoader Dionnex.KernelString Dionnex.Process
open Dionnex.ProcessImage
open Dionnex.ProcessFork (forkedRecord)

def maxSyscalls : ℕ := 256

structure Env where
  /-- What `keyboard_read` answers in turn. -/
  keys : List UInt8
  unixTime : ℕ
  initrdGetFile : List UInt8 → Option (Mem × ℕ)
  /-- The node that a path leads to, or 0; no file system has a function to open it. -/
  vfsOpen : List UInt8 → ℕ
  /-- Runs the function at an address on a node. -/
  callClose : ℕ → ℕ → Machine → Option (ℕ × Machine)
  /-- Both run functions of the module. -/
  moduleLoadBinary : List UInt8 → ℕ → ℕ → Machine → Option (ℕ × Machine)
  moduleUnloadBinary : List UInt8 → Machine → Option (ℕ × Machine)

/-! ## Reading and writing for the caller -/

def readByteAt (s : VmState) (va : ℕ) : Option UInt8 := readByte s (wrap va)

def readWord (s : VmState) (va : ℕ) : Option ℕ :=
  (readByteAt s va).bind (fun b0 => (readByteAt s (va+1)).bind (fun b1 =>
    (readByteAt s (va+2)).bind (fun b2 => (readByteAt s (va+3)).map (fun b3 =>
      b0.toNat + b1.toNat*256 + b2.toNat*65536 + b3.toNat*16777216))))

/-- The string at `va`; no string outlives the bound. -/
def readString (s : VmState) (va : ℕ) : ℕ → Option (List UInt8)
  | 0 => none
  | fuel+1 => (readByteAt s va).bind (fun c =>
      if c = 0 then some [] else (readString s (va+1) fuel).map (fun rest => c :: rest))

def stringBound : ℕ := 4294967297

def storeWord (s : VmState) (va v : ℕ) : Option VmState := storeBytes s va (fun i => v / 256^i % 256) 0 4

def storeString (s : VmState) (va : ℕ) (bytes : List UInt8) : Option VmState :=
  storeBytes s va (fun i => (bytes.getD i 0).toNat) 0 bytes.length

/-! ## The calls -/

def sysExit (m : Machine) (code : ℕ) : Option (ℕ × Machine) :=
  (processExit m.kernel code).map (fun r => (0, { m with kernel := r.1 }))

/-- The two copies of the parent's data go to the new blocks. -/
def sysForkIn (m : Machine) : Option (ℕ × Machine) :=
  if m.kernel.currentProcess = 0 then some (minusOne, m)
  else
    (kmallocIn m processSize).bind (fun r =>
      if r.1 = 0 then some (minusOne, r.2)
      else
        let parent := r.2.kernel.procs r.2.kernel.currentProcess
        (kmallocIn r.2 kernelStackSize).map (fun k =>
          let child := forkedRecord parent r.2.kernel.currentProcess k.1
          (child.pid,
            { k.2 with
              vm := { k.2.vm with
                mem := if k.1 ≠ 0 then memcpy k.2.vm.mem k.1 parent.kernelStack kernelStackSize else k.2.vm.mem }
              kernel := k.2.kernel.put r.1 child })))

/-- The loop of `sys_read` from index `i` on. -/
def readKeys (s : VmState) (buf : ℕ) (keys : List UInt8) (i : ℕ) : ℕ → Option (ℕ × VmState)
  | 0 => some (i, s)
  | n+1 =>
    match keys with
    | [] => none
    | c::rest =>
      if c = 0 then some (i, s)
      else
        (storeByte s (buf+i) c.toNat).bind (fun s =>
          if c = 10 ∨ c = 13 then some (i+1, s) else readKeys s buf rest (i+1) n)

def sysRead (e : Env) (m : Machine) (fd buf len : ℕ) : Option (ℕ × Machine) :=
  if buf = 0 ∨ len = 0 then some (0, m)
  else if fd = 0 then (readKeys m.vm buf e.keys 0 len).map (fun r => (r.1, { m with vm := r.2 }))
  else some (minusOne, m)

/-- Only what the call returns; the characters go to the screen. -/
def sysWrite (m : Machine) (fd buf len : ℕ) : ℕ × Machine :=
  if buf = 0 then (minusOne, m) else if fd = 1 ∨ fd = 2 then (len, m) else (minusOne, m)

def sysOpen (e : Env) (m : Machine) (path : ℕ) : Option (ℕ × Machine) :=
  if path = 0 then some (minusOne, m)
  else
    (readString m.vm path stringBound).map (fun s =>
      (if e.vfsOpen s = 0 then minusOne else e.vfsOpen s, m))

/-- Offsets of `ops` in a node and of `close` in the table it names. -/
def nodeOps : ℕ := 156
def opsClose : ℕ := 12

def sysClose (e : Env) (m : Machine) (node : ℕ) : Option (ℕ × Machine) :=
  if node = 0 then some (0, m)
  else
    (readWord m.vm (node+nodeOps)).bind (fun ops =>
      if ops = 0 then some (0, m)
      else
        (readWord m.vm (ops+opsClose)).bind (fun close =>
          if close = 0 then some (0, m) else e.callClose close node m))

/-- `process_destroy`: the stack's block and the record's block go back to the heap. -/
def processDestroyIn (m : Machine) (p : ℕ) : Option Machine :=
  (unlinkProcess m.kernel p).bind (fun k =>
    let m := { m with kernel := k }
    (if (k.procs p).kernelStack ≠ 0 then kfreeIn m (k.procs p).kernelStack else some m).bind (fun m =>
      kfreeIn { m with kernel := m.kernel.put p { m.kernel.procs p with state := .dead } } p))

/-- A process that has not ended is waited for. -/
def sysWaitpid (m : Machine) (pid status : ℕ) : Option (ℕ × Machine) :=
  (findProcess m.kernel pid).bind (fun p =>
    if p = 0 then some (minusOne, m)
    else if (m.kernel.procs p).state ≠ .zombie ∧ (m.kernel.procs p).state ≠ .dead then none
    else
      (if status ≠ 0 then storeWord m.vm status (m.kernel.procs p).exitCode else some m.vm).bind (fun s =>
        (processDestroyIn { m with vm := s } p).map (fun m => (pid, m))))

def sysExecAt (e : Env) (m : Machine) (path : ℕ) : Option (ℕ × Machine) :=
  if path = 0 then some (minusOne, m)
  else (readString m.vm path stringBound).bind (fun s => sysExec m (some s) (e.initrdGetFile s))

/-- The heap limits of the current process. -/
def heapOf (m : Machine) : Option UserHeap :=
  if m.kernel.currentProcess = 0 then none
  else some ⟨(m.kernel.procs m.kernel.currentProcess).brk, (m.kernel.procs m.kernel.currentProcess).brkMax⟩

def sysSbrkIn (m : Machine) (increment : ℕ) : ℕ × Machine :=
  let r := sysSbrk ⟨m.vm, heapOf m⟩ increment
  let p := m.kernel.currentProcess
  (r.1,
    { m with
      vm := r.2.vm
      kernel :=
        match r.2.currentProcess with
        | none => m.kernel
        | some h => m.kernel.put p { m.kernel.procs p with brk := h.brk, brkMax := h.brkMax } })

def sysGetpid (m : Machine) : ℕ :=
  if m.kernel.currentProcess = 0 then 0 else (m.kernel.procs m.kernel.currentProcess).pid

def sysGetppid (m : Machine) : ℕ :=
  let p := m.kernel.currentProcess
  if p = 0 ∨ (m.kernel.procs p).parent = 0 then 0 else (m.kernel.procs (m.kernel.procs p).parent).pid

def sysKill (m : Machine) (pid sig : ℕ) : Option (ℕ × Machine) :=
  (findProcess m.kernel pid).map (fun p =>
    if p = 0 then (minusOne, m)
    else if sig = 9 then (0, { m with kernel := killProcess m.kernel p })
    else (minusOne, m))

def sysGettimeofday (e : Env) (m : Machine) (tv : ℕ) : Option (ℕ × Machine) :=
  if tv = 0 then some (minusOne, m)
  else
    (storeWord m.vm tv e.unixTime).bind (fun s =>
      (storeWord s (tv+4) 0).map (fun s => (0, { m with vm := s })))

/-- "Dionnex" -/
def unameSysname : List UInt8 := [68, 105, 111, 110, 110, 101, 120]

/-- "0.1" -/
def unameRelease : List UInt8 := [48, 46, 49]

/-- "i686" -/
def unameMachine : List UInt8 := [105, 54, 56, 54]

/-- The 64 bytes that `strncpy` stores. -/
def unameField (s : List UInt8) : List UInt8 := strncpy 64 (List.replicate 64 0) s

def sysUname (m : Machine) (buf : ℕ) : Option (ℕ × Machine) :=
  if buf = 0 then some (minusOne, m)
  else
    (storeString m.vm buf (unameField unameSysname)).bind (fun s =>
      (storeString s (buf+65) (unameField unameRelease)).bind (fun s =>
        (storeString s (buf+130) (unameField unameMachine)).map (fun s => (0, { m with vm := s }))))

def sysInitModule (e : Env) (m : Machine) (buf size name : ℕ) : Option (ℕ × Machine) :=
  if buf = 0 ∨ size = 0 ∨ name = 0 then some (minusOne, m)
  else (readString m.vm name stringBound).bind (fun s => e.moduleLoadBinary s buf size m)

def sysDeleteModule (e : Env) (m : Machine) (name : ℕ) : Option (ℕ × Machine) :=
  if name = 0 then some (minusOne, m)
  else (readString m.vm name stringBound).bind (fun s => e.moduleUnloadBinary s m)

/-- The entries of the system call table. -/
inductive Syscall where
  | exit | fork | read | write | open | close | waitpid | exec | sbrk | getpid | getppid | kill | mmap
  | munmap | gettimeofday | uname | nanosleep | initModule | deleteModule | queryModule
  deriving DecidableEq, Repr

def syscallTable : ℕ → Option Syscall
  | 1 => some .exit
  | 2 => some .fork
  | 3 => some .read
  | 4 => some .write
  | 5 => some .open
  | 6 => some .close
  | 7 => some .waitpid
  | 11 => some .exec
  | 12 => some .sbrk
  | 20 => some .getpid
  | 21 => some .getppid
  | 22 => some .kill
  | 23 => some .mmap
  | 24 => some .munmap
  | 78 => some .gettimeofday
  | 122 => some .uname
  | 162 => some .nanosleep
  | 175 => some .initModule
  | 176 => some .deleteModule
  | 177 => some .queryModule
  | 252 => some .exit
  | _ => none

/-- A call with the contents of `ebx`, `ecx` and `edx`; no call looks at the other two arguments. -/
def perform (e : Env) (m : Machine) (a b c : ℕ) : Syscall → Option (ℕ × Machine)
  | .exit => sysExit m a
  | .fork => sysForkIn m
  | .read => sysRead e m a b c
  | .write => some (sysWrite m a b c)
  | .open => sysOpen e m a
  | .close => sysClose e m a
  | .waitpid => sysWaitpid m a b
  | .exec => sysExecAt e m a
  | .sbrk => some (sysSbrkIn m a)
  | .getpid => some (sysGetpid m, m)
  | .getppid => some (sysGetppid m, m)
  | .kill => sysKill m a b
  | .mmap => some ((sysMmap m.vm a b).1, { m with vm := (sysMmap m.vm a b).2 })
  | .munmap => some ((sysMunmap m.vm a b).1, { m with vm := (sysMunmap m.vm a b).2 })
  | .gettimeofday => sysGettimeofday e m a
  | .uname => sysUname m a
  | .nanosleep => some (0, m)
  | .initModule => sysInitModule e m a b c
  | .deleteModule => sysDeleteModule e m a
  | .queryModule => some (0, m)

/-- What `eax` holds afterwards, and the machine. -/
def syscallHandler (e : Env) (m : Machine) (num a b c : ℕ) : Option (ℕ × Machine) :=
  if num < maxSyscalls then
    match syscallTable num with
    | some call => perform e m a b c call
    | none => some (minusOne, m)
  else some (minusOne, m)

end Dionnex.Syscalls
