import Dionnex.ByteMemory
import Dionnex.ProcessLists

/-!
# sys_fork and the process table

The child is a byte copy of the parent with a pid of its own scheme,
`parent->pid + 1000`, and a copy of the kernel stack. The code never links
it into the process list. `blocks` are the live blocks of the heap: a call of
`kmalloc` answers NULL and changes nothing, or the address of a new block.
A fork keeps its promise only when it makes no child, or makes one whose pid
is negative as a return value.
-/

set_option autoImplicit false

namespace Dionnex.ProcessFork
open ByteMemory LabelledRuns LinkedChain Dionnex.Process Dionnex.ProcessLists

def minusOne : ℕ := 0xFFFFFFFF

structure System where
  kernel : Kernel
  mem : Mem
  blocks : List ℕ

def forkedRecord (parent : Record) (current stack : ℕ) : Record :=
  let r := { parent with pid := wrap (parent.pid+1000), parent := current, kernelStack := stack }
  let r := if stack ≠ 0 then { r with esp0 := wrap (stack+8192) } else r
  { r with state := .ready }

/-- `child` and `stack` are the answers of the two calls of `kmalloc`. -/
def sysFork (s : System) (child stack : ℕ) : ℕ × System :=
  if s.kernel.currentProcess = 0 then (minusOne, s)
  else if child = 0 then (minusOne, s)
  else
    let parent := s.kernel.procs s.kernel.currentProcess
    let r := forkedRecord parent s.kernel.currentProcess stack
    (r.pid,
      { kernel := s.kernel.put child r
        mem := if stack ≠ 0 then memcpy s.mem stack parent.kernelStack 8192 else s.mem
        blocks := (if stack ≠ 0 then [stack] else []) ++ child :: s.blocks })

/-- A process that is not created leaves no block behind. -/
def createBlocks (s : System) (name : Option (List UInt8)) (res : Resources) : List ℕ :=
  if (processCreate s.kernel name res).1 = 0 then s.blocks else res.kernelStack :: res.proc :: s.blocks

inductive Event where
  | create (name : Option (List UInt8)) (res : Resources)
  | fork (child stack ret : ℕ)
  | schedule

/-- What `kmalloc` answers is NULL or a new block. -/
def NewBlock (s : System) (p : ℕ) : Prop := p ≠ 0 → p ∉ s.blocks ∧ p < wordMod

def Step (s : System) : Event → System → Prop
  | .create name res, t => NewBlock s res.proc ∧ NewBlock s res.kernelStack ∧
      t.kernel = (processCreate s.kernel name res).2 ∧ t.mem = s.mem ∧ t.blocks = createBlocks s name res
  | .fork child stack ret, t => NewBlock s child ∧ NewBlock s stack ∧
      (stack ≠ 0 → stack ≠ child) ∧ (ret, t) = sysFork s child stack
  | .schedule, t => (scheduleProcess s.kernel).map Prod.fst = some t.kernel ∧ t.mem = s.mem ∧
      t.blocks = s.blocks

/-- The process is on the process list. -/
def Listed (k : Kernel) (p : ℕ) : Prop := ∃ l, Chain k.next k.procList l ∧ p ∈ l

/-- The child of a fork that returned `pid`. -/
structure Child (s : System) (pid : ℕ) (t : System) (c : ℕ) : Prop where
  new : c ≠ 0 ∧ c ∉ s.blocks ∧ c ∈ t.blocks
  found : findProcess t.kernel pid = some c
  ready : (t.kernel.procs c).state = .ready
  ownPid : (t.kernel.procs c).pid = pid
  unique : ∀ p, Listed t.kernel p → p ≠ c → (t.kernel.procs p).pid ≠ pid
  stack : (t.kernel.procs c).kernelStack ∉ s.blocks ∧ (t.kernel.procs c).kernelStack ∈ t.blocks
  copied : ∀ i < 8192, t.mem (wrap ((t.kernel.procs c).kernelStack + i)) =
    s.mem (wrap ((s.kernel.procs s.kernel.currentProcess).kernelStack + i))

/-- A pid that is not negative belongs to a child; a refused allocation leaves no trace. -/
def Kept (s : System) : Event → System → Prop
  | .fork child stack ret, t =>
      (ret < 2147483648 → (∃ c, Child s ret t c) ∧
        t.kernel.procs s.kernel.currentProcess = s.kernel.procs s.kernel.currentProcess) ∧
      (child = 0 ∨ stack = 0 → s.kernel.currentProcess ≠ 0 → ret = minusOne ∧ t.blocks = s.blocks)
  | _, _ => True

/-- The fork makes no child, or one whose pid does not fit a positive return value. -/
def Harmless (s : System) : Event → System → Prop
  | .fork child stack _, _ => s.kernel.currentProcess = 0 ∨ child = 0 ∨
      (stack ≠ 0 ∧ 2147483648 ≤ wrap ((s.kernel.procs s.kernel.currentProcess).pid + 1000))
  | _, _ => True

/-- The process list ends, and its processes are live blocks. -/
def Inv (s : System) : Prop :=
  ∃ l, Chain s.kernel.next s.kernel.procList l ∧ ∀ p ∈ l, p ∈ s.blocks

theorem put_chain {k : Kernel} {l : List ℕ} {p head : ℕ} (r : Record) (hl : Chain k.next head l)
    (hp : p ∉ l) : Chain (k.put p r).next head l := by
  rw [put_next]
  exact seg_update hp hl

theorem create_inv {s t : System} {name : Option (List UInt8)} {res : Resources} (hs : Inv s)
    (h : Step s (.create name res) t) : Inv t := by
  obtain ⟨hproc, -, hk, -, hb⟩ := h
  obtain ⟨l, hl, hlive⟩ := hs
  unfold createBlocks at hb
  have hout : res.proc ≠ 0 → res.proc ∉ l := fun h0 hin => (hproc h0).1 (hlive _ hin)
  rcases create_result s.kernel name res with he | ⟨h0, r, he⟩ | ⟨h0, r, hnext, he⟩
  · rw [he] at hk hb
    rw [if_pos rfl] at hb
    refine ⟨l, ?_, ?_⟩
    · rw [hk]
      exact hl
    · rw [hb]
      exact hlive
  · rw [he] at hk hb
    rw [if_pos rfl] at hb
    refine ⟨l, ?_, ?_⟩
    · rw [hk]
      exact put_chain r hl (hout h0)
    · rw [hb]
      exact hlive
  · rw [he] at hk hb
    rw [if_neg h0] at hb
    refine ⟨res.proc::l, ?_, ?_⟩
    · rw [hk]
      change Chain (Kernel.put { s.kernel with nextPid := (s.kernel.nextPid+1) % wordMod } res.proc r).next
        res.proc (res.proc::l)
      rw [put_next, hnext]
      exact chain_push hl (hout h0) h0
    · intro p hp
      rw [hb]
      rcases List.mem_cons.mp hp with rfl | hp
      · exact List.mem_cons_of_mem _ List.mem_cons_self
      · exact List.mem_cons_of_mem _ (List.mem_cons_of_mem _ (hlive p hp))

theorem schedule_inv {s t : System} (hs : Inv s) (h : Step s .schedule t) : Inv t := by
  obtain ⟨hk, -, hb⟩ := h
  obtain ⟨l, hl, hlive⟩ := hs
  obtain ⟨r, hr, hrk⟩ := Option.map_eq_some_iff.mp hk
  have hsame : SameLists s.kernel t.kernel := by
    rw [← hrk]
    unfold scheduleProcess at hr
    by_cases hq : s.kernel.schedQueue = 0
    · rw [if_pos hq] at hr
      obtain rfl := Option.some.inj hr
      exact SameLists.refl _
    · rw [if_neg hq] at hr
      obtain ⟨b, -, rfl⟩ := Option.map_eq_some_iff.mp hr
      by_cases hb0 : b = 0
      · rw [if_pos hb0]
        exact SameLists.refl _
      · rw [if_neg hb0]
        exact (demote_sameLists s.kernel).trans (dispatch_sameLists _ b)
  refine ⟨l, ?_, ?_⟩
  · rw [hsame.next, hsame.procList]
    exact hl
  · rw [hb]
    exact hlive

/-- The child's record lies outside the list, so the list is the same. -/
theorem fork_inv {s t : System} {child stack ret : ℕ} (hs : Inv s)
    (h : Step s (.fork child stack ret) t) : Inv t := by
  obtain ⟨hchild, -, -, hcall⟩ := h
  unfold sysFork at hcall
  by_cases hcur : s.kernel.currentProcess = 0
  · rw [if_pos hcur] at hcall
    obtain ⟨-, rfl⟩ := Prod.mk.inj hcall
    exact hs
  · by_cases h0 : child = 0
    · rw [if_neg hcur, if_pos h0] at hcall
      obtain ⟨-, rfl⟩ := Prod.mk.inj hcall
      exact hs
    · rw [if_neg hcur, if_neg h0] at hcall
      obtain ⟨-, rfl⟩ := Prod.mk.inj hcall
      obtain ⟨l, hl, hlive⟩ := hs
      refine ⟨l, put_chain _ hl (fun hin => (hchild h0).1 (hlive _ hin)), fun p hp => ?_⟩
      exact List.mem_append_right _ (List.mem_cons_of_mem _ (hlive p hp))

/-- What a fork that gets its record answers, and the blocks it leaves. -/
theorem fork_made {s t : System} {child stack ret : ℕ} (h : Step s (.fork child stack ret) t)
    (hcur : s.kernel.currentProcess ≠ 0) (h0 : child ≠ 0) :
    ret = wrap ((s.kernel.procs s.kernel.currentProcess).pid + 1000) ∧
      t.blocks = (if stack ≠ 0 then [stack] else []) ++ child :: s.blocks := by
  obtain ⟨-, -, -, hcall⟩ := h
  unfold sysFork at hcall
  rw [if_neg hcur, if_neg h0] at hcall
  obtain ⟨hret, rfl⟩ := Prod.mk.inj hcall
  refine ⟨hret.trans ?_, rfl⟩
  unfold forkedRecord
  dsimp only
  split
  · rfl
  · rfl

/-- The child is on no list, so no lookup finds it. -/
theorem fork_not_found {s t : System} {child stack ret pid c : ℕ} (hs : Inv s)
    (h : Step s (.fork child stack ret) t) (hnew : c ∉ s.blocks) (h0 : c ≠ 0) :
    findProcess t.kernel pid ≠ some c := by
  intro hfound
  have ht := fork_inv hs h
  obtain ⟨hchild, -, -, hcall⟩ := h
  obtain ⟨l, hl, hlive⟩ := hs
  obtain ⟨l', hl', -⟩ := ht
  rcases find_mem t.kernel pid walkBound t.kernel.procList c l' hl' hfound with hc | hc
  · exact h0 hc
  · have hsame : l' = l := by
      unfold sysFork at hcall
      by_cases hcur : s.kernel.currentProcess = 0
      · rw [if_pos hcur] at hcall
        obtain ⟨-, rfl⟩ := Prod.mk.inj hcall
        exact chain_unique hl' hl
      · by_cases hc0 : child = 0
        · rw [if_neg hcur, if_pos hc0] at hcall
          obtain ⟨-, rfl⟩ := Prod.mk.inj hcall
          exact chain_unique hl' hl
        · rw [if_neg hcur, if_neg hc0] at hcall
          obtain ⟨-, rfl⟩ := Prod.mk.inj hcall
          exact chain_unique hl' (put_chain _ hl (fun hin => (hchild hc0).1 (hlive _ hin)))
    rw [hsame] at hc
    exact hnew (hlive c hc)

theorem fork_kept {s t : System} {child stack ret : ℕ} (h : Step s (.fork child stack ret) t)
    (hok : Harmless s (.fork child stack ret) t) : Kept s (.fork child stack ret) t := by
  by_cases hcur : s.kernel.currentProcess = 0
  · obtain ⟨-, -, -, hcall⟩ := h
    unfold sysFork at hcall
    rw [if_pos hcur] at hcall
    obtain ⟨hret, -⟩ := Prod.mk.inj hcall
    refine ⟨fun hlt => ?_, fun _ hne => absurd hcur hne⟩
    rw [hret] at hlt
    exact absurd hlt (by decide)
  · by_cases h0 : child = 0
    · obtain ⟨-, -, -, hcall⟩ := h
      unfold sysFork at hcall
      rw [if_neg hcur, if_pos h0] at hcall
      obtain ⟨hret, rfl⟩ := Prod.mk.inj hcall
      refine ⟨fun hlt => ?_, fun _ _ => ⟨hret, rfl⟩⟩
      rw [hret] at hlt
      exact absurd hlt (by decide)
    · obtain ⟨hstack, hpid⟩ := (hok.resolve_left hcur).resolve_left h0
      obtain ⟨hret, -⟩ := fork_made h hcur h0
      refine ⟨fun hlt => ?_, fun hno _ => (hno.elim h0 hstack).elim⟩
      rw [hret] at hlt
      exact absurd hlt (Nat.not_lt.mpr hpid)

theorem fork_harmless {s t : System} {child stack ret : ℕ} (hs : Inv s)
    (h : Step s (.fork child stack ret) t) (hk : Kept s (.fork child stack ret) t) :
    Harmless s (.fork child stack ret) t := by
  by_cases hcur : s.kernel.currentProcess = 0
  · exact Or.inl hcur
  · by_cases h0 : child = 0
    · exact Or.inr (Or.inl h0)
    · obtain ⟨hret, hblocks⟩ := fork_made h hcur h0
      obtain ⟨hpositive, hrefused⟩ := hk
      have hstack : stack ≠ 0 := by
        intro hz
        have hsame := (hrefused (Or.inr hz) hcur).2
        have hlength := congrArg List.length (hblocks.symm.trans hsame)
        rw [hz] at hlength
        simp at hlength
      refine Or.inr (Or.inr ⟨hstack, ?_⟩)
      by_contra hlt
      rw [← hret] at hlt
      obtain ⟨⟨c, hc⟩, -⟩ := hpositive (Nat.not_le.mp hlt)
      exact fork_not_found hs h hc.new.2.1 hc.new.1 hc.found

/-- A run of creations and forks keeps the promise of every fork exactly when no fork makes a child
with a positive pid or gives up after the child's record. -/
theorem forks_kept_iff (s : System) (hs : Inv s) (tr : List (Event × System)) (hr : Run Step s tr) :
    Along Kept s tr ↔ Along Harmless s tr := by
  have hstep : ∀ s e t, Inv s → Step s e t → Inv t := by
    intro s e t hs h
    cases e with
    | create name res => exact create_inv hs h
    | fork child stack ret => exact fork_inv hs h
    | schedule => exact schedule_inv hs h
  refine run_guard_exact (I := Inv) ?_ ?_ s tr hs hr
  · intro s e t hs h hok
    refine ⟨hstep s e t hs h, ?_⟩
    cases e with
    | create name res => trivial
    | fork child stack ret => exact fork_kept h hok
    | schedule => trivial
  · intro s e t hs h hk
    cases e with
    | create name res => trivial
    | fork child stack ret => exact fork_harmless hs h hk
    | schedule => trivial

/-- The process 1 runs, alone on the list. -/
def sampleKernel : Kernel where
  procs := Function.update (fun _ => blankRecord) 0x4000
    { blankRecord with pid := 1, state := .running, kernelStack := 0x5000, esp0 := 0x7000 }
  procList := 0x4000
  schedQueue := 0x4000
  currentProcess := 0x4000
  nextPid := 2
  tssEsp0 := 0x7000

def sampleSystem : System := ⟨sampleKernel, fun _ => 0, [0x4000, 0x5000]⟩

theorem sampleSystem_inv : Inv sampleSystem :=
  ⟨[0x4000], ⟨rfl, by decide, rfl⟩, by decide⟩

def forkCall (s : System) (child stack : ℕ) : Event × System :=
  (.fork child stack (sysFork s child stack).1, (sysFork s child stack).2)

theorem sampleFork_step : Step sampleSystem (forkCall sampleSystem 0x8000 0x9000).1
    (forkCall sampleSystem 0x8000 0x9000).2 :=
  ⟨fun _ => ⟨by decide, by decide⟩, fun _ => ⟨by decide, by decide⟩, fun _ => by decide, rfl⟩

theorem forks_kept_iff_sample :
    Along Kept sampleSystem [forkCall sampleSystem 0x8000 0x9000] ↔
      Along Harmless sampleSystem [forkCall sampleSystem 0x8000 0x9000] :=
  forks_kept_iff sampleSystem sampleSystem_inv _ ⟨sampleFork_step, trivial⟩

/-- The fork returns pid 1001, and no process has that pid afterwards. -/
theorem child_is_lost :
    Run Step sampleSystem [forkCall sampleSystem 0x8000 0x9000] ∧
    (sysFork sampleSystem 0x8000 0x9000).1 = 1001 ∧
    findProcess (sysFork sampleSystem 0x8000 0x9000).2.kernel 1001 = some 0 ∧
    ¬ Along Kept sampleSystem [forkCall sampleSystem 0x8000 0x9000] := by
  have hlost : findProcess (sysFork sampleSystem 0x8000 0x9000).2.kernel 1001 = some 0 := by
    decide +kernel
  refine ⟨⟨sampleFork_step, trivial⟩, by decide, hlost, fun h => ?_⟩
  obtain ⟨⟨c, hc⟩, -⟩ := h.1.1 (by decide)
  exact hc.new.1 (Option.some.inj (hc.found.symm.trans hlost))

end Dionnex.ProcessFork
