import Dionnex.ProcessLists

/-!
# The process scheduler over whole runs

The queue is the list of all processes that were added, newest first.
`schedule_process` takes the first ready process of least `vruntime`, and a
process is entered for the first time when its `vruntime` is still zero.
Runs mix creation, `sched_proc_add`, scheduling, ticks, exits and kills.
-/

set_option autoImplicit false

namespace Dionnex.ProcessScheduler
open LabelledRuns LinkedChain Dionnex.Process Dionnex.ProcessLists

inductive Event where
  | create (name : Option (List UInt8)) (res : Resources)
  | add (p : ℕ)
  | schedule
  | tick
  | exit (code : ℕ)
  | kill (pid sig : ℕ)

/-- `fresh` holds the processes that were created and not yet added. -/
structure System where
  kernel : Kernel
  fresh : List ℕ
  queue : List ℕ

/-- The kernel afterwards, and where user mode is entered for the first time. -/
def perform (k : Kernel) : Event → Option (Kernel × Option (ℕ × ℕ))
  | .create name res => some ((processCreate k name res).2, none)
  | .add p => some (schedProcAdd k p, none)
  | .schedule => scheduleProcess k
  | .tick => schedProcTick k
  | .exit code => processExit k code
  | .kill pid sig => (findProcess k pid).map (fun p => (if sig = 9 then killProcess k p else k, none))

/-- A created process lies in memory that no other process uses, and only created processes are added. -/
def Allowed (s : System) : Event → Prop
  | .create _ res => res.proc ≠ 0 → res.proc ∉ s.fresh ∧ res.proc ∉ s.queue ∧ res.proc < wordMod
  | .add p => p ∈ s.fresh
  | _ => True

def freshAfter (s : System) : Event → List ℕ
  | .create name res =>
    if (processCreate s.kernel name res).1 = 0 then s.fresh
    else (processCreate s.kernel name res).1 :: s.fresh
  | .add p => s.fresh.filter (fun q => q ≠ p)
  | _ => s.fresh

def queueAfter (s : System) : Event → List ℕ
  | .add p => p :: s.queue
  | _ => s.queue

def Step (s : System) (e : Event) (t : System) : Prop :=
  Allowed s e ∧ (∃ r, perform s.kernel e = some r ∧ t.kernel = r.1) ∧ t.fresh = freshAfter s e ∧
    t.queue = queueAfter s e

/-- After `process_init` and `sched_proc_init`. -/
def booted (procs : ℕ → Record) (tssEsp0 : ℕ) : System := ⟨⟨procs, 0, 0, 0, 1, tssEsp0⟩, [], []⟩

/-- The current process after the ten units of `sched_proc_tick`. -/
def charged (k : Kernel) : Kernel :=
  k.put k.currentProcess { k.procs k.currentProcess with
    vruntime := ((k.procs k.currentProcess).vruntime + 10) % wordMod }

/-- The current process as `process_exit` marks it. -/
def exited (k : Kernel) (code : ℕ) : Kernel :=
  k.put k.currentProcess { k.procs k.currentProcess with exitCode := code % wordMod, state := .zombie }

def Running (k : Kernel) : Prop := k.currentProcess ≠ 0 ∧ (k.procs k.currentProcess).state = .running

instance (k : Kernel) : Decidable (Running k) := inferInstanceAs (Decidable (_ ∧ _))

/-- The kernel at the event's call of `schedule_process`. -/
def called (k : Kernel) : Event → Option Kernel
  | .schedule => some k
  | .tick => if Running k then some (charged k) else none
  | .exit code => if k.currentProcess = 0 then none else some (exited k code)
  | _ => none

def readyIn (k : Kernel) (queue : List ℕ) : List ℕ := queue.filter (fun p => (k.procs p).state = .ready)

/-- The first of the ready processes with the least `vruntime`. -/
def best (k : Kernel) (queue : List ℕ) : Option ℕ :=
  (readyIn k queue).argmin (fun p => (k.procs p).vruntime)

/-- What the kernel is at the call: as it was, or with its current process charged or exited. -/
theorem called_cases {k k' : Kernel} {e : Event} (h : called k e = some k') :
    (e = .schedule ∧ k' = k) ∨ (e = .tick ∧ Running k ∧ k' = charged k) ∨
    ∃ code, e = .exit code ∧ k.currentProcess ≠ 0 ∧ k' = exited k code := by
  cases e with
  | schedule => exact Or.inl ⟨rfl, (Option.some.inj h).symm⟩
  | tick =>
    change (if Running k then some (charged k) else none) = some k' at h
    split at h
    · rename_i hrun
      exact Or.inr (Or.inl ⟨rfl, hrun, (Option.some.inj h).symm⟩)
    · cases h
  | exit code =>
    change (if k.currentProcess = 0 then none else some (exited k code)) = some k' at h
    split at h
    · cases h
    · rename_i hcur
      exact Or.inr (Or.inr ⟨code, rfl, hcur, (Option.some.inj h).symm⟩)
  | _ => cases h

theorem perform_called (k : Kernel) (e : Event) (k' : Kernel) (h : called k e = some k') :
    perform k e = scheduleProcess k' := by
  rcases called_cases h with ⟨rfl, rfl⟩ | ⟨rfl, hrun, rfl⟩ | ⟨code, rfl, hcur, rfl⟩
  · rfl
  · exact if_pos hrun
  · exact if_neg hcur

/-! ## The choice -/

section Choice

variable {k : Kernel} {l : List ℕ}

/-- The loop of `schedule_process` folds the queue as `List.argmin` does. -/
theorem pickBest_fold {fuel curr cand : ℕ} (hl : Chain k.next curr l) (hf : l.length < fuel) :
    pickBest k fuel curr cand = some (((readyIn k l).foldl
      (List.argAux (fun p q => (k.procs p).vruntime < (k.procs q).vruntime))
      (if cand = 0 then none else some cand)).getD 0) := by
  induction l generalizing fuel curr cand with
  | nil =>
    obtain ⟨fuel, rfl⟩ := Nat.exists_eq_succ_of_ne_zero (Nat.ne_of_gt hf)
    obtain rfl : curr = 0 := hl
    rw [pickBest, if_pos rfl]
    by_cases h0 : cand = 0
    · simp [readyIn, h0]
    · simp [readyIn, h0]
  | cons x l ih =>
    obtain ⟨fuel, rfl⟩ := Nat.exists_eq_succ_of_ne_zero (Nat.ne_of_gt (Nat.zero_lt_of_lt hf))
    obtain ⟨rfl, h0, hrest⟩ := hl
    rw [pickBest, if_neg h0, ih hrest (by simpa using hf)]
    by_cases hready : (k.procs curr).state = .ready
    · have hcons : readyIn k (curr::l) = curr :: readyIn k l := by simp [readyIn, hready]
      rw [hcons, List.foldl_cons]
      by_cases hc : cand = 0
      · simp [hready, hc, h0, List.argAux]
      · by_cases hlt : (k.procs curr).vruntime < (k.procs cand).vruntime
        · simp [hready, hc, h0, hlt, List.argAux]
        · simp [hready, hc, hlt, List.argAux]
    · simp [readyIn, hready]

theorem pickBest_best {fuel : ℕ} (hl : Chain k.next k.schedQueue l) (hf : l.length < fuel) :
    pickBest k fuel k.schedQueue 0 = some ((best k l).getD 0) := by
  rw [pickBest_fold hl hf]
  rfl

theorem best_mem {p : ℕ} (h : best k l = some p) : p ∈ l ∧ (k.procs p).state = .ready := by
  have hmem := List.argmin_mem h
  simpa [readyIn] using hmem

theorem best_le {p q : ℕ} (h : best k l = some p) (hq : q ∈ l) (hr : (k.procs q).state = .ready) :
    (k.procs p).vruntime ≤ (k.procs q).vruntime := by
  have hin : q ∈ readyIn k l := by simpa [readyIn] using And.intro hq hr
  exact List.le_of_mem_argmin (f := fun p => (k.procs p).vruntime) hin h

theorem best_none : best k l = none ↔ ∀ p ∈ l, (k.procs p).state ≠ .ready := by
  unfold best readyIn
  rw [List.argmin_eq_none, List.filter_eq_nil_iff]
  simp

/-- What `schedule_process` does to a queue that ends. -/
theorem schedule_spec (hl : Chain k.next k.schedQueue l) (hb : ∀ p ∈ l, p < wordMod) :
    scheduleProcess k = some (match best k l with
      | none => (k, none)
      | some p => dispatch (demoteCurrent k) p) := by
  have hlen := chain_length hl hb
  have hpick := pickBest_best hl (Nat.lt_of_le_of_lt hlen (show wordMod < walkBound by decide))
  unfold scheduleProcess
  by_cases hq : k.schedQueue = 0
  · obtain rfl : l = [] := by
      cases l with
      | nil => rfl
      | cons x l => exact absurd (hl.1.symm.trans hq) hl.2.1
    rw [if_pos hq]
    rfl
  · rw [if_neg hq, hpick, Option.map_some]
    cases hbest : best k l with
    | none => rfl
    | some p =>
      have hp0 : p ≠ 0 := seg_ne_zero hl p (best_mem hbest).1
      rw [Option.getD_some, if_neg hp0]

/-! ## What scheduling does to the records -/

theorem demote_procs (k : Kernel) : (demoteCurrent k).procs =
    if Running k then Function.update k.procs k.currentProcess { k.procs k.currentProcess with state := .ready }
    else k.procs := by
  unfold demoteCurrent
  by_cases h : Running k
  · rw [if_pos h, if_pos (show _ ∧ _ from h)]
    rfl
  · rw [if_neg h, if_neg (show ¬ (_ ∧ _) from h)]

theorem dispatch_eq (k : Kernel) (p : ℕ) : (dispatch k p).1 =
    { k.put p { k.procs p with
        state := .running, vruntime := if (k.procs p).vruntime = 0 then 1 else (k.procs p).vruntime } with
      currentProcess := p, tssEsp0 := (k.procs p).esp0 } := by
  unfold dispatch
  by_cases h : (k.procs p).vruntime = 0
  · simp [h, Kernel.put]
  · simp [h, Kernel.put]

theorem dispatch_entry (k : Kernel) (p : ℕ) : (dispatch k p).2 =
    if (k.procs p).vruntime = 0 then some ((k.procs p).userEip, (k.procs p).userEsp) else none := by
  unfold dispatch
  by_cases h : (k.procs p).vruntime = 0
  · simp [h, Kernel.put]
  · simp [h, Kernel.put]

end Choice

/-! ## What every state satisfies -/

/-- A process that has started has an odd `vruntime`. -/
def Turn (r : Record) : Prop := r.vruntime % 2 = 1 ∨ r.vruntime = 0 ∧ r.state ≠ .running

/-- The queue and its records; only the current process runs. -/
structure Queued (k : Kernel) (l : List ℕ) : Prop where
  chain : Chain k.next k.schedQueue l
  bound : ∀ p ∈ l, p < wordMod
  current : k.currentProcess = 0 ∨ k.currentProcess ∈ l
  running : ∀ p ∈ l, (k.procs p).state = .running → p = k.currentProcess
  turns : ∀ p ∈ l, Turn (k.procs p)
  entry : ∀ p ∈ l, (k.procs p).userEip = (k.procs p).entryPoint

/-- Neither scheduled nor entered so far. -/
def Newborn (r : Record) : Prop := r.state ≠ .running ∧ r.vruntime = 0 ∧ r.userEip = r.entryPoint

structure Inv (s : System) : Prop where
  queued : Queued s.kernel s.queue
  fresh : ∀ p ∈ s.fresh, p ∉ s.queue ∧ p ≠ 0 ∧ p < wordMod ∧ Newborn (s.kernel.procs p)

/-- What `schedule_process` leaves of the kernel `k`, when it has chosen `p`. -/
structure Picked (k k' : Kernel) (l : List ℕ) (p : ℕ) : Prop where
  least : best k l = some p
  current : k'.currentProcess = p
  running : (k'.procs p).state = .running
  demoted : Running k → (k'.procs k.currentProcess).state = .ready
  others : ∀ q, q ≠ p → ¬ (Running k ∧ q = k.currentProcess) → (k'.procs q).state = (k.procs q).state

section Scheduling

variable {k : Kernel} {l : List ℕ}

theorem queued_put (h : Queued k l) (tss : ℕ) {p c : ℕ} {r : Record} (hnext : r.next = k.next p)
    (hc : c = 0 ∨ c ∈ l) (hothers : ∀ q ∈ l, q ≠ p → (k.procs q).state = .running → q = c)
    (hr : p ∈ l → (r.state = .running → p = c) ∧ Turn r ∧ r.userEip = r.entryPoint) :
    Queued { k.put p r with currentProcess := c, tssEsp0 := tss } l := by
  have hsame := put_sameLists k p r hnext
  have hrecord : ∀ q ∈ l, (k.put p r).procs q = r ∧ q = p ∨ (k.put p r).procs q = k.procs q ∧ q ≠ p := by
    intro q _
    by_cases hq : q = p
    · exact Or.inl ⟨by rw [hq]; exact Function.update_self p r k.procs, hq⟩
    · exact Or.inr ⟨by exact Function.update_of_ne hq r k.procs, hq⟩
  constructor
  · change Chain (k.put p r).next k.schedQueue l
    rw [hsame.next]
    exact h.chain
  · exact h.bound
  · exact hc
  · intro q hq hrun
    change ((k.put p r).procs q).state = .running at hrun
    rcases hrecord q hq with ⟨he, rfl⟩ | ⟨he, hne⟩
    · rw [he] at hrun
      exact (hr hq).1 hrun
    · rw [he] at hrun
      exact hothers q hq hne hrun
  · intro q hq
    change Turn ((k.put p r).procs q)
    rcases hrecord q hq with ⟨he, rfl⟩ | ⟨he, -⟩
    · rw [he]
      exact (hr hq).2.1
    · rw [he]
      exact h.turns q hq
  · intro q hq
    change ((k.put p r).procs q).userEip = ((k.put p r).procs q).entryPoint
    rcases hrecord q hq with ⟨he, rfl⟩ | ⟨he, -⟩
    · rw [he]
      exact (hr hq).2.2
    · rw [he]
      exact h.entry q hq

theorem running_odd (h : Queued k l) {p : ℕ} (hp : p ∈ l) (hrun : (k.procs p).state = .running) :
    (k.procs p).vruntime % 2 = 1 := (h.turns p hp).resolve_right (fun hz => hz.2 hrun)

theorem running_mem (h : Queued k l) (hrun : Running k) : k.currentProcess ∈ l := h.current.resolve_left hrun.1

/-- Ten is even and so is `2^32`, so an odd counter stays odd round the clock. -/
theorem odd_charge {v : ℕ} (h : v % 2 = 1) : (v+10) % wordMod % 2 = 1 := by
  unfold wordMod
  omega

/-- Whatever is written to the current process's record, it stays the only one that may run. -/
theorem queued_current (h : Queued k l) {r : Record} (hnext : r.next = k.next k.currentProcess)
    (hr : k.currentProcess ∈ l → Turn r ∧ r.userEip = r.entryPoint) : Queued (k.put k.currentProcess r) l := by
  have hothers : ∀ q ∈ l, q ≠ k.currentProcess → (k.procs q).state = .running → q = k.currentProcess :=
    fun q hq _ hrun => h.running q hq hrun
  exact queued_put h k.tssEsp0 hnext h.current hothers (fun hc => ⟨fun _ => rfl, hr hc⟩)

theorem charged_queued (h : Queued k l) (hrun : Running k) : Queued (charged k) l := by
  have hcur := running_mem h hrun
  apply queued_current h
  · rfl
  · intro _
    exact ⟨Or.inl (odd_charge (running_odd h hcur hrun.2)), h.entry _ hcur⟩

theorem exited_queued (h : Queued k l) (code : ℕ) : Queued (exited k code) l := by
  apply queued_current h
  · rfl
  · intro hcur
    refine ⟨?_, h.entry _ hcur⟩
    rcases h.turns _ hcur with ho | ⟨hz, -⟩
    · exact Or.inl ho
    · exact Or.inr ⟨hz, by simp⟩

theorem demote_queued (h : Queued k l) : Queued (demoteCurrent k) l ∧
    ∀ q ∈ l, ((demoteCurrent k).procs q).state ≠ .running := by
  by_cases hrun : Running k
  · have hcur := running_mem h hrun
    have hdemote : demoteCurrent k =
        k.put k.currentProcess { k.procs k.currentProcess with state := .ready } := if_pos hrun
    rw [hdemote]
    constructor
    · apply queued_current h
      · rfl
      · intro _
        exact ⟨Or.inl (running_odd h hcur hrun.2), h.entry _ hcur⟩
    · intro q hq hstate
      by_cases hqc : q = k.currentProcess
      · rw [hqc] at hstate
        simp [Kernel.put] at hstate
      · simp [Kernel.put, Function.update_of_ne hqc] at hstate
        exact hqc (h.running q hq hstate)
  · have hdemote : demoteCurrent k = k := if_neg hrun
    rw [hdemote]
    refine ⟨h, fun q hq hstate => hrun ?_⟩
    have hqc := h.running q hq hstate
    exact ⟨hqc ▸ seg_ne_zero h.chain q hq, hqc ▸ hstate⟩

theorem dispatch_queued (h : Queued k l) (hnone : ∀ q ∈ l, (k.procs q).state ≠ .running) {p : ℕ} (hp : p ∈ l) :
    Queued (dispatch k p).1 l := by
  rw [dispatch_eq]
  apply queued_put h (k.procs p).esp0
  · rfl
  · exact Or.inr hp
  · intro q hq _ hrun
    exact absurd hrun (hnone q hq)
  · intro _
    refine ⟨fun _ => rfl, Or.inl ?_, h.entry p hp⟩
    rcases h.turns p hp with ho | ⟨hz, -⟩
    · dsimp only
      rw [if_neg (by omega)]
      exact ho
    · dsimp only
      rw [if_pos hz]

theorem schedule_cases (h : Queued k l) {r : Kernel × Option (ℕ × ℕ)} (hs : scheduleProcess k = some r) :
    best k l = none ∧ r = (k, none) ∨ ∃ p, best k l = some p ∧ r = dispatch (demoteCurrent k) p := by
  rw [schedule_spec h.chain h.bound] at hs
  cases hbest : best k l with
  | none =>
    rw [hbest] at hs
    exact Or.inl ⟨rfl, (Option.some.inj hs).symm⟩
  | some p =>
    rw [hbest] at hs
    exact Or.inr ⟨p, rfl, (Option.some.inj hs).symm⟩

theorem schedule_queued (h : Queued k l) {r : Kernel × Option (ℕ × ℕ)} (hs : scheduleProcess k = some r) :
    Queued r.1 l := by
  rcases schedule_cases h hs with ⟨-, rfl⟩ | ⟨p, hp, rfl⟩
  · exact h
  · have hdemoted := demote_queued h
    exact dispatch_queued hdemoted.1 hdemoted.2 (best_mem hp).1

theorem demote_other {q : ℕ} (h : ¬ (Running k ∧ q = k.currentProcess)) :
    (demoteCurrent k).procs q = k.procs q := by
  rw [demote_procs]
  by_cases hrun : Running k
  · rw [if_pos hrun]
    exact Function.update_of_ne (fun hq => h ⟨hrun, hq⟩) _ _
  · rw [if_neg hrun]

theorem dispatch_other (k : Kernel) {p q : ℕ} (h : q ≠ p) : (dispatch k p).1.procs q = k.procs q := by
  rw [dispatch_eq]
  exact Function.update_of_ne h _ _

theorem schedule_other (h : Queued k l) {r : Kernel × Option (ℕ × ℕ)} (hs : scheduleProcess k = some r) {q : ℕ}
    (hq : q ∉ l) : r.1.procs q = k.procs q := by
  rcases schedule_cases h hs with ⟨-, rfl⟩ | ⟨p, hp, rfl⟩
  · rfl
  · have hne : q ≠ p := fun he => hq (he ▸ (best_mem hp).1)
    rw [dispatch_other _ hne]
    apply demote_other
    rintro ⟨hrun, rfl⟩
    exact hq (running_mem h hrun)

theorem schedule_picks (h : Queued k l) {r : Kernel × Option (ℕ × ℕ)} (hs : scheduleProcess k = some r)
    {q : ℕ} (hq : q ∈ l) (hready : (k.procs q).state = .ready) : ∃ p, Picked k r.1 l p := by
  rcases schedule_cases h hs with ⟨hnone, -⟩ | ⟨p, hp, rfl⟩
  · exact absurd hready (best_none.mp hnone q hq)
  · refine ⟨p, hp, dispatch_current _ p, ?_, ?_, ?_⟩
    · rw [dispatch_eq]
      simp [Kernel.put]
    · intro hrun
      have hne : k.currentProcess ≠ p := by
        intro he
        have hstate := (best_mem hp).2
        rw [← he, hrun.2] at hstate
        cases hstate
      rw [dispatch_other _ hne, demote_procs, if_pos hrun]
      simp
    · intro x hx hcur
      rw [dispatch_other _ hx, demote_other hcur]

/-- Scheduling counts the start of a process and nothing else. -/
theorem schedule_odd (h : Queued k l) {r : Kernel × Option (ℕ × ℕ)} (hs : scheduleProcess k = some r) {q : ℕ}
    (hq : (k.procs q).vruntime % 2 = 1) : (r.1.procs q).vruntime % 2 = 1 := by
  have hdemote : ((demoteCurrent k).procs q).vruntime = (k.procs q).vruntime := by
    by_cases hcur : Running k ∧ q = k.currentProcess
    · rw [demote_procs, if_pos hcur.1, hcur.2]
      simp
    · rw [demote_other hcur]
  rcases schedule_cases h hs with ⟨-, rfl⟩ | ⟨p, hp, rfl⟩
  · exact hq
  · by_cases hqp : q = p
    · subst hqp
      rw [dispatch_eq]
      simp only [Kernel.put, Function.update_self, hdemote]
      rw [if_neg (by omega)]
      exact hq
    · rw [dispatch_other _ hqp, hdemote]
      exact hq

/-- User mode is entered at the chosen process, whose counter moves from 0 to 1. -/
theorem schedule_entry (h : Queued k l) {k' : Kernel} {eip esp : ℕ}
    (hs : scheduleProcess k = some (k', some (eip, esp))) :
    k'.currentProcess ∈ l ∧ (k.procs k'.currentProcess).vruntime = 0 ∧
      (k'.procs k'.currentProcess).vruntime = 1 ∧ eip = (k.procs k'.currentProcess).entryPoint := by
  rcases schedule_cases h hs with ⟨-, hr⟩ | ⟨p, hp, hr⟩
  · cases hr
  · have hk' : k' = (dispatch (demoteCurrent k) p).1 := by rw [← hr]
    have hcurrent : k'.currentProcess = p := by rw [hk', dispatch_current]
    have hcur : ¬ (Running k ∧ p = k.currentProcess) := by
      rintro ⟨hrun, rfl⟩
      have hstate := (best_mem hp).2
      rw [hrun.2] at hstate
      cases hstate
    have hentry := dispatch_entry (demoteCurrent k) p
    rw [← hr, demote_other hcur] at hentry
    by_cases hz : (k.procs p).vruntime = 0
    · rw [if_pos hz] at hentry
      have heip : eip = (k.procs p).userEip := by
        have hpair := Option.some.inj hentry
        exact congrArg Prod.fst hpair
      rw [hcurrent]
      refine ⟨(best_mem hp).1, hz, ?_, ?_⟩
      · rw [hk', dispatch_eq, demote_other hcur]
        simp [Kernel.put, hz]
      · rw [heip]
        exact h.entry p (best_mem hp).1
    · rw [if_neg hz] at hentry
      cases hentry

end Scheduling

/-! ## Steps -/

theorem create_newborn (k : Kernel) (name : Option (List UInt8)) (res : Resources)
    (h : (processCreate k name res).1 ≠ 0) : (processCreate k name res).1 = res.proc ∧
      Newborn ((processCreate k name res).2.procs res.proc) := by
  revert h
  unfold processCreate
  by_cases helf : res.elfValid = false
  · simp [helf]
  by_cases hproc : res.proc = 0
  · simp [helf, hproc]
  by_cases hdir : res.pageDirectory = 0
  · simp [helf, hproc, hdir]
  by_cases hload : res.segmentsLoaded = false
  · simp [helf, hproc, hdir, hload]
  by_cases hstack : res.kernelStack = 0
  · simp [helf, hproc, hdir, hload, hstack]
  · intro _
    simp [helf, hproc, hdir, hload, hstack, Kernel.put, Newborn, withEntry, withMemory, freshRecord, blankRecord]

/-- Creation writes to no record but the new one. -/
theorem create_frame (k : Kernel) (name : Option (List UInt8)) (res : Resources) :
    (processCreate k name res).2.schedQueue = k.schedQueue ∧
    (processCreate k name res).2.currentProcess = k.currentProcess ∧
    ∀ q, (res.proc ≠ 0 → q ≠ res.proc) → (processCreate k name res).2.procs q = k.procs q := by
  rcases create_result k name res with hc | ⟨hproc, r, hc⟩ | ⟨hproc, r, -, hc⟩
  · rw [hc]
    exact ⟨rfl, rfl, fun _ _ => rfl⟩
  · rw [hc]
    exact ⟨rfl, rfl, fun q hq => Function.update_of_ne (hq hproc) _ _⟩
  · rw [hc]
    exact ⟨rfl, rfl, fun q hq => Function.update_of_ne (hq hproc) _ _⟩

theorem queued_frame {k k' : Kernel} {l : List ℕ} (h : Queued k l) (hqueue : k'.schedQueue = k.schedQueue)
    (hcur : k'.currentProcess = k.currentProcess) (hprocs : ∀ p ∈ l, k'.procs p = k.procs p) : Queued k' l := by
  constructor
  · rw [hqueue]
    exact seg_congr (fun p hp => congrArg Record.next (hprocs p hp)) h.chain
  · exact h.bound
  · rw [hcur]
    exact h.current
  · intro p hp hrun
    rw [hprocs p hp] at hrun
    rw [hcur]
    exact h.running p hp hrun
  · intro p hp
    rw [hprocs p hp]
    exact h.turns p hp
  · intro p hp
    rw [hprocs p hp]
    exact h.entry p hp

theorem create_inv {s t : System} {name : Option (List UInt8)} {res : Resources} (h : Inv s)
    (hs : Step s (.create name res) t) : Inv t := by
  obtain ⟨hallow, ⟨r, hr, hk⟩, hfresh, hqueue⟩ := hs
  obtain ⟨k, fresh, queue⟩ := t
  obtain rfl := Option.some.inj hr
  change k = (processCreate s.kernel name res).2 at hk
  change queue = s.queue at hqueue
  change fresh = if (processCreate s.kernel name res).1 = 0 then s.fresh
    else (processCreate s.kernel name res).1 :: s.fresh at hfresh
  subst hk hqueue
  obtain ⟨hhead, hcur, hframe⟩ := create_frame s.kernel name res
  have hold : ∀ q ∈ s.fresh, (processCreate s.kernel name res).2.procs q = s.kernel.procs q :=
    fun q hq => hframe q (fun hproc he => (hallow hproc).1 (he ▸ hq))
  constructor
  · apply queued_frame h.queued hhead hcur
    intro q hq
    exact hframe q (fun hproc he => (hallow hproc).2.1 (he ▸ hq))
  · intro q hq
    change q ∈ fresh at hq
    change q ∉ s.queue ∧ q ≠ 0 ∧ q < wordMod ∧ Newborn ((processCreate s.kernel name res).2.procs q)
    by_cases hfail : (processCreate s.kernel name res).1 = 0
    · rw [hfresh, if_pos hfail] at hq
      rw [hold q hq]
      exact h.fresh q hq
    · obtain ⟨haddr, hborn⟩ := create_newborn s.kernel name res hfail
      rw [hfresh, if_neg hfail, haddr] at hq
      rw [haddr] at hfail
      rcases List.mem_cons.mp hq with rfl | hq
      · exact ⟨(hallow hfail).2.1, hfail, (hallow hfail).2.2, hborn⟩
      · rw [hold q hq]
        exact h.fresh q hq

theorem add_queued {k : Kernel} {l : List ℕ} {p : ℕ} (h : Queued k l) (hp : p ∉ l) (h0 : p ≠ 0)
    (hbound : p < wordMod) (hborn : Newborn (k.procs p)) : Queued (schedProcAdd k p) (p::l) := by
  have hself : (schedProcAdd k p).procs p = { k.procs p with state := .ready, next := k.schedQueue } := by
    rw [schedProcAdd, if_neg h0]
    exact Function.update_self _ _ _
  have hother : ∀ q ∈ l, (schedProcAdd k p).procs q = k.procs q := by
    intro q hq
    rw [schedProcAdd, if_neg h0]
    exact Function.update_of_ne (ne_of_mem_of_not_mem hq hp) _ _
  have hnext : (schedProcAdd k p).next = Function.update k.next p k.schedQueue := by
    rw [schedProcAdd, if_neg h0]
    exact put_next k p _
  have hhead : (schedProcAdd k p).schedQueue = p := by rw [schedProcAdd, if_neg h0]
  have hcur : (schedProcAdd k p).currentProcess = k.currentProcess := by
    rw [schedProcAdd, if_neg h0]
    rfl
  constructor
  · rw [hnext, hhead]
    exact chain_push h.chain hp h0
  · intro q hq
    rcases List.mem_cons.mp hq with rfl | hq
    · exact hbound
    · exact h.bound q hq
  · rw [hcur]
    exact h.current.imp_right (List.mem_cons_of_mem p)
  · intro q hq hrun
    rw [hcur]
    rcases List.mem_cons.mp hq with rfl | hq
    · rw [hself] at hrun
      cases hrun
    · rw [hother q hq] at hrun
      exact h.running q hq hrun
  · intro q hq
    rcases List.mem_cons.mp hq with rfl | hq
    · rw [hself]
      exact Or.inr ⟨hborn.2.1, by simp⟩
    · rw [hother q hq]
      exact h.turns q hq
  · intro q hq
    rcases List.mem_cons.mp hq with rfl | hq
    · rw [hself]
      exact hborn.2.2
    · rw [hother q hq]
      exact h.entry q hq

theorem add_inv {s t : System} {p : ℕ} (h : Inv s) (hs : Step s (.add p) t) : Inv t := by
  obtain ⟨hallow, ⟨r, hr, hk⟩, hfresh, hqueue⟩ := hs
  obtain ⟨k, fresh, queue⟩ := t
  obtain rfl := Option.some.inj hr
  change k = schedProcAdd s.kernel p at hk
  change queue = p :: s.queue at hqueue
  change fresh = s.fresh.filter (fun q => q ≠ p) at hfresh
  subst hk hqueue hfresh
  obtain ⟨hout, h0, hbound, hborn⟩ := h.fresh p hallow
  refine ⟨add_queued h.queued hout h0 hbound hborn, ?_⟩
  intro q hq
  obtain ⟨hq, hne⟩ := List.mem_filter.mp hq
  have hne : q ≠ p := by simpa using hne
  obtain ⟨hqout, hq0, hqbound, hqborn⟩ := h.fresh q hq
  refine ⟨?_, hq0, hqbound, ?_⟩
  · rw [List.mem_cons, not_or]
    exact ⟨hne, hqout⟩
  · change Newborn ((schedProcAdd s.kernel p).procs q)
    rw [schedProcAdd, if_neg h0]
    change Newborn (Function.update s.kernel.procs p _ q)
    rw [Function.update_of_ne hne]
    exact hqborn

theorem kill_queued {k : Kernel} {l : List ℕ} (h : Queued k l) (p : ℕ) : Queued (killProcess k p) l := by
  unfold killProcess
  by_cases h0 : p = 0
  · rw [if_pos h0]
    exact h
  · rw [if_neg h0]
    apply queued_put h k.tssEsp0
    · rfl
    · exact h.current
    · intro q hq _ hrun
      exact h.running q hq hrun
    · intro hp
      refine ⟨nofun, ?_, h.entry p hp⟩
      rcases h.turns p hp with ho | ⟨hz, -⟩
      · exact Or.inl ho
      · exact Or.inr ⟨hz, by simp⟩

theorem kill_newborn {k : Kernel} {p q : ℕ} (h : Newborn (k.procs q)) : Newborn ((killProcess k p).procs q) := by
  unfold killProcess
  by_cases h0 : p = 0
  · rw [if_pos h0]
    exact h
  · rw [if_neg h0]
    by_cases hq : q = p
    · subst hq
      simp only [Kernel.put, Function.update_self]
      refine ⟨fun hrun => ?_, h.2⟩
      cases hrun
    · simp only [Kernel.put, Function.update_of_ne hq]
      exact h

theorem kill_vruntime (k : Kernel) (p q : ℕ) :
    ((killProcess k p).procs q).vruntime = (k.procs q).vruntime := by
  unfold killProcess
  by_cases h0 : p = 0
  · simp [h0]
  · by_cases hq : q = p
    · simp [h0, hq, Kernel.put]
    · simp [h0, hq, Kernel.put]

/-- The kernel at the call differs from the one before the event in the current process only. -/
theorem called_queued {k k' : Kernel} {l : List ℕ} {e : Event} (h : Queued k l) (hc : called k e = some k') :
    Queued k' l ∧ ∀ q, q ∉ l → k'.procs q = k.procs q := by
  rcases called_cases hc with ⟨-, rfl⟩ | ⟨-, hrun, rfl⟩ | ⟨code, -, hcur, rfl⟩
  · exact ⟨h, fun _ _ => rfl⟩
  · refine ⟨charged_queued h hrun, fun q hq => ?_⟩
    exact Function.update_of_ne (ne_of_mem_of_not_mem (running_mem h hrun) hq).symm _ _
  · refine ⟨exited_queued h code, fun q hq => ?_⟩
    exact Function.update_of_ne (ne_of_mem_of_not_mem (h.current.resolve_left hcur) hq).symm _ _

theorem called_odd {k k' : Kernel} {e : Event} (hc : called k e = some k') {q : ℕ}
    (hq : (k.procs q).vruntime % 2 = 1) : (k'.procs q).vruntime % 2 = 1 := by
  rcases called_cases hc with ⟨-, rfl⟩ | ⟨-, -, rfl⟩ | ⟨code, -, -, rfl⟩
  · exact hq
  · by_cases hqc : q = k.currentProcess
    · subst hqc
      simp only [charged, Kernel.put, Function.update_self]
      exact odd_charge hq
    · simp only [charged, Kernel.put, Function.update_of_ne hqc]
      exact hq
  · by_cases hqc : q = k.currentProcess
    · subst hqc
      simpa only [exited, Kernel.put, Function.update_self] using hq
    · simpa only [exited, Kernel.put, Function.update_of_ne hqc] using hq

/-- An event that could call the scheduler and does not leaves the kernel as it is. -/
theorem perform_uncalled {k : Kernel} {e : Event} (he : e = .schedule ∨ e = .tick ∨ ∃ code, e = .exit code)
    (hc : called k e = none) : perform k e = some (k, none) := by
  rcases he with rfl | rfl | ⟨code, rfl⟩
  · cases hc
  · have hrun : ¬ Running k := by
      intro hrun
      simp [called, hrun] at hc
    exact if_neg hrun
  · have hcur : k.currentProcess = 0 := by
      by_contra hne
      simp [called, hne] at hc
    exact if_pos hcur

theorem scheduling_inv {s t : System} {e : Event} (he : e = .schedule ∨ e = .tick ∨ ∃ code, e = .exit code)
    (h : Inv s) (hs : Step s e t) : Inv t := by
  obtain ⟨-, ⟨r, hr, hk⟩, hfresh, hqueue⟩ := hs
  obtain ⟨k, fresh, queue⟩ := t
  change k = r.1 at hk
  have hsame : freshAfter s e = s.fresh ∧ queueAfter s e = s.queue := by
    rcases he with rfl | rfl | ⟨code, rfl⟩
    · exact ⟨rfl, rfl⟩
    · exact ⟨rfl, rfl⟩
    · exact ⟨rfl, rfl⟩
  obtain rfl : fresh = s.fresh := hfresh.trans hsame.1
  obtain rfl : queue = s.queue := hqueue.trans hsame.2
  subst hk
  cases hc : called s.kernel e with
  | none =>
    rw [perform_uncalled he hc] at hr
    obtain rfl := Option.some.inj hr
    exact h
  | some k' =>
    rw [perform_called _ _ _ hc] at hr
    obtain ⟨hqueued, hold⟩ := called_queued h.queued hc
    refine ⟨schedule_queued hqueued hr, fun q hq => ?_⟩
    obtain ⟨hout, h0, hbound, hborn⟩ := h.fresh q hq
    refine ⟨hout, h0, hbound, ?_⟩
    change Newborn (r.1.procs q)
    rw [schedule_other hqueued hr hout, hold q hout]
    exact hborn

theorem kill_inv {s t : System} {pid sig : ℕ} (h : Inv s) (hs : Step s (.kill pid sig) t) : Inv t := by
  obtain ⟨-, ⟨r, hr, hk⟩, hfresh, hqueue⟩ := hs
  obtain ⟨k, fresh, queue⟩ := t
  obtain ⟨p, -, rfl⟩ := Option.map_eq_some_iff.mp hr
  change k = if sig = 9 then killProcess s.kernel p else s.kernel at hk
  change fresh = s.fresh at hfresh
  change queue = s.queue at hqueue
  subst hk hfresh hqueue
  by_cases hsig : sig = 9
  · rw [if_pos hsig]
    refine ⟨kill_queued h.queued p, fun q hq => ?_⟩
    obtain ⟨hout, h0, hbound, hborn⟩ := h.fresh q hq
    exact ⟨hout, h0, hbound, kill_newborn hborn⟩
  · rw [if_neg hsig]
    exact h

theorem step_inv {s t : System} {e : Event} (h : Inv s) (hs : Step s e t) : Inv t := by
  cases e with
  | create name res => exact create_inv h hs
  | add p => exact add_inv h hs
  | schedule => exact scheduling_inv (Or.inl rfl) h hs
  | tick => exact scheduling_inv (Or.inr (Or.inl rfl)) h hs
  | exit code => exact scheduling_inv (Or.inr (Or.inr ⟨code, rfl⟩)) h hs
  | kill pid sig => exact kill_inv h hs

theorem booted_inv (procs : ℕ → Record) (tssEsp0 : ℕ) : Inv (booted procs tssEsp0) where
  queued := by
    constructor
    · rfl
    · intro p hp
      cases hp
    · exact Or.inl rfl
    · intro p hp
      cases hp
    · intro p hp
      cases hp
    · intro p hp
      cases hp
  fresh p hp := by cases hp

/-- Of all processes only the current one may be running. -/
def OneRunning (s : System) : Prop :=
  ∀ p ∈ s.fresh ++ s.queue, (s.kernel.procs p).state = .running → p = s.kernel.currentProcess

/-- Every call of `schedule_process` with a ready process makes the best one current. -/
def Picks (s : System) (e : Event) (t : System) : Prop :=
  ∀ k, called s.kernel e = some k → (∃ q ∈ s.queue, (k.procs q).state = .ready) →
    ∃ p, Picked k t.kernel s.queue p

theorem Inv.oneRunning {s : System} (h : Inv s) : OneRunning s := by
  intro p hp hrun
  rcases List.mem_append.mp hp with hp | hp
  · exact absurd hrun (h.fresh p hp).2.2.2.1
  · exact h.queued.running p hp hrun

theorem step_picks {s t : System} {e : Event} (h : Inv s) (hs : Step s e t) : Picks s e t := by
  intro k hc ⟨q, hq, hready⟩
  obtain ⟨-, ⟨r, hr, hk⟩, -⟩ := hs
  rw [perform_called _ _ _ hc] at hr
  rw [hk]
  exact schedule_picks (called_queued h.queued hc).1 hr hq hready

/-- Along every run at most one process runs, and scheduling picks the best ready process. -/
theorem one_running (procs : ℕ → Record) (tssEsp0 : ℕ) (tr : List (Event × System))
    (hr : Run Step (booted procs tssEsp0) tr) :
    Along (fun s e t => OneRunning t ∧ Picks s e t) (booted procs tssEsp0) tr := by
  have hrun : Along (fun s e t => Inv t ∧ Picks s e t) (booted procs tssEsp0) tr := by
    apply run_invariant (I := Inv) _ _ tr (booted_inv procs tssEsp0) hr
    intro s e t hs hstep
    exact ⟨step_inv hs hstep, step_picks hs hstep⟩
  apply along_mono _ _ tr hrun
  intro s e t h
  exact ⟨h.1.oneRunning, h.2⟩

/-! ## First entries -/

/-- The process that the event enters user mode for, with the address it is entered at. -/
def started (k : Kernel) (e : Event) : Option (ℕ × ℕ) :=
  match perform k e with
  | some (k', some (eip, _)) => some (k'.currentProcess, eip)
  | _ => none

/-- All first entries of a run, in order. -/
def starts : System → List (Event × System) → List (ℕ × ℕ)
  | _, [] => []
  | s, (e, t)::tr => (started s.kernel e).toList ++ starts t tr

/-- Since the process was started, the counter is odd. -/
def Started (s : System) (p : ℕ) : Prop := p ∈ s.queue ∧ (s.kernel.procs p).vruntime % 2 = 1

theorem started_step {s t : System} {e : Event} (h : Inv s) (hs : Step s e t) {p : ℕ} (hp : Started s p) :
    Started t p := by
  obtain ⟨hallow, ⟨r, hr, hk⟩, -, hqueue⟩ := hs
  have hmem : p ∈ t.queue := by
    rw [hqueue]
    cases e with
    | add q => exact List.mem_cons_of_mem q hp.1
    | _ => exact hp.1
  refine ⟨hmem, ?_⟩
  rw [hk]
  cases hc : called s.kernel e with
  | some k' =>
    rw [perform_called _ _ _ hc] at hr
    exact schedule_odd (called_queued h.queued hc).1 hr (called_odd hc hp.2)
  | none =>
    cases e with
    | create name res =>
      obtain rfl := Option.some.inj hr
      change ((processCreate s.kernel name res).2.procs p).vruntime % 2 = 1
      rw [(create_frame s.kernel name res).2.2 p (fun hproc he => (hallow hproc).2.1 (he ▸ hp.1))]
      exact hp.2
    | add q =>
      obtain rfl := Option.some.inj hr
      obtain ⟨hout, h0, -⟩ := h.fresh q hallow
      change ((schedProcAdd s.kernel q).procs p).vruntime % 2 = 1
      rw [schedProcAdd, if_neg h0]
      change (Function.update s.kernel.procs q _ p).vruntime % 2 = 1
      rw [Function.update_of_ne (ne_of_mem_of_not_mem hp.1 hout)]
      exact hp.2
    | kill pid sig =>
      obtain ⟨q, -, rfl⟩ := Option.map_eq_some_iff.mp hr
      change ((if sig = 9 then killProcess s.kernel q else s.kernel).procs p).vruntime % 2 = 1
      by_cases hsig : sig = 9
      · rw [if_pos hsig, kill_vruntime]
        exact hp.2
      · rw [if_neg hsig]
        exact hp.2
    | schedule => cases hc
    | tick =>
      rw [perform_uncalled (Or.inr (Or.inl rfl)) hc] at hr
      obtain rfl := Option.some.inj hr
      exact hp.2
    | exit code =>
      rw [perform_uncalled (Or.inr (Or.inr ⟨code, rfl⟩)) hc] at hr
      obtain rfl := Option.some.inj hr
      exact hp.2

theorem started_call {k : Kernel} {e : Event} {p eip : ℕ} (h : started k e = some (p, eip)) :
    ∃ k' r esp, called k e = some k' ∧ scheduleProcess k' = some (r, some (eip, esp)) ∧ p = r.currentProcess := by
  unfold started at h
  split at h
  · rename_i r eip' esp hperf
    obtain ⟨rfl, rfl⟩ := Prod.mk.inj (Option.some.inj h)
    cases hc : called k e with
    | some k' => exact ⟨k', r, esp, rfl, (perform_called k e k' hc) ▸ hperf, rfl⟩
    | none =>
      cases e with
      | schedule => cases hc
      | tick =>
        rw [perform_uncalled (Or.inr (Or.inl rfl)) hc] at hperf
        cases hperf
      | exit code =>
        rw [perform_uncalled (Or.inr (Or.inr ⟨code, rfl⟩)) hc] at hperf
        cases hperf
      | kill pid sig =>
        obtain ⟨q, -, hq⟩ := Option.map_eq_some_iff.mp hperf
        cases hq
      | _ => cases hperf
  · cases h

theorem called_fields {k k' : Kernel} {e : Event} (hc : called k e = some k') (q : ℕ) :
    (k'.procs q).entryPoint = (k.procs q).entryPoint := by
  have hput : ∀ r : Record, r.entryPoint = (k.procs k.currentProcess).entryPoint →
      ((k.put k.currentProcess r).procs q).entryPoint = (k.procs q).entryPoint := by
    intro r hr
    by_cases hq : q = k.currentProcess
    · simp [Kernel.put, hq, hr]
    · simp [Kernel.put, hq]
  rcases called_cases hc with ⟨-, rfl⟩ | ⟨-, -, rfl⟩ | ⟨code, -, -, rfl⟩
  · rfl
  · exact hput _ rfl
  · exact hput _ rfl

theorem start_new {s t : System} {e : Event} (h : Inv s) (hs : Step s e t) {p eip : ℕ}
    (hp : started s.kernel e = some (p, eip)) :
    ¬ Started s p ∧ Started t p ∧ eip = (s.kernel.procs p).entryPoint := by
  obtain ⟨-, ⟨r, hr, hk⟩, -, hqueue⟩ := hs
  obtain ⟨k', r', esp, hc, hcall, rfl⟩ := started_call hp
  obtain ⟨hmem, hzero, hone, hentry⟩ := schedule_entry (called_queued h.queued hc).1 hcall
  rw [perform_called _ _ _ hc, hcall] at hr
  obtain rfl := Option.some.inj hr
  refine ⟨fun hstarted => ?_, ⟨?_, ?_⟩, ?_⟩
  · have hodd := called_odd hc hstarted.2
    omega
  · rw [hqueue]
    cases e with
    | add q => cases hc
    | _ => exact hmem
  · rw [hk, hone]
  · rw [hentry]
    exact called_fields hc _

theorem starts_new {s : System} (h : Inv s) (tr : List (Event × System)) (hr : Run Step s tr) :
    (∀ x ∈ starts s tr, ¬ Started s x.1) ∧ ((starts s tr).map Prod.fst).Nodup := by
  induction tr generalizing s with
  | nil => exact ⟨nofun, List.nodup_nil⟩
  | cons x tr ih =>
    obtain ⟨e, t⟩ := x
    obtain ⟨hstep, hrest⟩ := hr
    obtain ⟨hold, hnodup⟩ := ih (step_inv h hstep) hrest
    have hlater : ∀ x ∈ starts t tr, ¬ Started s x.1 :=
      fun x hx hstarted => hold x hx (started_step h hstep hstarted)
    cases he : started s.kernel e with
    | none =>
      rw [starts, he]
      exact ⟨hlater, hnodup⟩
    | some y =>
      obtain ⟨hbefore, hafter, -⟩ := start_new h hstep he
      rw [starts, he]
      constructor
      · intro x hx
        rcases List.mem_cons.mp hx with rfl | hx
        · exact hbefore
        · exact hlater x hx
      · rw [Option.toList_some, List.singleton_append, List.map_cons, List.nodup_cons]
        refine ⟨fun hmem => ?_, hnodup⟩
        obtain ⟨x, hx, hxy⟩ := List.mem_map.mp hmem
        exact hold x hx (hxy ▸ hafter)

/-- No process is started twice, however often its counter goes round, and each one is started at its entry point. -/
theorem started_once (procs : ℕ → Record) (tssEsp0 : ℕ) (tr : List (Event × System))
    (hr : Run Step (booted procs tssEsp0) tr) :
    ((starts (booted procs tssEsp0) tr).map Prod.fst).Nodup ∧
    Along (fun s e _ => ∀ p eip, started s.kernel e = some (p, eip) → eip = (s.kernel.procs p).entryPoint)
      (booted procs tssEsp0) tr := by
  have hinv := booted_inv procs tssEsp0
  refine ⟨(starts_new hinv tr hr).2, ?_⟩
  have hrun : Along (fun s e t => Inv t ∧ ∀ p eip, started s.kernel e = some (p, eip) →
      eip = (s.kernel.procs p).entryPoint) (booted procs tssEsp0) tr := by
    apply run_invariant (I := Inv) _ _ tr hinv hr
    intro s e t h hs
    exact ⟨step_inv h hs, fun p eip hp => (start_new h hs hp).2.2⟩
  exact along_mono (fun _ _ _ h => h.2) _ tr hrun

def advance (s : System) (e : Event) : System :=
  ⟨((perform s.kernel e).map Prod.fst).getD s.kernel, freshAfter s e, queueAfter s e⟩

theorem advance_step (s : System) (e : Event) (ha : Allowed s e) (hp : (perform s.kernel e).isSome) :
    Step s e (advance s e) := by
  obtain ⟨r, hr⟩ := Option.isSome_iff_exists.mp hp
  exact ⟨ha, ⟨r, hr, by rw [advance, hr]; rfl⟩, rfl, rfl⟩

def sampleBoot : System := booted (fun _ => blankRecord) 0

def sampleCreate : Event := .create none ⟨true, 0x1000, 0x300000, true, 0x8048000, 0x5000⟩

def sampleCreated : System := advance sampleBoot sampleCreate

def sampleQueued : System := advance sampleCreated (.add 0x1000)

def sampleStarted : System := advance sampleQueued .schedule

/-- One process is created, queued, started and charged. -/
def sampleRun : List (Event × System) :=
  [(sampleCreate, sampleCreated), (.add 0x1000, sampleQueued), (.schedule, sampleStarted),
    (.tick, advance sampleStarted .tick)]

theorem sampleRun_runs : Run Step sampleBoot sampleRun := by
  refine ⟨advance_step _ _ ?_ ?_, advance_step _ _ ?_ ?_, advance_step _ _ trivial ?_,
    advance_step _ _ trivial ?_, trivial⟩
  · exact fun _ => ⟨List.not_mem_nil, List.not_mem_nil, by decide⟩
  · rfl
  · change 0x1000 ∈ sampleCreated.fresh
    decide +kernel
  · rfl
  · decide +kernel
  · decide +kernel

theorem one_running_sample :
    Along (fun s e t => OneRunning t ∧ Picks s e t) (booted (fun _ => blankRecord) 0) sampleRun :=
  one_running (fun _ => blankRecord) 0 sampleRun sampleRun_runs

theorem started_once_sample :
    ((starts (booted (fun _ => blankRecord) 0) sampleRun).map Prod.fst).Nodup ∧
    Along (fun s e _ => ∀ p eip, started s.kernel e = some (p, eip) → eip = (s.kernel.procs p).entryPoint)
      (booted (fun _ => blankRecord) 0) sampleRun :=
  started_once (fun _ => blankRecord) 0 sampleRun sampleRun_runs

example : starts sampleBoot sampleRun = [(0x1000, 0x8048000)] := by decide +kernel

/-! ## Idling -/

theorem charged_state (k : Kernel) (p : ℕ) : ((charged k).procs p).state = (k.procs p).state := by
  by_cases hp : p = k.currentProcess
  · simp [charged, Kernel.put, hp]
  · simp [charged, Kernel.put, hp]

/-- A tick schedules for a running process only, whatever the queue holds. -/
theorem tick_serves_running {k : Kernel} {l : List ℕ} (hl : Chain k.next k.schedQueue l)
    (hb : ∀ p ∈ l, p < wordMod) (hready : ∃ p ∈ l, (k.procs p).state = .ready) :
    ∃ r, schedProcTick k = some r ∧ (Running r.1 ↔ Running k) := by
  by_cases hrun : Running k
  · have hchain : Chain (charged k).next (charged k).schedQueue l := by
      have hsame : SameLists k (charged k) := put_sameLists k k.currentProcess _ rfl
      rw [hsame.next]
      exact hl
    have htick : schedProcTick k = scheduleProcess (charged k) := if_pos hrun
    obtain ⟨q, hq, hqready⟩ := hready
    rw [htick, schedule_spec hchain hb]
    cases hbest : best (charged k) l with
    | none =>
      have hnone := best_none.mp hbest q hq
      rw [charged_state] at hnone
      exact absurd hqready hnone
    | some p =>
      have hp := best_mem hbest
      refine ⟨_, rfl, fun _ => hrun, fun _ => ?_⟩
      have hp0 := seg_ne_zero hl p hp.1
      dsimp only
      refine ⟨by rw [dispatch_current]; exact hp0, ?_⟩
      rw [dispatch_current, dispatch_eq]
      simp [Kernel.put]
  · refine ⟨(k, none), if_neg hrun, Iff.rfl⟩

theorem tick_serves_running_sample :
    ∃ r, schedProcTick sampleQueued.kernel = some r ∧ (Running r.1 ↔ Running sampleQueued.kernel) := by
  have hchain : Chain sampleQueued.kernel.next sampleQueued.kernel.schedQueue [0x1000] := by
    refine ⟨?_, by decide, ?_⟩
    · decide +kernel
    · change sampleQueued.kernel.next 0x1000 = 0
      decide +kernel
  exact tick_serves_running hchain (by decide) ⟨0x1000, List.mem_singleton_self _, by decide +kernel⟩

/-- After boot no process is current, so the queued one is never given a turn. -/
theorem boot_never_serves : ∃ k l, Chain (Kernel.next k) k.schedQueue l ∧ (∀ p ∈ l, p < wordMod) ∧
    (∃ p ∈ l, (k.procs p).state = .ready) ∧ schedProcTick k = some (k, none) ∧ ¬ Running k := by
  refine ⟨sampleQueued.kernel, [0x1000], ⟨?_, by decide, ?_⟩, by decide, ⟨0x1000, ?_⟩, ?_, ?_⟩
  · decide +kernel
  · change sampleQueued.kernel.next 0x1000 = 0
    decide +kernel
  · exact ⟨List.mem_singleton_self _, by decide +kernel⟩
  · exact if_neg (by decide +kernel)
  · decide +kernel

end Dionnex.ProcessScheduler
