import Dionnex.LinkedChain
import Dionnex.PmmInit
import Dionnex.TaskScheduler

/-!
# The task list along every run

Runs mix `task_create`, `schedule` and `task_exit` with other code, which
leaves the records of listed tasks alone and frees no page under them. As
long as some task is listed, the list is a chain of distinct records, and
the current task is either its only running one or a dead one outside it.
-/

set_option autoImplicit false

namespace Dionnex.TaskLists
open ByteMemory X86Stack LinkedChain LabelledRuns Dionnex.PmmBitmap Dionnex.Task Dionnex.ContextSwitch
open Dionnex.TaskScheduler

inductive Event where
  | create (name entry priority : ℕ)
  | schedule (c : Cpu)
  | exit (c : Cpu)
  | other (mem : Mem) (pmm : Pmm)

def perform (im : Image) (k : Kernel) : Event → Option Kernel
  | .create name entry priority => (taskCreate im k name entry priority).map Prod.snd
  | .schedule c => schedule k c
  | .exit c => taskExit k c
  | .other mem pmm => some { k with mem := mem, pmm := pmm }

def Listed (k : Kernel) (task : ℕ) : Prop := task ≠ 0 ∧ ∃ l, Seg (nextOf k.mem) k.taskListHead l task

def record (task : ℕ) : Set ℕ := Set.Ico task (task+recordSize)

/-- The records the scheduler relies on. -/
def records (k : Kernel) : Set ℕ := {x | ∃ t, (t = k.currentTask ∨ Listed k t) ∧ x ∈ record t}

/-- Neither the page nor the one above it meets the record of the idle task. -/
def Far (im : Image) (page : ℕ) : Prop :=
  page*pageSize + 2*pageSize ≤ im.kernelTask ∨ im.kernelTask + recordSize ≤ page*pageSize

/-- `context_switch` is called on a stack and from a place that lie off the records. -/
structure SwitchFrame (k : Kernel) (c : Cpu) : Prop where
  low : 36 ≤ c.regs.esp
  high : c.regs.esp + 12 ≤ 4294967296
  stack : Disjoint (Set.Ico (c.regs.esp-36) (c.regs.esp+12)) (records k)
  returnsToText : Disjoint (span (load32 k.mem c.regs.esp) 4)
    (records k ∪ Set.Ico (c.regs.esp-36) (c.regs.esp+12))

def Allowed (im : Image) (k : Kernel) : Event → Prop
  | .create _ _ _ => True
  | .schedule c => SwitchFrame k c
  | .exit c => SwitchFrame k c
  | .other mem pmm => (∀ x ∈ records k, mem x = k.mem x) ∧ Padded pmm ∧
      ∀ p ∈ freeSet pmm, Far im p ∧ ∀ t, t = k.currentTask ∨ Listed k t → t ≠ p*pageSize

def Step (im : Image) (s : Option Kernel) (e : Event) (t : Option Kernel) : Prop :=
  ∃ k, s = some k ∧ Allowed im k e ∧ t = perform im k e

/-- The list is a chain without repetition, and the current task is either
its only running task or a dead one outside it. -/
def Sound (s : Option Kernel) : Prop :=
  ∃ k l, s = some k ∧ Chain (nextOf k.mem) k.taskListHead l ∧ l.Nodup ∧
    ((k.currentTask ∈ l ∧ stateOf k.mem k.currentTask = taskRunning ∧
        ∀ t ∈ l, stateOf k.mem t = taskRunning → t = k.currentTask) ∨
      (k.currentTask ∉ l ∧ stateOf k.mem k.currentTask = taskDead ∧
        ∀ t ∈ l, stateOf k.mem t ≠ taskRunning))

def IsExit : Event → Prop
  | .exit _ => True
  | _ => False

/-- The current task changes only to a listed task that is not dead, and one
that is dead or exits stays dead for as long as it stays current. -/
def NeverRevived (s : Option Kernel) (e : Event) (t : Option Kernel) : Prop :=
  ∀ k k', s = some k → t = some k' →
    (k'.currentTask ≠ k.currentTask →
      Listed k k'.currentTask ∧ stateOf k.mem k'.currentTask ≠ taskDead) ∧
    (stateOf k.mem k.currentTask = taskDead ∨ IsExit e → k'.currentTask = k.currentTask →
      stateOf k'.mem k'.currentTask = taskDead)

/-- Where a task record can lie. -/
def Placed (im : Image) (pmm : Pmm) (task : ℕ) : Prop :=
  task = im.kernelTask ∨
    ∃ p, task = p*pageSize ∧ 0 < p ∧ p < 1048576 ∧ p ∉ freeSet pmm ∧ Far im p

/-- The idle task's record lies in the address space, above page zero. -/
structure Linked (im : Image) : Prop where
  low : pageSize ≤ im.kernelTask
  high : im.kernelTask + recordSize ≤ 4294967296

structure Inv (im : Image) (k : Kernel) (l : List ℕ) : Prop where
  padded : Padded k.pmm
  far : ∀ p ∈ freeSet k.pmm, Far im p
  chain : Chain (nextOf k.mem) k.taskListHead l
  placed : ∀ t, t = k.currentTask ∨ t ∈ l → Placed im k.pmm t
  ready : ∀ t ∈ l, t ≠ k.currentTask → stateOf k.mem t = taskReady
  current : (k.currentTask ∈ l ∧ stateOf k.mem k.currentTask = taskRunning) ∨
    (k.currentTask ∉ l ∧ stateOf k.mem k.currentTask = taskDead)

section Records

variable {im : Image} {pmm : Pmm} {t u : ℕ}

theorem placed_space (hl : Linked im) (ht : Placed im pmm t) : 0 < t ∧ t+recordSize ≤ 4294967296 := by
  have h1 := hl.low
  have h2 := hl.high
  unfold recordSize pageSize at *
  rcases ht with rfl | ⟨p, rfl, hp, hlt, -, -⟩
  · omega
  · unfold pageSize
    omega

/-- Two task records never overlap. -/
theorem placed_disjoint (ht : Placed im pmm t) (hu : Placed im pmm u) (hne : t ≠ u) :
    Disjoint (record t) (record u) := by
  unfold record
  rw [Set.Ico_disjoint_Ico]
  unfold recordSize
  rcases ht with rfl | ⟨p, rfl, -, -, -, hp⟩
  · rcases hu with rfl | ⟨q, rfl, -, -, -, hq⟩
    · exact absurd rfl hne
    · unfold Far recordSize pageSize at hq
      unfold pageSize
      omega
  · rcases hu with rfl | ⟨q, rfl, -, -, -, hq⟩
    · unfold Far recordSize pageSize at hp
      unfold pageSize
      omega
    · unfold pageSize at *
      omega

theorem placed_mono {pmm' : Pmm} (h : ∀ p, p ∈ freeSet pmm' → p ∈ freeSet pmm ∨ t ≠ p*pageSize)
    (ht : Placed im pmm t) : Placed im pmm' t := by
  rcases ht with rfl | ⟨p, rfl, h0, hlt, hfree, hfar⟩
  · exact Or.inl rfl
  · refine Or.inr ⟨p, rfl, h0, hlt, fun hp => ?_, hfar⟩
    rcases h p hp with h | h
    · exact hfree h
    · exact h rfl

end Records

section Fields

variable {R : Set ℕ} {m m' : Mem} {t u i j v : ℕ}

theorem field_off (h : SameOff R m m') (hd : Disjoint (record t) R) (ht : t+recordSize ≤ 4294967296)
    (hj : j+4 ≤ recordSize) : load32 m' (t+j) = load32 m (t+j) := by
  refine load32_off h (hd.mono_left ?_)
  unfold record recordSize at *
  rw [span_eq (by omega)]
  exact Set.Ico_subset_Ico (by omega) (by omega)

theorem store_record (ht : t+recordSize ≤ 4294967296) (hi : i+4 ≤ recordSize) :
    SameOff (record t) m (store32 m (t+i) v) := by
  refine (store32_off m (t+i) v).mono ?_
  unfold record recordSize at *
  rw [span_eq (by omega)]
  exact Set.Ico_subset_Ico (by omega) (by omega)

theorem store_other (ht : t+recordSize ≤ 4294967296) (hi : i+4 ≤ recordSize)
    (hj : j+4 ≤ recordSize) (hij : i+4 ≤ j ∨ j+4 ≤ i) :
    load32 (store32 m (t+i) v) (t+j) = load32 m (t+j) := by
  refine load32_off (store32_off m (t+i) v) ?_
  unfold recordSize at *
  rw [span_eq (by omega), span_eq (by omega), Set.Ico_disjoint_Ico]
  omega

end Fields

/-- What the scheduler reads of a record. -/
structure SameRecord (m m' : Mem) (t : ℕ) : Prop where
  state : stateOf m' t = stateOf m t
  next : nextOf m' t = nextOf m t

theorem sameRecord_off {R : Set ℕ} {m m' : Mem} {t : ℕ} (h : SameOff R m m')
    (hd : Disjoint (record t) R) (ht : t+recordSize ≤ 4294967296) : SameRecord m m' t where
  state := field_off h hd ht (by decide)
  next := field_off h hd ht (by decide)

section Walks

variable {m : Mem} {d : ℕ}

theorem removeLoop_absent {x fuel curr : ℕ} {l : List ℕ} (hl : Chain (nextOf m) curr (x::l))
    (hd : d ∉ l) (hf : l.length < fuel) : removeLoop m d fuel curr = some m := by
  induction l generalizing x fuel curr with
  | nil =>
    obtain ⟨fuel, rfl⟩ := Nat.exists_eq_succ_of_ne_zero (Nat.ne_of_gt hf)
    obtain ⟨rfl, -, hend⟩ := hl
    rw [removeLoop, if_pos (show nextOf m curr = 0 from hend)]
  | cons y l ih =>
    obtain ⟨fuel, rfl⟩ := Nat.exists_eq_succ_of_ne_zero (Nat.ne_of_gt (Nat.zero_lt_of_lt hf))
    obtain ⟨rfl, -, hrest⟩ := hl
    have hy : nextOf m curr = y := hrest.1
    have hdy : y ≠ d := fun h => hd (by simp [h])
    rw [removeLoop, hy, if_neg hrest.2.1, if_neg hdy]
    simp only [List.length_cons] at hf
    exact ih (hy ▸ hrest) (fun h => hd (List.mem_cons_of_mem _ h)) (by omega)

theorem removeLoop_present {fuel curr y : ℕ} {l r : List ℕ}
    (hl : Chain (nextOf m) curr (l++y::d::r)) (hd : d ∉ l++[y]) (hf : l.length < fuel) :
    removeLoop m d fuel curr = some (store32 m (y+nextOffset) (nextOf m d)) := by
  induction l generalizing fuel curr with
  | nil =>
    obtain ⟨fuel, rfl⟩ := Nat.exists_eq_succ_of_ne_zero (Nat.ne_of_gt hf)
    obtain ⟨rfl, -, hrest⟩ := hl
    have hnext : nextOf m curr = d := hrest.1
    rw [removeLoop, hnext, if_neg hrest.2.1, if_pos rfl]
  | cons x l ih =>
    obtain ⟨fuel, rfl⟩ := Nat.exists_eq_succ_of_ne_zero (Nat.ne_of_gt (Nat.zero_lt_of_lt hf))
    obtain ⟨rfl, -, hrest⟩ := hl
    have hne : nextOf m curr ≠ d ∧ nextOf m curr ≠ 0 := by
      cases l with
      | nil =>
        have hy : nextOf m curr = y := hrest.1
        rw [hy]
        exact ⟨fun h => hd (by simp [h]), hrest.2.1⟩
      | cons z l =>
        have hz : nextOf m curr = z := hrest.1
        rw [hz]
        exact ⟨fun h => hd (by simp [h]), hrest.2.1⟩
    rw [removeLoop, if_neg hne.2, if_neg hne.1]
    simp only [List.length_cons] at hf
    exact ih hrest (fun h => hd (List.mem_cons_of_mem _ h)) (by omega)

/-- The search ends, with the task it started from or a runnable task of the list. -/
theorem findMin_runnable {fuel curr low best : ℕ} {l : List ℕ} (hl : Chain (nextOf m) curr l)
    (hf : l.length < fuel) : ∃ b, findMin m fuel curr low best = some b ∧
      (b = best ∨ (b ∈ l ∧ (stateOf m b = taskReady ∨ stateOf m b = taskRunning))) := by
  induction l generalizing fuel curr low best with
  | nil =>
    obtain ⟨fuel, rfl⟩ := Nat.exists_eq_succ_of_ne_zero (Nat.ne_of_gt hf)
    have hcurr : curr = 0 := hl
    exact ⟨best, by rw [findMin, if_pos hcurr], Or.inl rfl⟩
  | cons x l ih =>
    obtain ⟨fuel, rfl⟩ := Nat.exists_eq_succ_of_ne_zero (Nat.ne_of_gt (Nat.zero_lt_of_lt hf))
    obtain ⟨rfl, h0, hrest⟩ := hl
    simp only [List.length_cons] at hf
    rw [findMin, if_neg h0]
    by_cases hrun : (stateOf m curr = taskReady ∨ stateOf m curr = taskRunning) ∧ vruntimeOf m curr < low
    · rw [if_pos hrun]
      obtain ⟨b, hb, hcase⟩ := @ih fuel _ (vruntimeOf m curr) curr hrest (by omega)
      refine ⟨b, hb, Or.inr ?_⟩
      rcases hcase with rfl | ⟨hmem, hst⟩
      · exact ⟨List.mem_cons_self, hrun.1⟩
      · exact ⟨List.mem_cons_of_mem _ hmem, hst⟩
    · rw [if_neg hrun]
      obtain ⟨b, hb, hcase⟩ := @ih fuel _ low best hrest (by omega)
      refine ⟨b, hb, ?_⟩
      rcases hcase with rfl | ⟨hmem, hst⟩
      · exact Or.inl rfl
      · exact Or.inr ⟨List.mem_cons_of_mem _ hmem, hst⟩

end Walks

theorem demote_spec {m : Mem} {prev : ℕ} (hp : prev+recordSize ≤ 4294967296) :
    SameOff (record prev) m (demote m prev) ∧ nextOf (demote m prev) prev = nextOf m prev ∧
      (stateOf m prev = taskRunning → stateOf (demote m prev) prev = taskReady) ∧
      (stateOf m prev ≠ taskRunning → stateOf (demote m prev) prev = stateOf m prev) := by
  unfold demote
  by_cases hrun : stateOf m prev = taskRunning
  · rw [if_pos hrun]
    refine ⟨(store_record hp (by decide)).trans (store_record hp (by decide)), ?_, fun _ => ?_,
      fun h => absurd hrun h⟩
    · rw [nextOf, store_other hp (by decide) (by decide) (by decide),
        store_other hp (by decide) (by decide) (by decide), nextOf]
    · rw [stateOf, store_other hp (by decide) (by decide) (by decide), load32_store32]
      rfl
  · rw [if_neg hrun]
    exact ⟨SameOff.refl _ m, rfl, fun h => absurd h hrun, fun _ => rfl⟩

section Steps

variable {im : Image} {k : Kernel} {l : List ℕ} {c : Cpu}

theorem listed_iff (hc : Chain (nextOf k.mem) k.taskListHead l) (t : ℕ) : Listed k t ↔ t ∈ l :=
  (chain_reach hc).symm

theorem mem_records (hc : Chain (nextOf k.mem) k.taskListHead l) (x : ℕ) :
    x ∈ records k ↔ ∃ t, (t = k.currentTask ∨ t ∈ l) ∧ x ∈ record t := by
  simp only [records, Set.mem_ofPred_eq, listed_iff hc]

theorem record_subset (hc : Chain (nextOf k.mem) k.taskListHead l) {t : ℕ}
    (ht : t = k.currentTask ∨ t ∈ l) : record t ⊆ records k :=
  fun x hx => (mem_records hc x).mpr ⟨t, ht, hx⟩

theorem frame_kept {k' : Kernel} (hf : SwitchFrame k c) (hr : records k' ⊆ records k)
    (hm : SameOff (records k) k.mem k'.mem) : SwitchFrame k' c := by
  have hret : load32 k'.mem c.regs.esp = load32 k.mem c.regs.esp := by
    refine load32_off hm (hf.stack.mono_left ?_)
    have hhigh := hf.high
    rw [span_eq (by omega)]
    exact Set.Ico_subset_Ico (by omega) (by omega)
  refine ⟨hf.low, hf.high, hf.stack.mono_right hr, ?_⟩
  rw [hret]
  exact hf.returnsToText.mono_right (Set.union_subset_union_left _ hr)

/-- `context_switch` writes only below its stack pointer and at its return address. -/
theorem switch_off (hf : SwitchFrame k c) {m : Mem} (hm : SameOff (records k) k.mem m) :
    SameOff (Set.compl (records k)) m (exec contextSwitch { c with mem := m }).mem := by
  have hframe := @frame_kept k c { k with mem := m } hf
  have hlow := hf.low
  have hhigh := hf.high
  have hword : load32 m c.regs.esp = load32 k.mem c.regs.esp := by
    refine load32_off hm (hf.stack.mono_left ?_)
    rw [span_eq (by omega)]
    exact Set.Ico_subset_Ico (by omega) (by omega)
  have hret : Disjoint (span (word { c with mem := m } 0) 4)
      (Set.Ico c.regs.esp (c.regs.esp+12)) := by
    change Disjoint (span (load32 m (c.regs.esp+4*0)) 4) _
    rw [Nat.mul_zero, Nat.add_zero, hword]
    exact hf.returnsToText.mono_right ((Set.Ico_subset_Ico (by omega) (by omega)).trans
      Set.subset_union_right)
  rw [exec_contextSwitch { c with mem := m } hlow hhigh hret, exec_pops]
  have hpush := pushWords_off m c.regs.esp (savedWords { c with mem := m })
    (by rw [savedWords_length]; exact hlow) (by omega)
  rw [savedWords_length] at hpush
  refine (hpush.mono ?_).trans ((store32_off _ _ _).mono ?_)
  · intro x hx hrec
    exact Set.disjoint_left.mp hf.stack ⟨by have := hx.1; omega, by have := hx.2; omega⟩ hrec
  · intro x hx hrec
    change x ∈ span (load32 m (c.regs.esp+4*0)) 4 at hx
    rw [Nat.mul_zero, Nat.add_zero, hword] at hx
    exact Set.disjoint_left.mp hf.returnsToText hx (Or.inl hrec)

/-- Switching to a ready task of the list keeps the invariant. -/
theorem switchTo_inv (hlink : Linked im) (hi : Inv im k l) (hf : SwitchFrame k c) {b : ℕ}
    (hb : b ∈ l) (hne : b ≠ k.currentTask) : Inv im (switchTo k c b) l := by
  have hspace : ∀ t, t = k.currentTask ∨ t ∈ l → t+recordSize ≤ 4294967296 := fun t ht =>
    (placed_space hlink (hi.placed t ht)).2
  have hcur := hspace _ (Or.inl rfl)
  have hbs := hspace b (Or.inr hb)
  obtain ⟨hdoff, hdnext, hdrun, hdkeep⟩ := @demote_spec k.mem k.currentTask hcur
  have hdis : ∀ t u, (t = k.currentTask ∨ t ∈ l) → (u = k.currentTask ∨ u ∈ l) → t ≠ u →
      Disjoint (record t) (record u) := fun t u ht hu =>
    placed_disjoint (hi.placed t ht) (hi.placed u hu)
  generalize hm : store32 (demote k.mem k.currentTask) (b+stateOffset) taskRunning = m
  have hboff : SameOff (record b) (demote k.mem k.currentTask) m :=
    hm ▸ store_record hbs (by decide)
  have hrec : SameOff (records k) k.mem m :=
    (hdoff.mono (record_subset hi.chain (Or.inl rfl))).trans
      (hboff.mono (record_subset hi.chain (Or.inr hb)))
  have hexec := switch_off hf hrec
  have hk : switchTo k c b =
      { k with mem := (exec contextSwitch { c with mem := m }).mem, currentTask := b } := by
    unfold switchTo
    rw [hm]
  generalize (exec contextSwitch { c with mem := m }).mem = m2 at hexec hk
  have hlast : ∀ t, t = k.currentTask ∨ t ∈ l → SameRecord m m2 t := fun t ht =>
    sameRecord_off hexec (Set.disjoint_left.mpr fun x hx hx' =>
      hx' (record_subset hi.chain ht hx)) (hspace t ht)
  have hother : ∀ t ∈ l, t ≠ k.currentTask → t ≠ b → SameRecord k.mem m t := by
    intro t ht htc htb
    have h1 := sameRecord_off hdoff (hdis t _ (Or.inr ht) (Or.inl rfl) htc) (hspace t (Or.inr ht))
    have h2 := sameRecord_off hboff (hdis t b (Or.inr ht) (Or.inr hb) htb) (hspace t (Or.inr ht))
    exact ⟨h2.state.trans h1.state, h2.next.trans h1.next⟩
  have hcurrent : SameRecord (demote k.mem k.currentTask) m k.currentTask :=
    sameRecord_off hboff (hdis _ b (Or.inl rfl) (Or.inr hb) (Ne.symm hne)) hcur
  have hbstate : stateOf m b = taskRunning := by
    rw [← hm, stateOf, load32_store32]
    rfl
  have hbnext : nextOf m b = nextOf k.mem b := by
    rw [← hm, nextOf, store_other hbs (by decide) (by decide) (by decide)]
    exact (sameRecord_off hdoff (hdis b _ (Or.inr hb) (Or.inl rfl) hne) hbs).next
  have hnext : ∀ t ∈ l, nextOf m t = nextOf k.mem t := by
    intro t ht
    by_cases htb : t = b
    · rw [htb, hbnext]
    · by_cases htc : t = k.currentTask
      · rw [htc, hcurrent.next, hdnext]
      · exact (hother t ht htc htb).next
  have hchain := seg_congr (fun t ht => (hlast t (Or.inr ht)).next.trans (hnext t ht)) hi.chain
  rw [hk]
  refine ⟨hi.padded, hi.far, hchain, ?_, ?_, ?_⟩
  · intro t ht
    change t = b ∨ t ∈ l at ht
    rcases ht with rfl | ht
    · exact hi.placed t (Or.inr hb)
    · exact hi.placed t (Or.inr ht)
  · intro t ht htb
    change t ≠ b at htb
    change stateOf m2 t = taskReady
    rw [(hlast t (Or.inr ht)).state]
    by_cases htc : t = k.currentTask
    · rw [htc, hcurrent.state]
      rcases hi.current with ⟨-, hrun⟩ | ⟨hout, -⟩
      · exact hdrun hrun
      · exact absurd (htc ▸ ht) hout
    · rw [(hother t ht htc htb).state]
      exact hi.ready t ht htc
  · exact Or.inl ⟨hb, (hlast b (Or.inr hb)).state.trans hbstate⟩

/-- The state in which `schedule` meets a dead current task. -/
structure Dying (im : Image) (k : Kernel) (l : List ℕ) : Prop where
  padded : Padded k.pmm
  far : ∀ p ∈ freeSet k.pmm, Far im p
  chain : Chain (nextOf k.mem) k.taskListHead l
  placed : ∀ t, t = k.currentTask ∨ t ∈ l → Placed im k.pmm t
  ready : ∀ t ∈ l, t ≠ k.currentTask → stateOf k.mem t = taskReady
  dead : stateOf k.mem k.currentTask = taskDead

/-- What the removal step of `schedule` leaves behind. -/
structure Dropped (im : Image) (k k' : Kernel) (l l' : List ℕ) : Prop where
  inv : Inv im k' l'
  current : k'.currentTask = k.currentTask
  subset : ∀ t ∈ l', t ∈ l
  off : SameOff (records k) k.mem k'.mem
  same : ∀ t, t = k.currentTask ∨ t ∈ l → stateOf k'.mem t = stateOf k.mem t

theorem Dropped.refl (hi : Inv im k l) : Dropped im k k l l :=
  ⟨hi, rfl, fun _ h => h, SameOff.refl _ _, fun _ _ => rfl⟩

theorem chain_bound (hlink : Linked im) (hc : Chain (nextOf k.mem) k.taskListHead l)
    (hp : ∀ t ∈ l, Placed im k.pmm t) : l.length < chainBound := by
  have hlen : l.length ≤ 4294967296 := by
    refine chain_length hc (fun t ht => ?_)
    have hs := placed_space hlink (hp t ht)
    unfold recordSize at hs
    omega
  unfold chainBound
  omega

theorem head_mem (hc : Chain (nextOf k.mem) k.taskListHead l) (h0 : k.taskListHead ≠ 0) :
    ∃ r, l = k.taskListHead::r := by
  cases l with
  | nil => exact absurd hc h0
  | cons x r => exact ⟨r, by rw [hc.1]⟩

/-- Taking the dead task out of the middle of the list. -/
theorem unlink_inv (hlink : Linked im) {l r : List ℕ} {y : ℕ}
    (hd : Dying im k (l++y::k.currentTask::r)) :
    Dropped im k { k with mem := store32 k.mem (y+nextOffset) (nextOf k.mem k.currentTask) }
      (l++y::k.currentTask::r) (l++y::r) := by
  have hnodup := chain_nodup hd.chain
  have hy : y ∈ l++y::k.currentTask::r := by simp
  have hys := (placed_space hlink (hd.placed y (Or.inr hy))).2
  have hsub : ∀ t ∈ l++y::r, t ∈ l++y::k.currentTask::r := by
    intro t ht
    simp only [List.mem_append, List.mem_cons] at ht ⊢
    tauto
  have hout : k.currentTask ∉ l++y::r := by
    have hperm : (k.currentTask::(l++y::r)).Nodup := by
      refine (List.Perm.nodup_iff ?_).mp hnodup
      have h1 : (l++y::k.currentTask::r).Perm (l++k.currentTask::y::r) :=
        (List.Perm.swap k.currentTask y r).append_left l
      exact h1.trans List.perm_middle
    exact (List.nodup_cons.mp hperm).1
  generalize hm : store32 k.mem (y+nextOffset) (nextOf k.mem k.currentTask) = m
  have hoff : SameOff (record y) k.mem m := hm ▸ store_record hys (by decide)
  have hnextlt : nextOf k.mem k.currentTask < 4294967296 := load32_lt _ _
  have hynext : nextOf m y = nextOf k.mem k.currentTask := by
    rw [← hm, nextOf, load32_store32, wrap_of_lt hnextlt]
  have hystate : stateOf m y = stateOf k.mem y := by
    rw [← hm, stateOf, store_other hys (by decide) (by decide) (by decide), stateOf]
  have hrest : ∀ t, t = k.currentTask ∨ t ∈ l++y::k.currentTask::r → t ≠ y → SameRecord k.mem m t := by
    intro t ht hty
    exact sameRecord_off hoff (placed_disjoint (hd.placed t ht) (hd.placed y (Or.inr hy)) hty)
      (placed_space hlink (hd.placed t ht)).2
  have hstate : ∀ t, t = k.currentTask ∨ t ∈ l++y::k.currentTask::r →
      stateOf m t = stateOf k.mem t := by
    intro t ht
    by_cases hty : t = y
    · rw [hty, hystate]
    · exact (hrest t ht hty).state
  have hchain : Chain (nextOf m) k.taskListHead (l++y::r) := by
    refine seg_congr (fun t ht => ?_) (chain_unlink hd.chain)
    by_cases hty : t = y
    · rw [hty, Function.update_self, hynext]
    · rw [Function.update_of_ne hty]
      exact (hrest t (Or.inr (hsub t ht)) hty).next
  have hcur : stateOf m k.currentTask = taskDead := (hstate _ (Or.inl rfl)).trans hd.dead
  refine ⟨⟨hd.padded, hd.far, hchain, ?_, ?_, Or.inr ⟨hout, hcur⟩⟩, rfl, hsub, ?_, hstate⟩
  · intro t ht
    exact hd.placed t (ht.imp_right (hsub t))
  · intro t ht hne
    exact (hstate t (Or.inr (hsub t ht))).trans (hd.ready t (hsub t ht) hne)
  · exact hoff.mono (record_subset hd.chain (Or.inr hy))

theorem dropDead_dying (hlink : Linked im) (hd : Dying im k l) (h0 : k.taskListHead ≠ 0) :
    ∃ k' l', dropDead k = some k' ∧ Dropped im k k' l l' := by
  have hc0 : k.currentTask ≠ 0 := Nat.ne_of_gt (placed_space hlink (hd.placed _ (Or.inl rfl))).1
  have hbound := chain_bound hlink hd.chain (fun t ht => hd.placed t (Or.inr ht))
  unfold dropDead schedulerRemoveTask
  rw [if_pos hd.dead, if_neg (by tauto)]
  by_cases hmem : k.currentTask ∈ l
  · obtain ⟨l1, r, rfl⟩ := List.append_of_mem hmem
    rcases List.eq_nil_or_concat l1 with rfl | ⟨l0, y, rfl⟩
    · have hhead : k.taskListHead = k.currentTask := hd.chain.1
      have hnodup := chain_nodup hd.chain
      refine ⟨_, r, if_pos hhead, ⟨hd.padded, hd.far, ?_, ?_, ?_, ?_⟩, rfl, ?_, SameOff.refl _ _,
        fun _ _ => rfl⟩
      · change Chain (nextOf k.mem) (nextOf k.mem k.taskListHead) r
        rw [hhead]
        exact hd.chain.2.2
      · intro t ht
        exact hd.placed t (ht.imp_right (List.mem_cons_of_mem _))
      · intro t ht hne
        exact hd.ready t (List.mem_cons_of_mem _ ht) hne
      · exact Or.inr ⟨(List.nodup_cons.mp hnodup).1, hd.dead⟩
      · intro t ht
        exact List.mem_cons_of_mem _ ht
    · rw [List.concat_eq_append, List.append_assoc] at hd hbound ⊢
      change Dying im k (l0++y::k.currentTask::r) at hd
      have hnodup := chain_nodup hd.chain
      have hbefore : k.currentTask ∉ l0++[y] := by
        intro h
        rw [show l0++y::k.currentTask::r = (l0++[y])++k.currentTask::r by simp] at hnodup
        exact List.disjoint_of_nodup_append hnodup h List.mem_cons_self
      have hhead : k.taskListHead ≠ k.currentTask := by
        intro h
        obtain ⟨t, ht⟩ := head_mem hd.chain h0
        cases l0 with
        | nil => exact hbefore (by simp [(List.cons.inj ht).1, h])
        | cons z l0 => exact hbefore (by simp [(List.cons.inj ht).1, h])
      have hfuel : l0.length < chainBound := by
        simp only [List.length_append] at hbound
        omega
      refine ⟨_, l0++y::r, ?_, unlink_inv hlink hd⟩
      rw [if_neg hhead, removeLoop_present hd.chain hbefore hfuel, Option.map_some]
  · have hhead : k.taskListHead ≠ k.currentTask := by
      intro h
      exact hmem (h ▸ chain_head hd.chain h0)
    obtain ⟨r, rfl⟩ := head_mem hd.chain h0
    have habsent : removeLoop k.mem k.currentTask chainBound k.taskListHead = some k.mem := by
      refine removeLoop_absent hd.chain (fun h => hmem (List.mem_cons_of_mem _ h)) ?_
      simp only [List.length_cons] at hbound
      omega
    refine ⟨k, _, ?_, Dropped.refl ⟨hd.padded, hd.far, hd.chain, hd.placed, hd.ready,
      Or.inr ⟨hmem, hd.dead⟩⟩⟩
    rw [if_neg hhead, habsent, Option.map_some]

/-- The outcome of `schedule` from a state with the list `l`. -/
structure Scheduled (im : Image) (k k' : Kernel) (l l' : List ℕ) : Prop where
  inv : Inv im k' l'
  successor : k'.currentTask ≠ k.currentTask →
    k'.currentTask ∈ l ∧ stateOf k.mem k'.currentTask = taskReady
  stays : k'.currentTask = k.currentTask → stateOf k'.mem k.currentTask = stateOf k.mem k.currentTask

theorem records_subset {k' : Kernel} {l' : List ℕ} (hc : Chain (nextOf k.mem) k.taskListHead l)
    (hc' : Chain (nextOf k'.mem) k'.taskListHead l') (hcur : k'.currentTask = k.currentTask)
    (hsub : ∀ t ∈ l', t ∈ l) : records k' ⊆ records k := by
  intro x hx
  obtain ⟨t, ht, hxt⟩ := (mem_records hc' x).mp hx
  rw [hcur] at ht
  exact (mem_records hc x).mpr ⟨t, ht.imp_right (hsub t), hxt⟩

theorem schedule_dropped (hlink : Linked im) {k1 : Kernel} {l1 : List ℕ}
    (hc : Chain (nextOf k.mem) k.taskListHead l) (hcur : k.currentTask ≠ 0)
    (h0 : k.taskListHead ≠ 0) (hdrop : dropDead k = some k1) (hd : Dropped im k k1 l l1)
    (hf : SwitchFrame k c) : ∃ k' l', schedule k c = some k' ∧ Scheduled im k k' l l' := by
  have hi := hd.inv
  have hbound := chain_bound hlink hi.chain (fun t ht => hi.placed t (Or.inr ht))
  obtain ⟨b, hb, hcase⟩ := @findMin_runnable k1.mem chainBound k1.taskListHead 0xFFFFFFFF 0 l1
    hi.chain hbound
  have hsched : schedule k c =
      some (if b = 0 ∨ b = k1.currentTask then k1 else switchTo k1 c b) := by
    unfold schedule
    rw [if_neg (by tauto), hdrop, Option.bind_some, hb, Option.map_some]
  by_cases hkeep : b = 0 ∨ b = k1.currentTask
  · rw [if_pos hkeep] at hsched
    exact ⟨k1, l1, hsched, hi, fun h => absurd hd.current h, fun _ => hd.same _ (Or.inl rfl)⟩
  · rw [if_neg hkeep] at hsched
    have hb0 : b ≠ 0 := fun h => hkeep (Or.inl h)
    have hbc : b ≠ k1.currentTask := fun h => hkeep (Or.inr h)
    have hbl : b ∈ l1 := by
      rcases hcase with h | ⟨h, -⟩
      · exact absurd h hb0
      · exact h
    have hframe := frame_kept hf (records_subset hc hi.chain hd.current hd.subset) hd.off
    have hnew : (switchTo k1 c b).currentTask = b := rfl
    refine ⟨_, l1, hsched, switchTo_inv hlink hi hframe hbl hbc, fun _ => ?_, fun h => ?_⟩
    · rw [hnew, ← hd.same b (Or.inr (hd.subset b hbl))]
      exact ⟨hd.subset b hbl, hi.ready b hbl hbc⟩
    · rw [hnew, ← hd.current] at h
      exact absurd h hbc

theorem schedule_inv (hlink : Linked im) (hi : Inv im k l) (h0 : k.taskListHead ≠ 0)
    (hf : SwitchFrame k c) : ∃ k' l', schedule k c = some k' ∧ Scheduled im k k' l l' := by
  have hc0 : k.currentTask ≠ 0 := Nat.ne_of_gt (placed_space hlink (hi.placed _ (Or.inl rfl))).1
  rcases hi.current with ⟨hmem, hrun⟩ | ⟨hout, hdead⟩
  · have hdrop : dropDead k = some k := by
      unfold dropDead
      rw [if_neg (by rw [hrun]; decide)]
    exact schedule_dropped hlink hi.chain hc0 h0 hdrop (Dropped.refl hi) hf
  · obtain ⟨k1, l1, hdrop, hd⟩ := dropDead_dying hlink
      ⟨hi.padded, hi.far, hi.chain, hi.placed, hi.ready, hdead⟩ h0
    exact schedule_dropped hlink hi.chain hc0 h0 hdrop hd hf

theorem exit_dying (hlink : Linked im) (hi : Inv im k l) {m : Mem}
    (hm : store32 k.mem (k.currentTask+stateOffset) taskDead = m) :
    Dying im { k with mem := m } l ∧ SameOff (records k) k.mem m ∧
      ∀ t ∈ l, t ≠ k.currentTask → stateOf m t = stateOf k.mem t := by
  have hcur := (placed_space hlink (hi.placed _ (Or.inl rfl))).2
  have hoff : SameOff (record k.currentTask) k.mem m := hm ▸ store_record hcur (by decide)
  have hrest : ∀ t ∈ l, t ≠ k.currentTask → SameRecord k.mem m t := by
    intro t ht hne
    exact sameRecord_off hoff
      (placed_disjoint (hi.placed t (Or.inr ht)) (hi.placed _ (Or.inl rfl)) hne)
      (placed_space hlink (hi.placed t (Or.inr ht))).2
  have hnext : ∀ t ∈ l, nextOf m t = nextOf k.mem t := by
    intro t ht
    by_cases hne : t = k.currentTask
    · rw [hne, ← hm, nextOf, store_other hcur (by decide) (by decide) (by decide), nextOf]
    · exact (hrest t ht hne).next
  have hdead : stateOf m k.currentTask = taskDead := by
    rw [← hm, stateOf, load32_store32]
    rfl
  refine ⟨⟨hi.padded, hi.far, seg_congr hnext hi.chain, hi.placed, ?_, hdead⟩, ?_, ?_⟩
  · intro t ht hne
    exact (hrest t ht hne).state.trans (hi.ready t ht hne)
  · exact hoff.mono (record_subset hi.chain (Or.inl rfl))
  · exact fun t ht hne => (hrest t ht hne).state

theorem exit_inv (hlink : Linked im) (hi : Inv im k l) (h0 : k.taskListHead ≠ 0)
    (hf : SwitchFrame k c) : ∃ k' l', taskExit k c = some k' ∧ Inv im k' l' ∧
      (k'.currentTask ≠ k.currentTask →
        k'.currentTask ∈ l ∧ stateOf k.mem k'.currentTask = taskReady) ∧
      (k'.currentTask = k.currentTask → stateOf k'.mem k'.currentTask = taskDead) := by
  have hc0 : k.currentTask ≠ 0 := Nat.ne_of_gt (placed_space hlink (hi.placed _ (Or.inl rfl))).1
  unfold taskExit
  rw [if_neg hc0]
  generalize hm : store32 k.mem (k.currentTask+stateOffset) taskDead = m
  obtain ⟨hdying, hoff, hsame⟩ := exit_dying hlink hi hm
  have hframe : SwitchFrame { k with mem := m } c :=
    frame_kept hf (records_subset hi.chain hdying.chain rfl (fun _ h => h)) hoff
  obtain ⟨k1, l1, hdrop, hd⟩ := dropDead_dying hlink hdying h0
  obtain ⟨k', l', hsched, hs⟩ := schedule_dropped hlink hdying.chain hc0 h0 hdrop hd hframe
  refine ⟨k', l', hsched, hs.inv, fun hne => ?_, fun heq => ?_⟩
  · have hnew := hs.successor hne
    exact ⟨hnew.1, (hsame _ hnew.1 hne).symm.trans hnew.2⟩
  · have hstay := hs.stays heq
    rw [heq, hstay]
    exact hdying.dead

end Steps

section Create

variable {im : Image} {k : Kernel} {l : List ℕ}

theorem alloc_page {s : Pmm} (hs : Padded s) (h : (pmmAllocPage s).1 ≠ 0) :
    ∃ p, (pmmAllocPage s).1 = p*pageSize ∧ 0 < p ∧ p < 1048576 ∧ p ∈ freeSet s ∧
      freeSet (pmmAllocPage s).2 = freeSet s \ {p} := by
  rcases alloc_cases s hs with ⟨-, ha⟩ | ⟨p, hp, ha⟩
  · rw [ha] at h
    exact absurd rfl h
  · rw [ha] at h ⊢
    have hlt := freeSet_lt s hp.1
    have haddr := hs.addressable
    refine ⟨p, rfl, ?_, by omega, hp.1, takePage_free s p⟩
    exact Nat.pos_of_ne_zero (fun h0 => h (by rw [h0, Nat.zero_mul]))

theorem alloc_subset {s : Pmm} (hs : Padded s) : freeSet (pmmAllocPage s).2 ⊆ freeSet s := by
  rcases alloc_cases s hs with ⟨-, ha⟩ | ⟨p, -, ha⟩
  · rw [ha]
  · rw [ha, takePage_free]
    exact Set.sdiff_subset

theorem copyName_off (m : Mem) (dst src n i : ℕ) :
    SameOff (span (dst+i) (n+1)) m (copyName m dst src n i) := by
  induction n generalizing m i with
  | zero => exact store8_off m (dst+i) 0
  | succ n ih =>
    rw [copyName]
    by_cases hend : load8 m (src+i) = 0
    · rw [if_pos hend]
      exact (store8_off m (dst+i) 0).mono (span_mono (by omega))
    · rw [if_neg hend]
      refine ((store8_off m (dst+i) _).mono (span_mono (by omega))).trans ((ih _ (i+1)).mono ?_)
      rw [← Nat.add_assoc]
      exact span_shift (by omega)

theorem strncpyManual_off (m : Mem) (dst src : ℕ) : SameOff (span dst 32) m (strncpyManual m dst src 32) := by
  unfold strncpyManual
  by_cases hsrc : src = 0
  · rw [if_pos hsrc]
    exact (store8_off m dst 0).mono (span_mono (by decide))
  · rw [if_neg hsrc]
    exact copyName_off m dst src 31 0

theorem name_record {m : Mem} {t src : ℕ} (ht : t+recordSize ≤ 4294967296) :
    SameOff (record t) m (strncpyManual m (t+nameOffset) src 32) := by
  refine (strncpyManual_off m (t+nameOffset) src).mono ?_
  unfold record recordSize nameOffset at *
  rw [span_eq (by omega)]
  exact Set.Ico_subset_Ico (by omega) (by omega)

theorem writeRecord_off {m : Mem} {t pid name state priority : ℕ} (ht : t+recordSize ≤ 4294967296) :
    SameOff (record t) m (writeRecord m t pid name state priority) := by
  unfold writeRecord
  dsimp only
  refine SameOff.trans ?_ (store_record ht (by decide))
  refine SameOff.trans ?_ (store_record ht (by decide))
  refine SameOff.trans ?_ (store_record ht (by decide))
  refine SameOff.trans ?_ (store_record ht (by decide))
  exact SameOff.trans (store_record (i := 0) ht (by decide)) (name_record ht)

theorem writeRecord_fields {m : Mem} {t pid name priority : ℕ} (ht : t+recordSize ≤ 4294967296) :
    stateOf (writeRecord m t pid name taskReady priority) t = taskReady ∧
      nextOf (writeRecord m t pid name taskReady priority) t = 0 := by
  unfold writeRecord
  constructor
  · rw [stateOf, store_other ht (by decide) (by decide) (by decide),
      store_other ht (by decide) (by decide) (by decide),
      store_other ht (by decide) (by decide) (by decide), load32_store32]
    rfl
  · rw [nextOf, load32_store32]
    rfl

/-- The words pushed from `sp`, also when the stack pointer wraps at the first push. -/
theorem push_off (m : Mem) (v : ℕ) (vs : List ℕ) (sp : ℕ) (h : sp = 0 ∨ 4*vs.length+4 ≤ sp)
    (hlen : 4*vs.length + 4 ≤ 4294967296) (hsp : sp < 4294967296) :
    SameOff {x | ∃ top, (top = sp ∨ (sp = 0 ∧ top = 4294967296)) ∧ top - (4*vs.length+4) ≤ x ∧ x < top}
      m (pushWords m sp (v::vs)).1 := by
  rcases h with rfl | h
  · have hs : sub32 0 4 = 4294967292 := by decide
    rw [pushWords, hs]
    have hstore := store32_off m 4294967292 v
    rw [span_eq (by decide)] at hstore
    have hrest := pushWords_off (store32 m 4294967292 v) 4294967292 vs (by omega) (by decide)
    refine (hstore.mono ?_).trans (hrest.mono ?_)
    · intro x hx
      obtain ⟨h1, h2⟩ := hx
      exact ⟨4294967296, Or.inr ⟨rfl, rfl⟩, by omega, by omega⟩
    · intro x hx
      obtain ⟨h1, h2⟩ := hx
      exact ⟨4294967296, Or.inr ⟨rfl, rfl⟩, by omega, by omega⟩
  · have hoff := pushWords_off m sp (v::vs) (by simp only [List.length_cons]; omega) hsp
    refine hoff.mono (fun x hx => ?_)
    simp only [List.length_cons] at hx
    obtain ⟨h1, h2⟩ := hx
    exact ⟨sp, Or.inl rfl, by omega, h2⟩

/-- The first frame is written at the end of the page above the stack's first page. -/
theorem frame_off {m : Mem} {p entry : ℕ} :
    SameOff {x | 4056 ≤ x % 4096 ∧ x / 4096 = (p+1) % 1048576} m
      (pushWords m (wrap (p*pageSize+taskStackSize)) (frameWords entry)).1 := by
  have hsp := wrap_lt (p*pageSize+taskStackSize)
  have hval : wrap (p*pageSize+taskStackSize) = (p+2) % 1048576 * 4096 := by
    unfold wrap pageSize taskStackSize
    omega
  rw [hval] at hsp ⊢
  have hoff := push_off m entry [0x202, 0, 0, 0, 0, 0, 0, 0, 0] ((p+2) % 1048576 * 4096)
    (by simp only [List.length_cons, List.length_nil]; omega) (by decide) hsp
  refine hoff.mono (fun x hx => ?_)
  simp only [List.length_cons, List.length_nil, Set.mem_ofPred_eq] at hx ⊢
  obtain ⟨top, htop, h1, h2⟩ := hx
  omega

/-- Where the first frame of a task with the stack page `p` is written. -/
def frameRegion (p : ℕ) : Set ℕ := {x | 4056 ≤ x % 4096 ∧ x / 4096 = (p+1) % 1048576}

theorem frame_disjoint (hlink : Linked im) {pmm : Pmm} {t p : ℕ} (ht : Placed im pmm t)
    (hp : p < 1048576) (hfar : Far im p) : Disjoint (record t) (frameRegion p) := by
  rw [Set.disjoint_left]
  rintro x ⟨h1, h2⟩ ⟨h3, h4⟩
  have hlow := hlink.low
  unfold Far recordSize pageSize at hfar
  unfold recordSize at h2
  unfold pageSize at hlow
  rcases ht with rfl | ⟨q, rfl, -, -, -, -⟩
  · omega
  · unfold pageSize at h1 h2
    omega

/-- Writes off the records and a page pool that still owns the task pages keep the invariant. -/
theorem inv_off (hlink : Linked im) (hi : Inv im k l) {R : Set ℕ} {m : Mem} {s : Pmm} {n : ℕ}
    (hm : SameOff R k.mem m) (hd : ∀ t, t = k.currentTask ∨ t ∈ l → Disjoint (record t) R)
    (hp : Padded s)
    (hfree : ∀ p ∈ freeSet s, Far im p ∧ ∀ t, t = k.currentTask ∨ t ∈ l →
      p ∈ freeSet k.pmm ∨ t ≠ p*pageSize) :
    Inv im { k with mem := m, pmm := s, nextPid := n } l ∧
      stateOf m k.currentTask = stateOf k.mem k.currentTask := by
  have hsame : ∀ t, t = k.currentTask ∨ t ∈ l → SameRecord k.mem m t := fun t ht =>
    sameRecord_off hm (hd t ht) (placed_space hlink (hi.placed t ht)).2
  refine ⟨⟨hp, fun p h => (hfree p h).1, ?_, ?_, ?_, ?_⟩, (hsame _ (Or.inl rfl)).state⟩
  · exact seg_congr (fun t ht => (hsame t (Or.inr ht)).next) hi.chain
  · intro t ht
    exact placed_mono (fun p h => (hfree p h).2 t ht) (hi.placed t ht)
  · intro t ht hne
    exact (hsame t (Or.inr ht)).state.trans (hi.ready t ht hne)
  · rcases hi.current with ⟨hin, hrun⟩ | ⟨hout, hdead⟩
    · exact Or.inl ⟨hin, (hsame _ (Or.inl rfl)).state.trans hrun⟩
    · exact Or.inr ⟨hout, (hsame _ (Or.inl rfl)).state.trans hdead⟩

theorem lastTask_end {m : Mem} {fuel curr y : ℕ} {l : List ℕ}
    (hl : Chain (nextOf m) curr (l++[y])) (hf : l.length < fuel) :
    lastTask m fuel curr = some y := by
  induction l generalizing fuel curr with
  | nil =>
    obtain ⟨fuel, rfl⟩ := Nat.exists_eq_succ_of_ne_zero (Nat.ne_of_gt hf)
    obtain ⟨rfl, -, hend⟩ := hl
    rw [lastTask, if_pos (show load32 m (curr+nextOffset) = 0 from hend)]
  | cons x l ih =>
    obtain ⟨fuel, rfl⟩ := Nat.exists_eq_succ_of_ne_zero (Nat.ne_of_gt (Nat.zero_lt_of_lt hf))
    have hne := chain_next_ne hl (List.append_ne_nil_of_right_ne_nil l (List.cons_ne_nil y []))
    obtain ⟨rfl, -, hrest⟩ := hl
    rw [lastTask, if_neg (show ¬ load32 m (curr+nextOffset) = 0 from hne)]
    simp only [List.length_cons] at hf
    exact ih hrest (by omega)

/-- Linking a new ready record behind the last one. -/
theorem append_inv (hlink : Linked im) (hi : Inv im k l) {y task : ℕ} {l0 : List ℕ}
    (hl : l = l0++[y]) (ht : Placed im k.pmm task) (hnew : task ≠ k.currentTask ∧ task ∉ l)
    (hstate : stateOf k.mem task = taskReady) (hnext : nextOf k.mem task = 0) :
    Inv im { k with mem := store32 k.mem (y+nextOffset) task } (l++[task]) ∧
      stateOf (store32 k.mem (y+nextOffset) task) k.currentTask = stateOf k.mem k.currentTask := by
  have hyl : y ∈ l := by simp [hl]
  have hys := (placed_space hlink (hi.placed y (Or.inr hyl))).2
  have hts := placed_space hlink ht
  generalize hm : store32 k.mem (y+nextOffset) task = m
  have hoff : SameOff (record y) k.mem m := hm ▸ store_record hys (by decide)
  have hplaced : ∀ t, t = k.currentTask ∨ t ∈ l++[task] → Placed im k.pmm t := by
    intro t h
    rcases h with h | h
    · exact hi.placed t (Or.inl h)
    · rcases List.mem_append.mp h with h | h
      · exact hi.placed t (Or.inr h)
      · rw [List.mem_singleton.mp h]
        exact ht
  have hrest : ∀ t, t = k.currentTask ∨ t ∈ l++[task] → t ≠ y → SameRecord k.mem m t := by
    intro t h hty
    exact sameRecord_off hoff (placed_disjoint (hplaced t h) (hi.placed y (Or.inr hyl)) hty)
      (placed_space hlink (hplaced t h)).2
  have hystate : stateOf m y = stateOf k.mem y := by
    rw [← hm, stateOf, store_other hys (by decide) (by decide) (by decide), stateOf]
  have hynext : nextOf m y = task := by
    unfold recordSize at hts
    rw [← hm, nextOf, load32_store32, wrap_of_lt (by omega)]
  have hsame : ∀ t, t = k.currentTask ∨ t ∈ l++[task] → stateOf m t = stateOf k.mem t := by
    intro t h
    by_cases hty : t = y
    · rw [hty, hystate]
    · exact (hrest t h hty).state
  have htask : task ∈ l++[task] := by simp
  have hty : task ≠ y := fun h => hnew.2 (h ▸ hyl)
  have hchain : Chain (nextOf m) k.taskListHead (l++[task]) := by
    have hc := hi.chain
    have hnot := hnew.2
    rw [hl] at hc hnot
    rw [hl] at htask hrest ⊢
    refine seg_congr (fun t h => ?_) (chain_append hc hnot (Nat.ne_of_gt hts.1))
    by_cases htt : t = task
    · rw [htt, Function.update_self, (hrest task (Or.inr htask) hty).next, hnext]
    · rw [Function.update_of_ne htt]
      by_cases hlast : t = y
      · rw [hlast, Function.update_self, hynext]
      · rw [Function.update_of_ne hlast, (hrest t (Or.inr h) hlast).next]
  refine ⟨⟨hi.padded, hi.far, hchain, hplaced, ?_, ?_⟩, hsame _ (Or.inl rfl)⟩
  · intro t h hne
    rw [hsame t (Or.inr h)]
    rcases List.mem_append.mp h with h | h
    · exact hi.ready t h hne
    · rw [List.mem_singleton.mp h]
      exact hstate
  · rcases hi.current with ⟨hin, hrun⟩ | ⟨hout, hdead⟩
    · exact Or.inl ⟨List.mem_append_left _ hin, (hsame _ (Or.inl rfl)).trans hrun⟩
    · refine Or.inr ⟨fun h => ?_, (hsame _ (Or.inl rfl)).trans hdead⟩
      rcases List.mem_append.mp h with h | h
      · exact hout h
      · exact hnew.1 (List.mem_singleton.mp h).symm

/-- A page taken from the pool lies under no task record. -/
theorem fresh_apart (hlink : Linked im) (hi : Inv im k l) {p t : ℕ} (hp : p ∈ freeSet k.pmm)
    (ht : t = k.currentTask ∨ t ∈ l) : t ≠ p*pageSize ∧ Disjoint (record t) (record (p*pageSize)) := by
  have hfar := hi.far p hp
  have hlow := hlink.low
  unfold Far recordSize at hfar
  rcases hi.placed t ht with rfl | ⟨q, rfl, -, -, hq, -⟩
  · unfold record recordSize pageSize at *
    rw [Set.Ico_disjoint_Ico]
    omega
  · have hne : q ≠ p := fun h => hq (h ▸ hp)
    unfold record recordSize pageSize at *
    rw [Set.Ico_disjoint_Ico]
    omega

/-- A new record is ready and ends the list. -/
theorem fresh_ready {m : Mem} {t pid name priority stack : ℕ} (ht : t+recordSize ≤ 4294967296) :
    ∃ m', store32 (writeRecord m t pid name taskReady priority) (t+stackBaseOffset) stack = m' ∧
      SameOff (record t) m m' ∧ stateOf m' t = taskReady ∧ nextOf m' t = 0 := by
  have hw := @writeRecord_fields m t pid name priority ht
  refine ⟨_, rfl, (writeRecord_off ht).trans (store_record ht (by decide)), ?_, ?_⟩
  · rw [stateOf, store_other ht (by decide) (by decide) (by decide)]
    exact hw.1
  · rw [nextOf, store_other ht (by decide) (by decide) (by decide)]
    exact hw.2

/-- It stays so when the frame is pushed and the stack pointer is stored. -/
theorem framed_ready {m : Mem} {t f entry : ℕ} (ht : t+recordSize ≤ 4294967296)
    (hd : Disjoint (record t) (frameRegion f)) (hstate : stateOf m t = taskReady) (hnext : nextOf m t = 0) :
    ∃ m', store32 (pushWords m (wrap (f*pageSize+taskStackSize)) (frameWords entry)).1 (t+espOffset)
        (pushWords m (wrap (f*pageSize+taskStackSize)) (frameWords entry)).2 = m' ∧
      SameOff (record t ∪ frameRegion f) m m' ∧ stateOf m' t = taskReady ∧ nextOf m' t = 0 := by
  have hoff : SameOff (frameRegion f) m (pushWords m (wrap (f*pageSize+taskStackSize)) (frameWords entry)).1 := frame_off
  have hrec := sameRecord_off hoff hd ht
  refine ⟨_, rfl, ?_, ?_, ?_⟩
  · exact (hoff.mono Set.subset_union_right).trans ((store_record ht (by decide)).mono Set.subset_union_left)
  · rw [stateOf, store_other ht (by decide) (by decide) (by decide)]
    exact hrec.state.trans hstate
  · rw [nextOf, store_other ht (by decide) (by decide) (by decide)]
    exact hrec.next.trans hnext

/-- The link behind the last record leaves the run times. -/
theorem linked_vruntime {m : Mem} {pmm : Pmm} {y t task : ℕ} (hlink : Linked im) (hy : Placed im pmm y)
    (ht : Placed im pmm t) : vruntimeOf (store32 m (y+nextOffset) task) t = vruntimeOf m t := by
  have hys := (placed_space hlink hy).2
  by_cases hty : t = y
  · rw [hty, vruntimeOf, store_other hys (by decide) (by decide) (by decide), vruntimeOf]
  · exact field_off (store_record hys (by decide)) (placed_disjoint ht hy hty) (placed_space hlink ht).2 (by decide)

theorem create_inv (hlink : Linked im) (hi : Inv im k l) (h0 : k.taskListHead ≠ 0)
    (name entry priority : ℕ) : ∃ r k' l', taskCreate im k name entry priority = some (r, k') ∧
      Inv im k' l' ∧ k'.currentTask = k.currentTask ∧
      stateOf k'.mem k.currentTask = stateOf k.mem k.currentTask ∧
      ∀ t, t = k.currentTask ∨ t ∈ l → vruntimeOf k'.mem t = vruntimeOf k.mem t := by
  have hspaces : ∀ t, t = k.currentTask ∨ t ∈ l → t+recordSize ≤ 4294967296 := fun t ht =>
    (placed_space hlink (hi.placed t ht)).2
  unfold taskCreate
  dsimp only
  by_cases hpage : (pmmAllocPage k.pmm).1 = 0
  · rw [if_pos hpage]
    have hoff := inv_off (m := k.mem) (s := (pmmAllocPage k.pmm).2) (n := k.nextPid) hlink hi
      (SameOff.refl ∅ k.mem) (fun _ _ => Set.disjoint_empty _) (alloc_padded k.pmm hi.padded)
      (fun q hq => ⟨hi.far q (alloc_subset hi.padded hq), fun _ _ =>
        Or.inl (alloc_subset hi.padded hq)⟩)
    exact ⟨0, _, l, rfl, hoff.1, rfl, hoff.2, fun _ _ => rfl⟩
  · rw [if_neg hpage]
    obtain ⟨p, htask, hp0, hplt, hp, hfree1⟩ := alloc_page hi.padded hpage
    have hfar := hi.far p hp
    have hpad1 := alloc_padded k.pmm hi.padded
    have hapart : ∀ t, t = k.currentTask ∨ t ∈ l → t ≠ p*pageSize ∧
        Disjoint (record t) (record (p*pageSize)) := fun t ht => fresh_apart hlink hi hp ht
    have hspace : p*pageSize+recordSize ≤ 4294967296 := by
      unfold pageSize recordSize
      omega
    have htotal : p < k.pmm.totalPages := freeSet_lt k.pmm hp
    rw [htask]
    generalize hpmm1 : (pmmAllocPage k.pmm).2 = pmm1 at *
    obtain ⟨m2, hm2, hoff2, hstate2, hnext2⟩ := @fresh_ready k.mem (p*pageSize) k.nextPid
      (if name = 0 then im.defaultName else name) priority (pmmAllocPage pmm1).1 hspace
    rw [hm2]
    have hsub2 := alloc_subset hpad1
    have hpad2 := alloc_padded pmm1 hpad1
    by_cases hstack : (pmmAllocPage pmm1).1 = 0
    · rw [if_pos hstack]
      have htot2 : pageIndex (p*pageSize) < (pmmAllocPage pmm1).2.totalPages := by
        rw [alloc_totalPages, ← hpmm1, alloc_totalPages, pageIndex, Nat.mul_div_cancel p (by decide)]
        exact htotal
      have hback : ∀ q ∈ freeSet (pmmFreePage (pmmAllocPage pmm1).2 (p*pageSize)), q ∈ freeSet k.pmm := by
        intro q hq
        rw [free_freeSet _ _ htot2, pageIndex, Nat.mul_div_cancel p (by decide)] at hq
        rcases hq with rfl | hq
        · exact hp
        · exact (hfree1 ▸ hsub2 hq : q ∈ freeSet k.pmm \ {p}).1
      have hoff := inv_off (n := wrap (k.nextPid+1)) hlink hi hoff2 (fun t ht => (hapart t ht).2)
        (free_padded _ (p*pageSize) hpad2)
        (fun q hq => ⟨hi.far q (hback q hq), fun _ _ => Or.inl (hback q hq)⟩)
      exact ⟨0, _, l, rfl, hoff.1, rfl, hoff.2, fun t ht =>
        field_off hoff2 (hapart t ht).2 (hspaces t ht) (by decide)⟩
    · rw [if_neg hstack]
      obtain ⟨f, hfirst, -, hflt, hf, hfree2⟩ := alloc_page hpad1 hstack
      have hfk : f ∈ freeSet k.pmm := (hfree1 ▸ hf : f ∈ freeSet k.pmm \ {p}).1
      have hpad3 := alloc_padded (pmmAllocPage pmm1).2 hpad2
      have hsub3 := alloc_subset hpad2
      have hfree3 : ∀ q ∈ freeSet (pmmAllocPage (pmmAllocPage pmm1).2).2, q ∈ freeSet k.pmm \ {p} :=
        fun q hq => hfree1 ▸ hsub2 (hsub3 hq)
      rw [hfirst]
      have hframe : ∀ t, Placed im pmm1 t → Disjoint (record t) (frameRegion f) := fun t ht =>
        frame_disjoint hlink ht hflt (hi.far f hfk)
      have hnew : Placed im (pmmAllocPage (pmmAllocPage pmm1).2).2 (p*pageSize) :=
        Or.inr ⟨p, rfl, hp0, hplt, fun h => (hfree3 p h).2 rfl, hfar⟩
      have hnew1 : Placed im pmm1 (p*pageSize) :=
        Or.inr ⟨p, rfl, hp0, hplt, fun h => (hfree1 ▸ h : p ∈ freeSet k.pmm \ {p}).2 rfl, hfar⟩
      obtain ⟨m4, hm4, hoff24, hstate, hnext⟩ := @framed_ready m2 (p*pageSize) f entry hspace (hframe _ hnew1) hstate2
        hnext2
      rw [hm4]
      have hoff4 : SameOff (record (p*pageSize) ∪ frameRegion f) k.mem m4 :=
        (hoff2.mono Set.subset_union_left).trans hoff24
      have hstay : ∀ t, t = k.currentTask ∨ t ∈ l → Placed im pmm1 t := fun t ht =>
        placed_mono (fun q hq => Or.inl (hfree1 ▸ hq : q ∈ freeSet k.pmm \ {p}).1) (hi.placed t ht)
      have hclear : ∀ t, t = k.currentTask ∨ t ∈ l →
          Disjoint (record t) (record (p*pageSize) ∪ frameRegion f) := fun t ht =>
        Set.disjoint_union_right.mpr ⟨(hapart t ht).2, hframe t (hstay t ht)⟩
      have hkept := inv_off (n := wrap (k.nextPid+1)) hlink hi hoff4 hclear hpad3
        (fun q hq => ⟨hi.far q (hfree3 q hq).1, fun _ _ => Or.inl (hfree3 q hq).1⟩)
      have hfresh : p*pageSize ≠ k.currentTask ∧ p*pageSize ∉ l := by
        constructor
        · exact Ne.symm (hapart _ (Or.inl rfl)).1
        · exact fun h => (hapart _ (Or.inr h)).1 rfl
      obtain ⟨l0, y, hl⟩ : ∃ l0 y, l = l0++[y] := by
        obtain ⟨r, hr⟩ := head_mem hi.chain h0
        rcases List.eq_nil_or_concat l with h | ⟨l0, y, h⟩
        · rw [h] at hr
          cases hr
        · exact ⟨l0, y, by rw [h, List.concat_eq_append]⟩
      have hbound := chain_bound hlink hi.chain (fun t ht => hi.placed t (Or.inr ht))
      have hlast : lastTask m4 chainBound k.taskListHead = some y := by
        refine lastTask_end (hl ▸ hkept.1.chain) ?_
        rw [hl, List.length_append] at hbound
        omega
      have happ := append_inv hlink hkept.1 hl hnew hfresh hstate hnext
      rw [hlast, Option.map_some]
      refine ⟨p*pageSize, _, l++[p*pageSize], rfl, happ.1, rfl, happ.2.trans hkept.2, fun t ht => ?_⟩
      have hyl : y ∈ l := by simp [hl]
      exact (linked_vruntime hlink (hi.placed y (Or.inr hyl)) (hi.placed t ht)).trans
        (field_off hoff4 (hclear t ht) (hspaces t ht) (by decide))

end Create

section Runs

variable {im : Image}

theorem taskInit_inv (hlink : Linked im) (k : Kernel) (hp : Padded k.pmm)
    (hfar : ∀ p ∈ freeSet k.pmm, Far im p) : Inv im (taskInit im k) [im.kernelTask] := by
  have hs := hlink.high
  have hlow := hlink.low
  have hfields : stateOf (taskInit im k).mem im.kernelTask = taskRunning ∧
      nextOf (taskInit im k).mem im.kernelTask = 0 := by
    unfold taskInit
    dsimp only
    constructor
    · rw [stateOf, store_other hs (by decide) (by decide) (by decide),
        store_other hs (by decide) (by decide) (by decide),
        store_other hs (by decide) (by decide) (by decide),
        store_other hs (by decide) (by decide) (by decide),
        store_other hs (by decide) (by decide) (by decide), load32_store32]
      rfl
    · rw [nextOf, load32_store32]
      rfl
  have hne : im.kernelTask ≠ 0 := by
    unfold pageSize at hlow
    omega
  refine ⟨hp, hfar, ⟨rfl, hne, hfields.2⟩, fun t ht => Or.inl ?_, fun t ht h => ?_,
    Or.inl ⟨List.mem_cons_self, hfields.1⟩⟩
  · rcases ht with ht | ht
    · exact ht
    · exact List.mem_singleton.mp ht
  · exact absurd (List.mem_singleton.mp ht) h

/-- What every step preserves and guarantees while a task is listed. -/
theorem step_inv (hlink : Linked im) {k : Kernel} {l : List ℕ} (hi : Inv im k l)
    (h0 : k.taskListHead ≠ 0) (e : Event) (ha : Allowed im k e) :
    ∃ k' l', perform im k e = some k' ∧ Inv im k' l' ∧
      (k'.currentTask ≠ k.currentTask →
        Listed k k'.currentTask ∧ stateOf k.mem k'.currentTask ≠ taskDead) ∧
      (stateOf k.mem k.currentTask = taskDead ∨ IsExit e → k'.currentTask = k.currentTask →
        stateOf k'.mem k'.currentTask = taskDead) := by
  have hsuccessor : ∀ t, t ∈ l ∧ stateOf k.mem t = taskReady →
      Listed k t ∧ stateOf k.mem t ≠ taskDead := by
    intro t ht
    exact ⟨(listed_iff hi.chain t).mpr ht.1, by rw [ht.2]; decide⟩
  cases e with
  | create name entry priority =>
    obtain ⟨r, k', l', hc, hinv, hcur, hstate, -⟩ := create_inv hlink hi h0 name entry priority
    refine ⟨k', l', by rw [perform, hc, Option.map_some], hinv, fun h => absurd hcur h, ?_⟩
    intro hdead _
    rcases hdead with hdead | hexit
    · rw [hcur, hstate, hdead]
    · exact hexit.elim
  | schedule c =>
    obtain ⟨k', l', hc, hs⟩ := schedule_inv hlink hi h0 ha
    refine ⟨k', l', hc, hs.inv, fun h => hsuccessor _ (hs.successor h), ?_⟩
    intro hdead hcur
    rcases hdead with hdead | hexit
    · rw [hcur, hs.stays hcur, hdead]
    · exact hexit.elim
  | exit c =>
    obtain ⟨k', l', hc, hinv, hnew, hstay⟩ := exit_inv hlink hi h0 ha
    exact ⟨k', l', hc, hinv, fun h => hsuccessor _ (hnew h), fun _ h => hstay h⟩
  | other mem pmm =>
    obtain ⟨hmem, hpad, hfree⟩ := ha
    have hoff : SameOff (Set.compl (records k)) k.mem mem := by
      intro x hx
      exact hmem x (not_not.mp hx)
    have hdis : ∀ t, t = k.currentTask ∨ t ∈ l → Disjoint (record t) (Set.compl (records k)) := by
      intro t ht
      exact Set.disjoint_left.mpr fun x hx hx' => hx' (record_subset hi.chain ht hx)
    have hkept := inv_off (n := k.nextPid) hlink hi hoff hdis hpad (fun q hq =>
      ⟨(hfree q hq).1, fun t ht => Or.inr ((hfree q hq).2 t
        (ht.imp_right (listed_iff hi.chain t).mpr))⟩)
    refine ⟨_, l, rfl, hkept.1, fun h => absurd rfl h, ?_⟩
    intro hdead _
    rcases hdead with hdead | hexit
    · exact hkept.2.trans hdead
    · exact hexit.elim

theorem Inv.sound {k : Kernel} {l : List ℕ} (hi : Inv im k l) : Sound (some k) := by
  refine ⟨k, l, rfl, hi.chain, chain_nodup hi.chain, ?_⟩
  rcases hi.current with ⟨hin, hrun⟩ | ⟨hout, hdead⟩
  · refine Or.inl ⟨hin, hrun, fun t ht hst => ?_⟩
    by_contra hne
    rw [hi.ready t ht hne] at hst
    exact absurd hst (by decide)
  · refine Or.inr ⟨hout, hdead, fun t ht => ?_⟩
    rw [hi.ready t ht (ne_of_mem_of_not_mem ht hout)]
    decide

/-- Some task is listed. -/
def Populated (s : Option Kernel) : Prop := ∀ k, s = some k → k.taskListHead ≠ 0

/-- Along every run after `task_init` in which some task stays listed, each
call returns, the list and the current task are as they should be, and no
dead task comes back. -/
theorem task_list_sound (hlink : Linked im) (boot : Kernel) (hp : Padded boot.pmm)
    (hfar : ∀ p ∈ freeSet boot.pmm, Far im p) (tr : List (Event × Option Kernel))
    (hr : Run (Step im) (some (taskInit im boot)) tr)
    (hlisted : Along (fun _ _ t => Populated t) (some (taskInit im boot)) tr) :
    Along (fun s e t => Sound t ∧ NeverRevived s e t) (some (taskInit im boot)) tr := by
  have hhead : (taskInit im boot).taskListHead ≠ 0 := by
    have hlow := hlink.low
    unfold pageSize at hlow
    change im.kernelTask ≠ 0
    omega
  refine along_mono (fun s e t h => h.2) _ _ (run_guarded
    (I := fun s => ∃ k l, s = some k ∧ Inv im k l ∧ k.taskListHead ≠ 0) ?_ _ tr
    ⟨_, _, rfl, taskInit_inv hlink boot hp hfar, hhead⟩ hr hlisted)
  intro s e t hs hstep hpop
  obtain ⟨k, l, rfl, hi, h0⟩ := hs
  obtain ⟨k2, hk2, ha, rfl⟩ := hstep
  obtain rfl := Option.some.inj hk2
  obtain ⟨k', l', hk', hinv, hnew, hdead⟩ := step_inv hlink hi h0 e ha
  refine ⟨⟨k', l', hk', hinv, hpop k' hk'⟩, hk' ▸ hinv.sound, ?_⟩
  intro k1 k1' h1 h1'
  obtain rfl := Option.some.inj h1
  obtain rfl := Option.some.inj (hk'.symm.trans h1')
  exact ⟨hnew, hdead⟩

end Runs

def samplePmm : Pmm := ⟨fun i => if i = 0 then 1#32 else 0xFFFFFFFF#32, 32, 1024, 31⟩

def sampleBoot : Kernel := ⟨fun _ => 0, samplePmm, 0, 0, 0⟩

def kernelOr (k : Kernel) : Option Kernel → Kernel
  | some k' => k'
  | none => k

theorem eq_kernelOr (k : Kernel) {o : Option Kernel} (h : o.isSome) : o = some (kernelOr k o) := by
  cases o with
  | none => cases h
  | some k' => rfl

def sampleStart : Kernel := taskInit sampleImage sampleBoot

def sampleCreated : Kernel :=
  kernelOr sampleStart (perform sampleImage sampleStart (.create 0 0x101000 1))

def sampleCpu : Cpu := ⟨⟨1, 2, 3, 4, 0x10AFF4, 6, 7, 8⟩, 0x202, 0x102000, fun _ => 0⟩

theorem samplePmm_padded : Padded samplePmm where
  covered := by decide
  padding p hp hb := by
    unfold samplePmm at hp hb
    dsimp only at hp hb
    omega
  addressable := by decide

theorem samplePmm_free (p : ℕ) (hp : p ∈ freeSet samplePmm) : p < 32 := by
  have hlt := freeSet_lt samplePmm hp
  have hbit := hp.2
  by_contra hge
  have hword : samplePmm.bitmap (p/32) = 0xFFFFFFFF#32 := if_neg (by omega)
  have hset := PackedBits.filled_bit samplePmm.bitmap p hword
  rw [hset] at hbit
  cases hbit

theorem sample_linked : Linked sampleImage := ⟨by decide, by decide⟩

theorem sample_far (p : ℕ) (hp : p ∈ freeSet sampleBoot.pmm) : Far sampleImage p := by
  have hlt := samplePmm_free p hp
  refine Or.inl ?_
  unfold sampleImage pageSize
  dsimp only
  omega

theorem sampleCreated_step : Step sampleImage (some sampleStart) (.create 0 0x101000 1)
    (some sampleCreated) := by
  refine ⟨sampleStart, rfl, trivial, ?_⟩
  exact (eq_kernelOr sampleStart (by decide +kernel)).symm

theorem sampleCreated_chain : Chain (nextOf sampleCreated.mem) sampleCreated.taskListHead
    [0x110000, 0x1000] := by
  refine ⟨?_, by decide, ?_, by decide, ?_⟩
  · decide +kernel
  · decide +kernel
  · change nextOf sampleCreated.mem 0x1000 = 0
    decide +kernel

theorem sample_frame : SwitchFrame sampleCreated sampleCpu := by
  have hcur : sampleCreated.currentTask = 0x110000 := by decide +kernel
  have hret : load32 sampleCreated.mem sampleCpu.regs.esp = 0 := by decide +kernel
  have hrec : ∀ x ∈ records sampleCreated, (0x110000 ≤ x ∧ x < 0x11003C) ∨ (0x1000 ≤ x ∧ x < 0x103C) := by
    intro x hx
    obtain ⟨t, ht, h1, h2⟩ := (mem_records sampleCreated_chain x).mp hx
    unfold recordSize at h2
    rw [hcur] at ht
    simp only [List.mem_cons, List.not_mem_nil, or_false] at ht
    omega
  refine ⟨by decide, by decide, ?_, ?_⟩
  · refine Set.disjoint_left.mpr fun x hx hx' => ?_
    have h1 := hx.1
    have h2 := hx.2
    have h3 := hrec x hx'
    unfold sampleCpu at h1 h2
    dsimp only at h1 h2
    omega
  · rw [hret, span_eq (by decide)]
    refine Set.disjoint_left.mpr fun x hx hx' => ?_
    have h2 := hx.2
    rcases hx' with hx' | hx'
    · have h3 := hrec x hx'
      omega
    · have h3 := hx'.1
      unfold sampleCpu at h3
      dsimp only at h3
      omega

/-- A second task is created and the idle task exits in its favour. -/
theorem task_list_sound_sample :
    Along (fun s e t => Sound t ∧ NeverRevived s e t) (some (taskInit sampleImage sampleBoot))
      [(.create 0 0x101000 1, some sampleCreated),
        (.exit sampleCpu, perform sampleImage sampleCreated (.exit sampleCpu))] := by
  have hhead : (kernelOr sampleCreated
      (perform sampleImage sampleCreated (.exit sampleCpu))).taskListHead ≠ 0 := by decide +kernel
  refine task_list_sound sample_linked sampleBoot samplePmm_padded sample_far _
    ⟨sampleCreated_step, ⟨sampleCreated, rfl, sample_frame, rfl⟩, trivial⟩ ⟨?_, ?_, trivial⟩
  · intro k hk
    obtain rfl := Option.some.inj hk
    rw [sampleCreated_chain.1]
    decide
  · intro k hk
    rw [hk] at hhead
    exact hhead

/-- The idle task lies behind the first page of the kernel image, whose pages
the page allocator reserves. -/
theorem booted_far (kernel : PmmInit.KernelImage) (before : PackedBits.Words)
    (mbi : Option PmmInit.MultibootInfo) (im : Image)
    (hstart : kernel.kernelStart.toNat + pageSize ≤ im.kernelTask)
    (hend : im.kernelTask + recordSize ≤ kernel.kernelEnd.toNat)
    (p : ℕ) (hp : p ∈ freeSet (PmmInit.pmmInit kernel before mbi)) : Far im p := by
  have hres := ((PmmInit.init_freeSet kernel before mbi p).mp hp).2.2
  have hout : ¬ (PmmInit.kstartPage kernel ≤ p ∧ p ≤ PmmInit.kendPage kernel) := fun h =>
    hres (Or.inr (Or.inl h))
  unfold PmmInit.kstartPage PmmInit.kendPage pageIndex pageSize at hout
  unfold Far
  unfold recordSize pageSize at *
  omega

end Dionnex.TaskLists
