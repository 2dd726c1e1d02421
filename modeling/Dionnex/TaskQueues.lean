import Dionnex.TaskLists

/-!
# The task list as a sequence

`scheduler_add_task` compares a task with all nodes but the last one, and
writes the link to it before it clears the link from it, so that a last task
added again ends where it was. What a removed task leads to is never read.
-/

set_option autoImplicit false

namespace Dionnex.TaskQueues
open ByteMemory LinkedChain Dionnex.Task Dionnex.TaskScheduler Dionnex.TaskLists

/-! ## The code -/

/-- The loop of `scheduler_add_task` and the writes behind it. -/
def addLoop (m : Mem) (task : ℕ) : ℕ → ℕ → Option Mem
  | 0, _ => none
  | fuel+1, curr =>
    if nextOf m curr = 0 then some (store32 (store32 m (curr+nextOffset) task) (task+nextOffset) 0)
    else if curr = task then some m
    else addLoop m task fuel (nextOf m curr)

def schedulerAddTask (k : Kernel) (task : ℕ) : Option Kernel :=
  if task = 0 ∨ k.taskListHead = 0 then some k
  else (addLoop k.mem task chainBound k.taskListHead).map (fun m => { k with mem := m })

def countLoop (m : Mem) : ℕ → ℕ → ℕ → Option ℕ
  | 0, _, _ => none
  | fuel+1, curr, count => if curr = 0 then some count else countLoop m fuel (nextOf m curr) (wrap (count+1))

def schedulerGetTaskCount (k : Kernel) : Option ℕ := countLoop k.mem chainBound k.taskListHead 0

inductive Call where
  | add (task : ℕ)
  | remove (task : ℕ)

def Call.task : Call → ℕ
  | .add task => task
  | .remove task => task

def perform (k : Kernel) : Call → Option Kernel
  | .add task => schedulerAddTask k task
  | .remove task => schedulerRemoveTask k task

def performAll (k : Kernel) (calls : List Call) : Option Kernel := calls.foldlM perform k

/-! ## The sequence -/

/-- The links from the head end, and name these tasks in this order, none of them twice. -/
def Lists (k : Kernel) (l : List ℕ) : Prop := Chain (nextOf k.mem) k.taskListHead l ∧ l.Nodup

/-- A call with a null pointer changes nothing. -/
def after (l : List ℕ) : Call → List ℕ
  | .add task => if task = 0 ∨ task ∈ l then l else l++[task]
  | .remove task => l.erase task

/-- The list is not empty now, nor after any of the calls. -/
def NeverEmpty (k : Kernel) : List Call → Prop
  | [] => k.taskListHead ≠ 0
  | c::calls => k.taskListHead ≠ 0 ∧ ∀ k' ∈ perform k c, NeverEmpty k' calls

instance decidableNeverEmpty : (k : Kernel) → (calls : List Call) → Decidable (NeverEmpty k calls)
  | k, [] => inferInstanceAs (Decidable (k.taskListHead ≠ 0))
  | k, c::calls =>
    have : ∀ k', Decidable (NeverEmpty k' calls) := fun k' => decidableNeverEmpty k' calls
    inferInstanceAs (Decidable (k.taskListHead ≠ 0 ∧ ∀ k' ∈ perform k c, NeverEmpty k' calls))

/-- Separate `task_t` objects, whatever is in them. -/
structure Objects (T : Set ℕ) : Prop where
  space : ∀ t ∈ T, 0 < t ∧ t+recordSize ≤ 4294967296
  apart : ∀ t ∈ T, ∀ u ∈ T, t ≠ u → Disjoint (record t) (record u)

/-- The records that the kernel creates are such objects. -/
theorem placed_objects {im : Image} {pmm : PmmBitmap.Pmm} (hl : Linked im) : Objects {t | Placed im pmm t} where
  space _ ht := placed_space hl ht
  apart _ ht _ hu hne := placed_disjoint ht hu hne

section Links

variable {T : Set ℕ} {m : Mem} {t u v y task curr fuel : ℕ} {l : List ℕ}

theorem Objects.lt (hT : Objects T) (ht : t ∈ T) : t < 4294967296 := by
  have hspace := (hT.space t ht).2
  unfold recordSize at hspace
  omega

/-- A link is written alone. -/
theorem nextOf_store (hT : Objects T) (ht : t ∈ T) (hu : u ∈ T) (hv : v < 4294967296) :
    nextOf (store32 m (t+nextOffset) v) u = Function.update (nextOf m) t v u := by
  by_cases hut : u = t
  · rw [hut, Function.update_self, nextOf, load32_store32, wrap_of_lt hv]
  · rw [Function.update_of_ne hut]
    exact field_off (store_record (hT.space t ht).2 (by decide)) (hT.apart u hu t ht hut) (hT.space u hu).2 (by decide)

/-- The walk ends: the task is met before the last node, or it is put behind that one. -/
theorem addLoop_ends (hl : Chain (nextOf m) curr (l++[y])) (hf : l.length < fuel) :
    addLoop m task fuel curr =
      some (if task ∈ l then m else store32 (store32 m (y+nextOffset) task) (task+nextOffset) 0) := by
  induction l generalizing fuel curr with
  | nil =>
    obtain ⟨fuel, rfl⟩ := Nat.exists_eq_succ_of_ne_zero (Nat.ne_of_gt hf)
    obtain ⟨rfl, -, hend⟩ := hl
    rw [addLoop, if_pos (show nextOf m curr = 0 from hend), if_neg List.not_mem_nil]
  | cons x l ih =>
    obtain ⟨fuel, rfl⟩ := Nat.exists_eq_succ_of_ne_zero (Nat.ne_of_gt (Nat.zero_lt_of_lt hf))
    have hnext := chain_next_ne hl (List.append_ne_nil_of_right_ne_nil l (List.cons_ne_nil y []))
    obtain ⟨rfl, -, hrest⟩ := hl
    rw [addLoop, if_neg hnext]
    by_cases hx : curr = task
    · rw [if_pos hx, if_pos (by simp [hx])]
    · rw [if_neg hx, ih hrest (by rw [List.length_cons] at hf; omega)]
      simp [Ne.symm hx]

theorem countLoop_length {count : ℕ} (hl : Chain (nextOf m) curr l) (hf : l.length < fuel)
    (hc : count + l.length < 4294967296) : countLoop m fuel curr count = some (count + l.length) := by
  induction l generalizing fuel curr count with
  | nil =>
    obtain ⟨fuel, rfl⟩ := Nat.exists_eq_succ_of_ne_zero (Nat.ne_of_gt hf)
    rw [countLoop, if_pos (show curr = 0 from hl), List.length_nil, Nat.add_zero]
  | cons x l ih =>
    obtain ⟨fuel, rfl⟩ := Nat.exists_eq_succ_of_ne_zero (Nat.ne_of_gt (Nat.zero_lt_of_lt hf))
    obtain ⟨rfl, h0, hrest⟩ := hl
    rw [List.length_cons] at hf hc ⊢
    rw [countLoop, if_neg h0, wrap_of_lt (by omega), ih hrest (by omega) (by omega), Nat.add_assoc, Nat.add_comm 1]

end Links

section Calls

variable {T : Set ℕ} {k : Kernel} {l : List ℕ} {task : ℕ}

theorem lists_length (hT : Objects T) (hl : Lists k l) (hin : ∀ t ∈ l, t ∈ T) : l.length < 4294967296 :=
  chain_length_lt hl.1 (by decide) (fun t ht => hT.lt (hin t ht))

theorem count_lists (hT : Objects T) (hl : Lists k l) (hin : ∀ t ∈ l, t ∈ T) :
    schedulerGetTaskCount k = some l.length := by
  have hlen := lists_length hT hl hin
  have hcount := @countLoop_length k.mem k.taskListHead chainBound l 0 hl.1 (by unfold chainBound; omega) (by omega)
  rwa [Nat.zero_add] at hcount

theorem lists_nonempty (hl : Lists k l) (h0 : k.taskListHead ≠ 0) : l ≠ [] := by
  rintro rfl
  exact h0 hl.1

/-- A chain of objects is read from their links alone. -/
theorem lists_links {m : Mem} {next : ℕ → ℕ} {r : List ℕ} (hin : ∀ t ∈ r, t ∈ T) (hc : Chain next k.taskListHead r)
    (hnext : ∀ t ∈ T, nextOf m t = next t) : Lists { k with mem := m } r :=
  ⟨seg_congr (fun t ht => hnext t (hin t ht)) hc, chain_nodup hc⟩

theorem add_lists (hT : Objects T) (hl : Lists k l) (hin : ∀ t ∈ l, t ∈ T) (h0 : k.taskListHead ≠ 0)
    (htask : task = 0 ∨ task ∈ T) : ∃ k', schedulerAddTask k task = some k' ∧ Lists k' (after l (.add task)) := by
  unfold schedulerAddTask
  by_cases hnull : task = 0
  · rw [if_pos (.inl hnull)]
    refine ⟨k, rfl, ?_⟩
    rw [after, if_pos (.inl hnull)]
    exact hl
  have htask := htask.resolve_left hnull
  obtain ⟨l, y, rfl⟩ := (List.eq_nil_or_concat' l).resolve_left (lists_nonempty hl h0)
  have hlen := lists_length hT hl hin
  rw [List.length_append, List.length_singleton] at hlen
  rw [if_neg (not_or.mpr ⟨hnull, h0⟩), addLoop_ends hl.1 (by unfold chainBound; omega), Option.map_some]
  refine ⟨_, rfl, ?_⟩
  by_cases hmem : task ∈ l
  · rw [if_pos hmem, after, if_pos (.inr (List.mem_append_left _ hmem))]
    exact hl
  have hy : y ∈ T := hin y (by simp)
  have hlinks : ∀ t ∈ T, nextOf (store32 (store32 k.mem (y+nextOffset) task) (task+nextOffset) 0) t =
      Function.update (Function.update (nextOf k.mem) y task) task 0 t := by
    intro t ht
    rw [nextOf_store hT htask ht (by decide)]
    by_cases he : t = task
    · rw [he, Function.update_self, Function.update_self]
    · rw [Function.update_of_ne he, Function.update_of_ne he, nextOf_store hT hy ht (hT.lt htask)]
  rw [if_neg hmem, after]
  by_cases hlast : task = y
  · -- the second write undoes the first one
    subst hlast
    rw [if_pos (.inr (by simp))]
    refine lists_links hin hl.1 (fun t ht => ?_)
    rw [hlinks t ht, Function.update_idem, ← chain_last hl.1, Function.update_eq_self]
  · have habsent : task ∉ l++[y] := by simp [hmem, hlast]
    rw [if_neg (not_or.mpr ⟨hnull, habsent⟩)]
    refine lists_links (fun t ht => ?_) (chain_append hl.1 habsent hnull) hlinks
    rcases List.mem_append.mp ht with ht | ht
    · exact hin t ht
    · rwa [List.mem_singleton.mp ht]

/-- A task behind the head is taken out where the walk meets it. -/
theorem remove_behind {r : List ℕ} {y : ℕ} (hT : Objects T) (hl : Lists k (l++[y]++task::r))
    (hin : ∀ t ∈ l++[y]++task::r, t ∈ T) :
    ∃ m, removeLoop k.mem task chainBound k.taskListHead = some m ∧ Lists { k with mem := m } (l++[y]++r) := by
  have hlen := lists_length hT hl hin
  have habsent : task ∉ l++[y] := fun h => List.disjoint_of_nodup_append hl.2 h List.mem_cons_self
  have hchain := hl.1
  rw [List.append_assoc, List.singleton_append] at hchain ⊢
  rw [List.length_append, List.length_append] at hlen
  refine ⟨_, removeLoop_present hchain habsent (by unfold chainBound; omega), ?_⟩
  refine lists_links (fun t ht => hin t ?_) (chain_unlink hchain)
    (fun t ht => nextOf_store hT (hin y (by simp)) ht (load32_lt k.mem _))
  simp only [List.mem_append, List.mem_cons] at ht ⊢
  tauto

theorem remove_lists (hT : Objects T) (hl : Lists k l) (hin : ∀ t ∈ l, t ∈ T) (h0 : k.taskListHead ≠ 0) :
    ∃ k', schedulerRemoveTask k task = some k' ∧ Lists k' (after l (.remove task)) := by
  have hlen := lists_length hT hl hin
  unfold schedulerRemoveTask
  rw [after]
  by_cases hnull : task = 0
  · rw [if_pos (.inl hnull), List.erase_of_not_mem (fun h => seg_ne_zero hl.1 task h hnull)]
    exact ⟨k, rfl, hl⟩
  rw [if_neg (not_or.mpr ⟨hnull, h0⟩)]
  obtain ⟨x, l, rfl⟩ := List.exists_cons_of_ne_nil (lists_nonempty hl h0)
  obtain ⟨hx, -, hrest⟩ := hl.1
  by_cases hhead : k.taskListHead = task
  · rw [if_pos hhead, ← hhead, hx, List.erase_cons_head]
    exact ⟨_, rfl, hrest, (List.nodup_cons.mp hl.2).2⟩
  have hfirst : task ≠ x := fun he => hhead (hx.trans he.symm)
  rw [if_neg hhead]
  by_cases hmem : task ∈ l
  · obtain ⟨before, r, rfl, hbefore⟩ := List.eq_append_cons_of_mem hmem
    have habsent : task ∉ x::before := List.not_mem_cons_of_ne_of_not_mem hfirst hbefore
    obtain ⟨l, y, hsplit⟩ := (List.eq_nil_or_concat' (x::before)).resolve_left (List.cons_ne_nil x before)
    rw [← List.cons_append, hsplit] at hl hin
    obtain ⟨m, hloop, hlists⟩ := remove_behind hT hl hin
    rw [hloop, ← List.cons_append, List.erase_append_right _ habsent, List.erase_cons_head, hsplit]
    exact ⟨_, rfl, hlists⟩
  · rw [List.length_cons] at hlen
    rw [removeLoop_absent hl.1 hmem (by unfold chainBound; omega),
      List.erase_of_not_mem (List.not_mem_cons_of_ne_of_not_mem hfirst hmem)]
    exact ⟨k, rfl, hl⟩

theorem perform_lists (hT : Objects T) (hl : Lists k l) (hin : ∀ t ∈ l, t ∈ T) (h0 : k.taskListHead ≠ 0) (c : Call)
    (hc : c.task = 0 ∨ c.task ∈ T) :
    ∃ k', perform k c = some k' ∧ Lists k' (after l c) ∧ ∀ t ∈ after l c, t ∈ T := by
  cases c with
  | add task =>
    obtain ⟨k', hadd, hlists⟩ := add_lists hT hl hin h0 hc
    refine ⟨k', hadd, hlists, fun t ht => ?_⟩
    rw [after] at ht
    by_cases hsame : task = 0 ∨ task ∈ l
    · rw [if_pos hsame] at ht
      exact hin t ht
    · rw [if_neg hsame] at ht
      rcases List.mem_append.mp ht with ht | ht
      · exact hin t ht
      · exact List.mem_singleton.mp ht ▸ hc.resolve_left (not_or.mp hsame).1
  | remove task =>
    obtain ⟨k', hremove, hlists⟩ := remove_lists hT hl hin h0
    exact ⟨k', hremove, hlists, fun t ht => hin t (List.mem_of_mem_erase ht)⟩

/-- An emptied list takes no task any more. -/
theorem performAll_empty (h0 : k.taskListHead = 0) (calls : List Call) : performAll k calls = some k := by
  induction calls with
  | nil => rfl
  | cons c calls ih =>
    have hc : perform k c = some k := by
      cases c with
      | add task => exact if_pos (.inr h0)
      | remove task => exact if_pos (.inr h0)
    rw [performAll, List.foldlM_cons, hc]
    exact ih

/-- From any list, any calls that do not empty it return, and leave what they do to the sequence, which the count is
the length of. -/
theorem performAll_lists (hT : Objects T) (hl : Lists k l) (hin : ∀ t ∈ l, t ∈ T) (calls : List Call)
    (hcalls : ∀ c ∈ calls, c.task = 0 ∨ c.task ∈ T) (hne : NeverEmpty k calls) :
    ∃ k', performAll k calls = some k' ∧ Lists k' (calls.foldl after l) ∧
      schedulerGetTaskCount k' = some (calls.foldl after l).length := by
  induction calls generalizing k l with
  | nil => exact ⟨k, rfl, hl, count_lists hT hl hin⟩
  | cons c calls ih =>
    obtain ⟨k', hc, hlists, hin'⟩ := perform_lists hT hl hin hne.1 c (hcalls c List.mem_cons_self)
    obtain ⟨k'', hrun, hend⟩ := ih hlists hin' (fun c hc => hcalls c (List.mem_cons_of_mem _ hc)) (hne.2 k' hc)
    refine ⟨k'', ?_, hend⟩
    rw [performAll, List.foldlM_cons, hc]
    exact hrun

end Calls

def sampleTasks : Set ℕ := {0x1000, 0x2000}

theorem sampleTasks_objects : Objects sampleTasks where
  space t ht := by
    rcases ht with rfl | rfl
    · decide
    · decide
  apart t ht u hu hne := by
    unfold record
    rw [Set.Ico_disjoint_Ico]
    rcases ht with rfl | rfl
    · rcases hu with rfl | rfl
      · exact absurd rfl hne
      · decide
    · rcases hu with rfl | rfl
      · decide
      · exact absurd rfl hne

def sampleQueue : Kernel := { sampleBoot with taskListHead := 0x1000 }

theorem sampleQueue_lists : Lists sampleQueue [0x1000] :=
  ⟨⟨rfl, by decide, rfl⟩, by decide⟩

/-- The last task is added again, and the first one removed and added. -/
theorem performAll_lists_sample :
    ∃ k', performAll sampleQueue [.add 0x2000, .add 0x2000, .remove 0x1000, .add 0x1000] = some k' ∧
      Lists k' [0x2000, 0x1000] ∧ schedulerGetTaskCount k' = some 2 := by
  refine performAll_lists sampleTasks_objects sampleQueue_lists ?_
    [.add 0x2000, .add 0x2000, .remove 0x1000, .add 0x1000] ?_ (by decide +kernel)
  · intro t ht
    exact .inl (List.mem_singleton.mp ht)
  · intro c hc
    simp only [List.mem_cons, List.not_mem_nil, or_false] at hc
    rcases hc with rfl | rfl | rfl | rfl
    · exact .inr (.inr rfl)
    · exact .inr (.inr rfl)
    · exact .inr (.inl rfl)
    · exact .inr (.inl rfl)

end Dionnex.TaskQueues
