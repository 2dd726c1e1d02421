import Dionnex.TaskLists

/-!
# Turns and charges of the task scheduler

What one call of `schedule` does to the list, to the current task and to the
`vruntime` of every task, from any state whose records are apart; and when
the running task pays for its turn along a whole run.
-/

set_option autoImplicit false

namespace Dionnex.TaskTurns
open ByteMemory X86Stack LinkedChain LabelledRuns Dionnex.PmmBitmap Dionnex.Task
open Dionnex.ContextSwitch (contextSwitch sampleImage)
open Dionnex.TaskScheduler Dionnex.TaskLists

/-- A list that ends, of records that do not overlap; tasks may be in any state. -/
structure Seated (k : Kernel) (l : List ℕ) : Prop where
  chain : Chain (nextOf k.mem) k.taskListHead l
  space : ∀ t, t = k.currentTask ∨ t ∈ l → t+recordSize ≤ 4294967296
  apart : ∀ t u, t = k.currentTask ∨ t ∈ l → u = k.currentTask ∨ u ∈ l → t ≠ u →
    Disjoint (record t) (record u)

theorem inv_seated {im : Image} {k : Kernel} {l : List ℕ} (hlink : Linked im) (hi : Inv im k l) : Seated k l where
  chain := hi.chain
  space t ht := (placed_space hlink (hi.placed t ht)).2
  apart t u ht hu := placed_disjoint (hi.placed t ht) (hi.placed u hu)

/-- The fields that decide a turn. -/
structure SameTurn (m m' : Mem) (t : ℕ) : Prop where
  state : stateOf m' t = stateOf m t
  vruntime : vruntimeOf m' t = vruntimeOf m t
  priority : priorityOf m' t = priorityOf m t

theorem SameTurn.trans {m m' m'' : Mem} {t : ℕ} (h : SameTurn m m' t) (g : SameTurn m' m'' t) :
    SameTurn m m'' t :=
  ⟨g.state.trans h.state, g.vruntime.trans h.vruntime, g.priority.trans h.priority⟩

theorem sameTurn_off {R : Set ℕ} {m m' : Mem} {t : ℕ} (h : SameOff R m m') (hd : Disjoint (record t) R)
    (ht : t+recordSize ≤ 4294967296) : SameTurn m m' t where
  state := field_off h hd ht (by decide)
  vruntime := field_off h hd ht (by decide)
  priority := field_off h hd ht (by decide)

theorem sameTurn_next {m : Mem} {t v : ℕ} (ht : t+recordSize ≤ 4294967296) :
    SameTurn m (store32 m (t+nextOffset) v) t where
  state := store_other ht (by decide) (by decide) (by decide)
  vruntime := store_other ht (by decide) (by decide) (by decide)
  priority := store_other ht (by decide) (by decide) (by decide)

/-! ## The search -/

/-- The tasks that the search of `schedule` considers; its first bound is never undercut by a larger value. -/
def runnable (m : Mem) (top : ℕ) (l : List ℕ) : List ℕ :=
  l.filter (fun t => (stateOf m t = taskReady ∨ stateOf m t = taskRunning) ∧ vruntimeOf m t < top)

/-- The first of the runnable tasks with the least `vruntime`. -/
def nextTask (m : Mem) (l : List ℕ) : Option ℕ := (runnable m 0xFFFFFFFF l).argmin (vruntimeOf m)

theorem findMin_fold {m : Mem} {top fuel curr low cand : ℕ} {l : List ℕ} (hl : Chain (nextOf m) curr l)
    (hf : l.length < fuel) (hc : cand = 0 ∧ low = top ∨ cand ≠ 0 ∧ low = vruntimeOf m cand ∧ low < top) :
    findMin m fuel curr low cand = some (((runnable m top l).foldl
      (List.argAux (fun t u => vruntimeOf m t < vruntimeOf m u)) (if cand = 0 then none else some cand)).getD 0) := by
  induction l generalizing fuel curr low cand with
  | nil =>
    obtain ⟨fuel, rfl⟩ := Nat.exists_eq_succ_of_ne_zero (Nat.ne_of_gt hf)
    have hcurr : curr = 0 := hl
    rw [findMin, if_pos hcurr]
    by_cases h0 : cand = 0
    · simp [runnable, h0]
    · simp [runnable, h0]
  | cons x l ih =>
    obtain ⟨fuel, rfl⟩ := Nat.exists_eq_succ_of_ne_zero (Nat.ne_of_gt (Nat.zero_lt_of_lt hf))
    obtain ⟨rfl, h0, hrest⟩ := hl
    have hfuel : l.length < fuel := by simpa using hf
    rw [findMin, if_neg h0]
    by_cases hrun : stateOf m curr = taskReady ∨ stateOf m curr = taskRunning
    · by_cases hlt : vruntimeOf m curr < low
      · have htop : vruntimeOf m curr < top := by
          rcases hc with ⟨-, h⟩ | ⟨-, -, h⟩
          · omega
          · omega
        have hcons : runnable m top (curr::l) = curr :: runnable m top l := by simp [runnable, hrun, htop]
        rw [if_pos ⟨hrun, hlt⟩, ih hrest hfuel (Or.inr ⟨h0, rfl, htop⟩), hcons, List.foldl_cons]
        rcases hc with ⟨rfl, -⟩ | ⟨hcand, rfl, -⟩
        · simp [h0, List.argAux]
        · simp [h0, hcand, hlt, List.argAux]
      · rw [if_neg (fun h => hlt h.2), ih hrest hfuel hc]
        by_cases htop : vruntimeOf m curr < top
        · have hcons : runnable m top (curr::l) = curr :: runnable m top l := by simp [runnable, hrun, htop]
          rcases hc with ⟨-, h⟩ | ⟨hcand, rfl, -⟩
          · omega
          · rw [hcons, List.foldl_cons]
            simp [hcand, hlt, List.argAux]
        · simp [runnable, htop]
    · rw [if_neg (fun h => hrun h.1), ih hrest hfuel hc]
      simp [runnable, hrun]

theorem findMin_next {m : Mem} {fuel curr : ℕ} {l : List ℕ} (hl : Chain (nextOf m) curr l)
    (hf : l.length < fuel) : findMin m fuel curr 0xFFFFFFFF 0 = some ((nextTask m l).getD 0) := by
  rw [findMin_fold hl hf (Or.inl ⟨rfl, rfl⟩)]
  rfl

theorem nextTask_mem {m : Mem} {l : List ℕ} {t : ℕ} (h : nextTask m l = some t) :
    t ∈ l ∧ (stateOf m t = taskReady ∨ stateOf m t = taskRunning) ∧ vruntimeOf m t < 0xFFFFFFFF := by
  have hmem := List.argmin_mem h
  simpa [runnable, and_assoc] using hmem

theorem argmin_congr {f g : ℕ → ℕ} {l : List ℕ} (h : ∀ t ∈ l, f t = g t) : l.argmin f = l.argmin g := by
  have hiff : ∀ t, t ∈ l.argmin f ↔ t ∈ l.argmin g := by
    intro t
    rw [List.mem_argmin_iff, List.mem_argmin_iff]
    apply and_congr_right
    intro ht
    rw [h t ht]
    constructor
    · rintro ⟨h1, h2⟩
      exact ⟨fun u hu => h u hu ▸ h1 u hu, fun u hu => h u hu ▸ h2 u hu⟩
    · rintro ⟨h1, h2⟩
      exact ⟨fun u hu => (h u hu).symm ▸ h1 u hu, fun u hu => (h u hu).symm ▸ h2 u hu⟩
  exact Option.ext hiff

theorem nextTask_congr {m m' : Mem} {l : List ℕ} (h : ∀ t ∈ l, SameTurn m m' t) : nextTask m' l = nextTask m l := by
  have hrun : runnable m' 0xFFFFFFFF l = runnable m 0xFFFFFFFF l := by
    apply List.filter_congr
    intro t ht
    rw [(h t ht).state, (h t ht).vruntime]
  unfold nextTask
  rw [hrun]
  apply argmin_congr
  intro t ht
  exact (h t (List.mem_of_mem_filter ht)).vruntime

/-- A task that is neither ready nor running is as good as absent. -/
theorem nextTask_filter {m : Mem} {l : List ℕ} {d : ℕ} (hready : stateOf m d ≠ taskReady)
    (hrun : stateOf m d ≠ taskRunning) : nextTask m (l.filter (fun t => t ≠ d)) = nextTask m l := by
  have hsame : runnable m 0xFFFFFFFF (l.filter (fun t => t ≠ d)) = runnable m 0xFFFFFFFF l := by
    unfold runnable
    rw [List.filter_filter]
    apply List.filter_congr
    intro t _
    by_cases ht : t = d
    · simp [ht, hready, hrun]
    · simp [ht]
  unfold nextTask
  rw [hsame]

/-! ## The list -/

section Turns

variable {k : Kernel} {l : List ℕ} {c : Cpu}

theorem seated_bound (h : Seated k l) : l.length < chainBound := by
  have hlen : l.length ≤ 4294967296 := by
    refine chain_length h.chain (fun t ht => ?_)
    have hs := h.space t (Or.inr ht)
    unfold recordSize at hs
    omega
  unfold chainBound
  omega

theorem seated_cons (h : Seated k l) (h0 : k.taskListHead ≠ 0) : ∃ r, l = k.taskListHead::r := head_mem h.chain h0

/-- A store to the link of a listed record leaves everything else of the tasks alone. -/
theorem link_off (h : Seated k l) {y v : ℕ} (hy : y ∈ l) :
    SameOff (records k) k.mem (store32 k.mem (y+nextOffset) v) ∧
    (∀ t, t = k.currentTask ∨ t ∈ l → SameTurn k.mem (store32 k.mem (y+nextOffset) v) t) ∧
    ∀ t ∈ l, t ≠ y → nextOf (store32 k.mem (y+nextOffset) v) t = nextOf k.mem t := by
  have hys := h.space y (Or.inr hy)
  have hoff : SameOff (record y) k.mem (store32 k.mem (y+nextOffset) v) := store_record hys (by decide)
  refine ⟨hoff.mono (record_subset h.chain (Or.inr hy)), ?_, ?_⟩
  · intro t ht
    by_cases hty : t = y
    · rw [hty]
      exact sameTurn_next hys
    · exact sameTurn_off hoff (h.apart t y ht (Or.inr hy) hty) (h.space t ht)
  · intro t ht hty
    exact field_off hoff (h.apart t y (Or.inr ht) (Or.inr hy) hty) (h.space t (Or.inr ht)) (by decide)

/-- What the removal of a dead current task leaves behind. -/
structure Removed (k k' : Kernel) (l l' : List ℕ) : Prop where
  seated : Seated k' l'
  current : k'.currentTask = k.currentTask
  subset : ∀ t ∈ l', t ∈ l
  covers : ∀ t ∈ l, t = k.currentTask ∨ t ∈ l'
  off : SameOff (records k) k.mem k'.mem
  same : ∀ t, t = k.currentTask ∨ t ∈ l → SameTurn k.mem k'.mem t

theorem unlink_current {r : List ℕ} {y : ℕ} (h : Seated k (l++y::k.currentTask::r)) :
    Removed k { k with mem := store32 k.mem (y+nextOffset) (nextOf k.mem k.currentTask) }
      (l++y::k.currentTask::r) (l++y::r) := by
  have hy : y ∈ l++y::k.currentTask::r := by simp
  obtain ⟨hoff, hsame, hnext⟩ := @link_off k _ h y (nextOf k.mem k.currentTask) hy
  have hsubset : ∀ t ∈ l++y::r, t ∈ l++y::k.currentTask::r := by
    intro t ht
    simp only [List.mem_append, List.mem_cons] at ht ⊢
    tauto
  have hcovers : ∀ t ∈ l++y::k.currentTask::r, t = k.currentTask ∨ t ∈ l++y::r := by
    intro t ht
    simp only [List.mem_append, List.mem_cons] at ht ⊢
    tauto
  have hwider : ∀ t, t = k.currentTask ∨ t ∈ l++y::r → t = k.currentTask ∨ t ∈ l++y::k.currentTask::r :=
    fun t ht => ht.imp_right (hsubset t)
  refine ⟨⟨?_, fun t ht => h.space t (hwider t ht), fun t u ht hu =>
    h.apart t u (hwider t ht) (hwider u hu)⟩, rfl, hsubset, hcovers, hoff, hsame⟩
  refine seg_congr (fun t ht => ?_) (chain_unlink h.chain)
  by_cases hty : t = y
  · rw [hty, Function.update_self, nextOf, load32_store32]
    exact wrap_of_lt (load32_lt _ _)
  · rw [Function.update_of_ne hty]
    exact hnext t (hsubset t ht) hty

theorem filter_split {x : ℕ} {l r : List ℕ} (hnodup : (l++x::r).Nodup) :
    x ∉ l ∧ x ∉ r ∧ (l++x::r).filter (fun t => t ≠ x) = l++r := by
  have hperm : (l++x::r).Perm (x::(l++r)) := List.perm_middle
  have hout : x ∉ l ∧ x ∉ r := by simpa using (List.nodup_cons.mp (hperm.nodup_iff.mp hnodup)).1
  refine ⟨hout.1, hout.2, ?_⟩
  rw [List.filter_append, List.filter_cons_of_neg (by simp), List.filter_eq_self.mpr, List.filter_eq_self.mpr]
  · intro t ht
    simpa using ne_of_mem_of_not_mem ht hout.2
  · intro t ht
    simpa using ne_of_mem_of_not_mem ht hout.1

/-- The current task stands first: the head moves on. -/
theorem remove_first {r : List ℕ} (h : Seated k (k.currentTask::r)) (h0 : k.taskListHead ≠ 0)
    (hc0 : k.currentTask ≠ 0) :
    ∃ k', schedulerRemoveTask k k.currentTask = some k' ∧ Removed k k' (k.currentTask::r) r := by
  have hhead : k.taskListHead = k.currentTask := h.chain.1
  have hwider : ∀ t, t = k.currentTask ∨ t ∈ r → t = k.currentTask ∨ t ∈ k.currentTask::r :=
    fun t ht => ht.imp_right (List.mem_cons_of_mem _)
  unfold schedulerRemoveTask
  rw [if_neg (by tauto)]
  refine ⟨_, if_pos hhead, ⟨?_, fun t ht => h.space t (hwider t ht), fun t u ht hu =>
    h.apart t u (hwider t ht) (hwider u hu)⟩, rfl, fun t => List.mem_cons_of_mem _, fun t ht => ?_,
    SameOff.refl _ _, fun _ _ => ⟨rfl, rfl, rfl⟩⟩
  · change Chain (nextOf k.mem) (nextOf k.mem k.taskListHead) r
    rw [hhead]
    exact h.chain.2.2
  · exact List.mem_cons.mp ht

/-- The current task stands behind another one, whose link leads past it. -/
theorem remove_behind {l0 r : List ℕ} {y : ℕ} (h : Seated k (l0++y::k.currentTask::r)) (h0 : k.taskListHead ≠ 0)
    (hc0 : k.currentTask ≠ 0) :
    ∃ k', schedulerRemoveTask k k.currentTask = some k' ∧
      Removed k k' (l0++y::k.currentTask::r) (l0++y::r) := by
  have hnodup := chain_nodup h.chain
  rw [show l0++y::k.currentTask::r = (l0++[y])++k.currentTask::r by simp] at hnodup
  have hout := (filter_split hnodup).1
  have hhead : k.taskListHead ≠ k.currentTask := by
    intro he
    obtain ⟨t, ht⟩ := seated_cons h h0
    cases l0 with
    | nil => exact hout (by simp [(List.cons.inj ht).1, he])
    | cons z l0 => exact hout (by simp [(List.cons.inj ht).1, he])
  have hfuel : l0.length < chainBound := by
    have hbound := seated_bound h
    simp only [List.length_append] at hbound
    omega
  unfold schedulerRemoveTask
  rw [if_neg (by tauto)]
  refine ⟨_, ?_, unlink_current h⟩
  rw [if_neg hhead, removeLoop_present h.chain hout hfuel, Option.map_some]

/-- The current task is not in the list: nothing happens. -/
theorem remove_absent (h : Seated k l) (h0 : k.taskListHead ≠ 0) (hc0 : k.currentTask ≠ 0)
    (hmem : k.currentTask ∉ l) :
    ∃ k', schedulerRemoveTask k k.currentTask = some k' ∧ Removed k k' l l := by
  have hbound := seated_bound h
  have hhead : k.taskListHead ≠ k.currentTask := fun he => hmem (he ▸ chain_head h.chain h0)
  obtain ⟨r, rfl⟩ := seated_cons h h0
  have habsent : removeLoop k.mem k.currentTask chainBound k.taskListHead = some k.mem := by
    refine removeLoop_absent h.chain (fun hr => hmem (List.mem_cons_of_mem _ hr)) ?_
    simp only [List.length_cons] at hbound
    omega
  unfold schedulerRemoveTask
  rw [if_neg (by tauto)]
  refine ⟨k, ?_, h, rfl, fun _ ht => ht, fun _ ht => Or.inr ht, SameOff.refl _ _,
    fun _ _ => ⟨rfl, rfl, rfl⟩⟩
  rw [if_neg hhead, habsent, Option.map_some]

theorem remove_current (h : Seated k l) (h0 : k.taskListHead ≠ 0) (hc0 : k.currentTask ≠ 0) :
    ∃ k', schedulerRemoveTask k k.currentTask = some k' ∧
      Removed k k' l (l.filter (fun t => t ≠ k.currentTask)) := by
  by_cases hmem : k.currentTask ∈ l
  · obtain ⟨l1, r, rfl⟩ := List.append_of_mem hmem
    rw [(filter_split (chain_nodup h.chain)).2.2]
    rcases List.eq_nil_or_concat l1 with rfl | ⟨l0, y, rfl⟩
    · exact remove_first h h0 hc0
    · rw [List.concat_eq_append, List.append_assoc] at h
      rw [List.concat_eq_append, show l0++[y]++r = l0++y::r by simp,
        show l0++[y]++k.currentTask::r = l0++y::k.currentTask::r by simp]
      exact remove_behind h h0 hc0
  · have hfilter : l.filter (fun t => t ≠ k.currentTask) = l := by
      rw [List.filter_eq_self]
      intro t ht
      simpa using ne_of_mem_of_not_mem ht hmem
    rw [hfilter]
    exact remove_absent h h0 hc0 hmem

theorem dropDead_removed (h : Seated k l) (h0 : k.taskListHead ≠ 0) (hc0 : k.currentTask ≠ 0) :
    ∃ k' l', dropDead k = some k' ∧ Removed k k' l l' ∧ nextTask k'.mem l' = nextTask k.mem l := by
  unfold dropDead
  by_cases hdead : stateOf k.mem k.currentTask = taskDead
  · obtain ⟨k', hremove, hr⟩ := remove_current h h0 hc0
    have hnext := nextTask_congr (fun t ht => hr.same t (Or.inr (hr.subset t ht)))
    refine ⟨k', _, by rw [if_pos hdead, hremove], hr, ?_⟩
    rw [hnext]
    apply nextTask_filter
    · rw [hdead]
      decide
    · rw [hdead]
      decide
  · refine ⟨k, l, if_neg hdead, ⟨h, rfl, fun _ ht => ht, fun _ ht => Or.inr ht, SameOff.refl _ _,
      fun _ _ => ⟨rfl, rfl, rfl⟩⟩, rfl⟩

/-- `schedule` drops the current task if it is dead and then switches to the
best runnable task, unless that is the current one. -/
theorem schedule_cases (h : Seated k l) (h0 : k.taskListHead ≠ 0) (hc0 : k.currentTask ≠ 0) :
    ∃ k1 l1, Removed k k1 l l1 ∧ nextTask k1.mem l1 = nextTask k.mem l ∧
      schedule k c = some (match nextTask k.mem l with
        | none => k1
        | some b => if b = k.currentTask then k1 else switchTo k1 c b) := by
  obtain ⟨k1, l1, hdrop, hr, hnext⟩ := dropDead_removed h h0 hc0
  refine ⟨k1, l1, hr, hnext, ?_⟩
  have hmin := findMin_next hr.seated.chain (seated_bound hr.seated)
  unfold schedule
  rw [if_neg (by tauto), hdrop, Option.bind_some, hmin, Option.map_some, hnext]
  cases hbest : nextTask k.mem l with
  | none => simp
  | some b =>
    have hb0 : b ≠ 0 := seg_ne_zero h.chain b (nextTask_mem hbest).1
    simp [hb0, hr.current]

theorem seated_empty (h : Seated k l) (h0 : k.taskListHead = 0) : l = [] := by
  cases l with
  | nil => rfl
  | cons x l => exact absurd (h.chain.1.symm.trans h0) h.chain.2.1

theorem schedule_next (h : Seated k l) : ∃ k', schedule k c = some k' ∧
    (k'.currentTask ≠ k.currentTask ↔
      k.currentTask ≠ 0 ∧ ∃ b, nextTask k.mem l = some b ∧ b ≠ k.currentTask) := by
  by_cases hc0 : k.currentTask = 0
  · refine ⟨k, if_pos (Or.inl hc0), ?_⟩
    simp [hc0]
  by_cases h0 : k.taskListHead = 0
  · refine ⟨k, if_pos (Or.inr h0), ?_⟩
    rw [seated_empty h h0]
    simp [nextTask, runnable]
  · obtain ⟨k1, l1, hr, -, hs⟩ := @schedule_cases k l c h h0 hc0
    refine ⟨_, hs, ?_⟩
    cases hbest : nextTask k.mem l with
    | none => simp [hr.current]
    | some b =>
      by_cases hb : b = k.currentTask
      · simp [hb, hr.current]
      · simp [hb, hc0, switchTo]

/-! ## The charge -/

/-- What a turn costs, as the machine computes it. -/
def charge (m : Mem) (t : ℕ) : ℕ := sub32 10 (priorityOf m t)

theorem state_vruntime {m : Mem} {t v : ℕ} (ht : t+recordSize ≤ 4294967296) :
    vruntimeOf (store32 m (t+stateOffset) v) t = vruntimeOf m t :=
  store_other ht (by decide) (by decide) (by decide)

theorem demote_vruntime {m : Mem} {t : ℕ} (ht : t+recordSize ≤ 4294967296) :
    vruntimeOf (demote m t) t =
      if stateOf m t = taskRunning then wrap (vruntimeOf m t + charge m t) else vruntimeOf m t := by
  have hpriority : priorityOf (store32 m (t+stateOffset) taskReady) t = priorityOf m t :=
    store_other ht (by decide) (by decide) (by decide)
  unfold demote
  by_cases hrun : stateOf m t = taskRunning
  · rw [if_pos hrun, if_pos hrun, vruntimeOf, load32_store32, state_vruntime ht, hpriority, charge]
  · rw [if_neg hrun, if_neg hrun]

/-- Only the task that is switched away from pays, if it was running. -/
theorem switchTo_vruntime (h : Seated k l) (hf : SwitchFrame k c) {b t : ℕ} (hb : b ∈ l)
    (ht : t = k.currentTask ∨ t ∈ l) : vruntimeOf (switchTo k c b).mem t =
      if t = k.currentTask ∧ stateOf k.mem t = taskRunning then wrap (vruntimeOf k.mem t + charge k.mem t)
      else vruntimeOf k.mem t := by
  have hcur := h.space _ (Or.inl rfl)
  have hbs := h.space b (Or.inr hb)
  have hdoff : SameOff (record k.currentTask) k.mem (demote k.mem k.currentTask) := (demote_spec hcur).1
  generalize hm : store32 (demote k.mem k.currentTask) (b+stateOffset) taskRunning = m
  have hboff : SameOff (record b) (demote k.mem k.currentTask) m := hm ▸ store_record hbs (by decide)
  have hrec : SameOff (records k) k.mem m := (hdoff.mono (record_subset h.chain (Or.inl rfl))).trans
    (hboff.mono (record_subset h.chain (Or.inr hb)))
  have hexec := switch_off hf hrec
  have hmem : (switchTo k c b).mem = (exec contextSwitch { c with mem := m }).mem := by
    unfold switchTo
    rw [hm]
  rw [hmem]
  generalize (exec contextSwitch { c with mem := m }).mem = m2 at hexec
  have hlast : Disjoint (record t) (Set.compl (records k)) :=
    Set.disjoint_left.mpr fun x hx hx' => hx' (record_subset h.chain ht hx)
  have hchosen : vruntimeOf m t = vruntimeOf (demote k.mem k.currentTask) t := by
    by_cases htb : t = b
    · rw [htb, ← hm, state_vruntime hbs]
    · exact (sameTurn_off hboff (h.apart t b ht (Or.inr hb) htb) (h.space t ht)).vruntime
  rw [(sameTurn_off hexec hlast (h.space t ht)).vruntime, hchosen]
  by_cases htc : t = k.currentTask
  · rw [htc, demote_vruntime hcur]
    simp
  · rw [(sameTurn_off hdoff (h.apart t _ ht (Or.inl rfl) htc) (h.space t ht)).vruntime]
    simp [htc]

theorem schedule_vruntime (h : Seated k l) (hf : SwitchFrame k c) {k' : Kernel} (hs : schedule k c = some k')
    {t : ℕ} (ht : t = k.currentTask ∨ t ∈ l) : vruntimeOf k'.mem t =
      if t = k.currentTask ∧ stateOf k.mem t = taskRunning ∧ k'.currentTask ≠ k.currentTask then
        wrap (vruntimeOf k.mem t + charge k.mem t)
      else vruntimeOf k.mem t := by
  by_cases hstop : k.currentTask = 0 ∨ k.taskListHead = 0
  · have hkeep : schedule k c = some k := if_pos hstop
    obtain rfl := Option.some.inj (hkeep.symm.trans hs)
    simp
  obtain ⟨hc0, h0⟩ := not_or.mp hstop
  obtain ⟨k1, l1, hr, hnext, hcases⟩ := @schedule_cases k l c h h0 hc0
  have hkept := hr.same t ht
  rw [hcases] at hs
  cases hbest : nextTask k.mem l with
  | none =>
    rw [hbest] at hs
    obtain rfl := Option.some.inj hs
    simp [hr.current, hkept.vruntime]
  | some b =>
    rw [hbest] at hs hnext
    by_cases hb : b = k.currentTask
    · have hk1 : k1 = k' := by simpa [hb] using hs
      rw [← hk1]
      simp [hr.current, hkept.vruntime]
    · have hk' : switchTo k1 c b = k' := by simpa [hb] using hs
      have hbl := (nextTask_mem hnext).1
      have hframe := frame_kept hf (records_subset h.chain hr.seated.chain hr.current hr.subset) hr.off
      have htl : t = k1.currentTask ∨ t ∈ l1 := by
        rcases ht with ht | ht
        · exact Or.inl (ht.trans hr.current.symm)
        · rcases hr.covers t ht with ht | ht
          · exact Or.inl (ht.trans hr.current.symm)
          · exact Or.inr ht
      have hcharge : charge k1.mem t = charge k.mem t := by rw [charge, hkept.priority, charge]
      have hturn := switchTo_vruntime hr.seated hframe hbl htl
      have hnew : k'.currentTask ≠ k.currentTask := hk' ▸ hb
      rw [← hk', hturn, hkept.state, hkept.vruntime, hcharge, hr.current]
      simp [hk', hnew]

end Turns

/-! ## Who is chosen -/

/-- Before the first of the least everything is larger, behind it nothing is smaller. -/
theorem argmin_split {f : ℕ → ℕ} {l : List ℕ} {p : ℕ} (h : l.argmin f = some p) :
    ∃ l1 l2, l = l1++p::l2 ∧ (∀ u ∈ l1, f p < f u) ∧ ∀ u ∈ l2, f p ≤ f u := by
  induction l generalizing p with
  | nil => cases h
  | cons x l ih =>
    rw [List.argmin_cons] at h
    cases hrest : l.argmin f with
    | none =>
      rw [hrest] at h
      obtain rfl := Option.some.inj h
      rw [List.argmin_eq_none] at hrest
      exact ⟨[], l, rfl, nofun, by simp [hrest]⟩
    | some q =>
      rw [hrest] at h
      by_cases hlt : f q < f x
      · have hqp : q = p := by simpa [hlt] using h
        subst hqp
        obtain ⟨l1, l2, rfl, hbefore, hbehind⟩ := ih hrest
        refine ⟨x::l1, l2, rfl, fun u hu => ?_, hbehind⟩
        rcases List.mem_cons.mp hu with rfl | hu
        · exact hlt
        · exact hbefore u hu
      · have hxp : x = p := by simpa [hlt] using h
        subst hxp
        refine ⟨[], l, rfl, nofun, fun u hu => ?_⟩
        exact (not_lt.mp hlt).trans (List.le_of_mem_argmin hu hrest)

theorem before_split {l1 l2 : List ℕ} {u v : ℕ} (hnodup : (l1++v::l2).Nodup) (huv : u ≠ v)
    (h : [u, v].Sublist (l1++v::l2)) : u ∈ l1 := by
  obtain ⟨a, b, hab, ha, hb⟩ := List.sublist_append_iff.mp h
  cases a with
  | nil =>
    obtain rfl : b = [u, v] := hab.symm
    have hrest : [u, v].Sublist l2 := by
      cases hb with
      | cons _ h => exact h
      | cons_cons _ h => exact absurd rfl huv
    have hout := (List.nodup_cons.mp (List.nodup_append.mp hnodup).2.1).1
    exact absurd (hrest.subset (by simp)) hout
  | cons x a =>
    obtain ⟨rfl, -⟩ := List.cons.inj hab
    exact ha.subset List.mem_cons_self

theorem mem_runnable {m : Mem} {l : List ℕ} {top t : ℕ} : t ∈ runnable m top l ↔
    t ∈ l ∧ (stateOf m t = taskReady ∨ stateOf m t = taskRunning) ∧ vruntimeOf m t < top := by
  simp [runnable]

/-- Another task than `d` that the search settles on has used less, or as much and stands before `d`. -/
theorem nextTask_ahead {m : Mem} {l : List ℕ} {b d : ℕ} (hb : nextTask m l = some b) (hne : b ≠ d) (hd : d ∈ l)
    (hrun : stateOf m d = taskReady ∨ stateOf m d = taskRunning) :
    vruntimeOf m b < vruntimeOf m d ∨
      vruntimeOf m b = vruntimeOf m d ∧ vruntimeOf m b < 0xFFFFFFFF ∧ b ≠ d ∧ [b, d].Sublist l := by
  obtain ⟨-, -, hbtop⟩ := nextTask_mem hb
  by_cases hlt : vruntimeOf m b < vruntimeOf m d
  · exact Or.inl hlt
  have hdr : d ∈ runnable m 0xFFFFFFFF l := mem_runnable.mpr ⟨hd, hrun, by omega⟩
  obtain ⟨l1, l2, hl, hbefore, hbehind⟩ := argmin_split hb
  rw [hl] at hdr
  rcases List.mem_append.mp hdr with hin | hin
  · exact absurd (hbefore d hin) hlt
  · have hin2 : d ∈ l2 := (List.mem_cons.mp hin).resolve_left (Ne.symm hne)
    have hle := hbehind d hin2
    refine Or.inr ⟨by omega, hbtop, hne, ?_⟩
    have hpair : [b, d].Sublist (runnable m 0xFFFFFFFF l) := by
      rw [hl]
      exact ((List.singleton_sublist.mpr hin2).cons_cons b).trans (List.sublist_append_right l1 _)
    exact hpair.trans List.filter_sublist

/-- A task that the search settles on comes before all that have used as much. -/
theorem nextTask_first {m : Mem} {l : List ℕ} {b u : ℕ} (hnodup : l.Nodup) (hb : nextTask m l = some b)
    (hur : u ∈ runnable m 0xFFFFFFFF l) (heq : vruntimeOf m u = vruntimeOf m b) (hub : u ≠ b) :
    ¬ [u, b].Sublist l := by
  intro hbefore
  obtain ⟨-, hrun, htop⟩ := nextTask_mem hb
  obtain ⟨-, hurun, hutop⟩ := mem_runnable.mp hur
  obtain ⟨l1, l2, hl, hfirst, -⟩ := argmin_split hb
  have hpair : [u, b].Sublist (runnable m 0xFFFFFFFF l) := by
    have hfilter := hbefore.filter (fun t => decide ((stateOf m t = taskReady ∨
      stateOf m t = taskRunning) ∧ vruntimeOf m t < 0xFFFFFFFF))
    have hkeep : [u, b].filter (fun t => decide ((stateOf m t = taskReady ∨
        stateOf m t = taskRunning) ∧ vruntimeOf m t < 0xFFFFFFFF)) = [u, b] := by
      simp [hurun, hrun, htop, hutop]
    rw [hkeep] at hfilter
    exact hfilter
  have hnodup' : (runnable m 0xFFFFFFFF l).Nodup := hnodup.filter _
  rw [hl] at hpair hnodup'
  have hlt := hfirst u (before_split hnodup' hub hpair)
  omega

/-- The search settles on another task than `d` exactly when a listed
runnable one has used less, or as much and stands before `d`. -/
theorem nextTask_other {m : Mem} {l : List ℕ} {d : ℕ} (hnodup : l.Nodup) (hd : d ∈ l)
    (hrun : stateOf m d = taskReady ∨ stateOf m d = taskRunning) :
    (∃ b, nextTask m l = some b ∧ b ≠ d) ↔
      ∃ u ∈ l, (stateOf m u = taskReady ∨ stateOf m u = taskRunning) ∧ (vruntimeOf m u < vruntimeOf m d ∨
        vruntimeOf m u = vruntimeOf m d ∧ vruntimeOf m u < 0xFFFFFFFF ∧ u ≠ d ∧ [u, d].Sublist l) := by
  constructor
  · rintro ⟨b, hb, hne⟩
    obtain ⟨hbl, hbrun, -⟩ := nextTask_mem hb
    exact ⟨b, hbl, hbrun, nextTask_ahead hb hne hd hrun⟩
  · rintro ⟨u, hul, hurun, hcase⟩
    have hdlt : vruntimeOf m d < 4294967296 := load32_lt _ _
    have hur : u ∈ runnable m 0xFFFFFFFF l := mem_runnable.mpr ⟨hul, hurun, by omega⟩
    cases hb : nextTask m l with
    | none =>
      rw [nextTask, List.argmin_eq_none] at hb
      rw [hb] at hur
      cases hur
    | some b =>
      refine ⟨b, rfl, ?_⟩
      rintro rfl
      have hle : vruntimeOf m b ≤ vruntimeOf m u := List.le_of_mem_argmin hur hb
      rcases hcase with hlt | ⟨heq, -, hub, hbefore⟩
      · omega
      · exact nextTask_first hnodup hb hur heq hub hbefore

/-! ## Runs -/

section Runs

variable {im : Image} {k k' : Kernel} {l : List ℕ}

/-- Another listed task waits for its turn. -/
def Contended (k : Kernel) : Prop :=
  stateOf k.mem k.currentTask = taskRunning ∧
    ∃ u, Listed k u ∧ u ≠ k.currentTask ∧ stateOf k.mem u = taskReady

/-- `u` stands before `v` in the list of tasks. -/
def Before (k : Kernel) (u v : ℕ) : Prop :=
  ∃ l, Chain (nextOf k.mem) k.taskListHead l ∧ u ≠ v ∧ [u, v].Sublist l

/-- The current task has to give way to another one. -/
def Outrun (k : Kernel) : Prop :=
  ∃ u, Listed k u ∧ (stateOf k.mem u = taskReady ∨ stateOf k.mem u = taskRunning) ∧
    (vruntimeOf k.mem u < vruntimeOf k.mem k.currentTask ∨
      vruntimeOf k.mem u = vruntimeOf k.mem k.currentTask ∧ Before k u k.currentTask)

/-- While others wait, scheduling charges the task that was running. -/
def Charged (s : Option Kernel) (e : Event) (t : Option Kernel) : Prop :=
  ∀ k k' c, s = some k → t = some k' → e = .schedule c → Contended k →
    vruntimeOf k.mem k.currentTask < vruntimeOf k'.mem k.currentTask

def NeverDecreases (s : Option Kernel) (_ : Event) (t : Option Kernel) : Prop :=
  ∀ k k', s = some k → t = some k' → ∀ u, Listed k u → vruntimeOf k.mem u ≤ vruntimeOf k'.mem u

/-- A listed task has used less than the running one, or as much and stands
before it, and the running one's charge is positive and does not wrap. -/
def Fair (s : Option Kernel) (e : Event) (_ : Option Kernel) : Prop :=
  ∀ k c, s = some k → e = .schedule c → Contended k →
    Outrun k ∧ charge k.mem k.currentTask ≠ 0 ∧
      vruntimeOf k.mem k.currentTask + charge k.mem k.currentTask < 4294967296

theorem wrap_increases {v c : ℕ} (hv : v < 4294967296) (hc : c < 4294967296) :
    v < wrap (v+c) ↔ c ≠ 0 ∧ v+c < 4294967296 := by
  unfold wrap
  omega

theorem before_iff (hc : Chain (nextOf k.mem) k.taskListHead l) (u v : ℕ) :
    Before k u v ↔ u ≠ v ∧ [u, v].Sublist l := by
  constructor
  · rintro ⟨l', hl', h⟩
    rwa [chain_unique hl' hc] at h
  · exact fun h => ⟨l, hc, h⟩

theorem outrun_iff (hc : Chain (nextOf k.mem) k.taskListHead l) : Outrun k ↔
    ∃ u ∈ l, (stateOf k.mem u = taskReady ∨ stateOf k.mem u = taskRunning) ∧
      (vruntimeOf k.mem u < vruntimeOf k.mem k.currentTask ∨
        vruntimeOf k.mem u = vruntimeOf k.mem k.currentTask ∧ u ≠ k.currentTask ∧
          [u, k.currentTask].Sublist l) := by
  simp only [Outrun, listed_iff hc, before_iff hc]

theorem contended_listed (hi : Inv im k l) (h : Contended k) : k.currentTask ∈ l := by
  rcases hi.current with ⟨hin, -⟩ | ⟨-, hdead⟩
  · exact hin
  · have hrun := h.1
    rw [hdead] at hrun
    cases hrun

theorem schedule_charges (hlink : Linked im) (hi : Inv im k l) {c : Cpu} (hf : SwitchFrame k c)
    (hs : schedule k c = some k') (hcontended : Contended k) :
    vruntimeOf k.mem k.currentTask < vruntimeOf k'.mem k.currentTask ↔
      Outrun k ∧ charge k.mem k.currentTask ≠ 0 ∧
        vruntimeOf k.mem k.currentTask + charge k.mem k.currentTask < 4294967296 := by
  have hseat := inv_seated hlink hi
  have hrun := hcontended.1
  have hcur := contended_listed hi hcontended
  have hc0 : k.currentTask ≠ 0 := seg_ne_zero hi.chain _ hcur
  have hv : vruntimeOf k.mem k.currentTask < 4294967296 := load32_lt _ _
  have hcharge : charge k.mem k.currentTask < 4294967296 := wrap_lt _
  obtain ⟨k1, hs1, hswitch⟩ := @schedule_next k l c hseat
  obtain rfl := Option.some.inj (hs1.symm.trans hs)
  have hother := nextTask_other (chain_nodup hi.chain) hcur (Or.inr hrun)
  rw [schedule_vruntime hseat hf hs (Or.inl rfl), outrun_iff hi.chain]
  by_cases hsw : k1.currentTask ≠ k.currentTask
  · rw [if_pos ⟨rfl, hrun, hsw⟩, wrap_increases hv hcharge]
    obtain ⟨u, hu, hurun, hcase⟩ := hother.mp (hswitch.mp hsw).2
    constructor
    · intro h
      refine ⟨⟨u, hu, hurun, ?_⟩, h⟩
      rcases hcase with h | ⟨h, -, hrest⟩
      · exact Or.inl h
      · exact Or.inr ⟨h, hrest⟩
    · exact fun h => h.2
  · rw [if_neg (fun h => hsw h.2.2)]
    constructor
    · intro h
      omega
    · rintro ⟨⟨u, hu, hurun, hcase⟩, hne, hlt⟩
      refine absurd (hswitch.mpr ⟨hc0, hother.mpr ⟨u, hu, hurun, ?_⟩⟩) hsw
      rcases hcase with h | ⟨h, hrest⟩
      · exact Or.inl h
      · exact Or.inr ⟨h, by omega, hrest⟩

/-- Without competition nobody pays. -/
theorem schedule_uncontended (hlink : Linked im) (hi : Inv im k l) {c : Cpu} (hf : SwitchFrame k c)
    (hs : schedule k c = some k') (hfree : ¬ Contended k) {t : ℕ} (ht : t ∈ l) :
    vruntimeOf k'.mem t = vruntimeOf k.mem t := by
  have hseat := inv_seated hlink hi
  rw [schedule_vruntime hseat hf hs (Or.inr ht)]
  apply if_neg
  rintro ⟨rfl, hrun, hsw⟩
  obtain ⟨k1, hs1, hswitch⟩ := @schedule_next k l c hseat
  obtain rfl := Option.some.inj (hs1.symm.trans hs)
  obtain ⟨-, b, hb, hne⟩ := hswitch.mp hsw
  have hbl := (nextTask_mem hb).1
  exact hfree ⟨hrun, b, (listed_iff hi.chain b).mpr hbl, hne, hi.ready b hbl hne⟩

theorem exit_vruntime (hlink : Linked im) (hi : Inv im k l) {c : Cpu} (hf : SwitchFrame k c)
    (hs : taskExit k c = some k') {t : ℕ} (ht : t ∈ l) : vruntimeOf k'.mem t = vruntimeOf k.mem t := by
  have hseat := inv_seated hlink hi
  have hcur := hseat.space _ (Or.inl rfl)
  have hc0 : k.currentTask ≠ 0 := Nat.ne_of_gt (placed_space hlink (hi.placed _ (Or.inl rfl))).1
  unfold taskExit at hs
  rw [if_neg hc0] at hs
  generalize hm : store32 k.mem (k.currentTask+stateOffset) taskDead = m at hs
  obtain ⟨hdying, hoff, -⟩ := exit_dying hlink hi hm
  have hdead : Seated { k with mem := m } l := ⟨hdying.chain, hseat.space, hseat.apart⟩
  have hframe : SwitchFrame { k with mem := m } c :=
    frame_kept hf (records_subset hi.chain hdying.chain rfl (fun _ h => h)) hoff
  have hkept : vruntimeOf m t = vruntimeOf k.mem t := by
    by_cases htc : t = k.currentTask
    · rw [htc, ← hm, state_vruntime hcur]
    · have hrecord : SameOff (record k.currentTask) k.mem m := hm ▸ store_record hcur (by decide)
      exact (sameTurn_off hrecord (hseat.apart t _ (Or.inr ht) (Or.inl rfl) htc) (hseat.space t (Or.inr ht))).vruntime
  rw [schedule_vruntime hdead hframe hs (Or.inr ht), if_neg, hkept]
  rintro ⟨rfl, hrun, -⟩
  have hstate : stateOf m k.currentTask = taskDead := hdying.dead
  change stateOf m k.currentTask = taskRunning at hrun
  rw [hstate] at hrun
  cases hrun

/-- No event but `schedule` moves a counter. -/
theorem perform_vruntime (hlink : Linked im) (hi : Inv im k l) (h0 : k.taskListHead ≠ 0) {e : Event}
    (ha : Allowed im k e) (hp : perform im k e = some k') (he : ∀ c, e ≠ .schedule c) {t : ℕ} (ht : t ∈ l) :
    vruntimeOf k'.mem t = vruntimeOf k.mem t := by
  cases e with
  | create name entry priority =>
    obtain ⟨r, k1, l', hc, -, -, -, hsame⟩ := create_inv hlink hi h0 name entry priority
    rw [perform, hc, Option.map_some] at hp
    obtain rfl := Option.some.inj hp
    exact hsame t (Or.inr ht)
  | schedule c => exact absurd rfl (he c)
  | exit c => exact exit_vruntime hlink hi ha hp ht
  | other mem pmm =>
    obtain rfl := Option.some.inj hp
    have hoff : SameOff (Set.compl (records k)) k.mem mem := by
      intro x hx
      exact ha.1 x (not_not.mp hx)
    have hd : Disjoint (record t) (Set.compl (records k)) :=
      Set.disjoint_left.mpr fun x hx hx' => hx' (record_subset hi.chain (Or.inr ht) hx)
    exact (sameTurn_off hoff hd ((inv_seated hlink hi).space t (Or.inr ht))).vruntime

theorem step_charges (hlink : Linked im) (hi : Inv im k l) (h0 : k.taskListHead ≠ 0) {e : Event}
    (ha : Allowed im k e) (hp : perform im k e = some k') :
    Charged (some k) e (some k') ∧ NeverDecreases (some k) e (some k') ↔ Fair (some k) e (some k') := by
  constructor
  · rintro ⟨hcharged, -⟩ k1 c hk1 rfl hcontended
    obtain rfl := Option.some.inj hk1
    exact (schedule_charges hlink hi ha hp hcontended).mp (hcharged k k' c rfl rfl rfl hcontended)
  · intro hfair
    have hpays : ∀ c, e = .schedule c → Contended k →
        vruntimeOf k.mem k.currentTask < vruntimeOf k'.mem k.currentTask := by
      rintro c rfl hcontended
      exact (schedule_charges hlink hi ha hp hcontended).mpr (hfair k c rfl rfl hcontended)
    constructor
    · intro k1 k2 c hk1 hk2 he hcontended
      obtain rfl := Option.some.inj hk1
      obtain rfl := Option.some.inj hk2
      exact hpays c he hcontended
    · intro k1 k2 hk1 hk2 u hu
      obtain rfl := Option.some.inj hk1
      obtain rfl := Option.some.inj hk2
      have hul := (listed_iff hi.chain u).mp hu
      by_cases he : ∃ c, e = .schedule c
      · obtain ⟨c, rfl⟩ := he
        by_cases hcontended : Contended k
        · by_cases huc : u = k.currentTask
          · rw [huc]
            exact (hpays c rfl hcontended).le
          · rw [schedule_vruntime (inv_seated hlink hi) ha hp (Or.inr hul), if_neg (fun h => huc h.1)]
        · exact (schedule_uncontended hlink hi ha hp hcontended hul).ge
      · exact (perform_vruntime hlink hi h0 ha hp (fun c hc => he ⟨c, hc⟩) hul).ge

theorem taskCreate_head (k : Kernel) (name entry priority : ℕ) {r : ℕ × Kernel}
    (h : taskCreate im k name entry priority = some r) : r.2.taskListHead = k.taskListHead := by
  unfold taskCreate at h
  dsimp only at h
  split at h
  · rw [← Option.some.inj h]
  · split at h
    · rw [← Option.some.inj h]
    · obtain ⟨y, -, rfl⟩ := Option.map_eq_some_iff.mp h
      rfl

/-- An empty list stays empty. -/
theorem perform_empty (h0 : k.taskListHead = 0) {e : Event} (hp : perform im k e = some k') :
    k'.taskListHead = 0 := by
  cases e with
  | create name entry priority =>
    obtain ⟨r, hr, rfl⟩ := Option.map_eq_some_iff.mp hp
    rw [taskCreate_head k name entry priority hr, h0]
  | schedule c =>
    have hkeep : schedule k c = some k := if_pos (Or.inr h0)
    obtain rfl := Option.some.inj (hkeep.symm.trans hp)
    exact h0
  | exit c =>
    change taskExit k c = some k' at hp
    unfold taskExit at hp
    split at hp
    · rw [← Option.some.inj hp, h0]
    · have hkeep : schedule { k with mem := store32 k.mem (k.currentTask+stateOffset) taskDead } c =
        some { k with mem := store32 k.mem (k.currentTask+stateOffset) taskDead } := if_pos (Or.inr h0)
      obtain rfl := Option.some.inj (hkeep.symm.trans hp)
      exact h0
  | other mem pmm =>
    obtain rfl := Option.some.inj hp
    exact h0

theorem empty_unlisted (h0 : k.taskListHead = 0) (t : ℕ) : ¬ Listed k t := by
  have hc : Chain (nextOf k.mem) k.taskListHead [] := h0
  rw [listed_iff hc]
  exact List.not_mem_nil

/-- Every state of a run: the walk hangs, no task is left, or the list is as it should be. -/
def Reached (im : Image) (s : Option Kernel) : Prop :=
  ∀ k, s = some k → k.taskListHead = 0 ∨ ∃ l, Inv im k l

theorem step_reached (hlink : Linked im) {s t : Option Kernel} {e : Event} (hs : Reached im s)
    (h : Step im s e t) : Reached im t := by
  obtain ⟨k, rfl, ha, rfl⟩ := h
  intro k' hk'
  rcases hs k rfl with h0 | ⟨l, hi⟩
  · exact Or.inl (perform_empty h0 hk')
  · by_cases h0 : k.taskListHead = 0
    · exact Or.inl (perform_empty h0 hk')
    · obtain ⟨k1, l', hk1, hi', -⟩ := step_inv hlink hi h0 e ha
      obtain rfl := Option.some.inj (hk1.symm.trans hk')
      exact Or.inr ⟨l', hi'⟩

theorem step_charges_iff (hlink : Linked im) {s t : Option Kernel} {e : Event} (hs : Reached im s)
    (h : Step im s e t) : Charged s e t ∧ NeverDecreases s e t ↔ Fair s e t := by
  obtain ⟨k, rfl, ha, rfl⟩ := h
  by_cases h0 : k.taskListHead = 0
  · have hnone := empty_unlisted h0
    constructor
    · rintro - k1 c hk1 - ⟨-, u, hu, -⟩
      obtain rfl := Option.some.inj hk1
      exact absurd hu (hnone u)
    · intro _
      constructor
      · rintro k1 k2 c hk1 - - ⟨-, u, hu, -⟩
        obtain rfl := Option.some.inj hk1
        exact absurd hu (hnone u)
      · rintro k1 k2 hk1 - u hu
        obtain rfl := Option.some.inj hk1
        exact absurd hu (hnone u)
  · rcases hs k rfl with hz | ⟨l, hi⟩
    · exact absurd hz h0
    · obtain ⟨k', l', hk', -⟩ := step_inv hlink hi h0 e ha
      rw [hk']
      exact step_charges hlink hi h0 ha hk'

/-- Along every run after `task_init` each contended call of `schedule` charges
the running task and no counter falls, exactly if each such call is fair. -/
theorem charged_iff_fair (hlink : Linked im) (boot : Kernel) (hp : Padded boot.pmm)
    (hfar : ∀ p ∈ freeSet boot.pmm, Far im p) (tr : List (Event × Option Kernel))
    (hr : Run (Step im) (some (taskInit im boot)) tr) :
    Along (fun s e t => Charged s e t ∧ NeverDecreases s e t) (some (taskInit im boot)) tr ↔
      Along Fair (some (taskInit im boot)) tr := by
  have hboot : Reached im (some (taskInit im boot)) := by
    intro k hk
    obtain rfl := Option.some.inj hk
    exact Or.inr ⟨_, taskInit_inv hlink boot hp hfar⟩
  apply run_guard_exact (I := Reached im) _ _ _ tr hboot hr
  · intro s e t hs h hfair
    exact ⟨step_reached hlink hs h, (step_charges_iff hlink hs h).mpr hfair⟩
  · intro s e t hs h hpost
    exact (step_charges_iff hlink hs h).mp hpost

end Runs

/-- The idle task and a new one, both without any charge so far. -/
def sampleRun : List (Event × Option Kernel) :=
  [(.create 0 0x101000 1, some sampleCreated),
    (.schedule sampleCpu, perform sampleImage sampleCreated (.schedule sampleCpu))]

theorem sampleRun_runs : Run (Step sampleImage) (some (taskInit sampleImage sampleBoot)) sampleRun :=
  ⟨sampleCreated_step, ⟨sampleCreated, rfl, sample_frame, rfl⟩, trivial⟩

theorem charged_iff_fair_sample :
    Along (fun s e t => Charged s e t ∧ NeverDecreases s e t)
      (some (taskInit sampleImage sampleBoot)) sampleRun ↔
      Along Fair (some (taskInit sampleImage sampleBoot)) sampleRun :=
  charged_iff_fair sample_linked sampleBoot samplePmm_padded sample_far sampleRun sampleRun_runs

/-- The idle task stands first, so it keeps the processor and is not charged. -/
theorem first_task_uncharged :
    Run (Step sampleImage) (some (taskInit sampleImage sampleBoot)) sampleRun ∧
    ¬ Along (fun s e t => Charged s e t ∧ NeverDecreases s e t)
      (some (taskInit sampleImage sampleBoot)) sampleRun := by
  refine ⟨sampleRun_runs, fun h => ?_⟩
  have hcharged : Charged (some sampleCreated) (.schedule sampleCpu)
    (perform sampleImage sampleCreated (.schedule sampleCpu)) := h.2.1.1
  have hcur : sampleCreated.currentTask = 0x110000 := by decide +kernel
  have hwaits : Contended sampleCreated := by
    refine ⟨by decide +kernel, 0x1000, ?_, ?_, by decide +kernel⟩
    · exact (listed_iff sampleCreated_chain _).mpr (by decide)
    · rw [hcur]
      decide
  have hstep : perform sampleImage sampleCreated (.schedule sampleCpu) =
      some (kernelOr sampleCreated (perform sampleImage sampleCreated (.schedule sampleCpu))) :=
    eq_kernelOr sampleCreated (by decide +kernel)
  have hless := hcharged _ _ sampleCpu rfl hstep rfl hwaits
  rw [hcur] at hless
  revert hless
  decide +kernel

end Dionnex.TaskTurns
