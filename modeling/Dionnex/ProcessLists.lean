import Dionnex.LabelledRuns
import Dionnex.Process

/-!
# The lists of processes over whole runs

Both lists are threaded through one field, so as long as their heads agree
every operation treats them alike. Destroying a process repairs the head of
the process list only, and nothing repairs `current_process`; these two are
the only ways in which a run leaves a destroyed record reachable.
-/

set_option autoImplicit false

namespace Dionnex.ProcessLists
open LabelledRuns LinkedChain Dionnex.Process

inductive Event where
  | spawn (name : Option (List UInt8)) (res : Resources)
  | schedule
  | tick
  | exit (code : ℕ)
  | shellKill (pid : ℕ)
  | sysKill (pid sig : ℕ)
  | destroy (p : ℕ)
  | waitpid (pid : ℕ)
  | other (procs : ℕ → Record)

/-- `live` holds the processes created and not yet destroyed. -/
structure System where
  kernel : Kernel
  live : List ℕ

/-- `none` when a list walk does not end. -/
def perform (k : Kernel) : Event → Option Kernel
  | .spawn name res => some (spawn k name res).2
  | .schedule => (scheduleProcess k).map Prod.fst
  | .tick => (schedProcTick k).map Prod.fst
  | .exit code => (processExit k code).map Prod.fst
  | .shellKill pid => (findProcess k pid).map (killProcess k)
  | .sysKill pid sig => (findProcess k pid).map (fun p => if sig = 9 then killProcess k p else k)
  | .destroy p => processDestroy k p
  | .waitpid pid => (findProcess k pid).bind (processDestroy k)
  | .other procs => some { k with procs := procs }

/-- The record that the event destroys, 0 for none. -/
def target (k : Kernel) : Event → ℕ
  | .destroy p => p
  | .waitpid pid => (findProcess k pid).getD 0
  | _ => 0

def liveAfter (s : System) : Event → List ℕ
  | .spawn name res =>
    if (spawn s.kernel name res).1 = 0 then s.live else (spawn s.kernel name res).1 :: s.live
  | e => s.live.erase (target s.kernel e)

/-- New records are fresh, only zombies are destroyed, and the rest of the
kernel does not write to the records of live processes. -/
def Allowed (s : System) : Event → Prop
  | .spawn _ res => res.proc ≠ 0 → res.proc ∉ s.live ∧ res.proc < wordMod
  | .other procs => ∀ p ∈ s.live, procs p = s.kernel.procs p
  | .destroy p => p ∈ s.live ∧ (s.kernel.procs p).state = .zombie
  | .waitpid pid => target s.kernel (.waitpid pid) ≠ 0 →
      (s.kernel.procs (target s.kernel (.waitpid pid))).state = .zombie
  | _ => True

def Step (s : System) (e : Event) (t : System) : Prop :=
  Allowed s e ∧ perform s.kernel e = some t.kernel ∧ t.live = liveAfter s e

/-- A list that ends, and holds exactly the live processes. -/
def Lists (s : System) (head : ℕ) : Prop :=
  ∃ l, Chain s.kernel.next head l ∧ l.Nodup ∧ ∀ p, p ∈ l ↔ p ∈ s.live

structure WellLinked (s : System) : Prop where
  procList : Lists s s.kernel.procList
  schedQueue : Lists s s.kernel.schedQueue
  current : s.kernel.currentProcess = 0 ∨ s.kernel.currentProcess ∈ s.live

/-- The event destroys neither the head of the process list nor the current process. -/
def Harmless (s : System) (e : Event) : Prop :=
  target s.kernel e ≠ 0 →
    target s.kernel e ≠ s.kernel.procList ∧ target s.kernel e ≠ s.kernel.currentProcess

/-- After `process_init` and `sched_proc_init`. -/
def booted (procs : ℕ → Record) (tssEsp0 : ℕ) : System := ⟨⟨procs, 0, 0, 0, 1, tssEsp0⟩, []⟩

structure Inv (s : System) : Prop where
  chain : ∃ l, Chain s.kernel.next s.kernel.procList l ∧ ∀ p, p ∈ l ↔ p ∈ s.live
  heads : s.kernel.schedQueue = s.kernel.procList
  current : s.kernel.currentProcess = 0 ∨ s.kernel.currentProcess ∈ s.live
  bound : ∀ p ∈ s.live, p < wordMod
  nodup : s.live.Nodup

theorem Inv.wellLinked {s : System} (h : Inv s) : WellLinked s := by
  obtain ⟨l, hl, hmem⟩ := h.chain
  exact ⟨⟨l, hl, chain_nodup hl, hmem⟩, ⟨l, h.heads ▸ hl, chain_nodup hl, hmem⟩, h.current⟩

theorem Inv.live_ne_zero {s : System} (h : Inv s) : 0 ∉ s.live := by
  obtain ⟨l, hl, hmem⟩ := h.chain
  exact fun h0 => seg_ne_zero hl 0 ((hmem 0).mpr h0) rfl

/-- Kernels that differ in nothing the lists depend on. -/
structure SameLists (k k' : Kernel) : Prop where
  next : k'.next = k.next
  procList : k'.procList = k.procList
  schedQueue : k'.schedQueue = k.schedQueue

theorem SameLists.refl (k : Kernel) : SameLists k k := ⟨rfl, rfl, rfl⟩

theorem SameLists.trans {k k' k'' : Kernel} (h : SameLists k k') (g : SameLists k' k'') :
    SameLists k k'' :=
  ⟨g.next.trans h.next, g.procList.trans h.procList, g.schedQueue.trans h.schedQueue⟩

theorem put_next (k : Kernel) (p : ℕ) (r : Record) :
    (k.put p r).next = Function.update k.next p r.next := by
  funext x
  by_cases hx : x = p
  · subst hx
    simp [Kernel.next, Kernel.put]
  · simp [Kernel.next, Kernel.put, Function.update_of_ne hx]

theorem put_sameLists (k : Kernel) (p : ℕ) (r : Record) (h : r.next = k.next p) :
    SameLists k (k.put p r) := by
  refine ⟨?_, rfl, rfl⟩
  rw [put_next, h, Function.update_eq_self]

theorem inv_sameLists {s : System} {k' : Kernel} (hs : Inv s) (h : SameLists s.kernel k')
    (hc : k'.currentProcess = 0 ∨ k'.currentProcess ∈ s.live) : Inv ⟨k', s.live⟩ := by
  obtain ⟨l, hl, hmem⟩ := hs.chain
  refine ⟨⟨l, ?_, hmem⟩, ?_, hc, hs.bound, hs.nodup⟩
  · change Chain k'.next k'.procList l
    rw [h.next, h.procList]
    exact hl
  · change k'.schedQueue = k'.procList
    rw [h.schedQueue, h.procList]
    exact hs.heads

theorem demote_sameLists (k : Kernel) : SameLists k (demoteCurrent k) := by
  unfold demoteCurrent
  split
  · exact put_sameLists k _ _ rfl
  · exact SameLists.refl k

theorem dispatch_sameLists (k : Kernel) (best : ℕ) : SameLists k (dispatch k best).1 := by
  have hrun := put_sameLists k best { k.procs best with state := .running } rfl
  unfold dispatch
  dsimp only
  split
  · have hfirst : SameLists k { k.put best { k.procs best with state := .running } with
        currentProcess := best, tssEsp0 := (k.procs best).esp0 } := ⟨hrun.next, rfl, rfl⟩
    exact hfirst.trans (put_sameLists _ _ _ rfl)
  · exact ⟨hrun.next, rfl, rfl⟩

theorem dispatch_current (k : Kernel) (best : ℕ) : (dispatch k best).1.currentProcess = best := by
  unfold dispatch
  dsimp only
  split
  · rfl
  · rfl

/-- The scheduler's choice is on the list, or the candidate it started with. -/
theorem pickBest_mem (k : Kernel) (fuel curr best b : ℕ) (l : List ℕ) (hl : Chain k.next curr l)
    (h : pickBest k fuel curr best = some b) : b = best ∨ b ∈ l := by
  induction fuel generalizing curr best l with
  | zero => cases h
  | succ fuel ih =>
    rw [pickBest] at h
    by_cases h0 : curr = 0
    · rw [if_pos h0] at h
      exact Or.inl (Option.some.inj h).symm
    · rw [if_neg h0] at h
      cases l with
      | nil => exact (h0 hl).elim
      | cons x l =>
        obtain ⟨rfl, -, hrest⟩ := hl
        rcases ih _ _ l hrest h with hb | hb
        · by_cases hbest : (k.procs curr).state = .ready ∧
              (best = 0 ∨ (k.procs curr).vruntime < (k.procs best).vruntime)
          · rw [if_pos hbest] at hb
            exact Or.inr (hb ▸ List.mem_cons_self)
          · rw [if_neg hbest] at hb
            exact Or.inl hb
        · exact Or.inr (List.mem_cons_of_mem curr hb)

theorem pickBest_returns (k : Kernel) (fuel curr best : ℕ) (l : List ℕ) (hl : Chain k.next curr l)
    (hf : l.length < fuel) : ∃ b, pickBest k fuel curr best = some b := by
  induction l generalizing fuel curr best with
  | nil =>
    obtain ⟨f, rfl⟩ := Nat.exists_eq_succ_of_ne_zero (Nat.ne_of_gt hf)
    obtain rfl : curr = 0 := hl
    exact ⟨best, by rw [pickBest, if_pos rfl]⟩
  | cons x l ih =>
    obtain ⟨rfl, h0, hrest⟩ := hl
    obtain ⟨f, rfl⟩ := Nat.exists_eq_succ_of_ne_zero (Nat.ne_of_gt (Nat.zero_lt_of_lt hf))
    obtain ⟨b, hb⟩ := ih f (k.next curr)
      (if (k.procs curr).state = .ready ∧
        (best = 0 ∨ (k.procs curr).vruntime < (k.procs best).vruntime) then curr else best)
      hrest (by simpa using hf)
    exact ⟨b, by rw [pickBest, if_neg h0, hb]⟩

/-- Scheduling leaves the lists alone and its choice is live. -/
theorem schedule_step (s : System) (k : Kernel) (r : Kernel × Option (ℕ × ℕ)) (hs : Inv s)
    (hk : SameLists s.kernel k) (hcur : k.currentProcess = s.kernel.currentProcess)
    (h : scheduleProcess k = some r) : Inv ⟨r.1, s.live⟩ := by
  unfold scheduleProcess at h
  by_cases hq : k.schedQueue = 0
  · rw [if_pos hq] at h
    obtain rfl := Option.some.inj h
    exact inv_sameLists hs hk (hcur ▸ hs.current)
  · rw [if_neg hq] at h
    obtain ⟨b, hb, rfl⟩ := Option.map_eq_some_iff.mp h
    by_cases hb0 : b = 0
    · rw [if_pos hb0]
      exact inv_sameLists hs hk (hcur ▸ hs.current)
    · rw [if_neg hb0]
      obtain ⟨l, hl, hmem⟩ := hs.chain
      have hlk : Chain k.next k.schedQueue l := by
        rw [hk.next, hk.schedQueue, hs.heads]
        exact hl
      have hbl : b ∈ l := (pickBest_mem k walkBound _ 0 b l hlk hb).resolve_left hb0
      have hall := (hk.trans (demote_sameLists k)).trans (dispatch_sameLists (demoteCurrent k) b)
      refine inv_sameLists hs hall (Or.inr ?_)
      rw [dispatch_current]
      exact (hmem b).mp hbl

theorem tick_inv (s : System) (r : Kernel × Option (ℕ × ℕ)) (hs : Inv s)
    (h : schedProcTick s.kernel = some r) : Inv ⟨r.1, s.live⟩ := by
  unfold schedProcTick at h
  split at h
  · refine schedule_step s _ r hs ?_ ?_ h
    · exact put_sameLists s.kernel _ _ rfl
    · rfl
  · obtain rfl := Option.some.inj h
    exact hs

theorem exit_inv (s : System) (code : ℕ) (r : Kernel × Option (ℕ × ℕ)) (hs : Inv s)
    (h : processExit s.kernel code = some r) : Inv ⟨r.1, s.live⟩ := by
  unfold processExit at h
  split at h
  · obtain rfl := Option.some.inj h
    exact hs
  · refine schedule_step s _ r hs ?_ ?_ h
    · exact put_sameLists s.kernel _ _ rfl
    · rfl

theorem kill_inv (s : System) (p : ℕ) (hs : Inv s) : Inv ⟨killProcess s.kernel p, s.live⟩ := by
  unfold killProcess
  by_cases hp : p = 0
  · rw [if_pos hp]
    exact hs
  · rw [if_neg hp]
    exact inv_sameLists hs (put_sameLists _ _ _ rfl) hs.current

theorem find_mem (k : Kernel) (pid fuel curr p : ℕ) (l : List ℕ) (hl : Chain k.next curr l)
    (h : processGetByPid k pid fuel curr = some p) : p = 0 ∨ p ∈ l := by
  induction fuel generalizing curr l with
  | zero => cases h
  | succ fuel ih =>
    rw [processGetByPid] at h
    by_cases h0 : curr = 0
    · rw [if_pos h0] at h
      exact Or.inl (Option.some.inj h).symm
    · rw [if_neg h0] at h
      cases l with
      | nil => exact (h0 hl).elim
      | cons x l =>
        obtain ⟨rfl, -, hrest⟩ := hl
        by_cases hpid : (k.procs curr).pid = pid
        · rw [if_pos hpid] at h
          exact Or.inr ((Option.some.inj h) ▸ List.mem_cons_self)
        · rw [if_neg hpid] at h
          rcases ih _ l hrest h with hp | hp
          · exact Or.inl hp
          · exact Or.inr (List.mem_cons_of_mem curr hp)

theorem find_returns (k : Kernel) (pid fuel curr : ℕ) (l : List ℕ) (hl : Chain k.next curr l)
    (hf : l.length < fuel) : ∃ p, processGetByPid k pid fuel curr = some p := by
  induction l generalizing fuel curr with
  | nil =>
    obtain ⟨f, rfl⟩ := Nat.exists_eq_succ_of_ne_zero (Nat.ne_of_gt hf)
    obtain rfl : curr = 0 := hl
    exact ⟨0, by rw [processGetByPid, if_pos rfl]⟩
  | cons x l ih =>
    obtain ⟨rfl, h0, hrest⟩ := hl
    obtain ⟨f, rfl⟩ := Nat.exists_eq_succ_of_ne_zero (Nat.ne_of_gt (Nat.zero_lt_of_lt hf))
    by_cases hpid : (k.procs curr).pid = pid
    · exact ⟨curr, by rw [processGetByPid, if_neg h0, if_pos hpid]⟩
    · obtain ⟨p, hp⟩ := ih f (k.next curr) hrest (by simpa using hf)
      exact ⟨p, by rw [processGetByPid, if_neg h0, if_neg hpid, hp]⟩

theorem target_live (s : System) (e : Event) (hs : Inv s) (ha : Allowed s e)
    (h0 : target s.kernel e ≠ 0) : target s.kernel e ∈ s.live := by
  cases e with
  | destroy p => exact ha.1
  | waitpid pid =>
    obtain ⟨l, hl, hmem⟩ := hs.chain
    change (findProcess s.kernel pid).getD 0 ∈ s.live
    change (findProcess s.kernel pid).getD 0 ≠ 0 at h0
    cases hf : findProcess s.kernel pid with
    | none => rw [hf] at h0; exact (h0 rfl).elim
    | some p =>
      rw [hf] at h0
      exact (hmem p).mp ((find_mem _ _ _ _ _ l hl hf).resolve_left h0)
  | _ => exact (h0 rfl).elim

/-- Starting before `p`, the loop of `process_destroy` stops right in front of it. -/
theorem predecessor_stops (k : Kernel) (p fuel curr : ℕ) (l : List ℕ) (hl : Chain k.next curr l)
    (hp : p ∈ l) (hne : curr ≠ p) (hf : l.length ≤ fuel) :
    ∃ y l1 l2, predecessor k p fuel curr = some y ∧ l = l1 ++ y::p::l2 := by
  induction l generalizing fuel curr with
  | nil => cases hp
  | cons x l ih =>
    obtain ⟨rfl, h0, hrest⟩ := hl
    have hpl : p ∈ l := (List.mem_cons.mp hp).resolve_left (Ne.symm hne)
    have hfuel : fuel ≠ 0 := by
      rintro rfl
      simp at hf
    obtain ⟨f, rfl⟩ := Nat.exists_eq_succ_of_ne_zero hfuel
    by_cases hstop : k.next curr = 0 ∨ k.next curr = p
    · refine ⟨curr, [], ?_⟩
      cases l with
      | nil => cases hpl
      | cons z l =>
        have hz : k.next curr = z := hrest.1
        have hzp : z = p := by
          rcases hstop with h | h
          · exact (hrest.2.1 (hz.symm.trans h)).elim
          · exact hz.symm.trans h
        subst hzp
        exact ⟨l, by rw [predecessor, if_pos hstop], rfl⟩
    · have hnext : k.next curr ≠ p := fun h => hstop (Or.inr h)
      obtain ⟨y, l1, l2, hy, rfl⟩ := ih f (k.next curr) hrest hpl hnext (by simpa using hf)
      exact ⟨y, curr::l1, l2, by rw [predecessor, if_neg hstop, hy], rfl⟩

theorem chain_short {s : System} (hs : Inv s) {l : List ℕ} (hl : Chain s.kernel.next s.kernel.procList l)
    (hmem : ∀ p, p ∈ l ↔ p ∈ s.live) : l.length < walkBound := by
  have hlen := chain_length hl (n := wordMod) (fun x hx => hs.bound x ((hmem x).mp hx))
  exact Nat.lt_of_le_of_lt hlen (by decide)

theorem mem_without {l1 l2 : List ℕ} {y p : ℕ} (h : (l1++y::p::l2).Nodup) (q : ℕ) :
    q ∈ l1++y::l2 ↔ q ≠ p ∧ q ∈ l1++y::p::l2 := by
  have hperm : (l1++y::p::l2).Perm (p::(l1++y::l2)) := by
    rw [show l1++y::p::l2 = (l1++[y])++p::l2 by simp, show l1++y::l2 = (l1++[y])++l2 by simp]
    exact List.perm_middle
  have hp : p ∉ l1++y::l2 := (List.nodup_cons.mp (hperm.nodup_iff.mp h)).1
  rw [hperm.mem_iff, List.mem_cons]
  constructor
  · intro hq
    exact ⟨ne_of_mem_of_not_mem hq hp, Or.inr hq⟩
  · intro hq
    exact hq.2.resolve_left hq.1

/-- Behind the head, the target is taken out of the shared chain and nothing else changes. -/
theorem unlink_behind_head (s : System) (hs : Inv s) (p : ℕ) (hp : p ∈ s.live)
    (hhead : p ≠ s.kernel.procList) :
    ∃ u l, unlinkProcess s.kernel p = some u ∧ Chain u.next u.procList l ∧
      (∀ q, q ∈ l ↔ q ∈ s.live.erase p) ∧ u.procList = s.kernel.procList ∧
      u.schedQueue = s.kernel.schedQueue ∧ u.currentProcess = s.kernel.currentProcess := by
  obtain ⟨l, hl, hmem⟩ := hs.chain
  have hpl : p ∈ l := (hmem p).mpr hp
  have hhead0 : s.kernel.procList ≠ 0 := by
    intro h0
    rw [h0] at hl
    cases l with
    | nil => cases hpl
    | cons x l => exact hl.2.1 hl.1.symm
  obtain ⟨y, l1, l2, hy, rfl⟩ := predecessor_stops s.kernel p walkBound _ l hl hpl (Ne.symm hhead)
    (le_of_lt (chain_short hs hl hmem))
  have hyp : s.kernel.next y = p := by
    obtain ⟨m, -, hm⟩ := seg_append.mp hl
    exact hm.2.2.1
  refine ⟨s.kernel.put y { s.kernel.procs y with next := s.kernel.next p }, l1++y::l2,
    ?_, ?_, ?_, rfl, rfl, rfl⟩
  · rw [unlinkProcess, if_neg (Ne.symm hhead), if_neg hhead0, hy, Option.map_some, if_pos hyp]
  · rw [put_next]
    exact chain_unlink hl
  · intro q
    rw [hs.nodup.mem_erase_iff, ← hmem q]
    exact mem_without (chain_nodup hl) q

theorem destroy_inv (s : System) (hs : Inv s) (p : ℕ) (hp : p ∈ s.live)
    (hhead : p ≠ s.kernel.procList) (hcur : p ≠ s.kernel.currentProcess) :
    ∃ k', processDestroy s.kernel p = some k' ∧ Inv ⟨k', s.live.erase p⟩ := by
  have hp0 : p ≠ 0 := fun h => hs.live_ne_zero (h ▸ hp)
  obtain ⟨u, l, hu, hl, hmem, hhead', hqueue, hcurrent⟩ := unlink_behind_head s hs p hp hhead
  have hsame := put_sameLists u p { u.procs p with state := .dead } rfl
  refine ⟨u.put p { u.procs p with state := .dead }, ?_, ⟨l, ?_, hmem⟩, ?_, ?_, ?_, hs.nodup.erase p⟩
  · rw [processDestroy, if_neg hp0, hu, Option.map_some]
  · change Chain (u.put p { u.procs p with state := .dead }).next u.procList l
    rw [hsame.next]
    exact hl
  · change u.schedQueue = u.procList
    rw [hqueue, hhead']
    exact hs.heads
  · change u.currentProcess = 0 ∨ u.currentProcess ∈ s.live.erase p
    rw [hcurrent]
    rcases hs.current with h | h
    · exact Or.inl h
    · exact Or.inr ((hs.nodup.mem_erase_iff).mpr ⟨Ne.symm hcur, h⟩)
  · intro q hq
    exact hs.bound q (List.mem_of_mem_erase hq)

/-- Destroying the head leaves the scheduler queue at the destroyed record. -/
theorem destroy_head (k k' : Kernel) (p : ℕ) (hp : p = k.procList)
    (h : processDestroy k p = some k') : k'.schedQueue = k.schedQueue := by
  unfold processDestroy at h
  by_cases hp0 : p = 0
  · rw [if_pos hp0] at h
    rw [← Option.some.inj h]
  · rw [if_neg hp0, unlinkProcess, if_pos hp.symm, Option.map_some] at h
    rw [← Option.some.inj h]
    rfl

theorem destroy_current (k k' : Kernel) (p : ℕ) (h : processDestroy k p = some k') :
    k'.currentProcess = k.currentProcess := by
  unfold processDestroy at h
  by_cases hp0 : p = 0
  · rw [if_pos hp0] at h
    rw [← Option.some.inj h]
  · rw [if_neg hp0] at h
    obtain ⟨u, hu, rfl⟩ := Option.map_eq_some_iff.mp h
    change u.currentProcess = k.currentProcess
    unfold unlinkProcess at hu
    by_cases hhead : k.procList = p
    · rw [if_pos hhead] at hu
      rw [← Option.some.inj hu]
    · rw [if_neg hhead] at hu
      by_cases hempty : k.procList = 0
      · rw [if_pos hempty] at hu
        rw [← Option.some.inj hu]
      · rw [if_neg hempty] at hu
        obtain ⟨y, -, rfl⟩ := Option.map_eq_some_iff.mp hu
        by_cases hy : k.next y = p
        · rw [if_pos hy]
          rfl
        · rw [if_neg hy]

/-- A failed creation has at most written to the fresh record, a completed
one has linked it in front of the process list. -/
theorem create_result (k : Kernel) (name : Option (List UInt8)) (res : Resources) :
    processCreate k name res = (0, k) ∨
    (res.proc ≠ 0 ∧ ∃ r, processCreate k name res =
      (0, { k with nextPid := (k.nextPid+1) % wordMod }.put res.proc r)) ∨
    (res.proc ≠ 0 ∧ ∃ r, r.next = k.procList ∧ processCreate k name res =
      (res.proc, { { k with nextPid := (k.nextPid+1) % wordMod }.put res.proc r with
        procList := res.proc })) := by
  unfold processCreate
  by_cases helf : res.elfValid = false
  · exact Or.inl (if_pos helf)
  by_cases hproc : res.proc = 0
  · exact Or.inl (by rw [if_neg helf, if_pos hproc])
  refine Or.inr ?_
  rw [if_neg helf, if_neg hproc]
  dsimp only
  by_cases hdir : res.pageDirectory = 0
  · exact Or.inl ⟨hproc, _, if_pos hdir⟩
  by_cases hload : res.segmentsLoaded = false
  · exact Or.inl ⟨hproc, _, by rw [if_neg hdir, if_pos hload]⟩
  by_cases hstack : res.kernelStack = 0
  · exact Or.inl ⟨hproc, _, by rw [if_neg hdir, if_neg hload, if_pos hstack]⟩
  · refine Or.inr ⟨hproc, _, ?_, by rw [if_neg hdir, if_neg hload, if_neg hstack]⟩
    rfl

theorem spawn_inv (s t : System) (name : Option (List UInt8)) (res : Resources) (hs : Inv s)
    (h : Step s (.spawn name res) t) : Inv t := by
  obtain ⟨hfresh, hperf, hlive⟩ := h
  obtain ⟨k, live⟩ := t
  change some (spawn s.kernel name res).2 = some k at hperf
  obtain rfl := Option.some.inj hperf
  change live = if (spawn s.kernel name res).1 = 0 then s.live
    else (spawn s.kernel name res).1 :: s.live at hlive
  obtain ⟨l, hl, hmem⟩ := hs.chain
  rcases create_result s.kernel name res with hc | ⟨hproc, r, hc⟩ | ⟨hproc, r, -, hc⟩
  · rw [spawn, hc, if_pos rfl] at hlive
    subst hlive
    rw [spawn, hc]
    exact hs
  · rw [spawn, hc, if_pos rfl] at hlive
    subst hlive
    rw [spawn, hc]
    have hout : res.proc ∉ l := fun hin => (hfresh hproc).1 ((hmem _).mp hin)
    refine ⟨⟨l, ?_, hmem⟩, hs.heads, hs.current, hs.bound, hs.nodup⟩
    change Chain (Kernel.put { s.kernel with nextPid := (s.kernel.nextPid+1) % wordMod } res.proc r).next
      s.kernel.procList l
    rw [put_next]
    exact seg_update hout hl
  · rw [spawn, hc, if_neg hproc] at hlive
    subst hlive
    rw [spawn, hc, schedProcAdd, if_neg hproc]
    have hout : res.proc ∉ l := fun hin => (hfresh hproc).1 ((hmem _).mp hin)
    refine ⟨⟨res.proc::l, ?_, ?_⟩, rfl, ?_, ?_, ?_⟩
    · have hnext : ∀ (k : Kernel) (r r' : Record) (q : ℕ),
          ({ { k.put res.proc r with procList := res.proc }.put res.proc r' with
            schedQueue := q }).next = Function.update k.next res.proc r'.next := by
        intro k r r' q
        change (Kernel.put { k.put res.proc r with procList := res.proc } res.proc r').next = _
        rw [put_next]
        change Function.update (k.put res.proc r).next res.proc r'.next = _
        rw [put_next, Function.update_idem]
      rw [hnext]
      change Chain (Function.update s.kernel.next res.proc s.kernel.schedQueue) res.proc (res.proc::l)
      rw [hs.heads]
      exact chain_push hl hout hproc
    · intro p
      rw [List.mem_cons, List.mem_cons, hmem p]
    · rcases hs.current with h | h
      · exact Or.inl h
      · exact Or.inr (List.mem_cons_of_mem _ h)
    · intro p hp
      rcases List.mem_cons.mp hp with rfl | hp
      · exact (hfresh hproc).2
      · exact hs.bound p hp
    · exact List.nodup_cons.mpr ⟨(hfresh hproc).1, hs.nodup⟩

theorem liveAfter_erase (s : System) (e : Event) (h : ∀ name res, e ≠ .spawn name res) :
    liveAfter s e = s.live.erase (target s.kernel e) := by
  cases e with
  | spawn name res => exact (h name res rfl).elim
  | _ => rfl

/-- Events that destroy nothing and create nothing keep the lists. -/
theorem other_inv (s t : System) (e : Event) (hs : Inv s) (h : Step s e t)
    (hspawn : ∀ name res, e ≠ .spawn name res) (h0 : target s.kernel e = 0) : Inv t := by
  obtain ⟨hallow, hperf, hlive⟩ := h
  obtain ⟨k, live⟩ := t
  have hkeep : live = s.live := by
    rw [show live = liveAfter s e from hlive, liveAfter_erase s e hspawn, h0]
    exact List.erase_of_not_mem hs.live_ne_zero
  subst hkeep
  cases e with
  | spawn name res => exact (hspawn name res rfl).elim
  | schedule =>
    obtain ⟨r, hr, rfl⟩ := Option.map_eq_some_iff.mp hperf
    exact schedule_step s s.kernel r hs (SameLists.refl _) rfl hr
  | tick =>
    obtain ⟨r, hr, rfl⟩ := Option.map_eq_some_iff.mp hperf
    exact tick_inv s r hs hr
  | exit code =>
    obtain ⟨r, hr, rfl⟩ := Option.map_eq_some_iff.mp hperf
    exact exit_inv s code r hs hr
  | shellKill pid =>
    obtain ⟨p, -, rfl⟩ := Option.map_eq_some_iff.mp hperf
    exact kill_inv s p hs
  | sysKill pid sig =>
    obtain ⟨p, -, rfl⟩ := Option.map_eq_some_iff.mp hperf
    by_cases hsig : sig = 9
    · rw [if_pos hsig]
      exact kill_inv s p hs
    · rw [if_neg hsig]
      exact hs
  | destroy p =>
    change p = 0 at h0
    subst h0
    obtain rfl := Option.some.inj hperf
    exact hs
  | waitpid pid =>
    obtain ⟨p, hp, hd⟩ := Option.bind_eq_some_iff.mp hperf
    change (findProcess s.kernel pid).getD 0 = 0 at h0
    rw [hp] at h0
    change p = 0 at h0
    subst h0
    obtain rfl := Option.some.inj hd
    exact hs
  | other procs =>
    obtain rfl := Option.some.inj hperf
    obtain ⟨l, hl, hmem⟩ := hs.chain
    refine ⟨⟨l, seg_congr ?_ hl, hmem⟩, hs.heads, hs.current, hs.bound, hs.nodup⟩
    intro x hx
    change (procs x).next = (s.kernel.procs x).next
    rw [hallow x ((hmem x).mp hx)]

theorem perform_destroy (s : System) (e : Event) (k' : Kernel) (h0 : target s.kernel e ≠ 0)
    (h : perform s.kernel e = some k') :
    processDestroy s.kernel (target s.kernel e) = some k' ∧
    liveAfter s e = s.live.erase (target s.kernel e) := by
  cases e with
  | destroy p => exact ⟨h, rfl⟩
  | waitpid pid =>
    obtain ⟨p, hp, hd⟩ := Option.bind_eq_some_iff.mp h
    refine ⟨?_, rfl⟩
    change processDestroy s.kernel ((findProcess s.kernel pid).getD 0) = some k'
    rw [hp]
    exact hd
  | _ => exact (h0 rfl).elim

theorem step_inv (s t : System) (e : Event) (hs : Inv s) (h : Step s e t) (hok : Harmless s e) :
    Inv t := by
  by_cases h0 : target s.kernel e = 0
  · by_cases hspawn : ∃ name res, e = .spawn name res
    · obtain ⟨name, res, rfl⟩ := hspawn
      exact spawn_inv s t name res hs h
    · exact other_inv s t e hs h (fun name res he => hspawn ⟨name, res, he⟩) h0
  · obtain ⟨hallow, hperf, hlive⟩ := h
    obtain ⟨k, live⟩ := t
    obtain ⟨hd, hl⟩ := perform_destroy s e k h0 hperf
    obtain ⟨k', hk', hinv⟩ := destroy_inv s hs _ (target_live s e hs hallow h0) (hok h0).1 (hok h0).2
    rw [hd] at hk'
    obtain rfl := Option.some.inj hk'
    change live = liveAfter s e at hlive
    rw [hlive, hl]
    exact hinv

/-- A destroyed head stays in the scheduler queue, a destroyed current process stays current. -/
theorem step_spoils (s t : System) (e : Event) (hs : Inv s) (h : Step s e t) (ht : WellLinked t) :
    Harmless s e := by
  intro h0
  obtain ⟨hallow, hperf, hlive⟩ := h
  obtain ⟨hd, hl⟩ := perform_destroy s e t.kernel h0 hperf
  have hgone : target s.kernel e ∉ t.live := by
    rw [hlive, hl]
    exact hs.nodup.not_mem_erase
  refine ⟨fun hhead => ?_, fun hcur => ?_⟩
  · obtain ⟨l, hchain, -, hmem⟩ := ht.schedQueue
    rw [destroy_head s.kernel t.kernel _ hhead hd, hs.heads, ← hhead] at hchain
    exact hgone ((hmem _).mp (chain_head hchain h0))
  · have hc := ht.current
    rw [destroy_current s.kernel t.kernel _ hd, ← hcur] at hc
    rcases hc with hc | hc
    · exact h0 hc
    · exact hgone hc

theorem schedule_returns (s : System) (k : Kernel) (hs : Inv s) (hk : SameLists s.kernel k) :
    ∃ r, scheduleProcess k = some r := by
  obtain ⟨l, hl, hmem⟩ := hs.chain
  unfold scheduleProcess
  by_cases hq : k.schedQueue = 0
  · exact ⟨_, if_pos hq⟩
  · have hlk : Chain k.next k.schedQueue l := by
      rw [hk.next, hk.schedQueue, hs.heads]
      exact hl
    obtain ⟨b, hb⟩ := pickBest_returns k walkBound _ 0 l hlk (chain_short hs hl hmem)
    exact ⟨_, by rw [if_neg hq, hb, Option.map_some]⟩

theorem findProcess_returns (s : System) (pid : ℕ) (hs : Inv s) :
    ∃ p, findProcess s.kernel pid = some p := by
  obtain ⟨l, hl, hmem⟩ := hs.chain
  exact find_returns s.kernel pid walkBound _ l hl (chain_short hs hl hmem)

theorem destroy_returns (s : System) (p : ℕ) (hs : Inv s) (hp : p = 0 ∨ p ∈ s.live) :
    ∃ k', processDestroy s.kernel p = some k' := by
  rcases hp with rfl | hp
  · exact ⟨s.kernel, rfl⟩
  · have hp0 : p ≠ 0 := fun h => hs.live_ne_zero (h ▸ hp)
    by_cases hhead : s.kernel.procList = p
    · exact ⟨_, by rw [processDestroy, if_neg hp0, unlinkProcess, if_pos hhead, Option.map_some]⟩
    · obtain ⟨u, -, hu, -⟩ := unlink_behind_head s hs p hp (Ne.symm hhead)
      exact ⟨_, by rw [processDestroy, if_neg hp0, hu, Option.map_some]⟩

/-- While the lists are right, no list walk hangs. -/
theorem perform_returns (s : System) (e : Event) (hs : Inv s) (ha : Allowed s e) :
    ∃ k', perform s.kernel e = some k' := by
  have hmap : ∀ {β γ : Type} (o : Option β) (f : β → γ), (∃ r, o = some r) → ∃ r, o.map f = some r := by
    rintro β γ o f ⟨r, rfl⟩
    exact ⟨f r, rfl⟩
  cases e with
  | spawn name res => exact ⟨_, rfl⟩
  | schedule => exact hmap _ _ (schedule_returns s _ hs (SameLists.refl _))
  | tick =>
    refine hmap _ _ ?_
    unfold schedProcTick
    split
    · exact schedule_returns s _ hs (put_sameLists s.kernel _ _ rfl)
    · exact ⟨_, rfl⟩
  | exit code =>
    refine hmap _ _ ?_
    unfold processExit
    split
    · exact ⟨_, rfl⟩
    · exact schedule_returns s _ hs (put_sameLists s.kernel _ _ rfl)
  | shellKill pid => exact hmap _ _ (findProcess_returns s pid hs)
  | sysKill pid sig => exact hmap _ _ (findProcess_returns s pid hs)
  | destroy p => exact destroy_returns s p hs (Or.inr ha.1)
  | waitpid pid =>
    obtain ⟨p, hp⟩ := findProcess_returns s pid hs
    obtain ⟨l, hl, hmem⟩ := hs.chain
    have hlive : p = 0 ∨ p ∈ s.live := by
      rcases find_mem _ _ _ _ _ l hl hp with h | h
      · exact Or.inl h
      · exact Or.inr ((hmem p).mp h)
    obtain ⟨k', hk'⟩ := destroy_returns s p hs hlive
    refine ⟨k', ?_⟩
    change (findProcess s.kernel pid).bind (processDestroy s.kernel) = some k'
    rw [hp]
    exact hk'
  | other procs => exact ⟨_, rfl⟩

theorem booted_inv (procs : ℕ → Record) (tssEsp0 : ℕ) : Inv (booted procs tssEsp0) where
  chain := ⟨[], rfl, fun _ => Iff.rfl⟩
  heads := rfl
  current := Or.inl rfl
  bound p hp := by cases hp
  nodup := List.nodup_nil

/-- The lists and the current process stay right exactly along the runs that
destroy neither the newest live process nor the current one. -/
theorem well_linked_iff (procs : ℕ → Record) (tssEsp0 : ℕ) (tr : List (Event × System))
    (hr : Run Step (booted procs tssEsp0) tr) :
    Along (fun _ _ t => WellLinked t) (booted procs tssEsp0) tr ↔
      Along (fun s e _ => Harmless s e) (booted procs tssEsp0) tr := by
  refine run_guard_exact (I := Inv) ?_ ?_ _ tr (booted_inv procs tssEsp0) hr
  · intro s e t hs h hok
    have ht := step_inv s t e hs h hok
    exact ⟨ht, ht.wellLinked⟩
  · intro s e t hs h hpost
    exact step_spoils s t e hs h hpost

def advance (s : System) (e : Event) : System :=
  ⟨(perform s.kernel e).getD s.kernel, liveAfter s e⟩

theorem advance_step (s : System) (e : Event) (ha : Allowed s e)
    (hp : (perform s.kernel e).isSome) : Step s e (advance s e) := by
  obtain ⟨k, hk⟩ := Option.isSome_iff_exists.mp hp
  refine ⟨ha, ?_, rfl⟩
  rw [advance, hk, Option.getD_some]

def sampleBoot : System := booted (fun _ => blankRecord) 0

def sampleSpawn (p : ℕ) : Event := .spawn none ⟨true, p, 0x300000, true, 0x8048000, p+0x4000⟩

def sampleFirst : System := advance sampleBoot (sampleSpawn 0x1000)

def sampleSecond : System := advance sampleFirst (sampleSpawn 0x2000)

def sampleKilled : System := advance sampleSecond (.shellKill 2)

/-- Two processes; the second one is killed and waited for. -/
def sampleRun : List (Event × System) :=
  [(sampleSpawn 0x1000, sampleFirst), (sampleSpawn 0x2000, sampleSecond),
    (.shellKill 2, sampleKilled), (.waitpid 2, advance sampleKilled (.waitpid 2))]

theorem sampleRun_runs : Run Step sampleBoot sampleRun := by
  refine ⟨advance_step _ _ ?_ ?_, advance_step _ _ ?_ ?_, advance_step _ _ trivial ?_,
    advance_step _ _ ?_ ?_, trivial⟩
  · exact fun _ => ⟨List.not_mem_nil, by decide⟩
  · rfl
  · exact fun _ => ⟨by decide +kernel, by decide⟩
  · rfl
  · decide +kernel
  · exact fun _ => by decide +kernel
  · decide +kernel

/-- The newest process is waited for and stays at the front of the scheduler queue. -/
theorem newest_stays_queued :
    Run Step (booted (fun _ => blankRecord) 0) sampleRun ∧
    ¬ Along (fun _ _ t => WellLinked t) (booted (fun _ => blankRecord) 0) sampleRun := by
  refine ⟨sampleRun_runs, fun h => ?_⟩
  have hlast : WellLinked (advance sampleKilled (.waitpid 2)) := h.2.2.2.1
  have hqueue : (advance sampleKilled (.waitpid 2)).kernel.schedQueue = 0x2000 := by decide +kernel
  have hlive : (advance sampleKilled (.waitpid 2)).live = [0x1000] := by decide +kernel
  obtain ⟨l, hl, -, hmem⟩ := hlast.schedQueue
  rw [hqueue] at hl
  have hin := (hmem _).mp (chain_head hl (by decide))
  rw [hlive] at hin
  exact absurd hin (by decide)

theorem well_linked_iff_sample :
    Along (fun _ _ t => WellLinked t) (booted (fun _ => blankRecord) 0) sampleRun ↔
      Along (fun s e _ => Harmless s e) (booted (fun _ => blankRecord) 0) sampleRun :=
  well_linked_iff (fun _ => blankRecord) 0 sampleRun sampleRun_runs

end Dionnex.ProcessLists
