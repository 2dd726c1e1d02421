import Mathlib.Tactic

/-!
# Sleeping for a number of ticks

`timer_sleep` computes the tick count at which it will return and compares
the counter with it each time it has been woken. All of it is unsigned 32-bit
arithmetic, the counter goes on from zero when it is full, and timer
interrupts come at any time between two comparisons.
-/

set_option autoImplicit false

namespace Dionnex.TimerSleep

/-- The tick counter, the sleeper's `target`, and for the record the interrupts since the call and how many there
had been at the return. -/
structure Sleep where
  ticks : UInt32
  target : UInt32
  elapsed : ℕ
  returned : Option ℕ
  deriving DecidableEq, Repr

inductive Event where
  | interrupt
  | check
  deriving DecidableEq, Repr

/-- `timer_handler` -/
def timerHandler (ticks : UInt32) : UInt32 := ticks+1

/-- `timer_sleep` up to its loop. -/
def timerSleep (ms freq ticks : UInt32) : Sleep := ⟨ticks, ticks + ms*freq/1000, 0, none⟩

def step (s : Sleep) : Event → Sleep
  | .interrupt => { s with ticks := timerHandler s.ticks, elapsed := s.elapsed+1 }
  | .check =>
    if s.returned = none then
      if s.ticks < s.target then s else { s with returned := some s.elapsed }
    else s

def run (s : Sleep) (events : List Event) : Sleep := events.foldl step s

/-- The ticks that the call asks for, as an exact integer. -/
def asked (ms freq : UInt32) : ℕ := ms.toNat * freq.toNat / 1000

/-- If the call has returned, it was not before the ticks had elapsed. -/
def LongEnough (ms freq : UInt32) (s : Sleep) : Prop := ∀ n, s.returned = some n → asked ms freq ≤ n

instance (ms freq : UInt32) (s : Sleep) : Decidable (LongEnough ms freq s) :=
  match h : s.returned with
  | none => isTrue (fun n hn => by rw [h] at hn; cases hn)
  | some n => decidable_of_iff (asked ms freq ≤ n)
      ⟨fun hle m hm => by rw [h] at hm; cases hm; exact hle, fun hall => hall n h⟩

section Runs

variable {ms freq ticks : UInt32} {s : Sleep}

/-- The deadline is not beyond the counter's range, and the counter shows the ticks since the call. -/
structure Counting (ms freq ticks : UInt32) (s : Sleep) : Prop where
  counter : s.ticks.toNat = (ticks.toNat + s.elapsed) % 4294967296
  target : s.target.toNat = ticks.toNat + asked ms freq
  long : LongEnough ms freq s

theorem step_counting (h : Counting ms freq ticks s) (e : Event) : Counting ms freq ticks (step s e) := by
  have hcounter := h.counter
  have htarget := h.target
  have hlt := s.target.toNat_lt
  cases e with
  | interrupt =>
    refine ⟨?_, htarget, h.long⟩
    change (s.ticks+1).toNat = (ticks.toNat + (s.elapsed+1)) % 4294967296
    rw [UInt32.toNat_add, hcounter]
    change ((ticks.toNat + s.elapsed) % 4294967296 + 1) % 4294967296 = _
    rw [Nat.mod_add_mod, Nat.add_assoc]
  | check =>
    rw [step]
    by_cases hsleeps : s.returned = none
    · rw [if_pos hsleeps]
      by_cases hwait : s.ticks < s.target
      · rw [if_pos hwait]
        exact h
      · rw [if_neg hwait]
        refine ⟨hcounter, htarget, ?_⟩
        intro n hn
        cases hn
        rw [UInt32.lt_iff_toNat_lt] at hwait
        omega
    · rw [if_neg hsleeps]
      exact h

theorem run_counting (h : Counting ms freq ticks s) (events : List Event) :
    Counting ms freq ticks (run s events) := by
  induction events generalizing s with
  | nil => exact h
  | cons e events ih => exact ih (step_counting h e)

/-- The interval in the arithmetic of the code. -/
theorem interval_toNat : (ms*freq/1000).toNat = ms.toNat * freq.toNat % 4294967296 / 1000 := by
  rw [UInt32.toNat_div, UInt32.toNat_mul]
  rfl

theorem sleep_counting (hproduct : ms.toNat * freq.toNat < 4294967296)
    (hdeadline : ticks.toNat + asked ms freq < 4294967296) : Counting ms freq ticks (timerSleep ms freq ticks) where
  counter := (Nat.mod_eq_of_lt ticks.toNat_lt).symm
  target := by
    change (ticks + ms*freq/1000).toNat = _
    rw [UInt32.toNat_add, interval_toNat, Nat.mod_eq_of_lt hproduct]
    exact Nat.mod_eq_of_lt hdeadline
  long n hn := by cases hn

theorem run_interrupts (n : ℕ) : run s (List.replicate n .interrupt) =
    { s with ticks := s.ticks + UInt32.ofNat n, elapsed := s.elapsed+n } := by
  induction n generalizing s with
  | zero => simp [run]
  | succ n ih =>
    have hticks : s.ticks + 1 + UInt32.ofNat n = s.ticks + UInt32.ofNat (n+1) := by
      rw [UInt32.add_assoc, UInt32.ofNat_add, UInt32.add_comm 1]
      rfl
    rw [List.replicate_succ]
    change run (step s .interrupt) (List.replicate n .interrupt) = _
    rw [ih]
    change { s with ticks := s.ticks + 1 + UInt32.ofNat n, elapsed := s.elapsed+1+n } = _
    rw [hticks, Nat.add_assoc, Nat.add_comm 1]

/-- A comparison after `n` interrupts ends the call if the counter is then not below the deadline. -/
theorem run_return {n : ℕ} (h : ¬ ticks + UInt32.ofNat n < ticks + ms*freq/1000) :
    (run (timerSleep ms freq ticks) (List.replicate n .interrupt ++ [.check])).returned = some n := by
  have hrun : run (timerSleep ms freq ticks) (List.replicate n .interrupt ++ [.check]) =
      step (run (timerSleep ms freq ticks) (List.replicate n .interrupt)) .check := List.foldl_append
  rw [hrun, run_interrupts, timerSleep, step]
  dsimp only
  rw [if_pos rfl, if_neg h, Nat.zero_add]

/-- A call never returns too early exactly if the product stays below 2^32 and the deadline does. -/
theorem sleep_long_enough_iff (ms freq ticks : UInt32) :
    (∀ events, LongEnough ms freq (run (timerSleep ms freq ticks) events)) ↔
      ms.toNat * freq.toNat < 4294967296 ∧ ticks.toNat + ms.toNat * freq.toNat / 1000 < 4294967296 := by
  constructor
  · intro hall
    have hlt := ticks.toNat_lt
    have hreturn : ∀ n, ¬ ticks + UInt32.ofNat n < ticks + ms*freq/1000 → asked ms freq ≤ n :=
      fun n h => hall _ n (run_return h)
    have hdeadline : (ticks + ms*freq/1000).toNat =
        (ticks.toNat + ms.toNat * freq.toNat % 4294967296 / 1000) % 4294967296 := by
      rw [UInt32.toNat_add, interval_toNat]
    unfold asked at hreturn
    by_cases hwrap : ticks.toNat + ms.toNat * freq.toNat % 4294967296 / 1000 < 4294967296
    · -- the call ends when the interval of the code is over
      have hend := hreturn (ms.toNat * freq.toNat % 4294967296 / 1000) (by
        rw [← interval_toNat, UInt32.ofNat_toNat]
        exact UInt32.lt_irrefl _)
      omega
    · -- the deadline lies before the call
      have hend := hreturn 0 (by
        have hnow : ticks + UInt32.ofNat 0 = ticks := UInt32.add_zero ticks
        rw [hnow, UInt32.lt_iff_toNat_lt, hdeadline]
        omega)
      omega
  · rintro ⟨hproduct, hdeadline⟩ events
    exact (run_counting (sleep_counting hproduct hdeadline) events).long

/-- One millisecond just before the counter is full: the call returns at its first comparison. -/
theorem sleep_cut_short : ¬ ∀ (ms freq ticks : UInt32) (events : List Event), 1 ≤ freq → freq ≤ 1193182 →
    LongEnough ms freq (run (timerSleep ms freq ticks) events) := by
  intro hclaim
  have hearly := hclaim 1 1000 4294967295 [.check] (by decide) (by decide)
  revert hearly
  decide

end Runs

end Dionnex.TimerSleep
