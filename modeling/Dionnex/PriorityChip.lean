import Mathlib.Tactic

/-!
# An interrupt controller with eight lines

A chip latches requests, holds back the masked ones, and offers the first
line that is requested unless a line before it or the line itself is still
in service. Taking a line moves it from the requests to those in service,
and an end of interrupt ends the first of these. Initialisation is a command
followed by a fixed number of data words.
-/

set_option autoImplicit false

namespace PriorityChip

/-- The data words that follow the initialisation command. -/
inductive Word where
  | vector
  | wiring
  | mode
  deriving DecidableEq, Repr

structure Chip where
  mask : BitVec 8
  request : ℕ → Bool
  service : ℕ → Bool
  base : BitVec 8
  wiring : BitVec 8
  expected : List Word

/-- No line up to `n` is in service. -/
def Chip.free (c : Chip) (n : ℕ) : Bool := (List.range (n+1)).all (fun k => !c.service k)

/-- The line that is offered, given the state of all lines. -/
def Chip.offer (c : Chip) (lines : ℕ → Bool) : Option ℕ :=
  (List.range 8).find? (fun n => lines n && !c.mask.getLsbD n && c.free n)

def Chip.take (c : Chip) (n : ℕ) : Chip :=
  { c with request := Function.update c.request n false, service := Function.update c.service n true }

def Chip.endFirst (c : Chip) : Chip :=
  match (List.range 8).find? c.service with
  | some n => { c with service := Function.update c.service n false }
  | none => c

def Chip.raise (c : Chip) (n : ℕ) : Chip := { c with request := Function.update c.request n true }

/-- The initialisation command and the end of interrupt; the other commands are not used. -/
def Chip.command (c : Chip) (v : BitVec 8) : Chip :=
  if v.getLsbD 4 then
    { c with
      mask := 0
      request := fun _ => false
      service := fun _ => false
      expected := .vector :: ((if v.getLsbD 1 then [] else [.wiring]) ++ (if v.getLsbD 0 then [.mode] else [])) }
  else if v = 0x20 then c.endFirst
  else c

def Chip.data (c : Chip) (v : BitVec 8) : Chip :=
  match c.expected with
  | [] => { c with mask := v }
  | .vector::rest => { c with base := v &&& 0xF8, expected := rest }
  | .wiring::rest => { c with wiring := v, expected := rest }
  | .mode::rest => { c with expected := rest }

/-- Nothing is in service. -/
def Chip.Idle (c : Chip) : Prop := ∀ n, c.service n = false

variable {c : Chip} {n k : ℕ}

theorem free_iff : c.free n = true ↔ ∀ k ≤ n, c.service k = false := by
  unfold Chip.free
  rw [List.all_eq_true]
  constructor
  · intro h k hk
    have hnot := h k (List.mem_range.mpr (Nat.lt_succ_of_le hk))
    simpa using hnot
  · intro h k hk
    rw [h k (Nat.le_of_lt_succ (List.mem_range.mp hk))]
    rfl

theorem idle_offer (h : c.Idle) (lines : ℕ → Bool) :
    c.offer lines = (List.range 8).find? (fun n => lines n && !c.mask.getLsbD n) := by
  unfold Chip.offer
  have hfree : ∀ n, c.free n = true := fun n => free_iff.mpr (fun k _ => h k)
  simp only [hfree, Bool.and_true]

/-- The first line in service blocks all of them. -/
theorem blocked_offer (h : c.service 0 = true) (lines : ℕ → Bool) : c.offer lines = none := by
  unfold Chip.offer
  rw [List.find?_eq_none]
  intro n _ hn
  have hfree : c.free n = true := (Bool.and_eq_true_iff.mp hn).2
  rw [free_iff.mp hfree 0 (Nat.zero_le n)] at h
  exact Bool.false_ne_true h

theorem data_mask (h : c.expected = []) (v : BitVec 8) : c.data v = { c with mask := v } := by
  obtain ⟨mask, request, service, base, wiring, expected⟩ := c
  cases h
  rfl

theorem idle_data (h : c.Idle) (v : BitVec 8) : (c.data v).Idle := by
  unfold Chip.data
  split <;> exact h

theorem idle_raise (h : c.Idle) : (c.raise n).Idle := h

/-- One line was taken from an idle chip, and the end of interrupt makes it idle again. -/
theorem take_end (h : c.Idle) (hn : n < 8) : (c.take n).endFirst = { c with request := Function.update c.request n false } := by
  have hfind : (List.range 8).find? (c.take n).service = some n := by
    rw [List.find?_range_eq_some]
    refine ⟨by simp [Chip.take], List.mem_range.mpr hn, fun k hk => ?_⟩
    simp only [Chip.take, Function.update_of_ne (Nat.ne_of_lt hk), h k, Bool.not_false]
  unfold Chip.endFirst
  rw [hfind]
  have hservice : Function.update (c.take n).service n false = c.service := by
    funext k
    by_cases hk : k = n
    · rw [hk, Function.update_self, h n]
    · simp only [Chip.take, Function.update_of_ne hk]
  simp only [hservice]
  rfl

theorem idle_end (h : c.Idle) : c.endFirst = c := by
  have hfind : (List.range 8).find? c.service = none := by
    rw [List.find?_eq_none]
    intro n _
    simp [h n]
  unfold Chip.endFirst
  rw [hfind]

/-- The command and three words, as they are sent for a chip that has others behind it. -/
theorem initialised (c : Chip) (vector wiring mode mask : BitVec 8) :
    (((((c.command 0x11).data vector).data wiring).data mode).data mask) =
      ⟨mask, fun _ => false, fun _ => false, vector &&& 0xF8, wiring, []⟩ := rfl

end PriorityChip
