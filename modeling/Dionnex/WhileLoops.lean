import Mathlib.Tactic

/-!
# Loops that need not end

A round of a loop goes on with a state or ends the loop with a result, and a
run is given the number of rounds that it may take. A loop ends when some
number of rounds is enough, and then every larger one gives the same result.
An invariant with a variant shows that a loop ends and what it ends with; an
invariant that only ever goes on shows that it does not.
-/

set_option autoImplicit false

namespace WhileLoops

inductive Round (σ α : Type*) where
  | next (s : σ)
  | done (a : α)

variable {σ α : Type*} {round : σ → Round σ α} {s t : σ} {a b : α} {n m : ℕ}

/-- `none` when the rounds do not suffice. -/
def run (round : σ → Round σ α) : ℕ → σ → Option α
  | 0, _ => none
  | n+1, s =>
    match round s with
    | .next t => run round n t
    | .done a => some a

def Ends (round : σ → Round σ α) (s : σ) (a : α) : Prop := ∃ n, run round n s = some a

theorem run_next (h : round s = .next t) : run round (n+1) s = run round n t := by rw [run, h]

theorem run_done (h : round s = .done a) : run round (n+1) s = some a := by rw [run, h]

theorem run_mono (h : run round n s = some a) (hm : n ≤ m) : run round m s = some a := by
  induction n generalizing s m with
  | zero => cases h
  | succ n ih =>
    obtain ⟨m, rfl⟩ := Nat.exists_eq_succ_of_ne_zero (Nat.ne_of_gt (Nat.lt_of_lt_of_le (Nat.succ_pos n) hm))
    cases hr : round s with
    | next t =>
      rw [run_next hr] at h ⊢
      exact ih h (Nat.le_of_succ_le_succ hm)
    | done b =>
      rw [run_done hr] at h ⊢
      exact h

/-- Enough rounds give one result. -/
theorem run_unique (hn : run round n s = some a) (hm : run round m s = some b) : a = b := by
  rcases Nat.le_total n m with h | h
  · exact Option.some.inj ((run_mono hn h).symm.trans hm)
  · exact Option.some.inj (hn.symm.trans (run_mono hm h))

theorem ends_next (h : round s = .next t) : Ends round s a ↔ Ends round t a := by
  constructor
  · rintro ⟨n, hn⟩
    cases n with
    | zero => cases hn
    | succ n => exact ⟨n, (run_next h).symm.trans hn⟩
  · rintro ⟨n, hn⟩
    exact ⟨n+1, (run_next h).trans hn⟩

theorem ends_done (h : round s = .done a) : Ends round s b ↔ b = a := by
  constructor
  · rintro ⟨n, hn⟩
    cases n with
    | zero => cases hn
    | succ n => exact Option.some.inj (hn.symm.trans (run_done h))
  · rintro rfl
    exact ⟨1, run_done h⟩

/-- An invariant that each round keeps while the variant falls leads to a result that satisfies `Post`. -/
theorem ends_of_variant {I : σ → Prop} {Post : α → Prop} (μ : σ → ℕ)
    (keep : ∀ s t, I s → round s = .next t → I t ∧ μ t < μ s)
    (post : ∀ s a, I s → round s = .done a → Post a) (hs : I s) : ∃ a, Ends round s a ∧ Post a := by
  induction hn : μ s using Nat.strong_induction_on generalizing s with
  | _ n ih =>
    cases hr : round s with
    | next t =>
      obtain ⟨ht, hlt⟩ := keep s t hs hr
      obtain ⟨a, ha, hpost⟩ := ih (μ t) (hn ▸ hlt) ht rfl
      exact ⟨a, (ends_next hr).mpr ha, hpost⟩
    | done a => exact ⟨a, (ends_done hr).mpr rfl, post s a hs hr⟩

/-- Whatever a loop ends with comes from a state of the invariant. -/
theorem ends_post {I : σ → Prop} {Post : α → Prop} (keep : ∀ s t, I s → round s = .next t → I t)
    (post : ∀ s a, I s → round s = .done a → Post a) (hs : I s) (h : Ends round s a) : Post a := by
  obtain ⟨n, hn⟩ := h
  induction n generalizing s with
  | zero => cases hn
  | succ n ih =>
    cases hr : round s with
    | next t => exact ih (keep s t hs hr) ((run_next hr).symm.trans hn)
    | done b =>
      obtain rfl := Option.some.inj ((run_done hr).symm.trans hn)
      exact post s b hs hr

/-- A loop that goes on from every state of an invariant does not end. -/
theorem never_ends {I : σ → Prop} (keep : ∀ s, I s → ∃ t, round s = .next t ∧ I t) (hs : I s) :
    ¬ Ends round s a := by
  rintro ⟨n, hn⟩
  induction n generalizing s with
  | zero => cases hn
  | succ n ih =>
    obtain ⟨t, hr, ht⟩ := keep s hs
    exact ih ht ((run_next hr).symm.trans hn)

end WhileLoops
