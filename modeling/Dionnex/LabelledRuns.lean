import Mathlib.Tactic

/-!
# Runs of a labelled transition system

A run is recorded with its labels and the states it visits, so that one
statement can speak about every state and every step of it. Three rules
carry all the later work: an invariant kept by each step holds along a run;
it is enough that the steps admitted by a guard keep it; and when a step
outside the guard always spoils the property, the guard is exact.
-/

set_option autoImplicit false

namespace LabelledRuns

variable {σ α : Type*}

/-- `tr` lists, for each step in order, its label and the state after it. -/
def Run (Step : σ → α → σ → Prop) : σ → List (α × σ) → Prop
  | _, [] => True
  | s, (a, t)::tr => Step s a t ∧ Run Step t tr

/-- Every step of the run, seen with the state before it, satisfies `P`. -/
def Along (P : σ → α → σ → Prop) : σ → List (α × σ) → Prop
  | _, [] => True
  | s, (a, t)::tr => P s a t ∧ Along P t tr

def last : σ → List (α × σ) → σ
  | s, [] => s
  | _, (_, t)::tr => last t tr

theorem along_mono {P Q : σ → α → σ → Prop} (h : ∀ s a t, P s a t → Q s a t)
    (s : σ) (tr : List (α × σ)) (hp : Along P s tr) : Along Q s tr := by
  induction tr generalizing s with
  | nil => trivial
  | cons x tr ih => exact ⟨h _ _ _ hp.1, ih _ hp.2⟩

theorem along_congr {P Q : σ → α → σ → Prop} (s : σ) (tr : List (α × σ))
    (h : Along (fun s a t => P s a t ↔ Q s a t) s tr) : Along P s tr ↔ Along Q s tr := by
  induction tr generalizing s with
  | nil => exact Iff.rfl
  | cons x tr ih => exact and_congr h.1 (ih _ h.2)

/-- Guarded induction: steps admitted by `Ok` keep `I` and establish `Post`. -/
theorem run_guarded {Step Ok Post : σ → α → σ → Prop} {I : σ → Prop}
    (keep : ∀ s a t, I s → Step s a t → Ok s a t → I t ∧ Post s a t)
    (s : σ) (tr : List (α × σ)) (hs : I s) (hr : Run Step s tr) (hok : Along Ok s tr) :
    Along (fun s a t => I t ∧ Post s a t) s tr := by
  induction tr generalizing s with
  | nil => trivial
  | cons x tr ih =>
    have hx := keep s x.1 x.2 hs hr.1 hok.1
    exact ⟨hx, ih x.2 hx.1 hr.2 hok.2⟩

theorem run_invariant {Step Post : σ → α → σ → Prop} {I : σ → Prop}
    (keep : ∀ s a t, I s → Step s a t → I t ∧ Post s a t)
    (s : σ) (tr : List (α × σ)) (hs : I s) (hr : Run Step s tr) :
    Along (fun s a t => I t ∧ Post s a t) s tr := by
  induction tr generalizing s with
  | nil => trivial
  | cons x tr ih =>
    have hx := keep s x.1 x.2 hs hr.1
    exact ⟨hx, ih x.2 hx.1 hr.2⟩

theorem run_last {Step : σ → α → σ → Prop} {I : σ → Prop}
    (keep : ∀ s a t, I s → Step s a t → I t)
    (s : σ) (tr : List (α × σ)) (hs : I s) (hr : Run Step s tr) : I (last s tr) := by
  induction tr generalizing s with
  | nil => exact hs
  | cons x tr ih => exact ih x.2 (keep s x.1 x.2 hs hr.1) hr.2

/-- The guard is exact when the first step outside it already spoils `Post`. -/
theorem run_guard_exact {Step Ok Post : σ → α → σ → Prop} {I : σ → Prop}
    (keep : ∀ s a t, I s → Step s a t → Ok s a t → I t ∧ Post s a t)
    (spoil : ∀ s a t, I s → Step s a t → Post s a t → Ok s a t)
    (s : σ) (tr : List (α × σ)) (hs : I s) (hr : Run Step s tr) :
    Along Post s tr ↔ Along Ok s tr := by
  induction tr generalizing s with
  | nil => simp [Along]
  | cons x tr ih =>
    constructor
    · intro hp
      have hok := spoil s x.1 x.2 hs hr.1 hp.1
      exact ⟨hok, (ih x.2 (keep s x.1 x.2 hs hr.1 hok).1 hr.2).mp hp.2⟩
    · intro hok
      have hx := keep s x.1 x.2 hs hr.1 hok.1
      exact ⟨hx.2, (ih x.2 hx.1 hr.2).mpr hok.2⟩

end LabelledRuns
