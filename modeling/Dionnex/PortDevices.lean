import Mathlib.Tactic

/-!
# Devices behind ports

A processor reads and writes the registers of devices through numbered
ports, and a read can change the device as well. A driver is a program of
such accesses. One program simulates another when related states give equal
results and related states again; sequencing keeps that, so a driver on its
hardware can be compared with what it is for call by call and then over
every list of calls.
-/

set_option autoImplicit false

namespace PortDevices

variable {σ τ α β : Type*} {R : σ → τ → Prop}

/-- Accesses of every width. -/
structure Bus (σ : Type*) where
  inp : (w : ℕ) → ℕ → σ → BitVec w × σ
  out : (w : ℕ) → ℕ → BitVec w → σ → σ

def Simulates (R : σ → τ → Prop) (x : σ → α × σ) (y : τ → α × τ) : Prop :=
  ∀ s t, R s t → (x s).1 = (y t).1 ∧ R (x s).2 (y t).2

/-- The answers to a list of calls. -/
def performAll (f : β → σ → α × σ) : List β → σ → List α × σ
  | [], s => ([], s)
  | b::bs, s => ((f b s).1 :: (performAll f bs (f b s).2).1, (performAll f bs (f b s).2).2)

theorem simulates_all {f : β → σ → α × σ} {g : β → τ → α × τ} (bs : List β) (h : ∀ b ∈ bs, Simulates R (f b) (g b)) :
    Simulates R (performAll f bs) (performAll g bs) := by
  induction bs with
  | nil => exact fun s t hst => ⟨rfl, hst⟩
  | cons b bs ih =>
    intro s t hst
    obtain ⟨heq, hnext⟩ := h b List.mem_cons_self s t hst
    obtain ⟨hrest, hlast⟩ := ih (fun c hc => h c (List.mem_cons_of_mem b hc)) _ _ hnext
    exact ⟨congrArg₂ List.cons heq hrest, hlast⟩

/-- What every call keeps holds after all of them. -/
theorem all_invariant {f : β → σ → α × σ} {I : σ → Prop} (bs : List β) (h : ∀ b ∈ bs, ∀ s, I s → I (f b s).2) {s : σ}
    (hs : I s) : I (performAll f bs s).2 := by
  induction bs generalizing s with
  | nil => exact hs
  | cons b bs ih =>
    exact ih (fun c hc => h c (List.mem_cons_of_mem b hc)) (h b List.mem_cons_self s hs)

/-! ## Waiting for a device -/

section Waiting

/-- The result for every number of rounds that is large enough. -/
def Settles (f : ℕ → Option α) (a : α) : Prop := ∃ n, ∀ m, n ≤ m → f m = some a

variable {f : ℕ → Option α} {a : α} {b : β}

theorem settles_some : Settles (fun _ => some a) a := ⟨0, fun _ _ => rfl⟩

theorem settles_bind {g : ℕ → α → Option β} (hf : Settles f a) (hg : Settles (fun n => g n a) b) :
    Settles (fun n => (f n).bind (g n)) b := by
  obtain ⟨i, hi⟩ := hf
  obtain ⟨j, hj⟩ := hg
  refine ⟨max i j, fun m hm => ?_⟩
  show (f m).bind (g m) = some b
  rw [hi m (le_trans (le_max_left i j) hm), Option.bind_some]
  exact hj m (le_trans (le_max_right i j) hm)

/-- However many rounds there are, they do not suffice. -/
def Hangs (f : ℕ → Option α) : Prop := ∃ n, ∀ m, n ≤ m → f m = none

theorem hangs_bind {g : ℕ → α → Option β} (hf : Hangs f) : Hangs (fun n => (f n).bind (g n)) := by
  obtain ⟨n, hn⟩ := hf
  refine ⟨n, fun m hm => ?_⟩
  show (f m).bind (g m) = none
  rw [hn m hm]
  rfl

theorem hangs_after {g : ℕ → α → Option β} (hf : Settles f a) (hg : Hangs (fun n => g n a)) :
    Hangs (fun n => (f n).bind (g n)) := by
  obtain ⟨i, hi⟩ := hf
  obtain ⟨j, hj⟩ := hg
  refine ⟨max i j, fun m hm => ?_⟩
  show (f m).bind (g m) = none
  rw [hi m (le_trans (le_max_left i j) hm), Option.bind_some]
  exact hj m (le_trans (le_max_right i j) hm)

/-- Reads again and again while what was read last says so. -/
def pollWhile (read : σ → α × σ) (cond : α → Bool) : ℕ → α → σ → Option (α × σ)
  | 0, _, _ => none
  | n+1, a, s => if cond a then pollWhile read cond n (read s).1 (read s).2 else some (a, s)

variable {read : σ → α × σ} {cond : α → Bool} {s : σ}

theorem poll_done (h : cond a = false) : Settles (fun n => pollWhile read cond n a s) (a, s) := by
  refine ⟨1, fun m hm => ?_⟩
  obtain ⟨m, rfl⟩ := Nat.exists_eq_succ_of_ne_zero (Nat.ne_of_gt hm)
  exact if_neg (by rw [h]; exact Bool.false_ne_true)

theorem poll_next {r : α × σ} (h : cond a = true) (hr : Settles (fun n => pollWhile read cond n (read s).1 (read s).2) r) :
    Settles (fun n => pollWhile read cond n a s) r := by
  obtain ⟨n, hn⟩ := hr
  refine ⟨n+1, fun m hm => ?_⟩
  obtain ⟨m, rfl⟩ := Nat.exists_eq_succ_of_ne_zero (Nat.ne_of_gt (Nat.lt_of_lt_of_le (Nat.succ_pos n) hm))
  exact (if_pos h).trans (hn m (Nat.le_of_succ_le_succ hm))

end Waiting

end PortDevices
