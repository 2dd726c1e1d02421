import Mathlib.Tactic

/-!
# Singly linked chains

Nodes are addresses and `next` says where each of them leads; 0 ends a
chain. A segment lists the nodes between two addresses. A chain determines
its list, so it has no repetition, and the three ways in which list code
changes a chain are rules on lists.
-/

set_option autoImplicit false

namespace LinkedChain

variable {next next' : ℕ → ℕ} {p q : ℕ} {l r : List ℕ}

def Seg (next : ℕ → ℕ) : ℕ → List ℕ → ℕ → Prop
  | p, [], q => p = q
  | p, x::l, q => p = x ∧ x ≠ 0 ∧ Seg next (next x) l q

abbrev Chain (next : ℕ → ℕ) (p : ℕ) (l : List ℕ) : Prop := Seg next p l 0

theorem seg_append : Seg next p (l++r) q ↔ ∃ m, Seg next p l m ∧ Seg next m r q := by
  induction l generalizing p with
  | nil => simp [Seg]
  | cons x l ih => simp [Seg, ih, and_assoc]

theorem seg_congr (h : ∀ x ∈ l, next' x = next x) (hs : Seg next p l q) : Seg next' p l q := by
  induction l generalizing p with
  | nil => exact hs
  | cons x l ih =>
    obtain ⟨hp, hx, hrest⟩ := hs
    refine ⟨hp, hx, ?_⟩
    rw [h x List.mem_cons_self]
    exact ih (fun y hy => h y (List.mem_cons_of_mem x hy)) hrest

theorem seg_update {x y : ℕ} (h : x ∉ l) (hs : Seg next p l q) :
    Seg (Function.update next x y) p l q :=
  seg_congr (fun _ hz => Function.update_of_ne (ne_of_mem_of_not_mem hz h) _ _) hs

theorem seg_ne_zero (hs : Seg next p l q) : ∀ x ∈ l, x ≠ 0 := by
  induction l generalizing p with
  | nil => intro x hx; cases hx
  | cons y l ih =>
    intro x hx
    rcases List.mem_cons.mp hx with rfl | hx
    · exact hs.2.1
    · exact ih hs.2.2 x hx

theorem chain_unique (hl : Chain next p l) (hr : Chain next p r) : l = r := by
  induction l generalizing p r with
  | nil =>
    cases r with
    | nil => rfl
    | cons y r => exact (hr.2.1 (hr.1.symm.trans hl)).elim
  | cons x l ih =>
    cases r with
    | nil => exact (hl.2.1 (hl.1.symm.trans hr)).elim
    | cons y r =>
      obtain rfl : x = y := hl.1.symm.trans hr.1
      rw [ih hl.2.2 hr.2.2]

/-- A node met twice would have two different rests. -/
theorem chain_nodup (h : Chain next p l) : l.Nodup := by
  induction l generalizing p with
  | nil => exact List.nodup_nil
  | cons x l ih =>
    rw [List.nodup_cons]
    refine ⟨fun hx => ?_, ih h.2.2⟩
    obtain ⟨l1, l2, rfl⟩ := List.append_of_mem hx
    obtain ⟨m, -, hm⟩ := seg_append.mp h.2.2
    have hrest : Chain next x (x::l2) := hm.1 ▸ hm
    have heq := chain_unique hrest (h.1 ▸ h)
    have hlen := congrArg List.length heq
    simp at hlen
    omega

theorem chain_push {x : ℕ} (h : Chain next p l) (hx : x ∉ l) (h0 : x ≠ 0) :
    Chain (Function.update next x p) x (x::l) := by
  refine ⟨rfl, h0, ?_⟩
  rw [Function.update_self]
  exact seg_update hx h

/-- Only the last node leads nowhere. -/
theorem chain_next_ne {x : ℕ} (h : Chain next p (x::l)) (hl : l ≠ []) : next x ≠ 0 := by
  intro h0
  have hrest := h.2.2
  rw [h0] at hrest
  exact hl (chain_unique hrest rfl)

theorem chain_last {y : ℕ} (h : Chain next p (l++[y])) : next y = 0 := by
  obtain ⟨m, -, hy⟩ := seg_append.mp h
  exact hy.2.2

/-- Making the last node lead to `x` and `x` nowhere puts `x` behind it. -/
theorem chain_append {x y : ℕ} (h : Chain next p (l++[y])) (hx : x ∉ l++[y]) (h0 : x ≠ 0) :
    Chain (Function.update (Function.update next y x) x 0) p (l++[y]++[x]) := by
  have hyl : y ∉ l := fun hy => (List.disjoint_of_nodup_append (chain_nodup h)) hy (by simp)
  obtain ⟨m, hm, hy⟩ := seg_append.mp h
  have hinto : Seg (Function.update next y x) p (l++[y]) x := by
    refine seg_append.mpr ⟨m, seg_update hyl hm, hy.1, hy.2.1, ?_⟩
    rw [Function.update_self]
    exact rfl
  refine seg_append.mpr ⟨x, seg_update hx hinto, rfl, h0, ?_⟩
  rw [Function.update_self]
  exact rfl

/-- Making `y` lead past its successor `x` takes `x` out of the chain. -/
theorem chain_unlink {x y : ℕ} (h : Chain next p (l++y::x::r)) :
    Chain (Function.update next y (next x)) p (l++y::r) := by
  have hnodup := chain_nodup h
  have hyl : y ∉ l := fun hy => (List.disjoint_of_nodup_append hnodup) hy (by simp)
  have hyr : y ∉ r := fun hy => (List.nodup_cons.mp hnodup.of_append_right).1 (by simp [hy])
  obtain ⟨m, hm, hy⟩ := seg_append.mp h
  refine seg_append.mpr ⟨m, seg_update hyl hm, hy.1, hy.2.1, ?_⟩
  rw [Function.update_self]
  exact seg_update hyr hy.2.2.2.2

theorem chain_head (h : Chain next p l) (hp : p ≠ 0) : p ∈ l := by
  cases l with
  | nil => exact (hp h).elim
  | cons x l => exact h.1 ▸ List.mem_cons_self

/-- Wherever links lead from the head of a chain is on the chain, and conversely. -/
theorem chain_reach (h : Chain next p r) : q ∈ r ↔ q ≠ 0 ∧ ∃ l, Seg next p l q := by
  constructor
  · intro hq
    obtain ⟨l1, l2, rfl⟩ := List.append_of_mem hq
    obtain ⟨m, h1, h2⟩ := seg_append.mp h
    exact ⟨h2.2.1, l1, h2.1 ▸ h1⟩
  · rintro ⟨h0, l, hl⟩
    induction l generalizing p r with
    | nil => exact chain_head (hl ▸ h) h0
    | cons x l ih =>
      cases r with
      | nil => exact (hl.2.1 (hl.1.symm.trans h)).elim
      | cons y r =>
        obtain rfl : x = y := hl.1.symm.trans h.1
        exact List.mem_cons_of_mem x (ih h.2.2 hl.2.2)

theorem chain_length (h : Chain next p l) {n : ℕ} (hlt : ∀ x ∈ l, x < n) : l.length ≤ n := by
  have hsub : l.toFinset ⊆ Finset.range n := by
    intro x hx
    rw [List.mem_toFinset] at hx
    exact Finset.mem_range.mpr (hlt x hx)
  have hcard := Finset.card_le_card hsub
  rwa [List.toFinset_card_of_nodup (chain_nodup h), Finset.card_range] at hcard

/-- The null address is on no chain. -/
theorem chain_length_lt (h : Chain next p l) {n : ℕ} (hn : 0 < n) (hlt : ∀ x ∈ l, x < n) : l.length < n := by
  have hsub : l.toFinset ⊆ (Finset.range n).erase 0 := by
    intro x hx
    rw [List.mem_toFinset] at hx
    exact Finset.mem_erase.mpr ⟨seg_ne_zero h x hx, Finset.mem_range.mpr (hlt x hx)⟩
  have hcard := Finset.card_le_card hsub
  rw [List.toFinset_card_of_nodup (chain_nodup h), Finset.card_erase_of_mem (Finset.mem_range.mpr hn),
    Finset.card_range] at hcard
  omega

/-- The first node that satisfies `found`, and 0 when there is none; `none` when the steps do not suffice. -/
def search (next : ℕ → ℕ) (found : ℕ → Bool) : ℕ → ℕ → Option ℕ
  | 0, _ => none
  | fuel+1, p => if p = 0 then some 0 else if found p then some p else search next found fuel (next p)

theorem chain_search {found : ℕ → Bool} {fuel : ℕ} (h : Chain next p l) (hf : l.length < fuel) :
    search next found fuel p = some ((l.find? found).getD 0) := by
  induction l generalizing p fuel with
  | nil =>
    obtain ⟨fuel, rfl⟩ := Nat.exists_eq_succ_of_ne_zero (Nat.ne_of_gt hf)
    exact if_pos h
  | cons x l ih =>
    obtain ⟨fuel, rfl⟩ := Nat.exists_eq_succ_of_ne_zero (Nat.ne_of_gt (Nat.zero_lt_of_lt hf))
    obtain ⟨rfl, h0, hrest⟩ := h
    rw [search, if_neg h0]
    cases hx : found p with
    | true => rw [if_pos rfl, List.find?_cons_of_pos hx, Option.getD_some]
    | false =>
      rw [if_neg Bool.false_ne_true, List.find?_cons_of_neg (by rw [hx]; exact Bool.false_ne_true)]
      exact ih hrest (by rw [List.length_cons] at hf; omega)

end LinkedChain
