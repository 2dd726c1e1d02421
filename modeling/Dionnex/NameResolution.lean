import Mathlib.Tactic

/-!
# Resolving lists of names

Places lead to places by names, and a list of names is followed from a root.
When a place is reached along one list only, a new name in it changes what
the lists through that name lead to and nothing else; and in a forest, where
no place is below itself, places are reached along one list only.
-/

set_option autoImplicit false

namespace NameResolution

variable {δ ν : Type*} {find find' : δ → ν → Option δ} {root d e x : δ} {p q : List ν} {n m : ν}

def resolve (find : δ → ν → Option δ) : δ → List ν → Option δ
  | d, [] => some d
  | d, n::ns => (find d n).bind (fun e => resolve find e ns)

@[simp] theorem resolve_nil : resolve find d [] = some d := rfl

theorem resolve_append : resolve find d (p++q) = (resolve find d p).bind (fun e => resolve find e q) := by
  induction p generalizing d with
  | nil => rfl
  | cons n p ih =>
    simp only [List.cons_append, resolve, Option.bind_assoc, ih]

theorem resolve_snoc : resolve find d (p++[n]) = (resolve find d p).bind (fun e => find e n) := by
  simp [resolve_append, resolve]

theorem resolve_snoc_some (h : resolve find d (p++[n]) = some x) :
    ∃ e, resolve find d p = some e ∧ find e n = some x := by
  rw [resolve_snoc] at h
  exact Option.bind_eq_some_iff.mp h

/-- Only the names met on the way matter. -/
theorem resolve_congr (h : ∀ r m, (r++[m]) <+: q → ∀ e, resolve find d r = some e → find' e m = find e m) :
    resolve find' d q = resolve find d q := by
  induction q generalizing d with
  | nil => rfl
  | cons n q ih =>
    have hfirst : find' d n = find d n := h [] n (by simp) d rfl
    rw [resolve, resolve, hfirst]
    cases hfind : find d n with
    | none => rfl
    | some e =>
      apply ih
      intro r m hr y hy
      apply h (n::r) m
      · simpa using hr
      · rw [resolve, hfind]
        exact hy

/-- A new name in a place that is reached along one list only matters for the lists through it. -/
theorem resolve_unlinked (honly : ∀ r, resolve find root r = some d → r = p)
    (hsame : ∀ e m, ¬ (e = d ∧ m = n) → find' e m = find e m) (hq : ¬ (p++[n]) <+: q) :
    resolve find' root q = resolve find root q := by
  apply resolve_congr
  intro r m hr e he
  apply hsame
  rintro ⟨rfl, rfl⟩
  rw [honly r he] at hr
  exact hq hr

theorem resolve_linked (honly : ∀ r, resolve find root r = some d → r = p)
    (hsame : ∀ e m, ¬ (e = d ∧ m = n) → find' e m = find e m)
    (hd : resolve find root p = some d) (hnew : find' d n = some x) : resolve find' root (p++[n]) = some x := by
  have hshort : ¬ (p++[n]) <+: p := by
    intro h
    have hlen := h.length_le
    simp at hlen
  rw [resolve_snoc, resolve_unlinked honly hsame hshort, hd, Option.bind_some, hnew]

/-- Places that have one entrance each, and a root that has none, are reached along one list only. -/
theorem resolve_injective {Place : δ → Prop} (hplace : ∀ d n x, Place x → find d n = some x → Place d)
    (hentry : ∀ d n e m x, Place x → find d n = some x → find e m = some x → d = e ∧ n = m)
    (hroot : ∀ q, resolve find root q = some root → q = []) (hx : Place x)
    (hp : resolve find root p = some x) (hq : resolve find root q = some x) : p = q := by
  induction p using List.reverseRecOn generalizing q x with
  | nil =>
    obtain rfl := Option.some.inj hp
    exact (hroot q hq).symm
  | append_singleton p n ih =>
    rcases List.eq_nil_or_concat q with rfl | ⟨q, m, rfl⟩
    · obtain rfl := Option.some.inj hq
      exact hroot _ hp
    · rw [List.concat_eq_append] at hq ⊢
      obtain ⟨d, hd, hdn⟩ := resolve_snoc_some hp
      obtain ⟨e, he, hem⟩ := resolve_snoc_some hq
      obtain ⟨rfl, rfl⟩ := hentry d n e m x hx hdn hem
      rw [ih (hplace d n x hx hdn) hd he]

/-! ## Forests -/

section Forests

variable {α : Type*} {r r' : α → α → Prop} {a b y z : α}

/-- With one more edge, a path either does without it or goes through it. -/
theorem path_through (h : ∀ y z, r' y z → r y z ∨ y = a ∧ z = b) (hp : Relation.TransGen r' y z) :
    Relation.TransGen r y z ∨ Relation.ReflTransGen r y a ∧ Relation.ReflTransGen r b z := by
  induction hp with
  | single hyz =>
    rcases h _ _ hyz with hr | ⟨rfl, rfl⟩
    · exact Or.inl (Relation.TransGen.single hr)
    · exact Or.inr ⟨Relation.ReflTransGen.refl, Relation.ReflTransGen.refl⟩
  | tail _ hyz ih =>
    rcases h _ _ hyz with hr | ⟨rfl, rfl⟩
    · rcases ih with ih | ⟨hya, hbz⟩
      · exact Or.inl (ih.tail hr)
      · exact Or.inr ⟨hya, hbz.tail hr⟩
    · rcases ih with ih | ⟨hya, -⟩
      · exact Or.inr ⟨ih.to_reflTransGen, Relation.ReflTransGen.refl⟩
      · exact Or.inr ⟨hya, Relation.ReflTransGen.refl⟩

/-- Nothing comes to lie below itself when the upper end of a new edge is not below the lower one. -/
theorem acyclic_edge (h : ∀ y z, r' y z → r y z ∨ y = a ∧ z = b) (hr : ∀ y, ¬ Relation.TransGen r y y)
    (hab : ¬ Relation.ReflTransGen r b a) (y : α) : ¬ Relation.TransGen r' y y := by
  intro hp
  rcases path_through h hp with hp | ⟨hya, hby⟩
  · exact hr y hp
  · exact hab (hby.trans hya)

end Forests

end NameResolution
