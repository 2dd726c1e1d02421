import Dionnex.VesaCanvas

/-!
# Rectangles and text on the canvas

What a pixel shows after a rectangle or a string depends on its distances
from the corner of the shape, taken modulo 2^32 as the driver's coordinates
are. So a shape that starts left of the canvas or above it shows exactly the
part of it that reaches the canvas.
-/

set_option autoImplicit false

namespace Dionnex.VesaShapes
open ByteMemory PaintedCells WhileLoops Dionnex.VesaCanvas

section Distances

variable {v : Vesa} {m m' : Mem} {p : ℕ × ℕ} {x y w h c : ℕ}

/-- A coordinate is reached from `x` by its distance and by no other number of steps. -/
theorem wrap_eq_iff {a j : ℕ} (ha : a < 4294967296) (hj : j < 4294967296) :
    wrap (x+j) = a ↔ j = sub32 a x := by
  unfold sub32 wrap
  omega

theorem sub32_lt (a b : ℕ) : sub32 a b < 4294967296 := wrap_lt _

theorem wrap_sub32 {a : ℕ} (ha : a < 4294967296) : wrap (x + sub32 a x) = a :=
  (wrap_eq_iff ha (sub32_lt _ _)).mpr rfl

/-- The far edge of a rectangle as a distance. -/
theorem edge_eq_iff {a n : ℕ} (ha : a < 4294967296) :
    sub32 (x+n) 1 = a ↔ sub32 a x = sub32 n 1 := by
  unfold sub32 wrap
  omega

theorem shown_lt (hf : Fits v) (hp : Shown v p) : p.1 < 4294967296 ∧ p.2 < 4294967296 := by
  have hrow := pixel_row hf hp
  have hbelow := hf.below
  have hnonnull := hf.nonnull
  have hdepth : 3 ≤ v.bpp/8 := by
    rcases hf.depth with hd | hd
    · rw [hd]
      decide
    · rw [hd]
  have hx : 1*p.1 ≤ v.bpp/8*p.1 := Nat.mul_le_mul_right _ (by omega)
  have hy : 1*p.2 ≤ v.pitch*p.2 := Nat.mul_le_mul_right _ (by omega)
  omega

/-- A pixel that is painted in one colour only. -/
theorem plots_on (hf : Fits v) {l : List Stroke} (hp : Shown v p) (hon : (p, c) ∈ l) (hall : ∀ s ∈ l, s.1 = p → s.2 = c) :
    stored v (plots v m l) p = kept v c := by
  rw [plots_stored hf l hp]
  refine paint_on ⟨(p, kept v c), List.mem_map.mpr ⟨(p, c), hon, rfl⟩, rfl⟩ ?_
  intro s hs heq
  obtain ⟨t, ht, rfl⟩ := List.mem_map.mp hs
  exact congrArg (kept v) (hall t ht heq)

theorem plots_untouched (hf : Fits v) {l : List Stroke} (hp : Shown v p) (hall : ∀ s ∈ l, s.1 ≠ p) :
    stored v (plots v m l) p = stored v m p := by
  rw [plots_stored hf l hp]
  refine paint_off (fun s hs => ?_)
  obtain ⟨t, ht, rfl⟩ := List.mem_map.mp hs
  exact hall t ht

end Distances

section Rectangles

variable {v : Vesa} {m : Mem} {p : ℕ × ℕ} {x y w h c : ℕ}

theorem mem_grid {s : Stroke} : s ∈ gridStrokes x y w h c ↔
    ∃ i < h, ∃ j < w, s = ((wrap (x+j), wrap (y+i)), c) := by
  simp only [gridStrokes, List.mem_flatMap, List.mem_range, List.mem_singleton]

theorem mem_outline {s : Stroke} : s ∈ outlineStrokes x y w h c ↔
    (∃ i < w, s = ((wrap (x+i), y), c) ∨ s = ((wrap (x+i), sub32 (y+h) 1), c)) ∨
    (∃ i < h, s = ((x, wrap (y+i)), c) ∨ s = ((sub32 (x+w) 1, wrap (y+i)), c)) := by
  simp only [outlineStrokes, rowStrokes, columnStrokes, List.mem_append, List.mem_flatMap, List.mem_range, List.mem_cons,
    List.not_mem_nil, or_false]

/-- The distances of a pixel inside a rectangle. -/
def Inside (x y w h : ℕ) (p : ℕ × ℕ) : Prop := sub32 p.1 x < w ∧ sub32 p.2 y < h

/-- Those on its outline; a rectangle without rows or without columns still has edges. -/
def OnOutline (x y w h : ℕ) (p : ℕ × ℕ) : Prop :=
  sub32 p.1 x < w ∧ (sub32 p.2 y = 0 ∨ sub32 p.2 y = sub32 h 1) ∨
  sub32 p.2 y < h ∧ (sub32 p.1 x = 0 ∨ sub32 p.1 x = sub32 w 1)

instance (x y w h : ℕ) (p : ℕ × ℕ) : Decidable (Inside x y w h p) := inferInstanceAs (Decidable (_ ∧ _))

instance (x y w h : ℕ) (p : ℕ × ℕ) : Decidable (OnOutline x y w h p) := inferInstanceAs (Decidable (_ ∨ _))

theorem grid_covers (hw : w < 4294967296) (hh : h < 4294967296)
    (hp1 : p.1 < 4294967296) (hp2 : p.2 < 4294967296) :
    (∃ s ∈ gridStrokes x y w h c, s.1 = p) ↔ Inside x y w h p := by
  constructor
  · rintro ⟨s, hs, rfl⟩
    obtain ⟨i, hi, j, hj, rfl⟩ := mem_grid.mp hs
    have h1 := (wrap_eq_iff (wrap_lt (x+j)) (by omega)).mp rfl
    have h2 := (wrap_eq_iff (wrap_lt (y+i)) (by omega)).mp rfl
    unfold Inside
    dsimp only
    omega
  · rintro ⟨h1, h2⟩
    exact ⟨_, mem_grid.mpr ⟨sub32 p.2 y, h2, sub32 p.1 x, h1, rfl⟩, Prod.ext (wrap_sub32 hp1) (wrap_sub32 hp2)⟩

theorem outline_covers (hx : x < 4294967296) (hy : y < 4294967296) (hw : w < 4294967296) (hh : h < 4294967296)
    (hp1 : p.1 < 4294967296) (hp2 : p.2 < 4294967296) :
    (∃ s ∈ outlineStrokes x y w h c, s.1 = p) ↔ OnOutline x y w h p := by
  have hcol : ∀ i, i < 4294967296 → (wrap (x+i) = p.1 ↔ i = sub32 p.1 x) := fun i hi => wrap_eq_iff hp1 hi
  have hrow : ∀ i, i < 4294967296 → (wrap (y+i) = p.2 ↔ i = sub32 p.2 y) := fun i hi => wrap_eq_iff hp2 hi
  have hleft : x = p.1 ↔ sub32 p.1 x = 0 := by
    have h0 := hcol 0 (by decide)
    rw [Nat.add_zero, wrap_of_lt hx] at h0
    rw [h0]
    exact eq_comm
  have htop : y = p.2 ↔ sub32 p.2 y = 0 := by
    have h0 := hrow 0 (by decide)
    rw [Nat.add_zero, wrap_of_lt hy] at h0
    rw [h0]
    exact eq_comm
  have hright := @edge_eq_iff x _ w hp1
  have hbottom := @edge_eq_iff y _ h hp2
  constructor
  · rintro ⟨s, hs, hsp⟩
    rcases mem_outline.mp hs with ⟨i, hi, rfl | rfl⟩ | ⟨i, hi, rfl | rfl⟩
    · obtain ⟨h1, h2⟩ := Prod.ext_iff.mp hsp
      have hdist := (hcol i (by omega)).mp h1
      exact Or.inl ⟨by omega, Or.inl (htop.mp h2)⟩
    · obtain ⟨h1, h2⟩ := Prod.ext_iff.mp hsp
      have hdist := (hcol i (by omega)).mp h1
      exact Or.inl ⟨by omega, Or.inr (hbottom.mp h2)⟩
    · obtain ⟨h1, h2⟩ := Prod.ext_iff.mp hsp
      have hdist := (hrow i (by omega)).mp h2
      exact Or.inr ⟨by omega, Or.inl (hleft.mp h1)⟩
    · obtain ⟨h1, h2⟩ := Prod.ext_iff.mp hsp
      have hdist := (hrow i (by omega)).mp h2
      exact Or.inr ⟨by omega, Or.inr (hright.mp h1)⟩
  · rintro (⟨hlt, h2 | h2⟩ | ⟨hlt, h1 | h1⟩)
    · exact ⟨_, mem_outline.mpr (Or.inl ⟨sub32 p.1 x, hlt, Or.inl rfl⟩), Prod.ext (wrap_sub32 hp1) (htop.mpr h2)⟩
    · exact ⟨_, mem_outline.mpr (Or.inl ⟨sub32 p.1 x, hlt, Or.inr rfl⟩), Prod.ext (wrap_sub32 hp1) (hbottom.mpr h2)⟩
    · exact ⟨_, mem_outline.mpr (Or.inr ⟨sub32 p.2 y, hlt, Or.inl rfl⟩), Prod.ext (hleft.mpr h1) (wrap_sub32 hp2)⟩
    · exact ⟨_, mem_outline.mpr (Or.inr ⟨sub32 p.2 y, hlt, Or.inr rfl⟩), Prod.ext (hright.mpr h1) (wrap_sub32 hp2)⟩

/-- Strokes of one colour. -/
theorem plots_colour (hf : Fits v) {l : List Stroke} (hp : Shown v p) (hl : ∀ s ∈ l, s.2 = c) {R : Prop} [Decidable R]
    (hcov : (∃ s ∈ l, s.1 = p) ↔ R) :
    stored v (plots v m l) p = if R then kept v c else stored v m p := by
  split
  · rename_i hr
    obtain ⟨s, hs, hsp⟩ := hcov.mpr hr
    have hmem : (p, c) ∈ l := by
      rw [← hsp, ← hl s hs]
      exact hs
    exact plots_on hf hp hmem (fun t ht _ => hl t ht)
  · rename_i hr
    exact plots_untouched hf hp (fun s hs hsp => hr (hcov.mp ⟨s, hs, hsp⟩))

/-- A filled rectangle colours the pixels inside it and an empty one those of its edges, wherever the rectangle
lies, and all other pixels stay as they were. -/
theorem rectangles_drawn (v : Vesa) (hf : Fits v) (m : Mem) (x y w h c : ℕ) (hx : x < 4294967296) (hy : y < 4294967296)
    (hw : w < 4294967296) (hh : h < 4294967296) (p : ℕ × ℕ) (hp : Shown v p) :
    stored v (vesaFillRect v m x y w h c) p = (if Inside x y w h p then kept v c else stored v m p) ∧
    stored v (vesaDrawRect v m x y w h c) p = (if OnOutline x y w h p then kept v c else stored v m p) := by
  obtain ⟨hp1, hp2⟩ := shown_lt hf hp
  constructor
  · rw [fill_strokes]
    refine plots_colour hf hp ?_ (grid_covers hw hh hp1 hp2)
    intro s hs
    obtain ⟨i, -, j, -, rfl⟩ := mem_grid.mp hs
    rfl
  · rw [rect_strokes]
    refine plots_colour hf hp ?_ (outline_covers hx hy hw hh hp1 hp2)
    intro s hs
    rcases mem_outline.mp hs with ⟨i, -, rfl | rfl⟩ | ⟨i, -, rfl | rfl⟩
    · rfl
    · rfl
    · rfl
    · rfl

/-- A rectangle that starts one column left of the canvas. -/
theorem rectangles_drawn_sample :
    stored smallCanvas (vesaFillRect smallCanvas (fun _ => 0) 4294967295 0 2 1 9) (0, 0) =
      (if Inside 4294967295 0 2 1 (0, 0) then kept smallCanvas 9 else stored smallCanvas (fun _ => 0) (0, 0)) ∧
    stored smallCanvas (vesaDrawRect smallCanvas (fun _ => 0) 4294967295 0 2 1 9) (0, 0) =
      (if OnOutline 4294967295 0 2 1 (0, 0) then kept smallCanvas 9 else stored smallCanvas (fun _ => 0) (0, 0)) :=
  rectangles_drawn smallCanvas smallCanvas_fits (fun _ => 0) 4294967295 0 2 1 9 (by decide) (by decide) (by decide) (by decide)
    (0, 0) (by decide)

example : Inside 4294967295 0 2 1 (0, 0) ∧ ¬ Inside 4294967295 0 2 1 (1, 0) := by decide

end Rectangles

section Text

variable {v : Vesa} {m : Mem} {p : ℕ × ℕ} {x y c fg bg col : ℕ} {cs : List ℕ}

/-- The colour of column `j` of row `i` of a character; a transparent background has none. -/
def ink (v : Vesa) (c fg bg i j : ℕ) : Option ℕ :=
  if fontRow v c i &&& (1 <<< (7-j)) ≠ 0 then some fg
  else if bg ≠ 0xFFFFFFFF then some bg
  else none

/-- The colour of a text at a column and a row counted from its corner. -/
def shade (v : Vesa) (cs : List ℕ) (fg bg k r : ℕ) : Option ℕ :=
  if k < 8*cs.length ∧ r < 8 then ink v (cs.getD (k/8) 0) fg bg r (k%8) else none

theorem mem_cell {s : Stroke} {i j : ℕ} : s ∈ cellStrokes v x y c fg bg i j ↔
    ink v c fg bg i j = some s.2 ∧ s.1 = (wrap (x+j), wrap (y+i)) := by
  unfold cellStrokes ink
  split
  · rw [List.mem_singleton, Option.some.injEq, Prod.ext_iff, and_comm, eq_comm (a := s.2)]
  · split
    · rw [List.mem_singleton, Option.some.injEq, Prod.ext_iff, and_comm, eq_comm (a := s.2)]
    · simp

theorem mem_char (hp1 : p.1 < 4294967296) (hp2 : p.2 < 4294967296) : (p, col) ∈ charStrokes v x y c fg bg ↔
    sub32 p.1 x < 8 ∧ sub32 p.2 y < 8 ∧ ink v c fg bg (sub32 p.2 y) (sub32 p.1 x) = some col := by
  simp only [charStrokes, List.mem_flatMap, List.mem_range, mem_cell]
  constructor
  · rintro ⟨i, hi, j, hj, hink, hp⟩
    obtain ⟨h1, h2⟩ := Prod.ext_iff.mp hp
    obtain rfl := (wrap_eq_iff hp1 (by omega)).mp h1.symm
    obtain rfl := (wrap_eq_iff hp2 (by omega)).mp h2.symm
    exact ⟨hj, hi, hink⟩
  · rintro ⟨hj, hi, hink⟩
    exact ⟨sub32 p.2 y, hi, sub32 p.1 x, hj, hink, Prod.ext (wrap_sub32 hp1).symm (wrap_sub32 hp2).symm⟩

/-- The strokes of a text at a pixel are given by the pixel's distances alone; no two characters meet. -/
theorem mem_text (hlen : 8*cs.length ≤ 4294967296) (hp1 : p.1 < 4294967296) (hp2 : p.2 < 4294967296) :
    (p, col) ∈ textStrokes v y fg bg x cs ↔ shade v cs fg bg (sub32 p.1 x) (sub32 p.2 y) = some col := by
  induction cs generalizing x with
  | nil => simp [textStrokes, shade]
  | cons c cs ih =>
    rw [List.length_cons] at hlen
    have hk := sub32_lt p.1 x
    have hnext : sub32 p.1 (wrap (x+8)) = if sub32 p.1 x < 8 then sub32 p.1 x + 4294967288 else sub32 p.1 x - 8 := by
      split
      · rename_i h8
        unfold sub32 wrap at h8 ⊢
        omega
      · rename_i h8
        unfold sub32 wrap at h8 ⊢
        omega
    rw [textStrokes, List.mem_append, mem_char hp1 hp2, ih (by omega), hnext]
    unfold shade
    rw [List.length_cons]
    by_cases h8 : sub32 p.1 x < 8
    · rw [if_pos h8, if_neg (show ¬ (sub32 p.1 x + 4294967288 < 8*cs.length ∧ sub32 p.2 y < 8) by omega)]
      have hdiv : sub32 p.1 x / 8 = 0 := Nat.div_eq_of_lt h8
      have hmod : sub32 p.1 x % 8 = sub32 p.1 x := Nat.mod_eq_of_lt h8
      rw [hdiv, hmod, List.getD_cons_zero]
      by_cases hr : sub32 p.2 y < 8
      · rw [if_pos ⟨by omega, hr⟩]
        simp [h8, hr]
      · rw [if_neg (fun hc => hr hc.2)]
        simp [hr]
    · have hdiv : sub32 p.1 x / 8 = (sub32 p.1 x - 8)/8 + 1 := by omega
      have hmod : sub32 p.1 x % 8 = (sub32 p.1 x - 8) % 8 := by omega
      rw [if_neg h8, hdiv, hmod, List.getD_cons_succ]
      have hcond : sub32 p.1 x - 8 < 8*cs.length ∧ sub32 p.2 y < 8 ↔
          sub32 p.1 x < 8*(cs.length+1) ∧ sub32 p.2 y < 8 := by omega
      simp only [hcond, h8, false_and, false_or]

/-- A string is drawn to its end, and each pixel then shows the bit of the character that its distances select. -/
theorem text_drawn (v : Vesa) (hf : Fits v) (m : Mem) (x y str fg bg : ℕ) (cs : List ℕ) (h0 : str ≠ 0)
    (hs : StringAt m str cs) (ha : Apart v str cs) (hlen : 8*cs.length ≤ 4294967296) :
    ∃ rounds m', vesaDrawString rounds v m x y str fg bg = some m' ∧ ∀ p, Shown v p →
      stored v m' p = ((shade v cs fg bg (sub32 p.1 x) (sub32 p.2 y)).map (kept v)).getD (stored v m p) := by
  obtain ⟨rounds, hrun⟩ := @string_drawn v m hf y fg bg x str cs hs ha
  refine ⟨rounds, _, (if_neg h0).trans hrun, fun p hp => ?_⟩
  obtain ⟨hp1, hp2⟩ := shown_lt hf hp
  have hmem : ∀ col, (p, col) ∈ textStrokes v y fg bg x cs ↔ _ := fun col => mem_text hlen hp1 hp2
  cases hsh : shade v cs fg bg (sub32 p.1 x) (sub32 p.2 y) with
  | none =>
    refine plots_untouched hf hp ?_
    rintro ⟨q, col⟩ hmemq rfl
    have hsome := (hmem col).mp hmemq
    rw [hsh] at hsome
    cases hsome
  | some col =>
    refine plots_on hf hp ((hmem col).mpr hsh) ?_
    rintro ⟨q, col'⟩ hmemq rfl
    have hsome := (hmem col').mp hmemq
    rw [hsh] at hsome
    exact (Option.some.inj hsome).symm

/-- A text of two characters whose first one lies left of the canvas. -/
theorem text_drawn_sample : ∃ rounds m',
    vesaDrawString rounds smallCanvas (fun a => if a = 16 ∨ a = 17 then 72 else 0) 4294967288 0 16 7 0xFFFFFFFF = some m' ∧
    ∀ p, Shown smallCanvas p → stored smallCanvas m' p =
      ((shade smallCanvas [72, 72] 7 0xFFFFFFFF (sub32 p.1 4294967288) (sub32 p.2 0)).map (kept smallCanvas)).getD
        (stored smallCanvas (fun a => if a = 16 ∨ a = 17 then 72 else 0) p) :=
  text_drawn smallCanvas smallCanvas_fits _ 4294967288 0 16 7 0xFFFFFFFF [72, 72] (by decide)
    ⟨rfl, by decide, rfl, by decide, rfl⟩
    (by
      intro i hi hmem
      obtain ⟨j, hj, heq⟩ := hmem
      have hi2 : i ≤ 2 := hi
      have hj32 : j < 32 := hj
      unfold wrap at heq
      simp only [smallCanvas] at heq
      omega)
    (by decide)

end Text

end Dionnex.VesaShapes
