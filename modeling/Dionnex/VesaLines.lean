import Dionnex.WhileLoops

/-!
# Lines on the canvas

`vesa_draw_line` plots a point, stops if it is the end point, and otherwise
lets the error term decide whether to step in x, in y or in both. Seen from
the longer side the error term keeps the other coordinate within half a step
of the line, so the loop moves along the longer side in every round and
arrives at both coordinates of the end point at once.
-/

set_option autoImplicit false

namespace Dionnex.VesaLines
open WhileLoops

abbrev Point := ℤ × ℤ

/-- The value of an `int` expression; `none` is an overflow. -/
def int32 (v : ℤ) : Option ℤ := if -2147483648 ≤ v ∧ v ≤ 2147483647 then some v else none

/-- The variables that the loop does not change. -/
structure Line where
  x2 : ℤ
  y2 : ℤ
  dx : ℤ
  dy : ℤ
  sx : ℤ
  sy : ℤ
  deriving DecidableEq, Repr

/-- The other variables, and for the record the points that were plotted. -/
structure Pen where
  x1 : ℤ
  y1 : ℤ
  err : ℤ
  plotted : List Point
  deriving DecidableEq, Repr

/-- Up to the loop. -/
def prepare (x1 y1 x2 y2 : ℤ) : Option (Line × Pen) := do
  let dx ← int32 (if x2 > x1 then x2-x1 else x1-x2)
  let dy ← int32 (if y2 > y1 then y2-y1 else y1-y2)
  let sx := if x1 < x2 then 1 else -1
  let sy := if y1 < y2 then 1 else -1
  let err ← int32 (dx-dy)
  some (⟨x2, y2, dx, dy, sx, sy⟩, ⟨x1, y1, err, []⟩)

def stepX (l : Line) (e2 minusDy : ℤ) (p : Pen) : Option Pen :=
  if e2 > minusDy then do
    let err ← int32 (p.err-l.dy)
    let x1 ← int32 (p.x1+l.sx)
    some { p with err := err, x1 := x1 }
  else some p

def stepY (l : Line) (e2 : ℤ) (p : Pen) : Option Pen :=
  if e2 < l.dx then do
    let err ← int32 (p.err+l.dx)
    let y1 ← int32 (p.y1+l.sy)
    some { p with err := err, y1 := y1 }
  else some p

/-- The rest of the loop's body. -/
def advance (l : Line) (p : Pen) : Option Pen := do
  let e2 ← int32 (2*p.err)
  let minusDy ← int32 (-l.dy)
  let p ← stepX l e2 minusDy p
  stepY l e2 p

/-- The result `none` is an overflow. -/
def drawRound (l : Line) (p : Pen) : Round Pen (Option (List Point)) :=
  let p := { p with plotted := p.plotted ++ [(p.x1, p.y1)] }
  if p.x1 = l.x2 ∧ p.y1 = l.y2 then .done (some p.plotted)
  else
    match advance l p with
    | none => .done none
    | some q => .next q

/-- The points that are plotted, in order. -/
def vesaDrawLine (rounds : ℕ) (x1 y1 x2 y2 : ℤ) : Option (Option (List Point)) :=
  match prepare x1 y1 x2 y2 with
  | none => some none
  | some (l, p) => run (drawRound l) rounds p

/-! ## The longer side and the other one -/

/-- After `a` of `long` steps along the longer side and `b` of `short` steps along the other one the point is
within half a step of the line. -/
structure Near (long short a b : ℤ) : Prop where
  sides : 0 ≤ short ∧ short ≤ long
  along : 0 ≤ a ∧ a ≤ long
  across : 0 ≤ b ∧ b ≤ short
  lower : -long ≤ 2*(short*a) - 2*(long*b)
  upper : 2*(short*a) - 2*(long*b) ≤ long

section Sides

variable {long short a b : ℤ}

/-- The error term is that of the point one step further in both directions. -/
def errAt (long short a b : ℤ) : ℤ := long*b + long - (short*a + short)

theorem near_start (h0 : 0 ≤ short) (h : short ≤ long) : Near long short 0 0 :=
  ⟨⟨h0, h⟩, ⟨le_rfl, by omega⟩, ⟨le_rfl, h0⟩, by omega, by omega⟩

/-- Within half a step of the line there is no overshoot. -/
theorem across_le (hlong : 0 < long) (h0 : 0 ≤ short) (ha : a ≤ long)
    (hlo : -long ≤ 2*(short*a) - 2*(long*b)) : b ≤ short := by
  by_contra hgt
  have hab : short*a ≤ short*long := mul_le_mul_of_nonneg_left ha h0
  have hb : long*(short+1) ≤ long*b := mul_le_mul_of_nonneg_left (by omega) hlong.le
  rw [mul_add, mul_one, mul_comm long short] at hb
  omega

/-- At the end of the longer side the other one is done as well. -/
theorem near_end (h : Near long short long b) : b = short := by
  obtain ⟨⟨h0, hle⟩, ⟨hl0, -⟩, ⟨hb, hbs⟩, hlo, hhi⟩ := h
  by_contra hne
  have hlt : long*(b+1) ≤ long*short := mul_le_mul_of_nonneg_left (by omega) hl0
  rw [mul_add, mul_one, mul_comm long short] at hlt
  omega

/-- The condition of a step along the longer side holds before its end. -/
theorem near_along (h : Near long short a b) (ha : a < long) : -short < 2*errAt long short a b := by
  obtain ⟨⟨h0, hle⟩, ⟨ha0, -⟩, -, hlo, hhi⟩ := h
  unfold errAt
  by_cases heq : short = long
  · -- on a diagonal the two products differ by a multiple of the side
    subst heq
    have hprod : short*a - short*b = short*(a-b) := by ring
    by_contra hneg
    have hone : a-b < 1 := by
      by_contra hge
      have hmul : short*1 ≤ short*(a-b) := mul_le_mul_of_nonneg_left (by omega) h0
      omega
    have hzero : short*(a-b) ≤ short*0 := mul_le_mul_of_nonneg_left (by omega) h0
    omega
  · omega

theorem near_next (h : Near long short a b) (ha : a < long) :
    Near long short (a+1) (if 2*errAt long short a b < long then b+1 else b) := by
  obtain ⟨⟨h0, hle⟩, ⟨ha0, -⟩, ⟨hb, hbs⟩, hlo, hhi⟩ := h
  unfold errAt
  have hshort : short*(a+1) = short*a + short := by ring
  by_cases hstep : 2*(long*b + long - (short*a + short)) < long
  · have hlong : long*(b+1) = long*b + long := by ring
    have hlo' : -long ≤ 2*(short*(a+1)) - 2*(long*(b+1)) := by
      rw [hshort, hlong]
      omega
    rw [if_pos hstep]
    refine ⟨⟨h0, hle⟩, ⟨by omega, by omega⟩, ⟨by omega, across_le (by omega) h0 (by omega) hlo'⟩, hlo', ?_⟩
    rw [hshort, hlong]
    omega
  · rw [if_neg hstep]
    refine ⟨⟨h0, hle⟩, ⟨by omega, by omega⟩, ⟨hb, hbs⟩, ?_, ?_⟩
    · rw [hshort]
      omega
    · rw [hshort]
      omega

theorem errAt_swap : errAt short long b a = -errAt long short a b := by
  unfold errAt
  ring

theorem errAt_along : errAt long short (a+1) b = errAt long short a b - short := by
  unfold errAt
  ring

theorem errAt_across : errAt long short a (b+1) = errAt long short a b + long := by
  unfold errAt
  ring

theorem near_bound (h : Near long short a b) : -long ≤ 2*errAt long short a b ∧ 2*errAt long short a b ≤ 3*long := by
  obtain ⟨⟨h0, hle⟩, -, -, hlo, hhi⟩ := h
  unfold errAt
  omega

end Sides

/-! ## The loop -/

/-- A step to one of the eight neighbours that leads towards the end point in each coordinate that it changes. -/
def Toward (e p q : Point) : Prop :=
  q ≠ p ∧ (q.1 = p.1 ∨ q.1 = p.1 + (e.1-p.1).sign) ∧ (q.2 = p.2 ∨ q.2 = p.2 + (e.2-p.2).sign)

def Between (a b v : ℤ) : Prop := min a b ≤ v ∧ v ≤ max a b

/-- A line from the first to the last point in as many steps as its longer side has. -/
structure Drawn (x1 y1 x2 y2 : ℤ) (ps : List Point) : Prop where
  steps : (ps.length : ℤ) = max |x2-x1| |y2-y1| + 1
  first : ps.head? = some (x1, y1)
  last : ps.getLast? = some (x2, y2)
  path : ps.IsChain (Toward (x2, y2))
  inside : ∀ q ∈ ps, Between x1 x2 q.1 ∧ Between y1 y2 q.2

/-- The sides and directions of the line from `x1`, `y1`, which lies well inside the range of `int`. -/
structure Prepared (l : Line) (x1 y1 : ℤ) : Prop where
  endX : l.x2 = x1 + l.sx*l.dx
  endY : l.y2 = y1 + l.sy*l.dy
  unitX : l.sx = 1 ∨ l.sx = -1
  unitY : l.sy = 1 ∨ l.sy = -1
  sideX : 0 ≤ l.dx ∧ l.dx ≤ 536870912
  sideY : 0 ≤ l.dy ∧ l.dy ≤ 536870912
  smallX : -268435456 ≤ x1 ∧ x1 ≤ 268435456 ∧ -268435456 ≤ l.x2 ∧ l.x2 ≤ 268435456
  smallY : -268435456 ≤ y1 ∧ y1 ≤ 268435456 ∧ -268435456 ≤ l.y2 ∧ l.y2 ≤ 268435456

/-- After `a` steps in x and `b` in y, one of them along the longer side in each round. -/
structure Drawing (l : Line) (x1 y1 : ℤ) (p : Pen) (a b : ℤ) : Prop where
  x : p.x1 = x1 + l.sx*a
  y : p.y1 = y1 + l.sy*b
  err : p.err = errAt l.dx l.dy a b
  near : (Near l.dx l.dy a b ∧ (p.plotted.length : ℤ) = a) ∨ (Near l.dy l.dx b a ∧ (p.plotted.length : ℤ) = b)
  first : (p.plotted ++ [(p.x1, p.y1)]).head? = some (x1, y1)
  path : (p.plotted ++ [(p.x1, p.y1)]).IsChain (Toward (l.x2, l.y2))
  inside : ∀ q ∈ p.plotted ++ [(p.x1, p.y1)], Between x1 l.x2 q.1 ∧ Between y1 l.y2 q.2

section Loop

variable {l : Line} {x1 y1 x2 y2 a b : ℤ} {p q : Pen}

theorem int32_some {v : ℤ} (hlo : -2147483648 ≤ v) (hhi : v ≤ 2147483647) : int32 v = some v := if_pos ⟨hlo, hhi⟩

theorem stepX_some {e2 minusDy : ℤ} (herr : -2147483648 ≤ p.err-l.dy ∧ p.err-l.dy ≤ 2147483647)
    (hx : -2147483648 ≤ p.x1+l.sx ∧ p.x1+l.sx ≤ 2147483647) : stepX l e2 minusDy p =
      some (if e2 > minusDy then { p with err := p.err-l.dy, x1 := p.x1+l.sx } else p) := by
  unfold stepX
  rw [int32_some herr.1 herr.2, int32_some hx.1 hx.2]
  split
  · rfl
  · rfl

theorem stepY_some {e2 : ℤ} (herr : -2147483648 ≤ p.err+l.dx ∧ p.err+l.dx ≤ 2147483647)
    (hy : -2147483648 ≤ p.y1+l.sy ∧ p.y1+l.sy ≤ 2147483647) : stepY l e2 p =
      some (if e2 < l.dx then { p with err := p.err+l.dx, y1 := p.y1+l.sy } else p) := by
  unfold stepY
  rw [int32_some herr.1 herr.2, int32_some hy.1 hy.2]
  split
  · rfl
  · rfl

/-- The body without overflow. -/
def moved (l : Line) (p : Pen) : Pen where
  x1 := if 2*p.err > -l.dy then p.x1+l.sx else p.x1
  y1 := if 2*p.err < l.dx then p.y1+l.sy else p.y1
  err := (if 2*p.err > -l.dy then p.err-l.dy else p.err) + (if 2*p.err < l.dx then l.dx else 0)
  plotted := p.plotted

theorem advance_some (hp : Prepared l x1 y1) (herr : -1610612736 ≤ 2*p.err ∧ 2*p.err ≤ 1610612736)
    (hx : -268435456 ≤ p.x1 ∧ p.x1 ≤ 268435456) (hy : -268435456 ≤ p.y1 ∧ p.y1 ≤ 268435456) :
    advance l p = some (moved l p) := by
  have hsx := hp.unitX
  have hsy := hp.unitY
  have hdx := hp.sideX
  have hdy := hp.sideY
  have hstep : stepX l (2*p.err) (-l.dy) p = _ := stepX_some ⟨by omega, by omega⟩ ⟨by omega, by omega⟩
  unfold advance moved
  rw [int32_some (by omega) (by omega), int32_some (by omega) (by omega)]
  dsimp only [Option.bind_eq_bind, Option.bind_some]
  rw [hstep, Option.bind_some]
  by_cases hc : 2*p.err > -l.dy
  · rw [if_pos hc, if_pos hc, if_pos hc,
      stepY_some ⟨by dsimp only; omega, by dsimp only; omega⟩ ⟨by dsimp only; omega, by dsimp only; omega⟩]
    by_cases hd : 2*p.err < l.dx
    · simp [hd]
    · simp [hd]
  · rw [if_neg hc, if_neg hc, if_neg hc, stepY_some ⟨by omega, by omega⟩ ⟨by omega, by omega⟩]
    by_cases hd : 2*p.err < l.dx
    · simp [hd]
    · simp [hd]

theorem coordinate_between {s d v e c : ℤ} (hs : s = 1 ∨ s = -1) (he : e = v + s*d) (hc : 0 ≤ c ∧ c ≤ d) :
    Between v e (v + s*c) := by
  unfold Between
  rcases hs with rfl | rfl
  · omega
  · omega

/-- A coordinate that is not yet that of the end point is changed by one towards it. -/
theorem coordinate_toward {s d v e c : ℤ} (hs : s = 1 ∨ s = -1) (he : e = v + s*d) (hc : c < d) :
    (e - (v + s*c)).sign = s := by
  rcases hs with rfl | rfl
  · exact Int.sign_eq_one_of_pos (by omega)
  · exact Int.sign_eq_neg_one_of_neg (by omega)

theorem coordinate_end {s d v e c : ℤ} (hs : s = 1 ∨ s = -1) (he : e = v + s*d) (hc : v + s*c = e) : c = d := by
  rcases hs with rfl | rfl
  · omega
  · omega

theorem coordinate_distance {s d v e : ℤ} (hs : s = 1 ∨ s = -1) (he : e = v + s*d) (hd : 0 ≤ d) : |e-v| = d := by
  rcases hs with rfl | rfl
  · rw [show e-v = d by omega, abs_of_nonneg hd]
  · rw [show e-v = -d by omega, abs_neg, abs_of_nonneg hd]

theorem drawing_ranges (hd : Drawing l x1 y1 p a b) : (0 ≤ a ∧ a ≤ l.dx) ∧ 0 ≤ b ∧ b ≤ l.dy := by
  rcases hd.near with ⟨h, -⟩ | ⟨h, -⟩
  · exact ⟨h.along, h.across⟩
  · exact ⟨h.across, h.along⟩

theorem drawing_inside (hp : Prepared l x1 y1) (hd : Drawing l x1 y1 p a b) :
    Between x1 l.x2 p.x1 ∧ Between y1 l.y2 p.y1 := by
  obtain ⟨ha, hb⟩ := drawing_ranges hd
  rw [hd.x, hd.y]
  exact ⟨coordinate_between hp.unitX hp.endX ha, coordinate_between hp.unitY hp.endY hb⟩

theorem drawing_err (hp : Prepared l x1 y1) (hd : Drawing l x1 y1 p a b) :
    -1610612736 ≤ 2*p.err ∧ 2*p.err ≤ 1610612736 := by
  have hdx := hp.sideX
  have hdy := hp.sideY
  rw [hd.err]
  rcases hd.near with ⟨h, -⟩ | ⟨h, -⟩
  · have hbound := near_bound h
    omega
  · have hbound := near_bound h
    rw [errAt_swap] at hbound
    omega

/-- Before the end a round steps along the longer side, and the counts stay those of a line. -/
theorem near_steps (hp : Prepared l x1 y1) (hd : Drawing l x1 y1 p a b) (hend : ¬ (p.x1 = l.x2 ∧ p.y1 = l.y2)) :
    let a' := if 2*p.err > -l.dy then a+1 else a
    let b' := if 2*p.err < l.dx then b+1 else b
    (a' = a+1 ∧ Near l.dx l.dy a' b' ∧ (p.plotted.length : ℤ) = a) ∨
      (b' = b+1 ∧ Near l.dy l.dx b' a' ∧ (p.plotted.length : ℤ) = b) := by
  intro a' b'
  have hx := hd.x
  have hy := hd.y
  have hendX := hp.endX
  have hendY := hp.endY
  rcases hd.near with ⟨h, hlen⟩ | ⟨h, hlen⟩
  · have hlt : a < l.dx := by
      refine lt_of_le_of_ne h.along.2 (fun he => hend ?_)
      rw [he] at h hx
      rw [near_end h] at hy
      exact ⟨hx.trans hendX.symm, hy.trans hendY.symm⟩
    have hstep : a' = a+1 := if_pos (by rw [hd.err]; exact near_along h hlt)
    have hnext := near_next h hlt
    rw [← hd.err] at hnext
    exact Or.inl ⟨hstep, hstep.symm ▸ hnext, hlen⟩
  · have hlt : b < l.dy := by
      refine lt_of_le_of_ne h.along.2 (fun he => hend ?_)
      rw [he] at h hy
      rw [near_end h] at hx
      exact ⟨hx.trans hendX.symm, hy.trans hendY.symm⟩
    have halong := near_along h hlt
    rw [errAt_swap, ← hd.err] at halong
    have hstep : b' = b+1 := if_pos (by omega)
    have hcond : (2*errAt l.dy l.dx b a < l.dy) = (2*p.err > -l.dy) := by
      rw [errAt_swap, ← hd.err]
      exact propext ⟨fun h => by omega, fun h => by omega⟩
    have hnext := near_next h hlt
    simp only [hcond] at hnext
    exact Or.inr ⟨hstep, hstep.symm ▸ hnext, hlen⟩

/-- The points with one more that is reached by a step. -/
theorem path_snoc {e v w : Point} {ps : List Point} (h : (ps ++ [v]).IsChain (Toward e)) (ht : Toward e v w) :
    (ps ++ [v] ++ [w]).IsChain (Toward e) := by
  refine List.IsChain.append h (List.isChain_singleton w) (fun x hx y hy => ?_)
  rw [List.getLast?_append_of_ne_nil _ (List.cons_ne_nil v [])] at hx
  obtain rfl := Option.mem_some_iff.mp hx
  obtain rfl := Option.mem_some_iff.mp hy
  exact ht

theorem moved_x (hd : Drawing l x1 y1 p a b) :
    (moved l p).x1 = x1 + l.sx*(if 2*p.err > -l.dy then a+1 else a) := by
  have hx := hd.x
  unfold moved
  dsimp only
  split
  · rw [hx]
    ring
  · exact hx

theorem moved_y (hd : Drawing l x1 y1 p a b) :
    (moved l p).y1 = y1 + l.sy*(if 2*p.err < l.dx then b+1 else b) := by
  have hy := hd.y
  unfold moved
  dsimp only
  split
  · rw [hy]
    ring
  · exact hy

theorem moved_err (hd : Drawing l x1 y1 p a b) : (moved l p).err =
    errAt l.dx l.dy (if 2*p.err > -l.dy then a+1 else a) (if 2*p.err < l.dx then b+1 else b) := by
  have herr := hd.err
  unfold moved
  dsimp only
  by_cases hx : 2*p.err > -l.dy
  · rw [if_pos hx, if_pos hx, errAt_along]
    by_cases hy : 2*p.err < l.dx
    · rw [if_pos hy, if_pos hy, errAt_across, herr]
      ring
    · rw [if_neg hy, if_neg hy, herr]
      ring
  · rw [if_neg hx, if_neg hx]
    by_cases hy : 2*p.err < l.dx
    · rw [if_pos hy, if_pos hy, errAt_across, herr]
    · rw [if_neg hy, if_neg hy, herr]
      ring

/-- The step of a round leads towards the end point. -/
theorem moved_toward (hp : Prepared l x1 y1) (hd : Drawing l x1 y1 p a b)
    (hend : ¬ (p.x1 = l.x2 ∧ p.y1 = l.y2)) :
    Toward (l.x2, l.y2) (p.x1, p.y1) ((moved l p).x1, (moved l p).y1) := by
  have hsteps := near_steps hp hd hend
  dsimp only at hsteps
  have hsx := hp.unitX
  have hsy := hp.unitY
  have hrange : (if 2*p.err > -l.dy then a+1 else a) ≤ l.dx ∧ (if 2*p.err < l.dx then b+1 else b) ≤ l.dy := by
    rcases hsteps with ⟨-, h, -⟩ | ⟨-, h, -⟩
    · exact ⟨h.along.2, h.across.2⟩
    · exact ⟨h.across.2, h.along.2⟩
  refine ⟨fun he => ?_, ?_, ?_⟩
  · have hmove : 2*p.err > -l.dy ∨ 2*p.err < l.dx := by
      rcases hsteps with ⟨h, -⟩ | ⟨h, -⟩
      · left
        by_contra hno
        rw [if_neg hno] at h
        omega
      · right
        by_contra hno
        rw [if_neg hno] at h
        omega
    obtain ⟨hx, hy⟩ := Prod.mk.inj he
    unfold moved at hx hy
    rcases hmove with h | h
    · dsimp only at hx
      rw [if_pos h] at hx
      omega
    · dsimp only at hy
      rw [if_pos h] at hy
      omega
  · by_cases h : 2*p.err > -l.dy
    · right
      rw [if_pos h] at hrange
      have hsign := coordinate_toward (c := a) hsx hp.endX (by omega)
      rw [← hd.x] at hsign
      rw [hsign]
      exact if_pos h
    · exact Or.inl (if_neg h)
  · by_cases h : 2*p.err < l.dx
    · right
      rw [if_pos h] at hrange
      have hsign := coordinate_toward (c := b) hsy hp.endY (by omega)
      rw [← hd.y] at hsign
      rw [hsign]
      exact if_pos h
    · exact Or.inl (if_neg h)

/-- The state in which the next round starts. -/
def plot (p : Pen) : Pen := { p with plotted := p.plotted ++ [(p.x1, p.y1)] }

theorem drawing_next (hp : Prepared l x1 y1) (hd : Drawing l x1 y1 p a b) (hend : ¬ (p.x1 = l.x2 ∧ p.y1 = l.y2)) :
    ∃ a' b', Drawing l x1 y1 (moved l (plot p)) a' b' := by
  have hsteps := near_steps hp hd hend
  dsimp only at hsteps
  have hlen : ((plot p).plotted.length : ℤ) = p.plotted.length + 1 := by
    unfold plot
    rw [List.length_append, List.length_singleton]
    push_cast
    rfl
  have hdrawn : ∀ q ∈ (plot p).plotted ++ [((moved l (plot p)).x1, (moved l (plot p)).y1)],
      q ∈ p.plotted ++ [(p.x1, p.y1)] ∨ q = ((moved l (plot p)).x1, (moved l (plot p)).y1) := by
    intro q hq
    exact (List.mem_append.mp hq).imp_right List.mem_singleton.mp
  have hnear : (Near l.dx l.dy (if 2*p.err > -l.dy then a+1 else a) (if 2*p.err < l.dx then b+1 else b) ∧
        ((plot p).plotted.length : ℤ) = if 2*p.err > -l.dy then a+1 else a) ∨
      (Near l.dy l.dx (if 2*p.err < l.dx then b+1 else b) (if 2*p.err > -l.dy then a+1 else a) ∧
        ((plot p).plotted.length : ℤ) = if 2*p.err < l.dx then b+1 else b) := by
    rcases hsteps with ⟨hstep, hnear, hn⟩ | ⟨hstep, hnear, hn⟩
    · exact Or.inl ⟨hnear, by rw [hstep, hlen, hn]⟩
    · exact Or.inr ⟨hnear, by rw [hstep, hlen, hn]⟩
  have hrange : (0 ≤ (if 2*p.err > -l.dy then a+1 else a) ∧ (if 2*p.err > -l.dy then a+1 else a) ≤ l.dx) ∧
      0 ≤ (if 2*p.err < l.dx then b+1 else b) ∧ (if 2*p.err < l.dx then b+1 else b) ≤ l.dy := by
    rcases hnear with ⟨h, -⟩ | ⟨h, -⟩
    · exact ⟨h.along, h.across⟩
    · exact ⟨h.across, h.along⟩
  have hx := moved_x hd
  have hy := moved_y hd
  have herr := moved_err hd
  refine ⟨_, _, hx, hy, herr, hnear, ?_, ?_, ?_⟩
  · change (p.plotted ++ [(p.x1, p.y1)] ++ [_]).head? = _
    rw [List.head?_append, hd.first]
    rfl
  · exact path_snoc hd.path (moved_toward hp hd hend)
  · intro q hq
    rcases hdrawn q hq with hold | rfl
    · exact hd.inside q hold
    · change Between x1 l.x2 (moved l p).x1 ∧ Between y1 l.y2 (moved l p).y1
      rw [hx, hy]
      exact ⟨coordinate_between hp.unitX hp.endX hrange.1, coordinate_between hp.unitY hp.endY hrange.2⟩

/-- A round that starts in a drawing's state ends with the line, or leads to a state closer to the end. -/
theorem draw_round (hp : Prepared l x1 y1) (hd : Drawing l x1 y1 p a b) :
    (drawRound l p = .done (some (p.plotted ++ [(p.x1, p.y1)])) ∧
        Drawn x1 y1 l.x2 l.y2 (p.plotted ++ [(p.x1, p.y1)])) ∨
      (drawRound l p = .next (moved l (plot p)) ∧ (∃ a' b', Drawing l x1 y1 (moved l (plot p)) a' b') ∧
        (p.plotted.length : ℤ) < max l.dx l.dy) := by
  have hsideX := hp.sideX
  have hsideY := hp.sideY
  by_cases hend : p.x1 = l.x2 ∧ p.y1 = l.y2
  · have hround : drawRound l p = .done (some (p.plotted ++ [(p.x1, p.y1)])) := if_pos hend
    refine Or.inl ⟨hround, ?_, hd.first, ?_, hd.path, hd.inside⟩
    · have hax : a = l.dx := coordinate_end hp.unitX hp.endX (hd.x.symm.trans hend.1)
      have hby : b = l.dy := coordinate_end hp.unitY hp.endY (hd.y.symm.trans hend.2)
      rw [coordinate_distance hp.unitX hp.endX hsideX.1, coordinate_distance hp.unitY hp.endY hsideY.1,
        List.length_append, List.length_singleton]
      push_cast
      rcases hd.near with ⟨h, hlen⟩ | ⟨h, hlen⟩
      · have hside := h.sides
        omega
      · have hside := h.sides
        omega
    · rw [List.getLast?_append_of_ne_nil _ (List.cons_ne_nil _ _), hend.1, hend.2]
      rfl
  · obtain ⟨hinX, hinY⟩ := drawing_inside hp hd
    have hsmallX := hp.smallX
    have hsmallY := hp.smallY
    unfold Between at hinX hinY
    have hadvance : advance l (plot p) = some (moved l (plot p)) :=
      advance_some (p := plot p) hp (show -1610612736 ≤ 2*p.err ∧ 2*p.err ≤ 1610612736 from drawing_err hp hd) (show -268435456 ≤ p.x1 ∧ p.x1 ≤ 268435456 by omega)
        (show -268435456 ≤ p.y1 ∧ p.y1 ≤ 268435456 by omega)
    have hround : drawRound l p = .next (moved l (plot p)) := by
      change (if p.x1 = l.x2 ∧ p.y1 = l.y2 then _ else match advance l (plot p) with
        | none => .done none
        | some q => .next q) = Round.next (moved l (plot p))
      rw [if_neg hend, hadvance]
    refine Or.inr ⟨hround, drawing_next hp hd hend, ?_⟩
    have hsteps := near_steps hp hd hend
    dsimp only at hsteps
    rcases hsteps with ⟨hstep, h, hlen⟩ | ⟨hstep, h, hlen⟩
    · have hlong := h.along
      omega
    · have hlong := h.along
      omega

/-- The distance and the direction that are computed for a coordinate. -/
theorem coordinate_prepared {v e : ℤ} (hv : |v| ≤ 268435456) (he : |e| ≤ 268435456) :
    e = v + (if v < e then 1 else -1)*(if e > v then e-v else v-e) ∧
      ((if v < e then 1 else -1 : ℤ) = 1 ∨ (if v < e then 1 else -1 : ℤ) = -1) ∧
      (0 ≤ (if e > v then e-v else v-e) ∧ (if e > v then e-v else v-e) ≤ 536870912) ∧
      -268435456 ≤ v ∧ v ≤ 268435456 ∧ -268435456 ≤ e ∧ e ≤ 268435456 := by
  rw [abs_le] at hv he
  by_cases h : v < e
  · rw [if_pos h, if_pos h]
    omega
  · rw [if_neg h, if_neg h]
    omega

theorem prepare_some (hx1 : |x1| ≤ 268435456) (hy1 : |y1| ≤ 268435456) (hx2 : |x2| ≤ 268435456)
    (hy2 : |y2| ≤ 268435456) : ∃ l, l.x2 = x2 ∧ l.y2 = y2 ∧ Prepared l x1 y1 ∧
      prepare x1 y1 x2 y2 = some (l, ⟨x1, y1, l.dx-l.dy, []⟩) := by
  obtain ⟨hendX, hunitX, hsideX, hsmallX⟩ := coordinate_prepared hx1 hx2
  obtain ⟨hendY, hunitY, hsideY, hsmallY⟩ := coordinate_prepared hy1 hy2
  refine ⟨⟨x2, y2, if x2 > x1 then x2-x1 else x1-x2, if y2 > y1 then y2-y1 else y1-y2, if x1 < x2 then 1 else -1,
    if y1 < y2 then 1 else -1⟩, rfl, rfl,
    ⟨hendX, hendY, hunitX, hunitY, hsideX, hsideY, hsmallX, hsmallY⟩, ?_⟩
  unfold prepare
  rw [int32_some (by omega) (by omega), int32_some (by omega) (by omega)]
  dsimp only [Option.bind_eq_bind, Option.bind_some]
  rw [int32_some (by omega) (by omega)]
  rfl

/-- The loop draws a line of as many steps as the longer side has and then stops, with no overflow on the way. -/
theorem line_drawn (x1 y1 x2 y2 : ℤ) (hx1 : |x1| ≤ 268435456) (hy1 : |y1| ≤ 268435456) (hx2 : |x2| ≤ 268435456)
    (hy2 : |y2| ≤ 268435456) :
    ∃ rounds ps, vesaDrawLine rounds x1 y1 x2 y2 = some (some ps) ∧ Drawn x1 y1 x2 y2 ps := by
  obtain ⟨l, hl2x, hl2y, hp, hprepare⟩ := prepare_some hx1 hy1 hx2 hy2
  have hstart : ∃ a b, Drawing l x1 y1 ⟨x1, y1, l.dx-l.dy, []⟩ a b := by
    have hsideX := hp.sideX
    have hsideY := hp.sideY
    refine ⟨0, 0, by simp, by simp, by simp [errAt], ?_, rfl, List.isChain_singleton _, ?_⟩
    · rcases le_total l.dy l.dx with h | h
      · exact Or.inl ⟨near_start hsideY.1 h, rfl⟩
      · exact Or.inr ⟨near_start hsideX.1 h, rfl⟩
    · intro q hq
      rw [List.mem_singleton.mp hq]
      unfold Between
      dsimp only
      omega
  obtain ⟨r, ⟨rounds, hrun⟩, ps, rfl, hdrawn⟩ := @ends_of_variant _ _ (drawRound l) _
    (fun p => ∃ a b, Drawing l x1 y1 p a b) (fun r => ∃ ps, r = some ps ∧ Drawn x1 y1 l.x2 l.y2 ps)
    (fun p => (max l.dx l.dy).toNat - p.plotted.length)
    (fun p q ⟨a, b, hd⟩ hnext => by
      rcases draw_round hp hd with ⟨hdone, -⟩ | ⟨hmoved, hdraw, hlt⟩
      · rw [hdone] at hnext
        cases hnext
      · rw [hmoved] at hnext
        cases hnext
        have hlen : (moved l (plot p)).plotted.length = p.plotted.length + 1 := List.length_append
        exact ⟨hdraw, by omega⟩)
    (fun p r ⟨a, b, hd⟩ hr => by
      rcases draw_round hp hd with ⟨hdone, hdrawn⟩ | ⟨hmoved, -⟩
      · rw [hdone] at hr
        cases hr
        exact ⟨_, rfl, hdrawn⟩
      · rw [hmoved] at hr
        cases hr)
    hstart
  rw [hl2x, hl2y] at hdrawn
  refine ⟨rounds, ps, ?_, hdrawn⟩
  unfold vesaDrawLine
  rw [hprepare]
  exact hrun

/-- A line that is steeper than a diagonal, to the left and downwards. -/
theorem line_drawn_sample : ∃ rounds ps, vesaDrawLine rounds 2 0 0 5 = some (some ps) ∧ Drawn 2 0 0 5 ps :=
  line_drawn 2 0 0 5 (by decide) (by decide) (by decide) (by decide)

end Loop

end Dionnex.VesaLines
