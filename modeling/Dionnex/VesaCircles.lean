import Dionnex.WhileLoops

/-!
# Circles on the canvas

`vesa_draw_circle` follows an octant from its top to the diagonal, one column
a round, and mirrors each point into the other seven. Its decision variable
is brought up to date with the column that comes next instead of the one that
was just plotted, so it grows too fast, and the third step down comes one
column too early whatever the radius. Only the four smallest circles are right.
-/

set_option autoImplicit false

namespace Dionnex.VesaCircles
open WhileLoops

abbrev Point := ℤ × ℤ

/-- The variables of the loop, and for the record the points of the octant. -/
structure Octant where
  x : ℤ
  y : ℤ
  d : ℤ
  points : List Point
  deriving DecidableEq, Repr

/-- The end of the body, from `x++` on. -/
def advance (o : Octant) : Octant :=
  let x := o.x+1
  if o.d > 0 then
    let y := o.y-1
    { o with x := x, y := y, d := o.d + 4*(x-y) + 10 }
  else { o with x := x, d := o.d + 4*x + 6 }

def plot (o : Octant) : Octant := { o with points := o.points ++ [(o.x, o.y)] }

def drawRound (o : Octant) : Round Octant (List Point) :=
  if o.y ≥ o.x then .next (advance (plot o)) else .done o.points

def start (r : ℤ) : Octant := ⟨0, r, 3-2*r, []⟩

/-- The calls of `vesa_putpixel` for a point of the octant. -/
def mirrored (xc yc : ℤ) (p : Point) : List Point :=
  [(xc+p.1, yc+p.2), (xc-p.1, yc+p.2), (xc+p.1, yc-p.2), (xc-p.1, yc-p.2),
    (xc+p.2, yc+p.1), (xc-p.2, yc+p.1), (xc+p.2, yc-p.1), (xc-p.2, yc-p.1)]

/-- The points that are plotted, in order. -/
def vesaDrawCircle (rounds : ℕ) (xc yc r : ℤ) : Option (List Point) :=
  (run drawRound rounds (start r)).map (fun ps => ps.flatMap (mirrored xc yc))

/-- How far a point is from the circle, in terms of its equation. -/
def deviation (r : ℤ) (p : Point) : ℤ := |p.1*p.1 + p.2*p.2 - r*r|

/-- No neighbour in the column is closer to the circle. -/
def Nearest (r : ℤ) (p : Point) : Prop :=
  deviation r p ≤ deviation r (p.1, p.2-1) ∧ deviation r p ≤ deviation r (p.1, p.2+1)

instance (r : ℤ) (p : Point) : Decidable (Nearest r p) := inferInstanceAs (Decidable (_ ∧ _))

/-- The loop ends, and each point of the octant is the nearest one in its column. -/
def Accurate (r : ℤ) : Prop := ∃ ps, Ends drawRound (start r) ps ∧ ∀ p ∈ ps, Nearest r p

section Rounds

variable {o : Octant} {ps : List Point} {r : ℤ} {n : ℕ}

theorem round_next (h : o.x ≤ o.y) : drawRound o = .next (advance (plot o)) := if_pos h

theorem round_done (h : ¬ o.x ≤ o.y) : drawRound o = .done o.points := if_neg h

theorem advance_x : (advance o).x = o.x+1 := by
  unfold advance
  dsimp only
  split
  · rfl
  · rfl

theorem advance_y : (advance o).y = if o.d > 0 then o.y-1 else o.y := by
  unfold advance
  dsimp only
  split
  · rfl
  · rfl

theorem advance_d : (advance o).d =
    if o.d > 0 then o.d + 4*(o.x+1 - (o.y-1)) + 10 else o.d + 4*(o.x+1) + 6 := by
  unfold advance
  dsimp only
  split
  · rfl
  · rfl

theorem advance_points : (advance o).points = o.points := by
  unfold advance
  dsimp only
  split
  · rfl
  · rfl

/-- The loop ends for every radius, since the octant gets narrower. -/
theorem circle_ends (r : ℤ) : ∃ ps, Ends drawRound (start r) ps := by
  obtain ⟨ps, hps, -⟩ := @ends_of_variant _ _ drawRound (start r) (fun _ => True) (fun _ => True)
    (fun o => (o.y-o.x+1).toNat)
    (fun o t _ hnext => by
      by_cases h : o.x ≤ o.y
      · rw [round_next h] at hnext
        cases hnext
        have hx : (advance (plot o)).x = o.x+1 := advance_x
        have hy : (advance (plot o)).y = if o.d > 0 then o.y-1 else o.y := advance_y
        refine ⟨trivial, ?_⟩
        rw [hx, hy]
        split
        · omega
        · omega
      · rw [round_done h] at hnext
        cases hnext)
    (fun _ _ _ _ => trivial) trivial
  exact ⟨ps, hps⟩

/-- What has been plotted stays plotted. -/
theorem ends_points (h : Ends drawRound o ps) : ∀ p ∈ o.points, p ∈ ps := by
  obtain ⟨n, hn⟩ := h
  induction n generalizing o with
  | zero => cases hn
  | succ n ih =>
    intro p hp
    by_cases hle : o.x ≤ o.y
    · rw [run_next (round_next hle)] at hn
      refine ih hn p ?_
      rw [advance_points]
      exact List.mem_append_left _ hp
    · rw [run_done (round_done hle)] at hn
      exact Option.some.inj hn ▸ hp

/-- The variables after `n` columns. -/
def column (r : ℤ) : ℕ → Octant
  | 0 => start r
  | n+1 => advance (plot (column r n))

theorem column_x : (column r n).x = n := by
  induction n with
  | zero => rfl
  | succ n ih =>
    have hx : (column r (n+1)).x = (column r n).x + 1 := advance_x
    rw [hx, ih]
    push_cast
    rfl

theorem column_y : (column r (n+1)).y = if (column r n).d > 0 then (column r n).y - 1 else (column r n).y := advance_y

/-- The row falls by at most one a column. -/
theorem column_falls {m : ℕ} (h : m ≤ n) : (column r n).y ≤ (column r m).y ∧ (column r m).y ≤ (column r n).y + (n-m) := by
  induction n, h using Nat.le_induction with
  | base => omega
  | succ n hmn ih =>
    have hy := @column_y r n
    push_cast
    split at hy
    · omega
    · omega

/-- A column above the diagonal is plotted. -/
theorem column_plotted (h : Ends drawRound (start r) ps) (hn : (n : ℤ) ≤ (column r n).y) : ((n : ℤ), (column r n).y) ∈ ps := by
  have hreach : ∀ m ≤ n, Ends drawRound (column r m) ps := by
    intro m
    induction m with
    | zero => exact fun _ => h
    | succ m ih =>
      intro hm
      have hle : (column r m).x ≤ (column r m).y := by
        have hfall := @column_falls r n m (by omega)
        rw [column_x]
        omega
      exact (ends_next (round_next hle)).mp (ih (by omega))
  have hle : (column r n).x ≤ (column r n).y := by
    rw [column_x]
    exact hn
  have hnext := (ends_next (round_next hle)).mp (hreach n le_rfl)
  refine ends_points hnext _ ?_
  rw [advance_points, ← column_x]
  exact List.mem_append_right _ List.mem_cons_self

end Rounds

/-! ## The decision variable -/

section Decision

variable {r : ℤ} {n : ℕ}

/-- The decision variable at column `x` after `j` rows. -/
def decision (r x j : ℤ) : ℤ := 2*(x*x) + 8*x + 2*(j*j) + 6*j + 3 - (4*(j*r) + 2*r)

theorem column_next : (column r (n+1)).d = if (column r n).d > 0 then
    (column r n).d + 4*((n : ℤ)+1 - ((column r n).y - 1)) + 10 else (column r n).d + 4*((n : ℤ)+1) + 6 := by
  rw [← @column_x r n]
  exact advance_d

theorem column_d : (column r n).d = decision r n (r - (column r n).y) := by
  induction n with
  | zero =>
    change 3-2*r = decision r 0 (r-r)
    unfold decision
    ring
  | succ n ih =>
    rw [column_next, column_y]
    push_cast
    split
    · rw [ih]
      unfold decision
      ring
    · rw [ih]
      unfold decision
      ring

/-- As long as the row stays away from the diagonal the decision variable is at most its last increment. -/
theorem column_bound (hr : 0 ≤ r) (h : (n : ℤ)+2 ≤ (column r n).y) : (column r n).d ≤ 4*n + 6 := by
  induction n with
  | zero =>
    change 3-2*r ≤ _
    push_cast
    omega
  | succ n ih =>
    have hy := @column_y r n
    have hd := @column_next r n
    push_cast at h ⊢
    have hfall := @column_falls r (n+1) n (by omega)
    have hlast := ih (by omega)
    split at hy
    · rename_i hpos
      rw [if_pos hpos] at hd
      omega
    · rename_i hpos
      rw [if_neg hpos] at hd
      omega

/-- In the last columns above the diagonal it is positive after at most two rows. -/
theorem decision_pos {x j : ℤ} (hr : 12 ≤ r) (hx : r-6 ≤ x) (hj : 0 ≤ j ∧ j ≤ 2) : 0 < decision r x j := by
  have hxx : (r-6)*(r-6) ≤ x*x := mul_le_mul hx hx (by omega) (by omega)
  have hrr : 0 ≤ (r-12)*(r-1) := mul_nonneg (by omega) (by omega)
  have hprod : (r-12)*(r-1) = r*r - 13*r + 12 := by ring
  have hsq : (r-6)*(r-6) = r*r - 12*r + 36 := by ring
  obtain rfl | rfl | rfl : j = 0 ∨ j = 1 ∨ j = 2 := by omega
  · unfold decision
    omega
  · unfold decision
    omega
  · unfold decision
    omega

/-- Before the diagonal three rows have been left. -/
theorem three_rows (hr : 12 ≤ r) (hn : (n : ℤ) = r-3) : (column r n).y ≤ r-3 := by
  by_contra hgt
  obtain ⟨m, rfl⟩ : ∃ m, n = m+3 := ⟨n-3, by omega⟩
  push_cast at hn
  have hfall : ∀ i ≤ m+3, r-2 ≤ (column r i).y ∧ (column r i).y ≤ r := by
    intro i hi
    have htop := @column_falls r i 0 (Nat.zero_le i)
    have hlow := @column_falls r (m+3) i hi
    change _ ≤ r ∧ _ at htop
    omega
  have hstep : ∀ i, m ≤ i → i < m+3 → (column r (i+1)).y = (column r i).y - 1 := by
    intro i hlo hhi
    have hrow := hfall i (by omega)
    have hpos : (column r i).d > 0 := by
      rw [column_d]
      exact decision_pos hr (by omega) (by omega)
    rw [column_y, if_pos hpos]
  have h0 := hstep m (by omega) (by omega)
  have h1 : (column r (m+2)).y = (column r (m+1)).y - 1 := hstep (m+1) (by omega) (by omega)
  have h2 : (column r (m+3)).y = (column r (m+2)).y - 1 := hstep (m+2) (by omega) (by omega)
  have hlast := hfall (m+3) le_rfl
  have hfirst := hfall m (by omega)
  omega

/-- The column that is reached by the third step down. -/
theorem third_step (hr : 12 ≤ r) : ∃ n : ℕ, (n : ℤ)+4 ≤ r ∧ (column r n).y = r-2 ∧ 0 < (column r n).d ∧
    (column r (n+1)).y = r-3 := by
  classical
  have hex : ∃ n : ℕ, (column r n).y ≤ r-3 := ⟨(r-3).toNat, three_rows hr (by omega)⟩
  have hle : Nat.find hex ≤ (r-3).toNat := Nat.find_min' hex (three_rows hr (by omega))
  have hfound := Nat.find_spec hex
  obtain ⟨n, hn⟩ : ∃ n, Nat.find hex = n+1 := by
    refine Nat.exists_eq_succ_of_ne_zero (fun h0 => ?_)
    rw [h0] at hfound
    change r ≤ r-3 at hfound
    omega
  rw [hn] at hle hfound
  have hbefore := Nat.find_min hex (show n < Nat.find hex by omega)
  have hy := @column_y r n
  split at hy
  · rename_i hpos
    exact ⟨n, by omega, by omega, hpos, by omega⟩
  · omega

/-- The row above is closer to the circle there. -/
theorem third_step_early {x : ℤ} (hr : 12 ≤ r) (hx : x*x ≤ 5*r-7) : ¬ Nearest r (x, r-3) := by
  rintro ⟨-, h⟩
  unfold deviation at h
  dsimp only at h
  have h3 : x*x + (r-3)*(r-3) - r*r = x*x - 6*r + 9 := by ring
  have h2 : x*x + (r-3+1)*(r-3+1) - r*r = x*x - 4*r + 4 := by ring
  have hneg : x*x - 6*r + 9 < 0 := by omega
  rw [h3, h2, abs_of_neg hneg] at h
  rcases le_total 0 (x*x - 4*r + 4) with hs | hs
  · rw [abs_of_nonneg hs] at h
    omega
  · rw [abs_of_nonpos hs] at h
    omega

theorem large_inaccurate (hr : 12 ≤ r) : ¬ Accurate r := by
  rintro ⟨ps, hps, hall⟩
  obtain ⟨n, hn, hy, hpos, hnext⟩ := third_step hr
  have hbound := @column_bound r n (by omega) (by omega)
  rw [column_d, hy] at hbound
  unfold decision at hbound
  have hplotted := @column_plotted ps r (n+1) hps (by push_cast; omega)
  rw [hnext] at hplotted
  push_cast at hplotted
  refine third_step_early (x := (n : ℤ)+1) hr ?_ (hall _ hplotted)
  have hsq : ((n : ℤ)+1)*((n : ℤ)+1) = (n : ℤ)*n + 2*n + 1 := by ring
  rw [hsq]
  omega

/-- Below that each radius has a column of its own that is wrong. -/
def wrongColumn (r : ℤ) : ℕ := if r ≤ 6 then 2 else if r ≤ 8 then 4 else if r = 9 then 6 else 3

theorem small_inaccurate (hlo : 5 ≤ r) (hhi : r < 12) : ¬ Accurate r := by
  rintro ⟨ps, hps, hall⟩
  have hwrong : (wrongColumn r : ℤ) ≤ (column r (wrongColumn r)).y ∧
      ¬ Nearest r ((wrongColumn r : ℤ), (column r (wrongColumn r)).y) := by
    interval_cases r <;> decide
  exact hwrong.2 (hall _ (column_plotted hps hwrong.1))

theorem smallest_accurate (hlo : 1 ≤ r) (hhi : r ≤ 4) : Accurate r := by
  have hrun : ∃ ps, run drawRound 6 (start r) = some ps ∧ ∀ p ∈ ps, Nearest r p := by
    interval_cases r
    · exact ⟨_, rfl, by decide⟩
    · exact ⟨_, rfl, by decide⟩
    · exact ⟨_, rfl, by decide⟩
    · exact ⟨_, rfl, by decide⟩
  obtain ⟨ps, hps, hall⟩ := hrun
  exact ⟨ps, ⟨6, hps⟩, hall⟩

/-- A circle is drawn accurately exactly if its radius is at most 4. -/
theorem circle_accurate_iff (r : ℤ) (hr : 1 ≤ r) : Accurate r ↔ r ≤ 4 := by
  constructor
  · intro h
    by_contra hgt
    rcases lt_or_ge r 12 with hlt | hge
    · exact small_inaccurate (by omega) hlt h
    · exact large_inaccurate hge h
  · exact smallest_accurate hr

theorem circle_accurate_iff_sample : Accurate 4 ↔ (4 : ℤ) ≤ 4 := circle_accurate_iff 4 (by decide)

/-- The circle of radius 5 goes through (2, 4), although (2, 5) is closer. -/
theorem circle_wrong : ¬ ∀ r : ℤ, 1 ≤ r → Accurate r := by
  intro hclaim
  obtain ⟨ps, hps, hall⟩ := hclaim 5 (by decide)
  exact absurd (hall _ (@column_plotted ps 5 2 hps (by decide))) (by decide)

end Decision

end Dionnex.VesaCircles
