import Mathlib.Tactic

/-!
# The Gregorian calendar, day by day

A date and the date of the next day, with the leap-year rule. Counting years
from March makes the leap day the last one of its year; then the number of a
day is a closed formula, and it grows by one from each day to the next. So
the days from the first of January of any year on are counted by it, and
every later date is reached once.
-/

set_option autoImplicit false

namespace GregorianCalendar

structure Date where
  year : ℕ
  month : ℕ
  day : ℕ
  deriving DecidableEq, Repr

def IsLeap (y : ℕ) : Prop := y % 4 = 0 ∧ (y % 100 ≠ 0 ∨ y % 400 = 0)

instance (y : ℕ) : Decidable (IsLeap y) := inferInstanceAs (Decidable (_ ∧ _))

def monthLength (y m : ℕ) : ℕ :=
  if m = 2 then if IsLeap y then 29 else 28
  else if m = 4 ∨ m = 6 ∨ m = 9 ∨ m = 11 then 30
  else 31

structure Valid (d : Date) : Prop where
  month : 1 ≤ d.month ∧ d.month ≤ 12
  day : 1 ≤ d.day ∧ d.day ≤ monthLength d.year d.month

def tomorrow (d : Date) : Date :=
  if d.day < monthLength d.year d.month then { d with day := d.day+1 }
  else if d.month < 12 then ⟨d.year, d.month+1, 1⟩
  else ⟨d.year+1, 1, 1⟩

/-- The first day of the year. -/
def newYear (y : ℕ) : Date := ⟨y, 1, 1⟩

/-- The days before the first of March of the year. -/
def daysBeforeMarch (y : ℕ) : ℕ := 365*y + y/4 - y/100 + y/400

/-- The days from the first of March to the first of a month, where January and February are months 13 and 14. -/
def daysFromMarch (m : ℕ) : ℕ := (153*(m-3)+2)/5

/-- The number of the day. -/
def dayNumber (d : Date) : ℕ :=
  if d.month ≤ 2 then daysBeforeMarch (d.year-1) + daysFromMarch (d.month+12) + d.day
  else daysBeforeMarch d.year + daysFromMarch d.month + d.day

section Days

variable {d : Date} {y m n k : ℕ}

theorem monthLength_pos (y m : ℕ) : 28 ≤ monthLength y m := by
  unfold monthLength
  split
  · split
    · decide
    · decide
  · split
    · decide
    · decide

theorem newYear_valid (y : ℕ) : Valid (newYear y) :=
  ⟨⟨le_rfl, (by decide : 1 ≤ 12)⟩, le_rfl, le_trans (by decide : 1 ≤ 28) (monthLength_pos y 1)⟩

theorem tomorrow_valid (h : Valid d) : Valid (tomorrow d) := by
  have hm := h.month
  have hd := h.day
  unfold tomorrow
  split
  · exact ⟨hm, Nat.le_add_left 1 d.day, by assumption⟩
  · split
    · exact ⟨⟨by dsimp only; omega, by dsimp only; omega⟩, le_rfl,
        le_trans (by decide : 1 ≤ 28) (monthLength_pos _ _)⟩
    · exact newYear_valid (d.year+1)

theorem div_next (y k : ℕ) : (y+1)/k = y/k + if (y+1) % k = 0 then 1 else 0 := by
  rw [Nat.succ_div]
  simp only [Nat.dvd_iff_mod_eq_zero]

/-- A year from March to February ends with the leap day, if it has one. -/
theorem daysBeforeMarch_next (y : ℕ) : daysBeforeMarch (y+1) = daysBeforeMarch y + 337 + monthLength (y+1) 2 := by
  have hle : y/100 ≤ y/4 := Nat.div_le_div_left (by decide) (by decide)
  have h100 : (y+1) % 100 = 0 → (y+1) % 4 = 0 := by omega
  have h400 : (y+1) % 400 = 0 → (y+1) % 100 = 0 := by omega
  unfold daysBeforeMarch monthLength
  rw [if_pos rfl, div_next y 4, div_next y 100, div_next y 400]
  generalize y/4 = a at *
  generalize y/100 = b at *
  generalize y/400 = c at *
  by_cases c4 : (y+1) % 4 = 0
  · by_cases c100 : (y+1) % 100 = 0
    · by_cases c400 : (y+1) % 400 = 0
      · have hleap : IsLeap (y+1) := ⟨c4, Or.inr c400⟩
        rw [if_pos c4, if_pos c100, if_pos c400, if_pos hleap]
        omega
      · have hleap : ¬ IsLeap (y+1) := fun h => h.2.elim (fun h => h c100) c400
        rw [if_pos c4, if_pos c100, if_neg c400, if_neg hleap]
        omega
    · have hleap : IsLeap (y+1) := ⟨c4, Or.inl c100⟩
      rw [if_pos c4, if_neg c100, if_neg (fun h => c100 (h400 h)), if_pos hleap]
      omega
  · have hleap : ¬ IsLeap (y+1) := fun h => c4 h.1
    rw [if_neg c4, if_neg (fun h => c4 (h100 h)), if_neg (fun h => c4 (h100 (h400 h))), if_neg hleap]
    omega

/-- Every 400 years have the same number of days. -/
theorem daysBeforeMarch_era (y : ℕ) :
    daysBeforeMarch y = y/400*146097 + (y % 400 * 365 + y % 400 / 4 - y % 400 / 100) := by
  have hquarters : y/4 = 100*(y/400) + y % 400 / 4 := by omega
  have hcenturies : y/100 = 4*(y/400) + y % 400 / 100 := by omega
  have hyears : y = 400*(y/400) + y % 400 := (Nat.div_add_mod y 400).symm
  unfold daysBeforeMarch
  rw [hquarters, hcenturies]
  omega

/-- The other months are as long as the formula says. -/
theorem daysFromMarch_next (hm : 1 ≤ m ∧ m ≤ 12) (h2 : m ≠ 2) :
    daysFromMarch ((if m ≤ 2 then m+12 else m)+1) = daysFromMarch (if m ≤ 2 then m+12 else m) + monthLength y m := by
  obtain ⟨hlo, hhi⟩ := hm
  unfold monthLength
  rw [if_neg h2]
  interval_cases m
  · decide
  · exact (h2 rfl).elim
  all_goals decide

theorem dayNumber_tomorrow (h : Valid d) (hy : 1 ≤ d.year) : dayNumber (tomorrow d) = dayNumber d + 1 := by
  obtain ⟨y, m, day⟩ := d
  obtain ⟨⟨hm1, hm12⟩, hday1, hday⟩ := h
  dsimp only at hm1 hm12 hday1 hday hy
  unfold tomorrow
  dsimp only
  by_cases hin : day < monthLength y m
  · rw [if_pos hin]
    unfold dayNumber
    dsimp only
    split
    · omega
    · omega
  rw [if_neg hin]
  have hlast : day = monthLength y m := by omega
  by_cases h2 : m = 2
  · -- from February to March the year of the count changes
    subst h2
    obtain ⟨z, rfl⟩ := Nat.exists_eq_add_of_le' hy
    have hyear := daysBeforeMarch_next z
    have hmonths : daysFromMarch 14 = 337 := by decide
    have hmarch : daysFromMarch 3 = 0 := by decide
    rw [if_pos (by decide)]
    unfold dayNumber
    dsimp only
    rw [if_neg (by decide), if_pos le_rfl, Nat.add_sub_cancel, hyear, hmonths, hmarch, hlast]
  have hnext := @daysFromMarch_next y m ⟨hm1, hm12⟩ h2
  by_cases h12 : m < 12
  · rw [if_pos h12]
    unfold dayNumber
    dsimp only
    by_cases h1 : m ≤ 2
    · rw [if_pos (by omega), if_pos h1, hlast]
      rw [if_pos h1, show m+12+1 = m+1+12 by omega] at hnext
      omega
    · rw [if_neg (by omega), if_neg h1, hlast]
      rw [if_neg h1] at hnext
      omega
  · obtain rfl : m = 12 := by omega
    rw [if_neg h12]
    unfold dayNumber
    dsimp only
    rw [if_pos (by decide), if_neg (by decide), Nat.add_sub_cancel, hlast]
    rw [if_neg (by decide)] at hnext
    change daysFromMarch 13 = _ at hnext
    change daysBeforeMarch y + daysFromMarch 13 + 1 = _
    omega

theorem days_valid (h : Valid d) (n : ℕ) : Valid (tomorrow^[n] d) := by
  induction n with
  | zero => exact h
  | succ n ih =>
    rw [Function.iterate_succ_apply']
    exact tomorrow_valid ih

theorem tomorrow_year : d.year ≤ (tomorrow d).year := by
  unfold tomorrow
  split
  · exact le_rfl
  · split
    · exact le_rfl
    · exact Nat.le_succ _

theorem days_year (d : Date) (n : ℕ) : d.year ≤ (tomorrow^[n] d).year := by
  induction n with
  | zero => exact le_rfl
  | succ n ih =>
    rw [Function.iterate_succ_apply']
    exact ih.trans tomorrow_year

/-- Counting the days adds up to the difference of their numbers. -/
theorem days_number (h : Valid d) (hy : 1 ≤ d.year) (n : ℕ) : dayNumber (tomorrow^[n] d) = dayNumber d + n := by
  induction n with
  | zero => rfl
  | succ n ih =>
    rw [Function.iterate_succ_apply', dayNumber_tomorrow (days_valid h n) (hy.trans (days_year d n)), ih, Nat.add_assoc]

/-- A date is reached after one number of days at most. -/
theorem days_unique (h : Valid d) (hy : 1 ≤ d.year) (he : tomorrow^[n] d = tomorrow^[k] d) : n = k := by
  have hn := days_number h hy n
  rw [he, days_number h hy k] at hn
  omega

def Reached (e d : Date) : Prop := ∃ n, tomorrow^[n] e = d

theorem reached_tomorrow {e : Date} (h : Reached e d) : Reached e (tomorrow d) := by
  obtain ⟨n, rfl⟩ := h
  exact ⟨n+1, Function.iterate_succ_apply' _ _ _⟩

theorem reached_day {e : Date} {day : ℕ} (h : Reached e ⟨y, m, 1⟩) (hday : day < monthLength y m) :
    Reached e ⟨y, m, day+1⟩ := by
  induction day with
  | zero => exact h
  | succ day ih =>
    have hprev := reached_tomorrow (ih (by omega))
    unfold tomorrow at hprev
    rwa [if_pos hday] at hprev

theorem reached_next_month {e : Date} (h : Reached e ⟨y, m, 1⟩) (hm : m < 12) : Reached e ⟨y, m+1, 1⟩ := by
  have hlen := monthLength_pos y m
  have hlast := reached_tomorrow (reached_day h (show monthLength y m - 1 < monthLength y m by omega))
  unfold tomorrow at hlast
  dsimp only at hlast
  rwa [if_neg (by omega), if_pos hm] at hlast

theorem reached_month {e : Date} (h : Reached e (newYear y)) (hm : m < 12) : Reached e ⟨y, m+1, 1⟩ := by
  induction m with
  | zero => exact h
  | succ m ih => exact reached_next_month (ih (by omega)) hm

theorem reached_next_year {e : Date} (h : Reached e (newYear y)) : Reached e (newYear (y+1)) := by
  have hlen := monthLength_pos y 12
  have hdec : Reached e ⟨y, 12, 1⟩ := reached_month h (show 11 < 12 by decide)
  have hlast := reached_tomorrow (reached_day hdec (show monthLength y 12 - 1 < monthLength y 12 by omega))
  unfold tomorrow at hlast
  dsimp only at hlast
  rwa [if_neg (by omega), if_neg (by decide)] at hlast

/-- Every date from a new year on is reached. -/
theorem reached_date (h : Valid d) (hy : y ≤ d.year) : Reached (newYear y) d := by
  have hyear : Reached (newYear y) (newYear d.year) := by
    generalize d.year = z at hy
    induction z, hy using Nat.le_induction with
    | base => exact ⟨0, rfl⟩
    | succ z hz ih => exact reached_next_year ih
  obtain ⟨⟨hm1, hm12⟩, hday1, hday⟩ := h
  have hmonth := reached_month hyear (show d.month-1 < 12 by omega)
  rw [Nat.sub_add_cancel hm1] at hmonth
  have hdate := reached_day hmonth (show d.day-1 < monthLength d.year d.month by omega)
  rwa [Nat.sub_add_cancel hday1] at hdate

end Days

end GregorianCalendar
