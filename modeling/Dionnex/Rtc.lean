import Dionnex.GregorianCalendar
import Dionnex.WhileLoops

/-!
# The real-time clock

The driver reads the registers of the clock until two readings agree, decodes
them by register B, and counts seconds from 1970 with years that begin in
March. What the chip answers may differ from one port read to the next, so a
clock is a sequence of answers.
-/

set_option autoImplicit false

namespace Dionnex.Rtc
open WhileLoops GregorianCalendar

structure RtcTime where
  second : UInt8
  minute : UInt8
  hour : UInt8
  day : UInt8
  month : UInt8
  year : UInt16
  deriving DecidableEq, Repr

/-- The answer to each port read, by its number and the register that is selected. -/
abbrev Cmos := ℕ → UInt8 → UInt8

def cmosIsUpdating (c : Cmos) (time : ℕ) : Prop := c time 0x0A &&& 0x80 ≠ 0

instance (c : Cmos) (time : ℕ) : Decidable (cmosIsUpdating c time) := inferInstanceAs (Decidable (_ ≠ _))

def bcdToBin (val : UInt8) : UInt8 := (val >>> 4)*10 + (val &&& 0x0F)

/-- `while (cmos_is_updating()) ;` -/
def waitRound (c : Cmos) (time : ℕ) : Round ℕ ℕ :=
  if cmosIsUpdating c time then .next (time+1) else .done (time+1)

def readRegisters (c : Cmos) (time : ℕ) : RtcTime :=
  ⟨c time 0x00, c (time+1) 0x02, c (time+2) 0x04, c (time+3) 0x07, c (time+4) 0x08, (c (time+5) 0x09).toUInt16⟩

/-- The loop over readings; `none` is a wait that takes too many rounds. -/
def readRound (rounds : ℕ) (c : Cmos) (s : RtcTime × ℕ) : Round (RtcTime × ℕ) (Option (RtcTime × ℕ)) :=
  match run (waitRound c) rounds s.2 with
  | none => .done none
  | some time =>
    let t := readRegisters c time
    if t ≠ s.1 then .next (t, time+6) else .done (some (t, time+6))

def fromBcd (t : RtcTime) : RtcTime where
  second := bcdToBin t.second
  minute := bcdToBin t.minute
  hour := bcdToBin (t.hour &&& 0x7F) ||| (t.hour &&& 0x80)
  day := bcdToBin t.day
  month := bcdToBin t.month
  year := (bcdToBin t.year.toUInt8).toUInt16

/-- The registers as register B says that they are to be read. -/
def decode (regB : UInt8) (t : RtcTime) : RtcTime :=
  let t := if regB &&& 0x04 = 0 then fromBcd t else t
  let t := if regB &&& 0x02 = 0 ∧ t.hour &&& 0x80 ≠ 0 then { t with hour := ((t.hour &&& 0x7F) + 12) % 24 } else t
  { t with year := t.year + 2000 }

/-- `none` when the rounds do not suffice. -/
def rtcReadTime (rounds : ℕ) (c : Cmos) (time : ℕ) : Option RtcTime :=
  (run (waitRound c) rounds time).bind (fun time =>
    (run (readRound rounds c) rounds (readRegisters c time, time+6)).join.map (fun r => decode (c r.2 0x0B) r.1))

/-! The local variables of `rtc_get_ticks`. -/

def shiftedYear (t : RtcTime) : UInt16 := if t.month ≤ 2 then t.year-1 else t.year

def shiftedMonth (t : RtcTime) : UInt8 := if t.month ≤ 2 then t.month+12 else t.month

def era (t : RtcTime) : UInt32 := (shiftedYear t).toUInt32 / 400

def yoe (t : RtcTime) : UInt32 := (shiftedYear t).toUInt32 - era t*400

def doy (t : RtcTime) : UInt32 := (153*((shiftedMonth t).toUInt32 - 3) + 2)/5 + t.day.toUInt32 - 1

def doe (t : RtcTime) : UInt32 := yoe t*365 + yoe t/4 - yoe t/100 + doy t

def days (t : RtcTime) : UInt32 := era t*146097 + doe t - 719468

def unixTicks (t : RtcTime) : UInt32 :=
  days t*86400 + t.hour.toUInt32*3600 + t.minute.toUInt32*60 + t.second.toUInt32

def rtcGetTicks (rounds : ℕ) (c : Cmos) (time : ℕ) : Option UInt32 := (rtcReadTime rounds c time).map unixTicks

/-! ## The count of seconds -/

def dateOf (t : RtcTime) : Date := ⟨t.year.toNat, t.month.toNat, t.day.toNat⟩

/-- A date of the calendar and a time of the day. -/
structure ValidTime (t : RtcTime) : Prop where
  date : Valid (dateOf t)
  hour : t.hour.toNat < 24
  minute : t.minute.toNat < 60
  second : t.second.toNat < 60

/-- None of the subtractions goes below zero. -/
structure NoWrap (t : RtcTime) : Prop where
  year : t.month ≤ 2 → 1 ≤ t.year
  yearOfEra : era t*400 ≤ (shiftedYear t).toUInt32
  month : 3 ≤ (shiftedMonth t).toUInt32
  dayOfYear : 1 ≤ (153*((shiftedMonth t).toUInt32 - 3) + 2)/5 + t.day.toUInt32
  dayOfEra : yoe t/100 ≤ yoe t*365 + yoe t/4
  epoch : 719468 ≤ era t*146097 + doe t

section Ticks

variable {t : RtcTime}

theorem valid_day (h : ValidTime t) : 1 ≤ t.day.toNat ∧ t.day.toNat ≤ 31 := by
  have hday := h.date.day
  unfold monthLength dateOf at hday
  dsimp only at hday
  split at hday
  · split at hday
    · omega
    · omega
  · split at hday
    · omega
    · omega

theorem shiftedYear_toNat (h1970 : 1970 ≤ t.year.toNat) :
    (shiftedYear t).toNat = if t.month.toNat ≤ 2 then t.year.toNat - 1 else t.year.toNat := by
  have hmonth : t.month ≤ 2 ↔ t.month.toNat ≤ 2 := UInt8.le_iff_toNat_le
  unfold shiftedYear
  by_cases h : t.month ≤ 2
  · rw [if_pos h, if_pos (hmonth.mp h), UInt16.toNat_sub_of_le _ _ (UInt16.le_iff_toNat_le.mpr (le_trans (by decide) h1970))]
    rfl
  · rw [if_neg h, if_neg (mt hmonth.mpr h)]

theorem shiftedMonth_toNat (h : 1 ≤ t.month.toNat ∧ t.month.toNat ≤ 12) :
    (shiftedMonth t).toNat = if t.month.toNat ≤ 2 then t.month.toNat + 12 else t.month.toNat := by
  have hmonth : t.month ≤ 2 ↔ t.month.toNat ≤ 2 := UInt8.le_iff_toNat_le
  unfold shiftedMonth
  by_cases h : t.month ≤ 2
  · rw [if_pos h, if_pos (hmonth.mp h), UInt8.toNat_add]
    change (t.month.toNat + 12) % 256 = _
    omega
  · rw [if_neg h, if_neg (mt hmonth.mpr h)]

theorem era_toNat : (era t).toNat = (shiftedYear t).toNat / 400 := by
  unfold era
  rw [UInt32.toNat_div, UInt16.toNat_toUInt32]
  rfl

theorem era_years : (era t*400).toNat = (shiftedYear t).toNat / 400 * 400 := by
  have hlt := (shiftedYear t).toNat_lt
  rw [UInt32.toNat_mul, era_toNat]
  change _ * 400 % 4294967296 = _
  omega

theorem yearOfEra_le : era t*400 ≤ (shiftedYear t).toUInt32 := by
  rw [UInt32.le_iff_toNat_le, era_years, UInt16.toNat_toUInt32]
  exact Nat.div_mul_le_self _ _

theorem yoe_toNat : (yoe t).toNat = (shiftedYear t).toNat % 400 := by
  unfold yoe
  rw [UInt32.toNat_sub_of_le _ _ yearOfEra_le, era_years, UInt16.toNat_toUInt32]
  omega

theorem yoe_quarters : (yoe t*365 + yoe t/4).toNat = (shiftedYear t).toNat % 400 * 365 + (shiftedYear t).toNat % 400 / 4 := by
  rw [UInt32.toNat_add, UInt32.toNat_mul, UInt32.toNat_div, yoe_toNat]
  change (_ * 365 % 4294967296 + _ / 4) % 4294967296 = _
  omega

theorem dayOfEra_le : yoe t/100 ≤ yoe t*365 + yoe t/4 := by
  rw [UInt32.le_iff_toNat_le, yoe_quarters, UInt32.toNat_div, yoe_toNat]
  change _ / 100 ≤ _
  omega

theorem month_le (h : ValidTime t) : 3 ≤ (shiftedMonth t).toNat ∧ (shiftedMonth t).toNat ≤ 14 := by
  have hmonth : 1 ≤ t.month.toNat ∧ t.month.toNat ≤ 12 := h.date.month
  rw [shiftedMonth_toNat hmonth]
  split
  · omega
  · omega

theorem months_toNat (h : ValidTime t) :
    ((153*((shiftedMonth t).toUInt32 - 3) + 2)/5).toNat = daysFromMarch (shiftedMonth t).toNat := by
  have hm := month_le h
  have h3 : (3 : UInt32) ≤ (shiftedMonth t).toUInt32 := by
    rw [UInt32.le_iff_toNat_le, UInt8.toNat_toUInt32]
    exact hm.1
  unfold daysFromMarch
  rw [UInt32.toNat_div, UInt32.toNat_add, UInt32.toNat_mul, UInt32.toNat_sub_of_le _ _ h3, UInt8.toNat_toUInt32]
  change (153 * (_ - 3) % 4294967296 + 2) % 4294967296 / 5 = _
  omega

theorem daysFromMarch_le {m : ℕ} (h : m ≤ 14) : daysFromMarch m ≤ 337 := by
  unfold daysFromMarch
  omega

/-- The sum from which the last subtraction takes the days before 1970. -/
theorem days_sum (h : ValidTime t) : (era t*146097 + doe t).toNat + 1 =
    daysBeforeMarch (shiftedYear t).toNat + daysFromMarch (shiftedMonth t).toNat + t.day.toNat := by
  have hyear := (shiftedYear t).toNat_lt
  have hmonths := daysFromMarch_le (month_le h).2
  have hday := valid_day h
  have hsum : ((153*((shiftedMonth t).toUInt32 - 3) + 2)/5 + t.day.toUInt32).toNat =
      daysFromMarch (shiftedMonth t).toNat + t.day.toNat := by
    rw [UInt32.toNat_add, months_toNat h, UInt8.toNat_toUInt32]
    omega
  have hdoy : (doy t).toNat = daysFromMarch (shiftedMonth t).toNat + t.day.toNat - 1 := by
    unfold doy
    rw [UInt32.toNat_sub_of_le _ _ (by rw [UInt32.le_iff_toNat_le, hsum]; change 1 ≤ _; omega), hsum]
    rfl
  unfold doe
  rw [UInt32.toNat_add, UInt32.toNat_add, UInt32.toNat_sub_of_le _ _ dayOfEra_le, yoe_quarters, UInt32.toNat_div,
    UInt32.toNat_mul, era_toNat, yoe_toNat, hdoy]
  rw [daysBeforeMarch_era]
  change (_ * 146097 % 4294967296 + (_ - _ / 100 + _) % 4294967296) % 4294967296 + 1 = _
  have hera : (shiftedYear t).toNat / 400 ≤ 163 := by omega
  have hrest : (shiftedYear t).toNat % 400 < 400 := Nat.mod_lt _ (by decide)
  generalize (shiftedYear t).toNat / 400 = e at *
  generalize (shiftedYear t).toNat % 400 = y at *
  omega

theorem days_dayNumber (h : ValidTime t) (h1970 : 1970 ≤ t.year.toNat) :
    (era t*146097 + doe t).toNat + 1 = dayNumber (dateOf t) := by
  have hmonth : 1 ≤ t.month.toNat ∧ t.month.toNat ≤ 12 := h.date.month
  rw [days_sum h, shiftedYear_toNat h1970, shiftedMonth_toNat hmonth]
  unfold dayNumber dateOf
  dsimp only
  split
  · rfl
  · rfl

theorem noWrap_valid (h : ValidTime t) (h1970 : 1970 ≤ t.year.toNat) {n : ℕ}
    (hn : tomorrow^[n] (newYear 1970) = dateOf t) : NoWrap t := by
  have hnumber := days_number (newYear_valid 1970) (by decide) n
  have hepoch : dayNumber (newYear 1970) = 719469 := by decide
  have hsum := days_dayNumber h h1970
  rw [hn, hepoch] at hnumber
  have hm := month_le h
  have hday := valid_day h
  refine ⟨fun _ => ?_, yearOfEra_le, ?_, ?_, dayOfEra_le, ?_⟩
  · rw [UInt16.le_iff_toNat_le]
    exact le_trans (by decide) h1970
  · rw [UInt32.le_iff_toNat_le, UInt8.toNat_toUInt32]
    exact hm.1
  · rw [UInt32.le_iff_toNat_le, UInt32.toNat_add, months_toNat h, UInt8.toNat_toUInt32]
    have hmonths := daysFromMarch_le hm.2
    change 1 ≤ _
    omega
  · rw [UInt32.le_iff_toNat_le]
    change 719468 ≤ _
    omega

theorem unixTicks_toNat (h : ValidTime t) (h1970 : 1970 ≤ t.year.toNat) {n : ℕ}
    (hn : tomorrow^[n] (newYear 1970) = dateOf t) :
    (unixTicks t).toNat = (86400*n + 3600*t.hour.toNat + 60*t.minute.toNat + t.second.toNat) % 4294967296 := by
  have hnumber := days_number (newYear_valid 1970) (by decide) n
  have hepoch : dayNumber (newYear 1970) = 719469 := by decide
  have hsum := days_dayNumber h h1970
  rw [hn, hepoch] at hnumber
  have hdays : (days t).toNat = n := by
    unfold days
    rw [UInt32.toNat_sub_of_le _ _ (noWrap_valid h h1970 hn).epoch]
    change _ - 719468 = n
    omega
  unfold unixTicks
  rw [UInt32.toNat_add, UInt32.toNat_add, UInt32.toNat_add, UInt32.toNat_mul, UInt32.toNat_mul, UInt32.toNat_mul, hdays,
    UInt8.toNat_toUInt32, UInt8.toNat_toUInt32, UInt8.toNat_toUInt32]
  change (((_ * 86400 % 4294967296 + _ * 3600 % 4294967296) % 4294967296 + _ * 60 % 4294967296) % 4294967296 + _) %
    4294967296 = _
  omega

end Ticks

/-- A clock that stands at 23:59:30 on the leap day of 2000, in BCD and 24 hours. -/
def leapDay : Cmos := fun _ reg =>
  if reg = 0x00 then 0x30 else if reg = 0x02 then 0x59 else if reg = 0x04 then 0x23 else if reg = 0x07 then 0x29
  else if reg = 0x08 then 0x02 else if reg = 0x0B then 0x02 else 0

end Dionnex.Rtc
