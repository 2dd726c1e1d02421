import Dionnex.Rtc

/-!
# The formats of the clock

Register B says whether the registers are in BCD or binary and whether hours
go to 12 or 24. In the 12-hour formats midnight and noon are both hour 12,
and noon has the PM bit; the driver takes the first for 12 and the second
for 0.
-/

set_option autoImplicit false

namespace Dionnex.RtcFormats
open WhileLoops GregorianCalendar Dionnex.Rtc

structure Format where
  binary : Bool
  hours24 : Bool
  deriving DecidableEq, Repr

def toBcd (v : ℕ) : ℕ := v/10*16 + v % 10

def numeral (f : Format) (v : ℕ) : UInt8 := UInt8.ofNat (if f.binary then v else toBcd v)

/-- Hours count from 1 to 12 in the 12-hour formats, with a bit for PM. -/
def hourRegister (f : Format) (hour : ℕ) : UInt8 :=
  if f.hours24 then numeral f hour
  else numeral f (if hour % 12 = 0 then 12 else hour % 12) ||| (if 12 ≤ hour then 0x80 else 0)

/-- The registers hold the time in the format whenever they are read, and no update lasts for ever. -/
structure Holds (c : Cmos) (f : Format) (t : RtcTime) : Prop where
  second : ∀ k, c k 0x00 = numeral f t.second.toNat
  minute : ∀ k, c k 0x02 = numeral f t.minute.toNat
  hour : ∀ k, c k 0x04 = hourRegister f t.hour.toNat
  day : ∀ k, c k 0x07 = numeral f t.day.toNat
  month : ∀ k, c k 0x08 = numeral f t.month.toNat
  year : ∀ k, c k 0x09 = numeral f (t.year.toNat - 2000)
  binary : ∀ k, c k 0x0B &&& 0x04 ≠ 0 ↔ f.binary = true
  hours24 : ∀ k, c k 0x0B &&& 0x02 ≠ 0 ↔ f.hours24 = true
  idle : ∀ k, ∃ j ≥ k, ¬ cmosIsUpdating c j

/-- The reading ends and gives the time, and the timestamp is that of the time. -/
structure Exact (c : Cmos) (time : ℕ) (t : RtcTime) : Prop where
  reads : ∃ rounds, rtcReadTime rounds c time = some t
  only : ∀ rounds r, rtcReadTime rounds c time = some r → r = t
  ticks : ∀ rounds v, rtcGetTicks rounds c time = some v → v = unixTicks t

/-- The hour that the driver reads. -/
def readHour (f : Format) (hour : UInt8) : UInt8 :=
  if f.hours24 then hour else if hour = 0 then 12 else if hour = 12 then 0 else hour

section Reading

variable {c : Cmos} {f : Format} {t : RtcTime} {time : ℕ}

theorem wait_ends (h : Holds c f t) (time : ℕ) : ∃ later, Ends (waitRound c) time later := by
  obtain ⟨j, hj, hidle⟩ := h.idle time
  obtain ⟨later, hlater, -⟩ := @ends_of_variant _ _ (waitRound c) time (fun k => k ≤ j) (fun _ => True) (fun k => j-k)
    (fun k k' hk hnext => by
      unfold waitRound at hnext
      by_cases hu : cmosIsUpdating c k
      · rw [if_pos hu] at hnext
        cases hnext
        have hne : k ≠ j := fun he => hidle (he ▸ hu)
        omega
      · rw [if_neg hu] at hnext
        cases hnext)
    (fun _ _ _ _ => trivial) hj
  exact ⟨later, hlater⟩

/-- The six registers. -/
def held (f : Format) (t : RtcTime) : RtcTime :=
  ⟨numeral f t.second.toNat, numeral f t.minute.toNat, hourRegister f t.hour.toNat, numeral f t.day.toNat,
    numeral f t.month.toNat, (numeral f (t.year.toNat - 2000)).toUInt16⟩

theorem readRegisters_held (h : Holds c f t) (time : ℕ) : readRegisters c time = held f t := by
  unfold readRegisters held
  rw [h.second, h.minute, h.hour, h.day, h.month, h.year]

/-- Two readings agree at once, so that the loop ends in its first round. -/
theorem readRound_held (h : Holds c f t) {rounds later : ℕ} (hwait : run (waitRound c) rounds time = some later) :
    readRound rounds c (held f t, time) = .done (some (held f t, later+6)) := by
  unfold readRound
  rw [hwait]
  dsimp only
  rw [readRegisters_held h, if_neg (not_not.mpr rfl)]

theorem reading_ends (h : Holds c f t) (time : ℕ) :
    ∃ rounds k, rtcReadTime rounds c time = some (decode (c k 0x0B) (held f t)) := by
  obtain ⟨time1, n1, h1⟩ := wait_ends h time
  obtain ⟨time2, n2, h2⟩ := wait_ends h (time1+6)
  refine ⟨max n1 n2 + 1, time2+6, ?_⟩
  have hfirst := run_mono h1 (show n1 ≤ max n1 n2 + 1 by omega)
  have hsecond := run_mono h2 (show n2 ≤ max n1 n2 + 1 by omega)
  unfold rtcReadTime
  rw [hfirst, Option.bind_some, readRegisters_held h, run_done (readRound_held h hsecond)]
  rfl

theorem reading_only (h : Holds c f t) {rounds : ℕ} {r : RtcTime} (hread : rtcReadTime rounds c time = some r) :
    ∃ k, r = decode (c k 0x0B) (held f t) := by
  obtain ⟨time1, -, hrest⟩ := Option.bind_eq_some_iff.mp hread
  obtain ⟨⟨raw, k⟩, hraw, rfl⟩ := Option.map_eq_some_iff.mp hrest
  refine ⟨k, congrArg _ ?_⟩
  have hends : Ends (readRound rounds c) (readRegisters c time1, time1+6) (some (raw, k)) :=
    ⟨rounds, Option.join_eq_some_iff.mp hraw⟩
  refine @ends_post _ _ _ _ _ (fun _ => True) (fun a => ∀ raw k, a = some (raw, k) → raw = held f t)
    (fun _ _ _ _ => trivial) ?_ trivial hends raw k rfl
  intro s a _ hdone raw k ha
  subst ha
  unfold readRound at hdone
  cases hwait : run (waitRound c) rounds s.2 with
  | none =>
    rw [hwait] at hdone
    cases hdone
  | some later =>
    rw [hwait] at hdone
    dsimp only at hdone
    rw [readRegisters_held h] at hdone
    split at hdone
    · cases hdone
    · cases hdone
      rfl

end Reading

/-! ## Decoding -/

/-- What the decoder makes of the hour register. -/
def decodeHour (f : Format) (register : UInt8) : UInt8 :=
  let hour := if f.binary then register else bcdToBin (register &&& 0x7F) ||| (register &&& 0x80)
  if f.hours24 = false ∧ hour &&& 0x80 ≠ 0 then ((hour &&& 0x7F) + 12) % 24 else hour

theorem bcdToBin_toBcd : ∀ v < 100, bcdToBin (UInt8.ofNat (toBcd v)) = UInt8.ofNat v := by decide

theorem decodeHour_register (f : Format) : ∀ hour < 24, decodeHour f (hourRegister f hour) = readHour f (UInt8.ofNat hour) := by
  obtain ⟨binary, hours24⟩ := f
  cases binary
  · cases hours24
    · decide
    · decide
  · cases hours24
    · decide
    · decide

theorem year_back : ∀ v < 100, (UInt8.ofNat v).toUInt16 + 2000 = UInt16.ofNat (v+2000) := by decide

/-- A numeral of two digits is read back. -/
theorem numeral_back {v : ℕ} (f : Format) (h : v < 100) :
    (if f.binary = true then numeral f v else bcdToBin (numeral f v)) = UInt8.ofNat v := by
  unfold numeral
  by_cases hb : f.binary = true
  · rw [if_pos hb, if_pos hb]
  · rw [if_neg hb, if_neg hb]
    exact bcdToBin_toBcd v h

section Decoding

variable {c : Cmos} {f : Format} {t : RtcTime} {time : ℕ}

theorem decode_fields {regB : UInt8} {r : RtcTime} (hb : regB &&& 0x04 ≠ 0 ↔ f.binary = true)
    (h24 : regB &&& 0x02 ≠ 0 ↔ f.hours24 = true) : decode regB r =
      ⟨if f.binary = true then r.second else bcdToBin r.second, if f.binary = true then r.minute else bcdToBin r.minute,
        decodeHour f r.hour, if f.binary = true then r.day else bcdToBin r.day,
        if f.binary = true then r.month else bcdToBin r.month,
        (if f.binary = true then r.year else (bcdToBin r.year.toUInt8).toUInt16) + 2000⟩ := by
  have hbits : (regB &&& 0x02 = 0) = (f.hours24 = false) := by
    rw [← Bool.not_eq_true, ← h24]
    exact propext not_not.symm
  unfold decode decodeHour
  simp only [hbits]
  by_cases hbin : f.binary = true
  · rw [if_neg (hb.mpr hbin)]
    simp only [if_pos hbin]
    split
    · rfl
    · rfl
  · rw [if_pos (not_not.mp (mt hb.mp hbin))]
    simp only [if_neg hbin]
    unfold fromBcd
    split
    · rfl
    · rfl

theorem decode_held {k : ℕ} (h : Holds c f t) (ht : ValidTime t) (hyear : 2000 ≤ t.year.toNat ∧ t.year.toNat ≤ 2099) :
    decode (c k 0x0B) (held f t) = { t with hour := readHour f t.hour } := by
  have hday := valid_day ht
  have hmonth : 1 ≤ t.month.toNat ∧ t.month.toNat ≤ 12 := ht.date.month
  have hsecond := ht.second
  have hminute := ht.minute
  have hback := @numeral_back
  have hyears : (if f.binary = true then (numeral f (t.year.toNat - 2000)).toUInt16
      else (bcdToBin (numeral f (t.year.toNat - 2000)).toUInt16.toUInt8).toUInt16) + 2000 = t.year := by
    have hlow : (numeral f (t.year.toNat - 2000)).toUInt16.toUInt8 = numeral f (t.year.toNat - 2000) :=
      UInt8.toUInt8_toUInt16 _
    have hfield := numeral_back (v := t.year.toNat - 2000) f (by omega)
    rw [hlow, ← apply_ite UInt8.toUInt16, hfield, year_back _ (by omega), Nat.sub_add_cancel hyear.1, UInt16.ofNat_toNat]
  rw [decode_fields (h.binary k) (h.hours24 k)]
  unfold held
  dsimp only
  rw [hyears, numeral_back f (by omega), numeral_back f (by omega), numeral_back f (by omega), numeral_back f (by omega),
    decodeHour_register f _ ht.hour, UInt8.ofNat_toNat, UInt8.ofNat_toNat, UInt8.ofNat_toNat, UInt8.ofNat_toNat,
    UInt8.ofNat_toNat]

theorem readHour_iff : readHour f t.hour = t.hour ↔ f.hours24 = true ∨ t.hour ≠ 0 ∧ t.hour ≠ 12 := by
  unfold readHour
  by_cases h24 : f.hours24 = true
  · rw [if_pos h24]
    exact iff_of_true rfl (Or.inl h24)
  rw [if_neg h24]
  by_cases h0 : t.hour = 0
  · rw [if_pos h0, h0]
    exact iff_of_false (by decide) (fun h => h.elim h24 (fun h => h.1 rfl))
  rw [if_neg h0]
  by_cases h12 : t.hour = 12
  · rw [if_pos h12, h12]
    exact iff_of_false (by decide) (fun h => h.elim h24 (fun h => h.2 rfl))
  · rw [if_neg h12]
    exact iff_of_true rfl (Or.inr ⟨h0, h12⟩)

/-- The clock is read exactly, unless its format has 12 hours and it is in the hour after noon or midnight. -/
theorem clock_exact_iff (ht : ValidTime t) (hyear : 2000 ≤ t.year.toNat ∧ t.year.toNat ≤ 2099) (h : Holds c f t)
    (time : ℕ) : Exact c time t ↔ f.hours24 = true ∨ t.hour ≠ 0 ∧ t.hour ≠ 12 := by
  rw [← readHour_iff]
  constructor
  · intro he
    obtain ⟨rounds, hread⟩ := he.reads
    obtain ⟨k, hk⟩ := reading_only h hread
    rw [decode_held h ht hyear] at hk
    exact (congrArg RtcTime.hour hk).symm
  · intro hhour
    have hsame : { t with hour := readHour f t.hour } = t := by rw [hhour]
    obtain ⟨rounds, k, hread⟩ := reading_ends h time
    rw [decode_held h ht hyear, hsame] at hread
    have honly : ∀ rounds r, rtcReadTime rounds c time = some r → r = t := by
      intro rounds r hr
      obtain ⟨k, rfl⟩ := reading_only h hr
      rw [decode_held h ht hyear, hsame]
    refine ⟨⟨rounds, hread⟩, honly, fun rounds v hv => ?_⟩
    obtain ⟨r, hr, rfl⟩ := Option.map_eq_some_iff.mp hv
    rw [honly rounds r hr]

end Decoding

/-- A clock that stands still. -/
def standing (f : Format) (t : RtcTime) : Cmos := fun _ reg =>
  if reg = 0x00 then numeral f t.second.toNat else if reg = 0x02 then numeral f t.minute.toNat
  else if reg = 0x04 then hourRegister f t.hour.toNat else if reg = 0x07 then numeral f t.day.toNat
  else if reg = 0x08 then numeral f t.month.toNat else if reg = 0x09 then numeral f (t.year.toNat - 2000)
  else if reg = 0x0B then (if f.binary then 0x04 else 0) ||| (if f.hours24 then 0x02 else 0) else 0

theorem standing_holds (f : Format) (t : RtcTime) : Holds (standing f t) f t where
  second _ := rfl
  minute _ := rfl
  hour _ := rfl
  day _ := rfl
  month _ := rfl
  year _ := rfl
  binary _ := by
    obtain ⟨binary, hours24⟩ := f
    change ((if binary then 0x04 else 0) ||| (if hours24 then 0x02 else 0) : UInt8) &&& 0x04 ≠ 0 ↔ binary = true
    revert binary hours24
    decide
  hours24 _ := by
    obtain ⟨binary, hours24⟩ := f
    change ((if binary then 0x04 else 0) ||| (if hours24 then 0x02 else 0) : UInt8) &&& 0x02 ≠ 0 ↔ hours24 = true
    revert binary hours24
    decide
  idle k := ⟨k, le_rfl, fun h => h (show (0 : UInt8) &&& 0x80 = 0 by decide)⟩

/-- Thirty seconds after noon on the first day of 2026. -/
def noon : RtcTime := ⟨30, 0, 12, 1, 1, 2026⟩

theorem noon_valid : ValidTime noon := ⟨⟨by decide, by decide⟩, by decide, by decide, by decide⟩

theorem clock_exact_iff_sample : Exact (standing ⟨true, true⟩ noon) 0 noon ↔
    (⟨true, true⟩ : Format).hours24 = true ∨ noon.hour ≠ 0 ∧ noon.hour ≠ 12 :=
  clock_exact_iff noon_valid (by decide) (standing_holds ⟨true, true⟩ noon) 0

/-- In BCD with 12 hours noon is read as midnight. -/
theorem noon_misread : ¬ ∀ (c : Cmos) (f : Format) (t : RtcTime) (time : ℕ), ValidTime t →
    2000 ≤ t.year.toNat ∧ t.year.toNat ≤ 2099 → Holds c f t → Exact c time t := by
  intro hclaim
  have hread : rtcReadTime 1 (standing ⟨false, false⟩ noon) 0 = some { noon with hour := 0 } := by decide
  have hexact := hclaim _ _ noon 0 noon_valid (by decide) (standing_holds ⟨false, false⟩ noon)
  exact absurd (hexact.only 1 _ hread) (by decide)

end Dionnex.RtcFormats
