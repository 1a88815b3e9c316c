import ShiziOS.Lib.Calendar

/-!
# The time of the boot

`time_get_boot_unix` of `kernel/time/time.c`. The loader hands over date and time as digits, two
in a byte. Numbers are of 32 bits up to the last sum.

* `toNat_bootDays`: the days since 1970, and `122` more.
* `boot_unix_late`: so no time of the boot is right.
-/

namespace ShiziOS.Time

open Calendar BitVec Nat
open BitVec (ofNat)

def bcdToBin (bcd : BitVec 32) : BitVec 32 := ((bcd >>> 4) &&& 0xF) * 10 + (bcd &&& 0xF)

def marchDays (year mon day : BitVec 32) : BitVec 32 :=
  365 * year + year / 4 - year / 100 + year / 400 + 153 * (mon + 1) / 5 + day

/-- The variable `days` of `time_get_boot_unix`. -/
def bootDays (year mon day : BitVec 32) : BitVec 32 :=
  let (mon, year) := if mon ≤ 2 then (mon + 12, year - 1) else (mon, year)
  marchDays year mon day - 719469

/-- `bcd_to_bin(datetime[k])`. -/
def rtcField (datetime : Vector (BitVec 8) 8) (k : Nat) : BitVec 32 :=
  bcdToBin ((datetime.getD k 0).setWidth 32)

/-- `time_get_boot_unix`: `tv_sec` of `time_boot_unix`; `tv_nsec` is `0`. -/
def timeGetBootUnix (datetime : Vector (BitVec 8) 8) : BitVec 64 :=
  let year := rtcField datetime 0 * 100 + rtcField datetime 1
  let mon := rtcField datetime 2
  let day := rtcField datetime 3
  let hour := rtcField datetime 4
  let min := rtcField datetime 5
  let sec := rtcField datetime 6
  (bootDays year mon day).setWidth 64 * 86400 + (hour * 3600).setWidth 64 +
    (min * 60).setWidth 64 + sec.setWidth 64

/-- A number below `100` as two digits. -/
def bcd (n : Nat) : BitVec 8 := ofNat 8 (n / 10 * 16 + n % 10)

/-- The field `datetime` for a date and time; its last byte has no meaning. -/
def rtc (t : DateTime) (last : BitVec 8) : Vector (BitVec 8) 8 :=
  #v[bcd (t.year / 100), bcd (t.year % 100), bcd t.month, bcd t.day, bcd t.hour, bcd t.minute,
    bcd t.second, last]

theorem bcdToBin_bcd {n : Nat} (h : n < 100) :
    bcdToBin ((bcd n).setWidth 32) = ofNat 32 n := by
  revert n
  decide

/-! ## The days -/

theorem toNat_marchDays {year mon day : BitVec 32} (hday : day.toNat < 32)
    (hyear : year.toNat < 10000) (hmon : mon.toNat < 15) :
    (marchDays year mon day).toNat =
      yearDays year.toNat + 153 * (mon.toNat + 1) / 5 + day.toNat := by
  have hle : year.toNat / 100 ≤ year.toNat / 4 := div_le_div_left (by decide) (by decide)
  have hsum : (153 * (mon + 1)).toNat = 153 * (mon.toNat + 1) := by bv_omega
  have hyears : (365 * year).toNat = 365 * year.toNat := by bv_omega
  simp only [marchDays, yearDays, toNat_add, toNat_sub, toNat_udiv, hsum,
    hyears, reduceToNat]
  omega

theorem toNat_bootDays {t : DateTime} (h : t.Valid) (hyear : 1970 ≤ t.year)
    (hlast : t.year < 10000) :
    (bootDays (ofNat 32 t.year) (ofNat 32 t.month) (ofNat 32 t.day)).toNat =
      t.days + 122 := by
  have hdays := h.days_eq hyear
  have hmonth := h.month
  have hday := h.day_lt
  have hofDay : (ofNat 32 t.day).toNat = t.day := by bv_omega
  have hofDay_lt : (ofNat 32 t.day).toNat < 32 := by omega
  have hofMonth : (ofNat 32 t.month).toNat = t.month := by bv_omega
  have hle : ofNat 32 t.month ≤ 2 ↔ t.month ≤ 2 := by
    rw [le_def, hofMonth]
    rfl
  by_cases hm : t.month ≤ 2
  · have hmon : (ofNat 32 t.month + 12).toNat = t.month + 12 := by bv_omega
    have hprev : (ofNat 32 t.year - 1).toNat = t.year - 1 := by bv_omega
    have hsum := toNat_marchDays hofDay_lt
      (by omega : (ofNat 32 t.year - 1).toNat < 10000)
      (by omega : (ofNat 32 t.month + 12).toNat < 15)
    have hyears := yearDays_le (t.year - 1)
    rw [if_pos hm] at hdays
    rw [hmon, hprev, hofDay, show t.month + 12 + 1 = t.month + 13 from rfl] at hsum
    simp only [bootDays, if_pos (hle.mpr hm), toNat_sub, hsum, reduceToNat]
    omega
  · have hsame : (ofNat 32 t.year).toNat = t.year := by bv_omega
    have hsum := toNat_marchDays hofDay_lt (by omega : (ofNat 32 t.year).toNat < 10000)
      (by omega : (ofNat 32 t.month).toNat < 15)
    have hyears := yearDays_le t.year
    rw [if_neg hm] at hdays
    rw [hofMonth, hsame, hofDay] at hsum
    simp only [bootDays, if_neg (mt hle.mp hm), toNat_sub, hsum, reduceToNat]
    omega

/-! ## The seconds -/

theorem toNat_ofNat_mul {n k : Nat} (h : n * k < 2 ^ 32) :
    ((ofNat 32 n * ofNat 32 k).setWidth 64).toNat = n * k := by
  rw [toNat_setWidth, toNat_mul, toNat_ofNat, toNat_ofNat,
    ← mul_mod, mod_eq_of_lt h, mod_eq_of_lt (by omega)]

theorem toNat_timeGetBootUnix {t : DateTime} (h : t.Valid) (hyear : 1970 ≤ t.year)
    (hlast : t.year < 10000) (last : BitVec 8) :
    (timeGetBootUnix (rtc t last)).toNat = t.seconds + 122 * 86400 := by
  have hdays := toNat_bootDays h hyear hlast
  have hbound : t.days + 122 < 2 ^ 32 := hdays ▸ isLt _
  have hday := h.day_lt
  have hmonth := h.month
  obtain ⟨-, -, hhour, hminute, hsecond⟩ := h
  have hofYear : ofNat 32 (t.year / 100) * 100 + ofNat 32 (t.year % 100) =
      ofNat 32 t.year := by
    bv_omega
  show ((bootDays (bcdToBin ((bcd (t.year / 100)).setWidth 32) * 100 +
    bcdToBin ((bcd (t.year % 100)).setWidth 32)) (bcdToBin ((bcd t.month).setWidth 32))
    (bcdToBin ((bcd t.day).setWidth 32))).setWidth 64 * 86400 +
    (bcdToBin ((bcd t.hour).setWidth 32) * 3600).setWidth 64 +
    (bcdToBin ((bcd t.minute).setWidth 32) * 60).setWidth 64 +
    (bcdToBin ((bcd t.second).setWidth 32)).setWidth 64).toNat = _
  rw [bcdToBin_bcd (by omega), bcdToBin_bcd (by omega), bcdToBin_bcd (by omega),
    bcdToBin_bcd (by omega), bcdToBin_bcd (by omega), bcdToBin_bcd (by omega),
    bcdToBin_bcd (by omega), hofYear, DateTime.seconds]
  have hseconds : ((ofNat 32 t.hour * 3600).setWidth 64).toNat = t.hour * 3600 ∧
      ((ofNat 32 t.minute * 60).setWidth 64).toNat = t.minute * 60 ∧
      ((ofNat 32 t.second).setWidth 64).toNat = t.second := by
    refine ⟨toNat_ofNat_mul (show t.hour * 3600 < 2 ^ 32 by omega),
      toNat_ofNat_mul (show t.minute * 60 < 2 ^ 32 by omega), ?_⟩
    rw [toNat_setWidth, toNat_ofNat, mod_eq_of_lt, mod_eq_of_lt] <;> omega
  simp only [toNat_add, hseconds, toNat_mul, toNat_setWidth, hdays, reduceToNat]
  omega

/-- No date and time comes out as the seconds since 1970: the constant of the sum leaves `122` days
too many, those that a year from March on has before its first month. -/
theorem boot_unix_late (t : DateTime) (h : t.Valid) (hyear : 1970 ≤ t.year)
    (hlast : t.year < 10000) (last : BitVec 8) :
    (timeGetBootUnix (rtc t last)).toInt ≠ t.seconds := by
  have hlate := toNat_timeGetBootUnix h hyear hlast last
  have hdays : t.days + 122 < 2 ^ 32 := toNat_bootDays h hyear hlast ▸ isLt _
  obtain ⟨-, -, hhour, hminute, hsecond⟩ := h
  have hsmall : t.seconds < 2 ^ 62 := by
    unfold DateTime.seconds
    omega
  rw [toInt_eq_toNat_of_lt (by omega), hlate]
  omega

def leapDay : DateTime := ⟨2024, 2, 29, 23, 59, 59⟩

theorem boot_unix_late_leapDay : (timeGetBootUnix (rtc leapDay 0)).toInt ≠ leapDay.seconds :=
  boot_unix_late leapDay ⟨by decide, by decide, by decide, by decide, by decide⟩ (by decide)
    (by decide) 0

def epoch : DateTime := ⟨1970, 1, 1, 0, 0, 0⟩

/-- The first second of 1970 is taken for one in May. -/
theorem boot_unix_epoch :
    (timeGetBootUnix (rtc epoch 0)).toInt = 122 * 86400 ∧ epoch.seconds = 0 := by
  decide +kernel

end ShiziOS.Time
