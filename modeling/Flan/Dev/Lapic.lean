import Flan.Lib.Mem

/-! `dev/apic/lapic.c` and `dev/pit.c`: the timer of the local APIC, calibrated with the PIT. -/
namespace Flan.Dev
open Flan.Lib

/-! ### The source -/

/-- The registers of the local APIC that are written for its timer. -/
inductive LapicReg where
  | lvtTimer
  | timerInitCount
  | timerDivideCfg
  deriving DecidableEq

/-- A CPU with its local APIC and the PIT. `port40` and `timerCounter` are what the reads of the port
`0x40` and of `LAPIC_TIMER_COUNTER` will give, one after the other; `outs` is what was written to
the ports. -/
structure TimerCpu where
  port40 : Nat → Byte
  timerCounter : Nat → BitVec 32
  outs : List (Nat × Byte)
  lapic : LapicReg → BitVec 32
  lapicFreq : BitVec 32
  interrupts : Bool

namespace TimerCpu

def outb (port : Nat) (data : Byte) (s : TimerCpu) : TimerCpu := { s with outs := s.outs ++ [(port, data)] }

/-- `inb(0x40)`. -/
def inb (s : TimerCpu) : Byte × TimerCpu := (s.port40 0, { s with port40 := fun i => s.port40 (i + 1) })

def pitGetCurrentCount (s : TimerCpu) : BitVec 16 × TimerCpu :=
  let s := s.outb 0x43 0x00
  let (lo, s) := s.inb
  let (hi, s) := s.inb
  (hi.setWidth 16 <<< 8 ||| lo.setWidth 16, s)

def pitSetReloadValue (count : BitVec 16) (s : TimerCpu) : TimerCpu :=
  let s := { s with interrupts := false }
  let s := s.outb 0x43 0x34
  let s := s.outb 0x40 (count.setWidth 8)
  let s := s.outb 0x40 ((count >>> 8).setWidth 8)
  { s with interrupts := true }

/-- `lapic_read(LAPIC_TIMER_COUNTER)`. -/
def lapicReadCounter (s : TimerCpu) : BitVec 32 × TimerCpu :=
  (s.timerCounter 0, { s with timerCounter := fun i => s.timerCounter (i + 1) })

def lapicWrite (reg : LapicReg) (data : BitVec 32) (s : TimerCpu) : TimerCpu :=
  { s with lapic := Function.update s.lapic reg data }

def lapicStop (s : TimerCpu) : TimerCpu :=
  let s := s.lapicWrite .timerInitCount 0
  s.lapicWrite .lvtTimer (1 <<< 16)

def lapicTimerOneshot (ms : BitVec 64) (vector : BitVec 8) (s : TimerCpu) : TimerCpu :=
  let s := { s with interrupts := false }
  let s := s.lapicStop
  let ticks := ms * (s.lapicFreq / 1000).setWidth 64
  let s := s.lapicWrite .lvtTimer (vector.setWidth 32)
  let s := s.lapicWrite .timerDivideCfg 0
  let s := s.lapicWrite .timerInitCount (ticks.setWidth 32)
  { s with interrupts := true }

/-- The wait of `lapic_calibrate` for the counter to be zero. -/
def waitCounter : (fuel : Nat) → TimerCpu → Option TimerCpu
  | 0, _ => none
  | fuel+1, s =>
      let (value, s) := s.lapicReadCounter
      if value = 0 then some s else waitCounter fuel s

end TimerCpu

/-- `tick_total`: the difference is an `int`, which is then taken to 64 bits. -/
def tickTotal (tickFirst tickLast : BitVec 16) : BitVec 64 :=
  (tickFirst.setWidth 32 - tickLast.setWidth 32).signExtend 64

/-- `OSCILATOR_FREQ`. -/
def oscilatorFreq : BitVec 64 := 1193182

/-- `freq`, as it is put into `lapic_freq`. -/
def calibratedFreq (tickFirst tickLast : BitVec 16) : BitVec 32 :=
  (0xfffff / tickTotal tickFirst tickLast * oscilatorFreq).setWidth 32

namespace TimerCpu

/-- The part of `lapic_calibrate` behind the wait. The division by zero is an exception. -/
def calibrateEnd (tickFirst : BitVec 16) (s : TimerCpu) : Option TimerCpu :=
  let (tickLast, s) := s.pitGetCurrentCount
  if tickTotal tickFirst tickLast = 0 then none
  else
    let s := { s with lapicFreq := calibratedFreq tickFirst tickLast }
    some s.lapicStop

/-- `lapic_calibrate` with `lapic_lock` taken. -/
def lapicCalibrate (fuel : Nat) (s : TimerCpu) : Option TimerCpu := do
  let s := s.lapicStop
  let s := s.pitSetReloadValue 0xffff
  let (tickFirst, s) := s.pitGetCurrentCount
  let s := s.lapicWrite .timerInitCount 0xfffff
  let s ← waitCounter fuel s
  s.calibrateEnd tickFirst

end TimerCpu

/-! ### The numbers -/

theorem tickTotal_toNat (tickFirst tickLast : BitVec 16) :
    (tickTotal tickFirst tickLast).toNat = (tickFirst.toNat + 2 ^ 64 - tickLast.toNat) % 2 ^ 64 := by
  have hfirst := tickFirst.isLt
  have hlast := tickLast.isLt
  rw [tickTotal, BitVec.toNat_signExtend, BitVec.msb_eq_decide, BitVec.toNat_setWidth, BitVec.toNat_sub,
    BitVec.toNat_setWidth, BitVec.toNat_setWidth]
  by_cases hle : tickLast.toNat ≤ tickFirst.toNat
  · rw [if_neg (by simp; omega)]
    omega
  · rw [if_pos (by simp; omega)]
    omega

theorem tickTotal_eq_zero (tickFirst tickLast : BitVec 16) : tickTotal tickFirst tickLast = 0 ↔ tickFirst = tickLast := by
  have hfirst := tickFirst.isLt
  have hlast := tickLast.isLt
  rw [← BitVec.toNat_inj, tickTotal_toNat, ← BitVec.toNat_inj]
  simp only [BitVec.ofNat_eq_ofNat, BitVec.toNat_ofNat]
  omega

theorem calibratedFreq_toNat (tickFirst tickLast : BitVec 16) :
    (calibratedFreq tickFirst tickLast).toNat =
      0xfffff / (tickTotal tickFirst tickLast).toNat * 1193182 % 2 ^ 32 := by
  rw [calibratedFreq, BitVec.toNat_setWidth, BitVec.toNat_mul, BitVec.toNat_udiv]
  exact Nat.mod_mod_of_dvd _ (by decide)

/-- Before its truncation a frequency fits 32 bits from 292 ticks on. -/
theorem freq_fits_iff {elapsed : Nat} (hpos : 0 < elapsed) : 0xfffff / elapsed * 1193182 < 2 ^ 32 ↔ 292 ≤ elapsed := by
  constructor
  · intro hfits
    by_contra hfew
    have hquot : 0xfffff / 291 ≤ 0xfffff / elapsed := Nat.div_le_div_left (by omega) hpos
    omega
  · intro hmany
    have hquot : 0xfffff / elapsed ≤ 0xfffff / 292 := Nat.div_le_div_left hmany (by decide)
    omega

/-- The time between the readings of a down-counter that wraps at most once. -/
def elapsed (tickFirst tickLast : BitVec 16) : Nat := (tickFirst - tickLast).toNat

/-- The frequency that is to be stored. -/
def trueFreq (tickFirst tickLast : BitVec 16) : Nat := 0xfffff / elapsed tickFirst tickLast * 1193182

theorem le_trueFreq {tickFirst tickLast : BitVec 16} (hne : tickFirst ≠ tickLast) :
    16 * 1193182 ≤ trueFreq tickFirst tickLast := by
  have hpos : 0 < elapsed tickFirst tickLast := by
    have hne' : tickFirst.toNat ≠ tickLast.toNat := fun h => hne (BitVec.eq_of_toNat_eq h)
    rw [elapsed, BitVec.toNat_sub]
    omega
  have hlt : elapsed tickFirst tickLast < 2 ^ 16 := (tickFirst - tickLast).isLt
  have hquot : 0xfffff / 65535 ≤ 0xfffff / elapsed tickFirst tickLast := Nat.div_le_div_left (by omega) hpos
  exact Nat.mul_le_mul_right _ hquot

theorem calibratedFreq_eq_iff {tickFirst tickLast : BitVec 16} (hne : tickFirst ≠ tickLast) :
    (calibratedFreq tickFirst tickLast).toNat = trueFreq tickFirst tickLast ↔ tickLast.toNat + 292 ≤ tickFirst.toNat := by
  have hfirst := tickFirst.isLt
  have hlast := tickLast.isLt
  have hne' : tickFirst.toNat ≠ tickLast.toNat := fun h => hne (BitVec.eq_of_toNat_eq h)
  rw [calibratedFreq_toNat, tickTotal_toNat]
  rcases Nat.lt_or_gt_of_ne hne' with hwrap | hdown
  · -- The difference is negative, which makes the divisor larger than `0xfffff`.
    have hquot : 0xfffff / ((tickFirst.toNat + 2 ^ 64 - tickLast.toNat) % 2 ^ 64) = 0 := Nat.div_eq_of_lt (by omega)
    have hfreq := le_trueFreq hne
    rw [hquot]
    constructor
    · intro h
      omega
    · intro h
      omega
  · have htotal : (tickFirst.toNat + 2 ^ 64 - tickLast.toNat) % 2 ^ 64 = tickFirst.toNat - tickLast.toNat := by omega
    have helapsed : elapsed tickFirst tickLast = tickFirst.toNat - tickLast.toNat :=
      BitVec.toNat_sub_of_le (BitVec.le_def.mpr hdown.le)
    rw [trueFreq, htotal, helapsed, Nat.mod_eq_iff_lt (by decide), freq_fits_iff (Nat.sub_pos_of_lt hdown)]
    omega

/-! ### The calls -/

namespace TimerCpu
variable {s s' : TimerCpu} {fuel : Nat}

/-- What `pit_get_current_count` returns if its bytes are the `k`-th ones. -/
def reading (s : TimerCpu) (k : Nat) : BitVec 16 := (s.port40 (k + 1)).setWidth 16 <<< 8 ||| (s.port40 k).setWidth 16

theorem waitCounter_succ (fuel : Nat) (s : TimerCpu) :
    waitCounter (fuel + 1) s =
      if s.timerCounter 0 = 0 then some s.lapicReadCounter.2 else waitCounter fuel s.lapicReadCounter.2 := rfl

theorem waitCounter_port40 (h : waitCounter fuel s = some s') : s'.port40 = s.port40 := by
  induction fuel generalizing s with
  | zero => exact nomatch h
  | succ fuel ih =>
      rw [waitCounter_succ] at h
      split at h
      · cases h
        rfl
      · exact (ih h).trans rfl

theorem waitCounter_isSome {n : Nat} (h : s.timerCounter n = 0) : (waitCounter (n + 1) s).isSome := by
  induction n generalizing s with
  | zero =>
      rw [waitCounter_succ, if_pos h]
      rfl
  | succ n ih =>
      rw [waitCounter_succ]
      split
      · rfl
      · exact ih h

/-- The state in which `lapic_calibrate` waits. -/
def counting (s : TimerCpu) : TimerCpu :=
  ((s.lapicStop.pitSetReloadValue 0xffff).pitGetCurrentCount.2).lapicWrite .timerInitCount 0xfffff

theorem lapicCalibrate_eq (fuel : Nat) (s : TimerCpu) :
    s.lapicCalibrate fuel = (waitCounter fuel s.counting).bind (calibrateEnd (s.reading 0)) := rfl

theorem calibrateEnd_eq (tickFirst : BitVec 16) (s : TimerCpu) :
    s.calibrateEnd tickFirst =
      if tickFirst = s.reading 0 then none
      else some (lapicStop { s.pitGetCurrentCount.2 with lapicFreq := calibratedFreq tickFirst (s.reading 0) }) := by
  rw [← if_congr (tickTotal_eq_zero tickFirst (s.reading 0)) rfl rfl]
  rfl

/-- The bytes behind those of `tick_first` are those of `tick_last`. -/
theorem reading_of_wait (h : waitCounter fuel s.counting = some s') : s'.reading 0 = s.reading 2 := by
  rw [reading, waitCounter_port40 h]
  rfl

theorem lapicCalibrate_some (h : s.lapicCalibrate fuel = some s') :
    s.reading 0 ≠ s.reading 2 ∧ s'.lapicFreq = calibratedFreq (s.reading 0) (s.reading 2) := by
  rw [lapicCalibrate_eq] at h
  obtain ⟨t, hwait, hend⟩ := Option.bind_eq_some_iff.mp h
  rw [calibrateEnd_eq, reading_of_wait hwait] at hend
  split at hend
  · exact nomatch hend
  case isFalse hne =>
    cases hend
    exact ⟨hne, rfl⟩

theorem exists_lapicCalibrate {n : Nat} (hcounter : s.timerCounter n = 0) (hne : s.reading 0 ≠ s.reading 2) :
    ∃ s', s.lapicCalibrate (n + 1) = some s' := by
  obtain ⟨t, hwait⟩ := Option.isSome_iff_exists.mp (@waitCounter_isSome s.counting n hcounter)
  rw [lapicCalibrate_eq, hwait, Option.bind_some, calibrateEnd_eq, reading_of_wait hwait, if_neg hne]
  exact ⟨_, rfl⟩

theorem lapicTimerOneshot_count (ms : BitVec 64) (vector : BitVec 8) (s : TimerCpu) :
    ((s.lapicTimerOneshot ms vector).lapic .timerInitCount).toNat = ms.toNat * (s.lapicFreq.toNat / 1000) % 2 ^ 32 := by
  have hcount : (s.lapicTimerOneshot ms vector).lapic .timerInitCount =
      (ms * (s.lapicFreq / 1000).setWidth 64).setWidth 32 := rfl
  have hquot : (s.lapicFreq / 1000).toNat = s.lapicFreq.toNat / 1000 := BitVec.toNat_udiv
  rw [hcount, BitVec.toNat_setWidth, BitVec.toNat_mul, BitVec.toNat_setWidth_of_le (by decide), hquot]
  exact Nat.mod_mod_of_dvd _ (by decide)

/-- The calibration stores the frequency, and a one-shot timer is set to its milliseconds. -/
def CalibratesRight (s : TimerCpu) : Prop :=
  ∃ fuel s', s.lapicCalibrate fuel = some s' ∧
    s'.lapicFreq.toNat = trueFreq (s.reading 0) (s.reading 2) ∧
    ∀ (ms : BitVec 64) (vector : BitVec 8), 1 ≤ ms → ms ≤ 255 →
      ((s'.lapicTimerOneshot ms vector).lapic .timerInitCount).toNat =
        ms.toNat * (trueFreq (s.reading 0) (s.reading 2) / 1000) ∧
      (s'.lapicTimerOneshot ms vector).lapic .timerInitCount ≠ 0

/-- The timer's count for at most 255 milliseconds does not overflow, whatever was stored. -/
theorem count_fits {ms freq : Nat} (hms : ms ≤ 255) (hfreq : freq < 2 ^ 32) : ms * (freq / 1000) < 2 ^ 32 :=
  calc ms * (freq / 1000) ≤ 255 * (2 ^ 32 / 1000) := Nat.mul_le_mul hms (Nat.div_le_div_right hfreq.le)
    _ < 2 ^ 32 := by decide

/-- The calibration is right exactly if the PIT has not wrapped and at least 292 of its ticks have
passed. -/
theorem lapic_calibrate_right_iff (s : TimerCpu) (hcounter : ∃ n, s.timerCounter n = 0) :
    s.CalibratesRight ↔ (s.reading 2).toNat + 292 ≤ (s.reading 0).toNat := by
  constructor
  · rintro ⟨fuel, s', hcal, hfreq, -⟩
    obtain ⟨hne, hstored⟩ := lapicCalibrate_some hcal
    rw [hstored] at hfreq
    exact (calibratedFreq_eq_iff hne).mp hfreq
  · intro hmany
    have hne : s.reading 0 ≠ s.reading 2 := fun h => by
      rw [h] at hmany
      omega
    obtain ⟨n, hn⟩ := hcounter
    obtain ⟨s', hcal⟩ := exists_lapicCalibrate hn hne
    have hfreq : s'.lapicFreq.toNat = trueFreq (s.reading 0) (s.reading 2) := by
      rw [(lapicCalibrate_some hcal).2]
      exact (calibratedFreq_eq_iff hne).mpr hmany
    refine ⟨n + 1, s', hcal, hfreq, ?_⟩
    intro ms vector hlow hhigh
    have hcount : ((s'.lapicTimerOneshot ms vector).lapic .timerInitCount).toNat =
        ms.toNat * (trueFreq (s.reading 0) (s.reading 2) / 1000) := by
      rw [lapicTimerOneshot_count, Nat.mod_eq_of_lt (count_fits (BitVec.le_def.mp hhigh) s'.lapicFreq.isLt), hfreq]
    refine ⟨hcount, fun hzero => ?_⟩
    rw [hzero] at hcount
    have hquot : 16 * 1193182 / 1000 ≤ trueFreq (s.reading 0) (s.reading 2) / 1000 :=
      Nat.div_le_div_right (le_trueFreq hne)
    have hpos : 0 < ms.toNat * (trueFreq (s.reading 0) (s.reading 2) / 1000) :=
      Nat.mul_pos (BitVec.le_def.mp hlow) (Nat.lt_of_lt_of_le (by decide) hquot)
    exact hpos.ne hcount

/-- A CPU whose PIT is read as `tickFirst` and `tickLast`, around a wait that ends at once. -/
def ofReadings (tickFirst tickLast : BitVec 16) : TimerCpu where
  port40 i := [tickFirst.setWidth 8, (tickFirst >>> 8).setWidth 8, tickLast.setWidth 8, (tickLast >>> 8).setWidth 8].getD i 0
  timerCounter _ := 0
  outs := []
  lapic _ := 0
  lapicFreq := 0
  interrupts := true

/-- 1251 ticks of the PIT. -/
theorem no_wrap_calibrates_right : (ofReadings 0xfff0 0xfb0d).CalibratesRight :=
  (lapic_calibrate_right_iff (ofReadings 0xfff0 0xfb0d) ⟨0, rfl⟩).mpr (by decide)

/-- The PIT has wrapped after `0x2000` ticks: zero is stored, and the timer is never started. -/
theorem wrapped_pit_stores_zero :
    ((ofReadings 0x1000 0xf000).lapicCalibrate 1).map lapicFreq = some 0 ∧
    trueFreq 0x1000 0xf000 = 151534114 ∧ ¬(ofReadings 0x1000 0xf000).CalibratesRight := by
  refine ⟨by decide +kernel, by decide +kernel, ?_⟩
  rintro ⟨fuel, s', hcal, hfreq, -⟩
  rw [(lapicCalibrate_some hcal).2] at hfreq
  exact absurd hfreq (by decide +kernel)

end TimerCpu

end Flan.Dev
