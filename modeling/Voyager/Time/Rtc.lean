import Mathlib.Data.UInt
import Voyager.Lib.Outcome
import Voyager.Machine
import Voyager.Time.Calendar

/-!
# Reading the real-time clock

The CMOS chip answers every access on its own. The decoder knows that hours after noon carry
bit 7, but not that the twelfth hour comes before the first.
-/

namespace Voyager.Time

open Lib

def currentYear : Nat := 2026

/-- The answer to the access number `n` if register `reg` is selected. -/
abbrev Cmos := Nat → Nat → UInt8

/-- The variables of one reading. -/
structure Reading where
  second : UInt8
  minute : UInt8
  hour : UInt8
  day : UInt8
  month : UInt8
  year : UInt16
  century : UInt8
  deriving DecidableEq

/-- The globals that `read_rtc` sets. -/
structure Rtc where
  second : UInt8
  minute : UInt8
  hour : UInt8
  day : UInt8
  month : UInt8
  year : UInt16
  deriving DecidableEq

def getUpdateFlag (cmos : Cmos) (n : Nat) : Bool := cmos n 0x0A &&& 0x80 ≠ 0

def awaitUpdate (cmos : Cmos) : Nat → Nat → Kernel Nat
  | 0, _ => .error .endless
  | fuel + 1, n => if getUpdateFlag cmos n then awaitUpdate cmos fuel (n + 1) else .ok (n + 1)

/-- The block of reads, which leaves `century` alone if there is no register for it. -/
def readRegisters (cmos : Cmos) (centuryRegister century : UInt8) (n : Nat) : Reading × Nat :=
  let reading : Reading :=
    { second := cmos n 0x00
      minute := cmos (n + 1) 0x02
      hour := cmos (n + 2) 0x04
      day := cmos (n + 3) 0x07
      month := cmos (n + 4) 0x08
      year := (cmos (n + 5) 0x09).toUInt16
      century := if centuryRegister ≠ 0 then cmos (n + 6) centuryRegister.toNat else century }
  (reading, if centuryRegister ≠ 0 then n + 7 else n + 6)

/-- The `do` loop, where `fuel` bounds each of its loops. -/
def readStable (cmos : Cmos) (centuryRegister : UInt8) (spins : Nat) : Nat → Reading → Nat → Kernel (Reading × Nat)
  | 0, _, _ => .error .endless
  | fuel + 1, last, n => do
    let n ← awaitUpdate cmos spins n
    let (reading, n) := readRegisters cmos centuryRegister last.century n
    if last = reading then return (reading, n) else readStable cmos centuryRegister spins fuel reading n

def fromBcd (x : UInt8) : UInt8 := (x &&& 0x0F) + x / 16 * 10

def hourFromBcd (x : UInt8) : UInt8 := ((x &&& 0x0F) + (x &&& 0x70) / 16 * 10) ||| (x &&& 0x80)

def yearFromBcd (x : UInt16) : UInt16 := (x &&& 0x0F) + x / 16 * 10

def decodeBcd (centuryRegister : UInt8) (r : Reading) : Reading :=
  { second := fromBcd r.second
    minute := fromBcd r.minute
    hour := hourFromBcd r.hour
    day := fromBcd r.day
    month := fromBcd r.month
    year := yearFromBcd r.year
    century := if centuryRegister ≠ 0 then fromBcd r.century else r.century }

/-- The conversion of an afternoon hour. -/
def hourFromTwelve (hour : UInt8) : UInt8 := if hour &&& 0x80 ≠ 0 then ((hour &&& 0x7F) + 12) % 24 else hour

def fullYear (centuryRegister : UInt8) (r : Reading) : UInt16 :=
  if centuryRegister ≠ 0 then r.year + r.century.toUInt16 * 100
  else
    let year := r.year + .ofNat (currentYear / 100 * 100)
    if year < .ofNat currentYear then year + 100 else year

structure Mode where
  binary : Bool
  hours24 : Bool
  deriving DecidableEq

def Mode.ofRegisterB (registerB : UInt8) : Mode := ⟨registerB &&& 0x04 ≠ 0, registerB &&& 0x02 ≠ 0⟩

/-- What becomes of a stable reading. -/
def decode (centuryRegister : UInt8) (mode : Mode) (r : Reading) : Rtc :=
  let r := if !mode.binary then decodeBcd centuryRegister r else r
  { second := r.second
    minute := r.minute
    hour := if !mode.hours24 then hourFromTwelve r.hour else r.hour
    day := r.day
    month := r.month
    year := fullYear centuryRegister r }

/-- `read_rtc` from the access `n` on. -/
def readRtc (cmos : Cmos) (centuryRegister : UInt8) (fuel n : Nat) : Kernel Rtc := do
  let n ← awaitUpdate cmos fuel n
  let (first, n) := readRegisters cmos centuryRegister 0 n
  let (reading, n) ← readStable cmos centuryRegister fuel fuel first n
  return decode centuryRegister (.ofRegisterB (cmos n 0x0B)) reading

/-! ### What the chip holds -/

structure Moment extends Date where
  hour : Nat
  minute : Nat
  second : Nat
  hour_lt : hour < 24
  minute_lt : minute < 60
  second_lt : second < 60

def toBcd (v : Nat) : Nat := v / 10 * 16 + v % 10

def Mode.encode (mode : Mode) (v : Nat) : UInt8 := .ofNat (if mode.binary then v else toBcd v)

/-- Twelve o'clock comes first in either half of the day. -/
def hourOfTwelve (hour : Nat) : Nat := if hour % 12 = 0 then 12 else hour % 12

def Mode.encodeHour (mode : Mode) (hour : Nat) : UInt8 :=
  if mode.hours24 then mode.encode hour
  else mode.encode (hourOfTwelve hour) ||| (if 12 ≤ hour then 0x80 else 0)

/-- The registers that hold the moment, and the mode bits, at one access. -/
structure Mode.Encodes (mode : Mode) (moment : Moment) (registers : Nat → UInt8) : Prop where
  second : registers 0x00 = mode.encode moment.second
  minute : registers 0x02 = mode.encode moment.minute
  hour : registers 0x04 = mode.encodeHour moment.hour
  day : registers 0x07 = mode.encode moment.day
  month : registers 0x08 = mode.encode moment.month
  year : registers 0x09 = mode.encode (moment.year % 100)
  registerB : .ofRegisterB (registers 0x0B) = mode

/-- The chip holds the moment during every access, and is never in an update for ever. -/
structure Holds (cmos : Cmos) (mode : Mode) (moment : Moment) : Prop where
  encodes : ∀ n, mode.Encodes moment (cmos n)
  updates : ∀ n, ∃ k, getUpdateFlag cmos (n + k) = false

structure Shows (r : Rtc) (moment : Moment) : Prop where
  second : r.second.toNat = moment.second
  minute : r.minute.toNat = moment.minute
  hour : r.hour.toNat = moment.hour
  day : r.day.toNat = moment.day
  month : r.month.toNat = moment.month
  year : r.year.toNat = moment.year

variable {cmos : Cmos} {mode : Mode} {moment : Moment} {n k : Nat}

/-! ### The loops -/

theorem awaitUpdate_returns (clear : getUpdateFlag cmos (n + k) = false) :
    ∃ n', ∀ fuel, k < fuel → awaitUpdate cmos fuel n = .ok n' := by
  induction k generalizing n with
  | zero =>
    refine ⟨n + 1, fun fuel enough => ?_⟩
    obtain ⟨fuel, rfl⟩ := Nat.exists_eq_add_of_lt enough
    rw [Nat.zero_add, awaitUpdate, if_neg (by simpa using clear)]
  | succ k ih =>
    obtain ⟨n', rest⟩ := ih (n := n + 1) (by rwa [Nat.add_right_comm])
    by_cases busy : getUpdateFlag cmos n = true
    · refine ⟨n', fun fuel enough => ?_⟩
      obtain ⟨fuel, rfl⟩ := Nat.exists_eq_add_of_lt enough
      rw [awaitUpdate, if_pos busy]
      exact rest _ (by omega)
    · refine ⟨n + 1, fun fuel enough => ?_⟩
      obtain ⟨fuel, rfl⟩ := Nat.exists_eq_add_of_lt enough
      rw [awaitUpdate, if_neg busy]

def Mode.reading (mode : Mode) (moment : Moment) : Reading :=
  { second := mode.encode moment.second
    minute := mode.encode moment.minute
    hour := mode.encodeHour moment.hour
    day := mode.encode moment.day
    month := mode.encode moment.month
    year := (mode.encode (moment.year % 100)).toUInt16
    century := 0 }

theorem Holds.readRegisters (h : Holds cmos mode moment) (n : Nat) :
    readRegisters cmos 0 0 n = (mode.reading moment, n + 6) := by
  unfold Time.readRegisters Mode.reading
  rw [(h.encodes _).second, (h.encodes _).minute, (h.encodes _).hour, (h.encodes _).day, (h.encodes _).month,
    (h.encodes _).year]
  rfl

theorem Holds.readRtc (h : Holds cmos mode moment) (n : Nat) :
    ∃ fuel₀, ∀ fuel, fuel₀ ≤ fuel → readRtc cmos 0 fuel n = .ok (decode 0 mode (mode.reading moment)) := by
  obtain ⟨k₁, clear₁⟩ := h.updates n
  obtain ⟨n₁, wait₁⟩ := awaitUpdate_returns clear₁
  obtain ⟨k₂, clear₂⟩ := h.updates (n₁ + 6)
  obtain ⟨n₂, wait₂⟩ := awaitUpdate_returns clear₂
  refine ⟨k₁ + k₂ + 1, fun fuel enough => ?_⟩
  obtain ⟨spare, rfl⟩ := Nat.exists_eq_add_of_le' enough
  unfold Time.readRtc
  rw [bind_eq (wait₁ _ (by omega)), h.readRegisters n₁]
  dsimp only
  have stable : readStable cmos 0 (spare + (k₁ + k₂ + 1)) (spare + (k₁ + k₂ + 1)) (mode.reading moment) (n₁ + 6) =
      .ok (mode.reading moment, n₂ + 6) := by
    rw [show spare + (k₁ + k₂ + 1) = spare + k₁ + k₂ + 1 by omega, readStable,
      bind_eq (wait₂ _ (by omega)), show (mode.reading moment).century = 0 from rfl, h.readRegisters n₂]
    dsimp only
    rw [if_pos rfl]
    rfl
  rw [bind_eq stable]
  dsimp only
  rw [(h.encodes _).registerB]
  rfl

/-! ### The decoder -/

theorem fromBcd_toBcd : ∀ v : Fin 100, fromBcd (.ofNat (toBcd v)) = .ofNat v := by decide +kernel

/-- The hour that comes out: both twelve o'clocks are taken for each other. -/
def shownHour (mode : Mode) (hour : Nat) : Nat :=
  if mode.hours24 then hour else if hour = 0 then 12 else if hour = 12 then 0 else hour

theorem hour_decoded : ∀ (binary hours24 : Bool) (hour : Fin 24),
    let mode : Mode := ⟨binary, hours24⟩
    let x := if !binary then hourFromBcd (mode.encodeHour hour) else mode.encodeHour hour
    (if !hours24 then hourFromTwelve x else x) = .ofNat (shownHour mode hour) := by
  decide +kernel

/-- The window of a hundred years that begins with the current one. -/
theorem year_decoded : ∀ (binary : Bool) (age : Fin 100),
    let register := (Mode.encode ⟨binary, true⟩ ((currentYear + age) % 100)).toUInt16
    fullYear 0 ⟨0, 0, 0, 0, 0, if !binary then yearFromBcd register else register, 0⟩ = .ofNat (currentYear + age) := by
  decide +kernel

theorem decode_reading (low : 2026 ≤ moment.year) (high : moment.year ≤ 2125) :
    decode 0 mode (mode.reading moment) =
      ⟨.ofNat moment.second, .ofNat moment.minute, .ofNat (shownHour mode moment.hour), .ofNat moment.day,
        .ofNat moment.month, .ofNat moment.year⟩ := by
  have plain : ∀ v < 100, (if !mode.binary then fromBcd (mode.encode v) else mode.encode v) = .ofNat v := by
    intro v lt
    unfold Mode.encode
    cases mode.binary with
    | false => exact fromBcd_toBcd ⟨v, lt⟩
    | true => rfl
  have day : moment.day < 100 := by
    have le := moment.day_le
    have month := monthLength_le moment.year moment.month
    omega
  have second := plain moment.second (Nat.lt_trans moment.second_lt (by decide))
  have minute := plain moment.minute (Nat.lt_trans moment.minute_lt (by decide))
  have month := plain moment.month (Nat.lt_of_le_of_lt moment.month_le (by decide))
  have day := plain moment.day day
  have hour := hour_decoded mode.binary mode.hours24 ⟨moment.hour, moment.hour_lt⟩
  have year := year_decoded mode.binary ⟨moment.year - currentYear, by unfold currentYear; omega⟩
  dsimp only at hour year
  have window : currentYear + (moment.year - currentYear) = moment.year := Nat.add_sub_cancel' low
  rw [window] at year
  obtain ⟨binary, hours24⟩ := mode
  cases binary with
  | false => exact Rtc.mk.injEq .. ▸ ⟨second, minute, hour, day, month, year⟩
  | true => exact Rtc.mk.injEq .. ▸ ⟨second, minute, hour, day, month, year⟩

theorem shownHour_lt (mode : Mode) {hour : Nat} (lt : hour < 24) : shownHour mode hour < 24 := by
  unfold shownHour
  split_ifs <;> omega

theorem shownHour_eq_iff (mode : Mode) (hour : Nat) :
    shownHour mode hour = hour ↔ mode.hours24 = true ∨ hour ≠ 0 ∧ hour ≠ 12 := by
  unfold shownHour
  cases mode.hours24 with
  | true => simp
  | false =>
    simp only [Bool.false_eq_true, if_false, false_or]
    split_ifs <;> omega

/-- `read_rtc` comes back with the moment that the chip holds, unless the chip counts to twelve and it
is past noon or past midnight by less than an hour. -/
theorem readRtc_shows_iff (h : Holds cmos mode moment) (low : 2026 ≤ moment.year) (high : moment.year ≤ 2125)
    (n : Nat) : ∃ fuel₀ r, (∀ fuel, fuel₀ ≤ fuel → readRtc cmos 0 fuel n = .ok r) ∧
      (Shows r moment ↔ mode.hours24 = true ∨ moment.hour ≠ 0 ∧ moment.hour ≠ 12) := by
  obtain ⟨fuel₀, run⟩ := h.readRtc n
  refine ⟨fuel₀, _, run, ?_⟩
  rw [decode_reading low high, ← shownHour_eq_iff]
  have hour_lt := shownHour_lt mode moment.hour_lt
  have day : moment.day ≤ 31 := moment.day_le.trans (monthLength_le _ _)
  constructor
  · intro shows
    have hour := shows.hour
    rwa [UInt8.toNat_ofNat_of_lt' (Nat.lt_trans hour_lt (by decide))] at hour
  · intro same
    rw [same]
    exact ⟨UInt8.toNat_ofNat_of_lt' (Nat.lt_trans moment.second_lt (by decide)),
      UInt8.toNat_ofNat_of_lt' (Nat.lt_trans moment.minute_lt (by decide)),
      UInt8.toNat_ofNat_of_lt' (Nat.lt_trans moment.hour_lt (by decide)),
      UInt8.toNat_ofNat_of_lt' (Nat.lt_of_le_of_lt day (by decide)),
      UInt8.toNat_ofNat_of_lt' (Nat.lt_of_le_of_lt moment.month_le (by decide)),
      UInt16.toNat_ofNat_of_lt' (Nat.lt_of_le_of_lt high (by decide))⟩

/-! ### Two moments of a day -/

/-- A chip that counts to twelve in BCD and stands still at the given hour of the first of January 2026. -/
def stillRegisters (hour : Fin 24) (reg : Nat) : UInt8 :=
  if reg = 0x04 then Mode.encodeHour ⟨false, false⟩ hour
  else if reg = 0x07 ∨ reg = 0x08 then 1
  else if reg = 0x09 then 0x26
  else 0

def stillChip (hour : Fin 24) : Cmos := fun _ => stillRegisters hour

theorem january_le : 1 ≤ 12 := by decide

def newYear (hour : Fin 24) : Moment :=
  ⟨⟨2026, 1, 1, by decide, Nat.one_pos, january_le, Nat.one_pos, by decide⟩, hour, 0, 0, hour.isLt, by decide, by decide⟩

theorem stillRegisters_encodes (hour : Fin 24) :
    Mode.Encodes ⟨false, false⟩ (newYear hour) (stillRegisters hour) := by
  refine ⟨?_, ?_, rfl, ?_, ?_, ?_, ?_⟩
  all_goals
    revert hour
    decide +kernel

theorem stillChip_holds (hour : Fin 24) : Holds (stillChip hour) ⟨false, false⟩ (newYear hour) :=
  ⟨fun _ => stillRegisters_encodes hour, fun _ => ⟨0, show decide ((0 : UInt8) &&& 0x80 ≠ 0) = false by decide⟩⟩

theorem readRtc_shows_evening : ∃ fuel₀ r, (∀ fuel, fuel₀ ≤ fuel → readRtc (stillChip 19) 0 fuel 0 = .ok r) ∧
    Shows r (newYear 19) := by
  obtain ⟨fuel₀, r, run, iff⟩ := readRtc_shows_iff (stillChip_holds 19) (by decide) (by decide) 0
  exact ⟨fuel₀, r, run, iff.mpr (.inr (by decide))⟩

/-- At noon the chip says 12 with the PM flag, and `read_rtc` says midnight. -/
theorem readRtc_noon : Holds (stillChip 12) ⟨false, false⟩ (newYear 12) ∧ stillChip 12 0 0x04 = 0x92 ∧
    (readRtc (stillChip 12) 0 2 0).toOption = some ⟨0, 0, 0, 1, 1, 2026⟩ ∧ ¬ Shows ⟨0, 0, 0, 1, 1, 2026⟩ (newYear 12) :=
  ⟨stillChip_holds 12, by decide, by decide +kernel, fun shows => absurd shows.hour (by decide)⟩

end Voyager.Time
