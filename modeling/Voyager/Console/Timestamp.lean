import Voyager.Console.Serial
import Voyager.Libc.Decimal

/-!
# Timestamps

The milliseconds are right as long as the product of the ticks and 1000 does not wrap.
-/

namespace Voyager.LogBuffer

open Lib

def tsbufSize : Nat := 32

/-- What `for (p = tsbuf; *p; p++)` sends, with the number of elements that are left. -/
def tsbufChars (tsbuf : Nat → UInt8) (i : Nat) : Nat → Option (List Char)
  | 0 => none
  | left + 1 =>
    if tsbuf i ≠ 0 then do return Char.ofUInt8 (tsbuf i) :: (← tsbufChars tsbuf (i + 1) left)
    else return []

/-- `flush_serial_line` with its arrays as the stack holds them; nothing if it leaves one of them. -/
def flushSerialLineBytes (b : LogBuffer) (ticks : UInt64) (tmp tsbuf : Nat → UInt8) : Option (List Char × LogBuffer) :=
  if b.loglen = 0 then some ([], b)
  else do
    let tsbuf ← Libc.u64ToStr (UInt64.ofNat (ticksToMs ticks.toNat)) tmp tsbuf
    return b.sendLine (← tsbufChars tsbuf 0 tsbufSize)

variable {b : LogBuffer} {ticks t₁ t₂ : UInt64} {tmp tsbuf : Nat → UInt8} {text : List UInt8} {i left : Nat}

theorem tsbufChars_eq (h : CString tsbuf text) (inside : i ≤ text.length) (room : text.length < i + left) :
    tsbufChars tsbuf i left = some ((text.drop i).map Char.ofUInt8) := by
  induction left generalizing i with
  | zero => omega
  | succ left ih =>
    rw [tsbufChars]
    by_cases last : i = text.length
    · subst last
      rw [if_neg (not_not.mpr h.stop), List.drop_length]
      rfl
    · have lt : i < text.length := by omega
      rw [if_pos (h.ne_zero lt), ih (by omega) (by omega), List.drop_eq_getElem_cons lt, List.map_cons, h.get lt]
      rfl

theorem ofUInt8_decimal (n : Nat) : (decimal n).map Char.ofUInt8 = (toString n).toList := by
  have digits : ∀ d < 10, Char.ofUInt8 (digitCode d) = Nat.digitChar d := by decide
  rw [Nat.toString_eq_repr, Nat.toList_repr]
  induction n using decimal_induction with
  | single n lt => rw [decimal_of_lt lt, Nat.toDigits_of_lt_base lt, List.map_singleton, digits n lt]
  | more n le ih =>
    rw [decimal_of_le le, Nat.toDigits_of_base_le (by decide) le, List.map_append, ih, List.map_singleton,
      digits _ (Nat.mod_lt n (by decide))]

theorem ticksToMs_lt (ticks : Nat) : ticksToMs ticks < 2 ^ 64 := by
  unfold ticksToMs tscHz
  omega

theorem flushSerialLineBytes_eq (b : LogBuffer) (ticks : UInt64) (tmp tsbuf : Nat → UInt8) :
    b.flushSerialLineBytes ticks tmp tsbuf = some (b.flushSerialLine ticks.toNat) := by
  obtain ⟨tsbuf', run, string, _⟩ := Libc.u64ToStr_eq (UInt64.ofNat (ticksToMs ticks.toNat)) tmp tsbuf
  have value : (UInt64.ofNat (ticksToMs ticks.toNat)).toNat = ticksToMs ticks.toNat :=
    UInt64.toNat_ofNat_of_lt' (ticksToMs_lt _)
  rw [value] at string
  have short : (decimal (ticksToMs ticks.toNat)).length ≤ 20 := by
    apply (decimal_length_le_iff (by decide)).mpr
    exact (ticksToMs_lt _).trans (by decide)
  have sends := tsbufChars_eq (i := 0) string (Nat.zero_le _) (show _ < 0 + tsbufSize by unfold tsbufSize; omega)
  rw [List.drop_zero, ofUInt8_decimal] at sends
  unfold flushSerialLineBytes flushSerialLine
  split
  · rfl
  · simp only [run, sends, Option.bind_eq_bind, Option.bind_some, Option.pure_def]

/-- The line goes out with the stamp `ms`. -/
def Prints (b : LogBuffer) (ticks : UInt64) (tmp tsbuf : Nat → UInt8) (ms : Nat) : Prop :=
  ∃ b', b.flushSerialLineBytes ticks tmp tsbuf =
    some (['['] ++ (decimal ms).map Char.ofUInt8 ++ "ms] ".toList ++ b.text ++ ['\n'], b')

theorem prints_ticksToMs (some : b.loglen ≠ 0) (ticks : UInt64) (tmp tsbuf : Nat → UInt8) :
    b.Prints ticks tmp tsbuf (ticksToMs ticks.toNat) := by
  have run := flushSerialLineBytes_eq b ticks tmp tsbuf
  unfold flushSerialLine sendLine at run
  dsimp only at run
  rw [if_neg some, text_store, ← ofUInt8_decimal] at run
  exact ⟨_, run⟩

theorem Prints.unique {ms ms' : Nat} (h : b.Prints ticks tmp tsbuf ms) (h' : b.Prints ticks tmp tsbuf ms') :
    ms = ms' := by
  obtain ⟨b₁, run₁⟩ := h
  obtain ⟨b₂, run₂⟩ := h'
  have same := congrArg Prod.fst (Option.some.inj (run₁.symm.trans run₂))
  simp only [List.append_cancel_left_eq, List.append_cancel_right_eq] at same
  rw [ofUInt8_decimal, ofUInt8_decimal, Nat.toString_eq_repr, Nat.toString_eq_repr, Nat.toList_repr,
      Nat.toList_repr] at same
  rw [← Nat.ofDigitChars_ten_toDigits (n := ms), same, Nat.ofDigitChars_ten_toDigits]

def milliseconds (ticks : UInt64) : Nat := ticks.toNat * 1000 / tscHz

theorem milliseconds_mono (le : t₁ ≤ t₂) : milliseconds t₁ ≤ milliseconds t₂ :=
  Nat.div_le_div_right (Nat.mul_le_mul_right _ (UInt64.le_iff_toNat_le.mp le))

/-- A wrapped product never gives the right number, because the wrap loses more than a millisecond. -/
theorem ticksToMs_eq_iff (ticks : UInt64) :
    ticksToMs ticks.toNat = milliseconds ticks ↔ ticks.toNat * 1000 < 2 ^ 64 := by
  unfold ticksToMs milliseconds tscHz
  omega

/-- Both readings are printed as their milliseconds, and the earlier one not as the later. -/
def InOrder (b : LogBuffer) (t₁ t₂ : UInt64) (tmp tsbuf : Nat → UInt8) : Prop :=
  b.Prints t₁ tmp tsbuf (milliseconds t₁) ∧ b.Prints t₂ tmp tsbuf (milliseconds t₂) ∧
    (t₁ ≤ t₂ → milliseconds t₁ ≤ milliseconds t₂)

/-- The stamps are right exactly as long as the product with 1000 does not wrap. -/
theorem stamps_inOrder_iff (some : b.loglen ≠ 0) (t₁ t₂ : UInt64) (tmp tsbuf : Nat → UInt8) :
    b.InOrder t₁ t₂ tmp tsbuf ↔ t₁.toNat * 1000 < 2 ^ 64 ∧ t₂.toNat * 1000 < 2 ^ 64 := by
  rw [← ticksToMs_eq_iff, ← ticksToMs_eq_iff]
  constructor
  · rintro ⟨first, second, _⟩
    exact ⟨(prints_ticksToMs some t₁ tmp tsbuf).unique first, (prints_ticksToMs some t₂ tmp tsbuf).unique second⟩
  · rintro ⟨first, second⟩
    refine ⟨first ▸ prints_ticksToMs some t₁ tmp tsbuf, second ▸ prints_ticksToMs some t₂ tmp tsbuf, ?_⟩
    exact milliseconds_mono

def oneChar : LogBuffer := ⟨fun _ => 'x', 1, []⟩

theorem stamps_inOrder_boot : oneChar.InOrder 4000000 6000000 (fun _ => 0) fun _ => 0 := by
  apply (stamps_inOrder_iff (by decide) 4000000 6000000 (fun _ => 0) fun _ => 0).mpr
  decide

/-- After 106 days the stamp starts again at zero. -/
theorem stamps_restart : oneChar.Prints 18446744073709551 (fun _ => 0) (fun _ => 0) 9223372036 ∧
    oneChar.Prints 18446744073709552 (fun _ => 0) (fun _ => 0) 0 ∧
    ¬ oneChar.InOrder 18446744073709551 18446744073709552 (fun _ => 0) fun _ => 0 := by
  have before := prints_ticksToMs (b := oneChar) (by decide) 18446744073709551 (fun _ => 0) fun _ => 0
  have after := prints_ticksToMs (b := oneChar) (by decide) 18446744073709552 (fun _ => 0) fun _ => 0
  have last : ticksToMs (18446744073709551 : UInt64).toNat = 9223372036 := by decide
  have first : ticksToMs (18446744073709552 : UInt64).toNat = 0 := by decide
  rw [last] at before
  rw [first] at after
  refine ⟨before, after, ?_⟩
  rintro ⟨_, right, _⟩
  have same := after.unique right
  revert same
  decide

end Voyager.LogBuffer
