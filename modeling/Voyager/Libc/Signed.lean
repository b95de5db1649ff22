import Voyager.Libc.Decimal

/-!
# Signed decimal conversion

The negation of the least number is that number again, and the loop stops after one digit of
it, which is negative.
-/

namespace Voyager.Libc

open Lib

/-- `'0' + digit` as a `char`. -/
def intDigit (digit : Int32) : UInt8 := (48 + digit).toUInt32.toUInt8

theorem toInt_tenth (value : Int32) : (value / 10).toInt = value.toInt.tdiv 10 :=
  Int32.toInt_div_of_ne_right value 10 (by decide)

theorem int_tenth_pos_iff (value : Int32) : value / 10 > 0 ↔ 10 ≤ value.toInt := by
  rw [gt_iff_lt, Int32.lt_iff_toInt_lt, toInt_tenth]
  change 0 < value.toInt.tdiv 10 ↔ _
  rcases Int.le_total 0 value.toInt with nonneg | nonpos
  · rw [Int.tdiv_eq_ediv_of_nonneg nonneg]
    omega
  · rw [← Int.neg_neg value.toInt, Int.neg_tdiv, Int.tdiv_eq_ediv_of_nonneg (by omega)]
    omega

def intDigits (value : Int32) (i : Nat) (buffer : Nat → UInt8) : Nat × (Nat → UInt8) :=
  let buffer := Function.update buffer i (intDigit (value % 10))
  if value / 10 > 0 then intDigits (value / 10) (i + 1) buffer else (i + 1, buffer)
termination_by value.toInt.toNat
decreasing_by
  rename_i more
  rw [int_tenth_pos_iff] at more
  rw [toInt_tenth, Int.tdiv_eq_ediv_of_nonneg (by omega)]
  omega

/-- `for (j = ..; j < i / 2; j++)`, with the number of swaps that are left. -/
def reverseFrom (buffer : Nat → UInt8) (i j : Nat) : Nat → Nat → UInt8
  | 0 => buffer
  | left + 1 =>
    let tmp := buffer j
    let buffer := Function.update buffer j (buffer (i - j - 1))
    let buffer := Function.update buffer (i - j - 1) tmp
    reverseFrom buffer i (j + 1) left

def intToStr (value : Int32) (buffer : Nat → UInt8) : Nat → UInt8 :=
  let isNegative := value < 0
  let value := if isNegative then -value else value
  let (i, buffer) := intDigits value 0 buffer
  let (i, buffer) := if isNegative then (i + 1, Function.update buffer i 45) else (i, buffer)
  let buffer := Function.update buffer i 0
  reverseFrom buffer i 0 (i / 2)

def str2intFrom (str : Nat → UInt8) (result : Int32) (i : Nat) : Nat → Kernel Int32
  | 0 => .error .endless
  | fuel + 1 =>
    if str i ≠ 0 then
      if (str i).toInt8 < 48 ∨ (str i).toInt8 > 57 then .ok 0
      else str2intFrom str (result * 10 + ((str i).toInt8.toInt32 - 48)) (i + 1) fuel
    else .ok result

/-- `str2int`; `fuel` bounds the characters. -/
def str2int (str : Nat → UInt8) (fuel : Nat) : Kernel Int32 := str2intFrom str 0 0 fuel

def signedDecimal (z : Int) : List UInt8 := if z < 0 then 45 :: decimal z.natAbs else decimal z.natAbs

variable {buffer str : Nat → UInt8} {i j left : Nat} {text : List UInt8}

theorem intDigit_eq {value : Int32} {n : Nat} (denotes : value.toInt = n) :
    intDigit (value % 10) = digitCode (n % 10) := by
  have lt : n % 10 < 10 := Nat.mod_lt _ (by decide)
  have digit : value % 10 = Int32.ofNat (n % 10) := by
    apply Int32.toInt_inj.mp
    rw [Int32.toInt_mod, denotes, Int32.toInt_ofNat_of_lt (by omega)]
    rfl
  have all : ∀ d < 10, intDigit (Int32.ofNat d) = digitCode d := by decide
  rw [digit, all _ lt]

theorem intDigits_loop :
    DigitLoop (fun value i buffer => some (intDigits value i buffer)) (fun value n => value.toInt = n) fun _ => True where
  last {value n i} buffer denotes small _ := by
    have stop : ¬ value / 10 > 0 := by
      rw [int_tenth_pos_iff]
      omega
    rw [intDigits, if_neg stop, intDigit_eq denotes, Nat.mod_eq_of_lt small]
  next {value n i} buffer denotes large _ := by
    refine ⟨value / 10, ?_, ?_⟩
    · rw [toInt_tenth, denotes]
      rfl
    · rw [intDigits, if_pos ((int_tenth_pos_iff value).mpr (by omega)), intDigit_eq denotes]

theorem reverseFrom_eq (buffer : Nat → UInt8) (half : 2 * (j + left) ≤ i) (k : Nat) :
    reverseFrom buffer i j left k =
      if j ≤ k ∧ k < j + left ∨ i - (j + left) ≤ k ∧ k < i - j then buffer (i - 1 - k) else buffer k := by
  induction left generalizing j buffer with
  | zero => rw [reverseFrom, if_neg (by omega)]
  | succ left ih =>
    rw [reverseFrom, ih _ (by omega)]
    by_cases low : k = j
    · subst low
      rw [if_neg (by omega), if_pos (by omega), Function.update_of_ne (by omega), Function.update_self, Nat.sub_right_comm]
    · by_cases high : k = i - j - 1
      · subst high
        rw [if_neg (by omega), if_pos (by omega), Function.update_self]
        congr 1
        omega
      · simp only [show j ≤ k ∧ k < j + (left + 1) ∨ i - (j + (left + 1)) ≤ k ∧ k < i - j ↔
          j + 1 ≤ k ∧ k < j + 1 + left ∨ i - (j + 1 + left) ≤ k ∧ k < i - (j + 1) by omega]
        split
        · rw [Function.update_of_ne (by omega), Function.update_of_ne (by omega)]
        · rw [Function.update_of_ne high, Function.update_of_ne low]

theorem reverse_front (buffer : Nat → UInt8) (i : Nat) :
    front (reverseFrom buffer i 0 (i / 2)) i = (front buffer i).reverse := by
  rw [front_reverse]
  apply front_congr
  intro k lt
  rw [reverseFrom_eq buffer (by omega)]
  split
  · rfl
  · congr 1
    omega

theorem reverse_stop (buffer : Nat → UInt8) (i : Nat) : reverseFrom buffer i 0 (i / 2) i = buffer i := by
  rw [reverseFrom_eq buffer (by omega), if_neg (by omega)]

theorem reverse_cstring (shows : front buffer i = text.reverse) (length : text.length = i) (plain : 0 ∉ text) :
    CString (reverseFrom (Function.update buffer i 0) i 0 (i / 2)) text := by
  subst length
  constructor
  · rw [reverse_front, front_update, shows, List.reverse_reverse]
  · rw [reverse_stop, Function.update_self]
  · exact plain

theorem intToStr_nonneg {value : Int32} {n : Nat} (denotes : value.toInt = n) (buffer : Nat → UInt8) :
    CString (intToStr value buffer) (decimal n) := by
  have sign : ¬ value < 0 := by
    rw [Int32.lt_iff_toInt_lt, denotes]
    exact Int.not_lt.mpr (Int.natCast_nonneg n)
  obtain ⟨buffer', run, shows⟩ := intDigits_loop.eq (i := 0) buffer denotes fun _ _ => trivial
  rw [Nat.zero_add, Option.some.injEq] at run
  rw [Nat.zero_add, front_zero, List.nil_append] at shows
  unfold intToStr
  simp only [sign, if_false, run]
  exact reverse_cstring shows rfl (zero_notMem_decimal n)

theorem intToStr_negative {value : Int32} {n : Nat} (denotes : (-value).toInt = n) (negative : value < 0)
    (buffer : Nat → UInt8) : CString (intToStr value buffer) (45 :: decimal n) := by
  obtain ⟨buffer', run, shows⟩ := intDigits_loop.eq (i := 0) buffer denotes fun _ _ => trivial
  rw [Nat.zero_add, Option.some.injEq] at run
  rw [Nat.zero_add, front_zero, List.nil_append] at shows
  unfold intToStr
  simp only [negative, if_true, run]
  apply reverse_cstring
  · rw [front_push, shows, List.reverse_cons]
  · exact List.length_cons
  · simp [zero_notMem_decimal]

/-- The sign and one character that is no digit. -/
theorem intToStr_minValue (buffer : Nat → UInt8) : CString (intToStr Int32.minValue buffer) [45, 40] := by
  have negative : Int32.minValue < 0 := by decide
  have run : intDigits (-Int32.minValue) 0 buffer = (1, Function.update buffer 0 40) := by
    rw [intDigits, if_neg (by decide)]
    rfl
  unfold intToStr
  simp only [negative, if_true, run]
  apply reverse_cstring
  · rw [front_push, front_push]
    rfl
  · rfl
  · decide

theorem signedDecimal_minValue : signedDecimal Int32.minValue.toInt ≠ [45, 40] := by
  decide +kernel

theorem str2intFrom_eq (h : CString str text) (digits : ∀ c ∈ text, ∃ d < 10, c = digitCode d) {result : Int32}
    {fuel : Nat} (inside : i ≤ text.length) (enough : text.length < i + fuel) :
    str2intFrom str result i fuel = .ok ((text.drop i).foldl (fun r c => r * 10 + (c.toInt8.toInt32 - 48)) result) := by
  induction fuel generalizing i result with
  | zero => omega
  | succ fuel ih =>
    rw [str2intFrom]
    by_cases last : i = text.length
    · subst last
      rw [if_neg (not_not.mpr h.stop), List.drop_length, List.foldl_nil]
    · have lt : i < text.length := by omega
      have accepted : ¬ ((str i).toInt8 < 48 ∨ (str i).toInt8 > 57) := by
        obtain ⟨d, small, code⟩ := digits _ (List.getElem_mem lt)
        rw [h.get lt, code]
        have all : ∀ d < 10, ¬ ((digitCode d).toInt8 < 48 ∨ (digitCode d).toInt8 > 57) := by decide
        exact all d small
      rw [if_pos (h.ne_zero lt), if_neg accepted, ih (by omega) (by omega), List.drop_eq_getElem_cons lt,
        List.foldl_cons, h.get lt]

theorem str2int_decimal {n fuel : Nat} (h : CString str (decimal n)) (enough : (decimal n).length < fuel) :
    str2int str fuel = .ok (Int32.ofNat n) := by
  have digits : ∀ d < 10, (digitCode d).toInt8.toInt32 - 48 = Int32.ofNat d := by decide
  have read := foldl_decimal Int32.ofNat (fun r c => r * 10 + (c.toInt8.toInt32 - 48)) (fun r d lt => by
    rw [digits d lt, Int32.ofNat_add, Int32.ofNat_mul]
    rfl) n
  rw [str2int, str2intFrom_eq h (fun _ => mem_decimal) (Nat.zero_le _) (by omega), List.drop_zero]
  exact congrArg Except.ok read

/-- The buffer holds the decimal notation of the number, and one that is not negative is read back. -/
def Converts (v : Int32) (buffer : Nat → UInt8) : Prop :=
  CString (intToStr v buffer) (signedDecimal v.toInt) ∧
    (0 ≤ v.toInt → ∀ fuel, (signedDecimal v.toInt).length < fuel → str2int (intToStr v buffer) fuel = .ok v)

/-- The conversion is right for every number but the least one. -/
theorem intToStr_converts_iff (v : Int32) (buffer : Nat → UInt8) : Converts v buffer ↔ v ≠ Int32.minValue := by
  constructor
  · rintro ⟨string, _⟩ rfl
    exact signedDecimal_minValue (string.unique (intToStr_minValue buffer))
  · intro other
    rcases Int.lt_or_le v.toInt 0 with negative | nonneg
    · have sign : v < 0 := Int32.lt_iff_toInt_lt.mpr negative
      have opposite : (-v).toInt = (v.toInt.natAbs : Int) := by
        have low := v.le_toInt
        have least : v.toInt ≠ -2 ^ 31 := fun h => other (Int32.toInt_inj.mp h)
        rw [Int32.toInt_neg, Int.bmod_eq_of_le] <;> omega
      refine ⟨?_, fun nonneg => absurd negative (Int.not_lt.mpr nonneg)⟩
      rw [signedDecimal, if_pos negative]
      exact intToStr_negative opposite sign buffer
    · have denotes : v.toInt = (v.toInt.natAbs : Int) := by omega
      have string := intToStr_nonneg denotes buffer
      unfold Converts signedDecimal
      rw [if_neg (Int.not_lt.mpr nonneg)]
      refine ⟨string, fun _ fuel enough => ?_⟩
      rw [str2int_decimal string enough, ← Int32.ofInt_eq_ofNat, ← denotes, Int32.ofInt_toInt]

theorem intToStr_fails_at_minValue : CString (intToStr Int32.minValue fun _ => 0) [45, 40] ∧
    ¬ Converts Int32.minValue fun _ => 0 := by
  refine ⟨intToStr_minValue _, ?_⟩
  rintro ⟨string, _⟩
  exact signedDecimal_minValue (string.unique (intToStr_minValue _))

end Voyager.Libc
