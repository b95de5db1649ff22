import Voyager.Lib.Cells
import Voyager.Lib.Decimal
import Voyager.Machine

/-!
# Unsigned decimal conversion

`u64_to_str` of `int2srt.c`, which `putchar.c` repeats, and `str2int2`. An access outside of
`tmp` has no result.
-/

namespace Voyager.Libc

open Lib

def tmpSize : Nat := 21

theorem tenth_pos_iff (val : UInt64) : val / 10 > 0 ↔ 10 ≤ val.toNat := by
  rw [gt_iff_lt, UInt64.lt_iff_toNat_lt, UInt64.toNat_div]
  exact Nat.div_pos_iff.trans (and_iff_right (by decide))

def u64Digits (val : UInt64) (i : Nat) (tmp : Nat → UInt8) : Option (Nat × (Nat → UInt8)) :=
  if i < tmpSize then
    let tmp := Function.update tmp i (48 + val % 10).toUInt8
    if val / 10 > 0 then u64Digits (val / 10) (i + 1) tmp else some (i + 1, tmp)
  else none
termination_by val.toNat
decreasing_by
  rename_i more
  rw [tenth_pos_iff] at more
  exact Nat.div_lt_self (Nat.lt_of_lt_of_le (by decide) more) (by decide)

/-- `for (j = ..; j < i; j++) buf[j] = tmp[i - j - 1]`, with the number of steps that are left. -/
def copyReversed (tmp : Nat → UInt8) (i j : Nat) (buf : Nat → UInt8) : Nat → Option (Nat → UInt8)
  | 0 => some buf
  | left + 1 =>
    if i - j - 1 < tmpSize then copyReversed tmp i (j + 1) (Function.update buf j (tmp (i - j - 1))) left
    else none

/-- `u64_to_str`, with what the stack holds where `tmp` is. -/
def u64ToStr (val : UInt64) (tmp buf : Nat → UInt8) : Option (Nat → UInt8) := do
  let (i, tmp) ← u64Digits val 0 tmp
  let buf := Function.update buf i 0
  let buf ← copyReversed tmp i 0 buf i
  return Function.update buf i 0

/-- `uint64_t digit = c - '0'`; a `char` has a sign. -/
def digitOf (c : UInt8) : UInt64 := (c.toInt8.toInt64 - 48).toUInt64

def str2int2From (str : Nat → UInt8) (res : UInt64) (i : Nat) : Nat → Kernel UInt64
  | 0 => .error .endless
  | fuel + 1 => if str i ≠ 0 then str2int2From str (res * 10 + digitOf (str i)) (i + 1) fuel else .ok res

/-- `str2int2`; `fuel` bounds the characters. -/
def str2int2 (str : Nat → UInt8) (fuel : Nat) : Kernel UInt64 := str2int2From str 0 0 fuel

variable {tmp buf str : Nat → UInt8} {i j left : Nat} {text : List UInt8}

theorem digit_eq (val : UInt64) : (48 + val % 10).toUInt8 = digitCode (val.toNat % 10) := by
  apply UInt8.toNat_inj.mp
  simp [digitCode]

theorem u64Digits_loop : DigitLoop u64Digits (fun val n => val.toNat = n) (· < tmpSize) where
  last {val n i} tmp denotes small inside := by
    subst denotes
    have stop : ¬ val / 10 > 0 := by
      rw [tenth_pos_iff]
      omega
    rw [u64Digits, if_pos inside, if_neg stop, digit_eq, Nat.mod_eq_of_lt small]
  next {val n i} tmp denotes large inside := by
    subst denotes
    refine ⟨val / 10, UInt64.toNat_div val 10, ?_⟩
    rw [u64Digits, if_pos inside, if_pos ((tenth_pos_iff val).mpr large), digit_eq]

theorem copyReversed_eq (tmp buf : Nat → UInt8) (whole : j + left = i) (fits : i ≤ tmpSize) :
    ∃ buf', copyReversed tmp i j buf left = some buf' ∧
      ∀ k, buf' k = if j ≤ k ∧ k < i then tmp (i - 1 - k) else buf k := by
  induction left generalizing j buf with
  | zero => exact ⟨buf, rfl, fun k => by rw [if_neg (by omega)]⟩
  | succ left ih =>
    obtain ⟨buf', run, shows⟩ := ih (j := j + 1) (Function.update buf j (tmp (i - j - 1))) (by omega)
    refine ⟨buf', ?_, fun k => ?_⟩
    · rw [copyReversed, if_pos (by omega), run]
    · rw [shows]
      by_cases here : k = j
      · subst here
        rw [if_neg (by omega), if_pos (by omega), Function.update_self, Nat.sub_right_comm]
      · rw [Function.update_of_ne here]
        simp only [show j + 1 ≤ k ∧ k < i ↔ j ≤ k ∧ k < i by omega]

theorem u64ToStr_eq (val : UInt64) (tmp buf : Nat → UInt8) :
    ∃ buf', u64ToStr val tmp buf = some buf' ∧ CString buf' (decimal val.toNat) ∧
      ∀ k, (decimal val.toNat).length < k → buf' k = buf k := by
  have digits : (decimal val.toNat).length ≤ 20 := by
    apply (decimal_length_le_iff (by decide)).mpr
    have := val.toNat_lt
    omega
  have room : ∀ k < (decimal val.toNat).length, 0 + k < tmpSize := fun k lt => by
    unfold tmpSize
    omega
  obtain ⟨tmp', filled, shows⟩ := u64Digits_loop.eq tmp rfl room
  rw [Nat.zero_add] at filled shows
  obtain ⟨buf', copied, cells⟩ := copyReversed_eq tmp' (Function.update buf (decimal val.toNat).length 0)
    (Nat.zero_add (decimal val.toNat).length) (digits.trans (by decide))
  have text : front buf' (decimal val.toNat).length = decimal val.toNat := by
    have same : front buf' (decimal val.toNat).length = (front tmp' (decimal val.toNat).length).reverse := by
      rw [front_reverse]
      apply front_congr
      intro k lt
      rw [cells, if_pos ⟨Nat.zero_le k, lt⟩]
    rw [same, shows, front_zero, List.nil_append, List.reverse_reverse]
  refine ⟨Function.update buf' (decimal val.toNat).length 0, ?_, ⟨?_, ?_, zero_notMem_decimal _⟩, ?_⟩
  · simp only [u64ToStr, filled, copied, Option.bind_eq_bind, Option.bind_some, Option.pure_def]
  · rw [front_update, text]
  · exact Function.update_self ..
  · intro k lt
    rw [Function.update_of_ne (by omega), cells, if_neg (by omega), Function.update_of_ne (by omega)]

theorem str2int2From_eq (h : CString str text) {res : UInt64} {fuel : Nat} (inside : i ≤ text.length)
    (enough : text.length < i + fuel) :
    str2int2From str res i fuel = .ok ((text.drop i).foldl (fun r c => r * 10 + digitOf c) res) := by
  induction fuel generalizing i res with
  | zero => omega
  | succ fuel ih =>
    rw [str2int2From]
    by_cases last : i = text.length
    · subst last
      rw [if_neg (not_not.mpr h.stop), List.drop_length, List.foldl_nil]
    · have lt : i < text.length := by omega
      rw [if_pos (h.ne_zero lt), ih (by omega) (by omega), List.drop_eq_getElem_cons lt, List.foldl_cons, h.get lt]

theorem digitOf_digitCode (d : Nat) (lt : d < 10) : digitOf (digitCode d) = UInt64.ofNat d := by
  have all : ∀ d < 10, digitOf (digitCode d) = UInt64.ofNat d := by decide
  exact all d lt

theorem str2int2_decimal {n fuel : Nat} (h : CString str (decimal n)) (enough : (decimal n).length < fuel) :
    str2int2 str fuel = .ok (UInt64.ofNat n) := by
  have read := foldl_decimal UInt64.ofNat (fun r c => r * 10 + digitOf c) (fun r d lt => by
    rw [digitOf_digitCode d lt, UInt64.ofNat_add, UInt64.ofNat_mul]
    rfl) n
  rw [str2int2, str2int2From_eq h (Nat.zero_le _) (by omega), List.drop_zero]
  exact congrArg Except.ok read

/-- Every 64-bit number is written in canonical decimal notation of at most 20 digits and read back. -/
theorem u64ToStr_round_trip (v : UInt64) (tmp buf : Nat → UInt8) :
    ∃ buf', u64ToStr v tmp buf = some buf' ∧ CString buf' (decimal v.toNat) ∧ Canonical (decimal v.toNat) ∧
      (decimal v.toNat).length ≤ 20 ∧ (∀ k, (decimal v.toNat).length < k → buf' k = buf k) ∧
      ∀ fuel, (decimal v.toNat).length < fuel → str2int2 buf' fuel = .ok v := by
  obtain ⟨buf', run, string, kept⟩ := u64ToStr_eq v tmp buf
  refine ⟨buf', run, string, decimal_canonical _, ?_, kept, fun fuel enough => ?_⟩
  · apply (decimal_length_le_iff (by decide)).mpr
    have := v.toNat_lt
    omega
  · rw [str2int2_decimal string enough, UInt64.ofNat_toNat]

end Voyager.Libc
