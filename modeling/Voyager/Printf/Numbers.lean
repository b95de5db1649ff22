import Mathlib.Data.Nat.Digits.Lemmas
import Voyager.Printf.Text

/-!
# How numbers are laid out

`layout` is the field that the C standard asks for. The code builds it backwards in a buffer
of 32 characters. Where that has no room, and where the `#` flag meets digits in the place of
the zeros it expects, another text is printed.
-/

namespace Voyager.Printf

def digitsOf (base value : Nat) : List Nat := if value = 0 then [0] else Nat.digits base value

def numeral (uppercase : Bool) (base value : Nat) : List UInt8 :=
  ((digitsOf base value).map (digitChar uppercase)).reverse

def digitValue (c : UInt8) : Nat :=
  if c ≤ '9'.toUInt8 then (c - '0'.toUInt8).toNat
  else if c ≤ 'F'.toUInt8 then (c - 'A'.toUInt8).toNat + 10
  else (c - 'a'.toUInt8).toNat + 10

def readBack (base : Nat) (text : List UInt8) : Nat := Nat.ofDigits base (text.reverse.map digitValue)

def signText (negative : Bool) (flags : Flags) : List UInt8 :=
  if negative then ['-'.toUInt8] else if flags.plus then ['+'.toUInt8] else if flags.space then [' '.toUInt8] else []

def basePrefix (value base : Nat) (flags : Flags) : List UInt8 :=
  if flags.hash ∧ value ≠ 0 ∧ base = 16 then ['0'.toUInt8, if flags.uppercase then 'X'.toUInt8 else 'x'.toUInt8] else []

/-- No digits for a zero under an explicit precision. -/
def digitText (value base : Nat) (flags : Flags) : List UInt8 :=
  if flags.precision ∧ value = 0 then [] else numeral flags.uppercase base value

def layout (lead digits : List UInt8) (prec width : Nat) (flags : Flags) : List UInt8 :=
  let body := List.replicate (prec - digits.length) '0'.toUInt8 ++ digits
  let rest := width - (lead.length + body.length)
  if flags.left then lead ++ body ++ List.replicate rest ' '.toUInt8
  else if flags.zeropad then lead ++ List.replicate rest '0'.toUInt8 ++ body
  else List.replicate rest ' '.toUInt8 ++ lead ++ body

/-! ### Digits -/

section

variable {base value room : Nat} {uppercase : Bool}

theorem digitsOf_lt (one_lt : 1 < base) : ∀ d ∈ digitsOf base value, d < base := by
  intro d hd
  unfold digitsOf at hd
  split at hd
  · rw [List.mem_singleton.mp hd]
    omega
  · exact Nat.digits_lt_base one_lt hd

theorem ofDigits_digitsOf (base value : Nat) : Nat.ofDigits base (digitsOf base value) = value := by
  unfold digitsOf
  split
  · rename_i zero
    rw [zero, Nat.ofDigits_singleton]
  · exact Nat.ofDigits_digits base value

theorem ntoaDigits_eq (one_lt : 1 < base) (uppercase : Bool) (room value : Nat) :
    ntoaDigits uppercase base room value = ((digitsOf base value).take room).map (digitChar uppercase) := by
  induction room generalizing value with
  | zero => rw [List.take_zero]; rfl
  | succ room ih =>
    unfold ntoaDigits
    by_cases zero : value = 0
    · subst zero
      simp [digitsOf, Nat.zero_mod]
    · rw [show digitsOf base value = Nat.digits base value from if_neg zero, Nat.digits_eq_cons_digits_div one_lt zero,
        List.take_succ_cons, List.map_cons]
      congr 1
      split
      · rename_i last
        rw [last, Nat.digits_zero, List.take_nil, List.map_nil]
      · rename_i more
        rw [ih, show digitsOf base (value / base) = Nat.digits base (value / base) from if_neg more]

theorem digitValue_digitChar (uppercase : Bool) : ∀ d < 16, digitValue (digitChar uppercase d) = d := by
  cases uppercase <;> decide

theorem map_digitValue {digits : List Nat} (lt : ∀ d ∈ digits, d < 16) :
    (digits.map (digitChar uppercase)).map digitValue = digits := by
  rw [List.map_map]
  exact (List.map_congr_left fun d hd => digitValue_digitChar uppercase d (lt d hd)).trans (List.map_id digits)

/-- The buffer keeps the lowest 32 digits. -/
theorem readBack_ntoaDigits (one_lt : 1 < base) (le : base ≤ 16) (room value : Nat) :
    readBack base (ntoaDigits uppercase base room value).reverse = value % base ^ room := by
  have small : ∀ d ∈ (digitsOf base value).take room, d < base := fun d hd =>
    digitsOf_lt one_lt d (List.mem_of_mem_take hd)
  rw [readBack, List.reverse_reverse, ntoaDigits_eq one_lt, map_digitValue fun d hd => (small d hd).trans_le le,
    ← Nat.ofDigits_mod_pow_eq_ofDigits_take room (by omega) _ (digitsOf_lt one_lt), ofDigits_digitsOf]

end

/-! ### The buffer -/

section

variable {buf : List UInt8} {base prec width : Nat} {negative : Bool} {flags : Flags}

theorem reverse_padZeros (buf : List UInt8) (limit : Nat) :
    (padZeros buf limit).reverse = List.replicate (min limit 32 - buf.length) '0'.toUInt8 ++ buf.reverse := by
  rw [padZeros, List.reverse_append, List.reverse_replicate]
  rfl

theorem reverse_push (room : buf.length < 32) (c : UInt8) : (push buf c).reverse = c :: buf.reverse := by
  rw [push, if_pos (show buf.length < ntoaBufferSize from room), List.reverse_append]
  rfl

theorem reverse_withSign (room : buf.length + (signText negative flags).length ≤ 32) :
    (withSign buf negative flags).reverse = signText negative flags ++ buf.reverse := by
  unfold withSign
  unfold signText at room ⊢
  split_ifs at room ⊢
  · exact reverse_push room _
  · exact reverse_push room _
  · exact reverse_push room _
  · rfl

theorem unpad_hex (buf : List UInt8) (prec width : Nat) (flags : Flags) : unpad buf 16 prec width flags =
    if flags.precision = false ∧ buf.length ≠ 0 ∧ (buf.length = prec ∨ buf.length = width) then
      buf.dropLast.dropLast else buf := by
  unfold unpad
  split
  · split
    · rfl
    · rename_i short
      have nil : buf.dropLast = [] := List.length_eq_zero_iff.mp (not_not.mp fun some => short ⟨some, rfl⟩)
      rw [nil, List.dropLast_nil]
  · rfl

theorem reverse_hashed (room : (unpad buf 16 prec width flags).length + 2 ≤ 32) :
    (hashed buf 16 prec width flags).reverse =
      ['0'.toUInt8, if flags.uppercase then 'X'.toUInt8 else 'x'.toUInt8] ++
        (unpad buf 16 prec width flags).reverse := by
  have first := fun c => reverse_push (show (unpad buf 16 prec width flags).length < 32 by omega) c
  have length := fun c => congrArg List.length (first c)
  simp only [List.length_reverse, List.length_cons] at length
  show (push (push _ _) _).reverse = _
  rw [reverse_push (by rw [length]; omega), first]
  rfl

end

/-! ### The field -/

section

variable {digits : List UInt8} {base prec width : Nat} {negative : Bool} {flags : Flags}

theorem digitsWidth_eq (left : flags.left = false) (zeropad : flags.zeropad = true) :
    digitsWidth width negative flags = width - (signText negative flags).length := by
  unfold digitsWidth signText
  rw [left, zeropad]
  cases negative <;> cases flags.plus <;> cases flags.space <;> cases width <;> rfl

theorem digitsWidth_of_left (left : flags.left = true) : digitsWidth width negative flags = width := by
  rw [digitsWidth, left]
  rfl

theorem digitsWidth_of_spaces (zeropad : flags.zeropad = false) : digitsWidth width negative flags = width := by
  rw [digitsWidth, zeropad, Bool.and_false, Bool.false_and]
  rfl

theorem digitsWidth_of_unsigned (plain : signText negative flags = []) : digitsWidth width negative flags = width := by
  unfold signText at plain
  unfold digitsWidth
  cases negative <;> cases hp : flags.plus <;> cases hs : flags.space <;> simp_all

/-- The buffer without sign and prefix, the most significant character first. -/
def filledText (digits : List UInt8) (prec width : Nat) (flags : Flags) : List UInt8 :=
  if flags.left then digits
  else if flags.zeropad then List.replicate (width - digits.length) '0'.toUInt8 ++ digits
  else List.replicate (prec - digits.length) '0'.toUInt8 ++ digits

theorem reverse_filled (digits : List UInt8) (zeros : flags.zeropad = true → prec = 0) (room : prec ≤ 32)
    (wide : flags.left = false → flags.zeropad = true → width ≤ 32) :
    (if !flags.left && flags.zeropad then
        padZeros (if !flags.left then padZeros digits.reverse prec else digits.reverse) width
      else if !flags.left then padZeros digits.reverse prec else digits.reverse).reverse =
      filledText digits prec width flags := by
  unfold filledText
  cases left : flags.left with
  | true => exact List.reverse_reverse digits
  | false =>
    cases zeropad : flags.zeropad with
    | true =>
      have none : padZeros digits.reverse 0 = digits.reverse := by simp [padZeros]
      simp only [Bool.not_false, Bool.and_self, if_true, Bool.false_eq_true, if_false, zeros zeropad, none]
      rw [reverse_padZeros, List.length_reverse, List.reverse_reverse, min_eq_left (wide left zeropad)]
    | false =>
      simp only [Bool.not_false, Bool.and_false, if_true, Bool.false_eq_true, if_false]
      rw [reverse_padZeros, List.length_reverse, List.reverse_reverse, min_eq_left room]

def keptText (text : List UInt8) (prec width : Nat) (flags : Flags) : List UInt8 :=
  if flags.precision = false ∧ text.length ≠ 0 ∧ (text.length = prec ∨ text.length = width) then text.drop 2 else text

theorem reverse_unpad (buf : List UInt8) (prec width : Nat) (flags : Flags) :
    (unpad buf 16 prec width flags).reverse = keptText buf.reverse prec width flags := by
  rw [unpad_hex, keptText, List.length_reverse]
  split
  · rw [← List.tail_reverse, ← List.tail_reverse, ← List.drop_one, ← List.drop_one, List.drop_drop]
  · rfl

theorem reverse_ntoaBuf (hash : flags.hash = false) (zeros : flags.zeropad = true → prec = 0) (room : prec ≤ 32)
    (wide : flags.left = false → flags.zeropad = true → width ≤ 32)
    (fits : (signText negative flags).length + (filledText digits prec width flags).length ≤ 32) :
    (ntoaBuf digits.reverse negative base prec width flags).reverse =
      signText negative flags ++ filledText digits prec width flags := by
  have filled := reverse_filled digits zeros room wide
  unfold ntoaBuf
  simp only [hash, Bool.false_eq_true, if_false]
  rw [reverse_withSign, filled]
  rwa [← List.length_reverse, filled, Nat.add_comm]

theorem reverse_ntoaBuf_hash (hash : flags.hash = true) (zeros : flags.zeropad = true → prec = 0) (room : prec ≤ 32)
    (wide : flags.left = false → flags.zeropad = true → width ≤ 32) (plain : signText negative flags = [])
    (fits : (keptText (filledText digits prec width flags) prec width flags).length + 2 ≤ 32) :
    (ntoaBuf digits.reverse negative 16 prec width flags).reverse =
      ['0'.toUInt8, if flags.uppercase then 'X'.toUInt8 else 'x'.toUInt8] ++
        keptText (filledText digits prec width flags) prec width flags := by
  have filled := reverse_filled digits zeros room wide
  unfold ntoaBuf
  simp only [hash, if_true]
  generalize (if !flags.left && flags.zeropad then _ else _ : List UInt8) = buf at filled ⊢
  rw [← filled, ← reverse_unpad] at fits ⊢
  rw [List.length_reverse] at fits
  have text := reverse_hashed fits
  have length := congrArg List.length text
  rw [List.length_append, List.length_reverse, List.length_reverse] at length
  rw [reverse_withSign, plain, List.nil_append, text]
  rw [plain, length]
  exact (Nat.add_comm 2 _).trans_le fits

/-! ### Regular fields -/

/-- The field has room in the buffer, `-` meets no zeros of a precision, and `#` no digits of the number. -/
structure Regular (value : Nat) (negative : Bool) (base prec width : Nat) (flags : Flags) : Prop where
  precision : flags.precision = false → prec = 0
  zeropad : flags.zeropad = true → flags.precision = false
  room : (signText negative flags).length + (basePrefix value base flags).length +
    max prec (digitText value base flags).length ≤ 32
  zeros : flags.left = false → flags.zeropad = true → width ≤ 32
  left : flags.left = true → prec ≤ (digitText value base flags).length
  hash : flags.hash = true → value ≠ 0 → base = 16 ∧ signText negative flags = [] ∧
    (flags.precision = false → width ≠ (digitText value base flags).length ∧
      (flags.left = false → flags.zeropad = true → width ≠ (digitText value base flags).length + 1))

theorem field_plain (hash : flags.hash = false) (zeros : flags.zeropad = true → prec = 0)
    (room : (signText negative flags).length + max prec digits.length ≤ 32)
    (wide : flags.left = false → flags.zeropad = true → width ≤ 32)
    (left : flags.left = true → prec ≤ digits.length) :
    padded (ntoaBuf digits.reverse negative base prec (digitsWidth width negative flags) flags).reverse
      (digitsWidth width negative flags) flags = layout (signText negative flags) digits prec width flags := by
  have narrow : digitsWidth width negative flags ≤ width := by
    unfold digitsWidth
    split <;> omega
  rw [reverse_ntoaBuf hash zeros (by omega) (fun h h' => narrow.trans (wide h h'))]
  · unfold padded layout filledText
    cases hl : flags.left with
    | true =>
      rw [digitsWidth_of_left hl]
      simp [Nat.sub_eq_zero_of_le (left hl)]
    | false =>
      cases hz : flags.zeropad with
      | true =>
        rw [digitsWidth_eq hl hz, zeros hz]
        simp [Nat.sub_sub]
      | false =>
        rw [digitsWidth_of_spaces hz]
        simp
  · unfold filledText
    cases hl : flags.left with
    | true =>
      rw [if_pos rfl]
      omega
    | false =>
      cases hz : flags.zeropad with
      | true =>
        have := wide hl hz
        rw [if_neg Bool.false_ne_true, if_pos rfl, digitsWidth_eq hl hz, List.length_append, List.length_replicate]
        omega
      | false =>
        rw [if_neg Bool.false_ne_true, if_neg Bool.false_ne_true, List.length_append, List.length_replicate]
        omega

theorem keptText_clear (precision : flags.precision = false → prec = 0)
    (zeropad : flags.zeropad = true → flags.precision = false) (left : flags.left = true → prec ≤ digits.length)
    (clear : flags.precision = false → width ≠ digits.length ∧
      (flags.left = false → flags.zeropad = true → width ≠ digits.length + 1)) :
    keptText (filledText digits prec width flags) prec width flags =
      if flags.left = false ∧ flags.zeropad = true then
        List.replicate (width - (2 + digits.length)) '0'.toUInt8 ++ digits
      else List.replicate (prec - digits.length) '0'.toUInt8 ++ digits := by
  -- Without zeros the buffer is as long as the digits, and `#` takes nothing back.
  have whole : ∀ text : List UInt8, (flags.precision = false → text = digits) →
      keptText text prec width flags = text := by
    intro text short
    refine if_neg fun ⟨plain, nonempty, same⟩ => ?_
    rw [short plain] at same nonempty
    rw [precision plain] at same
    exact same.elim nonempty fun same => (clear plain).1 same.symm
  unfold filledText
  cases hl : flags.left with
  | true =>
    rw [if_pos rfl, if_neg (by simp), Nat.sub_eq_zero_of_le (left hl)]
    exact whole digits fun _ => rfl
  | false =>
    cases hz : flags.zeropad with
    | false =>
      rw [if_neg Bool.false_ne_true, if_neg Bool.false_ne_true, if_neg (by simp)]
      exact whole _ fun plain => by rw [precision plain, Nat.zero_sub]; rfl
    | true =>
      rw [if_neg Bool.false_ne_true, if_pos rfl, if_pos ⟨rfl, rfl⟩]
      obtain ⟨ne, ne'⟩ := clear (zeropad hz)
      rcases Nat.lt_or_ge width digits.length with short | long
      · rw [Nat.sub_eq_zero_of_le short.le, Nat.sub_eq_zero_of_le (by omega)]
        exact whole digits fun _ => rfl
      · have two : 2 ≤ width - digits.length := by
          have := ne' hl hz
          omega
        rw [keptText, List.length_append, List.length_replicate, if_pos ⟨zeropad hz, by omega, .inr (by omega)⟩,
          List.drop_append_of_le_length (by rwa [List.length_replicate]), List.drop_replicate, Nat.sub_sub,
          Nat.add_comm digits.length]

theorem field_hash (hash : flags.hash = true) (precision : flags.precision = false → prec = 0)
    (zeropad : flags.zeropad = true → flags.precision = false) (plain : signText negative flags = [])
    (room : 2 + max prec digits.length ≤ 32) (wide : flags.left = false → flags.zeropad = true → width ≤ 32)
    (left : flags.left = true → prec ≤ digits.length)
    (clear : flags.precision = false → width ≠ digits.length ∧
      (flags.left = false → flags.zeropad = true → width ≠ digits.length + 1)) :
    padded (ntoaBuf digits.reverse negative 16 prec (digitsWidth width negative flags) flags).reverse
      (digitsWidth width negative flags) flags =
      layout ['0'.toUInt8, if flags.uppercase then 'X'.toUInt8 else 'x'.toUInt8] digits prec width flags := by
  rw [digitsWidth_of_unsigned plain]
  have kept := keptText_clear precision zeropad left clear
  rw [reverse_ntoaBuf_hash hash (fun h => precision (zeropad h)) (by omega) wide plain, kept]
  · generalize lead_eq : ['0'.toUInt8, if flags.uppercase then 'X'.toUInt8 else 'x'.toUInt8] = lead
    have two : lead.length = 2 := by rw [← lead_eq]; rfl
    unfold padded layout
    cases hl : flags.left with
    | true => simp
    | false =>
      cases hz : flags.zeropad with
      | true => simp [precision (zeropad hz), two]
      | false => simp
  · rw [kept]
    split
    · rename_i zeros
      have := wide zeros.1 zeros.2
      rw [List.length_append, List.length_replicate]
      omega
    · rw [List.length_append, List.length_replicate]
      omega

end

section

variable {value base prec width : Nat} {negative : Bool} {flags : Flags}

theorem ntoaDigits_numeral (one_lt : 1 < base) {uppercase : Bool}
    (fits : (numeral uppercase base value).length ≤ ntoaBufferSize) :
    ntoaDigits uppercase base ntoaBufferSize value = (numeral uppercase base value).reverse := by
  rw [numeral, List.length_reverse, List.length_map] at fits
  rw [ntoaDigits_eq one_lt, List.take_of_length_le fits, numeral, List.reverse_reverse]

theorem ntoaText_layout (one_lt : 1 < base) (regular : Regular value negative base prec width flags) :
    ntoaText value negative base prec width flags =
      layout (signText negative flags ++ basePrefix value base flags) (digitText value base flags) prec width
        flags := by
  have room := regular.room
  have zeros : flags.zeropad = true → prec = 0 := fun h => regular.precision (regular.zeropad h)
  have buf : (if !flags.precision || value ≠ 0 then ntoaDigits flags.uppercase base ntoaBufferSize value else []) =
      (digitText value base flags).reverse := by
    unfold digitText at room ⊢
    by_cases empty : flags.precision = true ∧ value = 0
    · simp [empty]
    · rw [if_neg empty] at room ⊢
      have digits : (!flags.precision || decide (value ≠ 0)) = true := by
        simpa [imp_iff_not_or] using empty
      rw [if_pos digits]
      exact ntoaDigits_numeral one_lt (by unfold ntoaBufferSize; omega)
  by_cases zero : value = 0
  · have bare : basePrefix value base flags = [] := if_neg fun h => h.2.1 zero
    rw [bare, List.length_nil, Nat.add_zero] at room
    unfold ntoaText
    rw [if_pos zero, bare, List.append_nil]
    refine (congrArg (fun buf =>
      padded (ntoaBuf buf negative base prec _ { flags with hash := false }).reverse _ _) buf).trans ?_
    exact field_plain rfl zeros room regular.zeros regular.left
  · unfold ntoaText
    simp only [if_neg zero]
    rw [buf]
    cases hash : flags.hash with
    | false =>
      have bare : basePrefix value base flags = [] := if_neg fun h => Bool.false_ne_true (hash.symm.trans h.1)
      rw [bare, List.length_nil, Nat.add_zero] at room
      rw [bare, List.append_nil]
      exact field_plain hash zeros room regular.zeros regular.left
    | true =>
      obtain ⟨rfl, plain, clear⟩ := regular.hash hash zero
      have lead : basePrefix value 16 flags = ['0'.toUInt8, if flags.uppercase then 'X'.toUInt8 else 'x'.toUInt8] :=
        if_pos ⟨hash, zero, rfl⟩
      rw [plain, lead, List.length_nil, Nat.zero_add] at room
      rw [plain, lead, List.nil_append]
      exact field_hash hash regular.precision regular.zeropad plain room regular.zeros regular.left clear

end

/-! ### Integer conversions -/

theorem one_lt_baseOf (c : UInt8) : 1 < baseOf c := by
  unfold baseOf
  split_ifs <;> decide

theorem baseOf_le (c : UInt8) : baseOf c ≤ 16 := by
  unfold baseOf
  split_ifs <;> decide

/-- The argument as the specifier and the length say. -/
def argument (spec : Spec) (c : UInt8) (value : Nat) : Int :=
  let bits := argBits (integerFlags spec.flags c)
  if isSigned c then signed bits value else (value % 2 ^ bits : Nat)

section

variable {spec : Spec} {c : UInt8} {value : Nat}

theorem integerText_eq (spec : Spec) (c : UInt8) (value : Nat) : integerText spec c value =
    ntoaText (argument spec c value).natAbs (argument spec c value < 0) (baseOf c) spec.precision spec.width
      (integerFlags spec.flags c) := by
  unfold integerText argument
  cases isSigned c with
  | true => rfl
  | false =>
    have nonneg : decide (((value % 2 ^ argBits (integerFlags spec.flags c) : Nat) : Int) < 0) = false :=
      decide_eq_false (by omega)
    simp only [Bool.false_eq_true, if_false, nonneg, Int.natAbs_natCast]

theorem readBack_numeral {base : Nat} (one_lt : 1 < base) (le : base ≤ 16) (uppercase : Bool) (value : Nat) :
    readBack base (numeral uppercase base value) = value := by
  rw [readBack, numeral, List.reverse_reverse, map_digitValue fun d hd => (digitsOf_lt one_lt d hd).trans_le le,
    ofDigits_digitsOf]

/-- A regular integer field is the standard's, and its digits stand for the argument. -/
theorem number_layout
    (regular : Regular (argument spec c value).natAbs (argument spec c value < 0) (baseOf c) spec.precision spec.width
      (integerFlags spec.flags c)) :
    let flags := integerFlags spec.flags c
    let digits := digitText (argument spec c value).natAbs (baseOf c) flags
    Prints (integer spec c value)
      (layout (signText (argument spec c value < 0) flags ++ basePrefix (argument spec c value).natAbs (baseOf c) flags)
        digits spec.precision spec.width flags) ∧
    readBack (baseOf c) digits = (argument spec c value).natAbs := by
  refine ⟨?_, ?_⟩
  · rw [← ntoaText_layout (one_lt_baseOf c) regular, ← integerText_eq]
    exact integer_prints spec c value
  · unfold digitText
    split
    · rename_i empty
      rw [empty.2]
      rfl
    · exact readBack_numeral (one_lt_baseOf c) (baseOf_le c) _ _

/-- `%+08d` -/
def eightWide : Spec where
  flags := { zeropad := true, plus := true }
  width := 8
  precision := 0

theorem number_layout_negative :
    Prints (integer eightWide 'd'.toUInt8 (2 ^ 32 - 42)) ("-0000042".toList.map Char.toUInt8) ∧
      readBack 10 ("42".toList.map Char.toUInt8) = 42 := by
  have regular : Regular (argument eightWide 'd'.toUInt8 (2 ^ 32 - 42)).natAbs
      (argument eightWide 'd'.toUInt8 (2 ^ 32 - 42) < 0) 10 0 8 (integerFlags eightWide.flags 'd'.toUInt8) := by
    constructor <;> decide
  exact number_layout regular

/-! ### Where the buffer ends -/

theorem signed_natAbs_lt (bits value : Nat) : (signed bits value).natAbs < 2 ^ bits := by
  have lt : value % 2 ^ bits < 2 ^ bits := Nat.mod_lt _ (Nat.two_pow_pos bits)
  have half : 2 ^ bits ≤ 2 * 2 ^ (bits - 1) := by
    rw [← Nat.pow_succ']
    exact Nat.pow_le_pow_right (by decide) (by omega)
  have cast : ((2 ^ bits : Nat) : Int) = 2 ^ bits := Nat.cast_pow 2 bits
  unfold signed
  split
  · rwa [Int.natAbs_natCast]
  · have pos := Nat.two_pow_pos (bits - 1)
    omega

theorem argument_natAbs_lt (spec : Spec) (c : UInt8) (value : Nat) : (argument spec c value).natAbs < 2 ^ 64 := by
  have bits : argBits (integerFlags spec.flags c) ≤ 64 := by
    unfold argBits
    split_ifs <;> decide
  have le : 2 ^ argBits (integerFlags spec.flags c) ≤ 2 ^ 64 := Nat.pow_le_pow_right (by decide) bits
  refine Nat.lt_of_lt_of_le ?_ le
  unfold argument
  simp only
  split
  · exact signed_natAbs_lt _ _
  · exact Nat.mod_lt _ (Nat.two_pow_pos _)

theorem numeral_length {base value k : Nat} (one_lt : 1 < base) (pos : 0 < k) (lt : value < base ^ k)
    (uppercase : Bool) : (numeral uppercase base value).length ≤ k := by
  rw [numeral, List.length_reverse, List.length_map, digitsOf]
  split
  · exact pos
  · exact (Nat.digits_length_le_iff one_lt value).mpr lt

theorem ntoaDigits_length (uppercase : Bool) (base room value : Nat) :
    (ntoaDigits uppercase base room value).length ≤ room := by
  induction room generalizing value with
  | zero => exact le_rfl
  | succ room ih =>
    unfold ntoaDigits
    split
    · exact Nat.succ_le_succ (Nat.zero_le room)
    · exact Nat.succ_le_succ (ih _)

theorem ntoaText_eq {value base prec width : Nat} {negative : Bool} {flags : Flags} (plain : flags.precision = false)
    (hash : flags.hash = true → value ≠ 0) : ntoaText value negative base prec width flags =
      padded (ntoaBuf (ntoaDigits flags.uppercase base ntoaBufferSize value) negative base prec
        (digitsWidth width negative flags) flags).reverse (digitsWidth width negative flags) flags := by
  have same : (if value = 0 then { flags with hash := false } else flags) = flags := by
    split
    · rename_i zero
      have off : flags.hash = false := Bool.eq_false_iff.mpr fun on => hash on zero
      rw [← off]
    · rfl
  unfold ntoaText
  simp only [same]
  simp only [plain, Bool.not_false, Bool.true_or, if_true]

end

section

variable {value base width : Nat} {negative : Bool} {flags : Flags}

theorem ntoaText_bare (plain : flags.precision = false) (off : flags.hash = false)
    (unsigned : signText negative flags = []) :
    ntoaText value negative base 0 0 flags = (ntoaDigits flags.uppercase base ntoaBufferSize value).reverse := by
  have length := ntoaDigits_length flags.uppercase base ntoaBufferSize value
  rw [ntoaText_eq plain fun on => absurd on (by simp [off])]
  generalize ntoaDigits flags.uppercase base ntoaBufferSize value = buf at length ⊢
  rw [← List.reverse_reverse buf, field_plain off (fun _ => rfl) _ (fun _ _ => Nat.zero_le 32) fun _ => Nat.zero_le _]
  · simp [layout, unsigned]
  · rw [unsigned, List.length_reverse]
    exact (Nat.zero_add _).trans_le (max_le (Nat.zero_le 32) length)

theorem ntoaText_wide (one_lt : 1 < base) (fits : (numeral flags.uppercase base value).length ≤ 32)
    (plain : flags.precision = false) (off : flags.hash = false) (zeropad : flags.zeropad = true)
    (right : flags.left = false) (wide : 33 ≤ width) :
    ntoaText value negative base 0 width flags =
      List.replicate (32 - (numeral flags.uppercase base value).length) '0'.toUInt8 ++
        numeral flags.uppercase base value := by
  rw [ntoaText_eq plain fun on => absurd on (by simp [off]), ntoaDigits_numeral one_lt fits]
  generalize numeral flags.uppercase base value = digits at fits ⊢
  have sign : (signText negative flags).length ≤ 1 := by
    unfold signText
    split_ifs <;> simp
  have room : min (digitsWidth width negative flags) 32 = 32 := by
    rw [digitsWidth_eq right zeropad]
    omega
  have none : padZeros digits.reverse 0 = digits.reverse := by simp [padZeros]
  -- The zeros fill the buffer, and the sign finds no room in it.
  have full : (padZeros digits.reverse (digitsWidth width negative flags)).length = ntoaBufferSize := by
    rw [← List.length_reverse, reverse_padZeros, room]
    simp [ntoaBufferSize]
    omega
  have unsigned : ∀ buf : List UInt8, buf.length = ntoaBufferSize → withSign buf negative flags = buf := by
    intro buf length
    have push_full (c : UInt8) : push buf c = buf := if_neg (by omega)
    simp [withSign, push_full]
  simp only [ntoaBuf, padded, right, zeropad, off, none, Bool.not_false, Bool.and_self, if_true, Bool.false_eq_true,
    if_false]
  rw [unsigned _ full, reverse_padZeros, room, List.length_reverse, List.reverse_reverse]

theorem padded_of_le {text : List UInt8} (le : width ≤ text.length) : padded text width flags = text := by
  simp [padded, Nat.sub_eq_zero_of_le le]

theorem ntoaText_collides (fits : (numeral flags.uppercase 16 value).length ≤ 30) (plain : flags.precision = false)
    (on : flags.hash = true) (nonzero : value ≠ 0) (unsigned : signText negative flags = []) :
    ntoaText value negative 16 0 (numeral flags.uppercase 16 value).length flags =
      ['0'.toUInt8, if flags.uppercase then 'X'.toUInt8 else 'x'.toUInt8] ++
        (numeral flags.uppercase 16 value).drop 2 := by
  rw [ntoaText_eq plain fun _ => nonzero, ntoaDigits_numeral (by decide) (by unfold ntoaBufferSize; omega),
    digitsWidth_of_unsigned unsigned]
  have some : (numeral flags.uppercase 16 value).length ≠ 0 := by
    simp [numeral, digitsOf, nonzero, Nat.digits_ne_nil_iff_ne_zero]
  generalize numeral flags.uppercase 16 value = digits at fits some ⊢
  have filled : filledText digits 0 digits.length flags = digits := by simp [filledText]
  have kept : keptText digits 0 digits.length flags = digits.drop 2 := if_pos ⟨plain, some, .inr rfl⟩
  rw [reverse_ntoaBuf_hash on (fun _ => rfl) (Nat.zero_le 32) (fun _ _ => by omega) unsigned, filled, kept]
  · apply padded_of_le
    simp only [List.length_append, List.length_cons, List.length_nil, List.length_drop]
    omega
  · rw [filled, kept, List.length_drop]
    omega

end

section

variable {spec : Spec} {c : UInt8}

/-- Of a 64-bit number `%lb` prints the lower half only. -/
theorem binary_low_half (narrow : spec.width = 0) (none : spec.precision = 0) (plain : spec.flags.precision = false)
    (hash : spec.flags.hash = false) (long : spec.flags.long = true) (value : Nat) :
    ∃ text, Prints (integer spec 'b'.toUInt8 value) text ∧ readBack 2 text = value % 2 ^ 32 := by
  refine ⟨_, integer_prints spec _ value, ?_⟩
  have no : isSigned 'b'.toUInt8 = false := by decide
  have plain : (integerFlags spec.flags 'b'.toUInt8).precision = false := plain
  have off : (integerFlags spec.flags 'b'.toUInt8).hash = false := by simp [integerFlags, hash]
  have unsigned : signText false (integerFlags spec.flags 'b'.toUInt8) = [] := by simp [signText, integerFlags, no]
  have bits : argBits (integerFlags spec.flags 'b'.toUInt8) = 64 := if_pos (.inr long)
  have text : integerText spec 'b'.toUInt8 value = ntoaText (value % 2 ^ argBits (integerFlags spec.flags 'b'.toUInt8))
      false 2 spec.precision spec.width (integerFlags spec.flags 'b'.toUInt8) := rfl
  rw [text, bits, narrow, none, ntoaText_bare plain off unsigned, readBack_ntoaDigits (by decide) (by decide)]
  unfold ntoaBufferSize
  omega

/-- `%lb` -/
def longBinary : Spec where
  flags := { long := true }
  width := 0
  precision := 0

theorem binary_low_half_five :
    ∃ text, Prints (integer longBinary 'b'.toUInt8 (2 ^ 32 + 5)) text ∧ readBack 2 text = 5 :=
  binary_low_half rfl rfl rfl rfl rfl (2 ^ 32 + 5)

/-- `#` in a field that is as wide as the number puts its prefix in the place of the first two digits. -/
theorem hash_replaces_digits {value : Nat} (hex : c = 'x'.toUInt8 ∨ c = 'X'.toUInt8) (hash : spec.flags.hash = true)
    (plain : spec.flags.precision = false) (none : spec.precision = 0) (nonzero : argument spec c value ≠ 0)
    (same : spec.width = (numeral (integerFlags spec.flags c).uppercase 16 (argument spec c value).natAbs).length) :
    Prints (integer spec c value)
      (['0'.toUInt8, if (integerFlags spec.flags c).uppercase then 'X'.toUInt8 else 'x'.toUInt8] ++
        (numeral (integerFlags spec.flags c).uppercase 16 (argument spec c value).natAbs).drop 2) := by
  have no : isSigned c = false := by
    rcases hex with rfl | rfl <;> decide
  have base : baseOf c = 16 := if_pos hex
  have plain : (integerFlags spec.flags c).precision = false := plain
  have on : (integerFlags spec.flags c).hash = true := by simp [integerFlags, hash, base]
  have nonneg : decide (argument spec c value < 0) = false := by
    unfold argument
    simp [no]
    omega
  have unsigned : signText false (integerFlags spec.flags c) = [] := by simp [signText, integerFlags, no]
  have short := numeral_length (by decide) (by decide)
    ((argument_natAbs_lt spec c value).trans_eq (show 2 ^ 64 = 16 ^ 16 by decide)) (integerFlags spec.flags c).uppercase
  rw [← ntoaText_collides (by omega) plain on (Int.natAbs_ne_zero.mpr nonzero) unsigned]
  have text := integerText_eq spec c value
  rw [base, none, same, nonneg] at text
  rw [← text]
  exact integer_prints spec c value

/-- `%#4x` -/
def fourWide : Spec where
  flags := { hash := true }
  width := 4
  precision := 0

theorem hash_replaces_digits_four : Prints (integer fourWide 'x'.toUInt8 0xabcd) ("0xcd".toList.map Char.toUInt8) :=
  hash_replaces_digits (.inl rfl) rfl rfl rfl (by decide) (by decide)

/-- From a width of 33 on the zeros leave no room for the sign. -/
theorem wide_zeropad_drops_sign (decimal : isSigned c = true) (zeropad : spec.flags.zeropad = true)
    (right : spec.flags.left = false) (plain : spec.flags.precision = false) (none : spec.precision = 0)
    (wide : 33 ≤ spec.width) (value : Nat) :
    let digits := numeral (integerFlags spec.flags c).uppercase 10 (argument spec c value).natAbs
    Prints (integer spec c value) (List.replicate (32 - digits.length) '0'.toUInt8 ++ digits) := by
  have base : baseOf c = 10 := by
    rcases (Bool.or_eq_true ..).mp decimal with i | d
    · rw [of_decide_eq_true i]
      decide
    · rw [of_decide_eq_true d]
      decide
  have off : (integerFlags spec.flags c).hash = false := by simp [integerFlags, base]
  have on : (integerFlags spec.flags c).zeropad = true := by simp [integerFlags, zeropad, plain]
  have plain : (integerFlags spec.flags c).precision = false := plain
  have right : (integerFlags spec.flags c).left = false := right
  have short := numeral_length (by decide) (by decide)
    ((argument_natAbs_lt spec c value).trans (show 2 ^ 64 < 10 ^ 32 by decide)) (integerFlags spec.flags c).uppercase
  have text := integerText_eq spec c value
  rw [base, none, ntoaText_wide (by decide) short plain off on right wide] at text
  intro digits
  rw [← text]
  exact integer_prints spec c value

/-- `%033d` -/
def thirtyThreeWide : Spec where
  flags := { zeropad := true }
  width := 33
  precision := 0

theorem wide_zeropad_drops_sign_one : Prints (integer thirtyThreeWide 'd'.toUInt8 (2 ^ 32 - 1))
    (List.replicate 31 '0'.toUInt8 ++ ['1'.toUInt8]) :=
  wide_zeropad_drops_sign (by decide) rfl rfl rfl rfl (by decide) (2 ^ 32 - 1)

end

end Voyager.Printf
