import Voyager.Printf.Output

/-!
# Reading a format

The code reads each directive back from its bytes, takes the arguments it names in order, and
prints the texts of the pieces one behind the other.
-/

namespace Voyager.Printf

open Lib

inductive Flag where
  | zero
  | minus
  | plus
  | space
  | hash
  deriving DecidableEq

def Flag.char : Flag → UInt8
  | zero => '0'.toUInt8
  | minus => '-'.toUInt8
  | plus => '+'.toUInt8
  | space => ' '.toUInt8
  | hash => '#'.toUInt8

/-- A width or a precision. -/
inductive Size where
  | given (n : Nat)
  | star -- It is the next argument.

def Size.bytes : Option Size → List UInt8
  | none => []
  | some (given n) => decimal n
  | some star => ['*'.toUInt8]

def Size.value : Option Size → List Arg → Option (Int × List Arg)
  | none, va => some (0, va)
  | some (given n), va => some (n, va)
  | some star, va => (vaWord va).map fun r => (signed 32 r.1, r.2)

inductive Length where
  | int
  | char
  | short
  | long
  | longLong
  | ptrdiff
  | intmax
  | size
  deriving DecidableEq

def Length.bytes : Length → List UInt8
  | int => []
  | char => ['h'.toUInt8, 'h'.toUInt8]
  | short => ['h'.toUInt8]
  | long => ['l'.toUInt8]
  | longLong => ['l'.toUInt8, 'l'.toUInt8]
  | ptrdiff => ['t'.toUInt8]
  | intmax => ['j'.toUInt8]
  | size => ['z'.toUInt8]

def Length.isLong (length : Length) : Bool :=
  length = long || length = longLong || length = ptrdiff || length = intmax || length = size

structure Directive where
  flags : List Flag
  width : Option Size
  precision : Option (Option Size) -- A dot, and the size behind it.
  length : Length
  specifier : UInt8

namespace Directive

def precisionBytes : Option (Option Size) → List UInt8
  | none => []
  | some size => '.'.toUInt8 :: Size.bytes size

/-- What stands behind `%`. -/
def bytes (d : Directive) : List UInt8 :=
  d.flags.map Flag.char ++ (Size.bytes d.width ++ (precisionBytes d.precision ++ (d.length.bytes ++ [d.specifier])))

/-- What the directive asks for, with the arguments that follow its own. -/
def spec (d : Directive) (va : List Arg) : Option (Spec × List Arg) := do
  let (width, va) ← Size.value d.width va
  let (precision, va) ← Size.value d.precision.join va
  let flags : Flags :=
    { zeropad := Flag.zero ∈ d.flags
      left := Flag.minus ∈ d.flags || width < 0
      plus := Flag.plus ∈ d.flags
      space := Flag.space ∈ d.flags
      hash := Flag.hash ∈ d.flags
      char := d.length = .char
      short := d.length = .char || d.length = .short
      long := d.length.isLong
      longLong := d.length = .longLong
      precision := d.precision.isSome }
  return ({ flags, width := width.natAbs, precision := precision.toNat }, va)

end Directive

/-! ### What ends a field -/

def isFlag (c : UInt8) : Bool :=
  c = '0'.toUInt8 || c = '-'.toUInt8 || c = '+'.toUInt8 || c = ' '.toUInt8 || c = '#'.toUInt8

def endsWidth (c : UInt8) : Bool := !isFlag c && !isDigit c && c ≠ '*'.toUInt8

def endsPrecision (c : UInt8) : Bool := endsWidth c && c ≠ '.'.toUInt8

def isLength (c : UInt8) : Bool :=
  c = 'l'.toUInt8 || c = 'h'.toUInt8 || c = 't'.toUInt8 || c = 'j'.toUInt8 || c = 'z'.toUInt8

/-- The numbers fit an `unsigned int`, no zero in front of the width is read as a flag, and the specifier does not
belong to a field before it. -/
structure Directive.Proper (d : Directive) : Prop where
  width : ∀ n, d.width = some (.given n) → 0 < n ∧ n < 2 ^ 32
  precision : ∀ n, d.precision = some (some (.given n)) → n < 2 ^ 32
  specifier : endsPrecision d.specifier = true ∧ isLength d.specifier = false

def Heads (p : UInt8 → Bool) (text : List UInt8) : Prop := ∃ c rest, text = c :: rest ∧ p c = true

theorem Heads.mono {p q : UInt8 → Bool} {text : List UInt8} (h : Heads p text) (imp : ∀ c, p c = true → q c = true) :
    Heads q text := by
  obtain ⟨c, rest, eq, hc⟩ := h
  exact ⟨c, rest, eq, imp c hc⟩

theorem heads_length {c : UInt8} (ends : endsPrecision c = true) (length : Length) (rest : List UInt8) :
    Heads endsPrecision (length.bytes ++ c :: rest) := by
  cases length with
  | int => exact ⟨c, rest, rfl, ends⟩
  | char => exact ⟨_, _, rfl, by decide⟩
  | short => exact ⟨_, _, rfl, by decide⟩
  | long => exact ⟨_, _, rfl, by decide⟩
  | longLong => exact ⟨_, _, rfl, by decide⟩
  | ptrdiff => exact ⟨_, _, rfl, by decide⟩
  | intmax => exact ⟨_, _, rfl, by decide⟩
  | size => exact ⟨_, _, rfl, by decide⟩

theorem heads_precision {text : List UInt8} (h : Heads endsPrecision text) (precision : Option (Option Size)) :
    Heads endsWidth (Directive.precisionBytes precision ++ text) := by
  cases precision with
  | none => exact h.mono fun c hc => (Bool.and_eq_true .. ▸ hc).1
  | some size => exact ⟨_, _, rfl, by decide⟩

theorem decimal_cons (n : Nat) : ∃ d < 10, ∃ rest, decimal n = digitCode d :: rest ∧ (0 < n → d ≠ 0) := by
  cases eq : decimal n with
  | nil => exact absurd eq (decimal_ne_nil n)
  | cons c rest =>
    obtain ⟨d, lt, rfl⟩ := mem_decimal (show c ∈ decimal n by rw [eq]; exact List.mem_cons_self)
    refine ⟨d, lt, rest, rfl, fun pos zero => ?_⟩
    have head := (decimal_head n).mp (by rw [eq, zero]; rfl)
    omega

theorem heads_width {text : List UInt8} (h : Heads endsWidth text) {width : Option Size}
    (pos : ∀ n, width = some (.given n) → 0 < n) : Heads (fun c => !isFlag c) (Size.bytes width ++ text) := by
  match width with
  | none =>
    refine h.mono fun c hc => ?_
    simp only [endsWidth, Bool.and_eq_true] at hc
    exact hc.1.1
  | some .star => exact ⟨_, _, rfl, by decide⟩
  | some (.given n) =>
    obtain ⟨d, lt, rest, eq, nonzero⟩ := decimal_cons n
    have all : ∀ d < 10, d ≠ 0 → (!isFlag (digitCode d)) = true := by decide
    exact ⟨_, rest ++ text, by rw [Size.bytes, eq]; rfl, all d lt (nonzero (pos n rfl))⟩

/-! ### Reading the fields -/

section

variable {flags : Flags} {va : List Arg} {text : List UInt8}

theorem readFlags_bytes (h : Heads (fun c => !isFlag c) text) (fs : List Flag) (flags : Flags) :
    readFlags (fs.map Flag.char ++ text) flags = some
      ({ flags with
          zeropad := flags.zeropad || Flag.zero ∈ fs
          left := flags.left || Flag.minus ∈ fs
          plus := flags.plus || Flag.plus ∈ fs
          space := flags.space || Flag.space ∈ fs
          hash := flags.hash || Flag.hash ∈ fs }, text) := by
  induction fs generalizing flags with
  | nil =>
    obtain ⟨c, rest, rfl, other⟩ := h
    simp only [isFlag, Bool.not_eq_true', Bool.or_eq_false_iff, decide_eq_false_iff_not] at other
    simp [readFlags, other]
  | cons f fs ih =>
    cases f with
    | zero => exact (ih { flags with zeropad := true }).trans (by simp)
    | minus => exact (ih { flags with left := true }).trans (by simp)
    | plus => exact (ih { flags with plus := true }).trans (by simp)
    | space => exact (ih { flags with space := true }).trans (by simp)
    | hash => exact (ih { flags with hash := true }).trans (by simp)

theorem atoi_append (h : Heads (fun c => !isDigit c) text) (digits : List UInt8)
    (all : ∀ c ∈ digits, isDigit c = true) (i : Nat) :
    atoi (digits ++ text) i =
      some (digits.foldl (fun i c => (i * 10 + (c - '0'.toUInt8).toNat) % 2 ^ 32) i, text) := by
  induction digits generalizing i with
  | nil =>
    obtain ⟨c, rest, rfl, other⟩ := h
    exact if_neg (Bool.not_eq_true _ ▸ Bool.not_eq_true' _ ▸ other)
  | cons c digits ih =>
    refine (if_pos (all c List.mem_cons_self)).trans ?_
    exact ih (fun d hd => all d (List.mem_cons_of_mem c hd)) _

theorem atoi_decimal (h : Heads (fun c => !isDigit c) text) {n : Nat} (lt : n < 2 ^ 32) :
    atoi (decimal n ++ text) 0 = some (n, text) := by
  have all : ∀ c ∈ decimal n, isDigit c = true := by
    intro c hc
    obtain ⟨d, lt, rfl⟩ := mem_decimal hc
    exact isDigit_digitCode d lt
  have digit : ∀ d < 10, (digitCode d - '0'.toUInt8).toNat = d := by decide
  rw [atoi_append h _ all]
  have read := foldl_decimal (fun r => r % 2 ^ 32) (fun i c => (i * 10 + (c - '0'.toUInt8).toNat) % 2 ^ 32)
    (fun r d ltd => by
      simp only [digit d ltd]
      omega) n
  exact congrArg (fun r => some (r, text)) (read.trans (Nat.mod_eq_of_lt lt))

theorem readWidth_bytes (h : Heads endsWidth text) {width : Option Size}
    (lt : ∀ n, width = some (.given n) → n < 2 ^ 32) :
    readWidth flags va (Size.bytes width ++ text) = (Size.value width va).map fun r =>
      ({ flags with left := flags.left || r.1 < 0 }, r.1.natAbs, text, r.2) := by
  match width with
  | none =>
    obtain ⟨c, rest, rfl, ends⟩ := h
    simp only [endsWidth, Bool.and_eq_true, Bool.not_eq_true', decide_eq_true_eq] at ends
    simp [Size.bytes, Size.value, readWidth, ends]
  | some .star =>
    have noDigit : isDigit '*'.toUInt8 = false := by decide
    simp only [Size.bytes, Size.value, readWidth, List.cons_append, List.nil_append, noDigit, Bool.false_eq_true,
      if_false, if_true]
    cases vaWord va <;> rfl
  | some (.given n) =>
    obtain ⟨d, ltd, rest, eq, -⟩ := decimal_cons n
    have read := atoi_decimal (h.mono fun c hc => by
      simp only [endsWidth, Bool.and_eq_true] at hc
      exact hc.1.2) (lt n rfl)
    rw [eq] at read
    have nonneg : decide ((n : Int) < 0) = false := decide_eq_false (by omega)
    simp only [Size.bytes, Size.value, eq, List.cons_append, readWidth, isDigit_digitCode d ltd, if_true]
    rw [← List.cons_append, read]
    simp [nonneg]

theorem readPrecision_bytes (h : Heads endsPrecision text) {precision : Option (Option Size)}
    (lt : ∀ n, precision = some (some (.given n)) → n < 2 ^ 32) :
    readPrecision flags va (Directive.precisionBytes precision ++ text) = (Size.value precision.join va).map fun r =>
      ({ flags with precision := flags.precision || precision.isSome }, r.1.toNat, text, r.2) := by
  match precision with
  | none =>
    obtain ⟨c, rest, rfl, ends⟩ := h
    simp only [endsPrecision, Bool.and_eq_true, decide_eq_true_eq] at ends
    simp [Directive.precisionBytes, Size.value, readPrecision, ends]
  | some none =>
    obtain ⟨c, rest, rfl, ends⟩ := h
    simp only [endsPrecision, endsWidth, Bool.and_eq_true, Bool.not_eq_true', decide_eq_true_eq] at ends
    simp [Directive.precisionBytes, Size.bytes, Size.value, readPrecision, ends]
  | some (some .star) =>
    have noDigit : isDigit '*'.toUInt8 = false := by decide
    simp only [Directive.precisionBytes, Size.bytes, Size.value, readPrecision, List.cons_append, List.nil_append,
      noDigit, Bool.false_eq_true, if_false, if_true, Option.join_some]
    cases vaWord va <;> simp
  | some (some (.given n)) =>
    obtain ⟨d, ltd, rest, eq, -⟩ := decimal_cons n
    have read := atoi_decimal (h.mono fun c hc => by
      simp only [endsPrecision, endsWidth, Bool.and_eq_true] at hc
      exact hc.1.1.2) (lt n rfl)
    rw [eq] at read
    simp only [Directive.precisionBytes, Size.bytes, Size.value, eq, List.cons_append, readPrecision,
      isDigit_digitCode d ltd, if_true, Option.join_some]
    rw [← List.cons_append, read]
    simp

theorem readLength_bytes {c : UInt8} (other : isLength c = false) (length : Length) (rest : List UInt8) :
    readLength flags (length.bytes ++ c :: rest) = some
      ({ flags with
          char := flags.char || length = .char
          short := flags.short || (length = .char || length = .short)
          long := flags.long || length.isLong
          longLong := flags.longLong || length = .longLong }, c :: rest) := by
  simp only [isLength, Bool.or_eq_false_iff, decide_eq_false_iff_not] at other
  have h : 'h'.toUInt8 ≠ 'l'.toUInt8 := by decide
  have t : 't'.toUInt8 ≠ 'l'.toUInt8 ∧ 't'.toUInt8 ≠ 'h'.toUInt8 := by decide
  have j : 'j'.toUInt8 ≠ 'l'.toUInt8 ∧ 'j'.toUInt8 ≠ 'h'.toUInt8 := by decide
  have z : 'z'.toUInt8 ≠ 'l'.toUInt8 ∧ 'z'.toUInt8 ≠ 'h'.toUInt8 := by decide
  cases length <;> simp [Length.bytes, readLength, Length.isLong, other, h, t, j, z]

end

/-- The directive is read back from its bytes. -/
theorem readSpec_bytes {d : Directive} (proper : d.Proper) (rest : List UInt8) (va : List Arg) :
    readSpec (d.bytes ++ rest) va = (d.spec va).map fun r => (r.1, d.specifier :: rest, r.2) := by
  have afterPrecision := heads_length proper.specifier.1 d.length rest
  have afterWidth := heads_precision afterPrecision d.precision
  have afterFlags := heads_width afterWidth fun n given => (proper.width n given).1
  simp only [readSpec, Directive.bytes, List.append_assoc, List.singleton_append]
  rw [readFlags_bytes afterFlags, Option.bind_eq_bind, Option.bind_some,
    readWidth_bytes afterWidth fun n given => (proper.width n given).2]
  unfold Directive.spec
  cases Size.value d.width va with
  | none => rfl
  | some w =>
    simp only [Option.map_some, Option.bind_eq_bind, Option.bind_some]
    rw [readPrecision_bytes afterPrecision proper.precision]
    cases Size.value d.precision.join w.2 with
    | none => rfl
    | some p =>
      simp only [Option.map_some, Option.bind_some]
      rw [readLength_bytes proper.specifier.2]
      simp

/-! ### The text of a directive -/

def cText : List UInt8 → Option (List UInt8)
  | [] => none
  | c :: rest => if c = 0 then some [] else (cText rest).map (c :: ·)

/-- The string, cut at the precision, in a field of the width. -/
def stringText (spec : Spec) (p : List UInt8) : Option (List UInt8) :=
  (cText p).bind fun s =>
    if s.length < 2 ^ 32 then
      let s := if spec.flags.precision then s.take spec.precision else s
      let pad := List.replicate (spec.width - s.length) ' '.toUInt8
      some (if spec.flags.left then s ++ pad else pad ++ s)
    else none

/-- The text for the argument, and the arguments behind it. -/
def conversion (floats : Floats) (spec : Spec) (c : UInt8) (va : List Arg) : Option (List UInt8 × List Arg) :=
  let flags := spec.flags
  if isInteger c then (vaWord va).map fun r => (integerText spec c r.1, r.2)
  else if isFixed c then
    (vaDouble va).map fun r =>
      (floats.ftoa r.1 spec.precision spec.width { flags with uppercase := flags.uppercase || c = 'F'.toUInt8 }, r.2)
  else if isExponent c then
    (vaDouble va).map fun r =>
      (floats.etoa r.1 spec.precision spec.width
        { flags with
          adaptExp := flags.adaptExp || c = 'g'.toUInt8 || c = 'G'.toUInt8
          uppercase := flags.uppercase || c = 'E'.toUInt8 || c = 'G'.toUInt8 }, r.2)
  else if c = 'c'.toUInt8 then (vaWord va).map fun r => (characterText spec r.1, r.2)
  else if c = 's'.toUInt8 then (vaText va).bind fun r => (stringText spec r.1).map (·, r.2)
  else if c = 'p'.toUInt8 then (vaWord va).map fun r => (pointerText spec r.1, r.2)
  else some ([c], va)

theorem cText_eq {p s : List UInt8} (h : cText p = some s) : 0 ∉ s ∧ ∃ rest, p = s ++ 0 :: rest := by
  induction p generalizing s with
  | nil => cases h
  | cons c p ih =>
    unfold cText at h
    split at h
    · rename_i zero
      cases h
      exact ⟨List.not_mem_nil, p, by rw [zero]; rfl⟩
    · rename_i nonzero
      obtain ⟨s', hs', rfl⟩ := Option.map_eq_some_iff.mp h
      obtain ⟨none, rest, rfl⟩ := ih hs'
      exact ⟨fun mem => (List.mem_cons.mp mem).elim (fun eq => nonzero eq.symm) none, rest, rfl⟩

section

variable {s rest : List UInt8}

theorem strnlen_append (none : 0 ∉ s) (maxsize : Nat) :
    strnlen (s ++ 0 :: rest) maxsize = some (min s.length maxsize) := by
  induction s generalizing maxsize with
  | nil => simp [strnlen]
  | cons c s ih =>
    obtain ⟨ne, none⟩ := not_or.mp (List.mem_cons.not.mp none)
    cases maxsize with
    | zero => simp [strnlen, Ne.symm ne]
    | succ maxsize => simp [strnlen, Ne.symm ne, ih none, Nat.add_min_add_right]

theorem outText_whole (none : 0 ∉ s) : Prints (outText (s ++ 0 :: rest) Option.none) s := by
  induction s with
  | nil => exact fun _ => rfl
  | cons c s ih =>
    obtain ⟨ne, none⟩ := not_or.mp (List.mem_cons.not.mp none)
    intro idx
    refine (if_neg (by simp [Ne.symm ne])).trans ?_
    exact congrArg (Calls.call (c, idx)) (ih none (idx + 1))

theorem outText_cut (none : 0 ∉ s) (limit : Nat) : Prints (outText (s ++ 0 :: rest) (some limit)) (s.take limit) := by
  induction s generalizing limit with
  | nil => exact fun _ => by simp [outText, outs]
  | cons c s ih =>
    obtain ⟨ne, none⟩ := not_or.mp (List.mem_cons.not.mp none)
    intro idx
    cases limit with
    | zero => simp [outText, outs]
    | succ limit =>
      refine (if_neg (by simp [Ne.symm ne])).trans ?_
      exact congrArg (Calls.call (c, idx)) (ih none limit (idx + 1))

end

section

variable {spec : Spec}

theorem string_prints (sane : spec.flags.precision = false → spec.precision = 0) {p text : List UInt8}
    (h : stringText spec p = some text) : Prints (string spec p) text := by
  obtain ⟨s, read, shape⟩ := Option.bind_eq_some_iff.mp h
  obtain ⟨none, rest, rfl⟩ := cText_eq read
  split at shape
  · rename_i short
    generalize cut : (if spec.flags.precision then s.take spec.precision else s) = shown at shape
    have body : Prints (outText (s ++ 0 :: rest)
        (if spec.flags.precision then some spec.precision else Option.none)) shown := by
      rw [← cut]
      cases spec.flags.precision with
      | false => exact outText_whole none
      | true => exact outText_cut none _
    have length : (if spec.flags.precision then
        min (min s.length (if spec.precision ≠ 0 then spec.precision else 2 ^ 64 - 1) % 2 ^ 32) spec.precision
        else min s.length (if spec.precision ≠ 0 then spec.precision else 2 ^ 64 - 1) % 2 ^ 32) = shown.length := by
      rw [← cut]
      cases given : spec.flags.precision with
      | false =>
        rw [if_neg Bool.false_ne_true, sane given, if_neg (not_not.mpr rfl), if_neg Bool.false_ne_true]
        omega
      | true =>
        simp only [if_true, List.length_take]
        split <;> omega
    intro idx
    have pad (here : Bool) : Prints (spaces here (spec.width - shown.length)) _ := prints_outs _
    have printed := (pad (!spec.flags.left)).bind (body.bind (pad spec.flags.left)) idx
    unfold string
    rw [strnlen_append none]
    simp only [length]
    refine printed.trans (congrArg (outs · idx) ?_)
    rw [← Option.some.inj shape]
    cases spec.flags.left with
    | false => exact congrArg _ (List.append_nil shown)
    | true => rfl
  · cases shape

theorem withArg_prints {α : Type} {arg : Option (α × List Arg)} {print : α → Nat → Printing Nat} {a : α}
    {va : List Arg} {text : List UInt8} (found : arg = some (a, va)) (prints : Prints (print a) text) (idx : Nat) :
    withArg arg (print · idx) = outs text idx >>= fun idx => return (idx, va) := by
  subst found
  exact congrArg (· >>= fun idx => pure (idx, va)) (prints idx)

theorem convert_prints (sane : spec.flags.precision = false → spec.precision = 0) {floats : Floats} {c : UInt8}
    {va va' : List Arg} {text : List UInt8} (h : conversion floats spec c va = some (text, va')) (idx : Nat) :
    convert floats spec c va idx = outs text idx >>= fun idx => return (idx, va') := by
  unfold conversion at h
  unfold convert
  -- The branches of `conversion` are those of `convert`.
  split_ifs at h ⊢
  · obtain ⟨⟨value, va⟩, found, same⟩ := Option.map_eq_some_iff.mp h
    cases same
    exact withArg_prints found (integer_prints spec c value) idx
  · obtain ⟨⟨bits, va⟩, found, same⟩ := Option.map_eq_some_iff.mp h
    cases same
    exact withArg_prints found (prints_outs _) idx
  · obtain ⟨⟨bits, va⟩, found, same⟩ := Option.map_eq_some_iff.mp h
    cases same
    exact withArg_prints found (prints_outs _) idx
  · obtain ⟨⟨value, va⟩, found, same⟩ := Option.map_eq_some_iff.mp h
    cases same
    exact withArg_prints found (character_prints spec value) idx
  · obtain ⟨⟨p, va⟩, found, rest⟩ := Option.bind_eq_some_iff.mp h
    obtain ⟨shown, read, same⟩ := Option.map_eq_some_iff.mp rest
    cases same
    exact withArg_prints found (string_prints sane read) idx
  · obtain ⟨⟨value, va⟩, found, same⟩ := Option.map_eq_some_iff.mp h
    cases same
    exact withArg_prints found (pointer_prints spec value) idx
  · cases h
    rfl

end

/-! ### Formats -/

inductive Piece where
  | literal (c : UInt8)
  | directive (d : Directive)

namespace Piece

def bytes : Piece → List UInt8
  | literal c => [c]
  | directive d => '%'.toUInt8 :: d.bytes

def Proper : Piece → Prop
  | literal c => c ≠ 0 ∧ c ≠ '%'.toUInt8
  | directive d => d.Proper

def render (floats : Floats) : Piece → List Arg → Option (List UInt8 × List Arg)
  | literal c, va => some ([c], va)
  | directive d, va => (d.spec va).bind fun r => conversion floats r.1 d.specifier r.2

end Piece

/-- The texts of the pieces, each with the arguments that those before it left. -/
def render (floats : Floats) : List Piece → List Arg → Option (List UInt8)
  | [], _ => some []
  | piece :: pieces, va => (piece.render floats va).bind fun r => (render floats pieces r.2).map (r.1 ++ ·)

theorem Directive.spec_sane {d : Directive} {spec : Spec} {va va' : List Arg} (h : d.spec va = some (spec, va')) :
    spec.flags.precision = false → spec.precision = 0 := by
  intro plain
  unfold Directive.spec at h
  simp only [Option.bind_eq_bind, Option.bind_eq_some_iff, Option.pure_def, Option.some.injEq, Prod.mk.injEq,
    Prod.exists] at h
  obtain ⟨width, va₁, -, precision, va₂, read, rfl, -⟩ := h
  have none : d.precision = none := Option.isSome_eq_false_iff.mp plain |> Option.isNone_iff_eq_none.mp
  rw [none] at read
  cases read
  rfl

section

variable {floats : Floats} {va va' : List Arg} {text rest : List UInt8} {pieces : List Piece}

theorem vsnprintfLoop_piece {piece : Piece} (proper : piece.Proper) (h : piece.render floats va = some (text, va'))
    (rounds : Nat) (format : List UInt8) (idx : Nat) :
    vsnprintfLoop floats (rounds + 1) (piece.bytes ++ format) va idx =
      outs text idx >>= vsnprintfLoop floats rounds format va' := by
  cases piece with
  | literal c =>
    obtain ⟨nonzero, other⟩ := proper
    cases h
    exact (if_neg nonzero).trans (if_pos other)
  | directive d =>
    obtain ⟨⟨spec, va₁⟩, read, converted⟩ := Option.bind_eq_some_iff.mp h
    have spec_eq := readSpec_bytes proper format va
    rw [read, Option.map_some] at spec_eq
    have round : vsnprintfLoop floats (rounds + 1) ('%'.toUInt8 :: (d.bytes ++ format)) va idx =
        convert floats spec d.specifier va₁ idx >>= fun r => vsnprintfLoop floats rounds format r.2 r.1 := by
      refine (if_neg (by decide)).trans ((if_neg (by simp)).trans ?_)
      rw [spec_eq]
    refine round.trans ?_
    rw [convert_prints (Directive.spec_sane read) converted, bind_assoc]
    rfl

theorem vsnprintfLoop_prints (proper : ∀ piece ∈ pieces, piece.Proper) (h : render floats pieces va = some text)
    {rounds : Nat} (enough : pieces.length < rounds) :
    Prints (vsnprintfLoop floats rounds (pieces.flatMap Piece.bytes ++ 0 :: rest) va) text := by
  induction pieces generalizing va text rounds with
  | nil =>
    obtain ⟨rounds, rfl⟩ := Nat.exists_eq_add_of_lt enough
    cases h
    exact fun _ => rfl
  | cons piece pieces ih =>
    cases rounds with
    | zero => cases enough
    | succ rounds =>
      obtain ⟨⟨first, va'⟩, here, more⟩ := Option.bind_eq_some_iff.mp h
      obtain ⟨others, there, rfl⟩ := Option.map_eq_some_iff.mp more
      have tail := ih (fun p hp => proper p (List.mem_cons_of_mem piece hp)) there (Nat.lt_of_succ_lt_succ enough)
      intro idx
      rw [List.flatMap_cons, List.append_assoc, vsnprintfLoop_piece (proper piece List.mem_cons_self) here, outs_append]
      exact bind_congr tail

theorem Piece.bytes_ne_nil (piece : Piece) : 1 ≤ piece.bytes.length := by
  cases piece with
  | literal c => exact le_rfl
  | directive d => exact Nat.succ_le_succ (Nat.zero_le _)

theorem length_le_bytes (pieces : List Piece) : pieces.length ≤ (pieces.flatMap Piece.bytes).length := by
  induction pieces with
  | nil => exact le_rfl
  | cons piece pieces ih =>
    have := piece.bytes_ne_nil
    rw [List.flatMap_cons, List.length_append, List.length_cons]
    omega

theorem format_prints (proper : ∀ piece ∈ pieces, piece.Proper) (h : render floats pieces va = some text)
    (rest : List UInt8) :
    let format := pieces.flatMap Piece.bytes ++ 0 :: rest
    Prints (vsnprintfLoop floats format.length format va) text := by
  apply vsnprintfLoop_prints proper h
  have := length_le_bytes pieces
  rw [List.length_append, List.length_cons]
  omega

/-- A format of proper pieces prints the texts of the pieces. -/
theorem pieces_printed (proper : ∀ piece ∈ pieces, piece.Proper) (h : render floats pieces va = some text)
    (rest : List UInt8) :
    let format := pieces.flatMap Piece.bytes ++ 0 :: rest
    (∀ count < 2 ^ 64, ∀ cells, snprintf floats format va (some cells) count =
      some (signed 32 text.length, some (stored count text cells))) ∧
    ∀ {σ : Type} (fct : UInt8 → σ → Option σ) (arg : σ), fctprintf floats format va fct arg =
      ((text.filter (· ≠ 0)).foldlM (fun s c => fct c s) arg).map (signed 32 text.length, ·) := by
  have prints := format_prints proper h rest
  exact ⟨fun count lt cells => snprintf_stored prints lt cells, fctprintf_sends prints⟩

/-- `n%3i` -/
def numberPieces : List Piece :=
  [.literal 'n'.toUInt8,
    .directive { flags := [], width := some (.given 3), precision := none, length := .int, specifier := 'i'.toUInt8 }]

theorem numberPieces_proper : ∀ piece ∈ numberPieces, piece.Proper := by
  simp only [numberPieces, List.forall_mem_cons, List.not_mem_nil, false_implies, implies_true, and_true]
  refine ⟨by simp only [Piece.Proper]; decide, ?_, ?_, by decide⟩
  · rintro n ⟨rfl⟩
    decide
  · rintro n ⟨⟩

theorem numberPieces_text : render ⟨fun _ _ _ _ => [], fun _ _ _ _ => []⟩ numberPieces [.word 7] =
    some ("n  7".toList.map Char.toUInt8) := rfl

theorem pieces_printed_number :
    snprintf ⟨fun _ _ _ _ => [], fun _ _ _ _ => []⟩ (numberPieces.flatMap Piece.bytes ++ [0]) [.word 7]
        (some fun _ => 0) 4 =
      some (4, some (stored 4 ("n  7".toList.map Char.toUInt8) fun _ => 0)) := by
  exact (pieces_printed numberPieces_proper numberPieces_text []).1 4 (by decide) _

end

end Voyager.Printf
