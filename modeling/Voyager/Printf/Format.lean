import Voyager.Lib.Calls
import Voyager.Lib.Decimal
import Voyager.Machine

/-!
# printf.c

A byte behind the end of a string, and an argument that is missing or of another type, is a
fault. The index is a `size_t`: a text is taken to be shorter than `2 ^ 64` characters.
-/

namespace Voyager.Printf

open Lib

abbrev Printing := Calls (UInt8 × Nat) Unit

abbrev Sink := Device (UInt8 × Nat) Unit

def out (c : UInt8) (idx : Nat) : Printing Unit := .call (c, idx) (.done ())

/-- `out(c, buffer, idx++, maxlen)` for one character after the other. -/
def outs : List UInt8 → Nat → Printing Nat
  | [], idx => return idx
  | c :: rest, idx => do
    out c idx
    outs rest (idx + 1)

def spaces (here : Bool) (n idx : Nat) : Printing Nat := outs (if here then List.replicate n ' '.toUInt8 else []) idx

structure Flags where
  zeropad : Bool := false
  left : Bool := false
  plus : Bool := false
  space : Bool := false
  hash : Bool := false
  uppercase : Bool := false
  char : Bool := false
  short : Bool := false
  long : Bool := false
  longLong : Bool := false
  precision : Bool := false
  adaptExp : Bool := false
  deriving DecidableEq

/-- What `va_arg` finds. -/
inductive Arg where
  | word (value : Nat)
  | text (address : Nat) (bytes : List UInt8) -- A pointer, and the bytes that can be read there.
  | double (bits : Nat)

/-- The characters of `_ftoa` and `_etoa`. -/
structure Floats where
  ftoa (bits prec width : Nat) (flags : Flags) : List UInt8
  etoa (bits prec width : Nat) (flags : Flags) : List UInt8

/-- A word as a signed number of `bits` bits. -/
def signed (bits value : Nat) : Int :=
  if value % 2 ^ bits < 2 ^ (bits - 1) then (value % 2 ^ bits : Nat) else (value % 2 ^ bits : Nat) - 2 ^ bits

def strnlen : List UInt8 → Nat → Option Nat
  | [], _ => none
  | c :: rest, maxsize =>
    if c = 0 then some 0
    else match maxsize with
      | 0 => some 0
      | maxsize + 1 => (strnlen rest maxsize).map (· + 1)

def atoi : List UInt8 → Nat → Option (Nat × List UInt8)
  | [], _ => none
  | c :: rest, i => if isDigit c then atoi rest ((i * 10 + (c - '0'.toUInt8).toNat) % 2 ^ 32) else some (i, c :: rest)

def ntoaBufferSize : Nat := 32

/-- `buf` holds the characters last one first, and its length is `len`. -/
def outRev (idx : Nat) (buf : List UInt8) (width : Nat) (flags : Flags) : Printing Nat := do
  let startIdx := idx
  let idx ← spaces (!flags.left && !flags.zeropad) (width - buf.length) idx
  let idx ← outs buf.reverse idx
  spaces flags.left (width - (idx - startIdx)) idx

def push (buf : List UInt8) (c : UInt8) : List UInt8 := if buf.length < ntoaBufferSize then buf ++ [c] else buf

/-- `while ((len < limit) && (len < PRINTF_NTOA_BUFFER_SIZE)) buf[len++] = '0'` -/
def padZeros (buf : List UInt8) (limit : Nat) : List UInt8 :=
  buf ++ List.replicate (min limit ntoaBufferSize - buf.length) '0'.toUInt8

/-- The zeros that the prefix of `#` shall replace are taken back. -/
def unpad (buf : List UInt8) (base prec width : Nat) (flags : Flags) : List UInt8 :=
  if flags.precision = false ∧ buf.length ≠ 0 ∧ (buf.length = prec ∨ buf.length = width) then
    if buf.dropLast.length ≠ 0 ∧ base = 16 then buf.dropLast.dropLast else buf.dropLast
  else buf

/-- `handle hash` -/
def hashed (buf : List UInt8) (base prec width : Nat) (flags : Flags) : List UInt8 :=
  let buf := unpad buf base prec width flags
  let buf :=
    if base = 16 then push buf (if flags.uppercase then 'X'.toUInt8 else 'x'.toUInt8)
    else if base = 2 then push buf 'b'.toUInt8
    else buf
  push buf '0'.toUInt8

def withSign (buf : List UInt8) (negative : Bool) (flags : Flags) : List UInt8 :=
  if negative then push buf '-'.toUInt8
  else if flags.plus then push buf '+'.toUInt8
  else if flags.space then push buf ' '.toUInt8
  else buf

def digitsWidth (width : Nat) (negative : Bool) (flags : Flags) : Nat :=
  if !flags.left && width ≠ 0 && flags.zeropad && (negative || flags.plus || flags.space) then width - 1 else width

/-- `buf` as `_ntoa_format` leaves it. -/
def ntoaBuf (buf : List UInt8) (negative : Bool) (base prec width : Nat) (flags : Flags) : List UInt8 :=
  let buf := if !flags.left then padZeros buf prec else buf
  let buf := if !flags.left && flags.zeropad then padZeros buf width else buf
  let buf := if flags.hash then hashed buf base prec width flags else buf
  withSign buf negative flags

def ntoaFormat (idx : Nat) (buf : List UInt8) (negative : Bool) (base prec width : Nat) (flags : Flags) :
    Printing Nat :=
  let width := digitsWidth width negative flags
  outRev idx (ntoaBuf buf negative base prec width flags) width flags

def digitChar (uppercase : Bool) (digit : Nat) : UInt8 :=
  if digit < 10 then '0'.toUInt8 + UInt8.ofNat digit
  else (if uppercase then 'A'.toUInt8 else 'a'.toUInt8) + UInt8.ofNat digit - 10

/-- The loop over the digits; the first number is the room that is left in `buf`. -/
def ntoaDigits (uppercase : Bool) (base : Nat) : Nat → Nat → List UInt8
  | 0, _ => []
  | room + 1, value =>
    digitChar uppercase (value % base) ::
      if value / base = 0 then [] else ntoaDigits uppercase base room (value / base)

/-- `_ntoa_long` and `_ntoa_long_long`: both types have 64 bits. -/
def ntoa (idx value : Nat) (negative : Bool) (base prec width : Nat) (flags : Flags) : Printing Nat :=
  let flags := if value = 0 then { flags with hash := false } else flags
  let buf := if !flags.precision || value ≠ 0 then ntoaDigits flags.uppercase base ntoaBufferSize value else []
  ntoaFormat idx buf negative base prec width flags

def ntoaLong : Nat → Nat → Bool → Nat → Nat → Nat → Flags → Printing Nat := ntoa

def ntoaLongLong : Nat → Nat → Bool → Nat → Nat → Nat → Flags → Printing Nat := ntoa

def vaWord : List Arg → Option (Nat × List Arg)
  | .word value :: va => some (value % 2 ^ 64, va)
  | .text address _ :: va => some (address % 2 ^ 64, va)
  | _ => none

def vaText : List Arg → Option (List UInt8 × List Arg)
  | .text _ bytes :: va => some (bytes, va)
  | _ => none

def vaDouble : List Arg → Option (Nat × List Arg)
  | .double bits :: va => some (bits, va)
  | _ => none

def readFlags : List UInt8 → Flags → Option (Flags × List UInt8)
  | [], _ => none
  | c :: rest, flags =>
    if c = '0'.toUInt8 then readFlags rest { flags with zeropad := true }
    else if c = '-'.toUInt8 then readFlags rest { flags with left := true }
    else if c = '+'.toUInt8 then readFlags rest { flags with plus := true }
    else if c = ' '.toUInt8 then readFlags rest { flags with space := true }
    else if c = '#'.toUInt8 then readFlags rest { flags with hash := true }
    else some (flags, c :: rest)

def readWidth (flags : Flags) (va : List Arg) : List UInt8 → Option (Flags × Nat × List UInt8 × List Arg)
  | [] => none
  | c :: rest =>
    if isDigit c then do
      let (width, format) ← atoi (c :: rest) 0
      return (flags, width, format, va)
    else if c = '*'.toUInt8 then do
      let (value, va) ← vaWord va
      let w := signed 32 value
      return ({ flags with left := flags.left || w < 0 }, w.natAbs, rest, va)
    else some (flags, 0, c :: rest, va)

/-- The precision, behind the dot. -/
def readPrecision (flags : Flags) (va : List Arg) : List UInt8 → Option (Flags × Nat × List UInt8 × List Arg)
  | [] => none
  | c :: rest =>
    if c = '.'.toUInt8 then
      let flags := { flags with precision := true }
      match rest with
      | [] => none
      | d :: rest' =>
        if isDigit d then do
          let (precision, format) ← atoi rest 0
          return (flags, precision, format, va)
        else if d = '*'.toUInt8 then do
          let (value, va) ← vaWord va
          return (flags, (signed 32 value).toNat, rest', va)
        else some (flags, 0, rest, va)
    else some (flags, 0, c :: rest, va)

def readLength (flags : Flags) : List UInt8 → Option (Flags × List UInt8)
  | [] => none
  | c :: rest =>
    if c = 'l'.toUInt8 then
      match rest with
      | [] => none
      | d :: rest' =>
        if d = 'l'.toUInt8 then some ({ flags with long := true, longLong := true }, rest')
        else some ({ flags with long := true }, rest)
    else if c = 'h'.toUInt8 then
      match rest with
      | [] => none
      | d :: rest' =>
        if d = 'h'.toUInt8 then some ({ flags with short := true, char := true }, rest')
        else some ({ flags with short := true }, rest)
    else if c = 't'.toUInt8 ∨ c = 'j'.toUInt8 ∨ c = 'z'.toUInt8 then some ({ flags with long := true }, rest)
    else some (flags, c :: rest)

structure Spec where
  flags : Flags
  width : Nat
  precision : Nat

/-- What stands between `%` and the specifier. -/
def readSpec (format : List UInt8) (va : List Arg) : Option (Spec × List UInt8 × List Arg) := do
  let (flags, format) ← readFlags format {}
  let (flags, width, format, va) ← readWidth flags va format
  let (flags, precision, format, va) ← readPrecision flags va format
  let (flags, format) ← readLength flags format
  return ({ flags, width, precision }, format, va)

def baseOf (c : UInt8) : Nat :=
  if c = 'x'.toUInt8 ∨ c = 'X'.toUInt8 then 16
  else if c = 'o'.toUInt8 then 8
  else if c = 'b'.toUInt8 then 2
  else 10

def isSigned (c : UInt8) : Bool := c = 'i'.toUInt8 || c = 'd'.toUInt8

/-- The flags as the integer conversions change them. -/
def integerFlags (flags : Flags) (c : UInt8) : Flags :=
  { flags with
    hash := flags.hash && baseOf c ≠ 10
    uppercase := flags.uppercase || c = 'X'.toUInt8
    plus := flags.plus && isSigned c
    space := flags.space && isSigned c
    zeropad := flags.zeropad && !flags.precision }

/-- The width of the argument, in bits. -/
def argBits (flags : Flags) : Nat :=
  if flags.longLong ∨ flags.long then 64 else if flags.char then 8 else if flags.short then 16 else 32

def integer (spec : Spec) (c : UInt8) (value idx : Nat) : Printing Nat :=
  let flags := integerFlags spec.flags c
  let convert := if flags.longLong then ntoaLongLong else ntoaLong
  if isSigned c then
    let value := signed (argBits flags) value
    convert idx value.natAbs (value < 0) (baseOf c) spec.precision spec.width flags
  else convert idx (value % 2 ^ argBits flags) false (baseOf c) spec.precision spec.width flags

def character (spec : Spec) (value idx : Nat) : Printing Nat := do
  let idx ← spaces (!spec.flags.left) (spec.width - 1) idx
  let idx ← outs [UInt8.ofNat value] idx
  spaces spec.flags.left (spec.width - 1) idx

/-- The string, up to its end or to the precision. -/
def outText : List UInt8 → Option Nat → Nat → Printing Nat
  | [], _, _ => .fault
  | c :: rest, limit, idx =>
    if c = 0 ∨ limit = some 0 then return idx
    else do
      out c idx
      outText rest (limit.map (· - 1)) (idx + 1)

def string (spec : Spec) (p : List UInt8) (idx : Nat) : Printing Nat :=
  match strnlen p (if spec.precision ≠ 0 then spec.precision else 2 ^ 64 - 1) with
  | none => .fault
  | some n => do
    let l := n % 2 ^ 32
    let l := if spec.flags.precision then min l spec.precision else l
    let idx ← spaces (!spec.flags.left) (spec.width - l) idx
    let idx ← outText p (if spec.flags.precision then some spec.precision else none) idx
    spaces spec.flags.left (spec.width - l) idx

def pointer (spec : Spec) (value idx : Nat) : Printing Nat :=
  ntoaLongLong idx value false 16 spec.precision 16 { spec.flags with zeropad := true, uppercase := true }

def isInteger (c : UInt8) : Bool :=
  isSigned c || c = 'u'.toUInt8 || c = 'x'.toUInt8 || c = 'X'.toUInt8 || c = 'o'.toUInt8 || c = 'b'.toUInt8

def isFixed (c : UInt8) : Bool := c = 'f'.toUInt8 || c = 'F'.toUInt8

def isExponent (c : UInt8) : Bool := c = 'e'.toUInt8 || c = 'E'.toUInt8 || c = 'g'.toUInt8 || c = 'G'.toUInt8

/-- Continue with what an argument gives. -/
def withArg {α : Type} (arg : Option (α × List Arg)) (print : α → Printing Nat) : Printing (Nat × List Arg) :=
  match arg with
  | none => .fault
  | some (a, va) => do
    let idx ← print a
    return (idx, va)

/-- The `switch` over the specifier. -/
def convert (floats : Floats) (spec : Spec) (c : UInt8) (va : List Arg) (idx : Nat) : Printing (Nat × List Arg) :=
  let flags := spec.flags
  if isInteger c then withArg (vaWord va) (integer spec c · idx)
  else if isFixed c then
    withArg (vaDouble va) fun bits =>
      outs (floats.ftoa bits spec.precision spec.width
        { flags with uppercase := flags.uppercase || c = 'F'.toUInt8 }) idx
  else if isExponent c then
    withArg (vaDouble va) fun bits =>
      outs (floats.etoa bits spec.precision spec.width
        { flags with
          adaptExp := flags.adaptExp || c = 'g'.toUInt8 || c = 'G'.toUInt8
          uppercase := flags.uppercase || c = 'E'.toUInt8 || c = 'G'.toUInt8 }) idx
  else if c = 'c'.toUInt8 then withArg (vaWord va) (character spec · idx)
  else if c = 's'.toUInt8 then withArg (vaText va) (string spec · idx)
  else if c = 'p'.toUInt8 then withArg (vaWord va) (pointer spec · idx)
  else do
    -- `%%`, and every byte that is no specifier.
    let idx ← outs [c] idx
    return (idx, va)

/-- The loop of `_vsnprintf`. Each round takes a byte, so the bytes bound the rounds. -/
def vsnprintfLoop (floats : Floats) : Nat → List UInt8 → List Arg → Nat → Printing Nat
  | 0, _, _, _ => .fault
  | _ + 1, [], _, _ => .fault
  | rounds + 1, c :: format, va, idx =>
    if c = 0 then return idx
    else if c ≠ '%'.toUInt8 then do
      let idx ← outs [c] idx
      vsnprintfLoop floats rounds format va idx
    else match readSpec format va with
      | none => .fault
      | some (_, [], _) => .fault
      | some (spec, c :: format, va) => do
        let (idx, va) ← convert floats spec c va idx
        vsnprintfLoop floats rounds format va idx

def vsnprintf (floats : Floats) (maxlen : Nat) (format : List UInt8) (va : List Arg) : Printing Int := do
  let idx ← vsnprintfLoop floats format.length format va 0
  out 0 (if idx < maxlen then idx else sub64 maxlen 1)
  return signed 32 idx

end Voyager.Printf
