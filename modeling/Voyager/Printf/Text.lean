import Voyager.Printf.Format

/-! # The text of a format -/

namespace Voyager.Printf

open Lib

theorem outs_append (xs ys : List UInt8) (idx : Nat) : outs (xs ++ ys) idx = outs xs idx >>= outs ys := by
  induction xs generalizing idx with
  | nil => rfl
  | cons c xs ih => exact congrArg (Calls.call (c, idx)) (ih (idx + 1))

theorem outs_bind_index {α : Type} (text : List UInt8) (idx : Nat) (f : Nat → Printing α) :
    outs text idx >>= f = outs text idx >>= fun _ => f (idx + text.length) := by
  induction text generalizing idx with
  | nil => rfl
  | cons c text ih =>
    rw [List.length_cons, Nat.add_comm text.length, ← Nat.add_assoc]
    exact congrArg (Calls.call (c, idx)) (ih (idx + 1))

/-- At every index the code prints `text`. -/
def Prints (m : Nat → Printing Nat) (text : List UInt8) : Prop := ∀ idx, m idx = outs text idx

/-- At every index the code faults, behind the same output. -/
def Faults (m : Nat → Printing Nat) : Prop := ∃ text, ∀ idx, m idx = outs text idx >>= fun _ => .fault

/-- What the code prints, and whether it faults, does not depend on the index. -/
def Uniform (m : Nat → Printing Nat) : Prop := (∃ text, Prints m text) ∨ Faults m

section

variable {m k : Nat → Printing Nat} {s t : List UInt8}

theorem prints_outs (text : List UInt8) : Prints (outs text) text := fun _ => rfl

theorem prints_nothing : Prints (fun idx => return idx) [] := fun _ => rfl

theorem Prints.bind (hm : Prints m s) (hk : Prints k t) : Prints (fun idx => m idx >>= k) (s ++ t) := by
  intro idx
  simp only [hm idx, outs_append]
  exact bind_congr hk

theorem Prints.uniform (h : Prints m t) : Uniform m := .inl ⟨t, h⟩

theorem Uniform.ite {c : Prop} [Decidable c] (hm : c → Uniform m) (hk : ¬ c → Uniform k) :
    Uniform fun idx => if c then m idx else k idx := by
  by_cases h : c
  · simpa only [if_pos h] using hm h
  · simpa only [if_neg h] using hk h

theorem uniform_fault : Uniform fun _ => .fault := .inr ⟨[], fun _ => rfl⟩

theorem Uniform.bind (hm : Uniform m) (hk : Uniform k) : Uniform fun idx => m idx >>= k := by
  obtain ⟨s, hm⟩ | ⟨s, hm⟩ := hm
  · obtain ⟨t, hk⟩ | ⟨t, hk⟩ := hk
    · exact (hm.bind hk).uniform
    · refine .inr ⟨s ++ t, fun idx => ?_⟩
      simp only [hm idx, outs_append, bind_assoc]
      exact bind_congr hk
  · refine .inr ⟨s, fun idx => ?_⟩
    simp only [hm idx, bind_assoc]
    rfl

end

/-- A field of the width: the text, and spaces on the side that the flags say. -/
def padded (text : List UInt8) (width : Nat) (flags : Flags) : List UInt8 :=
  let pad := List.replicate (width - text.length) ' '.toUInt8
  if flags.left then text ++ pad else if flags.zeropad then text else pad ++ text

theorem outRev_prints (buf : List UInt8) (width : Nat) (flags : Flags) :
    Prints (outRev · buf width flags) (padded buf.reverse width flags) := by
  intro idx
  unfold outRev padded spaces
  rw [List.length_reverse]
  cases flags.left with
  | true =>
    simp only [Bool.not_true, Bool.false_and, Bool.false_eq_true, if_false, if_true]
    rw [outs_append, outs_bind_index buf.reverse idx (outs _), List.length_reverse]
    refine (outs_bind_index buf.reverse idx _).trans ?_
    rw [List.length_reverse, Nat.add_sub_cancel_left]
  | false =>
    cases flags.zeropad with
    | true => exact bind_pure (outs buf.reverse idx)
    | false =>
      refine Eq.trans ?_ (outs_append _ _ idx).symm
      exact bind_congr fun i => bind_pure (outs buf.reverse i)

def ntoaText (value : Nat) (negative : Bool) (base prec width : Nat) (flags : Flags) : List UInt8 :=
  let flags := if value = 0 then { flags with hash := false } else flags
  let buf := if !flags.precision || value ≠ 0 then ntoaDigits flags.uppercase base ntoaBufferSize value else []
  let width := digitsWidth width negative flags
  padded (ntoaBuf buf negative base prec width flags).reverse width flags

theorem ntoa_prints (value : Nat) (negative : Bool) (base prec width : Nat) (flags : Flags) :
    Prints (ntoa · value negative base prec width flags) (ntoaText value negative base prec width flags) :=
  fun idx => outRev_prints _ _ _ idx

def integerText (spec : Spec) (c : UInt8) (value : Nat) : List UInt8 :=
  let flags := integerFlags spec.flags c
  if isSigned c then
    let value := signed (argBits flags) value
    ntoaText value.natAbs (value < 0) (baseOf c) spec.precision spec.width flags
  else ntoaText (value % 2 ^ argBits flags) false (baseOf c) spec.precision spec.width flags

theorem integer_prints (spec : Spec) (c : UInt8) (value : Nat) :
    Prints (integer spec c value) (integerText spec c value) := by
  intro idx
  unfold integer integerText ntoaLong ntoaLongLong
  simp only [ite_self]
  split
  · exact ntoa_prints _ _ _ _ _ _ idx
  · exact ntoa_prints _ _ _ _ _ _ idx

def characterText (spec : Spec) (value : Nat) : List UInt8 :=
  let pad := List.replicate (spec.width - 1) ' '.toUInt8
  if spec.flags.left then UInt8.ofNat value :: pad else pad ++ [UInt8.ofNat value]

theorem character_prints (spec : Spec) (value : Nat) : Prints (character spec value) (characterText spec value) := by
  intro idx
  unfold character characterText spaces
  cases spec.flags.left with
  | true => exact (outs_append [UInt8.ofNat value] _ idx).symm
  | false => exact (outs_append _ [UInt8.ofNat value] idx).symm

def pointerText (spec : Spec) (value : Nat) : List UInt8 :=
  ntoaText value false 16 spec.precision 16 { spec.flags with zeropad := true, uppercase := true }

theorem pointer_prints (spec : Spec) (value : Nat) : Prints (pointer spec value) (pointerText spec value) :=
  ntoa_prints _ _ _ _ _ _

theorem outText_uniform (p : List UInt8) (limit : Option Nat) : Uniform (outText p limit) := by
  induction p generalizing limit with
  | nil => exact uniform_fault
  | cons c rest ih =>
    exact .ite (fun _ => prints_nothing.uniform) fun _ => (prints_outs [c]).uniform.bind (ih _)

theorem string_uniform (spec : Spec) (p : List UInt8) : Uniform (string spec p) := by
  unfold string
  split
  · exact uniform_fault
  · exact (prints_outs _).uniform.bind ((outText_uniform p _).bind (prints_outs _).uniform)

/-- Whatever uniform code follows, it stays uniform behind `m`. -/
def Converts (m : Nat → Printing (Nat × List Arg)) : Prop :=
  ∀ next : List Arg → Nat → Printing Nat, (∀ va, Uniform (next va)) → Uniform fun idx => m idx >>= fun r => next r.2 r.1

theorem Converts.ite {c : Prop} [Decidable c] {m k : Nat → Printing (Nat × List Arg)} (hm : Converts m)
    (hk : Converts k) : Converts fun idx => if c then m idx else k idx := by
  intro next hn
  by_cases h : c
  · simpa only [if_pos h] using hm next hn
  · simpa only [if_neg h] using hk next hn

theorem withArg_converts {α : Type} (arg : Option (α × List Arg)) {print : α → Nat → Printing Nat}
    (hp : ∀ a, Uniform (print a)) : Converts fun idx => withArg arg (print · idx) := by
  intro next hn
  cases arg with
  | none => exact uniform_fault
  | some r =>
    simp only [withArg, bind_assoc, pure_bind]
    exact (hp r.1).bind (hn r.2)

theorem convert_converts (floats : Floats) (spec : Spec) (c : UInt8) (va : List Arg) :
    Converts (convert floats spec c va) := by
  have other : Converts fun idx => outs [c] idx >>= fun idx => return (idx, va) := by
    intro next hn
    simp only [bind_assoc, pure_bind]
    exact (prints_outs [c]).uniform.bind (hn va)
  refine .ite ?integer <| .ite ?fixed <| .ite ?exponent <| .ite ?character <| .ite ?string <| .ite ?pointer other
  case integer => exact withArg_converts _ fun a => (integer_prints spec c a).uniform
  case fixed => exact withArg_converts _ fun a => (prints_outs _).uniform
  case exponent => exact withArg_converts _ fun a => (prints_outs _).uniform
  case character => exact withArg_converts _ fun a => (character_prints spec a).uniform
  case string => exact withArg_converts _ fun a => string_uniform spec a
  case pointer => exact withArg_converts _ fun a => (pointer_prints spec a).uniform

theorem vsnprintfLoop_uniform (floats : Floats) (rounds : Nat) (format : List UInt8) (va : List Arg) :
    Uniform (vsnprintfLoop floats rounds format va) := by
  induction rounds generalizing format va with
  | zero => exact uniform_fault
  | succ rounds ih =>
    cases format with
    | nil => exact uniform_fault
    | cons c format =>
      refine .ite (fun _ => prints_nothing.uniform) fun _ => .ite (fun _ => ?_) fun _ => ?_
      · exact (prints_outs [c]).uniform.bind (ih format va)
      · split
        · exact uniform_fault
        · exact uniform_fault
        · exact convert_converts _ _ _ _ _ fun va => ih _ va

end Voyager.Printf
