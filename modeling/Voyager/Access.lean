import Voyager.Lib.ByteSpace
import Voyager.Lib.Outcome
import Voyager.Machine

/-!
# Checked accesses

The loops of `memset.c` and `memcpy.c`. An address that is not mapped is a page fault.
-/

namespace Voyager

open Lib ByteSpace

variable {σ : Type} (S : ByteSpace σ)

def readByte (m : σ) (a : Nat) : Kernel UInt8 :=
  if S.mapped m a then .ok (S.get m a) else .error (.pageFault a)

def writeByte (m : σ) (a : Nat) (v : UInt8) : Kernel σ :=
  if S.mapped m a then .ok (S.set m a v) else .error (.pageFault a)

def Readable (m : σ) (a n : Nat) : Prop := ∀ i < n, S.mapped m (a + i) = true

instance (m : σ) (a n : Nat) : Decidable (Readable S m a n) := inferInstanceAs (Decidable (∀ i < n, _))

def readField (m : σ) (a n : Nat) : Kernel Nat :=
  if Readable S m a n then .ok (S.load m a n) else .error (.pageFault a)

def writeField (m : σ) (a v n : Nat) : Kernel σ :=
  if Readable S m a n then .ok (S.store m a v n) else .error (.pageFault a)

/-- The loop of `memset`, with the number of bytes that are left. -/
def memset (m : σ) (a : Nat) (v : UInt8) : Nat → Kernel σ
  | 0 => .ok m
  | n + 1 => do memset (← writeByte S m a v) (a + 1) v n

def memcpy (m : σ) (dst src : Nat) : Nat → Kernel σ
  | 0 => .ok m
  | n + 1 => do memcpy (← writeByte S m dst (← readByte S m src)) (dst + 1) (src + 1) n

variable {S} {m : σ} {a n : Nat}

theorem readByte_ok (mapped : S.mapped m a = true) : readByte S m a = .ok (S.get m a) := if_pos mapped

theorem writeByte_ok (mapped : S.mapped m a = true) (v : UInt8) : writeByte S m a v = .ok (S.set m a v) := if_pos mapped

theorem readField_ok (readable : Readable S m a n) : readField S m a n = .ok (S.load m a n) := if_pos readable

theorem writeField_ok (readable : Readable S m a n) (v : Nat) : writeField S m a v n = .ok (S.store m a v n) :=
  if_pos readable

theorem Readable.of_region {P : σ → Prop} {D : Nat → Prop} (R : S.Region P D) (h : P m) (inside : ∀ i < n, D (a + i)) :
    Readable S m a n := fun i lt => R.mapped h (inside i lt)

section Loops

variable {P : σ → Prop} {D : Nat → Prop} {dst src : Nat}

theorem memset_ok (R : S.Region P D) (h : P m) (inside : ∀ i < n, D (a + i)) (v : UInt8) :
    memset S m a v n = .ok (S.fill m a v n) := by
  induction n generalizing m a with
  | zero => rw [fill_zero, memset]
  | succ n ih =>
    obtain ⟨here, rest⟩ := span_succ inside
    rw [memset, bind_eq (writeByte_ok (R.mapped h here) v), fill_succ]
    exact ih (R.keep v h here) rest

theorem memcpy_ok (R : S.Region P D) (h : P m) (target : ∀ i < n, D (dst + i)) (source : ∀ i < n, D (src + i)) :
    memcpy S m dst src n = .ok (S.copy m dst src n) := by
  induction n generalizing m dst src with
  | zero => rw [copy_zero, memcpy]
  | succ n ih =>
    obtain ⟨there, target⟩ := span_succ target
    obtain ⟨here, source⟩ := span_succ source
    rw [memcpy, bind_eq (readByte_ok (R.mapped h here)), bind_eq (writeByte_ok (R.mapped h there) _), copy_succ]
    exact ih (R.keep _ h there) target source

end Loops

end Voyager
