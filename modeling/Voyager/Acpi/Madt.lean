import Voyager.Lib.ByteSpace
import Voyager.Lib.Outcome
import Voyager.Machine

/-!
# The MADT

Addresses are relative to the table's first byte; what lies behind its last byte is readable
and arbitrary. How a vector grows is a parameter of the walk: here the vectors are lists.
-/

namespace Voyager.Acpi

open Lib ByteSpace

def madtSize : Nat := 44

/-- `length` of `struct sdt`, behind the signature. -/
def sdtLength (table : Bytes) : Nat := flat.load table 4 4

/-- The vectors that `madt_init` fills. -/
inductive Kind where
  | madtLapics
  | madtIoApics
  | madtIsos
  | madtNmis
deriving DecidableEq

def Kind.id : Kind → Nat
  | madtLapics => 0
  | madtIoApics => 1
  | madtIsos => 2
  | madtNmis => 4

/-- The `switch`: records with another `id` are skipped. -/
def Kind.ofId : Nat → Option Kind
  | 0 => some madtLapics
  | 1 => some madtIoApics
  | 2 => some madtIsos
  | 4 => some madtNmis
  | _ => none

/-- The vectors and the memory they grow in. `headers` lists the record headers that were read,
the last one first. -/
structure Madt (ρ V : Type) where
  memory : ρ
  vectors : Kind → V
  headers : List Nat

def headerLength (table : Bytes) (header : Nat) : Nat := max (table (header + 1)).toNat 2

section Walk

variable {ρ V : Type} (push : V → ρ → Nat → Kernel (V × ρ))

/-- One round of the loop: `VECTOR_PUSH_BACK` to the vector of the record's type. -/
def Madt.record (table : Bytes) (m : Madt ρ V) (header : Nat) : Kernel (Madt ρ V) :=
  match Kind.ofId (table header).toNat with
  | none => .ok { m with headers := header :: m.headers }
  | some kind => do
    let (v, memory) ← push (m.vectors kind) m.memory header
    return ⟨memory, Function.update m.vectors kind v, header :: m.headers⟩

def madtLoop (table : Bytes) (m : Madt ρ V) (offset : Nat) : Nat → Kernel (Madt ρ V)
  | 0 => .error .endless
  | fuel + 1 =>
    if sub64 (sub64 (sdtLength table) madtSize) offset < 2 then .ok m
    else do
      let header := madtSize + offset
      madtLoop table (← m.record push table header) (add64 offset (headerLength table header)) fuel

/-- `madt_init` on what `acpi_find_sdt` returned; `fuel` bounds the records. -/
def madtInit (table : Option Bytes) (m : Madt ρ V) (fuel : Nat) : Kernel (Madt ρ V) :=
  match table with
  | none => .error (.panic .noMadt)
  | some table => madtLoop push table m 0 fuel

end Walk

/-- `VECTOR_PUSH_BACK` when `krealloc` returns. -/
def append (xs : List Nat) (_ : Unit) (x : Nat) : Kernel (List Nat × Unit) := .ok (xs ++ [x], ())

/-- `VECTOR_INIT` in all four. -/
def Madt.empty : Madt Unit (List Nat) := ⟨(), fun _ => [], []⟩

/-- The records follow each other from `a` up to the end of the table, or to its last byte. -/
inductive Filled (table : Bytes) (stop : Nat) : Nat → Prop where
  | done {a : Nat} : a ≤ stop → stop < a + 2 → Filled table stop a
  | next {a : Nat} : a + 2 ≤ stop → Filled table stop (a + headerLength table a) → Filled table stop a

theorem headerLength_bounds (table : Bytes) (header : Nat) :
    2 ≤ headerLength table header ∧ headerLength table header < 256 := by
  have := (table (header + 1)).toNat_lt
  unfold headerLength
  omega

theorem sdtLength_lt (table : Bytes) : sdtLength table < 2 ^ 32 := by
  have := flat.load_lt table 4 4
  rwa [show (256 : Nat) ^ 4 = 2 ^ 32 by rfl] at this

variable {table : Bytes} {offset stop a fuel : Nat}

theorem Filled.le (h : Filled table stop a) : a ≤ stop := by
  cases h with
  | done le _ => exact le
  | next le _ => omega

theorem remaining (whole : madtSize ≤ sdtLength table) (le : madtSize + offset ≤ sdtLength table) :
    sub64 (sub64 (sdtLength table) madtSize) offset = sdtLength table - (madtSize + offset) := by
  have bound := sdtLength_lt table
  rw [sub64_of_le whole (by omega), sub64_of_le (by omega) (by omega)]
  omega

theorem remaining_wraps (past : sdtLength table < madtSize + offset) (near : offset < 2 ^ 33) :
    ¬ sub64 (sub64 (sdtLength table) madtSize) offset < 2 := by
  have bound := sdtLength_lt table
  unfold sub64 madtSize at *
  omega

section Rounds

variable {ρ V : Type} {push : V → ρ → Nat → Kernel (V × ρ)} {m : Madt ρ V}

theorem madtLoop_done (done : sub64 (sub64 (sdtLength table) madtSize) offset < 2) :
    madtLoop push table m offset (fuel + 1) = .ok m := by
  rw [madtLoop, if_pos done]

theorem madtLoop_more (more : ¬ sub64 (sub64 (sdtLength table) madtSize) offset < 2) :
    madtLoop push table m offset (fuel + 1) =
      m.record push table (madtSize + offset) >>= fun m =>
        madtLoop push table m (add64 offset (headerLength table (madtSize + offset))) fuel := by
  rw [madtLoop, if_neg more]

end Rounds

def Madt.listed (table : Bytes) (m : Madt Unit (List Nat)) (header : Nat) : Madt Unit (List Nat) where
  memory := ()
  vectors kind := if Kind.ofId (table header).toNat = some kind then m.vectors kind ++ [header] else m.vectors kind
  headers := header :: m.headers

variable {m m' : Madt Unit (List Nat)}

theorem record_append (table : Bytes) (m : Madt Unit (List Nat)) (header : Nat) :
    m.record append table header = .ok (m.listed table header) := by
  unfold Madt.record Madt.listed append
  split
  · rename_i none
    simp [none]
  · rename_i kind found
    have vectors : Function.update m.vectors kind (m.vectors kind ++ [header]) =
        fun k => if some kind = some k then m.vectors k ++ [header] else m.vectors k := by
      funext k
      by_cases same : k = kind
      · rw [same, Function.update_self, if_pos rfl]
      · rw [Function.update_of_ne same, if_neg fun h => same (Option.some.inj h).symm]
    rw [found, ← vectors]
    rfl

theorem madtLoop_append (more : ¬ sub64 (sub64 (sdtLength table) madtSize) offset < 2) :
    madtLoop append table m offset (fuel + 1) = madtLoop append table (m.listed table (madtSize + offset))
      (add64 offset (headerLength table (madtSize + offset))) fuel := by
  rw [madtLoop_more more, record_append, ok_bind]

theorem madtLoop_invariant {P : Madt Unit (List Nat) → Prop} (kept : ∀ m header, P m → P (m.listed table header))
    (start : P m) (run : madtLoop append table m offset fuel = .ok m') : P m' := by
  induction fuel generalizing m offset with
  | zero => cases run
  | succ fuel ih =>
    by_cases done : sub64 (sub64 (sdtLength table) madtSize) offset < 2
    · rw [madtLoop_done done] at run
      cases run
      exact start
    · rw [madtLoop_append done] at run
      exact ih (kept m _ start) run

theorem madtLoop_records (kept : ∀ kind, ∀ x ∈ m.vectors kind, x ∈ m.headers)
    (run : madtLoop append table m offset fuel = .ok m') : ∀ kind, ∀ x ∈ m'.vectors kind, x ∈ m'.headers := by
  refine madtLoop_invariant (P := fun m => ∀ kind, ∀ x ∈ m.vectors kind, x ∈ m.headers)
    (fun m header kept kind x hx => ?_) kept run
  unfold Madt.listed at hx ⊢
  dsimp only at hx ⊢
  split at hx
  · rcases List.mem_append.mp hx with old | new
    · exact List.mem_cons_of_mem _ (kept kind x old)
    · exact List.mem_cons.mpr (.inl (List.mem_singleton.mp new))
  · exact List.mem_cons_of_mem _ (kept kind x hx)

theorem madtLoop_reads (more : ¬ sub64 (sub64 (sdtLength table) madtSize) offset < 2)
    (run : madtLoop append table m offset fuel = .ok m') : madtSize + offset ∈ m'.headers := by
  cases fuel with
  | zero => cases run
  | succ fuel =>
    rw [madtLoop_append more] at run
    exact madtLoop_invariant (P := fun m => madtSize + offset ∈ m.headers)
      (fun _ _ read => List.mem_cons_of_mem _ read) List.mem_cons_self run

theorem madtLoop_inside (whole : madtSize ≤ sdtLength table) (filled : Filled table (sdtLength table) a) :
    ∀ m offset, a = madtSize + offset → ∃ fuel m', madtLoop append table m offset fuel = .ok m' ∧
      ∀ x ∈ m'.headers, x ∈ m.headers ∨ x + 2 ≤ sdtLength table := by
  induction filled with
  | done le last =>
    rintro m offset rfl
    refine ⟨1, m, madtLoop_done ?_, fun x hx => .inl hx⟩
    rw [remaining whole le]
    omega
  | next le rest ih =>
    rintro m offset rfl
    have step := headerLength_bounds table (madtSize + offset)
    have bound := sdtLength_lt table
    have past := rest.le
    have next : add64 offset (headerLength table (madtSize + offset)) =
      offset + headerLength table (madtSize + offset) :=
      add64_of_lt (by omega)
    obtain ⟨fuel, m', run, inside⟩ := ih (m.listed table (madtSize + offset))
      (offset + headerLength table (madtSize + offset)) (by omega)
    refine ⟨fuel + 1, m', ?_, fun x hx => ?_⟩
    · rw [madtLoop_append (by rw [remaining whole (by omega)]; omega), next]
      exact run
    · rcases inside x hx with old | new
      · rcases List.mem_cons.mp old with rfl | old
        · exact .inr le
        · exact .inl old
      · exact .inr new

theorem madtLoop_filled (whole : madtSize ≤ sdtLength table) (le : madtSize + offset ≤ sdtLength table)
    (run : madtLoop append table m offset fuel = .ok m') (inside : ∀ x ∈ m'.headers, x + 2 ≤ sdtLength table) :
    Filled table (sdtLength table) (madtSize + offset) := by
  induction fuel generalizing m offset with
  | zero => cases run
  | succ fuel ih =>
    have left := remaining whole le
    by_cases done : sub64 (sub64 (sdtLength table) madtSize) offset < 2
    · exact .done le (by omega)
    · have step := headerLength_bounds table (madtSize + offset)
      have bound := sdtLength_lt table
      have next : add64 offset (headerLength table (madtSize + offset)) =
        offset + headerLength table (madtSize + offset) :=
        add64_of_lt (by omega)
      rw [madtLoop_append done, next] at run
      have fits : madtSize + (offset + headerLength table (madtSize + offset)) ≤ sdtLength table := by
        by_contra past
        have read := madtLoop_reads (remaining_wraps (by omega) (by omega)) run
        have := inside _ read
        omega
      have rest := ih fits run
      rw [← Nat.add_assoc] at rest
      exact .next (by omega) rest

/-- The walk ends, and every header it reads and every record it keeps begins inside the table. -/
def StaysInside (table : Bytes) : Prop :=
  ∃ fuel m, madtInit append (some table) .empty fuel = .ok m ∧ (∀ x ∈ m.headers, x + 2 ≤ sdtLength table) ∧
    ∀ kind, ∀ x ∈ m.vectors kind, x + 2 ≤ sdtLength table

/-- The walk stays inside the table exactly when the records fill it. -/
theorem madtInit_inside_iff (table : Bytes) :
    StaysInside table ↔ madtSize ≤ sdtLength table ∧ Filled table (sdtLength table) madtSize := by
  constructor
  · rintro ⟨fuel, m, run, inside, _⟩
    have whole : madtSize ≤ sdtLength table := by
      by_contra short
      have read := madtLoop_reads (remaining_wraps (by omega) (by decide)) run
      have := inside _ read
      omega
    exact ⟨whole, madtLoop_filled whole whole run inside⟩
  · rintro ⟨whole, filled⟩
    obtain ⟨fuel, m, run, inside⟩ := madtLoop_inside whole filled .empty 0 rfl
    have headers : ∀ x ∈ m.headers, x + 2 ≤ sdtLength table :=
      fun x hx => (inside x hx).resolve_left (by simp [Madt.empty])
    have records := madtLoop_records (by simp [Madt.empty]) run
    exact ⟨fuel, m, run, headers, fun kind x hx => headers x (records kind x hx)⟩

/-- A table of 50 bytes whose only record claims 8. -/
def overrunTable : Bytes := fun a => if a = 4 then 50 else if a = 45 then 8 else 0

theorem madtInit_overrun : ¬ StaysInside overrunTable ∧ sdtLength overrunTable = 50 := by
  have length : sdtLength overrunTable = 50 := by simp [sdtLength, load, flat, overrunTable]
  have first : headerLength overrunTable madtSize = 8 := by decide
  refine ⟨?_, length⟩
  rintro ⟨fuel, m, run, inside, _⟩
  have filled := madtLoop_filled (by rw [length]; decide) (by rw [length]; decide) run inside
  rw [length] at filled
  cases filled with
  | done _ last => revert last; decide
  | next _ rest =>
    have past := rest.le
    rw [Nat.add_zero, first] at past
    revert past
    decide

end Voyager.Acpi
