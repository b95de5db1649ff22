import Mathlib.Data.List.Range
import Voyager.Interrupts.Stubs

/-!
# Interrupt vectors

The allocator of `idt.c` hands out any of 256 vectors; there are stubs for the first 100.
-/

namespace Voyager.Interrupts

open Lib Lib.X86

/-! ### The stubs -/

def isrErrStub (n : Nat) : List Instr := [.cli, .pushImm (.ofNat 64 n)]

def isrNoErrStub (n : Nat) : List Instr := [.cli, .pushImm 0, .pushImm (.ofNat 64 n)]

/-- The stub that `isr.asm` defines under the number `n`. -/
def isrStub (n : Nat) : List Instr :=
  if n ∈ [8, 10, 11, 12, 13, 14, 17, 30] then isrErrStub n
  else if n < 32 then isrNoErrStub n
  else isrIrqStub (.ofNat 64 n)

def stubCount : Nat := 100

/-- `isr_stub_table`, where the linker has put the stub `n` at `label n`. -/
def isrStubTable (label : Nat → Word) : List Word := (List.range stubCount).map label

theorem isrStub_pushes (n : Nat) : (isrStub n).getLast? = some (.pushImm (.ofNat 64 n)) := by
  unfold isrStub
  split
  · rfl
  · split <;> rfl

/-! ### The descriptors -/

structure Descriptor where
  baseLow : Nat
  cs : Nat
  ist : Nat
  attributes : Nat
  baseMid : Nat
  baseHigh : Nat
  rsv0 : Nat

structure Idt where
  idt : Nat → Descriptor
  vectors : Nat → Bool

def idtMaxDescriptors : Nat := 256

def gdtKernelBaseSelector : Nat := 0x28

/-- `IDT_DESCRIPTOR_EXTERNAL` and `IDT_DESCRIPTOR_EXCEPTION` alike. -/
def idtDescriptorExternal : Nat := 0x8E

def idtSetDescriptor (s : Idt) (vector : Nat) (isr : Word) (flags ist : Nat) : Idt :=
  let descriptor : Descriptor :=
    { baseLow := isr.toNat % 2 ^ 16
      baseMid := isr.toNat / 2 ^ 16 % 2 ^ 16
      baseHigh := isr.toNat / 2 ^ 32 % 2 ^ 32
      cs := gdtKernelBaseSelector
      ist := ist
      attributes := flags
      rsv0 := 0 }
  { s with idt := Function.update s.idt vector descriptor }

def Descriptor.target (d : Descriptor) : Nat := d.baseLow + d.baseMid * 2 ^ 16 + d.baseHigh * 2 ^ 32

def reservedCount : Nat := 32 + 16

def idtInitLoop (table : List Word) (s : Idt) : Nat → Idt
  | 0 => s
  | n + 1 =>
    let s := idtInitLoop table s n
    let s := idtSetDescriptor s n (table.getD n 0) idtDescriptorExternal 1
    { s with vectors := Function.update s.vectors n true }

def idtInit (table : List Word) : Idt :=
  idtInitLoop table ⟨fun _ => ⟨0, 0, 0, 0, 0, 0, 0⟩, fun _ => false⟩ reservedCount

def idtAllocateVector (s : Idt) : Nat × Idt :=
  match (List.range idtMaxDescriptors).find? fun i => !s.vectors i with
  | some i => (i % 256, { s with vectors := Function.update s.vectors i true })
  | none => (0, s)

def idtFreeVector (s : Idt) (vector : Nat) : Idt :=
  let s := idtSetDescriptor s vector 0 0 0
  { s with vectors := Function.update s.vectors vector false }

theorem target_setDescriptor (s : Idt) (vector : Nat) (isr : Word) (flags ist : Nat) :
    ((idtSetDescriptor s vector isr flags ist).idt vector).target = isr.toNat := by
  have bound := isr.isLt
  simp only [idtSetDescriptor, Function.update_self, Descriptor.target]
  omega

theorem idtInitLoop_vectors (table : List Word) (s : Idt) (n i : Nat) :
    (idtInitLoop table s n).vectors i = (decide (i < n) || s.vectors i) := by
  induction n with
  | zero => simp [idtInitLoop]
  | succ n ih =>
    simp only [idtInitLoop, idtSetDescriptor, Function.update_apply, ih]
    by_cases last : i = n
    · simp [last]
    · rw [if_neg last]
      congr 1
      simp only [decide_eq_decide]
      omega

/-! ### Runs -/

/-- The tables, and the vectors handed out and not given back. -/
structure Vectors extends Idt where
  live : List Nat

inductive VectorStep (table : List Word) (s : Vectors) : Vectors → Prop where
  -- A vector, and the descriptor its new owner sets. Past the end of the table `entry` is whatever lies
  -- there.
  | allocate {v : Nat} {t : Idt} (entry : Word) (run : idtAllocateVector s.toIdt = (v, t)) (nonzero : v ≠ 0)
      (read : ∀ e, table[v]? = some e → entry = e) :
      VectorStep table s ⟨idtSetDescriptor t v entry idtDescriptorExternal 1, v :: s.live⟩
  | exhausted {t : Idt} (run : idtAllocateVector s.toIdt = (0, t)) : VectorStep table s ⟨t, s.live⟩
  | free {v : Nat} (held : v ∈ s.live) : VectorStep table s ⟨idtFreeVector s.toIdt v, s.live.erase v⟩

def VectorRun (table : List Word) : Vectors → Prop :=
  Reachable (fun s => s.toIdt = idtInit table ∧ s.live = []) (VectorStep table)

structure VectorInv (s : Vectors) : Prop where
  nodup : s.live.Nodup
  range : ∀ v ∈ s.live, reservedCount ≤ v ∧ v < idtMaxDescriptors
  taken : ∀ i, s.vectors i = true ↔ i < reservedCount ∨ i ∈ s.live

variable {table : List Word} {s s' : Vectors} {t : Idt} {v : Nat}

theorem allocate_lowest (inv : VectorInv s) (run : idtAllocateVector s.toIdt = (v, t)) (nonzero : v ≠ 0) :
    reservedCount ≤ v ∧ v < idtMaxDescriptors ∧ v ∉ s.live ∧ (∀ i, reservedCount ≤ i → i < v → i ∈ s.live) ∧
      t = { s.toIdt with vectors := Function.update s.vectors v true } := by
  unfold idtAllocateVector at run
  split at run
  · rename_i i found
    obtain ⟨clear, inside, below⟩ := List.find?_range_eq_some.mp found
    rw [List.mem_range] at inside
    have same : i % 256 = i := Nat.mod_eq_of_lt inside
    rw [same] at run
    cases run
    have free : ¬ (v < reservedCount ∨ v ∈ s.live) := by
      rw [← inv.taken]
      simpa using clear
    push Not at free
    refine ⟨free.1, inside, free.2, fun j low lt => ?_, rfl⟩
    exact ((inv.taken j).mp (by simpa using below j lt)).resolve_left (Nat.not_lt.mpr low)
  · cases run
    exact absurd rfl nonzero

theorem allocate_exhausted (inv : VectorInv s) (run : idtAllocateVector s.toIdt = (0, t)) :
    t = s.toIdt ∧ ∀ i, reservedCount ≤ i → i < idtMaxDescriptors → i ∈ s.live := by
  unfold idtAllocateVector at run
  split at run
  · rename_i i found
    obtain ⟨clear, inside, below⟩ := List.find?_range_eq_some.mp found
    rw [List.mem_range] at inside
    have zero : i = 0 := by
      have same : i % 256 = i := Nat.mod_eq_of_lt inside
      rw [same] at run
      exact congrArg Prod.fst run
    have used := (inv.taken 0).mpr (.inl (by decide))
    simp [zero, used] at clear
  · rename_i none
    cases run
    refine ⟨rfl, fun i low lt => ?_⟩
    have used := List.find?_range_eq_none.mp none i lt
    exact ((inv.taken i).mp (by simpa using used)).resolve_left (Nat.not_lt.mpr low)

theorem VectorInv.allocate (inv : VectorInv s) (run : idtAllocateVector s.toIdt = (v, t)) (nonzero : v ≠ 0) :
    VectorInv ⟨t, v :: s.live⟩ := by
  obtain ⟨low, high, new, _, rfl⟩ := allocate_lowest inv run nonzero
  constructor
  · exact List.nodup_cons.mpr ⟨new, inv.nodup⟩
  · intro w hw
    rcases List.mem_cons.mp hw with rfl | hw
    · exact ⟨low, high⟩
    · exact inv.range w hw
  · intro i
    simp only [Function.update_apply, List.mem_cons]
    split
    · simp [*]
    · rw [inv.taken]
      simp [*]

theorem VectorInv.free (inv : VectorInv s) (held : v ∈ s.live) :
    VectorInv ⟨idtFreeVector s.toIdt v, s.live.erase v⟩ := by
  constructor
  · exact inv.nodup.erase v
  · exact fun w hw => inv.range w (List.mem_of_mem_erase hw)
  · intro i
    simp only [idtFreeVector, idtSetDescriptor, Function.update_apply, inv.nodup.mem_erase_iff]
    split
    · rename_i same
      subst same
      have := (inv.range i held).1
      simp
      omega
    · rw [inv.taken]
      simp [*]

theorem VectorStep.inv (h : VectorStep table s s') (inv : VectorInv s) : VectorInv s' := by
  cases h with
  | allocate entry run nonzero read =>
    -- The owner's descriptor is no part of the invariant.
    obtain ⟨nodup, range, taken⟩ := inv.allocate run nonzero
    exact ⟨nodup, range, taken⟩
  | exhausted run =>
    obtain ⟨rfl, _⟩ := allocate_exhausted inv run
    exact inv
  | free held => exact inv.free held

theorem VectorInv.start (start : s.toIdt = idtInit table) (none : s.live = []) : VectorInv s := by
  refine ⟨by simp [none], by simp [none], fun i => ?_⟩
  rw [start, none, idtInit, idtInitLoop_vectors]
  simp

theorem VectorRun.inv (h : VectorRun table s) : VectorInv s :=
  h.invariant (fun _ start => .start start.1 start.2) fun _ _ inv step => step.inv inv

/-! ### The two calls by themselves -/

def allocated (s : Vectors) : Vectors :=
  let r := idtAllocateVector s.toIdt
  ⟨r.2, if r.1 = 0 then s.live else r.1 :: s.live⟩

inductive CallStep (s : Vectors) : Vectors → Prop where
  | allocate : CallStep s (allocated s)
  | free {v : Nat} (held : v ∈ s.live) : CallStep s ⟨idtFreeVector s.toIdt v, s.live.erase v⟩

def CallRun (table : List Word) : Vectors → Prop :=
  Reachable (fun s => s.toIdt = idtInit table ∧ s.live = []) CallStep

theorem CallStep.inv (h : CallStep s s') (inv : VectorInv s) : VectorInv s' := by
  cases h with
  | allocate =>
    obtain ⟨⟨v, t⟩, run⟩ : ∃ r, idtAllocateVector s.toIdt = r := ⟨_, rfl⟩
    unfold allocated
    rw [run]
    dsimp only
    split
    · rename_i zero
      subst zero
      obtain ⟨rfl, _⟩ := allocate_exhausted inv run
      exact inv
    · rename_i nonzero
      exact inv.allocate run nonzero
  | free held => exact inv.free held

theorem CallRun.inv (h : CallRun table s) : VectorInv s :=
  h.invariant (fun _ start => .start start.1 start.2) fun _ _ inv step => step.inv inv

/-- Whatever was allocated and freed before, `idt_allocate_vector` returns the lowest vector from 48 on
that is not live, and 0 exactly if there is none. -/
theorem idtAllocateVector_exclusive (h : CallRun table s) :
    ((idtAllocateVector s.toIdt).1 ≠ 0 →
      48 ≤ (idtAllocateVector s.toIdt).1 ∧ (idtAllocateVector s.toIdt).1 ≤ 255 ∧
        (idtAllocateVector s.toIdt).1 ∉ s.live ∧
        ∀ i, 48 ≤ i → i < (idtAllocateVector s.toIdt).1 → i ∈ s.live) ∧
      ((idtAllocateVector s.toIdt).1 = 0 ↔ ∀ i, 48 ≤ i → i ≤ 255 → i ∈ s.live) := by
  have inv := h.inv
  obtain ⟨⟨v, t⟩, run⟩ : ∃ r, idtAllocateVector s.toIdt = r := ⟨_, rfl⟩
  rw [run]
  dsimp only
  constructor
  · intro nonzero
    obtain ⟨low, high, new, below, _⟩ := allocate_lowest inv run nonzero
    exact ⟨low, Nat.le_of_lt_succ high, new, below⟩
  · constructor
    · intro zero
      subst zero
      exact fun i low high => (allocate_exhausted inv run).2 i low (Nat.lt_succ_of_le high)
    · intro full
      by_contra nonzero
      obtain ⟨low, high, new, _⟩ := allocate_lowest inv run nonzero
      exact new (full v low (Nat.le_of_lt_succ high))

theorem idtAllocateVector_reused : ∃ s, CallRun [] s ∧ s.live = [] ∧ (idtAllocateVector s.toIdt).1 = 48 := by
  have start : CallRun [] ⟨idtInit [], []⟩ := .start ⟨rfl, rfl⟩
  have one : (allocated ⟨idtInit [], []⟩).live = [48] := by decide +kernel
  have held : 48 ∈ (allocated ⟨idtInit [], []⟩).live := one ▸ List.mem_singleton_self 48
  have run := (start.step .allocate).step (.free held)
  refine ⟨_, run, ?_, ?_⟩
  · rw [one]
    rfl
  · obtain ⟨lowest, full⟩ := idtAllocateVector_exclusive run
    rw [one] at lowest full
    have nonzero := mt full.mp fun live => absurd (live 48 (by decide) (by decide)) (by decide)
    obtain ⟨low, _, _, below⟩ := lowest nonzero
    by_contra other
    exact absurd (below 48 (by decide) (Nat.lt_of_le_of_ne low (Ne.symm other))) (by decide)

/-- A stub of its own, so that the descriptor leads to code that pushes `v`. -/
def HasStub (label : Nat → Word) (s : Idt) (v : Nat) : Prop :=
  ∃ e, (isrStubTable label)[v]? = some e ∧ e = label v ∧ (isrStub v).getLast? = some (.pushImm (.ofNat 64 v)) ∧
    ((idtSetDescriptor s v e idtDescriptorExternal 1).idt v).target = (label v).toNat

theorem hasStub_iff (label : Nat → Word) (t : Idt) (v : Nat) : HasStub label t v ↔ v < stubCount := by
  unfold HasStub isrStubTable
  constructor
  · rintro ⟨e, found, _⟩
    simpa using (List.getElem?_eq_some_iff.mp found).1
  · intro lt
    refine ⟨label v, ?_, rfl, isrStub_pushes v, target_setDescriptor _ _ _ _ _⟩
    rw [List.getElem?_map, List.getElem?_range lt]
    rfl

/-- A vector that is handed out has a stub unless all below 100 are live and some vector above is not. -/
theorem vector_has_stub_iff (label : Nat → Word) (h : VectorRun (isrStubTable label) s) :
    ((idtAllocateVector s.toIdt).1 ≠ 0 → HasStub label (idtAllocateVector s.toIdt).2 (idtAllocateVector s.toIdt).1) ↔
      (∃ v, reservedCount ≤ v ∧ v < stubCount ∧ v ∉ s.live) ∨ ∀ v,
        reservedCount ≤ v → v < idtMaxDescriptors → v ∈ s.live := by
  have inv := h.inv
  obtain ⟨⟨v, t⟩, run⟩ : ∃ r, idtAllocateVector s.toIdt = r := ⟨_, rfl⟩
  rw [run, hasStub_iff]
  dsimp only
  by_cases zero : v = 0
  · subst zero
    obtain ⟨_, full⟩ := allocate_exhausted inv run
    exact ⟨fun _ => .inr full, fun _ none => absurd rfl none⟩
  · obtain ⟨low, high, new, below, _⟩ := allocate_lowest inv run zero
    constructor
    · exact fun small => .inl ⟨v, low, small zero, new⟩
    · rintro (⟨w, wlow, whigh, free⟩ | full) _
      · by_contra large
        exact free (below w wlow (by omega))
      · exact absurd (full v low high) new

/-! ### A long history -/

def sampleLabel (n : Nat) : Word := .ofNat 64 (0xFFFFFFFF80000000 + 16 * n)

theorem vector_run_start : ∃ s, VectorRun (isrStubTable sampleLabel) s ∧ s.live = [] :=
  ⟨⟨idtInit _, []⟩, .start ⟨rfl, rfl⟩, rfl⟩

theorem allocate_next {n : Nat} (inv : VectorInv s)
    (live : ∀ v, v ∈ s.live ↔ reservedCount ≤ v ∧ v < reservedCount + n)
    (fits : reservedCount + n < idtMaxDescriptors) : ∃ t, idtAllocateVector s.toIdt = (reservedCount + n, t) := by
  obtain ⟨⟨v, t⟩, alloc⟩ : ∃ r, idtAllocateVector s.toIdt = r := ⟨_, rfl⟩
  have nonzero : v ≠ 0 := by
    rintro rfl
    have full := (allocate_exhausted inv alloc).2 (reservedCount + n) (by omega) fits
    have := (live _).mp full
    omega
  obtain ⟨low, _, new, below, _⟩ := allocate_lowest inv alloc nonzero
  have next : v = reservedCount + n := by
    rw [live] at new
    by_contra ne
    have inside := (live _).mp (below (reservedCount + n) (by omega) (by omega))
    omega
  exact ⟨t, next ▸ alloc⟩

theorem vector_run_fill (n : Nat) (fits : reservedCount + n ≤ idtMaxDescriptors) :
    ∃ s, VectorRun (isrStubTable sampleLabel) s ∧ ∀ v, v ∈ s.live ↔ reservedCount ≤ v ∧ v < reservedCount + n := by
  induction n with
  | zero =>
    obtain ⟨s, run, none⟩ := vector_run_start
    refine ⟨s, run, fun v => ?_⟩
    rw [none]
    simp
  | succ n ih =>
    obtain ⟨s, run, live⟩ := ih (by omega)
    obtain ⟨t, alloc⟩ := allocate_next run.inv live (by omega)
    have nonzero : reservedCount + n ≠ 0 := by
      unfold reservedCount
      omega
    refine ⟨_, .step run (.allocate ((isrStubTable sampleLabel).getD
      (reservedCount + n) 0) alloc nonzero fun e found => ?_),
      fun w => ?_⟩
    · rw [List.getD_eq_getElem?_getD, found, Option.getD_some]
    · rw [List.mem_cons, live]
      omega

theorem vector_has_stub_first : ∃ s, VectorRun (isrStubTable sampleLabel) s ∧ (idtAllocateVector s.toIdt).1 ≠ 0 ∧
    HasStub sampleLabel (idtAllocateVector s.toIdt).2 (idtAllocateVector s.toIdt).1 := by
  obtain ⟨s, run, none⟩ := vector_run_start
  have nonzero : (idtAllocateVector s.toIdt).1 ≠ 0 := fun zero => by
    have full := (allocate_exhausted run.inv (Prod.ext zero rfl)).2 48 (by decide) (by decide)
    simp [none] at full
  exact ⟨s, run, nonzero, (vector_has_stub_iff sampleLabel run).mpr
    (.inl ⟨48, by decide, by decide, by simp [none]⟩) nonzero⟩

theorem vector_without_stub : ∃ s, VectorRun (isrStubTable sampleLabel) s ∧ (idtAllocateVector s.toIdt).1 = 100 ∧
    (isrStubTable sampleLabel)[100]? = none ∧ ¬ HasStub sampleLabel (idtAllocateVector s.toIdt).2 100 := by
  obtain ⟨s, run, live⟩ := vector_run_fill 52 (by decide)
  obtain ⟨t, alloc⟩ := allocate_next run.inv live (by decide)
  refine ⟨s, run, ?_, by decide, ?_⟩
  · rw [alloc]
    rfl
  · rw [hasStub_iff]
    decide

end Voyager.Interrupts
