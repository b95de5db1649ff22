import Voyager.Lib.Bits
import Voyager.Lib.Outcome
import Voyager.Machine

/-!
# I/O APIC redirection

`ioapic.c` over the records that `madt_init` has collected. `writes` lists what went through
the windows, with the record of the chip, oldest first. Bits 16 to 23 of register 1 are the
index of the last redirection entry; the code takes them for the number of entries.
-/

namespace Voyager.Apic

open Lib

structure MadtIoApic where
  address : UInt32
  gsib : UInt32
  deriving DecidableEq

structure MadtIso where
  irqSource : UInt8
  gsi : UInt32
  flags : UInt16

structure RegisterWrite where
  ioApic : MadtIoApic
  register : UInt32
  value : UInt32

structure Bus where
  select : Nat → UInt32
  registers : Nat → UInt32 → UInt32
  writes : List RegisterWrite

/-! ### The code -/

def MadtIoApic.base (ioApic : MadtIoApic) : Nat := add64 ioApic.address.toNat Machine.higherHalfMemoryOffset

/-- `*(volatile uint32_t *) base = reg` -/
def Bus.selectRegister (bus : Bus) (ioApic : MadtIoApic) (reg : UInt32) : Bus :=
  { bus with select := Function.update bus.select ioApic.base reg }

def ioApicRead (bus : Bus) (ioApic : MadtIoApic) (reg : UInt32) : UInt32 × Bus :=
  let bus := bus.selectRegister ioApic reg
  (bus.registers ioApic.base (bus.select ioApic.base), bus)

def ioApicWrite (bus : Bus) (ioApic : MadtIoApic) (reg value : UInt32) : Bus :=
  let bus := bus.selectRegister ioApic reg
  let selected := bus.select ioApic.base
  { bus with
    registers := Function.update bus.registers ioApic.base
      (Function.update (bus.registers ioApic.base) selected value)
    writes := bus.writes ++ [⟨ioApic, selected, value⟩] }

def ioApicGsiCount (bus : Bus) (ioApic : MadtIoApic) : Nat × Bus :=
  let (version, bus) := ioApicRead bus ioApic 1
  (((version &&& 0xff0000) >>> 16).toNat, bus)

def ioApicFromGsi (bus : Bus) (gsi : UInt32) : List MadtIoApic → Kernel (MadtIoApic × Bus)
  | [] => .error (.panic (.noIoApic gsi.toNat))
  | ioApic :: ioApics =>
    if gsi ≥ ioApic.gsib then
      let (count, bus) := ioApicGsiCount bus ioApic
      if gsi.toNat < ioApic.gsib.toNat + count then .ok (ioApic, bus) else ioApicFromGsi bus gsi ioApics
    else ioApicFromGsi bus gsi ioApics

def redirection (lapicId : UInt32) (vector : UInt8) (flags : UInt16) (status : Bool) : UInt64 :=
  let redirect := vector.toUInt64
  let redirect := if flags &&& ((1 : UInt16) <<< 1) ≠ 0 then redirect ||| ((1 : UInt64) <<< 13) else redirect
  let redirect := if flags &&& ((1 : UInt16) <<< 3) ≠ 0 then redirect ||| ((1 : UInt64) <<< 15) else redirect
  let redirect := if status then redirect else redirect ||| ((1 : UInt64) <<< 16)
  redirect ||| lapicId.toUInt64 <<< 56

def ioApicSetGsiRedirect (bus : Bus) (ioApics : List MadtIoApic) (lapicId : UInt32) (vector gsi : UInt8)
    (flags : UInt16) (status : Bool) : Kernel Bus := do
  let (ioApic, bus) ← ioApicFromGsi bus gsi.toUInt32 ioApics
  let redirect := redirection lapicId vector flags status
  let ioRedirectTable := (gsi.toUInt32 - ioApic.gsib) * 2 + 16
  let bus := ioApicWrite bus ioApic ioRedirectTable redirect.toUInt32
  return ioApicWrite bus ioApic (ioRedirectTable + 1) (redirect >>> 32).toUInt32

def ioApicSetIrqRedirect (bus : Bus) (ioApics : List MadtIoApic) (lapicId : UInt32) (vector irq : UInt8)
    (status : Bool) : List MadtIso → Kernel Bus
  | [] => ioApicSetGsiRedirect bus ioApics lapicId vector irq 0 status
  | iso :: isos =>
    if iso.irqSource ≠ irq then ioApicSetIrqRedirect bus ioApics lapicId vector irq status isos
    else ioApicSetGsiRedirect bus ioApics lapicId vector iso.gsi.toUInt8 iso.flags status

/-! ### Pins -/

def Bus.lastEntry (bus : Bus) (ioApic : MadtIoApic) : Nat := (bus.registers ioApic.base 1).toNat % 2 ^ 24 / 2 ^ 16

def Bus.Covers (bus : Bus) (gsi : UInt32) (ioApic : MadtIoApic) : Prop :=
  ioApic.gsib ≤ gsi ∧ gsi.toNat ≤ ioApic.gsib.toNat + bus.lastEntry ioApic

def Bus.Disjoint (bus : Bus) (ioApics : List MadtIoApic) : Prop :=
  ioApics.Pairwise fun a b => ∀ gsi, ¬ (bus.Covers gsi a ∧ bus.Covers gsi b)

/-- The GSI that an interrupt maps to, with the flags of the override. -/
def routed (isos : List MadtIso) (irq : UInt8) : UInt32 × UInt16 :=
  match isos.find? (·.irqSource = irq) with
  | some iso => (iso.gsi, iso.flags)
  | none => (irq.toUInt32, 0)

def Bus.finds (bus : Bus) (gsi : UInt32) (ioApic : MadtIoApic) : Bool :=
  ioApic.gsib ≤ gsi ∧ gsi.toNat < ioApic.gsib.toNat + bus.lastEntry ioApic

variable {bus bus' : Bus} {ioApics : List MadtIoApic} {isos : List MadtIso} {ioApic : MadtIoApic} {gsi lapicId : UInt32}
  {vector irq : UInt8} {status : Bool}

theorem ioApicGsiCount_eq (bus : Bus) (ioApic : MadtIoApic) :
    ioApicGsiCount bus ioApic = (bus.lastEntry ioApic, bus.selectRegister ioApic 1) := by
  have field : Bits.field 16 24 = 0xff0000 := by decide
  have masked := Bits.and_field (x := (bus.registers ioApic.base 1).toNat) (show 16 ≤ 24 by decide)
  rw [field] at masked
  unfold ioApicGsiCount ioApicRead Bus.selectRegister Bus.lastEntry
  simp only [Function.update_self, UInt32.toNat_shiftRight, UInt32.toNat_and, Prod.mk.injEq, and_true]
  change ((bus.registers ioApic.base 1).toNat &&& 0xff0000) >>> 16 = _
  rw [masked, Nat.shiftRight_eq_div_pow, Nat.mul_div_cancel _ (by decide)]

theorem ioApicFromGsi_spec (bus : Bus) (gsi : UInt32) (ioApics : List MadtIoApic) :
    match ioApics.find? (bus.finds gsi) with
    | some ioApic => ∃ bus', ioApicFromGsi bus gsi ioApics = .ok (ioApic, bus') ∧ bus'.writes = bus.writes
    | none => ioApicFromGsi bus gsi ioApics = .error (.panic (.noIoApic gsi.toNat)) := by
  induction ioApics generalizing bus with
  | nil => rfl
  | cons ioApic ioApics ih =>
    unfold ioApicFromGsi
    rw [ioApicGsiCount_eq]
    dsimp only
    by_cases low : ioApic.gsib ≤ gsi
    · rw [if_pos low]
      by_cases high : gsi.toNat < ioApic.gsib.toNat + bus.lastEntry ioApic
      · rw [List.find?_cons_of_pos (by simp [Bus.finds, low, high]), if_pos high]
        exact ⟨_, rfl, rfl⟩
      · rw [List.find?_cons_of_neg (by simp [Bus.finds, high]), if_neg high]
        exact ih (bus.selectRegister ioApic 1)
    · rw [List.find?_cons_of_neg (by simp [Bus.finds, low]), if_neg low]
      exact ih bus

theorem Bus.Covers.finds (covers : bus.Covers gsi ioApic)
    (short : gsi.toNat < ioApic.gsib.toNat + bus.lastEntry ioApic) : bus.finds gsi ioApic = true :=
  decide_eq_true ⟨covers.1, short⟩

theorem Bus.covers_of_finds (found : bus.finds gsi ioApic = true) : bus.Covers gsi ioApic := by
  obtain ⟨low, high⟩ := of_decide_eq_true found
  exact ⟨low, Nat.le_of_lt high⟩

theorem Bus.Disjoint.find (disjoint : bus.Disjoint ioApics) (listed : ioApic ∈ ioApics)
    (found : bus.finds gsi ioApic = true) : ioApics.find? (bus.finds gsi) = some ioApic := by
  induction ioApics with
  | nil => cases listed
  | cons first ioApics ih =>
    obtain ⟨apart, disjoint⟩ := List.pairwise_cons.mp disjoint
    rcases List.mem_cons.mp listed with rfl | listed
    · exact List.find?_cons_of_pos found
    · rw [List.find?_cons_of_neg]
      · exact ih disjoint listed
      · intro too
        exact apart ioApic listed gsi ⟨covers_of_finds too, covers_of_finds found⟩

/-! ### Redirecting -/

theorem ioApicWrite_writes (bus : Bus) (ioApic : MadtIoApic) (reg value : UInt32) :
    (ioApicWrite bus ioApic reg value).writes = bus.writes ++ [⟨ioApic, reg, value⟩] := by
  unfold ioApicWrite Bus.selectRegister
  simp only [Function.update_self]

theorem ioApicSetGsiRedirect_found {gsi : UInt8} (found : ioApics.find? (bus.finds gsi.toUInt32) = some ioApic)
    (lapicId : UInt32) (vector : UInt8) (flags : UInt16) (status : Bool) :
    ∃ bus', ioApicSetGsiRedirect bus ioApics lapicId vector gsi flags status = .ok bus' ∧
      bus'.writes = bus.writes ++
        [⟨ioApic, (gsi.toUInt32 - ioApic.gsib) * 2 + 16, (redirection lapicId vector flags status).toUInt32⟩,
          ⟨ioApic, (gsi.toUInt32 - ioApic.gsib) * 2 + 16 + 1,
            (redirection lapicId vector flags status >>> 32).toUInt32⟩] := by
  have search := ioApicFromGsi_spec bus gsi.toUInt32 ioApics
  rw [found] at search
  obtain ⟨bus₁, run, quiet⟩ := search
  rw [ioApicSetGsiRedirect, bind_eq run]
  refine ⟨_, rfl, ?_⟩
  rw [ioApicWrite_writes, ioApicWrite_writes, quiet, List.append_assoc]
  rfl

theorem ioApicSetGsiRedirect_none {gsi : UInt8} {flags : UInt16}
    (none : ioApics.find? (bus.finds gsi.toUInt32) = none) :
    ioApicSetGsiRedirect bus ioApics lapicId vector gsi flags status =
      .error (.panic (.noIoApic gsi.toUInt32.toNat)) := by
  have search := ioApicFromGsi_spec bus gsi.toUInt32 ioApics
  rw [none] at search
  rw [ioApicSetGsiRedirect, search]
  rfl

theorem ioApicSetIrqRedirect_eq (bus : Bus) (ioApics : List MadtIoApic) (lapicId : UInt32) (vector irq : UInt8)
    (status : Bool) (isos : List MadtIso) :
    ioApicSetIrqRedirect bus ioApics lapicId vector irq status isos =
      ioApicSetGsiRedirect bus ioApics lapicId vector (routed isos irq).1.toUInt8 (routed isos irq).2 status := by
  induction isos with
  | nil =>
    rw [ioApicSetIrqRedirect]
    simp [routed]
  | cons iso isos ih =>
    unfold ioApicSetIrqRedirect routed
    by_cases same : iso.irqSource = irq
    · rw [if_neg (not_not.mpr same), List.find?_cons_of_pos (by simpa using same)]
    · rw [if_pos same, List.find?_cons_of_neg (by simpa using same)]
      exact ih

/-- The call returns and has written the two registers of the pin, and no other register of any chip. -/
def Reaches (bus : Bus) (ioApics : List MadtIoApic) (lapicId : UInt32) (vector irq : UInt8) (status : Bool)
    (isos : List MadtIso) (ioApic : MadtIoApic) : Prop :=
  ∃ bus' reg low high, ioApicSetIrqRedirect bus ioApics lapicId vector irq status isos = .ok bus' ∧
    reg.toNat = 16 + 2 * ((routed isos irq).1.toNat - ioApic.gsib.toNat) ∧
    bus'.writes = bus.writes ++ [⟨ioApic, reg, low⟩, ⟨ioApic, reg + 1, high⟩]

theorem register_toNat {gsi gsib : UInt32} (low : gsib ≤ gsi) (near : gsi.toNat < gsib.toNat + 256) :
    ((gsi - gsib) * 2 + 16).toNat = 16 + 2 * (gsi.toNat - gsib.toNat) := by
  have difference := UInt32.toNat_sub_of_le gsi gsib low
  rw [UInt32.toNat_add, UInt32.toNat_mul, difference]
  have le : gsib.toNat ≤ gsi.toNat := UInt32.le_iff_toNat_le.mp low
  simp only [UInt32.reduceToNat]
  omega

theorem lastEntry_lt (bus : Bus) (ioApic : MadtIoApic) : bus.lastEntry ioApic < 256 := by
  unfold Bus.lastEntry
  omega

theorem toNat_narrowed (gsi : UInt32) : gsi.toUInt8.toUInt32.toNat = gsi.toNat % 256 := by
  simp

/-- A pin is reached exactly if its GSI has eight bits and it is not the last pin of its chip. -/
theorem ioApicSetIrqRedirect_reaches_iff (disjoint : bus.Disjoint ioApics) (listed : ioApic ∈ ioApics)
    (covers : bus.Covers (routed isos irq).1 ioApic) :
    Reaches bus ioApics lapicId vector irq status isos ioApic ↔
      (routed isos irq).1.toNat < 256 ∧
        (routed isos irq).1.toNat < ioApic.gsib.toNat + bus.lastEntry ioApic := by
  have bound := lastEntry_lt bus ioApic
  have narrowed := toNat_narrowed (routed isos irq).1
  unfold Reaches
  rw [ioApicSetIrqRedirect_eq]
  generalize (routed isos irq).1 = gsi at *
  constructor
  · rintro ⟨bus', reg, low, high, run, number, writes⟩
    cases search : ioApics.find? (bus.finds gsi.toUInt8.toUInt32) with
    | none =>
      rw [ioApicSetGsiRedirect_none search] at run
      cases run
    | some other =>
      obtain ⟨bus₁, run', writes'⟩ :=
        ioApicSetGsiRedirect_found search lapicId vector (routed isos irq).2 status
      rw [run] at run'
      cases run'
      rw [writes, List.append_cancel_left_eq] at writes'
      simp only [List.cons.injEq, RegisterWrite.mk.injEq, and_true] at writes'
      obtain ⟨⟨rfl, rfl, -⟩, -⟩ := writes'
      have found : bus.finds gsi.toUInt8.toUInt32 ioApic = true := List.find?_some search
      obtain ⟨above, below⟩ := of_decide_eq_true found
      rw [register_toNat above (by omega)] at number
      have := UInt32.le_iff_toNat_le.mp above
      have := UInt32.le_iff_toNat_le.mp covers.1
      omega
  · rintro ⟨small, short⟩
    have same : gsi.toUInt8.toUInt32 = gsi := by
      apply UInt32.toNat_inj.mp
      omega
    have search := disjoint.find listed (covers.finds short)
    rw [← same] at search
    obtain ⟨bus', run, writes⟩ := ioApicSetGsiRedirect_found search lapicId vector (routed isos irq).2 status
    rw [same] at writes
    exact ⟨bus', _, _, _, run, register_toNat covers.1 (by omega), writes⟩

def pcIoApic : MadtIoApic := ⟨0xFEC00000, 0⟩

def pcBus : Bus := ⟨fun _ => 0, fun _ reg => if reg = 1 then 0x170020 else 0, []⟩

theorem pcBus_disjoint : pcBus.Disjoint [pcIoApic] := List.pairwise_singleton _ _

theorem pcBus_covers {gsi : UInt32} (le : gsi.toNat ≤ 23) : pcBus.Covers gsi pcIoApic := by
  have last : pcBus.lastEntry pcIoApic = 23 := by decide
  refine ⟨UInt32.le_iff_toNat_le.mpr (Nat.zero_le _), ?_⟩
  rw [last]
  exact le.trans (Nat.le_add_left _ _)

theorem ioApicSetIrqRedirect_reaches_timer : Reaches pcBus [pcIoApic] 0 48 0 true [⟨0, 2, 0⟩] pcIoApic := by
  have covers : pcBus.Covers (routed [⟨0, 2, 0⟩] 0).1 pcIoApic := pcBus_covers (by decide)
  apply (ioApicSetIrqRedirect_reaches_iff pcBus_disjoint List.mem_cons_self covers).mpr
  decide

theorem ioApicSetIrqRedirect_last_pin : pcBus.Disjoint [pcIoApic] ∧ pcBus.Covers (routed [] 23).1 pcIoApic ∧
    ioApicSetIrqRedirect pcBus [pcIoApic] 0 48 23 true [] = .error (.panic (.noIoApic 23)) ∧
    ¬ Reaches pcBus [pcIoApic] 0 48 23 true [] pcIoApic := by
  have halts : ioApicSetIrqRedirect pcBus [pcIoApic] 0 48 23 true [] = .error (.panic (.noIoApic 23)) := rfl
  refine ⟨pcBus_disjoint, pcBus_covers (by decide), halts, ?_⟩
  rintro ⟨_, _, _, _, run, _⟩
  rw [halts] at run
  cases run

end Voyager.Apic
