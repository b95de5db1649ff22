import Voyager.Frames.FrameAlloc
import Voyager.Paging.Bootstrap

/-!
# Page tables at run time

`paging.c`. A pointer to a table is kept as the physical address it reaches: the HHDM undoes
`TranslateToHighHalfMemoryAddress`, and the identity map sends a null pointer to page zero.
-/

namespace Voyager.Machine

open Lib Paging

def pageFlagMask : Nat := 0xFFF ||| 2 ^ 63

def pageAddressMask : Nat := Bits.complement 64 pageFlagMask

def virtualAddressToOffsets (v : Nat) : Indices :=
  ⟨tableIndex ((v &&& 0x1FF <<< 39) >>> 39), tableIndex ((v &&& 0x1FF <<< 30) >>> 30),
    tableIndex ((v &&& 0x1FF <<< 21) >>> 21), tableIndex ((v &&& 0x1FF <<< 12) >>> 12)⟩

def offsetToVirtualAddress (offset : Indices) : Nat :=
  0 ||| offset.pml4.val <<< 39 ||| offset.pdpt.val <<< 30 ||| offset.pd.val <<< 21 ||| offset.pt.val <<< 12

/-- `g_boot_phys_page` is a function pointer, null until `memory_bringup` installs one. -/
abbrev PhysPageSupplier := Machine → Kernel (Nat × Machine)

/-- The supplier after `memory_bringup`. -/
def supplyFromFrame (m : Machine) : Kernel (Nat × Machine) := m.frameAlloc

def pagingGetFreeFrame (bootPhysPage : Option PhysPageSupplier) (m : Machine) : Kernel (Nat × Machine) :=
  match bootPhysPage with
  | some supplier => supplier m
  | none => .ok (0, m)

def getOrAllocEntry (bootPhysPage : Option PhysPageSupplier) (m : Machine) (table : Nat) (offset : Fin 512)
    (flags : Nat) : Kernel (Nat × Machine) :=
  let address := entry m.mem table offset
  if address &&& pteP = 0 then do
    let (frame, m) ← m.pagingGetFreeFrame bootPhysPage
    let m := m.setEntry table offset frame
    if frame = 0 then return (0, m)
    else
      let m := m.setEntry table offset (entry m.mem table offset ||| (flags ||| pteP))
      return (frame &&& pageAddressMask, { m with mem := ByteSpace.flat.fill m.mem frame 0 pageSize })
  else .ok (address &&& pageAddressMask, m)

def pagingMapMemory (bootPhysPage : Option PhysPageSupplier) (m : Machine)
    (p4 virtualMemory physicalMemory flags : Nat) : Kernel Machine := do
  let offset := virtualAddressToOffsets virtualMemory
  let (pdp, m) ← m.getOrAllocEntry bootPhysPage p4 offset.pml4 (pteW ||| pteU)
  let (pd, m) ← m.getOrAllocEntry bootPhysPage pdp offset.pdpt (pteW ||| pteU)
  let (pt, m) ← m.getOrAllocEntry bootPhysPage pd offset.pd (pteW ||| pteU)
  return m.setEntry pt offset.pt (physicalMemory ||| flags ||| pteP)

def getOrNullifyEntry (m : Machine) (table : Nat) (offset : Fin 512) : Option Nat :=
  let address := entry m.mem table offset
  if address &&& pteP = 0 then none else some (address &&& pageAddressMask)

/-- The three lookups with which `PagingPhysicalMemory` and `PagingUnmapMemory` begin. -/
def findPageTable (m : Machine) (p4 : Nat) (offset : Indices) : Option Nat := do
  let pdp ← m.getOrNullifyEntry p4 offset.pml4
  let pd ← m.getOrNullifyEntry pdp offset.pdpt
  m.getOrNullifyEntry pd offset.pd

/-- The result 0 is `NULL`. -/
def pagingPhysicalMemory (m : Machine) (p4 virtualMemory : Nat) : Nat :=
  let offset := virtualAddressToOffsets virtualMemory
  match m.findPageTable p4 offset with
  | none => 0
  | some pt => entry m.mem pt offset.pt &&& Bits.complement 64 pageFlagMask

def pagingUnmapMemory (m : Machine) (p4 virtualMemory : Nat) : Machine :=
  let offset := virtualAddressToOffsets virtualMemory
  match m.findPageTable p4 offset with
  | none => m
  | some pt => m.setEntry pt offset.pt 0

/-- `current_pml4_phys` in `kmalloc.c`. -/
def currentPml4Phys (m : Machine) : Nat := m.paging.cr3 &&& Bits.complement 64 0xFFF

/-- The body of the mapping loop in `heap_map_more`. -/
def mapHeapPage (m : Machine) (va : Nat) : Kernel Machine := do
  let p4 := m.currentPml4Phys
  let (phys, m) ← m.frameAlloc
  m.pagingMapMemory (some supplyFromFrame) p4 va phys (pteP ||| pteW ||| pteNX)

theorem frameAlloc_panics (m : Machine) : Raises Halt.IsPanic m.frameAlloc := by
  unfold frameAlloc
  refine .ite (.error trivial) ?_
  split
  · exact .ok _
  · split
    · exact .ok _
    · exact .error trivial

theorem getOrAllocEntry_panics {m : Machine} {table flags : Nat} {offset : Fin 512} :
    Raises Halt.IsPanic (m.getOrAllocEntry (some supplyFromFrame) table offset flags) :=
  .ite (.bind (frameAlloc_panics m) fun _ => .ite (.ok _) (.ok _)) (.ok _)

theorem mapHeapPage_panics (m : Machine) (va : Nat) : Raises Halt.IsPanic (m.mapHeapPage va) := by
  refine .bind (frameAlloc_panics m) fun r => ?_
  refine .bind getOrAllocEntry_panics fun _ => .bind getOrAllocEntry_panics fun _ => ?_
  exact .bind getOrAllocEntry_panics fun _ => .ok _

variable {v x : Nat}

theorem virtualAddressToOffsets_eq : virtualAddressToOffsets v = vaddrIndices v := by
  have field : ∀ k, k + 9 < 64 → (v &&& 0x1FF <<< k) >>> k = (v >>> k) % 512 := by
    intro k lt
    have mask : 0x1FF <<< k = Bits.field k (k + 9) := by
      rw [Bits.field, Nat.shiftLeft_eq, Nat.pow_add]
      omega
    rw [mask, Bits.and_field (by omega), Nat.shiftRight_eq_div_pow, Nat.shiftRight_eq_div_pow,
      Nat.mul_div_cancel _ (Nat.two_pow_pos k), Nat.pow_add, Nat.mod_mul_right_div_self]
  unfold virtualAddressToOffsets vaddrIndices
  rw [field 39 (by decide), field 30 (by decide), field 21 (by decide), field 12 (by decide)]
  simp only [tableIndex, Fin.ofNat, Nat.mod_mod]

theorem offsetToVirtualAddress_eq (o : Indices) : offsetToVirtualAddress o =
    o.pml4.val * 2 ^ 39 + o.pdpt.val * 2 ^ 30 + o.pd.val * 2 ^ 21 + o.pt.val * 2 ^ 12 := by
  obtain ⟨⟨a, _⟩, ⟨b, _⟩, ⟨c, _⟩, ⟨d, _⟩⟩ := o
  rw [offsetToVirtualAddress, Nat.zero_or]
  simp only [Nat.shiftLeft_eq]
  -- Each index lies below the bits of the ones before it.
  rw [Bits.or_low (by omega), show a * 2 ^ 39 + b * 2 ^ 30 = (a * 2 ^ 9 + b) * 2 ^ 30 by omega, Bits.or_low (by omega),
    show (a * 2 ^ 9 + b) * 2 ^ 30 + c * 2 ^ 21 = ((a * 2 ^ 9 + b) * 2 ^ 9 + c) * 2 ^ 21 by omega, Bits.or_low (by omega)]

theorem virtualAddressToOffsets_offsetToVirtualAddress (o : Indices) :
    virtualAddressToOffsets (offsetToVirtualAddress o) = o := by
  have top := o.pml4.isLt
  have first := o.pdpt.isLt
  have second := o.pd.isLt
  have third := o.pt.isLt
  rw [virtualAddressToOffsets_eq, offsetToVirtualAddress_eq]
  obtain ⟨a, b, c, d⟩ := o
  simp only [vaddrIndices, tableIndex, Nat.shiftRight_eq_div_pow, Indices.mk.injEq, Fin.ext_iff, Fin.val_ofNat] at *
  omega

theorem and_pageAddressMask (small : x < 2 ^ 52) : x &&& pageAddressMask = x &&& addrMask := by
  have mask : pageAddressMask = Bits.field 12 63 := by decide
  rw [mask, Bits.and_field (by decide), and_addrMask]
  omega

theorem currentPml4Phys_eq {m : Machine} (aligned : m.paging.cr3 % pageSize = 0) (small : m.paging.cr3 < 2 ^ 64) :
    m.currentPml4Phys = m.paging.cr3 := by
  have mask : Bits.complement 64 0xFFF = Bits.field 12 64 := by decide
  unfold currentPml4Phys
  rw [mask, Bits.and_field (by decide)]
  unfold pageSize at aligned
  omega

end Voyager.Machine
