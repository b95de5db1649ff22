import Mathlib.Data.Nat.Bitwise

/-!
# Machine arithmetic and abnormal ends

`Halt` lists the ways in which a kernel call does not come back.
-/

namespace Voyager

def add64 (x y : Nat) : Nat := (x + y) % 2 ^ 64

def sub64 (x y : Nat) : Nat := (x + 2 ^ 64 - y) % 2 ^ 64

def pageSize : Nat := 4096

def Machine.higherHalfMemoryOffset : Nat := 0xFFFF800000000000

/-- `(x + (a - 1)) & ~(a - 1)` for a power of two `a`. -/
def alignUp (x a : Nat) : Nat := add64 x (a - 1) / a * a

/-- `x & ~(a - 1)` for a power of two `a`. -/
def alignDown (x a : Nat) : Nat := x / a * a

inductive Panic where
  | heapExhausted -- `kmalloc: VA heap exhausted`
  | doubleFree (ptr : Nat) -- `kfree: double free %p`
  | noEarlyRegion -- `early_init: no suitable USABLE region found for early allocations`
  | earlyExhausted (used : Nat) -- `early_alloc_page: out of early pages (used=%zu pages)`
  | frameMemmapMissing -- `frame_init: Limine memmap missing`
  | zeroFrames -- `frame_init: zero frames`
  | frameHhdmMissing -- `frame_init: HHDM request missing`
  | frameKernelAddressMissing -- `frame_init: kernel address response missing`
  | outOfMemory -- `frame_alloc: OOM`
  | bitmapCorruption -- `frame_alloc: free count nonzero but no free frame found (bitmap corruption?)`
  | freeUnaligned (paddr : Nat) -- `frame_free: unaligned paddr=0x%llx`
  | freeOutOfBounds (paddr : Nat) -- `frame_free: out-of-bounds paddr=0x%llx`
  | freeNonUsable (paddr : Nat) -- `frame_free: non-usable paddr=0x%llx`
  | freeTwice (paddr : Nat) -- `frame_free: double-free paddr=0x%llx`
  | tableZeroing -- `paging_bootstrap: HHDM required for table zeroing`
  | hugeDescent -- `paging_bootstrap: attempted descent through huge-page leaf`
  | kernelAddressMissing -- `paging_bootstrap: kernel address request missing`
  | hhdmOffsetMissing -- `paging_bootstrap: HHDM offset missing`
  | memmapMissing -- `paging_bootstrap: memmap missing`
  | stackMissing -- `paging_bootstrap: stack VA missing before CR3 switch`
  | stackUnpatched -- `paging_bootstrap: stack missing after patching`
  | ripMissing -- `paging_bootstrap: kernel RIP missing after patching`
  | hhdmStartMissing -- `paging_bootstrap: HHDM+0 missing after patching`
  | oldRootMissing -- `paging_bootstrap: old CR3 page missing from HHDM`
  | newRootMissing -- `paging_bootstrap: new CR3 page missing from HHDM`
  | hhdmResponseMissing -- `paging_bootstrap: HHDM response missing`
  | hhdmZero -- `paging_bootstrap: HHDM offset is zero`
  | noMadt -- `System Does Not Have an MADT!`
  | nullEntry -- `scheduler: NULL task entry`
  | noProcess -- `scheduler: failed to allocate process structure`
  | noTaskStack -- `scheduler: failed to allocate task stack`
  | emptyRunQueue -- `scheduler: cannot start with an empty run queue`
  | startedTwice -- `scheduler: start requested while a task is already current`
  | dispatchReturned -- `scheduler: initial dispatch returned unexpectedly`
  -- `Kernel Panic: Invalid/NULL Dynamic ISR Vector! Not my fault... ok it's my fault.`
  | invalidDynamicVector
  | notIrqVector (vector : Nat) -- `irq_handler: non-IRQ vector %i reached IRQ path`
  | noIoApic (gsi : Nat) -- `Cannot determine IO APIC from GSI %lu`, then `halt`
  deriving DecidableEq, Repr

inductive Halt where
  | panic (p : Panic)
  -- The CPU faults on an unmapped address; `isr_exception_handler` stops the machine.
  | pageFault (address : Nat)
  | endless -- A loop of the code has no end.
  deriving DecidableEq, Repr

def Halt.IsPanic : Halt → Prop
  | .panic _ => True
  | _ => False

def Halt.IsFault : Halt → Prop
  | .pageFault _ => True
  | _ => False

abbrev Kernel := Except Halt

def roundUp (x a : Nat) : Nat := (x + (a - 1)) / a * a

theorem add64_lt (x y : Nat) : add64 x y < 2 ^ 64 := Nat.mod_lt _ (by decide)

theorem add64_of_lt {x y : Nat} (h : x + y < 2 ^ 64) : add64 x y = x + y := Nat.mod_eq_of_lt h

theorem sub64_of_le {x y : Nat} (h : y ≤ x) (lt : x < 2 ^ 64) : sub64 x y = x - y := by
  unfold sub64; omega

theorem alignUp_lt (x a : Nat) : alignUp x a < 2 ^ 64 :=
  Nat.lt_of_le_of_lt (Nat.div_mul_le_self _ _) (Nat.mod_lt _ (by decide))

theorem roundUp_mono {x y : Nat} (a : Nat) (le : x ≤ y) : roundUp x a ≤ roundUp y a :=
  Nat.mul_le_mul_right _ (Nat.div_le_div_right (Nat.add_le_add_right le _))

theorem alignUp_eq_roundUp {x : Nat} (fits : x + pageSize ≤ 2 ^ 64) : alignUp x pageSize = roundUp x pageSize := by
  unfold alignUp roundUp add64 pageSize at *
  omega

theorem alignUp_last {x : Nat} (lt : x < 2 ^ 64) (last : 2 ^ 64 < x + pageSize) : alignUp x pageSize = 0 := by
  unfold alignUp add64 pageSize at *
  omega

theorem alignUp_mono {x y : Nat} (le : x ≤ y) (fits : y + pageSize ≤ 2 ^ 64) :
    alignUp x pageSize ≤ alignUp y pageSize := by
  unfold alignUp add64 pageSize at *
  omega

theorem alignUp_le {x y : Nat} (le : x ≤ y) (aligned : y % pageSize = 0) (fits : y + pageSize ≤ 2 ^ 64) :
    alignUp x pageSize ≤ y := by
  unfold alignUp add64 pageSize at *
  omega

end Voyager
