import Voyager.Frames.EarlyAlloc
import Voyager.Lib.Bitmap

/-!
# The bitmap frame allocator

`neo_framealloc.c`. Calls run one after another, so the spinlock is left out.
-/

namespace Voyager

open Lib

def bmTest (m : ByteSpace.Bytes) (bm i : Nat) : Bool := Bitmap.test m bm i

def bmSet (m : ByteSpace.Bytes) (bm i : Nat) : ByteSpace.Bytes := Bitmap.set m bm i

def bmClear (m : ByteSpace.Bytes) (bm i : Nat) : ByteSpace.Bytes := Bitmap.clear m bm i

def frameIndexOf (p : Nat) : Nat := p / pageSize

def frameAddrOf (i : Nat) : Nat := i * pageSize % 2 ^ 64

namespace Machine

def computeMaxPhysAndCount (boot : Boot) (m : Machine) : Kernel Machine :=
  match boot.memmap with
  | none => .error (.panic .frameMemmapMissing)
  | some [] => .error (.panic .frameMemmapMissing)
  | some entries =>
    let maxPhys := topOf entries
    let frameCount := alignUp maxPhys pageSize / pageSize
    if frameCount = 0 then .error (.panic .zeroFrames)
    else .ok { m with frames := { m.frames with maxPhys, frameCount } }

/-- The loop of `mark_range_allocated` over `n` frames from `i`. -/
def markAllocated (m : Machine) (i : Nat) : Nat → Machine
  | 0 => m
  | n + 1 =>
    let m := if bmTest m.mem m.frames.allocBm i then m
      else { m with mem := bmSet m.mem m.frames.allocBm i,
                    frames := { m.frames with freeCount := m.frames.freeCount - 1 } }
    markAllocated m (i + 1) n

def markRangeAllocated (m : Machine) (base stop : Nat) : Machine :=
  if stop ≤ base then m
  else
    let i0 := frameIndexOf (alignDown base pageSize)
    let i1 := frameIndexOf (alignUp stop pageSize)
    let i1 := if i1 > m.frames.frameCount then m.frames.frameCount else i1
    m.markAllocated i0 (i1 - i0)

def markUsableAndFree (m : Machine) (i : Nat) : Nat → Machine
  | 0 => m
  | n + 1 =>
    let m := if bmTest m.mem m.frames.usableBm i then m
      else { m with mem := bmSet m.mem m.frames.usableBm i }
    let m := if bmTest m.mem m.frames.allocBm i then
        { m with mem := bmClear m.mem m.frames.allocBm i,
                 frames := { m.frames with freeCount := m.frames.freeCount + 1 } }
      else m
    markUsableAndFree m (i + 1) n

def markRangeUsableAndFree (m : Machine) (base stop : Nat) : Machine :=
  if stop ≤ base then m
  else
    let i0 := frameIndexOf (alignUp base pageSize)
    let i1 := frameIndexOf (alignDown stop pageSize)
    if i1 ≤ i0 then m
    else
      let i1 := if i1 > m.frames.frameCount then m.frames.frameCount else i1
      m.markUsableAndFree i0 (i1 - i0)

/-- A bitmap of `pages` early pages; the first call of the source comes before its loop. -/
def allocBitmap (m : Machine) (pages : Nat) : Kernel (Nat × Machine) := do
  let (phys, early) ← m.early.allocPage
  let early ← early.skip (pages - 1)
  return (phys, { m with early })

/-- Step 2: a run of early pages for each bitmap. -/
def placeBitmaps (boot : Boot) (m : Machine) : Kernel Machine :=
  match boot.hhdm with
  | none => .error (.panic .frameHhdmMissing)
  | some _ => do
    let bmPages := alignUp ((m.frames.frameCount + 7) / 8) pageSize / pageSize
    let (aPhys, m) ← m.allocBitmap bmPages
    let (bPhys, m) ← m.allocBitmap bmPages
    return { m with frames := { m.frames with allocBm := aPhys, usableBm := bPhys } }

def clearBitmaps (m : Machine) (bytes : Nat) : Machine :=
  let mem := ByteSpace.flat.fill m.mem m.frames.allocBm 0xFF bytes
  { m with mem := ByteSpace.flat.fill mem m.frames.usableBm 0 bytes, frames := { m.frames with freeCount := 0 } }

def markUsableEntries (m : Machine) (entries : List MemmapEntry) : Machine :=
  entries.foldl (fun m e => if e.type = .usable then m.markRangeUsableAndFree e.base e.stop else m) m

def kernelRange (k : KernelAddress) (s : Symbols) : Nat × Nat :=
  (add64 k.physicalBase (sub64 s.kernelStart k.virtualBase), add64 k.physicalBase (sub64 s.kernelEnd k.virtualBase))

/-- Step 4: the kernel image. -/
def reserveKernel (boot : Boot) (m : Machine) : Kernel Machine :=
  match boot.kernelAddress with
  | none => .error (.panic .frameKernelAddressMissing)
  | some k => .ok (m.markRangeAllocated (kernelRange k boot.symbols).1 (kernelRange k boot.symbols).2)

def markModules (m : Machine) (modules : List Module) : Machine :=
  modules.foldl (fun m f => m.markRangeAllocated f.address (add64 f.address f.size)) m

/-- Step 5: the modules, by the address Limine gives. -/
def reserveModules (boot : Boot) (m : Machine) : Machine :=
  match boot.modules with
  | none => m
  | some modules => m.markModules modules

/-- Step 6: the pages the early allocator gave out, those of the bitmaps included. -/
def reserveEarly (m : Machine) : Machine :=
  if m.early.reservedRegion.2 ≠ 0 then
    m.markRangeAllocated m.early.reservedRegion.1
      (add64 m.early.reservedRegion.1 (m.early.reservedRegion.2 * pageSize % 2 ^ 64))
  else m

def withHint (m : Machine) (hint : Nat) : Machine := { m with frames := { m.frames with hint } }

def frameInit (boot : Boot) (m : Machine) : Kernel Machine := do
  let m ← m.computeMaxPhysAndCount boot
  let m ← m.placeBitmaps boot
  let m := (m.clearBitmaps ((m.frames.frameCount + 7) / 8)).markUsableEntries (boot.memmap.getD [])
  let m ← m.reserveKernel boot
  return ((m.reserveModules boot).reserveEarly).withHint 0

def scan (m : Machine) (i : Nat) : Nat → Option Nat
  | 0 => none
  | n + 1 =>
    if bmTest m.mem m.frames.usableBm i && !bmTest m.mem m.frames.allocBm i then some i
    else scan m (i + 1) n

def take (m : Machine) (i : Nat) : Machine :=
  { m with mem := bmSet m.mem m.frames.allocBm i,
           frames := { m.frames with freeCount := m.frames.freeCount - 1, hint := i + 1 } }

def frameAlloc (m : Machine) : Kernel (Nat × Machine) :=
  if m.frames.freeCount = 0 then .error (.panic .outOfMemory)
  else
    -- From the hint to the end, then the part below the hint.
    match m.scan m.frames.hint (m.frames.frameCount - m.frames.hint) with
    | some i => .ok (frameAddrOf i, m.take i)
    | none =>
      match m.scan 0 m.frames.hint with
      | some i => .ok (frameAddrOf i, m.take i)
      | none => .error (.panic .bitmapCorruption)

def nFrameFree (m : Machine) (paddr : Nat) : Kernel Machine :=
  if paddr % pageSize ≠ 0 then .error (.panic (.freeUnaligned paddr))
  else if paddr ≥ m.frames.maxPhys then .error (.panic (.freeOutOfBounds paddr))
  else
    let i := frameIndexOf paddr
    if !bmTest m.mem m.frames.usableBm i then .error (.panic (.freeNonUsable paddr))
    else if !bmTest m.mem m.frames.allocBm i then .error (.panic (.freeTwice paddr))
    else .ok { m with mem := bmClear m.mem m.frames.allocBm i,
                      frames := { m.frames with freeCount := m.frames.freeCount + 1,
                                                hint := if i < m.frames.hint then i else m.frames.hint } }

def frameIsAllocated (m : Machine) (paddr : Nat) : Bool :=
  if paddr % pageSize ≠ 0 ∨ paddr ≥ m.frames.maxPhys then true
  else bmTest m.mem m.frames.allocBm (frameIndexOf paddr)

end Machine

end Voyager
