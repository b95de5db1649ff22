import Voyager.Frames.EarlyAlloc
import Voyager.Paging.Tables

/-!
# Building the first address space

`paging/paging_bootstrap.c`. The probes only print and are left out.
-/

namespace Voyager.Machine

open Lib Paging

/-! ### Tables -/

def setEntry (m : Machine) (table : Nat) (i : Fin 512) (v : Nat) : Machine :=
  { m with mem := Paging.setEntry m.mem table i v }

def allocTable (m : Machine) : Kernel (Nat × Machine) := do
  let (phys, early) ← m.early.allocPage
  if m.paging.hhdm = 0 then throw (.panic .tableZeroing)
  return (phys, { m with mem := ByteSpace.flat.fill m.mem phys 0 pageSize, early })

def getOrMakeNext (m : Machine) (cur : Nat) (idx : Fin 512) : Kernel (Nat × Machine) :=
  let e := entry m.mem cur idx
  if e &&& pteP ≠ 0 then
    if e &&& ptePS ≠ 0 then .error (.panic .hugeDescent) else .ok (e &&& addrMask, m)
  else do
    let (child, m) ← m.allocTable
    return (child, m.setEntry cur idx (child &&& addrMask ||| pteP ||| pteW))

def getOrMakePd (m : Machine) (pml4 : Nat) (pml4i pdpti : Fin 512) : Kernel (Nat × Machine) := do
  let (pdpt, m) ← m.getOrMakeNext pml4 pml4i
  m.getOrMakeNext pdpt pdpti

/-! ### Mapping -/

def leaf4k (pa flags : Nat) : Nat := pa &&& addrMask ||| flags &&& Bits.complement 64 addrMask ||| pteP

def leaf2m (pa flags : Nat) : Nat :=
  pa &&& addrMask2m ||| flags &&& Bits.complement 64 addrMask ||| pteP ||| pteW ||| ptePS

def map4k (m : Machine) (pml4 va pa flags : Nat) : Kernel Machine := do
  let idx := vaddrIndices va
  let (pdpt, m) ← m.getOrMakeNext pml4 idx.pml4
  let (pd, m) ← m.getOrMakeNext pdpt idx.pdpt
  let (pt, m) ← m.getOrMakeNext pd idx.pd
  return m.setEntry pt idx.pt (leaf4k pa flags)

def map2m (m : Machine) (pml4 va pa flags : Nat) : Kernel Machine := do
  let idx := vaddrIndices va
  let (pd, m) ← m.getOrMakePd pml4 idx.pml4 idx.pdpt
  return m.setEntry pd idx.pd (leaf2m pa flags)

/-- An address that moves by pages is back after so many rounds: a loop that has not
ended by then never will. -/
def loopFuel : Nat := 2 ^ 52

/-- The loop of the functions below: `f` while `more`, both addresses moving by `size`. -/
def pageWhile (more : Nat → Nat → Bool) (f : Machine → Nat → Nat → Kernel Machine) (size : Nat) (m : Machine)
    (va pa : Nat) : Nat → Kernel (Machine × Nat × Nat)
  | 0 => .error .endless
  | fuel + 1 =>
    if more va pa then do pageWhile more f size (← f m va pa) (add64 va size) (add64 pa size) fuel
    else .ok (m, va, pa)

def mapRange4k (m : Machine) (pml4 va pa len flags : Nat) : Kernel Machine := do
  let stop := add64 va len
  let (m, _) ← pageWhile (fun va _ => va < stop) (fun m va pa => m.map4k pml4 va pa flags) pageSize m va pa loopFuel
  return m

/-- The first loop of `map_range_huge_first`: pages up to a 2 MiB boundary. -/
def hugeHead (pml4 flags stop : Nat) : Machine → Nat → Nat → Nat → Kernel (Machine × Nat × Nat) :=
  pageWhile (fun va pa => pa < stop && (pa ||| va) &&& (page2m - 1) != 0)
    (fun m va pa => m.map4k pml4 va pa (flags ||| pteW ||| pteNX)) pageSize

def hugeBody (pml4 flags stop : Nat) : Machine → Nat → Nat → Nat → Kernel (Machine × Nat × Nat) :=
  pageWhile (fun _ pa => add64 pa page2m ≤ stop) (fun m va pa => m.map2m pml4 va pa (flags ||| pteNX)) page2m

def hugeTail (pml4 flags stop : Nat) : Machine → Nat → Nat → Nat → Kernel (Machine × Nat × Nat) :=
  pageWhile (fun _ pa => pa < stop) (fun m va pa => m.map4k pml4 va pa (flags ||| pteW ||| pteNX)) pageSize

def mapRangeHugeFirst (m : Machine) (pml4 va pa len flags : Nat) : Kernel Machine := do
  let stop := add64 pa len
  let (m, va, pa) ← hugeHead pml4 flags stop m va pa loopFuel
  let (m, va, pa) ← hugeBody pml4 flags stop m va pa loopFuel
  let (m, _) ← hugeTail pml4 flags stop m va pa loopFuel
  return m

/-! ### The three parts -/

/-- The loop is that of `map_range_4k` over `[0, 2 MiB)`. -/
def mapIdentityMinimal (m : Machine) (pml4 : Nat) : Kernel Machine :=
  m.mapRange4k pml4 0 0 page2m (pteW ||| pteNX)

def virtToPhysKernel (vaddr kphysBase kvirtBase : Nat) : Nat := add64 kphysBase (sub64 vaddr kvirtBase)

/-- One of the three ranges of the image, rounded outward to pages. -/
def mapSection (m : Machine) (pml4 : Nat) (k : KernelAddress) (start stop flags : Nat) : Kernel Machine :=
  let lo := alignDown start pageSize
  let hi := alignUp stop pageSize
  if hi > lo then m.mapRange4k pml4 lo (virtToPhysKernel lo k.physicalBase k.virtualBase) (hi - lo) flags else .ok m

def mapKernelHigherHalf (boot : Boot) (m : Machine) (pml4 : Nat) : Kernel Machine :=
  match boot.kernelAddress with
  | none => .error (.panic .kernelAddressMissing)
  | some k => do
    let m ← m.mapSection pml4 k boot.symbols.textStart boot.symbols.textEnd 0
    let m ← m.mapSection pml4 k boot.symbols.rodataStart boot.symbols.rodataEnd pteNX
    m.mapSection pml4 k boot.symbols.dataStart boot.symbols.bssEnd (pteW ||| pteNX)

def included : MemmapType → Bool
  | .usable => true
  | .bootloaderReclaimable => true
  | .acpiReclaimable => true
  | .acpiNvs => true
  | .kernelAndModules => true
  | .framebuffer => true
  | .reserved => false
  | .badMemory => false

def mapEntry (m : Machine) (pml4 : Nat) (e : MemmapEntry) : Kernel Machine :=
  if included e.type = false then .ok m
  else
    let base := alignDown e.base pageSize
    let stop := alignUp e.stop pageSize
    if stop ≤ base then .ok m
    else m.mapRangeHugeFirst pml4 (add64 m.paging.hhdm base) base (stop - base) 0

def mapEntries (m : Machine) (pml4 : Nat) : List MemmapEntry → Kernel Machine
  | [] => .ok m
  | e :: rest => do (← m.mapEntry pml4 e).mapEntries pml4 rest

def mapHhdm (boot : Boot) (m : Machine) (pml4 : Nat) : Kernel Machine :=
  if m.paging.hhdm = 0 then .error (.panic .hhdmOffsetMissing)
  else
    match boot.memmap with
    | none => .error (.panic .memmapMissing)
    | some [] => .error (.panic .memmapMissing)
    | some entries => do
      let m ← m.mapEntries pml4 entries
      m.map2m pml4 m.paging.hhdm 0 pteNX

/-! ### Checks and the switch -/

def walkVaToPa (m : Machine) (va root : Nat) : Option (Nat × Nat) :=
  let idx := vaddrIndices va
  let pml4e := entry m.mem root idx.pml4
  if pml4e &&& pteP = 0 then none
  else
    let pdpte := entry m.mem (pml4e &&& addrMask) idx.pdpt
    if pdpte &&& pteP = 0 then none
    else if pdpte &&& ptePS ≠ 0 then some (pdpte &&& addrMask1g ||| va &&& (page1g - 1), 3)
    else
      let pde := entry m.mem (pdpte &&& addrMask) idx.pd
      if pde &&& pteP = 0 then none
      else if pde &&& ptePS ≠ 0 then some (pde &&& addrMask2m ||| va &&& (page2m - 1), 2)
      else
        let pte := entry m.mem (pde &&& addrMask) idx.pt
        if pte &&& pteP = 0 then none
        else some (pte &&& addrMask ||| va &&& (pageSize - 1), 1)

def ensureHhdmCoverPhysPage (m : Machine) (pml4 physPage : Nat) : Kernel Machine :=
  let page := alignDown physPage pageSize
  let va := add64 m.paging.hhdm page
  if (m.walkVaToPa va pml4).isSome then .ok m else m.map4k pml4 va page (pteW ||| pteNX)

def coverLoop (pml4 stop : Nat) (m : Machine) (page : Nat) : Nat → Kernel Machine
  | 0 => .error .endless
  | fuel + 1 =>
    if page < stop then do
      coverLoop pml4 stop (← m.ensureHhdmCoverPhysPage pml4 page) (add64 page pageSize) fuel
    else .ok m

def ensureHhdmCoverPhysRange (m : Machine) (pml4 phys len : Nat) : Kernel Machine :=
  if len = 0 then .ok m
  else coverLoop pml4 (alignUp (add64 phys len) pageSize) m (alignDown phys pageSize) loopFuel

def getMaxPhys (boot : Boot) : Nat := topOf (boot.memmap.getD [])

/-- Where the stack lies, before the tables are patched. -/
def stackPhys (boot : Boot) (m : Machine) (pml4 rsp : Nat) : Kernel Nat :=
  if rsp ≥ m.paging.hhdm ∧ rsp < add64 m.paging.hhdm (getMaxPhys boot) then .ok (sub64 rsp m.paging.hhdm)
  else
    match m.walkVaToPa rsp pml4 with
    | none => .error (.panic .stackMissing)
    | some (pa, _) => .ok pa

def requireMapped (m : Machine) (pml4 va : Nat) (missing : Panic) : Kernel Unit :=
  if (m.walkVaToPa va pml4).isSome then .ok () else .error (.panic missing)

def preSwitchAuditAndPatch (boot : Boot) (rsp : Nat) (m : Machine) (pml4 : Nat) : Kernel Machine := do
  let oldCr3 := m.paging.cr3 &&& addrMask
  let rspPhys ← m.stackPhys boot pml4 rsp
  let m ← m.ensureHhdmCoverPhysRange pml4 0 page2m
  let m ← m.ensureHhdmCoverPhysPage pml4 rspPhys
  let m ← m.ensureHhdmCoverPhysPage pml4 oldCr3
  let m ← m.ensureHhdmCoverPhysPage pml4 pml4
  m.requireMapped pml4 rsp .stackUnpatched
  m.requireMapped pml4 boot.symbols.preSwitchAuditAndPatch .ripMissing
  m.requireMapped pml4 m.paging.hhdm .hhdmStartMissing
  m.requireMapped pml4 (add64 m.paging.hhdm oldCr3) .oldRootMissing
  m.requireMapped pml4 (add64 m.paging.hhdm pml4) .newRootMissing
  return m

def installNewCr3 (boot : Boot) (rsp : Nat) (m : Machine) (pml4 : Nat) : Kernel Machine := do
  let m ← m.preSwitchAuditAndPatch boot rsp pml4
  return { m with paging := { m.paging with cr3 := pml4 } }

/-- The new root with everything that is mapped before the audit. -/
def buildTables (boot : Boot) (m : Machine) : Kernel Machine := do
  let (root, m) ← m.allocTable
  let m := { m with paging := { m.paging with pml4Phys := root } }
  let m ← m.mapIdentityMinimal root
  let m ← m.mapKernelHigherHalf boot root
  m.mapHhdm boot root

/-- `rsp` is what `readRSP` returns in the audit. -/
def pagingBootstrap (boot : Boot) (rsp : Nat) (m : Machine) : Kernel Machine :=
  match boot.hhdm with
  | none => .error (.panic .hhdmResponseMissing)
  | some offset => do
    let m := { m with paging := { m.paging with hhdm := offset } }
    if offset = 0 then throw (.panic .hhdmZero)
    let m ← m.buildTables boot
    m.installNewCr3 boot rsp m.paging.pml4Phys

end Voyager.Machine
