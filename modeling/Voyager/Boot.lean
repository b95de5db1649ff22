import Voyager.Lib.ByteSpace
import Voyager.Machine

/-!
# What the bootloader hands over, and the physical machine

A response pointer that is `NULL` is `none`.
-/

namespace Voyager

open Lib

inductive MemmapType where
  | usable
  | reserved
  | acpiReclaimable
  | acpiNvs
  | badMemory
  | bootloaderReclaimable
  | kernelAndModules
  | framebuffer
  deriving DecidableEq, Repr

structure MemmapEntry where
  base : Nat
  length : Nat
  type : MemmapType
  deriving DecidableEq, Repr

def MemmapEntry.stop (e : MemmapEntry) : Nat := add64 e.base e.length

/-- The highest end in the memory map: `g_max_phys`, and what `get_max_phys` returns. -/
def topOf (entries : List MemmapEntry) : Nat := entries.foldl (fun top e => if e.stop > top then e.stop else top) 0

theorem foldl_stop_le {entries : List MemmapEntry} {top limit : Nat} :
    entries.foldl (fun top e => if e.stop > top then e.stop else top) top ≤ limit ↔
      top ≤ limit ∧ ∀ e ∈ entries, e.stop ≤ limit := by
  induction entries generalizing top with
  | nil => simp
  | cons e rest ih =>
    rw [List.foldl_cons, ih, List.forall_mem_cons, ← and_assoc]
    refine and_congr_left fun _ => ?_
    split <;> omega

theorem topOf_le_iff {entries : List MemmapEntry} {limit : Nat} :
    topOf entries ≤ limit ↔ ∀ e ∈ entries, e.stop ≤ limit :=
  foldl_stop_le.trans (and_iff_right (Nat.zero_le _))

theorem le_topOf {entries : List MemmapEntry} {e : MemmapEntry} (he : e ∈ entries) : e.stop ≤ topOf entries :=
  topOf_le_iff.mp (Nat.le_refl _) e he

structure KernelAddress where
  physicalBase : Nat
  virtualBase : Nat

/-- `struct limine_file`, as far as the kernel reads it. -/
structure Module where
  address : Nat
  size : Nat

/-- Linker symbols: virtual addresses of the kernel image and its sections. -/
structure Symbols where
  kernelStart : Nat
  kernelEnd : Nat
  textStart : Nat
  textEnd : Nat
  rodataStart : Nat
  rodataEnd : Nat
  dataStart : Nat
  bssEnd : Nat
  preSwitchAuditAndPatch : Nat -- `&pre_switch_audit_and_patch`

structure Boot where
  memmap : Option (List MemmapEntry)
  hhdm : Option Nat
  kernelAddress : Option KernelAddress
  modules : Option (List Module)
  symbols : Symbols

/-- Globals of `early_alloc.c`. -/
structure Early where
  base : Nat
  cursor : Nat
  stop : Nat
  regionForced : Bool
  deriving DecidableEq, Repr

/-- Globals of `neo_framealloc.c`. The bitmaps are kept by physical address: the
pointers add the HHDM offset, and the HHDM maps them back. -/
structure Frames where
  allocBm : Nat
  usableBm : Nat
  frameCount : Nat
  maxPhys : Nat
  freeCount : Nat
  hint : Nat
  deriving DecidableEq, Repr

/-- Globals of `paging_bootstrap.c`, and the root the CPU uses. -/
structure Paging where
  hhdm : Nat
  pml4Phys : Nat
  cr3 : Nat
  deriving DecidableEq, Repr

structure Machine where
  mem : ByteSpace.Bytes -- Physical memory.
  early : Early
  frames : Frames
  paging : Paging

end Voyager
