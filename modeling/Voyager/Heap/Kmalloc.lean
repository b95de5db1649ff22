import Voyager.Access

/-!
# The kernel heap

`mm/kmalloc.c`. Every header, footer and link is a word of the memory the clients use. The
calls run one after another, so the spinlock is left out. Pointers are addresses and `NULL`
is zero.
-/

namespace Voyager.Heap

open Lib

def heapBase : Nat := 0xFFFF900000000000

def heapLimit : Nat := heapBase + 256 * 1024 * 1024

/-- What the heap runs on: virtual memory, and `mapPage`, the body of the mapping
loop in `heap_map_more` (a frame from `frame_alloc`, entered by `PagingMapMemory`).
`backed m c` says that the window is mapped up to `c` and not at `c`; there it behaves
as memory, and mapping the page at `c` leaves what it held alone. A page that cannot be
mapped is a panic. -/
structure Backing (σ : Type) extends ByteSpace σ where
  mapPage : σ → Nat → Kernel σ
  backed : σ → Nat → Prop
  region : ∀ c, c ≤ heapLimit →
    toByteSpace.Region (fun m => backed m c) (fun a => heapBase ≤ a ∧ a < c)
  unmapped : ∀ {m c}, backed m c → c ≤ heapLimit → mapped m c = false
  mapPage_backed : ∀ {m m' c}, backed m c → heapBase ≤ c → c % pageSize = 0 →
    c + pageSize ≤ heapLimit → mapPage m c = .ok m' →
      backed m' (c + pageSize) ∧ ∀ a, heapBase ≤ a → a < c → get m' a = get m a
  mapPage_panics : ∀ m c, Raises Halt.IsPanic (mapPage m c)

/-- The heap's globals over the memory they live in. -/
structure State (σ : Type) where
  mem : σ
  heapCurr : Nat -- `g_heap_curr`
  freeList : Nat -- `g_free_list`

/-! ### Header words -/

def isAlloc (word : Nat) : Bool := word % 2 = 1

def blkSize (word : Nat) : Nat := word - word % 2

def setAlloc (word : Nat) : Nat := word - word % 2 + 1

def clrAlloc (word : Nat) : Nat := word - word % 2

def setSize (word sz : Nat) : Nat := sz ||| word % 2

def hdrSize : Nat := 32

def ftrSize : Nat := 8

def overhead : Nat := hdrSize + ftrSize

def usable (word : Nat) : Nat := sub64 (blkSize word) overhead

def minSplitSize : Nat := 32

def totalSizeForPayload (payload : Nat) : Nat :=
  alignUp (add64 (alignUp payload 16) overhead) 16

/-- The sizes for which `total_size_for_payload` does not wrap around. -/
def maxRequest : Nat := 2 ^ 64 - 64

variable {σ : Type} (B : Backing σ)

/-! ### Word access -/

def readWord (s : State σ) (a : Nat) : Kernel Nat :=
  if B.mapped s.mem a && B.mapped s.mem (a + 7) then .ok (B.load s.mem a 8)
  else .error (.pageFault a)

def writeWord (s : State σ) (a v : Nat) : Kernel (State σ) :=
  if B.mapped s.mem a && B.mapped s.mem (a + 7) then .ok { s with mem := B.store s.mem a v 8 }
  else .error (.pageFault a)

-- `block_t` holds `size_and_flags` at 0, `prev_free` at 8 and `next_free` at 16.

def footerOf (s : State σ) (h : Nat) : Kernel Nat := do
  return h + blkSize (← readWord B s h) - ftrSize

def nextBlock (s : State σ) (h : Nat) : Kernel Nat := do
  return h + blkSize (← readWord B s h)

/-- `FOOTER_OF(h)->size_and_flags = h->size_and_flags` -/
def mirror (s : State σ) (h : Nat) : Kernel (State σ) := do
  writeWord B s (← footerOf B s h) (← readWord B s h)

/-! ### Free list -/

def flPush (s : State σ) (b : Nat) : Kernel (State σ) := do
  let s ← writeWord B s (b + 8) 0
  let s ← writeWord B s (b + 16) s.freeList
  let s ← if s.freeList ≠ 0 then writeWord B s (s.freeList + 8) b else pure s
  return { s with freeList := b }

def flRemove (s : State σ) (b : Nat) : Kernel (State σ) := do
  let prev ← readWord B s (b + 8)
  let next ← readWord B s (b + 16)
  let s ← if prev ≠ 0 then writeWord B s (prev + 16) next else pure { s with freeList := next }
  let next ← readWord B s (b + 16)
  let prev ← readWord B s (b + 8)
  let s ← if next ≠ 0 then writeWord B s (next + 8) prev else pure s
  let s ← writeWord B s (b + 16) 0
  writeWord B s (b + 8) 0

/-- The tags and empty links of a free block of `sz` bytes at `t`, then `fl_push(t)`. -/
def placeFree (s : State σ) (t sz : Nat) : Kernel (State σ) := do
  let s ← writeWord B s t sz
  let s ← writeWord B s (t + 16) 0
  let s ← writeWord B s (t + 8) 0
  let s ← writeWord B s (← footerOf B s t) sz
  flPush B s t

/-! ### Growing the window -/

def mapPages (m : σ) (va : Nat) : Nat → Kernel σ
  | 0 => .ok m
  | n + 1 => do mapPages (← B.mapPage m va) (va + pageSize) n

def heapMapMore (s : State σ) (bytes : Nat) : Kernel (State σ) :=
  let need := alignUp bytes pageSize
  let start := alignUp s.heapCurr pageSize
  let stop := add64 start need
  if stop > heapLimit then .error (.panic .heapExhausted)
  else do
    let m ← mapPages B s.mem start ((stop - start + (pageSize - 1)) / pageSize)
    let s ← placeFree B { s with mem := m } start (sub64 stop start)
    return { s with heapCurr := stop }

/-! ### Search, split and merge -/

/-- The first-fit loop; `fuel` bounds the nodes it visits. -/
def findFrom (s : State σ) (needTotal it : Nat) : Nat → Kernel Nat
  | 0 => .error .endless
  | fuel + 1 =>
    if it = 0 then .ok 0
    else do
      let word ← readWord B s it
      if blkSize word ≥ needTotal then return it
      else findFrom s needTotal (← readWord B s (it + 16)) fuel

def searchFuel : Nat := 256 * 1024 * 1024

def flFindFit (s : State σ) (needPayload : Nat) : Kernel Nat :=
  findFrom B s (totalSizeForPayload needPayload) s.freeList searchFuel

/-- The front of `h` becomes allocated, the tail a free block. -/
def splitBlock (s : State σ) (h allocSz tailSz : Nat) : Kernel (State σ) := do
  let s ← writeWord B s h (setSize (← readWord B s h) allocSz)
  let s ← writeWord B s h (setAlloc (← readWord B s h))
  let s ← mirror B s h
  placeFree B s (h + allocSz) tailSz

def allocateFromBlock (s : State σ) (h needPayload : Nat) : Kernel (Nat × State σ) := do
  let needTotal := totalSizeForPayload needPayload
  let oldSz := blkSize (← readWord B s h)
  let s ← flRemove B s h
  if oldSz ≥ add64 needTotal (totalSizeForPayload minSplitSize) then
    return (h, ← splitBlock B s h needTotal (sub64 oldSz needTotal))
  else
    let s ← writeWord B s h (setAlloc (← readWord B s h))
    return (h, ← mirror B s h)

/-- `SET_SIZE(h, BLK_SIZE(h) + BLK_SIZE(n))` and the footer of the result. -/
def absorb (s : State σ) (h n : Nat) : Kernel (State σ) := do
  let newSz := add64 (blkSize (← readWord B s h)) (blkSize (← readWord B s n))
  let s ← writeWord B s h (setSize (← readWord B s h) newSz)
  mirror B s h

/-- The forward half of `coalesce`. -/
def coalesceNext (s : State σ) (h : Nat) : Kernel (State σ) := do
  let n ← nextBlock B s h
  if n < s.heapCurr then
    if isAlloc (← readWord B s n) then return s
    else absorb B (← flRemove B s n) h n
  else return s

/-- The backward half of `coalesce`, which yields the merged block. -/
def coalescePrev (s : State σ) (h : Nat) : Kernel (Nat × State σ) := do
  if h > heapBase then
    let psz := blkSize (← readWord B s (h - ftrSize))
    let p := h - psz
    if isAlloc (← readWord B s p) then return (h, s)
    else return (p, ← absorb B (← flRemove B s p) p h)
  else return (h, s)

def coalesce (s : State σ) (h : Nat) : Kernel (Nat × State σ) := do
  coalescePrev B (← coalesceNext B s h) h

/-! ### Public interface -/

def kmallocInit (m : σ) : Kernel (State σ) :=
  heapMapMore B { mem := m, heapCurr := heapBase, freeList := 0 } (64 * pageSize)

/-- A fitting block, after growing the heap once when there is none. -/
def findOrGrow (s : State σ) (size : Nat) : Kernel (Nat × State σ) := do
  let h ← flFindFit B s size
  if h ≠ 0 then return (h, s)
  else
    let grow := totalSizeForPayload size
    let s ← heapMapMore B s (if grow < 128 * pageSize then 128 * pageSize else grow)
    return (← flFindFit B s size, s)

def kmalloc (s : State σ) (size : Nat) : Kernel (Nat × State σ) :=
  if size = 0 then .ok (0, s)
  else do
    let (h, s) ← findOrGrow B s size
    if h = 0 then return (0, s)
    else
      let (a, s) ← allocateFromBlock B s h size
      return (a + hdrSize, s)

def kfree (s : State σ) (ptr : Nat) : Kernel (State σ) :=
  if ptr = 0 then .ok s
  else do
    let h := ptr - hdrSize
    let word ← readWord B s h
    if isAlloc word then
      let s ← writeWord B s h (clrAlloc word)
      let s ← mirror B s h
      let (c, s) ← coalesce B s h
      flPush B s c
    else .error (.panic (.doubleFree ptr))

def memcpy (s : State σ) (dst src n : Nat) : Kernel (State σ) := do
  return { s with mem := ← Voyager.memcpy B.toByteSpace s.mem dst src n }

/-- `krealloc` past its fast paths: allocate, copy, free. -/
def reallocMove (s : State σ) (ptr cur newsize : Nat) : Kernel (Nat × State σ) := do
  let (np, s) ← kmalloc B s newsize
  if np = 0 then return (0, s)
  else
    let s ← memcpy B s np ptr cur
    return (np, ← kfree B s ptr)

/-- The in-place path of `krealloc`: `h` swallows the free block `n` after it. -/
def reallocGrow (s : State σ) (h n : Nat) : Kernel (State σ) := do
  let s ← flRemove B s n
  let newSz := add64 (blkSize (← readWord B s h)) (blkSize (← readWord B s n))
  let s ← writeWord B s h (setSize (← readWord B s h) newSz)
  let s ← writeWord B s h (setAlloc (← readWord B s h))
  mirror B s h

def krealloc (s : State σ) (ptr newsize : Nat) : Kernel (Nat × State σ) :=
  if ptr = 0 then kmalloc B s newsize
  else if newsize = 0 then do return (0, ← kfree B s ptr)
  else do
    let h := ptr - hdrSize
    let cur := usable (← readWord B s h)
    if cur ≥ newsize then return (ptr, s)
    else
      let n ← nextBlock B s h
      if n < s.heapCurr then
        let word ← readWord B s n
        if !isAlloc word && add64 (add64 cur overhead) (usable word) ≥ newsize then
          return (ptr, ← reallocGrow B s h n)
        else reallocMove B s ptr cur newsize
      else reallocMove B s ptr cur newsize

def kmallocUsableSize (s : State σ) (ptr : Nat) : Kernel Nat :=
  if ptr = 0 then .ok 0
  else do return usable (← readWord B s (ptr - hdrSize))

end Voyager.Heap
