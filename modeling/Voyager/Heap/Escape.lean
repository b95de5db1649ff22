import Voyager.Heap.Honest
import Voyager.Heap.Private
import Voyager.Lib.Stores

/-!
# A request that wraps

`kmalloc(2^64 - 40)` takes 16 bytes, so its payload begins with the link `next_free` of the
block behind. Whatever the client stores there, the next `fl_remove` follows.
-/

namespace Voyager.Heap

open Lib ByteSpace

variable {σ : Type} {B : Backing σ} {s t : State σ} {c : Client σ} {start : Client σ → Prop} {P : σ → Prop}
  {D : Nat → Prop} {size link n k v : Nat}

/-- `Client.Allowed` for every `size_t`. -/
def Client.Permitted (B : Backing σ) (c : Client σ) : Call → Prop
  | .malloc size => size < 2 ^ 64
  | .realloc p size => (p = 0 ∨ c.holds p) ∧ size < 2 ^ 64
  | call => c.Allowed B call

def Client.WideStep (B : Backing σ) (c c' : Client σ) : Prop :=
  ∃ call, c.Permitted B call ∧ c.perform B call = .ok c'

def wrapping : Nat := 2 ^ 64 - 40

structure Cut (B : Backing σ) (s : State σ) (size : Nat) : Prop where
  ready : Ready B s
  curr : s.heapCurr = heapBase + size
  large : 64 * pageSize ≤ size
  multiple : size % 16 = 0
  head : s.freeList = heapBase + 16
  front : word B s heapBase = 17
  rest : word B s (heapBase + 16) = size - 16
  prev : word B s (heapBase + 24) = 0

theorem kmalloc_wrapping (h : WellFormed B s [⟨heapBase, size, false⟩] [heapBase])
    (curr : s.heapCurr = heapBase + size) (large : 64 * pageSize ≤ size) :
    ∃ t, kmalloc B s wrapping = .ok (heapBase + hdrSize, t) ∧ Cut B t size := by
  have page : 64 * pageSize = 262144 := by decide
  have total : totalSizeForPayload wrapping = 16 := by decide
  have base : heapBase % 16 = 0 := by decide
  have multiple : size % 16 = 0 := (h.shaped.layout.place List.mem_cons_self).2.2.2.1
  have fits : totalSizeForPayload wrapping ≤ (⟨heapBase, size, false⟩ : Block).size := by
    rw [total]
    dsimp only
    omega
  obtain ⟨d, hd, _, some, _, found⟩ := findOrGrow_fits h List.mem_cons_self rfl fits
  obtain rfl := List.mem_singleton.mp hd
  obtain ⟨u, shaped, same, writable, run⟩ := Client.allocate_front h hd rfl (by dsimp only; omega) total (by decide)
    (by decide) ⟨by dsimp only; omega, by dsimp only; omega, by dsimp only; omega⟩
  have empty : u.freeList = 0 := by
    rw [shaped.layout.head_eq]
    simp
  rw [empty] at writable run
  have r := shaped.ready
  have words : ∀ k, k < 4 → word B (pokes B u _) (heapBase + 8 * k) = _ := fun k lt =>
    r.word_pokes writable ⟨by omega, by omega, by omega⟩
  simp only [splitWrites, placeWrites, pushWrites, List.cons_append, List.nil_append, List.append_nil, if_true,
    overwrite_cons, overwrite_nil, Function.update_apply] at words
  refine ⟨_, ?_, (r.pokes writable).withHead _, same.trans curr, large, multiple, rfl, ?_, ?_, ?_⟩
  · unfold kmalloc
    rw [if_neg (by decide), bind_eq found]
    simp only
    rw [if_neg some, bind_eq run]
    rfl
  · refine (words 0 (by decide)).trans ?_
    rw [if_neg (by omega), if_neg (by omega), if_neg (by omega), if_neg (by omega), if_neg (by omega),
      if_neg (by omega), if_neg (by omega), if_pos (by omega)]
  · refine (words 2 (by decide)).trans ?_
    rw [if_neg (by omega), if_neg (by omega), if_neg (by omega), if_neg (by omega), if_neg (by omega),
      if_pos (by omega)]
  · refine (words 3 (by decide)).trans ?_
    rw [if_neg (by omega), if_pos (by omega)]

/-! ### The client writes the link -/

theorem Cut.set (h : Cut B s size) (low : 32 ≤ k) (high : k < 40) (v : UInt8) :
    Cut B (setMem s (B.set s.mem (heapBase + k) v)) size := by
  obtain ⟨r, curr, large, multiple, head, front, rest, prev⟩ := h
  have page : 64 * pageSize = 262144 := by decide
  have here : heapBase ≤ heapBase + k ∧ heapBase + k < s.heapCurr := by omega
  have words : ∀ j ≤ 24, word B (setMem s (B.set s.mem (heapBase + k) v)) (heapBase + j) =
      word B s (heapBase + j) := by
    intro j le
    apply load_congr
    intro i lt
    exact (r.region.get_set v r.backed here ⟨by omega, by omega⟩).trans (if_neg (by omega))
  exact ⟨⟨r.region.keep v r.backed here, r.low, r.high, r.paged⟩, curr, large, multiple, head,
    (words 0 (by decide)).trans front, (words 16 (by decide)).trans rest, (words 24 (by decide)).trans prev⟩

theorem Cut.usable (h : Cut B s size) : kmallocUsableSize B s (heapBase + hdrSize) = .ok (2 ^ 64 - 24) := by
  have curr := h.curr
  have large := h.large
  have page : 64 * pageSize = 262144 := by decide
  unfold kmallocUsableSize
  rw [if_neg (by decide), Nat.add_sub_cancel, bind_eq (h.ready.read ⟨Nat.le_refl _, by omega, by decide⟩), h.front]
  rfl

theorem Cut.writes (h : Cut B c.heap size) (held : c.holds (heapBase + hdrSize))
    (run : Reachable start (Client.WideStep B) c) (fits : k + n ≤ 8) :
    Reachable start (Client.WideStep B)
      { c with heap := setMem c.heap (B.store c.heap.mem (heapBase + hdrSize + k) v n) } ∧
    Cut B (setMem c.heap (B.store c.heap.mem (heapBase + hdrSize + k) v n)) size := by
  induction n generalizing c k v with
  | zero =>
    rw [store]
    exact ⟨run, h⟩
  | succ n ih =>
    have curr := h.curr
    have large := h.large
    have page : 64 * pageSize = 262144 := by decide
    have sum : heapBase + hdrSize + k = heapBase + (32 + k) := Nat.add_assoc _ _ _
    have next : Cut B (setMem c.heap (B.set c.heap.mem (heapBase + hdrSize + k) (UInt8.ofNat v))) size := by
      rw [sum]
      exact h.set (by omega) (by omega) _
    have mapped : B.mapped c.heap.mem (heapBase + hdrSize + k) = true := by
      apply h.ready.region.mapped h.ready.backed
      omega
    have step : Client.WideStep B c
        { c with heap := setMem c.heap (B.set c.heap.mem (heapBase + hdrSize + k) (UInt8.ofNat v)) } :=
      ⟨.write (heapBase + hdrSize) k (UInt8.ofNat v), ⟨held, _, h.usable, by omega⟩, if_pos mapped⟩
    rw [store, Nat.add_assoc (heapBase + hdrSize)]
    exact ih (c := { c with heap := setMem c.heap (B.set c.heap.mem (heapBase + hdrSize + k) (UInt8.ofNat v)) })
      next held (.step run step) (by omega)

/-! ### The link is followed -/

section Stores

variable {ws : List Poke} {a : Nat} (R : B.Region P D) (state : P s.mem)
  (inside : ∀ w ∈ ws, ∀ i < w.width, D (w.addr + i)) (here : ∀ i < 8, D (a + i))

include R state inside here

theorem writeWord_stores : writeWord B (setMem t (B.stores s.mem ws)) a v =
    .ok (setMem t (B.stores s.mem (ws ++ [⟨a, v, 8⟩]))) := by
  rw [stores_append]
  exact writeWord_run R (R.keep_stores state inside) here

theorem readWord_stores (misses : ∀ w ∈ ws, w.Misses a 8) :
    readWord B (setMem t (B.stores s.mem ws)) a = .ok (word B s a) := by
  rw [readWord_run R (R.keep_stores state inside) here, R.load_stores_misses state inside here misses]
  rfl

end Stores

/-- The client's link leads out of the window to a word of a region. -/
structure Astray (B : Backing σ) (P : σ → Prop) (D : Nat → Prop) (s : State σ) (size link : Nat) : Prop where
  cut : Cut B s size
  region : B.Region P D
  state : P s.mem
  window : ∀ a, heapBase ≤ a → a < s.heapCurr → D a
  target : ∀ i < 8, D (link + 8 + i)
  below : 0 < link ∧ link + 16 ≤ heapBase
  next : word B s (heapBase + 32) = link

def unlinkWrites (link : Nat) : List Poke := [⟨link + 8, 0, 8⟩, ⟨heapBase + 32, 0, 8⟩, ⟨heapBase + 24, 0, 8⟩]

def restWrites (size link : Nat) : List Poke :=
  unlinkWrites link ++ [⟨heapBase + 16, size - 15, 8⟩, ⟨heapBase + size - 8, size - 15, 8⟩]

namespace Astray

variable (h : Astray B P D s size link)

include h

theorem bounds : 262144 ≤ size ∧ size ≤ 2 ^ 28 ∧ size % 16 = 0 ∧ s.heapCurr = heapBase + size := by
  have limit : heapLimit = heapBase + 2 ^ 28 := rfl
  have high := h.cut.ready.high
  have curr := h.cut.curr
  exact ⟨h.cut.large, by omega, h.cut.multiple, curr⟩

theorem inside {a : Nat} (low : heapBase ≤ a) (high : a + 8 ≤ heapBase + size) : ∀ i < 8, D (a + i) := by
  have curr := h.cut.curr
  exact fun i lt => h.window _ (by omega) (by omega)

theorem restWrites_inside (n : Nat) : ∀ w ∈ (restWrites size link).take n, ∀ i < w.width, D (w.addr + i) := by
  obtain ⟨large, _⟩ := h.bounds
  have all : ∀ w ∈ restWrites size link, ∀ i < w.width, D (w.addr + i) := by
    simp only [restWrites, unlinkWrites, List.cons_append, List.nil_append, List.mem_cons, List.not_mem_nil, or_false,
      forall_eq_or_imp, forall_eq]
    exact ⟨h.target, h.inside (by omega) (by omega), h.inside (by omega) (by omega), h.inside (by omega) (by omega),
      h.inside (by omega) (by omega)⟩
  exact fun w hw => all w (List.mem_of_mem_take hw)

theorem read {a : Nat} (low : heapBase ≤ a) (high : a + 8 ≤ heapBase + size) : readWord B s a = .ok (word B s a) :=
  readWord_run (s := s) h.region h.state (h.inside low high)

theorem write {a v : Nat} (n : Nat) (here : ∀ i < 8, D (a + i)) :
    writeWord B (setMem t (B.stores s.mem ((restWrites size link).take n))) a v =
      .ok (setMem t (B.stores s.mem ((restWrites size link).take n ++ [⟨a, v, 8⟩]))) :=
  writeWord_stores h.region h.state (h.restWrites_inside n) here

theorem unlink : flRemove B s (heapBase + 16) =
    .ok (setMem { s with freeList := link } (B.stores s.mem (unlinkWrites link))) := by
  obtain ⟨large, _⟩ := h.bounds
  have some : link ≠ 0 := Nat.ne_of_gt h.below.1
  have in24 := h.inside (a := heapBase + 24) (by omega) (by omega)
  have in32 := h.inside (a := heapBase + 32) (by omega) (by omega)
  have first := h.write (t := { s with freeList := link }) (v := 0) 0 h.target
  have second := h.write (t := { s with freeList := link }) (v := 0) 1 in32
  have third := h.write (t := { s with freeList := link }) (v := 0) 2 in24
  have back : ∀ a, heapBase ≤ a → a + 8 ≤ heapBase + size →
    readWord B { s with freeList := link } a = .ok (word B s a) := fun a low high => h.read low high
  unfold flRemove
  rw [show heapBase + 16 + 8 = heapBase + 24 from rfl, show heapBase + 16 + 16 = heapBase + 32 from rfl,
    bind_eq (h.read (by omega) (by omega)), bind_eq (h.read (by omega) (by omega)), h.cut.prev, h.next]
  simp only [ne_eq, not_true_eq_false, if_false, pure_bind]
  rw [bind_eq (back _ (by omega) (by omega)), bind_eq (back _ (by omega) (by omega)), h.cut.prev, h.next]
  simp only [some, not_false_eq_true, if_true]
  exact (bind_eq first).trans ((bind_eq second).trans third)

theorem total_eq : totalSizeForPayload (size - 64) = size - 16 := by
  obtain ⟨large, small, multiple, _⟩ := h.bounds
  rw [totalSizeForPayload_eq (by unfold maxRequest; omega)]
  omega

theorem find : findOrGrow B s (size - 64) = .ok (heapBase + 16, s) := by
  obtain ⟨large, small, multiple, _⟩ := h.bounds
  have fits : blkSize (size - 16) ≥ size - 16 := by
    unfold blkSize
    omega
  have first : ∀ fuel, findFrom B s (size - 16) (heapBase + 16) (fuel + 1) = .ok (heapBase + 16) := by
    intro fuel
    rw [findFrom, if_neg (by decide), bind_eq (h.read (by omega) (by omega)), h.cut.rest]
    exact if_pos fits
  unfold findOrGrow flFindFit
  rw [h.total_eq, h.cut.head, bind_eq (show findFrom B s _ _ searchFuel = _ from first 0xFFFFFFF)]
  rfl

theorem mirror_run : mirror B (setMem t (B.stores s.mem ((restWrites size link).take 4))) (heapBase + 16) =
    .ok (setMem t (B.stores s.mem (restWrites size link))) := by
  obtain ⟨large, small, multiple, _⟩ := h.bounds
  have in16 := h.inside (a := heapBase + 16) (by omega) (by omega)
  have place : heapBase + 16 + blkSize (size - 15) - ftrSize = heapBase + size - 8 := by
    unfold blkSize ftrSize
    omega
  have stored := h.region.load_store_same (v := size - 15) (h.region.keep_stores h.state (h.restWrites_inside 3)) in16
  rw [show (256 : Nat) ^ 8 = 2 ^ 64 by decide, Nat.mod_eq_of_lt (by omega)] at stored
  have header : readWord B (setMem t (B.stores s.mem ((restWrites size link).take 4))) (heapBase + 16) =
      .ok (size - 15) :=
    (readWord_run h.region (h.region.keep_stores h.state (h.restWrites_inside 4)) in16).trans
      (congrArg Except.ok stored)
  have written := h.write (t := t) (v := size - 15) 4 (h.inside (a := heapBase + size - 8) (by omega) (by omega))
  unfold mirror footerOf
  rw [bind_eq header]
  simp only [pure_bind]
  rw [bind_eq header, place]
  exact written

theorem allocate : allocateFromBlock B s (heapBase + 16) (size - 64) =
    .ok (heapBase + 16, setMem { s with freeList := link } (B.stores s.mem (restWrites size link))) := by
  obtain ⟨large, small, multiple, _⟩ := h.bounds
  have below := h.below
  have in16 := h.inside (a := heapBase + 16) (by omega) (by omega)
  have tag : readWord B (setMem { s with freeList := link } (B.stores s.mem (unlinkWrites link))) (heapBase + 16) =
      .ok (size - 16) := by
    rw [← h.cut.rest]
    apply readWord_stores h.region h.state (h.restWrites_inside 3) in16
    simp only [restWrites, unlinkWrites, Poke.Misses, List.cons_append, List.nil_append, List.take_succ_cons,
      List.take_zero, List.mem_cons, List.not_mem_nil, or_false, forall_eq_or_imp, forall_eq]
    omega
  have set : writeWord B (setMem { s with freeList := link } (B.stores s.mem (unlinkWrites link))) (heapBase + 16)
      (size - 15) = .ok (setMem { s with freeList := link } (B.stores s.mem ((restWrites size link).take 4))) :=
    h.write 3 in16
  unfold allocateFromBlock
  rw [bind_eq (h.read (by omega) (by omega)), h.cut.rest, bind_eq h.unlink, h.total_eq,
    show totalSizeForPayload minSplitSize = 80 by decide, add64_of_lt (by omega), if_neg (by unfold blkSize; omega),
    bind_eq tag, show setAlloc (size - 16) = size - 15 by unfold setAlloc; omega, bind_eq set, bind_eq h.mirror_run]
  rfl

theorem kmalloc_run : kmalloc B s (size - 64) = .ok (heapBase + 16 + hdrSize,
    setMem { s with freeList := link } (B.stores s.mem (restWrites size link))) := by
  have large := h.bounds.1
  unfold kmalloc
  rw [if_neg (by omega), bind_eq h.find]
  simp only
  rw [if_neg (by decide), bind_eq h.allocate]
  rfl

theorem keeps : P (B.stores s.mem (restWrites size link)) := h.region.keep_stores h.state (h.restWrites_inside 5)

theorem zeroed {i : Nat} (lt : i < 8) : B.get (B.stores s.mem (restWrites size link)) (link + 8 + i) = 0 := by
  obtain ⟨_, below⟩ := h.below
  have large := h.bounds.1
  have there := h.target i lt
  have later : ∀ w ∈ (restWrites size link).tail, ∀ i < w.width, D (w.addr + i) := fun w hw =>
    h.restWrites_inside 5 w (List.mem_of_mem_tail hw)
  have kept := h.region.get_stores_misses (h.region.keep_store (v := 0) h.state h.target) later there (by
    simp only [restWrites, unlinkWrites, Poke.Misses, List.cons_append, List.nil_append, List.tail_cons, List.mem_cons,
      List.not_mem_nil, or_false, forall_eq_or_imp, forall_eq]
    omega)
  rw [h.region.get_store h.state h.target there, if_pos (by omega), Nat.zero_div] at kept
  exact kept

end Astray

end Voyager.Heap

namespace Voyager.Machine

open Lib Lib.RadixTable Paging Heap

variable {m₀ m u : Machine} {F₀ F T : Finset Nat} {data : List Nat} {i k a b x va : Nat}

/-- As `HeapRun`, with requests of any size. -/
def WideRun (m₀ : Machine) : Client Machine → Prop :=
  Reachable (fun c => kmallocInit (machineBacking m₀) m₀ = .ok c.heap ∧ c.live = [])
    (Client.WideStep (machineBacking m₀))

/-- Bytes of `u` changed, but none of a page table. -/
structure SameTables (u m : Machine) : Prop where
  frames : m.frames = u.frames
  paging : m.paging = u.paging
  bytes : ∀ {l p n}, Reached u.mem u.currentPml4Phys l p n → ∀ x, x / pageSize = n / pageSize → m.mem x = u.mem x

theorem SameTables.refl : SameTables u u := ⟨rfl, rfl, fun _ _ _ => rfl⟩

theorem SameTables.leaves (h : SameTables u m) (tree : Tree u.mem u.currentPml4Phys) (va : Nat) :
    leafOf m.mem m.currentPml4Phys va = leafOf u.mem u.currentPml4Phys va := by
  have root : m.currentPml4Phys = u.currentPml4Phys := by rw [currentPml4Phys, h.paging]; rfl
  have grown : Grown u.mem m.mem u.currentPml4Phys (fun _ => False) := tree.same fun r x low high =>
    h.bytes r x ((in_page (tree.node_aligned r)).mp ⟨low, high⟩)
  rw [root, grown.leaves]

def HeapOrBitmap (u : Machine) (data : List Nat) (a : Nat) : Prop :=
  (heapBase ≤ a ∧ a < heapBase + data.length * pageSize) ∨ ∃ k < u.bmBytes, a = bitmapByte u k

theorem Maps.translate {w nx : Bool} (h : Maps m m.currentPml4Phys va x w nx) : m.translate va = some x := by
  obtain ⟨e, l, found, _, rfl, _⟩ := h
  rw [Machine.translate, found]
  rfl

theorem HeapPages.tree (pages : HeapPages m₀ u F₀ F data T) : Tree u.mem u.currentPml4Phys := by
  rw [pages.root_eq]
  exact pages.runtime.tree

section Region

variable (pages : HeapPages m₀ u F₀ F data T) (bitmap : BitmapMapped u)

include pages bitmap

theorem HeapOrBitmap.place (ha : HeapOrBitmap u data a) : ∃ x, u.translate a = some x ∧
    ((heapBase ≤ a ∧ a < heapBase + data.length * pageSize ∧ u.OutsideBitmaps x) ∨
      ∃ k < u.bmBytes, a = bitmapByte u k ∧ x = u.frames.allocBm + k) ∧
    ∀ {l p n}, Reached u.mem u.currentPml4Phys l p n → x / pageSize ≠ n / pageSize := by
  rw [pages.root_eq]
  rcases ha with ⟨low, high⟩ | ⟨k, lt, rfl⟩
  · obtain ⟨i, found, _, _, address⟩ := pages.page low high
    have idle : Idle u m₀.currentPml4Phys F (i * pageSize + a % pageSize) := by
      apply pages.idle
      rw [frame_offset]
      exact List.mem_of_getElem? found
    exact ⟨_, address, .inl ⟨low, high, idle.bitmaps⟩, idle.tables⟩
  · refine ⟨_, (bitmap k lt).2.translate, .inr ⟨k, lt, rfl, rfl⟩, fun r same => ?_⟩
    obtain ⟨out, _⟩ := (pages.runtime.tables r).2 _ same
    omega

theorem sameTables_region : virtualSpace.Region (SameTables u) (HeapOrBitmap u data) := by
  have tree := pages.tree
  have address : ∀ {m}, SameTables u m → ∀ a, m.translate a = u.translate a := fun h a => by
    rw [translate, translate, h.leaves tree]
  have keep : ∀ {m a} (v : UInt8), SameTables u m → HeapOrBitmap u data a → SameTables u (virtualSpace.set m a v) := by
    intro m a v h ha
    obtain ⟨x, hx, _, off⟩ := ha.place pages bitmap
    refine ⟨h.frames, h.paging, fun r y same => ?_⟩
    simp only [virtualSpace]
    rw [address h, hx, Option.getD_some, if_neg]
    · exact h.bytes r y same
    · rintro rfl
      exact off r same
  apply region_of_translate
  · intro m a h ha
    simp only [virtualSpace]
    rw [h.leaves tree]
    rcases ha with inside | ⟨k, lt, rfl⟩
    · exact heapPages_region.mapped pages inside
    · obtain ⟨_, e, l, found, _, _, writable, _⟩ := bitmap k lt
      rw [found]
      exact writable
  · exact keep
  · intro m a b v h ha hb
    rw [address (keep v h ha), address h]
  · intro m a b h ha hb same
    rw [address h, address h] at same
    obtain ⟨x, hx, placed, _⟩ := ha.place pages bitmap
    obtain ⟨y, hy, placed', _⟩ := hb.place pages bitmap
    obtain rfl : x = y := by rwa [hx, hy, Option.some.injEq] at same
    rcases placed with ⟨low, high, out⟩ | ⟨k, lt, rfl, rfl⟩ <;>
      rcases placed' with ⟨low', high', out'⟩ | ⟨k', lt', rfl, place⟩
    · exact pages.translate_inj low high low' high' same
    · unfold OutsideBitmaps at out
      omega
    · unfold OutsideBitmaps at out'
      omega
    · rw [bitmapByte, bitmapByte, place]

end Region

theorem HeapPages.bmBytes_eq (pages : HeapPages m₀ u F₀ F data T) :
    u.frames.allocBm = m₀.frames.allocBm ∧ u.bmBytes = m₀.bmBytes := by
  have placed := pages.placed
  simp only [bitmapsAt, Prod.mk.injEq] at placed
  exact ⟨placed.1, by rw [bmBytes, placed.2.2, bmBytes]⟩

theorem HeapPages.bitmapMapped (pages : HeapPages m₀ u F₀ F data T) (bitmap : BitmapMapped m₀) : BitmapMapped u := by
  obtain ⟨place, bytes⟩ := pages.bmBytes_eq
  intro k lt
  rw [bytes] at lt
  obtain ⟨small, e, l, found, rest⟩ := bitmap k lt
  rw [bitmapByte, place, pages.root_eq]
  refine ⟨small, e, l, ?_, rest⟩
  rw [← found]
  apply pages.elsewhere
  unfold slotOf heapSlot higherHalfMemoryOffset
  omega

theorem BroughtUp.frame_bounds {F' : Finset Nat} (up : BroughtUp m₀ F') (pages : HeapPages m₀ u F₀ F data T)
    (hi : i ∈ data) : 0x100 ≤ i ∧ i / 8 < u.bmBytes := by
  have begun := (pages.owned i hi).1
  have same : F₀ = F' := pages.begun.managed.clear.trans up.runtime.managed.clear.symm
  have inside := pages.begun.managed.inside i begun
  rw [pages.bmBytes_eq.2]
  refine ⟨(up.members i (same ▸ begun)).1, ?_⟩
  unfold bmBytes
  omega

theorem SameTables.cleared (same : SameTables u m) (tree : Tree u.mem u.currentPml4Phys) (bitmap : BitmapMapped u)
    (lt : i / 8 < u.bmBytes) (zero : virtualSpace.get m (bitmapByte u (i / 8)) = 0) :
    bmTest m.mem m.frames.allocBm i = false := by
  have address : m.translate (bitmapByte u (i / 8)) = some (u.frames.allocBm + i / 8) := by
    rw [translate, same.leaves tree]
    exact (bitmap _ lt).2.translate
  simp only [virtualSpace] at zero
  rw [address, Option.getD_some] at zero
  rw [bmTest, Bitmap.test, same.frames, zero]
  exact Nat.zero_testBit _

theorem not_privatelyBacked {s : State Machine} (pages : HeapPages m₀ u F₀ F data T) (same : SameTables u s.mem)
    (found : data[0]? = some i) (some : heapBase + pageSize ≤ s.heapCurr)
    (clear : bmTest s.mem.mem s.mem.frames.allocBm i = false) : ¬ PrivatelyBacked m₀ s := by
  rintro ⟨_, ⟨frame, _, owned, on⟩, _⟩
  have positive : 0 < pageSize := by decide
  have small := pages.begun.frame_lt (pages.owned i (List.mem_of_getElem? found)).1
  have leaf := pages.leaf found 0 positive
  obtain ⟨e, now, _, _, address⟩ := on heapBase (Nat.le_refl _) (by omega)
  rw [same.leaves pages.tree, pages.root_eq, ← Nat.add_zero heapBase, ← Nat.zero_mul pageSize,
    ← Nat.add_zero (heapBase + _), leaf] at now
  cases now
  rw [heapLeaf_address small] at address
  have frame_eq : frame 0 = i := Nat.eq_of_mul_eq_mul_right positive (Nat.add_right_cancel address).symm
  have taken := (owned 0 (Nat.div_pos (by omega) positive)).allocated
  rw [frame_eq, clear] at taken
  cases taken

theorem wide_start : ∃ m₀ F s size, BroughtUp m₀ F ∧ WideRun m₀ ⟨s, [(heapBase + hdrSize, wrapping)]⟩ ∧
    Cut (machineBacking m₀) s size := by
  obtain ⟨m₀, F, up⟩ := bringup_returns
  have start := HeapPages.start up.runtime up.empty
  obtain ⟨m', mapped⟩ := mapPages_returns (n := 64) start (by decide) up.enough
  have backed : (machineBacking m₀).backed m₀ heapBase := ⟨F, F, [], ∅, start, rfl⟩
  obtain ⟨s, init⟩ := kmallocInit_returns backed mapped
  obtain ⟨size, wf, curr, large⟩ := kmallocInit_spec backed init
  obtain ⟨t, first, cut⟩ := kmalloc_wrapping wf curr large
  refine ⟨m₀, F, t, size, up, ?_, cut⟩
  refine .step (.start (s := ⟨s, []⟩) ⟨init, rfl⟩) ⟨.malloc wrapping, show wrapping < 2 ^ 64 by decide, ?_⟩
  simp only [Client.perform]
  rw [bind_eq first]
  rfl

def relink (m : Machine) (link : Nat) : Machine := virtualSpace.store m (heapBase + hdrSize) link 8

theorem BroughtUp.astray {s : State Machine} {F' : Finset Nat} {size : Nat} (up : BroughtUp m₀ F')
    (cut : ∀ link, Cut (machineBacking m₀) (setMem s (relink s.mem link)) size)
    (pages : HeapPages m₀ s.mem F₀ F data T) (length : s.heapCurr = heapBase + data.length * pageSize)
    (hi : i ∈ data) :
    ∃ link, HeapPages m₀ (relink s.mem link) F₀ F data T ∧ link + 15 = bitmapByte (relink s.mem link) (i / 8) ∧
      Astray (machineBacking m₀) (SameTables (relink s.mem link)) (HeapOrBitmap (relink s.mem link) data)
        (setMem s (relink s.mem link)) size link := by
  obtain ⟨above, inside⟩ := up.frame_bounds pages hi
  have small := (pages.bitmapMapped up.bitmap _ inside).1
  have room := (cut 0).large
  have curr : s.heapCurr = heapBase + size := (cut 0).curr
  have page : pageSize = 4096 := rfl
  have domain : ∀ j < 8, heapBase ≤ heapBase + hdrSize + j ∧ heapBase + hdrSize + j < s.heapCurr := by
    unfold hdrSize
    omega
  generalize target : bitmapByte s.mem (i / 8 - 7) - 8 = link
  have pages' : HeapPages m₀ (relink s.mem link) F₀ F data T := heapPages_region.keep_store pages (length ▸ domain)
  have place : ∀ j, link + 8 + j = bitmapByte (relink s.mem link) (i / 8 - 7 + j) := by
    intro j
    rw [bitmapByte, pages'.bmBytes_eq.1, ← pages.bmBytes_eq.1]
    unfold bitmapByte higherHalfMemoryOffset at *
    omega
  have low : 0 < link ∧ link + 16 ≤ heapBase ∧ link < 2 ^ 64 := by
    unfold bitmapByte higherHalfMemoryOffset heapBase at *
    omega
  have next := heapPages_region.load_store_same (v := link) pages (length ▸ domain)
  rw [show (256 : Nat) ^ 8 = 2 ^ 64 by decide, Nat.mod_eq_of_lt low.2.2] at next
  refine ⟨link, pages', ?_, cut link, sameTables_region pages' (pages'.bitmapMapped up.bitmap), .refl,
    fun a first last => ?_, fun j lt => ?_, ⟨low.1, low.2.1⟩, next⟩
  · rw [place 7, Nat.sub_add_cancel (by omega)]
  · exact .inl ⟨first, length ▸ last⟩
  · refine .inr ⟨i / 8 - 7 + j, ?_, place j⟩
    rw [pages'.bmBytes_eq.2, ← pages.bmBytes_eq.2]
    omega

/-- After `kmalloc(2^64 - 40)` the client stores a link to the byte with the bit of its first frame,
and the next `kmalloc` clears it. -/
theorem heap_escapes : ∃ m₀ c, bringupMachine.memoryBringup directBoot 0xFFFF800000200000 = .ok m₀ ∧ WideRun m₀ c ∧
    ¬ PrivatelyBacked m₀ c.heap := by
  obtain ⟨m₀, F, s, size, up, run, cut⟩ := wide_start
  obtain ⟨F₀, F', data, T, pages, length⟩ := cut.ready.backed
  have curr := cut.curr
  have large := cut.large
  have page : pageSize = 4096 := rfl
  obtain ⟨i, found⟩ : ∃ i, data[0]? = some i := ⟨_, List.getElem?_eq_getElem (by
    by_contra none
    rw [Nat.le_zero.mp (Nat.le_of_not_lt none)] at length
    omega)⟩
  have written := fun link => cut.writes (c := ⟨s, _⟩) (v := link) (n := 8) (k := 0) List.mem_cons_self run (by decide)
  obtain ⟨link, pages', bit, astray⟩ :=
    up.astray (fun link => (written link).2) pages length (List.mem_of_getElem? found)
  have bounds := astray.bounds
  have zero := astray.zeroed (show 7 < 8 by decide)
  rw [bit] at zero
  have clear := astray.keeps.cleared pages'.tree (pages'.bitmapMapped up.bitmap)
    (up.frame_bounds pages' (List.mem_of_getElem? found)).2 zero
  refine ⟨m₀, _, up.run, .step (written link).1 ⟨.malloc (size - 64), ?_, bind_eq astray.kmalloc_run⟩, ?_⟩
  · change size - 64 < 2 ^ 64
    omega
  · exact not_privatelyBacked pages' astray.keeps found (by simp only [setMem]; omega) clear

end Voyager.Machine
