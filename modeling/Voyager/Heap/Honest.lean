import Voyager.Heap.Client

/-!
# What a returned pointer is worth

Up to `maxRequest` the total does not wrap and a returned block holds what was asked for; but
when the end of the new pages wraps, the call neither panics nor returns. Above `maxRequest`
the call succeeds with next to no room.
-/

namespace Voyager.Heap.Client

open Lib

variable {σ : Type} {B : Backing σ} {c : Client σ} {s t : State σ} {blocks : List Block} {free : List Nat} {b : Block}
  {p ptr np size bytes : Nat}

/-- The block of `p` holds `size` bytes and lies in mapped heap memory. -/
def Honest (B : Backing σ) (t : State σ) (p size : Nat) : Prop :=
  ∃ n, kmallocUsableSize B t p = .ok n ∧ size ≤ n ∧ heapBase + hdrSize ≤ p ∧ p + n + ftrSize ≤ t.heapCurr ∧
    t.heapCurr ≤ heapLimit ∧ ∀ x, p - hdrSize ≤ x → x < p + n + ftrSize → B.mapped t.mem x = true

/-- `krealloc(ptr, size)` gets to `memcpy(np, ptr, bytes)`, in the state `t`. -/
structure Copies (B : Backing σ) (s : State σ) (ptr size np bytes : Nat) (t : State σ) : Prop where
  given : ptr ≠ 0
  asked : size ≠ 0
  current : kmallocUsableSize B s ptr = .ok bytes
  short : bytes < size
  -- The next block cannot be swallowed.
  apart : ∀ n word, nextBlock B s (ptr - hdrSize) = .ok n → n < s.heapCurr → readWord B s n = .ok word →
    isAlloc word = true ∨ add64 (add64 bytes overhead) (usable word) < size
  moved : kmalloc B s size = .ok (np, t)
  returned : np ≠ 0

/-- `kmalloc(size)` panics, returns `NULL`, or returns a block that is worth its size. -/
def KmallocHonest (B : Backing σ) (s : State σ) (size : Nat) : Prop :=
  match kmalloc B s size with
  | .ok (p, t) => p = 0 ∨ Honest B t p size
  | .error e => e.IsPanic

def HonestAt (B : Backing σ) (c : Client σ) (size : Nat) : Prop :=
  KmallocHonest B c.heap size ∧
    ∀ ptr np bytes t, c.holds ptr → Copies B c.heap ptr size np bytes t →
      ∃ n, kmallocUsableSize B t np = .ok n ∧ bytes ≤ n

theorem kmalloc_honest (inv : Inv B c blocks free) (bound : size ≤ maxRequest)
    (run : kmalloc B c.heap size = .ok (p, t)) :
    p = 0 ∨ Honest B t p size := by
  by_cases zero : size = 0
  · subst zero
    cases run
    exact .inl rfl
  · obtain ⟨blocks', free', b, wf, _, rfl, acquired, _⟩ :=
      kmalloc_spec inv.wellFormed (Nat.pos_of_ne_zero zero) bound run
    obtain ⟨low, high, _, _, large⟩ := wf.shaped.layout.place acquired.member
    have room := acquired.room
    have r := wf.shaped.ready
    have sizes : overhead = hdrSize + ftrSize := rfl
    refine .inr ⟨_, wf.usable_eq acquired.member, by omega, by omega, by omega, r.high, fun x first last => ?_⟩
    exact r.region.mapped r.backed ⟨by omega, by omega⟩

theorem copy_fits (inv : Inv B c blocks free) (bound : size ≤ maxRequest)
    (copies : Copies B c.heap ptr size np bytes t) :
    ∃ n, kmallocUsableSize B t np = .ok n ∧ bytes ≤ n := by
  have short := copies.short
  obtain ⟨n, usable, room, _⟩ := (kmalloc_honest inv bound copies.moved).resolve_left copies.returned
  exact ⟨n, usable, by omega⟩

theorem Copies.krealloc_eq (inv : Inv B c blocks free) (held : c.holds ptr)
    (copies : Copies B c.heap ptr size np bytes t) :
    krealloc B c.heap ptr size = (do
      let u ← memcpy B t np ptr bytes
      return (np, ← kfree B u ptr)) := by
  obtain ⟨given, asked, current, short, apart, moved, returned⟩ := copies
  obtain ⟨b, hb, _, rfl⟩ := inv.owned.exists_block held
  have L := inv.wellFormed.shaped.layout
  have r := inv.wellFormed.shaped.ready
  obtain ⟨low, high, al, mul, large⟩ := L.place hb
  have inB : Inside c.heap.heapCurr b.addr := ⟨low, by omega, by omega⟩
  have header : b.addr + hdrSize - hdrSize = b.addr := by omega
  have next : nextBlock B c.heap b.addr = .ok (b.addr + b.size) := by
    unfold nextBlock
    rw [bind_eq (r.read inB), (L.tagged b hb).blkSize_header]
    rfl
  have move : reallocMove B c.heap (b.addr + hdrSize) bytes size = (do
      let u ← memcpy B t np (b.addr + hdrSize) bytes
      return (np, ← kfree B u (b.addr + hdrSize))) := by
    unfold reallocMove
    rw [bind_eq moved]
    exact if_neg returned
  unfold kmallocUsableSize at current
  rw [if_neg given, header, bind_eq (r.read inB)] at current
  obtain rfl : usable (word B c.heap b.addr) = bytes := Except.ok.inj current
  rw [header] at apart
  unfold krealloc
  rw [if_neg given, if_neg asked, header, bind_eq (r.read inB), if_neg (by omega), bind_eq next]
  by_cases inside : b.addr + b.size < c.heap.heapCurr
  · obtain ⟨d, hd, first, last⟩ := L.tiles.exists_of_mem_range (x := b.addr + b.size) (by omega) inside
    have start : d.addr = b.addr + b.size := by
      have other : b.addr ≠ d.addr := fun same => by
        rw [L.tiles.eq_of_addr hb hd same] at last
        omega
      rcases L.tiles.apart hb hd other with after | before <;> omega
    have place := L.place hd
    have inD : Inside c.heap.heapCurr (b.addr + b.size) := ⟨by omega, by omega, by omega⟩
    rw [if_pos inside, bind_eq (r.read inD), if_neg, move]
    rcases apart _ _ next inside (r.read inD) with set | little
    · simp [set]
    · simp only [Bool.and_eq_true, Bool.not_eq_true', decide_eq_true_eq, not_and, not_le]
      exact fun _ => little
  · rw [if_neg inside, move]

/-! ### Sizes that wrap -/

theorem totalSizeForPayload_wraps (large : maxRequest < size) (word : size < 2 ^ 64) :
    totalSizeForPayload size ≤ 48 ∧ totalSizeForPayload size % 16 = 0 := by
  unfold maxRequest at large
  unfold totalSizeForPayload alignUp add64 overhead hdrSize ftrSize
  omega

/-- A front of at most 48 bytes is cut off like any other, whatever that leaves for the payload. -/
theorem allocate_front {n : Nat} (h : WellFormed B s blocks free) (hb : b ∈ blocks) (clear : b.allocated = false)
    (ample : 128 ≤ b.size) (total : totalSizeForPayload size = n) (tiny : n ≤ 48) (mul : n % 16 = 0)
    (inF : Inside s.heapCurr (b.addr + n - 8)) :
    ∃ t, Shaped B t blocks (free.erase b.addr) ∧ t.heapCurr = s.heapCurr ∧
      Writable t.heapCurr (splitWrites b n ++ pushWrites t.freeList (b.addr + n)) ∧
      allocateFromBlock B s b.addr size = .ok (b.addr,
        { pokes B t (splitWrites b n ++ pushWrites t.freeList (b.addr + n)) with freeList := b.addr + n }) := by
  obtain ⟨low, high, al, bmul, _⟩ := h.shaped.layout.place hb
  have inB : Inside s.heapCurr b.addr := ⟨low, by omega, by omega⟩
  obtain ⟨t, removed, shaped, curr, _⟩ := flRemove_spec h.shaped (h.listed b hb clear)
  have r := shaped.ready
  have tag : word B t b.addr = b.size := by
    rw [(shaped.layout.tagged b hb).header, Block.word, clear]
    rfl
  rw [← curr] at high inF
  have noWrap := r.lt_wrap high
  have base : heapBase % 16 = 0 := by decide
  have front := splitWrites_writable r low high al bmul mul (by omega) inF
  have tail : Writable t.heapCurr (pushWrites t.freeList (b.addr + n)) :=
    shaped.pushWrites_writable ⟨by omega, by omega, by omega⟩ ⟨by omega, by omega, by omega⟩ (by omega)
  have pushed : flPush B (pokes B t (splitWrites b n)) (b.addr + n) = .ok
      { pokes B t (splitWrites b n ++ pushWrites t.freeList (b.addr + n)) with freeList := b.addr + n } := by
    rw [flPush_run (r.pokes front) ⟨by omega, by simp only [pokes_heapCurr]; omega, by omega⟩
      ⟨by omega, by simp only [pokes_heapCurr]; omega, by omega⟩ shaped.head_inside shaped.head_lt, pokes_append]
    rfl
  refine ⟨t, shaped, curr, writable_append.mpr ⟨front, tail⟩, ?_⟩
  unfold allocateFromBlock
  rw [bind_eq (h.shaped.ready.read inB), (h.shaped.layout.tagged b hb).blkSize_header, bind_eq removed, total,
    show totalSizeForPayload minSplitSize = 80 by decide, add64_of_lt (by omega), if_pos (by omega),
    sub64_of_le (by omega) (by omega), splitBlock_run r low high al bmul tag mul (by omega) inF, pushed]
  rfl

theorem allocate_tiny (h : WellFormed B s blocks free) (hb : b ∈ blocks) (clear : b.allocated = false)
    (inner : heapBase < b.addr) (ample : 128 ≤ b.size) (tiny : totalSizeForPayload size ≤ 48)
    (mul : totalSizeForPayload size % 16 = 0) :
    ∃ t, allocateFromBlock B s b.addr size = .ok (b.addr, t) ∧ Ready B t ∧ t.heapCurr = s.heapCurr ∧
      (totalSizeForPayload size = 48 → word B t b.addr = 49) := by
  obtain ⟨low, high, al, _⟩ := h.shaped.layout.place hb
  have base : heapBase % 16 = 0 := by decide
  obtain ⟨t, shaped, curr, writable, run⟩ :=
    allocate_front h hb clear ample rfl tiny mul ⟨by omega, by omega, by omega⟩
  have r := shaped.ready
  refine ⟨_, run, (r.pokes writable).withHead _, curr, fun full => ?_⟩
  rw [full] at writable ⊢
  have inB : Inside t.heapCurr b.addr := ⟨low, by omega, by omega⟩
  -- The links of the tail and of the old head are no header.
  have later : ∀ p ∈ pushWrites t.freeList (b.addr + 48), p.1 ≠ b.addr := by
    unfold pushWrites
    split
    · simp
      omega
    · have headAl := (shaped.layout.listed (shaped.layout.head_listed ‹_›)).2.2
      simp
      omega
  apply (r.word_pokes writable inB).trans
  rw [overwrite_append, overwrite_of_not_mem later]
  simp only [splitWrites, placeWrites, List.cons_append, List.nil_append, overwrite_cons, overwrite_nil,
    Function.update_apply]
  rw [if_neg (by omega), if_neg (by omega), if_neg (by omega), if_neg (by omega), if_neg (by omega),
    if_pos trivial]

theorem kmalloc_tiny (h : WellFormed B s blocks free) (hb : b ∈ blocks) (clear : b.allocated = false)
    (ample : ∀ d ∈ blocks, d.allocated = false → heapBase < d.addr ∧ 128 ≤ d.size) (large : maxRequest < size)
    (bound : size < 2 ^ 64) :
    ∃ p t, kmalloc B s size = .ok (p, t) ∧ p ≠ 0 ∧
      (totalSizeForPayload size = 48 → kmallocUsableSize B t p = .ok 8) := by
  obtain ⟨tiny, mul⟩ := totalSizeForPayload_wraps large bound
  have fits : totalSizeForPayload size ≤ b.size := by
    have := (ample b hb clear).2
    omega
  obtain ⟨d, hd, dclear, some, _, found⟩ := findOrGrow_fits h hb clear fits
  obtain ⟨inner, room⟩ := ample d hd dclear
  obtain ⟨t, allocated, ready, curr, header⟩ := allocate_tiny h hd dclear inner room tiny mul
  refine ⟨d.addr + hdrSize, t, ?_, by omega, fun full => ?_⟩
  · unfold kmalloc
    rw [if_neg (by omega), bind_eq found]
    simp only
    rw [if_neg some, bind_eq allocated]
    rfl
  · obtain ⟨low, high, al, _⟩ := h.shaped.layout.place hd
    have inD : Inside t.heapCurr d.addr := ⟨low, by omega, by omega⟩
    unfold kmallocUsableSize
    rw [if_neg (by omega), show d.addr + hdrSize - hdrSize = d.addr by omega, bind_eq (ready.read inD), header full]
    rfl

/-! ### A heap with one allocation at its start -/

theorem flat_busy : ∃ (c : Client FlatMemory) (rest : Nat), Run flatBacking c ∧ 1024 ≤ rest ∧
    c.live = [(heapBase + hdrSize, 100)] ∧
    Inv flatBacking c [⟨heapBase, 160, true⟩, ⟨heapBase + 160, rest, false⟩] [heapBase + 160] := by
  obtain ⟨c, m, backed, init, none⟩ := flat_start
  obtain ⟨size, wf, curr, enough⟩ := kmallocInit_spec backed init
  unfold pageSize at enough
  have total : totalSizeForPayload 100 = 160 := by decide
  have fits : totalSizeForPayload 100 ≤ (Block.mk heapBase size false).size := by dsimp only; omega
  have whole : Shaped flatBacking c.heap ([] ++ ([⟨heapBase, size, false⟩] ++ [])) [heapBase] := wf.shaped
  obtain ⟨d, hd, _, some, _, found⟩ := findOrGrow_fits wf List.mem_cons_self rfl fits
  obtain rfl := List.mem_singleton.mp hd
  obtain ⟨t, allocated, shaped, curr', _⟩ := allocateFromBlock_spec whole rfl List.mem_cons_self (by decide)
    (by decide) fits
  have wf' := carve_wellFormed whole rfl wf.listed List.isChain_nil (List.isChain_singleton _) shaped
  rw [total] at wf'
  unfold carve carveFree at wf'
  rw [if_pos (by dsimp only; omega), if_pos (by dsimp only; omega)] at wf'
  have run : kmalloc flatBacking c.heap 100 = .ok (heapBase + hdrSize, t) := by
    unfold kmalloc
    rw [if_neg (by decide), bind_eq found]
    simp only
    rw [if_neg some, bind_eq allocated]
    rfl
  have owned : Owned [⟨heapBase, 160, true⟩, ⟨heapBase + 160, size - 160, false⟩] [(heapBase + hdrSize, 100)] := by
    refine ⟨by simp, fun p hp => ?_, fun b hb set => ?_⟩
    · rw [List.mem_singleton.mp hp]
      exact ⟨_, List.mem_cons_self, rfl, rfl, by decide⟩
    · simp only [List.mem_cons, List.not_mem_nil, or_false] at hb
      rcases hb with rfl | rfl
      · exact List.mem_cons_self
      · cases set
  refine ⟨⟨t, [(heapBase + hdrSize, 100)]⟩, size - 160, ?_, by omega, rfl, by simpa using wf', owned,
    by simp only; omega⟩
  refine .step (.start ⟨m, backed, init, none⟩) ⟨.malloc 100, show 100 ≤ maxRequest by decide, ?_⟩
  simp only [perform]
  rw [bind_eq run, none]
  rfl

theorem busy_tiny {rest : Nat} (inv : Inv B c [⟨heapBase, 160, true⟩, ⟨heapBase + 160, rest, false⟩] free)
    (enough : 1024 ≤ rest) (large : maxRequest < size) (bound : size < 2 ^ 64) :
    ∃ p t, kmalloc B c.heap size = .ok (p, t) ∧ p ≠ 0 ∧
      (totalSizeForPayload size = 48 → kmallocUsableSize B t p = .ok 8) := by
  have ample : ∀ d ∈ [(⟨heapBase, 160, true⟩ : Block), ⟨heapBase + 160, rest, false⟩], d.allocated = false →
      heapBase < d.addr ∧ 128 ≤ d.size := by
    simp
    omega
  exact kmalloc_tiny inv.wellFormed (List.mem_cons_of_mem _ List.mem_cons_self) rfl ample large bound

/-! ### Sizes that do not wrap -/

theorem kmalloc_faults (h : WellFormed B s blocks free) (pos : 0 < size) (missing : flFindFit B s size = .ok 0)
    (wraps : 2 ^ 64 ≤ grownTo s (growth size)) : kmalloc B s size = .error (.pageFault s.heapCurr) :=
  kmalloc_missing pos missing (heapMapMore_wraps h.shaped.ready (growth_lt size) wraps)

theorem honest_iff_of_le (inv : Inv B c blocks free) (bound : size ≤ maxRequest) :
    HonestAt B c size ↔
      size = 0 ∨ (∃ a, a ≠ 0 ∧ flFindFit B c.heap size = .ok a) ∨ grownTo c.heap (growth size) < 2 ^ 64 := by
  have wf := inv.wellFormed
  constructor
  · rintro ⟨honest, _⟩
    by_contra bad
    obtain ⟨zero, bad⟩ := not_or.mp bad
    obtain ⟨unfit, wraps⟩ := not_or.mp bad
    have missing : flFindFit B c.heap size = .ok 0 := by
      refine (wf.shaped.fits_or_missing size).resolve_left fun ⟨b, hb, clear, fits⟩ => unfit ?_
      obtain ⟨d, _, _, some, found, _⟩ := findOrGrow_fits wf hb clear fits
      exact ⟨d.addr, some, found⟩
    unfold KmallocHonest at honest
    rw [kmalloc_faults wf (Nat.pos_of_ne_zero zero) missing (Nat.le_of_not_lt wraps)] at honest
    exact honest
  · intro served
    refine ⟨?_, fun ptr np bytes t _ copies => copy_fits inv bound copies⟩
    unfold KmallocHonest
    split
    · exact kmalloc_honest inv bound ‹_›
    · rcases served with zero | inRange
      · subst zero
        cases ‹kmalloc B c.heap 0 = .error _›
      · exact kmalloc_panics wf bound inRange _ ‹_›

/-! ### All sizes -/

-- Once there is a block, only the words of the window are touched.

theorem readWord_faults {a : Nat} : Raises Halt.IsFault (readWord B s a) :=
  .ite (.ok _) (.error trivial)

theorem writeWord_faults {a v : Nat} : Raises Halt.IsFault (writeWord B s a v) :=
  .ite (.ok _) (.error trivial)

theorem mirror_faults {h : Nat} : Raises Halt.IsFault (mirror B s h) :=
  .bind (.bind readWord_faults fun _ => .ok _) fun _ =>
    .bind readWord_faults fun _ => writeWord_faults

theorem flPush_faults {a : Nat} : Raises Halt.IsFault (flPush B s a) :=
  .bind writeWord_faults fun _ => .bind writeWord_faults fun _ =>
    .ite (.bind writeWord_faults fun _ => .ok _) (.bind (.ok _) fun _ => .ok _)

theorem flRemove_faults {a : Nat} : Raises Halt.IsFault (flRemove B s a) := by
  refine .bind readWord_faults fun prev => .bind readWord_faults fun next => ?_
  refine .ite (.bind writeWord_faults fun t => ?_) (.bind (.ok _) fun t => ?_)
  all_goals
    refine .bind readWord_faults fun next => .bind readWord_faults fun prev => ?_
    refine .ite (.bind writeWord_faults fun u => ?_) (.bind (.ok _) fun u => ?_)
    all_goals exact .bind writeWord_faults fun _ => writeWord_faults

theorem placeFree_faults {a v : Nat} : Raises Halt.IsFault (placeFree B s a v) :=
  .bind writeWord_faults fun _ => .bind writeWord_faults fun _ => .bind writeWord_faults fun _ =>
    .bind (.bind readWord_faults fun _ => .ok _) fun _ => .bind writeWord_faults fun _ => flPush_faults

theorem splitBlock_faults {a n v : Nat} : Raises Halt.IsFault (splitBlock B s a n v) :=
  .bind readWord_faults fun _ => .bind writeWord_faults fun _ => .bind readWord_faults fun _ =>
    .bind writeWord_faults fun _ => .bind mirror_faults fun _ => placeFree_faults

theorem allocateFromBlock_faults {a size : Nat} : Raises Halt.IsFault (allocateFromBlock B s a size) :=
  .bind readWord_faults fun _ => .bind flRemove_faults fun _ =>
    .ite (.bind splitBlock_faults fun _ => .ok _)
      (.bind readWord_faults fun _ => .bind writeWord_faults fun _ => .bind mirror_faults fun _ => .ok _)

theorem not_honest (large : maxRequest < size) : ¬ Honest B t p size := by
  rintro ⟨n, _, room, _, high, limit, _⟩
  have : heapLimit < maxRequest := by decide
  omega

theorem found_not_honest {a : Nat} (large : maxRequest < size) (found : findOrGrow B s size = .ok (a, t)) (some : a ≠ 0) :
    ¬ KmallocHonest B s size := by
  unfold KmallocHonest kmalloc
  rw [if_neg (by omega), bind_eq found]
  simp only
  rw [if_neg some]
  cases allocated : allocateFromBlock B t a size with
  | error e =>
    have fault := allocateFromBlock_faults e allocated
    cases e with
    | panic why => exact fault.elim
    | pageFault x => exact id
    | endless => exact id
  | ok r =>
    rintro (null | honest)
    · have : r.1 + hdrSize = 0 := null
      unfold hdrSize at this
      omega
    · exact not_honest large honest

theorem growth_wraps (large : maxRequest < size) (bound : size < 2 ^ 64) : growth size = 128 * pageSize := by
  have tiny := (totalSizeForPayload_wraps large bound).1
  unfold growth pageSize
  omega

theorem honest_iff_of_gt (inv : Inv B c blocks free) (large : maxRequest < size) (bound : size < 2 ^ 64) :
    HonestAt B c size ↔ c.heap.freeList = 0 ∧ ∃ why, heapMapMore B c.heap (128 * pageSize) = .error (.panic why) := by
  have wf := inv.wellFormed
  have L := wf.shaped.layout
  have low := wf.shaped.ready.low
  have base : 0 < heapBase := by decide
  have tiny := (totalSizeForPayload_wraps large bound).1
  have unfit : ∀ b ∈ blocks, b.allocated = false → ¬ KmallocHonest B c.heap size := by
    intro b hb clear
    have room := (L.tagged b hb).large
    obtain ⟨d, _, _, some, _, found⟩ := findOrGrow_fits wf hb clear (show totalSizeForPayload size ≤ b.size by omega)
    exact found_not_honest large found some
  have search := wf.shaped.fits_or_missing size
  rw [← growth_wraps large bound]
  constructor
  · rintro ⟨honest, _⟩
    have missing := search.resolve_left fun ⟨b, hb, clear, _⟩ => unfit b hb clear honest
    refine ⟨?_, ?_⟩
    · by_contra head
      obtain ⟨b, hb, _, clear⟩ := L.isFree _ (L.head_listed head)
      exact unfit b hb clear honest
    · cases grown : heapMapMore B c.heap (growth size) with
      | ok t => exact (found_not_honest large (findOrGrow_grows wf.shaped missing grown) (by omega) honest).elim
      | error e =>
        unfold KmallocHonest at honest
        rw [kmalloc_missing (by omega) missing grown] at honest
        cases e with
        | panic why => exact ⟨why, rfl⟩
        | pageFault x => exact honest.elim
        | endless => exact honest.elim
  · rintro ⟨head, why, failed⟩
    have missing : flFindFit B c.heap size = .ok 0 := by
      refine search.resolve_left fun ⟨b, hb, clear, _⟩ => ?_
      have listed := wf.listed b hb clear
      have first := L.head_eq
      cases free with
      | nil => cases listed
      | cons x rest =>
        have place := L.listed (a := x) List.mem_cons_self
        rw [head, List.headD_cons] at first
        omega
    have run := kmalloc_missing (by omega) missing failed
    refine ⟨?_, fun ptr np bytes t _ copies => ?_⟩
    · unfold KmallocHonest
      rw [run]
      trivial
    · cases run.symm.trans copies.moved

/-- The states in which `kmalloc(size)` and `krealloc(p, size)` are honest. -/
def Serves (B : Backing σ) (s : State σ) (size : Nat) : Prop :=
  if size ≤ maxRequest then
    -- A block fits, or the end of the new pages is a 64-bit number.
    size = 0 ∨ (∃ a, a ≠ 0 ∧ flFindFit B s size = .ok a) ∨ grownTo s (growth size) < 2 ^ 64
  else s.freeList = 0 ∧ ∃ why, heapMapMore B s (128 * pageSize) = .error (.panic why)

theorem honest_iff (reached : Run B c) (bound : size < 2 ^ 64) : HonestAt B c size ↔ Serves B c.heap size := by
  obtain ⟨blocks, free, inv⟩ := reached.inv
  unfold Serves
  split
  · exact honest_iff_of_le inv ‹_›
  · exact honest_iff_of_gt inv (Nat.lt_of_not_le ‹_›) bound

theorem Serves.of_le (reached : Run B c) (small : size ≤ 0x6FFFEFFFEFD0) : Serves B c.heap size := by
  obtain ⟨_, _, inv⟩ := reached.inv
  unfold Serves
  rw [if_pos (Nat.le_trans small (by decide))]
  exact .inr (.inr (inv.wellFormed.shaped.ready.grownTo_lt small))

theorem not_serves (inv : Inv B c blocks free) (large : 0x700000000000 ≤ size) (bound : size ≤ maxRequest) :
    ¬ Serves B c.heap size := by
  have r := inv.wellFormed.shaped.ready
  have low : 0xFFFF900000000000 ≤ c.heap.heapCurr := r.low
  have high : c.heap.heapCurr ≤ 0xFFFF900010000000 := r.high
  have need := totalSizeForPayload_eq bound
  unfold Serves
  rw [if_pos bound]
  rintro (zero | ⟨a, some, found⟩ | inRange)
  · omega
  · have search := flFindFit_spec inv.wellFormed.shaped size
    cases first : free.find? (fun y => totalSizeForPayload size ≤ blkSize (word B c.heap y)) with
    | none =>
      rw [first, found] at search
      exact some (Except.ok.inj search)
    | some x =>
      obtain ⟨b, hb, _, _, fits⟩ := inv.wellFormed.shaped.find_fit first
      obtain ⟨start, stop, _⟩ := inv.wellFormed.shaped.layout.place hb
      have base : heapBase = 0xFFFF900000000000 := rfl
      omega
  · unfold grownTo roundUp growth pageSize at inRange
    omega

/-- On the fresh heap 256 MiB are a panic and `2 ^ 47` bytes a page fault at `g_heap_curr`. -/
theorem honest_fresh : ∃ c : Client FlatMemory, Run flatBacking c ∧ HonestAt flatBacking c (2 ^ 28) ∧
    ¬ HonestAt flatBacking c (2 ^ 47) := by
  obtain ⟨c, start⟩ := flat_start
  have reached : Run flatBacking c := .start start
  obtain ⟨_, _, inv⟩ := reached.inv
  refine ⟨c, reached, (honest_iff reached (by decide)).mpr (.of_le reached (by decide)), fun honest => ?_⟩
  exact not_serves inv (by decide) (by decide) ((honest_iff reached (by decide)).mp honest)

/-- `krealloc` to the largest `size_t` copies 120 bytes into a block with room for eight. -/
theorem dishonest_largest : ∃ (c : Client FlatMemory) (np : Nat) (t : State FlatMemory), Run flatBacking c ∧
    c.holds (heapBase + hdrSize) ∧ Copies flatBacking c.heap (heapBase + hdrSize) (2 ^ 64 - 1) np 120 t ∧
    krealloc flatBacking c.heap (heapBase + hdrSize) (2 ^ 64 - 1) = (do
      let u ← memcpy flatBacking t np (heapBase + hdrSize) 120
      return (np, ← kfree flatBacking u (heapBase + hdrSize))) ∧
    kmallocUsableSize flatBacking t np = .ok 8 ∧ ¬ HonestAt flatBacking c (2 ^ 64 - 1) := by
  obtain ⟨c, rest, reached, enough, live, inv⟩ := flat_busy
  obtain ⟨p, t, run, some, tiny⟩ := busy_tiny inv enough (show maxRequest < 2 ^ 64 - 1 by decide) (by decide)
  have L := inv.wellFormed.shaped.layout
  have r := inv.wellFormed.shaped.ready
  have front : (⟨heapBase, 160, true⟩ : Block) ∈ [(⟨heapBase, 160, true⟩ : Block),
    ⟨heapBase + 160, rest, false⟩] := by simp
  have back : (⟨heapBase + 160, rest, false⟩ : Block) ∈ [(⟨heapBase, 160, true⟩ : Block),
    ⟨heapBase + 160, rest, false⟩] := by simp
  have current := inv.usable_eq front
  have copies : Copies flatBacking c.heap (heapBase + hdrSize) (2 ^ 64 - 1) p 120 t := by
    refine ⟨by decide, by decide, current, by decide, fun n word next _ read => .inr ?_, run, some⟩
    obtain ⟨low, high, _, mul, large⟩ := L.place back
    dsimp only at low high mul large
    have limit : heapBase + 160 + rest ≤ heapBase + 2 ^ 28 := Nat.le_trans high r.high
    have start : n = heapBase + 160 := by
      unfold nextBlock at next
      rw [Nat.add_sub_cancel, bind_eq (r.read ⟨Nat.le_refl _, by omega, by decide⟩),
        (L.tagged _ front).blkSize_header] at next
      exact (Except.ok.inj next).symm
    have header : usable word = rest - overhead := by
      rw [start, r.read ⟨low, by omega, by decide⟩, (L.tagged _ back).header] at read
      rw [← Except.ok.inj read]
      exact usable_word mul large (by dsimp only; omega)
    rw [header]
    unfold add64 overhead hdrSize ftrSize
    omega
  have held : c.holds (heapBase + hdrSize) := by simp [holds, live]
  refine ⟨c, p, t, reached, held, copies, copies.krealloc_eq inv held, tiny (by decide), fun both => ?_⟩
  have honest := both.1
  unfold KmallocHonest at honest
  rw [run] at honest
  exact not_honest (by decide) (honest.resolve_left some)

end Voyager.Heap.Client
