import Voyager.Heap.FreeList

/-! # Rewriting blocks: allocation flags, split and merge -/

namespace Voyager.Heap

open Lib

variable {σ : Type} {B : Backing σ} {s : State σ} {blocks pre mid mid' post : List Block}
  {free : List Nat} {b c : Block} {ws : List (Nat × Nat)} {a v x lo hi : Nat}

theorem setSize_eq {sz word : Nat} (even : sz % 2 = 0) : setSize word sz = sz + word % 2 := by
  have := Nat.two_pow_add_eq_or_of_lt (i := 1) (b := word % 2) (by omega) (sz / 2)
  rw [setSize, show sz = 2 ^ 1 * (sz / 2) by omega, ← this]

theorem Block.word_mod (b : Block) (mul : b.size % 16 = 0) : b.word % 2 = b.allocated.toNat := by
  have := b.allocated.toNat_lt
  rw [Block.word]
  omega

theorem Block.blkSize_word (b : Block) (mul : b.size % 16 = 0) : blkSize b.word = b.size := by
  have := b.word_mod mul
  have e : b.word = b.size + b.allocated.toNat := rfl
  rw [blkSize]
  omega

theorem Ready.lt_wrap (r : Ready B s) (h : a ≤ s.heapCurr) : a < 2 ^ 64 := by
  have := r.high
  have : heapLimit < 2 ^ 64 := by decide
  omega

theorem mirror_run (r : Ready B s) (wr : Writable s.heapCurr ws) (header : overwrite (word B s) ws b.addr = b.word)
    (mul : b.size % 16 = 0) (inHeader : Inside s.heapCurr b.addr)
    (inFooter : Inside s.heapCurr (b.addr + b.size - 8)) :
    mirror B (pokes B s ws) b.addr = .ok (pokes B s (ws ++ [(b.addr + b.size - 8, b.word)])) := by
  unfold mirror footerOf
  rw [bind_eq (r.read_pokes wr inHeader), header, b.blkSize_word mul]
  simp only [pure_bind]
  rw [bind_eq (r.read_pokes wr inHeader), header]
  exact r.write_pokes wr inFooter

theorem Shaped.rewrite (h : Shaped B s (pre ++ (mid ++ post)) free) (ne : mid ≠ [])
    (old : Tiles Block.addr Block.size lo mid hi) (new : Tiles Block.addr Block.size lo mid' hi)
    (unlisted : ∀ b ∈ mid, b.addr ∉ free)
    (writes : ∀ p ∈ ws, lo ≤ p.1 ∧ p.1 + 8 ≤ hi ∧ p.1 % 8 = 0 ∧ p.2 < 2 ^ 64)
    (tagged : ∀ b ∈ mid', Tagged (overwrite (word B s) ws) b) :
    Shaped B (pokes B s ws) (pre ++ (mid' ++ post)) free := by
  have inWindow : heapBase ≤ lo ∧ hi ≤ s.heapCurr := by
    obtain ⟨start, left, rest⟩ := Tiles.append.mp h.layout.tiles
    obtain ⟨stop, body, right⟩ := Tiles.append.mp rest
    obtain ⟨first, others, rfl⟩ := List.exists_cons_of_ne_nil ne
    have e : start = lo := by rw [← body.1, ← old.1]
    have e' : stop = hi := body.end_unique (e ▸ old)
    have := left.le
    have := right.le
    omega
  have writable : Writable s.heapCurr ws := by
    intro p hp
    obtain ⟨low, high, al, lt⟩ := writes p hp
    exact ⟨⟨by omega, by omega, al⟩, lt⟩
  refine Shaped.of_pokes h.ready writable (h.layout.rewrite ne old new unlisted (fun x al out => ?_) tagged)
  apply overwrite_of_not_mem
  intro p hp
  have := writes p hp
  omega

def tagWrites (b : Block) : List (Nat × Nat) := [(b.addr, b.word), (b.addr + b.size - 8, b.word)]

theorem Block.word_lt (b : Block) (r : Ready B s) (h : b.addr + b.size ≤ s.heapCurr) (low : heapBase ≤ b.addr) :
    b.word < 2 ^ 64 := by
  have := r.lt_wrap h
  have := b.allocated.toNat_lt
  have : 2 ≤ heapBase := by decide
  rw [Block.word]
  omega

theorem tagged_tagWrites (w : Nat → Nat) (mul : b.size % 16 = 0) (large : 64 ≤ b.size) :
    Tagged (overwrite w (tagWrites b)) b := by
  refine ⟨mul, large, ?_, ?_⟩
  · simp only [tagWrites, overwrite_cons, overwrite_nil, Function.update_apply]
    rw [if_neg (by omega), if_pos trivial]
  · simp [tagWrites]

theorem Shaped.retag (h : Shaped B s (pre ++ (mid ++ post)) free) (ne : mid ≠ [])
    (old : Tiles Block.addr Block.size b.addr mid (b.addr + b.size)) (unlisted : ∀ c ∈ mid, c.addr ∉ free)
    (mul : b.size % 16 = 0) (large : 64 ≤ b.size) :
    Shaped B (pokes B s (tagWrites b)) (pre ++ ([b] ++ post)) free := by
  obtain ⟨first, others, rfl⟩ := List.exists_cons_of_ne_nil ne
  have member : first ∈ pre ++ (first :: others ++ post) := by simp
  obtain ⟨low, _, al, _, _⟩ := h.layout.place member
  rw [old.1] at low al
  have high : b.addr + b.size ≤ s.heapCurr := by
    obtain ⟨_, left, rest⟩ := Tiles.append.mp h.layout.tiles
    obtain ⟨stop, body, right⟩ := Tiles.append.mp rest
    have := right.le
    have : stop = b.addr + b.size := body.end_unique (by rw [← body.1, old.1]; exact old)
    omega
  have lt := b.word_lt h.ready high low
  refine h.rewrite ne old (Tiles.singleton.mpr ⟨rfl, by omega, rfl⟩) unlisted ?_ ?_
  · simp only [tagWrites, List.mem_cons, List.not_mem_nil, or_false, forall_eq_or_imp, forall_eq]
    omega
  · intro c hc
    rw [List.mem_singleton.mp hc]
    exact tagged_tagWrites _ mul large

theorem tagWrites_writable (r : Ready B s) (low : heapBase ≤ b.addr) (al : b.addr % 16 = 0) (mul : b.size % 16 = 0)
    (large : 64 ≤ b.size) (high : b.addr + b.size ≤ s.heapCurr) : Writable s.heapCurr (tagWrites b) := by
  have lt := b.word_lt r high low
  exact writable_cons.mpr ⟨⟨⟨low, by omega, by omega⟩, lt⟩,
    writable_cons.mpr ⟨⟨⟨by omega, by omega, by omega⟩, lt⟩, writable_nil⟩⟩

theorem byte_tagWrites (r : Ready B s) (low : heapBase ≤ b.addr) (al : b.addr % 16 = 0)
    (mul : b.size % 16 = 0) (large : 64 ≤ b.size) (high : b.addr + b.size ≤ s.heapCurr)
    (xlow : heapBase ≤ x) (xhigh : x < s.heapCurr) (header : x < b.addr ∨ b.addr + 8 ≤ x)
    (footer : x < b.addr + b.size - 8 ∨ b.addr + b.size ≤ x) :
    byte B (pokes B s (tagWrites b)) x = byte B s x :=
  r.byte_pokes (tagWrites_writable r low al mul large high) xlow xhigh
    (misses_cons.mpr ⟨header, misses_cons.mpr ⟨by omega, misses_nil⟩⟩)

theorem setAlloc_word (mul : b.size % 16 = 0) : setAlloc b.word = Block.word { b with allocated := true } := by
  have := b.blkSize_word mul
  unfold setAlloc Block.word
  simp only [blkSize, Block.word, Bool.toNat_true] at this ⊢
  omega

theorem clrAlloc_word (mul : b.size % 16 = 0) : clrAlloc b.word = Block.word { b with allocated := false } :=
  b.blkSize_word mul

theorem tag_run (r : Ready B s) (low : heapBase ≤ b.addr) (al : b.addr % 16 = 0) (mul : b.size % 16 = 0)
    (large : 64 ≤ b.size) (high : b.addr + b.size ≤ s.heapCurr) :
    (do mirror B (← writeWord B s b.addr b.word) b.addr) = .ok (pokes B s (tagWrites b)) := by
  have inHeader : Inside s.heapCurr b.addr := ⟨low, by omega, by omega⟩
  have wr : Writable s.heapCurr [(b.addr, b.word)] :=
    writable_cons.mpr ⟨⟨inHeader, b.word_lt r high low⟩, writable_nil⟩
  rw [bind_eq (r.write inHeader)]
  exact mirror_run r wr (by simp) mul inHeader ⟨by omega, by omega, by omega⟩

theorem absorb_run (r : Ready B s) (tb : Tagged (word B s) b) (tc : Tagged (word B s) c)
    (low : heapBase ≤ b.addr) (al : b.addr % 16 = 0) (adjacent : c.addr = b.addr + b.size)
    (high : c.addr + c.size ≤ s.heapCurr) :
    absorb B s b.addr c.addr = .ok (pokes B s (tagWrites ⟨b.addr, b.size + c.size, b.allocated⟩)) := by
  have bmul := tb.multiple
  have cmul := tc.multiple
  have blarge := tb.large
  have clarge := tc.large
  have noWrap := r.lt_wrap high
  have inB : Inside s.heapCurr b.addr := ⟨low, by omega, by omega⟩
  have inC : Inside s.heapCurr c.addr := ⟨by omega, by omega, by omega⟩
  unfold absorb
  rw [bind_eq (r.read inB), bind_eq (r.read inC), bind_eq (r.read inB), tb.blkSize_header, tc.blkSize_header,
    add64_of_lt (by omega), tb.header, setSize_eq (by omega), b.word_mod bmul]
  exact tag_run (b := ⟨b.addr, b.size + c.size, b.allocated⟩) r low al (show (b.size + c.size) % 16 = 0 by omega)
    (show 64 ≤ b.size + c.size by omega) (show b.addr + (b.size + c.size) ≤ s.heapCurr by omega)

def placeWrites (t sz : Nat) : List (Nat × Nat) := [(t, sz), (t + 16, 0), (t + 8, 0), (t + sz - 8, sz)]

theorem placeFree_run (r : Ready B s) (low : heapBase ≤ a) (al : a % 16 = 0) (mul : v % 16 = 0)
    (large : 64 ≤ v) (high : a + v ≤ s.heapCurr) (wr : Writable s.heapCurr ws) :
    placeFree B (pokes B s ws) a v = flPush B (pokes B s (ws ++ placeWrites a v)) a := by
  have noWrap := r.lt_wrap high
  have in0 : Inside s.heapCurr a := ⟨low, by omega, by omega⟩
  have in8 : Inside s.heapCurr (a + 8) := ⟨by omega, by omega, by omega⟩
  have in16 : Inside s.heapCurr (a + 16) := ⟨by omega, by omega, by omega⟩
  have inF : Inside s.heapCurr (a + v - 8) := ⟨by omega, by omega, by omega⟩
  have w1 := writable_append.mpr ⟨wr, writable_cons.mpr ⟨⟨in0, (by omega : v < 2 ^ 64)⟩, writable_nil⟩⟩
  have w2 := writable_append.mpr ⟨w1, writable_cons.mpr ⟨⟨in16, (by decide : 0 < 2 ^ 64)⟩, writable_nil⟩⟩
  have w3 := writable_append.mpr ⟨w2, writable_cons.mpr ⟨⟨in8, (by decide : 0 < 2 ^ 64)⟩, writable_nil⟩⟩
  have header : overwrite (word B s) (((ws ++ [(a, v)]) ++ [(a + 16, 0)]) ++ [(a + 8, 0)]) a = v := by
    simp only [overwrite_append, overwrite_cons, overwrite_nil, Function.update_apply]
    rw [if_neg (by omega), if_neg (by omega), if_pos trivial]
  have size : blkSize v = v := by unfold blkSize; omega
  unfold placeFree footerOf ftrSize
  rw [bind_eq (r.write_pokes wr in0), bind_eq (r.write_pokes w1 in16), bind_eq (r.write_pokes w2 in8),
    bind_eq (r.read_pokes w3 in0), header, size]
  simp only [pure_bind]
  rw [bind_eq (r.write_pokes w3 inF)]
  simp [placeWrites]

/-- The writes of `split_block` up to the push of the tail. Nothing asks for room in the front. -/
def splitWrites (b : Block) (n : Nat) : List (Nat × Nat) :=
  [(b.addr, n), (b.addr, n + 1), (b.addr + n - 8, n + 1)] ++ placeWrites (b.addr + n) (b.size - n)

theorem splitBlock_run {n : Nat} (r : Ready B s) (low : heapBase ≤ b.addr) (high : b.addr + b.size ≤ s.heapCurr)
    (al : b.addr % 16 = 0) (bmul : b.size % 16 = 0) (tag : word B s b.addr = b.size) (mul : n % 16 = 0)
    (room : n + 64 ≤ b.size) (inF : Inside s.heapCurr (b.addr + n - 8)) :
    splitBlock B s b.addr n (b.size - n) = flPush B (pokes B s (splitWrites b n)) (b.addr + n) := by
  have noWrap := r.lt_wrap high
  have inB : Inside s.heapCurr b.addr := ⟨low, by omega, by omega⟩
  have w1 : Writable s.heapCurr [(b.addr, n)] := writable_cons.mpr ⟨⟨inB, by omega⟩, writable_nil⟩
  have w2 : Writable s.heapCurr [(b.addr, n), (b.addr, n + 1)] :=
    writable_cons.mpr ⟨⟨inB, by omega⟩, writable_cons.mpr ⟨⟨inB, by omega⟩, writable_nil⟩⟩
  have w3 : Writable s.heapCurr [(b.addr, n), (b.addr, n + 1), (b.addr + n - 8, n + 1)] :=
    writable_cons.mpr ⟨⟨inB, by omega⟩, writable_cons.mpr ⟨⟨inB, by omega⟩,
      writable_cons.mpr ⟨⟨inF, by omega⟩, writable_nil⟩⟩⟩
  have first : setSize b.size n = n := by rw [setSize_eq (by omega)]; omega
  have second : setAlloc n = n + 1 := by unfold setAlloc; omega
  have front : Block.word ⟨b.addr, n, true⟩ = n + 1 := rfl
  unfold splitBlock
  rw [bind_eq (r.read inB), tag, first, bind_eq (r.write inB), bind_eq (r.read_pokes w1 inB)]
  simp only [overwrite_cons, overwrite_nil, Function.update_self, second]
  rw [bind_eq (r.write_pokes w1 inB)]
  have mirrored := mirror_run (b := ⟨b.addr, n, true⟩) r w2 (by simp [front]) mul inB inF
  simp only [List.cons_append, List.nil_append]
  rw [bind_eq mirrored]
  exact placeFree_run r (by omega) (by omega) (by omega) (by omega) (by omega) w3

theorem splitWrites_writable {n : Nat} (r : Ready B s) (low : heapBase ≤ b.addr)
    (high : b.addr + b.size ≤ s.heapCurr)
    (al : b.addr % 16 = 0) (bmul : b.size % 16 = 0) (mul : n % 16 = 0) (room : n + 64 ≤ b.size)
    (inF : Inside s.heapCurr (b.addr + n - 8)) : Writable s.heapCurr (splitWrites b n) := by
  have noWrap := r.lt_wrap high
  simp only [splitWrites, placeWrites, List.cons_append, List.nil_append, writable_cons]
  refine ⟨?_, ?_, ⟨inF, by omega⟩, ?_, ?_, ?_, ?_, writable_nil⟩ <;> unfold Inside <;> omega

theorem splitBlock_spec {n : Nat} (h : Shaped B s (pre ++ ([b] ++ post)) free) (clear : b.allocated = false)
    (unlisted : b.addr ∉ free) (mul : n % 16 = 0) (large : 64 ≤ n) (room : n + 64 ≤ b.size) :
    ∃ s', splitBlock B s b.addr n (b.size - n) = .ok s' ∧
      Shaped B s' (pre ++ ([⟨b.addr, n, true⟩, ⟨b.addr + n, b.size - n, false⟩] ++ post)) ((b.addr + n) :: free) ∧
      s'.heapCurr = s.heapCurr ∧
      ∀ x, heapBase ≤ x → x < s.heapCurr → (x < b.addr ∨ b.addr + b.size ≤ x) → OutsideLinks free x →
        byte B s' x = byte B s x := by
  have hb : b ∈ pre ++ ([b] ++ post) := by simp
  obtain ⟨low, high, al, bmul, _⟩ := h.layout.place hb
  have r := h.ready
  have noWrap := r.lt_wrap high
  have tag := (h.layout.tagged b hb).header
  have size : b.word = b.size := by rw [Block.word, clear]; rfl
  have inF : Inside s.heapCurr (b.addr + n - 8) := ⟨by omega, by omega, by omega⟩
  have run : splitBlock B s b.addr n (b.size - n) = flPush B (pokes B s (splitWrites b n)) (b.addr + n) :=
    splitBlock_run r low high al bmul (tag.trans size) mul room inF
  have shaped : Shaped B (pokes B s (splitWrites b n))
      (pre ++ ([⟨b.addr, n, true⟩, ⟨b.addr + n, b.size - n, false⟩] ++ post)) free := by
    have whole : Tiles Block.addr Block.size b.addr [b] (b.addr + b.size) :=
      Tiles.singleton.mpr ⟨rfl, by omega, rfl⟩
    refine h.rewrite (by simp) whole (Tiles.pair.mpr ⟨rfl, ?_, rfl, ?_, ?_⟩) (by simpa using unlisted) ?_ ?_
    · change 0 < n; omega
    · change 0 < b.size - n; omega
    · change b.addr + n + (b.size - n) = b.addr + b.size; omega
    · simp only [splitWrites, placeWrites, List.cons_append, List.nil_append, List.mem_cons, List.not_mem_nil,
        or_false,
        forall_eq_or_imp, forall_eq]
      omega
    · simp only [splitWrites, placeWrites, List.cons_append, List.nil_append, List.mem_cons, List.not_mem_nil,
        or_false,
        forall_eq_or_imp, forall_eq, overwrite_cons, overwrite_nil]
      refine ⟨⟨mul, large, ?_, ?_⟩, (by omega : (b.size - n) % 16 = 0), (by omega : 64 ≤ b.size - n), ?_, ?_⟩
      · simp only [Function.update_apply]
        rw [if_neg (by omega), if_neg (by omega), if_neg (by omega), if_neg (by omega), if_neg (by omega),
          if_pos trivial]
        rfl
      · simp only [Function.update_apply]
        rw [if_neg (by omega), if_neg (by omega), if_neg (by omega), if_neg (by omega), if_pos trivial]
        rfl
      · simp only [Function.update_apply]
        rw [if_neg (by omega), if_neg (by omega), if_neg (by omega), if_pos trivial]
        rfl
      · simp only [Function.update_apply]
        rw [if_pos trivial]
        rfl
  have fresh : b.addr + n ∉ free := by
    intro listed
    obtain ⟨c, hc, e, _⟩ := h.layout.isFree _ listed
    have := (h.layout.tagged c hc).large
    have := h.layout.tiles.eq_of_offset (i := n) (j := 0) hb hc (by omega) (by omega) (by omega)
    omega
  obtain ⟨s', pushed, shaped', curr, kept⟩ := flPush_spec (b := ⟨b.addr + n, b.size - n, false⟩) shaped
    (by simp) rfl fresh
  refine ⟨s', run.trans pushed, shaped', curr, fun x xlow xhigh out links => ?_⟩
  have outside : OutsideLinks ((b.addr + n) :: free) x := by
    intro a ha
    rcases List.mem_cons.mp ha with rfl | ha
    · omega
    · exact links a ha
  refine (kept x xlow xhigh outside).trans (r.byte_pokes
    (splitWrites_writable r low high al bmul mul room inF) xlow xhigh ?_)
  simp only [splitWrites, placeWrites, List.cons_append, List.nil_append, misses_cons]
  exact ⟨by omega, by omega, by omega, by omega, by omega, by omega, by omega, misses_nil⟩

theorem totalSizeForPayload_eq {size : Nat} (bound : size ≤ maxRequest) :
    totalSizeForPayload size = (size + 15) / 16 * 16 + 48 := by
  unfold maxRequest at bound
  unfold totalSizeForPayload alignUp add64 overhead hdrSize ftrSize
  omega

def carve (b : Block) (need : Nat) : List Block :=
  if need + 80 ≤ b.size then [⟨b.addr, need, true⟩, ⟨b.addr + need, b.size - need, false⟩]
  else [⟨b.addr, b.size, true⟩]

def carveFree (b : Block) (need : Nat) (free : List Nat) : List Nat :=
  if need + 80 ≤ b.size then (b.addr + need) :: free.erase b.addr else free.erase b.addr

theorem allocateFromBlock_spec {size : Nat} (h : Shaped B s (pre ++ ([b] ++ post)) free)
    (clear : b.allocated = false) (listed : b.addr ∈ free) (pos : 0 < size) (bound : size ≤ maxRequest)
    (fits : totalSizeForPayload size ≤ b.size) :
    ∃ s', allocateFromBlock B s b.addr size = .ok (b.addr, s') ∧
      Shaped B s' (pre ++ (carve b (totalSizeForPayload size) ++ post))
        (carveFree b (totalSizeForPayload size) free) ∧
      s'.heapCurr = s.heapCurr ∧
      ∀ x, heapBase ≤ x → x < s.heapCurr → (x < b.addr ∨ b.addr + b.size ≤ x) → OutsideLinks free x →
        byte B s' x = byte B s x := by
  have hb : b ∈ pre ++ ([b] ++ post) := by simp
  obtain ⟨low, high, al, bmul, large⟩ := h.layout.place hb
  have need := totalSizeForPayload_eq bound
  have small : totalSizeForPayload minSplitSize = 80 := by decide
  have room : b.addr + b.size ≤ heapBase + 2 ^ 28 := Nat.le_trans high h.ready.high
  have inB : Inside s.heapCurr b.addr := ⟨low, by omega, by omega⟩
  obtain ⟨t, removed, shaped, curr, kept⟩ := flRemove_spec h listed
  have unlisted : b.addr ∉ free.erase b.addr := h.layout.nodup.not_mem_erase
  have links : ∀ x, OutsideLinks free x → OutsideLinks (free.erase b.addr) x :=
    fun x out a ha => out a (List.mem_of_mem_erase ha)
  unfold allocateFromBlock
  rw [bind_eq (h.ready.read inB), (h.layout.tagged b hb).blkSize_header, bind_eq removed, small,
    add64_of_lt (by omega), sub64_of_le fits (by omega)]
  by_cases split : totalSizeForPayload size + 80 ≤ b.size
  · obtain ⟨s', done, shaped', curr', kept'⟩ := splitBlock_spec shaped clear unlisted
      (n := totalSizeForPayload size) (by omega) (by omega) (by omega)
    refine ⟨s', ?_, ?_, curr'.trans curr, fun x xlow xhigh out outside => ?_⟩
    · rw [if_pos split, bind_eq done]
      rfl
    · rw [carve, carveFree, if_pos split, if_pos split]
      exact shaped'
    · exact (kept' x xlow (by omega) out (links x outside)).trans (kept x xlow xhigh outside)
  · have tag := (shaped.layout.tagged b hb).header
    have whole : Tiles Block.addr Block.size b.addr [b] (b.addr + b.size) :=
      Tiles.singleton.mpr ⟨rfl, by omega, rfl⟩
    rw [curr.symm] at inB high
    refine ⟨pokes B t (tagWrites ⟨b.addr, b.size, true⟩), ?_, ?_, curr, fun x xlow xhigh out outside => ?_⟩
    · have run := tag_run (b := ⟨b.addr, b.size, true⟩) shaped.ready low al bmul large high
      rw [if_neg split, bind_eq (shaped.ready.read inB), tag, setAlloc_word bmul]
      rw [show (Except.ok (b.addr, pokes B t (tagWrites ⟨b.addr, b.size, true⟩)) : Kernel (Nat × State σ)) =
        (do return (b.addr, ← .ok (pokes B t (tagWrites ⟨b.addr, b.size, true⟩)))) from rfl, ← run, bind_assoc]
    · rw [carve, carveFree, if_neg split, if_neg split]
      exact shaped.retag (b := ⟨b.addr, b.size, true⟩) (by simp) whole (by simpa using unlisted) bmul large
    · refine (byte_tagWrites (b := ⟨b.addr, b.size, true⟩) shaped.ready low al bmul large high xlow
        (by omega) ?_ ?_).trans
        (kept x xlow xhigh outside)
      · change x < b.addr ∨ b.addr + 8 ≤ x
        omega
      · change x < b.addr + b.size - 8 ∨ b.addr + b.size ≤ x
        omega

end Voyager.Heap
