import Voyager.Heap.Blocks
import Mathlib.Data.List.Chain

/-! # Merging a freed block with its neighbours -/

namespace Voyager.Heap

open Lib

variable {σ : Type} {B : Backing σ} {s t u : State σ} {blocks pre pre' pre'' post post' post'' : List Block}
  {free free' free'' : List Nat} {b b' b'' c p : Block} {w : Nat → Nat} {a x curr head : Nat}

def Coalesced (blocks : List Block) : Prop :=
  blocks.IsChain fun b c => b.allocated = true ∨ c.allocated = true

def Listed (blocks : List Block) (free : List Nat) : Prop :=
  ∀ b ∈ blocks, b.allocated = false → b.addr ∈ free

theorem Coalesced.cons (after : Coalesced post) (head : ∀ d ∈ post.head?, d.allocated = true) :
    Coalesced (b :: post) :=
  List.isChain_cons.mpr ⟨fun d hd => .inr (head d hd), after⟩

theorem Coalesced.cons_allocated (after : Coalesced post) (set : b.allocated = true) : Coalesced (b :: post) :=
  List.isChain_cons.mpr ⟨fun _ _ => .inl set, after⟩

theorem Coalesced.append_allocated (before : Coalesced pre) (after : Coalesced (b :: post))
    (set : b.allocated = true) :
    Coalesced (pre ++ b :: post) := by
  apply List.isChain_append.mpr ⟨before, after, fun _ _ d hd => .inr ?_⟩
  rw [← Option.some.inj hd, set]

theorem Layout.listed_erase {some : List Block} (L : Layout w curr head (pre ++ c :: post) free)
    (others : ∀ d ∈ some, d ∈ pre ++ post) (listed : Listed some free) : Listed some (free.erase c.addr) := by
  intro d hd clear
  exact (List.mem_erase_of_ne (L.tiles.others_ne (others d hd))).mpr (listed d hd clear)

theorem Layout.next_start (L : Layout w curr head (pre ++ ([b] ++ c :: post)) free) : c.addr = b.addr + b.size := by
  obtain ⟨_, _, right⟩ := Tiles.around (b := b) L.tiles
  exact right.1

theorem Layout.last_end (L : Layout w curr head (pre ++ ([b] ++ [])) free) : b.addr + b.size = curr := by
  obtain ⟨_, _, right⟩ := Tiles.around (b := b) L.tiles
  exact right

structure Merged (B : Backing σ) (s t : State σ) (pre : List Block) (b : Block) (post : List Block)
    (free : List Nat)
    (pre' : List Block) (b' : Block) (post' : List Block) (free' : List Nat) : Prop where
  shaped : Shaped B t (pre' ++ ([b'] ++ post')) free'
  curr : t.heapCurr = s.heapCurr
  flag : b'.allocated = b.allocated
  covers : b'.addr ≤ b.addr ∧ b.addr + b.size ≤ b'.addr + b'.size
  unlisted : b'.addr ∉ free'
  sub : ∀ a ∈ free', a ∈ free
  listed : Listed (pre' ++ post') free'
  before : Coalesced pre'
  after : Coalesced post'
  members : ∀ d : Block, d.allocated = true → (d ∈ pre' ++ post' ↔ d ∈ pre ++ post)
  kept : ∀ x, heapBase ≤ x → x < s.heapCurr → (x < b'.addr ∨ b'.addr + b'.size ≤ x) → OutsideLinks free x →
    byte B t x = byte B s x

theorem Merged.refl (shaped : Shaped B s (pre ++ ([b] ++ post)) free) (unlisted : b.addr ∉ free)
    (listed : Listed (pre ++ post) free) (before : Coalesced pre) (after : Coalesced post) :
    Merged B s s pre b post free pre b post free :=
  ⟨shaped, rfl, rfl, ⟨Nat.le_refl _, Nat.le_refl _⟩, unlisted, fun _ h => h, listed, before, after,
    fun _ _ => Iff.rfl, fun _ _ _ _ _ => rfl⟩

theorem Merged.trans (h : Merged B s t pre b post free pre' b' post' free')
    (h' : Merged B t u pre' b' post' free' pre'' b'' post'' free'') :
    Merged B s u pre b post free pre'' b'' post'' free'' where
  shaped := h'.shaped
  curr := h'.curr.trans h.curr
  flag := h'.flag.trans h.flag
  covers := by
    have := h.covers
    have := h'.covers
    omega
  unlisted := h'.unlisted
  sub a ha := h.sub a (h'.sub a ha)
  listed := h'.listed
  before := h'.before
  after := h'.after
  members d set := (h'.members d set).trans (h.members d set)
  kept x low high out links := by
    have := h'.covers
    have high' : x < t.heapCurr := h.curr ▸ high
    exact (h'.kept x low high' out fun a ha => links a (h.sub a ha)).trans (h.kept x low high (by omega) links)

theorem absorb_spec (h : Shaped B s (pre ++ ([b, c] ++ post)) free) (unlistedB : b.addr ∉ free)
    (unlistedC : c.addr ∉ free) :
    ∃ t, absorb B s b.addr c.addr = .ok t ∧
      Shaped B t (pre ++ ([⟨b.addr, b.size + c.size, b.allocated⟩] ++ post)) free ∧ t.heapCurr = s.heapCurr ∧
      ∀ x, heapBase ≤ x → x < s.heapCurr → (x < b.addr ∨ c.addr + c.size ≤ x) → byte B t x = byte B s x := by
  have hb : b ∈ pre ++ ([b, c] ++ post) := by simp
  have hc : c ∈ pre ++ ([b, c] ++ post) := by simp
  obtain ⟨low, _, al, bmul, blarge⟩ := h.layout.place hb
  obtain ⟨_, high, _, cmul, clarge⟩ := h.layout.place hc
  have adjacent : c.addr = b.addr + b.size := h.layout.next_start
  have run := absorb_run h.ready (h.layout.tagged b hb) (h.layout.tagged c hc) low al adjacent high
  have whole : Tiles Block.addr Block.size b.addr [b, c] (b.addr + (b.size + c.size)) :=
    Tiles.pair.mpr ⟨rfl, by omega, adjacent, by omega, by omega⟩
  have mul : (b.size + c.size) % 16 = 0 := by omega
  have large : 64 ≤ b.size + c.size := by omega
  have high' : b.addr + (b.size + c.size) ≤ s.heapCurr := by omega
  refine ⟨_, run, h.retag (b := ⟨b.addr, b.size + c.size, b.allocated⟩) (by simp) whole ?_ mul large, rfl, ?_⟩
  · intro d hd
    simp only [List.mem_cons, List.not_mem_nil, or_false] at hd
    rcases hd with rfl | rfl
    · exact unlistedB
    · exact unlistedC
  · intro x xlow xhigh out
    refine byte_tagWrites (b := ⟨b.addr, b.size + c.size, b.allocated⟩) h.ready low al mul large high' xlow xhigh ?_ ?_
    · change x < b.addr ∨ b.addr + 8 ≤ x
      omega
    · change x < b.addr + (b.size + c.size) - 8 ∨ b.addr + (b.size + c.size) ≤ x
      omega

theorem merge_spec (h : Shaped B s (pre ++ ([b, c] ++ post)) free) (listed : Listed (pre ++ post) free)
    (one : (b.addr ∉ free ∧ a = c.addr ∧ c.addr ∈ free) ∨ (c.addr ∉ free ∧ a = b.addr ∧ b.addr ∈ free)) :
    ∃ t, (do absorb B (← flRemove B s a) b.addr c.addr) = .ok t ∧
      Shaped B t (pre ++ ([⟨b.addr, b.size + c.size, b.allocated⟩] ++ post)) (free.erase a) ∧
      t.heapCurr = s.heapCurr ∧ b.addr ∉ free.erase a ∧ Listed (pre ++ post) (free.erase a) ∧
      ∀ x, heapBase ≤ x → x < s.heapCurr → (x < b.addr ∨ b.addr + (b.size + c.size) ≤ x) →
        OutsideLinks free x → byte B t x = byte B s x := by
  have adjacent : c.addr = b.addr + b.size := h.layout.next_start
  have member : a ∈ free := by
    rcases one with ⟨_, rfl, member⟩ | ⟨_, rfl, member⟩ <;> exact member
  have gone : a ∉ free.erase a := h.layout.nodup.not_mem_erase
  have unlisted : b.addr ∉ free.erase a ∧ c.addr ∉ free.erase a := by
    rcases one with ⟨out, rfl, _⟩ | ⟨out, rfl, _⟩
    · exact ⟨fun hx => out (List.mem_of_mem_erase hx), gone⟩
    · exact ⟨gone, fun hx => out (List.mem_of_mem_erase hx)⟩
  have others : Listed (pre ++ post) (free.erase a) := by
    rcases one with ⟨_, rfl, _⟩ | ⟨_, rfl, _⟩
    · have L : Layout (word B s) s.heapCurr s.freeList ((pre ++ [b]) ++ c :: post) free := by simpa using h.layout
      refine L.listed_erase (fun d hd => ?_) listed
      rcases List.mem_append.mp hd with hd | hd <;> simp [hd]
    · have L : Layout (word B s) s.heapCurr s.freeList (pre ++ b :: (c :: post)) free := by simpa using h.layout
      refine L.listed_erase (fun d hd => ?_) listed
      rcases List.mem_append.mp hd with hd | hd <;> simp [hd]
  obtain ⟨u, removed, shaped, curr, kept⟩ := flRemove_spec h member
  obtain ⟨t, merged, shaped', curr', kept'⟩ := absorb_spec shaped unlisted.1 unlisted.2
  refine ⟨t, by rw [bind_eq removed, merged], shaped', curr'.trans curr, unlisted.1, others, ?_⟩
  intro x low high out links
  exact (kept' x low (by omega) (by omega)).trans (kept x low high links)

theorem coalesceNext_eq (h : Shaped B s (pre ++ ([b] ++ post)) free) : coalesceNext B s b.addr =
    match post with
    | [] => .ok s
    | c :: _ => if c.allocated then .ok s else (do absorb B (← flRemove B s c.addr) b.addr c.addr) := by
  have hb : b ∈ pre ++ ([b] ++ post) := by simp
  obtain ⟨low, high, al, bmul, blarge⟩ := h.layout.place hb
  have inB : Inside s.heapCurr b.addr := ⟨low, by omega, by omega⟩
  have next : nextBlock B s b.addr = .ok (b.addr + b.size) := by
    unfold nextBlock
    rw [bind_eq (h.ready.read inB), (h.layout.tagged b hb).blkSize_header]
    rfl
  unfold coalesceNext
  rw [bind_eq next]
  cases post with
  | nil =>
    have last := h.layout.last_end
    rw [if_neg (by omega)]
    rfl
  | cons c post =>
    have hc : c ∈ pre ++ ([b] ++ c :: post) := by simp
    have start := h.layout.next_start
    obtain ⟨_, chigh, _, _, clarge⟩ := h.layout.place hc
    have inC : Inside s.heapCurr c.addr := ⟨by omega, by omega, by omega⟩
    rw [← start, if_pos (by omega), bind_eq (h.ready.read inC), (h.layout.tagged c hc).isAlloc_header]
    rfl

theorem coalesceNext_spec (h : Shaped B s (pre ++ ([b] ++ post)) free) (unlisted : b.addr ∉ free)
    (listed : Listed (pre ++ post) free) (before : Coalesced pre) (after : Coalesced post) :
    ∃ t b' post' free', coalesceNext B s b.addr = .ok t ∧ Merged B s t pre b post free pre b' post' free' ∧
      b'.addr = b.addr ∧ ∀ d ∈ post'.head?, d.allocated = true := by
  have same := Merged.refl h unlisted listed before after
  rw [coalesceNext_eq h]
  cases post with
  | nil => exact ⟨s, b, [], free, rfl, same, rfl, by simp⟩
  | cons c post =>
    dsimp only
    cases set : c.allocated with
    | true => exact ⟨s, b, c :: post, free, rfl, same, rfl, by simpa using set⟩
    | false =>
      have cfree : c.addr ∈ free := listed c (by simp) set
      have rest : Listed (pre ++ post) free := fun d hd => listed d (by
        rcases List.mem_append.mp hd with hd | hd <;> simp [hd])
      obtain ⟨t, run, shaped, curr, gone, others, kept⟩ := merge_spec (a := c.addr)
        (show Shaped B s (pre ++ ([b, c] ++ post)) free from h) rest (.inl ⟨unlisted, rfl, cfree⟩)
      refine ⟨t, ⟨b.addr, b.size + c.size, b.allocated⟩, post, free.erase c.addr, ?_, ?_, rfl, ?_⟩
      · rw [if_neg (by simp)]
        exact run
      · refine ⟨shaped, curr, rfl, ⟨Nat.le_refl _, ?_⟩, gone, fun a ha => List.mem_of_mem_erase ha, others, before,
          after.tail, fun d dset => ?_, kept⟩
        · change b.addr + b.size ≤ b.addr + (b.size + c.size)
          omega
        · have ne : d ≠ c := by rintro rfl; rw [set] at dset; cases dset
          simp [ne]
      · intro d hd
        -- The block after `c` cannot be free as well.
        cases post with
        | nil => simp at hd
        | cons e post =>
          simp only [List.head?_cons, Option.mem_def, Option.some.injEq] at hd
          have first := (List.isChain_cons_cons.mp after).1
          simpa [set, hd] using first

theorem coalescePrev_first (h : Shaped B s ([] ++ ([b] ++ post)) free) : coalescePrev B s b.addr = .ok (b.addr, s) := by
  have first : b.addr = heapBase := h.layout.tiles.1
  unfold coalescePrev
  rw [if_neg (by omega)]
  rfl

theorem coalescePrev_eq (h : Shaped B s (pre ++ ([p] ++ b :: post)) free) : coalescePrev B s b.addr =
    if p.allocated then .ok (b.addr, s)
    else (do return (p.addr, ← absorb B (← flRemove B s p.addr) p.addr b.addr)) := by
  have hp : p ∈ pre ++ ([p] ++ b :: post) := by simp
  have hb : b ∈ pre ++ ([p] ++ b :: post) := by simp
  obtain ⟨low, high, al, bmul, blarge⟩ := h.layout.place hb
  have start := h.layout.next_start
  have tagged := h.layout.tagged p hp
  obtain ⟨plow, phigh, pal, pmul, plarge⟩ := h.layout.place hp
  have inF : Inside s.heapCurr (b.addr - ftrSize) := by unfold ftrSize; exact ⟨by omega, by omega, by omega⟩
  have inP : Inside s.heapCurr p.addr := ⟨by omega, by omega, by omega⟩
  have size : blkSize (word B s (b.addr - ftrSize)) = p.size := by
    rw [start]
    exact tagged.blkSize_footer
  unfold coalescePrev
  rw [if_pos (by omega), bind_eq (h.ready.read inF), size]
  simp only [show b.addr - p.size = p.addr by omega]
  rw [bind_eq (h.ready.read inP), tagged.isAlloc_header]
  rfl

theorem coalescePrev_spec (h : Shaped B s (pre ++ ([b] ++ post)) free) (clear : b.allocated = false)
    (unlisted : b.addr ∉ free) (listed : Listed (pre ++ post) free) (before : Coalesced pre)
    (after : Coalesced post) :
    ∃ t b' pre' free', coalescePrev B s b.addr = .ok (b'.addr, t) ∧
      Merged B s t pre b post free pre' b' post free' ∧ ∀ d ∈ pre'.getLast?, d.allocated = true := by
  have same := Merged.refl h unlisted listed before after
  rcases List.eq_nil_or_concat pre with rfl | ⟨rest, p, rfl⟩
  · exact ⟨s, b, [], free, coalescePrev_first h, same, by simp⟩
  · rw [List.concat_eq_append] at h listed before same ⊢
    have h' : Shaped B s (rest ++ ([p] ++ b :: post)) free := by simpa using h
    have start := h'.layout.next_start
    rw [coalescePrev_eq h']
    cases set : p.allocated with
    | true => exact ⟨s, b, rest ++ [p], free, rfl, same, by simpa using set⟩
    | false =>
      have pfree : p.addr ∈ free := listed p (by simp) set
      have others : Listed (rest ++ post) free := fun d hd => listed d (by
        rcases List.mem_append.mp hd with hd | hd <;> simp [hd])
      have chain := List.isChain_append.mp before
      obtain ⟨t, run, shaped, curr, gone, others, kept⟩ := merge_spec (a := p.addr)
        (show Shaped B s (rest ++ ([p, b] ++ post)) free from h') others (.inr ⟨unlisted, rfl, pfree⟩)
      refine ⟨t, ⟨p.addr, p.size + b.size, p.allocated⟩, rest, free.erase p.addr, ?_, ?_, ?_⟩
      · rw [if_neg (by simp)]
        obtain ⟨u, removed, merged⟩ := bind_ok run
        rw [bind_eq removed, bind_eq merged]
        rfl
      · refine ⟨shaped, curr, set.trans clear.symm, ⟨?_, ?_⟩, gone, fun a ha => List.mem_of_mem_erase ha, others,
          chain.1, after, fun d dset => ?_, kept⟩
        · change p.addr ≤ b.addr
          omega
        · change b.addr + b.size ≤ p.addr + (p.size + b.size)
          omega
        · have ne : d ≠ p := by rintro rfl; rw [set] at dset; cases dset
          simp [ne]
      · intro d hd
        have last := chain.2.2 d hd p (by simp)
        simpa [set] using last

theorem coalesce_spec (h : Shaped B s (pre ++ ([b] ++ post)) free) (clear : b.allocated = false)
    (unlisted : b.addr ∉ free) (listed : Listed (pre ++ post) free) (before : Coalesced pre)
    (after : Coalesced post) :
    ∃ t b' pre' post' free', coalesce B s b.addr = .ok (b'.addr, t) ∧
      Merged B s t pre b post free pre' b' post' free' ∧ Coalesced (pre' ++ ([b'] ++ post')) := by
  obtain ⟨u, c, post', free', forward, merged, start, head⟩ := coalesceNext_spec h unlisted listed before after
  obtain ⟨t, b', pre', free'', backward, merged', last⟩ := coalescePrev_spec merged.shaped (merged.flag.trans clear)
    merged.unlisted merged.listed merged.before merged.after
  refine ⟨t, b', pre', post', free'', ?_, merged.trans merged', ?_⟩
  · unfold coalesce
    rw [bind_eq forward, ← start, backward]
  · have tail : Coalesced ([b'] ++ post') := merged'.after.cons head
    exact List.isChain_append.mpr ⟨merged'.before, tail, fun d hd _ _ => .inl (last d hd)⟩

end Voyager.Heap
