import Voyager.Heap.Coalesce
import Voyager.Heap.Grow

/-!
# The public calls on a well-formed heap

`Frame` says what a call does to the allocated blocks: those in `old` are given up, those in
`new` taken, and every other one keeps its bytes.
-/

namespace Voyager.Heap

open Lib

variable {σ : Type} {B : Backing σ} {s t u : State σ} {blocks blocks' blocks'' pre post : List Block}
  {free : List Nat} {b c d : Block} {old new old' new' : Block → Prop} {x size ptr : Nat}

structure WellFormed (B : Backing σ) (s : State σ) (blocks : List Block) (free : List Nat) : Prop where
  shaped : Shaped B s blocks free
  listed : Listed blocks free
  coalesced : Coalesced blocks

structure Frame (B : Backing σ) (s t : State σ) (blocks blocks' : List Block) (old new : Block → Prop) : Prop where
  stays : ∀ d ∈ blocks, d.allocated = true → ¬ old d →
    d ∈ blocks' ∧ ∀ x, d.addr ≤ x → x < d.addr + d.size → byte B t x = byte B s x
  only : ∀ d ∈ blocks', d.allocated = true → ¬ new d → d ∈ blocks ∧ ¬ old d

theorem Frame.trans (h : Frame B s t blocks blocks' old new) (h' : Frame B t u blocks' blocks'' old' new') :
    Frame B s u blocks blocks'' (fun d => old d ∨ old' d) (fun d => new d ∨ new' d) where
  stays d hd set kept := by
    obtain ⟨hd', same⟩ := h.stays d hd set fun o => kept (.inl o)
    obtain ⟨hd'', same'⟩ := h'.stays d hd' set fun o => kept (.inr o)
    exact ⟨hd'', fun x low high => (same' x low high).trans (same x low high)⟩
  only d hd set fresh := by
    obtain ⟨hd', out'⟩ := h'.only d hd set fun n => fresh (.inr n)
    obtain ⟨hd'', out⟩ := h.only d hd' set fun n => fresh (.inl n)
    exact ⟨hd'', fun o => o.elim out out'⟩

theorem Frame.mono (h : Frame B s t blocks blocks' old new)
    (same : ∀ d ∈ blocks, d.allocated = true → (old' d ↔ old d))
    (more : ∀ d, new d → new' d) : Frame B s t blocks blocks' old' new' where
  stays d hd set kept := h.stays d hd set fun o => kept ((same d hd set).mpr o)
  only d hd set fresh := by
    obtain ⟨hd', out⟩ := h.only d hd set fun n => fresh (more d n)
    exact ⟨hd', fun o => out ((same d hd' set).mp o)⟩

theorem Shaped.allocated_outside (h : Shaped B s blocks free) (hb : b ∈ blocks) (set : b.allocated = true)
    (low : b.addr ≤ x) (high : x < b.addr + b.size) :
    heapBase ≤ x ∧ x < s.heapCurr ∧ OutsideLinks free x := by
  obtain ⟨lo, hi, _⟩ := h.layout.place hb
  exact ⟨by omega, by omega, h.layout.outside_links hb (h.layout.allocated_unlisted hb set) low high⟩

theorem WellFormed.split (h : WellFormed B s (pre ++ ([b] ++ post)) free) :
    Coalesced pre ∧ Coalesced post ∧ Listed (pre ++ post) free := by
  obtain ⟨before, rest, _⟩ := List.isChain_append.mp h.coalesced
  refine ⟨before, (List.isChain_append.mp rest).2.1, fun d hd => h.listed d ?_⟩
  rcases List.mem_append.mp hd with hd | hd <;> simp [hd]

/-! ### Start -/

theorem empty_shaped {m : σ} (backed : B.backed m heapBase) : Shaped B (State.mk m heapBase 0) [] [] :=
  ⟨⟨backed, Nat.le_refl _, (by decide : heapBase ≤ heapLimit), (by decide : heapBase % pageSize = 0)⟩,
    ⟨rfl, by simp, rfl, by simp, by simp⟩⟩

theorem kmallocInit_spec {m : σ} (backed : B.backed m heapBase) (run : kmallocInit B m = .ok t) :
    ∃ size, WellFormed B t [⟨heapBase, size, false⟩] [heapBase] ∧ t.heapCurr = heapBase + size ∧
      64 * pageSize ≤ size := by
  obtain ⟨size, enough, shaped, curr, _⟩ := heapMapMore_spec (empty_shaped backed) (by decide) (by decide) run
  exact ⟨size, ⟨shaped, by simp [Listed], List.isChain_singleton _⟩, curr, enough⟩

theorem kmallocInit_curr {m : σ} (run : kmallocInit B m = .ok t) : t.heapCurr = heapBase + 64 * pageSize := by
  unfold kmallocInit heapMapMore at run
  dsimp only at run
  rw [if_neg (by decide)] at run
  obtain ⟨_, _, run⟩ := bind_ok run
  obtain ⟨_, _, run⟩ := bind_ok run
  cases run
  exact (by decide : add64 (alignUp heapBase pageSize) (alignUp (64 * pageSize) pageSize) = heapBase + 64 * pageSize)

theorem kmallocInit_returns {m m' : σ} (backed : B.backed m heapBase) (mapped : mapPages B m heapBase 64 = .ok m') :
    ∃ t, kmallocInit B m = .ok t := by
  obtain ⟨t, run, _⟩ := heapMapMore_run (empty_shaped backed) (show 0 < 64 * pageSize by decide) (by decide)
    (show heapBase + alignUp (64 * pageSize) pageSize ≤ heapLimit by decide) mapped
  exact ⟨t, run⟩

/-! ### kfree -/

theorem Merged.freed_frame {pre' post' : List Block} {free' : List Nat} {c : Block}
    (h : WellFormed B s (pre ++ ([b] ++ post)) free)
    (merged : Merged B (pokes B s (tagWrites { b with allocated := false })) t pre { b with allocated := false } post free
      pre' c post' free')
    (shaped : Shaped B u (pre' ++ ([c] ++ post')) (c.addr :: free'))
    (kept : ∀ x, heapBase ≤ x → x < t.heapCurr → OutsideLinks (c.addr :: free') x → byte B u x = byte B t x) :
    Frame B s u (pre ++ ([b] ++ post)) (pre' ++ ([c] ++ post')) (· = b) (fun _ => False) := by
  have hb : b ∈ pre ++ ([b] ++ post) := by simp
  have hc : c ∈ pre' ++ ([c] ++ post') := by simp
  have L := h.shaped.layout
  obtain ⟨low, high, al, mul, large⟩ := L.place hb
  have clear : c.allocated = false := merged.flag
  constructor
  · intro d hd dset ne
    have other : d ∈ pre ++ post := by
      simp only [List.mem_append, List.mem_singleton] at hd ⊢
      tauto
    have other' := (merged.members d dset).mpr other
    have hd' : d ∈ pre' ++ ([c] ++ post') := by
      simp only [List.mem_append, List.mem_singleton] at other' ⊢
      tauto
    refine ⟨hd', fun x xlow xhigh => ?_⟩
    obtain ⟨lo, hi, links⟩ := h.shaped.allocated_outside hd dset xlow xhigh
    obtain ⟨_, _, links'⟩ := shaped.allocated_outside hd' dset xlow xhigh
    have apart := L.tiles.apart hb hd fun e => ne (L.tiles.eq_of_addr hd hb e.symm)
    have apart' := shaped.layout.tiles.apart hc hd' fun e => by
      rw [shaped.layout.tiles.eq_of_addr hd' hc e.symm, clear] at dset
      cases dset
    have first : byte B (pokes B s (tagWrites { b with allocated := false })) x = byte B s x := by
      apply byte_tagWrites (b := { b with allocated := false }) h.shaped.ready low al mul large high lo hi
      · change x < b.addr ∨ b.addr + 8 ≤ x
        omega
      · change x < b.addr + b.size - 8 ∨ b.addr + b.size ≤ x
        omega
    have second := merged.kept x lo hi (by omega) links
    exact (kept x lo (by rw [merged.curr]; exact hi) links').trans (second.trans first)
  · intro d hd dset _
    have other : d ∈ pre' ++ post' := by
      simp only [List.mem_append, List.mem_singleton] at hd ⊢
      rcases hd with hd | rfl | hd
      · exact .inl hd
      · rw [clear] at dset
        cases dset
      · exact .inr hd
    have other' := (merged.members d dset).mp other
    constructor
    · simp only [List.mem_append, List.mem_singleton] at other' ⊢
      tauto
    · rintro rfl
      exact L.tiles.others_ne other' rfl

theorem kfree_eq (h : Shaped B s blocks free) (hb : b ∈ blocks) (set : b.allocated = true) :
    kfree B s (b.addr + hdrSize) = (do
      let (c, t) ← coalesce B (pokes B s (tagWrites { b with allocated := false })) b.addr
      flPush B t c) := by
  obtain ⟨low, high, al, mul, large⟩ := h.layout.place hb
  have tag := h.layout.tagged b hb
  have inB : Inside s.heapCurr b.addr := ⟨low, by omega, by omega⟩
  obtain ⟨s₁, wrote, mirrored⟩ := bind_ok
    (tag_run (b := { b with allocated := false }) h.ready low al mul large high)
  unfold kfree
  rw [if_neg (by unfold hdrSize; omega), show b.addr + hdrSize - hdrSize = b.addr by omega,
    bind_eq (h.ready.read inB), tag.isAlloc_header, set, if_pos rfl, tag.header, clrAlloc_word mul, bind_eq wrote,
    bind_eq mirrored]

theorem kfree_spec (h : WellFormed B s blocks free) (hb : b ∈ blocks) (set : b.allocated = true) :
    ∃ t blocks' free', kfree B s (b.addr + hdrSize) = .ok t ∧ WellFormed B t blocks' free' ∧
      t.heapCurr = s.heapCurr ∧ Frame B s t blocks blocks' (· = b) (fun _ => False) := by
  obtain ⟨pre, post, rfl⟩ := List.append_of_mem hb
  change WellFormed B s (pre ++ ([b] ++ post)) free at h
  obtain ⟨before, after, listed⟩ := h.split
  have L := h.shaped.layout
  obtain ⟨low, high, al, mul, large⟩ := L.place hb
  have unlisted := L.allocated_unlisted hb set
  have whole : Tiles Block.addr Block.size b.addr [b] (b.addr + b.size) := Tiles.singleton.mpr ⟨rfl, by omega, rfl⟩
  have cleared := h.shaped.retag (b := { b with allocated := false }) (by simp) whole
    (by simpa using unlisted) mul large
  obtain ⟨t, c, pre', post', free', merge, merged, chain⟩ := coalesce_spec cleared rfl unlisted listed before after
  have hc : c ∈ pre' ++ ([c] ++ post') := by simp
  obtain ⟨u, pushed, shaped, curr, kept⟩ := flPush_spec merged.shaped hc merged.flag merged.unlisted
  refine ⟨u, pre' ++ ([c] ++ post'), c.addr :: free', ?_, ⟨shaped, ?_, chain⟩, curr.trans merged.curr,
    merged.freed_frame h shaped kept⟩
  · rw [kfree_eq h.shaped hb set, bind_eq merge]
    exact pushed
  · intro d hd dclear
    simp only [List.mem_append, List.mem_singleton] at hd
    rcases hd with hd | rfl | hd
    · exact List.mem_cons_of_mem _ (merged.listed d (by simp [hd]) dclear)
    · exact List.mem_cons_self
    · exact List.mem_cons_of_mem _ (merged.listed d (by simp [hd]) dclear)

/-! ### kmalloc -/

structure Acquired (blocks blocks' : List Block) (old : Block → Prop) (c : Block) (size : Nat) : Prop where
  member : c ∈ blocks'
  set : c.allocated = true
  room : size + overhead ≤ c.size
  fresh : ∀ d ∈ blocks, d.allocated = true → ¬ old d → d ≠ c

theorem carve_wellFormed {need : Nat} (h : Shaped B s (pre ++ ([b] ++ post)) free) (clear : b.allocated = false)
    (listed : Listed (pre ++ ([b] ++ post)) free) (before : Coalesced pre) (after : Coalesced ([b] ++ post))
    (shaped : Shaped B t (pre ++ (carve b need ++ post)) (carveFree b need free)) :
    WellFormed B t (pre ++ (carve b need ++ post)) (carveFree b need free) := by
  refine ⟨shaped, ?_, ?_⟩
  · intro d hd dclear
    have others : Listed (pre ++ post) (free.erase b.addr) := by
      have L : Layout (word B s) s.heapCurr s.freeList (pre ++ b :: post) free := h.layout
      refine L.listed_erase (fun _ hd => hd) fun d hd => listed d ?_
      rcases List.mem_append.mp hd with hd | hd <;> simp [hd]
    unfold carve at hd
    unfold carveFree
    split at hd
    · rename_i split
      rw [if_pos split]
      simp only [List.mem_append, List.mem_cons, List.not_mem_nil, or_false] at hd
      rcases hd with hd | (rfl | rfl) | hd
      · exact List.mem_cons_of_mem _ (others d (by simp [hd]) dclear)
      · cases dclear
      · exact List.mem_cons_self
      · exact List.mem_cons_of_mem _ (others d (by simp [hd]) dclear)
    · rename_i split
      rw [if_neg split]
      simp only [List.mem_append, List.mem_cons, List.not_mem_nil, or_false] at hd
      rcases hd with hd | rfl | hd
      · exact others d (by simp [hd]) dclear
      · cases dclear
      · exact others d (by simp [hd]) dclear
  · obtain ⟨_, (tail : Coalesced post), next⟩ := List.isChain_append.mp after
    -- The block after `b` is allocated, since `b` was free.
    have first : ∀ d ∈ post.head?, d.allocated = true := fun d hd => by simpa [clear] using next b (by simp) d hd
    unfold carve
    split
    · have remainder := tail.cons (b := ⟨b.addr + need, b.size - need, false⟩) first
      exact before.append_allocated (remainder.cons_allocated rfl) rfl
    · exact before.append_allocated (tail.cons_allocated rfl) rfl

theorem carve_front (b : Block) (need : Nat) (fits : need ≤ b.size) :
    ∃ c rest, carve b need = c :: rest ∧ c.addr = b.addr ∧ c.allocated = true ∧ need ≤ c.size ∧
      ∀ d ∈ rest, d.allocated = false := by
  unfold carve
  split
  · exact ⟨_, _, rfl, rfl, rfl, Nat.le_refl _, by simp⟩
  · exact ⟨_, _, rfl, rfl, rfl, fits, by simp⟩

theorem allocate_spec (h : Shaped B s (pre ++ ([b] ++ post)) free) (clear : b.allocated = false)
    (listed : Listed (pre ++ ([b] ++ post)) free) (before : Coalesced pre) (after : Coalesced ([b] ++ post))
    (pos : 0 < size) (bound : size ≤ maxRequest) (fits : totalSizeForPayload size ≤ b.size) :
    ∃ t blocks' free' c, allocateFromBlock B s b.addr size = .ok (b.addr, t) ∧ WellFormed B t blocks' free' ∧
      t.heapCurr = s.heapCurr ∧ c.addr = b.addr ∧ Acquired (pre ++ ([b] ++ post)) blocks' (fun _ => False) c size ∧
      Frame B s t (pre ++ ([b] ++ post)) blocks' (fun _ => False) (· = c) := by
  have hb : b ∈ pre ++ ([b] ++ post) := by simp
  have L := h.layout
  have bfree : b.addr ∈ free := listed b hb clear
  obtain ⟨t, run, shaped, curr, kept⟩ := allocateFromBlock_spec h clear bfree pos bound fits
  have wf := carve_wellFormed h clear listed before after shaped
  have need := totalSizeForPayload_eq bound
  obtain ⟨c, rest, front, start, set, large, tail⟩ := carve_front b _ fits
  have hc : c ∈ pre ++ (carve b (totalSizeForPayload size) ++ post) := by simp [front]
  refine ⟨t, _, _, c, run, wf, curr, start, ⟨hc, set, ?_, ?_⟩, ?_, ?_⟩
  · unfold overhead hdrSize ftrSize
    omega
  · rintro d hd dset - rfl
    rw [L.tiles.eq_of_addr hd hb start, clear] at dset
    cases dset
  · intro d hd dset _
    have ne : d ≠ b := by rintro rfl; rw [clear] at dset; cases dset
    refine ⟨?_, fun x xlow xhigh => ?_⟩
    · simp only [List.mem_append, List.mem_singleton] at hd ⊢
      tauto
    · obtain ⟨lo, hi, links⟩ := h.allocated_outside hd dset xlow xhigh
      have apart := L.tiles.apart hb hd fun e => ne (L.tiles.eq_of_addr hd hb e.symm)
      exact kept x lo hi (by omega) links
  · intro d hd dset ne
    refine ⟨?_, fun f => f⟩
    rw [front] at hd
    simp only [List.mem_append, List.mem_cons] at hd ⊢
    rcases hd with hd | (rfl | hd) | hd
    · exact .inl hd
    · exact (ne rfl).elim
    · rw [tail d hd] at dset; cases dset
    · exact .inr (.inr hd)

theorem Shaped.find_fit (h : Shaped B s blocks free) {a need : Nat}
    (found : free.find? (fun y => need ≤ blkSize (word B s y)) = some a) :
    ∃ b ∈ blocks, b.addr = a ∧ b.allocated = false ∧ need ≤ b.size := by
  obtain ⟨b, hb, rfl, clear⟩ := h.layout.isFree a (List.mem_of_find?_eq_some found)
  have fits := List.find?_some found
  rw [(h.layout.tagged b hb).blkSize_header] at fits
  exact ⟨b, hb, rfl, clear, by simpa using fits⟩

theorem Shaped.fits_or_missing (h : Shaped B s blocks free) (size : Nat) :
    (∃ b ∈ blocks, b.allocated = false ∧ totalSizeForPayload size ≤ b.size) ∨ flFindFit B s size = .ok 0 := by
  have search := flFindFit_spec h size
  cases found : free.find? (fun y => totalSizeForPayload size ≤ blkSize (word B s y)) with
  | some a =>
    obtain ⟨b, hb, _, clear, fits⟩ := h.find_fit found
    exact .inl ⟨b, hb, clear, fits⟩
  | none =>
    rw [found] at search
    exact .inr search

def growth (size : Nat) : Nat := max (totalSizeForPayload size) (128 * pageSize)

theorem growth_pos (size : Nat) : 0 < growth size := Nat.lt_of_lt_of_le (by decide) (Nat.le_max_right _ _)

theorem growth_lt (size : Nat) : growth size < 2 ^ 64 := Nat.max_lt.mpr ⟨alignUp_lt _ _, by decide⟩

theorem findOrGrow_missing (missing : flFindFit B s size = .ok 0) :
    findOrGrow B s size = (do
      let t ← heapMapMore B s (growth size)
      return (← flFindFit B t size, t)) := by
  have grow : (if totalSizeForPayload size < 128 * pageSize then 128 * pageSize else totalSizeForPayload size) =
      growth size := by
    unfold growth
    split <;> omega
  unfold findOrGrow
  rw [bind_eq missing, if_neg (by simp)]
  dsimp only
  rw [grow]

theorem findOrGrow_grows (h : Shaped B s blocks free) (missing : flFindFit B s size = .ok 0)
    (grown : heapMapMore B s (growth size) = .ok t) : findOrGrow B s size = .ok (s.heapCurr, t) := by
  obtain ⟨pages, enough, shaped, curr, _⟩ := heapMapMore_spec h (growth_pos size) (growth_lt size) grown
  have hb : ⟨s.heapCurr, pages, false⟩ ∈ blocks ++ [⟨s.heapCurr, pages, false⟩] := by simp
  have header := (shaped.layout.tagged _ hb).blkSize_header
  have first := flFindFit_spec shaped size
  have fits : totalSizeForPayload size ≤ pages := Nat.le_trans (Nat.le_max_left _ _) enough
  rw [List.find?_cons_of_pos (by simpa [header] using fits), Option.getD_some] at first
  rw [findOrGrow_missing missing, bind_eq grown, bind_eq first]
  rfl

/-- The block `kmalloc` takes. After growth it is the new one, which nothing has merged yet. -/
theorem findOrGrow_spec {a : Nat} (h : WellFormed B s blocks free)
    (run : findOrGrow B s size = .ok (a, t)) :
    ∃ pre b post free', Shaped B t (pre ++ ([b] ++ post)) free' ∧ b.allocated = false ∧
      Listed (pre ++ ([b] ++ post)) free' ∧ Coalesced pre ∧ Coalesced ([b] ++ post) ∧
      totalSizeForPayload size ≤ b.size ∧ a = b.addr ∧ s.heapCurr ≤ t.heapCurr ∧
      Frame B s t blocks (pre ++ ([b] ++ post)) (fun _ => False) (fun _ => False) := by
  have search := flFindFit_spec h.shaped size
  cases found : free.find? (fun y => totalSizeForPayload size ≤ blkSize (word B s y)) with
  | some x =>
    obtain ⟨b, hb, rfl, clear, fits⟩ := h.shaped.find_fit found
    obtain ⟨low, _⟩ := h.shaped.layout.place hb
    have base : 0 < heapBase := by decide
    obtain ⟨pre, post, rfl⟩ := List.append_of_mem hb
    unfold findOrGrow at run
    rw [bind_eq search, found, Option.getD_some, if_pos (by omega)] at run
    cases run
    obtain ⟨before, after, _⟩ := List.isChain_append.mp h.coalesced
    exact ⟨pre, b, post, free, h.shaped, clear, h.listed, before, after, fits, rfl, Nat.le_refl _,
      fun d hd _ _ => ⟨hd, fun _ _ _ => rfl⟩, fun d hd _ _ => ⟨hd, fun f => f⟩⟩
  | none =>
    rw [found, Option.getD_none] at search
    have whole := run
    rw [findOrGrow_missing search] at run
    obtain ⟨s₁, grown, _⟩ := bind_ok run
    cases (findOrGrow_grows h.shaped search grown).symm.trans whole
    obtain ⟨pages, enough, shaped, curr, kept⟩ := heapMapMore_spec h.shaped (growth_pos size) (growth_lt size) grown
    have fits : totalSizeForPayload size ≤ pages := Nat.le_trans (Nat.le_max_left _ _) enough
    refine ⟨blocks, ⟨s.heapCurr, pages, false⟩, [], s.heapCurr :: free, shaped, rfl, ?_, h.coalesced,
      List.isChain_singleton _, fits, rfl, by omega, ?_, ?_⟩
    · intro d hd clear
      rcases List.mem_append.mp hd with hd | hd
      · exact List.mem_cons_of_mem _ (h.listed d hd clear)
      · rw [show d = ⟨s.heapCurr, pages, false⟩ by simpa using hd]
        exact List.mem_cons_self
    · intro d hd set _
      refine ⟨by simp [hd], fun x xlow xhigh => ?_⟩
      obtain ⟨lo, hi, links⟩ := h.shaped.allocated_outside hd set xlow xhigh
      exact kept x lo hi links
    · intro d hd set _
      refine ⟨?_, fun f => f⟩
      rcases List.mem_append.mp hd with hd | hd
      · exact hd
      · rw [show d = ⟨s.heapCurr, pages, false⟩ by simpa using hd] at set
        cases set

theorem kmalloc_spec {p : Nat} (h : WellFormed B s blocks free) (pos : 0 < size) (bound : size ≤ maxRequest)
    (run : kmalloc B s size = .ok (p, t)) :
    ∃ blocks' free' c, WellFormed B t blocks' free' ∧ s.heapCurr ≤ t.heapCurr ∧ p = c.addr + hdrSize ∧
      Acquired blocks blocks' (fun _ => False) c size ∧ Frame B s t blocks blocks' (fun _ => False) (· = c) := by
  unfold kmalloc at run
  rw [if_neg (by omega)] at run
  obtain ⟨⟨a, s₁⟩, found, run⟩ := bind_ok run
  obtain ⟨pre, b, post, free₁, shaped, clear, listed, before, after, fits, rfl, grown, frame⟩ :=
    findOrGrow_spec h found
  obtain ⟨low, _⟩ := shaped.layout.place (b := b) (by simp)
  have base : 0 < heapBase := by decide
  obtain ⟨u, blocks', free', c, allocated, wf, curr, start, acquired, frame'⟩ :=
    allocate_spec shaped clear listed before after pos (by omega) fits
  simp only at run
  rw [if_neg (by omega), bind_eq allocated] at run
  cases run
  refine ⟨blocks', free', c, wf, grown.trans (Nat.le_of_eq curr.symm), by rw [start],
    ⟨acquired.member, acquired.set, acquired.room, ?_⟩, ?_⟩
  · intro d hd set _
    exact acquired.fresh d (frame.stays d hd set fun f => f).1 set fun f => f
  · exact (frame.trans frame').mono (by simp) (by simp)

theorem findOrGrow_fits (h : WellFormed B s blocks free) (hb : b ∈ blocks) (clear : b.allocated = false)
    (fits : totalSizeForPayload size ≤ b.size) :
    ∃ d ∈ blocks, d.allocated = false ∧ d.addr ≠ 0 ∧ flFindFit B s size = .ok d.addr ∧
      findOrGrow B s size = .ok (d.addr, s) := by
  have search := flFindFit_spec h.shaped size
  have some : (free.find? fun y => totalSizeForPayload size ≤ blkSize (word B s y)).isSome = true := by
    rw [List.find?_isSome]
    exact ⟨b.addr, h.listed b hb clear, by simpa [(h.shaped.layout.tagged b hb).blkSize_header] using fits⟩
  obtain ⟨a, found⟩ := Option.isSome_iff_exists.mp some
  obtain ⟨d, hd, rfl, dclear, _⟩ := h.shaped.find_fit found
  have low := (h.shaped.layout.place hd).1
  have base : 0 < heapBase := by decide
  rw [found, Option.getD_some] at search
  refine ⟨d, hd, dclear, by omega, search, ?_⟩
  unfold findOrGrow
  rw [bind_eq search, if_pos (by omega)]
  rfl

theorem kmalloc_found {a : Nat} (h : WellFormed B s blocks free) (pos : 0 < size) (bound : size ≤ maxRequest)
    (found : findOrGrow B s size = .ok (a, t)) : ∃ p u, kmalloc B s size = .ok (p, u) ∧ u.heapCurr = t.heapCurr := by
  obtain ⟨pre, d, post, free', shaped, clear, listed, before, after, room, rfl, _⟩ := findOrGrow_spec h found
  obtain ⟨low, _⟩ := shaped.layout.place (b := d) (by simp)
  have base : 0 < heapBase := by decide
  obtain ⟨u, _, _, _, allocated, _, curr, _⟩ := allocate_spec shaped clear listed before after pos bound room
  refine ⟨d.addr + hdrSize, u, ?_, curr⟩
  unfold kmalloc
  rw [if_neg (by omega), bind_eq found]
  simp only
  rw [if_neg (by omega), bind_eq allocated]
  rfl

theorem kmalloc_fits (h : WellFormed B s blocks free) (pos : 0 < size) (bound : size ≤ maxRequest) (hb : b ∈ blocks)
    (clear : b.allocated = false) (fits : totalSizeForPayload size ≤ b.size) :
    ∃ p t, kmalloc B s size = .ok (p, t) ∧ t.heapCurr = s.heapCurr := by
  obtain ⟨_, _, _, _, _, found⟩ := findOrGrow_fits h hb clear fits
  exact kmalloc_found h pos bound found

theorem kmalloc_missing {e : Halt} (pos : 0 < size) (missing : flFindFit B s size = .ok 0)
    (failed : heapMapMore B s (growth size) = .error e) : kmalloc B s size = .error e := by
  unfold kmalloc
  rw [if_neg (by omega), findOrGrow_missing missing, failed]
  rfl

theorem kmalloc_panics (h : WellFormed B s blocks free) (bound : size ≤ maxRequest)
    (inRange : (∃ a, a ≠ 0 ∧ flFindFit B s size = .ok a) ∨ grownTo s (growth size) < 2 ^ 64) :
    Raises Halt.IsPanic (kmalloc B s size) := by
  by_cases zero : size = 0
  · subst zero
    exact .ok _
  have pos := Nat.pos_of_ne_zero zero
  rcases h.shaped.fits_or_missing size with ⟨b, hb, clear, fits⟩ | missing
  · obtain ⟨p, t, run, _⟩ := kmalloc_fits h pos bound hb clear fits
    rw [run]
    exact .ok _
  · have inRange := inRange.resolve_left fun ⟨a, nonzero, found⟩ => nonzero (Except.ok.inj (found.symm.trans missing))
    cases grown : heapMapMore B s (growth size) with
    | ok t =>
      obtain ⟨p, u, run, _⟩ := kmalloc_found h pos bound (findOrGrow_grows h.shaped missing grown)
      rw [run]
      exact .ok _
    | error e =>
      rw [kmalloc_missing pos missing grown]
      exact .error (heapMapMore_panics h.shaped (growth_pos size) inRange e grown)

theorem Ready.grownTo_lt (r : Ready B s) (small : size ≤ 0x6FFFEFFFEFD0) : grownTo s (growth size) < 2 ^ 64 := by
  have high : s.heapCurr ≤ 0xFFFF900010000000 := r.high
  have need := totalSizeForPayload_eq (show size ≤ maxRequest from Nat.le_trans small (by decide))
  unfold grownTo roundUp growth pageSize
  omega

/-! ### Payload bytes -/

/-- Bytes of one payload change, the heap around it does not. -/
structure PayloadWrite (B : Backing σ) (s t : State σ) (b : Block) : Prop where
  ready : Ready B t
  curr : t.heapCurr = s.heapCurr
  head : t.freeList = s.freeList
  kept : ∀ x, heapBase ≤ x → x < s.heapCurr → (x < b.addr + hdrSize ∨ b.addr + b.size - ftrSize ≤ x) →
    byte B t x = byte B s x

theorem PayloadWrite.wellFormed (p : PayloadWrite B s t b) (h : WellFormed B s blocks free) (hb : b ∈ blocks)
    (set : b.allocated = true) : WellFormed B t blocks free := by
  obtain ⟨ready, curr, head, kept⟩ := p
  simp only [hdrSize, ftrSize] at kept
  obtain ⟨pre, post, rfl⟩ := List.append_of_mem hb
  have L := h.shaped.layout
  obtain ⟨low, high, al, mul, large⟩ := L.place hb
  have same : ∀ x, x % 8 = 0 → heapBase ≤ x → x + 8 ≤ s.heapCurr →
      (x + 8 ≤ b.addr + 32 ∨ b.addr + b.size - 8 ≤ x) → word B t x = word B s x := by
    intro x xal xlow xhigh out
    exact ByteSpace.load_congr fun i hi => kept (x + i) (by omega) (by omega) (by omega)
  -- Outside the window nothing is known; the layout does not look there.
  let w : Nat → Nat := fun x => if heapBase ≤ x ∧ x + 8 ≤ s.heapCurr then word B t x else word B s x
  have inWindow : ∀ x, heapBase ≤ x → x + 8 ≤ s.heapCurr → w x = word B t x := fun x xlow xhigh =>
    if_pos ⟨xlow, xhigh⟩
  have whole : Tiles Block.addr Block.size b.addr [b] (b.addr + b.size) := Tiles.singleton.mpr ⟨rfl, by omega, rfl⟩
  have layout : Layout w s.heapCurr s.freeList (pre ++ ([b] ++ post)) free := by
    refine L.rewrite (by simp) whole whole (by simpa using L.allocated_unlisted hb set) (fun x xal out => ?_) ?_
    · by_cases inside : heapBase ≤ x ∧ x + 8 ≤ s.heapCurr
      · rw [inWindow x inside.1 inside.2, same x xal inside.1 inside.2 (by omega)]
      · exact if_neg inside
    · intro d hd
      rw [List.mem_singleton.mp hd]
      refine (L.tagged b hb).congr ?_ ?_
      · rw [inWindow _ low (by omega), same _ (by omega) low (by omega) (by omega)]
      · rw [inWindow _ (by omega) (by omega), same _ (by omega) (by omega) (by omega) (by omega)]
  refine ⟨⟨ready, ?_⟩, h.listed, h.coalesced⟩
  rw [curr, head]
  exact layout.congr fun x _ xlow xhigh => (inWindow x xlow xhigh).symm

theorem PayloadWrite.frame (p : PayloadWrite B s t b) (h : WellFormed B s blocks free) (hb : b ∈ blocks) :
    Frame B s t blocks blocks (· = b) (· = b) where
  stays d hd _ ne := by
    obtain ⟨low, high, _⟩ := h.shaped.layout.place hd
    have apart := h.shaped.layout.tiles.apart hb hd fun e => ne (h.shaped.layout.tiles.eq_of_addr hd hb e.symm)
    have curr := p.curr
    exact ⟨hd, fun x xlow xhigh => p.kept x (by omega) (by omega) (by omega)⟩
  only d hd _ ne := ⟨hd, ne⟩

theorem memcpy_run {dst src n : Nat} (r : Ready B s)
    (writable : ∀ i < n, heapBase ≤ dst + i ∧ dst + i < s.heapCurr)
    (readable : ∀ i < n, heapBase ≤ src + i ∧ src + i < s.heapCurr) :
    memcpy B s dst src n = .ok { s with mem := B.copy s.mem dst src n } := by
  rw [memcpy, memcpy_ok r.region r.backed writable readable]
  rfl

theorem memcpy_spec {n : Nat} (h : WellFormed B s blocks free) (hb : b ∈ blocks) (hc : c ∈ blocks)
    (ne : b ≠ c) (fromB : n + overhead ≤ b.size) (toC : n + overhead ≤ c.size) :
    ∃ t, memcpy B s (c.addr + hdrSize) (b.addr + hdrSize) n = .ok t ∧ PayloadWrite B s t c ∧
      ∀ i < n, byte B t (c.addr + hdrSize + i) = byte B s (b.addr + hdrSize + i) := by
  have r := h.shaped.ready
  have L := h.shaped.layout
  obtain ⟨blow, bhigh, _⟩ := L.place hb
  obtain ⟨clow, chigh, _⟩ := L.place hc
  have apart := L.tiles.apart hb hc fun e => ne (L.tiles.eq_of_addr hb hc e)
  simp only [overhead, hdrSize, ftrSize] at fromB toC ⊢
  have writable : ∀ i < n, heapBase ≤ c.addr + 32 + i ∧ c.addr + 32 + i < s.heapCurr := fun i hi => by omega
  have readable : ∀ i < n, heapBase ≤ b.addr + 32 + i ∧ b.addr + 32 + i < s.heapCurr := fun i hi => by omega
  refine ⟨_, memcpy_run r writable readable, ⟨⟨?_, r.low, r.high, r.paged⟩, rfl, rfl, ?_⟩, ?_⟩
  · exact r.region.keep_copy r.backed writable
  · intro x xlow xhigh out
    simp only [hdrSize, ftrSize] at out
    change B.get (B.copy s.mem (c.addr + 32) (b.addr + 32) n) x = B.get s.mem x
    rw [r.region.get_copy r.backed writable readable ⟨xlow, xhigh⟩ (by omega), if_neg (by omega)]
  · intro i hi
    change B.get (B.copy s.mem (c.addr + 32) (b.addr + 32) n) (c.addr + 32 + i) = B.get s.mem (b.addr + 32 + i)
    rw [r.region.get_copy r.backed writable readable (writable i hi) (by omega), if_pos (by omega)]
    congr 1
    omega

/-! ### krealloc -/

theorem reallocGrow_spec (h : Shaped B s (pre ++ ([b] ++ c :: post)) free) (set : b.allocated = true)
    (listed : c.addr ∈ free) :
    ∃ t, reallocGrow B s b.addr c.addr = .ok t ∧
      Shaped B t (pre ++ ([⟨b.addr, b.size + c.size, true⟩] ++ post)) (free.erase c.addr) ∧
      t.heapCurr = s.heapCurr ∧
      ∀ x, heapBase ≤ x → x < s.heapCurr → (x < b.addr ∨ b.addr + 8 ≤ x) →
        (x < c.addr + c.size - 8 ∨ c.addr + c.size ≤ x) → OutsideLinks free x → byte B t x = byte B s x := by
  have hb : b ∈ pre ++ ([b] ++ c :: post) := by simp
  have hc : c ∈ pre ++ ([b] ++ c :: post) := by simp
  have adjacent := h.layout.next_start
  obtain ⟨low, _, al, bmul, blarge⟩ := h.layout.place hb
  obtain ⟨_, high, _, cmul, clarge⟩ := h.layout.place hc
  have noWrap := h.ready.lt_wrap high
  obtain ⟨u, removed, shaped, curr, kept⟩ := flRemove_spec h listed
  have r := shaped.ready
  have tb := shaped.layout.tagged b hb
  have tc := shaped.layout.tagged c hc
  rw [← curr] at high
  have inB : Inside u.heapCurr b.addr := ⟨low, by omega, by omega⟩
  have inC : Inside u.heapCurr c.addr := ⟨by omega, by omega, by omega⟩
  have inF : Inside u.heapCurr (b.addr + (b.size + c.size) - 8) := ⟨by omega, by omega, by omega⟩
  have flagged : b.word % 2 = 1 := by rw [b.word_mod bmul, set]; rfl
  have first : setSize b.word (b.size + c.size) = b.size + c.size + 1 := by rw [setSize_eq (by omega), flagged]
  have second : setAlloc (b.size + c.size + 1) = b.size + c.size + 1 := by unfold setAlloc; omega
  have w1 : Writable u.heapCurr [(b.addr, b.size + c.size + 1)] :=
    writable_cons.mpr ⟨⟨inB, by omega⟩, writable_nil⟩
  have w2 : Writable u.heapCurr [(b.addr, b.size + c.size + 1), (b.addr, b.size + c.size + 1)] :=
    writable_cons.mpr ⟨⟨inB, by omega⟩, w1⟩
  have w3 := writable_append.mpr ⟨w2, writable_cons.mpr ⟨⟨inF, (by omega : b.size + c.size + 1 < 2 ^ 64)⟩,
    writable_nil⟩⟩
  have whole : Tiles Block.addr Block.size b.addr [b, c] (b.addr + (b.size + c.size)) :=
    Tiles.pair.mpr ⟨rfl, by omega, adjacent, by omega, by omega⟩
  have unlisted : ∀ d ∈ [b, c], d.addr ∉ free.erase c.addr := by
    intro d hd
    simp only [List.mem_cons, List.not_mem_nil, or_false] at hd
    rcases hd with rfl | rfl
    · exact fun hx => h.layout.allocated_unlisted hb set (List.mem_of_mem_erase hx)
    · exact h.layout.nodup.not_mem_erase
  have joined : Shaped B (pokes B u ([(b.addr, b.size + c.size + 1), (b.addr, b.size + c.size + 1)] ++
      [(b.addr + (b.size + c.size) - 8, b.size + c.size + 1)]))
      (pre ++ ([⟨b.addr, b.size + c.size, true⟩] ++ post)) (free.erase c.addr) := by
    refine Shaped.rewrite (show Shaped B u (pre ++ ([b, c] ++ post)) _ from shaped) (by simp) whole ?_ unlisted ?_ ?_
    · refine Tiles.singleton.mpr ⟨rfl, ?_, rfl⟩
      change 0 < b.size + c.size
      omega
    · simp only [List.cons_append, List.nil_append, List.mem_cons, List.not_mem_nil, or_false, forall_eq_or_imp,
        forall_eq]
      omega
    · intro d hd
      rw [List.mem_singleton.mp hd]
      refine ⟨(by omega : (b.size + c.size) % 16 = 0), (by omega : 64 ≤ b.size + c.size), ?_, ?_⟩
      · simp only [List.cons_append, List.nil_append, overwrite_cons, overwrite_nil, Function.update_apply]
        rw [if_neg (by omega), if_pos trivial]
        rfl
      · simp only [List.cons_append, List.nil_append, overwrite_cons, overwrite_nil, Function.update_apply]
        rw [if_pos trivial]
        rfl
  refine ⟨_, ?_, joined, curr, ?_⟩
  · unfold reallocGrow
    rw [bind_eq removed, bind_eq (r.read inB), bind_eq (r.read inC), bind_eq (r.read inB), tb.blkSize_header,
      tc.blkSize_header, add64_of_lt (by omega), tb.header, first, bind_eq (r.write inB), bind_eq (r.read_pokes w1 inB)]
    simp only [overwrite_cons, overwrite_nil, Function.update_self, second]
    rw [bind_eq (r.write_pokes w1 inB)]
    exact mirror_run (b := ⟨b.addr, b.size + c.size, true⟩) r w2 (by simp [Block.word])
      (show (b.size + c.size) % 16 = 0 by omega) inB inF
  · intro x xlow xhigh header footer links
    refine (r.byte_pokes w3 xlow (by omega) ?_).trans (kept x xlow xhigh links)
    simp only [List.cons_append, List.nil_append, misses_cons]
    exact ⟨header, header, by omega, misses_nil⟩

def Resized (B : Backing σ) (s t : State σ) (blocks : List Block) (b : Block) (size q : Nat) : Prop :=
  ∃ blocks' free' c, WellFormed B t blocks' free' ∧ s.heapCurr ≤ t.heapCurr ∧ q = c.addr + hdrSize ∧
    Acquired blocks blocks' (· = b) c size ∧ Frame B s t blocks blocks' (· = b) (· = c) ∧
    ∀ i < min (b.size - overhead) size, byte B t (q + i) = byte B s (b.addr + hdrSize + i)

theorem reallocMove_run {q : Nat} {s₁ : State σ} (h : WellFormed B s blocks free) (hb : b ∈ blocks)
    (set : b.allocated = true) (small : b.size - overhead < size) (bound : size ≤ maxRequest)
    (allocated : kmalloc B s size = .ok (q, s₁)) :
    ∃ t, reallocMove B s (b.addr + hdrSize) (b.size - overhead) size = .ok (q, t) ∧ Resized B s t blocks b size q ∧
      t.heapCurr = s₁.heapCurr := by
  have large := (h.shaped.layout.place hb).2.2.2.2
  have cost : overhead = 40 := rfl
  obtain ⟨blocks₁, free₁, c, wf₁, grown, rfl, acquired, frame₁⟩ := kmalloc_spec h (by omega) bound allocated
  obtain ⟨hb₁, same₁⟩ := frame₁.stays b hb set fun f => f
  have ne : b ≠ c := acquired.fresh b hb set fun f => f
  have room := acquired.room
  obtain ⟨s₂, copied, write, bytes⟩ := memcpy_spec (n := b.size - overhead) wf₁ hb₁ acquired.member ne (by omega)
    (by omega)
  have wf₂ := write.wellFormed wf₁ acquired.member acquired.set
  have frame₂ := write.frame wf₁ acquired.member
  obtain ⟨s₃, blocks₃, free₃, freed, wf₃, curr₃, frame₃⟩ := kfree_spec wf₂ hb₁ set
  obtain ⟨hc₃, same₃⟩ := frame₃.stays c acquired.member acquired.set (Ne.symm ne)
  have curr₂ := write.curr
  refine ⟨s₃, ?_, ⟨blocks₃, free₃, c, wf₃, by omega, rfl, ⟨hc₃, acquired.set, room, ?_⟩, ?_, fun i hi => ?_⟩, by omega⟩
  · unfold reallocMove
    rw [bind_eq allocated]
    dsimp only
    rw [if_neg (by unfold hdrSize; omega), bind_eq copied, bind_eq freed]
    rfl
  · exact fun d hd dset _ => acquired.fresh d hd dset fun f => f
  · refine ((frame₁.trans frame₂).trans frame₃).mono (fun d hd dset => ?_) (by simp)
    have := acquired.fresh d hd dset fun f => f
    simp [this]
  · have header : hdrSize = 32 := rfl
    rw [same₃ _ (by omega) (by omega), bytes i (by omega), same₁ _ (by omega) (by omega)]

theorem usable_word (mul : b.size % 16 = 0) (large : 64 ≤ b.size) (lt : b.size < 2 ^ 64) :
    usable b.word = b.size - overhead := by
  rw [usable, b.blkSize_word mul]
  exact sub64_of_le (by unfold overhead hdrSize ftrSize; omega) lt

theorem WellFormed.usable_eq (h : WellFormed B s blocks free) (hb : b ∈ blocks) :
    kmallocUsableSize B s (b.addr + hdrSize) = .ok (b.size - overhead) := by
  have r := h.shaped.ready
  obtain ⟨low, high, al, mul, large⟩ := h.shaped.layout.place hb
  have inB : Inside s.heapCurr b.addr := ⟨low, by omega, by omega⟩
  have noWrap := r.lt_wrap high
  unfold kmallocUsableSize
  rw [if_neg (by unfold hdrSize; omega), show b.addr + hdrSize - hdrSize = b.addr by omega, bind_eq (r.read inB),
    (h.shaped.layout.tagged b hb).header, usable_word mul large (by omega)]
  rfl

theorem grow_frame {n : Nat} (h : WellFormed B s (pre ++ ([b] ++ c :: post)) free) (clear : c.allocated = false)
    (kept : ∀ x, heapBase ≤ x → x < s.heapCurr → (x < b.addr ∨ b.addr + 8 ≤ x) →
      (x < c.addr + c.size - 8 ∨ c.addr + c.size ≤ x) → OutsideLinks free x → byte B t x = byte B s x) :
    Frame B s t (pre ++ ([b] ++ c :: post)) (pre ++ ([⟨b.addr, n, true⟩] ++ post)) (· = b) (· = ⟨b.addr, n, true⟩) := by
  have hb : b ∈ pre ++ ([b] ++ c :: post) := by simp
  have hc : c ∈ pre ++ ([b] ++ c :: post) := by simp
  have L := h.shaped.layout
  have large := (L.place hb).2.2.2.2
  have clarge := (L.place hc).2.2.2.2
  constructor
  · intro d hd dset nb
    have nc : d ≠ c := by
      rintro rfl
      rw [clear] at dset
      cases dset
    refine ⟨?_, fun x xlow xhigh => ?_⟩
    · simp only [List.mem_append, List.mem_cons] at hd ⊢
      tauto
    · obtain ⟨lo, hi, links⟩ := h.shaped.allocated_outside hd dset xlow xhigh
      have first := L.tiles.apart hd hb fun e => nb (L.tiles.eq_of_addr hd hb e)
      have second := L.tiles.apart hd hc fun e => nc (L.tiles.eq_of_addr hd hc e)
      exact kept x lo hi (by omega) (by omega) links
  · intro d hd dset ne
    have other : d ∈ pre ++ (c :: post) := by
      simp only [List.mem_append, List.mem_cons] at hd ⊢
      tauto
    constructor
    · simp only [List.mem_append, List.mem_cons] at other ⊢
      tauto
    · rintro rfl
      exact Tiles.others_ne (b := d) L.tiles other rfl

theorem grow_resized (h : WellFormed B s (pre ++ ([b] ++ c :: post)) free) (set : b.allocated = true)
    (clear : c.allocated = false) (room : size + overhead ≤ b.size + c.size)
    (run : reallocGrow B s b.addr c.addr = .ok t) :
    Resized B s t (pre ++ ([b] ++ c :: post)) b size (b.addr + hdrSize) := by
  have L := h.shaped.layout
  have hb : b ∈ pre ++ ([b] ++ c :: post) := by simp
  have hc : c ∈ pre ++ ([b] ++ c :: post) := by simp
  obtain ⟨u, grown, shaped, curr, kept⟩ := reallocGrow_spec h.shaped set (h.listed c hc clear)
  cases grown.symm.trans run
  have start := L.next_start
  have L' : Layout (word B s) s.heapCurr s.freeList ((pre ++ [b]) ++ c :: post) free := by simpa using L
  refine ⟨_, _, ⟨b.addr, b.size + c.size, true⟩, ⟨shaped, ?_, ?_⟩, Nat.le_of_eq curr.symm, rfl,
    ⟨by simp, rfl, room, ?_⟩, grow_frame h clear kept, ?_⟩
  · intro d hd dclear
    have other : d ∈ (pre ++ [b]) ++ post := by
      simp only [List.mem_append, List.mem_singleton] at hd ⊢
      rcases hd with hd | rfl | hd
      · exact .inl (.inl hd)
      · cases dclear
      · exact .inr hd
    refine L'.listed_erase (fun _ hd => hd) (fun e he => h.listed e ?_) d other dclear
    simp only [List.mem_append, List.mem_cons] at he ⊢
    tauto
  · have chain : Coalesced (pre ++ ([b] ++ ([c] ++ post))) := h.coalesced
    obtain ⟨before, rest, _⟩ := List.isChain_append.mp chain
    have after : Coalesced post := (List.isChain_append.mp (List.isChain_append.mp rest).2.1).2.1
    exact Coalesced.append_allocated before (after.cons_allocated rfl) rfl
  · rintro d hd dset ne rfl
    exact ne (L.tiles.eq_of_addr hd hb rfl)
  · intro i hi
    have cost : overhead = 40 := rfl
    have header : hdrSize = 32 := rfl
    have large := (L.place hb).2.2.2.2
    have clarge := (L.place hc).2.2.2.2
    obtain ⟨lo, hi', links⟩ := h.shaped.allocated_outside (x := b.addr + hdrSize + i) hb set (by omega) (by omega)
    exact kept _ lo hi' (by omega) (by omega) links

/-- The three ways of `krealloc`: nothing to do, the next block swallowed, a new block. -/
theorem krealloc_cases (h : WellFormed B s blocks free) (hb : b ∈ blocks) (pos : 0 < size) :
    (size + overhead ≤ b.size ∧ krealloc B s (b.addr + hdrSize) size = .ok (b.addr + hdrSize, s)) ∨
      (∃ pre c post, blocks = pre ++ ([b] ++ c :: post) ∧ c.allocated = false ∧ size + overhead ≤ b.size + c.size ∧
        krealloc B s (b.addr + hdrSize) size = do return (b.addr + hdrSize, ← reallocGrow B s b.addr c.addr)) ∨
      b.size - overhead < size ∧
        krealloc B s (b.addr + hdrSize) size = reallocMove B s (b.addr + hdrSize) (b.size - overhead) size := by
  have L := h.shaped.layout
  have r := h.shaped.ready
  obtain ⟨low, high, al, mul, large⟩ := L.place hb
  have noWrap := r.lt_wrap high
  have cost : overhead = 40 := rfl
  have inB : Inside s.heapCurr b.addr := ⟨low, by omega, by omega⟩
  have next : nextBlock B s b.addr = .ok (b.addr + b.size) := by
    unfold nextBlock
    rw [bind_eq (r.read inB), (L.tagged b hb).blkSize_header]
    rfl
  unfold krealloc
  rw [if_neg (by unfold hdrSize; omega), if_neg (by omega), show b.addr + hdrSize - hdrSize = b.addr by omega,
    bind_eq (r.read inB), (L.tagged b hb).header, usable_word mul large (by omega)]
  dsimp only
  by_cases fits : b.size - overhead ≥ size
  · rw [if_pos fits]
    exact .inl ⟨by omega, rfl⟩
  rw [if_neg fits, bind_eq next]
  by_cases more : b.addr + b.size < s.heapCurr
  swap
  · rw [if_neg more]
    exact .inr (.inr ⟨by omega, rfl⟩)
  obtain ⟨pre, post, rfl⟩ := List.append_of_mem hb
  obtain _ | ⟨c, post⟩ := post
  · have := L.last_end
    omega
  have hc : c ∈ pre ++ b :: c :: post := by simp
  have start : c.addr = b.addr + b.size :=
    (show Layout (word B s) s.heapCurr s.freeList (pre ++ ([b] ++ c :: post)) free from L).next_start
  obtain ⟨_, chigh, _, cmul, clarge⟩ := L.place hc
  have inC : Inside s.heapCurr c.addr := ⟨by omega, by omega, by omega⟩
  have noWrapC := r.lt_wrap chigh
  have sum : add64 (add64 (b.size - overhead) overhead) (c.size - overhead) = b.size + (c.size - overhead) := by
    rw [add64_of_lt (x := b.size - overhead) (by omega), add64_of_lt (by omega)]
    omega
  rw [if_pos more, ← start, bind_eq (r.read inC), (L.tagged c hc).isAlloc_header, (L.tagged c hc).header,
    usable_word cmul clarge (by omega), sum]
  split
  · rename_i grow
    simp only [Bool.and_eq_true, Bool.not_eq_true', decide_eq_true_eq] at grow
    exact .inr (.inl ⟨pre, c, post, rfl, grow.1, by omega, rfl⟩)
  · exact .inr (.inr ⟨by omega, rfl⟩)

theorem krealloc_spec {q : Nat} (h : WellFormed B s blocks free) (hb : b ∈ blocks) (set : b.allocated = true)
    (pos : 0 < size) (bound : size ≤ maxRequest) (run : krealloc B s (b.addr + hdrSize) size = .ok (q, t)) :
    Resized B s t blocks b size q := by
  rcases krealloc_cases h hb pos with ⟨fits, same⟩ | ⟨pre, c, post, rfl, clear, room, grow⟩ | ⟨small, move⟩
  · cases same.symm.trans run
    exact ⟨blocks, free, b, h, Nat.le_refl _, rfl, ⟨hb, set, fits, fun d _ _ ne => ne⟩,
      ⟨fun d hd _ _ => ⟨hd, fun _ _ _ => rfl⟩, fun d hd _ ne => ⟨hd, ne⟩⟩, fun _ _ => rfl⟩
  · rw [grow] at run
    obtain ⟨u, grown, run⟩ := bind_ok run
    cases run
    exact grow_resized h set clear room grown
  · rw [move] at run
    obtain ⟨⟨p, s₁⟩, allocated, _⟩ := bind_ok (show (kmalloc B s size >>= _) = _ from run)
    obtain ⟨u, run', resized, _⟩ := reallocMove_run h hb set small bound allocated
    cases run'.symm.trans run
    exact resized

theorem krealloc_returns {q top : Nat} {s₁ : State σ} (h : WellFormed B s blocks free) (hb : b ∈ blocks)
    (set : b.allocated = true) (pos : 0 < size) (bound : size ≤ maxRequest)
    (allocated : kmalloc B s size = .ok (q, s₁)) (near : s₁.heapCurr ≤ top) (here : s.heapCurr ≤ top) :
    ∃ p t, krealloc B s (b.addr + hdrSize) size = .ok (p, t) ∧ t.heapCurr ≤ top := by
  rcases krealloc_cases h hb pos with ⟨_, same⟩ | ⟨pre, c, post, rfl, clear, _, grow⟩ | ⟨small, move⟩
  · exact ⟨_, _, same, here⟩
  · obtain ⟨u, grown, _, curr, _⟩ := reallocGrow_spec h.shaped set (h.listed c (by simp) clear)
    rw [grow, bind_eq grown]
    exact ⟨_, _, rfl, curr ▸ here⟩
  · obtain ⟨u, run, _, curr⟩ := reallocMove_run h hb set small bound allocated
    exact ⟨_, _, move.trans run, curr ▸ near⟩

theorem krealloc_raises {P : Halt → Prop} (h : WellFormed B s blocks free) (hb : b ∈ blocks) (set : b.allocated = true)
    (pos : 0 < size) (bound : size ≤ maxRequest) (fails : Raises P (kmalloc B s size)) :
    Raises P (krealloc B s (b.addr + hdrSize) size) := by
  rcases krealloc_cases h hb pos with ⟨_, same⟩ | ⟨pre, c, post, rfl, clear, _, grow⟩ | ⟨small, move⟩
  · rw [same]
    exact .ok _
  · obtain ⟨u, grown, _⟩ := reallocGrow_spec h.shaped set (h.listed c (by simp) clear)
    rw [grow, bind_eq grown]
    exact .ok _
  · rw [move]
    cases allocated : kmalloc B s size with
    | error e =>
      unfold reallocMove
      rw [allocated]
      exact .error (fails e allocated)
    | ok r =>
      obtain ⟨u, run, _⟩ := reallocMove_run h hb set small bound allocated
      rw [run]
      exact .ok _

end Voyager.Heap
