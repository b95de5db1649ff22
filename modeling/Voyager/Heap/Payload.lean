import Voyager.Heap.Client

/-! # Payloads as memory -/

namespace Voyager.Heap

open Lib

def InPayload (live : List (Nat × Nat)) (a : Nat) : Prop := ∃ x ∈ live, x.1 ≤ a ∧ a < x.1 + x.2

namespace Client

variable {σ : Type}

def withMem (c : Client σ) (m : σ) : Client σ := ⟨{ c.heap with mem := m }, c.live⟩

def Sound (B : Backing σ) (c : Client σ) : Prop := ∃ blocks free, Inv B c blocks free

variable {B : Backing σ} {c : Client σ} {blocks : List Block} {free : List Nat} {x y : Nat × Nat} {m : σ}
  {t : State σ} {p q n size : Nat}

theorem Inv.rewrite (h : Inv B c blocks free) (hx : x ∈ c.live) (backed : B.backed m c.heap.heapCurr)
    (kept : ∀ a, heapBase ≤ a → a < c.heap.heapCurr → (a < x.1 ∨ x.1 + x.2 ≤ a) → B.get m a = B.get c.heap.mem a) :
    Inv B (c.withMem m) blocks free := by
  obtain ⟨b, hb, set, start, room⟩ := h.owned.block x hx
  have r := h.wellFormed.shaped.ready
  have write : PayloadWrite B c.heap (c.withMem m).heap b := by
    constructor
    · exact ⟨backed, r.low, r.high, r.paged⟩
    · rfl
    · rfl
    · intro a low high out
      apply kept a low high
      unfold overhead at room
      omega
  exact ⟨write.wellFormed h.wellFormed hb set, h.owned, h.nonempty⟩

theorem Inv.same (h : Inv B c blocks free) (backed : B.backed m c.heap.heapCurr)
    (kept : ∀ a, heapBase ≤ a → a < c.heap.heapCurr → B.get m a = B.get c.heap.mem a) :
    Inv B (c.withMem m) blocks free := by
  have r := h.wellFormed.shaped.ready
  have words : ∀ a, a % 8 = 0 → heapBase ≤ a → a + 8 ≤ c.heap.heapCurr →
    word B (c.withMem m).heap a = word B c.heap a := by
    intro a _ low high
    exact ByteSpace.load_congr fun i hi => kept _ (by omega) (by omega)
  have layout := h.wellFormed.shaped.layout.congr words
  exact ⟨⟨⟨⟨backed, r.low, r.high, r.paged⟩, layout⟩, h.wellFormed.listed, h.wellFormed.coalesced⟩, h.owned, h.nonempty⟩

theorem Inv.place (h : Inv B c blocks free) (hx : x ∈ c.live) :
    heapBase ≤ x.1 ∧ x.1 + x.2 ≤ c.heap.heapCurr ∧ x.1 % 16 = 0 := by
  obtain ⟨b, hb, _, start, room⟩ := h.owned.block x hx
  obtain ⟨low, top, high, aligned⟩ := h.payload_inside hb
  unfold overhead hdrSize ftrSize at *
  omega

namespace Sound

theorem place (h : Sound B c) (hx : x ∈ c.live) :
    heapBase ≤ x.1 ∧ x.1 + x.2 ≤ c.heap.heapCurr ∧ x.1 % 16 = 0 := by
  obtain ⟨_, _, inv⟩ := h
  exact inv.place hx

theorem high (h : Sound B c) : c.heap.heapCurr ≤ heapLimit := by
  obtain ⟨_, _, inv⟩ := h
  exact inv.wellFormed.shaped.ready.high

theorem low (h : Sound B c) : heapBase ≤ c.heap.heapCurr := by
  obtain ⟨_, _, inv⟩ := h
  exact inv.wellFormed.shaped.ready.low

theorem unique (h : Sound B c) (hx : x ∈ c.live) (hy : y ∈ c.live) (same : x.1 = y.1) : x = y := by
  obtain ⟨_, _, inv⟩ := h
  exact List.inj_on_of_nodup_map inv.owned.nodup hx hy same

theorem apart (h : Sound B c) (hx : x ∈ c.live) (hy : y ∈ c.live) (ne : x ≠ y) :
    x.1 + x.2 ≤ y.1 ∨ y.1 + y.2 ≤ x.1 := by
  have different : x.1 ≠ y.1 := fun same => ne (h.unique hx hy same)
  obtain ⟨_, _, inv⟩ := h
  obtain ⟨b, hb, _, startX, roomX⟩ := inv.owned.block x hx
  obtain ⟨d, hd, _, startY, roomY⟩ := inv.owned.block y hy
  have := inv.wellFormed.shaped.layout.tiles.apart hb hd (by omega)
  unfold overhead hdrSize ftrSize at *
  omega

theorem in_window (h : Sound B c) {a : Nat} (inside : InPayload c.live a) : heapBase ≤ a ∧ a < c.heap.heapCurr := by
  obtain ⟨x, hx, low, high⟩ := inside
  obtain ⟨base, top, _⟩ := h.place hx
  omega

theorem region (h : Sound B c) : B.Region (fun m => Sound B (c.withMem m)) (InPayload c.live) where
  mapped := by
    rintro m a ⟨_, _, inv⟩ inside
    have r := inv.wellFormed.shaped.ready
    exact r.region.mapped r.backed (h.in_window inside)
  keep := by
    rintro m a v ⟨_, _, inv⟩ ⟨x, hx, low, high⟩
    have r := inv.wellFormed.shaped.ready
    have here : heapBase ≤ a ∧ a < c.heap.heapCurr := h.in_window ⟨x, hx, low, high⟩
    have backed : B.backed (B.set m a v) c.heap.heapCurr := r.region.keep v r.backed here
    refine ⟨_, _, inv.rewrite hx backed fun b blow bhigh out => ?_⟩
    apply (r.region.get_set v r.backed here ⟨blow, bhigh⟩).trans
    exact if_neg (by omega)
  get_set := by
    rintro m a b v ⟨_, _, inv⟩ ha hb
    have r := inv.wellFormed.shaped.ready
    exact r.region.get_set v r.backed (h.in_window ha) (h.in_window hb)

theorem rewrite (h : Sound B c) (hx : x ∈ c.live) (backed : B.backed m c.heap.heapCurr)
    (kept : ∀ a, heapBase ≤ a → a < c.heap.heapCurr → (a < x.1 ∨ x.1 + x.2 ≤ a) → B.get m a = B.get c.heap.mem a) :
    Sound B (c.withMem m) := by
  obtain ⟨_, _, inv⟩ := h
  exact ⟨_, _, inv.rewrite hx backed kept⟩

theorem same (h : Sound B c) (backed : B.backed m c.heap.heapCurr)
    (kept : ∀ a, heapBase ≤ a → a < c.heap.heapCurr → B.get m a = B.get c.heap.mem a) : Sound B (c.withMem m) := by
  obtain ⟨_, _, inv⟩ := h
  exact ⟨_, _, inv.same backed kept⟩

theorem malloc_returns (h : Sound B c) (size : Nat) (pos : 0 < size) (small : size ≤ 2 ^ 18)
    (room : c.heap.heapCurr + 128 * pageSize ≤ heapLimit)
    (maps : ∃ m, mapPages B c.heap.mem c.heap.heapCurr 128 = .ok m) :
    ∃ p t, kmalloc B c.heap size = .ok (p, t) ∧ t.heapCurr ≤ c.heap.heapCurr + 128 * pageSize := by
  obtain ⟨blocks, free, inv⟩ := h
  have wf := inv.wellFormed
  have bound : size ≤ maxRequest := Nat.le_trans small (by decide)
  have need := totalSizeForPayload_eq bound
  rcases wf.shaped.fits_or_missing size with ⟨b, hb, clear, fits⟩ | missing
  · obtain ⟨p, t, run, curr⟩ := kmalloc_fits wf pos bound hb clear fits
    exact ⟨p, t, run, by omega⟩
  · obtain ⟨m, mapped⟩ := maps
    have pages : alignUp (128 * pageSize) pageSize = 128 * pageSize := by decide
    have least : growth size = 128 * pageSize := by
      unfold growth pageSize
      omega
    obtain ⟨t, grown, _, curr, _⟩ := heapMapMore_run wf.shaped (show 0 < 128 * pageSize by decide)
      (by decide) (by rw [pages]; exact room) (by rw [pages]; exact mapped)
    rw [pages] at curr
    obtain ⟨p, u, run, same⟩ := kmalloc_found wf pos bound (findOrGrow_grows wf.shaped missing (by rw [least]; exact grown))
    exact ⟨p, u, run, by omega⟩

theorem malloc (h : Sound B c) (pos : 0 < size) (bound : size ≤ maxRequest)
    (run : kmalloc B c.heap size = .ok (p, t)) :
    p ≠ 0 ∧ p ∉ c.live.map Prod.fst ∧ Sound B ⟨t, (p, size) :: c.live⟩ ∧
      ∀ a, InPayload c.live a → B.get t.mem a = B.get c.heap.mem a := by
  obtain ⟨blocks, _, inv⟩ := h
  obtain ⟨blocks', free', b, wf, grown, rfl, acquired, frame⟩ := kmalloc_spec inv.wellFormed pos bound run
  have live := inv.owned.acquire (p := 0) frame acquired
    (fun d hd e => wf.shaped.layout.tiles.eq_of_addr hd acquired.member e) (by simp [hdrSize])
  rw [forget_of_not_mem inv.owned.not_null] at live
  refine ⟨by unfold hdrSize; omega, ?_, ⟨_, _, wf, live, inv.nonempty.trans_le grown⟩, ?_⟩
  · exact (List.nodup_cons.mp live.nodup).1
  · rintro a ⟨x, hx, low, high⟩
    obtain ⟨d, hd, set, start, room⟩ := inv.owned.block x hx
    apply (frame.stays d hd set fun f => f).2 a
    · omega
    · unfold overhead hdrSize ftrSize at *
      omega

theorem not_null (h : Sound B c) : 0 ∉ c.live.map Prod.fst := by
  obtain ⟨_, _, inv⟩ := h
  exact inv.owned.not_null

theorem resize (h : Sound B c) (owned : p = 0 ∧ n = 0 ∨ (p, n) ∈ c.live) (pos : 0 < size) (bound : size ≤ maxRequest)
    (run : krealloc B c.heap p size = .ok (q, t)) :
    Sound B ⟨t, (q, size) :: forget c.live p⟩ ∧ q ∉ (forget c.live p).map Prod.fst ∧
      (∀ i < min n size, B.get t.mem (q + i) = B.get c.heap.mem (p + i)) ∧
      ∀ a, InPayload (forget c.live p) a → B.get t.mem a = B.get c.heap.mem a := by
  rcases owned with ⟨rfl, rfl⟩ | held
  · obtain ⟨_, fresh, sound, kept⟩ := h.malloc pos bound run
    rw [forget_of_not_mem h.not_null]
    exact ⟨sound, fresh, fun i lt => absurd lt (by omega), kept⟩
  · obtain ⟨blocks, _, inv⟩ := h
    obtain ⟨b, hb, set, start, room⟩ := inv.owned.block _ held
    dsimp only at start room
    subst start
    obtain ⟨blocks', free', d, wf, grown, rfl, acquired, frame, bytes⟩ :=
      krealloc_spec inv.wellFormed hb set pos bound run
    have live := inv.owned.acquire frame acquired
      (fun e he same => wf.shaped.layout.tiles.eq_of_addr he acquired.member same) fun e he _ => inv.same_block hb he
    refine ⟨⟨_, _, wf, live, inv.nonempty.trans_le grown⟩, (List.nodup_cons.mp live.nodup).1,
      fun i lt => bytes i (by omega), ?_⟩
    rintro a ⟨x, hx, low, high⟩
    obtain ⟨hx, ne⟩ := mem_forget.mp hx
    obtain ⟨e, he, eset, estart, eroom⟩ := inv.owned.block x hx
    refine (frame.stays e he eset fun same => ne ?_).2 a ?_ ?_
    · rw [estart, same]
    · omega
    · unfold overhead hdrSize ftrSize at *
      omega

theorem resize_panics (h : Sound B c) (owned : p = 0 ∧ n = 0 ∨ (p, n) ∈ c.live) (pos : 0 < size)
    (small : size ≤ 2 ^ 32) : Raises Halt.IsPanic (krealloc B c.heap p size) := by
  have bound : size ≤ maxRequest := Nat.le_trans small (by decide)
  obtain ⟨_, _, inv⟩ := h
  have wf := inv.wellFormed
  have fails : Raises Halt.IsPanic (kmalloc B c.heap size) :=
    kmalloc_panics wf bound (.inr (wf.shaped.ready.grownTo_lt (Nat.le_trans small (by decide))))
  rcases owned with ⟨rfl, rfl⟩ | held
  · exact fails
  · obtain ⟨b, hb, set, start, _⟩ := inv.owned.block _ held
    dsimp only at start
    rw [start]
    exact krealloc_raises wf hb set pos bound fails

theorem resize_returns (h : Sound B c) (owned : p = 0 ∨ (p, n) ∈ c.live) (pos : 0 < size) (small : size ≤ 2 ^ 18)
    (room : c.heap.heapCurr + 128 * pageSize ≤ heapLimit)
    (maps : ∃ m, mapPages B c.heap.mem c.heap.heapCurr 128 = .ok m) :
    ∃ q t, krealloc B c.heap p size = .ok (q, t) ∧ t.heapCurr ≤ c.heap.heapCurr + 128 * pageSize := by
  obtain ⟨q, s, allocated, near⟩ := h.malloc_returns size pos small room maps
  rcases owned with rfl | held
  · exact ⟨q, s, allocated, near⟩
  · obtain ⟨_, _, inv⟩ := h
    obtain ⟨b, hb, set, start, _⟩ := inv.owned.block _ held
    dsimp only at start
    rw [start]
    exact krealloc_returns inv.wellFormed hb set pos (Nat.le_trans small (by decide)) allocated near
      (Nat.le_add_right _ _)

end Sound

end Client

end Voyager.Heap
