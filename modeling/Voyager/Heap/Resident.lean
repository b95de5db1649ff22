import Voyager.Heap.Payload
import Voyager.Heap.Sequence

/-!
# Vectors on the kernel heap

`data` points to a block that `krealloc` gave. On the elements the macros do what they do in
`Vec`.
-/

namespace Voyager.Heap

open Lib

structure WordVec where
  data : Nat
  length : Nat
  capacity : Nat

namespace WordVec

def init : WordVec := ⟨0, 0, 0⟩

section

variable {σ : Type} (B : Backing σ)

def cells (v : WordVec) (s : State σ) : Vec Nat := ⟨fun i => word B s (v.data + 8 * i), v.length, v.capacity⟩

def vectorEnsureLength (v : WordVec) (s : State σ) (length : Nat) : Kernel (WordVec × State σ) :=
  if length ≥ v.capacity then do
    let capacity := (v.cells B s).nextCapacity
    let (data, s) ← krealloc B s v.data (capacity * 8 % 2 ^ 64)
    return ({ v with data, capacity }, s)
  else .ok (v, s)

def vectorPushBack (v : WordVec) (s : State σ) (x : Nat) : Kernel (WordVec × State σ) := do
  let (v, s) ← v.vectorEnsureLength B s v.length
  let s ← writeWord B s (v.data + 8 * v.length) x
  return ({ v with length := add64 v.length 1 }, s)

/-- The vector holds the list, in a block of its own. Its capacity has been doubled from 8 on. -/
structure Resident (c : Client σ) (v : WordVec) (xs : List Nat) : Prop where
  holds : (v.cells B c.heap).Holds 8 xs
  owned : v.data = 0 ∧ v.capacity = 0 ∨ (v.data, 8 * v.capacity) ∈ c.live
  doubled : v.capacity = 0 ∨ ∃ k, v.capacity = 8 * 2 ^ k

end

variable {σ : Type} {B : Backing σ} {c : Client σ} {v w : WordVec} {s t : State σ} {xs : List Nat} {x n : Nat}
  {live : List (Nat × Nat)}

theorem Resident.init (B : Backing σ) (c : Client σ) : Resident B c init [] :=
  ⟨.init 8 _, .inl ⟨rfl, rfl⟩, .inl rfl⟩

theorem Resident.length (res : Resident B c v xs) : v.length = xs.length := res.holds.length

theorem Resident.capacity_le (res : Resident B c v xs) : v.capacity ≤ 2 ^ 28 := res.holds.capacity_le Vec.wordSize

/-- A block of `2 ^ 28` bytes and its header do not fit in the window, so that the capacity ends at
`2 ^ 24`. -/
theorem Resident.length_le (sound : c.Sound B) (res : Resident B c v xs) : xs.length ≤ 2 ^ 24 := by
  have fits : v.length ≤ v.capacity := res.holds.fits
  have length := res.length
  have small : v.capacity < 2 ^ 25 := by
    rcases res.owned with ⟨_, zero⟩ | held
    · omega
    · have high : c.heap.heapCurr ≤ heapBase + 2 ^ 28 := sound.high
      obtain ⟨_, top, _⟩ := sound.place held
      obtain ⟨_, _, inv⟩ := sound
      obtain ⟨b, hb, _, start, _⟩ := inv.owned.block _ held
      have low := (inv.wellFormed.shaped.layout.place hb).1
      unfold hdrSize at start
      dsimp only at start top
      omega
  rcases res.doubled with zero | ⟨k, power⟩
  · omega
  · have few : k < 22 := (Nat.pow_lt_pow_iff_right (a := 2) (by decide)).mp (by omega)
    have most : 2 ^ k ≤ 2 ^ 21 := Nat.pow_le_pow_right (by decide) (by omega)
    omega

theorem Resident.inside (res : Resident B c v xs) {i : Nat} (lt : i < v.capacity) :
    ∀ j < 8, InPayload c.live (v.data + 8 * i + j) := by
  intro j hj
  rcases res.owned with ⟨_, zero⟩ | held
  · omega
  · exact ⟨_, held, by dsimp only; omega, by dsimp only; omega⟩

theorem Resident.frame (res : Resident B c v xs) (kept : ∀ y ∈ c.live, y.1 = v.data → y ∈ live)
    (same : ∀ a, (v.data, 8 * v.capacity) ∈ c.live → v.data ≤ a → a < v.data + 8 * v.capacity →
      B.get t.mem a = B.get c.heap.mem a) :
    Resident B ⟨t, live⟩ v xs := by
  refine ⟨⟨⟨res.holds.fits, res.holds.inside⟩, ?_⟩, res.owned.imp id fun held => kept _ held rfl, res.doubled⟩
  rw [← res.holds.list]
  refine front_congr fun i lt => ByteSpace.load_congr fun j hj => ?_
  change i < v.length at lt
  have fits : v.length ≤ v.capacity := res.holds.fits
  rcases res.owned with ⟨_, zero⟩ | held
  · omega
  · exact same _ held (by omega) (by omega)

theorem nextCapacity_bounds (res : Resident B c v xs) : (v.cells B c.heap).nextCapacity * 8 % 2 ^ 64 =
    8 * (v.cells B c.heap).nextCapacity ∧ 0 < (v.cells B c.heap).nextCapacity ∧
      (v.cells B c.heap).nextCapacity ≤ 2 ^ 29 ∧ v.capacity ≤ (v.cells B c.heap).nextCapacity ∧
      ∃ k, (v.cells B c.heap).nextCapacity = 8 * 2 ^ k := by
  have small := res.capacity_le
  have next := res.holds.nextCapacity Vec.wordSize
  change _ = if v.capacity = 0 then 8 else v.capacity * 2 at next
  rw [next]
  rcases res.doubled with zero | ⟨k, power⟩
  · rw [if_pos zero]
    exact ⟨by decide, by decide, by decide, by omega, 0, rfl⟩
  · have positive := Nat.two_pow_pos k
    rw [if_neg (by omega)]
    refine ⟨by omega, by omega, by omega, by omega, k + 1, ?_⟩
    rw [power, Nat.pow_succ, Nat.mul_assoc]

/-- The heap's `krealloc` keeps the promise that `Vec.Grows` states. -/
theorem krealloc_grows {q : Nat} (sound : c.Sound B) (res : Resident B c v xs)
    (run : krealloc B c.heap v.data ((v.cells B c.heap).nextCapacity * 8 % 2 ^ 64) = .ok (q, t)) :
    (v.cells B c.heap).Grows 8 fun i => word B t (q + 8 * i) := by
  obtain ⟨bytes, some, few, larger, _⟩ := nextCapacity_bounds res
  intro _
  rw [bytes] at run ⊢
  have owned : v.data = 0 ∧ 8 * v.capacity = 0 ∨ (v.data, 8 * v.capacity) ∈ c.live :=
    res.owned.imp (fun h => ⟨h.1, by omega⟩) id
  obtain ⟨sound', _, copied, _⟩ := sound.resize owned (by omega)
    (Nat.le_trans (by omega) (by decide : 2 ^ 32 ≤ maxRequest)) run
  refine ⟨fun i lt => ByteSpace.load_congr fun j hj => ?_, ?_⟩
  · change i < v.capacity at lt
    have same := copied (8 * i + j) (by omega)
    rwa [← Nat.add_assoc, ← Nat.add_assoc] at same
  · obtain ⟨low, high, _⟩ := sound'.place List.mem_cons_self
    have limit := sound'.high
    dsimp only at low high limit
    unfold Vec.window
    omega

/-- Every block but that of `v` is where it was, with its bytes, and `w` has taken none of them. -/
structure Others (B : Backing σ) (c : Client σ) (v w : WordVec) (t : State σ) (live : List (Nat × Nat)) : Prop where
  stays : ∀ y ∈ c.live, y.1 ≠ v.data → y ∈ live ∧ y.1 ≠ w.data
  same : ∀ a, InPayload (forget c.live v.data) a → B.get t.mem a = B.get c.heap.mem a

theorem vectorEnsureLength_spec (sound : c.Sound B) (res : Resident B c v xs) :
    match v.vectorEnsureLength B c.heap v.length with
    | .ok (w, t) => ∃ live, Client.Sound B ⟨t, live⟩ ∧ Resident B ⟨t, live⟩ w xs ∧ w.length = v.length ∧
        v.length < w.capacity ∧ Others B c v w t live
    | .error e => e.IsPanic := by
  unfold vectorEnsureLength
  by_cases full : v.length ≥ v.capacity
  · rw [if_pos full]
    obtain ⟨bytes, some, few, larger, power⟩ := nextCapacity_bounds res
    have owned : v.data = 0 ∧ 8 * v.capacity = 0 ∨ (v.data, 8 * v.capacity) ∈ c.live :=
      res.owned.imp (fun h => ⟨h.1, by omega⟩) id
    have panics := sound.resize_panics owned (show 0 < 8 * (v.cells B c.heap).nextCapacity by omega) (by omega)
    dsimp only
    cases run : krealloc B c.heap v.data ((v.cells B c.heap).nextCapacity * 8 % 2 ^ 64) with
    | error e =>
      rw [bytes] at run
      exact panics e run
    | ok r =>
      obtain ⟨q, t⟩ := r
      have room := res.holds.vectorEnsureLength Vec.wordSize (krealloc_grows sound res run)
      unfold Vec.vectorEnsureLength at room
      rw [if_pos (show (v.cells B c.heap).length ≥ (v.cells B c.heap).capacity from full)] at room
      rw [bytes] at run
      obtain ⟨sound', fresh, _, same⟩ := sound.resize owned (by omega)
        (Nat.le_trans (by omega) (by decide : 2 ^ 32 ≤ maxRequest)) run
      refine ⟨_, sound', ⟨⟨⟨Nat.le_of_lt room.room, room.inside⟩, ?_⟩, .inr List.mem_cons_self, .inr power⟩, rfl,
        room.room, ⟨fun y hy ne => ⟨?_, ?_⟩, same⟩⟩
      · exact (front_congr room.data).trans res.holds.list
      · exact List.mem_cons_of_mem _ (Client.mem_forget.mpr ⟨hy, ne⟩)
      · rintro rfl
        exact fresh (List.mem_map_of_mem (Client.mem_forget.mpr ⟨hy, ne⟩))
  · rw [if_neg full]
    refine ⟨c.live, sound, res, rfl, by omega, fun y hy ne => ⟨hy, ne⟩, fun _ _ => rfl⟩

theorem store_spec (sound : c.Sound B) (res : Resident B c v xs) (room : v.length < v.capacity) (lt : x < 2 ^ 64) :
    ∃ m, writeWord B c.heap (v.data + 8 * v.length) x = .ok (setMem c.heap m) ∧ Client.Sound B (c.withMem m) ∧
      Resident B (c.withMem m) { v with length := add64 v.length 1 } (xs ++ [x]) ∧
      Others B c v v (setMem c.heap m) c.live := by
  have small := res.capacity_le
  have inside := res.inside room
  have state : Client.Sound B (c.withMem c.heap.mem) := sound
  have R := sound.region
  have next : add64 v.length 1 = v.length + 1 := add64_of_lt (by omega)
  refine ⟨B.store c.heap.mem (v.data + 8 * v.length) x 8, writeWord_run R state inside, R.keep_store state inside, ?_, ?_⟩
  · rw [next]
    refine ⟨⟨⟨room, res.holds.inside⟩, ?_⟩, res.owned, res.doubled⟩
    change front _ (v.length + 1) = _
    rw [front_succ, ← res.holds.list]
    congr 1
    · refine front_congr fun i below => ?_
      change i < v.length at below
      change B.load (B.store _ _ x 8) (v.data + 8 * i) 8 = B.load c.heap.mem (v.data + 8 * i) 8
      exact R.load_store_disjoint state inside (res.inside (by omega)) (by omega)
    · refine congrArg (· :: []) ((R.load_store_same state inside).trans (Nat.mod_eq_of_lt ?_))
      exact lt
  · refine ⟨fun y hy ne => ⟨hy, ne⟩, ?_⟩
    rintro a ⟨y, hy, low, high⟩
    obtain ⟨hy, ne⟩ := Client.mem_forget.mp hy
    refine R.get_store_of_not_mem state inside ⟨y, hy, low, high⟩ ?_
    rcases res.owned with ⟨_, zero⟩ | held
    · omega
    · have apart := sound.apart hy held fun same => ne (congrArg Prod.fst same)
      dsimp only at apart
      omega

theorem vectorPushBack_spec (sound : c.Sound B) (res : Resident B c v xs) (lt : x < 2 ^ 64) :
    match v.vectorPushBack B c.heap x with
    | .ok (w, t) => ∃ live, Client.Sound B ⟨t, live⟩ ∧ Resident B ⟨t, live⟩ w (xs ++ [x]) ∧ Others B c v w t live
    | .error e => e.IsPanic := by
  have grown := vectorEnsureLength_spec sound res
  unfold vectorPushBack
  cases run : v.vectorEnsureLength B c.heap v.length with
  | error e =>
    rw [run] at grown
    exact grown
  | ok r =>
    obtain ⟨u, s⟩ := r
    rw [run] at grown
    obtain ⟨live, sound₁, res₁, length, room, others₁⟩ := grown
    obtain ⟨m, stored, sound₂, res₂, others₂⟩ := store_spec sound₁ res₁ (by omega) lt
    rw [ok_bind]
    dsimp only at stored ⊢
    rw [bind_eq stored]
    refine ⟨live, sound₂, res₂, fun y hy ne => others₁.stays y hy ne, ?_⟩
    rintro a ⟨y, hy, low, high⟩
    obtain ⟨hy', ne⟩ := Client.mem_forget.mp hy
    obtain ⟨there, apart⟩ := others₁.stays y hy' ne
    exact (others₂.same a ⟨y, Client.mem_forget.mpr ⟨there, apart⟩, low, high⟩).trans (others₁.same a ⟨y, hy, low, high⟩)

/-- The heap has room for `n` calls that take 128 pages each, and every page is mapped. -/
structure Roomy (B : Backing σ) (s : State σ) (n : Nat) : Prop where
  room : s.heapCurr + n * (128 * pageSize) ≤ heapLimit
  maps : ∀ m va, ∃ m', B.mapPage m va = .ok m'

theorem Roomy.mapPages (roomy : Roomy B s n) (m : σ) (va count : Nat) : ∃ m', mapPages B m va count = .ok m' := by
  induction count generalizing m va with
  | zero => exact ⟨m, rfl⟩
  | succ count ih =>
    obtain ⟨m₁, first⟩ := roomy.maps m va
    obtain ⟨m₂, rest⟩ := ih m₁ (va + pageSize)
    exact ⟨m₂, (bind_eq first).trans rest⟩

theorem Roomy.spend (roomy : Roomy B s (n + 1)) (near : t.heapCurr ≤ s.heapCurr + 128 * pageSize) : Roomy B t n := by
  have room := roomy.room
  rw [Nat.succ_mul] at room
  exact ⟨by omega, roomy.maps⟩

theorem vectorEnsureLength_returns (sound : c.Sound B) (res : Resident B c v xs) (short : xs.length ≤ 2 ^ 10)
    (roomy : Roomy B c.heap (n + 1)) : ∃ w t, v.vectorEnsureLength B c.heap v.length = .ok (w, t) ∧ Roomy B t n := by
  unfold vectorEnsureLength
  by_cases full : v.length ≥ v.capacity
  · obtain ⟨bytes, some, _⟩ := nextCapacity_bounds res
    have next := res.holds.nextCapacity Vec.wordSize
    change _ = if v.capacity = 0 then 8 else v.capacity * 2 at next
    have few : (v.cells B c.heap).nextCapacity ≤ 2 ^ 11 := by
      have length := res.length
      rw [next]
      split <;> omega
    have room : c.heap.heapCurr + 128 * pageSize ≤ heapLimit := by
      have := roomy.room
      rw [Nat.succ_mul] at this
      omega
    obtain ⟨q, t, run, near⟩ := sound.resize_returns (n := 8 * v.capacity) (res.owned.imp And.left id)
      (show 0 < 8 * (v.cells B c.heap).nextCapacity by omega) (by omega) room (roomy.mapPages _ _ _)
    rw [if_pos full]
    dsimp only
    rw [bytes, bind_eq run]
    exact ⟨_, _, rfl, roomy.spend near⟩
  · rw [if_neg full]
    exact ⟨_, _, rfl, roomy.spend (Nat.le_add_right _ _)⟩

theorem vectorPushBack_returns (sound : c.Sound B) (res : Resident B c v xs) (short : xs.length ≤ 2 ^ 10)
    (lt : x < 2 ^ 64) (roomy : Roomy B c.heap (n + 1)) :
    ∃ w t, v.vectorPushBack B c.heap x = .ok (w, t) ∧ Roomy B t n := by
  obtain ⟨u, s, grown, left⟩ := vectorEnsureLength_returns sound res short roomy
  have spec := vectorEnsureLength_spec sound res
  rw [grown] at spec
  obtain ⟨live, sound₁, res₁, length, room, _⟩ := spec
  obtain ⟨m, stored, _⟩ := store_spec sound₁ res₁ (by omega) lt
  unfold vectorPushBack
  rw [bind_eq grown]
  dsimp only at stored ⊢
  rw [bind_eq stored]
  exact ⟨_, _, rfl, left.room, left.maps⟩

end WordVec

end Voyager.Heap
