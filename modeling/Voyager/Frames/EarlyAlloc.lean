import Voyager.Boot
import Voyager.Lib.Outcome

/-! # The bootstrap page allocator -/

namespace Voyager

open Lib

namespace Early

def zero : Early := ⟨0, 0, 0, false⟩

/-- The two candidates of `pick_region_from_memmap`: below 4 GiB, and anywhere. -/
structure Best where
  sizeBelow4g : Nat
  baseBelow4g : Nat
  endBelow4g : Nat
  sizeAny : Nat
  baseAny : Nat
  endAny : Nat

def consider (best : Best) (e : MemmapEntry) : Best :=
  if e.type ≠ .usable then best
  else
    let start := alignUp e.base pageSize
    let stop := alignDown e.stop pageSize
    if stop ≤ start then best
    else
      let size := stop - start
      let best := if stop ≤ 0x100000000 ∧ size > best.sizeBelow4g then
        { best with sizeBelow4g := size, baseBelow4g := start, endBelow4g := stop } else best
      if size > best.sizeAny then { best with sizeAny := size, baseAny := start, endAny := stop } else best

def pickRegionFromMemmap (boot : Boot) (g : Early) : Early :=
  match boot.memmap with
  | none => g
  | some [] => g
  | some entries =>
    let best := entries.foldl consider ⟨0, 0, 0, 0, 0, 0⟩
    if best.sizeBelow4g ≠ 0 then
      { g with base := best.baseBelow4g, cursor := best.baseBelow4g, stop := best.endBelow4g }
    else { g with base := best.baseAny, cursor := best.baseAny, stop := best.endAny }

def init (boot : Boot) (g : Early) : Kernel Early :=
  let g := if g.regionForced then g else pickRegionFromMemmap boot g
  if g.base = 0 ∨ g.stop ≤ g.base ∨ g.base % pageSize ≠ 0 then .error (.panic .noEarlyRegion) else .ok g

def pagesUsed (g : Early) : Nat := sub64 g.cursor g.base / pageSize

def allocPage (g : Early) : Kernel (Nat × Early) :=
  if add64 g.cursor pageSize > g.stop then .error (.panic (.earlyExhausted g.pagesUsed))
  else .ok (g.cursor, { g with cursor := add64 g.cursor pageSize })

def reservedRegion (g : Early) : Nat × Nat := (g.base, g.pagesUsed)

def skip (g : Early) : Nat → Kernel Early
  | 0 => .ok g
  | n + 1 => do skip (← allocPage g).2 n

def InRange (entries : List MemmapEntry) : Prop := ∀ e ∈ entries, e.base + e.length ≤ 2 ^ 52

structure Sound (g : Early) : Prop where
  positive : 0 < g.base
  aligned : g.base % pageSize = 0 ∧ g.cursor % pageSize = 0
  bounds : g.base ≤ g.cursor ∧ g.cursor ≤ g.stop ∧ g.stop ≤ 2 ^ 52

def FromUsable (entries : List MemmapEntry) (base stop : Nat) : Prop :=
  ∃ e ∈ entries, e.type = .usable ∧ e.base ≤ base ∧ stop ≤ e.base + e.length ∧ base % pageSize = 0 ∧ base < stop

variable {g g' : Early} {boot : Boot} {entries : List MemmapEntry} {e : MemmapEntry} {p n : Nat}

theorem stop_eq (inRange : InRange entries) (he : e ∈ entries) : e.stop = e.base + e.length := by
  have := inRange e he
  exact add64_of_lt (by omega)

def Best.FromEntries (entries : List MemmapEntry) (best : Best) : Prop :=
  (best.sizeBelow4g = 0 ∨ FromUsable entries best.baseBelow4g best.endBelow4g) ∧
    (best.baseAny = 0 ∨ FromUsable entries best.baseAny best.endAny)

theorem consider_fromEntries {best : Best} (inRange : InRange entries) (he : e ∈ entries)
    (h : best.FromEntries entries) : (consider best e).FromEntries entries := by
  have bound := inRange e he
  unfold consider
  split
  · exact h
  rename_i usable
  rw [stop_eq inRange he]
  dsimp only
  split
  · exact h
  rename_i order
  have found : FromUsable entries (alignUp e.base pageSize) (alignDown (e.base + e.length) pageSize) := by
    refine ⟨e, he, not_not.mp usable, ?_, ?_, ?_, by omega⟩
    all_goals
      unfold alignUp alignDown add64 pageSize at *
      omega
  split <;> split
  · exact ⟨.inr found, .inr found⟩
  · exact ⟨.inr found, h.2⟩
  · exact ⟨h.1, .inr found⟩
  · exact h

theorem foldl_fromEntries (inRange : InRange entries) {some : List MemmapEntry} (sub : ∀ e ∈ some, e ∈ entries)
    {best : Best} (h : best.FromEntries entries) : (some.foldl consider best).FromEntries entries := by
  induction some generalizing best with
  | nil => exact h
  | cons e rest ih =>
    exact ih (fun d hd => sub d (List.mem_cons_of_mem _ hd)) (consider_fromEntries inRange (sub e List.mem_cons_self) h)

theorem sound_of_usable (inRange : InRange entries) (h : FromUsable entries g.base g.stop) (positive : 0 < g.base)
    (start : g.cursor = g.base) : Sound g := by
  obtain ⟨e, he, _, _, high, al, order⟩ := h
  have := inRange e he
  exact ⟨positive, ⟨al, start ▸ al⟩, by omega, by omega, by omega⟩

theorem init_spec (memmap : boot.memmap = some entries) (inRange : InRange entries) (run : init boot zero = .ok g) :
    Sound g ∧ g.cursor = g.base ∧ FromUsable entries g.base g.stop := by
  unfold init at run
  simp only [zero, Bool.false_eq_true, if_false] at run
  split at run
  · cases run
  rename_i accepted
  obtain rfl := Except.ok.inj run
  push Not at accepted
  have positive := Nat.pos_of_ne_zero accepted.1
  unfold pickRegionFromMemmap at positive ⊢
  rw [memmap] at positive ⊢
  cases entries with
  | nil => exact absurd positive (by decide)
  | cons e rest =>
    have start : Best.FromEntries (e :: rest) ⟨0, 0, 0, 0, 0, 0⟩ := ⟨.inl rfl, .inl rfl⟩
    obtain ⟨low, any⟩ := foldl_fromEntries inRange (fun _ h => h) start
    dsimp only at positive ⊢
    split at positive
    · rename_i some
      have found := low.resolve_left some
      rw [if_pos some]
      exact ⟨sound_of_usable inRange found positive rfl, rfl, found⟩
    · rename_i none
      have found := any.resolve_left (Nat.ne_of_gt positive)
      rw [if_neg none]
      exact ⟨sound_of_usable inRange found positive rfl, rfl, found⟩

theorem allocPage_eq (run : allocPage g = .ok (p, g')) :
    p = g.cursor ∧ g' = { g with cursor := add64 g.cursor pageSize } := by
  unfold allocPage at run
  split at run
  · cases run
  · cases run
    exact ⟨rfl, rfl⟩

theorem skip_eq (word : g.cursor < 2 ^ 64) (run : skip g n = .ok g') :
    g' = { g with cursor := (g.cursor + n * pageSize) % 2 ^ 64 } := by
  induction n generalizing g with
  | zero =>
    cases run
    rw [Nat.zero_mul, Nat.add_zero, Nat.mod_eq_of_lt word]
  | succ n ih =>
    obtain ⟨⟨q, g₁⟩, first, rest⟩ := bind_ok run
    obtain ⟨_, rfl⟩ := allocPage_eq first
    rw [ih (Nat.mod_lt _ (by decide)) rest]
    dsimp only
    rw [add64, Nat.mod_add_mod, Nat.succ_mul, Nat.add_assoc, Nat.add_comm pageSize]

theorem allocPage_spec (h : Sound g) (run : allocPage g = .ok (p, g')) :
    p = g.cursor ∧ g' = { g with cursor := g.cursor + pageSize } ∧ Sound g' := by
  obtain ⟨positive, ⟨al, al'⟩, low, high, top⟩ := h
  have sum : add64 g.cursor pageSize = g.cursor + pageSize := add64_of_lt (by unfold pageSize; omega)
  unfold allocPage at run
  rw [sum] at run
  split at run
  · cases run
  · rename_i room
    cases run
    refine ⟨rfl, rfl, positive, ⟨al, ?_⟩, ?_, ?_, top⟩
    · change (g.cursor + pageSize) % pageSize = 0
      rw [Nat.add_mod_right]
      exact al'
    · change g.base ≤ g.cursor + pageSize
      omega
    · change g.cursor + pageSize ≤ g.stop
      omega

theorem skip_spec (h : Sound g) (run : skip g n = .ok g') :
    g' = { g with cursor := g.cursor + n * pageSize } ∧ Sound g' := by
  induction n generalizing g with
  | zero =>
    cases run
    exact ⟨by simp, h⟩
  | succ n ih =>
    obtain ⟨⟨p, g₁⟩, first, rest⟩ := bind_ok run
    obtain ⟨_, rfl, sound⟩ := allocPage_spec h first
    obtain ⟨rfl, sound'⟩ := ih sound rest
    refine ⟨?_, sound'⟩
    rw [show g.cursor + (n + 1) * pageSize = g.cursor + pageSize + n * pageSize by rw [Nat.succ_mul]; omega]

theorem allocPage_room (h : Sound g) (room : g.cursor + pageSize ≤ g.stop) :
    Sound { g with cursor := g.cursor + pageSize } ∧
      allocPage g = .ok (g.cursor, { g with cursor := g.cursor + pageSize }) := by
  have top := h.bounds.2.2
  have sum : add64 g.cursor pageSize = g.cursor + pageSize := add64_of_lt (by unfold pageSize; omega)
  have run : allocPage g = .ok (g.cursor, { g with cursor := g.cursor + pageSize }) := by
    unfold allocPage
    rw [sum, if_neg (by omega)]
  exact ⟨(allocPage_spec h run).2.2, run⟩

theorem skip_returns (h : Sound g) (room : g.cursor + n * pageSize ≤ g.stop) : ∃ g', skip g n = .ok g' := by
  induction n generalizing g with
  | zero => exact ⟨g, rfl⟩
  | succ n ih =>
    rw [Nat.succ_mul] at room
    obtain ⟨sound, first⟩ := allocPage_room h (by omega)
    obtain ⟨g', rest⟩ := ih sound (show g.cursor + pageSize + n * pageSize ≤ g.stop by omega)
    exact ⟨g', by rw [skip, bind_eq first]; exact rest⟩

theorem Sound.pagesUsed_eq (h : Sound g) : g.base + g.pagesUsed * pageSize = g.cursor := by
  obtain ⟨_, ⟨al, al'⟩, low, high, top⟩ := h
  unfold pagesUsed pageSize at *
  rw [sub64_of_le low (by omega)]
  omega

end Early

end Voyager
