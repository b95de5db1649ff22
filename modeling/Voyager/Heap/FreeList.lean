import Voyager.Heap.Words

/-! # The free list operations on a laid-out heap -/

namespace Voyager.Heap

open Lib

variable {σ : Type} {B : Backing σ} {s : State σ} {blocks : List Block} {free : List Nat}
  {b c : Block} {a x : Nat}

def OutsideLinks (free : List Nat) (x : Nat) : Prop := ∀ a ∈ free, x < a + 8 ∨ a + 24 ≤ x

theorem Layout.outside_links {w : Nat → Nat} {curr head : Nat} (L : Layout w curr head blocks free)
    (hb : b ∈ blocks) (unlisted : b.addr ∉ free) (low : b.addr ≤ x) (high : x < b.addr + b.size) :
    OutsideLinks free x := by
  intro a ha
  obtain ⟨c, hc, rfl, _⟩ := L.isFree a ha
  have large := (L.tagged c hc).large
  have := L.tiles.apart hb hc fun e => unlisted (e ▸ ha)
  omega

theorem Layout.allocated_unlisted {w : Nat → Nat} {curr head : Nat} (L : Layout w curr head blocks free)
    (hb : b ∈ blocks) (set : b.allocated = true) : b.addr ∉ free := by
  intro listed
  obtain ⟨c, hc, e, clear⟩ := L.isFree _ listed
  rw [L.tiles.eq_of_addr hc hb e, set] at clear
  cases clear

theorem Layout.link_inside {w : Nat → Nat} {curr head : Nat} (L : Layout w curr head blocks free)
    (ha : a ∈ free) : Inside curr (a + 8) ∧ Inside curr (a + 16) := by
  obtain ⟨low, high, al⟩ := L.listed ha
  exact ⟨⟨by omega, by omega, by omega⟩, by omega, by omega, by omega⟩

theorem Layout.head_listed {w : Nat → Nat} {curr head : Nat} (L : Layout w curr head blocks free)
    (pos : head ≠ 0) : head ∈ free := by
  have first := L.head_eq
  cases free with
  | nil => exact (pos first).elim
  | cons x rest => rw [first]; exact List.mem_cons_self

theorem listed_lt {w : Nat → Nat} {curr head : Nat} (L : Layout w curr head blocks free)
    (bound : curr ≤ heapLimit) (ha : a ∈ free) : a < 2 ^ 64 := by
  have := L.listed ha
  have : heapLimit < 2 ^ 64 := by decide
  omega

def pushWrites (head b : Nat) : List (Nat × Nat) :=
  [(b + 8, 0), (b + 16, head)] ++ if head = 0 then [] else [(head + 8, b)]

theorem flPush_run (r : Ready B s) (hb : Inside s.heapCurr (a + 8)) (hb' : Inside s.heapCurr (a + 16))
    (hh : s.freeList ≠ 0 → Inside s.heapCurr (s.freeList + 8)) (lt : s.freeList < 2 ^ 64) :
    flPush B s a = .ok { pokes B s (pushWrites s.freeList a) with freeList := a } := by
  unfold flPush pushWrites
  have first : Writable s.heapCurr [(a + 8, 0)] := writable_cons.mpr ⟨⟨hb, by decide⟩, writable_nil⟩
  have second : Writable s.heapCurr [(a + 8, 0), (a + 16, s.freeList)] :=
    writable_cons.mpr ⟨⟨hb, by decide⟩, writable_cons.mpr ⟨⟨hb', lt⟩, writable_nil⟩⟩
  rw [bind_eq (r.write hb)]
  simp only [pokes_freeList]
  rw [bind_eq (r.write_pokes first hb')]
  by_cases zero : s.freeList = 0
  · simp only [pokes_freeList, zero, ne_eq, not_true_eq_false, if_false, if_true, List.append_nil]
    rfl
  · simp only [pokes_freeList, ne_eq, zero, not_false_eq_true, if_true, if_false,
      List.cons_append, List.nil_append]
    rw [bind_eq (r.write_pokes second (hh zero))]
    rfl

theorem Shaped.head_inside (h : Shaped B s blocks free) (pos : s.freeList ≠ 0) :
    Inside s.heapCurr (s.freeList + 8) :=
  (h.layout.link_inside (h.layout.head_listed pos)).1

theorem Shaped.head_lt (h : Shaped B s blocks free) : s.freeList < 2 ^ 64 := by
  by_cases zero : s.freeList = 0
  · omega
  · exact listed_lt h.layout h.ready.high (h.layout.head_listed zero)

theorem Shaped.pushWrites_writable (h : Shaped B s blocks free) (in8 : Inside s.heapCurr (a + 8))
    (in16 : Inside s.heapCurr (a + 16)) (lt : a < 2 ^ 64) : Writable s.heapCurr (pushWrites s.freeList a) := by
  have links : Writable s.heapCurr [(a + 8, 0), (a + 16, s.freeList)] :=
    writable_cons.mpr ⟨⟨in8, by decide⟩, writable_cons.mpr ⟨⟨in16, h.head_lt⟩, writable_nil⟩⟩
  refine writable_append.mpr ⟨links, ?_⟩
  split
  · exact writable_nil
  · exact writable_cons.mpr ⟨⟨h.head_inside ‹_›, lt⟩, writable_nil⟩

theorem Shaped.flPush_eq (h : Shaped B s blocks free) (hb : b ∈ blocks) :
    Writable s.heapCurr (pushWrites s.freeList b.addr) ∧
      flPush B s b.addr = .ok { pokes B s (pushWrites s.freeList b.addr) with freeList := b.addr } := by
  obtain ⟨low, high, al, mul, large⟩ := h.layout.place hb
  have addrLt : b.addr < 2 ^ 64 := by
    have := h.ready.high
    have : heapLimit < 2 ^ 64 := by decide
    omega
  have in8 : Inside s.heapCurr (b.addr + 8) := ⟨by omega, by omega, by omega⟩
  have in16 : Inside s.heapCurr (b.addr + 16) := ⟨by omega, by omega, by omega⟩
  exact ⟨h.pushWrites_writable in8 in16 addrLt, flPush_run h.ready in8 in16 h.head_inside h.head_lt⟩

theorem flPush_spec (h : Shaped B s blocks free) (hb : b ∈ blocks) (clear : b.allocated = false)
    (fresh : b.addr ∉ free) :
    ∃ s', flPush B s b.addr = .ok s' ∧ Shaped B s' blocks (b.addr :: free) ∧ s'.heapCurr = s.heapCurr ∧
      ∀ x, heapBase ≤ x → x < s.heapCurr → OutsideLinks (b.addr :: free) x → byte B s' x = byte B s x := by
  have L := h.layout
  obtain ⟨low, high, al, mul, large⟩ := L.place hb
  obtain ⟨writable, run⟩ := h.flPush_eq hb
  -- The head is another block, so its link is none of those of `b`.
  have apart : s.freeList ≠ 0 → s.freeList % 16 = 0 ∧ s.freeList ≠ b.addr := fun pos =>
    ⟨(L.listed (L.head_listed pos)).2.2, fun e => fresh (e ▸ L.head_listed pos)⟩
  refine ⟨_, run, Shaped.of_pokes h.ready writable ?_, rfl, ?_⟩
  · refine L.push hb clear fresh (fun x n8 n16 nh => ?_) ?_ ?_ fun pos => ?_
    · apply overwrite_of_not_mem
      unfold pushWrites
      split <;> simp <;> omega
    · unfold pushWrites
      split
      · simp
      · have := apart ‹_›
        simp [Function.update_apply]
        omega
    · unfold pushWrites
      split
      · simp
      · have := apart ‹_›
        simp [Function.update_apply]
        omega
    · unfold pushWrites
      rw [if_neg pos]
      simp
  · intro x xlow xhigh outside
    apply h.ready.byte_pokes writable xlow xhigh
    have self := outside b.addr List.mem_cons_self
    unfold pushWrites
    split
    · exact misses_cons.mpr ⟨by omega, misses_cons.mpr ⟨by omega, misses_nil⟩⟩
    · rename_i pos
      have other := outside s.freeList (List.mem_cons_of_mem _ (L.head_listed pos))
      exact misses_cons.mpr ⟨by omega, misses_cons.mpr ⟨by omega, misses_cons.mpr ⟨by omega, misses_nil⟩⟩⟩

def removeWrites (prev next a : Nat) : List (Nat × Nat) :=
  (if prev = 0 then [] else [(prev + 16, next)]) ++
    ((if next = 0 then [] else [(next + 8, prev)]) ++ [(a + 16, 0), (a + 8, 0)])

theorem flRemove_run (r : Ready B s) (al : a % 16 = 0) (in8 : Inside s.heapCurr (a + 8))
    (in16 : Inside s.heapCurr (a + 16))
    (prev : word B s (a + 8) ≠ 0 → Inside s.heapCurr (word B s (a + 8) + 16) ∧
      word B s (a + 8) % 16 = 0 ∧ word B s (a + 8) ≠ a)
    (next : word B s (a + 16) ≠ 0 → Inside s.heapCurr (word B s (a + 16) + 8)) :
    flRemove B s a = .ok { pokes B s (removeWrites (word B s (a + 8)) (word B s (a + 16)) a) with
      freeList := if word B s (a + 8) = 0 then word B s (a + 16) else s.freeList } := by
  have plt : word B s (a + 8) < 2 ^ 64 := word_lt s _
  have nlt : word B s (a + 16) < 2 ^ 64 := word_lt s _
  -- The second half of the function, after the writes `ws` of the first one.
  have rest : ∀ (t : State σ) (ws : List (Nat × Nat)), Ready B t → Writable t.heapCurr ws →
      t.heapCurr = s.heapCurr → overwrite (word B t) ws (a + 8) = word B s (a + 8) →
      overwrite (word B t) ws (a + 16) = word B s (a + 16) →
      (do
        let next ← readWord B (pokes B t ws) (a + 16)
        let prev ← readWord B (pokes B t ws) (a + 8)
        let s ← if next ≠ 0 then writeWord B (pokes B t ws) (next + 8) prev else pure (pokes B t ws)
        let s ← writeWord B s (a + 16) 0
        writeWord B s (a + 8) 0) =
      .ok (pokes B t (ws ++ ((if word B s (a + 16) = 0 then [] else [(word B s (a + 16) + 8, word B s (a + 8))]) ++
        [(a + 16, 0), (a + 8, 0)]))) := by
    intro t ws rt wr curr p8 p16
    rw [← curr] at in8 in16 next
    rw [bind_eq (rt.read_pokes wr in16), bind_eq (rt.read_pokes wr in8), p8, p16]
    by_cases zero : word B s (a + 16) = 0
    · have wr' : Writable t.heapCurr (ws ++ [(a + 16, 0)]) :=
        writable_append.mpr ⟨wr, writable_cons.mpr ⟨⟨in16, by decide⟩, writable_nil⟩⟩
      simp only [zero, ne_eq, not_true_eq_false, if_false, if_true, List.nil_append]
      rw [bind_eq (show pure (pokes B t ws) = Except.ok (pokes B t ws) from rfl),
        bind_eq (rt.write_pokes wr in16), rt.write_pokes wr' in8]
      simp
    · have wr1 : Writable t.heapCurr (ws ++ [(word B s (a + 16) + 8, word B s (a + 8))]) :=
        writable_append.mpr ⟨wr, writable_cons.mpr ⟨⟨next zero, plt⟩, writable_nil⟩⟩
      have wr2 := writable_append.mpr ⟨wr1, writable_cons.mpr ⟨⟨in16, (by decide : 0 < 2 ^ 64)⟩, writable_nil⟩⟩
      simp only [ne_eq, zero, not_false_eq_true, if_true, if_false]
      rw [bind_eq (rt.write_pokes wr (next zero)), bind_eq (rt.write_pokes wr1 in16), rt.write_pokes wr2 in8]
      simp
  unfold flRemove removeWrites
  rw [bind_eq (r.read in8), bind_eq (r.read in16)]
  by_cases zero : word B s (a + 8) = 0
  · have first := rest { s with freeList := word B s (a + 16) } [] (r.withHead _) writable_nil rfl rfl rfl
    simp only [zero, ne_eq, not_true_eq_false, if_false, if_true, List.nil_append, pokes_nil,
      pokes_withHead] at first ⊢
    exact first
  · obtain ⟨inPrev, palign, pne⟩ := prev zero
    have wr : Writable s.heapCurr [(word B s (a + 8) + 16, word B s (a + 16))] :=
      writable_cons.mpr ⟨⟨inPrev, nlt⟩, writable_nil⟩
    have first := rest s _ r wr rfl (by simp [Function.update_apply]; omega) (by simp [Ne.symm pne])
    simp only [zero, ne_eq, not_false_eq_true, if_true, if_false]
    rw [bind_eq (r.write inPrev)]
    exact first

theorem Shaped.removeWrites_writable (h : Shaped B s blocks free) (ha : a ∈ free) :
    Writable s.heapCurr (removeWrites (word B s (a + 8)) (word B s (a + 16)) a) := by
  have L := h.layout
  obtain ⟨in8, in16⟩ := L.link_inside ha
  refine writable_append.mpr ⟨?_, writable_append.mpr ⟨?_, writable_cons.mpr ⟨⟨in16, by decide⟩,
    writable_cons.mpr ⟨⟨in8, by decide⟩, writable_nil⟩⟩⟩⟩
  · split
    · exact writable_nil
    · rename_i pos
      have prev := (L.prev_listed ha).resolve_left pos
      exact writable_cons.mpr ⟨⟨(L.link_inside prev).2, word_lt s _⟩, writable_nil⟩
  · split
    · exact writable_nil
    · rename_i pos
      have next := (L.next_listed ha).resolve_left pos
      exact writable_cons.mpr ⟨⟨(L.link_inside next).1, word_lt s _⟩, writable_nil⟩

theorem Shaped.flRemove_eq (h : Shaped B s blocks free) (ha : a ∈ free) :
    flRemove B s a = .ok { pokes B s (removeWrites (word B s (a + 8)) (word B s (a + 16)) a) with
      freeList := if word B s (a + 8) = 0 then word B s (a + 16) else s.freeList } := by
  have L := h.layout
  obtain ⟨in8, in16⟩ := L.link_inside ha
  have nodup : (0 :: free).Nodup := List.nodup_cons.mpr ⟨L.zero_not_listed, L.nodup⟩
  obtain ⟨pne, _⟩ := L.linked.neighbours_ne nodup ha
  refine flRemove_run h.ready (L.listed ha).2.2 in8 in16 (fun pos => ?_) fun pos => ?_
  · have prev := (L.prev_listed ha).resolve_left pos
    exact ⟨(L.link_inside prev).2, (L.listed prev).2.2, pne⟩
  · exact (L.link_inside ((L.next_listed ha).resolve_left pos)).1

theorem flRemove_spec (h : Shaped B s blocks free) (ha : a ∈ free) :
    ∃ s', flRemove B s a = .ok s' ∧ Shaped B s' blocks (free.erase a) ∧ s'.heapCurr = s.heapCurr ∧
      ∀ x, heapBase ≤ x → x < s.heapCurr → OutsideLinks free x → byte B s' x = byte B s x := by
  have L := h.layout
  obtain ⟨low, high, al⟩ := L.listed ha
  have nodup : (0 :: free).Nodup := List.nodup_cons.mpr ⟨L.zero_not_listed, L.nodup⟩
  obtain ⟨pne, nne⟩ := L.linked.neighbours_ne nodup ha
  rw [nextOf, if_neg (L.linked.ne_zero a ha)] at nne
  have prevIn : word B s (a + 8) ≠ 0 → word B s (a + 8) ∈ free := fun pos => (L.prev_listed ha).resolve_left pos
  have nextIn : word B s (a + 16) ≠ 0 → word B s (a + 16) ∈ free := fun pos => (L.next_listed ha).resolve_left pos
  have writable := h.removeWrites_writable ha
  have prevAl : word B s (a + 8) ≠ 0 → word B s (a + 8) % 16 = 0 := fun pos => (L.listed (prevIn pos)).2.2
  have nextAl : word B s (a + 16) ≠ 0 → word B s (a + 16) % 16 = 0 := fun pos => (L.listed (nextIn pos)).2.2
  have pne' : word B s (a + 8) ≠ a := pne
  refine ⟨_, h.flRemove_eq ha, Shaped.of_pokes h.ready writable ?_, rfl, ?_⟩
  · refine L.unlink ha (fun x n8 n16 np nn => ?_) (fun pos => ?_) (fun pos => ?_) rfl
    · apply overwrite_of_not_mem
      unfold removeWrites
      split <;> split <;> simp <;> omega
    · have := prevAl pos
      unfold removeWrites
      rw [if_neg pos]
      split
      · simp only [List.nil_append, List.cons_append, overwrite_cons, overwrite_nil, Function.update_apply]
        rw [if_neg (by omega), if_neg (by omega), if_pos trivial]
      · have := nextAl ‹_›
        simp only [List.nil_append, List.cons_append, overwrite_cons, overwrite_nil, Function.update_apply]
        rw [if_neg (by omega), if_neg (by omega), if_neg (by omega), if_pos trivial]
    · have := nextAl pos
      unfold removeWrites
      rw [if_neg pos]
      split <;>
        simp only [List.nil_append, List.cons_append, overwrite_cons, overwrite_nil, Function.update_apply]
      all_goals rw [if_neg (by omega), if_neg (by omega), if_pos trivial]
  · intro x xlow xhigh outside
    apply h.ready.byte_pokes writable xlow xhigh
    have self := outside a ha
    unfold removeWrites
    refine misses_append.mpr ⟨?_, misses_append.mpr ⟨?_,
      misses_cons.mpr ⟨by omega, misses_cons.mpr ⟨by omega, misses_nil⟩⟩⟩⟩
    · split
      · exact misses_nil
      · have := outside _ (prevIn ‹_›)
        exact misses_cons.mpr ⟨by omega, misses_nil⟩
    · split
      · exact misses_nil
      · have := outside _ (nextIn ‹_›)
        exact misses_cons.mpr ⟨by omega, misses_nil⟩

end Voyager.Heap
