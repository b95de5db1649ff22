import Mathlib.Data.List.Basic

/-!
# Radix tables in a store

An entry of a node is absent, a leaf, or the address of a node one level below; level 0 is the
last. When no node is reached along two paths, writing an entry changes exactly the walks
through it.
-/

namespace Voyager.Lib.RadixTable

inductive Slot (ν : Type) where
  | absent
  | leaf
  | table (n : ν)

variable {ν ι ε : Type}

/-- Follow a path down from the node `n`: the leaf that ends it, and the leaf's level. -/
def walk (kind : Nat → ε → Slot ν) (s : ν → ι → ε) (n : ν) : List ι → Option (ε × Nat)
  | [] => none
  | i :: rest =>
    match kind rest.length (s n i) with
    | .absent => none
    | .leaf => some (s n i, rest.length)
    | .table c => walk kind s c rest

/-- `Reach kind s root top l p n`: the path `p` leads from the root to the node `n` of level `l`. -/
inductive Reach (kind : Nat → ε → Slot ν) (s : ν → ι → ε) (root : ν) (top : Nat) : Nat → List ι → ν → Prop where
  | root : Reach kind s root top top [] root
  | step {l : Nat} {p : List ι} {n c : ν} (i : ι) :
      Reach kind s root top (l + 1) p n → kind (l + 1) (s n i) = .table c → Reach kind s root top l (p ++ [i]) c

def Unshared (kind : Nat → ε → Slot ν) (s : ν → ι → ε) (root : ν) (top : Nat) : Prop :=
  ∀ ⦃l p n k q⦄, Reach kind s root top l p n → Reach kind s root top k q n → p = q

/-- On the nodes reached in `s`, the store `s'` differs from `s` at most in one entry. -/
def EqualOff (kind : Nat → ε → Slot ν) (s s' : ν → ι → ε) (root : ν) (top : Nat) (at' : ν) (i' : ι) : Prop :=
  ∀ ⦃l p n⦄ i, Reach kind s root top l p n → (n = at' → i ≠ i') → s' n i = s n i

variable {kind : Nat → ε → Slot ν} {s s' : ν → ι → ε} {root : ν} {top l k level : Nat} {p q at' : List ι}
  {n c node : ν} {index i : ι}

theorem Reach.length (h : Reach kind s root top l p n) : p.length + l = top := by
  induction h with
  | root => simp
  | step i _ _ ih =>
    rw [List.length_append, List.length_singleton]
    omega

theorem Reach.unique (h : Reach kind s root top l p n) (h' : Reach kind s root top k p c) : l = k ∧ n = c := by
  have key : ∀ q, Reach kind s root top k q c → p = q → l = k ∧ n = c := by
    clear h'
    induction h generalizing k c with
    | root =>
      intro q h' same
      cases h' with
      | root => exact ⟨rfl, rfl⟩
      | step j _ _ => simp at same
    | step i _ points ih =>
      intro q h' same
      cases h' with
      | root => simp at same
      | step j reach points' =>
        obtain ⟨rfl, last⟩ := List.append_inj' same rfl
        obtain rfl := (List.cons.inj last).1
        obtain ⟨level, rfl⟩ := ih _ reach rfl
        obtain rfl := Nat.succ.inj level
        rw [points] at points'
        cases points'
        exact ⟨rfl, rfl⟩
  exact key p h' rfl

theorem Reach.parent (h : Reach kind s root top l (p ++ [i]) c) :
    ∃ n, Reach kind s root top (l + 1) p n ∧ kind (l + 1) (s n i) = .table c := by
  generalize path : p ++ [i] = q at h
  cases h with
  | root => simp at path
  | step j earlier points =>
    obtain ⟨rfl, last⟩ := List.append_inj' path rfl
    obtain rfl := (List.cons.inj last).1
    exact ⟨_, earlier, points⟩

theorem Reach.entry (h : Reach kind s root top (k + 1) p n) (h' : Reach kind s root top l (p ++ [i]) c) :
    kind (k + 1) (s n i) = .table c := by
  obtain ⟨n', earlier, points⟩ := h'.parent
  obtain ⟨level, rfl⟩ := h.unique earlier
  rw [level]
  exact points

theorem Reach.walk (h : Reach kind s root top l p n) {rest : List ι} (length : rest.length = l + 1) :
    walk kind s root (p ++ rest) = walk kind s n rest := by
  induction h generalizing rest with
  | root => rfl
  | step i _ points ih =>
    rw [List.append_assoc, ih (by simp [length])]
    simp only [List.singleton_append, RadixTable.walk, length, points]

theorem Reach.leaf (h : Reach kind s root top l p n) {path : List ι} {e : ε} (length : path.length = l + 1)
    (found : RadixTable.walk kind s n path = some (e, k)) :
    ∃ q i rest node, path = q ++ i :: rest ∧ rest.length = k ∧ Reach kind s root top k (p ++ q) node ∧ s node i = e ∧
      kind k e = .leaf := by
  induction path generalizing l p n with
  | nil => cases found
  | cons i path ih =>
    obtain rfl : path.length = l := by simpa using length
    rw [RadixTable.walk] at found
    cases points : kind path.length (s n i) with
    | absent =>
      rw [points] at found
      cases found
    | leaf =>
      rw [points] at found
      cases found
      exact ⟨[], i, path, n, rfl, rfl, by simpa using h, rfl, points⟩
    | table c =>
      rw [points] at found
      cases size : path.length with
      | zero =>
        rw [List.eq_nil_of_length_eq_zero size] at found
        cases found
      | succ l =>
        rw [size] at points h
        obtain ⟨q, j, rest, node, rfl, length', reach, rest'⟩ := ih (h.step i points) size found
        exact ⟨i :: q, j, rest, node, rfl, length', by simpa using reach, rest'⟩

theorem prefix_snoc {i : ι} (h : at' ++ [index] <+: p ++ [i]) : at' ++ [index] <+: p ∨ at' = p ∧ index = i := by
  rcases List.prefix_concat_iff.mp h with same | shorter
  · obtain ⟨rfl, last⟩ := List.append_inj' same rfl
    exact .inr ⟨rfl, (List.cons.inj last).1⟩
  · exact .inl shorter

/-- A walk sees the entries along its path only. -/
theorem walk_congr {path rest : List ι}
    (equal : ∀ ⦃l p n⦄ i, Reach kind s root top l p n → p ++ [i] <+: path → s' n i = s n i)
    (h : Reach kind s root top l p n) (length : rest.length = l + 1) (whole : p ++ rest = path) :
    walk kind s' n rest = walk kind s n rest := by
  induction rest generalizing l p n with
  | nil => rfl
  | cons i rest ih =>
    rw [walk, walk, equal i h ⟨rest, by simpa using whole⟩]
    cases found : kind rest.length (s n i) with
    | absent => rfl
    | leaf => rfl
    | table c =>
      cases l with
      | zero =>
        obtain rfl : rest = [] := List.eq_nil_of_length_eq_zero (by simpa using length)
        rfl
      | succ l =>
        have length' : rest.length = l + 1 := by simpa using length
        rw [length'] at found
        exact ih (h.step i found) length' (by simpa using whole)

section Same

variable (equal : ∀ ⦃l p n⦄ i, Reach kind s root top l p n → s' n i = s n i)

include equal

theorem reach_same (h : Reach kind s root top l p n) : Reach kind s' root top l p n := by
  induction h with
  | root => exact .root
  | step i earlier points ih =>
    rw [← equal i earlier] at points
    exact ih.step i points

theorem reach_of_same (h : Reach kind s' root top l p n) : Reach kind s root top l p n := by
  induction h with
  | root => exact .root
  | step i _ points ih =>
    rw [equal i ih] at points
    exact ih.step i points

theorem walk_same {path : List ι} (length : path.length = top + 1) : walk kind s' root path = walk kind s root path :=
  walk_congr (fun _ _ _ i h _ => equal i h) .root length rfl

end Same

section Write

variable (unshared : Unshared kind s root top) (reach : Reach kind s root top level at' node)
  (equal : EqualOff kind s s' root top node index)

include unshared reach equal

theorem entry_off (h : Reach kind s root top l p n) (off : ¬ at' ++ [index] <+: p ++ [i]) : s' n i = s n i := by
  refine equal i h fun here same => off ?_
  subst here same
  rewrite [unshared reach h]
  exact List.prefix_rfl

theorem reach_kept (h : Reach kind s root top l p n) (off : ¬ at' ++ [index] <+: p) :
    Reach kind s' root top l p n := by
  induction h with
  | root => exact .root
  | step i earlier points ih =>
    refine .step i (ih fun through => off (through.trans (List.prefix_append _ _))) ?_
    rw [entry_off unshared reach equal earlier off]
    exact points

theorem node_kept : Reach kind s' root top level at' node := by
  refine reach_kept unshared reach equal reach fun through => ?_
  have := through.length_le
  rw [List.length_append, List.length_singleton] at this
  omega

theorem walk_off {path : List ι} (length : path.length = top + 1) (off : ¬ at' ++ [index] <+: path) :
    walk kind s' root path = walk kind s root path :=
  walk_congr (fun _ _ _ _ h through => entry_off unshared reach equal h fun below => off (below.trans through)) .root
    length rfl

theorem walk_at {rest : List ι} (length : rest.length = level) :
    walk kind s' root (at' ++ index :: rest) = walk kind s' node (index :: rest) :=
  (node_kept unshared reach equal).walk (by simp [length])

theorem reach_cut (closed : ∀ c, kind level (s' node index) ≠ .table c) (h : Reach kind s' root top l p n) :
    Reach kind s root top l p n ∧ ¬ at' ++ [index] <+: p := by
  induction h with
  | root => exact ⟨.root, by simp⟩
  | @step l p n c i _ points ih =>
    obtain ⟨earlier, off⟩ := ih
    have off' : ¬ at' ++ [index] <+: p ++ [i] := by
      intro through
      rcases prefix_snoc through with shorter | ⟨rfl, rfl⟩
      · exact off shorter
      · obtain ⟨rfl, rfl⟩ := reach.unique earlier
        exact closed c points
    rw [entry_off unshared reach equal earlier off'] at points
    exact ⟨earlier.step i points, off'⟩

theorem unshared_cut (closed : ∀ c, kind level (s' node index) ≠ .table c) : Unshared kind s' root top :=
  fun _ _ _ _ _ h h' => unshared (reach_cut unshared reach equal closed h).1
    (reach_cut unshared reach equal closed h').1

end Write

theorem not_through (unshared : Unshared kind s root top) (reach : Reach kind s root top level at' node)
    (closed : ∀ c, kind level (s node index) ≠ .table c) (h : Reach kind s root top l p n) :
    ¬ at' ++ [index] <+: p :=
  (reach_cut unshared reach (fun _ _ _ _ _ _ => rfl) closed h).2

section Link

variable {fresh : ν} (unshared : Unshared kind s root top) (reach : Reach kind s root top (level + 1) at' node)
  (equal : EqualOff kind s s' root top node index) (absent : kind (level + 1) (s node index) = .absent)
  (points : kind (level + 1) (s' node index) = .table fresh) (empty : ∀ l i, kind l (s' fresh i) = .absent)

include unshared reach equal absent

theorem reach_linked (h : Reach kind s root top l p n) : Reach kind s' root top l p n :=
  reach_kept unshared reach equal h (not_through unshared reach (fun c table => by rw [absent] at table; cases table) h)

include points

theorem link_reached : Reach kind s' root top level (at' ++ [index]) fresh :=
  (reach_linked unshared reach equal absent reach).step index points

include empty

theorem reach_link (h : Reach kind s' root top l p n) :
    Reach kind s root top l p n ∨ l = level ∧ p = at' ++ [index] ∧ n = fresh := by
  induction h with
  | root => exact .inl .root
  | @step l p n c i _ found ih =>
    rcases ih with earlier | ⟨_, _, rfl⟩
    · by_cases here : n = node ∧ i = index
      · obtain ⟨rfl, rfl⟩ := here
        obtain rfl := unshared reach earlier
        obtain ⟨level', _⟩ := reach.unique earlier
        obtain rfl := Nat.succ.inj level'
        rw [points] at found
        cases found
        exact .inr ⟨rfl, rfl, rfl⟩
      · rw [equal i earlier fun same other => here ⟨same, other⟩] at found
        exact .inl (earlier.step i found)
    · rw [empty] at found
      cases found

theorem unshared_link (new : ∀ l p, ¬ Reach kind s root top l p fresh) : Unshared kind s' root top := by
  intro l p n k q h h'
  rcases reach_link unshared reach equal absent points empty h with old | ⟨_, rfl, rfl⟩
  · rcases reach_link unshared reach equal absent points empty h' with old' | ⟨_, _, rfl⟩
    · exact unshared old old'
    · exact absurd old (new _ _)
  · rcases reach_link unshared reach equal absent points empty h' with old' | ⟨_, rfl, _⟩
    · exact absurd old' (new _ _)
    · rfl

theorem walk_link {path : List ι} (length : path.length = top + 1) :
    walk kind s' root path = walk kind s root path := by
  by_cases through : at' ++ [index] <+: path
  · obtain ⟨rest, rfl⟩ := through
    have depth := reach.length
    have size : rest.length = level + 1 := by
      simp only [List.length_append, List.length_singleton] at length
      omega
    rw [List.append_assoc, List.singleton_append, reach.walk (by simp [size]),
      walk_at unshared reach equal (by simpa using size)]
    simp only [walk, size, absent, points]
    cases rest with
    | nil => rfl
    | cons i rest => simp only [walk, empty]
  · exact walk_off unshared reach equal length through

end Link

end Voyager.Lib.RadixTable
