import Mathlib.Data.Set.Card
import Mathlib.Data.Set.Finite.List
import Voyager.Paging.Law

/-! # Which tables there are -/

namespace Voyager.Machine

open Lib Lib.ByteSpace Lib.RadixTable Paging

variable {m m' m'' : Machine} {root va pa flags n l c : Nat} {p q path : List (Fin 512)} {idx : Fin 512} {mem : Bytes}
  {new new' : Set (List (Fin 512))}

def tablePaths (mem : Bytes) (root : Nat) : Set (List (Fin 512)) := {p | ∃ l n, Reached mem root l p n}

theorem tablePaths_finite : (tablePaths mem root).Finite := by
  refine (List.finite_length_le (Fin 512) 3).subset ?_
  rintro p ⟨l, n, reach⟩
  have length := reach.length
  exact show p.length ≤ 3 by omega

structure Charted (m m' : Machine) (root : Nat) (new : Set (List (Fin 512))) : Prop where
  kept : ∀ {l p n}, Reached m.mem root l p n → Reached m'.mem root l p n
  paths : tablePaths m'.mem root = tablePaths m.mem root ∪ new
  balance : m'.early.cursor + pageSize * (tablePaths m.mem root).ncard =
    m.early.cursor + pageSize * (tablePaths m'.mem root).ncard
  pointers : ∀ {l p n c} {i : Fin 512}, Reached m'.mem root (l + 1) p n → slot (l + 1) (entry m'.mem n i) = .table c →
    Reached m.mem root (l + 1) p n ∧ entry m'.mem n i = entry m.mem n i ∨
      p ++ [i] ∉ tablePaths m.mem root ∧ entry m'.mem n i = c ||| (pteP ||| pteW)
  memory : ∀ x, m'.mem x = m.mem x ∨ ∃ l p n, Reached m'.mem root l p n ∧ n ≤ x ∧ x < n + pageSize

theorem Charted.same (there : new ⊆ tablePaths m.mem root) : Charted m m root new :=
  ⟨fun r => r, (Set.union_eq_self_of_subset_right there).symm, rfl, fun r _ => .inl ⟨r, rfl⟩, fun _ => .inl rfl⟩

theorem Charted.sub (h : Charted m m' root new) : tablePaths m.mem root ⊆ tablePaths m'.mem root := by
  rw [h.paths]
  exact Set.subset_union_left

theorem Charted.trans (h : Charted m m' root new) (h' : Charted m' m'' root new') :
    Charted m m'' root (new ∪ new') where
  kept r := h'.kept (h.kept r)
  paths := by rw [h'.paths, h.paths, Set.union_assoc]
  balance := by
    have first := h.balance
    have second := h'.balance
    omega
  pointers r points := by
    rcases h'.pointers r points with ⟨old, same⟩ | ⟨fresh, word⟩
    · rw [same] at points ⊢
      exact h.pointers old points
    · exact .inr ⟨fun there => fresh (h.sub there), word⟩
  memory x := by
    rcases h'.memory x with same | inside
    · rw [same]
      exact (h.memory x).imp_right fun ⟨l, p, n, r, bounds⟩ => ⟨l, p, n, h'.kept r, bounds⟩
    · exact .inr inside

theorem NewTable.charted (h : NewTable m m' root l n idx c) (tree : Tree m.mem root)
    (reach : Reached m.mem root (l + 1) p n) (absent : (entry m.mem n idx).testBit 0 = false) :
    Charted m m' root {p ++ [idx]} := by
  obtain ⟨grown, reached⟩ := h.grown tree reach absent
  have fresh : p ++ [idx] ∉ tablePaths m.mem root := by
    rintro ⟨k, c', old⟩
    have points := reach.entry old
    rw [slot_absent absent] at points
    cases points
  have paths : tablePaths m'.mem root = tablePaths m.mem root ∪ {p ++ [idx]} := by
    ext q
    constructor
    · rintro ⟨k, n', r⟩
      rcases grown.tables r with old | rfl
      · exact .inl ⟨k, n', old⟩
      · exact .inr (grown.tree.unshared r reached)
    · rintro (⟨k, n', r⟩ | rfl)
      · exact ⟨k, n', grown.kept r⟩
      · exact ⟨l, c, reached⟩
  refine ⟨grown.kept, paths, ?_, fun {k q n' c'} {i} r points => ?_, fun x => ?_⟩
  · have card : (tablePaths m'.mem root).ncard = (tablePaths m.mem root).ncard + 1 := by
      rw [paths, Set.union_singleton, Set.ncard_insert_of_notMem fresh tablePaths_finite]
    rw [card, h.early, Nat.mul_succ]
    dsimp only
    omega
  · have equal := tree.link_equal reach h.aligned h.new h.linked
    rcases grown.tables r with old | rfl
    · by_cases here : n' = n ∧ i = idx
      · obtain ⟨rfl, rfl⟩ := here
        obtain rfl := tree.unshared reach old
        obtain ⟨level, _⟩ := reach.unique old
        rw [← level, h.linked.word, h.points] at points
        cases points
        exact .inr ⟨fresh, h.linked.word⟩
      · exact .inl ⟨old, equal i old fun same other => here ⟨same, other⟩⟩
    · rw [h.linked.empty] at points
      cases points
  · by_cases inside : n ≤ x ∧ x < n + pageSize
    · exact .inr ⟨l + 1, p, n, grown.kept reach, inside⟩
    by_cases inside' : c ≤ x ∧ x < c + pageSize
    · exact .inr ⟨l, p ++ [idx], c, reached, inside'⟩
    have bound := idx.isLt
    refine .inl (h.linked.rest x ?_ ?_)
    · unfold pageSize at *
      omega
    · omega

theorem getOrMakeNext_charted (h : Hierarchy m root) (reach : Reached m.mem root (l + 1) p n)
    (run : m.getOrMakeNext n idx = .ok (c, m')) : Charted m m' root {p ++ [idx]} := by
  cases present : (entry m.mem n idx).testBit 0 with
  | true =>
    obtain ⟨_, reached, _, _⟩ := getOrMakeNext_ok h reach run
    rw [getOrMakeNext_eq, present] at run
    cases huge : (entry m.mem n idx).testBit 7 with
    | true =>
      rw [huge] at run
      cases run
    | false =>
      rw [huge] at run
      cases run
      exact .same (Set.singleton_subset_iff.mpr ⟨l, _, reached⟩)
  | false => exact (getOrMakeNext_new h reach present run).charted h.tree reach present

theorem Hierarchy.setPage {v : Nat} (h : Hierarchy m root) (reach : Reached m.mem root 0 p n) (lt : v < 2 ^ 64) :
    Charted m (m.setEntry n idx v) root ∅ := by
  have closed : ∀ v c, slot 0 v ≠ .table c := fun v c table => (slot_table table).2.1 rfl
  have kept : ∀ {k q f}, Reached m.mem root k q f → Reached (m.setEntry n idx v).mem root k q f := fun r =>
    h.tree.write_kept reach (closed _) r
  have back : ∀ {k q f}, Reached (m.setEntry n idx v).mem root k q f → Reached m.mem root k q f := fun r =>
    h.tree.write_reached reach lt (closed v) r
  have paths : tablePaths (m.setEntry n idx v).mem root = tablePaths m.mem root := by
    ext q
    exact ⟨fun ⟨k, f, r⟩ => ⟨k, f, back r⟩, fun ⟨k, f, r⟩ => ⟨k, f, kept r⟩⟩
  refine ⟨kept, by rw [paths, Set.union_empty], by rw [paths]; rfl, fun r _ => .inl ⟨back r, ?_⟩, fun x => ?_⟩
  · refine h.tree.equalOff reach _ (back r) fun same => ?_
    subst same
    obtain rfl := h.tree.unshared reach (back r)
    exact absurd (reach.unique (back r)).1 (by omega)
  · by_cases inside : n ≤ x ∧ x < n + pageSize
    · exact .inr ⟨0, p, n, kept reach, inside⟩
    · have bound := idx.isLt
      refine .inl (setEntry_of_ne ?_)
      unfold pageSize at inside
      omega

def stems (p path : List (Fin 512)) : Set (List (Fin 512)) := {q | ∃ a, a ≠ [] ∧ a <+: path ∧ q = p ++ a}

theorem stems_nil : stems p [] = ∅ := by
  ext q
  refine ⟨fun ⟨a, nonempty, inside, _⟩ => nonempty (List.prefix_nil.mp inside), fun h => h.elim⟩

theorem stems_cons : stems p (idx :: path) = {p ++ [idx]} ∪ stems (p ++ [idx]) path := by
  ext q
  constructor
  · rintro ⟨a, nonempty, inside, rfl⟩
    obtain ⟨i, rest, rfl⟩ := List.exists_cons_of_ne_nil nonempty
    obtain ⟨rfl, further⟩ := List.cons_prefix_cons.mp inside
    cases rest with
    | nil => exact .inl rfl
    | cons j rest => exact .inr ⟨j :: rest, List.cons_ne_nil _ _, further, by simp⟩
  · rintro (rfl | ⟨a, _, inside, rfl⟩)
    · exact ⟨[idx], List.cons_ne_nil _ _, by simp, rfl⟩
    · exact ⟨idx :: a, List.cons_ne_nil _ _, List.cons_prefix_cons.mpr ⟨rfl, inside⟩, by simp⟩

theorem descend_charted (h : Hierarchy m root) (reach : Reached m.mem root (l + path.length) p n)
    (run : m.descend n path = .ok (c, m')) :
    Charted m m' root (stems p path) := by
  induction path generalizing m p n with
  | nil =>
    cases run
    rw [stems_nil]
    exact .same (Set.empty_subset _)
  | cons i rest ih =>
    obtain ⟨⟨c₁, m₁⟩, first, run⟩ := bind_ok run
    have reach : Reached m.mem root (l + rest.length + 1) p n := reach
    obtain ⟨evolves, reached, _, _⟩ := getOrMakeNext_ok h reach first
    rw [stems_cons]
    exact (getOrMakeNext_charted h reach first).trans (ih (evolves.hierarchy h) reached run)

theorem map4k_charted (h : Hierarchy m root) (run : m.map4k root va pa flags = .ok m') :
    Charted m m' root (stems [] (upperPath va)) := by
  rw [map4k_eq] at run
  obtain ⟨⟨pt, m₁⟩, down, run⟩ := bind_ok run
  cases run
  have start : Reached m.mem root (0 + (upperPath va).length) [] root := .root
  obtain ⟨evolves, reached, _⟩ := descend_ok h start down
  have leaf : Charted m₁ (m₁.setEntry pt (vaddrIndices va).pt (leaf4k pa flags)) root ∅ :=
    (evolves.hierarchy h).setPage reached leaf4k_lt
  have both := (descend_charted h start down).trans leaf
  rwa [Set.union_empty] at both

structure Short (m m₁ : Machine) (root : Nat) (way : Set (List (Fin 512))) : Prop where
  evolves : Evolves m m₁ root
  charted : ∃ new ⊆ way, Charted m m₁ root new
  missing : ∃ q ∈ way, q ∉ tablePaths m₁.mem root
  full : m₁.early.stop < m₁.early.cursor + pageSize

theorem descend_short {used : Nat} (h : Hierarchy m root) (hhdm : m.paging.hhdm ≠ 0)
    (reach : Reached m.mem root (l + path.length) p n)
    (failed : m.descend n path = .error (.panic (.earlyExhausted used))) : ∃ m₁, Short m m₁ root (stems p path) := by
  induction path generalizing m p n with
  | nil => cases failed
  | cons i rest ih =>
    have reach : Reached m.mem root (l + rest.length + 1) p n := reach
    rw [descend] at failed
    cases first : m.getOrMakeNext n i with
    | ok r =>
      obtain ⟨c₁, m₁⟩ := r
      rw [bind_eq first] at failed
      obtain ⟨evolves, reached, _, _⟩ := getOrMakeNext_ok h reach first
      obtain ⟨m₂, short⟩ := ih (evolves.hierarchy h) (by rw [evolves.paging]; exact hhdm) reached failed
      obtain ⟨new, sub, charted⟩ := short.charted
      obtain ⟨q, inside, missing⟩ := short.missing
      rw [stems_cons]
      exact ⟨m₂, evolves.trans short.evolves, ⟨_, Set.union_subset_union_right _ sub,
        (getOrMakeNext_charted h reach first).trans charted⟩, ⟨q, .inr inside, missing⟩, short.full⟩
    | error halt =>
      rw [first] at failed
      obtain rfl : halt = .panic (.earlyExhausted used) := Except.error.inj failed
      rw [getOrMakeNext_eq] at first
      cases present : (entry m.mem n i).testBit 0 with
      | true =>
        rw [present] at first
        cases huge : (entry m.mem n i).testBit 7 <;> rw [huge] at first <;> cases first
      | false =>
        have missing : p ++ [i] ∉ tablePaths m.mem root := by
          rintro ⟨k, c, old⟩
          have points := reach.entry old
          rw [slot_absent present] at points
          cases points
        refine ⟨m, .refl h, ⟨∅, Set.empty_subset _, .same (Set.empty_subset _)⟩, ⟨p ++ [i], ?_, missing⟩, ?_⟩
        · rw [stems_cons]
          exact .inl rfl
        · rw [present] at first
          rcases allocTable_builds h.sound hhdm with ⟨r, ok, _⟩ | ⟨_, short⟩
          · rw [ok] at first
            cases first
          · rwa [Nat.one_mul] at short

end Voyager.Machine
