import Mathlib.Data.List.Induction
import Mathlib.Data.List.Nodup
import Voyager.Lib.Outcome

/-!
# Round robin with arrivals

Members take turns in the order of their arrival. The log of arrivals and dispatches decides
how often a member waits for another (`Fair`).
-/

namespace Voyager.Lib.RoundRobin

variable {α : Type}

inductive Event (α : Type) where
  | created (x : α)
  | dispatched (x : α)
  deriving DecidableEq

def Event.isCreated : Event α → Bool
  | .created _ => true
  | .dispatched _ => false

def Event.dispatched? : Event α → Option α
  | .created _ => none
  | .dispatched x => some x

def dispatches (log : List (Event α)) : List α := log.filterMap Event.dispatched?

structure Rota (α : Type) where
  order : List α -- Oldest first.
  current : Option α
  log : List (Event α) -- Oldest first.

def Rota.dispatch (r : Rota α) (x : α) : Rota α := ⟨r.order, some x, r.log ++ [.dispatched x]⟩

def Rota.create (r : Rota α) (x : α) : Rota α := ⟨r.order ++ [x], r.current, r.log ++ [.created x]⟩

/-- The one after the current member has its turn. -/
inductive Next (r : Rota α) : Rota α → Prop where
  | intro {before after rest : List α} {x y : α} : r.order = before ++ x :: after → r.current = some x →
      after ++ before = y :: rest → Next r (r.dispatch y)

inductive Step (r : Rota α) : Rota α → Prop where
  | create {x : α} : x ∉ r.order → Step r (r.create x)
  | first {x : α} {rest : List α} : r.order = x :: rest → r.current = none → Step r (r.dispatch x)
  | next {r' : Rota α} : Next r r' → Step r r'

def Run (r : Rota α) : Prop := Reachable (· = ⟨[], none, []⟩) Step r

/-- Between two turns of a member, every older member and every one that arrived in its first turn
has one turn. -/
def Fair [DecidableEq α] (log : List (Event α)) : Prop :=
  ∀ pre mid post x, log = pre ++ .dispatched x :: (mid ++ .dispatched x :: post) → .dispatched x ∉ mid →
    (∀ y ≠ x, .created y ∈ pre → mid.count (.dispatched y) = 1) ∧
      ∀ y, .created y ∈ mid.takeWhile Event.isCreated → mid.count (.dispatched y) = 1

@[simp] theorem dispatches_append (l l' : List (Event α)) : dispatches (l ++ l') = dispatches l ++ dispatches l' :=
  List.filterMap_append

@[simp] theorem dispatches_created (x : α) : dispatches [Event.created x] = [] := rfl

@[simp] theorem dispatches_dispatched (x : α) : dispatches [Event.dispatched x] = [x] := rfl

theorem count_dispatched [DecidableEq α] (log : List (Event α)) (x : α) :
    log.count (.dispatched x) = (dispatches log).count x := by
  induction log with
  | nil => rfl
  | cons e log ih =>
    cases e with
    | created y =>
      rw [List.count_cons_of_ne (by simp), ih]
      rfl
    | dispatched y =>
      change _ = (y :: dispatches log).count x
      rw [List.count_cons, List.count_cons, ih]
      simp

theorem mem_takeWhile_append {mid : List (Event α)} {e f : Event α}
    (h : e ∈ (mid ++ [f]).takeWhile Event.isCreated) :
    e ∈ mid.takeWhile Event.isCreated ∨ e = f ∧ f.isCreated = true ∧ dispatches mid = [] := by
  induction mid with
  | nil =>
    cases f with
    | created y => exact .inr ⟨List.mem_singleton.mp h, rfl, rfl⟩
    | dispatched y => cases h
  | cons g mid ih =>
    cases g with
    | created y =>
      rw [List.cons_append, List.takeWhile_cons_of_pos rfl] at h
      rw [List.takeWhile_cons_of_pos rfl]
      rcases List.mem_cons.mp h with rfl | h
      · exact .inl List.mem_cons_self
      · rcases ih h with old | ⟨same, new, none⟩
        · exact .inl (List.mem_cons_of_mem _ old)
        · exact .inr ⟨same, new, none⟩
    | dispatched y => cases h

theorem split_unique {before before' after after' : List α} {x : α} (nodup : (before ++ x :: after).Nodup)
    (same : before ++ x :: after = before' ++ x :: after') : before = before' ∧ after = after' := by
  rw [List.nodup_append_comm, List.cons_append, List.nodup_cons, List.mem_append, not_or] at nodup
  obtain ⟨first, _, last⟩ := (List.append_cons_inj_of_notMem nodup.1.2 nodup.1.1).mp same
  exact ⟨first, last⟩

theorem ne_of_nodup {l l' l'' : List α} {x y : α} (nodup : (l ++ x :: (l' ++ y :: l'')).Nodup) : x ≠ y := by
  rintro rfl
  have rest := (List.nodup_append.mp nodup).2.1
  simp at rest

/-! ### The ring -/

/-- The members as their turns come, the current one last. -/
inductive Ring (r : Rota α) : List α → Prop where
  | intro {before after : List α} {x : α} : r.order = before ++ x :: after → r.current = some x →
      Ring r (after ++ before ++ [x])

variable {r r' : Rota α} {pre mid : List (Event α)} {l l' : List α} {x y z : α}

theorem Ring.perm (h : Ring r l) : l.Perm r.order := by
  obtain ⟨order, _⟩ := h
  rw [order, List.append_assoc]
  exact List.perm_append_comm.trans (by simp)

theorem Ring.current (h : Ring r l) : r.current = l.getLast? := by
  obtain ⟨_, current⟩ := h
  rw [current, List.getLast?_concat]

theorem Ring.unique (nodup : r.order.Nodup) (h : Ring r l) (h' : Ring r l') : l = l' := by
  obtain ⟨order, current⟩ := h
  obtain ⟨order', current'⟩ := h'
  cases current.symm.trans current'
  obtain ⟨rfl, rfl⟩ := split_unique (order ▸ nodup) (order.symm.trans order')
  rfl

theorem Ring.create (h : Ring r l) (z : α) :
    ∃ next last, l = next ++ last ∧ last ≠ [] ∧ Ring (r.create z) (next ++ z :: last) := by
  obtain @⟨before, after, x, order, current⟩ := h
  have ring : Ring (r.create z) ((after ++ [z]) ++ before ++ [x]) := .intro (by simp [Rota.create, order]) current
  exact ⟨after, before ++ [x], by simp, by simp, by simpa using ring⟩

theorem Next.ring (h : Next r r') : ∃ y rest, Ring r (y :: rest) ∧ r' = r.dispatch y ∧ Ring r' (rest ++ [y]) := by
  obtain @⟨before, after, rest, x, y, order, current, follow⟩ := h
  have ring : Ring r (after ++ before ++ [x]) := .intro order current
  rw [follow] at ring
  refine ⟨y, rest ++ [x], ring, rfl, ?_⟩
  cases after with
  | cons z after =>
    obtain ⟨rfl, rfl⟩ := List.cons.inj follow
    have ring : Ring (r.dispatch z) (after ++ (before ++ [x]) ++ [z]) := .intro (by simp [Rota.dispatch, order]) rfl
    simpa using ring
  | nil =>
    obtain rfl : before = y :: rest := follow
    have ring : Ring (r.dispatch y) ((rest ++ [x]) ++ [] ++ [y]) := .intro (by simp [Rota.dispatch, order]) rfl
    simpa using ring

/-! ### Since the last turn of one member -/

def Due (pre mid : List (Event α)) (x y : α) : Prop :=
  y ≠ x ∧ .created y ∈ pre ∨ .created y ∈ mid.takeWhile Event.isCreated

theorem Due.of_create (h : Due pre (mid ++ [.created z]) x y) : Due pre mid x y ∨ y = z ∧ dispatches mid = [] := by
  rcases h with old | new
  · exact .inl (.inl old)
  · rcases mem_takeWhile_append new with earlier | ⟨same, _, none⟩
    · exact .inl (.inr earlier)
    · cases same
      exact .inr ⟨rfl, none⟩

theorem Due.of_dispatch (h : Due pre (mid ++ [.dispatched z]) x y) : Due pre mid x y := by
  refine h.imp_right fun new => ?_
  rcases mem_takeWhile_append new with earlier | ⟨same, _⟩
  · exact earlier
  · cases same

/-- The log is `pre`, a turn of `x`, and `mid` since then: `todo` still come before `x`, and `passed` are
those that had a turn and new members that were too late for one. -/
inductive Turn (r : Rota α) (pre mid : List (Event α)) (x : α) : Prop where
  | intro (todo passed : List α) : Ring r (todo ++ x :: passed) → (dispatches mid).Sublist passed →
      (dispatches mid = [] → passed = []) → (∀ y, Due pre mid x y → y ∈ todo ∨ y ∈ dispatches mid) → Turn r pre mid x

structure Round (pre mid : List (Event α)) (x : α) : Prop where
  nodup : (dispatches mid).Nodup
  all : ∀ y, Due pre mid x y → y ∈ dispatches mid

theorem Turn.create (h : Turn r pre mid x) (z : α) : Turn (r.create z) pre (mid ++ [.created z]) x := by
  obtain ⟨todo, passed, ring, turns, start, due⟩ := h
  obtain ⟨next, last, split, nonempty, created⟩ := ring.create z
  have same : dispatches (mid ++ [.created z]) = dispatches mid := by simp
  -- Where the new member is: in front of `x`, or among those that have passed.
  have place : (∃ rest, todo = next ++ rest ∧ last = rest ++ x :: passed) ∨
      ∃ rest, next = todo ++ x :: rest ∧ passed = rest ++ last := by
    rcases List.append_eq_append_iff.mp split with ⟨_ | ⟨g, rest⟩, front, back⟩ | h
    · exact .inl ⟨[], by simpa using front.symm, back.symm⟩
    · obtain ⟨rfl, passed⟩ := List.cons.inj back
      exact .inr ⟨rest, front, passed⟩
    · exact .inl h
  rcases place with ⟨rest, rfl, rfl⟩ | ⟨rest, rfl, rfl⟩
  · refine .intro (next ++ z :: rest) passed (by simpa using created) (same ▸ turns) (same ▸ start) fun y hy => ?_
    rw [same]
    rcases hy.of_create with old | ⟨rfl, _⟩
    · exact (due y old).imp_left fun h => by simp only [List.mem_append, List.mem_cons] at h ⊢; tauto
    · exact .inl (by simp)
  · -- Somebody has had a turn, so the new member is not due.
    have some : dispatches mid ≠ [] := fun none => nonempty (List.append_eq_nil_iff.mp (start none)).2
    refine .intro todo (rest ++ z :: last) (by simpa using created) ?_ (fun none => absurd (same ▸ none) some) fun y hy => ?_
    · rw [same]
      exact turns.trans (by simp)
    · rw [same]
      exact due y (hy.of_create.resolve_right fun new => some new.2)

theorem Turn.next (nodup : r.order.Nodup) (h : Turn r pre mid x) (before : Ring r (y :: l))
    (after : Ring (r.dispatch y) (l ++ [y])) :
    y = x ∧ Round pre mid x ∨ y ≠ x ∧ Turn (r.dispatch y) pre (mid ++ [.dispatched y]) x := by
  obtain ⟨todo, passed, ring, turns, start, due⟩ := h
  have distinct : (todo ++ x :: passed).Nodup := ring.perm.nodup_iff.mpr nodup
  cases todo with
  | nil =>
    cases before.unique nodup ring
    exact .inl ⟨rfl, turns.nodup distinct.of_cons, fun z hz => (due z hz).resolve_left List.not_mem_nil⟩
  | cons t todo =>
    cases before.unique nodup ring
    refine .inr ⟨ne_of_nodup (l := []) distinct, .intro todo (passed ++ [y]) (by simpa using after) ?_ (by simp) ?_⟩
    · simpa using turns.append_right [y]
    · intro z hz
      have := due z hz.of_dispatch
      simp only [dispatches_append, dispatches_dispatched, List.mem_append, List.mem_cons] at this ⊢
      tauto

/-! ### Every run -/

theorem split_concat {log : List (Event α)} {e : Event α} (split : log ++ [e] = pre ++ .dispatched x :: mid) :
    (mid = [] ∧ e = .dispatched x ∧ pre = log) ∨ ∃ mid', mid = mid' ++ [e] ∧ log = pre ++ .dispatched x :: mid' := by
  rcases List.eq_nil_or_concat mid with rfl | ⟨mid, f, rfl⟩
  · obtain ⟨before, last⟩ := List.append_inj' split rfl
    exact .inl ⟨rfl, (List.cons.inj last).1, before.symm⟩
  · have parts : log ++ [e] = (pre ++ .dispatched x :: mid) ++ [f] := by simpa using split
    obtain ⟨before, last⟩ := List.append_inj' parts rfl
    obtain ⟨rfl, _⟩ := List.cons.inj last
    exact .inr ⟨mid, List.concat_eq_append, before⟩

structure Inv [DecidableEq α] (r : Rota α) : Prop where
  nodup : r.order.Nodup
  created : ∀ y, .created y ∈ r.log → y ∈ r.order
  idle : r.current = none → dispatches r.log = []
  turn : ∀ pre mid x, r.log = pre ++ .dispatched x :: mid → .dispatched x ∉ mid → Turn r pre mid x
  fair : Fair r.log

section Runs

variable [DecidableEq α]

theorem Round.fair (h : Round pre mid x) :
    (∀ y ≠ x, .created y ∈ pre → mid.count (.dispatched y) = 1) ∧
      ∀ y, .created y ∈ mid.takeWhile Event.isCreated → mid.count (.dispatched y) = 1 := by
  have once : ∀ y, Due pre mid x y → mid.count (.dispatched y) = 1 := fun y due => by
    rw [count_dispatched]
    exact List.count_eq_one_of_mem h.nodup (h.all y due)
  exact ⟨fun y ne hy => once y (.inl ⟨ne, hy⟩), fun y hy => once y (.inr hy)⟩

theorem Fair.concat {log : List (Event α)} {e : Event α} (h : Fair log)
    (round : ∀ pre mid x, e = .dispatched x → log = pre ++ .dispatched x :: mid → .dispatched x ∉ mid →
      Round pre mid x) :
    Fair (log ++ [e]) := by
  intro pre mid post x split out
  rcases List.eq_nil_or_concat post with rfl | ⟨post, f, rfl⟩
  · have parts : log ++ [e] = (pre ++ .dispatched x :: mid) ++ [.dispatched x] := by simpa using split
    obtain ⟨before, last⟩ := List.append_inj' parts rfl
    exact (round pre mid x (List.cons.inj last).1 before out).fair
  · have parts : log ++ [e] = (pre ++ .dispatched x :: (mid ++ .dispatched x :: post)) ++ [f] := by
      simpa using split
    exact h pre mid post x (List.append_inj' parts rfl).1 out

theorem Inv.start : Inv (⟨[], none, []⟩ : Rota α) where
  nodup := List.nodup_nil
  created _ h := by cases h
  idle _ := rfl
  turn pre mid x split := by simp at split
  fair pre mid post x split := by simp at split

theorem Inv.create (h : Inv r) (fresh : x ∉ r.order) : Inv (r.create x) where
  nodup := List.nodup_append.mpr ⟨h.nodup, List.nodup_singleton x, fun a ha b hb => by
    rintro rfl
    exact fresh (List.mem_singleton.mp hb ▸ ha)⟩
  created y hy := by
    rcases List.mem_append.mp hy with old | new
    · exact List.mem_append_left _ (h.created y old)
    · cases List.mem_singleton.mp new
      exact List.mem_append_right _ List.mem_cons_self
  idle none := by simpa [Rota.create] using h.idle none
  turn pre mid z split out := by
    rcases split_concat split with ⟨_, e, _⟩ | ⟨mid, rfl, before⟩
    · cases e
    · exact (h.turn pre mid z before fun old => out (List.mem_append_left _ old)).create x
  fair := h.fair.concat fun _ _ _ e => by cases e

theorem Inv.dispatch (h : Inv r) (ring : Ring (r.dispatch y) (l ++ [y]))
    (turn : ∀ pre mid x, r.log = pre ++ .dispatched x :: mid → .dispatched x ∉ mid →
      y = x ∧ Round pre mid x ∨ y ≠ x ∧ Turn (r.dispatch y) pre (mid ++ [.dispatched y]) x) : Inv (r.dispatch y) where
  nodup := h.nodup
  created z hz := by
    rcases List.mem_append.mp hz with old | new
    · exact h.created z old
    · cases List.mem_singleton.mp new
  idle none := by cases none
  turn pre mid x split out := by
    rcases split_concat split with ⟨rfl, e, rfl⟩ | ⟨mid, rfl, before⟩
    · cases e
      refine .intro l [] ring (.refl _) (fun _ => rfl) fun z hz => .inl ?_
      obtain ⟨ne, hz⟩ := hz.resolve_right List.not_mem_nil
      have member := ring.perm.mem_iff.mpr (h.created z hz)
      exact (List.mem_append.mp member).resolve_right fun same => ne (List.mem_singleton.mp same)
    · rw [List.mem_append, not_or] at out
      rcases turn pre mid x before out.1 with ⟨rfl, _⟩ | ⟨_, turn⟩
      · exact absurd List.mem_cons_self out.2
      · exact turn
  fair := h.fair.concat fun pre mid x e before out => by
    cases e
    rcases turn pre mid y before out with ⟨_, round⟩ | ⟨ne, _⟩
    · exact round
    · exact absurd rfl ne

theorem Inv.step (h : Inv r) (step : Step r r') : Inv r' := by
  cases step with
  | create fresh => exact h.create fresh
  | @first x rest order none =>
    have ring : Ring (r.dispatch x) (rest ++ [] ++ [x]) := .intro order rfl
    rw [List.append_nil] at ring
    refine h.dispatch ring fun pre mid z before _ => ?_
    have silent := h.idle none
    rw [before, dispatches_append] at silent
    cases (List.append_eq_nil_iff.mp silent).2
  | next next =>
    obtain ⟨y, rest, before, rfl, after⟩ := next.ring
    exact h.dispatch after fun pre mid x split out => (h.turn pre mid x split out).next h.nodup before after

theorem Run.inv (h : Run r) : Inv r := by
  have initial : ∀ r : Rota α, r = ⟨[], none, []⟩ → Inv r := by
    rintro _ rfl
    exact .start
  have kept : ∀ r r' : Rota α, Inv r → Step r r' → Inv r' := fun _ _ => Inv.step
  exact h.invariant initial kept

end Runs

/-! ### One round -/

inductive Turns (r : Rota α) : Nat → Rota α → Prop where
  | none : Turns r 0 r
  | next {n : Nat} {r' r'' : Rota α} : Turns r n r' → Next r' r'' → Turns r (n + 1) r''

theorem Ring.turns {done todo : List α} (nodup : r.order.Nodup) (h : Ring r (done ++ todo))
    (turns : Turns r done.length r') :
    r'.order = r.order ∧ r'.log = r.log ++ done.map .dispatched ∧ Ring r' (todo ++ done) := by
  induction done using List.reverseRecOn generalizing r' todo with
  | nil =>
    cases turns
    exact ⟨rfl, by simp, by simpa using h⟩
  | append_singleton done d ih =>
    rw [List.length_append] at turns
    cases turns with
    | next earlier last =>
      rw [List.append_assoc] at h
      obtain ⟨order, log, ring⟩ := ih h earlier
      obtain ⟨y, rest, before, rfl, after⟩ := last.ring
      obtain ⟨rfl, rfl⟩ := List.cons.inj (before.unique (order ▸ nodup) ring)
      exact ⟨order, by simp [Rota.dispatch, log], by simpa using after⟩

/-- As many turns as there are members: everybody has one, the current member the last. -/
theorem Ring.round (nodup : r.order.Nodup) (h : Ring r l) (turns : Turns r l.length r') :
    r'.log = r.log ++ l.map .dispatched ∧ r'.current = r.current := by
  rw [← List.append_nil l] at h
  obtain ⟨_, log, ring⟩ := h.turns nodup turns
  rw [List.append_nil] at h
  exact ⟨log, ring.current.trans h.current.symm⟩

end Voyager.Lib.RoundRobin
