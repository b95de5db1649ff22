import Voyager.Sched.Dispatch

/-! # The order of the turns -/

namespace Voyager.Sched

open Lib Lib.X86 Lib.RoundRobin Heap ByteSpace

variable {σ : Type} {B : Backing σ} {taskReturned : Word} {s t u : System σ} {next n : Nat}

def System.rota (s : System σ) : Rota Nat where
  order := s.procs
  current := if s.globals.current = 0 then none else some s.globals.current
  log := s.log

theorem rota_switch (h : Inv B taskReturned s) {k : Core} (switch : s.Switch B next k t) :
    t.rota = s.rota.dispatch next ∧ Follows s.procs s.globals.current next := by
  obtain ⟨c, rfl, _, follows⟩ := h.switch_cases switch
  obtain ⟨here, _⟩ := h.follows_member follows
  refine ⟨?_, follows⟩
  simp only [System.rota, Rota.dispatch, switched_procs]
  simp only [System.switched, h.toNat_next here, if_neg (h.pos here)]

theorem rota_next (h : Inv B taskReturned s) {k : Core} (switch : s.Switch B next k t)
    (running : s.globals.current ≠ 0) :
    Next s.rota t.rota := by
  obtain ⟨same, follows⟩ := rota_switch h switch
  rcases follows with ⟨idle, _⟩ | ⟨_, before, after, rest, split, follow⟩
  · exact absurd idle running
  · rw [same]
    exact .intro (x := s.globals.current) split (if_neg running) follow

theorem rota_created (h : Inv B taskReturned s) {p q stack : Nat} {entry : Word} {heap : Heap.State σ}
    {g : Globals σ}
    (alloc : allocProcess B s.globals.heap = .ok (p, stack, heap))
    (run : createProcess B taskReturned s.globals entry = .ok (q, g)) :
    (s.created g q stack entry).rota = s.rota.create q ∧ q ∉ s.procs := by
  obtain ⟨rfl, rfl⟩ := created_run h alloc run
  refine ⟨?_, (created_idle h alloc).1⟩
  simp only [System.rota, Rota.create, System.procs, System.created, List.map_append]
  rfl

theorem rota_step (h : Inv B taskReturned s) (step : s.Step B taskReturned t) :
    t.rota = s.rota ∨ RoundRobin.Step s.rota t.rota := by
  cases step with
  | work core works => exact .inl rfl
  | create alloc run =>
    obtain ⟨same, fresh⟩ := rota_created h alloc run
    rw [same]
    exact .inr (.create fresh)
  | stay run =>
    rcases h.schedule_cases run with ⟨_, rfl, _⟩ | ⟨_, none, _⟩
    · exact .inl rfl
    · cases none
  | @switch next k t switch =>
    by_cases idle : s.globals.current = 0
    · obtain ⟨same, follows⟩ := rota_switch h switch
      rcases follows with ⟨_, rest, split⟩ | ⟨running, _⟩
      · rw [same]
        exact .inr (.first split (if_pos idle))
      · exact absurd idle running
    · exact .inr (.next (rota_next h switch idle))

theorem rota_run (h : s.Run B taskReturned) : RoundRobin.Run s.rota := by
  induction h with
  | start start =>
    obtain ⟨_, init, none, silent⟩ := start
    refine .start ?_
    rw [System.rota, System.procs, none, silent, init]
    rfl
  | step run step ih =>
    rcases rota_step (System.Run.inv run) step with same | step
    · exact same ▸ ih
    · exact .step ih step

/-- `n` calls of `schedule`, with work between them and nothing else. -/
inductive Schedules (B : Backing σ) (s : System σ) : Nat → System σ → Prop where
  | none : Schedules B s 0 s
  | work {n : Nat} {t : System σ} {m : σ} (core : Core) : Schedules B s n t → t.Works B m →
    Schedules B s n { t.withMem m with core }
  | stay {n : Nat} {t : System σ} {g : Globals σ} : Schedules B s n t → schedule B t.globals = .ok (none, g) →
      Schedules B s (n + 1) { t with globals := g }
  | switch {n next : Nat} {k : Core} {t u : System σ} : Schedules B s n t → t.Switch B next k u →
    Schedules B s (n + 1) u

theorem Schedules.turns (h : Schedules B s n t) (run : s.Run B taskReturned) (running : s.globals.current ≠ 0)
    (several : 2 ≤ s.procs.length) :
    Turns s.rota n t.rota ∧ t.Run B taskReturned ∧ t.globals.current ≠ 0 ∧ 2 ≤ t.procs.length := by
  induction h with
  | none => exact ⟨.none, run, running, several⟩
  | work core _ works ih =>
    obtain ⟨turns, run, running, several⟩ := ih
    exact ⟨turns, .step run (.work core works), running, several⟩
  | stay _ stay ih =>
    obtain ⟨_, run, _, several⟩ := ih
    rcases run.inv.schedule_cases stay with ⟨_, _, empty | single⟩ | ⟨_, none, _⟩
    · rw [empty] at several
      simp at several
    · rw [single] at several
      simp at several
    · cases none
  | switch _ switch ih =>
    obtain ⟨turns, run, running, several⟩ := ih
    have inv := run.inv
    obtain ⟨same, follows⟩ := rota_switch inv switch
    have order := congrArg Rota.order same
    refine ⟨.next turns (rota_next inv switch running), .step run (.switch switch), ?_, ?_⟩
    · have current := congrArg Rota.current same
      simp only [System.rota, Rota.dispatch] at current
      split at current
      · cases current
      · assumption
    · change 2 ≤ (System.rota _).order.length
      rw [order]
      exact several

theorem Inv.ring (h : Inv B taskReturned s) (running : s.globals.current ≠ 0) : ∃ l, Ring s.rota l := by
  obtain ⟨before, after, split⟩ := List.append_of_mem (h.queue.current.resolve_left running)
  exact ⟨_, .intro split (if_neg running)⟩

/-- Every task waits for every other once, and nobody is left out of a round. -/
theorem round_robin (h : s.Run B taskReturned) :
    Fair s.log ∧ ∀ t, s.globals.current ≠ 0 → 2 ≤ s.procs.length → Schedules B s s.procs.length t →
      ∃ round : List Nat, t.log = s.log ++ round.map .dispatched ∧ round.Perm s.procs ∧
        t.globals.current = s.globals.current := by
  refine ⟨(rota_run h).inv.fair, fun t running several schedules => ?_⟩
  obtain ⟨turns, _, running', _⟩ := schedules.turns h running several
  obtain ⟨l, ring⟩ := h.inv.ring running
  have members : l.Perm s.procs := ring.perm
  rw [← members.length_eq] at turns
  obtain ⟨log, current⟩ := ring.round h.inv.placed.distinct turns
  refine ⟨l, log, members, ?_⟩
  simp only [System.rota, if_neg running, if_neg running'] at current
  exact Option.some.inj current

theorem round_robin_pair : ∃ (s t : System Client.FlatMemory) (a b : Nat),
    s.Run Client.flatBacking 0x1000 ∧ s.procs = [a, b] ∧
    s.globals.current = a ∧ Schedules Client.flatBacking s s.procs.length t ∧ Fair s.log ∧
    ∃ round : List Nat, t.log = s.log ++ round.map .dispatched ∧ round.Perm s.procs ∧
      t.globals.current = s.globals.current := by
  obtain ⟨s, t, v, a, b, k, k', run, procs, current, pos, away, back⟩ := flat_round 0x1000
  have both : Schedules Client.flatBacking s s.procs.length v := by
    rw [procs]
    exact .switch (.switch .none away) back
  obtain ⟨fair, rounds⟩ := round_robin run
  exact ⟨s, v, a, b, run, procs, current, both, fair, rounds v (current ▸ pos) (by simp [procs]) both⟩

end Voyager.Sched
