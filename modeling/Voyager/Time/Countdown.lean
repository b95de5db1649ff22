import Voyager.Time.Timers

/-!
# When a timer fires

Where `timespec_sub` borrows a second it adds the missing nanoseconds instead of taking them
off, so the remainder of the interval is mirrored at every second.
-/

namespace Voyager.Time

open Clock

def step : Nat := 1333333

theorem interval_eq : interval = ⟨0, step⟩ := by decide

def dueTicks (when : Timespec) : Nat :=
  ((when.sec * 1000000000 + when.nsec + (interval.nsec - 1)) / interval.nsec).toNat

structure Normalised (when : Timespec) : Prop where
  sec : 0 ≤ when.sec
  nsec : 0 ≤ when.nsec
  lt : when.nsec < 1000000000
  nonzero : ¬ (when.sec = 0 ∧ when.nsec = 0)

/-! ### One timer -/

/-- The tick that fires a timer of `s` seconds and `n` nanoseconds. -/
def fireTick : Nat → Nat → Nat
  | 0, n => (n + (step - 1)) / step
  | s + 1, n => n / step + 1 + fireTick s (999999999 + (step - n % step))

variable {s n k : Nat}

theorem sub_within (enough : step ≤ n) : timespecSub ⟨s, n⟩ interval = ⟨s, ((n - step : Nat) : Int)⟩ := by
  rw [interval_eq, Timespec.timespecSub_within (by dsimp only; omega) (by dsimp only; omega), Nat.cast_sub enough]
  simp only [Int.sub_zero]

theorem sub_borrow (short : n < step) :
    timespecSub ⟨(s + 1 : Nat), n⟩ interval = ⟨s, ((999999999 + (step - n) : Nat) : Int)⟩ := by
  rw [interval_eq, Timespec.timespecSub_borrow (by dsimp only; omega) (by decide) (by dsimp only; omega),
    Timespec.mk.injEq]
  dsimp only
  omega

theorem sub_last (short : n ≤ step) : timespecSub ⟨0, n⟩ interval = ⟨0, 0⟩ := by
  rw [interval_eq]
  unfold timespecSub
  dsimp only
  split_ifs <;> first | rfl | (simp only [Timespec.mk.injEq] at *; omega)

theorem countDown_eq (index : Int) (when : Timespec) :
    countDown ⟨index, false, when⟩ = ⟨index, decide ((timespecSub when interval).sec = 0 ∧
      (timespecSub when interval).nsec = 0),
      timespecSub when interval⟩ := rfl

theorem countDown_step (pos : 0 < s ∨ 0 < n) (index : Int) :
    (fireTick s n = 1 ∧ (countDown ⟨index, false, ⟨s, n⟩⟩).fired = true) ∨
      ∃ s' n' : Nat, (0 < s' ∨ 0 < n') ∧ fireTick s n = fireTick s' n' + 1 ∧
        countDown ⟨index, false, ⟨s, n⟩⟩ = ⟨index, false, ⟨s', n'⟩⟩ := by
  have running : ∀ s n : Nat, 0 < s ∨ 0 < n → decide ((s : Int) = 0 ∧ (n : Int) = 0) = false := fun s n pos => by
    rw [decide_eq_false_iff_not]
    omega
  match s with
  | 0 =>
    by_cases last : n ≤ step
    · left
      rw [countDown_eq, Nat.cast_zero, sub_last last]
      refine ⟨?_, rfl⟩
      unfold fireTick step at *
      omega
    · right
      have left : 0 < 0 ∨ 0 < n - step := by omega
      refine ⟨0, n - step, left, ?_, ?_⟩
      · unfold fireTick step at *
        omega
      · rw [countDown_eq, sub_within (by omega), running _ _ left]
  | s + 1 =>
    right
    by_cases short : n < step
    · have left : 0 < s ∨ 0 < 999999999 + (step - n) := by omega
      refine ⟨s, 999999999 + (step - n), left, ?_, ?_⟩
      · rw [fireTick, Nat.div_eq_of_lt short, Nat.mod_eq_of_lt short]
        omega
      · rw [countDown_eq, sub_borrow short, running _ _ left]
    · have left : 0 < s + 1 ∨ 0 < n - step := by omega
      refine ⟨s + 1, n - step, left, ?_, ?_⟩
      · rw [fireTick, fireTick, ← Nat.mod_eq_sub_mod (by omega)]
        unfold step at *
        omega
      · rw [countDown_eq, sub_within (by omega), running _ _ left]

theorem countDown_fired {t : Timer} (fired : t.fired = true) : countDown t = t := if_pos fired

theorem fires_iff (pos : 0 < s ∨ 0 < n) (index : Int) :
    (countDown^[k] ⟨index, false, ⟨s, n⟩⟩).fired = true ↔ fireTick s n ≤ k := by
  induction k generalizing s n with
  | zero =>
    have late : ¬ fireTick s n ≤ 0 := by
      rcases countDown_step pos index with ⟨last, _⟩ | ⟨_, _, _, later, _⟩ <;> omega
    simp [late]
  | succ k ih =>
    rw [Function.iterate_succ_apply]
    rcases countDown_step pos index with ⟨last, fired⟩ | ⟨s', n', pos', later, next⟩
    · rw [Function.iterate_fixed (countDown_fired fired), last]
      exact iff_of_true fired (by omega)
    · rw [next, ih pos', later]
      omega

/-! ### How late that is -/

theorem fireTick_low (low : n % step ≤ 249) : n / step + 752 * s ≤ fireTick s n := by
  induction s generalizing n with
  | zero =>
    unfold fireTick step at *
    omega
  | succ s ih =>
    have rest : (999999999 + (step - n % step)) % step ≤ 249 := by
      unfold step at *
      omega
    have later := ih rest
    rw [fireTick]
    unfold step at *
    omega

theorem fireTick_high (high : 249 < n % step) : fireTick s n = n / step + 751 * s + 1 := by
  induction s generalizing n with
  | zero =>
    unfold fireTick step at *
    omega
  | succ s ih =>
    have rest : 249 < (999999999 + (step - n % step)) % step := by
      unfold step at *
      omega
    rw [fireTick, ih rest]
    unfold step at *
    omega

theorem fireTick_due_iff : fireTick s n = (s * 1000000000 + n + (step - 1)) / step ↔
    s = 0 ∨ s = 1 ∧ step - 249 ≤ n % step := by
  by_cases low : n % step ≤ 249
  · have late := fireTick_low (s := s) low
    match s with
    | 0 =>
      unfold fireTick
      simp
    | s + 1 =>
      unfold step at *
      omega
  · rw [fireTick_high (by omega)]
    unfold step at *
    omega

/-! ### A timer among others -/

namespace History

variable {h h₁ h' : History} {p i : Nat} {c : Clock} {armed : Vec Nat} {timers timers' : Nat → Timer} {when : Timespec}
  {a : Action}

theorem countAll_other (sized : armed.Sized 8) (fits : i + n ≤ armed.length)
    (other : ∀ j, i ≤ j → j < i + n → armed.data j ≠ p) (run : countAll armed timers i n = some timers') :
    timers' p = timers p := by
  induction n generalizing timers i with
  | zero =>
    cases run
    rfl
  | succ n ih =>
    unfold countAll at run
    rw [sized.vectorItem (by omega)] at run
    rw [ih (i := i + 1) (by omega) (fun j low high => other j (by omega) (by omega)) run,
      Function.update_of_ne (other i (by omega) (by omega)).symm]

theorem countAll_once {j : Nat} (sized : armed.Sized 8) (fits : i + n ≤ armed.length) (low : i ≤ j) (high : j < i + n)
    (here : armed.data j = p) (once : ∀ l < armed.length, armed.data l = p → l = j)
    (run : countAll armed timers i n = some timers') : timers' p = countDown (timers p) := by
  induction n generalizing timers i with
  | zero => omega
  | succ n ih =>
    unfold countAll at run
    rw [sized.vectorItem (by omega)] at run
    by_cases first : j = i
    · have other : ∀ l, i + 1 ≤ l → l < i + 1 + n → armed.data l ≠ p := fun l low high same => by
        have := once l (by omega) same
        omega
      rw [countAll_other sized (by omega) other run, ← first, here, Function.update_self]
    · rw [ih (i := i + 1) (by omega) (by omega) (by omega) run, Function.update_of_ne fun same => ?_]
      have := once i (by omega) same.symm
      omega

theorem Consistent.tick_timer (k : Consistent h) (held : p ∈ h.held) (run : h.clock.sysClockHandler true = some c) :
    c.timers p = countDown (h.clock.timers p) := by
  obtain ⟨c', run', _, _, _, counted⟩ := sysClockHandler_run k.sized true
  cases run'.symm.trans run
  obtain ⟨i, lt, here⟩ := (k.listed p).mp held
  have once : ∀ l < h.clock.armed.length, h.clock.armed.data l = p → l = i :=
    fun l lt' same => k.distinct lt' lt (same.trans here.symm)
  exact countAll_once k.sized (by omega) (Nat.zero_le i) (by omega) here once (counted rfl)

/-- `k` ticks got the lock, and `p` was left armed. -/
inductive Left (p : Nat) (h : History) : Nat → History → Prop where
  | start : Left p h 0 h
  | tick {k : Nat} {h' h'' : History} : Left p h k h' → h'.act (.tick true) = some h'' → Left p h (k + 1) h''
  | other {k : Nat} {h' h'' : History} {a : Action} : Left p h k h' → h'.Allowed a → a ≠ .disarm p → a ≠ .tick true →
    h'.act a = some h'' → Left p h k h''

def reading (t : Timer) : Bool × Timespec := (t.fired, t.when)

theorem reading_countDown {t t' : Timer} (same : reading t = reading t') :
    reading (countDown t) = reading (countDown t') := by
  obtain ⟨fired, when⟩ := Prod.mk.inj same
  unfold countDown
  rw [fired, when]
  split
  · exact same
  · rfl

theorem act_reading (k : Consistent h) (held : p ∈ h.held) (allowed : h.Allowed a) (kept : a ≠ .disarm p)
    (quiet : a ≠ .tick true) (run : h.act a = some h') :
    p ∈ h'.held ∧ reading (h'.clock.timers p) = reading (h.clock.timers p) := by
  obtain ⟨permitted, careful⟩ := allowed
  cases a with
  | new q raw when block =>
    obtain ⟨out, grows⟩ := permitted
    have ne : p ≠ q := fun same => out (same ▸ held)
    by_cases null : q = 0
    · subst null
      cases run
      exact ⟨held, rfl⟩
    · obtain ⟨c, made, _, timers⟩ := act_new null k.sized grows
      cases made.symm.trans run
      refine ⟨Finset.mem_insert_of_mem held, ?_⟩
      change reading (c.timers p) = _
      rw [timers, Function.update_of_ne ne]
  | arm q block =>
    obtain ⟨out, grows⟩ := permitted
    have ne : p ≠ q := fun same => out (same ▸ held)
    obtain ⟨c, made, _, timers⟩ := act_arm k.sized grows
    cases made.symm.trans run
    refine ⟨Finset.mem_insert_of_mem held, ?_⟩
    change reading (c.timers p) = _
    rw [timers, Function.update_of_ne ne]
  | disarm q =>
    obtain ⟨c, made, _, _, frame⟩ := k.disarm careful
    cases (act_disarm made).symm.trans run
    exact ⟨Finset.mem_erase.mpr ⟨fun same => kept (same ▸ rfl), held⟩, Prod.ext (frame p).1 (frame p).2⟩
  | tick obtained =>
    cases obtained with
    | true => exact absurd rfl quiet
    | false =>
      obtain ⟨c, made, _, _, same, _⟩ := sysClockHandler_run k.sized false
      cases (act_tick made).symm.trans run
      exact ⟨held, congrArg (fun timers => reading (timers p)) (same rfl)⟩

theorem Left.reading (run : Run h) (held : p ∈ h.held) (left : Left p h k h') :
    Run h' ∧ p ∈ h'.held ∧ reading (h'.clock.timers p) = reading (countDown^[k] (h.clock.timers p)) := by
  induction left with
  | start => exact ⟨run, held, rfl⟩
  | tick _ step ih =>
    obtain ⟨run', held', same⟩ := ih
    have next := run'.step ⟨.tick true, ⟨trivial, trivial⟩, step⟩
    obtain ⟨c, ticked, done⟩ := Option.bind_eq_some_iff.mp step
    cases done
    refine ⟨next, held', ?_⟩
    rw [Function.iterate_succ_apply']
    exact (congrArg History.reading (run'.consistent.tick_timer held' ticked)).trans (reading_countDown same)
  | other _ allowed kept quiet step ih =>
    obtain ⟨run', held', same⟩ := ih
    obtain ⟨held'', frame⟩ := act_reading run'.consistent held' allowed kept quiet step
    exact ⟨run'.step ⟨_, allowed, step⟩, held'', frame.trans same⟩

def Arms (h : History) (p : Nat) (when : Timespec) : Action → Prop
  | .new q _ w _ => q = p ∧ p ≠ 0 ∧ w = when
  | .arm q _ => q = p ∧ (h.clock.timers p).when = when
  | _ => False

/-- However the timer is armed and whatever happens to the others, it fires with the
tick in which its time is over. -/
def OnTime (when : Timespec) : Prop :=
  ∀ h a p, Run h → h.Allowed a → Arms h p when a → ∃ h₁, h.act a = some h₁ ∧
    ∀ k h', Left p h₁ k h' → (k < dueTicks when → (h'.clock.timers p).fired = false) ∧
      (dueTicks when ≤ k → (h'.clock.timers p).fired = true)

theorem Arms.reading (consistent : Consistent h) (allowed : h.Allowed a) (arms : Arms h p when a) :
    ∃ h₁, h.act a = some h₁ ∧ p ∈ h₁.held ∧ reading (h₁.clock.timers p) = (false, when) := by
  obtain ⟨permitted, _⟩ := allowed
  cases a with
  | new q raw w block =>
    obtain ⟨rfl, nonzero, rfl⟩ := arms
    obtain ⟨c, made, _, timers⟩ := act_new nonzero consistent.sized permitted.2
    refine ⟨_, made, Finset.mem_insert_self _ _, ?_⟩
    change History.reading (c.timers q) = _
    rw [timers, Function.update_self]
    rfl
  | arm q block =>
    obtain ⟨rfl, rfl⟩ := arms
    obtain ⟨c, made, _, timers⟩ := act_arm consistent.sized permitted.2
    refine ⟨_, made, Finset.mem_insert_self _ _, ?_⟩
    change History.reading (c.timers q) = _
    rw [timers, Function.update_self]
    rfl
  | disarm | tick => cases arms

theorem normalised_eq (norm : Normalised when) : when = ⟨when.sec.toNat, when.nsec.toNat⟩ := by
  have sec := Int.toNat_of_nonneg norm.sec
  have nsec := Int.toNat_of_nonneg norm.nsec
  rw [sec, nsec]

theorem dueTicks_eq (norm : Normalised when) :
    dueTicks when = (when.sec.toNat * 1000000000 + when.nsec.toNat + (step - 1)) / step := by
  have sec := norm.sec
  have nsec := norm.nsec
  unfold dueTicks
  rw [interval_eq]
  unfold step
  dsimp only
  omega

theorem Arms.fired_iff (norm : Normalised when) (run : Run h) (allowed : h.Allowed a) (arms : Arms h p when a) :
    ∃ h₁, h.act a = some h₁ ∧ ∀ k h', Left p h₁ k h' →
      ((h'.clock.timers p).fired = true ↔ fireTick when.sec.toNat when.nsec.toNat ≤ k) := by
  obtain ⟨h₁, step, held, armed⟩ := arms.reading run.consistent allowed
  refine ⟨h₁, step, fun k h' left => ?_⟩
  obtain ⟨_, _, same⟩ := left.reading (run.step ⟨a, allowed, step⟩) held
  obtain ⟨off, start⟩ := Prod.mk.inj armed
  have timer : h₁.clock.timers p = ⟨(h₁.clock.timers p).index, false, ⟨when.sec.toNat, when.nsec.toNat⟩⟩ := by
    rw [← normalised_eq norm, ← off, ← start]
  have pos : 0 < when.sec.toNat ∨ 0 < when.nsec.toNat := by
    have := norm.nonzero
    have := norm.sec
    have := norm.nsec
    omega
  rw [(Prod.mk.inj same).1, timer, fires_iff pos]

/-! ### One timer and its ticks -/

theorem Run.left_ticks (run : Run h) (p k : Nat) : ∃ h', Left p h k h' ∧ Run h' := by
  induction k with
  | zero => exact ⟨h, .start, run⟩
  | succ k ih =>
    obtain ⟨h', left, run'⟩ := ih
    have allowed : h'.Allowed (.tick true) := ⟨trivial, trivial⟩
    obtain ⟨h'', step, _⟩ := run'.consistent.act allowed
    exact ⟨h'', .tick left step, run'.step ⟨_, allowed, step⟩⟩

def newTimer (when : Timespec) : Action := .new 4096 ⟨7, true, ⟨0, 0⟩⟩ when fun _ => 0

theorem newTimer_allowed (when : Timespec) : zeroed.Allowed (newTimer when) := ⟨⟨by simp [zeroed], zeroed_grows⟩, trivial⟩

theorem newTimer_arms (when : Timespec) : Arms zeroed 4096 when (newTimer when) := ⟨rfl, by decide, rfl⟩

theorem newTimer_fired_iff (norm : Normalised when) (k : Nat) :
    ∃ h₁ h', zeroed.act (newTimer when) = some h₁ ∧ Left 4096 h₁ k h' ∧
      ((h'.clock.timers 4096).fired = true ↔ fireTick when.sec.toNat when.nsec.toNat ≤ k) := by
  have run : Run zeroed := .start zeroed_start
  obtain ⟨h₁, step, fires⟩ := (newTimer_arms when).fired_iff norm run (newTimer_allowed when)
  obtain ⟨h', left, _⟩ := Run.left_ticks (run.step ⟨_, newTimer_allowed when, step⟩) 4096 k
  exact ⟨h₁, h', step, left, fires k h' left⟩

theorem onTime_iff_fireTick (norm : Normalised when) :
    OnTime when ↔ fireTick when.sec.toNat when.nsec.toNat = dueTicks when := by
  constructor
  · intro onTime
    have due : ∀ k, (k < dueTicks when → ¬ fireTick when.sec.toNat when.nsec.toNat ≤ k) ∧
        (dueTicks when ≤ k → fireTick when.sec.toNat when.nsec.toNat ≤ k) := fun k => by
      obtain ⟨h₁, h', step, left, fires⟩ := newTimer_fired_iff norm k
      obtain ⟨h₂, step', timely⟩ := onTime zeroed _ 4096 (.start zeroed_start) (newTimer_allowed when) (newTimer_arms when)
      cases step'.symm.trans step
      obtain ⟨early, late⟩ := timely k h' left
      refine ⟨fun lt fired => ?_, fun le => fires.mp (late le)⟩
      have := fires.mpr fired
      rw [early lt] at this
      cases this
    apply Nat.le_antisymm
    · exact (due _).2 (Nat.le_refl _)
    · by_contra early
      exact (due _).1 (Nat.lt_of_not_le early) (Nat.le_refl _)
  · intro due h a p run allowed arms
    obtain ⟨h₁, step, fires⟩ := arms.fired_iff norm run allowed
    refine ⟨h₁, step, fun k h' left => ?_⟩
    have fired := fires k h' left
    rw [due] at fired
    refine ⟨fun early => ?_, fired.mpr⟩
    rw [← Bool.not_eq_true, fired]
    omega

/-- A timer fires on time exactly if it never borrows a second, or borrows one whose error
is hidden by the last interval. -/
theorem onTime_iff (norm : Normalised when) :
    OnTime when ↔ when.sec = 0 ∨ when.sec = 1 ∧ interval.nsec - 249 ≤ when.nsec % interval.nsec := by
  have sec := norm.sec
  have nsec := norm.nsec
  rw [onTime_iff_fireTick norm, dueTicks_eq norm, fireTick_due_iff, interval_eq]
  unfold step
  dsimp only
  omega

theorem onTime_half : Normalised ⟨0, 500000000⟩ ∧ OnTime ⟨0, 500000000⟩ := by
  have norm : Normalised ⟨0, 500000000⟩ := ⟨by decide, by decide, by decide, by decide⟩
  exact ⟨norm, (onTime_iff norm).mpr (.inl rfl)⟩

/-- One second is over after 751 intervals; its timer fires two ticks later. -/
theorem one_second_late : dueTicks ⟨1, 0⟩ = 751 ∧ (∃ h₁ h', zeroed.act (newTimer ⟨1, 0⟩) = some h₁ ∧
    Left 4096 h₁ 751 h' ∧ (h'.clock.timers 4096).fired = false) ∧ ¬ OnTime ⟨1, 0⟩ := by
  have norm : Normalised ⟨1, 0⟩ := ⟨by decide, by decide, by decide, by decide⟩
  have due : dueTicks ⟨1, 0⟩ = 751 := by decide
  have late : fireTick 1 0 = 753 := by decide
  refine ⟨due, ?_, ?_⟩
  · obtain ⟨h₁, h', step, left, fires⟩ := newTimer_fired_iff norm 751
    refine ⟨h₁, h', step, left, ?_⟩
    rw [← Bool.not_eq_true, fires]
    change ¬ fireTick 1 0 ≤ 751
    omega
  · rw [onTime_iff_fireTick norm, due]
    change fireTick 1 0 ≠ 751
    omega

end History

end Voyager.Time
