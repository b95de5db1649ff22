import Mathlib.Logic.Function.Iterate
import Voyager.Access

/-!
# Stack traces

The counter of `stack_trace` is a `uint8_t` and its limit a `uint64_t`: a limit above 255 is
never reached. The lines around the addresses are left out.
-/

namespace Voyager.Diagnostics

open Lib ByteSpace

section

variable {σ : Type} (S : ByteSpace σ) (m : σ)

/-- The loop of `stack_trace` with the addresses it prints; `fuel` bounds the frames. -/
def traceFrom (maxFrames : UInt64) (stk : Nat) (frame : UInt8) : Nat → Kernel (List Nat)
  | 0 => .error .endless
  | fuel + 1 =>
    if stk ≠ 0 ∧ frame.toUInt64 < maxFrames then do
      let rip ← readField S m (stk + 8) 8
      let rbp ← readField S m stk 8
      return rip :: (← traceFrom maxFrames rbp (frame + 1) fuel)
    else return []

/-- `max_frames` after zero was replaced by `k_mode.stack_trace_size`. -/
def frameLimit (stackTraceSize : UInt8) (maxFrames : UInt64) : UInt64 :=
  if maxFrames = 0 then stackTraceSize.toUInt64 else maxFrames

def stackTrace (stackTraceSize : UInt8) (maxFrames : UInt64) (rbp fuel : Nat) : Kernel (List Nat) :=
  traceFrom S m (frameLimit stackTraceSize maxFrames) rbp 0 fuel

def chain (rbp n : Nat) : Nat := (fun stk => S.load m stk 8)^[n] rbp

def returnAddress (rbp n : Nat) : Nat := S.load m (chain S m rbp n + 8) 8

def EndsAfter (rbp n : Nat) : Prop := chain S m rbp n = 0 ∧ ∀ i < n, chain S m rbp i ≠ 0

def NeverEnds (rbp : Nat) : Prop := ∀ i, chain S m rbp i ≠ 0

def Frames (rbp : Nat) : Prop := ∀ i, (∀ j ≤ i, chain S m rbp j ≠ 0) → Readable S m (chain S m rbp i) 16

def addresses (rbp n : Nat) : List Nat := (List.range n).map (returnAddress S m rbp)

/-- The trace comes back after the frames of the chain, at most `limit` of them. -/
def Respects (stackTraceSize : UInt8) (maxFrames : UInt64) (rbp limit : Nat) : Prop :=
  (∀ n, EndsAfter S m rbp n →
    ∃ fuel, stackTrace S m stackTraceSize maxFrames rbp fuel = .ok (addresses S m rbp (min n limit))) ∧
  (NeverEnds S m rbp →
    ∃ fuel, stackTrace S m stackTraceSize maxFrames rbp fuel = .ok (addresses S m rbp limit))

end

variable {σ : Type} {S : ByteSpace σ} {m : σ} {limit maxFrames : UInt64} {stackTraceSize : UInt8} {rbp k n fuel : Nat}

theorem chain_succ (S : ByteSpace σ) (m : σ) (rbp n : Nat) : chain S m rbp (n + 1) = S.load m (chain S m rbp n) 8 :=
  Function.iterate_succ_apply' _ _ _

theorem EndsAfter.unique {n' : Nat} (h : EndsAfter S m rbp n) (h' : EndsAfter S m rbp n') : n = n' := by
  by_contra ne
  rcases Nat.lt_or_gt_of_ne ne with lt | gt
  · exact h'.2 n lt h.1
  · exact h.2 n' gt h'.1

theorem endsAfter_or_neverEnds (S : ByteSpace σ) (m : σ) (rbp : Nat) :
    (∃ n, EndsAfter S m rbp n) ∨ NeverEnds S m rbp := by
  by_cases ends : ∃ n, chain S m rbp n = 0
  · classical
    exact .inl ⟨Nat.find ends, Nat.find_spec ends, fun i lt => Nat.find_min ends lt⟩
  · exact .inr fun i zero => ends ⟨i, zero⟩

theorem counter_toNat (k : Nat) : (UInt8.ofNat k).toUInt64.toNat = k % 256 := by
  simp

theorem traceFrom_run (frames : Frames S m rbp) (live : ∀ i < k + n, chain S m rbp i ≠ 0)
    (counts : ∀ i < n, (k + i) % 256 < limit.toNat)
    (stops : chain S m rbp (k + n) = 0 ∨ limit.toNat ≤ (k + n) % 256) :
    traceFrom S m limit (chain S m rbp k) (UInt8.ofNat k) (n + 1) =
      .ok ((List.range n).map fun i => returnAddress S m rbp (k + i)) := by
  induction n generalizing k with
  | zero =>
    rw [traceFrom, if_neg]
    · rfl
    · rw [UInt64.lt_iff_toNat_lt, counter_toNat]
      rintro ⟨more, below⟩
      rcases stops with null | high
      · exact more null
      · exact Nat.not_lt_of_le high below
  | succ n ih =>
    have here : Readable S m (chain S m rbp k) 16 := frames k fun j le => live j (by omega)
    have rip : Readable S m (chain S m rbp k + 8) 8 := fun i lt => by
      rw [Nat.add_assoc]
      exact here _ (by omega)
    have saved : Readable S m (chain S m rbp k) 8 := fun i lt => here i (by omega)
    have rest := ih (k := k + 1) (fun i lt => live i (by omega))
      (fun i lt => by
        have := counts (i + 1) (by omega)
        rwa [show k + (i + 1) = k + 1 + i by omega] at this)
      (by rwa [show k + 1 + n = k + (n + 1) by omega])
    have first := counts 0 (by omega)
    rw [Nat.add_zero] at first
    rw [traceFrom, if_pos, bind_eq (readField_ok rip), bind_eq (readField_ok saved), ← chain_succ,
      show UInt8.ofNat k + 1 = UInt8.ofNat (k + 1) from (UInt8.ofNat_add k 1).symm, bind_eq rest]
    · rw [List.range_succ_eq_map, List.map_cons, List.map_map]
      simp only [Function.comp_def, Nat.succ_eq_add_one, Nat.add_assoc, Nat.add_comm 1]
      rfl
    · rw [UInt64.lt_iff_toNat_lt, counter_toNat]
      exact ⟨live k (by omega), first⟩

/-- With a limit that the counter cannot reach, only the end of the chain ends the loop. -/
theorem traceFrom_wide {stk : Nat} {frame : UInt8} {printed : List Nat} (wide : 256 ≤ limit.toNat)
    (at_k : stk = chain S m rbp k) (run : traceFrom S m limit stk frame fuel = .ok printed) :
    chain S m rbp (k + printed.length) = 0 ∧ ∀ i < printed.length, chain S m rbp (k + i) ≠ 0 := by
  induction fuel generalizing stk frame k printed with
  | zero => cases run
  | succ fuel ih =>
    have below : frame.toUInt64 < limit := by
      have := frame.toNat_lt
      rw [UInt64.lt_iff_toNat_lt, UInt8.toNat_toUInt64]
      omega
    unfold traceFrom at run
    split at run
    · rename_i more
      obtain ⟨rip, _, run⟩ := bind_ok run
      obtain ⟨saved, read, run⟩ := bind_ok run
      obtain ⟨rest, later, run⟩ := bind_ok run
      cases run
      have next : saved = chain S m rbp (k + 1) := by
        rw [chain_succ, ← at_k]
        unfold readField at read
        split at read
        · cases read
          rfl
        · cases read
      obtain ⟨null, live⟩ := ih next later
      rw [List.length_cons]
      refine ⟨by rwa [show k + (rest.length + 1) = k + 1 + rest.length by omega], fun i lt => ?_⟩
      cases i with
      | zero => exact at_k ▸ more.1
      | succ i =>
        rw [show k + (i + 1) = k + 1 + i by omega]
        exact live i (by omega)
    · rename_i stop
      cases run
      refine ⟨?_, fun i lt => absurd lt (Nat.not_lt_zero i)⟩
      by_contra more
      exact stop ⟨at_k ▸ more, below⟩

theorem stackTrace_run (frames : Frames S m rbp) (live : ∀ i < n, chain S m rbp i ≠ 0)
    (counts : ∀ i < n, i % 256 < (frameLimit stackTraceSize maxFrames).toNat)
    (stops : chain S m rbp n = 0 ∨ (frameLimit stackTraceSize maxFrames).toNat ≤ n % 256) :
    stackTrace S m stackTraceSize maxFrames rbp (n + 1) = .ok (addresses S m rbp n) := by
  have run := traceFrom_run (k := 0) (n := n) frames (by rwa [Nat.zero_add]) (by simpa using counts)
    (by rwa [Nat.zero_add])
  simp only [Nat.zero_add] at run
  exact run

theorem stackTrace_wide {printed : List Nat} (wide : 256 ≤ (frameLimit stackTraceSize maxFrames).toNat)
    (run : stackTrace S m stackTraceSize maxFrames rbp fuel = .ok printed) : EndsAfter S m rbp printed.length := by
  have ends := traceFrom_wide (k := 0) wide rfl run
  simp only [Nat.zero_add] at ends
  exact ends

/-- The trace keeps to its limit exactly if the limit fits the counter or the chain is not longer
than the limit. -/
theorem stackTrace_respects_iff (frames : Frames S m rbp) (stackTraceSize : UInt8) (maxFrames : UInt64) :
    Respects S m stackTraceSize maxFrames rbp (frameLimit stackTraceSize maxFrames).toNat ↔
      (frameLimit stackTraceSize maxFrames).toNat ≤ 255 ∨
        ∃ n, EndsAfter S m rbp n ∧ n ≤ (frameLimit stackTraceSize maxFrames).toNat := by
  constructor
  · rintro ⟨ended, endless⟩
    by_contra neither
    push Not at neither
    obtain ⟨wide, long⟩ := neither
    rcases endsAfter_or_neverEnds S m rbp with ⟨n, ends⟩ | never
    · obtain ⟨fuel, run⟩ := ended n ends
      have all := (stackTrace_wide wide run).unique ends
      have := long n ends
      simp only [addresses, List.length_map, List.length_range] at all
      omega
    · obtain ⟨fuel, run⟩ := endless never
      exact never _ (stackTrace_wide wide run).1
  · intro fine
    constructor
    · intro n ends
      refine ⟨min n _ + 1, stackTrace_run frames (fun i lt => ends.2 i (by omega)) ?_ ?_⟩
      · intro i lt
        omega
      · rcases Nat.le_total n (frameLimit stackTraceSize maxFrames).toNat with short | long
        · rw [Nat.min_eq_left short]
          exact .inl ends.1
        · rw [Nat.min_eq_right long]
          rcases fine with narrow | ⟨n', ends', le⟩
          · exact .inr (by omega)
          · rw [ends'.unique ends] at le
            rw [← Nat.le_antisymm le long]
            exact .inl ends.1
    · intro never
      have narrow : (frameLimit stackTraceSize maxFrames).toNat ≤ 255 :=
        fine.resolve_right fun ⟨n, ends, _⟩ => never n ends.1
      refine ⟨_, stackTrace_run frames (fun i _ => never i) ?_ (.inr ?_)⟩
      · intro i lt
        omega
      · omega

def twoFrames : Bytes := fun a =>
  match a with
  | 0x1001 => 0x20
  | 0x1008 => 5
  | 0x2008 => 7
  | _ => 0

theorem stackTrace_respects_two : EndsAfter flat twoFrames 0x1000 2 ∧
    ∃ fuel, stackTrace flat twoFrames 24 1 0x1000 fuel = .ok [5] := by
  have ends : EndsAfter flat twoFrames 0x1000 2 := by
    constructor
    · decide +kernel
    · decide +kernel
  have limit : (frameLimit 24 1).toNat = 1 := rfl
  have frames : Frames flat twoFrames 0x1000 := fun _ _ _ _ => rfl
  have respects := (stackTrace_respects_iff frames 24 1).mpr (.inl (by decide))
  obtain ⟨fuel, run⟩ := respects.1 2 ends
  refine ⟨ends, fuel, run.trans ?_⟩
  rw [limit]
  decide +kernel

def loopFrame : Bytes := fun a => if a = 0x1001 then 0x10 else 0

theorem stackTrace_endless : NeverEnds flat loopFrame 0x1000 ∧ Frames flat loopFrame 0x1000 ∧
    (∀ fuel printed, stackTrace flat loopFrame 24 256 0x1000 fuel ≠ .ok printed) ∧
    ¬ Respects flat loopFrame 24 256 0x1000 256 := by
  have self : flat.load loopFrame 0x1000 8 = 0x1000 := by decide +kernel
  have never : NeverEnds flat loopFrame 0x1000 := fun n => by
    rw [chain, Function.iterate_fixed self]
    decide
  have stuck : ∀ fuel printed, stackTrace flat loopFrame 24 256 0x1000 fuel ≠ .ok printed :=
    fun fuel printed run => never _ (stackTrace_wide (by decide) run).1
  refine ⟨never, fun _ _ _ _ => rfl, stuck, ?_⟩
  rintro ⟨_, endless⟩
  obtain ⟨fuel, run⟩ := endless never
  exact stuck fuel _ run

end Voyager.Diagnostics
