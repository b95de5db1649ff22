import Voyager.Sched.Create

/-! # The context switch -/

namespace Voyager.Sched

open Lib Lib.X86 Heap ByteSpace

variable {σ : Type} {B : Backing σ} {P : σ → Prop} {D : Nat → Prop} {m : σ} {k : Core} {cur next lo : Nat} {base : Word}
  {words rest : List Word}

/-- What `switch_to` leaves on the stack, the top first. -/
def Context.frame (k : Context) : List Word :=
  [k.regs .r15, k.regs .r14, k.regs .r13, k.regs .r12, k.regs .rbx, k.regs .rbp, k.rip]

theorem saveRegisters_ideal (core : Core) (rip : Word) :
    ∃ t : Cpu Words, run ideal ⟨core, ⟨[rip], 6⟩⟩ saveRegisters = .ok t ∧
    t.mem = ⟨(⟨core.regs, rip⟩ : Context).frame, 0⟩ ∧ t.regs .rax = core.regs .rax ∧ t.regs .rdi = core.regs .rdi :=
  ⟨_, rfl, rfl, rfl, rfl⟩

theorem loadRegisters_ideal (core : Core) (k : Context) (rest : List Word) : ∃ t : Cpu Words,
    run ideal ⟨core, ⟨k.frame ++ rest, 0⟩⟩ loadRegisters = .ok t ∧ t.mem = ⟨rest, 7⟩ ∧ t.rip = k.rip ∧
      ∀ r ∈ calleeSaved, t.regs r = k.regs r := by
  refine ⟨_, rfl, rfl, rfl, fun r hr => ?_⟩
  simp only [calleeSaved, List.mem_cons, List.not_mem_nil, or_false] at hr
  rcases hr with rfl | rfl | rfl | rfl | rfl | rfl <;> rfl

theorem slot_eq {j : Nat} (fits : 8 * (j + 1) ≤ base.toNat) : slot base j = base.toNat - 8 * (j + 1) := by
  have := base.isLt
  rw [slot, BitVec.toNat_sub, BitVec.toNat_ofNat]
  omega

theorem field_address (small : cur + 16 ≤ 2 ^ 64) : (BitVec.ofNat 64 cur + 8#64).toNat = cur + 8 := by
  rw [BitVec.toNat_add, BitVec.toNat_ofNat, BitVec.toNat_ofNat]
  omega

/-- The stack pointer is at a return address on the stack from `lo` on, with room for the registers below. -/
structure OnStack (lo : Nat) (rsp : Word) : Prop where
  aligned : rsp.toNat % 8 = 0
  low : lo + 48 ≤ rsp.toNat
  high : rsp.toNat + 8 ≤ lo + stackSize
  fits : lo + stackSize < 2 ^ 64

theorem OnStack.slot {rsp : Word} {j : Nat} (h : OnStack lo rsp) (hj : j < 7) :
    X86.slot (rsp + 8#64) j = rsp.toNat - 8 * j ∧ lo ≤ rsp.toNat - 8 * j ∧ rsp.toNat - 8 * j + 8 ≤ lo + stackSize := by
  obtain ⟨_, low, high, fits⟩ := h
  have base : (rsp + 8#64).toNat = rsp.toNat + 8 := by
    rw [BitVec.toNat_add, BitVec.toNat_ofNat]
    omega
  rw [slot_eq (by omega), base]
  omega

theorem OnStack.base_aligned {rsp : Word} (h : OnStack lo rsp) : (rsp + 8#64).toNat % 8 = 0 := by
  have := h.aligned
  rw [BitVec.toNat_add, BitVec.toNat_ofNat]
  omega

theorem saveRegisters_run (R : B.Region P D) (state : P m) (own : ∀ a, lo ≤ a → a < lo + stackSize → D a)
    (on : OnStack lo (k.regs .rsp)) :
    ∃ c, run (access B) ⟨k, m⟩ saveRegisters = .ok c ∧ c.regs .rax = k.regs .rax ∧ c.regs .rdi = k.regs .rdi ∧
      c.regs .rsp = k.regs .rsp + 8#64 - BitVec.ofNat 64 (8 * 7) ∧ P c.mem ∧
      (∀ a, D a → ¬ (lo ≤ a ∧ a < lo + stackSize) → B.get c.mem a = B.get m a) ∧
      Stacked B.toByteSpace c.mem (k.regs .rsp + 8#64)
        (⟨k.regs, BitVec.ofNat 64 (B.load m (k.regs .rsp).toNat 8)⟩ : Context).frame := by
  let rip := BitVec.ofNat 64 (B.load m (k.regs .rsp).toNat 8)
  let E := fun a => lo ≤ a ∧ a < lo + stackSize
  let Q := fun m' => P m' ∧ ∀ a, D a → ¬ E a → B.get m' a = B.get m a
  have W : B.Region Q E := R.within (fun a inside => own a inside.1 inside.2) m
  have start : Shows B.toByteSpace Q E (k.regs .rsp + 8#64) m (k.regs .rsp) ⟨[rip], 6⟩ := by
    constructor
    · exact on.base_aligned
    · change k.regs .rsp = k.regs .rsp + 8#64 - 8#64
      bv_omega
    · refine ⟨?_, trivial⟩
      rw [List.length_nil, (on.slot (by decide)).1, BitVec.toNat_ofNat]
      exact (Nat.mod_eq_of_lt (ByteSpace.load_lt m _ 8)).symm
    · exact ⟨state, fun _ _ _ => rfl⟩
    · simp
    · intro j hj i hi
      obtain ⟨place, low, high⟩ := on.slot hj
      dsimp only [E]
      omega
  obtain ⟨t, ideally, stack, rax, rdi⟩ := saveRegisters_ideal k rip
  obtain ⟨c, saved, real⟩ := run_realises (s := ⟨k, m⟩) Halt.pageFault W ⟨rfl, start⟩ rfl ideally
  obtain ⟨kept, others⟩ := real.stack.state
  have rsp := real.stack.top
  have words := real.stack.stack
  rw [stack] at rsp words
  have core := congrArg Core.regs real.core
  exact ⟨c, saved, (congrFun core _).trans rax, (congrFun core _).trans rdi, rsp, kept, others, words⟩

theorem saveOutgoing_run (R : B.Region P D) (state : P m) (pos : cur ≠ 0) (small : cur + 16 ≤ 2 ^ 64)
    (field : ∀ i < 8, D (cur + 8 + i)) (own : ∀ a, lo ≤ a → a < lo + stackSize → D a)
    (apart : cur + 16 ≤ lo ∨ lo + stackSize ≤ cur + 8) (on : OnStack lo (k.regs .rsp)) :
    ∃ c, saveOutgoing B ⟨k, m⟩ (BitVec.ofNat 64 cur) = .ok c ∧ c.regs .rdi = k.regs .rdi ∧ P c.mem ∧
      (∀ a, D a → ¬ (lo ≤ a ∧ a < lo + stackSize) → a < cur + 8 ∨ cur + 16 ≤ a → B.get c.mem a = B.get m a) ∧
      B.load c.mem (cur + 8) 8 = (k.regs .rsp + 8#64 - BitVec.ofNat 64 (8 * 7)).toNat ∧
      Stacked B.toByteSpace c.mem (k.regs .rsp + 8#64)
        (⟨k.regs, BitVec.ofNat 64 (B.load m (k.regs .rsp).toNat 8)⟩ : Context).frame := by
  let core := testFlags ((k.setFlag 9 false).set .rax (BitVec.ofNat 64 cur)) (BitVec.ofNat 64 cur)
  have nonzero : BitVec.ofNat 64 cur ≠ 0 := by
    intro zero
    have zero : (BitVec.ofNat 64 cur).toNat = 0 := by
      rw [zero]
      rfl
    rw [BitVec.toNat_ofNat] at zero
    omega
  obtain ⟨c, saved, rax, rdi, rsp, kept, others, words⟩ := saveRegisters_run (k := core) R state own on
  have address : (c.regs .rax + 8#64).toNat = cur + 8 := by
    rw [rax]
    exact field_address small
  have store : (access B).push c.mem (c.regs .rax + 8#64) (c.regs .rsp) =
    .ok (B.store c.mem (cur + 8) (c.regs .rsp).toNat 8) := by
    simp only [access, memory, address]
    exact if_pos (bytes_mapped R kept field)
  refine ⟨⟨c.toCore, B.store c.mem (cur + 8) (c.regs .rsp).toNat 8⟩, ?_, rdi, R.keep_store kept field, ?_, ?_, ?_⟩
  · have outgoing : saveOutgoing B ⟨k, m⟩ (BitVec.ofNat 64 cur) = (do
        let c ← run (access B) ⟨core, m⟩ saveRegisters
        return { c with mem := ← (access B).push c.mem (c.regs .rax + 8#64) (c.regs .rsp) }) := if_neg nonzero
    rw [outgoing, bind_eq saved, bind_eq store]
    rfl
  · intro a ha out free
    rw [R.get_store_of_not_mem kept field ha (by omega)]
    exact others a ha out
  · rw [R.load_store_same kept field, show (256 : Nat) ^ 8 = 2 ^ 64 by decide, Nat.mod_eq_of_lt (c.regs .rsp).isLt,
      rsp]
    rfl
  · refine words.congr fun j hj => ?_
    obtain ⟨place, low, high⟩ := on.slot (j := j) hj
    have here : ∀ i < 8, D ((k.regs .rsp).toNat - 8 * j + i) := fun i hi => own _ (by omega) (by omega)
    change B.load _ (X86.slot (k.regs .rsp + 8#64) j) 8 = B.load _ (X86.slot (k.regs .rsp + 8#64) j) 8
    rw [place]
    exact R.load_store_disjoint kept field here (by omega)

theorem loadIncoming_run {c : Cpu σ} {x : Context} (R : B.Region P D) (state : P c.mem)
    (rdi : c.regs .rdi = BitVec.ofNat 64 next)
    (small : next + 16 ≤ 2 ^ 64) (field : ∀ i < 8, D (next + 8 + i)) (aligned : base.toNat % 8 = 0)
    (short : words.length ≤ 2 ^ 60)
    (top : B.load c.mem (next + 8) 8 = (base - BitVec.ofNat 64 (8 * words.length)).toNat)
    (stack : Stacked B.toByteSpace c.mem base words) (inside : ∀ j < words.length, ∀ i < 8, D (slot base j + i))
    (framed : words = x.frame ++ rest) :
    ∃ c', loadIncoming B c = .ok c' ∧ c'.mem = c.mem ∧ c'.rip = x.rip ∧ (∀ r ∈ calleeSaved, c'.regs r = x.regs r) ∧
      c'.regs .rsp = base - BitVec.ofNat 64 (8 * rest.length) ∧ Stacked B.toByteSpace c.mem base rest := by
  have address : (c.regs .rdi + 8#64).toNat = next + 8 := by
    rw [rdi]
    exact field_address small
  have load : (access B).pop c.mem (c.regs .rdi + 8#64) = .ok (base - BitVec.ofNat 64 (8 * words.length), c.mem) := by
    unfold access memory
    dsimp only
    rw [address, if_pos (bytes_mapped R state field), top, BitVec.ofNat_toNat, BitVec.setWidth_eq]
  let core := c.set .rsp (base - BitVec.ofNat 64 (8 * words.length))
  have start : Realises B.toByteSpace P D base ⟨core, c.mem⟩ ⟨core, ⟨words, 0⟩⟩ := by
    refine ⟨rfl, aligned, ?_, stack, state, short, inside⟩
    exact Function.update_self Reg.rsp _ c.regs
  obtain ⟨t, ideally, left, rip, regs⟩ := loadRegisters_ideal core x rest
  rw [← framed] at ideally
  obtain ⟨c', loaded, real⟩ := run_realises Halt.pageFault R start rfl ideally
  have same : c'.mem = (⟨core, c.mem⟩ : Cpu σ).mem := run_mem rfl loaded
  have rsp := real.stack.top
  have remains := real.stack.stack
  rw [left] at rsp remains
  refine ⟨c', ?_, same, ?_, fun r hr => ?_, rsp, same ▸ remains⟩
  · rw [loadIncoming, bind_eq load]
    exact loaded
  · rw [real.core, rip]
  · rw [real.core]
    exact regs r hr

end Voyager.Sched
