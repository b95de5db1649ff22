import Mathlib.Logic.Function.Basic
import Voyager.Lib.ByteSpace
import Voyager.Lib.Outcome

/-!
# Straight-line x86-64 code

The same instructions run on bytes (`memory`) and on a list of words (`ideal`), where a push
is a cons. `Realises` relates the two.
-/

namespace Voyager.Lib.X86

abbrev Word := BitVec 64

inductive Reg where
  | rax | rbx | rcx | rdx | rsi | rdi | rbp | rsp | r8 | r9 | r10 | r11 | r12 | r13 | r14 | r15
  deriving DecidableEq, Repr

inductive Seg where
  | cs | ss | ds | es
  deriving DecidableEq, Repr

inductive Ctrl where
  | cr0 | cr2 | cr3 | cr4
  deriving DecidableEq, Repr

structure Core where
  regs : Reg → Word
  seg : Seg → BitVec 16
  ctrl : Ctrl → Word
  rip : Word
  rflags : Word

structure Cpu (σ : Type) extends Core where
  mem : σ

namespace Core

def set (c : Core) (r : Reg) (v : Word) : Core := { c with regs := Function.update c.regs r v }

def set16 (c : Core) (r : Reg) (v : BitVec 16) : Core := c.set r ((c.regs r).extractLsb' 16 48 ++ v)

def setSeg (c : Core) (s : Seg) (v : BitVec 16) : Core := { c with seg := Function.update c.seg s v }

def setCtrl (c : Core) (r : Ctrl) (v : Word) : Core := { c with ctrl := Function.update c.ctrl r v }

def setFlag (c : Core) (i : Nat) (b : Bool) : Core :=
  { c with rflags := if b then c.rflags ||| BitVec.twoPow 64 i else c.rflags &&& ~~~BitVec.twoPow 64 i }

def addFlags (c : Core) (a b : Word) : Core :=
  let r := a + b
  let c := c.setFlag 0 (r < a)
  let c := c.setFlag 2 (((List.range 8).countP fun i => r.getLsbD i) % 2 = 0)
  let c := c.setFlag 4 (r.setWidth 4 < a.setWidth 4)
  let c := c.setFlag 6 (r = 0)
  let c := c.setFlag 7 r.msb
  c.setFlag 11 (a.msb = b.msb ∧ r.msb ≠ a.msb)

end Core

inductive Instr where
  | push (r : Reg)
  | pushImm (v : Word)
  | pop (r : Reg)
  | mov (dst src : Reg)
  | movImm16 (dst : Reg) (v : BitVec 16) -- `mov r16, imm16`
  | movSeg (dst : Reg) (seg : Seg) -- `mov r16, seg`
  | setSeg (seg : Seg) (src : Reg) -- `mov seg, r16`
  | movCtrl (dst : Reg) (c : Ctrl) -- `mov r, crN`
  | setCtrl (c : Ctrl) (src : Reg) -- `mov crN, r`
  | lea (dst base : Reg) (offset : Word) -- `lea dst, [base + offset]`
  | release (words : Nat) -- `add rsp, 8 * words`
  | cli
  | sti
  | nop
  | ret
  | iretq
  deriving Repr

structure Access (σ ε : Type) where
  push : σ → Word → Word → Except ε σ -- Put a word at an address, the new top of the stack.
  pop : σ → Word → Except ε (Word × σ) -- Take the word at an address, the top of the stack.
  release : σ → Nat → Except ε σ -- Give up words without a look.

variable {σ ε : Type}

section Exec

variable (K : Access σ ε)

def push (s : Cpu σ) (v : Word) : Except ε (Cpu σ) := do
  return ⟨s.set .rsp (s.regs .rsp - 8#64), ← K.push s.mem (s.regs .rsp - 8#64) v⟩

def pop (s : Cpu σ) : Except ε (Word × Cpu σ) := do
  let (v, mem) ← K.pop s.mem (s.regs .rsp)
  return (v, ⟨s.set .rsp (s.regs .rsp + 8#64), mem⟩)

def exec (s : Cpu σ) : Instr → Except ε (Cpu σ)
  | .push r => push K s (s.regs r)
  | .pushImm v => push K s v
  | .pop r => do
    let (v, s) ← pop K s
    return ⟨s.set r v, s.mem⟩
  | .mov dst src => .ok ⟨s.set dst (s.regs src), s.mem⟩
  | .movImm16 dst v => .ok ⟨s.set16 dst v, s.mem⟩
  | .movSeg dst seg => .ok ⟨s.set16 dst (s.seg seg), s.mem⟩
  | .setSeg seg src => .ok ⟨s.toCore.setSeg seg ((s.regs src).setWidth 16), s.mem⟩
  | .movCtrl dst c => .ok ⟨s.set dst (s.ctrl c), s.mem⟩
  | .setCtrl c src => .ok ⟨s.toCore.setCtrl c (s.regs src), s.mem⟩
  | .lea dst base offset => .ok ⟨s.set dst (s.regs base + offset), s.mem⟩
  | .release words => do
    let bytes := BitVec.ofNat 64 (8 * words)
    return ⟨(s.addFlags (s.regs .rsp) bytes).set .rsp (s.regs .rsp + bytes), ← K.release s.mem words⟩
  | .cli => .ok ⟨s.setFlag 9 false, s.mem⟩
  | .sti => .ok ⟨s.setFlag 9 true, s.mem⟩
  | .nop => .ok s
  | .ret => do
    let (v, s) ← pop K s
    return { s with rip := v }
  | .iretq => do
    let (rip, s) ← pop K s
    let (cs, s) ← pop K s
    let (rflags, s) ← pop K s
    let (rsp, s) ← pop K s
    let (ss, s) ← pop K s
    return ⟨{ ((s.set .rsp rsp).setSeg .cs (cs.setWidth 16)).setSeg .ss (ss.setWidth 16) with rip, rflags }, s.mem⟩

def run (s : Cpu σ) : List Instr → Except ε (Cpu σ)
  | [] => .ok s
  | i :: is => do run (← exec K s i) is

/-- What the CPU does for an interrupt gate with a stack and a code segment of its own. -/
def deliver (stack : Word) (selector : BitVec 16) (s : Cpu σ) : Except ε (Cpu σ) := do
  let t : Cpu σ := ⟨s.set .rsp (stack &&& ~~~15#64), s.mem⟩
  let t ← push K t ((s.seg .ss).setWidth 64)
  let t ← push K t (s.regs .rsp)
  let t ← push K t s.rflags
  let t ← push K t ((s.seg .cs).setWidth 64)
  let t ← push K t s.rip
  -- TF, IF, NT, RF and VM
  let core := ((((t.setFlag 8 false).setFlag 9 false).setFlag 14 false).setFlag 16 false).setFlag 17 false
  return ⟨core.setSeg .cs selector, t.mem⟩

end Exec

/-! ### Bytes and lists of words -/

def memory (S : ByteSpace σ) (fault : Nat → ε) : Access σ ε where
  push m a v :=
    if S.mapped m a.toNat && S.mapped m (a.toNat + 7) then .ok (S.store m a.toNat v.toNat 8) else .error (fault a.toNat)
  pop m a :=
    if S.mapped m a.toNat && S.mapped m (a.toNat + 7) then .ok (BitVec.ofNat 64 (S.load m a.toNat 8), m)
    else .error (fault a.toNat)
  release m _ := .ok m

structure Words where
  words : List Word
  room : Nat

def ideal : Access Words Unit where
  push w _ v :=
    match w.room with
    | room + 1 => .ok ⟨v :: w.words, room⟩
    | 0 => .error ()
  pop w _ :=
    match w.words with
    | v :: words => .ok (v, ⟨words, w.room + 1⟩)
    | [] => .error ()
  release w n := if n ≤ w.words.length then .ok ⟨w.words.drop n, w.room + n⟩ else .error ()

def slot (base : Word) (j : Nat) : Nat := (base - BitVec.ofNat 64 (8 * (j + 1))).toNat

def Stacked (S : ByteSpace σ) (m : σ) (base : Word) : List Word → Prop
  | [] => True
  | v :: words => S.load m (slot base words.length) 8 = v.toNat ∧ Stacked S m base words

/-- The stack of `w` lies below `base`, its top at `rsp`. -/
structure Shows (S : ByteSpace σ) (P : σ → Prop) (D : Nat → Prop) (base : Word) (m : σ) (rsp : Word) (w : Words) :
    Prop where
  aligned : base.toNat % 8 = 0
  top : rsp = base - BitVec.ofNat 64 (8 * w.words.length)
  stack : Stacked S m base w.words
  state : P m
  small : w.words.length + w.room ≤ 2 ^ 60
  inside : ∀ j < w.words.length + w.room, ∀ i < 8, D (slot base j + i)

structure Realises (S : ByteSpace σ) (P : σ → Prop) (D : Nat → Prop) (base : Word) (s : Cpu σ) (t : Cpu Words) :
    Prop where
  core : s.toCore = t.toCore
  stack : Shows S P D base s.mem (s.regs .rsp) t.mem

variable {S : ByteSpace σ} {P : σ → Prop} {D : Nat → Prop} {base rsp v : Word} {m m' : σ} {w w' : Words} {words : List Word}
  {s s' : Cpu σ} {t t' : Cpu Words} {fault : Nat → ε} {i : Instr} {is : List Instr} {j k : Nat}

theorem slot_aligned (aligned : base.toNat % 8 = 0) (j : Nat) : slot base j % 8 = 0 := by
  rw [slot, BitVec.toNat_sub, BitVec.toNat_ofNat]
  omega

theorem slot_apart (aligned : base.toNat % 8 = 0) (hj : j < 2 ^ 60) (hk : k < 2 ^ 60) (ne : j ≠ k) :
    slot base j + 8 ≤ slot base k ∨ slot base k + 8 ≤ slot base j := by
  have := slot_aligned aligned j
  have := slot_aligned aligned k
  have distinct : slot base j ≠ slot base k := by
    rw [slot, slot, BitVec.toNat_sub, BitVec.toNat_sub, BitVec.toNat_ofNat, BitVec.toNat_ofNat]
    omega
  omega

theorem Stacked.congr (same : ∀ j < words.length, S.load m' (slot base j) 8 = S.load m (slot base j) 8)
    (h : Stacked S m base words) : Stacked S m' base words := by
  induction words with
  | nil => trivial
  | cons v words ih =>
    obtain ⟨top, rest⟩ := h
    rw [List.length_cons] at same
    exact ⟨(same _ (by omega)).trans top, ih (fun j hj => same j (by omega)) rest⟩

theorem Stacked.drop (h : Stacked S m base words) (n : Nat) : Stacked S m base (words.drop n) := by
  induction words generalizing n with
  | nil => exact (List.drop_nil (i := n)).symm ▸ h
  | cons v words ih =>
    cases n with
    | zero => exact h
    | succ n => exact ih h.2 n

theorem Stacked.word {i : Nat} (h : Stacked S m base words) (found : words[i]? = some v) :
    BitVec.ofNat 64 (S.load m (slot base (words.length - 1 - i)) 8) = v := by
  induction words generalizing i with
  | nil => simp at found
  | cons top words ih =>
    obtain ⟨here, rest⟩ := h
    rw [List.length_cons, Nat.add_sub_cancel]
    cases i with
    | zero =>
      cases found
      rw [Nat.sub_zero, here, BitVec.ofNat_toNat, BitVec.setWidth_eq]
    | succ i =>
      rw [List.getElem?_cons_succ] at found
      rw [show words.length - (i + 1) = words.length - 1 - i by omega]
      exact ih rest found

namespace Shows

theorem mapped (R : S.Region P D) (h : Shows S P D base m rsp w) (hj : j < w.words.length + w.room) :
    (S.mapped m (slot base j) && S.mapped m (slot base j + 7)) = true := by
  have inside := h.inside j hj
  rw [Bool.and_eq_true]
  exact ⟨R.mapped h.state (inside 0 (by omega)), R.mapped h.state (inside 7 (by omega))⟩

theorem push (R : S.Region P D) (h : Shows S P D base m rsp w) (run : ideal.push w (rsp - 8#64) v = .ok w') :
    ∃ m', (memory S fault).push m (rsp - 8#64) v = .ok m' ∧ Shows S P D base m' (rsp - 8#64) w' := by
  obtain ⟨words, room⟩ := w
  cases room with
  | zero => cases run
  | succ room =>
    cases run
    have small : words.length + (room + 1) ≤ 2 ^ 60 := h.small
    have inside := h.inside
    dsimp only at inside
    have next : (rsp - 8#64).toNat = slot base words.length := by
      rw [h.top, slot]
      bv_omega
    have here := inside words.length (by omega)
    refine ⟨S.store m (slot base words.length) v.toNat 8, ?_, ?_⟩
    · simp only [memory, next, h.mapped R (j := words.length) (by dsimp only; omega), if_true]
    · constructor
      · exact h.aligned
      · rw [h.top]
        dsimp only [List.length_cons]
        bv_omega
      · constructor
        · rw [R.load_store_same h.state here, show (256 : Nat) ^ 8 = 2 ^ 64 by decide, Nat.mod_eq_of_lt v.isLt]
        · refine h.stack.congr fun j hj => ?_
          dsimp only at hj
          apply R.load_store_disjoint h.state here (inside j (by omega))
          exact slot_apart h.aligned (by omega) (by omega) (by omega)
      · exact R.keep_store h.state here
      · dsimp only [List.length_cons]
        omega
      · dsimp only [List.length_cons]
        intro j hj
        exact inside j (by omega)

theorem pop (R : S.Region P D) (h : Shows S P D base m rsp w) (run : ideal.pop w rsp = .ok (v, w')) :
    (memory S fault).pop m rsp = .ok (v, m) ∧ Shows S P D base m (rsp + 8#64) w' := by
  obtain ⟨words, room⟩ := w
  cases words with
  | nil => cases run
  | cons v words =>
    cases run
    have small : words.length + 1 + room ≤ 2 ^ 60 := h.small
    have inside := h.inside
    dsimp only [List.length_cons] at inside
    have top : rsp.toNat = slot base words.length := by rw [h.top]; rfl
    constructor
    · simp only [memory, top, h.mapped R (j := words.length) (by dsimp only [List.length_cons]; omega), if_true,
        h.stack.1,
        BitVec.ofNat_toNat, BitVec.setWidth_eq]
    · constructor
      · exact h.aligned
      · rw [h.top]
        dsimp only [List.length_cons]
        bv_omega
      · exact h.stack.2
      · exact h.state
      · dsimp only
        omega
      · dsimp only
        intro j hj
        exact inside j (by omega)

theorem release (h : Shows S P D base m rsp w) (run : ideal.release w k = .ok w') :
    Shows S P D base m (rsp + BitVec.ofNat 64 (8 * k)) w' := by
  simp only [ideal] at run
  split at run
  · rename_i enough
    cases run
    have small := h.small
    have length : (w.words.drop k).length = w.words.length - k := List.length_drop
    constructor
    · exact h.aligned
    · rw [h.top]
      dsimp only
      rw [length]
      bv_omega
    · exact h.stack.drop k
    · exact h.state
    · dsimp only
      omega
    · dsimp only
      intro j hj
      exact h.inside j (by omega)
  · cases run

end Shows

/-! ### Runs -/

theorem push_realises (fault : Nat → ε) (R : S.Region P D) (h : Realises S P D base s t)
    (run : push ideal t v = .ok t') :
    ∃ s', push (memory S fault) s v = .ok s' ∧ Realises S P D base s' t' := by
  obtain ⟨core, m⟩ := s
  obtain ⟨core', w⟩ := t
  obtain rfl : core = core' := h.core
  obtain ⟨w', pushed, run⟩ := bind_ok run
  cases run
  obtain ⟨m', stored, stack⟩ := h.stack.push R pushed
  exact ⟨_, bind_eq stored, rfl, stack⟩

theorem pop_realises (fault : Nat → ε) (R : S.Region P D) (h : Realises S P D base s t)
    (run : pop ideal t = .ok (v, t')) :
    ∃ s', pop (memory S fault) s = .ok (v, s') ∧ Realises S P D base s' t' := by
  obtain ⟨core, m⟩ := s
  obtain ⟨core', w⟩ := t
  obtain rfl : core = core' := h.core
  obtain ⟨⟨x, w'⟩, popped, run⟩ := bind_ok run
  cases run
  obtain ⟨loaded, stack⟩ := h.stack.pop R popped
  exact ⟨_, bind_eq loaded, rfl, stack⟩

def Instr.keepsRsp : Instr → Bool
  | .pop r | .mov r _ | .movImm16 r _ | .movSeg r _ | .movCtrl r _ | .lea r _ _ => r ≠ .rsp
  | .iretq => false
  | _ => true

theorem Core.set_rsp {c : Core} {r : Reg} (ne : r ≠ .rsp) : (c.set r v).regs .rsp = c.regs .rsp :=
  Function.update_of_ne (Ne.symm ne) _ _

theorem Realises.withCore {c : Core} (h : Realises S P D base s t) (rsp : c.regs .rsp = s.regs .rsp) :
    Realises S P D base ⟨c, s.mem⟩ ⟨c, t.mem⟩ := by
  refine ⟨rfl, ?_⟩
  dsimp only
  rw [rsp]
  exact h.stack

theorem exec_realises (fault : Nat → ε) (R : S.Region P D) (h : Realises S P D base s t)
    (keeps : i.keepsRsp = true) (run : exec ideal t i = .ok t') :
    ∃ s', exec (memory S fault) s i = .ok s' ∧ Realises S P D base s' t' := by
  obtain ⟨core, m⟩ := s
  obtain ⟨core', w⟩ := t
  obtain rfl : core = core' := h.core
  cases i with
  | push r => exact push_realises fault R h run
  | pushImm v => exact push_realises fault R h run
  | pop r =>
    obtain ⟨⟨v, t₁⟩, popped, run⟩ := bind_ok run
    cases run
    obtain ⟨s₁, loaded, real⟩ := pop_realises fault R h popped
    have same : s₁.set r v = t₁.set r v := by rw [real.core]
    rw [exec, bind_eq loaded, ← same]
    exact ⟨_, rfl, real.withCore (Core.set_rsp (of_decide_eq_true keeps))⟩
  | mov dst src =>
    cases run
    exact ⟨_, rfl, h.withCore (Core.set_rsp (of_decide_eq_true keeps))⟩
  | movImm16 dst v =>
    cases run
    exact ⟨_, rfl, h.withCore (Core.set_rsp (of_decide_eq_true keeps))⟩
  | movSeg dst seg =>
    cases run
    exact ⟨_, rfl, h.withCore (Core.set_rsp (of_decide_eq_true keeps))⟩
  | setSeg seg src =>
    cases run
    exact ⟨_, rfl, h.withCore rfl⟩
  | movCtrl dst c =>
    cases run
    exact ⟨_, rfl, h.withCore (Core.set_rsp (of_decide_eq_true keeps))⟩
  | setCtrl c src =>
    cases run
    exact ⟨_, rfl, h.withCore rfl⟩
  | lea dst b offset =>
    cases run
    exact ⟨_, rfl, h.withCore (Core.set_rsp (of_decide_eq_true keeps))⟩
  | release n =>
    obtain ⟨w', released, run⟩ := bind_ok run
    cases run
    exact ⟨_, rfl, rfl, h.stack.release released⟩
  | cli =>
    cases run
    exact ⟨_, rfl, h.withCore rfl⟩
  | sti =>
    cases run
    exact ⟨_, rfl, h.withCore rfl⟩
  | nop =>
    cases run
    exact ⟨_, rfl, h⟩
  | ret =>
    obtain ⟨⟨v, t₁⟩, popped, run⟩ := bind_ok run
    cases run
    obtain ⟨s₁, loaded, real⟩ := pop_realises fault R h popped
    have same : ({ s₁.toCore with rip := v } : Core) = { t₁.toCore with rip := v } := by rw [real.core]
    rw [exec, bind_eq loaded]
    refine ⟨⟨{ s₁.toCore with rip := v }, s₁.mem⟩, rfl, ?_⟩
    change Realises S P D base _ ⟨{ t₁.toCore with rip := v }, t₁.mem⟩
    rw [← same]
    exact real.withCore rfl
  | iretq => cases keeps

theorem run_realises (fault : Nat → ε) (R : S.Region P D) (h : Realises S P D base s t)
    (keeps : is.all Instr.keepsRsp = true)
    (run' : run ideal t is = .ok t') : ∃ s', run (memory S fault) s is = .ok s' ∧ Realises S P D base s' t' := by
  induction is generalizing s t with
  | nil =>
    cases run'
    exact ⟨s, rfl, h⟩
  | cons i is ih =>
    rw [List.all_cons, Bool.and_eq_true] at keeps
    obtain ⟨t₁, first, rest⟩ := bind_ok run'
    obtain ⟨s₁, step, real⟩ := exec_realises fault R h keeps.1 first
    rw [run, bind_eq step]
    exact ih real keeps.2 rest

theorem run_append (K : Access σ ε) (s : Cpu σ) (is js : List Instr) :
    run K s (is ++ js) = (run K s is >>= fun t => run K t js) := by
  induction is generalizing s with
  | nil => rfl
  | cons i is ih =>
    rw [List.cons_append, run, run, bind_assoc]
    simp only [ih]

theorem run_lea {K : Access σ ε} {dst : Reg} {offset : Word} (ne : dst ≠ .rsp)
    (run' : run K s (is ++ [.lea dst .rsp offset]) = .ok s') : s'.regs dst = s'.regs .rsp + offset := by
  rw [run_append] at run'
  obtain ⟨t, _, last⟩ := bind_ok run'
  cases last
  dsimp only [Core.set]
  rw [Function.update_self, Function.update_of_ne (Ne.symm ne)]

theorem push_regs {K : Access σ ε} (run : push K s v = .ok s') :
    s'.regs = Function.update s.regs .rsp (s.regs .rsp - 8#64) := by
  obtain ⟨m, _, run⟩ := bind_ok run
  cases run
  rfl

def Instr.stores : Instr → Bool
  | .push _ | .pushImm _ => true
  | _ => false

theorem pop_mem (run : pop (memory S fault) s = .ok (v, s')) : s'.mem = s.mem := by
  obtain ⟨⟨x, m⟩, loaded, run⟩ := bind_ok run
  cases run
  simp only [memory] at loaded
  split at loaded
  · cases loaded
    rfl
  · cases loaded

theorem exec_mem (loads : i.stores = false) (run : exec (memory S fault) s i = .ok s') : s'.mem = s.mem := by
  cases i with
  | push r => cases loads
  | pushImm v => cases loads
  | pop r =>
    obtain ⟨⟨v, t⟩, popped, run⟩ := bind_ok run
    have kept := pop_mem popped
    cases run
    exact kept
  | ret =>
    obtain ⟨⟨v, t⟩, popped, run⟩ := bind_ok run
    have kept := pop_mem popped
    cases run
    exact kept
  | iretq =>
    obtain ⟨⟨rip, t₁⟩, first, run⟩ := bind_ok run
    obtain ⟨⟨cs, t₂⟩, second, run⟩ := bind_ok run
    obtain ⟨⟨rflags, t₃⟩, third, run⟩ := bind_ok run
    obtain ⟨⟨rsp, t₄⟩, fourth, run⟩ := bind_ok run
    obtain ⟨⟨ss, t₅⟩, fifth, run⟩ := bind_ok run
    obtain rfl := Except.ok.inj run
    exact (pop_mem fifth).trans ((pop_mem fourth).trans
      ((pop_mem third).trans ((pop_mem second).trans (pop_mem first))))
  | _ =>
    cases run
    rfl

theorem run_mem (loads : is.all (fun i => !i.stores) = true) (run' : run (memory S fault) s is = .ok s') :
    s'.mem = s.mem := by
  induction is generalizing s with
  | nil =>
    cases run'
    rfl
  | cons i is ih =>
    rw [List.all_cons, Bool.and_eq_true, Bool.not_eq_true'] at loads
    obtain ⟨t, first, rest⟩ := bind_ok run'
    exact (ih loads.2 rest).trans (exec_mem loads.1 first)

theorem iretq_realises (fault : Nat → ε) (R : S.Region P D) (h : Realises S P D base s t)
    (run : exec ideal t .iretq = .ok t') :
    ∃ s', exec (memory S fault) s .iretq = .ok s' ∧ s'.toCore = t'.toCore := by
  obtain ⟨⟨rip, t₁⟩, first, run⟩ := bind_ok run
  obtain ⟨s₁, first', real⟩ := pop_realises fault R h first
  obtain ⟨⟨cs, t₂⟩, second, run⟩ := bind_ok run
  obtain ⟨s₂, second', real⟩ := pop_realises fault R real second
  obtain ⟨⟨rflags, t₃⟩, third, run⟩ := bind_ok run
  obtain ⟨s₃, third', real⟩ := pop_realises fault R real third
  obtain ⟨⟨rsp, t₄⟩, fourth, run⟩ := bind_ok run
  obtain ⟨s₄, fourth', real⟩ := pop_realises fault R real fourth
  obtain ⟨⟨ss, t₅⟩, fifth, run⟩ := bind_ok run
  obtain ⟨s₅, fifth', real⟩ := pop_realises fault R real fifth
  obtain rfl := Except.ok.inj run
  simp only [exec]
  rw [bind_eq first', bind_eq second', bind_eq third', bind_eq fourth', bind_eq fifth']
  refine ⟨_, rfl, ?_⟩
  dsimp only
  rw [real.core]

theorem stack_aligned (stack : Word) : (stack &&& ~~~15#64).toNat % 16 = 0 := by
  rw [BitVec.toNat_and, show (16 : Nat) = 2 ^ 4 by rfl, Nat.and_mod_two_pow,
    show (~~~15#64).toNat % 2 ^ 4 = 0 by decide, Nat.and_zero]

theorem deliver_realises {stack : Word} {selector : BitVec 16} (fault : Nat → ε) (R : S.Region P D)
    (state : P s.mem) (small : k ≤ 2 ^ 60)
    (inside : ∀ j < k, ∀ i < 8, D (slot (stack &&& ~~~15#64) j + i))
    (run : deliver ideal stack selector ⟨s.toCore, ⟨[], k⟩⟩ = .ok t') :
    ∃ s', deliver (memory S fault) stack selector s = .ok s' ∧ Realises S P D (stack &&& ~~~15#64) s' t' := by
  have start : Realises S P D (stack &&& ~~~15#64) ⟨s.set .rsp (stack &&& ~~~15#64), s.mem⟩
      ⟨s.set .rsp (stack &&& ~~~15#64), ⟨[], k⟩⟩ := by
    have aligned := stack_aligned stack
    refine ⟨rfl, by omega, ?_, trivial, state, ?_, ?_⟩
    · simp [Core.set]
    · simpa using small
    · simpa using inside
  obtain ⟨t₁, first, run⟩ := bind_ok run
  obtain ⟨s₁, first', real⟩ := push_realises fault R start first
  obtain ⟨t₂, second, run⟩ := bind_ok run
  obtain ⟨s₂, second', real⟩ := push_realises fault R real second
  obtain ⟨t₃, third, run⟩ := bind_ok run
  obtain ⟨s₃, third', real⟩ := push_realises fault R real third
  obtain ⟨t₄, fourth, run⟩ := bind_ok run
  obtain ⟨s₄, fourth', real⟩ := push_realises fault R real fourth
  obtain ⟨t₅, fifth, run⟩ := bind_ok run
  obtain ⟨s₅, fifth', real⟩ := push_realises fault R real fifth
  obtain rfl := Except.ok.inj run
  unfold deliver
  dsimp only
  rw [bind_eq first', bind_eq second', bind_eq third', bind_eq fourth', bind_eq fifth']
  refine ⟨_, rfl, ?_⟩
  rw [← real.core]
  exact real.withCore rfl

/-! ### Calls of compiled code -/

def calleeSaved : List Reg := [.rbx, .rbp, .r12, .r13, .r14, .r15]

/-- What the SysV convention promises of a function that is entered in `c`, its return address at the
top of the stack, and comes back in `t`. It leaves alone the `words` above that address. -/
structure Returns (S : ByteSpace σ) (words : Nat) (c t : Cpu σ) : Prop where
  saved : ∀ r ∈ calleeSaved, t.regs r = c.regs r
  rsp : t.regs .rsp = c.regs .rsp + 8#64
  rip : t.rip = BitVec.ofNat 64 (S.load c.mem (c.regs .rsp).toNat 8)
  ctrl : t.ctrl = c.ctrl
  frame : ∀ j < 8 * words, S.get t.mem (c.regs .rsp + 8#64 + BitVec.ofNat 64 j).toNat =
    S.get c.mem (c.regs .rsp + 8#64 + BitVec.ofNat 64 j).toNat

theorem Returns.realises {c : Cpu σ} {u : Cpu Words} {ret : Word} (h : Returns S words.length c s)
    (real : Realises S P D base c u)
    (state : P s.mem) (stack : u.mem = ⟨ret :: words, k⟩) : Realises S P D base s ⟨s.toCore, ⟨words, k + 1⟩⟩ := by
  obtain ⟨core, aligned, top, stacked, _, small, inside⟩ := real
  rw [stack] at top stacked small inside
  dsimp only [List.length_cons] at top small inside
  refine ⟨rfl, aligned, ?_, ?_, state, ?_, ?_⟩
  · rw [h.rsp, top]
    dsimp only
    bv_omega
  · refine stacked.2.congr fun j hj => ByteSpace.load_congr fun i hi => ?_
    dsimp only at hj
    have address : slot base j + i = (c.regs .rsp + 8#64 + BitVec.ofNat 64 (8 * (words.length - 1 - j) + i)).toNat := by
      have low := slot_aligned aligned j
      rw [top]
      unfold slot at *
      bv_omega
    rw [address]
    exact h.frame _ (by omega)
  · dsimp only
    omega
  · dsimp only
    intro j hj
    exact inside j (by omega)

end Voyager.Lib.X86
