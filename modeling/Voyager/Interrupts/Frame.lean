import Voyager.Interrupts.Vectors

/-!
# The frame that the handlers read

The three kinds of stubs put the same number of words below the CPU's, so one layout serves
them all.
-/

namespace Voyager.Interrupts

open Lib Lib.X86 ByteSpace

/-- `isr_xframe_t` -/
structure IsrXframe where
  cr4 : Word
  cr3 : Word
  cr2 : Word
  cr0 : Word
  rdi : Word
  rsi : Word
  rdx : Word
  rcx : Word
  rbx : Word
  rax : Word
  rbp : Word
  vector : Word
  errorCode : Word
  rip : Word
  cs : Word
  rflags : Word
  rsp : Word
  dss : Word

/-- The member of the struct at `p` that has `k` words before it. -/
def member (m : Bytes) (p : Word) (k : Nat) : Word := .ofNat 64 (flat.load m (p + .ofNat 64 (8 * k)).toNat 8)

/-- The struct at `p`, its members in the order of their declaration. -/
def isrXframeAt (m : Bytes) (p : Word) : IsrXframe where
  cr4 := member m p 0
  cr3 := member m p 1
  cr2 := member m p 2
  cr0 := member m p 3
  rdi := member m p 4
  rsi := member m p 5
  rdx := member m p 6
  rcx := member m p 7
  rbx := member m p 8
  rax := member m p 9
  rbp := member m p 10
  vector := member m p 11
  errorCode := member m p 12
  rip := member m p 13
  cs := member m p 14
  rflags := member m p 15
  rsp := member m p 16
  dss := member m p 17

/-- `isr_xframe_assembler` before the call. -/
def isrSave : List Instr :=
  [.push .rbp, .mov .rbp .rsp, .nop] ++ pushagrd ++ pushacrd ++
    [.nop, .movSeg .rax .ds, .push .rax, .nop, .pushImm 0, .nop, .movImm16 .rax 0x10, .setSeg .ds .rax,
      .setSeg .es .rax, .setSeg .ss .rax, .nop, .lea .rdi .rsp 0x10]

/-- A stub by the macro that defines it. The CPU has pushed an error code for the first kind only. -/
inductive Stub where
  | isrErrStub (n : Nat) (code : Word)
  | isrNoErrStub (n : Nat)
  | isrIrqStub (n : Nat)

namespace Stub

def pushed : Stub → Option Word
  | .isrErrStub _ code => some code
  | _ => none

/-- The stub and the assembler it jumps to, up to the call of the handler. -/
def code : Stub → List Instr
  | .isrErrStub n _ => Interrupts.isrErrStub n ++ isrSave
  | .isrNoErrStub n => Interrupts.isrNoErrStub n ++ isrSave
  | .isrIrqStub n => Interrupts.isrIrqStub (.ofNat 64 n) ++ irqSave

def number : Stub → Nat
  | .isrErrStub n _ | .isrNoErrStub n | .isrIrqStub n => n

end Stub

/-- Every stub of `isr.asm` is of one of the three kinds. -/
theorem isrStub_kind (n : Nat) : ∃ stub : Stub, stub.number = n ∧
    stub.code = isrStub n ++ (if n < 32 then isrSave else irqSave) := by
  by_cases error : n ∈ [8, 10, 11, 12, 13, 14, 17, 30]
  · have exception : n < 32 := by
      simp only [List.mem_cons, List.not_mem_nil, or_false] at error
      omega
    refine ⟨.isrErrStub n 0, rfl, ?_⟩
    rw [if_pos exception, isrStub, if_pos error]
    rfl
  · by_cases exception : n < 32
    · refine ⟨.isrNoErrStub n, rfl, ?_⟩
      rw [if_pos exception, isrStub, if_neg error, if_pos exception]
      rfl
    · refine ⟨.isrIrqStub n, rfl, ?_⟩
      rw [if_neg exception, isrStub, if_neg error, if_neg exception]
      rfl

def pushCode (K : Access σ ε) (s : Cpu σ) : Option Word → Except ε (Cpu σ)
  | some code => push K s code
  | none => .ok s

/-- An interrupt up to the state in which `isr_exception_handler` or `irq_handler` is entered. -/
def enter (K : Access σ ε) (g : Gate) (stub : Stub) (s : Cpu σ) : Except ε (Cpu σ) := do
  let s ← deliver K g.stack g.selector s
  let s ← pushCode K s stub.pushed
  let s ← run K s stub.code
  push K s g.back

def interruptedFrame (c : Core) (stub : Stub) : IsrXframe where
  cr4 := c.ctrl .cr4
  cr3 := c.ctrl .cr3
  cr2 := c.ctrl .cr2
  cr0 := c.ctrl .cr0
  rdi := c.regs .rdi
  rsi := c.regs .rsi
  rdx := c.regs .rdx
  rcx := c.regs .rcx
  rbx := c.regs .rbx
  rax := c.regs .rax
  rbp := c.regs .rbp
  vector := .ofNat 64 stub.number
  errorCode := stub.pushed.getD 0
  rip := c.rip
  cs := (c.seg .cs).setWidth 64
  rflags := c.rflags
  rsp := c.regs .rsp
  dss := (c.seg .ss).setWidth 64

def enteredWords (g : Gate) (stub : Stub) (c : Core) : List Word :=
  [g.back, 0, dsWord c, c.ctrl .cr4, c.ctrl .cr3, c.ctrl .cr2, c.ctrl .cr0, c.regs .rdi, c.regs .rsi, c.regs .rdx,
    c.regs .rcx, c.regs .rbx, c.regs .rax, c.regs .rbp, .ofNat 64 stub.number, stub.pushed.getD 0] ++ cpuFrame c

theorem enter_ideal (g : Gate) (stub : Stub) (c : Core) :
    ∃ t : Cpu Words, enter ideal g stub ⟨c, ⟨[], 21⟩⟩ = .ok t ∧ t.mem = ⟨enteredWords g stub c, 0⟩ := by
  cases stub with
  | isrErrStub n code => exact ⟨_, rfl, rfl⟩
  | isrNoErrStub n => exact ⟨_, rfl, rfl⟩
  | isrIrqStub n => exact ⟨_, rfl, rfl⟩

theorem code_keepsRsp (stub : Stub) : stub.code.all Instr.keepsRsp = true := by
  cases stub <;> rfl

theorem code_lea (stub : Stub) : ∃ is, stub.code = is ++ [.lea .rdi .rsp 0x10] := by
  refine ⟨stub.code.dropLast, ?_⟩
  cases stub <;> rfl

theorem pushCode_realises {base : Word} {s : Cpu Bytes} {t t' : Cpu Words} {code : Option Word}
    (real : Realises flat (fun _ => True) (fun _ => True) base s t) (ideally : pushCode ideal t code = .ok t') :
    ∃ s', pushCode (memory flat Halt.pageFault) s code = .ok s' ∧
      Realises flat (fun _ => True) (fun _ => True) base s' t' := by
  cases code with
  | some code => exact push_realises Halt.pageFault flat_region real ideally
  | none =>
    cases ideally
    exact ⟨s, rfl, real⟩

theorem enter_realises (g : Gate) (stub : Stub) (s : Cpu Bytes) :
    ∃ (c : Cpu Bytes) (x : Word), enter stackAccess g stub s = .ok c ∧
      Shows flat (fun _ => True) (fun _ => True) (g.stack &&& ~~~15#64) c.mem (c.regs .rsp)
        ⟨enteredWords g stub s.toCore, 0⟩ ∧
      c.regs .rdi = x + 0x10#64 ∧ c.regs .rsp = x - 8#64 := by
  obtain ⟨t, ideally, stack⟩ := enter_ideal g stub s.toCore
  obtain ⟨t₁, delivered, ideally⟩ := bind_ok ideally
  obtain ⟨t₂, coded, ideally⟩ := bind_ok ideally
  obtain ⟨t₃, saved, pushed⟩ := bind_ok ideally
  obtain ⟨s₁, first, real⟩ := deliver_realises Halt.pageFault flat_region trivial (by decide)
    (fun _ _ _ _ => trivial) delivered
  obtain ⟨s₂, second, real⟩ := pushCode_realises real coded
  obtain ⟨s₃, third, real⟩ := run_realises Halt.pageFault flat_region real (code_keepsRsp stub) saved
  obtain ⟨c, fourth, real⟩ := push_realises Halt.pageFault flat_region real pushed
  have shows := real.stack
  rw [stack] at shows
  have regs := push_regs fourth
  refine ⟨c, s₃.regs .rsp, ?_, shows, ?_, ?_⟩
  · unfold enter stackAccess
    rw [bind_eq first, bind_eq second, bind_eq third]
    exact fourth
  · obtain ⟨is, last⟩ := code_lea stub
    rw [last] at third
    rw [regs, Function.update_of_ne (by decide), run_lea (by decide) third]
    rfl
  · rw [regs, Function.update_self]

/-- Whatever is interrupted and through whichever kind of stub, the handler finds the interrupted
registers, the stub's number and the error code in the struct it is passed, and is called with an
aligned stack. -/
theorem enter_passes_frame (g : Gate) (stub : Stub) (s : Cpu Bytes) : ∃ c, enter stackAccess g stub s = .ok c ∧
    isrXframeAt c.mem (c.regs .rdi) = interruptedFrame s.toCore stub ∧ (c.regs .rsp + 8#64).toNat % 16 = 0 := by
  obtain ⟨c, x, run, shows, rdi, rsp⟩ := enter_realises g stub s
  have aligned := stack_aligned g.stack
  have below : x = (g.stack &&& ~~~15#64) - 160#64 := by
    have top := shows.top
    rw [rsp] at top
    change x - 8#64 = _ - 168#64 at top
    bv_omega
  have found : ∀ k v, (enteredWords g stub s.toCore)[k + 3]? = some v → k < 18 →
      member c.mem (c.regs .rdi) k = v := by
    intro k v entry inside
    rw [← shows.stack.word entry]
    unfold member slot
    rw [rdi, below]
    change BitVec.ofNat 64 (flat.load c.mem _ 8) =
      BitVec.ofNat 64 (flat.load c.mem (_ - BitVec.ofNat 64 (8 * (21 - 1 - (k + 3) + 1))).toNat 8)
    congr 2
    bv_omega
  refine ⟨c, run, ?_, ?_⟩
  · unfold isrXframeAt
    rw [found 0 _ rfl (by decide), found 1 _ rfl (by decide), found 2 _ rfl (by decide), found 3 _ rfl (by decide),
      found 4 _ rfl (by decide), found 5 _ rfl (by decide), found 6 _ rfl (by decide), found 7 _ rfl (by decide),
      found 8 _ rfl (by decide), found 9 _ rfl (by decide), found 10 _ rfl (by decide), found 11 _ rfl (by decide),
      found 12 _ rfl (by decide), found 13 _ rfl (by decide), found 14 _ rfl (by decide),
      found 15 _ rfl (by decide), found 16 _ rfl (by decide), found 17 _ rfl (by decide)]
    rfl
  · rw [rsp, below]
    bv_omega

end Voyager.Interrupts
