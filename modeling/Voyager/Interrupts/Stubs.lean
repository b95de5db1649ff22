import Voyager.Lib.X86
import Voyager.Machine

/-!
# The interrupt path

`isr.asm` from the entry of an IRQ stub to `iretq`. Of `irq_handler` only the calling
convention is used.
-/

namespace Voyager.Interrupts

open Lib Lib.X86 ByteSpace

def isrIrqStub (vector : Word) : List Instr := [.cli, .pushImm 0, .pushImm vector]

def pushagrd : List Instr := [.push .rax, .push .rbx, .push .rcx, .push .rdx, .push .rsi, .push .rdi]

def popagrd : List Instr := [.pop .rdi, .pop .rsi, .pop .rdx, .pop .rcx, .pop .rbx, .pop .rax]

def pushacrd : List Instr :=
  [.movCtrl .rax .cr0, .push .rax, .movCtrl .rax .cr2, .push .rax, .movCtrl .rax .cr3, .push .rax,
    .movCtrl .rax .cr4, .push .rax]

def popacrd : List Instr :=
  [.pop .rax, .setCtrl .cr4 .rax, .pop .rax, .setCtrl .cr3 .rax, .pop .rax, .setCtrl .cr2 .rax, .pop .rax,
    .setCtrl .cr0 .rax]

/-- `isr_irq_xframe_assembler` before the call. -/
def irqSave : List Instr :=
  [.push .rbp, .mov .rbp .rsp] ++ pushagrd ++ pushacrd ++
    [.movSeg .rax .ds, .push .rax, .pushImm 0, .movImm16 .rax 0x10, .setSeg .ds .rax, .setSeg .es .rax,
      .setSeg .ss .rax,
      .lea .rdi .rsp 0x10]

/-- `isr_irq_xframe_assembler` from the call to `iretq`. -/
def irqRestore : List Instr :=
  [.pop .rax, .pop .rax, .setSeg .ds .rax, .setSeg .es .rax] ++ popacrd ++ popagrd ++ [.pop .rbp, .release 2, .sti]

/-- Where an interrupt finds its stack (the gates name an IST entry) and its code segment, and the
address that `call irq_handler` pushes. -/
structure Gate where
  stack : Word
  selector : BitVec 16
  back : Word

def stackAccess : Access Bytes Halt := memory flat .pageFault

def irqCall (g : Gate) (vector : Word) (s : Cpu Bytes) : Kernel (Cpu Bytes) := do
  let s ← deliver stackAccess g.stack g.selector s
  let s ← run stackAccess s (isrIrqStub vector ++ irqSave)
  push stackAccess s g.back

/-- An interrupt, from the interrupted instruction to the one after `iretq`. -/
def interrupt (g : Gate) (irqHandler : Cpu Bytes → Cpu Bytes) (vector : Word) (s : Cpu Bytes) :
    Kernel (Cpu Bytes) := do
  let s ← irqCall g vector s
  let s ← run stackAccess (irqHandler s) irqRestore
  exec stackAccess s .iretq

def cpuFrame (c : Core) : List Word := [c.rip, (c.seg .cs).setWidth 64, c.rflags, c.regs .rsp, (c.seg .ss).setWidth 64]

/-- The word that `mov ax, ds` leaves in `rax`, on top of what was left of `cr4`. -/
def dsWord (c : Core) : Word := (c.ctrl .cr4).extractLsb' 16 48 ++ c.seg .ds

def savedFrame (c : Core) (vector : Word) : List Word :=
  [0, dsWord c, c.ctrl .cr4, c.ctrl .cr3, c.ctrl .cr2, c.ctrl .cr0, c.regs .rdi, c.regs .rsi, c.regs .rdx,
    c.regs .rcx, c.regs .rbx,
    c.regs .rax, c.regs .rbp, vector, 0]

theorem save_ideal (g : Gate) (vector : Word) (c : Core) : ∃ t : Cpu Words, (do
      let t ← deliver ideal g.stack g.selector ⟨c, ⟨[], 21⟩⟩
      let t ← run ideal t (isrIrqStub vector ++ irqSave)
      push ideal t g.back) = .ok t ∧
    t.mem = ⟨g.back :: (savedFrame c vector ++ cpuFrame c), 0⟩ ∧
    ∀ r ∈ [Reg.r8, .r9, .r10, .r11, .r12, .r13, .r14, .r15], t.regs r = c.regs r := by
  refine ⟨_, rfl, rfl, fun r hr => ?_⟩
  simp only [List.mem_cons, List.not_mem_nil, or_false] at hr
  rcases hr with rfl | rfl | rfl | rfl | rfl | rfl | rfl | rfl <;> rfl

def restored : List Reg := [.rax, .rbx, .rcx, .rdx, .rsi, .rdi, .rbp, .rsp]

theorem dsWord_low (c : Core) : (dsWord c).setWidth 16 = c.seg .ds := BitVec.setWidth_append_eq_right

theorem setWidth_back (x : BitVec 16) : (x.setWidth 64).setWidth 16 = x := by
  rw [BitVec.setWidth_setWidth_of_le x (by decide), BitVec.setWidth_eq]

theorem restore_ideal (vector : Word) (c d : Core) : ∃ t : Cpu Words, (do
      let t ← run ideal ⟨d, ⟨savedFrame c vector ++ cpuFrame c, 1⟩⟩ irqRestore
      exec ideal t .iretq) = .ok t ∧
    (∀ r, t.regs r = if r ∈ restored then c.regs r else d.regs r) ∧ t.rip = c.rip ∧ t.rflags = c.rflags ∧
      t.seg .cs = c.seg .cs ∧ t.seg .ss = c.seg .ss ∧ t.seg .ds = c.seg .ds ∧ ∀ r, t.ctrl r = c.ctrl r := by
  refine ⟨_, rfl, fun r => ?_, rfl, rfl, ?_, ?_, ?_, fun r => ?_⟩
  · cases r <;> rfl
  · exact setWidth_back _
  · exact setWidth_back _
  · exact dsWord_low c
  · cases r <;> rfl

/-- A C function that obeys the calling convention, with the saved frame above its return address. -/
def Obeys (irqHandler : Cpu Bytes → Cpu Bytes) : Prop := ∀ c, Returns flat 20 c (irqHandler c)

/-- What the interrupted code sees of an interrupt. -/
structure Transparent (s u : Cpu Bytes) : Prop where
  regs : ∀ r, u.regs r = s.regs r
  rip : u.rip = s.rip
  rflags : u.rflags = s.rflags
  segments : u.seg .cs = s.seg .cs ∧ u.seg .ss = s.seg .ss ∧ u.seg .ds = s.seg .ds
  control : u.ctrl .cr0 = s.ctrl .cr0 ∧ u.ctrl .cr3 = s.ctrl .cr3 ∧ u.ctrl .cr4 = s.ctrl .cr4

/-- The registers that a C function may change and that nothing here saves. -/
def unsaved : List Reg := [.r8, .r9, .r10, .r11]

structure Resumed (s u : Cpu Bytes) (left : Reg → Word) : Prop where
  regs : ∀ r, u.regs r = if r ∈ unsaved then left r else s.regs r
  rip : u.rip = s.rip
  rflags : u.rflags = s.rflags
  segments : u.seg .cs = s.seg .cs ∧ u.seg .ss = s.seg .ss ∧ u.seg .ds = s.seg .ds
  control : ∀ r, u.ctrl r = s.ctrl r

variable {irqHandler : Cpu Bytes → Cpu Bytes}

theorem irqCall_realises (g : Gate) (vector : Word) (s : Cpu Bytes) :
    ∃ c t, irqCall g vector s = .ok c ∧ Realises flat (fun _ => True) (fun _ => True) (g.stack &&& ~~~15#64) c t ∧
      t.mem = ⟨g.back :: (savedFrame s.toCore vector ++ cpuFrame s.toCore), 0⟩ ∧
      ∀ r ∈ [Reg.r8, .r9, .r10, .r11, .r12, .r13, .r14, .r15], c.regs r = s.regs r := by
  obtain ⟨t, ideally, stack, regs⟩ := save_ideal g vector s.toCore
  obtain ⟨t₁, delivered, ideally⟩ := bind_ok ideally
  obtain ⟨t₂, saved, pushed⟩ := bind_ok ideally
  obtain ⟨s₁, first, real⟩ := deliver_realises Halt.pageFault flat_region trivial (by decide)
    (fun _ _ _ _ => trivial) delivered
  obtain ⟨s₂, second, real⟩ := run_realises Halt.pageFault flat_region real rfl saved
  obtain ⟨c, third, real⟩ := push_realises Halt.pageFault flat_region real pushed
  refine ⟨c, t, ?_, real, stack, ?_⟩
  · unfold irqCall stackAccess
    rw [bind_eq first, bind_eq second]
    exact third
  · rw [real.core]
    exact regs

theorem interrupt_resumes (g : Gate) (vector : Word) (s : Cpu Bytes) (obeys : Obeys irqHandler) :
    ∃ c u, irqCall g vector s = .ok c ∧ interrupt g irqHandler vector s = .ok u ∧ Resumed s u (irqHandler c).regs ∧
      ∀ r ∈ unsaved, c.regs r = s.regs r := by
  obtain ⟨c, t, call, real, stack, kept⟩ := irqCall_realises g vector s
  have returns := obeys c
  have back := returns.realises real trivial stack
  obtain ⟨t', ideally, regs, rip, rflags, cs, ss, ds, ctrl⟩ := restore_ideal vector s.toCore (irqHandler c).toCore
  obtain ⟨t₁, restored, last⟩ := bind_ok ideally
  obtain ⟨s₁, first, real₁⟩ := run_realises Halt.pageFault flat_region back rfl restored
  obtain ⟨u, second, core⟩ := iretq_realises Halt.pageFault flat_region real₁ last
  refine ⟨c, u, call, ?_, ⟨?_, ?_, ?_, ?_, ?_⟩, ?_⟩
  · unfold interrupt stackAccess
    rw [bind_eq call, bind_eq first]
    exact second
  · intro r
    rw [core, regs]
    cases r with
    | r12 | r13 | r14 | r15 => exact (returns.saved _ (by decide)).trans (kept _ (by decide))
    | _ => rfl
  · rw [core, rip]
  · rw [core, rflags]
  · rw [core]
    exact ⟨cs, ss, ds⟩
  · rw [core]
    exact ctrl
  · intro r hr
    apply kept
    simp only [unsaved, List.mem_cons, List.not_mem_nil, or_false] at hr ⊢
    tauto

/-- An interrupt goes unnoticed exactly when the C code puts back the registers that the frame leaves out. -/
theorem interrupt_transparent_iff (g : Gate) (vector : Word) (s : Cpu Bytes) (obeys : Obeys irqHandler) :
    ∃ c u, irqCall g vector s = .ok c ∧ interrupt g irqHandler vector s = .ok u ∧
      (Transparent s u ↔ ∀ r ∈ unsaved, (irqHandler c).regs r = c.regs r) := by
  obtain ⟨c, u, call, run, resumed, kept⟩ := interrupt_resumes g vector s obeys
  refine ⟨c, u, call, run, fun transparent r hr => ?_, fun same => ?_⟩
  · have here := resumed.regs r
    rw [if_pos hr, transparent.regs] at here
    rw [← here, kept r hr]
  · refine ⟨fun r => ?_, resumed.rip, resumed.rflags, resumed.segments, resumed.control _, resumed.control _,
      resumed.control _⟩
    rw [resumed.regs]
    split
    · rename_i hr
      rw [same r hr, kept r hr]
    · rfl

/-- A function with one byte of locals that destroys registers which are not its own to keep. Of those
that the frame leaves out it puts a `value` into `r8`, if it is given one. -/
def leaf (value : Option Word) (c : Cpu Bytes) : Cpu Bytes where
  regs
    | .rax | .rcx | .rdx | .rsi | .rdi => 0xDEADBEEF
    | .r8 => value.getD (c.regs .r8)
    | .rsp => c.regs .rsp + 8#64
    | r => c.regs r
  seg := c.seg
  ctrl := c.ctrl
  rip := BitVec.ofNat 64 (flat.load c.mem (c.regs .rsp).toNat 8)
  rflags := c.rflags
  mem := flat.set c.mem (c.regs .rsp - 1#64).toNat 0x7F

theorem leaf_obeys (value : Option Word) : Obeys (leaf value) := by
  refine fun c => ⟨fun r hr => ?_, rfl, rfl, rfl, fun j hj => if_neg ?_⟩
  · simp only [calleeSaved, List.mem_cons, List.not_mem_nil, or_false] at hr
    rcases hr with rfl | rfl | rfl | rfl | rfl | rfl <;> rfl
  · bv_omega

def busy : Cpu Bytes where
  regs
    | .rax => 1 | .rbx => 2 | .rcx => 3 | .rdx => 4 | .rsi => 5 | .rdi => 6 | .rbp => 0xFFFFFFFF80020F80
    | .rsp => 0xFFFFFFFF80020F00 | .r8 => 7 | .r9 => 8 | .r10 => 9 | .r11 => 10 | .r12 => 11 | .r13 => 12
    | .r14 => 13 | .r15 => 14
  seg
    | .cs => 0x28
    | .ss | .ds | .es => 0x30
  ctrl
    | .cr0 => 0x80010011
    | .cr2 => 0
    | .cr3 => 0x8000000
    | .cr4 => 0x20
  rip := 0xFFFFFFFF80001234
  rflags := 0x202
  mem _ := 0

def kernelGate : Gate := ⟨0xFFFFFFFF80010000, 0x28, 0xFFFFFFFF80002000⟩

theorem interrupt_transparent_leaf : ∃ c u, irqCall kernelGate 32 busy = .ok c ∧
    interrupt kernelGate (leaf none) 32 busy = .ok u ∧ Transparent busy u ∧
    ∀ r ∈ [Reg.rax, .rcx, .rdx, .rsi, .rdi], (leaf none c).regs r ≠ u.regs r := by
  obtain ⟨c, u, call, run, iff⟩ := interrupt_transparent_iff kernelGate 32 busy (leaf_obeys none)
  have transparent : Transparent busy u := by
    refine iff.mpr fun r hr => ?_
    simp only [unsaved, List.mem_cons, List.not_mem_nil, or_false] at hr
    rcases hr with rfl | rfl | rfl | rfl <;> rfl
  have own : ∀ r ∈ [Reg.rax, .rcx, .rdx, .rsi, .rdi], 0xDEADBEEF ≠ busy.regs r := by decide
  refine ⟨c, u, call, run, transparent, fun r hr => ?_⟩
  rw [transparent.regs]
  have differs := own r hr
  simp only [List.mem_cons, List.not_mem_nil, or_false] at hr
  rcases hr with rfl | rfl | rfl | rfl | rfl <;> exact differs

theorem interrupt_clobbers_r8 : Obeys (leaf (some 1)) ∧ ∃ u, interrupt kernelGate (leaf (some 1)) 32 busy = .ok u ∧
    busy.regs .r8 = 7 ∧ u.regs .r8 = 1 ∧ ¬ Transparent busy u := by
  obtain ⟨c, u, _, run, resumed, _⟩ := interrupt_resumes kernelGate 32 busy (leaf_obeys (some 1))
  have changed : u.regs .r8 = 1 := resumed.regs .r8
  refine ⟨leaf_obeys _, u, run, rfl, changed, fun transparent => ?_⟩
  have same := transparent.regs .r8
  rw [changed] at same
  exact absurd same (by decide)

end Voyager.Interrupts
