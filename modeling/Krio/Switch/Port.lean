import Krio.Lib.StackSwitch

/-! A port of the context switch to one target: its listing, its hand-built first frame, its trampoline and
    its published offsets, and the checks that tie them together. -/

namespace Krio.Switch

open Krio.Lib Krio.Lib.StackSwitch

/-- Where a call finds an argument: in a register, or on the stack at an offset from the stack pointer. -/
inductive Arg (I : Isa) where
  | reg (r : I.Reg)
  | stack (off : ℕ)

def Arg.get {I : Isa} (sp : I.Reg) (m : Machine I) : Arg I → ℕ
  | reg r => m.get r
  | stack off => m.mem.read (m.get sp + off) I.word

/-- What `initial_frame` writes in a slot of the first frame. -/
inductive Init where
  | const (v : ℕ)
  | state
  | trampoline
  | stackLimit
  | top
deriving DecidableEq

/-- The arguments of `initial_frame`. -/
structure Start where
  top : ℕ
  stackLimit : ℕ
  state : ℕ
  trampoline : ℕ

def Init.value (f : Start) : Init → ℕ
  | const v => v
  | state => f.state
  | trampoline => f.trampoline
  | stackLimit => f.stackLimit
  | top => f.top

structure Port where
  isa : Isa
  sp : isa.Reg
  pc : isa.Reg
  fp : isa.Reg
  /-- The callee-saved registers, with the documented offsets in the saved frame. -/
  calleeSaved : List (isa.Reg × ℕ)
  /-- The floating-point control words and their default values. -/
  control : List (isa.Reg × ℕ)
  /-- `krio_fiber_switch`, its arguments and the return address at its entry. -/
  krioFiberSwitch : List (Instr isa)
  saveTo : Arg isa
  loadFrom : Arg isa
  ret : Arg isa
  /-- The bytes that a call pushes. -/
  callBytes : ℕ
  savedFrameBytes : ℕ
  savedFpOffset : ℕ
  savedRetOffset : ℕ
  /-- The writes of `initial_frame`, at offsets from the `sp` it returns, and how far that is below `top`. -/
  initialFrame : List (Patch Init)
  initialBytes : ℕ
  /-- What each callee-saved register of a fresh context holds. -/
  first : isa.Reg → Init
  stateReg : isa.Reg
  /-- The trampoline up to its call, and where the called function finds its argument. -/
  trampoline : List (Instr isa)
  argument : Arg isa

namespace Port

variable (P : Port)

/-- An argument of `krio_fiber_switch`, told from the low end of the frame it is about to save. -/
def val : Arg P.isa → Val P.isa.Reg
  | .reg r => .entry r
  | .stack off => .ownCell (P.savedFrameBytes + off) P.isa.word

/-- The bytes from a saved `sp` that a switch to it reads: the frame, and on x86 the return address above it. -/
def span : ℕ := P.savedFrameBytes + P.callBytes

def contract : Contract P.isa :=
  ⟨P.sp, P.savedFrameBytes, P.span, P.val P.saveTo, P.val P.loadFrom⟩

def layout : Layout P.isa :=
  ⟨P.calleeSaved, P.pc, P.val P.ret, P.savedRetOffset⟩

/-- What the first frame holds in `n` bytes at an offset. -/
def held (off n : ℕ) : Option Init :=
  P.initialFrame.foldl (Patch.held (.const 0) off n) none

end Port

/-- A port whose parts agree. -/
structure Abi extends Port where
  switches : toPort.layout.check toPort.contract krioFiberSwitch = true
  sp_width : isa.width sp = isa.word
  state_width : isa.width stateReg = isa.word
  fp_saved : (fp, savedFpOffset) ∈ calleeSaved
  control_saved : ∀ c ∈ control, first c.1 = .const c.2 ∧ c.2 < 256 ^ isa.width c.1 ∧ c.1 ∈ calleeSaved.map Prod.fst
  state_saved : first stateReg = .state ∧ stateReg ∈ calleeSaved.map Prod.fst
  first_held : ∀ s ∈ calleeSaved, toPort.held s.2 (isa.width s.1) = some (first s.1)
  trampoline_held : toPort.held savedRetOffset isa.word = some .trampoline
  initial_le : ∀ p ∈ initialFrame, p.off + p.n ≤ initialBytes
  span_le : toPort.span ≤ initialBytes
  saved_le : ∀ s ∈ calleeSaved, s.2 + isa.width s.1 ≤ toPort.span
  ret_le : savedRetOffset + isa.word ≤ toPort.span
  word_pos : 0 < isa.word
  /-- The trampoline, entered with the residue of a fresh context, calls with its argument in place and
      the stack aligned. -/
  enters : ∀ m : Machine isa, (m.get sp + initialBytes) % 16 = toPort.span % 16 →
    argument.get sp (m.run trampoline) = m.get stateReg ∧ (m.run trampoline).get sp % 16 = 0

end Krio.Switch
