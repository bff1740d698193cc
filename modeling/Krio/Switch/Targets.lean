import Krio.Switch.Port

/-! The ports: the listings of `krio_fiber_switch`, the first frames and the trampolines, in the order of
    the source. A `push` is its `sub` and its store, a `pop` its load and its `add`, a `ret` a `pop` of the
    program counter. -/

namespace Krio.Switch

open Krio.Lib Krio.Lib.StackSwitch

/-- Default MXCSR and x87 control word. -/
def defaultMxcsr : ℕ := 0x1F80
def defaultX87Cw : ℕ := 0x037F

namespace X86

/-- Registers of both x86 widths, the control words, and the thread's stack bounds that Windows keeps. -/
inductive Reg where
  | ax | bx | cx | dx | si | di | bp | sp | ip
  | r8 | r9 | r10 | r11 | r12 | r13 | r14 | r15
  | xmm (n : Fin 16)
  | mxcsr | fpucw
  | stackBase | stackLimit
deriving DecidableEq

def width (word : ℕ) : Reg → ℕ
  | .xmm _ => 16
  | .mxcsr => 4
  | .fpucw => 2
  | _ => word

abbrev isa (word : ℕ) : Isa := ⟨Reg, width word, word⟩

def push (w : ℕ) (r : Reg) : List (Instr (isa w)) := [.sub .sp w, .store w r .sp 0]
def pop (w : ℕ) (r : Reg) : List (Instr (isa w)) := [.load w r .sp 0, .add .sp w]
def ret (w : ℕ) : List (Instr (isa w)) := pop w .ip

/-- What was pushed is at the top of the stack. -/
theorem read_push {w : ℕ} {r : Reg} (m : Machine (isa w)) (hr : r ≠ .sp) (hw : width w r = w) :
    (m.run (push w r)).mem.read ((m.run (push w r)).get Reg.sp) w = m.get r := by
  have hget : (m.run [.sub Reg.sp w]).get r = m.get r := Machine.get_set_of_ne hr
  have hlt : m.get r < 256 ^ w := by simpa [hw] using m.get_lt r
  calc (m.run (push w r)).mem.read ((m.run (push w r)).get Reg.sp) w
      = (m.run [.sub Reg.sp w]).get r % 256 ^ w := Memory.read_write ..
    _ = m.get r := by rw [hget, Nat.mod_eq_of_lt hlt]

theorem get_sp_push {w : ℕ} (m : Machine (isa w)) (r : Reg) :
    (m.run (push w r)).get Reg.sp + w ≡ m.get Reg.sp [MOD 256 ^ w] :=
  Instr.get_exec_sub m Reg.sp w

open Reg

namespace Sysv64

def krioFiberSwitch : List (Instr (isa 8)) :=
  List.flatten
    [ push 8 bp, push 8 bx, push 8 r12, push 8 r13, push 8 r14, push 8 r15,
      [ .sub sp 16,
        .store 4 mxcsr sp 0,
        .store 2 fpucw sp 4,
        .load 4 ax sp 0,
        .load 2 cx sp 4,
        .store 8 sp di 0,
        .load 8 sp si 0,
        .loadUnlessEq 4 mxcsr ax sp 0,
        .loadUnlessEq 2 fpucw cx sp 4,
        .add sp 16 ],
      pop 8 r15, pop 8 r14, pop 8 r13, pop 8 r12, pop 8 bx, pop 8 bp,
      pop 8 cx, [.move ip cx] ]

def port : Port where
  isa := isa 8
  sp := sp
  pc := ip
  fp := bp
  calleeSaved := [(mxcsr, 0), (fpucw, 4), (r15, 16), (r14, 24), (r13, 32), (r12, 40), (bx, 48), (bp, 56)]
  control := [(mxcsr, defaultMxcsr), (fpucw, defaultX87Cw)]
  krioFiberSwitch := krioFiberSwitch
  saveTo := .reg di
  loadFrom := .reg si
  ret := .stack 0
  callBytes := 8
  savedFrameBytes := 6 * 8 + 16
  savedFpOffset := 56
  savedRetOffset := 64
  initialFrame := [⟨0, 6 * 8 + 16, .const 0⟩, ⟨0, 4, .const defaultMxcsr⟩, ⟨4, 2, .const defaultX87Cw⟩,
    ⟨40, 8, .state⟩, ⟨64, 8, .trampoline⟩]
  initialBytes := 6 * 8 + 16 + 8
  first
    | mxcsr => .const defaultMxcsr
    | fpucw => .const defaultX87Cw
    | r12 => .state
    | _ => .const 0
  stateReg := r12
  trampoline := [.move di r12]
  argument := .reg di

theorem enters (m : Machine (isa 8)) (h : (m.get sp + port.initialBytes) % 16 = port.span % 16) :
    port.argument.get sp (m.run port.trampoline) = m.get r12 ∧ (m.run port.trampoline).get sp % 16 = 0 := by
  simp only [port, Port.span] at h
  refine ⟨Machine.get_set_get rfl, ?_⟩
  have hsp : (m.run port.trampoline).get sp = m.get sp := Machine.get_set_of_ne (by decide)
  rw [hsp]
  omega

def abi : Abi where
  toPort := port
  switches := by decide +kernel
  sp_width := rfl
  state_width := rfl
  fp_saved := by decide
  control_saved := by decide
  state_saved := by decide
  first_held := by decide +kernel
  trampoline_held := by decide
  initial_le := by decide
  span_le := by decide
  saved_le := by decide
  ret_le := by decide
  word_pos := by decide
  enters := enters

end Sysv64

namespace Ms64

/-- The thread's stack bounds at `gs:0x08` and `gs:0x10` are registers of the model. -/
def krioFiberSwitch : List (Instr (isa 8)) :=
  List.flatten
    [ [.move ax stackBase], push 8 ax, [.move ax stackLimit], push 8 ax,
      push 8 bp, push 8 bx, push 8 di, push 8 si, push 8 r12, push 8 r13, push 8 r14, push 8 r15,
      [ .sub sp 176,
        .store 4 mxcsr sp 0,
        .store 2 fpucw sp 4,
        .store 16 (xmm 6) sp 16,
        .store 16 (xmm 7) sp 32,
        .store 16 (xmm 8) sp 48,
        .store 16 (xmm 9) sp 64,
        .store 16 (xmm 10) sp 80,
        .store 16 (xmm 11) sp 96,
        .store 16 (xmm 12) sp 112,
        .store 16 (xmm 13) sp 128,
        .store 16 (xmm 14) sp 144,
        .store 16 (xmm 15) sp 160,
        .load 4 r10 sp 0,
        .load 2 r11 sp 4,
        .store 8 sp cx 0,
        .load 8 sp dx 0,
        .loadUnlessEq 4 mxcsr r10 sp 0,
        .loadUnlessEq 2 fpucw r11 sp 4,
        .load 16 (xmm 6) sp 16,
        .load 16 (xmm 7) sp 32,
        .load 16 (xmm 8) sp 48,
        .load 16 (xmm 9) sp 64,
        .load 16 (xmm 10) sp 80,
        .load 16 (xmm 11) sp 96,
        .load 16 (xmm 12) sp 112,
        .load 16 (xmm 13) sp 128,
        .load 16 (xmm 14) sp 144,
        .load 16 (xmm 15) sp 160,
        .add sp 176 ],
      pop 8 r15, pop 8 r14, pop 8 r13, pop 8 r12, pop 8 si, pop 8 di, pop 8 bx, pop 8 bp,
      pop 8 ax, [.move stackLimit ax], pop 8 ax, [.move stackBase ax], ret 8 ]

def port : Port where
  isa := isa 8
  sp := sp
  pc := ip
  fp := bp
  calleeSaved := [(mxcsr, 0), (fpucw, 4), (xmm 6, 16), (xmm 7, 32), (xmm 8, 48), (xmm 9, 64), (xmm 10, 80),
    (xmm 11, 96), (xmm 12, 112), (xmm 13, 128), (xmm 14, 144), (xmm 15, 160), (r15, 176), (r14, 184), (r13, 192),
    (r12, 200), (si, 208), (di, 216), (bx, 224), (bp, 232), (stackLimit, 240), (stackBase, 248)]
  control := [(mxcsr, defaultMxcsr), (fpucw, defaultX87Cw)]
  krioFiberSwitch := krioFiberSwitch
  saveTo := .reg cx
  loadFrom := .reg dx
  ret := .stack 0
  callBytes := 8
  savedFrameBytes := 8 * 8 + 10 * 16 + 16 + 16
  savedFpOffset := 232
  savedRetOffset := 256
  initialFrame := [⟨0, 8 * 8 + 10 * 16 + 16 + 16, .const 0⟩, ⟨0, 4, .const defaultMxcsr⟩, ⟨4, 2, .const defaultX87Cw⟩,
    ⟨200, 8, .state⟩, ⟨240, 8, .stackLimit⟩, ⟨248, 8, .top⟩, ⟨256, 8, .trampoline⟩]
  initialBytes := 8 * 8 + 10 * 16 + 16 + 16 + 8
  first
    | mxcsr => .const defaultMxcsr
    | fpucw => .const defaultX87Cw
    | r12 => .state
    | stackLimit => .stackLimit
    | stackBase => .top
    | _ => .const 0
  stateReg := r12
  trampoline := [.move cx r12, .sub sp 32]
  argument := .reg cx

theorem enters (m : Machine (isa 8)) (h : (m.get sp + port.initialBytes) % 16 = port.span % 16) :
    port.argument.get sp (m.run port.trampoline) = m.get r12 ∧ (m.run port.trampoline).get sp % 16 = 0 := by
  simp only [port, Port.span] at h
  have hmove : (m.set cx (m.get r12)).get sp = m.get sp := Machine.get_set_of_ne (by decide)
  have hcx : (m.run port.trampoline).get cx = (m.set cx (m.get r12)).get cx := Machine.get_set_of_ne (by decide)
  have hsub : (m.run port.trampoline).get sp + 32 ≡ (m.set cx (m.get r12)).get sp [MOD 16] :=
    (Instr.get_exec_sub (m.set cx (m.get r12)) sp 32).of_dvd (by decide)
  rw [hmove] at hsub
  refine ⟨hcx.trans (Machine.get_set_get rfl), ?_⟩
  unfold Nat.ModEq at hsub
  omega

def abi : Abi where
  toPort := port
  switches := by decide +kernel
  sp_width := rfl
  state_width := rfl
  fp_saved := by decide
  control_saved := by decide
  state_saved := by decide
  first_held := by decide +kernel
  trampoline_held := by decide
  initial_le := by decide
  span_le := by decide
  saved_le := by decide
  ret_le := by decide
  word_pos := by decide
  enters := enters

end Ms64

namespace I386

def krioFiberSwitch : List (Instr (isa 4)) :=
  List.flatten
    [ [ .load 4 ax sp 4,
        .load 4 dx sp 8 ],
      push 4 bp, push 4 bx, push 4 si, push 4 di,
      [ .sub sp 8,
        .store 4 mxcsr sp 0,
        .store 2 fpucw sp 4,
        .store 4 sp ax 0,
        .load 4 cx sp 0,
        .load 2 ax sp 4,
        .load 4 sp dx 0,
        .loadUnlessEq 4 mxcsr cx sp 0,
        .loadUnlessEq 2 fpucw ax sp 4,
        .add sp 8 ],
      pop 4 di, pop 4 si, pop 4 bx, pop 4 bp, ret 4 ]

def port : Port where
  isa := isa 4
  sp := sp
  pc := ip
  fp := bp
  calleeSaved := [(mxcsr, 0), (fpucw, 4), (di, 8), (si, 12), (bx, 16), (bp, 20)]
  control := [(mxcsr, defaultMxcsr), (fpucw, defaultX87Cw)]
  krioFiberSwitch := krioFiberSwitch
  saveTo := .stack 4
  loadFrom := .stack 8
  ret := .stack 0
  callBytes := 4
  savedFrameBytes := 4 * 4 + 8
  savedFpOffset := 20
  savedRetOffset := 24
  initialFrame := [⟨0, 4 * 4 + 8, .const 0⟩, ⟨0, 4, .const defaultMxcsr⟩, ⟨4, 2, .const defaultX87Cw⟩,
    ⟨16, 4, .state⟩, ⟨24, 4, .trampoline⟩]
  initialBytes := 4 * 4 + 8 + 8
  first
    | mxcsr => .const defaultMxcsr
    | fpucw => .const defaultX87Cw
    | bx => .state
    | _ => .const 0
  stateReg := bx
  trampoline := [.sub sp 8] ++ push 4 bx
  argument := .stack 0

theorem enters (m : Machine (isa 4)) (h : (m.get sp + port.initialBytes) % 16 = port.span % 16) :
    port.argument.get sp (m.run port.trampoline) = m.get bx ∧ (m.run port.trampoline).get sp % 16 = 0 := by
  simp only [port, Port.span] at h
  let grown : Machine (isa 4) := (Instr.sub sp 8).exec m
  have hfirst : grown.get sp + 8 ≡ m.get sp [MOD 16] := (Instr.get_exec_sub m sp 8).of_dvd (by decide)
  have hpush : (grown.run (push 4 bx)).get sp + 4 ≡ grown.get sp [MOD 16] := (get_sp_push grown bx).of_dvd (by decide)
  have hbx : grown.get bx = m.get bx := Machine.get_set_of_ne (by decide)
  have hread : (grown.run (push 4 bx)).mem.read ((grown.run (push 4 bx)).get sp) 4 = grown.get bx :=
    read_push grown (by decide) rfl
  refine ⟨hread.trans hbx, ?_⟩
  have hsp : (m.run port.trampoline).get sp = (grown.run (push 4 bx)).get sp := rfl
  unfold Nat.ModEq at hfirst hpush
  omega

def abi : Abi where
  toPort := port
  switches := by decide +kernel
  sp_width := rfl
  state_width := rfl
  fp_saved := by decide
  control_saved := by decide
  state_saved := by decide
  first_held := by decide +kernel
  trampoline_held := by decide
  initial_le := by decide
  span_le := by decide
  saved_le := by decide
  ret_le := by decide
  word_pos := by decide
  enters := enters

end I386

end X86

namespace Riscv64

inductive Reg where
  | ra | sp | pc | t0 | a0 | a1
  | s (n : Fin 12)
  | fs (n : Fin 12)
  | fcsr
deriving DecidableEq

def width : Reg → ℕ
  | .fcsr => 4
  | _ => 8

abbrev isa : Isa := ⟨Reg, width, 8⟩

open Reg

def krioFiberSwitch : List (Instr isa) :=
  [ .sub sp 208,
    .store 8 ra sp 0,
    .store 8 (s 0) sp 8,
    .store 8 (s 1) sp 16,
    .store 8 (s 2) sp 24,
    .store 8 (s 3) sp 32,
    .store 8 (s 4) sp 40,
    .store 8 (s 5) sp 48,
    .store 8 (s 6) sp 56,
    .store 8 (s 7) sp 64,
    .store 8 (s 8) sp 72,
    .store 8 (s 9) sp 80,
    .store 8 (s 10) sp 88,
    .store 8 (s 11) sp 96,
    .store 8 (fs 0) sp 104,
    .store 8 (fs 1) sp 112,
    .store 8 (fs 2) sp 120,
    .store 8 (fs 3) sp 128,
    .store 8 (fs 4) sp 136,
    .store 8 (fs 5) sp 144,
    .store 8 (fs 6) sp 152,
    .store 8 (fs 7) sp 160,
    .store 8 (fs 8) sp 168,
    .store 8 (fs 9) sp 176,
    .store 8 (fs 10) sp 184,
    .store 8 (fs 11) sp 192,
    .move t0 fcsr,
    .store 4 t0 sp 200,
    .store 8 sp a0 0,
    .load 8 sp a1 0,
    .load 8 ra sp 0,
    .load 8 (s 0) sp 8,
    .load 8 (s 1) sp 16,
    .load 8 (s 2) sp 24,
    .load 8 (s 3) sp 32,
    .load 8 (s 4) sp 40,
    .load 8 (s 5) sp 48,
    .load 8 (s 6) sp 56,
    .load 8 (s 7) sp 64,
    .load 8 (s 8) sp 72,
    .load 8 (s 9) sp 80,
    .load 8 (s 10) sp 88,
    .load 8 (s 11) sp 96,
    .load 8 (fs 0) sp 104,
    .load 8 (fs 1) sp 112,
    .load 8 (fs 2) sp 120,
    .load 8 (fs 3) sp 128,
    .load 8 (fs 4) sp 136,
    .load 8 (fs 5) sp 144,
    .load 8 (fs 6) sp 152,
    .load 8 (fs 7) sp 160,
    .load 8 (fs 8) sp 168,
    .load 8 (fs 9) sp 176,
    .load 8 (fs 10) sp 184,
    .load 8 (fs 11) sp 192,
    .loadSigned 4 t0 sp 200,
    .move fcsr t0,
    .add sp 208,
    .move pc ra ]

def port : Port where
  isa := isa
  sp := sp
  pc := pc
  fp := s 0
  calleeSaved := [(ra, 0), (s 0, 8), (s 1, 16), (s 2, 24), (s 3, 32), (s 4, 40), (s 5, 48), (s 6, 56), (s 7, 64), (s 8, 72),
    (s 9, 80), (s 10, 88), (s 11, 96), (fs 0, 104), (fs 1, 112), (fs 2, 120), (fs 3, 128), (fs 4, 136), (fs 5, 144),
    (fs 6, 152), (fs 7, 160), (fs 8, 168), (fs 9, 176), (fs 10, 184), (fs 11, 192), (fcsr, 200)]
  control := [(fcsr, 0)]
  krioFiberSwitch := krioFiberSwitch
  saveTo := .reg a0
  loadFrom := .reg a1
  ret := .reg ra
  callBytes := 0
  savedFrameBytes := 208
  savedFpOffset := 8
  savedRetOffset := 0
  initialFrame := [⟨0, 208, .const 0⟩, ⟨0, 8, .trampoline⟩, ⟨16, 8, .state⟩]
  initialBytes := 208
  first
    | ra => .trampoline
    | s 1 => .state
    | _ => .const 0
  stateReg := s 1
  trampoline := [.move a0 (s 1)]
  argument := .reg a0

theorem enters (m : Machine isa) (h : (m.get sp + port.initialBytes) % 16 = port.span % 16) :
    port.argument.get sp (m.run port.trampoline) = m.get (s 1) ∧ (m.run port.trampoline).get sp % 16 = 0 := by
  simp only [port, Port.span] at h
  refine ⟨Machine.get_set_get rfl, ?_⟩
  have hsp : (m.run port.trampoline).get sp = m.get sp := Machine.get_set_of_ne (by decide)
  rw [hsp]
  omega

def abi : Abi where
  toPort := port
  switches := by decide +kernel
  sp_width := rfl
  state_width := rfl
  fp_saved := by decide
  control_saved := by decide
  state_saved := by decide
  first_held := by decide +kernel
  trampoline_held := by decide
  initial_le := by decide
  span_le := by decide
  saved_le := by decide
  ret_le := by decide
  word_pos := by decide
  enters := enters

end Riscv64

namespace Aarch64

/-- The thread's stack bounds, that Windows keeps at `[x18, #8]` and `[x18, #16]`, are registers of the model. -/
inductive Reg where
  | x (n : Fin 31)
  | d (n : Fin 32)
  | sp | pc | fpcr
  | stackBase | stackLimit
deriving DecidableEq

def width : Reg → ℕ := fun _ => 8

abbrev isa : Isa := ⟨Reg, width, 8⟩

open Reg

def stp (a b : Reg) (off : ℕ) : List (Instr isa) := [.store 8 a sp off, .store 8 b sp (off + 8)]
def ldp (a b : Reg) (off : ℕ) : List (Instr isa) := [.load 8 a sp off, .load 8 b sp (off + 8)]

/-- The saved registers, with the offsets that both AArch64 targets share. -/
def savedRegs : List (Reg × ℕ) :=
  [(x 19, 0), (x 20, 8), (x 21, 16), (x 22, 24), (x 23, 32), (x 24, 40), (x 25, 48), (x 26, 56), (x 27, 64),
    (x 28, 72), (x 29, 80), (x 30, 88), (d 8, 96), (d 9, 104), (d 10, 112), (d 11, 120), (d 12, 128), (d 13, 136),
    (d 14, 144), (d 15, 152), (fpcr, 160)]

/-- The return is a `ret`, or on Apple targets a `br x30`. -/
def krioFiberSwitch : List (Instr isa) :=
  List.flatten
    [ [.sub sp 192],
      stp (x 19) (x 20) 0, stp (x 21) (x 22) 16, stp (x 23) (x 24) 32,
      stp (x 25) (x 26) 48, stp (x 27) (x 28) 64, stp (x 29) (x 30) 80,
      stp (d 8) (d 9) 96, stp (d 10) (d 11) 112, stp (d 12) (d 13) 128, stp (d 14) (d 15) 144,
      [ .move (x 10) fpcr,
        .store 8 (x 10) sp 160,
        .move (x 9) sp,
        .store 8 (x 9) (x 0) 0,
        .load 8 (x 9) (x 1) 0,
        .move sp (x 9) ],
      ldp (x 19) (x 20) 0, ldp (x 21) (x 22) 16, ldp (x 23) (x 24) 32,
      ldp (x 25) (x 26) 48, ldp (x 27) (x 28) 64, ldp (x 29) (x 30) 80,
      ldp (d 8) (d 9) 96, ldp (d 10) (d 11) 112, ldp (d 12) (d 13) 128, ldp (d 14) (d 15) 144,
      [ .load 8 (x 9) sp 160,
        .moveUnlessEq fpcr (x 9) (x 10),
        .add sp 192,
        .move pc (x 30) ] ]

def port : Port where
  isa := isa
  sp := sp
  pc := pc
  fp := x 29
  calleeSaved := savedRegs
  control := [(fpcr, 0)]
  krioFiberSwitch := krioFiberSwitch
  saveTo := .reg (x 0)
  loadFrom := .reg (x 1)
  ret := .reg (x 30)
  callBytes := 0
  savedFrameBytes := 192
  savedFpOffset := 80
  savedRetOffset := 88
  initialFrame := [⟨0, 8, .state⟩] ++ (List.range' 1 10).map (fun i => ⟨i * 8, 8, .const 0⟩) ++
    [⟨88, 8, .trampoline⟩] ++ (List.range' 12 12).map (fun i => ⟨i * 8, 8, .const 0⟩)
  initialBytes := 192
  first
    | x 19 => .state
    | x 30 => .trampoline
    | _ => .const 0
  stateReg := x 19
  trampoline := [.move (x 0) (x 19)]
  argument := .reg (x 0)

theorem enters (m : Machine isa) (h : (m.get sp + port.initialBytes) % 16 = port.span % 16) :
    port.argument.get sp (m.run port.trampoline) = m.get (x 19) ∧ (m.run port.trampoline).get sp % 16 = 0 := by
  simp only [port, Port.span] at h
  refine ⟨Machine.get_set_get rfl, ?_⟩
  have hsp : (m.run port.trampoline).get sp = m.get sp := Machine.get_set_of_ne (by decide)
  rw [hsp]
  omega

def abi : Abi where
  toPort := port
  switches := by decide +kernel
  sp_width := rfl
  state_width := rfl
  fp_saved := by decide
  control_saved := by decide
  state_saved := by decide
  first_held := by decide +kernel
  trampoline_held := by decide
  initial_le := by decide
  span_le := by decide
  saved_le := by decide
  ret_le := by decide
  word_pos := by decide
  enters := enters

namespace Windows

def krioFiberSwitch : List (Instr isa) :=
  List.flatten
    [ [.sub sp 192],
      stp (x 19) (x 20) 0, stp (x 21) (x 22) 16, stp (x 23) (x 24) 32,
      stp (x 25) (x 26) 48, stp (x 27) (x 28) 64, stp (x 29) (x 30) 80,
      stp (d 8) (d 9) 96, stp (d 10) (d 11) 112, stp (d 12) (d 13) 128, stp (d 14) (d 15) 144,
      [ .move (x 9) fpcr,
        .store 8 (x 9) sp 160,
        .move (x 9) stackLimit,
        .move (x 10) stackBase ],
      stp (x 9) (x 10) 168,
      [ .move (x 9) sp,
        .store 8 (x 9) (x 0) 0,
        .load 8 (x 9) (x 1) 0,
        .move sp (x 9) ],
      ldp (x 19) (x 20) 0, ldp (x 21) (x 22) 16, ldp (x 23) (x 24) 32,
      ldp (x 25) (x 26) 48, ldp (x 27) (x 28) 64, ldp (x 29) (x 30) 80,
      ldp (d 8) (d 9) 96, ldp (d 10) (d 11) 112, ldp (d 12) (d 13) 128, ldp (d 14) (d 15) 144,
      [ .load 8 (x 9) sp 160,
        .move fpcr (x 9) ],
      ldp (x 9) (x 10) 168,
      [ .move stackLimit (x 9),
        .move stackBase (x 10),
        .add sp 192,
        .move pc (x 30) ] ]

def port : Port where
  isa := isa
  sp := sp
  pc := pc
  fp := x 29
  calleeSaved := savedRegs ++ [(stackLimit, 168), (stackBase, 176)]
  control := [(fpcr, 0)]
  krioFiberSwitch := krioFiberSwitch
  saveTo := .reg (x 0)
  loadFrom := .reg (x 1)
  ret := .reg (x 30)
  callBytes := 0
  savedFrameBytes := 192
  savedFpOffset := 80
  savedRetOffset := 88
  initialFrame := [⟨0, 192, .const 0⟩, ⟨0, 8, .state⟩, ⟨88, 8, .trampoline⟩, ⟨168, 8, .stackLimit⟩, ⟨176, 8, .top⟩]
  initialBytes := 192
  first
    | x 19 => .state
    | x 30 => .trampoline
    | stackLimit => .stackLimit
    | stackBase => .top
    | _ => .const 0
  stateReg := x 19
  trampoline := [.move (x 0) (x 19), .zero (x 30)]
  argument := .reg (x 0)

theorem enters (m : Machine isa) (h : (m.get sp + port.initialBytes) % 16 = port.span % 16) :
    port.argument.get sp (m.run port.trampoline) = m.get (x 19) ∧ (m.run port.trampoline).get sp % 16 = 0 := by
  simp only [port, Port.span] at h
  have harg : (m.run port.trampoline).get (x 0) = (m.set (x 0) (m.get (x 19))).get (x 0) :=
    Machine.get_set_of_ne (by decide)
  have hsp : (m.run port.trampoline).get sp = m.get sp :=
    (Machine.get_set_of_ne (by decide)).trans (Machine.get_set_of_ne (by decide))
  refine ⟨harg.trans (Machine.get_set_get rfl), ?_⟩
  rw [hsp]
  omega

def abi : Abi where
  toPort := port
  switches := by decide +kernel
  sp_width := rfl
  state_width := rfl
  fp_saved := by decide
  control_saved := by decide
  state_saved := by decide
  first_held := by decide +kernel
  trampoline_held := by decide
  initial_le := by decide
  span_le := by decide
  saved_le := by decide
  ret_le := by decide
  word_pos := by decide
  enters := enters

end Windows

end Aarch64

inductive Target where
  | sysv64 | ms64 | i386 | riscv64 | aarch64 | aarch64Windows
deriving DecidableEq

def Target.abi : Target → Abi
  | sysv64 => X86.Sysv64.abi
  | ms64 => X86.Ms64.abi
  | i386 => X86.I386.abi
  | riscv64 => Riscv64.abi
  | aarch64 => Aarch64.abi
  | aarch64Windows => Aarch64.Windows.abi

end Krio.Switch
