import Krio.Lib.Memory

/-! Straight-line machine code: registers of given widths, a byte memory, and listings of loads,
    stores and moves run from any state. -/

namespace Krio.Lib

/-- A register set: each register's width and the width of an address, in bytes. -/
structure Isa where
  Reg : Type
  [decEq : DecidableEq Reg]
  width : Reg → ℕ
  word : ℕ

attribute [instance] Isa.decEq

structure Machine (I : Isa) where
  regs : (r : I.Reg) → BitVec (8 * I.width r)
  mem : Memory

theorem pow_width (n : ℕ) : 2 ^ (8 * n) = 256 ^ n := by
  rw [pow_mul]
  rfl

/-- Sign extension keeps the low bytes. -/
theorem signExtend_modEq {x n w : ℕ} (h : n ≤ w) :
    ((BitVec.ofNat (8 * n) x).signExtend (8 * w)).toNat ≡ x [MOD 256 ^ n] := by
  have hle : 2 ^ (8 * n) ∣ 2 ^ (8 * w) := pow_dvd_pow 2 (by omega)
  have hlow : ((BitVec.ofNat (8 * n) x).setWidth (8 * w)).toNat ≡ x [MOD 2 ^ (8 * n)] := by
    rw [BitVec.toNat_setWidth, BitVec.toNat_ofNat]
    exact ((Nat.mod_modEq _ _).of_dvd hle).trans (Nat.mod_modEq x _)
  rw [← pow_width, BitVec.toNat_signExtend]
  split
  · have hfill : 2 ^ (8 * w) - 2 ^ (8 * n) ≡ 0 [MOD 2 ^ (8 * n)] :=
      (Nat.modEq_zero_iff_dvd).mpr (Nat.dvd_sub hle (dvd_refl _))
    exact hlow.add hfill
  · exact hlow

namespace Machine

variable {I : Isa}

def get (m : Machine I) (r : I.Reg) : ℕ := (m.regs r).toNat

/-- A write keeps the bytes that fit the register. -/
def set (m : Machine I) (r : I.Reg) (v : ℕ) : Machine I :=
  { m with regs := Function.update m.regs r (BitVec.ofNat _ v) }

theorem get_lt (m : Machine I) (r : I.Reg) : m.get r < 256 ^ I.width r := by
  rw [← pow_width]
  exact (m.regs r).isLt

@[simp] theorem get_set_self (m : Machine I) (r : I.Reg) (v : ℕ) : (m.set r v).get r = v % 256 ^ I.width r := by
  simp [get, set, pow_width]

theorem get_set_of_ne {m : Machine I} {r r' : I.Reg} {v : ℕ} (h : r' ≠ r) : (m.set r v).get r' = m.get r' := by
  simp [get, set, Function.update_of_ne h]

@[simp] theorem mem_set (m : Machine I) (r : I.Reg) (v : ℕ) : (m.set r v).mem = m.mem := rfl

theorem add_modEq (m : Machine I) (r : I.Reg) (n : ℕ) :
    (m.regs r + BitVec.ofNat _ n).toNat ≡ m.get r + n [MOD 256 ^ I.width r] := by
  rw [BitVec.toNat_add, BitVec.toNat_ofNat, Nat.add_mod_mod, pow_width]
  exact Nat.mod_modEq _ _

theorem sub_modEq (m : Machine I) (r : I.Reg) (n : ℕ) :
    (m.regs r - BitVec.ofNat _ n).toNat + n ≡ m.get r [MOD 256 ^ I.width r] := by
  have hback := congrArg BitVec.toNat (BitVec.sub_add_cancel (m.regs r) (BitVec.ofNat _ n))
  rw [BitVec.toNat_add, BitVec.toNat_ofNat, Nat.add_mod_mod, pow_width] at hback
  exact (Nat.mod_modEq _ _).symm.trans (congrArg (· % 256 ^ I.width r) hback)

/-- A move between registers of one width. -/
theorem get_set_get {m : Machine I} {d s : I.Reg} (h : I.width d = I.width s) : (m.set d (m.get s)).get d = m.get s := by
  rw [get_set_self, h, Nat.mod_eq_of_lt (m.get_lt s)]

/-- Writing a register's own value changes nothing. -/
theorem set_get (m : Machine I) (r : I.Reg) : m.set r (m.get r) = m := by
  simp [get, set, Function.update_eq_self]

end Machine

/-- An instruction addresses memory by a register and an offset from it. -/
inductive Instr (I : Isa) where
  | sub (r : I.Reg) (n : ℕ)
  | add (r : I.Reg) (n : ℕ)
  | move (d s : I.Reg)
  | zero (r : I.Reg)
  /-- The low `n` bytes of `s` go to `off(b)`. -/
  | store (n : ℕ) (s b : I.Reg) (off : ℕ)
  | load (n : ℕ) (d b : I.Reg) (off : ℕ)
  | loadSigned (n : ℕ) (d b : I.Reg) (off : ℕ)
  /-- A compare of `off(b)` with `s`, and a load of `c` from `off(b)` that is jumped over when they are equal. -/
  | loadUnlessEq (n : ℕ) (c s b : I.Reg) (off : ℕ)
  /-- A compare of `d` with `s`, and a move of `d` to `c` that is jumped over when they are equal. -/
  | moveUnlessEq (c d s : I.Reg)

namespace Instr

variable {I : Isa}

def exec (m : Machine I) : Instr I → Machine I
  | sub r n => m.set r (m.regs r - BitVec.ofNat _ n).toNat
  | add r n => m.set r (m.regs r + BitVec.ofNat _ n).toNat
  | move d s => m.set d (m.get s)
  | zero r => m.set r 0
  | store n s b off => { m with mem := m.mem.write (m.get b + off) n (m.get s) }
  | load n d b off => m.set d (m.mem.read (m.get b + off) n)
  | loadSigned n d b off =>
    m.set d ((BitVec.ofNat (8 * n) (m.mem.read (m.get b + off) n)).signExtend (8 * I.width d)).toNat
  | loadUnlessEq n c s b off =>
    if m.mem.read (m.get b + off) n = m.get s % 256 ^ n then m else m.set c (m.mem.read (m.get b + off) n)
  | moveUnlessEq c d s => if m.get d = m.get s then m else m.set c (m.get d)

/-- Subtracting from a register, up to the wrap. -/
theorem get_exec_sub (m : Machine I) (r : I.Reg) (n : ℕ) :
    ((sub r n).exec m).get r + n ≡ m.get r [MOD 256 ^ I.width r] := by
  have hlt : (m.regs r - BitVec.ofNat _ n).toNat < 256 ^ I.width r := by
    rw [← pow_width]
    exact BitVec.isLt _
  rw [exec, Machine.get_set_self, Nat.mod_eq_of_lt hlt]
  exact m.sub_modEq r n

theorem get_exec_sub_of_le (m : Machine I) {r : I.Reg} {n : ℕ} (h : n ≤ m.get r) :
    ((sub r n).exec m).get r = m.get r - n := by
  have hsub : ((sub r n).exec m).get r + n ≡ m.get r - n + n [MOD 256 ^ I.width r] := by
    rw [Nat.sub_add_cancel h]
    exact get_exec_sub m r n
  exact (Nat.ModEq.add_right_cancel' n hsub).eq_of_lt_of_lt (Machine.get_lt ..) ((Nat.sub_le ..).trans_lt (m.get_lt r))

/-- The same instruction with its compare and jump left out. -/
def unconditional : Instr I → Instr I
  | loadUnlessEq n c _ b off => load n c b off
  | moveUnlessEq c d _ => move c d
  | i => i

end Instr

/-- Runs a listing from its first instruction to its last. -/
def Machine.run {I : Isa} (m : Machine I) (code : List (Instr I)) : Machine I :=
  code.foldl Instr.exec m

end Krio.Lib
