import Mathlib.Data.Nat.ModEq
import Mathlib.Logic.Function.Basic

/-! A byte-addressed memory and its little-endian words. -/

namespace Krio.Lib

abbrev Memory := ℕ → BitVec 8

/-- Two ranges of bytes that do not meet. -/
def Apart (a n b k : ℕ) : Prop := a + n ≤ b ∨ b + k ≤ a

instance (a n b k : ℕ) : Decidable (Apart a n b k) := inferInstanceAs (Decidable (_ ∨ _))

theorem Apart.symm {a n b k : ℕ} (h : Apart a n b k) : Apart b k a n := Or.symm h

/-- The first range may shrink. -/
theorem Apart.within {a n b k c j : ℕ} (h : Apart a n b k) (hc : a ≤ c) (hj : c + j ≤ a + n) : Apart c j b k := by
  unfold Apart at h ⊢
  omega

namespace Memory

/-- The `n` bytes at `a`, the low byte first. -/
def read (m : Memory) (a : ℕ) : ℕ → ℕ
  | 0 => 0
  | n + 1 => (m a).toNat + 256 * read m (a + 1) n

def write (m : Memory) (a n v : ℕ) : Memory :=
  fun b => if a ≤ b ∧ b < a + n then BitVec.ofNat 8 (v / 256 ^ (b - a)) else m b

theorem read_lt (m : Memory) (a n : ℕ) : m.read a n < 256 ^ n := by
  induction n generalizing a with
  | zero => simp [read]
  | succ n ih =>
    have hb : (m a).toNat < 256 := (m a).isLt
    have hr := ih (a + 1)
    rw [read, Nat.pow_succ]
    omega

theorem read_congr {m m' : Memory} {a n : ℕ} (h : ∀ b, a ≤ b → b < a + n → m b = m' b) : m.read a n = m'.read a n := by
  induction n generalizing a with
  | zero => rfl
  | succ n ih =>
    have hhead := h a (le_refl a) (by omega)
    have htail : m.read (a + 1) n = m'.read (a + 1) n := ih fun b hb hlt => h b (by omega) (by omega)
    rw [read, read, hhead, htail]

/-- Bytes that are the digits of `v` read back as `v`, cut to their number. -/
theorem read_digits {m : Memory} {a n v : ℕ} (h : ∀ i, i < n → m (a + i) = BitVec.ofNat 8 (v / 256 ^ i)) :
    m.read a n = v % 256 ^ n := by
  induction n generalizing a v with
  | zero => simp [read, Nat.mod_one]
  | succ n ih =>
    have hhead : m a = BitVec.ofNat 8 v := by simpa using h 0 (by omega)
    have htail : m.read (a + 1) n = v / 256 % 256 ^ n := by
      refine ih fun i hi => ?_
      have hdigit := h (i + 1) (by omega)
      rw [show a + 1 + i = a + (i + 1) by omega, hdigit, Nat.pow_succ', Nat.div_div_eq_div_mul]
    have hpow : 256 ^ (n + 1) = 256 * 256 ^ n := Nat.pow_succ'
    rw [read, hhead, htail, hpow, Nat.mod_mul]
    rfl

@[simp] theorem read_write (m : Memory) (a n v : ℕ) : (m.write a n v).read a n = v % 256 ^ n := by
  refine read_digits fun i hi => ?_
  rw [write, if_pos ⟨by omega, by omega⟩, Nat.add_sub_cancel_left]

theorem write_of_outside {m : Memory} {a n v b : ℕ} (h : b < a ∨ a + n ≤ b) : m.write a n v b = m b :=
  if_neg (by omega)

theorem read_write_of_apart {m : Memory} {a n v b k : ℕ} (h : Apart b k a n) : (m.write a n v).read b k = m.read b k :=
  read_congr fun c hc hlt => write_of_outside (by unfold Apart at h; omega)

/-- Zeroed bytes read as zero, whatever part of them is read. -/
theorem read_write_zero {m : Memory} {a n b k : ℕ} (ha : a ≤ b) (hn : b + k ≤ a + n) : (m.write a n 0).read b k = 0 := by
  have h : (m.write a n 0).read b k = 0 % 256 ^ k := by
    refine read_digits fun i hi => ?_
    rw [write, if_pos ⟨by omega, by omega⟩, Nat.zero_div, Nat.zero_div]
  rw [h, Nat.zero_mod]

end Memory

/-- A write at an offset from a base address; its value is given a meaning later. -/
structure Patch (V : Type) where
  off : ℕ
  n : ℕ
  val : V

variable {V : Type}

def Memory.patch (m : Memory) (base : ℕ) (value : V → ℕ) (ps : List (Patch V)) : Memory :=
  ps.foldl (fun m p => m.write (base + p.off) p.n (value p.val)) m

/-- What `n` bytes at `off` hold after the patches: the last one that writes just these bytes, or a zeroed
    block around them. -/
def Patch.held [DecidableEq V] (zero : V) (off n : ℕ) (held : Option V) (p : Patch V) : Option V :=
  if p.off = off ∧ p.n = n then some p.val
  else if Apart off n p.off p.n then held
  else if p.val = zero ∧ p.off ≤ off ∧ off + n ≤ p.off + p.n then some zero
  else none

theorem Patch.read_held [DecidableEq V] {zero v : V} {value : V → ℕ} {m : Memory} {base off n : ℕ} {old : Option V}
    {p : Patch V} (hzero : value zero = 0) (hold : ∀ u, old = some u → m.read (base + off) n = value u % 256 ^ n)
    (h : p.held zero off n old = some v) :
    (m.write (base + p.off) p.n (value p.val)).read (base + off) n = value v % 256 ^ n := by
  unfold Patch.held at h
  split at h
  next hexact =>
    obtain ⟨rfl, rfl⟩ := hexact
    obtain rfl := Option.some.inj h
    exact Memory.read_write ..
  next =>
    split at h
    next hapart =>
      have hbase : Apart (base + off) n (base + p.off) p.n := by
        unfold Apart at hapart ⊢
        omega
      rw [Memory.read_write_of_apart hbase]
      exact hold v h
    next =>
      obtain ⟨⟨hp, ha, hn⟩, hv⟩ := Option.ite_none_right_eq_some.mp h
      obtain rfl := Option.some.inj hv
      rw [hp, hzero, Memory.read_write_zero (by omega) (by omega), Nat.zero_mod]

theorem Memory.read_patch [DecidableEq V] {zero v : V} {value : V → ℕ} {m : Memory} {base off n : ℕ}
    {ps : List (Patch V)} {old : Option V} (hzero : value zero = 0)
    (hold : ∀ u, old = some u → m.read (base + off) n = value u % 256 ^ n)
    (h : ps.foldl (Patch.held zero off n) old = some v) :
    (m.patch base value ps).read (base + off) n = value v % 256 ^ n := by
  induction ps generalizing m old with
  | nil => exact hold v h
  | cons p ps ih => exact ih (fun u hu => Patch.read_held hzero hold hu) h

theorem Memory.read_patch_of_apart {value : V → ℕ} {m : Memory} {base size a n : ℕ} {ps : List (Patch V)}
    (hin : ∀ p ∈ ps, p.off + p.n ≤ size) (h : Apart a n base size) : (m.patch base value ps).read a n = m.read a n := by
  induction ps generalizing m with
  | nil => rfl
  | cons p ps ih =>
    have hp := hin p List.mem_cons_self
    have hhead : Apart a n (base + p.off) p.n := h.symm.within (by omega) (by omega) |>.symm
    rw [Memory.patch, List.foldl_cons, ← Memory.patch, ih fun q hq => hin q (List.mem_cons_of_mem _ hq)]
    exact Memory.read_write_of_apart hhead

end Krio.Lib
