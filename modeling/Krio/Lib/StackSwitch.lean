import Krio.Lib.Listing

/-! A listing that saves registers in a frame on its own stack, records where the frame is, and takes
    registers back from a frame on another stack. A run on symbolic values decides what it does from
    every state. -/

namespace Krio.Lib.StackSwitch

/-- What a register or a saved cell holds, in terms of the machine at entry. Offsets count from the
    low end of a frame: the `own` one that is written and the `other` one that is read. -/
inductive Val (R : Type) where
  | entry (r : R)
  | own (k : ℕ)
  | other (k : ℕ)
  | ownCell (off n : ℕ)
  | otherCell (off n : ℕ)
deriving DecidableEq

/-- The contract of a listing: the stack pointer, the size of the saved frame, the part of the stack
    above the frame's low end that the switch reads back, and where the two pointers arrive. -/
structure Contract (I : Isa) where
  sp : I.Reg
  frame : ℕ
  span : ℕ
  saveTo : Val I.Reg
  loadFrom : Val I.Reg

/-- The machine at entry and the low ends of the two frames. -/
structure Entry (I : Isa) where
  start : Machine I
  own : ℕ
  other : ℕ

structure Cell (R : Type) where
  off : ℕ
  n : ℕ
  val : Val R
deriving DecidableEq

/-- The symbolic state: registers, saved cells, and whether the frame's address is recorded. -/
structure Sym (I : Isa) where
  regs : I.Reg → Val I.Reg
  cells : List (Cell I.Reg)
  recorded : Bool

variable {I : Isa}

def Val.denote (e : Entry I) : Val I.Reg → ℕ
  | entry r => e.start.get r
  | own k => e.own + k
  | other k => e.other + k
  | ownCell off n => e.start.mem.read (e.own + off) n
  | otherCell off n => e.start.mem.read (e.other + off) n

def Val.bytes : Val I.Reg → ℕ
  | entry r => I.width r
  | own _ => I.word
  | other _ => I.word
  | ownCell _ n => n
  | otherCell _ n => n

namespace Sym

def initial (C : Contract I) : Sym I :=
  ⟨Function.update Val.entry C.sp (.own C.frame), [], false⟩

def set (y : Sym I) (r : I.Reg) (v : Val I.Reg) : Sym I :=
  { y with regs := Function.update y.regs r v }

def cell (y : Sym I) (off n : ℕ) : Option (Val I.Reg) :=
  (y.cells.find? fun c => c.off = off ∧ c.n = n).map Cell.val

/-- What a load of `n` bytes at `off(b)` gives. Above the own frame memory is read as it was at entry,
    while nothing has been recorded. -/
def source (C : Contract I) (y : Sym I) (b : I.Reg) (off n : ℕ) : Option (Val I.Reg) :=
  if I.width b ≠ I.word then none else
  match y.regs b with
  | .own k =>
    if k < C.span then
      match y.cell (k + off) n with
      | some v => some v
      | none => if C.frame ≤ k + off ∧ y.recorded = false then some (.ownCell (k + off) n) else none
    else none
  | .other k => if k < C.span ∧ k + off + n ≤ C.span then some (.otherCell (k + off) n) else none
  | v => if v = C.loadFrom ∧ v.bytes = I.word ∧ off = 0 ∧ n = I.word then some (.other 0) else none

/-- A store goes to fresh bytes of the own frame, or records the frame's address. -/
def store (C : Contract I) (y : Sym I) (n : ℕ) (s b : I.Reg) (off : ℕ) : Option (Sym I) :=
  if I.width b ≠ I.word ∨ y.recorded = true then none else
  match y.regs b with
  | .own k =>
    if k < C.span ∧ k + off + n ≤ C.frame ∧ n = (y.regs s).bytes ∧ ∀ c ∈ y.cells, Apart c.off c.n (k + off) n then
      some { y with cells := ⟨k + off, n, y.regs s⟩ :: y.cells }
    else none
  | .other _ => none
  | v =>
    if v = C.saveTo ∧ v.bytes = I.word ∧ off = 0 ∧ n = I.word ∧ y.regs s = .own 0 then
      some { y with recorded := true }
    else none

def load (C : Contract I) (y : Sym I) (n : ℕ) (d b : I.Reg) (off : ℕ) : Option (Sym I) :=
  if n ≤ I.width d then (y.source C b off n).map (y.set d) else none

def move (y : Sym I) (d s : I.Reg) : Option (Sym I) :=
  if (y.regs s).bytes ≤ I.width d then some (y.set d (y.regs s)) else none

/-- The two registers hold one value, and hold the whole of it. -/
def Same (y : Sym I) (c s : I.Reg) : Prop :=
  y.regs c = y.regs s ∧ (y.regs s).bytes = I.width c

instance (y : Sym I) (c s : I.Reg) : Decidable (y.Same c s) := inferInstanceAs (Decidable (_ ∧ _))

def step (C : Contract I) (y : Sym I) : Instr I → Option (Sym I)
  | .sub r n =>
    match y.regs r with
    | .own k => if n ≤ k ∧ I.width r = I.word then some (y.set r (.own (k - n))) else none
    | _ => none
  | .add r n =>
    match y.regs r with
    | .other k => if I.width r = I.word then some (y.set r (.other (k + n))) else none
    | _ => none
  | .move d s => y.move d s
  | .zero _ => none
  | .store n s b off => y.store C n s b off
  | .load n d b off => y.load C n d b off
  | .loadSigned n d b off => y.load C n d b off
  | .loadUnlessEq n c s b off => if y.Same c s ∧ n = I.width c then y.load C n c b off else none
  | .moveUnlessEq c d s =>
    if y.Same c s ∧ I.width d = I.width c ∧ I.width s = I.width c ∧ (y.regs d).bytes = I.width c then y.move c d
    else none

def run (C : Contract I) (y : Sym I) : List (Instr I) → Option (Sym I)
  | [] => some y
  | i :: code => (y.step C i).bind fun z => z.run C code

end Sym

/-- What the caller of a switch provides: both frames lie in the address space, the two pointers and the
    other frame keep clear of the bytes the switch writes. -/
structure Entry.Ok (C : Contract I) (e : Entry I) : Prop where
  sp_width : I.width C.sp = I.word
  sp : e.start.get C.sp = e.own + C.frame
  frame_le : C.frame ≤ C.span
  own_le : e.own + C.span ≤ 256 ^ I.word
  other_le : e.other + C.span ≤ 256 ^ I.word
  other_eq : e.start.mem.read (C.loadFrom.denote e) I.word = e.other
  to_own : Apart (C.saveTo.denote e) I.word e.own C.span
  from_own : Apart (C.loadFrom.denote e) I.word e.own C.frame
  from_to : Apart (C.loadFrom.denote e) I.word (C.saveTo.denote e) I.word
  other_own : Apart e.other C.span e.own C.frame
  other_to : Apart e.other C.span (C.saveTo.denote e) I.word

/-- A machine is as a symbolic state says: each register and each saved cell holds the low bytes of its
    value, and memory is changed only in the own frame and where the frame's address is recorded. -/
structure Sound (C : Contract I) (e : Entry I) (m : Machine I) (y : Sym I) : Prop where
  regs : ∀ r, (y.regs r).bytes ≤ I.width r ∧ m.get r ≡ (y.regs r).denote e [MOD 256 ^ (y.regs r).bytes]
  cells : ∀ c ∈ y.cells, c.off + c.n ≤ C.frame ∧ c.n = c.val.bytes ∧
    m.mem.read (e.own + c.off) c.n ≡ c.val.denote e [MOD 256 ^ c.n]
  outside : ∀ a, a < e.own ∨ e.own + C.frame ≤ a →
    (y.recorded = true → a < C.saveTo.denote e ∨ C.saveTo.denote e + I.word ≤ a) → m.mem a = e.start.mem a
  recorded : y.recorded = true → m.mem.read (C.saveTo.denote e) I.word ≡ e.own [MOD 256 ^ I.word]

section
variable {C : Contract I} {e : Entry I} {m : Machine I} {y z : Sym I}

theorem sound_initial (he : e.Ok C) : Sound C e e.start (Sym.initial C) where
  regs := by
    intro r
    by_cases hr : r = C.sp
    · subst hr
      have hsp : (Sym.initial C).regs C.sp = .own C.frame := Function.update_self ..
      rw [hsp, Val.bytes, Val.denote, he.sp]
      exact ⟨he.sp_width.ge, Nat.ModEq.refl _⟩
    · have hreg : (Sym.initial C).regs r = .entry r := Function.update_of_ne hr ..
      rw [hreg]
      exact ⟨le_refl _, Nat.ModEq.refl _⟩
  cells := by simp [Sym.initial]
  outside := fun _ _ _ => rfl
  recorded := by simp [Sym.initial]

/-- A register that holds an address holds it whole. -/
theorem Sound.address (h : Sound C e m y) {b : I.Reg} (hw : I.width b = I.word) (hv : (y.regs b).bytes = I.word)
    (hlt : (y.regs b).denote e < 256 ^ I.word) : m.get b = (y.regs b).denote e := by
  have hmod := (h.regs b).2
  have hget := m.get_lt b
  rw [hv] at hmod
  rw [hw] at hget
  exact hmod.eq_of_lt_of_lt hget hlt

theorem Sound.own_address (h : Sound C e m y) (he : e.Ok C) {b : I.Reg} {k : ℕ} (hw : I.width b = I.word)
    (hb : y.regs b = .own k) (hk : k < C.span) : m.get b = e.own + k := by
  have hle := he.own_le
  have haddr := h.address hw (by rw [hb]; rfl) (by rw [hb, Val.denote]; omega)
  rwa [hb] at haddr

theorem Sound.other_address (h : Sound C e m y) (he : e.Ok C) {b : I.Reg} {k : ℕ} (hw : I.width b = I.word)
    (hb : y.regs b = .other k) (hk : k < C.span) : m.get b = e.other + k := by
  have hle := he.other_le
  have haddr := h.address hw (by rw [hb]; rfl) (by rw [hb, Val.denote]; omega)
  rwa [hb] at haddr

/-- A range apart from the own frame and from the recorded pointer reads as it did at entry. -/
theorem Sound.read_outside (h : Sound C e m y) {a n : ℕ} (hown : Apart a n e.own C.frame)
    (hto : y.recorded = true → Apart a n (C.saveTo.denote e) I.word) : m.mem.read a n = e.start.mem.read a n := by
  refine Memory.read_congr fun b hb hlt => h.outside b ?_ fun hr => ?_
  · unfold Apart at hown
    omega
  · have hapart := hto hr
    unfold Apart at hapart
    omega

/-- The symbolic value of a register is the value it has, if it is what it was told at entry. -/
theorem Val.denote_lt {v : Val I.Reg} (hown : ∀ k, v ≠ .own k) (hother : ∀ k, v ≠ .other k) :
    v.denote e < 256 ^ v.bytes := by
  cases v with
  | entry r => exact e.start.get_lt r
  | own k => exact absurd rfl (hown k)
  | other k => exact absurd rfl (hother k)
  | ownCell off n => exact Memory.read_lt ..
  | otherCell off n => exact Memory.read_lt ..

theorem Sym.mem_of_cell {off n : ℕ} {v : Val I.Reg} (h : y.cell off n = some v) : ⟨off, n, v⟩ ∈ y.cells := by
  obtain ⟨c, hc, rfl⟩ := Option.map_eq_some_iff.mp h
  have heq : c.off = off ∧ c.n = n := by simpa using List.find?_some hc
  obtain ⟨rfl, rfl⟩ := heq
  exact List.mem_of_find?_eq_some hc

/-- What the symbolic run says a load gives is what memory holds there. -/
theorem Sound.source (h : Sound C e m y) (he : e.Ok C) {b : I.Reg} {off n : ℕ} {v : Val I.Reg}
    (hs : y.source C b off n = some v) : v.bytes = n ∧ m.mem.read (m.get b + off) n ≡ v.denote e [MOD 256 ^ n] := by
  unfold Sym.source at hs
  by_cases hw : I.width b = I.word
  swap
  · simp [hw] at hs
  rw [if_neg (not_not.mpr hw)] at hs
  split at hs
  next k hb =>
    split at hs
    next hk =>
      rw [h.own_address he hw hb hk, Nat.add_assoc]
      split at hs
      next w hcell =>
        obtain rfl := Option.some.inj hs
        obtain ⟨-, hn, hread⟩ := h.cells _ (Sym.mem_of_cell hcell)
        exact ⟨hn.symm, hread⟩
      next =>
        obtain ⟨⟨hoff, hrec⟩, hv⟩ := Option.ite_none_right_eq_some.mp hs
        obtain rfl := Option.some.inj hv
        have hread : m.mem.read (e.own + (k + off)) n = e.start.mem.read (e.own + (k + off)) n :=
          h.read_outside (Or.inr (by omega)) (by simp [hrec])
        rw [hread]
        exact ⟨rfl, Nat.ModEq.refl _⟩
    next => cases hs
  next k hb =>
    obtain ⟨⟨hk, hle⟩, hv⟩ := Option.ite_none_right_eq_some.mp hs
    obtain rfl := Option.some.inj hv
    have hframe : Apart (e.other + (k + off)) n e.own C.frame := he.other_own.within (by omega) (by omega)
    have hto : Apart (e.other + (k + off)) n (C.saveTo.denote e) I.word := he.other_to.within (by omega) (by omega)
    rw [h.other_address he hw hb hk, Nat.add_assoc, h.read_outside hframe fun _ => hto]
    exact ⟨rfl, Nat.ModEq.refl _⟩
  next w hown hother =>
    obtain ⟨⟨hfrom, hbytes, rfl, rfl⟩, hv⟩ := Option.ite_none_right_eq_some.mp hs
    obtain rfl := Option.some.inj hv
    have hlt : (y.regs b).denote e < 256 ^ I.word := hbytes ▸ Val.denote_lt hown hother
    rw [h.address hw hbytes hlt, hfrom, Nat.add_zero, h.read_outside he.from_own fun _ => he.from_to, he.other_eq]
    exact ⟨rfl, Nat.ModEq.refl _⟩

/-- A register is given a value, of which it holds the low bytes. -/
theorem Sound.set (h : Sound C e m y) {r : I.Reg} {v : Val I.Reg} {x : ℕ} (hle : v.bytes ≤ I.width r)
    (hx : x ≡ v.denote e [MOD 256 ^ v.bytes]) : Sound C e (m.set r x) (y.set r v) where
  regs := by
    intro r'
    by_cases hr : r' = r
    · subst hr
      have hreg : (y.set r' v).regs r' = v := Function.update_self ..
      rw [hreg, m.get_set_self]
      exact ⟨hle, ((Nat.mod_modEq x _).of_dvd (pow_dvd_pow 256 hle)).trans hx⟩
    · have hreg : (y.set r v).regs r' = y.regs r' := Function.update_of_ne hr ..
      rw [hreg, m.get_set_of_ne hr]
      exact h.regs r'
  cells := h.cells
  outside := h.outside
  recorded := h.recorded

theorem Sound.store (h : Sound C e m y) (he : e.Ok C) {n off : ℕ} {s b : I.Reg} (hs : y.store C n s b off = some z) :
    Sound C e { m with mem := m.mem.write (m.get b + off) n (m.get s) } z := by
  unfold Sym.store at hs
  obtain ⟨hguard, hs⟩ := Option.ite_none_left_eq_some.mp hs
  obtain ⟨hw, hrec⟩ := not_or.mp hguard
  have hw := not_not.mp hw
  split at hs
  next k hb =>
    obtain ⟨⟨hk, hle, hn, hcells⟩, hz⟩ := Option.ite_none_right_eq_some.mp hs
    obtain rfl := Option.some.inj hz
    rw [h.own_address he hw hb hk, Nat.add_assoc]
    refine ⟨h.regs, ?_, ?_, fun hr => absurd hr hrec⟩
    · intro c hc
      cases hc with
      | head =>
        refine ⟨hle, hn, ?_⟩
        rw [Memory.read_write]
        exact (Nat.mod_modEq _ _).trans (hn ▸ (h.regs s).2)
      | tail _ hc =>
        obtain ⟨hcle, hcn, hread⟩ := h.cells c hc
        refine ⟨hcle, hcn, ?_⟩
        have hapart : Apart (e.own + c.off) c.n (e.own + (k + off)) n := by
          have := hcells c hc
          unfold Apart at this ⊢
          omega
        rwa [Memory.read_write_of_apart hapart]
    · intro a ha hto
      have hout : a < e.own + (k + off) ∨ e.own + (k + off) + n ≤ a := by omega
      exact (Memory.write_of_outside hout).trans (h.outside a ha hto)
  next => cases hs
  next v hown hother =>
    obtain ⟨⟨hto, hbytes, rfl, rfl, hsp⟩, hz⟩ := Option.ite_none_right_eq_some.mp hs
    obtain rfl := Option.some.inj hz
    have hlt : (y.regs b).denote e < 256 ^ I.word := hbytes ▸ Val.denote_lt hown hother
    rw [h.address hw hbytes hlt, hto, Nat.add_zero]
    refine ⟨h.regs, ?_, ?_, fun _ => ?_⟩
    · intro c hc
      obtain ⟨hcle, hcn, hread⟩ := h.cells c hc
      refine ⟨hcle, hcn, ?_⟩
      have hframe := he.frame_le
      have hapart : Apart (e.own + c.off) c.n (C.saveTo.denote e) I.word := he.to_own.symm.within (by omega) (by omega)
      rwa [Memory.read_write_of_apart hapart]
    · intro a ha hout
      exact (Memory.write_of_outside (hout rfl)).trans (h.outside a ha fun hr => absurd hr hrec)
    · rw [Memory.read_write]
      have hval := (h.regs s).2
      rw [hsp] at hval
      exact (Nat.mod_modEq _ _).trans hval

theorem Sound.load (h : Sound C e m y) (he : e.Ok C) {n off : ℕ} {d b : I.Reg} (hs : y.load C n d b off = some z) :
    Sound C e ((Instr.load n d b off).exec m) z ∧ Sound C e ((Instr.loadSigned n d b off).exec m) z := by
  unfold Sym.load at hs
  obtain ⟨hle, hs⟩ := Option.ite_none_right_eq_some.mp hs
  obtain ⟨v, hv, rfl⟩ := Option.map_eq_some_iff.mp hs
  obtain ⟨rfl, hread⟩ := h.source he hv
  exact ⟨h.set hle hread, h.set hle ((signExtend_modEq hle).trans hread)⟩

theorem Sound.move (h : Sound C e m y) {d s : I.Reg} (hs : y.move d s = some z) :
    Sound C e ((Instr.move d s).exec m) z := by
  unfold Sym.move at hs
  obtain ⟨hle, hz⟩ := Option.ite_none_right_eq_some.mp hs
  obtain rfl := Option.some.inj hz
  exact h.set hle (h.regs s).2

/-- Two registers with one symbolic value hold the same bytes. -/
theorem Sound.same (h : Sound C e m y) {c s : I.Reg} (hsame : y.Same c s) :
    m.get c = m.get s % 256 ^ I.width c := by
  obtain ⟨heq, hbytes⟩ := hsame
  have hc := (h.regs c).2
  have hs := (h.regs s).2
  rw [heq, hbytes] at hc
  rw [hbytes] at hs
  have hmod : m.get c % 256 ^ I.width c = m.get s % 256 ^ I.width c := hc.trans hs.symm
  rwa [Nat.mod_eq_of_lt (m.get_lt c)] at hmod

/-- A load that is jumped over when the register already holds what is loaded is the plain load. -/
theorem Sound.exec_unconditional (h : Sound C e m y) {i : Instr I} (hs : y.step C i = some z) :
    i.unconditional.exec m = i.exec m := by
  cases i with
  | loadUnlessEq n c s b off =>
    obtain ⟨⟨hsame, rfl⟩, -⟩ := Option.ite_none_right_eq_some.mp hs
    by_cases heq : m.mem.read (m.get b + off) (I.width c) = m.get s % 256 ^ I.width c
    · simp only [Instr.unconditional, Instr.exec, if_pos heq]
      rw [heq, ← h.same hsame, m.set_get]
    · simp only [Instr.unconditional, Instr.exec, if_neg heq]
  | moveUnlessEq c d s =>
    obtain ⟨⟨hsame, -, hws, -⟩, -⟩ := Option.ite_none_right_eq_some.mp hs
    by_cases heq : m.get d = m.get s
    · have hlt : m.get s < 256 ^ I.width c := hws ▸ m.get_lt s
      have hget : m.get c = m.get s := (h.same hsame).trans (Nat.mod_eq_of_lt hlt)
      simp only [Instr.unconditional, Instr.exec, if_pos heq]
      rw [heq, ← hget, m.set_get]
    · simp only [Instr.unconditional, Instr.exec, if_neg heq]
  | sub r n | add r n | move d s | zero r | store n s b off | load n d b off | loadSigned n d b off => rfl

theorem Sound.step (h : Sound C e m y) (he : e.Ok C) {i : Instr I} (hs : y.step C i = some z) :
    Sound C e (i.exec m) z := by
  cases i with
  | sub r n =>
    simp only [Sym.step] at hs
    split at hs
    next k hr =>
      obtain ⟨⟨hk, hw⟩, hz⟩ := Option.ite_none_right_eq_some.mp hs
      obtain rfl := Option.some.inj hz
      refine h.set hw.ge (Nat.ModEq.add_right_cancel' n ?_)
      have hpow : 256 ^ I.width r = 256 ^ I.word := by rw [hw]
      have hold : m.get r ≡ e.own + k [MOD 256 ^ I.word] := by simpa [hr, Val.bytes, Val.denote] using (h.regs r).2
      have hsum : e.own + (k - n) + n = e.own + k := by omega
      exact ((hpow ▸ m.sub_modEq r n).trans hold).trans (hsum ▸ Nat.ModEq.refl _)
    next => cases hs
  | add r n =>
    simp only [Sym.step] at hs
    split at hs
    next k hr =>
      obtain ⟨hw, hz⟩ := Option.ite_none_right_eq_some.mp hs
      obtain rfl := Option.some.inj hz
      refine h.set hw.ge ?_
      have hpow : 256 ^ I.width r = 256 ^ I.word := by rw [hw]
      have hold : m.get r ≡ e.other + k [MOD 256 ^ I.word] := by simpa [hr, Val.bytes, Val.denote] using (h.regs r).2
      have hsum : m.get r + n ≡ e.other + (k + n) [MOD 256 ^ I.word] := Nat.add_assoc e.other k n ▸ hold.add_right n
      exact (hpow ▸ m.add_modEq r n).trans hsum
    next => cases hs
  | move d s => exact h.move hs
  | zero r => cases hs
  | store n s b off => exact h.store he hs
  | load n d b off => exact (h.load he hs).1
  | loadSigned n d b off => exact (h.load he hs).2
  | loadUnlessEq n c s b off =>
    rw [← h.exec_unconditional hs]
    exact (h.load he (Option.ite_none_right_eq_some.mp hs).2).1
  | moveUnlessEq c d s =>
    rw [← h.exec_unconditional hs]
    exact h.move (Option.ite_none_right_eq_some.mp hs).2

/-- The symbolic run of a listing tells how the machine ends, and that its compares make no difference. -/
theorem Sound.run (he : e.Ok C) {code : List (Instr I)} (h : Sound C e m y) (hs : y.run C code = some z) :
    Sound C e (m.run code) z ∧ m.run (code.map Instr.unconditional) = m.run code := by
  induction code generalizing m y with
  | nil =>
    obtain rfl := Option.some.inj hs
    exact ⟨h, rfl⟩
  | cons i code ih =>
    obtain ⟨y', hstep, hrun⟩ := Option.bind_eq_some_iff.mp hs
    have hun : i.unconditional.exec m = i.exec m := h.exec_unconditional hstep
    obtain ⟨hend, heq⟩ := ih (h.step he hstep) hrun
    refine ⟨hend, ?_⟩
    simp only [Machine.run, List.map_cons, List.foldl_cons, hun]
    exact heq

end

/-- Where a frame keeps each register, and its return address, that has arrived as `ret` says. -/
structure Layout (I : Isa) where
  saved : List (I.Reg × ℕ)
  pc : I.Reg
  ret : Val I.Reg
  retOff : ℕ

/-- The symbolic state at the end of a switch: each register of the layout is saved in the own frame and
    taken from the other one. -/
def Layout.Switches (L : Layout I) (C : Contract I) (y : Sym I) : Prop :=
  y.recorded = true ∧ y.regs C.sp = .other C.span ∧ y.regs L.pc = .otherCell L.retOff I.word ∧
  I.width L.pc = I.word ∧ L.retOff + I.word ≤ C.span ∧
  (⟨L.retOff, I.word, L.ret⟩ ∈ y.cells ∨ L.ret = .ownCell L.retOff I.word ∧ C.frame ≤ L.retOff) ∧
  ∀ s ∈ L.saved, y.regs s.1 = .otherCell s.2 (I.width s.1) ∧ ⟨s.2, I.width s.1, .entry s.1⟩ ∈ y.cells

instance (L : Layout I) (C : Contract I) (y : Sym I) : Decidable (L.Switches C y) :=
  inferInstanceAs (Decidable (_ ∧ _ ∧ _ ∧ _ ∧ _ ∧ _ ∧ _))

/-- The check of a listing, by evaluation. -/
def Layout.check (L : Layout I) (C : Contract I) (code : List (Instr I)) : Bool :=
  match (Sym.initial C).run C code with
  | some y => decide (L.Switches C y)
  | none => false

/-- What a switch from the machine at entry does: it ends as the other frame says, and leaves the own frame
    as the machine was. -/
structure Switched (C : Contract I) (L : Layout I) (e : Entry I) (m : Machine I) : Prop where
  regs : ∀ s ∈ L.saved, m.get s.1 = e.start.mem.read (e.other + s.2) (I.width s.1)
  sp : m.get C.sp = (e.other + C.span) % 256 ^ I.word
  pc : m.get L.pc = e.start.mem.read (e.other + L.retOff) I.word
  recorded : m.mem.read (C.saveTo.denote e) I.word = e.own
  saved : ∀ s ∈ L.saved, s.2 + I.width s.1 ≤ C.frame ∧ m.mem.read (e.own + s.2) (I.width s.1) = e.start.get s.1
  ret : L.retOff + I.word ≤ C.span ∧ m.mem.read (e.own + L.retOff) I.word = L.ret.denote e % 256 ^ I.word
  outside : ∀ a n, Apart a n e.own C.frame → Apart a n (C.saveTo.denote e) I.word → m.mem.read a n = e.start.mem.read a n

theorem switched_of_check {C : Contract I} {L : Layout I} {e : Entry I} {code : List (Instr I)}
    (hc : L.check C code = true) (he : e.Ok C) :
    Switched C L e (e.start.run code) ∧ e.start.run (code.map Instr.unconditional) = e.start.run code := by
  unfold Layout.check at hc
  split at hc
  swap
  · cases hc
  next y hrun =>
    obtain ⟨hrec, hsp, hpc, hwpc, hretle, hret, hsaved⟩ := of_decide_eq_true hc
    obtain ⟨h, hplain⟩ := Sound.run he (sound_initial he) hrun
    refine ⟨?_, hplain⟩
    have hown : e.own < 256 ^ I.word := by
      have hlt := e.start.get_lt C.sp
      rw [he.sp_width, he.sp] at hlt
      omega
    have hto : Apart e.own C.span (C.saveTo.denote e) I.word := he.to_own.symm
    refine ⟨?_, ?_, ?_, ?_, ?_, ⟨hretle, ?_⟩, ?_⟩
    · intro s hs
      have hmod := (h.regs s.1).2
      rw [(hsaved s hs).1] at hmod
      exact hmod.eq_of_lt_of_lt (Machine.get_lt ..) (Memory.read_lt ..)
    · have hmod := (h.regs C.sp).2
      rw [hsp] at hmod
      have hlt := (e.start.run code).get_lt C.sp
      rw [he.sp_width] at hlt
      exact (Nat.mod_eq_of_lt hlt).symm.trans hmod
    · have hmod := (h.regs L.pc).2
      rw [hpc] at hmod
      have hlt := (e.start.run code).get_lt L.pc
      rw [hwpc] at hlt
      exact hmod.eq_of_lt_of_lt hlt (Memory.read_lt ..)
    · exact (h.recorded hrec).eq_of_lt_of_lt (Memory.read_lt ..) hown
    · intro s hs
      obtain ⟨hle, -, hread⟩ := h.cells _ (hsaved s hs).2
      exact ⟨hle, hread.eq_of_lt_of_lt (Memory.read_lt ..) (Machine.get_lt ..)⟩
    · obtain hcell | ⟨hval, hle⟩ := hret
      · obtain ⟨-, -, hread⟩ := h.cells _ hcell
        exact (Nat.mod_eq_of_lt (Memory.read_lt ..)).symm.trans hread
      · have hout := h.read_outside (Or.inr (by omega : e.own + C.frame ≤ e.own + L.retOff)) fun _ =>
          hto.within (by omega) (by omega : e.own + L.retOff + I.word ≤ e.own + C.span)
        rw [hout, hval, Val.denote, Nat.mod_eq_of_lt (Memory.read_lt ..)]
    · exact fun a n ha hn => h.read_outside ha fun _ => hn

end Krio.Lib.StackSwitch
