import Krio.Switch.Contexts

/-! Contexts for hosts without a heap: `Context::new` keeps what a context is to call in a record at the top of its own
    stack, and the context reads it there when it is first switched to. -/

namespace Krio.Switch.Raw

open Krio.Lib

/-- The record: two words, the entry before its argument. -/
structure Start where
  entry : ℕ
  arg : ℕ

variable {A : Abi}

namespace Start

variable (A)

def bytes : ℕ := 2 * A.isa.word

def write (mem : Memory) (record : ℕ) (s : Start) : Memory :=
  (mem.write record A.isa.word s.entry).write (record + A.isa.word) A.isa.word s.arg

/-- What `start` reads. -/
def read (mem : Memory) (record : ℕ) : Start :=
  ⟨mem.read record A.isa.word, mem.read (record + A.isa.word) A.isa.word⟩

end Start

/-- The arguments of `Context::new`. -/
structure New where
  low : ℕ
  len : ℕ
  start : Start

/-- Where the record goes: 16-aligned, below the rounded end of the stack. -/
def New.record (A : Abi) (c : New) : ℕ := (c.low + c.len) / 16 * 16 - (Start.bytes A + 15) / 16 * 16

/-- The first frame goes below the record, whose address it hands to the trampoline. -/
def New.frame (A : Abi) (trampoline : ℕ) (c : New) : Switch.Start where
  top := c.record A
  stackLimit := c.low
  state := c.record A
  trampoline := trampoline

/-- The record takes 16 bytes with either size of word. -/
theorem New.frame_eq_ofStack (t : Target) (trampoline : ℕ) (c : New) :
    c.frame t.abi trampoline = Switch.Start.ofStack c.low c.len trampoline := by
  cases t <;> rfl

inductive Op (A : Abi) where
  | code (m : Machine A.isa) (slot : ℕ → ℕ)
  | new (k : ℕ) (c : New)
  | switch (k : ℕ)

/-- `new` writes the record first. -/
def written (σ : State A) (c : New) : State A :=
  { σ with mach := { σ.mach with mem := c.start.write A σ.mach.mem (c.record A) } }

def next (trampoline : ℕ) (σ : State A) : Op A → State A
  | .code m slot => σ.next (.code m slot)
  | .new k c => (written σ c).next (.create k (c.frame A trampoline))
  | .switch k => σ.next (.switch k)

/-- `n` bytes at `a` are not in the record of a context other than `k` that has not run. -/
def OffRecords (σ : State A) (k a n : ℕ) : Prop :=
  ∀ j f, j ≠ k → σ.saved j = some (.created f) → Apart a n f.state (Start.bytes A)

/-- Code leaves the records alone too. -/
structure MayRun (σ : State A) (m : Machine A.isa) (slot : ℕ → ℕ) : Prop where
  frames : σ.MayRun m slot
  records : ∀ k f, σ.saved k = some (.created f) → ∀ a, f.state ≤ a → a < f.state + Start.bytes A → m.mem a = σ.mach.mem a

/-- The stack is one of context `k`, with room for the frame and the record. -/
structure New.OnStack (S : Stacks A) (k : ℕ) (c : New) : Prop where
  low_le : S.low k ≤ c.low
  le_high : c.low + c.len ≤ S.high k
  fits : c.low + A.initialBytes ≤ c.record A
  entry_lt : c.start.entry < 256 ^ A.isa.word
  arg_lt : c.start.arg < 256 ^ A.isa.word

/-- The stack is used for nothing else: no suspended `Context` lies on it, nor the new one. -/
structure MayNew (S : Stacks A) (σ : State A) (k : ℕ) (c : New) : Prop where
  idle : k ≠ σ.running
  stack : c.OnStack S k
  slots : ∀ j, j = k ∨ σ.saved j ≠ none → Apart (σ.slot j) A.isa.word c.low c.len
  slot_clear : σ.Clear k (σ.slot k) A.isa.word
  slot_records : OffRecords σ k (σ.slot k) A.isa.word

structure MaySwitch (S : Stacks A) (σ : State A) (k : ℕ) : Prop where
  contexts : σ.MaySwitch S k
  records : OffRecords σ σ.running (σ.slot σ.running) A.isa.word

def Allowed (S : Stacks A) (σ : State A) : Op A → Prop
  | .code m slot => MayRun σ m slot
  | .new k c => MayNew S σ k c
  | .switch k => MaySwitch S σ k

def step (trampoline : ℕ) (σ : State A) (op : Op A) : Option (State A) := some (next trampoline σ op)

/-- The operation neither resumes context `k` nor makes it anew. -/
def Op.Leaves (k : ℕ) : Op A → Prop
  | .code _ _ => True
  | .new j _ => j ≠ k
  | .switch j => j ≠ k

abbrev Run (S : Stacks A) (trampoline : ℕ) (σ τ : State A) : Prop := Steps (step trampoline) (Allowed S) σ τ

abbrev Away (S : Stacks A) (trampoline k : ℕ) (σ τ : State A) : Prop :=
  Steps (step trampoline) (fun σ op => Allowed S σ op ∧ op.Leaves k) σ τ

/-- When a context was suspended: at its last switch away, or by `new`. -/
def Since (S : Stacks A) (trampoline : ℕ) (σ₀ σ : State A) (k : ℕ) : Departure A → Prop
  | .switched m => ∃ τ j, Run S trampoline σ₀ τ ∧ τ.running = k ∧ τ.mach = m ∧ MaySwitch S τ j ∧
      Away S trampoline k (next trampoline τ (.switch j)) σ
  | .created f => ∃ τ c, Run S trampoline σ₀ τ ∧ MayNew S τ k c ∧ f = c.frame A trampoline ∧
      Away S trampoline k (next trampoline τ (.new k c)) σ

section
variable {S : Stacks A} {tramp : ℕ} {σ : State A} {k j : ℕ} {d : Departure A} {c : New}

/-! ## The record -/

theorem Start.read_write (s : Start) (mem : Memory) (record : ℕ) (he : s.entry < 256 ^ A.isa.word)
    (ha : s.arg < 256 ^ A.isa.word) : Start.read A (s.write A mem record) record = s := by
  have hentry : (s.write A mem record).read record A.isa.word = s.entry :=
    (Memory.read_write_of_apart (.inl le_rfl)).trans ((Memory.read_write ..).trans (Nat.mod_eq_of_lt he))
  have harg : (s.write A mem record).read (record + A.isa.word) A.isa.word = s.arg :=
    (Memory.read_write ..).trans (Nat.mod_eq_of_lt ha)
  rw [Start.read, hentry, harg]

/-- The record reads the same in a memory that holds the same words there. -/
theorem Start.read_congr {mem mem' : Memory} {record : ℕ}
    (h : ∀ a n, record ≤ a → a + n ≤ record + Start.bytes A → mem'.read a n = mem.read a n) :
    Start.read A mem' record = Start.read A mem record := by
  unfold Start.bytes at h
  rw [Start.read, Start.read, h _ _ le_rfl (by omega), h _ _ (by omega) (by omega)]

/-- Writing the record changes nothing outside it. -/
theorem Start.read_write_of_apart (s : Start) {mem : Memory} {record a n : ℕ} (h : Apart a n record (Start.bytes A)) :
    (s.write A mem record).read a n = mem.read a n := by
  have hhigh : Apart a n (record + A.isa.word) A.isa.word :=
    (h.symm.within (Nat.le_add_right ..) (by unfold Start.bytes; omega)).symm
  have hlow : Apart a n record A.isa.word := (h.symm.within le_rfl (by unfold Start.bytes; omega)).symm
  rw [Start.write, Memory.read_write_of_apart hhigh, Memory.read_write_of_apart hlow]

namespace New.OnStack

theorem initial_pos (A : Abi) : 0 < A.initialBytes := by
  have hword := A.word_pos
  have hret := A.ret_le
  have hspan := A.span_le
  omega

theorem aligned (c : New) : c.record A % 16 = 0 := by
  rw [New.record, ← Nat.sub_mul]
  exact Nat.mul_mod_left ..

/-- The record lies on the stack, above the frame. -/
theorem record_le (h : c.OnStack S k) : c.record A + Start.bytes A ≤ c.low + c.len := by
  have hpos := initial_pos A
  have hfits := h.fits
  unfold New.record at hfits ⊢
  omega

/-- A range of context `k`'s stack is apart from the stack of another. -/
theorem apart (h : c.OnStack S k) (hne : j ≠ k) {a n : ℕ} (hlow : S.low j ≤ a) (hhigh : a + n ≤ S.high j) :
    Apart a n c.low c.len := by
  have hdis := S.disjoint j k hne
  have hl := h.low_le
  have hh := h.le_high
  unfold Apart
  omega

/-- What is apart from the stack is apart from its record. -/
theorem apart_record (h : c.OnStack S k) {a n : ℕ} (ha : Apart a n c.low c.len) :
    Apart a n (c.record A) (Start.bytes A) := by
  have hfits := h.fits
  exact (ha.symm.within (by omega) h.record_le).symm

end New.OnStack

/-- A stack that is long enough has room. -/
theorem New.fits_of_len (h : A.initialBytes + (Start.bytes A + 15) / 16 * 16 + 15 ≤ c.len) :
    c.low + A.initialBytes ≤ c.record A := by
  unfold New.record
  omega

/-! ## Creating a context -/

/-- The state in which `initial_frame` is called, if what context `k` was before is forgotten. -/
def cleared (σ : State A) (k : ℕ) (c : New) : State A :=
  { written σ c with saved := Function.update σ.saved k none }

theorem next_new (σ : State A) (k : ℕ) (c : New) :
    next tramp σ (.new k c) = (cleared σ k c).next (.create k (c.frame A tramp)) := by
  have hsaved : Function.update (Function.update σ.saved k none) k (some (Departure.created (c.frame A tramp))) =
      Function.update σ.saved k (some (.created (c.frame A tramp))) := Function.update_idem ..
  show State.mk _ _ _ _ = State.mk _ _ _ _
  rw [cleared, hsaved]
  rfl

theorem cleared_saved (h : (cleared σ k c).saved j = some d) : j ≠ k ∧ σ.saved j = some d := by
  have hne : j ≠ k := by
    rintro rfl
    exact absurd ((Function.update_self ..).symm.trans h) nofun
  exact ⟨hne, (Function.update_of_ne hne ..).symm.trans h⟩

/-- Writing the record leaves the other contexts as they are. -/
theorem MayNew.inv_cleared (h : MayNew S σ k c) (hinv : σ.Inv S) : (cleared σ k c).Inv S where
  running := (Function.update_of_ne h.idle.symm ..).trans hinv.running
  held := by
    intro j d hj
    obtain ⟨hne, hd⟩ := cleared_saved hj
    have hheld := hinv.held j d hd
    have hread : ∀ a n, Apart a n c.low c.len → (cleared σ k c).mach.mem.read a n = σ.mach.mem.read a n := fun a n ha =>
      c.start.read_write_of_apart (h.stack.apart_record ha)
    have hslot := hread _ _ (h.slots j (.inr fun hnone => by rw [hd] at hnone; cases hnone))
    refine ⟨hheld.low_le, hheld.le_high, hslot.trans hheld.slot, hheld.kept.of_unmoved fun a n ha hn => hread a n ?_⟩
    have hlow := hheld.low_le
    have hhigh := hheld.le_high
    exact h.stack.apart hne (by omega) (by omega)

theorem MayNew.mayCreate (h : MayNew S σ k c) (htramp : tramp < 256 ^ A.isa.word) :
    (cleared σ k c).MayCreate S k (c.frame A tramp) := by
  have hlow := h.stack.low_le
  have hfits := h.stack.fits
  have hrecord := h.stack.record_le
  have hhigh := h.stack.le_high
  have hspace := S.high_le k
  have hin : ∀ j, j = k ∨ σ.saved j ≠ none →
      Apart (σ.slot j) A.isa.word (c.record A - A.initialBytes) A.initialBytes := fun j hj =>
    ((h.slots j hj).symm.within (by omega) (by omega)).symm
  refine ⟨h.idle, New.OnStack.aligned c, ?_, htramp, ?_, ?_, hin k (.inl rfl), ?_, ?_⟩
  · have hbytes : 0 < Start.bytes A := Nat.mul_pos Nat.two_pos A.word_pos
    show c.record A < _
    omega
  · show S.low k + A.initialBytes ≤ c.record A
    omega
  · show c.record A ≤ S.high k
    omega
  · intro j d hne hd
    exact h.slot_clear j d hne (cleared_saved hd).2
  · intro j d hne hd
    exact hin j (.inr fun hnone => by rw [(cleared_saved hd).2] at hnone; cases hnone)

/-! ## What a step keeps -/

theorem inv_next {op : Op A} (htramp : tramp < 256 ^ A.isa.word) (hinv : σ.Inv S) (hop : Allowed S σ op) :
    (next tramp σ op).Inv S := by
  cases op with
  | code m slot =>
    have hrun : σ.Allowed S (.code m slot) := MayRun.frames hop
    exact hinv.next hrun
  | new k c =>
    rw [next_new]
    exact (MayNew.inv_cleared hop hinv).next (MayNew.mayCreate hop htramp)
  | switch k =>
    have hswitch : σ.Allowed S (.switch k) := MaySwitch.contexts hop
    exact hinv.next hswitch

/-- Context `k` was made by `new c` and has not run: it is suspended in its first frame, below the record. -/
structure Fresh (S : Stacks A) (tramp : ℕ) (σ : State A) (k : ℕ) (c : New) : Prop where
  saved : σ.saved k = some (.created (c.frame A tramp))
  stack : c.OnStack S k
  record : Start.read A σ.mach.mem (c.record A) = c.start

/-- A switch writes to the frame of the context it leaves, and to its `Context`. -/
theorem MaySwitch.read (h : MaySwitch S σ k) (hinv : σ.Inv S) {a n : ℕ}
    (hframe : Apart a n (σ.mach.get A.sp - A.savedFrameBytes) A.savedFrameBytes)
    (hslot : Apart a n (σ.slot σ.running) A.isa.word) :
    (σ.next (.switch k)).mach.mem.read a n = σ.mach.mem.read a n := by
  obtain ⟨d, hd⟩ := Option.ne_none_iff_exists'.mp h.contexts.suspended
  have hs := (h.contexts.switched (h.contexts.ne_running hinv) hd (hinv.held k d hd)).1
  exact hs.outside a n hframe ((h.contexts.denote_saveTo _).symm ▸ hslot)

/-- A switch does not touch the record of a context that has not run. -/
theorem Fresh.switched (h : Fresh S tramp σ j c) (hinv : σ.Inv S) (hsw : MaySwitch S σ k) :
    Start.read A (σ.next (.switch k)).mach.mem (c.record A) = c.start := by
  have hne : j ≠ σ.running := by
    rintro rfl
    exact absurd (hinv.running.symm.trans h.saved) nofun
  have hlow := hsw.contexts.low_le
  have hhigh := hsw.contexts.le_high
  have hstack : Apart (σ.mach.get A.sp - A.savedFrameBytes) A.savedFrameBytes c.low c.len :=
    h.stack.apart hne.symm (by omega) (by omega)
  have hframe := (h.stack.apart_record hstack).symm
  have hslot := (hsw.records j _ hne h.saved).symm
  refine (Start.read_congr fun a n ha hn => ?_).trans h.record
  exact hsw.read hinv (hframe.within ha hn) (hslot.within ha hn)

theorem Fresh.next {op : Op A} (h : Fresh S tramp σ j c) (hinv : σ.Inv S) (hop : Allowed S σ op) (hleaves : op.Leaves j) :
    Fresh S tramp (next tramp σ op) j c := by
  cases op with
  | code m slot =>
    refine ⟨h.saved, h.stack, (Start.read_congr fun a n ha hn => ?_).trans h.record⟩
    exact Memory.read_congr fun b hb hlt => MayRun.records hop j _ h.saved b (ha.trans hb) (by
      show b < c.record A + Start.bytes A
      omega)
  | new k c' =>
    have hop : MayNew S σ k c' := hop
    have hne : j ≠ k := fun he => hleaves he.symm
    have hlow := h.stack.low_le
    have hfits := h.stack.fits
    have hrecord := h.stack.record_le
    have hhigh := h.stack.le_high
    have hstack : Apart (c.record A) (Start.bytes A) c'.low c'.len := hop.stack.apart hne (by omega) (by omega)
    have hfits' := hop.stack.fits
    have hrecord' := hop.stack.record_le
    have hframe : Apart (c.record A) (Start.bytes A) (c'.record A - A.initialBytes) A.initialBytes :=
      (hstack.symm.within (by omega) (by omega)).symm
    have hold := hop.stack.apart_record hstack
    have hslot := (hop.slot_records j _ hne h.saved).symm
    refine ⟨(Function.update_of_ne hne ..).trans h.saved, h.stack, (Start.read_congr fun a n ha hn => ?_).trans h.record⟩
    exact (Memory.read_write_of_apart (hslot.within ha hn)).trans
      ((Memory.read_patch_of_apart A.initial_le (hframe.within ha hn)).trans
        (c'.start.read_write_of_apart (hold.within ha hn)))
  | switch k =>
    have hne : j ≠ σ.running := by
      rintro rfl
      exact absurd (hinv.running.symm.trans h.saved) nofun
    refine ⟨?_, h.stack, h.switched hinv hop⟩
    exact (Function.update_of_ne hne ..).trans ((Function.update_of_ne (fun he => hleaves he.symm) ..).trans h.saved)

/-- `new` leaves a context that has not run. -/
theorem MayNew.fresh (h : MayNew S σ k c) : Fresh S tramp (Raw.next tramp σ (.new k c)) k c := by
  have hfits := h.stack.fits
  have hrecord := h.stack.record_le
  have hslot : Apart (c.record A) (Start.bytes A) (σ.slot k) A.isa.word :=
    (h.slots k (.inl rfl)).symm.within (by omega) h.stack.record_le
  have hframe : Apart (c.record A) (Start.bytes A) (c.record A - A.initialBytes) A.initialBytes := .inr (by omega)
  refine ⟨Function.update_self .., h.stack, (Start.read_congr fun a n ha hn => ?_).trans
    (c.start.read_write σ.mach.mem (c.record A) h.stack.entry_lt h.stack.arg_lt)⟩
  exact (Memory.read_write_of_apart (hslot.within ha hn)).trans
    (Memory.read_patch_of_apart A.initial_le (hframe.within ha hn))

/-- A context suspended after a step was so before, and the step is not about it, or it is just made or has just
    switched away. -/
theorem saved_next {op : Op A} (hinv : σ.Inv S) (hop : Allowed S σ op) (h : (next tramp σ op).saved j = some d) :
    (σ.saved j = some d ∧ op.Leaves j) ∨ (∃ c, op = .new j c ∧ d = .created (c.frame A tramp)) ∨
      ∃ k, op = .switch k ∧ j = σ.running ∧ d = .switched σ.mach := by
  cases op with
  | code m slot => exact .inl ⟨h, trivial⟩
  | new k c =>
    by_cases hjk : j = k
    · subst hjk
      have hup : Function.update (written σ c).saved j (some (.created (c.frame A tramp))) j = some d := h
      rw [Function.update_self] at hup
      exact .inr (.inl ⟨c, rfl, (Option.some.inj hup).symm⟩)
    · exact .inl ⟨(Function.update_of_ne hjk ..).symm.trans h, fun he => hjk he.symm⟩
  | switch k =>
    have hswitch : (σ.next (.switch k)).saved j = some d := h
    obtain ⟨hold, -, hleaves⟩ | ⟨f, hf, -⟩ | ⟨k', hk', hj, hd⟩ := State.saved_next hinv hswitch
    · exact .inl ⟨hold, hleaves⟩
    · cases hf
    · exact .inr (.inr ⟨k, rfl, hj, hd⟩)

end

/-! ## Runs -/

section
variable {S : Stacks A} {tramp : ℕ} {σ₀ σ : State A} {k : ℕ} {d : Departure A} {c : New}

theorem Run.inv (htramp : tramp < 256 ^ A.isa.word) (h₀ : ∀ k, σ₀.saved k = none) (hrun : Run S tramp σ₀ σ) : σ.Inv S := by
  refine hrun.keeps ?_ (State.inv_initial h₀)
  intro σ op τ hinv hop hstep
  obtain rfl := Option.some.inj hstep
  exact inv_next htramp hinv hop

/-- The record stays while the context has not run. -/
theorem Away.fresh (htramp : tramp < 256 ^ A.isa.word) (hinv : σ₀.Inv S) (hnew : MayNew S σ₀ k c)
    (haway : Away S tramp k (next tramp σ₀ (.new k c)) σ) : Fresh S tramp σ k c := by
  refine haway.keeps_with (P := fun τ => Fresh S tramp τ k c) (Q := fun τ => τ.Inv S) ?_ ?_ hnew.fresh
  · intro τ hτ
    have hop : Allowed S σ₀ (.new k c) := hnew
    refine hτ.keeps ?_ (inv_next htramp hinv hop)
    intro τ op υ hinv hop hstep
    obtain rfl := Option.some.inj hstep
    exact inv_next htramp hinv hop.1
  · intro τ op υ hinv hfresh hop hstep
    obtain rfl := Option.some.inj hstep
    exact hfresh.next hinv hop.1 hop.2

theorem Run.since (htramp : tramp < 256 ^ A.isa.word) (h₀ : ∀ k, σ₀.saved k = none) (hrun : Run S tramp σ₀ σ)
    (hd : σ.saved k = some d) : Since S tramp σ₀ σ k d := by
  induction hrun generalizing k d with
  | refl =>
    rw [h₀ k] at hd
    cases hd
  | tail hrun hop hstep ih =>
    obtain rfl := Option.some.inj hstep
    obtain ⟨hold, hleaves⟩ | ⟨c, rfl, rfl⟩ | ⟨j, rfl, rfl, rfl⟩ := saved_next (Run.inv htramp h₀ hrun) hop hd
    · cases d with
      | switched m =>
        obtain ⟨τ, j, hτ, hk, hm, hj, haway⟩ := ih hold
        exact ⟨τ, j, hτ, hk, hm, hj, haway.tail ⟨hop, hleaves⟩ rfl⟩
      | created f =>
        obtain ⟨τ, c, hτ, hc, hf, haway⟩ := ih hold
        exact ⟨τ, c, hτ, hc, hf, haway.tail ⟨hop, hleaves⟩ rfl⟩
    · exact ⟨_, c, hrun, hop, rfl, .refl⟩
    · exact ⟨_, j, hrun, rfl, rfl, hop, .refl⟩

end

/-- The trampolines write below the stack pointer only. -/
theorem trampoline_below (t : Target) (m : Machine t.abi.isa) (hsp : t.abi.span ≤ m.get t.abi.sp) :
    (m.run t.abi.trampoline).get t.abi.sp ≤ m.get t.abi.sp ∧
      ∀ a, m.get t.abi.sp ≤ a → (m.run t.abi.trampoline).mem a = m.mem a := by
  cases t with
  | sysv64 =>
    have hget : (m.run X86.Sysv64.port.trampoline).get X86.Reg.sp = m.get X86.Reg.sp := Machine.get_set_of_ne nofun
    exact ⟨hget.le, fun _ _ => rfl⟩
  | ms64 =>
    have hmove : (m.set X86.Reg.cx (m.get X86.Reg.r12)).get X86.Reg.sp = m.get X86.Reg.sp := Machine.get_set_of_ne nofun
    have hle : 264 ≤ m.get X86.Reg.sp := hsp
    have hsub := Instr.get_exec_sub_of_le (m.set X86.Reg.cx (m.get X86.Reg.r12)) (r := X86.Reg.sp) (n := 32)
      (hmove ▸ (by omega))
    exact ⟨(hsub.trans_le (Nat.sub_le ..)).trans hmove.le, fun _ _ => rfl⟩
  | i386 =>
    have hle : 28 ≤ m.get X86.Reg.sp := hsp
    have hsub := Instr.get_exec_sub_of_le m (r := X86.Reg.sp) (n := 8) (by omega)
    have hpush := Instr.get_exec_sub_of_le ((Instr.sub X86.Reg.sp 8).exec m) (r := X86.Reg.sp) (n := 4)
      (hsub ▸ (by omega))
    have hend : (m.run X86.I386.port.trampoline).get X86.Reg.sp = m.get X86.Reg.sp - 8 - 4 := hpush.trans (by rw [hsub])
    refine ⟨hend.trans_le ((Nat.sub_le ..).trans (Nat.sub_le ..)), fun a ha => ?_⟩
    have hat : (((Instr.sub X86.Reg.sp 4).exec ((Instr.sub X86.Reg.sp 8).exec m)).get X86.Reg.sp) + 0 + 4 ≤ a := by
      rw [hpush, hsub]
      have ha : m.get X86.Reg.sp ≤ a := ha
      omega
    exact Memory.write_of_outside (.inr hat)
  | riscv64 =>
    have hget : (m.run Riscv64.port.trampoline).get Riscv64.Reg.sp = m.get Riscv64.Reg.sp := Machine.get_set_of_ne nofun
    exact ⟨hget.le, fun _ _ => rfl⟩
  | aarch64 =>
    have hget : (m.run Aarch64.port.trampoline).get Aarch64.Reg.sp = m.get Aarch64.Reg.sp := Machine.get_set_of_ne nofun
    exact ⟨hget.le, fun _ _ => rfl⟩
  | aarch64Windows =>
    have hmove : (m.set (Aarch64.Reg.x 0) (m.get (Aarch64.Reg.x 19))).get Aarch64.Reg.sp = m.get Aarch64.Reg.sp :=
      Machine.get_set_of_ne nofun
    have hget : (m.run Aarch64.Windows.port.trampoline).get Aarch64.Reg.sp =
        (m.set (Aarch64.Reg.x 0) (m.get (Aarch64.Reg.x 19))).get Aarch64.Reg.sp := Machine.get_set_of_ne nofun
    exact ⟨(hget.trans hmove).le, fun _ _ => rfl⟩

/-- A fresh context calls its entry: the trampoline's argument is the record, and however the call and `start` use the
    stack below it, what `start` reads there is what `new` was given. -/
structure New.Starts (A : Abi) (tramp : ℕ) (c : New) (m : Machine A.isa) : Prop where
  enters : (c.frame A tramp).Enters A m
  reads : ∀ mem : Memory, (∀ a, (m.run A.trampoline).get A.sp ≤ a → mem a = (m.run A.trampoline).mem a) →
    Start.read A mem (A.argument.get A.sp (m.run A.trampoline)) = c.start

theorem Away.starts {t : Target} {S : Stacks t.abi} {tramp : ℕ} {τ σ : State t.abi} {k : ℕ} {c : New}
    (htramp : tramp < 256 ^ t.abi.isa.word) (hinv : τ.Inv S) (hnew : MayNew S τ k c)
    (haway : Away S tramp k (next tramp τ (.new k c)) σ) (hinv' : σ.Inv S) (hk : MaySwitch S σ k)
    (hresumed : (Departure.created (c.frame t.abi tramp)).Resumed (σ.next (.switch k)).mach) :
    c.Starts t.abi tramp (σ.next (.switch k)).mach := by
  have hfresh := haway.fresh htramp hinv hnew
  have henters := hresumed.enters (hnew.mayCreate htramp)
  have hrecord := hfresh.switched hinv' hk
  generalize (σ.next (.switch k)).mach = m at hresumed henters hrecord
  refine ⟨henters, fun mem hmem => ?_⟩
  have hfits := hnew.stack.fits
  have hend := hnew.stack.record_le
  have hhigh := hnew.stack.le_high.trans (S.high_le k)
  have hspan := t.abi.span_le
  have hsp : m.get t.abi.sp = c.record t.abi - t.abi.initialBytes + t.abi.span :=
    hresumed.sp.trans (Nat.mod_eq_of_lt (by
      have hbytes : 0 < Start.bytes t.abi := Nat.mul_pos Nat.two_pos t.abi.word_pos
      show c.record t.abi - t.abi.initialBytes + t.abi.span < _
      omega))
  obtain ⟨hle, hbelow⟩ := trampoline_below t m (by omega)
  rw [henters.argument]
  refine (Start.read_congr fun a n ha hn => Memory.read_congr fun b hb hlt => ?_).trans hrecord
  have hab : m.get t.abi.sp ≤ b := by
    have hb' : c.record t.abi ≤ b := ha.trans hb
    omega
  exact (hmem b (hle.trans hab)).trans (hbelow b hab)

/-- On every target and in every run, a switch to a context goes on as it was left; and if the context has not run since
    `new`, it starts. -/
theorem raw_contexts_start (t : Target) (S : Stacks t.abi) {tramp : ℕ} (htramp : tramp < 256 ^ t.abi.isa.word)
    {σ₀ σ : State t.abi} (h₀ : ∀ k, σ₀.saved k = none) (hrun : Run S tramp σ₀ σ) {k : ℕ} (hk : MaySwitch S σ k) :
    ∃ d, σ.saved k = some d ∧ Since S tramp σ₀ σ k d ∧ d.Resumed (next tramp σ (.switch k)).mach ∧
      ∀ τ c, Run S tramp σ₀ τ → MayNew S τ k c → Away S tramp k (next tramp τ (.new k c)) σ →
        c.Starts t.abi tramp (next tramp σ (.switch k)).mach := by
  obtain ⟨d, hd⟩ := Option.ne_none_iff_exists'.mp hk.contexts.suspended
  have hinv := Run.inv htramp h₀ hrun
  have hsince := Run.since htramp h₀ hrun hd
  obtain ⟨hregs, hsp, hpc⟩ := hk.contexts.resumes (hk.contexts.ne_running hinv) hd (hinv.held k d hd)
  have hlow : ∀ m, d = .switched m → t.abi.savedFrameBytes ≤ m.get t.abi.sp := by
    rintro m rfl
    obtain ⟨τ, j, -, -, rfl, hj, -⟩ := hsince
    exact (Nat.le_add_left ..).trans hj.contexts.low_le
  have hresumed : d.Resumed (next tramp σ (.switch k)).mach := ⟨hregs, hsp.trans (Departure.base_span hlow), hpc⟩
  refine ⟨d, hd, hsince, hresumed, fun τ c hτ hnew haway => ?_⟩
  have hinv' := Run.inv htramp h₀ hτ
  obtain rfl := Option.some.inj (hd.symm.trans (haway.fresh htramp hinv' hnew).saved)
  exact haway.starts htramp hinv' hnew hinv hk hresumed

/-! ## An example -/

def sampleNew : New := ⟨8192, 4096, ⟨2000, 3000⟩⟩

def sampleCall : Machine Riscv64.isa where
  regs
    | .sp => 6144
    | .a0 => 64
    | .a1 => 128
    | .ra => 4660
    | _ => 0
  mem := (next 1000 sampleStart (.new 1 sampleNew)).mach.mem

def sampleCalls : State Riscv64.abi :=
  next 1000 (next 1000 sampleStart (.new 1 sampleNew)) (.code sampleCall fun k => 64 * (k + 1))

theorem sampleNew_mayNew : MayNew sampleStacks sampleStart 1 sampleNew where
  idle := nofun
  stack := ⟨by decide, by decide, New.fits_of_len (by decide), by decide, by decide⟩
  slots := by
    rintro j (rfl | hj)
    · decide
    · exact absurd rfl hj
  slot_clear := nofun
  slot_records := nofun

theorem sampleCalls_saved {j : ℕ} {d : Departure Riscv64.abi} (h : sampleCalls.saved j = some d) :
    j = 1 ∧ d = .created (sampleNew.frame Riscv64.abi 1000) := by
  by_cases hj : j = 1
  · subst hj
    have hd : some (Departure.created (sampleNew.frame Riscv64.abi 1000)) = some d := h
    exact ⟨rfl, (Option.some.inj hd).symm⟩
  · have hnone : sampleCalls.saved j = none := Function.update_of_ne hj ..
    rw [hnone] at h
    cases h

theorem sampleCall_mayRun : MayRun (next 1000 sampleStart (.new 1 sampleNew)) sampleCall fun k => 64 * (k + 1) :=
  ⟨fun _ _ _ => ⟨fun _ _ _ => rfl, rfl⟩, fun _ _ _ _ _ _ => rfl⟩

theorem sampleCalls_run : Run sampleStacks 1000 sampleStart sampleCalls :=
  (Steps.refl.tail (a := .new 1 sampleNew) sampleNew_mayNew rfl).tail (a := .code sampleCall _) sampleCall_mayRun rfl

theorem sampleCalls_maySwitch : MaySwitch sampleStacks sampleCalls 1 where
  contexts :=
    { suspended := nofun
      to_slot := rfl
      from_slot := rfl
      low_le := by decide
      le_high := by decide
      slot_own := by decide
      slot_clear := by
        intro j d hj hd
        obtain ⟨rfl, rfl⟩ := sampleCalls_saved hd
        decide
      frame_slots := by
        intro j d hd
        obtain ⟨rfl, rfl⟩ := sampleCalls_saved hd
        decide }
  records := by
    intro j f hj hf
    obtain ⟨rfl, heq⟩ := sampleCalls_saved hf
    obtain rfl := Departure.created.inj heq
    decide

theorem raw_contexts_start_sample :
    sampleNew.Starts Riscv64.abi 1000 (next 1000 sampleCalls (.switch 1)).mach := by
  have htramp : 1000 < 256 ^ Riscv64.abi.isa.word := by decide
  obtain ⟨d, -, -, -, hstarts⟩ :=
    raw_contexts_start .riscv64 sampleStacks htramp (fun _ => rfl) sampleCalls_run sampleCalls_maySwitch
  exact hstarts sampleStart sampleNew .refl sampleNew_mayNew
    (Steps.refl.tail (a := .code sampleCall _) ⟨sampleCall_mayRun, trivial⟩ rfl)

end Krio.Switch.Raw
