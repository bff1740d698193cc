import Krio.Lib.Runs
import Krio.Switch.Targets

/-! Any number of contexts on stacks of their own, and every sequence of switches among them with arbitrary
    code in between. -/

namespace Krio.Switch

open Krio.Lib Krio.Lib.StackSwitch

/-- The stacks of the contexts. -/
structure Stacks (A : Abi) where
  low : ℕ → ℕ
  high : ℕ → ℕ
  disjoint : ∀ i j, i ≠ j → high i ≤ low j ∨ high j ≤ low i
  high_le : ∀ i, high i ≤ 256 ^ A.isa.word

/-- How a context came to be suspended: it switched away, with the machine as it was at that call of
    `krio_fiber_switch`, or it is made by `initial_frame` and has not run. -/
inductive Departure (A : Abi) where
  | switched (m : Machine A.isa)
  | created (f : Start)

structure State (A : Abi) where
  mach : Machine A.isa
  running : ℕ
  /-- Where each `Context` keeps its `sp`. -/
  slot : ℕ → ℕ
  saved : ℕ → Option (Departure A)

inductive Op (A : Abi) where
  /-- The running context computes, and may move `Context` values. -/
  | code (m : Machine A.isa) (slot : ℕ → ℕ)
  | create (k : ℕ) (f : Start)
  | switch (k : ℕ)

variable {A : Abi}

namespace Departure

/-- The `sp` that the suspended context is saved with. -/
def base : Departure A → ℕ
  | switched m => m.get A.sp - A.savedFrameBytes
  | created f => f.top - A.initialBytes

/-- The registers, the stack pointer and the address that the context goes on with. -/
def reg (r : A.isa.Reg) : Departure A → ℕ
  | switched m => m.get r
  | created f => (A.first r).value f % 256 ^ A.isa.width r

def sp : Departure A → ℕ
  | switched m => (m.get A.sp + A.callBytes) % 256 ^ A.isa.word
  | created f => (f.top - A.initialBytes + A.span) % 256 ^ A.isa.word

def pc : Departure A → ℕ
  | switched m => A.ret.get A.sp m % 256 ^ A.isa.word
  | created f => f.trampoline % 256 ^ A.isa.word

end Departure

namespace State

/-- `initial_frame` writes the first frame, and its result is put in the new `Context`. -/
def initialFrame (σ : State A) (k : ℕ) (f : Start) : Memory :=
  (σ.mach.mem.patch (f.top - A.initialBytes) (Init.value f) A.initialFrame).write (σ.slot k) A.isa.word
    (f.top - A.initialBytes)

def next (σ : State A) : Op A → State A
  | .code m slot => { σ with mach := m, slot := slot }
  | .create k f =>
    { σ with
      mach := { σ.mach with mem := σ.initialFrame k f }
      saved := Function.update σ.saved k (some (.created f)) }
  | .switch k =>
    { σ with
      mach := σ.mach.run A.krioFiberSwitch
      running := k
      saved := Function.update (Function.update σ.saved k none) σ.running (some (.switched σ.mach)) }

/-- `n` bytes at `a` belong to no suspended context other than `k`: neither to the frame it is saved with
    nor to its `Context`. -/
def Clear (σ : State A) (k a n : ℕ) : Prop :=
  ∀ j d, j ≠ k → σ.saved j = some d → Apart a n d.base A.span ∧ Apart a n (σ.slot j) A.isa.word

/-- Code leaves the frames of the suspended contexts alone, and their `Context`s with what they hold. -/
def MayRun (σ : State A) (m : Machine A.isa) (slot : ℕ → ℕ) : Prop :=
  ∀ k d, σ.saved k = some d →
    (∀ a, d.base ≤ a → a < d.base + A.span → m.mem a = σ.mach.mem a) ∧
    m.mem.read (slot k) A.isa.word = σ.mach.mem.read (σ.slot k) A.isa.word

structure MayCreate (S : Stacks A) (σ : State A) (k : ℕ) (f : Start) : Prop where
  idle : k ≠ σ.running
  aligned : f.top % 16 = 0
  state_lt : f.state < 256 ^ A.isa.word
  trampoline_lt : f.trampoline < 256 ^ A.isa.word
  low_le : S.low k + A.initialBytes ≤ f.top
  le_high : f.top ≤ S.high k
  slot_own : Apart (σ.slot k) A.isa.word (f.top - A.initialBytes) A.initialBytes
  slot_clear : σ.Clear k (σ.slot k) A.isa.word
  frame_slots : ∀ j d, j ≠ k → σ.saved j = some d → Apart (σ.slot j) A.isa.word (f.top - A.initialBytes) A.initialBytes

/-- A call of `switch` to a suspended context: the two pointers are those of the `Context`s, the frame fits
    the running stack below the stack pointer, and no `Context` lies in the frame. -/
structure MaySwitch (S : Stacks A) (σ : State A) (k : ℕ) : Prop where
  suspended : σ.saved k ≠ none
  to_slot : A.saveTo.get A.sp σ.mach = σ.slot σ.running
  from_slot : A.loadFrom.get A.sp σ.mach = σ.slot k
  low_le : S.low σ.running + A.savedFrameBytes ≤ σ.mach.get A.sp
  le_high : σ.mach.get A.sp + A.callBytes ≤ S.high σ.running
  slot_own : Apart (σ.slot σ.running) A.isa.word (σ.mach.get A.sp - A.savedFrameBytes) A.span
  slot_clear : σ.Clear σ.running (σ.slot σ.running) A.isa.word
  frame_slots : ∀ j d, σ.saved j = some d →
    Apart (σ.slot j) A.isa.word (σ.mach.get A.sp - A.savedFrameBytes) A.savedFrameBytes

def Allowed (S : Stacks A) (σ : State A) : Op A → Prop
  | .code m slot => σ.MayRun m slot
  | .create k f => σ.MayCreate S k f
  | .switch k => σ.MaySwitch S k

def step (σ : State A) (op : Op A) : Option (State A) := some (σ.next op)

end State

/-- A pointer argument, told from the frame about to be saved, is what the call finds. -/
theorem Port.denote_val {P : Port} {e : Entry P.isa} (he : e.start.get P.sp = e.own + P.savedFrameBytes) (a : Arg P.isa) :
    (P.val a).denote e = a.get P.sp e.start := by
  cases a with
  | reg r => rfl
  | stack off =>
    rw [Port.val, Val.denote, Arg.get, he, Nat.add_assoc]

/-- Memory holds a suspended context's registers and return address in its frame. -/
def Departure.Kept (d : Departure A) (mem : Memory) : Prop :=
  (∀ s ∈ A.calleeSaved, mem.read (d.base + s.2) (A.isa.width s.1) = d.reg s.1) ∧
  mem.read (d.base + A.savedRetOffset) A.isa.word = d.pc

/-- Memory reads the same in the frame of a suspended context. -/
def Departure.Unmoved (d : Departure A) (mem mem' : Memory) : Prop :=
  ∀ a n, d.base ≤ a → a + n ≤ d.base + A.span → mem'.read a n = mem.read a n

theorem Departure.Kept.of_unmoved {d : Departure A} {mem mem' : Memory} (h : d.Kept mem) (hu : d.Unmoved mem mem') :
    d.Kept mem' := by
  refine ⟨fun s hs => ?_, ?_⟩
  · have hle := A.saved_le s hs
    rw [hu _ _ (by omega) (by omega)]
    exact h.1 s hs
  · have hle := A.ret_le
    rw [hu _ _ (by omega) (by omega)]
    exact h.2

/-- What the state guarantees of a suspended context. -/
structure State.Held (S : Stacks A) (σ : State A) (k : ℕ) (d : Departure A) : Prop where
  low_le : S.low k ≤ d.base
  le_high : d.base + A.span ≤ S.high k
  slot : σ.mach.mem.read (σ.slot k) A.isa.word = d.base
  kept : d.Kept σ.mach.mem

structure State.Inv (S : Stacks A) (σ : State A) : Prop where
  running : σ.saved σ.running = none
  held : ∀ k d, σ.saved k = some d → σ.Held S k d

section
variable {S : Stacks A} {σ : State A} {k j : ℕ} {d : Departure A} {f : Start}

/-- A range inside one stack is apart from the frame of a context suspended on another. -/
theorem State.Held.apart (h : σ.Held S j d) (hne : j ≠ k) {a n : ℕ} (hlow : S.low k ≤ a) (hhigh : a + n ≤ S.high k) :
    Apart d.base A.span a n := by
  have hdis := S.disjoint j k hne
  have hl := h.low_le
  have hh := h.le_high
  unfold Apart
  omega

/-- The frame that a switch saves is below the running context's stack pointer, and `save_to` is its `Context`. -/
theorem State.MaySwitch.sp_eq (h : σ.MaySwitch S k) :
    σ.mach.get A.sp = σ.mach.get A.sp - A.savedFrameBytes + A.savedFrameBytes := by
  have hlow := h.low_le
  omega

theorem State.MaySwitch.denote_saveTo (h : σ.MaySwitch S k) (other : ℕ) :
    A.contract.saveTo.denote ⟨σ.mach, σ.mach.get A.sp - A.savedFrameBytes, other⟩ = σ.slot σ.running :=
  (Port.denote_val h.sp_eq A.saveTo).trans h.to_slot

theorem State.MaySwitch.frame_low (h : σ.MaySwitch S k) : S.low σ.running ≤ σ.mach.get A.sp - A.savedFrameBytes := by
  have hlow := h.low_le
  omega

theorem State.MaySwitch.frame_high (h : σ.MaySwitch S k) :
    σ.mach.get A.sp - A.savedFrameBytes + A.span ≤ S.high σ.running := by
  have hlow := h.low_le
  have hhigh := h.le_high
  have hspan : A.span = A.savedFrameBytes + A.callBytes := rfl
  omega

/-- A switch to a suspended context meets the contract of the listing. -/
theorem State.MaySwitch.entry_ok (h : σ.MaySwitch S k) (hne : k ≠ σ.running) (hd : σ.saved k = some d) (hk : σ.Held S k d) :
    Entry.Ok A.contract ⟨σ.mach, σ.mach.get A.sp - A.savedFrameBytes, d.base⟩ := by
  have hto := h.denote_saveTo d.base
  have hfrom : A.contract.loadFrom.denote ⟨σ.mach, σ.mach.get A.sp - A.savedFrameBytes, d.base⟩ = σ.slot k :=
    (Port.denote_val h.sp_eq A.loadFrom).trans h.from_slot
  obtain ⟨hframe, hslot⟩ := h.slot_clear k d hne hd
  refine ⟨A.sp_width, h.sp_eq, Nat.le_add_right .., h.frame_high.trans (S.high_le _), hk.le_high.trans (S.high_le k),
    ?_, ?_, ?_, ?_, ?_, ?_⟩
  · rw [hfrom]
    exact hk.slot
  · rw [hto]
    exact h.slot_own
  · rw [hfrom]
    exact h.frame_slots k d hd
  · rw [hfrom, hto]
    exact hslot.symm
  · have hsp := h.sp_eq
    have hhigh := h.le_high
    exact hk.apart hne h.frame_low (hsp.ge.trans (by omega))
  · rw [hto]
    exact hframe.symm

/-- What a switch does to the machine. -/
theorem State.MaySwitch.switched (h : σ.MaySwitch S k) (hne : k ≠ σ.running) (hd : σ.saved k = some d) (hk : σ.Held S k d) :
    Switched A.contract A.layout ⟨σ.mach, σ.mach.get A.sp - A.savedFrameBytes, d.base⟩ (σ.next (.switch k)).mach ∧
    σ.mach.run (A.krioFiberSwitch.map Instr.unconditional) = (σ.next (.switch k)).mach :=
  switched_of_check A.switches (h.entry_ok hne hd hk)

/-- The context that is left is suspended with the machine it had. -/
theorem State.MaySwitch.held_running (h : σ.MaySwitch S k) (hne : k ≠ σ.running) (hd : σ.saved k = some d)
    (hk : σ.Held S k d) : (σ.next (.switch k)).Held S σ.running (.switched σ.mach) := by
  have hs := (h.switched hne hd hk).1
  have hret : A.layout.ret.denote ⟨σ.mach, σ.mach.get A.sp - A.savedFrameBytes, d.base⟩ = A.ret.get A.sp σ.mach :=
    Port.denote_val h.sp_eq A.ret
  refine ⟨h.frame_low, h.frame_high, ?_, fun s hs' => (hs.saved s hs').2, ?_⟩
  · have hrec := hs.recorded
    rwa [h.denote_saveTo] at hrec
  · exact hs.ret.2.trans (congrArg (· % 256 ^ A.isa.word) hret)

/-- The context that is resumed has the registers, the stack pointer and the address it is suspended with. -/
theorem State.MaySwitch.resumes (h : σ.MaySwitch S k) (hne : k ≠ σ.running) (hd : σ.saved k = some d) (hk : σ.Held S k d) :
    (∀ s ∈ A.calleeSaved, (σ.next (.switch k)).mach.get s.1 = d.reg s.1) ∧
    (σ.next (.switch k)).mach.get A.sp = (d.base + A.span) % 256 ^ A.isa.word ∧
    (σ.next (.switch k)).mach.get A.pc = d.pc := by
  have hs := (h.switched hne hd hk).1
  exact ⟨fun s hs' => (hs.regs s hs').trans (hk.kept.1 s hs'), hs.sp, hs.pc.trans hk.kept.2⟩

/-- A fresh frame holds what `initial_frame` puts in it. -/
theorem State.MayCreate.held (h : σ.MayCreate S k f) : (σ.next (.create k f)).Held S k (.created f) := by
  have hlow := h.low_le
  have hspan := A.span_le
  have hread : ∀ a n v, a + n ≤ A.span → A.held a n = some v →
      (σ.initialFrame k f).read (f.top - A.initialBytes + a) n = v.value f % 256 ^ n := by
    intro a n v hle hv
    have hapart : Apart (f.top - A.initialBytes + a) n (σ.slot k) A.isa.word :=
      h.slot_own.symm.within (by omega) (by omega)
    rw [State.initialFrame, Memory.read_write_of_apart hapart]
    exact Memory.read_patch rfl (by simp) hv
  refine ⟨?_, ?_, ?_, ?_, ?_⟩
  · show S.low k ≤ f.top - A.initialBytes
    omega
  · have hhigh := h.le_high
    show f.top - A.initialBytes + A.span ≤ S.high k
    omega
  · have hlt : f.top - A.initialBytes < 256 ^ A.isa.word := by
      have hword := A.word_pos
      have hret := A.ret_le
      have hhigh := h.le_high.trans (S.high_le k)
      omega
    exact (Memory.read_write ..).trans (Nat.mod_eq_of_lt hlt)
  · exact fun s hs => hread _ _ _ (A.saved_le s hs) (A.first_held s hs)
  · exact hread _ _ _ A.ret_le A.trampoline_held

/-- The operation is not about context `k`, which stays suspended where it is. -/
def Op.Leaves (k : ℕ) : Op A → Prop
  | .code _ _ => True
  | .create j _ => j ≠ k
  | .switch j => j ≠ k

/-- A context that stays suspended through a step stays as it was left. -/
theorem State.Held.next (h : σ.Held S j d) (hd : σ.saved j = some d) (hj : j ≠ σ.running) (hinv : σ.Inv S) {op : Op A}
    (hop : σ.Allowed S op) (hleaves : op.Leaves j) :
    (σ.next op).saved j = some d ∧ (σ.next op).Held S j d := by
  cases op with
  | code m slot =>
    obtain ⟨hframe, hslot⟩ := hop j d hd
    have hunmoved : d.Unmoved σ.mach.mem m.mem := fun a n ha hn =>
      Memory.read_congr fun b hb hlt => hframe b (by omega) (by omega)
    exact ⟨hd, h.low_le, h.le_high, hslot.trans h.slot, h.kept.of_unmoved hunmoved⟩
  | create k f =>
    have hop : σ.MayCreate S k f := hop
    have hne : j ≠ k := fun he => hleaves he.symm
    obtain ⟨hframe, hslot⟩ := hop.slot_clear j d hne hd
    have hlow := hop.low_le
    have hhigh := hop.le_high
    have hfresh : Apart d.base A.span (f.top - A.initialBytes) A.initialBytes := h.apart hne (by omega) (by omega)
    have hread : ∀ a n, Apart a n (f.top - A.initialBytes) A.initialBytes → Apart a n (σ.slot k) A.isa.word →
        (σ.initialFrame k f).read a n = σ.mach.mem.read a n := fun a n ha hn =>
      (Memory.read_write_of_apart hn).trans (Memory.read_patch_of_apart A.initial_le ha)
    have hunmoved : d.Unmoved σ.mach.mem (σ.initialFrame k f) := fun a n ha hn =>
      hread a n (hfresh.within ha hn) (hframe.symm.within ha hn)
    exact ⟨(Function.update_of_ne hne ..).trans hd, h.low_le, h.le_high,
      (hread _ _ (hop.frame_slots j d hne hd) hslot.symm).trans h.slot, h.kept.of_unmoved hunmoved⟩
  | switch k =>
    have hop : σ.MaySwitch S k := hop
    obtain ⟨d', hd'⟩ := Option.ne_none_iff_exists'.mp hop.suspended
    have hk : k ≠ σ.running := by
      rintro rfl
      exact hop.suspended hinv.running
    have hs := (hop.switched hk hd' (hinv.held k d' hd')).1
    obtain ⟨hframe, hslot⟩ := hop.slot_clear j d hj hd
    have hown : Apart d.base A.span (σ.mach.get A.sp - A.savedFrameBytes) A.savedFrameBytes := by
      have hsp := hop.sp_eq
      have hhigh := hop.le_high
      exact h.apart hj hop.frame_low (hsp.ge.trans (by omega))
    have hread : ∀ a n, Apart a n (σ.mach.get A.sp - A.savedFrameBytes) A.savedFrameBytes →
        Apart a n (σ.slot σ.running) A.isa.word → (σ.next (.switch k)).mach.mem.read a n = σ.mach.mem.read a n :=
      fun a n ha hn => hs.outside a n ha ((hop.denote_saveTo _).symm ▸ hn)
    have hunmoved : d.Unmoved σ.mach.mem (σ.next (.switch k)).mach.mem := fun a n ha hn =>
      hread a n (hown.within ha hn) (hframe.symm.within ha hn)
    have hsaved : (σ.next (.switch k)).saved j = some d :=
      (Function.update_of_ne hj ..).trans ((Function.update_of_ne (fun he => hleaves he.symm) ..).trans hd)
    exact ⟨hsaved, h.low_le, h.le_high, (hread _ _ (hop.frame_slots j d hd) hslot.symm).trans h.slot,
      h.kept.of_unmoved hunmoved⟩

/-- A context suspended after a step was so before, and the step is not about it, or it is just created or
    has just switched away. -/
theorem State.saved_next {op : Op A} (hinv : σ.Inv S) (h : (σ.next op).saved j = some d) :
    (σ.saved j = some d ∧ j ≠ σ.running ∧ op.Leaves j) ∨ (∃ f, op = .create j f ∧ d = .created f) ∨
      ∃ k, op = .switch k ∧ j = σ.running ∧ d = .switched σ.mach := by
  have hidle : σ.saved j = some d → j ≠ σ.running := by
    rintro hj rfl
    rw [hinv.running] at hj
    cases hj
  cases op with
  | code m slot => exact Or.inl ⟨h, hidle h, trivial⟩
  | create k f =>
    by_cases hjk : j = k
    · subst hjk
      have hd : Departure.created f = d := by simpa [State.next] using h
      exact Or.inr (Or.inl ⟨f, rfl, hd.symm⟩)
    · have hj : σ.saved j = some d := (Function.update_of_ne hjk ..).symm.trans h
      exact Or.inl ⟨hj, hidle hj, fun he => hjk he.symm⟩
  | switch k =>
    by_cases hjr : j = σ.running
    · subst hjr
      have hd : Departure.switched σ.mach = d := by simpa [State.next] using h
      exact Or.inr (Or.inr ⟨k, rfl, rfl, hd.symm⟩)
    · have hrest : Function.update σ.saved k none j = some d := (Function.update_of_ne hjr ..).symm.trans h
      by_cases hjk : j = k
      · subst hjk
        rw [Function.update_self] at hrest
        cases hrest
      · have hj : σ.saved j = some d := (Function.update_of_ne hjk ..).symm.trans hrest
        exact Or.inl ⟨hj, hjr, fun he => hjk he.symm⟩

theorem State.MaySwitch.ne_running (h : σ.MaySwitch S k) (hinv : σ.Inv S) : k ≠ σ.running := by
  rintro rfl
  exact h.suspended hinv.running

theorem State.Inv.next {op : Op A} (hinv : σ.Inv S) (hop : σ.Allowed S op) : (σ.next op).Inv S where
  running := by
    cases op with
    | code m slot => exact hinv.running
    | create k f => exact (Function.update_of_ne (State.MayCreate.idle hop).symm ..).trans hinv.running
    | switch k =>
      have hne := State.MaySwitch.ne_running hop hinv
      exact (Function.update_of_ne hne ..).trans (Function.update_self ..)
  held := by
    intro j d hj
    obtain ⟨hold, hidle, hleaves⟩ | ⟨f, rfl, rfl⟩ | ⟨k, rfl, rfl, rfl⟩ := State.saved_next hinv hj
    · exact ((hinv.held j d hold).next hold hidle hinv hop hleaves).2
    · exact State.MayCreate.held hop
    · have hop : σ.MaySwitch S k := hop
      obtain ⟨d, hd⟩ := Option.ne_none_iff_exists'.mp hop.suspended
      exact hop.held_running (hop.ne_running hinv) hd (hinv.held k d hd)

end

abbrev State.Run (S : Stacks A) (σ τ : State A) : Prop := Steps State.step (State.Allowed S) σ τ

/-- A run in which context `k` is neither resumed nor made anew. -/
abbrev State.Away (S : Stacks A) (k : ℕ) (σ τ : State A) : Prop :=
  Steps State.step (fun σ op => σ.Allowed S op ∧ op.Leaves k) σ τ

/-- When a context was suspended: at its last switch away, or by its creation. -/
def Departure.Since (S : Stacks A) (σ₀ σ : State A) (k : ℕ) : Departure A → Prop
  | switched m => ∃ τ j, State.Run S σ₀ τ ∧ τ.running = k ∧ τ.mach = m ∧ τ.MaySwitch S j ∧
      State.Away S k (τ.next (.switch j)) σ
  | created f => ∃ τ, State.Run S σ₀ τ ∧ τ.MayCreate S k f ∧ State.Away S k (τ.next (.create k f)) σ

/-- A context goes on as it was left. -/
structure Departure.Resumed (d : Departure A) (m : Machine A.isa) : Prop where
  regs : ∀ s ∈ A.calleeSaved, m.get s.1 = d.reg s.1
  sp : m.get A.sp = d.sp
  pc : m.get A.pc = d.pc

/-- A context runs for the first time: at its trampoline, with the default control words, and on the way to
    an aligned call with its state as the argument. -/
structure Start.Enters (A : Abi) (f : Start) (m : Machine A.isa) : Prop where
  pc : m.get A.pc = f.trampoline
  state : m.get A.stateReg = f.state
  control : ∀ c ∈ A.control, m.get c.1 = c.2
  argument : A.argument.get A.sp (m.run A.trampoline) = f.state
  aligned : (m.run A.trampoline).get A.sp % 16 = 0

section
variable {S : Stacks A} {σ₀ σ : State A} {k : ℕ} {d : Departure A}

theorem State.inv_initial (h₀ : ∀ k, σ₀.saved k = none) : σ₀.Inv S where
  running := h₀ _
  held := by
    intro k d hd
    rw [h₀ k] at hd
    cases hd

theorem State.Run.inv (h₀ : ∀ k, σ₀.saved k = none) (hrun : State.Run S σ₀ σ) : σ.Inv S := by
  refine hrun.keeps ?_ (State.inv_initial h₀)
  intro σ op τ hinv hop hstep
  obtain rfl := Option.some.inj hstep
  exact hinv.next hop

/-- Every suspended context was left at some moment of the run and has not been touched since. -/
theorem State.Run.since (h₀ : ∀ k, σ₀.saved k = none) (hrun : State.Run S σ₀ σ) (hd : σ.saved k = some d) :
    d.Since S σ₀ σ k := by
  induction hrun generalizing k d with
  | refl =>
    rw [h₀ k] at hd
    cases hd
  | tail hrun hop hstep ih =>
    obtain rfl := Option.some.inj hstep
    obtain ⟨hold, -, hleaves⟩ | ⟨f, rfl, rfl⟩ | ⟨j, rfl, rfl, rfl⟩ := State.saved_next (State.Run.inv h₀ hrun) hd
    · cases d with
      | switched m =>
        obtain ⟨τ, j, hτ, hk, hm, hj, haway⟩ := ih hold
        exact ⟨τ, j, hτ, hk, hm, hj, haway.tail ⟨hop, hleaves⟩ rfl⟩
      | created f =>
        obtain ⟨τ, hτ, hf, haway⟩ := ih hold
        exact ⟨τ, hτ, hf, haway.tail ⟨hop, hleaves⟩ rfl⟩
    · exact ⟨_, hrun, hop, .refl⟩
    · exact ⟨_, j, hrun, rfl, rfl, hop, .refl⟩

theorem Departure.base_span (hlow : ∀ m, d = .switched m → A.savedFrameBytes ≤ m.get A.sp) :
    (d.base + A.span) % 256 ^ A.isa.word = d.sp := by
  cases d with
  | switched m =>
    have hle := hlow m rfl
    have hspan : A.span = A.savedFrameBytes + A.callBytes := rfl
    have hsum : m.get A.sp - A.savedFrameBytes + A.span = m.get A.sp + A.callBytes := by omega
    rw [Departure.sp, Departure.base, hsum]
  | created f => rfl

/-- The first resumption of a created context. -/
theorem Departure.Resumed.enters {f : Start} {m : Machine A.isa} (h : Departure.Resumed (.created f) m)
    (hf : σ.MayCreate S k f) : f.Enters A m := by
  have hlow := hf.low_le
  have haligned := hf.aligned
  obtain ⟨hstate, hin⟩ := A.state_saved
  obtain ⟨s, hs, hreg⟩ := List.mem_map.mp hin
  have hget : m.get A.stateReg = f.state := by
    have hval := h.regs s hs
    rw [hreg, Departure.reg, hstate, A.state_width] at hval
    exact hval.trans (Nat.mod_eq_of_lt hf.state_lt)
  have hsp : (m.get A.sp + A.initialBytes) % 16 = A.span % 16 := by
    have hdvd : 16 ∣ 256 ^ A.isa.word := (show 16 ∣ 256 by decide).trans (dvd_pow_self _ A.word_pos.ne')
    have hmod : m.get A.sp % 16 = (f.top - A.initialBytes + A.span) % 16 := by
      rw [h.sp, Departure.sp, Nat.mod_mod_of_dvd _ hdvd]
    omega
  obtain ⟨harg, hcall⟩ := A.enters m hsp
  refine ⟨h.pc.trans (Nat.mod_eq_of_lt hf.trampoline_lt), hget, ?_, harg.trans hget, hcall⟩
  intro c hc
  obtain ⟨hfirst, hlt, hin⟩ := A.control_saved c hc
  obtain ⟨s, hs, hreg⟩ := List.mem_map.mp hin
  have hval := h.regs s hs
  rw [hreg, Departure.reg, hfirst] at hval
  exact hval.trans (Nat.mod_eq_of_lt hlt)

end

/-- On every target and in every run, each suspended context was left by its last switch away or by its
    creation; from the saved `sp` the published offsets address its frame pointer and return address; and a
    switch to it goes on as it was left, whether control words are reloaded always or only when they differ. -/
theorem contexts_preserved (t : Target) (S : Stacks t.abi) {σ₀ σ : State t.abi} (h₀ : ∀ k, σ₀.saved k = none)
    (hrun : State.Run S σ₀ σ) {k : ℕ} (hk : σ.saved k ≠ none) :
    ∃ d : Departure t.abi, d.Since S σ₀ σ k ∧
      σ.mach.mem.read (σ.mach.mem.read (σ.slot k) t.abi.isa.word + t.abi.savedFpOffset) (t.abi.isa.width t.abi.fp) =
        d.reg t.abi.fp ∧
      σ.mach.mem.read (σ.mach.mem.read (σ.slot k) t.abi.isa.word + t.abi.savedRetOffset) t.abi.isa.word = d.pc ∧
      (σ.MaySwitch S k → d.Resumed (σ.next (.switch k)).mach ∧
        σ.mach.run (t.abi.krioFiberSwitch.map Instr.unconditional) = (σ.next (.switch k)).mach ∧
        ∀ f, d = .created f → f.Enters t.abi (σ.next (.switch k)).mach) := by
  obtain ⟨d, hd⟩ := Option.ne_none_iff_exists'.mp hk
  have hinv := State.Run.inv h₀ hrun
  have hheld := hinv.held k d hd
  have hsince := State.Run.since h₀ hrun hd
  refine ⟨d, hsince, ?_, ?_, ?_⟩
  · rw [hheld.slot]
    exact hheld.kept.1 _ t.abi.fp_saved
  · rw [hheld.slot]
    exact hheld.kept.2
  · intro hsw
    have hne := hsw.ne_running hinv
    obtain ⟨hregs, hsp, hpc⟩ := hsw.resumes hne hd hheld
    have hlow : ∀ m, d = .switched m → t.abi.savedFrameBytes ≤ m.get t.abi.sp := by
      rintro m rfl
      obtain ⟨τ, j, -, -, rfl, hj, -⟩ := hsince
      exact (Nat.le_add_left ..).trans hj.low_le
    have hresumed : d.Resumed (σ.next (.switch k)).mach := ⟨hregs, hsp.trans (Departure.base_span hlow), hpc⟩
    refine ⟨hresumed, (hsw.switched hne hd hheld).2, ?_⟩
    rintro f rfl
    obtain ⟨τ, -, hf, -⟩ := hsince
    exact hresumed.enters hf

/-- `Context::new`: the stack's end is aligned down, the start record takes 16 bytes there, and the first
    frame goes below it. -/
def Start.ofStack (low len trampoline : ℕ) : Start where
  top := (low + len) / 16 * 16 - 16
  stackLimit := low
  state := (low + len) / 16 * 16 - 16
  trampoline := trampoline

/-- A stack with room for the frame, the record and the alignment is one to create a context on. -/
theorem Start.ofStack_fits {A : Abi} {low len trampoline : ℕ} (hlen : A.initialBytes + 31 ≤ len) :
    (Start.ofStack low len trampoline).top % 16 = 0 ∧ low + A.initialBytes ≤ (Start.ofStack low len trampoline).top ∧
      (Start.ofStack low len trampoline).top + 16 ≤ low + len := by
  simp only [Start.ofStack]
  omega

theorem State.Run.next {S : Stacks A} {σ₀ σ : State A} (hrun : State.Run S σ₀ σ) (op : Op A) (hop : σ.Allowed S op) :
    State.Run S σ₀ (σ.next op) := hrun.tail hop rfl

/-- Code that leaves memory and the `Context`s alone. -/
theorem State.mayRun_same {σ : State A} {m : Machine A.isa} (h : m.mem = σ.mach.mem) : σ.MayRun m σ.slot := by
  intro k d _
  rw [h]
  exact ⟨fun _ _ _ => rfl, rfl⟩

/-! A context is created on a second stack, and the code on the first one calls `switch` with the two
    `Context`s at 64 and 128; then the second switches back. -/

def sampleStacks : Stacks Riscv64.abi where
  low k := if k < 2 then 4096 * (k + 1) else 0
  high k := if k < 2 then 4096 * (k + 2) else 0
  disjoint i j h := by
    split <;> split <;> omega
  high_le i := by
    have hpow : 256 ^ Riscv64.abi.isa.word = 18446744073709551616 := rfl
    split <;> omega

def sampleStart : State Riscv64.abi where
  mach := ⟨fun _ => 0, fun _ => 0⟩
  running := 0
  slot k := 64 * (k + 1)
  saved _ := none

def sampleCall : Machine Riscv64.isa where
  regs
    | .sp => 6144
    | .a0 => 64
    | .a1 => 128
    | .ra => 4660
    | _ => 0
  mem := sampleStart.initialFrame 1 (Start.ofStack 8192 4096 1000)

def sample : State Riscv64.abi :=
  (sampleStart.next (.create 1 (Start.ofStack 8192 4096 1000))).next (.code sampleCall fun k => 64 * (k + 1))

theorem sample_saved {j : ℕ} {d : Departure Riscv64.abi} (h : sample.saved j = some d) :
    j = 1 ∧ d = .created (Start.ofStack 8192 4096 1000) := by
  by_cases hj : j = 1
  · subst hj
    have hd : some (Departure.created (Start.ofStack 8192 4096 1000)) = some d := h
    exact ⟨rfl, (Option.some.inj hd).symm⟩
  · have hnone : sample.saved j = none := Function.update_of_ne hj ..
    rw [hnone] at h
    cases h

theorem sample_mayCreate : sampleStart.MayCreate sampleStacks 1 (Start.ofStack 8192 4096 1000) where
  idle := by decide
  aligned := by decide
  state_lt := by decide
  trampoline_lt := by decide
  low_le := by decide
  le_high := by decide
  slot_own := by decide
  slot_clear := nofun
  frame_slots := nofun

theorem sample_run : State.Run sampleStacks sampleStart sample := by
  have hcode : (sampleStart.next (.create 1 (Start.ofStack 8192 4096 1000))).MayRun sampleCall fun k => 64 * (k + 1) :=
    State.mayRun_same rfl
  exact (State.Run.next .refl (.create 1 _) sample_mayCreate).next (.code sampleCall _) hcode

theorem sample_maySwitch : sample.MaySwitch sampleStacks 1 where
  suspended := by
    intro h
    cases h
  to_slot := rfl
  from_slot := rfl
  low_le := by decide
  le_high := by decide
  slot_own := by decide
  slot_clear := by
    intro j d hj hd
    obtain ⟨rfl, rfl⟩ := sample_saved hd
    decide
  frame_slots := by
    intro j d hd
    obtain ⟨rfl, rfl⟩ := sample_saved hd
    decide

/-- Context 1 calls `switch` in its turn. -/
def sampleBack : Machine Riscv64.isa where
  regs
    | .sp => 10240
    | .a0 => 128
    | .a1 => 64
    | .ra => 22136
    | _ => 0
  mem := (sample.next (.switch 1)).mach.mem

def sampleReturn : State Riscv64.abi := (sample.next (.switch 1)).next (.code sampleBack fun k => 64 * (k + 1))

theorem sampleReturn_saved {j : ℕ} {d : Departure Riscv64.abi} (h : sampleReturn.saved j = some d) :
    j = 0 ∧ d = .switched sampleCall := by
  by_cases hj : j = 0
  · subst hj
    have hd : some (Departure.switched sampleCall) = some d := h
    exact ⟨rfl, (Option.some.inj hd).symm⟩
  · have hrest : Function.update sample.saved 1 none j = some d := (Function.update_of_ne hj ..).symm.trans h
    by_cases hone : j = 1
    · subst hone
      rw [Function.update_self] at hrest
      cases hrest
    · exact absurd (sample_saved ((Function.update_of_ne hone ..).symm.trans hrest)).1 hone

theorem sampleReturn_run : State.Run sampleStacks sampleStart sampleReturn := by
  have hmem : sampleBack.mem = (sample.next (.switch 1)).mach.mem := by rw [sampleBack]
  have hslot : (sample.next (.switch 1)).slot = fun k => 64 * (k + 1) := by rw [State.next]; rfl
  have hcode : (sample.next (.switch 1)).MayRun sampleBack fun k => 64 * (k + 1) := hslot ▸ State.mayRun_same hmem
  exact (sample_run.next (.switch 1) sample_maySwitch).next (.code sampleBack _) hcode

theorem sampleReturn_maySwitch : sampleReturn.MaySwitch sampleStacks 0 where
  suspended := by
    intro h
    cases h
  to_slot := rfl
  from_slot := rfl
  low_le := by decide
  le_high := by decide
  slot_own := by decide
  slot_clear := by
    intro j d hj hd
    obtain ⟨rfl, rfl⟩ := sampleReturn_saved hd
    decide
  frame_slots := by
    intro j d hd
    obtain ⟨rfl, rfl⟩ := sampleReturn_saved hd
    decide

/-- The first context switches to the new one, and is resumed when that one switches back. -/
theorem contexts_preserved_sample :
    (∃ d : Departure Riscv64.abi, d.Since sampleStacks sampleStart sample 1 ∧ d.Resumed (sample.next (.switch 1)).mach) ∧
      ∃ d : Departure Riscv64.abi, d.Since sampleStacks sampleStart sampleReturn 0 ∧
        d.Resumed (sampleReturn.next (.switch 0)).mach := by
  constructor
  · obtain ⟨d, hsince, -, -, hswitch⟩ :=
      contexts_preserved .riscv64 sampleStacks (fun _ => rfl) sample_run (k := 1) sample_maySwitch.suspended
    exact ⟨d, hsince, (hswitch sample_maySwitch).1⟩
  · obtain ⟨d, hsince, -, -, hswitch⟩ :=
      contexts_preserved .riscv64 sampleStacks (fun _ => rfl) sampleReturn_run (k := 0) sampleReturn_maySwitch.suspended
    exact ⟨d, hsince, (hswitch sampleReturn_maySwitch).1⟩

end Krio.Switch
