import Mathlib.Logic.Function.Basic
import Krio.Lib.Runs

/-! Threads over a shared memory. A program says what the next indivisible step of one thread does to
    the memory and to the thread's own control state, and which address it signals; threads asleep on
    that address leave their wait in the same step, as waiters of a futex do. -/

namespace Krio.Lib

/-- What a step of a called function comes to: its next control point, or a return with a value. -/
inductive Out (κ ρ : Type*)
  | next (c : κ)
  | ret (r : ρ)

/-- A called function run to its return with nobody interfering, in at most so many steps. -/
def runCall {σ κ ρ : Type*} (f : σ → κ → σ × Out κ ρ) : ℕ → σ → κ → Option (σ × ρ)
  | 0, _, _ => none
  | n + 1, s, c =>
    match f s c with
    | (s', .next c') => runCall f n s' c'
    | (s', .ret r) => some (s', r)

section
variable {σ κ ρ : Type*} {f : σ → κ → σ × Out κ ρ} {n : ℕ} {s s' : σ} {c c' : κ} {r : ρ}

theorem runCall_next (h : f s c = (s', .next c')) : runCall f (n + 1) s c = runCall f n s' c' := by rw [runCall, h]

theorem runCall_ret (h : f s c = (s', .ret r)) : runCall f (n + 1) s c = some (s', r) := by rw [runCall, h]

/-- A call that runs to its return still does after its next step. -/
theorem runCall_of_next {x : σ × ρ} (hx : runCall f n s c = some x) (h : f s c = (s', .next c')) :
    ∃ n, runCall f n s' c' = some x := by
  cases n with
  | zero => cases hx
  | succ n => exact ⟨n, (runCall_next h).symm.trans hx⟩

theorem eq_of_runCall_ret {x : σ × ρ} (hx : runCall f n s c = some x) (h : f s c = (s', .ret r)) : x = (s', r) := by
  cases n with
  | zero => cases hx
  | succ n => exact (Option.some.inj ((runCall_ret h).symm.trans hx)).symm

end

/-- A program run by threads `τ` over a memory `μ`: control states `κ`, choices `χ` that resolve what the
    program leaves open, and addresses `ρ` that threads sleep on. -/
structure Program (τ μ κ χ ρ : Type*) where
  exec : τ → μ → κ → χ → Option (μ × κ × Option ρ)
  wake : τ → ρ → κ → κ

/-- A memory and the control state of every thread. -/
structure Threads (τ μ κ : Type*) where
  mem : μ
  ctl : τ → κ

namespace Program

variable {τ μ κ χ ρ β : Type*} [DecidableEq τ] (p : Program τ μ κ χ ρ)

/-- The control states after a signal on `w`. -/
def signal (w : Option ρ) (ctl : τ → κ) : τ → κ :=
  match w with
  | none => ctl
  | some a => fun t => p.wake t a (ctl t)

/-- One thread takes one step; then the signal it sent is delivered. -/
def step (s : Threads τ μ κ) (a : τ × χ) : Option (Threads τ μ κ) :=
  match p.exec a.1 s.mem (s.ctl a.1) a.2 with
  | none => none
  | some (m, c, w) => some ⟨m, p.signal w (Function.update s.ctl a.1 c)⟩

variable {p} {s s' : Threads τ μ κ} {a : τ × χ}

/-- What a step of the threads is: a step of the acting thread's program and the delivery of its signal. -/
theorem step_inv (h : p.step s a = some s') :
    ∃ m c w, p.exec a.1 s.mem (s.ctl a.1) a.2 = some (m, c, w) ∧ s'.mem = m ∧
      s'.ctl = p.signal w (Function.update s.ctl a.1 c) := by
  unfold step at h
  split at h
  · cases h
  · rename_i m c w he
    cases h
    exact ⟨m, c, w, he, rfl, rfl⟩

omit [DecidableEq τ] in
/-- A view of control states that signals do not change sees only the acting thread move. -/
theorem view_signal {v : τ → κ → β} (hv : ∀ t r c, v t (p.wake t r c) = v t c) (w : Option ρ) (ctl : τ → κ) (t : τ) :
    v t (p.signal w ctl t) = v t (ctl t) := by
  cases w with
  | none => rfl
  | some r => exact hv t r (ctl t)

theorem view_self {v : τ → κ → β} (hv : ∀ t r c, v t (p.wake t r c) = v t c) {c : κ} {w : Option ρ}
    (hc : s'.ctl = p.signal w (Function.update s.ctl a.1 c)) : v a.1 (s'.ctl a.1) = v a.1 c := by
  rw [hc, view_signal hv, Function.update_self]

theorem view_other {v : τ → κ → β} (hv : ∀ t r c, v t (p.wake t r c) = v t c) {c : κ} {w : Option ρ} {t : τ}
    (hc : s'.ctl = p.signal w (Function.update s.ctl a.1 c)) (ht : t ≠ a.1) : v t (s'.ctl t) = v t (s.ctl t) := by
  rw [hc, view_signal hv, Function.update_of_ne ht]

/-- What holds of every thread's control state and is kept when a thread leaves its wait holds after a
    step, if it holds of where the acting thread gets. -/
theorem forall_ctl {P : τ → κ → Prop} (hw : ∀ t r c, P t c → P t (p.wake t r c)) {c : κ} {w : Option ρ}
    (hc : s'.ctl = p.signal w (Function.update s.ctl a.1 c)) (hself : P a.1 c)
    (hother : ∀ t, t ≠ a.1 → P t (s.ctl t)) (t : τ) : P t (s'.ctl t) := by
  have hupd : P t (Function.update s.ctl a.1 c t) := by
    obtain rfl | ht := eq_or_ne t a.1
    · rw [Function.update_self]
      exact hself
    · rw [Function.update_of_ne ht]
      exact hother t ht
  rw [hc]
  cases w with
  | none => exact hupd
  | some r => exact hw t r _ hupd

/-- Another thread's control state either stays or leaves its wait. -/
theorem ctl_other {c : κ} {w : Option ρ} {t : τ} (hc : s'.ctl = p.signal w (Function.update s.ctl a.1 c))
    (ht : t ≠ a.1) : s'.ctl t = s.ctl t ∨ ∃ r, w = some r ∧ s'.ctl t = p.wake t r (s.ctl t) := by
  rw [hc]
  cases w with
  | none => exact Or.inl (Function.update_of_ne ht _ _)
  | some r => exact Or.inr ⟨r, rfl, by simp [signal, Function.update_of_ne ht]⟩

/-- The acting thread gets to `c`, and may leave a wait there by its own signal. -/
theorem ctl_acting {c : κ} {w : Option ρ} (hc : s'.ctl = p.signal w (Function.update s.ctl a.1 c)) :
    s'.ctl a.1 = c ∨ ∃ r, w = some r ∧ s'.ctl a.1 = p.wake a.1 r c := by
  rw [hc]
  cases w with
  | none => exact Or.inl (Function.update_self _ _ _)
  | some r => exact Or.inr ⟨r, rfl, by simp [signal]⟩

theorem ctl_self {c : κ} {w : Option ρ} (hc : s'.ctl = p.signal w (Function.update s.ctl a.1 c))
    (hw : ∀ r, p.wake a.1 r c = c) : s'.ctl a.1 = c := by
  rw [hc]
  cases w with
  | none => exact Function.update_self _ _ _
  | some r => simp [signal, hw]

end Program

end Krio.Lib
