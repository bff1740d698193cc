import Mathlib.Tactic.Common
import Krio.Stackless.Contract
import Krio.Stackless.Coroutines

/-! Stores that look the same to the user's statements, and runs of statements on them. -/

namespace Krio.Stackless

variable {U : Type} {host : Host U} {n : ℕ}

/-- The entries of a log that record a statement of the host. -/
def Event.isRun : Event U → Bool
  | .ran _ | .received _ => true
  | _ => false

/-- The host statements that a run has executed, the latest first. -/
def Store.trace (σ : Store host) : List (Event U) := σ.log.filter Event.isRun

/-- The host's statements touch only locals below `n`. -/
structure Host.Below (host : Host U) (n : ℕ) : Prop where
  exec_keeps : ∀ u locals state l, n ≤ l → (host.exec u locals state).1 l = locals l
  exec_reads : ∀ u locals locals' state, (∀ l < n, locals l = locals' l) →
    (∀ l < n, (host.exec u locals state).1 l = (host.exec u locals' state).1 l) ∧
      (host.exec u locals state).2 = (host.exec u locals' state).2
  ready_reads : ∀ u locals locals' state, (∀ l < n, locals l = locals' l) →
    host.ready u locals state = host.ready u locals' state

/-- The user sees the same in both stores. -/
structure Agree (n : ℕ) (σ τ : Store host) : Prop where
  locals : ∀ l < n, σ.locals l = τ.locals l
  state : σ.state = τ.state
  trace : σ.trace = τ.trace

namespace Agree
variable {σ τ υ : Store host}

theorem refl : Agree n σ σ := ⟨fun _ _ => rfl, rfl, rfl⟩

theorem trans (h : Agree n σ τ) (h' : Agree n τ υ) : Agree n σ υ :=
  ⟨fun l hl => (h.locals l hl).trans (h'.locals l hl), h.state.trans h'.state, h.trace.trans h'.trace⟩

theorem note_enter (h : Agree n σ τ) (bb : ℕ) : Agree n σ (τ.note (.enter bb)) := ⟨h.locals, h.state, h.trace⟩

theorem run (hb : host.Below n) (h : Agree n σ τ) (u : U) (e : Event U) : Agree n (σ.run u e) (τ.run u e) := by
  obtain ⟨h1, h2⟩ := hb.exec_reads u σ.locals τ.locals σ.state h.locals
  rw [h.state] at h1 h2
  refine ⟨?_, ?_, ?_⟩
  · simp only [Store.run, h.state]
    exact h1
  · simp only [Store.run, h.state]
    exact h2
  · have ht := h.trace
    simp only [Store.trace, Store.run, List.filter_cons] at ht ⊢
    rw [ht]

theorem assign (h : Agree n σ τ) (l : ℕ) (v : ℤ) : Agree n (σ.assign l v) (τ.assign l v) := by
  refine ⟨fun x hx => ?_, h.state, h.trace⟩
  simp only [Store.assign, Function.update_apply, h.locals x hx]

theorem look (hb : host.Below n) (h : Agree n σ τ) (u : U) :
    (σ.look u).1 = (τ.look u).1 ∧ Agree n (σ.look u).2 (τ.look u).2 := by
  have hr := hb.ready_reads u σ.locals τ.locals σ.state h.locals
  rw [h.state] at hr
  refine ⟨?_, ⟨h.locals, ?_, h.trace⟩⟩
  · simp only [Store.look, h.state, hr]
  · simp only [Store.look, h.state, hr]

/-- Writing a local above `n` is not seen. -/
theorem of_keeps (h : Agree n σ τ) (hl : ∀ l < n, υ.locals l = τ.locals l) (hs : υ.state = τ.state) (ht : υ.trace = τ.trace) :
    Agree n σ υ :=
  ⟨fun l hl' => (h.locals l hl').trans (hl l hl').symm, h.state.trans hs.symm, h.trace.trans ht.symm⟩

end Agree

/-- A statement of the body does the same to stores that agree, and keeps the locals of the transform. -/
theorem exec_agree (hb : host.Below n) {s : Stmt U} (hs : s.Below n) {σ τ : Store host} (h : Agree n σ τ) :
    Agree n (s.exec σ) (s.exec τ) ∧ ∀ l, n ≤ l → (s.exec τ).locals l = τ.locals l := by
  cases s with
  | host u => exact ⟨h.run hb u _, fun l hl => hb.exec_keeps u _ _ l hl⟩
  | assignI64 d v =>
    refine ⟨h.assign d v, fun l hl => ?_⟩
    have hne : l ≠ d := (lt_of_lt_of_le hs hl).ne'
    simp [Stmt.exec, Store.assign, hne]
  | assignBool d v =>
    refine ⟨h.assign d _, fun l hl => ?_⟩
    have hne : l ≠ d := (lt_of_lt_of_le hs hl).ne'
    simp [Stmt.exec, Store.assign, hne]
  | eqCheckI64 d a v =>
    obtain ⟨hd, ha⟩ := hs
    refine ⟨⟨fun x hx => ?_, h.state, h.trace⟩, fun l hl => ?_⟩
    · simp only [Stmt.exec, Function.update_apply, h.locals x hx, h.locals a ha]
    · have hne : l ≠ d := (lt_of_lt_of_le hd hl).ne'
      simp [Stmt.exec, hne]
  | peek u d =>
    obtain ⟨h1, h2⟩ := h.look hb u
    refine ⟨⟨fun x hx => ?_, h2.state, h2.trace⟩, fun l hl => ?_⟩
    · have hx' := h2.locals x hx
      simp only [Stmt.exec, Function.update_apply, h1, hx']
    · have hne : l ≠ d := (lt_of_lt_of_le hs hl).ne'
      simp [Stmt.exec, Store.look, hne]
  | recv u => exact ⟨h.run hb u _, fun l hl => hb.exec_keeps u _ _ l hl⟩
  | nop => exact ⟨h, fun _ _ => rfl⟩

@[simp] theorem execAll_nil (σ : Store host) : execAll σ [] = σ := rfl
@[simp] theorem execAll_cons (σ : Store host) (s : Stmt U) (l : List (Stmt U)) : execAll σ (s :: l) = execAll (s.exec σ) l := rfl

@[simp] theorem execAll_append (σ : Store host) (l l' : List (Stmt U)) : execAll σ (l ++ l') = execAll (execAll σ l) l' :=
  List.foldl_append

theorem leads_agree {t : Term} (ht : TermBelow n t) {σ τ : Store host} (h : Agree n σ τ) :
    leads σ.locals t = leads τ.locals t := by
  cases t with
  | branch c a b => simp only [leads, h.locals c ht]
  | switch d ts o => simp only [leads, h.locals d ht]
  | _ => rfl

theorem switchTarget_mem (v : ℤ) (o : ℕ) (ts : List (ℤ × ℕ)) : switchTarget v o ts ∈ ts.map (·.2) ++ [o] := by
  induction ts with
  | nil => simp [switchTarget]
  | cons t ts ih =>
    obtain ⟨w, bb⟩ := t
    rw [switchTarget]
    split
    · simp
    · exact List.mem_cons_of_mem _ ih

/-- A terminator leads to a successor, or out of the body. -/
theorem leads_successors (locals : Locals) (t : Term) {b : ℕ} (h : leads locals t = .block b) : b ∈ t.successors := by
  cases t with
  | goto x =>
    cases h
    simp [Term.successors]
  | branch c a b' =>
    simp only [leads, At.block.injEq] at h
    subst h
    split <;> simp [Term.successors]
  | switch d ts o =>
    simp only [leads, At.block.injEq] at h
    subst h
    exact switchTarget_mem _ _ _
  | unreachable => cases h
  | ret => cases h

end Krio.Stackless
