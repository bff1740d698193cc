import Krio.Fibers.Wired

/-! The chain of callers: the hooks denote the fiber on top of the active calls, every switch out of a fiber goes to the
call that resumed it last, and a call that returns leaves the hooks as it found them. -/

namespace Krio.Fibers
open Lib

section
variable {s s' : State} {o : Op} {f : Fid} {a : Addr} {c : Call} {cs : List Call} {sp : Sp}

/-- How a fiber gives control back, and what its `resume` then returns. -/
def Op.leaves : Op → Option FiberStep
  | .yieldNow | .yieldValue _ _ | .yieldU64 _ => some .yielded
  | .finish => some .done
  | .panic _ => some .errored
  | _ => none

/-- The switch of a fiber that gives control back. -/
theorem Wired.leave (h : Wired s) (ht : Top s f a c cs sp) (hc : s.ctl = .code (some f)) {r : FiberStep}
    (ho : o.leaves = some r) :
    ∃ d pc, step s o = some (s.left f d pc sp (c.frame a)) ∧ d.step = r ∧ Wired (s.left f d pc sp (c.frame a)) := by
  have hpend : s.pending = s.active := by rw [State.pending, hc]
  have hfiber : s.hooks.fiber = some a := by
    rw [h.hooks, ht.active, State.hooksOf, ht.fiber]
    exact ht.home
  have hmem : s.mem a = some f := (h.mem a f).mpr ht.home
  have hnot : (s.fibers f).data.errored = false := by
    rw [← Bool.not_eq_true]
    intro he
    have hd := h.errored f he
    rw [ht.notDone] at hd
    cases hd
  -- A yield keeps the flags.
  have yields : ∀ {d : Data} {k : Yield Addr}, d.done = (s.fibers f).data.done → d.errored = (s.fibers f).data.errored →
      step s o = some ((s.setData f d).yieldNow (some f) k) → r = .yielded →
      ∃ d pc, step s o = some (s.left f d pc sp (c.frame a)) ∧ d.step = r ∧ Wired (s.left f d pc sp (c.frame a)) := by
    intro d k hd he hs hr
    refine ⟨d, .yieldNow k, by rw [hs, h.yieldNow_eq ht], ?_, h.left ht hpend (Or.inr ⟨k, rfl⟩) ?_⟩
    · rw [hr, Data.step, hd, ht.notDone]
    · rw [hd, he]
      exact h.errored f
  cases o with
  | yieldNow =>
    cases ho
    refine yields (k := .now) rfl rfl ?_ rfl
    rw [setData_self]
    simp [step, hc]
  | yieldValue v type =>
    cases ho
    refine yields (d := { (s.fibers f).data with outputSlot := some v }) (k := .value type a) rfl rfl ?_ rfl
    simp [step, hc, State.yieldValue, hfiber, State.withFiber, hmem]
  | yieldU64 n =>
    cases ho
    refine yields (d := { (s.fibers f).data with outputU64 := some n }) (k := .u64 a) rfl rfl ?_ rfl
    simp [step, hc, State.yieldU64, hfiber, State.withFiber, hmem]
  | finish =>
    cases ho
    refine ⟨{ (s.fibers f).data with done := true }, .finished, ?_, ?_, h.left ht hpend (Or.inl rfl) fun _ => rfl⟩
    · simp only [step, hc]
      rw [← h.exit_eq ht, setData_self]
    · simp [Data.step, hnot]
  | panic p =>
    cases ho
    refine ⟨{ (s.fibers f).data with errored := true, errorPayload := some p, done := true }, .finished, ?_, ?_,
      h.left ht hpend (Or.inl rfl) fun _ => rfl⟩
    · simp only [step, hc]
      rw [h.caught_eq ht]
    · simp [Data.step]
  | _ => cases ho

/-- Whatever the fibers and the host do: the hooks denote the fiber on top of the active calls, and its code runs; a
    fiber that yields, returns or panics gives control to the call that resumed it last; and every call leaves the
    hooks as it found them. -/
theorem caller_chain {ok : State → Op → Prop} (h : Reachable ok s) :
    s.hooks = s.hooksOf s.active ∧ (∀ c ∈ s.active, (s.home c.fiber).isSome) ∧
      (∀ on, s.ctl = .code on → on = topOf s.active) ∧
      (∀ f o r, s.ctl = .code (some f) → o.leaves = some r → ∃ c s₁ s₂, lastCall f s.trace = some c ∧ step s o = some s₁ ∧
        step s₁ .go = some s₂ ∧ s₂.ctl = .code c.caller ∧ s₂.trace = .returned c r c.hooks :: s.trace) ∧
      ∀ c r k, .returned c r k ∈ s.trace → k = c.hooks := by
  have hw := wired_of_run h
  have htop : ∀ on, s.ctl = .code on → on = topOf s.active := by
    intro on hc
    have := hw.ctl
    rwa [State.CtlOk, hc] at this
  refine ⟨hw.hooks, fun c hc => ?_, htop, fun f o r hc ho => ?_, hw.account.returned⟩
  · obtain ⟨a, ha, -⟩ := hw.boxes c hc
    rw [ha]
    rfl
  · obtain ⟨a, c, cs, sp, ht⟩ := hw.top (by rw [State.pending, hc]) (htop _ hc).symm
    obtain ⟨d, pc, hs, hr, hw'⟩ := hw.leave ht hc ho
    have hland := hw'.land_frame rfl ht.active (ht.fiber ▸ ht.home)
    refine ⟨c, _, (s.left f d pc sp (c.frame a)).returned c, ?_, hs, ?_, rfl, ?_⟩
    · rw [← ht.fiber]
      exact hw.account.latest c (ht.active ▸ List.mem_cons_self)
    · rw [← hland.1]
      rfl
    · rw [State.returned, ht.fiber]
      simp only [State.left, Function.update_self, hr]

/-- The host resumes one fiber, which resumes another. -/
theorem caller_chain_nested :
    ∃ s, Reachable (fun _ _ => True) s ∧ s.ctl = .code (some 1) ∧ s.hooks = ⟨some 1, some 8⟩ ∧
      ∃ c s₁ s₂, lastCall 1 s.trace = some c ∧ c.caller = some 0 ∧ step s .yieldNow = some s₁ ∧ step s₁ .go = some s₂ ∧
        s₂.ctl = .code (some 0) ∧ s₂.trace = .returned c .yielded ⟨some 0, some 4⟩ :: s.trace := by
  have hrun : (runActions step (fun _ _ => True) State.init
      [.new 4, .new 8, .resume 0 .none, .go, .resume 1 .none, .go]).any (fun s =>
        s.ctl = .code (some 1) ∧ s.hooks = ⟨some 1, some 8⟩ ∧
          lastCall 1 s.trace = some ⟨1, some 0, 1, .none, ⟨some 0, some 4⟩⟩) = true := by decide +kernel
  obtain ⟨s, hs, hq⟩ := exists_of_runActions hrun
  obtain ⟨hc, hhooks, hlast⟩ := of_decide_eq_true hq
  obtain ⟨-, -, -, hleave, -⟩ := caller_chain hs
  obtain ⟨c, s₁, s₂, hl, h₁, h₂, hctl, htrace⟩ := hleave 1 .yieldNow .yielded hc rfl
  obtain rfl := Option.some.inj (hlast.symm.trans hl)
  exact ⟨s, hs, hc, hhooks, _, s₁, s₂, hl, rfl, h₁, h₂, hctl, htrace⟩

end

end Krio.Fibers
