import Krio.Parallel.Rounds

/-! What `shutdown` has done when it is past the release of the pending stop, and past a slot. -/

namespace Krio.Parallel
open Lib Safepoint

variable {cfg : Config}

namespace Ctl

/-- About to move the state word from `x` in `shutdown`. -/
def frees : Ctl cfg → Option (BitVec 32)
  | .release (.shutdown _) (.cas x _) => some x
  | _ => none

/-- In `await_all`, past its look at `stopping`, with the count it saw. -/
def parksOn : Ctl cfg → Option (BitVec 32)
  | .stopTheWorld _ (.awaitAll (.park n)) => some n
  | _ => none

def sleepsOn : Ctl cfg → Option (BitVec 32)
  | .stopTheWorld _ (.awaitAll (.asleep n)) => some n
  | _ => none

end Ctl

/-- Some agent is at the barrier, and wakes all on the count when it leaves. -/
def State.manned (s : State cfg) : Prop := ∃ j, (s.ctl (.agent j)).inBarrier = true

/-- When `shutdown` releases the stop of a requester that is asleep in `await_all`, or such a requester goes to sleep
    after its stop was released, some agent is at the barrier. -/
def LeavesSomeone (s : State cfg) (a : Act cfg) : Prop :=
  ((s.ctl a.1).frees = some s.mem.safepoint.state → (∃ i, (s.ctl (.agent i)).sleepsOn ≠ none) → s.manned) ∧
    ((s.ctl a.1).parksOn = some s.mem.safepoint.stopped → pending s.mem.safepoint.state = false → s.manned)

instance (s : State cfg) : Decidable s.manned := inferInstanceAs (Decidable (∃ _ : Fin _, _))

instance (s : State cfg) (a : Act cfg) : Decidable (LeavesSomeone s a) :=
  inferInstanceAs (Decidable ((_ → (∃ _ : Fin _, _) → _) ∧ (_ → _ → _)))

/-! ### What `shutdown` has done -/

/-- A requester that goes to sleep or sleeps in `await_all` has lost its stop to `shutdown`, and somebody at the
    barrier will wake it. -/
structure Freed (s : State cfg) : Prop where
  stopping : s.mem.stopping = true
  lost : ∀ i, (s.ctl (.agent i)).parksOn ≠ none ∨ (s.ctl (.agent i)).sleepsOn ≠ none →
    pending s.mem.safepoint.state = false
  manned : ∀ i, (s.ctl (.agent i)).sleepsOn ≠ none → s.manned

section
variable {t : Tid cfg} {m m' : Mem cfg} {c c' : Ctl cfg} {ch : Choice cfg} {w : Option (Addr cfg)}

/-- A thread is in `stop_the_world` where its last step in there left it. -/
theorem ExecCase.inStop {k : Site} {pc : StopPc} (h : ExecCase t m c ch (m', .stopTheWorld k pc, w)) :
    ch = .call .stopTheWorld ∧ pc = .request .load ∨ ch = .spurious ∨
      ∃ pc₀, c = .stopTheWorld k pc₀ ∧ execStop m k pc₀ = some (m', .stopTheWorld k pc, w) := by
  generalize hc' : Ctl.stopTheWorld k pc = c' at h
  have called : c'.aside = true → False := by
    rw [← hc']
    rintro ⟨⟩
  by_cases ha : c.aside = true
  · obtain ⟨-, -, ha' | ⟨k, rfl⟩ | ⟨o, k, ho, rfl⟩⟩ := h.aside ha
    · exact absurd ha' called
    · cases hc'
    · cases o <;> cases hc'
      exact Or.inl ⟨ho, rfl⟩
  · cases h with
    | @release k' pc' r h =>
      unfold execRelease at h
      split at h <;> cases h
      · cases hc'
      · rcases k' with (_ | _) | (_ | _) | _ <;> cases hc'
    | enter h =>
      unfold execEnter at h
      split at h <;> cases h <;> first | cases hc' | exact absurd (aside_enterResume _) called
    | @stopTheWorld k' pc' r h =>
      have hk : k' = k := by
        cases pc' <;> simp only [execStop] at h <;> (repeat' split at h) <;> cases h <;>
          first | exact absurd (aside_siteResume _) called | (cases hc'; rfl) | cases hc'
      subst hk
      exact Or.inr (Or.inr ⟨_, rfl, hc' ▸ h⟩)
    | @requestSafepoint k' pc' r h =>
      cases pc' <;> simp only [execRequestSafepoint] at h <;> split at h <;> cases h <;>
        first | exact absurd (aside_siteResume _) called | cases hc'
    | shutdown h =>
      unfold execShutdown at h
      (repeat' split at h) <;> cases h <;> first | exact absurd (aside_siteResume _) called | cases hc'
    | spurious h => exact Or.inr (Or.inl rfl)
    | _ => exact absurd rfl ha

theorem awaitAll_next {sp : Safepoint} {expected : BitVec 32} {stopping : Bool} {pc pc' : AwaitPc}
    (h : sp.awaitAll expected stopping pc = some (.next pc')) :
    (∃ n, pc' = .stopping n) ∨ (∃ n, stopping = false ∧ pc' = .park n) ∨ (∃ n, pc' = .asleep n) ∨ pc' = .load := by
  cases pc <;> simp only [Safepoint.awaitAll, Option.some.injEq, reduceCtorEq] at h
  all_goals split at h <;> cases h <;> simp_all

/-- With `stopping` set nobody gets past the check in `await_all`. -/
theorem ExecCase.parksOn (h : ExecCase t m c ch (m', c', w)) (hch : ch ≠ .spurious) (hm : m.stopping = true) :
    c'.parksOn = none := by
  cases c' with
  | stopTheWorld k pc =>
    obtain ⟨-, rfl⟩ | rfl | ⟨pc₀, rfl, hs⟩ := h.inStop
    · rfl
    · exact absurd rfl hch
    · cases pc₀ with
      | awaitAll pc₁ =>
        simp only [execStop, hm] at hs
        split at hs <;> cases hs
        · rename_i ho
          rcases awaitAll_next ho with ⟨_, rfl⟩ | ⟨_, hstop, -⟩ | ⟨_, rfl⟩ | rfl
          · rfl
          · cases hstop
          · rfl
          · rfl
        · rfl
      | _ =>
        simp only [execStop] at hs
        (repeat' split at hs) <;> first | (cases hs; rfl) | (cases k <;> cases hs)
  | _ => rfl

/-- An agent at the barrier wakes all on the count when it leaves. -/
theorem ExecCase.inBarrier (h : ExecCase t m c ch (m', c', w)) (hc : c.inBarrier = true) :
    c'.inBarrier = true ∨ w = some (.word .stopped) := by
  cases h with
  | @enter k pc r h =>
    unfold execEnter at h
    cases pc <;> simp only [Safepoint.enter] at h <;> (try split at h) <;> cases h <;>
      first | exact Or.inl rfl | exact Or.inr rfl | cases hc
  | spurious h =>
    unfold spuriousWake at h
    split at h <;> cases h <;> first | exact Or.inl rfl | cases hc
  | _ => cases hc

theorem awaken_parksOn (t : Tid cfg) (a : Addr cfg) (c : Ctl cfg) : (awaken t a c).parksOn = c.parksOn := by
  unfold awaken
  split <;> (try split) <;> rfl

theorem sleepsOn_eq {n : BitVec 32} (h : c.sleepsOn = some n) : ∃ k, c = .stopTheWorld k (.awaitAll (.asleep n)) := by
  unfold Ctl.sleepsOn at h
  split at h <;> cases h
  exact ⟨_, rfl⟩

theorem asleep_of_sleepsOn (h : c.sleepsOn ≠ none) : c.asleep = true := by
  obtain ⟨n, hn⟩ := Option.ne_none_iff_exists'.mp h
  obtain ⟨k, rfl⟩ := sleepsOn_eq hn
  rfl

theorem owner_of_awaits (h : c.parksOn ≠ none ∨ c.sleepsOn ≠ none) : c.role = .owner := by
  unfold Ctl.parksOn Ctl.sleepsOn at h
  split at h <;> (try split at h) <;> first | rfl | simp at h

theorem stopOp_of_owner (h : c.role = .owner) : c.stopOp = some .stopTheWorld := by
  unfold Ctl.role at h
  split at h <;> first | rfl | cases h

theorem stopOp_of_holds (h : c.role.holds = true) : c.stopOp = some .stopTheWorld := by
  unfold Ctl.role at h
  split at h <;> first | rfl | cases h

theorem inBarrier_of_counted (h : c.role.counted = true) : c.inBarrier = true := by
  unfold Ctl.role at h
  split at h <;> first | rfl | cases h

theorem parksOn_of_fallsAsleep (h : FallsAsleep t m c c') (hc : c'.sleepsOn ≠ none) :
    c.parksOn = some m.safepoint.stopped := by
  cases h <;> first | rfl | exact absurd rfl hc

end

section
variable {s s' : State cfg} {a : Act cfg}

/-- Whoever leaves the barrier last wakes all on the count. -/
theorem manned_of_step {m' : Mem cfg} {c : Ctl cfg} {w : Option (Addr cfg)}
    (he : ExecCase a.1 s.mem (s.ctl a.1) a.2 (m', c, w))
    (hctl : s'.ctl = (cluster cfg).signal w (Function.update s.ctl a.1 c)) (h : s.manned)
    (hw : w ≠ some (.word .stopped)) : s'.manned := by
  obtain ⟨j, hj⟩ := h
  refine ⟨j, ?_⟩
  obtain hja | hja := eq_or_ne (.agent j) a.1
  · rw [hja] at hj ⊢
    rw [Program.view_self (v := fun _ c => c.inBarrier) awaken_inBarrier hctl]
    exact (he.inBarrier hj).resolve_right hw
  · rwa [Program.view_other (v := fun _ c => c.inBarrier) awaken_inBarrier hctl hja]

theorem Freed.step (h : Freed s) (hr' : Rounds s') (hext' : ∀ x, (s'.ctl (.ext x)).external = true)
    (ha : a.2 ≠ .spurious) (hok : LeavesSomeone s a) (hstep : (cluster cfg).step s a = some s') : Freed s' := by
  obtain ⟨hself, -⟩ := barrier_inv hstep
  obtain ⟨m, c, w, he, rfl, hctl⟩ := step_inv hstep
  have before : ∀ i, (s'.ctl (.agent i)).parksOn ≠ none ∨ (s'.ctl (.agent i)).sleepsOn ≠ none →
      (s.ctl (.agent i)).parksOn ≠ none ∨ (s.ctl (.agent i)).sleepsOn ≠ none := by
    rintro i (hi | hi)
    · obtain hia | hia := eq_or_ne (.agent i) a.1
      · rw [hia, Program.view_self (v := fun _ c => c.parksOn) awaken_parksOn hctl] at hi
        exact absurd (he.parksOn ha h.stopping) hi
      · rw [Program.view_other (v := fun _ c => c.parksOn) awaken_parksOn hctl hia] at hi
        exact Or.inl hi
    · obtain ⟨-, -, -, hf⟩ | ⟨-, hsame, -⟩ := asleep_cases he hctl (asleep_of_sleepsOn hi)
      · exact Or.inl (by rw [parksOn_of_fallsAsleep hf hi]; simp)
      · exact Or.inr (hsame ▸ hi)
  refine ⟨he.shutting.1 h.stopping, fun i hi => ?_, fun i hi => ?_⟩
  · have hp := h.lost i (before i hi)
    cases he.word with
    | same hsp => rw [hsp, hp]
    | request hp₀ hsp hc =>
      -- The one stop in progress is that of agent `i`, which has none to request.
      have hreq : c.stopOp ≠ some .requestSafepoint := by
        rw [← Program.view_self (v := fun _ c => c.stopOp) awaken_stopOp hctl]
        exact hr'.requests a.1
      have hown := hc.resolve_right hreq
      rw [← Program.view_self (v := fun _ c => c.role) awaken_role hctl] at hown
      have hia : a.1 = .agent i := by
        cases ht : a.1 with
        | ext x =>
          rw [ht] at hown
          rcases role_external (hext' x) with hx | hx <;> rw [hx] at hown <;> cases hown
        | agent j => rw [hr'.single j i (stopOp_of_owner (ht ▸ hown)) (stopOp_of_owner (owner_of_awaits hi))]
      rw [hia, owner_of_awaits (before i hi)] at hself
      rw [hself.of_owner, hp]
    | @release _ hp₁ => simp [hp] at hp₁
    | arrive _ hsp => rw [hsp]; exact hp
    | leave _ hsp => rw [hsp]; exact hp
  · obtain ⟨hia, -, rfl, hf⟩ | ⟨-, hsame, haw⟩ := asleep_cases he hctl (asleep_of_sleepsOn hi)
    · -- It went to sleep in this step.
      have hpark := parksOn_of_fallsAsleep hf hi
      exact manned_of_step he hctl (hok.2 (hia ▸ hpark) (h.lost i (Or.inl (by rw [hpark]; simp)))) (by simp)
    · refine manned_of_step he hctl (h.manned i (hsame ▸ hi)) fun hw => ?_
      obtain ⟨n, hn⟩ := Option.ne_none_iff_exists'.mp (hsame ▸ hi)
      obtain ⟨k, hk⟩ := sleepsOn_eq hn
      have := haw _ hw
      simp [hk, awaken] at this

end

/-- Agent `i` will not go to sleep on its slot, and the slot of a sleeping one was moved. -/
def Quiet (i : Fin cfg.agentCount) (s : State cfg) : Prop :=
  s.mem.stopping = true ∧
    (s.mem.slots i = .parked → s.ctl (.agent i) = .run .recheck ∨ s.ctl (.agent i) = .run .unpublish)

namespace Ctl

/-- In `shutdown`, past the release of the pending stop. -/
def released : Ctl cfg → Bool
  | .release (.shutdown _) .load | .release (.shutdown _) (.cas _ _) => false
  | .release (.shutdown _) _ | .shutdown _ (.notify _) | .shutdown _ (.unpark _) => true
  | _ => false

/-- How many slots `shutdown` has moved. -/
def swept : Ctl cfg → ℕ
  | .shutdown _ (.notify i) => i
  | .shutdown _ (.unpark i) => i + 1
  | _ => 0

end Ctl

section
variable {t : Tid cfg} {m m' : Mem cfg} {c c' : Ctl cfg} {ch : Choice cfg} {w : Option (Addr cfg)}

/-- With `stopping` set an agent that has published `PARKED` takes it back. -/
theorem ExecCase.of_recheck (h : ExecCase t m (.run .recheck) ch (m', c', w)) (hm : m.stopping = true) :
    c' = .run .unpublish := by
  cases h with
  | run ht h =>
    cases ch <;> simp only [execRun, reduceCtorEq, hm, ↓reduceIte] at h
    cases h
    rfl
  | spurious h => cases h

theorem ExecCase.of_unpublish {i : Fin cfg.agentCount} (h : ExecCase (.agent i) m (.run .unpublish) ch (m', c', w)) :
    m'.slots i = .running := by
  cases h with
  | run ht h =>
    cases ht
    cases ch <;> cases h
    exact Function.update_self _ _ _
  | spurious h => cases h

end

section
variable {s s' : State cfg} {a : Act cfg}

theorem Quiet.step {i : Fin cfg.agentCount} (h : Quiet i s) (hstep : (cluster cfg).step s a = some s') : Quiet i s' := by
  obtain ⟨m, c, w, he, rfl, hctl⟩ := step_inv hstep
  refine ⟨he.shutting.1 h.1, fun hp => ?_⟩
  by_cases hia : a.1 = .agent i
  · by_cases hp₀ : s.mem.slots i = .parked
    · rcases h.2 hp₀ with hc | hc <;> rw [← hia] at hc <;> rw [hc] at he
      · refine Or.inr ?_
        rw [← hia, Program.ctl_self (p := cluster cfg) hctl fun _ => by rw [he.of_recheck h.1]; rfl]
        exact he.of_recheck h.1
      · rw [hia] at he
        rw [he.of_unpublish] at hp
        cases hp
    · cases he.slots with
      | same hsl => exact absurd (hsl ▸ hp) hp₀
      | own hi hsl _ hx =>
        cases hia.symm.trans hi
        rw [hsl, Function.update_self] at hp
        refine Or.inl ?_
        rw [← hia, Program.ctl_self (p := cluster cfg) hctl fun _ => by rw [hx hp]; rfl]
        exact hx hp
      | notify _ _ hsl =>
        rw [hsl, Function.update_apply] at hp
        split at hp
        · cases hp
        · exact absurd hp hp₀
      | shutdown hc =>
        rw [hc] at he
        generalize a.2 = ch at he
        generalize hm' : s'.mem = m' at he hp
        cases he with
        | shutdown he =>
          simp only [execShutdown] at he
          split at he <;> cases he
          · simp only [Mem.setSlot, Function.update_apply] at hp
            split at hp
            · cases hp
            · exact absurd hp hp₀
          · exact absurd hp hp₀
        | spurious he => cases he
  · have hp₀ : s.mem.slots i = .parked := by
      by_contra hp₀
      exact he.unparked hia hp₀ hp
    have same : ∀ pc, (∀ r, awaken (.agent i) r (.run pc : Ctl cfg) = .run pc) → s.ctl (.agent i) = .run pc →
        s'.ctl (.agent i) = .run pc := by
      intro pc hpc hc
      rcases Program.ctl_other hctl (Ne.symm hia) with hc' | ⟨r, -, hc'⟩
      · exact hc'.trans hc
      · rw [hc', hc]
        exact hpc r
    exact (h.2 hp₀).imp (same _ fun _ => rfl) (same _ fun _ => rfl)

end

/-- How far `shutdown` has got, in the threads that are in it. -/
structure Closing (s : State cfg) : Prop where
  waits : ∀ i, s.roles i = .owner → pending s.mem.safepoint.state = true ∨ Freed s
  released : ∀ t, (s.ctl t).released = true → Freed s
  swept : ∀ t (i : Fin cfg.agentCount), i.val < (s.ctl t).swept → Quiet i s

section
variable {t : Tid cfg} {m m' : Mem cfg} {c c' : Ctl cfg} {ch : Choice cfg} {w : Option (Addr cfg)}

/-- A thread is in `shutdown` where its last step in there left it, or its release of the stop did. -/
theorem ExecCase.inShutdown {k : Site} {pc : ShutdownPc} (h : ExecCase t m c ch (m', .shutdown k pc, w)) :
    pc = .store ∨ (∃ pc₀, c = .shutdown k pc₀ ∧ execShutdown m k pc₀ = some (m', .shutdown k pc, w)) ∨
      pc = .notify 0 ∧ ∃ pc₀ x, c = .release (.shutdown k) pc₀ ∧
        m.safepoint.release m.stopping pc₀ = some (m'.safepoint, .ret (), x) := by
  generalize hc' : Ctl.shutdown k pc = c' at h
  have called : c'.aside = true → False := by
    rw [← hc']
    rintro ⟨⟩
  by_cases ha : c.aside = true
  · obtain ⟨-, -, ha' | ⟨k, rfl⟩ | ⟨o, k, -, rfl⟩⟩ := h.aside ha
    · exact absurd ha' called
    · cases hc'
    · cases o <;> cases hc'
      exact Or.inl rfl
  · cases h with
    | @release k' pc' r h =>
      unfold execRelease at h
      split at h <;> cases h
      · cases hc'
      · rcases k' with (_ | _) | (_ | _) | _ <;> cases hc'
        exact Or.inr (Or.inr ⟨rfl, _, _, rfl, ‹_›⟩)
    | enter h =>
      unfold execEnter at h
      split at h <;> cases h <;> first | cases hc' | exact absurd (aside_enterResume _) called
    | @stopTheWorld k' pc' r h =>
      cases pc' <;> simp only [execStop] at h <;> (repeat' split at h) <;> cases h <;>
        first | exact absurd (aside_siteResume _) called | cases hc'
    | @requestSafepoint k' pc' r h =>
      cases pc' <;> simp only [execRequestSafepoint] at h <;> split at h <;> cases h <;>
        first | exact absurd (aside_siteResume _) called | cases hc'
    | @shutdown k' pc' r h =>
      have hk : k' = k := by
        unfold execShutdown at h
        (repeat' split at h) <;> cases h <;>
          first | exact absurd (aside_siteResume _) called | (cases hc'; rfl) | cases hc'
      subst hk
      exact Or.inr (Or.inl ⟨_, rfl, hc' ▸ h⟩)
    | spurious h =>
      unfold spuriousWake at h
      split at h <;> cases h <;> cases hc'
    | _ => exact absurd rfl ha

theorem frees_eq {x : BitVec 32} (h : c.frees = some x) : ∃ k hp, c = .release (.shutdown k) (.cas x hp) := by
  unfold Ctl.frees at h
  split at h <;> cases h
  exact ⟨_, _, rfl⟩

/-- `shutdown` moves the word. -/
theorem ExecCase.of_frees (h : ExecCase t m c ch (m', c', w)) (hc : c.frees = some m.safepoint.state) :
    pending m'.safepoint.state = false ∧ w = none ∧ c.shutting = true := by
  obtain ⟨k, hp, rfl⟩ := frees_eq hc
  cases h with
  | release h =>
    simp only [execRelease, Safepoint.release, if_true, Option.some.injEq, Prod.mk.injEq] at h
    obtain ⟨rfl, -, rfl⟩ := h
    exact ⟨by rw [pending_add_one, hp]; rfl, rfl, rfl⟩
  | spurious h => cases h

theorem awaken_released (t : Tid cfg) (a : Addr cfg) (c : Ctl cfg) : (awaken t a c).released = c.released := by
  unfold awaken
  split <;> (try split) <;> first | rfl | (cases ‹ReleaseK› <;> rfl)

theorem awaken_swept (t : Tid cfg) (a : Addr cfg) (c : Ctl cfg) : (awaken t a c).swept = c.swept := by
  unfold awaken
  split <;> (try split) <;> rfl

theorem stopOp_of_released (h : c.released = true) : c.stopOp = some .shutdown := by
  unfold Ctl.released at h
  split at h <;> first | rfl | cases h

/-- `shutdown` moves one slot after the other. -/
theorem ExecCase.swept {i : Fin cfg.agentCount} (h : ExecCase t m c ch (m', c', w)) (hi : i.val < c'.swept) :
    i.val < c.swept ∨ c.shutting = true ∧ m'.slots i = .notified := by
  cases c' with
  | shutdown k pc =>
    obtain rfl | ⟨pc₀, rfl, hs⟩ | ⟨rfl, -⟩ := h.inShutdown
    · cases hi
    · cases pc₀ with
      | store => cases hs
      | notify n =>
        simp only [execShutdown] at hs
        split at hs
        · cases hs
          obtain hlt | heq := Nat.lt_succ_iff_lt_or_eq.mp hi
          · exact Or.inl hlt
          · refine Or.inr ⟨rfl, ?_⟩
            subst heq
            exact Function.update_self _ _ _
        · cases k <;> cases hs
      | unpark n =>
        simp only [execShutdown] at hs
        split at hs <;> cases hs
        exact Or.inl hi
    · cases hi
  | _ => cases hi

/-- A thread gets past the release in `shutdown` by moving the word, or by finding that no stop is pending. -/
theorem ExecCase.released (h : ExecCase t m c ch (m', c', w)) (hch : ch ≠ .spurious) (hc : c'.released = true) :
    c.released = true ∨ c.frees = some m.safepoint.state ∨
      pending m'.safepoint.state = false ∧ m'.safepoint = m.safepoint ∧ c.shutting = true ∧ c.role = .none := by
  cases c' with
  | release k pc =>
    rcases k with k | k | k
    · cases hc
    · cases hc
    · obtain rfl | ⟨rfl, -⟩ | ⟨pc₀, sp, x, rfl, hr⟩ := h.inRelease
      · cases hc
      · exact absurd rfl hch
      · cases pc₀ with
        | load =>
          simp only [Safepoint.release, releaseSeen] at hr
          split at hr <;> cases hr
          cases hc
        | cas st hp =>
          simp only [Safepoint.release, releaseSeen] at hr
          split at hr
          · rename_i hst
            exact Or.inr (Or.inl (congrArg some hst.symm))
          · split at hr <;> cases hr
            cases hc
        | _ => exact Or.inl rfl
  | shutdown k pc =>
    obtain rfl | ⟨pc₀, rfl, hs⟩ | ⟨rfl, pc₀, x, rfl, hr⟩ := h.inShutdown
    · cases hc
    · cases pc₀ with
      | store => cases hs
      | _ => exact Or.inl rfl
    · generalize hsp : m'.safepoint = sp at hr
      cases pc₀ with
      | load =>
        simp only [Safepoint.release, releaseSeen] at hr
        split at hr <;> cases hr
        exact Or.inr (Or.inr ⟨Bool.eq_false_iff.mpr ‹¬pending _ = true›, rfl, rfl, rfl⟩)
      | cas st hp =>
        simp only [Safepoint.release, releaseSeen] at hr
        split at hr <;> (try split at hr) <;> cases hr
        exact Or.inr (Or.inr ⟨Bool.eq_false_iff.mpr ‹¬pending _ = true›, rfl, rfl, rfl⟩)
      | _ => exact Or.inl rfl
  | _ => cases hc

end

section
variable {s s' : State cfg} {a : Act cfg}

theorem Closing.step (h : Closing s) (hr : Rounds s) (hr' : Rounds s') (hext : ∀ x, (s.ctl (.ext x)).external = true)
    (hext' : ∀ x, (s'.ctl (.ext x)).external = true) (hatt : ∀ t, (s.ctl t).shutting = true → s.mem.stopping = true)
    (ha : a.2 ≠ .spurious) (hok : LeavesSomeone s a) (hstep : (cluster cfg).step s a = some s') : Closing s' := by
  obtain ⟨hself, hother⟩ := barrier_inv hstep
  have freed : Freed s → Freed s' := fun h => h.step hr' hext' ha hok hstep
  have quiet : ∀ {i}, Quiet i s → Quiet i s' := fun h => h.step hstep
  obtain ⟨m, c, w, he, rfl, hctl⟩ := step_inv hstep
  have frees : (s.ctl a.1).frees = some s.mem.safepoint.state → Freed s' := by
    intro hf
    obtain ⟨hp, rfl, hs⟩ := he.of_frees hf
    refine ⟨he.shutting.1 (hatt _ hs), fun _ _ => hp, fun i hi => ?_⟩
    obtain ⟨hia, -, -, hfall⟩ | ⟨-, hsame, -⟩ := asleep_cases he hctl (asleep_of_sleepsOn hi)
    · obtain ⟨k, hp, hc⟩ := frees_eq hf
      have := parksOn_of_fallsAsleep hfall hi
      rw [hia, hc] at this
      cases this
    · exact manned_of_step he hctl (hok.1 hf ⟨i, hsame ▸ hi⟩) (by simp)
  refine ⟨fun i hi => ?_, fun t ht => ?_, fun t i hi => ?_⟩
  · by_cases hia : .agent i = a.1
    · rw [State.roles, hia] at hi
      rw [hi] at hself
      rcases hself.to_owner with ⟨hr, hsp⟩ | hp
      · rw [hsp]
        exact (h.waits i (by rw [State.roles, hia, hr])).imp id freed
      · exact Or.inl hp
    · rw [State.roles, hother _ hia] at hi
      rcases h.waits i hi with hp | hf
      · cases he.word with
        | same hsp => exact Or.inl (by rwa [hsp])
        | request hp' => simp [hp] at hp'
        | arrive _ hsp => exact Or.inl (by rw [hsp]; exact hp)
        | leave _ hsp => exact Or.inl (by rw [hsp]; exact hp)
        | @release k hp' hc =>
          rcases k with k | k | k
          · -- The stop is that of agent `i`, which is not the one that releases.
            cases ht : a.1 with
            | ext x =>
              have := hext x
              rw [← ht, hc] at this
              cases this
            | agent j =>
              have hij := hr.single i j (stopOp_of_owner hi) (by rw [← ht, hc]; rfl)
              exact absurd (by rw [ht, hij]) hia
          · exact absurd (by rw [hc]; rfl) (hr.resumes a.1)
          · exact Or.inr (frees (by rw [hc]; rfl))
      · exact Or.inr (freed hf)
  · obtain rfl | hta := eq_or_ne t a.1
    · rw [Program.view_self (v := fun _ c => c.released) awaken_released hctl] at ht
      obtain hc | hc | ⟨hp, hsp, hs, hrole⟩ := he.released ha ht
      · exact freed (h.released _ hc)
      · exact frees hc
      · by_cases how : ∃ i, s.roles i = .owner
        · obtain ⟨i, hi⟩ := how
          refine freed ((h.waits i hi).resolve_left ?_)
          rw [← hsp, hp]
          simp
        · refine ⟨he.shutting.1 (hatt _ hs), fun _ _ => hp, fun i hi => absurd ⟨i, ?_⟩ how⟩
          have hown := owner_of_awaits (Or.inr hi)
          by_cases hia : .agent i = a.1
          · rw [hia, Program.view_self (v := fun _ c => c.role) awaken_role hctl] at hown
            have := (stopOp_of_released ht).symm.trans (stopOp_of_owner hown)
            cases this
          · rwa [hother _ hia] at hown
    · rw [Program.view_other (v := fun _ c => c.released) awaken_released hctl hta] at ht
      exact freed (h.released t ht)
  · obtain rfl | hta := eq_or_ne t a.1
    · rw [Program.view_self (v := fun _ c => c.swept) awaken_swept hctl] at hi
      rcases he.swept hi with hi | ⟨hs, hslot⟩
      · exact quiet (h.swept _ i hi)
      · exact ⟨he.shutting.1 (hatt _ hs), fun hp => by rw [hslot] at hp; cases hp⟩
    · rw [Program.view_other (v := fun _ c => c.swept) awaken_swept hctl hta] at hi
      exact quiet (h.swept t i hi)

end

end Krio.Parallel
