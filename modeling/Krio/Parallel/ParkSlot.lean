import Krio.Parallel.Passes
import Krio.Parallel.Work

/-! The parking slot of a main agent. `Cluster::park_slot_addr` tells the host of an agent that may not block
to wait on its slot while that holds `PARKED`; but only `run` publishes `PARKED`, and an agent that is driven
by `drive_once` never calls it. So the slot of an idle main agent never asks to be notified. -/

namespace Krio.Parallel
open Lib

section
variable {cfg : Config} {t : Tid cfg} {m m' : Mem cfg} {c c' : Ctl cfg} {ch : Choice cfg} {w : Option (Addr cfg)}
  {s s' s₀ s₁ : State cfg} {a : Act cfg} {i : Fin cfg.agentCount}

/-- In `run`, between publishing `PARKED` and taking it back. -/
def Ctl.published : Ctl cfg → Bool
  | .run .recheck | .run .unpublish | .run .park | .run .asleep | .run .woken | .hasWork .run _ => true
  | _ => false

/-- A slot that holds `PARKED` after a step held it before, or its agent has just published it. -/
theorem ExecCase.slot_parked (h : ExecCase t m c ch (m', c', w)) (hi : m'.slots i = .parked) :
    m.slots i = .parked ∨ t = .agent i ∧ c' = .run .recheck := by
  have update : ∀ {j x}, m'.slots = Function.update m.slots j x → x ≠ .parked ∨ t = .agent j ∧ c' = .run .recheck →
      m.slots i = .parked ∨ t = .agent i ∧ c' = .run .recheck := by
    intro j x hm hx
    rw [hm] at hi
    obtain rfl | hij := eq_or_ne i j
    · rw [Function.update_self] at hi
      exact Or.inr (hx.resolve_left fun hne => hne hi)
    · rw [Function.update_of_ne hij] at hi
      exact Or.inl hi
  cases h.slots with
  | same hm => exact Or.inl (hm ▸ hi)
  | @own j x ht hm _ hx =>
    refine update hm ?_
    by_cases hp : x = .parked
    · exact Or.inr ⟨ht, hx hp⟩
    · exact Or.inl hp
  | notify _ _ hm => exact update hm (Or.inl (by simp))
  | @shutdown k n hc =>
    subst hc
    cases h with
    | shutdown h =>
      simp only [execShutdown] at h
      split at h <;> cases h
      · exact update rfl (Or.inl (by simp))
      · exact Or.inl hi
    | spurious h => cases h

theorem setSlot_ne_parked {x : ParkState} (hx : x ≠ .parked) : (m.setSlot i x).slots i ≠ .parked := by
  show Function.update m.slots i x i ≠ .parked
  rwa [Function.update_self]

/-- The agent that has published `PARKED` stays in that part of `run` until it has taken it back. -/
theorem ExecCase.published (h : ExecCase (.agent i) m c ch (m', c', w)) (hc : c.published = true)
    (hi : m'.slots i = .parked) : c'.published = true := by
  cases h with
  | @run j pc o r ht h =>
    cases ht
    unfold execRun at h
    (repeat' split at h) <;> cases h <;> first | rfl | exact absurd hi (setSlot_ne_parked (by simp)) | cases hc
  | @hasWork k pc r h =>
    rcases k with _ | k
    · unfold execHasWork at h
      (repeat' split at h) <;> cases h <;> rfl
    · cases hc
  | spurious h =>
    unfold spuriousWake at h
    split at h <;> cases h <;> cases hc
  | callHost | callTask | suspend | drive | pop | steal | push | park | inject | notify | enter | release | spawn
  | spawnOn | wake | stopTheWorld | requestSafepoint | worldIsStopped | shutdown | poll => cases hc

theorem awaken_published (t : Tid cfg) (r : Addr cfg) (c : Ctl cfg) : (awaken t r c).published = c.published := by
  unfold awaken
  split <;> (try split) <;> rfl

/-- In every run a slot holds `PARKED` only while its agent is in that part of `run`. -/
theorem published_of_parked {ok : State cfg → Act cfg → Prop} (h : Reachable ok s) (i : Fin cfg.agentCount)
    (hi : s.mem.slots i = .parked) : (s.ctl (.agent i)).published = true := by
  refine h.keeps (P := fun s => s.mem.slots i = .parked → (s.ctl (.agent i)).published = true) ?_ (by rintro ⟨⟩) hi
  rintro s ⟨t, ch⟩ s' hs _ hstep hi
  obtain ⟨m, c, w, he, rfl, hctl⟩ := step_inv hstep
  refine Program.forall_ctl (P := fun t c => t = .agent i → c.published = true) ?_ hctl ?_ ?_ (.agent i) rfl
  · exact fun t r c hc ht => (awaken_published t r c).trans (hc ht)
  · rintro rfl
    rcases he.slot_parked hi with hold | ⟨-, rfl⟩
    · exact he.published (hs hold) hi
    · rfl
  · rintro _ ht rfl
    exact hs ((he.slot_parked hi).resolve_right fun h => ht h.1.symm)

/-- An operation that submits work. -/
def Call.submits : Call cfg → Bool
  | .spawn | .spawnOn _ | .wake _ => true
  | _ => false

/-- A step in which a pass that agent `i` made as the main agent returns `Idle` to its host. -/
structure ReturnsIdle (i : Fin cfg.agentCount) (s : State cfg) (a : Act cfg) (s' : State cfg) : Prop where
  step : (cluster cfg).step s a = some s'
  acts : a.1 = .agent i
  pass : ∃ p pc, s.ctl (.agent i) = .drive p pc ∧ p.role = .main ∧ p.inRun = false ∧ p.ran = 0
  returns : s'.ctl (.agent i) = .host
  running : s.mem.stopping = false

/-- Nobody submits anything, and agent `i` is not driven. -/
def NothingSince (i : Fin cfg.agentCount) (_ : State cfg) (a : Act cfg) : Prop :=
  ∀ o, a.2 = .call o → o.submits = false ∧ (a.1 = .agent i → o ≠ .run ∧ ∀ r, o ≠ .driveOnce r)

instance (i : Fin cfg.agentCount) (s : State cfg) (a : Act cfg) : Decidable (NothingSince i s a) :=
  match h : a.2 with
  | .call o =>
    decidable_of_iff (o.submits = false ∧ (a.1 = .agent i → o ≠ .run ∧ o ≠ .driveOnce .main ∧ o ≠ .driveOnce .worker)) (by
      have hrole : (∀ r, o ≠ .driveOnce r) ↔ o ≠ .driveOnce .main ∧ o ≠ .driveOnce .worker :=
        ⟨fun h => ⟨h _, h _⟩, fun h r => by cases r <;> simp [h]⟩
      simp [NothingSince, h, hrole])
  | .go | .ret _ | .clock _ | .spurious => isTrue (by simp [NothingSince, h])

theorem inRun_of_published (h : c.published = true) : c.inRun = true := by
  unfold Ctl.published at h
  split at h <;> first | rfl | cases h

theorem host_of_since (h : Run (NothingSince i) s₁ s) (hs₁ : s₁.ctl (.agent i) = .host) :
    (s.ctl (.agent i)).inRun = false := by
  refine h.keeps (P := fun s => (s.ctl (.agent i)).inRun = false) ?_ (by rw [hs₁]; rfl)
  exact fun s a s' hs ha hstep => inRun_of_step hs (fun ht _ hch => ((ha .run hch).2 ht).1 rfl) hstep

/-- When the last pass of a main agent returned `Idle` and nothing was submitted since, its slot does not hold
    `PARKED`, and a `notify_one` that looks at the slot leaves it as it is and goes on to the next agent's. -/
theorem idle_main_unreachable {ok : State cfg → Act cfg → Prop} (h : Reachable ok s₀) (hidle : ReturnsIdle i s₀ a s₁)
    (hrun : Run (NothingSince i) s₁ s) :
    s.mem.slots i ≠ .parked ∧ ∀ t k s', s.ctl t = .notify k (.scan i) → (cluster cfg).step s (t, .go) = some s' →
      s'.mem.slots = s.mem.slots ∧ s'.ctl t = .notify k (.scan (i + 1)) := by
  have hreach : Reachable (fun _ _ => True) s :=
    ((h.mono fun _ _ _ => trivial).tail trivial hidle.step).trans (hrun.mono fun _ _ _ => trivial)
  have hslot : s.mem.slots i ≠ .parked := by
    intro hp
    have hpub := inRun_of_published (published_of_parked hreach i hp)
    rw [host_of_since hrun hidle.returns] at hpub
    cases hpub
  refine ⟨hslot, fun t k s' ht hstep => ?_⟩
  obtain ⟨m, c, w, he, rfl, hctl⟩ := step_inv hstep
  dsimp only at he hctl
  rw [ht] at he
  generalize s'.mem = m at he
  cases he with
  | notify hn =>
    rw [execNotify, dif_pos i.isLt, if_neg hslot] at hn
    cases hn
    exact ⟨rfl, Program.ctl_self (a := (t, .go)) hctl fun r => rfl⟩

/-- Two agents, none in `run`: a pass of the main agent over an empty cluster returns `Idle`. -/
private theorem empty_pass :
    ∃ s₀ s₁ s : State Config.two, Reachable (fun _ _ => True) s₀ ∧ ReturnsIdle 0 s₀ (.agent 0, .go) s₁ ∧
      s₁.mem.slots 0 = .running ∧ Run (fun _ _ => True) s₁ s ∧ .spawned ⟨1, 0⟩ ∈ s.mem.log ∧ s.ctl (.ext 0) = .host ∧
      s.mem.slots 0 = .running := by
  obtain ⟨s₀, h₀, hq⟩ := reachable_of_actions (fun (_ : State Config.two) _ => True)
    ([Tid.calls (.agent 0) (.driveOnce .main)] ++ Tid.go (.agent 0) 11)
    (fun s₀ : State Config.two => decide (s₀.ctl (.agent 0) = .drive ⟨.main, false, 0⟩ (.victim 0 2) ∧ s₀.mem.stopping = false) &&
      ((cluster Config.two).step s₀ (.agent 0, .go)).any fun s₁ : State Config.two =>
        decide (s₁.ctl (.agent 0) = .host ∧ s₁.mem.slots 0 = .running) &&
          (runActions (cluster Config.two).step (fun _ _ => True) s₁ ([Tid.calls (.ext 0) .spawn] ++ Tid.go (.ext 0) 5)).any
            fun s : State Config.two => decide (.spawned ⟨1, 0⟩ ∈ s.mem.log ∧ s.ctl (.ext 0) = .host ∧ s.mem.slots 0 = .running))
    (by decide +kernel)
  obtain ⟨hpass, hq⟩ := Bool.and_eq_true_iff.mp hq
  obtain ⟨hpass, hstop⟩ := of_decide_eq_true hpass
  obtain ⟨s₁, hs₁, hq⟩ := (Option.any_eq_true ..).mp hq
  obtain ⟨hhost, hq⟩ := Bool.and_eq_true_iff.mp hq
  obtain ⟨hhost, hslot⟩ := of_decide_eq_true hhost
  obtain ⟨s, hs, hq⟩ := exists_of_runActions hq
  exact ⟨s₀, s₁, s, h₀, ⟨hs₁, rfl, ⟨_, _, hpass, rfl, rfl, rfl⟩, hhost, hstop⟩, hslot, hs, of_decide_eq_true hq⟩

/-- The pass leaves the slot at `RUNNING`, and the next `spawn` returns without having touched it. -/
theorem idle_main_slot_running :
    ∃ s₀ s₁ s : State (.new 2 (by decide) (by decide)), Reachable (fun _ _ => True) s₀ ∧
      ReturnsIdle 0 s₀ (.agent 0, .go) s₁ ∧ s₁.mem.slots 0 = .running ∧ Run (fun _ _ => True) s₁ s ∧
      .spawned ⟨1, 0⟩ ∈ s.mem.log ∧ s.ctl (.ext 0) = .host ∧ s.mem.slots 0 = .running := empty_pass

theorem idle_main_unreachable_two :
    ∃ s₀ s₁ : State (.new 2 (by decide) (by decide)), Reachable (fun _ _ => True) s₀ ∧
      ReturnsIdle 0 s₀ (.agent 0, .go) s₁ ∧ s₁.mem.slots 0 ≠ .parked := by
  obtain ⟨s₀, s₁, -, h₀, hidle, -⟩ := empty_pass
  exact ⟨s₀, s₁, h₀, hidle, (idle_main_unreachable h₀ hidle .refl).1⟩

end

end Krio.Parallel
