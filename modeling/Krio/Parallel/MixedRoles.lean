import Krio.Parallel.Passes
import Krio.Parallel.StopTheWorld

/-! A worker stops the world in a cluster with a main agent. The main agent must not block, so it leaves its pass
when a stop is requested and never enters the barrier; `stop_the_world` expects an arrival of every other agent,
the main agent's among them. The count cannot be complete, whatever the workers do. -/

namespace Krio.Parallel
open Lib Safepoint

section
variable {cfg : Config} {t : Tid cfg} {m m' : Mem cfg} {c c' : Ctl cfg} {ch : Choice cfg} {w : Option (Addr cfg)}
  {s s' : State cfg} {a : Act cfg} {i z : Fin cfg.agentCount}

/-- The operations that only worker agents may call. -/
def Call.blocks : Call cfg → Bool
  | .run | .stopTheWorld | .poll => true
  | .driveOnce role => role = .worker
  | _ => false

/-- The host of agent `z` drives it by `drive_once` with `AgentRole::Main`, and calls nothing that blocks. -/
def DrivenAsMain (z : Fin cfg.agentCount) (s : State cfg) (a : Act cfg) : Prop :=
  a.1 = .agent z → s.ctl a.1 = .host → ∀ o, a.2 = .call o → o.blocks = false

instance (z : Fin cfg.agentCount) (s : State cfg) (a : Act cfg) : Decidable (DrivenAsMain z s a) :=
  match h : a.2 with
  | .call o => decidable_of_iff (a.1 = .agent z → s.ctl a.1 = .host → o.blocks = false) (by simp [DrivenAsMain, h])
  | .go | .ret _ | .clock _ | .spurious => isTrue (by simp [DrivenAsMain, h])

/-- In a poll of host code. -/
def Ctl.pollsHost : Ctl cfg → Bool
  | .poll .host | .enter (.site .host) _ => true
  | _ => false

theorem awaken_pollsHost (t : Tid cfg) (r : Addr cfg) (c : Ctl cfg) : (awaken t r c).pollsHost = c.pollsHost := by
  unfold awaken
  split <;> (try split) <;> first | rfl | (rename_i k _ _; rcases k with _ | _ | (_ | _) <;> rfl)

/-- Host code polls only where it calls for it. -/
theorem ExecCase.pollsHost (h : ExecCase t m c ch (m', c', w)) (hc : c.pollsHost = false)
    (hch : c = .host → ch ≠ .call .poll) : c'.pollsHost = false := by
  have site : ∀ k : Site, (k.resume : Ctl cfg).pollsHost = false := fun k => by cases k <;> rfl
  cases h with
  | @callHost o r h =>
    obtain ⟨-, -, rfl, -⟩ := execCall_inv h
    cases o <;> first | rfl | exact absurd rfl (hch rfl)
  | @callTask p j o r h =>
    obtain ⟨-, -, rfl, -⟩ := execCall_inv h
    cases o <;> rfl
  | suspend _ h =>
    unfold Parallel.suspend at h
    split at h <;> cases h <;> rfl
  | run _ h =>
    unfold execRun at h
    (repeat' split at h) <;> cases h <;> rfl
  | drive _ h =>
    unfold execDrive Pass.finish at h
    (repeat' split at h) <;> cases h <;> rfl
  | pop _ h =>
    unfold execPop at h
    split at h <;> cases h <;> rfl
  | steal _ h =>
    unfold execSteal at h
    split at h <;> cases h <;> rfl
  | @push a k j pc r _ _ h =>
    unfold execPush at h
    split at h <;> cases h <;> rcases k with ⟨_, _ | _⟩ | _ <;> rfl
  | park _ h =>
    unfold execPark at h
    split at h <;> cases h <;> rfl
  | @inject k j => rcases k with (⟨_, _ | _⟩ | _) | _ <;> rfl
  | @notify k pc r h =>
    unfold execNotify at h
    (repeat' split at h) <;> cases h <;> rcases k with _ | (_ | _) <;> rfl
  | @hasWork k pc r h =>
    unfold execHasWork at h
    rcases k with _ | k <;> (repeat' split at h) <;> cases h <;> first | rfl | exact site k
  | @enter k pc r h =>
    unfold execEnter at h
    rcases k with _ | _ | (_ | _) <;> split at h <;> cases h <;> first | rfl | exact hc
  | @release k pc r h =>
    unfold execRelease at h
    rcases k with k | k | k <;> split at h <;> cases h <;> first | rfl | exact site k
  | spawn | spawnOn => rfl
  | @wake k id pc r h =>
    simp only [execWake] at h
    split at h <;> cases h <;> first | rfl | exact site k
  | @stopTheWorld k pc r h =>
    cases pc <;> simp only [execStop] at h <;> (repeat' split at h) <;> cases h <;> first | rfl | exact site k
  | @requestSafepoint k pc r h =>
    cases pc <;> simp only [execRequestSafepoint] at h <;> split at h <;> cases h <;> first | rfl | exact site k
  | @worldIsStopped k => exact site k
  | @shutdown k pc r h =>
    unfold execShutdown at h
    (repeat' split at h) <;> cases h <;> first | rfl | exact site k
  | @poll k =>
    cases k with
    | host => cases hc
    | task p j => split <;> rfl
  | spurious h =>
    unfold spuriousWake at h
    split at h <;> cases h <;> first | rfl | (rename_i k _; rcases k with _ | _ | (_ | _) <;> first | rfl | exact hc)

/-- The main agent is never in `run`, and its host never in a poll. -/
theorem main_outside (h : Reachable (DrivenAsMain z) s) :
    (s.ctl (.agent z)).inRun = false ∧ (s.ctl (.agent z)).pollsHost = false := by
  refine h.keeps (P := fun s => (s.ctl (.agent z)).inRun = false ∧ (s.ctl (.agent z)).pollsHost = false) ?_ ⟨rfl, rfl⟩
  rintro s a s' ⟨hrun, hpoll⟩ ha hstep
  have free : ∀ {o : Call cfg}, o.blocks = true → a.1 = .agent z → s.ctl (.agent z) = .host → a.2 ≠ .call o := by
    intro o ho ht hc hch
    have hfree := ha ht (by rw [ht, hc]) o hch
    rw [ho] at hfree
    cases hfree
  refine ⟨inRun_of_step hrun (free rfl) hstep, ?_⟩
  obtain ⟨m, c, w, he, -, hctl⟩ := step_inv hstep
  refine Program.forall_ctl (P := fun t c => t = .agent z → c.pollsHost = false) ?_ hctl ?_ ?_ (.agent z) rfl
  · exact fun t r c hc ht => (awaken_pollsHost t r c).trans (hc ht)
  · intro ht
    rw [ht] at he
    exact he.pollsHost hpoll (free rfl ht)
  · rintro _ - rfl
    exact hpoll

/-- Outside its passes an agent is counted only in `run` or in a poll of its host. -/
theorem counted_outside (hc : c.role.counted = true) (hp : c.pass = none) : c.inRun = true ∨ c.pollsHost = true := by
  cases c with
  | enter k pc =>
    rcases k with _ | p | (_ | ⟨p, j⟩)
    · exact Or.inl rfl
    · cases hp
    · exact Or.inr rfl
    · cases hp
  | release k pc => rcases k with _ | _ | _ <;> cases pc <;> cases hc
  | stopTheWorld k pc => cases pc <;> cases hc
  | _ => cases hc

/-- In every run the count is the number of agents that are counted. -/
theorem stopped_eq_count {ok : State cfg → Act cfg → Prop} (h : Reachable ok s) :
    s.mem.safepoint.stopped.toNat = Lib.count fun i => (s.roles i).counted := by
  refine h.keeps_with (P := fun s => s.mem.safepoint.stopped.toNat = Lib.count fun i => (s.roles i).counted)
    (Q := Reachable ok) (fun _ h => h) ?_ ?_
  · rintro s ⟨t, ch⟩ s' hr hcount ha hstep
    obtain ⟨hself, hother⟩ := barrier_inv hstep
    cases t with
    | agent i =>
      exact Barrier.count_step rfl (fun j hj => hother _ (by simpa using hj)) hcount
        (by simpa using cfg.agents_u32) hself
    | ext x =>
      -- A thread that drives no agent does not arrive and does not leave.
      have hroles : s'.roles = s.roles := funext fun j => hother _ (by simp)
      rw [hself.stopped_eq (role_external (external_of_run hr x)), hroles]
      exact hcount
  · simp [State.init, Mem.new, Safepoint.new, Lib.count, State.roles, Ctl.role, Role.counted]

/-- While the main agent is outside `drive_once`, a worker that waits in `await_all` for the others of its stop does
    not get past it, wherever the other workers are. -/
theorem main_holds_up_stop (h : Reachable (DrivenAsMain z) s) (hi : i ≠ z) {k : Site} {pc : AwaitPc}
    (hwait : s.ctl (.agent i) = .stopTheWorld k (.awaitAll pc)) (hout : (s.ctl (.agent z)).pass = none) :
    ¬ s.mem.others ≤ s.mem.safepoint.stopped := by
  have hz : (s.roles z).counted = false := by
    obtain ⟨hrun, hpoll⟩ := main_outside h
    refine Bool.eq_false_iff.mpr fun hc => ?_
    rcases counted_outside hc hout with hr | hp
    · rw [hrun] at hr
      cases hr
    · rw [hpoll] at hp
      cases hp
  have hself : (s.roles i).counted = false := by
    rw [State.roles, hwait]
    rfl
  intro hle
  -- The count leaves out two agents, and the stop expects all but one.
  have hcard : Fintype.card (Fin cfg.agentCount) ≤ (Lib.count fun j => (s.roles j).counted) + 1 := by
    rw [← stopped_eq_count h, ← others_toNat s.mem]
    exact Nat.succ_le_succ hle
  have hall := all_of_count (f := fun j => (s.roles j).counted) hself hcard hi.symm
  rw [hz] at hall
  cases hall

/-- Three agents. The main agent leaves its pass when worker 1 stops the world, and worker 2 arrives at the barrier. -/
private def leftPass : List (Act Config.three) :=
  [Tid.calls (.agent 0) (.spawnOn 0)] ++ Tid.go (.agent 0) 9 ++ [Tid.calls (.agent 0) (.driveOnce .main)] ++
  Tid.go (.agent 0) 8 ++ [(.agent 0, .ret .yielded), Tid.calls (.agent 1) .stopTheWorld] ++ Tid.go (.agent 1) 6 ++
  Tid.go (.agent 0) 8 ++ [Tid.calls (.agent 2) .run] ++ Tid.go (.agent 2) 3

private theorem left_pass :
    ∃ s : State Config.three, Reachable (DrivenAsMain 0) s ∧ s.ctl (.agent 1) = .stopTheWorld .host (.awaitAll .load) ∧
      (∀ j, j ≠ 0 → j ≠ 1 → s.waits j) ∧ s.ctl (.agent 0) = .host ∧ s.mem.safepoint.stopped = 1 := by
  obtain ⟨s, hs, hq⟩ := reachable_of_actions (DrivenAsMain (0 : Fin Config.three.agentCount)) leftPass
    (fun s : State Config.three => s.ctl (.agent 1) = .stopTheWorld .host (.awaitAll .load) ∧
      s.ctl (.agent 2) = .enter .run (.announce 1) ∧ s.mem.safepoint.state = 1 ∧ s.ctl (.agent 0) = .host ∧
      s.mem.safepoint.stopped = 1) (by decide +kernel)
  obtain ⟨h₁, h₂, hstate, h₀, hstopped⟩ := of_decide_eq_true hq
  refine ⟨s, hs, h₁, fun j hj₀ hj₁ => ?_, h₀, hstopped⟩
  obtain rfl : j = 2 := by
    have : ∀ j : Fin 3, j ≠ 0 → j ≠ 1 → j = 2 := by decide
    exact this j hj₀ hj₁
  exact ⟨_, _, h₂, by rw [hstate]; rfl⟩

/-- There the stop expects two arrivals, and all the agents that can arrive have: the count is one. -/
theorem main_expected_to_arrive :
    ∃ s : State (.new 3 (by decide) (by decide)), Reachable (DrivenAsMain 0) s ∧
      s.ctl (.agent 1) = .stopTheWorld .host (.awaitAll .load) ∧ (∀ j, j ≠ 0 → j ≠ 1 → s.waits j) ∧
      s.ctl (.agent 0) = .host ∧ s.mem.others = 2 ∧ s.mem.safepoint.stopped = 1 := by
  obtain ⟨s, hs, h₁, hwaits, h₀, hstopped⟩ := left_pass
  exact ⟨s, hs, h₁, hwaits, h₀, rfl, hstopped⟩

theorem main_holds_up_stop_three :
    ∃ s : State (.new 3 (by decide) (by decide)), Reachable (DrivenAsMain 0) s ∧
      s.ctl (.agent 1) = .stopTheWorld .host (.awaitAll .load) ∧ (s.ctl (.agent 0)).pass = none ∧
      ¬ s.mem.others ≤ s.mem.safepoint.stopped := by
  obtain ⟨s, hs, h₁, -, h₀, -⟩ := left_pass
  have hout : (s.ctl (.agent 0)).pass = none := by rw [h₀]; rfl
  exact ⟨s, hs, h₁, hout, main_holds_up_stop hs (by decide) h₁ hout⟩

end

end Krio.Parallel
