import Krio.Parallel.Idle
import Krio.Parallel.Passes
import Krio.Parallel.StopTheWorld

/-! An idle agent can sleep through a stop request. `run` looks at the safepoint at the head of its loop, finds no
work, publishes `PARKED`, re-checks `stopping` and the queues, and parks; it does not look at the safepoint again. A
requester that raises the flag after the look and whose `unpark_all` pass goes over the slot before the agent parks
wakes nobody, and the agent then goes to sleep with the stop pending.

Unless a whole stop request falls between an agent's look and its sleep, every agent asleep while a stop is pending is
still to be woken by a pass. -/

namespace Krio.Parallel
open Lib Safepoint

section
variable {cfg : Config} {s s' : State cfg} {i : Fin cfg.agentCount}

/-- The agent whose slot an `unpark_all` pass over the agents is at. -/
def Ctl.passAt : Ctl cfg → Option ℕ
  | .stopTheWorld _ (.unparkAll k) | .requestSafepoint _ (.unparkAll k) => some k
  | _ => none

/-- Some requester's pass still has to go over the slot of agent `i`. -/
def StillToPass (s : State cfg) (i : Fin cfg.agentCount) : Prop := ∃ t k, (s.ctl t).passAt = some k ∧ k ≤ i

/-- A stop is pending, the passes are over agent `i`, and it is asleep on its own slot. -/
def SleepsThrough (s : State cfg) (i : Fin cfg.agentCount) : Prop :=
  pending s.mem.safepoint.state = true ∧ s.ctl (.agent i) = .run .asleep ∧ ¬StillToPass s i

/-- No `Park::park` returns although nobody signalled. -/
def Futex (_ : State cfg) (a : Act cfg) : Prop := a.2 ≠ .spurious

instance (s : State cfg) (a : Act cfg) : Decidable (Futex s a) := inferInstanceAs (Decidable (_ ≠ _))

/-- What an agent's latest look at the safepoint found, at the head of `run`'s loop, and what came since. -/
inductive SinceLook
  /-- It has not looked yet, or a stop was pending. -/
  | nothing
  /-- No stop was pending. -/
  | clear
  /-- No stop was pending, and a pass has gone over the agent's slot since. -/
  | passed
  deriving DecidableEq

abbrev Looks (cfg : Config) := Fin cfg.agentCount → SinceLook

def Looks.step (w : Looks cfg) (s : State cfg) (a : Act cfg) : Looks cfg := fun i =>
  if a = (.agent i, .go) ∧ s.ctl (.agent i) = .run .top then
    if s.mem.safepoint.requested then .nothing else .clear
  else if (s.ctl a.1).passAt = some ↑i ∧ w i = .clear then .passed
  else w i

/-- The cluster, and beside it what the agents saw. -/
def stepLooking (x : State cfg × Looks cfg) (a : Act cfg) : Option (State cfg × Looks cfg) :=
  ((cluster cfg).step x.1 a).map fun s' => (s', x.2.step x.1 a)

def startLooking (cfg : Config) : State cfg × Looks cfg := (State.init cfg, fun _ => .nothing)

/-- An agent goes to sleep ahead of the pass: when its look found no stop, and a pass has gone over its slot since, then
    no stop is pending any more, or another pass is still to come. -/
def AheadOfPass (x : State cfg × Looks cfg) (a : Act cfg) : Prop :=
  ∀ i, a = (.agent i, .go) → x.1.ctl (.agent i) = .run .park → x.1.mem.slots i = .parked → x.2 i = .passed →
    pending x.1.mem.safepoint.state = true → StillToPass x.1 i

/-- A thread that drives no agent makes a pass only inside `request_safepoint`. -/
theorem passAt_of_external {c : Ctl cfg} (h : c.external = true) (hf : c.foreign = false) : c.passAt = none := by
  unfold Ctl.passAt
  split <;> first | rfl | cases h | cases hf

/-! ### A stop slept through -/

section Two
/-- The second agent finds no work and publishes `PARKED`; the first requests a stop and unparks everyone;
    the second agent goes to sleep. -/
private def parkBehind : List (Act Config.two) :=
  [Tid.calls (.agent 1) .run] ++ Tid.go (.agent 1) 21 ++ [Tid.calls (.agent 0) .stopTheWorld] ++
  Tid.go (.agent 0) 6 ++ Tid.go (.agent 1) 1

/-- Two agents: the second sleeps through the stop of the first. -/
theorem idle_agent_sleeps_through :
    ∃ s : State (.new 2 (by decide) (by decide)),
      Reachable (fun s a => Futex s a ∧ StopsOnly s a) s ∧ SleepsThrough s 1 := by
  obtain ⟨s, hs, hq⟩ := reachable_of_actions (fun s a => Futex s a ∧ StopsOnly s a) parkBehind
    (fun s : State Config.two => decide (pending s.mem.safepoint.state = true ∧ s.ctl (.agent 1) = .run .asleep ∧
      ∀ i : Fin 2, (s.ctl (.agent i)).passAt = none)) (by decide +kernel)
  obtain ⟨hp, hasleep, hpass⟩ := of_decide_eq_true hq
  refine ⟨s, hs, hp, hasleep, ?_⟩
  rintro ⟨t, k, ht, -⟩
  have hs' : Reachable StopsOnly s := hs.mono fun _ _ h => h.2
  cases t with
  | agent i => exact absurd ht (by simp [hpass i])
  | ext x => exact absurd ht (by simp [passAt_of_external (external_of_run hs' x) ((domestic hs').1 _)])

end Two

/-! ### Runs whose agents go to sleep ahead of the pass -/

section
variable {t : Tid cfg} {m m' : Mem cfg} {c c' : Ctl cfg} {ch : Choice cfg} {w : Option (Addr cfg)}

theorem awaken_passAt (t : Tid cfg) (a : Addr cfg) (c : Ctl cfg) : (awaken t a c).passAt = c.passAt := by
  unfold awaken
  split <;> (try split) <;> rfl

/-- A pass signals the slot it is at and goes on to the next. -/
theorem ExecCase.passAt {k : ℕ} (h : ExecCase t m c ch (m', c', w)) (hc : c.passAt = some k) :
    m'.safepoint = m.safepoint ∧
      (cfg.agentCount ≤ k ∨ c'.passAt = some (k + 1) ∧ ∃ hk : k < cfg.agentCount, w = some (.slot ⟨k, hk⟩)) := by
  unfold Ctl.passAt at hc
  split at hc <;> cases hc
  · cases h with
    | stopTheWorld h =>
      simp only [execStop] at h
      split at h <;> cases h
      · exact ⟨rfl, Or.inr ⟨rfl, ‹_›, rfl⟩⟩
      · exact ⟨rfl, Or.inl (not_lt.mp ‹_›)⟩
    | spurious h => cases h
  · cases h with
    | requestSafepoint h =>
      simp only [execRequestSafepoint] at h
      split at h <;> cases h
      · exact ⟨rfl, Or.inr ⟨rfl, ‹_›, rfl⟩⟩
      · exact ⟨rfl, Or.inl (not_lt.mp ‹_›)⟩
    | spurious h => cases h

/-- A step that raises the flag starts a pass at the first agent. -/
theorem ExecCase.raises (h : ExecCase t m c ch (m', c', w)) (hp : pending m.safepoint.state = false)
    (hp' : pending m'.safepoint.state = true) : c'.passAt = some 0 := by
  have stays : m'.safepoint.state = m.safepoint.state → c'.passAt = some 0 := by
    intro hst
    rw [hst, hp] at hp'
    cases hp'
  by_cases ha : c.aside = true
  · exact stays (congrArg Safepoint.state (h.aside ha).1)
  · cases h with
    | enter h =>
      unfold execEnter at h
      split at h <;> cases h <;> exact stays (enter_state ‹_›)
    | release h =>
      unfold execRelease at h
      split at h
      · cases h
      all_goals
        cases h
        rename_i hr
        rcases release_inv hr with rfl | ⟨hp₂, -⟩
        · exact stays rfl
        · rw [hp] at hp₂
          cases hp₂
    | @stopTheWorld k pc r h =>
      cases pc with
      | request pc =>
        simp only [execStop] at h
        split at h <;> cases h <;> rename_i hr <;> rcases request_inv hr with ⟨rfl, -⟩ | ⟨-, -, hr'⟩
        all_goals first | exact stays rfl | rfl | cases hr'
      | _ =>
        refine stays ?_
        simp only [execStop] at h
        (repeat' split at h) <;> cases h <;> rfl
    | @requestSafepoint k pc r h =>
      cases pc with
      | request pc =>
        simp only [execRequestSafepoint] at h
        split at h <;> cases h <;> rename_i hr <;> rcases request_inv hr with ⟨rfl, -⟩ | ⟨-, -, hr'⟩
        all_goals first | exact stays rfl | rfl | cases hr'
      | _ =>
        refine stays ?_
        simp only [execRequestSafepoint] at h
        split at h <;> cases h <;> rfl
    | shutdown h =>
      refine stays ?_
      unfold execShutdown at h
      (repeat' split at h) <;> cases h <;> rfl
    | spurious h => exact stays rfl
    | _ => exact absurd rfl ha

end

/-- A pass that is still to go over a slot stays so until it is there, and the step that raises the flag starts one. -/
theorem stillToPass_of_step {a : Act cfg} (hstep : (cluster cfg).step s a = some s')
    (hold : pending s.mem.safepoint.state = true → StillToPass s i) (hhere : (s.ctl a.1).passAt ≠ some ↑i)
    (hp : pending s'.mem.safepoint.state = true) : StillToPass s' i := by
  obtain ⟨m, c, w, he, hm, hc⟩ := step_inv hstep
  have hv : ∀ t r c, ((cluster cfg).wake t r c).passAt = c.passAt := awaken_passAt
  have mine : (s'.ctl a.1).passAt = c.passAt := Program.view_self (v := fun _ c => c.passAt) hv hc
  cases hps : pending s.mem.safepoint.state with
  | false => exact ⟨a.1, 0, mine.trans (he.raises hps (hm ▸ hp)), Nat.zero_le _⟩
  | true =>
    obtain ⟨t, k, ht, hk⟩ := hold hps
    by_cases hta : t = a.1
    · subst hta
      obtain ⟨-, hn | ⟨hnext, -⟩⟩ := he.passAt ht
      · exact absurd (Nat.lt_of_le_of_lt hk i.isLt) (Nat.not_lt.mpr hn)
      · have hne : k ≠ ↑i := fun heq => hhere (heq ▸ ht)
        exact ⟨a.1, k + 1, mine.trans hnext, Nat.lt_of_le_of_ne hk hne⟩
    · refine ⟨t, k, ?_, hk⟩
      rw [Program.view_other (v := fun _ c => c.passAt) hv hc hta, ht]

/-- While a stop is pending, every agent that is asleep, and every one whose look found no stop and that no pass has
    gone over since, is still to be passed; and whoever is past the look has looked. -/
structure Covered (x : State cfg × Looks cfg) : Prop where
  asleep : pending x.1.mem.safepoint.state = true → ∀ i, x.1.ctl (.agent i) = .run .asleep → StillToPass x.1 i
  clear : pending x.1.mem.safepoint.state = true → ∀ i, x.2 i = .clear → StillToPass x.1 i
  looked : ∀ i, (x.1.ctl (.agent i)).pastLook = true → x.2 i ≠ .nothing

section
variable {x y : State cfg × Looks cfg} {a : Act cfg}

theorem Covered.asleep_step (h : Covered x) (ha : AheadOfPass x a) (hs : (cluster cfg).step x.1 a = some s')
    (hp : pending s'.mem.safepoint.state = true) (hi : s'.ctl (.agent i) = .run .asleep) : StillToPass s' i := by
  obtain ⟨m, c, w, he, hm, hc⟩ := step_inv hs
  by_cases hself : a.1 = .agent i
  · -- The agent itself has just gone to sleep, ahead of a pass.
    have hci : c = .run .asleep := by
      rw [← hself] at hi
      rcases Program.ctl_acting hc with hcc | ⟨r, -, hcc⟩
      · exact hcc.symm.trans hi
      · exact (asleep_of_awaken (hcc.symm.trans hi)).1
    obtain ⟨j, hj, hpark, hgo, hslot, rfl, -⟩ := he.sleeps hci
    obtain rfl : i = j := by simpa using hself.symm.trans hj
    rw [hself] at hpark
    refine stillToPass_of_step hs (fun hps => ?_) (by rw [hself, hpark]; nofun) hp
    cases hw : x.2 i with
    | nothing => exact absurd hw (h.looked i (by rw [hpark]; rfl))
    | clear => exact h.clear hps i hw
    | passed => exact ha i (Prod.ext hself hgo) hpark hslot hw hps
  · -- A pass that is at its slot would have woken it.
    obtain ⟨hold, hquiet⟩ := asleep_before hc hself hi
    refine stillToPass_of_step hs (fun hps => h.asleep hps i hold) (fun hat => ?_) hp
    obtain ⟨-, hn | ⟨-, hk, hwake⟩⟩ := he.passAt hat
    · exact absurd i.isLt (Nat.not_lt.mpr hn)
    · exact hquiet hwake

theorem Covered.clear_step (h : Covered x) (hs : (cluster cfg).step x.1 a = some s')
    (hp : pending s'.mem.safepoint.state = true) (hi : x.2.step x.1 a i = .clear) : StillToPass s' i := by
  simp only [Looks.step] at hi
  split at hi
  · -- A look that finds no stop.
    rename_i hlook
    obtain ⟨rfl, htop⟩ := hlook
    split at hi
    · cases hi
    · rename_i hnone
      obtain ⟨m, c, w, he, rfl, -⟩ := step_inv hs
      rw [htop] at he
      have hsame : s'.mem = x.1.mem := by
        generalize s'.mem = m at he
        cases he with
        | run ht h =>
          simp only [execRun] at h
          split at h <;> cases h <;> rfl
      rw [hsame] at hp
      exact absurd hp hnone
  · split at hi
    · cases hi
    · rename_i hnot
      exact stillToPass_of_step hs (fun hps => h.clear hps i hi) (fun hat => hnot ⟨hat, hi⟩) hp

theorem Covered.looked_step (h : Covered x) (hs : (cluster cfg).step x.1 a = some s')
    (hi : (s'.ctl (.agent i)).pastLook = true) : x.2.step x.1 a i ≠ .nothing := by
  obtain ⟨m, c, w, he, -, hc⟩ := step_inv hs
  have hv : ∀ t r c, ((cluster cfg).wake t r c).pastLook = c.pastLook := awaken_pastLook
  -- Whoever was past the look has looked, and one more pass changes nothing of it.
  have hpast : x.2 i ≠ .nothing → ¬(a = (.agent i, .go) ∧ x.1.ctl (.agent i) = .run .top) → x.2.step x.1 a i ≠ .nothing := by
    intro hw hnot
    simp only [Looks.step, if_neg hnot]
    split
    · nofun
    · exact hw
  by_cases hself : a.1 = .agent i
  · have hci : c.pastLook = true := by
      rw [← hself, Program.view_self (v := fun _ c => c.pastLook) hv hc] at hi
      exact hi
    obtain hold | ⟨htop, hgo, hnone, -⟩ := he.pastLook hci
    · rw [hself] at hold
      refine hpast (h.looked i hold) fun hlook => ?_
      rw [hlook.2] at hold
      cases hold
    · rw [hself] at htop
      have hlook : a = (.agent i, .go) ∧ x.1.ctl (.agent i) = .run .top := ⟨Prod.ext hself hgo, htop⟩
      simp only [Looks.step, if_pos hlook, hnone]
      nofun
  · rw [Program.view_other (v := fun _ c => c.pastLook) hv hc (Ne.symm hself)] at hi
    exact hpast (h.looked i hi) fun hlook => hself (by rw [hlook.1])

theorem Covered.step (h : Covered x) (ha : AheadOfPass x a) (hstep : stepLooking x a = some y) : Covered y := by
  obtain ⟨s', hs, rfl⟩ := Option.map_eq_some_iff.mp hstep
  exact ⟨fun hp _ hi => h.asleep_step ha hs hp hi, fun hp _ hi => h.clear_step hs hp hi, fun _ hi => h.looked_step hs hi⟩

theorem covered_of_run (h : Steps stepLooking AheadOfPass (startLooking cfg) x) : Covered x := by
  refine h.keeps (fun _ _ _ hx ha hs => hx.step ha hs) ⟨fun hp _ _ => ?_, fun hp _ _ => ?_, fun i hi => ?_⟩
  · exact absurd hp (by simp [startLooking, State.init, Mem.new, Safepoint.new, pending])
  · exact absurd hp (by simp [startLooking, State.init, Mem.new, Safepoint.new, pending])
  · cases hi

/-- The step of an agent that parks behind the pass is one into a sleep through the stop. -/
theorem sleepsThrough_of_step (hstep : (cluster cfg).step x.1 a = some s') (ha : ¬AheadOfPass x a) :
    ∃ i, SleepsThrough s' i := by
  simp only [AheadOfPass, not_forall] at ha
  obtain ⟨i, rfl, hpark, hslot, -, hp, hpass⟩ := ha
  have hs' : s' = ⟨x.1.mem, Function.update x.1.ctl (.agent i) (.run .asleep)⟩ := by
    simpa [Program.step, cluster, hpark, exec, execRun, hslot, quiet, Program.signal] using hstep.symm
  subst hs'
  refine ⟨i, hp, Function.update_self _ _ _, ?_⟩
  rintro ⟨t, k, ht, hk⟩
  refine hpass ⟨t, k, ?_, hk⟩
  change (Function.update x.1.ctl (.agent i) (.run .asleep) t).passAt = some k at ht
  obtain rfl | hne := eq_or_ne t (.agent i)
  · rw [Function.update_self] at ht
    cases ht
  · rwa [Function.update_of_ne hne] at ht

/-- What the agents saw restricts no run. -/
theorem looking_of_run {ok : State cfg → Act cfg → Prop} (h : Reachable ok s) :
    ∃ w, Steps stepLooking (fun x a => ok x.1 a) (startLooking cfg) (s, w) := by
  induction h with
  | refl => exact ⟨_, .refl⟩
  | tail _ ho hs ih =>
    obtain ⟨w, hw⟩ := ih
    exact ⟨_, hw.tail ho (Option.map_eq_some_iff.mpr ⟨_, hs, rfl⟩)⟩

end

/-- No stop is slept through in a run whose agents go to sleep ahead of the pass; and a step of an agent
    that does not is one into such a sleep. -/
theorem never_sleeps_through (x : State cfg × Looks cfg) :
    (Steps stepLooking AheadOfPass (startLooking cfg) x → ∀ i, ¬SleepsThrough x.1 i) ∧
      ∀ a y, stepLooking x a = some y → ¬AheadOfPass x a → ∃ i, SleepsThrough y.1 i := by
  refine ⟨fun h i ⟨hp, hi, hpass⟩ => hpass ((covered_of_run h).asleep hp i hi), fun a y hstep ha => ?_⟩
  obtain ⟨s', hs, rfl⟩ := Option.map_eq_some_iff.mp hstep
  exact sleepsThrough_of_step hs ha

/-- Two agents: the second goes to sleep before the stop, and the pass of the first wakes it. -/
theorem never_sleeps_through_two :
    ∃ x : State (.new 2 (by decide) (by decide)) × Looks (.new 2 (by decide) (by decide)),
      Steps stepLooking AheadOfPass (startLooking _) x ∧ pending x.1.mem.safepoint.state = true ∧
        x.1.ctl (.agent 1) = .run .woken ∧ ∀ i, ¬SleepsThrough x.1 i := by
  obtain ⟨s, hs, hq⟩ := reachable_of_actions
    (fun s a => ¬(s.ctl a.1 = .run .park ∧ pending s.mem.safepoint.state = true))
    ([Tid.calls (.agent 1) .run] ++ Tid.go (.agent 1) 22 ++ [Tid.calls (.agent 0) .stopTheWorld] ++ Tid.go (.agent 0) 5)
    (fun s : State (.new 2 (by decide) (by decide)) =>
      decide (pending s.mem.safepoint.state = true ∧ s.ctl (.agent 1) = .run .woken)) (by decide +kernel)
  obtain ⟨hp, hwoken⟩ := of_decide_eq_true hq
  obtain ⟨w, hw⟩ := looking_of_run hs
  have hrun : Steps stepLooking AheadOfPass (startLooking _) (s, w) := by
    refine hw.mono fun x a ha i hi hpark _ _ hp => absurd ⟨?_, hp⟩ ha
    rw [hi]
    exact hpark
  exact ⟨_, hrun, hp, hwoken, (never_sleeps_through _).1 hrun⟩

end

end Krio.Parallel
