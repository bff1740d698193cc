import Krio.Parallel.Work

/-! Whether a yield gives someone else a turn. A task whose step returned `Yielded` goes back onto its agent's own
deque, at the end from which the agent takes its next job. So, with nobody stealing from that deque, the agent
steps the same task again, unless the deque was full and the task was spilled to the injector. -/

namespace Krio.Parallel
open Lib

section
variable {cfg : Config} {t : Tid cfg} {m m' : Mem cfg} {c c' : Ctl cfg} {ch : Choice cfg} {w : Option (Addr cfg)}
  {s s' s₁ s₂ : State cfg} {a : Act cfg} {i v : Fin cfg.agentCount} {j : Job} {rest : List Job}

/-! ### The capacity of a deque -/

theorem push_capacity {d d' : Deque cfg.w Job} {pc : Deque.PushPc cfg.w} {o : Out (Deque.PushPc cfg.w) Bool}
    (h : d.push j pc = (d', o)) : d'.capacity = d.capacity := by
  cases pc <;> simp only [Deque.push] at h <;> (try split at h) <;> cases h <;> simp [Deque.capacity, Deque.write]

theorem pop_capacity {d d' : Deque cfg.w Job} {pc : Deque.PopPc cfg.w} {o : Out (Deque.PopPc cfg.w) (Option (Option Job))}
    (h : d.pop pc = (d', o)) : d'.capacity = d.capacity := by
  cases pc <;> simp only [Deque.pop, Deque.casTop] at h <;> (repeat' split at h) <;> cases h <;> rfl

theorem steal_capacity {d d' : Deque cfg.w Job} {pc : Deque.StealPc cfg.w Job}
    {o : Out (Deque.StealPc cfg.w Job) (Option (Option Job))} (h : d.steal pc = (d', o)) : d'.capacity = d.capacity := by
  cases pc <;> simp only [Deque.steal, Deque.casTop] at h <;> (repeat' split at h) <;> cases h <;> rfl

theorem setDeque_capacity {d : Deque cfg.w Job} (hd : d.capacity = (m.deques i).capacity) (v : Fin cfg.agentCount) :
    ((m.setDeque i d).deques v).capacity = (m.deques v).capacity := by
  obtain rfl | hv := eq_or_ne v i
  · rw [deques_setDeque_self, hd]
  · rw [deques_setDeque_of_ne hv]

theorem ExecCase.capacity (h : ExecCase t m c ch (m', c', w)) (v : Fin cfg.agentCount) :
    (m'.deques v).capacity = (m.deques v).capacity := by
  cases c with
  | pop p pc =>
    cases h with
    | pop _ h =>
      unfold execPop at h
      split at h <;> rename_i hp <;> cases h <;> exact setDeque_capacity (pop_capacity hp) v
    | spurious hp => cases hp
  | push k j pc =>
    cases h with
    | push _ _ h =>
      unfold execPush at h
      split at h <;> rename_i hp <;> cases h <;> exact setDeque_capacity (push_capacity hp) v
    | spurious hp => cases hp
  | steal p start k pc =>
    cases h with
    | steal _ h =>
      unfold execSteal at h
      split at h <;> rename_i hp <;> cases h <;> exact setDeque_capacity (steal_capacity hp) v
    | spurious hp => cases hp
  | _ => rw [(h.handover rfl fun _ => rfl).1]

/-- Every deque keeps the capacity that it was made with. -/
theorem capacity_of_run {ok : State cfg → Act cfg → Prop} (h : Reachable ok s) (v : Fin cfg.agentCount) :
    (s.mem.deques v).capacity = Deque.capacityFor cfg.dequeCapacity := by
  refine h.keeps (P := fun s => (s.mem.deques v).capacity = Deque.capacityFor cfg.dequeCapacity) ?_ ?_
  · intro s a s' hs _ hstep
    obtain ⟨m, c, w, he, rfl, -⟩ := step_inv hstep
    exact (he.capacity v).trans hs
  · simp [State.init, Mem.new, Deque.withCapacity, Deque.capacity]

/-! ### From a yield to the next job -/

/-- Not in a step of a task, in `next_job`, or on the way of a job to a deque. -/
def Ctl.between : Ctl cfg → Bool
  | .task _ _ | .pop _ _ | .steal _ _ _ _ | .push _ _ _ | .park _ _ _ | .inject (.spill _) _ | .spawnOn _ _
  | .drive _ .injector | .drive _ .rotor | .drive _ (.victim _ _) | .drive _ (.found _ _) | .ub => false
  | c => c.site = .host

/-- The job that an agent has taken and is about to step. -/
def Ctl.nextJob : Ctl cfg → Option Job
  | .drive _ (.found j _) => some j
  | _ => none

/-- Nobody takes a job from agent `i`'s deque but the agent itself, its host puts none there, and the agent has not
    found its next job yet. -/
structure Undisturbed (i : Fin cfg.agentCount) (s : State cfg) (a : Act cfg) : Prop where
  sane : Sane s a
  others : ∀ x n value, a.1 ≠ .agent i → (s.ctl a.1).thief i = some (.claim x n value) → (s.mem.deques i).top ≠ x
  host : a.1 = .agent i → ∀ o, a.2 ≠ .call (.spawnOn o)
  searching : a.1 = .agent i → (s.ctl (.agent i)).nextJob = none

private def fails (d : Deque cfg.w Job) : Deque.StealPc cfg.w Job → Bool
  | .claim x _ _ => d.top ≠ x
  | _ => true

instance : ∀ (i : Fin cfg.agentCount) (s : State cfg) (a : Act cfg), Decidable (Undisturbed i s a) := fun i s a =>
  decidable_of_iff (Sane s a ∧ (a.1 ≠ .agent i → ((s.ctl a.1).thief i).all (fails (s.mem.deques i)) = true) ∧
      (a.1 = .agent i → ∀ o, a.2 ≠ .call (.spawnOn o)) ∧ (a.1 = .agent i → (s.ctl (.agent i)).nextJob = none))
    ⟨fun ⟨h₁, h₂, h₃, h₄⟩ => ⟨h₁, fun _ _ _ ha hx => of_decide_eq_true ((Option.all_eq_true _ _).mp (h₂ ha) _ hx), h₃, h₄⟩,
      fun ⟨h₁, h₂, h₃, h₄⟩ => by
        refine ⟨h₁, fun ha => (Option.all_eq_true _ _).mpr fun pc hpc => ?_, h₃, h₄⟩
        cases pc with
        | claim x n value => exact decide_eq_true (h₂ x n value ha hpc)
        | _ => rfl⟩

/-- Agent `i` is at `c`, with the deque `d`, after a step of `j` returned `Yielded` when the deque held `rest`;
    `full` says whether the deque was full, and then `j` goes elsewhere. -/
def TurnAt (j : Job) (rest : List Job) (full : Prop) [Decidable full] (d : Deque cfg.w Job) : Ctl cfg → Prop
  | .push (.deposit _ true) j' pc => j' = j ∧ d.live (.push j' pc) = rest
  | .inject (.spill (.deposit _ true)) j' => j' = j ∧ d.live .idle = rest ∧ full
  | .pop _ pc => d.live (.pop pc) ++ d.hand (.pop pc) = if full then rest else rest ++ [j]
  | .drive _ (.found j' _) => (if full then rest else rest ++ [j]).getLast? = some j'
  | c => c.between = true ∧ d.live .idle = if full then rest else rest ++ [j]

theorem between_iff : c.between = true → c.owner = .idle ∧ (∀ v, c.thief v = none) := by
  intro h
  cases c <;> first | exact ⟨rfl, fun _ => rfl⟩ | cases h

theorem awaken_between (t : Tid cfg) (r : Addr cfg) (c : Ctl cfg) : (awaken t r c).between = c.between := by
  unfold awaken
  split <;> (try split) <;> first | rfl | (rename_i k _ _; cases k <;> rfl)

@[simp] theorem between_siteResume (k : Site) : (k.resume : Ctl cfg).between = true ↔ k = .host := by
  cases k <;> simp [Site.resume, Ctl.between, Ctl.site]

theorem between_finish (p : Pass) : (p.finish : Ctl cfg).between = true := by
  unfold Pass.finish
  split
  · split <;> rfl
  · rfl

/-- From there the agent gets to its next search, unless its host puts a job onto its deque first. -/
theorem ExecCase.between (h : ExecCase t m c ch (m', c', w)) (hc : c.between = true)
    (hch : ∀ o, ch ≠ .call (.spawnOn o)) : c'.between = true ∨ ∃ p, c' = .pop p .loadBottom := by
  have host : ∀ k : Site, decide (k = .host) = true → (k.resume : Ctl cfg).between = true :=
    fun k hk => (between_siteResume k).mpr (of_decide_eq_true hk)
  cases h with
  | @callHost o r h =>
    obtain ⟨-, -, rfl, -⟩ := execCall_inv h
    cases o with
    | spawnOn x => exact absurd rfl (hch x)
    | _ => exact Or.inl rfl
  | run _ h =>
    unfold execRun at h
    (repeat' split at h) <;> cases h <;> exact Or.inl rfl
  | drive _ h =>
    unfold execDrive at h
    (repeat' split at h) <;> cases h <;>
      first | exact Or.inl (between_finish _) | exact Or.inr ⟨_, rfl⟩ | exact Or.inl rfl | cases hc
  | @inject k j =>
    rcases k with k | k
    · cases hc
    · exact Or.inl hc
  | @notify k pc r h =>
    unfold execNotify at h
    rcases k with p | k <;> (repeat' split at h) <;> cases h <;> first | exact Or.inl hc | exact Or.inl (host k hc)
  | @hasWork k pc r h =>
    unfold execHasWork at h
    rcases k with _ | k <;> (repeat' split at h) <;> cases h <;> first | exact Or.inl hc | exact Or.inl (host k hc)
  | @enter k pc r h =>
    unfold execEnter at h
    rcases k with _ | p | k <;> split at h <;> cases h <;> first | exact Or.inl hc | exact Or.inl (host k hc)
  | @release k pc r h =>
    unfold execRelease at h
    rcases k with k | k | k <;> split at h <;> cases h <;> first | exact Or.inl hc | exact Or.inl (host k hc)
  | spawn => exact Or.inl hc
  | @wake k id pc r h =>
    simp only [execWake] at h
    split at h <;> cases h <;> first | exact Or.inl hc | exact Or.inl (host k hc)
  | @stopTheWorld k pc r h =>
    cases pc <;> simp only [execStop] at h <;> (repeat' split at h) <;> cases h <;>
      first | exact Or.inl hc | exact Or.inl (host k hc)
  | @requestSafepoint k pc r h =>
    cases pc <;> simp only [execRequestSafepoint] at h <;> split at h <;> cases h <;>
      first | exact Or.inl hc | exact Or.inl (host k hc)
  | @worldIsStopped k => exact Or.inl (host k hc)
  | @shutdown k pc r h =>
    unfold execShutdown at h
    (repeat' split at h) <;> cases h <;> first | exact Or.inl hc | exact Or.inl (host k hc)
  | @poll k =>
    split
    · exact Or.inl hc
    · exact Or.inl (host k hc)
  | spurious h =>
    unfold spuriousWake at h
    split at h <;> cases h
    · rename_i k _
      cases k <;> exact Or.inl hc
    · rename_i k _
      cases k <;> exact Or.inl hc
    · exact Or.inl hc
  | callTask | suspend | pop | steal | push | park | spawnOn => cases hc

section
variable {full : Prop} [Decidable full] {d : Deque cfg.w Job}

theorem turnAt_of_between (h : c.between = true) :
    TurnAt j rest full d c ↔ d.live .idle = if full then rest else rest ++ [j] := by
  cases c with
  | inject k j => cases k <;> first | (simp [TurnAt, h]; done) | cases h
  | drive p pc => cases pc <;> first | (simp [TurnAt, h]; done) | cases h
  | push | pop | task | steal | park | spawnOn | ub => cases h
  | _ => simp [TurnAt, h]

/-- The job that the agent takes is the last in its deque. -/
theorem TurnAt.nextJob {j' : Job} (h : TurnAt j rest full d c) (hc : c.nextJob = some j') :
    (if full then rest else rest ++ [j]).getLast? = some j' := by
  cases c with
  | drive p pc =>
    cases pc with
    | found => exact h.trans hc
    | _ => cases hc
  | _ => cases hc

theorem TurnAt.awaken {r : Addr cfg} (h : TurnAt j rest full d c) : TurnAt j rest full d (awaken t r c) := by
  by_cases hb : c.between = true
  · rw [turnAt_of_between (by rw [awaken_between, hb])]
    exact (turnAt_of_between hb).mp h
  · cases c with
    | push | inject | pop | drive => exact h
    | _ => exact absurd h.1 hb

/-- A step of the agent itself. -/
theorem TurnAt.step {l : List Job} {ι : Type} {th : ι → Option (Deque.StealPc cfg.w Job)}
    (h : TurnAt j rest full (m.deques i) c) (he : ExecCase (.agent i) m c ch (m', c', w))
    (hinv : (m.deques i).Inv l c.owner th) (hfull : full ↔ (m.deques i).capacity ≤ rest.length)
    (hch : ∀ o, ch ≠ .call (.spawnOn o)) (hfound : c.nextJob = none) :
    TurnAt j rest full (m'.deques i) c' := by
  by_cases hb : c.between = true
  · obtain ⟨ho, hth⟩ := between_iff hb
    rw [turnAt_of_between hb] at h
    rw [(he.handover ho hth).1]
    rcases he.between hb hch with hb' | ⟨p, rfl⟩
    · exact (turnAt_of_between hb').mpr h
    · show (m.deques i).live (.pop .loadBottom) ++ [] = _
      rw [List.append_nil, Deque.live_of_resting rfl, h]
  · cases c with
    | push k j' pc =>
      rcases k with ⟨p, _ | _⟩ | ⟨k, x⟩
      · exact absurd h.1 hb
      · obtain ⟨rfl, hlive⟩ := h
        obtain rfl : l = rest := hinv.live_eq.symm.trans hlive
        cases he with
        | push hown _ hp =>
          obtain rfl := hown i rfl
          unfold execPush at hp
          split at hp <;> rename_i hpush <;> cases hp <;> rw [deques_setDeque_self]
          · exact ⟨rfl, (hinv.push_next hpush).live_eq⟩
          · have hroom := (hinv.push_room hpush).mp rfl
            refine (turnAt_of_between rfl).mpr ?_
            rw [(hinv.push_ret hpush).live_eq, if_pos rfl, if_neg fun hf => hroom.not_ge (hfull.mp hf)]
          · refine ⟨rfl, (hinv.push_ret hpush).live_eq, hfull.mpr ?_⟩
            simpa using (hinv.push_room hpush).not.mp (by simp)
        | spurious hs => cases hs
      · exact absurd h.1 hb
    | inject k j' =>
      rcases k with (⟨p, _ | _⟩ | ⟨k, x⟩) | k
      · exact absurd h.1 hb
      · obtain ⟨rfl, hlive, hf⟩ := h
        cases he with
        | inject =>
          refine (turnAt_of_between rfl).mpr ?_
          rw [if_pos hf]
          exact hlive
        | spurious hs => cases hs
      · exact absurd h.1 hb
      · exact absurd h.1 hb
    | pop p pc =>
      have hsome : (if full then rest else rest ++ [j]) ≠ [] := by
        split
        · rename_i hf
          rintro rfl
          obtain ⟨k, -, -, hk⟩ := hinv.sized.pow
          have := Nat.two_pow_pos k
          exact absurd (hfull.mp hf) (by rw [hk, List.length_nil]; omega)
        · simp
      change (m.deques i).Inv l (.pop pc) th at hinv
      rw [TurnAt, hinv.live_eq] at h
      cases he with
      | pop ht hp =>
        cases ht
        unfold execPop at hp
        split at hp <;> rename_i hpop <;> cases hp <;> rw [deques_setDeque_self]
        · obtain ⟨l', hinv', ⟨rfl, hh⟩ | ⟨x, rfl, hh, hh'⟩⟩ := hinv.pop_next hpop
          · rw [TurnAt, hinv'.live_eq, hh, h]
          · rw [TurnAt, hinv'.live_eq, hh', ← h, hh, List.append_nil]
        · rw [hinv.nil_of_pop_none hpop, (hinv.pop_none hpop).2] at h
          exact absurd h.symm hsome
        · obtain ⟨-, -, x, hx, hh⟩ := hinv.pop_some hpop
          cases hx
          rw [TurnAt, ← h, hh, List.getLast?_concat]
        · obtain ⟨-, -, x, hx, -⟩ := hinv.pop_some hpop
          cases hx
      | spurious hs => cases hs
    | drive p pc =>
      cases pc with
      | found j' v => cases hfound
      | _ => exact absurd h.1 hb
    | _ => exact absurd h.1 hb

end

/-- The others leave the deque as it is. -/
theorem Undisturbed.deques (h : Undisturbed i s a) (hs : Sound s) (hstep : (cluster cfg).step s a = some s')
    (ha : a.1 ≠ .agent i) : s'.mem.deques i = s.mem.deques i := by
  obtain ⟨m, c, w, he, rfl, -⟩ := step_inv hstep
  rcases he.deque with ⟨v, d, hm, hown⟩ | ⟨u, v, pc, d, o, -, hpc, hsteal, hm⟩ | ⟨hm, -⟩
  · have hv : i ≠ v := by
      rintro rfl
      exact ha (hown (hs.onTarget a.1))
    rw [hm, deques_setDeque_of_ne hv]
  · obtain rfl | hv := eq_or_ne i v
    · rw [hm, deques_setDeque_self]
      cases pc with
      | loadTop | loadBottom | read =>
        simp only [Deque.steal] at hsteal
        (try split at hsteal) <;> cases hsteal <;> rfl
      | claim x n value =>
        simp only [Deque.steal, Deque.casTop, if_neg (h.others x n value ha hpc)] at hsteal
        cases hsteal
        rfl
    · rw [hm, deques_setDeque_of_ne hv]
  · rw [hm]

/-- From the yield until the agent finds its next job. -/
theorem TurnAt.run {full : Prop} [Decidable full] (h : TurnAt j rest full (s₁.mem.deques i) (s₁.ctl (.agent i)))
    (hs : Reachable Sane s₁) (hfull : full ↔ Deque.capacityFor cfg.dequeCapacity ≤ rest.length)
    (hrun : Run (Undisturbed i) s₁ s₂) : TurnAt j rest full (s₂.mem.deques i) (s₂.ctl (.agent i)) := by
  refine hrun.keeps_with (P := fun s => TurnAt j rest full (s.mem.deques i) (s.ctl (.agent i)))
    (fun s hr => hs.trans (hr.mono fun _ _ hu => hu.sane)) ?_ h
  intro s a s' hs h hu hstep
  by_cases ha : a.1 = .agent i
  · obtain ⟨m, c, w, he, rfl, hctl⟩ := step_inv hstep
    obtain ⟨t, ch⟩ := a
    obtain rfl : t = .agent i := ha
    have h' := h.step he ((sound_of_run hs).deques i) (hfull.trans (by rw [capacity_of_run hs])) (hu.host rfl)
      (hu.searching rfl)
    rcases Program.ctl_acting hctl with hc | ⟨r, -, hc⟩ <;> simp only at hc <;> rw [hc]
    · exact h'
    · exact h'.awaken
  · rw [hu.deques (sound_of_run hs) hstep ha]
    obtain ⟨m, c, w, -, -, hctl⟩ := step_inv hstep
    rcases Program.ctl_other hctl (t := .agent i) (Ne.symm ha) with hc | ⟨r, -, hc⟩ <;> rw [hc]
    · exact h
    · exact h.awaken

/-- A task that yields gives another one its turn exactly when its agent's deque is full: else the agent takes the
    same job again, whatever else it could run. -/
theorem yields_turn_iff {p : Pass} {j' : Job} (h : Reachable Sane s)
    (hctl : s.ctl (.agent i) = .task p j) (hstep : (cluster cfg).step s (.agent i, .ret .yielded) = some s₁)
    (hrun : Run (Undisturbed i) s₁ s₂) (hnext : (s₂.ctl (.agent i)).nextJob = some j') :
    j' ≠ j ↔ Deque.capacityFor cfg.dequeCapacity ≤ (s.live i).length := by
  have hs := sound_of_run h
  have hsane : Sane s (.agent i, .ret .yielded) := by
    refine ⟨fun x hx => ?_, fun v pc hpc => ?_, fun hm => ?_⟩
    · cases hx
    · rw [hctl] at hpc
      cases hpc
    · rw [hctl] at hm
      cases hm
  have hs₁ : Reachable Sane s₁ := h.tail hsane hstep
  have hlive : s.live i = (s.mem.deques i).live .idle := by rw [State.live, State.owner, hctl]; rfl
  have hstart : TurnAt j (s.live i) (Deque.capacityFor cfg.dequeCapacity ≤ (s.live i).length) (s₁.mem.deques i)
      (s₁.ctl (.agent i)) := by
    obtain ⟨m, c, w, he, hm, hc⟩ := step_inv hstep
    simp only [hctl] at he
    cases he with
    | suspend ht hsus =>
      cases ht
      cases hsus
      have hc' : s₁.ctl (.agent i) = .push (.deposit p.stepped true) j .loadBottom := by
        rw [hc]
        exact Function.update_self ..
      rw [hc', hm]
      exact ⟨rfl, hlive.symm⟩
  have hfound := hstart.run hs₁ Iff.rfl hrun
  replace hfound := hfound.nextJob hnext
  split at hfound
  · rename_i hfull
    refine ⟨fun _ => hfull, fun _ hj => ?_⟩
    have hmem : j' ∈ s.hold (.deque i) := List.mem_of_getLast? hfound
    have hhand : j ∈ s.hold (.hands (.agent i)) := by
      show j ∈ _ ++ _
      rw [hctl]
      exact List.mem_append_right _ (List.mem_singleton_self j)
    cases hs.custody.unique j _ _ (hj ▸ hmem) hhand
  · rename_i hroom
    rw [List.getLast?_concat] at hfound
    exact ⟨fun hne => absurd (Option.some.inj hfound).symm hne, fun hfull => absurd hfull hroom⟩

/-- What a run of two lists of actions reaches around a yield. -/
private theorem turn_of_actions (as₀ as : List (Act cfg)) (i : Fin cfg.agentCount) (q₀ q : State cfg → Prop) [DecidablePred q₀]
    [DecidablePred q] (h : (runActions (cluster cfg).step Sane (State.init cfg) as₀).any (fun s =>
      decide (q₀ s) && ((cluster cfg).step s (.agent i, .ret .yielded)).any fun s₁ =>
        (runActions (cluster cfg).step (Undisturbed i) s₁ as).any fun s₂ => decide (q s₂)) = true) :
    ∃ s s₁ s₂, Reachable Sane s ∧ q₀ s ∧ (cluster cfg).step s (.agent i, .ret .yielded) = some s₁ ∧
      Run (Undisturbed i) s₁ s₂ ∧ q s₂ := by
  obtain ⟨s, hs, hq⟩ := exists_of_runActions h
  obtain ⟨hq₀, hq⟩ := Bool.and_eq_true_iff.mp hq
  obtain ⟨s₁, hstep, hq⟩ := (Option.any_eq_true _ _).mp hq
  obtain ⟨s₂, hrun, hq⟩ := exists_of_runActions hq
  exact ⟨s, s₁, s₂, hs, of_decide_eq_true hq₀, hstep, hrun, of_decide_eq_true hq⟩

/-- One agent with two jobs in its deque steps the second; that one yields, and is the agent's next job again. -/
theorem yields_to_itself :
    ∃ s s₁ s₂ : State (.new 1 (by decide) (by decide)), Reachable Sane s ∧
      (s.ctl (.agent 0) = .task ⟨.worker, false, 0⟩ ⟨2, 1⟩ ∧ s.live 0 = [⟨1, 0⟩]) ∧
      (cluster _).step s (.agent 0, .ret .yielded) = some s₁ ∧ Run (Undisturbed 0) s₁ s₂ ∧
      (s₂.ctl (.agent 0)).nextJob = some ⟨2, 1⟩ := by
  exact turn_of_actions
    ([Tid.calls (.agent 0) (.spawnOn 0)] ++ Tid.go (.agent 0) 7 ++ [Tid.calls (.agent 0) (.spawnOn 0)] ++
      Tid.go (.agent 0) 7 ++ [Tid.calls (.agent 0) (.driveOnce .worker)] ++ Tid.go (.agent 0) 6)
    (Tid.go (.agent 0) 15) 0 (fun s => s.ctl (.agent 0) = .task ⟨.worker, false, 0⟩ ⟨2, 1⟩ ∧ s.live 0 = [⟨1, 0⟩])
    (fun s => (s.ctl (.agent 0)).nextJob = some ⟨2, 1⟩) (by decide +kernel)

/-- `Cluster::with_capacity`, with one agent and deques of two jobs. -/
def Config.narrow : Config := ⟨1, by decide, by decide, 64, 2, by decide +kernel⟩

/-- A task that puts two jobs onto such a deque and yields gives one of them the next turn. -/
theorem yields_turn_full :
    ∃ s s₁ s₂ : State .narrow, Reachable Sane s ∧ (cluster _).step s (.agent 0, .ret .yielded) = some s₁ ∧
      Run (Undisturbed 0) s₁ s₂ ∧ (s₂.ctl (.agent 0)).nextJob = some ⟨3, 2⟩ ∧ (⟨3, 2⟩ : Job) ≠ ⟨1, 0⟩ := by
  obtain ⟨s, s₁, s₂, hs, ⟨hctl, hfull⟩, hstep, hrun, hnext⟩ := turn_of_actions
    ([Tid.calls (.agent 0) (.spawnOn 0)] ++ Tid.go (.agent 0) 7 ++ [Tid.calls (.agent 0) (.driveOnce .worker)] ++
      Tid.go (.agent 0) 8 ++ [Tid.calls (.agent 0) (.spawnOn 0)] ++ Tid.go (.agent 0) 7 ++
      [Tid.calls (.agent 0) (.spawnOn 0)] ++ Tid.go (.agent 0) 7)
    (Tid.go (.agent 0) 14) 0
    (fun s : State .narrow => s.ctl (.agent 0) = .task ⟨.worker, false, 0⟩ ⟨1, 0⟩ ∧ 2 ≤ (s.live 0).length)
    (fun s => (s.ctl (.agent 0)).nextJob = some ⟨3, 2⟩) (by decide +kernel)
  exact ⟨s, s₁, s₂, hs, hstep, hrun, hnext, (yields_turn_iff hs hctl hstep hrun hnext).mpr hfull⟩

end

end Krio.Parallel
