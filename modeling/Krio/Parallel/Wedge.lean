import Krio.Lib.Ring
import Krio.Parallel.StopTheWorld

/-! Back-to-back stops can wedge the barrier. `release` makes the word even and only then waits for the
count to drain, so another agent can request the next stop in between. An arrival for that stop keeps
the count above zero, the releaser never leaves its drain loop, and so never arrives at the new stop.

Without such an arrival no state is stuck. -/

namespace Krio.Parallel
open Lib Safepoint

section
variable {cfg : Config} {s s' : State cfg}

/-- In `enter`'s wait loop, in `await_all`, or in `release`'s drain loop. -/
def Ctl.waitsInSafepoint : Ctl cfg → Bool
  | .enter _ (.first _) | .enter _ (.again _) | .enter _ (.park _) | .enter _ (.asleep _) => true
  | .stopTheWorld _ (.awaitAll _) => true
  | .release _ .drain | .release _ (.stopping _) | .release _ (.nudge _) | .release _ (.park _)
  | .release _ (.asleep _) => true
  | _ => false

/-- Every agent waits inside the safepoint, and no run changes its words any more. -/
def Wedged (s : State cfg) : Prop :=
  (∀ i, (s.ctl (.agent i)).waitsInSafepoint = true) ∧ ∀ s', Run StopsOnly s s' → s'.mem.safepoint = s.mem.safepoint

/-! ### A wedged run -/

/-- A role that lasts for as long as the words of the barrier stay. -/
def Role.blocked (others : BitVec 32) (sp : Safepoint) : Role → Bool
  | .draining => sp.stopped != 0
  | .owner => !decide (others ≤ sp.stopped)
  | .waiting _ s => s == sp.state
  | _ => false

theorem Barrier.Step.of_blocked {others : BitVec 32} {sp sp' : Safepoint} {r r' : Role}
    (h : Barrier.Step others false false sp r sp' r') (hr : r.blocked others sp = true) : sp' = sp ∧ r' = r := by
  cases h with
  | idle => exact ⟨rfl, rfl⟩
  | see k s hs => exact absurd (by simpa [Role.blocked] using hr) (Ne.symm hs)
  | arrived hle => exact absurd hle (by simpa [Role.blocked] using hr)
  | drained hz => exact absurd hz (by simpa [Role.blocked] using hr)
  | _ => first | cases hr | contradiction

/-- Once every agent is blocked, the words of the barrier never change again. -/
theorem blocked_of_run (hr : Reachable StopsOnly s) (hb : ∀ i, (s.roles i).blocked s.mem.others s.mem.safepoint = true)
    (h : Run StopsOnly s s') : s'.mem.safepoint = s.mem.safepoint ∧ s'.roles = s.roles := by
  refine h.keeps_with (P := fun u => u.mem.safepoint = s.mem.safepoint ∧ u.roles = s.roles)
    (Q := Reachable StopsOnly) (fun _ h => hr.trans h) ?_ ⟨rfl, rfl⟩
  intro u a u' hu ⟨hsp, hroles⟩ ha hstep
  rcases roles_inv hstep hu ha with ⟨hsp', hroles'⟩ | ⟨i, -, hb', hne⟩
  · exact ⟨hsp'.trans hsp, hroles'.trans hroles⟩
  · have hbi := hb i
    rw [← hroles, ← hsp] at hbi
    obtain ⟨hsp', hi⟩ := hb'.of_blocked hbi
    refine ⟨hsp'.trans hsp, (funext fun j => ?_ : u'.roles = u.roles).trans hroles⟩
    obtain rfl | hj := eq_or_ne j i
    · exact hi
    · exact hne j hj

section Three
private abbrev a₀ : Tid Config.three := .agent 0
private abbrev a₁ : Tid Config.three := .agent 1
private abbrev a₂ : Tid Config.three := .agent 2

/-- The third agent takes its snapshot for the first agent's stop and for the one that follows: the first
    agent stops the world, with the second polling from a task and the third in `run`; it releases, and
    the second agent requests its own stop before the first has seen the count drain. -/
private def interlock : List (Act Config.three) :=
  [Tid.calls (.ext 0) .spawn] ++ Tid.go (.ext 0) 6 ++ [Tid.calls a₁ .run] ++ Tid.go a₁ 8 ++ [Tid.calls a₂ .run] ++
  [Tid.calls a₀ .stopTheWorld] ++ Tid.go a₀ 6 ++ [Tid.calls a₁ .poll] ++ Tid.go a₁ 6 ++ Tid.go a₂ 6 ++ Tid.go a₀ 5 ++
  Tid.go a₁ 4 ++ [Tid.calls a₁ .stopTheWorld] ++ Tid.go a₁ 2 ++ Tid.go a₂ 7 ++ Tid.go a₁ 4 ++ Tid.go a₂ 2

set_option maxRecDepth 10000 in
/-- Three agents: the first drains its own stop, the second waits for all to arrive at the next, and the
    third has arrived there. -/
theorem back_to_back_stops_wedge :
    ∃ s : State (.new 3 (by decide) (by decide)), Reachable StopsOnly s ∧ Wedged s := by
  obtain ⟨s, hs, hq⟩ := reachable_of_actions StopsOnly interlock
    (fun s : State Config.three => decide (∀ i : Fin 3, (s.ctl (.agent i)).waitsInSafepoint = true ∧
      (s.roles i).blocked s.mem.others s.mem.safepoint = true)) (by decide +kernel)
  have hq' := of_decide_eq_true hq
  exact ⟨s, hs, fun i => (hq' i).1, fun s' h => (blocked_of_run hs (fun i => (hq' i).2) h).1⟩

end Three

/-! ### Runs without an early arrival -/

/-- About to be counted for the round of the word `x`. -/
def Ctl.arrivesAt (x : BitVec 32) : Ctl cfg → Bool
  | .enter _ (.arrive y) => y == x
  | _ => false

/-- No agent is counted for the pending round while another is still draining an earlier one. -/
def NoEarlyArrival (s : State cfg) (a : Act cfg) : Prop :=
  StopsOnly s a ∧ ((s.ctl a.1).arrivesAt s.mem.safepoint.state = true → ∀ j, s.roles j ≠ .draining)

instance (s : State cfg) (a : Act cfg) : Decidable (NoEarlyArrival s a) := inferInstanceAs (Decidable (_ ∧ _))

/-- While the word is pending and a releaser drains, nobody is counted for the pending round. -/
def Barrier.Late {ι : Type} (sp : Safepoint) (r : ι → Role) : Prop :=
  pending sp.state = true → ∀ j k, r j = .waiting k sp.state → ¬Draining r

theorem Barrier.Late.step {ι : Type} [Fintype ι] {others : BitVec 32} {sp sp' : Safepoint} {r r' : ι → Role} {i : ι}
    (h : Late sp r) (hinv : Inv sp r) (hne : ∀ j, j ≠ i → r' j = r j)
    (hs : Barrier.Step others false false sp (r i) sp' (r' i))
    (ha : ∀ k, r i = .snapped k sp.state → r' i = .waiting k sp.state → ¬Draining r) : Late sp' r' := by
  rintro hp j k hj ⟨d, hd⟩
  have back : ∀ l y, r' l = y → r' i ≠ y → r l = y := fun l y hl hy => Barrier.role_of_ne rfl hne hl hy
  have hok := hinv.roles i
  generalize hy : r i = y at hs hok
  generalize hx : r' i = x at hs back
  cases hs with
  | idle =>
    have hr : r' = r := by
      funext l
      obtain rfl | hl := eq_or_ne l i
      · rw [hx, hy]
      · exact hne l hl
    rw [hr] at hj hd
    exact h hp j k hj ⟨d, hd⟩
  | arrive k' s =>
    obtain ⟨-, rfl⟩ := hok
    exact ha k' hy hx ⟨d, back d _ hd (by simp)⟩
  | request hp' =>
    -- Before the request the word was idle, so whoever is counted has an older snapshot.
    have hj' := hinv.roles j
    rw [back j _ hj (by simp)] at hj'
    rcases hj' with ⟨hp'', -⟩ | ⟨-, ⟨hp'', -⟩ | ⟨-, hs⟩⟩
    · exact absurd hp'' (by simp [hp'])
    · exact absurd hp'' (by simp [hp'])
    · have := congrArg BitVec.toNat hs
      simp only [BitVec.toNat_add, show (1 : BitVec 32).toNat = 1 from rfl] at this
      omega
  | release hp' => exact absurd hp (by rw [pending_add_one, hp']; simp)
  | requestSafepoint hf => cases hf
  | giveUp hf => cases hf
  | releaseOther hf => cases hf
  | drainStopped hf => cases hf
  | _ => exact h hp j k (back j _ hj (by simp)) ⟨d, back d _ hd (by simp)⟩

theorem ctl_of_snapped {c : Ctl cfg} {k : EnterK} {x : BitVec 32} (h : c.role = .snapped k x) :
    c = .enter k (.arrive x) := by
  unfold Ctl.role at h
  split at h <;> cases h
  rfl

theorem ctl_of_waiting {c : Ctl cfg} {k : EnterK} {x : BitVec 32} (h : c.role = .waiting k x) :
    c = .enter k (.announce x) ∨ c = .enter k (.first x) ∨ c = .enter k (.again x) ∨ c = .enter k (.park x) ∨
      c = .enter k (.asleep x) := by
  unfold Ctl.role at h
  split at h <;> cases h <;> simp

theorem late_of_run (h : Reachable NoEarlyArrival s) : Barrier.Late s.mem.safepoint s.roles := by
  refine h.keeps_with (P := fun s => Barrier.Late s.mem.safepoint s.roles) (Q := Reachable StopsOnly)
    (fun _ h => h.mono fun _ _ h => h.1) ?_ ?_
  · intro s a s' hr hlate ⟨ha, hearly⟩ hstep
    rcases roles_inv hstep hr ha with ⟨hsp, hroles⟩ | ⟨i, hi, hb, hne⟩
    · rwa [hsp, hroles]
    · refine hlate.step (barrierInv_of_run hr) hne hb ?_
      rintro k hk - ⟨d, hd⟩
      exact hearly (by rw [hi, ctl_of_snapped hk]; simp [Ctl.arrivesAt]) d hd
  · rintro hp j k hj
    cases hj

/-! ### Progress -/

/-- Some run changes the words of the barrier. -/
def CanMove (s : State cfg) : Prop := ∃ s', Run StopsOnly s s' ∧ s'.mem.safepoint ≠ s.mem.safepoint

section Moves
variable {i : Fin cfg.agentCount} {m' : Mem cfg} {c' : Ctl cfg} {w : Option (Addr cfg)}

theorem CanMove.now (ch : Choice cfg) (he : exec (.agent i) s.mem (s.ctl (.agent i)) ch = some (m', c', w))
    (hok : StopsOnly s (.agent i, ch)) (hne : m'.safepoint ≠ s.mem.safepoint) : CanMove s := by
  have hstep : (cluster cfg).step s (.agent i, ch) =
      some ⟨m', (cluster cfg).signal w (Function.update s.ctl (.agent i) c')⟩ := by
    simp [Program.step, cluster, he]
  exact ⟨_, .single hok hstep, hne⟩

theorem CanMove.later (ch : Choice cfg) (he : exec (.agent i) s.mem (s.ctl (.agent i)) ch = some (m', c', w))
    (hok : StopsOnly s (.agent i, ch)) (hsp : m'.safepoint = s.mem.safepoint)
    (hc : w = none ∨ ∀ r, awaken (.agent i) r c' = c')
    (h : ∀ s' : State cfg, s'.mem = m' → s'.ctl (.agent i) = c' → CanMove s') : CanMove s := by
  have hstep : (cluster cfg).step s (.agent i, ch) =
      some ⟨m', (cluster cfg).signal w (Function.update s.ctl (.agent i) c')⟩ := by
    simp [Program.step, cluster, he]
  obtain ⟨u, hu, hne⟩ := h ⟨m', (cluster cfg).signal w (Function.update s.ctl (.agent i) c')⟩ rfl (by
    rcases hc with rfl | hc
    · exact Function.update_self _ _ _
    · exact Program.ctl_self (p := cluster cfg) (s := s) (a := (.agent i, ch)) rfl hc)
  exact ⟨u, .head hok hstep hu, hsp ▸ hne⟩

theorem stopsOnly_go : StopsOnly s (.agent i, .go) := by rintro _ ⟨⟩

theorem stopsOnly_spurious : StopsOnly s (.agent i, .spurious) := by rintro _ ⟨⟩

/-- An agent counted for a round that is over gets out of `enter`'s loop. -/
theorem canMove_of_stale {k : EnterK} {x : BitVec 32} (h : s.roles i = .waiting k x) (hx : s.mem.safepoint.state ≠ x) :
    CanMove s := by
  have leave : ∀ {u : State cfg}, u.ctl (.agent i) = .enter k .leave → CanMove u := by
    intro u hu
    refine .now .go (by rw [hu]; rfl) stopsOnly_go ?_
    intro hsp
    exact sub_one_ne (by decide) _ (congrArg Safepoint.stopped hsp)
  have again : ∀ {u : State cfg}, u.ctl (.agent i) = .enter k (.again x) → u.mem.safepoint.state ≠ x → CanMove u := by
    intro u hu hx
    refine .later .go (by rw [hu]; rfl) stopsOnly_go rfl (Or.inl rfl) ?_
    intro v _ hv
    rw [if_neg hx] at hv
    exact leave hv
  have first : ∀ {u : State cfg}, u.ctl (.agent i) = .enter k (.first x) → u.mem.safepoint.state ≠ x → CanMove u := by
    intro u hu hx
    refine .later .go (by rw [hu]; rfl) stopsOnly_go rfl (Or.inl rfl) ?_
    intro v _ hv
    rw [if_neg hx] at hv
    exact leave hv
  rcases ctl_of_waiting h with hc | hc | hc | hc | hc
  · refine .later .go (by rw [hc]; rfl) stopsOnly_go rfl (Or.inr fun _ => rfl) ?_
    intro u hm hu
    exact first hu (by rw [hm]; exact hx)
  · exact first hc hx
  · exact again hc hx
  · refine .later .go (by rw [hc]; rfl) stopsOnly_go rfl (Or.inl rfl) ?_
    intro u hm hu
    rw [if_neg hx] at hu
    exact again hu (by rw [hm]; exact hx)
  · refine .later .spurious (by rw [hc]; rfl) stopsOnly_spurious rfl (Or.inl rfl) ?_
    intro u hm hu
    exact again hu (by rw [hm]; exact hx)

/-- An agent back in host or task code requests a stop, or polls when one is pending. -/
theorem canMove_of_site {k : Site} (h : s.ctl (.agent i) = k.resume) : CanMove s := by
  have calls : ∀ o : Call cfg, o.allowed (.agent i) k = true →
      exec (.agent i) s.mem (s.ctl (.agent i)) (.call o) = some (s.mem, o.start k, none) := by
    intro o ho
    rw [h]
    cases k <;> simp [exec, execCall, Site.resume, ho, quiet]
  cases hp : pending s.mem.safepoint.state with
  | true =>
    refine .later (.call .poll) (calls .poll rfl) (by rintro _ ⟨⟩; rfl) rfl (Or.inl rfl) ?_
    intro u hu hc
    have he : exec (.agent i) u.mem (u.ctl (.agent i)) .go = some (s.mem, .enter (.site k) .load, none) := by
      rw [hc, hu]
      exact if_pos hp
    refine .later .go he stopsOnly_go (by rw [hu]) (Or.inl rfl) ?_
    intro v hv hc
    have he : exec (.agent i) v.mem (v.ctl (.agent i)) .go =
        some (s.mem, .enter (.site k) (.arrive s.mem.safepoint.state), none) := by
      rw [hc, hv]
      simp [exec, execOp, execEnter, Safepoint.enter, hp]
    refine .later .go he stopsOnly_go (by rw [hv]) (Or.inl rfl) ?_
    intro x hx hc
    refine .now .go (by rw [hc]; rfl) stopsOnly_go ?_
    intro hsp
    exact add_one_ne (by decide) _ (congrArg Safepoint.stopped hsp)
  | false =>
    refine .later (.call .stopTheWorld) (calls .stopTheWorld rfl) (by rintro _ ⟨⟩; rfl) rfl (Or.inl rfl) ?_
    intro u hu hc
    have he : exec (.agent i) u.mem (u.ctl (.agent i)) .go =
        some (s.mem, .stopTheWorld k (.request (.cas s.mem.safepoint.state hp)), none) := by
      rw [hc, hu]
      simp [exec, execOp, Call.start, execStop, Safepoint.request, requestSeen, hp, quiet]
    refine .later .go he stopsOnly_go (by rw [hu]) (Or.inl rfl) ?_
    intro v hv hc
    have he : exec (.agent i) v.mem (v.ctl (.agent i)) .go =
        some ({ s.mem with safepoint := { s.mem.safepoint with state := s.mem.safepoint.state + 1 } },
          .stopTheWorld k (.unparkAll 0), none) := by
      rw [hc, hv]
      simp [exec, execOp, execStop, Safepoint.request, quiet]
    refine .now .go he stopsOnly_go ?_
    intro hsp
    rw [hv] at hsp
    exact add_one_ne (by decide) _ (congrArg Safepoint.state hsp)

/-- A requester that all the others have arrived for runs its closure and releases. -/
theorem canMove_of_awaitAll {k : Site} {pc : AwaitPc} (h : s.ctl (.agent i) = .stopTheWorld k (.awaitAll pc))
    (hp : pending s.mem.safepoint.state = true) (hle : s.mem.others ≤ s.mem.safepoint.stopped)
    (hstop : s.mem.stopping = false) : CanMove s := by
  have load : ∀ {u : State cfg}, u.mem = s.mem → u.ctl (.agent i) = .stopTheWorld k (.awaitAll .load) → CanMove u := by
    intro u hu hc
    have he : exec (.agent i) u.mem (u.ctl (.agent i)) .go = some (s.mem, .stopTheWorld k .inF, none) := by
      rw [hc, hu]
      simp [exec, execOp, execStop, Safepoint.awaitAll, hle, quiet]
    refine .later .go he stopsOnly_go (by rw [hu]) (Or.inl rfl) ?_
    intro v hv hc
    refine .later .go (by rw [hc]; rfl) stopsOnly_go rfl (Or.inl rfl) ?_
    intro x hx hc
    have he : exec (.agent i) x.mem (x.ctl (.agent i)) .go =
        some (s.mem, .release (.stopTheWorld k) (.cas s.mem.safepoint.state hp), none) := by
      rw [hc, hx, hv]
      simp [exec, execOp, execRelease, Safepoint.release, releaseSeen, hp]
    refine .later .go he stopsOnly_go (by rw [hx, hv]) (Or.inl rfl) ?_
    intro y hy hc
    have he : exec (.agent i) y.mem (y.ctl (.agent i)) .go =
        some ({ s.mem with safepoint := { s.mem.safepoint with state := s.mem.safepoint.state + 1 } },
          .release (.stopTheWorld k) .wakeAll, none) := by
      rw [hc, hy]
      simp [exec, execOp, execRelease, Safepoint.release]
    refine .now .go he stopsOnly_go ?_
    intro hsp
    rw [hy] at hsp
    exact add_one_ne (by decide) _ (congrArg Safepoint.state hsp)
  have asleep : ∀ {n : BitVec 32} {u : State cfg}, u.mem = s.mem →
      u.ctl (.agent i) = .stopTheWorld k (.awaitAll (.asleep n)) → CanMove u := by
    intro n u hu hc
    refine .later .spurious (by rw [hc]; rfl) stopsOnly_spurious rfl (Or.inl rfl) ?_
    intro v hv hc
    exact load (hv.trans hu) hc
  have park : ∀ {n : BitVec 32} {u : State cfg}, u.mem = s.mem →
      u.ctl (.agent i) = .stopTheWorld k (.awaitAll (.park n)) → CanMove u := by
    intro n u hu hc
    refine .later .go (by rw [hc]; rfl) stopsOnly_go rfl (Or.inl rfl) ?_
    intro v hv hc
    split at hc
    · exact asleep (hv.trans hu) hc
    · exact load (hv.trans hu) hc
  cases pc with
  | load => exact load rfl h
  | stopping n =>
    have he : exec (.agent i) s.mem (s.ctl (.agent i)) .go =
        some (s.mem, .stopTheWorld k (.awaitAll (.park n)), none) := by
      rw [h]
      simp [exec, execOp, execStop, Safepoint.awaitAll, hstop, quiet]
    exact .later .go he stopsOnly_go rfl (Or.inl rfl) fun v hv hc => park hv hc
  | park n => exact park rfl h
  | asleep n => exact asleep rfl h

/-- A releaser that sees the count at zero returns to host or task code. -/
theorem canMove_of_drain {k : Site} {pc : ReleasePc} (h : s.ctl (.agent i) = .release (.stopTheWorld k) pc)
    (hw : (s.ctl (.agent i)).waitsInSafepoint = true) (hz : s.mem.safepoint.stopped = 0)
    (hstop : s.mem.stopping = false) : CanMove s := by
  have drain : ∀ {u : State cfg}, u.mem = s.mem → u.ctl (.agent i) = .release (.stopTheWorld k) .drain → CanMove u := by
    intro u hu hc
    have he : exec (.agent i) u.mem (u.ctl (.agent i)) .go = some (s.mem, k.resume, none) := by
      rw [hc, hu]
      simp [exec, execOp, execRelease, Safepoint.release, hz, ReleaseK.resume]
    exact .later .go he stopsOnly_go (by rw [hu]) (Or.inl rfl) fun v _ hc => canMove_of_site hc
  have asleep : ∀ {n : BitVec 32} {u : State cfg}, u.mem = s.mem →
      u.ctl (.agent i) = .release (.stopTheWorld k) (.asleep n) → CanMove u := by
    intro n u hu hc
    refine .later .spurious (by rw [hc]; rfl) stopsOnly_spurious rfl (Or.inl rfl) ?_
    intro v hv hc
    exact drain (hv.trans hu) hc
  have park : ∀ {n : BitVec 32} {u : State cfg}, u.mem = s.mem →
      u.ctl (.agent i) = .release (.stopTheWorld k) (.park n) → CanMove u := by
    intro n u hu hc
    refine .later .go (by rw [hc]; rfl) stopsOnly_go rfl (Or.inl rfl) ?_
    intro v hv hc
    split at hc
    · exact asleep (hv.trans hu) hc
    · exact drain (hv.trans hu) hc
  have nudge : ∀ {n : BitVec 32} {u : State cfg}, u.mem = s.mem →
      u.ctl (.agent i) = .release (.stopTheWorld k) (.nudge n) → CanMove u := by
    intro n u hu hc
    refine .later .go (by rw [hc]; rfl) stopsOnly_go rfl (Or.inr fun _ => rfl) ?_
    intro v hv hc
    exact park (hv.trans hu) hc
  rw [h] at hw
  cases pc with
  | drain => exact drain rfl h
  | stopping n =>
    have he : exec (.agent i) s.mem (s.ctl (.agent i)) .go =
        some (s.mem, .release (.stopTheWorld k) (.nudge n), none) := by
      rw [h]
      simp [exec, execOp, execRelease, Safepoint.release, hstop]
      rw [← hstop]
    exact .later .go he stopsOnly_go rfl (Or.inl rfl) fun v hv hc => nudge hv hc
  | nudge n => exact nudge rfl h
  | park n => exact park rfl h
  | asleep n => exact asleep rfl h
  | _ => cases hw

end Moves

/-- An agent that waits in the safepoint is counted, or owns a stop, or drains one. -/
theorem role_of_waits {c : Ctl cfg} (h : c.waitsInSafepoint = true) (hf : c.foreign = false) :
    (∃ k x, c.role = .waiting k x) ∨ (∃ k pc, c = .stopTheWorld k (.awaitAll pc)) ∨
      c.role = .draining ∧ ∃ k pc, c = .release (.stopTheWorld k) pc := by
  cases c with
  | enter k pc => cases pc <;> first | exact Or.inl ⟨_, _, rfl⟩ | cases h
  | stopTheWorld k pc => cases pc <;> first | exact Or.inr (Or.inl ⟨_, _, rfl⟩) | cases h
  | release k pc =>
    rcases k with k | k | k
    · cases pc <;> first | exact Or.inr (Or.inr ⟨rfl, _, _, rfl⟩) | cases h
    · cases hf
    · cases hf
  | _ => cases h

/-- When every agent waits in the safepoint and nobody is counted early, some run changes its words. -/
theorem canMove_of_waits (hr : Reachable NoEarlyArrival s) (hw : ∀ i, (s.ctl (.agent i)).waitsInSafepoint = true) :
    CanMove s := by
  have hr' : Reachable StopsOnly s := hr.mono fun _ _ h => h.1
  obtain ⟨hf, hstop⟩ := domestic hr'
  have hinv := barrierInv_of_run hr'
  have hlate := late_of_run hr
  have role : ∀ i, _ := fun i => role_of_waits (hw i) (hf (.agent i))
  by_cases hd : Barrier.Draining s.roles
  · obtain ⟨d, hd⟩ := hd
    by_cases hcount : ∃ j k x, s.roles j = .waiting k x
    · -- Whoever is counted is there from the round that is being drained.
      obtain ⟨j, k, x, hj⟩ := hcount
      have hok := hinv.roles j
      rw [hj] at hok
      refine canMove_of_stale hj ?_
      rintro rfl
      rcases hok with ⟨hp, -⟩ | ⟨-, ⟨-, h⟩ | ⟨-, h⟩⟩
      · exact hlate hp j k hj ⟨d, hd⟩
      · have := congrArg BitVec.toNat h
        rw [BitVec.toNat_add, show (2 : BitVec 32).toNat = 2 from rfl] at this
        have := s.mem.safepoint.state.isLt
        omega
      · exact add_one_ne (by decide) _ h
    · have hnone : ∀ i, (s.roles i).counted = false := by
        intro i
        rcases role i with h | ⟨k, pc, h⟩ | ⟨h, -⟩
        · exact absurd ⟨i, h⟩ hcount
        · simp [State.roles, h, Ctl.role, Role.counted]
        · simp [State.roles, h, Role.counted]
      have hz : s.mem.safepoint.stopped = 0 := BitVec.eq_of_toNat_eq (hinv.count.trans (count_eq_zero hnone))
      rcases role d with ⟨k, x, hk⟩ | ⟨k, pc, hk⟩ | ⟨-, k, pc, hk⟩
      · exact absurd ⟨d, k, x, hk⟩ hcount
      · exact absurd hd (by simp [State.roles, hk, Ctl.role])
      · exact canMove_of_drain hk (hw d) hz hstop
  · by_cases howner : ∃ i k pc, s.ctl (.agent i) = .stopTheWorld k (.awaitAll pc)
    · obtain ⟨i, k, pc, hi⟩ := howner
      have hholds : (s.roles i).holds = true := by simp [State.roles, hi, Ctl.role, Role.holds]
      have hothers : ∀ j, j ≠ i → (s.roles j).counted = true := by
        intro j hj
        rcases role j with ⟨k, x, h⟩ | ⟨k, pc, h⟩ | ⟨h, -⟩
        · simp [State.roles, h, Role.counted]
        · exact absurd (hinv.unique j i (by simp [State.roles, h, Ctl.role, Role.holds]) hholds) hj
        · exact absurd ⟨j, h⟩ hd
      refine canMove_of_awaitAll hi (hinv.pending_of_holds hholds) ?_ hstop
      have hcard := card_le_of_all hothers
      rw [← others_toNat s.mem, ← hinv.count] at hcard
      exact Nat.le_of_succ_le_succ hcard
    · -- All are counted, so a stop is pending and somebody holds it.
      have hall : ∀ i, ∃ k x, s.roles i = .waiting k x := by
        intro i
        rcases role i with h | h | ⟨h, -⟩
        · exact h
        · exact absurd ⟨i, h⟩ howner
        · exact absurd ⟨i, h⟩ hd
      obtain ⟨k, x, h₀⟩ := hall 0
      have hok := hinv.roles 0
      rw [h₀] at hok
      obtain ⟨i, hi⟩ := hinv.owned (hok.elim And.left fun h => absurd h.1 hd)
      obtain ⟨k', x', hi'⟩ := hall i
      rw [hi'] at hi
      cases hi

/-- In runs where no agent is counted for the pending round while an earlier one is still drained, the
    barrier never wedges. -/
theorem never_wedged (h : Reachable NoEarlyArrival s) : ¬Wedged s := by
  rintro ⟨hw, hstay⟩
  obtain ⟨s', hs', hne⟩ := canMove_of_waits h hw
  exact hne (hstay s' hs')

/-- Two stops back to back: agent 0 drains its own, asleep, while agent 1, which it had stopped, sleeps in `await_all` of
    the next one, and agent 2 has not left the first yet. All three wait in the safepoint, and they go on. -/
theorem never_wedged_three :
    ∃ s : State .three, Reachable NoEarlyArrival s ∧ s.mem.safepoint = ⟨3, 1⟩ ∧
      (∀ i, (s.ctl (.agent i)).waitsInSafepoint = true) ∧ ¬Wedged s := by
  obtain ⟨s, hs, hq⟩ := reachable_of_actions NoEarlyArrival
    ([Tid.calls (.agent 0) .stopTheWorld] ++ Tid.go (.agent 0) 2 ++ [Tid.calls (.agent 1) .poll] ++ Tid.go (.agent 1) 4 ++
      [Tid.calls (.agent 2) .poll] ++ Tid.go (.agent 2) 4 ++ Tid.go (.agent 0) 8 ++ Tid.go (.agent 1) 3 ++
      [Tid.calls (.agent 1) .stopTheWorld] ++ Tid.go (.agent 1) 9 ++ Tid.go (.agent 0) 5)
    (fun s : State .three => decide (s.mem.safepoint = ⟨3, 1⟩ ∧ ∀ i, (s.ctl (.agent i)).waitsInSafepoint = true))
    (by decide +kernel)
  obtain ⟨hsp, hwait⟩ := of_decide_eq_true hq
  exact ⟨s, hs, hsp, hwait, never_wedged hs⟩

end

end Krio.Parallel
