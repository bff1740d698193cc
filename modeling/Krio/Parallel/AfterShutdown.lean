import Krio.Parallel.Declines

/-! Whether `shutdown` leaves a thread asleep. It unparks every slot and wakes the agents at the barrier, but nobody
that waits on the count: a requester in `await_all` is woken only by an agent that arrives at the barrier or
leaves it. -/

namespace Krio.Parallel
open Lib Safepoint

variable {cfg : Config}

/-- The steps that the other threads have left in the operations they are in. -/
def Others (t : Tid cfg) (_ : State cfg) (a : Act cfg) : Prop := a.1 ≠ t ∧ a.2 ≠ .spurious ∧ ∀ o, a.2 ≠ .call o

/-- Some other thread still has to wake `t`. -/
def Rousable (s : State cfg) (t : Tid cfg) : Prop := ∃ s', Run (Others t) s s' ∧ (s'.ctl t).asleep = false

/-! ### Steps that wake a thread -/

section
variable {s s' : State cfg} {t u : Tid cfg} {m' : Mem cfg} {c' : Ctl cfg} {w : Option (Addr cfg)}

theorem agent_of_external (hext : ∀ x, (s.ctl (.ext x)).external = true) (ht : (s.ctl t).external = false) :
    ∃ i, t = .agent i := by
  cases t with
  | agent i => exact ⟨i, rfl⟩
  | ext x =>
    rw [hext x] at ht
    cases ht

/-- The operations that a thread can be asleep in. -/
theorem where_asleep {c : Ctl cfg} (h : c.asleep = true) :
    c = .run .asleep ∨ (∃ k x, c = .enter k (.asleep x)) ∨ (∃ k n, c = .release k (.asleep n)) ∨
      ∃ k n, c = .stopTheWorld k (.awaitAll (.asleep n)) := by
  unfold Ctl.asleep at h
  split at h
  · exact .inl rfl
  · exact .inr (.inl ⟨_, _, rfl⟩)
  · exact .inr (.inr (.inl ⟨_, _, rfl⟩))
  · exact .inr (.inr (.inr ⟨_, _, rfl⟩))
  · cases h

theorem Rousable.head (hu : u ≠ t) (hstep : (cluster cfg).step s (u, .go) = some s') (h : Rousable s' t) :
    Rousable s t := by
  obtain ⟨v, hv, hawake⟩ := h
  exact ⟨v, .head ⟨hu, by simp, by simp⟩ hstep hv, hawake⟩

/-- The next step of `u` signals what `t` sleeps on. -/
theorem Rousable.now {r : Addr cfg} (hu : u ≠ t) (he : exec u s.mem (s.ctl u) .go = some (m', c', some r))
    (hr : (awaken t r (s.ctl t)).asleep = false) : Rousable s t := by
  have hstep : (cluster cfg).step s (u, .go) =
      some ⟨m', (cluster cfg).signal (some r) (Function.update s.ctl u c')⟩ := by
    simp [Program.step, cluster, he]
  refine .head hu hstep ⟨_, .refl, ?_⟩
  simpa [Program.signal, cluster, Function.update_of_ne (Ne.symm hu)] using hr

/-- The next step of `u` takes it to `c'`, and leaves `t` where it sleeps if it does not wake it. -/
theorem Rousable.later (hu : u ≠ t) (he : exec u s.mem (s.ctl u) .go = some (m', c', w))
    (hc : w = none ∨ ∀ r, awaken u r c' = c')
    (h : ∀ s' : State cfg, s'.mem = m' → s'.ctl u = c' → s'.ctl t = s.ctl t → Rousable s' t) : Rousable s t := by
  have hstep : (cluster cfg).step s (u, .go) = some ⟨m', (cluster cfg).signal w (Function.update s.ctl u c')⟩ := by
    simp [Program.step, cluster, he]
  refine .head hu hstep ?_
  cases hsame : (((cluster cfg).signal w (Function.update s.ctl u c')) t).asleep with
  | false => exact ⟨_, .refl, hsame⟩
  | true =>
    refine h _ rfl ?_ ?_
    · rcases hc with rfl | hc
      · exact Function.update_self _ _ _
      · exact Program.ctl_self (p := cluster cfg) (s := s) (a := (u, .go)) rfl hc
    · cases w with
      | none => exact Function.update_of_ne (Ne.symm hu) _ _
      | some r =>
        simp only [Program.signal, cluster, Function.update_of_ne (Ne.symm hu)] at hsame ⊢
        exact awaken_of_asleep hsame

theorem rousable_of_unparks {i : Fin cfg.agentCount} (ht : s.ctl (.agent i) = .run .asleep)
    (h : (s.ctl u).unparks = some i.val) : Rousable s (.agent i) := by
  have hu : u ≠ .agent i := by
    rintro rfl
    rw [ht] at h
    cases h
  have hr : (awaken (.agent i) (.slot i) (s.ctl (.agent i))).asleep = false := by simp [ht, awaken, Ctl.asleep]
  obtain ⟨c', he⟩ : ∃ c', exec u s.mem (s.ctl u) .go = some (s.mem, c', some (.slot i)) := by
    generalize s.ctl u = c at h
    unfold Ctl.unparks at h
    split at h <;> cases h
    · rename_i k
      exact ⟨k.resume, by cases u <;> simp [exec, execOp, execNotify, signals]⟩
    · rename_i k
      exact ⟨.shutdown k (.notify (i + 1)), by cases u <;> simp [exec, execOp, execShutdown, signals]⟩
  exact .now hu he hr

theorem wakeAll_step (h : (s.ctl u).wakesAll = true) :
    ∃ k, s.ctl u = .release k .wakeAll ∧ exec u s.mem (s.ctl u) .go = some (s.mem, .release k .drain, some (.word .state)) := by
  generalize s.ctl u = c at h
  unfold Ctl.wakesAll at h
  split at h <;> cases h
  exact ⟨_, rfl, by cases u <;> rfl⟩

theorem rousable_of_wakesAll {k : EnterK} {x : BitVec 32} (ht : s.ctl t = .enter k (.asleep x))
    (h : (s.ctl u).wakesAll = true) : Rousable s t := by
  obtain ⟨k', hc, he⟩ := wakeAll_step h
  refine .now (fun hu => ?_) he (by simp [ht, awaken, Ctl.asleep])
  rw [← hu, hc] at ht
  cases ht

theorem rousable_of_tells (h : (s.ctl u).tells = true) (hasleep : (s.ctl t).asleep = true)
    (ht : (awaken t (.word .stopped) (s.ctl t)).asleep = false) : Rousable s t := by
  have hu : u ≠ t := by
    rintro rfl
    generalize s.ctl u = c at h hasleep
    unfold Ctl.tells at h
    split at h <;> first | cases hasleep | cases h
  obtain ⟨c', he⟩ : ∃ c', exec u s.mem (s.ctl u) .go = some (s.mem, c', some (.word .stopped)) := by
    generalize s.ctl u = c at h
    unfold Ctl.tells at h
    split at h <;> cases h
    · rename_i k x
      exact ⟨.enter k (.first x), by cases u <;> rfl⟩
    · rename_i k
      exact ⟨k.resume, by cases u <;> rfl⟩
  exact .now hu he ht

/-- An agent at the barrier, after the word moved, leaves and wakes whoever waits on the count. -/
theorem rousable_of_inBarrier {j : Fin cfg.agentCount} (hr : Rounds s) (hw : Watches s)
    (hp : pending s.mem.safepoint.state = false) (hj : (s.ctl (.agent j)).inBarrier = true) (hjt : .agent j ≠ t)
    (hasleep : (s.ctl t).asleep = true) (ht : (awaken t (.word .stopped) (s.ctl t)).asleep = false)
    (hst : awaken t (.word .state) (s.ctl t) = s.ctl t) : Rousable s t := by
  have leave : ∀ {u : State cfg} {k : EnterK}, u.ctl (.agent j) = .enter k .leave → u.ctl t = s.ctl t → Rousable u t := by
    intro u k hu hut
    refine .later hjt (by rw [hu]; rfl) (Or.inl rfl) fun v _ hv hvt => ?_
    exact .now hjt (by rw [hv]; rfl) (by rwa [hvt, hut])
  have again : ∀ {u : State cfg} {k : EnterK} {x : BitVec 32}, u.ctl (.agent j) = .enter k (.again x) →
      u.mem.safepoint.state ≠ x → u.ctl t = s.ctl t → Rousable u t := by
    intro u k x hu hx hut
    refine .later hjt (by rw [hu]; rfl) (Or.inl rfl) fun v _ hv hvt => ?_
    rw [if_neg hx] at hv
    exact leave hv (hvt.trans hut)
  have moved : ∀ {k : EnterK} {x : BitVec 32}, s.ctl (.agent j) = .enter k (.asleep x) ∨ s.ctl (.agent j) = .enter k (.first x) ∨
      s.ctl (.agent j) = .enter k (.again x) ∨ s.ctl (.agent j) = .enter k (.park x) → s.mem.safepoint.state ≠ x := by
    rintro k x hc rfl
    have := hr.snapshot j k s.mem.safepoint.state (Or.inr (by rcases hc with hc | hc | hc | hc <;> rw [State.roles, hc] <;> rfl))
    rw [hp] at this
    cases this
  cases hc : s.ctl (.agent j) with
  | enter k pc =>
    cases pc with
    | load =>
      rw [hc] at hj
      cases hj
    | arrive x =>
      refine .later hjt (by rw [hc]; rfl) (Or.inl rfl) fun v _ hv hvt => ?_
      exact .now hjt (by rw [hv]; rfl) (by rwa [hvt])
    | announce x => exact .now hjt (by rw [hc]; rfl) ht
    | first x =>
      refine .later hjt (by rw [hc]; rfl) (Or.inl rfl) fun v _ hv hvt => ?_
      rw [if_neg (moved (Or.inr (Or.inl hc)))] at hv
      exact leave hv hvt
    | again x => exact again hc (moved (Or.inr (Or.inr (Or.inl hc)))) rfl
    | park x =>
      have hx := moved (Or.inr (Or.inr (Or.inr hc)))
      refine .later hjt (by rw [hc]; rfl) (Or.inl rfl) fun v hm hv hvt => ?_
      rw [if_neg hx] at hv
      exact again hv (by rw [hm]; exact hx) hvt
    | asleep x =>
      -- Somebody is about to wake it up.
      have hx := moved (Or.inl hc)
      obtain ⟨u, hu⟩ := (hw.state _ k x hc).resolve_left hx
      obtain ⟨k', hu, he⟩ := wakeAll_step hu
      have huj : .agent j ≠ u := by
        rintro rfl
        rw [hc] at hu
        cases hu
      have hut : t ≠ u := by
        rintro rfl
        rw [hu] at hasleep
        cases hasleep
      have hstep : (cluster cfg).step s (u, .go) = some ⟨s.mem, (cluster cfg).signal (some (.word .state))
          (Function.update s.ctl u (.release k' .drain))⟩ := by
        simp [Program.step, cluster, he]
      refine .head (Ne.symm hut) hstep (again (k := k) (x := x) ?_ hx ?_)
      · simp [Program.signal, cluster, Function.update_of_ne huj, hc, awaken]
      · simpa [Program.signal, cluster, Function.update_of_ne hut] using hst
    | leave => exact leave hc rfl
    | tell => exact .now hjt (by rw [hc]; rfl) ht
  | _ =>
    rw [hc] at hj
    cases hj

/-- `t` is asleep at the barrier of a pending stop, and the cluster shuts down. -/
structure Behind (t : Tid cfg) (s : State cfg) : Prop where
  pending : pending s.mem.safepoint.state = true
  stopping : s.mem.stopping = true
  asleep : ∃ k x, s.ctl t = .enter k (.asleep x)

/-- A step of `u` that changes no memory leaves `t` there. -/
theorem Behind.later (h : Behind t s) (hu : u ≠ t) (he : exec u s.mem (s.ctl u) .go = some (s.mem, c', w))
    (hc : w = none ∨ ∀ r, awaken u r c' = c') (next : ∀ s' : State cfg, s'.mem = s.mem → s'.ctl u = c' → Behind t s' → Rousable s' t) :
    Rousable s t :=
  .later hu he hc fun v hm hv hvt => next v hm hv ⟨hm ▸ h.pending, hm ▸ h.stopping, hvt ▸ h.asleep⟩

section
variable {i : Fin cfg.agentCount} {k : Site}

theorem Behind.ne (h : Behind t s) (hc : ∀ k x, s.ctl (.agent i) ≠ .enter k (.asleep x)) : .agent i ≠ t := by
  rintro rfl
  obtain ⟨k, x, hs⟩ := h.asleep
  exact hc k x hs

theorem Behind.cas {x : BitVec 32} {hx} (h : Behind t s) (hc : s.ctl (.agent i) = .release (.stopTheWorld k) (.cas x hx))
    (hword : s.mem.safepoint.state = x) : Rousable s t := by
  have he : exec (.agent i) s.mem (s.ctl (.agent i)) .go =
      some ({ s.mem with safepoint := { s.mem.safepoint with state := s.mem.safepoint.state + 1 } },
        .release (.stopTheWorld k) .wakeAll, none) := by
    rw [hc]
    simp [exec, execOp, execRelease, Safepoint.release, hword]
  refine .later (h.ne (by simp [hc])) he (Or.inl rfl) fun v _ hv hvt => ?_
  obtain ⟨k', y, hs⟩ := h.asleep
  exact rousable_of_wakesAll (u := .agent i) (hvt.trans hs) (by rw [hv]; rfl)

theorem Behind.load (h : Behind t s) (hc : s.ctl (.agent i) = .release (.stopTheWorld k) .load) : Rousable s t := by
  have he : exec (.agent i) s.mem (s.ctl (.agent i)) .go =
      some (s.mem, .release (.stopTheWorld k) (.cas s.mem.safepoint.state h.pending), none) := by
    rw [hc]
    simp [exec, execOp, execRelease, Safepoint.release, releaseSeen, h.pending]
  exact h.later (h.ne (by simp [hc])) he (Or.inl rfl) fun v hm hv hb => hb.cas hv (by rw [hm])

/-- A word that is not the one seen is seen again. -/
theorem Behind.again {x : BitVec 32} {hx} (h : Behind t s) (hc : s.ctl (.agent i) = .release (.stopTheWorld k) (.cas x hx)) :
    Rousable s t := by
  by_cases hword : s.mem.safepoint.state = x
  · exact h.cas hc hword
  · have he : exec (.agent i) s.mem (s.ctl (.agent i)) .go =
        some (s.mem, .release (.stopTheWorld k) (.cas s.mem.safepoint.state h.pending), none) := by
      rw [hc]
      simp [exec, execOp, execRelease, Safepoint.release, releaseSeen, h.pending, hword]
    exact h.later (h.ne (by simp [hc])) he (Or.inl rfl) fun v hm hv hb => hb.cas hv (by rw [hm])

theorem Behind.inF (h : Behind t s) (hc : s.ctl (.agent i) = .stopTheWorld k .inF) : Rousable s t :=
  h.later (h.ne (i := i) (by simp [hc])) (by rw [hc]; rfl) (Or.inl rfl) fun _ _ hv hb => hb.load hv

theorem Behind.looks {n : BitVec 32} (h : Behind t s) (hc : s.ctl (.agent i) = .stopTheWorld k (.awaitAll (.stopping n))) :
    Rousable s t := by
  have he : exec (.agent i) s.mem (s.ctl (.agent i)) .go = some (s.mem, .release (.stopTheWorld k) .load, none) := by
    rw [hc]
    simp [exec, execOp, execStop, Safepoint.awaitAll, h.stopping, quiet]
  exact h.later (h.ne (by simp [hc])) he (Or.inl rfl) fun _ _ hv hb => hb.load hv

theorem Behind.awaits (h : Behind t s) (hc : s.ctl (.agent i) = .stopTheWorld k (.awaitAll .load)) : Rousable s t := by
  have hne := h.ne (i := i) (by simp [hc])
  by_cases hn : s.mem.others ≤ s.mem.safepoint.stopped
  · have he : exec (.agent i) s.mem (s.ctl (.agent i)) .go = some (s.mem, .stopTheWorld k .inF, none) := by
      rw [hc]
      simp [exec, execOp, execStop, Safepoint.awaitAll, hn, quiet]
    exact h.later hne he (Or.inl rfl) fun _ _ hv hb => hb.inF hv
  · have he : exec (.agent i) s.mem (s.ctl (.agent i)) .go =
        some (s.mem, .stopTheWorld k (.awaitAll (.stopping s.mem.safepoint.stopped)), none) := by
      rw [hc]
      simp [exec, execOp, execStop, Safepoint.awaitAll, hn, quiet]
    exact h.later hne he (Or.inl rfl) fun _ _ hv hb => hb.looks hv

theorem Behind.unparks {n d : ℕ} (h : Behind t s) (hd : cfg.agentCount - n = d)
    (hc : s.ctl (.agent i) = .stopTheWorld k (.unparkAll n)) : Rousable s t := by
  have hne := h.ne (i := i) (by simp [hc])
  induction d generalizing s n with
  | zero =>
    have he : exec (.agent i) s.mem (s.ctl (.agent i)) .go = some (s.mem, .stopTheWorld k (.awaitAll .load), none) := by
      rw [hc]
      simp [exec, execOp, execStop, quiet, Nat.sub_eq_zero_iff_le.mp hd]
    exact h.later hne he (Or.inl rfl) fun _ _ hv hb => hb.awaits hv
  | succ d ih =>
    have hn : n < cfg.agentCount := Nat.lt_of_sub_eq_succ hd
    have he : exec (.agent i) s.mem (s.ctl (.agent i)) .go =
        some (s.mem, .stopTheWorld k (.unparkAll (n + 1)), some (.slot ⟨n, hn⟩)) := by
      rw [hc]
      simp [exec, execOp, execStop, signals, hn]
    exact h.later hne he (Or.inr fun _ => rfl) fun v _ hv hb => ih hb (by rw [Nat.sub_succ, hd]; rfl) hv

end

/-- An agent that holds the pending stop gives it up and wakes whoever waits for the word. -/
theorem rousable_of_holds {i : Fin cfg.agentCount} (h : Behind t s) (hi : (s.roles i).holds = true)
    (hnp : (s.ctl (.agent i)).parksOn = none) (hns : (s.ctl (.agent i)).sleepsOn = none) : Rousable s t := by
  rw [State.roles] at hi
  cases hc : s.ctl (.agent i) with
  | stopTheWorld k pc =>
    rw [hc] at hi hnp hns
    cases pc with
    | request pc => cases hi
    | unparkAll n => exact h.unparks rfl hc
    | awaitAll pc =>
      cases pc with
      | load => exact h.awaits hc
      | stopping n => exact h.looks hc
      | park n => cases hnp
      | asleep n => cases hns
    | inF => exact h.inF hc
  | release k pc =>
    rw [hc] at hi
    rcases k with k | k | k
    · cases pc with
      | load => exact h.load hc
      | cas y hy => exact h.again hc
      | _ => cases hi
    · cases pc <;> cases hi
    · cases pc <;> cases hi
  | enter k pc =>
    rw [hc] at hi
    cases pc <;> cases hi
  | _ =>
    rw [hc] at hi
    cases hi

end

/-! ### Nobody sleeps on -/

/-- The runs of at most one stop at a time in which `shutdown` leaves nobody asleep, and stops it finds waiting are given up. -/
def ShutsCleanly (s : State cfg) (a : Act cfg) : Prop := OneStop s a ∧ LeavesSomeone s a ∧ ShortOfArrivals s a

instance (s : State cfg) (a : Act cfg) : Decidable (ShutsCleanly s a) := inferInstanceAs (Decidable (_ ∧ _ ∧ _))

/-- The steps that agent `i` has left in its operation. -/
def OwnSteps (i : Fin cfg.agentCount) (s : State cfg) (a : Act cfg) : Prop := ShutsCleanly s a ∧ a = (.agent i, .go)

section
variable {s₀ s₁ s : State cfg} {t : Tid cfg} {i : Fin cfg.agentCount}

theorem orderly_of_run (h : Reachable ShutsCleanly s) : Rounds s ∧ Watches s ∧ Closing s := by
  refine h.keeps_with (P := fun s => Rounds s ∧ Watches s ∧ Closing s) (Q := Reachable ShutsCleanly) (fun _ h => h) ?_ ?_
  · intro s a s' hreach ⟨hr, hw, hc⟩ ⟨hone, hleaves, hshort⟩ hstep
    have hext := external_of_run hreach
    have hext' := external_of_run (hreach.tail ⟨hone, hleaves, hshort⟩ hstep)
    have hatt := (attended_of_run hreach).shutdown
    have hr' := hr.step hext hext' hone hstep
    exact ⟨hr', hw.step hr hext hatt hstep, hc.step hr hr' hext hext' hatt hone.1 hleaves hstep⟩
  · have hstate : (State.init cfg).mem.safepoint = Safepoint.new := rfl
    refine ⟨⟨fun _ => by simp [State.init, Ctl.stopOp], fun _ => by simp [State.init, Ctl.stopOp], ?_, ?_, ?_, ?_⟩,
      ⟨?_, ?_, ?_, ?_, fun _ => rfl⟩, ⟨?_, ?_, ?_⟩⟩
    all_goals simp [State.init, State.roles, Ctl.stopOp, Ctl.role, Ctl.drainsFrom, Ctl.released, Ctl.swept]
    · simp [Mem.new, Safepoint.new, Role.counted, count_eq_zero]
    · simp [Mem.new, Safepoint.new, pending]

/-- What `shutdown` has done when it returns lasts. -/
theorem shut_of_run {k : Site} {n : ℕ} (h₀ : Reachable ShutsCleanly s₀) (ht : s₀.ctl t = .shutdown k (.notify n))
    (hn : cfg.agentCount ≤ n) (h : Run ShutsCleanly s₀ s) : Freed s ∧ ∀ i, Quiet i s := by
  obtain ⟨-, -, hc⟩ := orderly_of_run h₀
  refine h.keeps_with (P := fun s => Freed s ∧ ∀ i, Quiet i s) (Q := Reachable ShutsCleanly) (fun _ h => h₀.trans h) ?_ ?_
  · intro s a s' hreach ⟨hf, hq⟩ hok hstep
    have hreach' := hreach.tail hok hstep
    exact ⟨hf.step (orderly_of_run hreach').1 (external_of_run hreach') hok.1.1 hok.2.1 hstep, fun i => (hq i).step hstep⟩
  · exact ⟨hc.released t (by rw [ht]; rfl), fun i => hc.swept t i (by rw [ht]; exact i.isLt.trans_le hn)⟩

/-- An agent asleep on its slot was unparked, or is about to be. -/
theorem rousable_on_slot (hw : Watches s) (hq : Quiet i s) (hc : s.ctl (.agent i) = .run .asleep) : Rousable s (.agent i) := by
  have hslot : s.mem.slots i ≠ .parked := by
    intro hp
    rcases hq.2 hp with h | h <;> rw [hc] at h <;> cases h
  obtain ⟨u, hu⟩ := (hw.slot i hc).resolve_left hslot
  exact rousable_of_unparks hc hu

/-- An agent asleep at the barrier is woken by whoever moved the word, or by the one that still holds the stop. -/
theorem rousable_at_barrier {k : EnterK} {x : BitVec 32} (hr : Rounds s) (hw : Watches s) (hf : Freed s)
    (hc : s.ctl (.agent i) = .enter k (.asleep x)) : Rousable s (.agent i) := by
  rcases hw.state _ k x hc with hx | ⟨u, hu⟩
  · have hp := hr.snapshot i k x (Or.inr (by rw [State.roles, hc]; rfl))
    rw [← hx] at hp
    obtain ⟨j, hj⟩ := hr.held hp
    have lost : ∀ {v : Option (BitVec 32)}, (v ≠ none → pending s.mem.safepoint.state = false) → v = none := by
      intro v hv
      by_contra hne
      rw [hv hne] at hp
      cases hp
    exact rousable_of_holds ⟨hp, hf.stopping, k, x, hc⟩ hj (lost fun h => hf.lost j (Or.inl h))
      (lost fun h => hf.lost j (Or.inr h))
  · exact rousable_of_wakesAll hc hu

/-- Who drains the count is woken by an agent of the round before, which leaves. -/
theorem rousable_in_drain {k : ReleaseK} {n : BitVec 32} (hr : Rounds s) (hw : Watches s)
    (hext : ∀ x, (s.ctl (.ext x)).external = true) (hc : s.ctl t = .release k (.asleep n)) : Rousable s t := by
  have hasleep : (s.ctl t).asleep = true := by rw [hc]; rfl
  have hwoken : (awaken t (.word .stopped) (s.ctl t)).asleep = false := by simp [hc, awaken, Ctl.asleep]
  rcases k with k | k | k
  · rcases hw.stopped t _ n hc with hn | ⟨u, hu⟩
    · obtain ⟨j, hj⟩ : ∃ j, (s.roles j).counted = true := by
        by_contra hnone
        have hzero := hr.count.trans (count_eq_zero fun j => Bool.eq_false_iff.mpr fun hj => hnone ⟨j, hj⟩)
        exact hw.drainsFrom t n (by rw [hc]; rfl) (hn ▸ BitVec.eq_of_toNat_eq hzero)
      have hidle : pending s.mem.safepoint.state = false := by
        refine Bool.eq_false_iff.mpr fun hp => ?_
        obtain ⟨l, hl⟩ := hr.held hp
        obtain ⟨i, rfl⟩ := agent_of_external hext (t := t) (by rw [hc]; rfl)
        have hil := hr.single i l (by rw [hc]; rfl) (stopOp_of_holds hl)
        rw [← hil, State.roles, hc] at hl
        cases hl
      refine rousable_of_inBarrier hr hw hidle (inBarrier_of_counted hj) ?_ hasleep hwoken (by simp [hc, awaken])
      rintro rfl
      rw [State.roles, hc] at hj
      cases hj
    · exact rousable_of_tells hu hasleep hwoken
  · exact absurd (by rw [hc]; rfl) (hr.resumes t)
  · have := hw.lingers t
    rw [hc] at this
    cases this

/-- A requester that lost its stop is woken by the agent that is at the barrier. -/
theorem rousable_in_await {k : Site} {n : BitVec 32} (hr : Rounds s) (hw : Watches s) (hf : Freed s)
    (hc : s.ctl (.agent i) = .stopTheWorld k (.awaitAll (.asleep n))) : Rousable s (.agent i) := by
  have hsleeps : (s.ctl (.agent i)).sleepsOn ≠ none := by simp [hc, Ctl.sleepsOn]
  obtain ⟨j, hj⟩ := hf.manned i hsleeps
  refine rousable_of_inBarrier hr hw (hf.lost i (Or.inr hsleeps)) hj ?_ (by rw [hc]; rfl) (by simp [hc, awaken, Ctl.asleep])
    (by simp [hc, awaken])
  intro hji
  rw [hji, hc] at hj
  cases hj

/-- When `shutdown` has returned, somebody wakes every thread that is asleep. -/
theorem rousable_of_asleep (h : Reachable ShutsCleanly s) (hf : Freed s) (hq : ∀ i, Quiet i s)
    (ht : (s.ctl t).asleep = true) : Rousable s t := by
  obtain ⟨hr, hw, -⟩ := orderly_of_run h
  have hext := external_of_run h
  rcases where_asleep ht with hc | ⟨k, x, hc⟩ | ⟨k, n, hc⟩ | ⟨k, n, hc⟩
  · obtain ⟨i, rfl⟩ := agent_of_external hext (t := t) (by rw [hc]; rfl)
    exact rousable_on_slot hw (hq i) hc
  · obtain ⟨i, rfl⟩ := agent_of_external hext (t := t) (by rw [hc]; rfl)
    exact rousable_at_barrier hr hw hf hc
  · exact rousable_in_drain hr hw hext hc
  · obtain ⟨i, rfl⟩ := agent_of_external hext (t := t) (by rw [hc]; rfl)
    exact rousable_in_await hr hw hf hc

theorem declines_of_via {n : ℕ} {as : List (Act cfg)} (h₀ : Reachable ShutsCleanly s₀) (hd : Declines i n s₀)
    (h : Via (cluster cfg).step (fun s a => ShutsCleanly s a ∧ (a.1 = .agent i → a.2 ≠ .call .stopTheWorld)) s₀ as s) :
    Declines i (n + as.countP fun a => a.1 = .agent i) s := by
  induction h generalizing n with
  | nil => exact hd
  | @cons s u v a as hok hstep h ih =>
    have hu := h₀.tail hok.1 hstep
    have hd' := hd.step (orderly_of_run h₀).1 (orderly_of_run hu).1 (external_of_run h₀) (external_of_run hu) hok.1.1
      hok.1.2.2 hok.2 hstep
    have hv := ih hu hd'
    simp only [List.countP_cons, decide_eq_true_eq]
    rwa [Nat.add_comm (as.countP _), ← Nat.add_assoc]

theorem shutsCleanly_of_declines {d : ℕ} (hd : (s.ctl (.agent i)).declines = some d)
    (hpark : (s.ctl (.agent i)).parksOn = none) : ShutsCleanly s (.agent i, .go) := by
  obtain ⟨hfrees, hstops, harrives⟩ := passive_of_declines hd
  refine ⟨⟨by simp, by simp⟩, ⟨fun h => ?_, fun h => ?_⟩, fun _ => ⟨fun h => ?_, fun h => ?_⟩⟩
  · rw [hfrees] at h
    cases h
  · rw [hpark] at h
    cases h
  · rw [hstops] at h
    cases h
  · rw [harrives] at h
    cases h

theorem step_of_declines {d : ℕ} (hd : (s.ctl (.agent i)).declines = some d) (hawake : (s.ctl (.agent i)).asleep = false) :
    ((cluster cfg).step s (.agent i, .go)).isSome := by
  obtain ⟨r, hr⟩ := Option.isSome_iff_exists.mp (exec_of_declines (i := i) (m := s.mem) hd hawake)
  have he : (cluster cfg).exec (.agent i) s.mem (s.ctl (.agent i)) .go = some r := hr
  simp [Program.step, he]

/-- A requester that gives up, awake and not about to park, ends its call without the others. -/
theorem Declines.ends {n d : ℕ} (h : Declines i n s) (hr : Reachable ShutsCleanly s)
    (hd : (s.ctl (.agent i)).declines = some d) (hawake : (s.ctl (.agent i)).asleep = false)
    (hpark : (s.ctl (.agent i)).parksOn = none) :
    ∃ s' k, Run (OwnSteps i) s s' ∧ s'.ctl (.agent i) = Site.resume k := by
  induction d using Nat.strong_induction_on generalizing s n with
  | h d ih =>
    obtain ⟨s', hstep⟩ := Option.isSome_iff_exists.mp (step_of_declines hd hawake)
    obtain ⟨m, c, w, he, -, hctl⟩ := Program.step_inv hstep
    have hself : c.asleep = false → s'.ctl (.agent i) = c := fun hc =>
      Program.ctl_self (p := cluster cfg) (s := s) (a := (.agent i, .go)) hctl fun _ => awaken_of_awake hc
    have hok := shutsCleanly_of_declines hd hpark
    have hr' := hr.tail hok hstep
    rcases exec_declines he hd h.stopping h.short h.word with ⟨k, rfl⟩ | ⟨d', hd', hlt, hon⟩
    · exact ⟨s', k, .tail .refl ⟨hok, rfl⟩ hstep, hself (asleep_siteResume k)⟩
    · obtain ⟨hawake', hpark'⟩ := hon hpark
      have h' := h.step (orderly_of_run hr).1 (orderly_of_run hr').1 (external_of_run hr) (external_of_run hr') hok.1
        hok.2.2 (by simp) hstep
      have hc := hself hawake'
      rw [← hc] at hd' hawake' hpark'
      obtain ⟨s₁, k, hrun, hend⟩ := ih d' hlt h' hr' hd' hawake' hpark'
      exact ⟨s₁, k, .head ⟨hok, rfl⟩ hstep hrun, hend⟩

/-- In those runs, once `shutdown` has returned, every thread that is asleep is woken by the steps that the others
    have left in their operations. And a `stop_the_world` that waits when the cluster shuts down returns `None`: until it
    is over it does not run its closure, it can go on whenever it is awake, and it takes `agentCount + 8` steps at most;
    awake and not about to park, it gets to its end by its own steps alone. -/
theorem shutdown_wakes_all (h₀ : Reachable ShutsCleanly s₀) :
    (∀ t k n s₁ s, s₀.ctl t = .shutdown k (.notify n) → cfg.agentCount ≤ n → (cluster cfg).step s₀ (t, .go) = some s₁ →
      Run ShutsCleanly s₁ s → ∀ u, (s.ctl u).asleep = true → Rousable s u) ∧
    ∀ t k i s₁ as s, s₀.ctl t = .shutdown k .store → s₀.roles i = .owner → ShutsCleanly s₀ (t, .go) →
      (cluster cfg).step s₀ (t, .go) = some s₁ →
      Via (cluster cfg).step (fun s a => ShutsCleanly s a ∧ (a.1 = .agent i → a.2 ≠ .call .stopTheWorld)) s₁ as s →
      (s.ctl (.agent i)).stopOp = some .stopTheWorld →
      (∀ k', s.ctl (.agent i) ≠ .stopTheWorld k' .inF) ∧
        ((s.ctl (.agent i)).asleep = false → ((cluster cfg).step s (.agent i, .go)).isSome) ∧
        (as.countP fun a => a.1 = .agent i) ≤ cfg.agentCount + 8 ∧
        ((s.ctl (.agent i)).asleep = false → (s.ctl (.agent i)).parksOn = none →
          ∃ s' k', Run (OwnSteps i) s s' ∧ s'.ctl (.agent i) = Site.resume k') := by
  refine ⟨fun t k n s₁ s ht hn hstep h u hu => ?_, fun t k i s₁ as s ht hi hok hstep h hin => ?_⟩
  · have hok : ShutsCleanly s₀ (t, .go) :=
      ⟨⟨by simp, by simp⟩, by simp [LeavesSomeone, ht, Ctl.frees, Ctl.parksOn],
        by simp [ShortOfArrivals, ht, Ctl.stops, Ctl.arrives]⟩
    have hrun : Run ShutsCleanly s₀ s := .head hok hstep h
    obtain ⟨hf, hq⟩ := shut_of_run h₀ ht hn hrun
    exact rousable_of_asleep (h₀.trans hrun) hf hq hu
  · have hs₁ := h₀.tail hok hstep
    have hdeclines := declines_of_via hs₁ (declines_of_stop ht hi hok.2.2 hstep) h
    obtain ⟨d, hd, hle⟩ := hdeclines.place hin
    have hs : Reachable ShutsCleanly s := hs₁.trans (h.steps.mono fun _ _ hok => hok.1)
    refine ⟨fun k' hc => ?_, step_of_declines hd, (Nat.zero_add _).ge.trans ((Nat.le_add_right _ d).trans hle),
      hdeclines.ends hs hd⟩
    rw [hc] at hd
    cases hd

theorem shutdown_returns {k : Site} {n : ℕ} (ht : s.ctl t = .shutdown k (.notify n)) (hn : cfg.agentCount ≤ n) :
    (cluster cfg).step s (t, .go) = some ⟨s.mem, Function.update s.ctl t k.resume⟩ := by
  have he : exec t s.mem (s.ctl t) .go = some (s.mem, k.resume, none) := by
    rw [ht]
    cases t <;> simp [exec, execOp, execShutdown, not_lt.mpr hn, quiet]
  simp [Program.step, cluster, he, Program.signal]

section Three

/-- A requester sleeps in `await_all`, and the second agent is at the barrier when the third stays away. -/
private def awaited : List (Act Config.three) :=
  [Tid.calls (.agent 0) .stopTheWorld] ++ Tid.go (.agent 0) 2 ++ [Tid.calls (.agent 1) .run] ++ Tid.go (.agent 1) 7 ++
    Tid.go (.agent 0) 7 ++ [Tid.calls (.ext 0) .shutdown]

/-- The cluster shuts down, the second agent leaves the barrier, and the requester gives its stop up. -/
private def givenUp : List (Act Config.three) := Tid.go (.ext 0) 11 ++ Tid.go (.agent 1) 3 ++ Tid.go (.agent 0) 2

private abbrev declining (s : State Config.three) (a : Act Config.three) : Prop :=
  ShutsCleanly s a ∧ (a.1 = .agent 0 → a.2 ≠ .call .stopTheWorld)

/-- When `shutdown` has returned, the requester that sleeps is woken; and its call, found waiting when `stopping` was set,
    gets to `release` without its closure, and from there to its end. -/
theorem shutdown_wakes_all_three :
    (∃ s₀ s₁ : State Config.three, Reachable ShutsCleanly s₀ ∧ (cluster _).step s₀ (.ext 0, .go) = some s₁ ∧
      s₁.ctl (.agent 0) = .stopTheWorld .host (.awaitAll (.asleep 1)) ∧ Rousable s₁ (.agent 0)) ∧
    ∃ (s₀ s₁ s : State Config.three), Reachable ShutsCleanly s₀ ∧
      s₀.ctl (.agent 0) = .stopTheWorld .host (.awaitAll (.asleep 1)) ∧ (cluster _).step s₀ (.ext 0, .go) = some s₁ ∧
      Via (cluster _).step declining s₁ givenUp s ∧ s.ctl (.agent 0) = .release (.stopTheWorld .host) .load ∧
      ((cluster _).step s (.agent 0, .go)).isSome ∧ (givenUp.countP fun a => a.1 = .agent 0) ≤ 11 ∧
      ∃ s' k', Run (OwnSteps 0) s s' ∧ s'.ctl (.agent 0) = Site.resume k' := by
  constructor
  · obtain ⟨s₀, h₀, hq⟩ := reachable_of_actions ShutsCleanly (awaited ++ Tid.go (.ext 0) 12)
      (fun s : State Config.three => decide (s.ctl (.ext 0) = .shutdown .host (.notify 3) ∧
        s.ctl (.agent 0) = .stopTheWorld .host (.awaitAll (.asleep 1)))) (by decide +kernel)
    obtain ⟨ht, hi⟩ := of_decide_eq_true hq
    have hstep := shutdown_returns ht le_rfl
    have hi' : (Function.update s₀.ctl (.ext 0) Site.host.resume) (.agent 0) = .stopTheWorld .host (.awaitAll (.asleep 1)) := hi
    exact ⟨s₀, _, h₀, hstep, hi',
      (shutdown_wakes_all h₀).1 _ _ _ _ _ ht le_rfl hstep .refl _ ((congrArg Ctl.asleep hi').trans rfl)⟩
  · obtain ⟨s₀, h₀, hq⟩ := reachable_of_actions ShutsCleanly awaited
      (fun s : State Config.three => decide (s.ctl (.ext 0) = .shutdown .host .store ∧
        s.ctl (.agent 0) = .stopTheWorld .host (.awaitAll (.asleep 1)) ∧ ShutsCleanly s (.ext 0, .go)) &&
        ((cluster _).step s (.ext 0, .go)).any fun s₁ => (runActions (cluster _).step declining s₁ givenUp).any fun s : State Config.three =>
          decide (s.ctl (.agent 0) = .release (.stopTheWorld .host) .load)) (by decide +kernel)
    obtain ⟨hs, hq⟩ := Bool.and_eq_true_iff.mp hq
    obtain ⟨ht, hi, hok⟩ := of_decide_eq_true hs
    obtain ⟨s₁, hstep, hq⟩ := (Option.any_eq_true _ _).mp hq
    obtain ⟨s, hvia, hq⟩ := exists_via_of_runActions hq
    have hc := of_decide_eq_true hq
    obtain ⟨-, hnext, hle, hend⟩ := (shutdown_wakes_all h₀).2 _ _ 0 _ _ _ ht (by rw [State.roles, hi]; rfl) hok hstep hvia
      (by rw [hc]; rfl)
    exact ⟨s₀, s₁, s, h₀, hi, hstep, hvia, hc, hnext (by rw [hc]; rfl), hle, hend (by rw [hc]; rfl) (by rw [hc]; rfl)⟩

end Three

end

/-! ### A requester that nobody wakes -/

section
variable {t : Tid cfg} {m m' : Mem cfg} {c c' : Ctl cfg} {ch : Choice cfg} {w : Option (Addr cfg)}

/-- Only the functions of the safepoint wake anybody on its words. -/
theorem ExecCase.signals_aside {x : Word} (h : ExecCase t m c ch (m', c', w)) (hc : c.aside = true) : w ≠ some (.word x) := by
  rintro rfl
  cases h with
  | callHost h | callTask h =>
    obtain ⟨-, -, -, hw⟩ := execCall_inv h
    cases hw
  | suspend _ h =>
    unfold Parallel.suspend at h
    split at h <;> cases h
  | run _ h =>
    unfold execRun at h
    (repeat' split at h) <;> cases h
  | drive _ h =>
    unfold execDrive at h
    (repeat' split at h) <;> cases h
  | pop _ h =>
    unfold execPop at h
    split at h <;> cases h
  | steal _ h =>
    unfold execSteal at h
    split at h <;> cases h
  | push _ _ h =>
    unfold execPush at h
    split at h <;> cases h
  | park _ h =>
    unfold execPark at h
    split at h <;> cases h
  | notify h =>
    unfold execNotify at h
    (repeat' split at h) <;> cases h
  | hasWork h =>
    unfold execHasWork at h
    (repeat' split at h) <;> cases h
  | wake h =>
    simp only [execWake] at h
    split at h <;> cases h
  | _ => cases hc

end

/-- Agent `i` sleeps in `await_all` without a stop that is pending, and nobody else is in the safepoint. -/
structure Forsaken (i : Fin cfg.agentCount) (s : State cfg) : Prop where
  asleep : (s.ctl (.agent i)).sleepsOn ≠ none
  idle : pending s.mem.safepoint.state = false
  elsewhere : ∀ t, t ≠ .agent i → (s.ctl t).aside = true ∨ ∃ k, s.ctl t = .enter k .load

section
variable {s s' : State cfg} {i : Fin cfg.agentCount} {a : Act cfg}

theorem Forsaken.step (h : Forsaken i s) (ha : Others (.agent i) s a) (hstep : (cluster cfg).step s a = some s') :
    Forsaken i s' := by
  obtain ⟨m, c, w, he, rfl, hctl⟩ := step_inv hstep
  obtain ⟨hsp, hw, hc⟩ : s'.mem.safepoint = s.mem.safepoint ∧ (∀ x, w ≠ some (.word x)) ∧
      (c.aside = true ∨ ∃ k, c = .enter k .load) := by
    rcases h.elsewhere a.1 ha.1 with hc | ⟨k, hc⟩
    · obtain ⟨hsp, -, hc' | hc' | ⟨o, k, ho, -⟩⟩ := he.aside hc
      · exact ⟨hsp, fun _ => he.signals_aside hc, Or.inl hc'⟩
      · exact ⟨hsp, fun _ => he.signals_aside hc, Or.inr hc'⟩
      · exact absurd ho (ha.2.2 o)
    · rw [hc] at he
      generalize hch : a.2 = ch at he
      generalize s'.mem = m' at he ⊢
      cases he with
      | enter he =>
        simp only [execEnter, Safepoint.enter, h.idle] at he
        cases he
        exact ⟨rfl, by simp, Or.inl (aside_enterResume k)⟩
      | spurious he => exact absurd hch ha.2.1
  refine ⟨?_, by rw [hsp, h.idle], ?_⟩
  · rcases Program.ctl_other hctl (Ne.symm ha.1) with hi | ⟨r, rfl, hi⟩
    · exact hi ▸ h.asleep
    · obtain ⟨n, hn⟩ := Option.ne_none_iff_exists'.mp h.asleep
      obtain ⟨k, hk⟩ := sleepsOn_eq hn
      rw [hi, hk]
      cases r with
      | slot j => simp [cluster, awaken, Ctl.sleepsOn]
      | word x => exact absurd rfl (hw x)
  · refine Program.forall_ctl (P := fun t c => t ≠ .agent i → c.aside = true ∨ ∃ k, c = .enter k .load) 
      (fun t r c hP ht => ?_) hctl (fun _ => hc) (fun t _ => h.elsewhere t)
    show (awaken t r c).aside = true ∨ ∃ k, awaken t r c = .enter k .load
    unfold awaken
    split <;> (try split) <;> first | exact hP ht | exact Or.inl rfl | (rcases hP ht with h | ⟨k, h⟩ <;> cases h)

/-- Nothing that the others still do wakes it. -/
theorem Forsaken.not_rousable (h : Forsaken i s) : ¬Rousable s (.agent i) := by
  rintro ⟨s', hs', hawake⟩
  have := asleep_of_sleepsOn (hs'.keeps (P := Forsaken i) (fun _ _ _ h ha hstep => h.step ha hstep) h).asleep
  rw [hawake] at this
  cases this

end

section Two
/-- The steps of two agents and one other thread. -/
private abbrev among (s : State Config.two) (a : Act Config.two) : Prop :=
  OneStop s a ∧ (a.1 = .agent 0 ∨ a.1 = .agent 1 ∨ a.1 = .ext 0)

/-- The second agent steps a task; the first goes to sleep in `await_all`; an external thread shuts the cluster down. -/
private def orphaned : List (Act Config.two) :=
  [Tid.calls (.agent 1) .spawn] ++ Tid.go (.agent 1) 5 ++ [Tid.calls (.agent 1) (.driveOnce .worker)] ++ Tid.go (.agent 1) 7 ++
  [Tid.calls (.agent 0) .stopTheWorld] ++ Tid.go (.agent 0) 8 ++ [Tid.calls (.ext 0) .shutdown] ++ Tid.go (.ext 0) 9

/-- Two agents: the second is in a task's step when the cluster shuts down, and never polls. The first waits for it in
    `await_all`, and sleeps on when `shutdown` has returned. -/
theorem shutdown_leaves_requester_asleep :
    ∃ s₀ s₁ : State (.new 2 (by decide) (by decide)), Reachable OneStop s₀ ∧
      s₀.ctl (.ext 0) = .shutdown .host (.notify 2) ∧ (cluster _).step s₀ (.ext 0, .go) = some s₁ ∧
      s₁.ctl (.agent 0) = .stopTheWorld .host (.awaitAll (.asleep 0)) ∧ (∃ p j, s₁.ctl (.agent 1) = .task p j) ∧
      ¬Rousable s₁ (.agent 0) := by
  obtain ⟨s₀, h₀, hq⟩ := reachable_of_actions among orphaned
    (fun s : State (.new 2 (by decide) (by decide)) => decide (s.ctl (.ext 0) = .shutdown .host (.notify 2) ∧
      s.ctl (.agent 0) = .stopTheWorld .host (.awaitAll (.asleep 0)) ∧
      s.ctl (.agent 1) = .task ⟨.worker, false, 0⟩ ⟨1, 0⟩ ∧ pending s.mem.safepoint.state = false)) (by decide +kernel)
  obtain ⟨ht, hi, hj, hp⟩ := of_decide_eq_true hq
  have hhost : ∀ k, k ≠ 0 → s₀.ctl (.ext k) = .host := by
    refine h₀.keeps (P := fun s => ∀ k, k ≠ 0 → s.ctl (.ext k) = .host) ?_ fun _ _ => rfl
    rintro s a s' ih ⟨-, ha⟩ hstep k hk
    obtain ⟨m, c, w, -, -, hctl⟩ := step_inv hstep
    have hka : .ext k ≠ a.1 := by
      rcases ha with ha | ha | ha <;> rw [ha] <;> simp [hk]
    rcases Program.ctl_other hctl hka with hc | ⟨r, -, hc⟩ <;> rw [hc, ih k hk]
    rfl
  have hj' : (Function.update s₀.ctl (.ext 0) Site.host.resume) (.agent 1) = .task ⟨.worker, false, 0⟩ ⟨1, 0⟩ := hj
  have hi' : (Function.update s₀.ctl (.ext 0) Site.host.resume) (.agent 0) = .stopTheWorld .host (.awaitAll (.asleep 0)) := hi
  refine ⟨s₀, _, h₀.mono fun _ _ h => h.1, ht, shutdown_returns ht le_rfl, hi', ⟨_, _, hj'⟩,
    Forsaken.not_rousable ⟨by simp [hi, Ctl.sleepsOn], hp, fun t hta => Or.inl ?_⟩⟩
  cases t with
  | agent j =>
    obtain rfl | rfl : j = 0 ∨ j = 1 := by revert j; decide
    · exact absurd rfl hta
    · exact (congrArg Ctl.aside hj').trans rfl
  | ext k =>
    obtain rfl | hk := eq_or_ne k 0
    · simp [Site.resume, Ctl.aside]
    · simp [hk, hhost k hk, Ctl.aside]

end Two

end Krio.Parallel
