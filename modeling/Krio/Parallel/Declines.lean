import Krio.Parallel.Closing

/-! A stop of the world that waits when the cluster shuts down. While the others have not all arrived it is given up: its
closure does not run, and the call is over after a bounded number of steps of the requester. -/

namespace Krio.Parallel
open Lib Safepoint

variable {cfg : Config}

namespace Ctl

/-- About to set `stopping`. -/
def stops : Ctl cfg → Bool
  | .shutdown _ .store => true
  | _ => false

/-- About to be counted at the barrier. -/
def arrives : Ctl cfg → Bool
  | .enter _ (.arrive _) => true
  | _ => false

/-- How many steps of its own a requester has left until its call of `stop_the_world` is over, when it gives up. -/
def declines : Ctl cfg → Option ℕ
  | .stopTheWorld _ (.unparkAll n) => some (cfg.agentCount - n + 8)
  | .stopTheWorld _ (.awaitAll (.park _)) => some 8
  | .stopTheWorld _ (.awaitAll (.asleep _)) | .stopTheWorld _ (.awaitAll .load) => some 7
  | .stopTheWorld _ (.awaitAll (.stopping _)) => some 6
  | .release (.stopTheWorld _) .load => some 5
  | .release (.stopTheWorld _) (.cas _ _) => some 4
  | .release (.stopTheWorld _) .wakeAll => some 3
  | .release (.stopTheWorld _) .drain => some 2
  | .release (.stopTheWorld _) (.stopping _) => some 1
  | _ => none

end Ctl

/-- While a requester waits, `stopping` is not set when all the others have arrived, and nobody who arrives after it was
    set is the last to do so. -/
def ShortOfArrivals (s : State cfg) (a : Act cfg) : Prop :=
  (∃ i, s.roles i = .owner) →
    ((s.ctl a.1).stops = true → ¬s.mem.others ≤ s.mem.safepoint.stopped) ∧
    ((s.ctl a.1).arrives = true → s.mem.stopping = true → ¬s.mem.others ≤ s.mem.safepoint.stopped + 1)

instance (s : State cfg) (a : Act cfg) : Decidable (ShortOfArrivals s a) :=
  inferInstanceAs (Decidable ((∃ _ : Fin _, _) → (_ → _) ∧ (_ → _ → _)))

/-- After `stopping` was set, and `n` steps of agent `i`, whose stop the cluster's shutdown found waiting. -/
structure Declines (i : Fin cfg.agentCount) (n : ℕ) (s : State cfg) : Prop where
  stopping : s.mem.stopping = true
  short : s.roles i = .owner → ¬s.mem.others ≤ s.mem.safepoint.stopped
  word : ∀ k x hx, s.ctl (.agent i) = .release (.stopTheWorld k) (.cas x hx) →
    s.mem.safepoint.state = x ∨ pending s.mem.safepoint.state = false
  place : (s.ctl (.agent i)).stopOp = some .stopTheWorld →
    ∃ m, (s.ctl (.agent i)).declines = some m ∧ n + m ≤ cfg.agentCount + 8

section
variable {s s' : State cfg} {a : Act cfg} {i : Fin cfg.agentCount} {n : ℕ} {m m' : Mem cfg} {c c' : Ctl cfg}
  {w : Option (Addr cfg)} {ok : State cfg → Act cfg → Prop}

theorem awaken_declines {d : ℕ} (t : Tid cfg) (r : Addr cfg) (h : c.declines = some d) : (awaken t r c).declines = some d := by
  unfold awaken
  split <;> (try split) <;> first | exact h | (rename_i k _ _; cases k <;> cases h)

theorem awaken_of_awake {t : Tid cfg} {r : Addr cfg} (h : c.asleep = false) : awaken t r c = c := by
  unfold awaken
  split <;> first | rfl | cases h

theorem stopOp_siteResume (k : Site) : (k.resume : Ctl cfg).stopOp ≠ some .stopTheWorld := by
  cases k <;> simp [Site.resume, Ctl.stopOp]

/-- A requester that gives up is at the end of its call after its step or one step closer, and awake unless it was about
    to park. -/
theorem exec_declines {d : ℕ} (he : exec (.agent i) m c .go = some (m', c', w)) (hd : c.declines = some d)
    (hstop : m.stopping = true) (hshort : c.role = .owner → ¬m.others ≤ m.safepoint.stopped)
    (hword : ∀ k x hx, c = .release (.stopTheWorld k) (.cas x hx) → m.safepoint.state = x ∨ pending m.safepoint.state = false) :
    (∃ k : Site, c' = k.resume) ∨
      ∃ d', c'.declines = some d' ∧ d' + 1 ≤ d ∧ (c.parksOn = none → c'.asleep = false ∧ c'.parksOn = none) := by
  cases c with
  | stopTheWorld k pc =>
    cases pc with
    | request pc => cases hd
    | inF => cases hd
    | unparkAll l =>
      simp only [exec, execOp, execStop] at he
      obtain rfl := Option.some.inj hd
      split at he <;> cases he
      · exact .inr ⟨_, rfl, by omega, fun _ => ⟨rfl, rfl⟩⟩
      · exact .inr ⟨_, rfl, by omega, fun _ => ⟨rfl, rfl⟩⟩
    | awaitAll pc =>
      simp only [exec, execOp, execStop] at he
      cases pc with
      | load =>
        simp only [Safepoint.awaitAll, if_neg (hshort rfl)] at he
        obtain rfl := Option.some.inj hd
        cases he
        exact .inr ⟨6, rfl, by omega, fun _ => ⟨rfl, rfl⟩⟩
      | stopping l =>
        simp only [Safepoint.awaitAll, hstop, if_true] at he
        obtain rfl := Option.some.inj hd
        cases he
        exact .inr ⟨5, rfl, by omega, fun _ => ⟨rfl, rfl⟩⟩
      | park l =>
        simp only [Safepoint.awaitAll] at he
        obtain rfl := Option.some.inj hd
        cases he
        split <;> exact .inr ⟨7, rfl, by omega, fun hpark => by cases hpark⟩
      | asleep l => cases he
  | release k pc =>
    rcases k with k | k | k
    · simp only [exec, execOp, execRelease] at he
      cases pc with
      | load =>
        obtain rfl := Option.some.inj hd
        simp only [Safepoint.release, releaseSeen] at he
        split at he <;> rename_i hr <;> cases he
        · split at hr <;> cases hr
          exact .inr ⟨4, rfl, by omega, fun _ => ⟨rfl, rfl⟩⟩
        · exact .inl ⟨k, rfl⟩
      | cas x hx =>
        obtain rfl := Option.some.inj hd
        simp only [Safepoint.release] at he
        by_cases heq : m.safepoint.state = x
        · simp only [if_pos heq] at he
          cases he
          exact .inr ⟨3, rfl, by omega, fun _ => ⟨rfl, rfl⟩⟩
        · have hidle : ¬pending m.safepoint.state = true := by simp [(hword k x hx rfl).resolve_left heq]
          simp only [if_neg heq, releaseSeen, dif_neg hidle] at he
          cases he
          exact .inl ⟨k, rfl⟩
      | wakeAll =>
        obtain rfl := Option.some.inj hd
        cases he
        exact .inr ⟨2, rfl, by omega, fun _ => ⟨rfl, rfl⟩⟩
      | drain =>
        obtain rfl := Option.some.inj hd
        simp only [Safepoint.release] at he
        split at he <;> rename_i hr <;> cases he
        · split at hr <;> cases hr
          exact .inr ⟨1, rfl, by omega, fun _ => ⟨rfl, rfl⟩⟩
        · exact .inl ⟨k, rfl⟩
      | stopping l =>
        simp only [Safepoint.release, hstop, if_true] at he
        cases he
        exact .inl ⟨k, rfl⟩
      | _ => cases hd
    · cases hd
    · cases hd
  | _ => cases hd

/-- A requester that gives up neither sets `stopping` nor moves the word for `shutdown`, and is at no barrier. -/
theorem passive_of_declines {d : ℕ} (hd : c.declines = some d) : c.frees = none ∧ c.stops = false ∧ c.arrives = false := by
  unfold Ctl.declines at hd
  split at hd <;> first | exact ⟨rfl, rfl, rfl⟩ | cases hd

/-- It can take its next step while it is awake. -/
theorem exec_of_declines {d : ℕ} (hd : c.declines = some d) (hc : c.asleep = false) : (exec (.agent i) m c .go).isSome := by
  unfold Ctl.declines at hd
  split at hd <;> cases hd <;> simp only [exec, execOp, execStop, execRelease, Safepoint.awaitAll, Safepoint.release]
  · split <;> rfl
  · rfl
  · cases hc
  · split <;> rename_i h <;> (try rfl)
    simp at h
  · split <;> rename_i h <;> (try rfl)
    simp at h
  · split <;> rename_i h <;> (try rfl)
    simp at h
  · split <;> rename_i h <;> (try rfl)
    split at h <;> cases h
  · rfl
  · split <;> rename_i h <;> (try rfl)
    simp at h
  · split <;> rename_i h <;> (try rfl)
    simp at h

/-- The count falls short of the others as long as nobody who arrives completes it. -/
theorem ExecCase.short {t : Tid cfg} {ch : Choice cfg} (h : ExecCase t m c ch (m', c', w))
    (hcount : c.role.counted = true → m.safepoint.stopped ≠ 0) (hshort : ¬m.others ≤ m.safepoint.stopped)
    (harr : c.arrives = true → ¬m.others ≤ m.safepoint.stopped + 1) : ¬m'.others ≤ m'.safepoint.stopped := by
  have hothers : m'.others = m.others := rfl
  rw [hothers]
  cases h.word with
  | same hsp => rwa [hsp]
  | request _ hsp _ => rwa [hsp]
  | release _ hsp _ => rwa [hsp]
  | arrive hc hsp _ =>
    rw [hsp]
    exact harr (by rw [hc]; rfl)
  | leave hc hsp _ =>
    rw [hsp]
    have hne := hcount (by rw [hc]; rfl)
    bv_omega

/-- A word that the requester does not find as it saw it is not pending: nobody else has a stop. -/
theorem Declines.word_other (h : Declines i n s) (hr' : Rounds s') (hi : a.1 ≠ .agent i) (hext' : ∀ x, (s'.ctl (.ext x)).external = true)
    (he : ExecCase a.1 s.mem (s.ctl a.1) a.2 (s'.mem, c, w)) (hself : (s'.ctl a.1).role = c.role ∧ (s'.ctl a.1).stopOp = c.stopOp)
    {k : Site} {x : BitVec 32} {hx : pending x = true} (hc : s.ctl (.agent i) = .release (.stopTheWorld k) (.cas x hx))
    (hop : (s'.ctl (.agent i)).stopOp = some .stopTheWorld) :
    s'.mem.safepoint.state = x ∨ pending s'.mem.safepoint.state = false := by
  have hold := h.word k x hx hc
  cases he.word with
  | same hsp => rwa [hsp]
  | arrive _ hsp _ => rwa [hsp]
  | leave _ hsp _ => rwa [hsp]
  | release _ hsp _ =>
    right
    rw [hsp, pending_add_one]
    simp [*]
  | request _ hsp how =>
    exfalso
    rcases how with how | how
    · have howner : (s'.ctl a.1).role = .owner := hself.1.trans how
      cases ha : a.1 with
      | agent j =>
        rw [ha] at howner hi
        exact hi (congrArg Tid.agent (hr'.single j i (stopOp_of_owner howner) hop))
      | ext y =>
        rw [ha] at howner
        rcases role_external (hext' y) with hrole | hrole <;> rw [hrole] at howner <;> cases howner
    · exact hr'.requests a.1 (hself.2.trans how)

theorem role_of_declines {d : ℕ} (h : c.declines = some d) : c.role ≠ .none := by
  unfold Ctl.declines at h
  split at h <;> first | exact Role.noConfusion | cases h

/-- A thread that waits for a stop waited before, or had no role. -/
theorem Barrier.Step.of_to_owner {others : BitVec 32} {stopping foreign : Bool} {sp sp' : Safepoint} {r : Role}
    (h : Barrier.Step others stopping foreign sp r sp' .owner) : r = .owner ∨ r = .none := by
  cases h with
  | idle => exact .inl rfl
  | request => exact .inr rfl

theorem go_of_declines {t : Tid cfg} {ch : Choice cfg} {r : Mem cfg × Ctl cfg × Option (Addr cfg)} {d : ℕ}
    (he : exec t m c ch = some r) (hd : c.declines = some d) (hch : ch ≠ .spurious) : ch = .go := by
  unfold Ctl.declines at hd
  cases ch with
  | go => rfl
  | spurious => exact absurd rfl hch
  | _ => split at hd <;> cases hd <;> cases t <;> cases he

theorem cas_of_awaken {t : Tid cfg} {r : Addr cfg} {k : Site} {x : BitVec 32} {hx : pending x = true}
    (h : awaken t r c = .release (.stopTheWorld k) (.cas x hx)) : c = .release (.stopTheWorld k) (.cas x hx) := by
  unfold awaken at h
  split at h <;> (try split at h) <;> first | exact h | cases h

theorem releaseSeen_cas {y x : BitVec 32} {hx : pending x = true} (h : releaseSeen y = .next (.cas x hx)) : y = x := by
  unfold releaseSeen at h
  split at h <;> cases h
  rfl

/-- Whoever is about to move the word has just seen it. -/
theorem release_to_cas {sp sp' : Safepoint} {stopping : Bool} {pc : ReleasePc} {x : BitVec 32} {hx : pending x = true}
    {y : Option Word} (h : sp.release stopping pc = some (sp', .next (.cas x hx), y)) : sp'.state = x := by
  cases pc with
  | load =>
    simp only [Safepoint.release, Option.some.injEq, Prod.mk.injEq] at h
    obtain ⟨rfl, h, -⟩ := h
    exact releaseSeen_cas h
  | cas z hz =>
    simp only [Safepoint.release] at h
    split at h <;> simp only [Option.some.injEq, Prod.mk.injEq] at h
    · cases h.2.1
    · obtain ⟨rfl, h, -⟩ := h
      exact releaseSeen_cas h
  | drain | stopping z | park z =>
    simp only [Safepoint.release, Option.some.injEq, Prod.mk.injEq] at h
    obtain ⟨-, h, -⟩ := h
    split at h <;> cases h
  | _ => cases h

theorem exec_cas {k : Site} {x : BitVec 32} {hx : pending x = true}
    (he : exec (.agent i) m c .go = some (m', .release (.stopTheWorld k) (.cas x hx), w)) : m'.safepoint.state = x := by
  obtain hpc | ⟨hch, -⟩ | ⟨pc, sp, y, rfl, hr⟩ := (exec_inv he).inRelease
  · cases hpc
  · cases hch
  · simp only [exec, execOp, execRelease, hr] at he
    cases he
    exact release_to_cas hr

theorem Declines.step (h : Declines i n s) (hr : Rounds s) (hr' : Rounds s') (hext : ∀ x, (s.ctl (.ext x)).external = true)
    (hext' : ∀ x, (s'.ctl (.ext x)).external = true)
    (hone : OneStop s a) (hshort : ShortOfArrivals s a) (hcall : a.1 = .agent i → a.2 ≠ .call .stopTheWorld)
    (hstep : (cluster cfg).step s a = some s') : Declines i (n + if a.1 = .agent i then 1 else 0) s' := by
  have hbar := (barrier_inv hstep).2
  obtain ⟨m, c, w, hex, rfl, hctl⟩ := Program.step_inv hstep
  have he := exec_inv hex
  have hself : (s'.ctl a.1).role = c.role ∧ (s'.ctl a.1).stopOp = c.stopOp :=
    ⟨Program.view_self (v := fun _ c => c.role) awaken_role hctl, Program.view_self (v := fun _ c => c.stopOp) awaken_stopOp hctl⟩
  -- Who steps at the barrier is counted.
  have hcount : (s.ctl a.1).role.counted = true → s.mem.safepoint.stopped ≠ 0 := by
    intro hc hzero
    cases ha : a.1 with
    | agent j =>
      have hnone := eq_false_of_count_eq_zero (hr.count.symm.trans (congrArg BitVec.toNat hzero)) j
      rw [State.roles, ← ha, hc] at hnone
      cases hnone
    | ext x =>
      rw [ha] at hc
      rcases role_external (hext x) with hrole | hrole <;> rw [hrole] at hc <;> cases hc
  have hshort' : s.roles i = .owner → ¬s'.mem.others ≤ s'.mem.safepoint.stopped := fun howner =>
    he.short hcount (h.short howner) fun harr => (hshort ⟨i, howner⟩).2 harr h.stopping
  by_cases hi : a.1 = .agent i
  · rw [hi] at hself hex hctl he
    -- It was in the call before.
    have hin : c.stopOp = some .stopTheWorld → ∃ d, (s.ctl (.agent i)).declines = some d ∧ n + d ≤ cfg.agentCount + 8 := by
      intro hc
      refine h.place (not_not.mp fun hno => he.avoids hno (fun o ho hop => hcall hi ?_) hc)
      cases o <;> cases hop
      exact ho
    have hgo : ∀ {d}, (s.ctl (.agent i)).declines = some d → a.2 = .go := fun hd => go_of_declines hex hd hone.1
    refine ⟨he.shutting.1 h.stopping, fun howner => hshort' ?_, fun k x hx hc => .inl ?_, fun hop => ?_⟩
    · obtain ⟨d, hd, -⟩ := hin (hself.2.symm.trans (stopOp_of_owner howner))
      have hstep := he.barrier
      rw [← hself.1, show (s'.ctl (.agent i)).role = _ from howner] at hstep
      exact hstep.of_to_owner.resolve_right (role_of_declines hd)
    · obtain ⟨d, hd, -⟩ := hin (hself.2.symm.trans (by rw [hc]; rfl))
      rw [hgo hd] at hex
      obtain rfl : c = .release (.stopTheWorld k) (.cas x hx) := by
        rcases Program.ctl_acting (p := cluster cfg) (a := (.agent i, a.2)) hctl with heq | ⟨r, -, heq⟩
        · exact heq.symm.trans hc
        · exact cas_of_awaken (heq.symm.trans hc)
      exact exec_cas hex
    · obtain ⟨d, hd, hle⟩ := hin (hself.2.symm.trans hop)
      rw [hgo hd] at hex
      rcases exec_declines hex hd h.stopping h.short h.word with ⟨k, rfl⟩ | ⟨d', hd', hlt, -⟩
      · exact absurd (hself.2.symm.trans hop) (stopOp_siteResume k)
      · refine ⟨d', ?_, ?_⟩
        · rcases Program.ctl_acting (p := cluster cfg) (a := (.agent i, a.2)) hctl with heq | ⟨r, -, heq⟩
          · rw [heq, hd']
          · rw [heq]
            exact awaken_declines _ r hd'
        · rw [if_pos hi]
          omega
  · -- Somebody else steps, and may wake the requester.
    have hop : (s'.ctl (.agent i)).stopOp = (s.ctl (.agent i)).stopOp :=
      Program.view_other (v := fun _ c => c.stopOp) awaken_stopOp hctl (Ne.symm hi)
    refine ⟨he.shutting.1 h.stopping, fun howner => hshort' ((hbar _ (Ne.symm hi)).symm.trans howner), fun k x hx hc => ?_,
      fun hin => ?_⟩
    · have hold : s.ctl (.agent i) = .release (.stopTheWorld k) (.cas x hx) := by
        rcases Program.ctl_other hctl (Ne.symm hi) with heq | ⟨r, -, heq⟩
        · exact heq.symm.trans hc
        · exact cas_of_awaken (heq.symm.trans hc)
      exact h.word_other hr' hi hext' he hself hold (by rw [hc]; rfl)
    · rw [if_neg hi, Nat.add_zero]
      obtain ⟨m, hm, hle⟩ := h.place (hop.symm.trans hin)
      refine ⟨m, ?_, hle⟩
      rcases Program.ctl_other hctl (Ne.symm hi) with heq | ⟨r, -, heq⟩
      · rw [heq, hm]
      · rw [heq]
        exact awaken_declines _ r hm

/-- A shutdown finds a requester that waits, and not all the others at the barrier. -/
theorem declines_of_stop {t : Tid cfg} {k : Site} (ht : s.ctl t = .shutdown k .store) (hi : s.roles i = .owner)
    (hshort : ShortOfArrivals s (t, .go)) (hstep : (cluster cfg).step s (t, .go) = some s') : Declines i 0 s' := by
  have hti : .agent i ≠ t := by
    rintro rfl
    rw [State.roles, ht] at hi
    cases hi
  obtain rfl : (⟨{ s.mem with stopping := true }, Function.update s.ctl t (.release (.shutdown k) .load)⟩ : State cfg) = s' := by
    have he : exec t s.mem (s.ctl t) .go = some ({ s.mem with stopping := true }, .release (.shutdown k) .load, none) := by
      rw [ht]
      cases t <;> rfl
    simpa [Program.step, cluster, he, Program.signal] using hstep
  have hctl : Function.update s.ctl t (.release (.shutdown k) .load) (.agent i) = s.ctl (.agent i) := Function.update_of_ne hti ..
  refine ⟨rfl, fun _ => (hshort ⟨i, hi⟩).1 (by rw [ht]; rfl), fun k' x hx hc => ?_, fun _ => ?_⟩
  · rw [State.roles, hctl.symm.trans hc] at hi
    cases hi
  · show ∃ m, (Function.update s.ctl t (.release (.shutdown k) .load) (.agent i)).declines = some m ∧ 0 + m ≤ cfg.agentCount + 8
    rw [hctl]
    rw [State.roles] at hi
    generalize s.ctl (.agent i) = c at hi
    unfold Ctl.role at hi
    split at hi <;> cases hi
    · exact ⟨_, rfl, by omega⟩
    · rename_i pc
      cases pc <;> exact ⟨_, rfl, by omega⟩

end

end Krio.Parallel
