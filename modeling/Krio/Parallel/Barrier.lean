import Krio.Lib.Count
import Krio.Parallel.Inversion

/-! What the steps of a cluster do at the stop-the-world barrier. A thread's control state has a role at
the barrier; a step of a thread changes its own role and the barrier's words in one of the ways of
`Barrier.Step`, and every other function of the cluster leaves both alone. -/

namespace Krio.Parallel
open Lib Safepoint

/-- The role of a thread at the barrier. -/
inductive Role
  | none
  /-- It took the snapshot `s` and is not counted yet. -/
  | snapped (k : EnterK) (s : BitVec 32)
  /-- It is counted, and waits for the word to move from `s`. -/
  | waiting (k : EnterK) (s : BitVec 32)
  /-- It is counted, and saw the word move. -/
  | leaving (k : EnterK)
  /-- It requested a stop and waits for the others. -/
  | owner
  | inF
  | releasing
  | draining
  deriving DecidableEq

namespace Role

/-- Counted in `stopped`. -/
def counted : Role → Bool
  | .waiting _ _ | .leaving _ => true
  | _ => false

/-- Its `stop_the_world` holds a stop. -/
def holds : Role → Bool
  | .owner | .inF | .releasing => true
  | _ => false

/-- The others have arrived for its stop. -/
def stops : Role → Bool
  | .inF | .releasing => true
  | _ => false

end Role

namespace Ctl
variable {cfg : Config}

def role : Ctl cfg → Role
  | .enter k (.arrive s) => .snapped k s
  | .enter k (.announce s) | .enter k (.first s) | .enter k (.again s) | .enter k (.park s) | .enter k (.asleep s) =>
    .waiting k s
  | .enter k .leave => .leaving k
  | .stopTheWorld _ (.unparkAll _) | .stopTheWorld _ (.awaitAll _) => .owner
  | .stopTheWorld _ .inF => .inF
  | .release (.stopTheWorld _) .load | .release (.stopTheWorld _) (.cas _ _) => .releasing
  | .release _ .wakeAll | .release _ .drain | .release _ (.stopping _) | .release _ (.nudge _) | .release _ (.park _)
  | .release _ (.asleep _) => .draining
  | _ => .none

/-- In `request_safepoint`, `resume_world` or `shutdown`. -/
def foreign : Ctl cfg → Bool
  | .requestSafepoint _ _ | .shutdown _ _ | .release (.resumeWorld _) _ | .release (.shutdown _) _ => true
  | _ => false

end Ctl

/-- What a step of a thread does to the barrier's words and to the thread's role; `foreign` is whether the
    thread is in one of `request_safepoint`, `resume_world` and `shutdown`. -/
inductive Barrier.Step (others : BitVec 32) (stopping foreign : Bool) : Safepoint → Role → Safepoint → Role → Prop
  | idle (sp r) : Step others stopping foreign sp r sp r
  | snap (sp k) : pending sp.state = true → Step others stopping foreign sp .none sp (.snapped k sp.state)
  | arrive (sp k s) : Step others stopping foreign sp (.snapped k s) { sp with stopped := sp.stopped + 1 } (.waiting k s)
  | see (sp k s) : sp.state ≠ s → Step others stopping foreign sp (.waiting k s) sp (.leaving k)
  | leave (sp k) : Step others stopping foreign sp (.leaving k) { sp with stopped := sp.stopped - 1 } .none
  | request (sp) : pending sp.state = false → Step others stopping foreign sp .none { sp with state := sp.state + 1 } .owner
  | requestSafepoint (sp) : foreign = true → pending sp.state = false →
      Step others stopping foreign sp .none { sp with state := sp.state + 1 } .none
  | arrived (sp) : others ≤ sp.stopped → Step others stopping foreign sp .owner sp .inF
  | giveUp (sp) : stopping = true → Step others stopping foreign sp .owner sp .releasing
  | finish (sp) : Step others stopping foreign sp .inF sp .releasing
  | release (sp) : pending sp.state = true →
      Step others stopping foreign sp .releasing { sp with state := sp.state + 1 } .draining
  | releaseIdle (sp) : pending sp.state = false → Step others stopping foreign sp .releasing sp .none
  | releaseOther (sp) : foreign = true → pending sp.state = true →
      Step others stopping foreign sp .none { sp with state := sp.state + 1 } .draining
  | drained (sp) : sp.stopped = 0 → Step others stopping foreign sp .draining sp .none
  | drainStopped (sp) : stopping = true → Step others stopping foreign sp .draining sp .none

section
variable {cfg : Config} {t : Tid cfg} {m m' : Mem cfg} {c c' : Ctl cfg} {ch : Choice cfg} {w : Option (Addr cfg)}

/-- Outside the functions that work on the safepoint a thread has no role at the barrier. -/
theorem role_of_aside (h : c.aside = true) : c.role = .none := by
  unfold Ctl.role
  split <;> first | rfl | cases h

@[simp] theorem role_siteResume (k : Site) : (k.resume : Ctl cfg).role = .none := role_of_aside (aside_siteResume k)
@[simp] theorem role_enterResume (k : EnterK) : (k.resume : Ctl cfg).role = .none := role_of_aside (aside_enterResume k)
@[simp] theorem role_releaseResume (k : ReleaseK) : (k.resume : Ctl cfg).role = .none := by
  rcases k with (_ | _) | (_ | _) | _ <;> rfl
theorem role_start (k : Site) (o : Call cfg) : (o.start k).role = .none := by cases o <;> rfl

/-- The functions of the cluster that the barrier is made of. -/
theorem execEnter_role {k : EnterK} {pc : EnterPc} (h : execEnter m k pc = some (m', c', w)) :
    Barrier.Step m.others m.stopping (Ctl.enter k pc : Ctl cfg).foreign m.safepoint
      (Ctl.enter k pc : Ctl cfg).role m'.safepoint c'.role := by
  cases pc with
  | load =>
    simp only [execEnter, Safepoint.enter] at h
    split at h
    · cases h
    · rename_i hp
      split at hp <;> cases hp
      rename_i hpend
      cases h
      exact .snap _ _ hpend
    · rename_i hp
      split at hp <;> cases hp
      cases h
      rw [role_enterResume]
      exact .idle _ _
  | arrive s =>
    cases h
    exact .arrive _ _ _
  | announce s =>
    cases h
    exact .idle _ _
  | first s | again s =>
    simp only [execEnter, Safepoint.enter, Option.some.injEq, Prod.mk.injEq] at h
    obtain ⟨rfl, rfl, -⟩ := h
    split
    · exact .idle _ _
    · rename_i hs
      exact .see _ _ _ hs
  | park s =>
    simp only [execEnter, Safepoint.enter, Option.some.injEq, Prod.mk.injEq] at h
    obtain ⟨rfl, rfl, -⟩ := h
    split <;> exact .idle _ _
  | asleep s => cases h
  | leave =>
    cases h
    exact .leave _ _
  | tell =>
    cases h
    rw [role_enterResume]
    exact .idle _ _

theorem execRelease_role {k : ReleaseK} {pc : ReleasePc} (h : execRelease m k pc = some (m', c', w)) :
    Barrier.Step m.others m.stopping (Ctl.release k pc : Ctl cfg).foreign m.safepoint
      (Ctl.release k pc : Ctl cfg).role m'.safepoint c'.role := by
  cases pc with
  | load =>
    simp only [execRelease, Safepoint.release, releaseSeen] at h
    split at h
    · cases h
    · rename_i hp
      split at hp <;> cases hp
      cases h
      cases k <;> exact .idle _ _
    · rename_i hp
      split at hp <;> cases hp
      rename_i hpend
      cases h
      rw [role_releaseResume]
      cases k
      · exact .releaseIdle _ (by simpa using hpend)
      · exact .idle _ _
      · exact .idle _ _
  | cas s hs =>
    simp only [execRelease, Safepoint.release, releaseSeen] at h
    by_cases heq : m.safepoint.state = s
    · subst heq
      simp only [↓reduceIte, Option.some.injEq, Prod.mk.injEq] at h
      obtain ⟨rfl, rfl, -⟩ := h
      cases k
      · exact .release _ hs
      · exact .releaseOther _ rfl hs
      · exact .releaseOther _ rfl hs
    · simp only [heq, ↓reduceIte] at h
      split at h
      · cases h
      · rename_i hp
        split at hp <;> cases hp
        cases h
        cases k <;> exact .idle _ _
      · rename_i hp
        split at hp <;> cases hp
        rename_i hpend
        cases h
        rw [role_releaseResume]
        cases k
        · exact .releaseIdle _ (by simpa using hpend)
        · exact .idle _ _
        · exact .idle _ _
  | wakeAll =>
    cases h
    cases k <;> exact .idle _ _
  | drain =>
    simp only [execRelease, Safepoint.release] at h
    split at h
    · cases h
    · rename_i hp
      split at hp <;> cases hp
      cases h
      cases k <;> exact .idle _ _
    · rename_i hp
      split at hp <;> cases hp
      rename_i hzero
      cases h
      rw [role_releaseResume]
      cases k <;> exact .drained _ hzero
  | stopping n =>
    simp only [execRelease, Safepoint.release] at h
    split at h
    · cases h
    · rename_i hp
      split at hp <;> cases hp
      cases h
      cases k <;> exact .idle _ _
    · rename_i hp
      split at hp <;> cases hp
      rename_i hstop
      cases h
      rw [role_releaseResume]
      cases k <;> exact .drainStopped _ hstop
  | nudge n =>
    cases h
    cases k <;> exact .idle _ _
  | park n =>
    simp only [execRelease, Safepoint.release, Option.some.injEq, Prod.mk.injEq] at h
    obtain ⟨rfl, rfl, -⟩ := h
    split <;> cases k <;> exact .idle _ _
  | asleep n => cases h

theorem execStop_role {k : Site} {pc : StopPc} (h : execStop m k pc = some (m', c', w)) :
    Barrier.Step m.others m.stopping (Ctl.stopTheWorld k pc : Ctl cfg).foreign m.safepoint
      (Ctl.stopTheWorld k pc : Ctl cfg).role m'.safepoint c'.role := by
  cases pc with
  | request pc =>
    simp only [execStop] at h
    split at h
    · rename_i hr
      cases h
      rcases request_inv hr with ⟨rfl, -⟩ | ⟨-, -, hr⟩
      · exact .idle _ _
      · cases hr
    · rename_i hr
      cases h
      rcases request_inv hr with ⟨-, hr⟩ | ⟨hp, rfl, -⟩
      · exact absurd rfl hr
      · exact .request _ hp
    · rename_i hr
      cases h
      rw [role_siteResume]
      rcases request_inv hr with ⟨rfl, -⟩ | ⟨-, -, hr⟩
      · exact .idle _ _
      · cases hr
  | unparkAll i =>
    simp only [execStop] at h
    split at h <;> cases h <;> exact .idle _ _
  | awaitAll pc =>
    simp only [execStop] at h
    split at h
    · cases h
    · cases h
      exact .idle _ _
    · rename_i hr
      cases h
      cases pc <;> simp only [Safepoint.awaitAll, Option.some.injEq, reduceCtorEq] at hr
      · split at hr <;> cases hr
        rename_i hle
        exact .arrived _ hle
      · split at hr <;> cases hr
    · rename_i hr
      cases h
      cases pc <;> simp only [Safepoint.awaitAll, Option.some.injEq, reduceCtorEq] at hr
      · split at hr <;> cases hr
      · split at hr <;> cases hr
        rename_i hstop
        exact .giveUp _ hstop
  | inF =>
    cases h
    exact .finish _

theorem execRequestSafepoint_role {k : Site} {pc : RequestSafepointPc}
    (h : execRequestSafepoint m k pc = some (m', c', w)) :
    Barrier.Step m.others m.stopping (Ctl.requestSafepoint k pc : Ctl cfg).foreign m.safepoint
      (Ctl.requestSafepoint k pc : Ctl cfg).role m'.safepoint c'.role := by
  cases pc with
  | request pc =>
    simp only [execRequestSafepoint] at h
    split at h
    · rename_i hr
      cases h
      rcases request_inv hr with ⟨rfl, -⟩ | ⟨-, -, hr⟩
      · exact .idle _ _
      · cases hr
    · rename_i hr
      cases h
      rcases request_inv hr with ⟨-, hr⟩ | ⟨hp, rfl, -⟩
      · exact absurd rfl hr
      · exact .requestSafepoint _ rfl hp
    · rename_i hr
      cases h
      rw [role_siteResume]
      rcases request_inv hr with ⟨rfl, -⟩ | ⟨-, -, hr⟩
      · exact .idle _ _
      · cases hr
  | unparkAll i =>
    simp only [execRequestSafepoint] at h
    split at h <;> cases h
    · exact .idle _ _
    · rw [role_siteResume]
      exact .idle _ _

theorem execShutdown_role {k : Site} {pc : ShutdownPc} (h : execShutdown m k pc = some (m', c', w)) :
    m'.safepoint = m.safepoint ∧ c'.role = .none := by
  unfold execShutdown at h
  (repeat' split at h) <;> cases h <;> first | exact ⟨rfl, rfl⟩ | exact ⟨rfl, role_siteResume k⟩

theorem spuriousWake_role (h : spuriousWake c = some c') : c'.role = c.role := by
  unfold spuriousWake at h
  split at h <;> cases h
  · rfl
  · rename_i k _
    cases k <;> rfl
  · rfl

/-- A signal changes no role. -/
theorem awaken_role (t : Tid cfg) (a : Addr cfg) (c : Ctl cfg) : (awaken t a c).role = c.role := by
  unfold awaken
  split <;> (try split) <;> (try rfl)
  rename_i k _ _
  cases k <;> rfl

/-- Whether an operation is one of `request_safepoint`, `resume_world` and `shutdown`. -/
def Call.foreign : Call cfg → Bool
  | .requestSafepoint | .resumeWorld | .shutdown => true
  | _ => false

theorem foreign_iff : c.foreign = true ↔ ∃ op, c.stopOp = some op ∧ op ≠ .stopTheWorld := by
  cases c with
  | release k pc => cases k <;> simp [Ctl.foreign, Ctl.stopOp]
  | _ => simp [Ctl.foreign, Ctl.stopOp]

theorem Call.foreign_iff {o : Call cfg} : o.foreign = true ↔ ∃ op, o.stopOp = some op ∧ op ≠ .stopTheWorld := by
  cases o <;> simp [Call.foreign, Call.stopOp]

theorem awaken_foreign (t : Tid cfg) (a : Addr cfg) (c : Ctl cfg) : (awaken t a c).foreign = c.foreign := by
  rw [Bool.eq_iff_iff, foreign_iff, foreign_iff, awaken_stopOp]

/-- A thread gets into those operations only by calling one, and only inside them the flag is set. -/
theorem ExecCase.foreign (h : ExecCase t m c ch (m', c', w)) (hc : c.foreign = false)
    (ho : ∀ o, ch = .call o → o.foreign = false) : c'.foreign = false ∧ m'.stopping = m.stopping := by
  obtain ⟨hop, hstop⟩ := h.stopOp
  refine ⟨Bool.eq_false_iff.mpr fun hc' => ?_, hstop.resolve_right fun hs => ?_⟩
  · obtain ⟨op, hop', hne⟩ := foreign_iff.mp hc'
    rcases hop with hop | hop | ⟨o, hch, hop⟩
    · exact absurd (foreign_iff.mpr ⟨op, hop.symm.trans hop', hne⟩) (by simp [hc])
    · rw [hop] at hop'
      cases hop'
    · exact absurd (Call.foreign_iff.mpr ⟨op, hop.symm.trans hop', hne⟩) (by simp [ho o hch])
  · exact absurd (foreign_iff.mpr ⟨.shutdown, hs, by simp⟩) (by simp [hc])

/-- What a thread's step does at the barrier. -/
theorem ExecCase.barrier (h : ExecCase t m c ch (m', c', w)) :
    Barrier.Step m.others m.stopping c.foreign m.safepoint c.role m'.safepoint c'.role := by
  have elsewhere : c.role = .none → m'.safepoint = m.safepoint ∧ c'.role = .none →
      Barrier.Step m.others m.stopping c.foreign m.safepoint c.role m'.safepoint c'.role := by
    intro hc ⟨hsp, hc'⟩
    rw [hc, hsp, hc']
    exact .idle _ _
  by_cases hc : c.aside = true
  · obtain ⟨hsp, -, hc' | ⟨k, rfl⟩ | ⟨o, k, -, rfl⟩⟩ := h.aside hc
    · exact elsewhere (role_of_aside hc) ⟨hsp, role_of_aside hc'⟩
    · exact elsewhere (role_of_aside hc) ⟨hsp, rfl⟩
    · exact elsewhere (role_of_aside hc) ⟨hsp, role_start k o⟩
  · cases h with
    | enter h => exact execEnter_role h
    | release h => exact execRelease_role h
    | stopTheWorld h => exact execStop_role h
    | requestSafepoint h => exact execRequestSafepoint_role h
    | shutdown h => exact elsewhere rfl (execShutdown_role h)
    | spurious h =>
      rw [spuriousWake_role h]
      exact .idle _ _
    | _ => exact absurd rfl hc

/-- A thread that drives no agent has a role at the barrier only inside those three operations. -/
theorem role_of_external (h : c.external = true) (hf : c.foreign = false) : c.role = .none := by
  unfold Ctl.external at h
  split at h <;> first | rfl | cases hf | cases h

theorem role_external (h : c.external = true) : c.role = .none ∨ c.role = .draining := by
  unfold Ctl.role
  split <;> first | exact Or.inl rfl | exact Or.inr rfl | cases h

/-- A thread without a role, or one that drains, does not change the count. -/
theorem Barrier.Step.stopped_eq {others : BitVec 32} {stopping foreign : Bool} {sp sp' : Safepoint} {r r' : Role}
    (h : Barrier.Step others stopping foreign sp r sp' r') (hr : r = .none ∨ r = .draining) :
    sp'.stopped = sp.stopped := by
  cases h <;> first | rfl | (rcases hr with ⟨⟨⟩⟩ | ⟨⟨⟩⟩)

/-- The roles of the agents' threads. -/
def State.roles (s : State cfg) (i : Fin cfg.agentCount) : Role := (s.ctl (.agent i)).role

/-- What a step of the cluster does at the barrier. -/
theorem barrier_inv {s s' : State cfg} {a : Act cfg} (h : (cluster cfg).step s a = some s') :
    Barrier.Step s.mem.others s.mem.stopping (s.ctl a.1).foreign s.mem.safepoint (s.ctl a.1).role s'.mem.safepoint
      (s'.ctl a.1).role ∧ ∀ t, t ≠ a.1 → (s'.ctl t).role = (s.ctl t).role := by
  obtain ⟨m, c, w, he, hm, hc⟩ := step_inv h
  have hv : ∀ t r c, ((cluster cfg).wake t r c).role = c.role := awaken_role
  refine ⟨?_, fun t ht => Program.view_other (v := fun _ c => c.role) hv hc ht⟩
  rw [Program.view_self (v := fun _ c => c.role) hv hc, hm]
  exact he.barrier

/-- No operation called is one of `request_safepoint`, `resume_world` and `shutdown`. -/
def StopsOnly (_ : State cfg) (a : Act cfg) : Prop := ∀ o, a.2 = .call o → o.foreign = false

instance (s : State cfg) (a : Act cfg) : Decidable (StopsOnly s a) :=
  match h : a.2 with
  | .call o => decidable_of_iff (o.foreign = false) (by simp [StopsOnly, h])
  | .go | .ret _ | .clock _ | .spurious => isTrue (by simp [StopsOnly, h])

theorem domestic_of_step {s s' : State cfg} {a : Act cfg} (h : (cluster cfg).step s a = some s') (ha : StopsOnly s a)
    (hs : ∀ t, (s.ctl t).foreign = false) : (∀ t, (s'.ctl t).foreign = false) ∧ s'.mem.stopping = s.mem.stopping := by
  obtain ⟨m, c, w, he, hm, hc⟩ := step_inv h
  obtain ⟨hf, hstop⟩ := he.foreign (hs a.1) ha
  refine ⟨Program.forall_ctl (P := fun _ c => c.foreign = false) ?_ hc hf fun t _ => hs t, by rw [hm, hstop]⟩
  intro t r c h
  exact (awaken_foreign t r c).trans h

/-- In runs without those operations no thread is in one, and `stopping` is never set. -/
theorem domestic {s : State cfg} (h : Reachable StopsOnly s) :
    (∀ t, (s.ctl t).foreign = false) ∧ s.mem.stopping = false := by
  refine h.keeps (P := fun s => (∀ t, (s.ctl t).foreign = false) ∧ s.mem.stopping = false) ?_ ⟨fun _ => rfl, rfl⟩
  intro s a s' ⟨hf, hstop⟩ ha hstep
  obtain ⟨hf', hstop'⟩ := domestic_of_step hstep ha hf
  exact ⟨hf', hstop'.trans hstop⟩

theorem others_toNat (m : Mem cfg) : m.others.toNat + 1 = Fintype.card (Fin cfg.agentCount) := by
  have h₁ := cfg.agents_pos
  have h₂ := cfg.agents_u32
  simp only [Mem.others, BitVec.toNat_ofNat, Fintype.card_fin]
  omega

/-- A step of a run without those operations is a step of one agent at the barrier, or leaves the barrier
    as it was. -/
theorem roles_inv {s s' : State cfg} {a : Act cfg} (h : (cluster cfg).step s a = some s')
    (hr : Reachable StopsOnly s) (ha : StopsOnly s a) :
    (s'.mem.safepoint = s.mem.safepoint ∧ s'.roles = s.roles) ∨
      ∃ i, a.1 = .agent i ∧ Barrier.Step s.mem.others false false s.mem.safepoint (s.roles i) s'.mem.safepoint (s'.roles i) ∧
        ∀ j, j ≠ i → s'.roles j = s.roles j := by
  obtain ⟨hself, hother⟩ := barrier_inv h
  obtain ⟨hf, hstop⟩ := domestic hr
  have hr' : Reachable StopsOnly s' := hr.tail ha h
  rw [hstop, hf] at hself
  obtain ⟨i, hi⟩ | ⟨x, hx⟩ : (∃ i, a.1 = .agent i) ∨ ∃ x, a.1 = .ext x := by cases a.1 <;> simp
  · rw [hi] at hself hother
    exact Or.inr ⟨i, hi, hself, fun j hj => hother _ (by simpa using hj)⟩
  · rw [hx] at hself hother
    have h₁ := role_of_external (external_of_run hr x) (hf _)
    have h₂ := role_of_external (external_of_run hr' x) ((domestic hr').1 _)
    rw [h₁, h₂] at hself
    refine Or.inl ⟨?_, funext fun j => hother _ (by simp)⟩
    generalize s'.mem.safepoint = sp' at hself
    cases hself <;> first | rfl | contradiction

end

end Krio.Parallel
