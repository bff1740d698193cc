import Krio.Parallel.Jobs

/-! Jobs at home: the ones in an agent's deque, and the ones that its thread carries until it lets go of them or
finds another to step. What a step does with them, and with what the observer hears. -/

namespace Krio.Parallel
open Lib

variable {cfg : Config}

namespace Event

/-- The task of an event that the observer hears. -/
def heard : Event cfg → Option Job
  | .migrate j _ _ | .stepBegin j _ | .stepEnd j _ => some j
  | _ => none

end Event

namespace Ctl

/-- The jobs that the thread of an agent carries while they are at home with the agent. -/
def settled : Ctl cfg → List Job
  | .drive _ (.found _ _) => []
  | .inject k _ => k.jobs
  | .wake k _ _ => k.jobs
  | c => c.jobs

/-- The job that a pass is about to step, and whom it was stolen from. -/
def found : Ctl cfg → Option (Job × Option (Fin cfg.agentCount))
  | .drive _ (.found j v) => some (j, v)
  | _ => none

end Ctl

section
variable {t : Tid cfg} {m m' : Mem cfg} {c c' : Ctl cfg} {ch : Choice cfg} {w : Option (Addr cfg)}

theorem settled_subset (c : Ctl cfg) : c.settled ⊆ c.jobs := by
  cases c with
  | drive p pc => cases pc <;> simp [Ctl.settled, Ctl.jobs]
  | wake k id pc => rcases pc with _ | _ | _ | (_ | _) <;> simp [Ctl.settled, Ctl.jobs]
  | _ => simp [Ctl.settled, Ctl.jobs]

/-- What a step outside the deques does with what the observer hears and with the jobs at home. -/
inductive Homing (t : Tid cfg) (m : Mem cfg) (c : Ctl cfg) (m' : Mem cfg) (c' : Ctl cfg) : Prop
  | aside : (m'.log = m.log ∨ ∃ e, e.heard = none ∧ m'.log = e :: m.log) → c'.settled ⊆ c.settled → c'.found = none →
      c'.site.jobs = c.site.jobs → (∀ k x, c ≠ .spawnOn k x) → Homing t m c m' c'
  | take {p : Pass} {j : Job} : c = .drive p .injector → m.injector.head? = some j → m'.log = m.log →
      c' = .drive p (.found j none) → Homing t m c m' c'
  | begin {i : Fin cfg.agentCount} {p : Pass} {j : Job} : t = .agent i → c = .drive p (.found j none) →
      m'.log = .stepBegin j i :: m.log → c' = .task p j → Homing t m c m' c'
  | migrate {i v : Fin cfg.agentCount} {p : Pass} {j : Job} : t = .agent i → c = .drive p (.found j (some v)) →
      m'.log = .stepBegin j i :: .migrate j v i :: m.log → c' = .task p j → Homing t m c m' c'
  | finish {i : Fin cfg.agentCount} {p : Pass} {j : Job} : t = .agent i → c = .task p j →
      (m'.log = .stepEnd j i :: m.log ∨ m'.log = .completed j :: .stepEnd j i :: m.log) → c'.settled ⊆ [j] →
      c'.found = none → c'.site.jobs = [] → Homing t m c m' c'
  | spawnOn {k : Site} {x : Fin cfg.agentCount} : c = .spawnOn k x → c' = .push (.spawnOn k x) m.mint .loadBottom →
      m'.log = .spawned m.mint :: m.log → Homing t m c m' c'

/-- Nothing but the job being stepped is at home, and no job has been found. -/
def Ctl.calm (c : Ctl cfg) (l : List Job) : Prop := c.settled = l ∧ c.found = none ∧ c.site.jobs = l

theorem calm_siteResume (k : Site) : (k.resume : Ctl cfg).calm k.jobs := by cases k <;> exact ⟨rfl, rfl, rfl⟩
theorem calm_enterResume (k : EnterK) : (k.resume : Ctl cfg).calm k.jobs := by
  rcases k with _ | _ | (_ | _) <;> exact ⟨rfl, rfl, rfl⟩
theorem calm_releaseResume (k : ReleaseK) : (k.resume : Ctl cfg).calm k.jobs := by
  rcases k with (_ | _) | (_ | _) | (_ | _) <;> exact ⟨rfl, rfl, rfl⟩
theorem calm_injectResume (k : InjectK cfg) : k.resume.calm k.jobs := by
  rcases k with (⟨_, _ | _⟩ | _) | _ <;> exact ⟨rfl, rfl, rfl⟩
theorem calm_notifyResume (k : NotifyK) : (k.resume : Ctl cfg).calm k.jobs := by
  rcases k with _ | (_ | _) <;> exact ⟨rfl, rfl, rfl⟩
theorem calm_hasWorkResume (k : HasWorkK) (b : Bool) : (k.resume b : Ctl cfg).calm k.jobs := by
  rcases k with _ | (_ | _) <;> cases b <;> exact ⟨rfl, rfl, rfl⟩
theorem calm_finish (p : Pass) : (p.finish : Ctl cfg).calm [] := by
  unfold Pass.finish
  (repeat' split) <;> exact ⟨rfl, rfl, rfl⟩
theorem calm_start (k : Site) (o : Call cfg) (ho : o.allowed t k = true) : (o.start k).calm k.jobs := by
  cases o <;> cases k <;> first | exact ⟨rfl, rfl, rfl⟩ | (cases t <;> cases ho)

theorem calm_inject (k : InjectK cfg) (j : Job) : (Ctl.inject k j).calm k.jobs := by
  rcases k with (_ | _) | _ <;> exact ⟨rfl, rfl, rfl⟩
theorem calm_notify (k : NotifyK) (pc : NotifyPc) : (Ctl.notify k pc : Ctl cfg).calm k.jobs := by
  cases k <;> exact ⟨rfl, rfl, rfl⟩
theorem calm_hasWork (k : HasWorkK) (pc : HasWorkPc cfg) : (Ctl.hasWork k pc).calm k.jobs := by
  cases k <;> exact ⟨rfl, rfl, rfl⟩
theorem calm_enter (k : EnterK) (pc : Safepoint.EnterPc) : (Ctl.enter k pc : Ctl cfg).calm k.jobs := by
  cases k <;> exact ⟨rfl, rfl, rfl⟩
theorem calm_release (k : ReleaseK) (pc : Safepoint.ReleasePc) : (Ctl.release k pc : Ctl cfg).calm k.jobs := by
  cases k <;> exact ⟨rfl, rfl, rfl⟩

theorem ExecCase.homing (h : ExecCase t m c ch (m', c', w)) (ho : c.owner = .idle) (ht : ∀ a, c.thief a = none) :
    Homing t m c m' c' := by
  -- A step from the step of `l` back into it that the observer does not hear.
  have aside : ∀ {x : Mem cfg} {d : Ctl cfg} {l : List Job}, x.log = m.log → c.calm l → d.calm l →
      (∀ k x, c ≠ .spawnOn k x) → Homing t m c x d := fun h₁ h₂ h₃ h₄ =>
    .aside (Or.inl h₁) (by rw [h₂.1, h₃.1]; exact List.Subset.refl _) h₃.2.1 (h₃.2.2.trans h₂.2.2.symm) h₄
  cases h with
  | @callHost o r h =>
    obtain ⟨ho, rfl, rfl, -⟩ := execCall_inv h
    exact aside rfl ⟨rfl, rfl, rfl⟩ (calm_start _ o ho) (by simp)
  | @callTask p j o r h =>
    obtain ⟨ho, rfl, rfl, -⟩ := execCall_inv h
    exact aside rfl ⟨rfl, rfl, rfl⟩ (calm_start _ o ho) (by simp)
  | suspend hi h =>
    unfold Parallel.suspend at h
    split at h <;> cases h
    · exact .finish hi rfl (Or.inr rfl) (List.nil_subset _) rfl rfl
    · exact .finish hi rfl (Or.inl rfl) (List.Subset.refl _) rfl rfl
    · exact .finish hi rfl (Or.inl rfl) (List.Subset.refl _) rfl rfl
  | run _ h =>
    unfold execRun at h
    (repeat' split at h) <;> cases h <;> exact aside rfl ⟨rfl, rfl, rfl⟩ ⟨rfl, rfl, rfl⟩ (by simp)
  | @drive i p pc o r hi h =>
    cases pc with
    | injector =>
      cases ch <;> simp only [execDrive, reduceCtorEq] at h
      (repeat' split at h) <;> cases h
      · exact .take rfl (by simp [*]) rfl rfl
      · exact aside rfl ⟨rfl, rfl, rfl⟩ ⟨rfl, rfl, rfl⟩ (by simp)
      · exact aside rfl ⟨rfl, rfl, rfl⟩ (calm_finish p) (by simp)
    | found j migrated =>
      cases ch <;> simp only [execDrive, reduceCtorEq] at h
      split at h <;> cases h
      · exact .begin hi rfl rfl rfl
      · exact .migrate hi rfl rfl rfl
    | _ =>
      cases ch <;> simp only [execDrive, reduceCtorEq] at h
      all_goals (repeat' split at h) <;> cases h <;>
        first | exact aside rfl ⟨rfl, rfl, rfl⟩ ⟨rfl, rfl, rfl⟩ (by simp)
              | exact aside rfl ⟨rfl, rfl, rfl⟩ (calm_finish p) (by simp)
  | pop _ h => cases ho
  | @steal i p start k pc r _ _ => exact absurd (ht (victimAt cfg start k)) (by simp [Ctl.thief])
  | push _ _ h => cases ho
  | @park i p j pc r _ h =>
    have stays : ∀ {x : Mem cfg} {d : Ctl cfg}, x.log = m.log → d.settled ⊆ (Ctl.park p j pc : Ctl cfg).jobs →
        d.found = none → d.site.jobs = [] → Homing t m (.park p j pc) x d :=
      fun h₁ h₂ h₃ h₄ => .aside (Or.inl h₁) h₂ h₃ h₄ (by simp)
    cases pc with
    | lock =>
      simp only [execPark, Parked.park] at h
      split at h <;> rename_i hp <;> split at hp <;> cases hp <;> cases h <;>
        exact stays rfl (List.Subset.refl _) rfl rfl
    | body =>
      simp only [execPark, Parked.park] at h
      split at h <;> rename_i hp <;> split at hp <;> cases hp <;> cases h
      · exact stays rfl (List.Subset.refl _) rfl rfl
      · exact stays rfl (List.nil_subset _) rfl rfl
    | count =>
      cases h
      exact stays rfl (List.Subset.refl _) rfl rfl
    | unlock raced => cases raced <;> cases h <;> exact stays rfl (List.Subset.refl _) rfl rfl
  | @inject k j => exact aside rfl (calm_inject k j) (calm_injectResume k) (by simp)
  | @notify k pc r h =>
    unfold execNotify at h
    (repeat' split at h) <;> cases h <;>
      first | exact aside rfl (calm_notify k _) (calm_notify k _) (by simp)
            | exact aside rfl (calm_notify k _) (calm_notifyResume k) (by simp)
  | @hasWork k pc r h =>
    unfold execHasWork at h
    (repeat' split at h) <;> cases h <;>
      first | exact aside rfl (calm_hasWork k _) (calm_hasWork k _) (by simp)
            | exact aside rfl (calm_hasWork k _) (calm_hasWorkResume k _) (by simp)
  | @enter k pc r h =>
    unfold execEnter at h
    split at h <;> cases h <;>
      first | exact aside rfl (calm_enter k _) (calm_enter k _) (by simp)
            | exact aside rfl (calm_enter k _) (calm_enterResume k) (by simp)
  | @release k pc r h =>
    unfold execRelease at h
    split at h <;> cases h <;>
      first | exact aside rfl (calm_release k _) (calm_release k _) (by simp)
            | exact aside rfl (calm_release k _) (calm_releaseResume k) (by simp)
  | spawn => exact .aside (Or.inr ⟨_, rfl, rfl⟩) (List.Subset.refl _) rfl rfl (by simp)
  | spawnOn => exact .spawnOn rfl rfl rfl
  | @wake k id pc r h =>
    have loud : ∀ {x : Mem cfg} {d : Ctl cfg}, x.log = .woke id :: m.log → d.calm k.jobs →
        Homing t m (.wake k id pc) x d := fun h₁ h₂ =>
      .aside (Or.inr ⟨_, rfl, h₁⟩) (by rw [h₂.1]; exact List.Subset.refl _) h₂.2.1 h₂.2.2 (by simp)
    cases pc with
    | lock =>
      simp only [execWake, Parked.wake] at h
      split at h <;> rename_i hp <;> split at hp <;> cases hp <;> cases h <;>
        exact aside rfl ⟨rfl, rfl, rfl⟩ ⟨rfl, rfl, rfl⟩ (by simp)
    | body =>
      simp only [execWake, Parked.wake] at h
      split at h <;> rename_i hp <;> split at hp <;> cases hp <;> cases h <;> exact loud rfl ⟨rfl, rfl, rfl⟩
    | count j =>
      cases h
      exact aside rfl ⟨rfl, rfl, rfl⟩ ⟨rfl, rfl, rfl⟩ (by simp)
    | unlock j =>
      cases j <;> cases h
      · exact aside rfl ⟨rfl, rfl, rfl⟩ (calm_siteResume k) (by simp)
      · exact aside rfl ⟨rfl, rfl, rfl⟩ ⟨rfl, rfl, rfl⟩ (by simp)
  | @stopTheWorld k pc r h =>
    cases pc <;> simp only [execStop] at h <;> (repeat' split at h) <;> cases h <;>
      first | exact aside rfl ⟨rfl, rfl, rfl⟩ ⟨rfl, rfl, rfl⟩ (by simp)
            | exact aside rfl ⟨rfl, rfl, rfl⟩ (calm_siteResume k) (by simp)
  | @requestSafepoint k pc r h =>
    cases pc <;> simp only [execRequestSafepoint] at h <;> split at h <;> cases h <;>
      first | exact aside rfl ⟨rfl, rfl, rfl⟩ ⟨rfl, rfl, rfl⟩ (by simp)
            | exact aside rfl ⟨rfl, rfl, rfl⟩ (calm_siteResume k) (by simp)
  | @worldIsStopped k => exact aside rfl ⟨rfl, rfl, rfl⟩ (calm_siteResume k) (by simp)
  | @shutdown k pc r h =>
    unfold execShutdown at h
    (repeat' split at h) <;> cases h <;>
      first | exact aside rfl ⟨rfl, rfl, rfl⟩ ⟨rfl, rfl, rfl⟩ (by simp)
            | exact aside rfl ⟨rfl, rfl, rfl⟩ (calm_siteResume k) (by simp)
  | @poll k =>
    split
    · exact aside rfl ⟨rfl, rfl, rfl⟩ ⟨rfl, rfl, rfl⟩ (by simp)
    · exact aside rfl ⟨rfl, rfl, rfl⟩ (calm_siteResume k) (by simp)
  | spurious h =>
    unfold spuriousWake at h
    split at h <;> cases h
    · exact aside rfl (calm_enter _ _) (calm_enter _ _) (by simp)
    · exact aside rfl (calm_release _ _) (calm_release _ _) (by simp)
    · exact aside rfl ⟨rfl, rfl, rfl⟩ ⟨rfl, rfl, rfl⟩ (by simp)

end

/-- The jobs that are at home with agent `i`: in its deque, and in the hands of its thread. -/
def State.atHome (s : State cfg) (i : Fin cfg.agentCount) : List Job :=
  s.live i ++ ((s.mem.deques i).hand (s.owner i) ++ (s.ctl (.agent i)).settled)

section
variable {s s' : State cfg} {a : Act cfg} {c : Ctl cfg} {w : Option (Addr cfg)} {i : Fin cfg.agentCount}

theorem awaken_settled (t : Tid cfg) (r : Addr cfg) (c : Ctl cfg) : (awaken t r c).settled = c.settled := by
  unfold awaken
  split <;> (try split) <;> rfl

theorem awaken_found (t : Tid cfg) (r : Addr cfg) (c : Ctl cfg) : (awaken t r c).found = c.found := by
  unfold awaken
  split <;> (try split) <;> rfl

theorem awaken_site (t : Tid cfg) (r : Addr cfg) (c : Ctl cfg) : (awaken t r c).site = c.site := by
  unfold awaken
  split <;> (try split) <;> first | rfl | (cases ‹EnterK› <;> rfl) | (cases ‹ReleaseK› <;> rfl)

/-- The hands of an agent that carries what it carried, and has them otherwise as they were. -/
theorem hand_eq {u : Fin cfg.agentCount} (h : s'.hands (.agent u) = s.hands (.agent u))
    (hj : (s'.ctl (.agent u)).jobs = (s.ctl (.agent u)).jobs) :
    (s'.mem.deques u).hand (s'.owner u) = (s.mem.deques u).hand (s.owner u) := by
  rw [State.hands, State.hands, hj] at h
  exact List.append_cancel_right h

section
variable (hctl : s'.ctl = (cluster cfg).signal w (Function.update s.ctl a.1 c))
include hctl

/-- What the others have at home is as it was, if their deques and hands are. -/
theorem atHome_other {u : Fin cfg.agentCount} (hu : .agent u ≠ a.1) (hlive : s'.live u = s.live u)
    (hhands : s'.hands (.agent u) = s.hands (.agent u)) : s'.atHome u = s.atHome u := by
  rw [State.atHome, State.atHome, hlive, hand_eq hhands (jobs_other hctl hu),
    Program.view_other (v := fun _ c => c.settled) awaken_settled hctl hu]

theorem Sound.own_atHome (h : Sound s) {d : Deque cfg.w Job} {l : List Job} (ht : a.1 = .agent i)
    (hmem : s'.mem = s.mem.setDeque i d) (hth : ∀ v, (s.ctl a.1).thief v = none) (hth' : ∀ v, c.thief v = none)
    (hinv : d.Inv l c.owner (s.thief i)) (hsub : l ++ (d.hand c.owner ++ c.settled) ⊆ s.atHome i) (u : Fin cfg.agentCount) :
    s'.atHome u ⊆ s.atHome u := by
  obtain ⟨-, hlive, hhands, hothers⟩ := h.own_deque ht hctl hmem hth hth' hinv
  obtain rfl | hu := eq_or_ne u i
  · have hown : s'.owner u = c.owner := by rw [owner_agent hctl ht, Function.update_self]
    have hset : (s'.ctl (.agent u)).settled = c.settled := by
      rw [← ht]
      exact Program.view_self (v := fun _ c => c.settled) awaken_settled hctl
    have hdeq : s'.mem.deques u = d := by rw [hmem]; exact Function.update_self _ _ _
    rw [State.atHome, show s'.live u = l from hlive, hown, hset, hdeq]
    exact hsub
  · have hne : Tid.agent u ≠ a.1 := by rw [ht]; simpa using hu
    rw [atHome_other hctl hne (hothers (.deque u) (by simpa using hu) (by simp)) (hothers (.hands (.agent u)) (by simp) (by simpa using hne))]
    exact List.Subset.refl _

theorem Sound.other_atHome (h : Sound s) {v : Fin cfg.agentCount} {d : Deque cfg.w Job} {l : List Job}
    (ht : a.1 = .agent i) (hmem : s'.mem = s.mem.setDeque v d) (ho : (s.ctl a.1).owner = .idle) (ho' : c.owner = .idle)
    (hth : ∀ u, u ≠ v → (s.ctl a.1).thief u = none) (hth' : ∀ u, u ≠ v → c.thief u = none)
    (hinv : d.Inv l (s.owner v) (Function.update (s.thief v) i (c.thief v)))
    (hhand : d.hand (s.owner v) = (s.mem.deques v).hand (s.owner v)) (hl : l ⊆ s.live v) (hc : c.settled = [])
    (u : Fin cfg.agentCount) : s'.atHome u ⊆ s.atHome u := by
  obtain ⟨-, hlive, -, hothers⟩ := h.other_deque ht hctl hmem ho ho' hth hth' hinv hhand
  have hlive' : s'.live u ⊆ s.live u := by
    obtain rfl | hu := eq_or_ne u v
    · rw [show s'.live u = l from hlive]
      exact hl
    · rw [show s'.live u = s.live u from hothers (.deque u) (by simpa using hu) (by simp)]
      exact List.Subset.refl _
  obtain rfl | hu := eq_or_ne u i
  · have hown : s'.owner u = .idle := by rw [owner_agent hctl ht, Function.update_self, ho']
    have hset : (s'.ctl (.agent u)).settled = [] := by
      rw [← ht]
      exact (Program.view_self (v := fun _ c => c.settled) awaken_settled hctl).trans hc
    rw [State.atHome, hown, hset]
    exact List.append_subset.mpr ⟨fun x hx => List.mem_append_left _ (hlive' hx), List.nil_subset _⟩
  · have hne : Tid.agent u ≠ a.1 := by rw [ht]; simpa using hu
    have hhands := hothers (.hands (.agent u)) (by simp) (by simpa using hne)
    rw [State.atHome, State.atHome, hand_eq hhands (jobs_other hctl hne),
      Program.view_other (v := fun _ c => c.settled) awaken_settled hctl hne]
    exact List.append_subset.mpr ⟨fun x hx => List.mem_append_left _ (hlive' hx), List.subset_append_right _ _⟩

theorem Sound.pop_atHome (h : Sound s) (ht : a.1 = .agent i) {p : Pass} {pc : Deque.PopPc cfg.w}
    (hc : s.ctl a.1 = .pop p pc) (he : execPop i s.mem p pc = some (s'.mem, c, w)) :
    (∀ u, s'.atHome u ⊆ s.atHome u) ∧ ∀ j v, c.found = some (j, v) → v = none ∧ j ∈ s.atHome i := by
  have hown : s.owner i = .pop pc := by rw [State.owner, ← ht, hc]; rfl
  have hset : (s.ctl (.agent i)).settled = [] := by rw [← ht, hc]; rfl
  have hat : s.atHome i = s.live i ++ (s.mem.deques i).hand (.pop pc) := by
    rw [State.atHome, hown, hset, List.append_nil]
  have hd := h.deques i
  rw [hown] at hd
  have hth : ∀ v, (s.ctl a.1).thief v = none := fun v => by rw [hc]; rfl
  unfold execPop at he
  split at he <;> simp only [quiet, Option.some.injEq, Prod.mk.injEq] at he <;> obtain ⟨hm, rfl, rfl⟩ := he
  · rename_i d pc' hp
    obtain ⟨l, hd', hl⟩ := hd.pop_next hp
    refine ⟨h.own_atHome hctl ht hm.symm hth (fun _ => rfl) hd' ?_, by rintro _ _ ⟨⟩⟩
    rw [hat]
    obtain ⟨rfl, hh⟩ | ⟨x, hl, hh, hh'⟩ := hl
    · simp [Ctl.owner, Ctl.settled, Ctl.jobs, hh]
    · simp [Ctl.owner, Ctl.settled, Ctl.jobs, hl, hh']
  · rename_i d hp
    obtain ⟨hd', hh⟩ := hd.pop_none hp
    refine ⟨h.own_atHome hctl ht hm.symm hth (fun _ => rfl) hd' ?_, by rintro _ _ ⟨⟩⟩
    simp [hat, Ctl.owner, Ctl.settled, Ctl.jobs, Deque.hand]
  · rename_i d j hp
    obtain ⟨rfl, hd', x, hx, hh⟩ := hd.pop_some hp
    cases hx
    refine ⟨h.own_atHome hctl ht hm.symm hth (fun _ => rfl) hd' ?_, ?_⟩
    · simp [hat, Ctl.owner, Ctl.settled, Deque.hand]
    · rintro _ _ ⟨⟩
      exact ⟨rfl, by simp [hat, hh]⟩
  · rename_i d hp
    obtain ⟨-, -, x, hx, -⟩ := hd.pop_some hp
    cases hx

theorem Sound.push_atHome (h : Sound s) (ht : a.1 = .agent i) {k : PushK cfg} {j : Job} {pc : Deque.PushPc cfg.w}
    (hc : s.ctl a.1 = .push k j pc) (he : execPush i s.mem k j pc = some (s'.mem, c, w)) :
    (∀ u, s'.atHome u ⊆ s.atHome u) ∧ c.found = none := by
  have hown : s.owner i = .push j pc := by rw [State.owner, ← ht, hc]; rfl
  have hset : (s.ctl (.agent i)).settled = j :: k.jobs := by rw [← ht, hc]; rfl
  have hat : s.atHome i = s.live i ++ j :: k.jobs := by
    rw [State.atHome, hown, hset]
    rfl
  have hd := h.deques i
  rw [hown] at hd
  have hth : ∀ v, (s.ctl a.1).thief v = none := fun v => by rw [hc]; rfl
  unfold execPush at he
  split at he <;> simp only [quiet, Option.some.injEq, Prod.mk.injEq] at he <;> obtain ⟨hm, rfl, rfl⟩ := he
  · rename_i d pc' hp
    refine ⟨h.own_atHome hctl ht hm.symm hth (fun _ => rfl) (hd.push_next hp) ?_, rfl⟩
    simp [hat, Ctl.owner, Ctl.settled, Ctl.jobs, Deque.hand]
  · rename_i d hp
    have hrest := resting_pushResume k
    have hcalm : k.resume.settled = k.jobs ∧ k.resume.found = none := by rcases k with ⟨_, _ | _⟩ | _ <;> exact ⟨rfl, rfl⟩
    refine ⟨h.own_atHome hctl ht hm.symm hth (thief_pushResume k) ((hd.push_ret hp).rest rfl hrest.1) ?_, hcalm.2⟩
    rw [hat, Deque.hand_of_resting hrest.1, hcalm.1]
    simp
  · rename_i d hp
    refine ⟨h.own_atHome hctl ht hm.symm hth (fun _ => rfl) (hd.push_ret hp) ?_, rfl⟩
    simp [hat, Ctl.owner, Ctl.settled, Deque.hand, InjectK.jobs]

theorem Sound.steal_atHome (h : Sound s) (ha : Sane s a) (ht : a.1 = .agent i) {p : Pass} {start k : ℕ}
    {pc : Deque.StealPc cfg.w Job} (hc : s.ctl a.1 = .steal p start k pc)
    (he : execSteal (victimAt cfg start k) s.mem p start k pc = some (s'.mem, c, w)) :
    (∀ u, s'.atHome u ⊆ s.atHome u) ∧ ∀ j v, c.found = some (j, v) → ∃ u, v = some u ∧ j ∈ s.atHome u := by
  generalize hv : victimAt cfg start k = v at he
  have hd := h.deques v
  have hown : (s.ctl a.1).owner = .idle := by rw [hc]; rfl
  have hother : ∀ u, u ≠ v → ∀ pc, (Ctl.steal p start k pc : Ctl cfg).thief u = none :=
    fun u hu pc => by simp [Ctl.thief, hv, hu.symm]
  have hth : ∀ u, u ≠ v → (s.ctl a.1).thief u = none := fun u hu => by rw [hc, hother u hu]
  have hthi : s.thief v i = some pc := by
    rw [State.thief, ← ht, hc]
    simp [Ctl.thief, hv]
  unfold execSteal at he
  split at he <;> simp only [quiet, Option.some.injEq, Prod.mk.injEq] at he <;> obtain ⟨hm, rfl, rfl⟩ := he
  · rename_i d pc' hs
    obtain ⟨rfl, hd'⟩ := hd.steal_next hthi hs
    exact ⟨h.other_atHome hctl ht hm.symm hown rfl hth (fun u hu => hother u hu pc') (by simpa [Ctl.thief, hv] using hd')
      rfl (List.Subset.refl _) rfl, by rintro _ _ ⟨⟩⟩
  · rename_i d hs
    obtain ⟨rfl, hd'⟩ := hd.steal_none (k := i) hs
    exact ⟨h.other_atHome hctl ht hm.symm hown rfl hth (fun _ _ => rfl) hd' rfl (List.Subset.refl _) rfl,
      by rintro _ _ ⟨⟩⟩
  · rename_i d j hs
    have hin : (s.mem.deques v).inTime pc = true := ha.inTime v pc (by rw [hc]; simp [Ctl.thief, hv])
    obtain ⟨x, l, hl, hx, hd', hhand⟩ := hd.steal_some hthi hin hs
    cases hx
    refine ⟨h.other_atHome hctl ht hm.symm hown rfl hth (fun _ _ => rfl) hd' hhand (by rw [hl]; exact List.subset_cons_self _ _)
      rfl, ?_⟩
    rintro _ _ ⟨⟩
    exact ⟨v, rfl, List.mem_append_left _ (by rw [hl]; exact List.mem_cons_self ..)⟩
  · rename_i d hs
    have hin : (s.mem.deques v).inTime pc = true := ha.inTime v pc (by rw [hc]; simp [Ctl.thief, hv])
    obtain ⟨x, l, hl, hx, -⟩ := hd.steal_some hthi hin hs
    cases hx

/-- A step outside the deques changes nobody's home but that of the acting thread's jobs. -/
theorem Sound.outside_atHome (h : Sound s) (hmem : s'.mem.deques = s.mem.deques) (ho : (s.ctl a.1).owner = .idle)
    (hrest : c.resting) {j : Job} {u : Fin cfg.agentCount} (hj : j ∈ s'.atHome u) :
    j ∈ s.atHome u ∨ a.1 = .agent u ∧ j ∈ c.settled := by
  obtain ⟨-, hlive, hhands⟩ := outside_deques h.deques hctl hmem ho hrest
  by_cases hu : Tid.agent u = a.1
  · have hown : s'.owner u = c.owner := by rw [owner_agent hctl hu.symm, Function.update_self]
    have hset : (s'.ctl (.agent u)).settled = c.settled := by
      rw [hu]
      exact Program.view_self (v := fun _ c => c.settled) awaken_settled hctl
    rw [State.atHome, hlive, hown, hset, Deque.hand_of_resting hrest.1] at hj
    obtain hj | hj := List.mem_append.mp hj
    · exact Or.inl (List.mem_append_left _ hj)
    · exact Or.inr ⟨hu.symm, hj⟩
  · rw [atHome_other hctl hu (hlive u) (hhands _ hu)] at hj
    exact Or.inl hj

end

theorem jobs_subset_hands (t : Tid cfg) : (s.ctl t).jobs ⊆ s.hands t := by
  cases t with
  | agent i => exact List.subset_append_right _ _
  | ext x => exact List.Subset.refl _

theorem mem_hold_of_atHome {u : Fin cfg.agentCount} {j : Job} (h : j ∈ s.atHome u) :
    j ∈ s.hold (.deque u) ∨ j ∈ s.hold (.hands (.agent u)) := by
  obtain h | h := List.mem_append.mp h
  · exact Or.inl h
  · obtain h | h := List.mem_append.mp h
    · exact Or.inr (List.mem_append_left _ h)
    · exact Or.inr (List.mem_append_right _ (settled_subset _ h))

theorem Sound.spawned_of_hold (h : Sound s) {p : Place cfg} {j : Job} (hj : j ∈ s.hold p) : .spawned j ∈ s.mem.log :=
  ((h.custody.out_iff j).mpr ⟨p, hj⟩).1

/-- A job at home with agent `u` is in no other thread's hands. -/
theorem Sound.agent_of_atHome (h : Sound s) {t : Tid cfg} {u : Fin cfg.agentCount} {j : Job} (hj : j ∈ s.atHome u)
    (ht : j ∈ s.hands t) : t = .agent u := by
  obtain hj | hj := mem_hold_of_atHome hj
  · cases h.custody.unique j (.deque u) (.hands t) hj ht
  · exact (Place.hands.inj (h.custody.unique j (.hands (.agent u)) (.hands t) hj ht)).symm

theorem Sound.spawned_of_atHome (h : Sound s) {u : Fin cfg.agentCount} {j : Job} (hj : j ∈ s.atHome u) :
    .spawned j ∈ s.mem.log := (mem_hold_of_atHome hj).elim h.spawned_of_hold h.spawned_of_hold

theorem mem_jobs_of_found {c : Ctl cfg} {f : Job × Option (Fin cfg.agentCount)} (h : c.found = some f) : f.1 ∈ c.jobs := by
  unfold Ctl.found at h
  split at h <;> cases h
  exact List.mem_singleton_self _

end

end Krio.Parallel
