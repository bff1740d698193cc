import Krio.Parallel.Cluster

/-! What a step of a cluster can be, said once: the function of the cluster that takes it, and what else
a step of the threads does. Every invariant is derived from these two inversions. -/

namespace Krio.Parallel
open Lib

section
variable {cfg : Config} {t : Tid cfg} {m m' : Mem cfg} {c c' : Ctl cfg} {ch : Choice cfg} {w : Option (Addr cfg)}

/-- The step `exec t m c ch`, by the function that takes it. -/
inductive ExecCase (t : Tid cfg) (m : Mem cfg) : Ctl cfg → Choice cfg → Mem cfg × Ctl cfg × Option (Addr cfg) → Prop
  | callHost {o r} : execCall t m .host o = some r → ExecCase t m .host (.call o) r
  | callTask {p j o r} : execCall t m (.task p j) o = some r → ExecCase t m (.task p j) (.call o) r
  | suspend {i p j s r} : t = .agent i → suspend i m p.stepped j s = some r → ExecCase t m (.task p j) (.ret s) r
  | run {i pc o r} : t = .agent i → execRun i m pc o = some r → ExecCase t m (.run pc) o r
  | drive {i p pc o r} : t = .agent i → execDrive i m p pc o = some r → ExecCase t m (.drive p pc) o r
  | pop {i p pc r} : t = .agent i → execPop i m p pc = some r → ExecCase t m (.pop p pc) .go r
  | steal {i p start k pc r} : t = .agent i → execSteal (victimAt cfg start k) m p start k pc = some r →
      ExecCase t m (.steal p start k pc) .go r
  | push {a k j pc r} : (∀ i, t = .agent i → a = k.target i) → (∀ x, t = .ext x → ∃ k', k = .spawnOn k' a) →
      execPush a m k j pc = some r → ExecCase t m (.push k j pc) .go r
  | park {i p j pc r} : t = .agent i → execPark m p j pc = some r → ExecCase t m (.park p j pc) .go r
  | inject {k j} : ExecCase t m (.inject k j) .go ({ m with injector := m.injector ++ [j] }, k.resume, none)
  | notify {k pc r} : execNotify m k pc = some r → ExecCase t m (.notify k pc) .go r
  | hasWork {k pc r} : execHasWork m k pc = some r → ExecCase t m (.hasWork k pc) .go r
  | enter {k pc r} : execEnter m k pc = some r → ExecCase t m (.enter k pc) .go r
  | release {k pc r} : execRelease m k pc = some r → ExecCase t m (.release k pc) .go r
  | spawn {k} : ExecCase t m (.spawn k) .go (m.minted, .inject (.site k) m.mint, none)
  | spawnOn {k a} : ExecCase t m (.spawnOn k a) .go (m.minted, .push (.spawnOn k a) m.mint .loadBottom, none)
  | wake {k id pc r} : execWake m k id pc = some r → ExecCase t m (.wake k id pc) .go r
  | stopTheWorld {k pc r} : execStop m k pc = some r → ExecCase t m (.stopTheWorld k pc) .go r
  | requestSafepoint {k pc r} : execRequestSafepoint m k pc = some r → ExecCase t m (.requestSafepoint k pc) .go r
  | worldIsStopped {k} : ExecCase t m (.worldIsStopped k) .go (m, k.resume, none)
  | shutdown {k pc r} : execShutdown m k pc = some r → ExecCase t m (.shutdown k pc) .go r
  | poll {k} :
      ExecCase t m (.poll k) .go (m, if m.safepoint.requested then .enter (.site k) .load else k.resume, none)
  | spurious {x y : Ctl cfg} : spuriousWake x = some y → ExecCase t m x .spurious (m, y, none)

theorem execOp_inv {r : Mem cfg × Ctl cfg × Option (Addr cfg)} (h : execOp m c ch = some r) : ExecCase t m c ch r := by
  unfold execOp at h
  split at h
  · cases h; exact .inject
  · exact .notify h
  · exact .hasWork h
  · exact .enter h
  · exact .release h
  · cases h; exact .spawn
  · cases h; exact .spawnOn
  · exact .wake h
  · exact .stopTheWorld h
  · exact .requestSafepoint h
  · cases h; exact .worldIsStopped
  · exact .shutdown h
  · rename_i k
    have : r = (m, if m.safepoint.requested then .enter (.site k) .load else k.resume, none) := by
      split at h <;> cases h <;> simp [*]
    subst this
    exact .poll
  · obtain ⟨c', hc', h⟩ := Option.bind_eq_some_iff.mp h
    cases h
    exact .spurious hc'
  · cases h

theorem exec_inv {r : Mem cfg × Ctl cfg × Option (Addr cfg)} (h : exec t m c ch = some r) : ExecCase t m c ch r := by
  unfold exec at h
  split at h
  · exact .callHost h
  · exact .callTask h
  · exact .suspend rfl h
  · exact .run rfl h
  · exact .drive rfl h
  · exact .pop rfl h
  · exact .steal rfl h
  · exact .push (fun i hi => by cases hi; rfl) (fun x hx => by cases hx) h
  · exact .push (fun i hi => by cases hi) (fun x _ => ⟨_, rfl⟩) h
  · exact .park rfl h
  · exact execOp_inv h

theorem execCall_inv {k : Site} {o : Call cfg} (h : execCall t m k o = some (m', c', w)) :
    o.allowed t k = true ∧ m' = m ∧ c' = o.start k ∧ w = none := by
  unfold execCall at h
  split at h
  · rename_i ho
    cases h
    exact ⟨ho, rfl, rfl, rfl⟩
  · cases h

/-- A step of the threads: the acting thread's step, and the delivery of its signal. -/
theorem step_inv {s s' : State cfg} {a : Act cfg} (h : (cluster cfg).step s a = some s') :
    ∃ m c w, ExecCase a.1 s.mem (s.ctl a.1) a.2 (m, c, w) ∧ s'.mem = m ∧
      s'.ctl = (cluster cfg).signal w (Function.update s.ctl a.1 c) := by
  obtain ⟨m, c, w, he, hm, hc⟩ := Program.step_inv h
  exact ⟨m, c, w, exec_inv he, hm, hc⟩

end

/-! ### Functions that leave the safepoint alone -/

namespace Ctl
variable {cfg : Config}

/-- Not inside a function that works on the safepoint's words or on the `stopping` flag. -/
def aside : Ctl cfg → Bool
  | .enter _ _ | .release _ _ | .stopTheWorld _ _ | .requestSafepoint _ _ | .shutdown _ _ => false
  | _ => true

end Ctl

section
variable {cfg : Config} {t : Tid cfg} {m m' : Mem cfg} {c c' : Ctl cfg} {ch : Choice cfg} {w : Option (Addr cfg)}

@[simp] theorem aside_siteResume (k : Site) : (k.resume : Ctl cfg).aside = true := by cases k <;> rfl
@[simp] theorem aside_enterResume (k : EnterK) : (k.resume : Ctl cfg).aside = true := by
  rcases k with _ | _ | (_ | _) <;> rfl
@[simp] theorem aside_pushResume (k : PushK cfg) : k.resume.aside = true := by rcases k with ⟨_, _ | _⟩ | _ <;> rfl
@[simp] theorem aside_injectResume (k : InjectK cfg) : k.resume.aside = true := by
  rcases k with (⟨_, _ | _⟩ | _) | _ <;> rfl
@[simp] theorem aside_notifyResume (k : NotifyK) : (k.resume : Ctl cfg).aside = true := by
  rcases k with _ | (_ | _) <;> rfl
@[simp] theorem aside_hasWorkResume (k : HasWorkK) (b : Bool) : (k.resume b : Ctl cfg).aside = true := by
  rcases k with _ | (_ | _) <;> cases b <;> rfl
@[simp] theorem aside_finish (p : Pass) : (p.finish : Ctl cfg).aside = true := by
  unfold Pass.finish
  split
  · split <;> rfl
  · rfl

/-- A step of a thread outside those functions keeps the safepoint and the flag. It stays outside them,
    or it enters the barrier of a pending stop, or the thread's host or task code calls an operation. -/
theorem ExecCase.aside (h : ExecCase t m c ch (m', c', w)) (hc : c.aside = true) :
    m'.safepoint = m.safepoint ∧ m'.stopping = m.stopping ∧
      (c'.aside = true ∨ (∃ k, c' = .enter k .load) ∨ ∃ o k, ch = .call o ∧ c' = o.start k) := by
  -- A function whose every branch ends outside.
  have stays : ∀ {x : Mem cfg} {d : Ctl cfg}, x.safepoint = m.safepoint → x.stopping = m.stopping → d.aside = true →
      x.safepoint = m.safepoint ∧ x.stopping = m.stopping ∧
        (d.aside = true ∨ (∃ k, d = .enter k .load) ∨ ∃ o k, ch = .call o ∧ d = o.start k) :=
    fun h₁ h₂ h₃ => ⟨h₁, h₂, Or.inl h₃⟩
  cases h with
  | callHost h | callTask h =>
    obtain ⟨-, rfl, rfl, -⟩ := execCall_inv h
    exact ⟨rfl, rfl, Or.inr (Or.inr ⟨_, _, rfl, rfl⟩)⟩
  | @suspend i p j s r _ h =>
    unfold Parallel.suspend at h
    split at h <;> cases h <;> exact stays rfl rfl rfl
  | run _ h =>
    unfold execRun at h
    (repeat' split at h) <;> cases h <;>
      first | exact stays rfl rfl rfl | exact ⟨rfl, rfl, Or.inr (Or.inl ⟨_, rfl⟩)⟩
  | drive _ h =>
    unfold execDrive at h
    (repeat' split at h) <;> cases h <;>
      first | exact stays rfl rfl rfl | exact stays rfl rfl (aside_finish _) | exact ⟨rfl, rfl, Or.inr (Or.inl ⟨_, rfl⟩)⟩
  | pop _ h =>
    unfold execPop at h
    split at h <;> cases h <;> exact stays rfl rfl rfl
  | steal _ h =>
    unfold execSteal at h
    split at h <;> cases h <;> exact stays rfl rfl rfl
  | push _ _ h =>
    unfold execPush at h
    split at h <;> cases h <;> first | exact stays rfl rfl rfl | exact stays rfl rfl (aside_pushResume _)
  | park _ h =>
    unfold execPark at h
    split at h <;> cases h <;> exact stays rfl rfl rfl
  | inject => exact stays rfl rfl (aside_injectResume _)
  | notify h =>
    unfold execNotify at h
    (repeat' split at h) <;> cases h <;> first | exact stays rfl rfl rfl | exact stays rfl rfl (aside_notifyResume _)
  | hasWork h =>
    unfold execHasWork at h
    (repeat' split at h) <;> cases h <;> first | exact stays rfl rfl rfl | exact stays rfl rfl (aside_hasWorkResume _ _)
  | enter h => cases hc
  | release h => cases hc
  | spawn => exact stays rfl rfl rfl
  | spawnOn => exact stays rfl rfl rfl
  | wake h =>
    simp only [execWake] at h
    (repeat' split at h) <;> cases h <;> first | exact stays rfl rfl rfl | exact stays rfl rfl (aside_siteResume _)
  | stopTheWorld h => cases hc
  | requestSafepoint h => cases hc
  | worldIsStopped => exact stays rfl rfl (aside_siteResume _)
  | shutdown h => cases hc
  | poll =>
    split
    · exact ⟨rfl, rfl, Or.inr (Or.inl ⟨_, rfl⟩)⟩
    · exact stays rfl rfl (aside_siteResume _)
  | spurious h =>
    unfold spuriousWake at h
    split at h <;> cases h <;> cases hc

end

/-! ### The operations that stop the world and let it go -/

inductive StopOp
  | stopTheWorld
  | requestSafepoint
  | resumeWorld
  | shutdown
  deriving DecidableEq

/-- Which of them a thread is in. -/
def Ctl.stopOp {cfg : Config} : Ctl cfg → Option StopOp
  | .stopTheWorld _ _ | .release (.stopTheWorld _) _ => some .stopTheWorld
  | .requestSafepoint _ _ => some .requestSafepoint
  | .release (.resumeWorld _) _ => some .resumeWorld
  | .shutdown _ _ | .release (.shutdown _) _ => some .shutdown
  | _ => none

/-- Which of them an operation is. -/
def Call.stopOp {cfg : Config} : Call cfg → Option StopOp
  | .stopTheWorld => some .stopTheWorld
  | .requestSafepoint => some .requestSafepoint
  | .resumeWorld => some .resumeWorld
  | .shutdown => some .shutdown
  | _ => none

section
variable {cfg : Config} {t : Tid cfg} {m m' : Mem cfg} {c c' : Ctl cfg} {ch : Choice cfg} {w : Option (Addr cfg)}

theorem stopOp_of_aside (h : c.aside = true) : c.stopOp = none := by
  unfold Ctl.stopOp
  split <;> first | rfl | cases h

theorem stopOp_start (k : Site) (o : Call cfg) : (o.start k).stopOp = o.stopOp := by cases o <;> rfl

theorem awaken_stopOp (t : Tid cfg) (a : Addr cfg) (c : Ctl cfg) : (awaken t a c).stopOp = c.stopOp := by
  unfold awaken
  split <;> (try split) <;> (try rfl)
  rename_i k _ _
  cases k <;> rfl

/-- A thread gets into those operations only by calling one, and `stopping` is only set in `shutdown`. -/
theorem ExecCase.stopOp (h : ExecCase t m c ch (m', c', w)) :
    (c'.stopOp = c.stopOp ∨ c'.stopOp = none ∨ ∃ o, ch = .call o ∧ c'.stopOp = o.stopOp) ∧
      (m'.stopping = m.stopping ∨ c.stopOp = some .shutdown) := by
  by_cases ha : c.aside = true
  · obtain ⟨-, hm, hc' | ⟨k, rfl⟩ | ⟨o, k, hch, rfl⟩⟩ := h.aside ha
    · exact ⟨Or.inr (Or.inl (stopOp_of_aside hc')), Or.inl hm⟩
    · exact ⟨Or.inr (Or.inl rfl), Or.inl hm⟩
    · exact ⟨Or.inr (Or.inr ⟨o, hch, stopOp_start k o⟩), Or.inl hm⟩
  · have stays : ∀ {x : Mem cfg} {d : Ctl cfg}, x.stopping = m.stopping → d.stopOp = c.stopOp →
        (d.stopOp = c.stopOp ∨ d.stopOp = none ∨ ∃ o, ch = .call o ∧ d.stopOp = o.stopOp) ∧
          (x.stopping = m.stopping ∨ c.stopOp = some .shutdown) := fun hm hd => ⟨Or.inl hd, Or.inl hm⟩
    have leaves : ∀ {x : Mem cfg} {d : Ctl cfg}, x.stopping = m.stopping → d.aside = true →
        (d.stopOp = c.stopOp ∨ d.stopOp = none ∨ ∃ o, ch = .call o ∧ d.stopOp = o.stopOp) ∧
          (x.stopping = m.stopping ∨ c.stopOp = some .shutdown) :=
      fun hm hd => ⟨Or.inr (Or.inl (stopOp_of_aside hd)), Or.inl hm⟩
    cases h with
    | @enter k pc r h =>
      unfold execEnter at h
      split at h <;> cases h
      · exact stays rfl rfl
      · exact leaves rfl (aside_enterResume k)
    | @release k pc r h =>
      unfold execRelease at h
      split at h <;> cases h
      · exact stays rfl (by cases k <;> rfl)
      · rcases k with k | k | k
        · exact leaves rfl (aside_siteResume k)
        · exact leaves rfl (aside_siteResume k)
        · exact stays rfl rfl
    | @stopTheWorld k pc r h =>
      cases pc <;> simp only [execStop] at h <;> (repeat' split at h) <;> cases h <;>
        first | exact stays rfl rfl | exact leaves rfl (aside_siteResume k)
    | @requestSafepoint k pc r h =>
      cases pc <;> simp only [execRequestSafepoint] at h <;> split at h <;> cases h <;>
        first | exact stays rfl rfl | exact leaves rfl (aside_siteResume k)
    | @shutdown k pc r h =>
      unfold execShutdown at h
      (repeat' split at h) <;> cases h <;>
        first | exact ⟨Or.inl rfl, Or.inr rfl⟩ | exact leaves rfl (aside_siteResume k)
    | spurious h =>
      unfold spuriousWake at h
      split at h <;> cases h
      · exact stays rfl rfl
      · rename_i k _
        exact stays rfl (by cases k <;> rfl)
      · exact stays rfl rfl
    | _ => exact absurd rfl ha

theorem ExecCase.avoids {op : StopOp} (h : ExecCase t m c ch (m', c', w)) (hc : c.stopOp ≠ some op)
    (ho : ∀ o, ch = .call o → o.stopOp ≠ some op) : c'.stopOp ≠ some op := by
  rcases h.stopOp.1 with hop | hop | ⟨o, hch, hop⟩ <;> rw [hop]
  · exact hc
  · simp
  · exact ho o hch

/-- An operation that nobody is in and nobody calls. -/
theorem avoided_of_step {s s' : State cfg} {a : Act cfg} {op : StopOp} (hs : ∀ t, (s.ctl t).stopOp ≠ some op)
    (ha : ∀ o, a.2 = .call o → o.stopOp ≠ some op) (hstep : (cluster cfg).step s a = some s') (t : Tid cfg) :
    (s'.ctl t).stopOp ≠ some op := by
  obtain ⟨m, c, w, he, -, hctl⟩ := step_inv hstep
  exact Program.forall_ctl (P := fun _ c => c.stopOp ≠ some op)
    (fun t r c hc => by rw [show ((cluster cfg).wake t r c).stopOp = c.stopOp from awaken_stopOp t r c]; exact hc) hctl
    (he.avoids (hs a.1) ha) (fun t _ => hs t) t

end

/-! ### Threads that drive no agent -/

namespace Ctl
variable {cfg : Config}

/-- Where a thread that drives no agent can be. -/
def external : Ctl cfg → Bool
  | .host | .push (.spawnOn .host _) _ _ | .inject (.spill (.spawnOn .host _)) _ | .inject (.site .host) _
  | .notify (.site .host) _ | .hasWork (.site .host) _ | .release (.resumeWorld .host) _
  | .release (.shutdown .host) _ | .spawn .host | .spawnOn .host _ | .wake .host _ _ | .requestSafepoint .host _
  | .worldIsStopped .host | .shutdown .host _ => true
  | _ => false

end Ctl

section
variable {cfg : Config} {t : Tid cfg} {m m' : Mem cfg} {c c' : Ctl cfg} {ch : Choice cfg} {w : Option (Addr cfg)}

theorem awaken_external {a : Addr cfg} (h : c.external = true) : (awaken t a c).external = true := by
  unfold awaken
  split <;> (try split) <;> first | exact h | (rename_i k _ _; rcases k with _ | (_ | _) | (_ | _) <;> first | rfl | cases h)

theorem ExecCase.external {x : ℕ} (h : ExecCase (.ext x) m c ch (m', c', w)) (hc : c.external = true) :
    c'.external = true := by
  cases h with
  | @callHost o _ h =>
    obtain ⟨ho, rfl, rfl, -⟩ := execCall_inv h
    cases o <;> first | rfl | cases ho
  | callTask h => cases hc
  | suspend ht | run ht | drive ht | pop ht | steal ht | park ht => cases ht
  | @push a k j pc r _ _ h =>
    unfold execPush at h
    rcases k with _ | ⟨_ | _, _⟩
    · cases hc
    · split at h <;> cases h <;> rfl
    · cases hc
  | @inject k j => rcases k with (_ | ⟨_ | _, _⟩) | (_ | _) <;> first | rfl | cases hc
  | @notify k pc r h =>
    unfold execNotify at h
    rcases k with _ | (_ | _)
    · cases hc
    · (repeat' split at h) <;> cases h <;> rfl
    · cases hc
  | @hasWork k pc r h =>
    unfold execHasWork at h
    rcases k with _ | (_ | _)
    · cases hc
    · (repeat' split at h) <;> cases h <;> rfl
    · cases hc
  | enter h => cases hc
  | @release k pc r h =>
    unfold execRelease at h
    rcases k with _ | (_ | _) | (_ | _)
    · cases hc
    · split at h <;> cases h <;> rfl
    · cases hc
    · split at h <;> cases h <;> rfl
    · cases hc
  | @spawn k => cases k <;> first | rfl | cases hc
  | @spawnOn k a => cases k <;> first | rfl | cases hc
  | @wake k id pc r h =>
    simp only [execWake] at h
    cases k
    · split at h <;> cases h <;> rfl
    · cases hc
  | stopTheWorld h => cases hc
  | @requestSafepoint k pc r h =>
    cases k
    · cases pc <;> simp only [execRequestSafepoint] at h <;> split at h <;> cases h <;> rfl
    · cases hc
  | @worldIsStopped k => cases k <;> first | rfl | cases hc
  | @shutdown k pc r h =>
    unfold execShutdown at h
    cases k
    · (repeat' split at h) <;> cases h <;> rfl
    · cases hc
  | poll => cases hc
  | spurious h =>
    unfold spuriousWake at h
    split at h <;> cases h
    · cases hc
    · rename_i k _
      rcases k with _ | (_ | _) | (_ | _) <;> first | rfl | cases hc
    · cases hc

/-- In every run a thread that drives no agent stays in the operations that need none. -/
theorem external_of_run {ok : State cfg → Act cfg → Prop} {s : State cfg} (h : Reachable ok s) (x : ℕ) :
    (s.ctl (.ext x)).external = true := by
  refine h.keeps (P := fun s => ∀ x, (s.ctl (.ext x)).external = true) ?_ (fun _ => rfl) x
  intro s a s' ih _ hstep x
  obtain ⟨m, c, w, he, -, hc⟩ := step_inv hstep
  refine Program.forall_ctl (P := fun t c => ∀ x, t = .ext x → c.external = true) ?_ hc ?_ ?_ (.ext x) x rfl
  · exact fun t r c h x ht => awaken_external (h x ht)
  · intro x ht
    rw [ht] at he
    exact he.external (ih x)
  · rintro _ - x rfl
    exact ih x

end

end Krio.Parallel
