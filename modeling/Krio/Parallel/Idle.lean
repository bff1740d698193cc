import Krio.Parallel.Inversion

/-! How an agent of `run` goes idle: it publishes `PARKED`, re-checks the injector and then the deques,
and parks. -/

namespace Krio.Parallel
open Lib

variable {cfg : Config} {t : Tid cfg} {m m' : Mem cfg} {c c' : Ctl cfg} {ch : Choice cfg} {w : Option (Addr cfg)}

/-- Past the re-check of the injector, on the way to sleep or asleep. -/
def Ctl.pastCheck : Ctl cfg → Bool
  | .hasWork .run (.bottom _) | .hasWork .run (.top _ _) | .run .park | .run .asleep => true
  | _ => false

/-- A signal puts nobody to sleep, and wakes the agent that sleeps on it. -/
theorem asleep_of_awaken {r : Addr cfg} (h : awaken t r c = .run .asleep) :
    c = .run .asleep ∧ ∀ i, t = .agent i → r ≠ .slot i := by
  unfold awaken at h
  split at h
  · split at h
    · cases h
    · rename_i hne
      exact ⟨rfl, fun i ht hr => hne ⟨i, ht, hr⟩⟩
  · split at h <;> cases h
  · split at h <;> cases h
  · split at h <;> cases h
  · rename_i hne _ _ _
    exact absurd h hne

theorem awaken_of_pastCheck {r : Addr cfg} (h : (awaken t r c).pastCheck = true) : awaken t r c = c := by
  unfold awaken at h ⊢
  split <;> (try split) <;> first | rfl | simp_all [Ctl.pastCheck]

/-- The steps that bring a thread past the re-check of the injector, or further. -/
inductive Recheck (t : Tid cfg) (m : Mem cfg) : Ctl cfg → Ctl cfg → Prop
  | injector : m.injector = [] → Recheck t m (.hasWork .run .injector) (.hasWork .run (.bottom 0))
  | bottom {a : ℕ} (h : a < cfg.agentCount) :
      Recheck t m (.hasWork .run (.bottom a)) (.hasWork .run (.top a (m.deques ⟨a, h⟩).bottom))
  | top {a : ℕ} {b : BitVec cfg.w} (h : a < cfg.agentCount) : Deque.lenOf b (m.deques ⟨a, h⟩).top = 0 →
      Recheck t m (.hasWork .run (.top a b)) (.hasWork .run (.bottom (a + 1)))
  | done {a : ℕ} : cfg.agentCount ≤ a → Recheck t m (.hasWork .run (.bottom a)) (.run .park)
  | sleep {i : Fin cfg.agentCount} : t = .agent i → m.slots i = .parked → Recheck t m (.run .park) (.run .asleep)

/-- A thread gets past the re-check of the injector only by these steps, which write nothing. -/
theorem ExecCase.recheck (h : ExecCase t m c ch (m', c', w)) (hc : c'.pastCheck = true) :
    m' = m ∧ w = none ∧ ch = .go ∧ Recheck t m c c' := by
  have site : ∀ k : Site, (k.resume : Ctl cfg).pastCheck ≠ true := by rintro (_ | _) ⟨⟩
  cases h with
  | @callHost o r h =>
    obtain ⟨-, -, rfl, -⟩ := execCall_inv h
    cases o <;> cases hc
  | @callTask p j o r h =>
    obtain ⟨-, -, rfl, -⟩ := execCall_inv h
    cases o <;> cases hc
  | run ht h =>
    unfold execRun at h
    (repeat' split at h) <;> cases h <;> first | exact ⟨rfl, rfl, rfl, .sleep ht ‹_›⟩ | cases hc
  | suspend _ h =>
    unfold Parallel.suspend at h
    split at h <;> cases h <;> cases hc
  | drive _ h =>
    unfold execDrive Pass.finish at h
    (repeat' split at h) <;> cases h <;> cases hc
  | pop _ h =>
    unfold execPop at h
    split at h <;> cases h <;> cases hc
  | steal _ h =>
    unfold execSteal at h
    split at h <;> cases h <;> cases hc
  | @push a k j pc r _ _ h =>
    unfold execPush at h
    split at h <;> cases h <;> rcases k with ⟨_, _ | _⟩ | _ <;> cases hc
  | park _ h =>
    unfold execPark at h
    split at h <;> cases h <;> cases hc
  | @inject k j => rcases k with (⟨_, _ | _⟩ | _) | _ <;> cases hc
  | @notify k pc r h =>
    unfold execNotify at h
    (repeat' split at h) <;> cases h <;> rcases k with _ | (_ | _) <;> cases hc
  | @hasWork k pc r h =>
    rcases k with _ | k
    · unfold execHasWork at h
      (repeat' split at h) <;> cases h
      · exact ⟨rfl, rfl, rfl, .injector ‹_›⟩
      · cases hc
      · exact ⟨rfl, rfl, rfl, .bottom ‹_›⟩
      · exact ⟨rfl, rfl, rfl, .done (not_lt.mp ‹_›)⟩
      · exact ⟨rfl, rfl, rfl, .top ‹_› ‹_›⟩
      · cases hc
    · unfold execHasWork at h
      (repeat' split at h) <;> cases h <;> first | cases hc | exact absurd hc (site k)
  | @enter k pc r h =>
    unfold execEnter at h
    split at h <;> cases h <;> rcases k with _ | _ | (_ | _) <;> cases hc
  | @release k pc r h =>
    unfold execRelease at h
    split at h <;> cases h <;> rcases k with (_ | _) | (_ | _) | _ <;> cases hc
  | spawn | spawnOn => cases hc
  | @wake k id pc r h =>
    simp only [execWake] at h
    split at h <;> cases h <;> first | cases hc | exact absurd hc (site k)
  | @stopTheWorld k pc r h =>
    cases pc <;> simp only [execStop] at h <;> (repeat' split at h) <;> cases h <;>
      first | cases hc | exact absurd hc (site k)
  | @requestSafepoint k pc r h =>
    cases pc <;> simp only [execRequestSafepoint] at h <;> split at h <;> cases h <;>
      first | cases hc | exact absurd hc (site k)
  | @worldIsStopped k => exact absurd hc (site k)
  | @shutdown k pc r h =>
    unfold execShutdown at h
    (repeat' split at h) <;> cases h <;> first | cases hc | exact absurd hc (site k)
  | @poll k =>
    split at hc
    · cases hc
    · exact absurd hc (site k)
  | spurious h =>
    unfold spuriousWake at h
    split at h <;> cases h <;> cases hc

/-- A thread gets to sleep on its slot only from `Park::park`, which found `PARKED`. -/
theorem ExecCase.sleeps (h : ExecCase t m c ch (m', c', w)) (hc : c' = .run .asleep) :
    ∃ i, t = .agent i ∧ c = .run .park ∧ ch = .go ∧ m.slots i = .parked ∧ m' = m ∧ w = none := by
  obtain ⟨rfl, rfl, rfl, hr⟩ := h.recheck (by rw [hc]; rfl)
  cases hr with
  | sleep ht hslot => exact ⟨_, ht, rfl, rfl, hslot, rfl, rfl⟩
  | _ => cases hc

/-- An agent that is asleep after a step of another thread was asleep before, and was not signalled. -/
theorem asleep_before {s s' : State cfg} {a : Act cfg} {i : Fin cfg.agentCount}
    (hc : s'.ctl = (cluster cfg).signal w (Function.update s.ctl a.1 c)) (ha : a.1 ≠ .agent i)
    (hi : s'.ctl (.agent i) = .run .asleep) : s.ctl (.agent i) = .run .asleep ∧ w ≠ some (.slot i) := by
  rcases Program.ctl_other hc ha.symm with hcc | ⟨r, rfl, hcc⟩
  · refine ⟨hcc.symm.trans hi, ?_⟩
    rintro rfl
    rw [hc] at hi
    exact (asleep_of_awaken hi).2 i rfl rfl
  · obtain ⟨h₁, h₂⟩ := asleep_of_awaken (hcc.symm.trans hi)
    exact ⟨h₁, by simpa using h₂ i rfl⟩

end Krio.Parallel
