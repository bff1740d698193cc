import Krio.Parallel.Shutdown

/-! Threads asleep in `Park::park`, and who still has to wake them. Whoever moves a word that threads sleep on
signals it in a later step: `notify_one` and `shutdown` unpark the slot that they moved, `release` wakes all on
the state word, and an agent that arrives at the barrier or leaves it wakes all on the count. -/

namespace Krio.Parallel
open Lib Safepoint

variable {cfg : Config}

namespace Ctl

/-- Asleep in `Park::park`. -/
def asleep : Ctl cfg → Bool
  | .run .asleep | .enter _ (.asleep _) | .release _ (.asleep _) | .stopTheWorld _ (.awaitAll (.asleep _)) => true
  | _ => false

/-- About to unpark the slot of this agent. -/
def unparks : Ctl cfg → Option ℕ
  | .notify _ (.unpark i) | .shutdown _ (.unpark i) => some i
  | _ => none

/-- About to wake all on the state word. -/
def wakesAll : Ctl cfg → Bool
  | .release _ .wakeAll => true
  | _ => false

/-- About to wake all on the count. -/
def tells : Ctl cfg → Bool
  | .enter _ (.announce _) | .enter _ .tell => true
  | _ => false

/-- Inside `enter`, past its snapshot of a pending stop. -/
def inBarrier : Ctl cfg → Bool
  | .enter _ .load => false
  | .enter _ _ => true
  | _ => false

end Ctl

section
variable {t : Tid cfg} {m m' : Mem cfg} {c c' : Ctl cfg} {ch : Choice cfg} {w : Option (Addr cfg)}

/-! ### Going to sleep -/

theorem enter_asleep {sp sp' : Safepoint} {pc : EnterPc} {x : BitVec 32} {y : Option Word}
    (h : sp.enter pc = some (sp', .next (.asleep x), y)) : sp' = sp ∧ y = none ∧ pc = .park x ∧ x = sp.state := by
  cases pc <;> simp only [Safepoint.enter] at h <;> (try split at h) <;> cases h
  exact ⟨rfl, rfl, by simp [*], by simp [*]⟩

theorem release_asleep {sp sp' : Safepoint} {stopping : Bool} {pc : ReleasePc} {n : BitVec 32} {y : Option Word}
    (h : sp.release stopping pc = some (sp', .next (.asleep n), y)) :
    sp' = sp ∧ y = none ∧ pc = .park n ∧ n = sp.stopped := by
  cases pc <;> simp only [Safepoint.release, releaseSeen] at h <;> (repeat' split at h) <;> cases h
  exact ⟨rfl, rfl, by simp [*], by simp [*]⟩

theorem awaitAll_asleep {sp : Safepoint} {expected n : BitVec 32} {stopping : Bool} {pc : AwaitPc}
    (h : sp.awaitAll expected stopping pc = some (.next (.asleep n))) : pc = .park n ∧ n = sp.stopped := by
  cases pc <;> simp only [Safepoint.awaitAll, Option.some.injEq, reduceCtorEq] at h
  all_goals split at h <;> cases h
  exact ⟨rfl, by simp [*]⟩

/-- The steps that put a thread to sleep. -/
inductive FallsAsleep (t : Tid cfg) (m : Mem cfg) : Ctl cfg → Ctl cfg → Prop
  | slot {i : Fin cfg.agentCount} : t = .agent i → m.slots i = .parked → FallsAsleep t m (.run .park) (.run .asleep)
  | enter {k : EnterK} : FallsAsleep t m (.enter k (.park m.safepoint.state)) (.enter k (.asleep m.safepoint.state))
  | release {k : ReleaseK} :
      FallsAsleep t m (.release k (.park m.safepoint.stopped)) (.release k (.asleep m.safepoint.stopped))
  | awaitAll {k : Site} : FallsAsleep t m (.stopTheWorld k (.awaitAll (.park m.safepoint.stopped)))
      (.stopTheWorld k (.awaitAll (.asleep m.safepoint.stopped)))

@[simp] theorem asleep_siteResume (k : Site) : (k.resume : Ctl cfg).asleep = false := by cases k <;> rfl
@[simp] theorem asleep_enterResume (k : EnterK) : (k.resume : Ctl cfg).asleep = false := by
  rcases k with _ | _ | (_ | _) <;> rfl
@[simp] theorem asleep_releaseResume (k : ReleaseK) : (k.resume : Ctl cfg).asleep = false := by
  rcases k with (_ | _) | (_ | _) | _ <;> rfl
theorem asleep_start (k : Site) (o : Call cfg) : (o.start k).asleep = false := by cases o <;> rfl

/-- Outside the functions of the safepoint threads sleep on their own slots only. -/
theorem asleep_of_aside (h : c.aside = true) (hc : c.asleep = true) : c = .run .asleep := by
  unfold Ctl.asleep at hc
  split at hc <;> first | rfl | cases h | cases hc

theorem ExecCase.fallsAsleep (h : ExecCase t m c ch (m', c', w)) (hc : c'.asleep = true) :
    m' = m ∧ w = none ∧ FallsAsleep t m c c' := by
  have slot : c' = .run .asleep → m' = m ∧ w = none ∧ FallsAsleep t m c c' := by
    intro hc'
    obtain ⟨i, ht, rfl, -, hslot, hm, hw⟩ := h.sleeps hc'
    exact ⟨hm, hw, hc' ▸ .slot ht hslot⟩
  by_cases ha : c.aside = true
  · obtain ⟨-, -, hc' | ⟨k, rfl⟩ | ⟨o, k, -, rfl⟩⟩ := h.aside ha
    · exact slot (asleep_of_aside hc' hc)
    · cases hc
    · rw [asleep_start] at hc
      cases hc
  · cases h with
    | @enter k pc r h =>
      unfold execEnter at h
      split at h <;> cases h
      · rename_i pc' _ hp
        cases pc' <;> try exact absurd hc Bool.false_ne_true
        obtain ⟨rfl, rfl, rfl, rfl⟩ := enter_asleep hp
        exact ⟨rfl, rfl, .enter⟩
      · simp at hc
    | @release k pc r h =>
      unfold execRelease at h
      split at h <;> cases h
      · rename_i pc' _ hp
        cases pc' <;> try exact absurd hc Bool.false_ne_true
        obtain ⟨rfl, rfl, rfl, rfl⟩ := release_asleep hp
        exact ⟨rfl, rfl, .release⟩
      · simp at hc
    | @stopTheWorld k pc r h =>
      cases pc with
      | awaitAll pc =>
        simp only [execStop] at h
        split at h <;> cases h
        · rename_i pc' hp
          cases pc' <;> try exact absurd hc Bool.false_ne_true
          obtain ⟨rfl, rfl⟩ := awaitAll_asleep hp
          exact ⟨rfl, rfl, .awaitAll⟩
        · cases hc
        · cases hc
      | _ =>
        simp only [execStop] at h
        (repeat' split at h) <;> cases h <;> first | cases hc | simp at hc
    | @requestSafepoint k pc r h =>
      cases pc <;> simp only [execRequestSafepoint] at h <;> split at h <;> cases h <;>
        first | cases hc | simp at hc
    | @shutdown k pc r h =>
      unfold execShutdown at h
      (repeat' split at h) <;> cases h <;> first | cases hc | simp at hc
    | spurious h =>
      unfold spuriousWake at h
      split at h <;> cases h <;> cases hc
    | _ => exact absurd rfl ha

/-! ### Moving what threads sleep on -/

/-- What a step does to the words of the safepoint, and where it leaves the thread that moves one. -/
inductive WordStep (m : Mem cfg) (c : Ctl cfg) (m' : Mem cfg) (c' : Ctl cfg) : Prop
  | same : m'.safepoint = m.safepoint → WordStep m c m' c'
  | request : pending m.safepoint.state = false →
      m'.safepoint = { m.safepoint with state := m.safepoint.state + 1 } →
      c'.role = .owner ∨ c'.stopOp = some .requestSafepoint → WordStep m c m' c'
  | release {k : ReleaseK} {hp : pending m.safepoint.state = true} : c = .release k (.cas m.safepoint.state hp) →
      m'.safepoint = { m.safepoint with state := m.safepoint.state + 1 } → c' = .release k .wakeAll → WordStep m c m' c'
  | arrive {k : EnterK} {x : BitVec 32} : c = .enter k (.arrive x) →
      m'.safepoint = { m.safepoint with stopped := m.safepoint.stopped + 1 } → c' = .enter k (.announce x) →
      WordStep m c m' c'
  | leave {k : EnterK} : c = .enter k .leave →
      m'.safepoint = { m.safepoint with stopped := m.safepoint.stopped - 1 } → c' = .enter k .tell → WordStep m c m' c'

theorem enter_word {sp sp' : Safepoint} {pc : EnterPc} {o : Out EnterPc Unit} {y : Option Word}
    (h : sp.enter pc = some (sp', o, y)) :
    sp' = sp ∨ (∃ x, pc = .arrive x ∧ sp' = { sp with stopped := sp.stopped + 1 } ∧ o = .next (.announce x)) ∨
      pc = .leave ∧ sp' = { sp with stopped := sp.stopped - 1 } ∧ o = .next .tell := by
  cases pc <;> cases h <;> simp

theorem release_word {sp sp' : Safepoint} {stopping : Bool} {pc : ReleasePc} {o : Out ReleasePc Unit} {y : Option Word}
    (h : sp.release stopping pc = some (sp', o, y)) :
    sp' = sp ∨ ∃ hp, pc = .cas sp.state hp ∧ sp' = { sp with state := sp.state + 1 } ∧ o = .next .wakeAll := by
  cases pc with
  | cas x hx =>
    simp only [Safepoint.release] at h
    split at h <;> cases h
    · rename_i heq
      subst heq
      exact Or.inr ⟨hx, rfl, rfl, rfl⟩
    · exact Or.inl rfl
  | _ => cases h <;> exact Or.inl rfl

theorem ExecCase.word (h : ExecCase t m c ch (m', c', w)) : WordStep m c m' c' := by
  by_cases ha : c.aside = true
  · exact .same (h.aside ha).1
  · cases h with
    | @enter k pc r h =>
      unfold execEnter at h
      split at h <;> cases h <;> rcases enter_word ‹_› with rfl | ⟨x, rfl, rfl, ho⟩ | ⟨rfl, rfl, ho⟩ <;>
        first | exact .same rfl | (cases ho; done) | (cases ho; exact .arrive rfl rfl rfl) | (cases ho; exact .leave rfl rfl rfl)
    | @release k pc r h =>
      unfold execRelease at h
      split at h <;> cases h <;> rcases release_word ‹_› with rfl | ⟨hp, rfl, rfl, ho⟩ <;>
        first | exact .same rfl | (cases ho; done) | (cases ho; exact .release rfl rfl rfl)
    | @stopTheWorld k pc r h =>
      cases pc with
      | request pc =>
        simp only [execStop] at h
        split at h <;> cases h <;> rcases request_inv ‹_› with ⟨rfl, ho⟩ | ⟨hp, rfl, ho⟩ <;>
          first | exact .same rfl | exact .request hp rfl (Or.inl rfl) | cases ho
      | _ =>
        refine .same ?_
        simp only [execStop] at h
        (repeat' split at h) <;> cases h <;> rfl
    | @requestSafepoint k pc r h =>
      cases pc with
      | request pc =>
        simp only [execRequestSafepoint] at h
        split at h <;> cases h <;> rcases request_inv ‹_› with ⟨rfl, ho⟩ | ⟨hp, rfl, ho⟩ <;>
          first | exact .same rfl | exact .request hp rfl (Or.inr rfl) | cases ho
      | _ =>
        refine .same ?_
        simp only [execRequestSafepoint] at h
        split at h <;> cases h <;> rfl
    | shutdown h => exact .same (execShutdown_role h).1
    | spurious h => exact .same rfl
    | _ => exact absurd rfl ha

/-- The thread that moved a word signals it in its next step. -/
theorem ExecCase.signals_word (h : ExecCase t m c ch (m', c', w)) :
    (c.wakesAll = true → w = some (.word .state)) ∧ (c.tells = true → w = some (.word .stopped)) := by
  cases c with
  | enter k pc =>
    refine ⟨by rintro ⟨⟩, fun hc => ?_⟩
    cases h with
    | enter h =>
      cases pc <;> first | (cases hc; done) | (cases h; rfl)
    | spurious h => cases pc <;> first | (cases hc; done) | cases h
  | release k pc =>
    refine ⟨fun hc => ?_, by rintro ⟨⟩⟩
    cases h with
    | release h =>
      cases pc <;> first | (cases hc; done) | (cases h; rfl)
    | spurious h => cases pc <;> first | (cases hc; done) | cases h
  | _ => exact ⟨by rintro ⟨⟩, by rintro ⟨⟩⟩

/-- So does the thread that moved a slot. -/
theorem ExecCase.signals_slot {i : Fin cfg.agentCount} (h : ExecCase t m c ch (m', c', w)) (hc : c.unparks = some i) :
    w = some (.slot i) := by
  unfold Ctl.unparks at hc
  split at hc <;> cases hc
  · cases h with
    | notify h =>
      simp only [execNotify, dif_pos i.isLt] at h
      cases h
      rfl
    | spurious h => cases h
  · cases h with
    | shutdown h =>
      simp only [execShutdown, dif_pos i.isLt] at h
      cases h
      rfl
    | spurious h => cases h

/-- A slot leaves `PARKED` by its agent's own step, or by the step of a thread that then unparks it. -/
theorem ExecCase.unpark {i : Fin cfg.agentCount} (h : ExecCase t m c ch (m', c', w)) (ht : t ≠ .agent i)
    (hp : m.slots i = .parked) : m'.slots i = .parked ∨ c'.unparks = some i := by
  have moved : ∀ {j : Fin cfg.agentCount}, m'.slots = Function.update m.slots j .notified → c'.unparks = some j →
      m'.slots i = .parked ∨ c'.unparks = some i := by
    intro j hsl hc'
    obtain rfl | hj := eq_or_ne i j
    · exact Or.inr hc'
    · exact Or.inl (by rw [hsl, Function.update_of_ne hj, hp])
  cases h.slots with
  | same hsl => exact Or.inl (hsl ▸ hp)
  | @own j x hta hsl =>
    have hj : i ≠ j := by
      rintro rfl
      exact ht hta
    exact Or.inl (by rw [hsl, Function.update_of_ne hj, hp])
  | notify _ _ hsl hc' => exact moved hsl (by rw [hc']; rfl)
  | @shutdown k n hc =>
    subst hc
    cases h with
    | shutdown h =>
      simp only [execShutdown] at h
      split at h <;> cases h
      · exact moved (j := ⟨n, ‹_›⟩) rfl rfl
      · exact Or.inl hp
    | spurious h => cases h

/-- No other thread puts a slot to `PARKED`. -/
theorem ExecCase.unparked {i : Fin cfg.agentCount} (h : ExecCase t m c ch (m', c', w)) (ht : t ≠ .agent i)
    (hp : m.slots i ≠ .parked) : m'.slots i ≠ .parked := by
  have moved : ∀ {j : Fin cfg.agentCount} {x : ParkState}, m'.slots = Function.update m.slots j x →
      (i = j → x ≠ .parked) → m'.slots i ≠ .parked := by
    intro j x hsl hx
    rw [hsl]
    obtain rfl | hj := eq_or_ne i j
    · rw [Function.update_self]
      exact hx rfl
    · rwa [Function.update_of_ne hj]
  cases h.slots with
  | same hsl => rwa [hsl]
  | own hta hsl => exact moved hsl fun hj => absurd (hj ▸ hta) ht
  | notify _ _ hsl => exact moved hsl fun _ => by simp
  | @shutdown k n hc =>
    subst hc
    cases h with
    | shutdown h =>
      simp only [execShutdown] at h
      split at h <;> cases h
      · exact moved (j := ⟨n, ‹_›⟩) rfl fun _ => by simp
      · exact hp
    | spurious h => cases h

/-! ### Signals -/

/-- A signal puts nobody to sleep. -/
theorem awaken_of_asleep {r : Addr cfg} (h : (awaken t r c).asleep = true) : awaken t r c = c := by
  unfold awaken at h ⊢
  split <;> (try split) <;> first | rfl | simp_all [Ctl.asleep]

theorem awaken_unparks (t : Tid cfg) (a : Addr cfg) (c : Ctl cfg) : (awaken t a c).unparks = c.unparks := by
  unfold awaken
  split <;> (try split) <;> rfl

theorem awaken_wakesAll (t : Tid cfg) (a : Addr cfg) (c : Ctl cfg) : (awaken t a c).wakesAll = c.wakesAll := by
  unfold awaken
  split <;> (try split) <;> rfl

theorem awaken_tells (t : Tid cfg) (a : Addr cfg) (c : Ctl cfg) : (awaken t a c).tells = c.tells := by
  unfold awaken
  split <;> (try split) <;> rfl

theorem awaken_inBarrier (t : Tid cfg) (a : Addr cfg) (c : Ctl cfg) : (awaken t a c).inBarrier = c.inBarrier := by
  unfold awaken
  split <;> (try split) <;> rfl

end

section
variable {s s' : State cfg} {a : Act cfg} {m' : Mem cfg} {c : Ctl cfg} {w : Option (Addr cfg)} {t : Tid cfg}

/-- A thread that is asleep after a step went to sleep in it, or it was asleep before and the step's signal does
    not concern it. -/
theorem asleep_cases (he : ExecCase a.1 s.mem (s.ctl a.1) a.2 (m', c, w))
    (hctl : s'.ctl = (cluster cfg).signal w (Function.update s.ctl a.1 c)) (ht : (s'.ctl t).asleep = true) :
    (t = a.1 ∧ m' = s.mem ∧ w = none ∧ FallsAsleep t s.mem (s.ctl t) (s'.ctl t)) ∨
      t ≠ a.1 ∧ s'.ctl t = s.ctl t ∧ ∀ r, w = some r → awaken t r (s.ctl t) = s.ctl t := by
  obtain rfl | hta := eq_or_ne t a.1
  · rcases Program.ctl_acting hctl with hc | ⟨r, rfl, hc⟩
    · rw [hc] at ht
      obtain ⟨hm, hw, hf⟩ := he.fallsAsleep ht
      exact Or.inl ⟨rfl, hm, hw, hc ▸ hf⟩
    · rw [hc] at ht
      rw [show (cluster cfg).wake a.1 r c = c from awaken_of_asleep ht] at ht
      obtain ⟨-, hw, -⟩ := he.fallsAsleep ht
      cases hw
  · refine Or.inr ⟨hta, ?_⟩
    rcases Program.ctl_other hctl hta with hc | ⟨r, rfl, hc⟩
    · refine ⟨hc, fun r hr => ?_⟩
      subst hr
      have hc' : s'.ctl t = awaken t r (s.ctl t) := by
        rw [hctl]
        simp [Program.signal, cluster, Function.update_of_ne hta]
      exact hc'.symm.trans hc
    · rw [hc] at ht
      have hsame : awaken t r (s.ctl t) = s.ctl t := awaken_of_asleep ht
      exact ⟨hc.trans hsame, fun r' hr' => by cases hr'; exact hsame⟩

end

end Krio.Parallel
