import Krio.Parallel.Idle
import Krio.Parallel.Jobs

/-! No submitted work is slept through. An agent on its way to sleep has published `PARKED` before it
found the injector empty, so whoever fills the injector while every agent is on that way finds an agent to
notify; and its own deque is empty, since only the agent itself puts anything there. -/

namespace Krio.Parallel
open Lib

section
variable {cfg : Config} {t : Tid cfg} {m m' : Mem cfg} {c c' : Ctl cfg} {ch : Choice cfg} {w : Option (Addr cfg)}

/-- What a step does to the parking slots. -/
inductive SlotStep (t : Tid cfg) (m : Mem cfg) (c : Ctl cfg) (m' : Mem cfg) (c' : Ctl cfg) : Prop
  | same : m'.slots = m.slots → SlotStep t m c m' c'
  | own {i : Fin cfg.agentCount} {x : ParkState} : t = .agent i → m'.slots = Function.update m.slots i x →
      c'.pastCheck = false → (x = .parked → c' = .run .recheck) → SlotStep t m c m' c'
  | notify {k : NotifyK} {j : Fin cfg.agentCount} : c = .notify k (.scan j) → m.slots j = .parked →
      m'.slots = Function.update m.slots j .notified → c' = .notify k (.unpark j) → SlotStep t m c m' c'
  | shutdown {k : Site} {i : ℕ} : c = .shutdown k (.notify i) → SlotStep t m c m' c'

theorem ExecCase.slots (h : ExecCase t m c ch (m', c', w)) : SlotStep t m c m' c' := by
  cases h with
  | callHost h | callTask h =>
    obtain ⟨-, rfl, -, -⟩ := execCall_inv h
    exact .same rfl
  | suspend _ h =>
    unfold Parallel.suspend at h
    split at h <;> cases h <;> exact .same rfl
  | run ht h =>
    unfold execRun at h
    (repeat' split at h) <;> cases h <;> first | exact .same rfl | exact .own ht rfl rfl (by simp)
  | drive _ h =>
    unfold execDrive at h
    (repeat' split at h) <;> cases h <;> exact .same rfl
  | pop _ h =>
    unfold execPop at h
    split at h <;> cases h <;> exact .same rfl
  | steal _ h =>
    unfold execSteal at h
    split at h <;> cases h <;> exact .same rfl
  | push _ _ h =>
    unfold execPush at h
    split at h <;> cases h <;> exact .same rfl
  | park _ h =>
    unfold execPark at h
    split at h <;> cases h <;> exact .same rfl
  | inject | spawn | spawnOn | worldIsStopped | poll | spurious => exact .same rfl
  | notify h =>
    unfold execNotify at h
    (repeat' split at h) <;> cases h
    · exact .notify rfl ‹_› rfl rfl
    all_goals exact .same rfl
  | hasWork h =>
    unfold execHasWork at h
    (repeat' split at h) <;> cases h <;> exact .same rfl
  | enter h =>
    unfold execEnter at h
    split at h <;> cases h <;> exact .same rfl
  | release h =>
    unfold execRelease at h
    split at h <;> cases h <;> exact .same rfl
  | wake h =>
    simp only [execWake] at h
    split at h <;> cases h <;> (split <;> exact .same rfl)
  | @stopTheWorld k pc r h =>
    cases pc <;> simp only [execStop] at h <;> (repeat' split at h) <;> cases h <;> exact .same rfl
  | @requestSafepoint k pc r h =>
    cases pc <;> simp only [execRequestSafepoint] at h <;> split at h <;> cases h <;> exact .same rfl
  | @shutdown k pc r h =>
    unfold execShutdown at h
    (repeat' split at h) <;> cases h <;> first | exact .same rfl | exact .shutdown rfl

/-- Only a push to the injector fills it. -/
theorem ExecCase.fills (h : ExecCase t m c ch (m', c', w)) (he : m.injector = []) (hf : m'.injector ≠ []) :
    ∃ k j, c = .inject k j ∧ c' = k.resume := by
  have stays : m'.injector = m.injector → ∃ k j, c = .inject k j ∧ c' = k.resume := fun h => absurd (h.trans he) hf
  rcases h.deque with ⟨v, d, rfl, -⟩ | ⟨u, v, pc, d, o, -, -, -, rfl⟩ | ⟨-, -, hh⟩
  · exact stays rfl
  · exact stays rfl
  · cases hh with
    | keep _ hi | park _ _ hi | wake _ hi => exact stays hi
    | spawn _ _ hm | complete _ _ hm => exact stays (by rw [hm]; rfl)
    | take _ _ hi => exact absurd (he.symm.trans hi) (by simp)
    | put hc hc' => exact ⟨_, _, hc, hc'⟩

/-- Past the store of `stopping` in `shutdown`. -/
def Ctl.shutting : Ctl cfg → Bool
  | .shutdown _ (.notify _) | .shutdown _ (.unpark _) | .release (.shutdown _) _ => true
  | _ => false

theorem shutting_siteResume (k : Site) : (k.resume : Ctl cfg).shutting = false := by cases k <;> rfl

theorem awaken_shutting (t : Tid cfg) (a : Addr cfg) (c : Ctl cfg) : (awaken t a c).shutting = c.shutting := by
  unfold awaken
  split <;> (try split) <;> first | rfl | (rename_i k _ _; cases k <;> rfl)

/-- `stopping` is never cleared, and a thread gets past its store only by making it. -/
theorem ExecCase.shutting (h : ExecCase t m c ch (m', c', w)) :
    (m.stopping = true → m'.stopping = true) ∧ (c'.shutting = true → c.shutting = true ∨ m'.stopping = true) := by
  have stays : ∀ {x : Mem cfg} {d : Ctl cfg}, x.stopping = m.stopping → d.shutting = false →
      (m.stopping = true → x.stopping = true) ∧ (d.shutting = true → c.shutting = true ∨ x.stopping = true) :=
    fun h₁ h₂ => ⟨fun h => h₁.trans h, fun h => by rw [h₂] at h; cases h⟩
  by_cases ha : c.aside = true
  · obtain ⟨-, hs, hc⟩ := h.aside ha
    refine stays hs ?_
    rcases hc with hc | ⟨k, rfl⟩ | ⟨o, k, -, rfl⟩
    · cases c' <;> first | rfl | cases hc
    · rfl
    · cases o <;> rfl
  · cases h with
    | @enter k pc r h =>
      unfold execEnter at h
      split at h <;> cases h <;> rcases k with _ | _ | (_ | _) <;> exact stays rfl rfl
    | @release k pc r h =>
      unfold execRelease at h
      rcases k with k | k | k
      · split at h <;> cases h <;> first | exact stays rfl rfl | exact stays rfl (shutting_siteResume k)
      · split at h <;> cases h <;> first | exact stays rfl rfl | exact stays rfl (shutting_siteResume k)
      · split at h <;> cases h <;> exact ⟨id, fun _ => Or.inl rfl⟩
    | @stopTheWorld k pc r h =>
      cases pc <;> simp only [execStop] at h <;> (repeat' split at h) <;> cases h <;>
        first | exact stays rfl rfl | exact stays rfl (shutting_siteResume k)
    | @requestSafepoint k pc r h =>
      cases pc <;> simp only [execRequestSafepoint] at h <;> split at h <;> cases h <;>
        first | exact stays rfl rfl | exact stays rfl (shutting_siteResume k)
    | @shutdown k pc r h =>
      unfold execShutdown at h
      (repeat' split at h) <;> cases h
      · exact ⟨fun _ => rfl, fun _ => Or.inr rfl⟩
      · exact ⟨id, fun _ => Or.inl rfl⟩
      · exact stays rfl (shutting_siteResume k)
      · exact ⟨id, fun _ => Or.inl rfl⟩
    | spurious h =>
      unfold spuriousWake at h
      split at h <;> cases h
      · exact stays rfl rfl
      · rename_i k _
        exact ⟨id, fun hc => Or.inl (by cases k <;> first | rfl | cases hc)⟩
      · exact stays rfl rfl
    | _ => exact absurd rfl ha

end

section
variable {cfg : Config} {s s' : State cfg} {a : Act cfg} {i : Fin cfg.agentCount}

/-- On its way to sleep, with a slot that a notifier would find. -/
def State.blind (s : State cfg) (i : Fin cfg.agentCount) : Prop :=
  (s.ctl (.agent i)).pastCheck = true ∧ s.mem.slots i = .parked

/-- Some notifier still has an agent to look at. -/
def State.searched (s : State cfg) : Prop := ∃ t k j, s.ctl t = .notify k (.scan j) ∧ j < cfg.agentCount

/-- Before shutdown, work in the injector has found an agent that is not on its way to sleep, or a notifier
    is about to find one; and an agent asleep on a slot that was notified is about to be unparked. -/
structure Attended (s : State cfg) : Prop where
  shutdown : ∀ t, (s.ctl t).shutting = true → s.mem.stopping = true
  offered : s.mem.stopping = false → s.mem.injector ≠ [] → (∀ i, s.blind i) → s.searched
  signalled : s.mem.stopping = false → ∀ i, s.ctl (.agent i) = .run .asleep →
    s.mem.slots i = .parked ∨ ∃ t k, s.ctl t = .notify k (.unpark i)

theorem Attended.step (h : Attended s) (hext : ∀ x, (s.ctl (.ext x)).external = true)
    (hstep : (cluster cfg).step s a = some s') : Attended s' := by
  obtain ⟨m, c, w, he, rfl, hctl⟩ := step_inv hstep
  have before : s'.mem.stopping = false → s.mem.stopping = false :=
    fun hs => Bool.eq_false_iff.mpr fun hs₀ => by rw [he.shutting.1 hs₀] at hs; cases hs
  have notifies : ∀ {t k pc}, t ≠ a.1 → s.ctl t = .notify k pc → s'.ctl t = .notify k pc := by
    intro t k pc ht hk
    rcases Program.ctl_other hctl ht with hc | ⟨r, -, hc⟩
    · exact hc.trans hk
    · rw [hc, hk]
      rfl
  have asWas : ∀ i, a.1 ≠ .agent i → (s'.ctl (.agent i)).pastCheck = true → s'.ctl (.agent i) = s.ctl (.agent i) := by
    intro i hi hp
    rcases Program.ctl_other hctl hi.symm with hc | ⟨r, -, hc⟩
    · exact hc
    · rw [hc] at hp ⊢
      exact awaken_of_pastCheck hp
  refine ⟨fun t ht => ?_, fun hs hinj hall => ?_, fun hs i hi => ?_⟩
  · obtain rfl | hta := eq_or_ne t a.1
    · rw [Program.view_self (v := fun _ c => c.shutting) awaken_shutting hctl] at ht
      rcases he.shutting.2 ht with hc | hc
      · exact he.shutting.1 (h.shutdown _ hc)
      · exact hc
    · rw [Program.view_other (v := fun _ c => c.shutting) awaken_shutting hctl hta] at ht
      exact he.shutting.1 (h.shutdown t ht)
  · cases ht : a.1 with
    | agent i =>
      -- The agent itself has gone a step further on its way, and the injector was not empty.
      have hp : c.pastCheck = true := by
        have hp' := (hall i).1
        rw [← ht] at hp'
        rcases Program.ctl_acting hctl with hc | ⟨r, -, hc⟩
        · rwa [hc] at hp'
        · rw [hc] at hp'
          rwa [show (cluster cfg).wake a.1 r c = c from awaken_of_pastCheck hp'] at hp'
      obtain ⟨hm, -, -, hr⟩ := he.recheck hp
      have hp₀ : (s.ctl a.1).pastCheck = true := by
        generalize s.ctl a.1 = c₀ at hr
        cases hr with
        | injector hnil => exact absurd (hm ▸ hnil) hinj
        | _ => rfl
      obtain ⟨t, k, j, htk, hj⟩ := h.offered (before hs) (hm ▸ hinj) fun j => by
        obtain rfl | hj := eq_or_ne j i
        · exact ⟨ht ▸ hp₀, hm ▸ (hall j).2⟩
        · have hja : a.1 ≠ .agent j := by
            rw [ht]
            simpa using hj.symm
          exact ⟨asWas j hja (hall j).1 ▸ (hall j).1, hm ▸ (hall j).2⟩
      refine ⟨t, k, j, notifies ?_ htk, hj⟩
      rintro rfl
      rw [htk] at hp₀
      cases hp₀
    | ext x =>
      have hctlEq : ∀ i, s'.ctl (.agent i) = s.ctl (.agent i) := fun i => asWas i (by rw [ht]; simp) (hall i).1
      have hslots : s'.mem.slots = s.mem.slots := by
        cases he.slots with
        | same hsl => exact hsl
        | own hta => exact absurd (hta.symm.trans ht) (by simp)
        | @notify k j _ _ hsl =>
          have := (hall j).2
          rw [hsl, Function.update_self] at this
          cases this
        | shutdown hc =>
          have := h.shutdown a.1 (by rw [hc]; rfl)
          rw [before hs] at this
          cases this
      have hall₀ : ∀ i, s.blind i := fun i => ⟨hctlEq i ▸ (hall i).1, hslots ▸ (hall i).2⟩
      by_cases hnil : s.mem.injector = []
      · obtain ⟨k, j, hc, hc'⟩ := he.fills hnil hinj
        have hx := hext x
        rw [← ht, hc] at hx
        obtain ⟨k', hk'⟩ : ∃ k', c = .notify k' (.scan 0) := by
          rw [hc']
          rcases k with (⟨_, _ | _⟩ | _) | _ <;> first | exact ⟨_, rfl⟩ | cases hx
        exact ⟨a.1, k', 0, by rw [Program.ctl_self hctl (fun r => by rw [hk']; rfl), hk'], cfg.agents_pos⟩
      · obtain ⟨t, k, j, htk, hj⟩ := h.offered (before hs) hnil hall₀
        refine ⟨t, k, j, notifies ?_ htk, hj⟩
        rintro rfl
        -- The notifier would have found the agent that it was at.
        rw [htk] at he
        generalize a.2 = ch at he
        generalize hm' : s'.mem = m' at he
        cases he with
        | notify hn =>
          simp only [execNotify, dif_pos hj, if_pos (hall₀ ⟨j, hj⟩).2] at hn
          cases hn
          have := congrFun hslots ⟨j, hj⟩
          rw [hm', (hall₀ ⟨j, hj⟩).2] at this
          simp [Mem.setSlot] at this
        | spurious hn => cases hn
  · by_cases hself : a.1 = .agent i
    · have hci : c = .run .asleep := by
        rw [← hself] at hi
        rcases Program.ctl_acting hctl with hcc | ⟨r, -, hcc⟩
        · exact hcc.symm.trans hi
        · exact (asleep_of_awaken (hcc.symm.trans hi)).1
      obtain ⟨j, hj, -, -, hslot, hm, -⟩ := he.sleeps hci
      obtain rfl : i = j := by simpa using hself.symm.trans hj
      exact Or.inl (hm ▸ hslot)
    · obtain ⟨hi₀, hw⟩ := asleep_before hctl hself hi
      rcases h.signalled (before hs) i hi₀ with hp | ⟨t, k, htk⟩
      · cases he.slots with
        | same hsl => exact Or.inl (hsl ▸ hp)
        | @own j x hta hsl =>
          have hji : i ≠ j := by
            rintro rfl
            exact hself hta
          exact Or.inl (by rw [hsl, Function.update_of_ne hji, hp])
        | @notify k j _ _ hsl hc' =>
          obtain rfl | hji := eq_or_ne i j
          · refine Or.inr ⟨a.1, k, ?_⟩
            rw [Program.ctl_self hctl (fun r => by rw [hc']; rfl), hc']
          · exact Or.inl (by rw [hsl, Function.update_of_ne hji, hp])
        | shutdown hc =>
          have := h.shutdown a.1 (by rw [hc]; rfl)
          rw [before hs] at this
          cases this
      · refine Or.inr ⟨t, k, notifies ?_ htk⟩
        rintro rfl
        -- The notifier would have unparked the agent.
        rw [htk] at he
        generalize a.2 = ch at he
        generalize s'.mem = m' at he
        cases he with
        | notify hn =>
          simp only [execNotify, dif_pos i.isLt] at hn
          cases hn
          exact hw rfl
        | spurious hn => cases hn

theorem attended_of_run {ok : State cfg → Act cfg → Prop} (h : Reachable ok s) : Attended s := by
  refine h.keeps_with (Q := fun s => ∀ x, (s.ctl (.ext x)).external = true) (P := Attended)
    (fun _ h x => external_of_run h x) (fun _ _ _ hx hs _ hstep => hs.step hx hstep) ⟨?_, ?_, ?_⟩
  · intro t ht
    cases ht
  · intro _ hinj
    exact absurd rfl hinj
  · intro _ i hi
    cases hi

/-! ### The deques of agents on their way to sleep -/

/-- The re-check of the deques is past the deque of agent `i`. -/
def Ctl.scanned (i : Fin cfg.agentCount) : Ctl cfg → Bool
  | .hasWork .run (.bottom a) | .hasWork .run (.top a _) => decide (i < a)
  | .run .park | .run .asleep => true
  | _ => false

/-- An agent has the last `bottom` of its own deque, and its own deque stays empty once it found it so. -/
structure Scanned (s : State cfg) : Prop where
  bottom : ∀ i b, s.ctl (.agent i) = .hasWork .run (.top i b) → b = (s.mem.deques i).bottom
  empty : ∀ i, (s.ctl (.agent i)).scanned i = true → (s.mem.deques i).bottom = (s.mem.deques i).top

theorem pastCheck_of_scanned {c : Ctl cfg} (h : c.scanned i = true) : c.pastCheck = true ∧ c.owner = .idle := by
  unfold Ctl.scanned at h
  split at h <;> first | exact ⟨rfl, rfl⟩ | cases h

/-- The deque of an idle agent whose counters agree holds nothing. -/
theorem Sound.live_eq_nil (hs : Sound s) (ho : s.owner i = .idle) (he : (s.mem.deques i).bottom = (s.mem.deques i).top) :
    s.live i = [] := by
  have hlen : ((s.mem.deques i).bottom - (s.mem.deques i).top).toNat = (s.live i).length :=
    Deque.Inv.upper_sub (o := .idle) (ho ▸ hs.deques i)
  rw [he, BitVec.sub_self] at hlen
  exact List.eq_nil_of_length_eq_zero hlen.symm

theorem deques_setDeque_self (m : Mem cfg) (v : Fin cfg.agentCount) (d : Deque cfg.w Job) :
    (m.setDeque v d).deques v = d := by
  show Function.update m.deques v d v = d
  rw [Function.update_self]

theorem deques_setDeque_of_ne {m : Mem cfg} {v : Fin cfg.agentCount} {d : Deque cfg.w Job} (hi : i ≠ v) :
    (m.setDeque v d).deques i = m.deques i := by
  show Function.update m.deques v d i = m.deques i
  rw [Function.update_of_ne hi]

/-- What another thread does with an agent's deque: nothing to its `bottom`, and nothing when it is empty. -/
theorem Sound.deque_other (hs : Sound s) (ha : Sane s a) {c : Ctl cfg} {w : Option (Addr cfg)}
    (he : ExecCase a.1 s.mem (s.ctl a.1) a.2 (s'.mem, c, w)) (hi : a.1 ≠ .agent i) :
    (s'.mem.deques i).bottom = (s.mem.deques i).bottom ∧ (s.live i = [] → s'.mem.deques i = s.mem.deques i) := by
  have same : s'.mem.deques i = s.mem.deques i → (s'.mem.deques i).bottom = (s.mem.deques i).bottom ∧
      (s.live i = [] → s'.mem.deques i = s.mem.deques i) := fun h => ⟨by rw [h], fun _ => h⟩
  rcases he.deque with ⟨v, d, hm, hv⟩ | ⟨u, v, pc, d, o, hu, hthief, hd, hm⟩ | ⟨hm, -, -⟩
  · refine same ?_
    have hvi : i ≠ v := by
      rintro rfl
      exact hi (hv (hs.onTarget a.1))
    rw [hm, deques_setDeque_of_ne hvi]
  · obtain rfl | hvi := eq_or_ne v i
    · have hdv : s'.mem.deques v = d := by rw [hm, deques_setDeque_self]
      have hk : s.thief v u = some pc := by rw [State.thief, ← hu, hthief]
      rw [hdv]
      rcases o with pc' | (_ | value)
      · obtain ⟨rfl, -⟩ := (hs.deques v).steal_next hk hd
        exact ⟨rfl, fun _ => rfl⟩
      · obtain ⟨rfl, -⟩ := (hs.deques v).steal_none (k := u) hd
        exact ⟨rfl, fun _ => rfl⟩
      · obtain ⟨x, l, hl, -⟩ := (hs.deques v).steal_some hk (ha.inTime v pc hthief) hd
        exact ⟨Deque.steal_bottom hd, fun hnil => absurd (hl.symm.trans hnil) (by simp)⟩
    · exact same (by rw [hm, deques_setDeque_of_ne hvi.symm])
  · exact same (by rw [hm])

theorem Scanned.step (h : Scanned s) (hs : Sound s) (ha : Sane s a) (hstep : (cluster cfg).step s a = some s') :
    Scanned s' := by
  obtain ⟨m, c, w, he, rfl, hctl⟩ := step_inv hstep
  -- The agent goes a step further itself, or it is where it was and another thread steps.
  have back : ∀ i, (s'.ctl (.agent i)).pastCheck = true →
      (a.1 = .agent i ∧ s'.mem = s.mem ∧ Recheck a.1 s.mem (s.ctl (.agent i)) (s'.ctl (.agent i))) ∨
        a.1 ≠ .agent i ∧ s'.ctl (.agent i) = s.ctl (.agent i) := by
    intro i hp
    by_cases hi : a.1 = .agent i
    · have hc : s'.ctl a.1 = c := by
        rw [← hi] at hp
        rcases Program.ctl_acting hctl with hc | ⟨r, -, hc⟩
        · exact hc
        · rw [hc] at hp ⊢
          exact awaken_of_pastCheck hp
      obtain ⟨hm, -, -, hr⟩ := he.recheck (by rw [← hc, hi]; exact hp)
      rw [← hi, hc]
      exact Or.inl ⟨rfl, hm, hr⟩
    · refine Or.inr ⟨hi, ?_⟩
      rcases Program.ctl_other hctl (Ne.symm hi) with hc | ⟨r, -, hc⟩
      · exact hc
      · rw [hc] at hp ⊢
        exact awaken_of_pastCheck hp
  refine ⟨fun i b hb => ?_, fun i hi => ?_⟩
  · rcases back i (by rw [hb]; rfl) with ⟨-, hm, hr⟩ | ⟨hne, hc⟩
    · rw [hb] at hr
      generalize s.ctl (.agent i) = c₀ at hr
      cases hr
      rw [hm]
    · rw [(hs.deque_other ha he hne).1]
      exact h.bottom i b (hc ▸ hb)
  · obtain ⟨hp, -⟩ := pastCheck_of_scanned hi
    rcases back i hp with ⟨-, hm, hr⟩ | ⟨hne, hc⟩
    · rw [hm]
      generalize hc₀ : s.ctl (.agent i) = c₀ at hr
      generalize s'.ctl (.agent i) = c₁ at hr hi
      cases hr with
      | injector => exact absurd (of_decide_eq_true (p := (i : ℕ) < 0) hi) (Nat.not_lt_zero _)
      | bottom => exact h.empty i (hc₀ ▸ hi)
      | @top a b hlt hlen =>
        obtain hia | hia : (i : ℕ) < a ∨ (i : ℕ) = a := Nat.lt_succ_iff_lt_or_eq.mp (of_decide_eq_true hi)
        · exact h.empty i (by rw [hc₀]; exact decide_eq_true hia)
        · -- The agent has just looked at its own deque.
          subst hia
          have hown : s.owner i = .idle := by rw [State.owner, hc₀]; rfl
          rw [h.bottom i b hc₀] at hlen
          exact Deque.Inv.bottom_eq_top (hown ▸ hs.deques i) hlen
      | done hle => exact h.empty i (by rw [hc₀]; exact decide_eq_true (i.isLt.trans_le hle))
      | sleep => exact h.empty i (by rw [hc₀]; rfl)
    · have hi₀ : (s.ctl (.agent i)).scanned i = true := hc ▸ hi
      have hempty := h.empty i hi₀
      rw [(hs.deque_other ha he hne).2 (hs.live_eq_nil (pastCheck_of_scanned hi₀).2 hempty)]
      exact hempty

theorem scanned_of_run (h : Reachable Sane s) : Scanned s := by
  refine h.keeps_with (Q := Sound) (P := Scanned) (fun _ h => sound_of_run h)
    (fun _ _ _ hs h ha hstep => h.step hs ha hstep) ⟨?_, ?_⟩
  · intro i b hb
    cases hb
  · intro i hi
    cases hi

/-- Asleep on its slot, or about to go to sleep on a slot that holds `PARKED`. -/
def State.sleeps (s : State cfg) (i : Fin cfg.agentCount) : Prop :=
  s.ctl (.agent i) = .run .asleep ∨ s.ctl (.agent i) = .run .park ∧ s.mem.slots i = .parked

/-- No submitted work is slept through: when before shutdown every agent sleeps and nobody is in `notify_one`,
    hence nobody in `spawn`, in `wake` or in a pass still has an agent to notify, the injector and all deques
    are empty. `Sane` runs: `spawn_on` comes from the thread that drives the agent, no call of `steal` overlaps a full
    turn of the indices, and there are fewer than `2 ^ 64` spawns. -/
theorem no_work_slept_through (h : Reachable Sane s) (hstop : s.mem.stopping = false)
    (hquiet : ∀ t k pc, s.ctl t ≠ .notify k pc) (hsleeps : ∀ i, s.sleeps i) :
    s.mem.injector = [] ∧ ∀ i, (s.mem.deques i).contents = [] := by
  have hatt := attended_of_run h
  have hblind : ∀ i, s.blind i := by
    intro i
    rcases hsleeps i with hi | ⟨hi, hslot⟩
    · refine ⟨by rw [hi]; rfl, ?_⟩
      rcases hatt.signalled hstop i hi with hslot | ⟨t, k, ht⟩
      · exact hslot
      · exact absurd ht (hquiet t k _)
    · exact ⟨by rw [hi]; rfl, hslot⟩
  refine ⟨by_contra fun hinj => ?_, fun i => ?_⟩
  · obtain ⟨t, k, j, ht, -⟩ := hatt.offered hstop hinj hblind
    exact hquiet t k _ ht
  · have hempty := (scanned_of_run h).empty i (by rcases hsleeps i with hi | ⟨hi, -⟩ <;> rw [hi] <;> rfl)
    simp [Deque.contents, hempty]

/-- One agent spawns a job, steps it to completion in `run`, and goes to sleep. -/
theorem no_work_slept_through_one :
    ∃ s : State (.new 1 (by decide) (by decide)), Reachable Sane s ∧ .completed ⟨1, 0⟩ ∈ s.mem.log ∧
      (∀ i, s.sleeps i) ∧ s.mem.injector = [] ∧ ∀ i, (s.mem.deques i).contents = [] := by
  obtain ⟨s, hs, hq⟩ := reachable_of_actions (fun s a => Sane s a ∧ a.1 = .agent 0)
    ([Tid.calls (.agent 0) .spawn] ++ Tid.go (.agent 0) 4 ++ [Tid.calls (.agent 0) .run] ++ Tid.go (.agent 0) 8 ++
      [(.agent 0, .ret .completed)] ++ Tid.go (.agent 0) 22)
    (fun s : State (.new 1 (by decide) (by decide)) => decide (.completed ⟨1, 0⟩ ∈ s.mem.log ∧
      s.mem.stopping = false ∧ ∀ i, s.ctl (.agent i) = .run .asleep)) (by decide +kernel)
  obtain ⟨hd, hstop, hi⟩ := of_decide_eq_true hq
  have hs' : Reachable Sane s := hs.mono fun _ _ h => h.1
  have hext : ∀ x, s.ctl (.ext x) = .host := by
    refine hs.keeps (P := fun s => ∀ x, s.ctl (.ext x) = .host) (fun s a s' h ha hstep x => ?_) fun _ => rfl
    obtain ⟨m, c, w, -, -, hc⟩ := step_inv hstep
    rcases Program.ctl_other hc (t := .ext x) (by rw [ha.2]; simp) with h' | ⟨r, -, h'⟩
    · exact h'.trans (h x)
    · rw [h', h x]
      rfl
  have hquiet : ∀ t k pc, s.ctl t ≠ .notify k pc := by
    intro t k pc
    cases t with
    | agent i =>
      rw [hi i]
      rintro ⟨⟩
    | ext x =>
      rw [hext x]
      rintro ⟨⟩
  exact ⟨s, hs', hd, fun i => Or.inl (hi i), no_work_slept_through hs' hstop hquiet fun i => Or.inl (hi i)⟩

end

end Krio.Parallel
