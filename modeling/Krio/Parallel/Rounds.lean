import Krio.Parallel.Sleepers

/-! Runs of at most one stop of the world at a time. A pending stop has an agent that holds it, and a thread that
sleeps in `enter`, in `release` or on its slot sleeps on the value that the word still has, or somebody is about to
wake it. -/

namespace Krio.Parallel
open Lib Safepoint

variable {cfg : Config}

/-- `Park::park` returns only when signalled, nobody calls `request_safepoint` or `resume_world`, and
    `stop_the_world` is not called while another call of it is in progress. -/
def OneStop (s : State cfg) (a : Act cfg) : Prop :=
  a.2 ≠ .spurious ∧ ∀ o, a.2 = .call o → o.stopOp ≠ some .requestSafepoint ∧ o.stopOp ≠ some .resumeWorld ∧
    (o.stopOp = some .stopTheWorld → ∀ i, (s.ctl (.agent i)).stopOp ≠ some .stopTheWorld)

instance (s : State cfg) (a : Act cfg) : Decidable (OneStop s a) :=
  match h : a.2 with
  | .call o => decidable_of_iff (o.stopOp ≠ some .requestSafepoint ∧ o.stopOp ≠ some .resumeWorld ∧
      (o.stopOp = some .stopTheWorld → ∀ i, (s.ctl (.agent i)).stopOp ≠ some .stopTheWorld)) (by simp [OneStop, h])
  | .spurious => isFalse (by simp [OneStop, h])
  | .go | .ret _ | .clock _ => isTrue (by simp [OneStop, h])

/-! ### The barrier -/

section
variable {others : BitVec 32} {stopping foreign : Bool} {sp sp' : Safepoint} {r r' : Role}

/-- What a step does to the count. -/
theorem Barrier.Step.count (h : Barrier.Step others stopping foreign sp r sp' r') :
    (sp'.stopped = sp.stopped ∧ r'.counted = r.counted) ∨
      (r.counted = false ∧ r'.counted = true ∧ sp'.stopped = sp.stopped + 1) ∨
      r.counted = true ∧ r'.counted = false ∧ sp'.stopped = sp.stopped - 1 := by
  cases h <;> simp [Role.counted]

/-- The snapshots that threads hold were of pending stops. -/
theorem Barrier.Step.snapshot (h : Barrier.Step others stopping foreign sp r sp' r') {k : EnterK} {x : BitVec 32}
    (hr : r' = .snapped k x ∨ r' = .waiting k x) : (r = .snapped k x ∨ r = .waiting k x) ∨ pending x = true := by
  cases h <;> simp_all

/-- A stop that a requester waits for was pending when it was requested. -/
theorem Barrier.Step.to_owner (h : Barrier.Step others stopping foreign sp r sp' .owner) :
    (r = .owner ∧ sp' = sp) ∨ pending sp'.state = true := by
  cases h with
  | idle => exact Or.inl ⟨rfl, rfl⟩
  | request hp =>
    rw [pending_add_one, hp]
    exact Or.inr rfl

/-- A requester that waits does not move the word. -/
theorem Barrier.Step.of_owner (h : Barrier.Step others stopping foreign sp .owner sp' r') : sp' = sp := by
  cases h <;> rfl

/-- A stop is held until the word moves. -/
theorem Barrier.Step.holds (h : Barrier.Step others stopping foreign sp r sp' r') (hp : pending sp.state = true)
    (hp' : pending sp'.state = true) (hr : r.holds = true) : r'.holds = true := by
  cases h with
  | release =>
    rw [pending_add_one, hp] at hp'
    cases hp'
  | releaseIdle h => simp [h] at hp
  | _ => first | exact hr | rfl

end

/-- At most one stop is in progress, and nobody stops the world or resumes it in any other way. -/
structure Rounds (s : State cfg) : Prop where
  requests : ∀ t, (s.ctl t).stopOp ≠ some .requestSafepoint
  resumes : ∀ t, (s.ctl t).stopOp ≠ some .resumeWorld
  single : ∀ i j, (s.ctl (.agent i)).stopOp = some .stopTheWorld → (s.ctl (.agent j)).stopOp = some .stopTheWorld → i = j
  count : s.mem.safepoint.stopped.toNat = count fun i => (s.roles i).counted
  snapshot : ∀ i k x, s.roles i = .snapped k x ∨ s.roles i = .waiting k x → pending x = true
  held : pending s.mem.safepoint.state = true → ∃ i, (s.roles i).holds = true

section
variable {s s' : State cfg} {a : Act cfg}

theorem Rounds.step (h : Rounds s) (hext : ∀ x, (s.ctl (.ext x)).external = true)
    (hext' : ∀ x, (s'.ctl (.ext x)).external = true) (ha : OneStop s a) (hstep : (cluster cfg).step s a = some s') :
    Rounds s' := by
  obtain ⟨hself, hother⟩ := barrier_inv hstep
  have hreq := avoided_of_step h.requests (fun o ho => (ha.2 o ho).1) hstep
  have hres := avoided_of_step h.resumes (fun o ho => (ha.2 o ho).2.1) hstep
  obtain ⟨m, c, w, he, rfl, hctl⟩ := step_inv hstep
  have hop : ∀ t, (s'.ctl t).stopOp = if t = a.1 then c.stopOp else (s.ctl t).stopOp := by
    intro t
    split
    · rename_i ht
      rw [ht, Program.view_self (v := fun _ c => c.stopOp) awaken_stopOp hctl]
    · exact Program.view_other (v := fun _ c => c.stopOp) awaken_stopOp hctl ‹_›
  -- The thread that steps drives an agent, or it has no part in the count.
  have acting : (∃ i, a.1 = .agent i) ∨ ((s.ctl a.1).role = .none ∨ (s.ctl a.1).role = .draining) ∧
      ((s'.ctl a.1).role = .none ∨ (s'.ctl a.1).role = .draining) := by
    cases ht : a.1 with
    | agent i => exact Or.inl ⟨i, rfl⟩
    | ext x => exact Or.inr ⟨role_external (hext x), role_external (hext' x)⟩
  refine ⟨hreq, hres, fun i j hi hj => ?_, ?_, fun i k x hi => ?_, fun hp' => ?_⟩
  · by_contra hij
    have before : ∀ i j, i ≠ j → (s'.ctl (.agent i)).stopOp = some .stopTheWorld →
        (s'.ctl (.agent j)).stopOp = some .stopTheWorld → (s.ctl (.agent i)).stopOp = some .stopTheWorld := by
      intro i j hij hi hj
      rw [hop] at hi hj
      split at hi
      · rename_i hia
        rw [if_neg (by rw [← hia]; simpa using Ne.symm hij)] at hj
        rcases he.stopOp.1 with hc | hc | ⟨o, ho, hc⟩ <;> rw [hc] at hi
        · rwa [hia]
        · cases hi
        · exact absurd hj ((ha.2 o ho).2.2 hi j)
      · exact hi
    exact hij (h.single i j (before i j hij hi hj) (before j i (Ne.symm hij) hj hi))
  · have same : ∀ i, .agent i ≠ a.1 → (s'.roles i).counted = (s.roles i).counted :=
      fun i hi => congrArg Role.counted (hother _ hi)
    rcases hself.count with ⟨hsp, hc⟩ | ⟨hc, hc', hsp⟩ | ⟨hc, hc', hsp⟩
    · rw [hsp, h.count]
      refine (count_congr fun i => ?_).symm
      by_cases hi : .agent i = a.1
      · rw [State.roles, State.roles, hi, hc]
      · exact same i hi
    · rcases acting with ⟨i, hi⟩ | ⟨-, hn | hn⟩
      · rw [hi] at hc hc'
        have hins := count_insert (f := fun j => (s.roles j).counted) (g := fun j => (s'.roles j).counted) (a := i)
          (fun j hj => same j (by rw [hi]; simpa using hj)) hc hc'
        have hle := count_le_card fun j => (s'.roles j).counted
        rw [hsp, hins, BitVec.toNat_add, h.count, show (1 : BitVec 32).toNat = 1 from rfl]
        rw [hins] at hle
        have := cfg.agents_u32
        simp only [Fintype.card_fin] at hle
        omega
      · rw [hn] at hc'
        cases hc'
      · rw [hn] at hc'
        cases hc'
    · rcases acting with ⟨i, hi⟩ | ⟨hn | hn, -⟩
      · rw [hi] at hc hc'
        have hers := count_erase (f := fun j => (s.roles j).counted) (g := fun j => (s'.roles j).counted) (a := i)
          (fun j hj => same j (by rw [hi]; simpa using hj)) hc hc'
        have := h.count
        have := s.mem.safepoint.stopped.isLt
        rw [hsp, BitVec.toNat_sub, show (1 : BitVec 32).toNat = 1 from rfl]
        omega
      · rw [hn] at hc
        cases hc
      · rw [hn] at hc
        cases hc
  · by_cases hia : .agent i = a.1
    · rw [State.roles, hia] at hi
      rcases hself.snapshot hi with hi | hp
      · exact h.snapshot i k x (by rwa [State.roles, hia])
      · exact hp
    · rw [State.roles, hother _ hia] at hi
      exact h.snapshot i k x hi
  · cases hp : pending s.mem.safepoint.state with
    | true =>
      obtain ⟨i, hi⟩ := h.held hp
      refine ⟨i, ?_⟩
      by_cases hia : .agent i = a.1
      · rw [State.roles, hia] at hi ⊢
        exact hself.holds hp hp' hi
      · rwa [State.roles, hother _ hia]
    | false =>
      have hc : (s'.ctl a.1).role = .owner := by
        cases he.word with
        | same hsp => simp [hsp, hp] at hp'
        | request _ _ hc =>
          rw [Program.view_self (v := fun _ c => c.role) awaken_role hctl]
          refine hc.resolve_right fun hc => hreq a.1 ?_
          rw [Program.view_self (v := fun _ c => c.stopOp) awaken_stopOp hctl, hc]
        | @release _ hp₁ => simp [hp] at hp₁
        | arrive _ hsp => simp [hsp, hp] at hp'
        | leave _ hsp => simp [hsp, hp] at hp'
      rcases acting with ⟨i, hi⟩ | ⟨-, hn | hn⟩
      · exact ⟨i, by rw [State.roles, ← hi, hc]; rfl⟩
      · rw [hc] at hn
        cases hn
      · rw [hc] at hn
        cases hn

end

/-! ### Threads that sleep are still to be woken -/

/-- In the drain loop of `release`, past its look at `stopped`. -/
def Ctl.drainsFrom : Ctl cfg → Option (BitVec 32)
  | .release _ (.stopping n) | .release _ (.nudge n) | .release _ (.park n) | .release _ (.asleep n) => some n
  | _ => none

/-- In the drain loop of `shutdown`'s release, past its look at `stopping`. -/
def Ctl.lingers : Ctl cfg → Bool
  | .release (.shutdown _) (.nudge _) | .release (.shutdown _) (.park _) | .release (.shutdown _) (.asleep _) => true
  | _ => false

/-- A thread sleeps on the value that the word still has, or somebody is about to wake it. -/
structure Watches (s : State cfg) : Prop where
  state : ∀ t k x, s.ctl t = .enter k (.asleep x) → s.mem.safepoint.state = x ∨ ∃ u, (s.ctl u).wakesAll = true
  stopped : ∀ t k n, s.ctl t = .release k (.asleep n) → s.mem.safepoint.stopped = n ∨ ∃ u, (s.ctl u).tells = true
  slot : ∀ i, s.ctl (.agent i) = .run .asleep → s.mem.slots i = .parked ∨ ∃ u, (s.ctl u).unparks = some i.val
  drainsFrom : ∀ t n, (s.ctl t).drainsFrom = some n → n ≠ 0
  lingers : ∀ t, (s.ctl t).lingers = false

section
variable {t : Tid cfg} {m m' : Mem cfg} {c c' : Ctl cfg} {ch : Choice cfg} {w : Option (Addr cfg)}

theorem awaken_drainsFrom {r : Addr cfg} {n : BitVec 32} (h : (awaken t r c).drainsFrom = some n) : c.drainsFrom = some n := by
  unfold awaken at h
  (repeat' split at h) <;> first | exact h | cases h

theorem awaken_lingers {r : Addr cfg} (h : c.lingers = false) : (awaken t r c).lingers = false := by
  unfold awaken
  split <;> (try split) <;> first | exact h | rfl | (cases ‹ReleaseK› <;> rfl)

/-- A thread is in `release` where its last step in there left it. -/
theorem ExecCase.inRelease {k : ReleaseK} {pc : ReleasePc} (h : ExecCase t m c ch (m', .release k pc, w)) :
    pc = .load ∨ (ch = .spurious ∧ pc = .drain) ∨
      ∃ pc₀ sp x, c = .release k pc₀ ∧ m.safepoint.release m.stopping pc₀ = some (sp, .next pc, x) := by
  generalize hc' : Ctl.release k pc = c' at h
  have called : c'.aside = true → False := by
    rw [← hc']
    rintro ⟨⟩
  by_cases ha : c.aside = true
  · obtain ⟨-, -, ha' | ⟨k, rfl⟩ | ⟨o, k, -, rfl⟩⟩ := h.aside ha
    · exact absurd ha' called
    · cases hc'
    · cases o <;> cases hc'
      exact Or.inl rfl
  · cases h with
    | @release k' pc' r h =>
      unfold execRelease at h
      split at h <;> cases h
      · cases hc'
        exact Or.inr (Or.inr ⟨_, _, _, rfl, ‹_›⟩)
      · rcases k' with (_ | _) | (_ | _) | _ <;> cases hc'
    | enter h =>
      unfold execEnter at h
      split at h <;> cases h <;> first | cases hc' | exact absurd (aside_enterResume _) called
    | @stopTheWorld k' pc' r h =>
      cases pc' <;> simp only [execStop] at h <;> (repeat' split at h) <;> cases h <;>
        first | exact absurd (aside_siteResume _) called | (cases hc'; exact Or.inl rfl) | cases hc'
    | @requestSafepoint k' pc' r h =>
      cases pc' <;> simp only [execRequestSafepoint] at h <;> split at h <;> cases h <;>
        first | exact absurd (aside_siteResume _) called | cases hc'
    | shutdown h =>
      unfold execShutdown at h
      (repeat' split at h) <;> cases h <;>
        first | exact absurd (aside_siteResume _) called | (cases hc'; exact Or.inl rfl) | cases hc'
    | spurious h =>
      unfold spuriousWake at h
      split at h <;> cases h <;> cases hc'
      exact Or.inr (Or.inl ⟨rfl, rfl⟩)
    | _ => exact absurd rfl ha

/-- The drain loop waits for a count that is not zero. -/
theorem ExecCase.drainsFrom {n : BitVec 32} (h : ExecCase t m c ch (m', c', w)) (hc : c'.drainsFrom = some n) :
    c.drainsFrom = some n ∨ n ≠ 0 := by
  cases c' with
  | release k pc =>
    obtain rfl | ⟨-, rfl⟩ | ⟨pc₀, sp, x, rfl, hr⟩ := h.inRelease
    · cases hc
    · cases hc
    · cases pc₀ <;> simp only [Safepoint.release, releaseSeen] at hr <;> (repeat' split at hr) <;> cases hr <;>
        first | (cases hc; done) | exact Or.inl hc | (cases hc; exact Or.inr ‹_›)
  | _ => cases hc

/-- With `stopping` set `shutdown`'s release does not wait in its drain loop. -/
theorem ExecCase.lingers (h : ExecCase t m c ch (m', c', w)) (hc : c.lingers = false)
    (hs : c.shutting = true → m.stopping = true) : c'.lingers = false := by
  cases c' with
  | release k pc =>
    rcases k with k | k | k
    · rfl
    · rfl
    · obtain rfl | ⟨-, rfl⟩ | ⟨pc₀, sp, x, rfl, hr⟩ := h.inRelease
      · rfl
      · rfl
      · cases pc₀ <;> simp only [Safepoint.release, releaseSeen, hs rfl, if_true] at hr <;>
          (repeat' split at hr) <;> cases hr <;> first | rfl | cases hc
  | _ => rfl

end

section
variable {s s' : State cfg} {a : Act cfg}

theorem Watches.step (h : Watches s) (hr : Rounds s) (hext : ∀ x, (s.ctl (.ext x)).external = true)
    (hatt : ∀ t, (s.ctl t).shutting = true → s.mem.stopping = true) 
    (hstep : (cluster cfg).step s a = some s') : Watches s' := by
  obtain ⟨m, c, w, he, rfl, hctl⟩ := step_inv hstep
  -- Whoever is about to signal does so in its next step.
  have wakes : ∀ {u}, (s.ctl u).wakesAll = true → (∃ u, (s'.ctl u).wakesAll = true) ∨ w = some (.word .state) := by
    intro u hu
    obtain rfl | hua := eq_or_ne u a.1
    · exact Or.inr (he.signals_word.1 hu)
    · exact Or.inl ⟨u, by rwa [Program.view_other (v := fun _ c => c.wakesAll) awaken_wakesAll hctl hua]⟩
  have tells : ∀ {u}, (s.ctl u).tells = true → (∃ u, (s'.ctl u).tells = true) ∨ w = some (.word .stopped) := by
    intro u hu
    obtain rfl | hua := eq_or_ne u a.1
    · exact Or.inr (he.signals_word.2 hu)
    · exact Or.inl ⟨u, by rwa [Program.view_other (v := fun _ c => c.tells) awaken_tells hctl hua]⟩
  have unparks : ∀ {u} {i : Fin cfg.agentCount}, (s.ctl u).unparks = some i.val →
      (∃ u, (s'.ctl u).unparks = some i.val) ∨ w = some (.slot i) := by
    intro u i hu
    obtain rfl | hua := eq_or_ne u a.1
    · exact Or.inr (he.signals_slot hu)
    · exact Or.inl ⟨u, by rwa [Program.view_other (v := fun _ c => c.unparks) awaken_unparks hctl hua]⟩
  have acting : ∀ v : Ctl cfg → Bool, (∀ t r c, v (awaken t r c) = v c) → v c = true → ∃ u, v (s'.ctl u) = true :=
    fun v hv hc => ⟨a.1, (Program.view_self (v := fun _ => v) hv hctl).trans hc⟩
  refine ⟨fun t k x ht => ?_, fun t k n ht => ?_, fun i hi => ?_, fun t n ht => ?_, fun t => ?_⟩
  · obtain ⟨rfl, hm, -, hf⟩ | ⟨hta, hsame, haw⟩ := asleep_cases he hctl (t := t) (by rw [ht]; rfl)
    · rw [ht] at hf
      generalize s.ctl a.1 = c₀ at hf
      cases hf
      exact Or.inl (by rw [hm])
    · rw [ht] at hsame
      rw [← hsame] at haw
      rcases h.state t k x hsame.symm with hx | ⟨u, hu⟩
      · cases he.word with
        | same hsp => exact Or.inl (by rw [hsp, hx])
        | request hp =>
          cases t with
          | ext y => 
            have := hext y
            rw [← hsame] at this
            cases this
          | agent i =>
            have hp' := hr.snapshot i k x (Or.inr (by rw [State.roles, ← hsame]; rfl))
            rw [← hx, hp] at hp'
            cases hp'
        | release _ _ hc => exact Or.inr (acting _ awaken_wakesAll (by rw [hc]; rfl))
        | arrive _ hsp => exact Or.inl (by rw [hsp]; exact hx)
        | leave _ hsp => exact Or.inl (by rw [hsp]; exact hx)
      · refine (wakes hu).elim Or.inr fun hw => ?_
        have := haw _ hw
        simp [awaken] at this
  · obtain ⟨rfl, hm, -, hf⟩ | ⟨hta, hsame, haw⟩ := asleep_cases he hctl (t := t) (by rw [ht]; rfl)
    · rw [ht] at hf
      generalize s.ctl a.1 = c₀ at hf
      cases hf
      exact Or.inl (by rw [hm])
    · rw [ht] at hsame
      rw [← hsame] at haw
      rcases h.stopped t k n hsame.symm with hn | ⟨u, hu⟩
      · cases he.word with
        | same hsp => exact Or.inl (by rw [hsp, hn])
        | request _ hsp => exact Or.inl (by rw [hsp]; exact hn)
        | release _ hsp => exact Or.inl (by rw [hsp]; exact hn)
        | arrive _ _ hc => exact Or.inr (acting _ awaken_tells (by rw [hc]; rfl))
        | leave _ _ hc => exact Or.inr (acting _ awaken_tells (by rw [hc]; rfl))
      · refine (tells hu).elim Or.inr fun hw => ?_
        have := haw _ hw
        simp [awaken] at this
  · obtain ⟨hi', hm, -, hf⟩ | ⟨hia, hsame, haw⟩ := asleep_cases he hctl (t := .agent i) (by rw [hi]; rfl)
    · rw [hi] at hf
      generalize s.ctl (.agent i) = c₀ at hf
      cases hf with
      | slot hi hp =>
        cases hi
        exact Or.inl (by rw [hm, hp])
    · rw [hi] at hsame
      rw [← hsame] at haw
      rcases h.slot i hsame.symm with hp | ⟨u, hu⟩
      · exact (he.unpark (Ne.symm hia) hp).imp id fun hc =>
          ⟨a.1, (Program.view_self (v := fun _ c => c.unparks) awaken_unparks hctl).trans hc⟩
      · refine (unparks hu).elim Or.inr fun hw => ?_
        have := haw _ hw
        simp [awaken] at this
  · refine Program.forall_ctl (P := fun _ c => ∀ n, c.drainsFrom = some n → n ≠ 0)
      (fun _ _ _ h n hn => h n (awaken_drainsFrom hn)) hctl (fun n hn => ?_) (fun t _ => h.drainsFrom t) t n ht
    exact (he.drainsFrom hn).elim (h.drainsFrom _ n) id
  · exact Program.forall_ctl (P := fun _ c => c.lingers = false) (fun _ _ _ h => awaken_lingers h) hctl
      (he.lingers (h.lingers _) (hatt _)) (fun t _ => h.lingers t) t

end

end Krio.Parallel
