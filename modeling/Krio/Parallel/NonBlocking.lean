import Krio.Parallel.Hands
import Krio.Parallel.StopTheWorld

/-! The stop that does not block: a main agent calls `request_safepoint`, polls `world_is_stopped`, and calls
`resume_world`.

The count does not say for which round its members arrived. A worker that took its snapshot in an earlier
round may be counted in a later one; `run` and `drive_once` send it back to the barrier, but a task that
polled returns from `enter` into its step. Unless such a poll is counted late, a complete count means that
no worker gets into task code before the main agent resumes the world. -/

namespace Krio.Parallel
open Lib Safepoint

/-- Only agent 0 calls `request_safepoint` and `resume_world`, and nobody `stop_the_world` or `shutdown`. -/
def MainStops {cfg : Config} (_ : State cfg) (a : Act cfg) : Prop :=
  ∀ o, a.2 = .call o → o.stopOp = none ∨ a.1 = .agent 0 ∧ (o = .requestSafepoint ∨ o = .resumeWorld)

instance {cfg : Config} (s : State cfg) (a : Act cfg) : Decidable (MainStops s a) :=
  match h : a.2 with
  | .call o => decidable_of_iff (o.stopOp = none ∨ a.1 = .agent 0 ∧ (o = .requestSafepoint ∨ o = .resumeWorld))
      (by simp [MainStops, h])
  | .go | .ret _ | .clock _ | .spurious => isTrue (by simp [MainStops, h])

/-- The main agent does not call `resume_world`. -/
def Holds {cfg : Config} (_ : State cfg) (a : Act cfg) : Prop := a.2 ≠ .call .resumeWorld

instance {cfg : Config} (s : State cfg) (a : Act cfg) : Decidable (Holds s a) := inferInstanceAs (Decidable (_ ≠ _))

/-- A poll's `enter` is counted while the word still is what it took as its snapshot. -/
def ArrivesFresh {cfg : Config} (s : State cfg) (a : Act cfg) : Prop :=
  ∀ k st, s.ctl a.1 = .enter (.site k) (.arrive st) → s.mem.safepoint.state = st

/-- A thread at the `fetch_add` of a poll's `enter` with another snapshot than `word`. -/
def Ctl.late {cfg : Config} (word : BitVec 32) : Ctl cfg → Bool
  | .enter (.site _) (.arrive st) => word ≠ st
  | _ => false

instance {cfg : Config} (s : State cfg) (a : Act cfg) : Decidable (ArrivesFresh s a) :=
  decidable_of_iff ((s.ctl a.1).late s.mem.safepoint.state = false) (by
    unfold Ctl.late ArrivesFresh
    split <;> simp_all)

/-- In an operation called from a task's step, or in the step itself, and not in `enter`. -/
def Ctl.inTaskCode {cfg : Config} : Ctl cfg → Bool
  | .enter _ _ => false
  | c => c.site ≠ .host

/-! ### A stop that is none -/

section Two
/-- The worker's task polls and takes its snapshot; the main agent resumes the world, stops it again, and
    the worker is counted. -/
private def countedLate : List (Act Config.two) :=
  [Tid.calls (.agent 1) .spawn] ++ Tid.go (.agent 1) 5 ++ [Tid.calls (.agent 1) .run] ++ Tid.go (.agent 1) 8 ++
  [Tid.calls (.agent 0) .requestSafepoint] ++ Tid.go (.agent 0) 5 ++
  [Tid.calls (.agent 1) .poll] ++ Tid.go (.agent 1) 2 ++
  [Tid.calls (.agent 0) .resumeWorld] ++ Tid.go (.agent 0) 4 ++
  [Tid.calls (.agent 0) .requestSafepoint] ++ Tid.go (.agent 0) 5 ++
  Tid.go (.agent 1) 1 ++ [Tid.calls (.agent 0) .worldIsStopped]

/-- Two agents: `world_is_stopped` returns true, and then the worker returns from its poll into its task's step. -/
theorem stop_without_stopping :
    ∃ s₀ s : State (.new 2 (by decide) (by decide)), Reachable MainStops s₀ ∧
      (s₀.ctl (.agent 0) = .worldIsStopped .host ∧ s₀.mem.others ≤ s₀.mem.safepoint.stopped ∧
        pending s₀.mem.safepoint.state = true) ∧
      Run (fun s a => MainStops s a ∧ Holds s a) s₀ s ∧ ∃ p j, s.ctl (.agent 1) = .task p j := by
  obtain ⟨s₀, s, h₀, hq₀, hs, hq⟩ := run_of_actions MainStops (fun s a => MainStops s a ∧ Holds s a) countedLate
    (Tid.go (.agent 1) 4)
    (fun s₀ : State Config.two => s₀.ctl (.agent 0) = .worldIsStopped .host ∧ s₀.mem.others ≤ s₀.mem.safepoint.stopped ∧
      pending s₀.mem.safepoint.state = true)
    (fun s => s.ctl (.agent 1) = .task ⟨.worker, true, 0⟩ ⟨1, 0⟩) (by decide +kernel)
  exact ⟨s₀, s, h₀, hq₀, hs, _, _, hq⟩

end Two

/-! ### Who a count is made of -/

namespace NonBlocking

section Protocol
variable {ι : Type} [Fintype ι] {others : BitVec 32} {foreign : Bool} {sp sp' : Safepoint} {r r' : ι → Role}
  {i z : ι} {x y main : Role}

/-- What a role says about the word: a poll waits for the current round, unless the main agent, whose role is
    `main`, is still draining. -/
def RoleOk (sp : Safepoint) (main : Role) : Role → Prop
  | .snapped _ s => pending s = true
  | .waiting (.site _) s => pending sp.state = true ∧ s = sp.state ∨ main = .draining
  | .leaving (.site _) => main = .draining
  | _ => True

/-- The invariant of the barrier when only `z` requests stops, and does not wait for them. -/
structure Inv (sp : Safepoint) (r : ι → Role) (z : ι) : Prop where
  count : sp.stopped.toNat = Lib.count fun i => (r i).counted
  roles : ∀ i, RoleOk sp (r z) (r i)

theorem RoleOk.mono (h : RoleOk sp main x) (hst : sp'.state = sp.state) (hd : main = .draining → y = .draining) :
    RoleOk sp' y x := by
  unfold RoleOk at h ⊢
  split
  · exact h
  · rw [hst]
    exact h.imp_right hd
  · exact hd h
  · trivial

/-- Nobody waits in a poll while the word is idle and the main agent does not drain. -/
theorem RoleOk.of_idle (h : RoleOk sp main x) (hp : pending sp.state = false) (hm : main ≠ .draining) : RoleOk sp' y x := by
  unfold RoleOk at h ⊢
  split
  · exact h
  · rcases h with ⟨hp', -⟩ | hd
    · rw [hp] at hp'
      cases hp'
    · exact absurd hd hm
  · exact absurd h hm
  · trivial

theorem RoleOk.of_draining (h : RoleOk sp main x) : RoleOk sp' .draining x := by
  unfold RoleOk at h ⊢
  split
  · exact h
  · exact Or.inr rfl
  · rfl
  · trivial

theorem RoleOk.of_uncounted (h : RoleOk sp main x) (hx : x.counted = false) : RoleOk sp' y x := by
  unfold RoleOk at h ⊢
  split
  · exact h
  · cases hx
  · cases hx
  · trivial

section Steps
variable (hi : r' i = x) (hne : ∀ j, j ≠ i → r' j = r j)
include hi hne

/-- A step that leaves the word as it is, by a thread that was not draining. -/
theorem Inv.update (h : Inv sp r z) (hst : sp'.state = sp.state) (hd : r i ≠ .draining)
    (hcount : sp'.stopped.toNat = Lib.count fun j => (r' j).counted) (hx : RoleOk sp' (r' z) x) : Inv sp' r' z := by
  refine ⟨hcount, fun j => ?_⟩
  have hmain : r z = .draining → r' z = .draining := by
    intro hz
    rw [hne z (by rintro rfl; exact hd hz), hz]
  obtain rfl | hj := eq_or_ne j i
  · rwa [hi]
  · rw [hne j hj]
    exact (h.roles j).mono hst hmain

/-- The invariant is kept by every step of threads outside `stop_the_world`, of which only `z` releases stops,
    when polls arrive fresh. -/
theorem Inv.step (h : Inv sp r z) (hlt : Fintype.card ι < 2 ^ 32) (hs : Barrier.Step others false foreign sp (r i) sp' x)
    (hfree : (r i).holds = false ∧ x.holds = false) (hz : i ≠ z → foreign = false ∧ r i ≠ .draining)
    (hfresh : ∀ k s, r i = .snapped (.site k) s → sp.state = s) : Inv sp' r' z := by
  have hcount := Barrier.count_step hi hne h.count hlt hs
  generalize hr : r i = y at hs hfree hz hfresh
  have hok := h.roles i
  rw [hr] at hok
  -- The main agent moved the word.
  have moves : foreign = true → i = z := fun hf => by_contra fun hne => by rw [(hz hne).1] at hf; cases hf
  cases hs with
  | idle =>
    have : r' = r := by
      funext j
      exact Barrier.forall_role (P := fun j y => y = r j) hi hne hr.symm (fun _ _ => rfl) j
    rwa [this]
  | snap k hp => exact h.update hi hne rfl (by rw [hr]; simp) hcount hp
  | arrive k s =>
    refine h.update hi hne rfl (by rw [hr]; simp) hcount ?_
    cases k with
    | site k =>
      have hs := hfresh k s rfl
      exact Or.inl ⟨hs ▸ hok, hs.symm⟩
    | _ => trivial
  | see k s hs =>
    refine h.update hi hne rfl (by rw [hr]; simp) hcount ?_
    cases k with
    | site k =>
      have hmain : r z = .draining := hok.resolve_left fun h => hs h.2.symm
      show r' z = .draining
      rw [hne z (by rintro rfl; rw [hr] at hmain; cases hmain), hmain]
    | _ => trivial
  | leave k => exact h.update hi hne rfl (by rw [hr]; simp) hcount trivial
  | requestSafepoint hf hp =>
    obtain rfl := moves hf
    refine ⟨hcount, fun j => ?_⟩
    obtain rfl | hj := eq_or_ne j i
    · rw [hi]
      trivial
    · rw [hne j hj]
      exact (h.roles j).of_idle hp (by rw [hr]; simp)
  | releaseOther hf hp =>
    obtain rfl := moves hf
    refine ⟨hcount, fun j => ?_⟩
    obtain rfl | hj := eq_or_ne j i
    · rw [hi]
      trivial
    · rw [hne j hj, hi]
      exact (h.roles j).of_draining
  | drained hzero =>
    have hnone := eq_false_of_count_eq_zero (h.count.symm.trans (by rw [hzero]; rfl))
    refine ⟨hcount, fun j => ?_⟩
    obtain rfl | hj := eq_or_ne j i
    · rw [hi]
      trivial
    · rw [hne j hj]
      exact (h.roles j).of_uncounted (hnone j)
  | request | arrived | giveUp | finish | release | releaseIdle => simp [Role.holds] at hfree
  | drainStopped hf => cases hf

end Steps

end Protocol

section Cluster
variable {cfg : Config} {t : Tid cfg} {m m' : Mem cfg} {c c' : Ctl cfg} {ch : Choice cfg} {w : Option (Addr cfg)}
  {s₀ s s' : State cfg} {a : Act cfg}

theorem holds_of_stopOp (h : c.stopOp ≠ some .stopTheWorld) : c.role.holds = false := by
  unfold Ctl.role
  split <;> first | rfl | exact absurd rfl h

/-- A thread that drains is in an operation that stops the world, and not in `request_safepoint`. -/
theorem stopOp_of_draining (h : c.role = .draining) : c.stopOp ≠ none ∧ c.stopOp ≠ some .requestSafepoint := by
  obtain ⟨k, pc, rfl⟩ : ∃ k pc, c = .release k pc := by
    unfold Ctl.role at h
    split at h <;> first | (cases h; done) | exact ⟨_, _, rfl⟩
  cases k <;> simp [Ctl.stopOp]

theorem foreign_of_stopOp (h : c.stopOp = none) : c.foreign = false :=
  Bool.eq_false_iff.mpr fun hf => by obtain ⟨op, hop, -⟩ := foreign_iff.mp hf; rw [h] at hop; cases hop

/-- Only agent 0 is in `request_safepoint` or `resume_world`, and nobody in `stop_the_world` or `shutdown`. -/
structure Owned (s : State cfg) : Prop where
  stopOps : ∀ t, (s.ctl t).stopOp = none ∨
    t = .agent 0 ∧ ((s.ctl t).stopOp = some .requestSafepoint ∨ (s.ctl t).stopOp = some .resumeWorld)
  running : s.mem.stopping = false

theorem Owned.step (h : Owned s) (ha : MainStops s a) (hstep : (cluster cfg).step s a = some s') : Owned s' := by
  obtain ⟨m, c, w, he, rfl, hctl⟩ := step_inv hstep
  obtain ⟨hop, hstop⟩ := he.stopOp
  refine ⟨Program.forall_ctl (P := fun t c => c.stopOp = none ∨
    t = .agent 0 ∧ (c.stopOp = some .requestSafepoint ∨ c.stopOp = some .resumeWorld)) ?_ hctl ?_ fun t _ => h.stopOps t, ?_⟩
  · intro t r c hc
    rwa [show ((cluster cfg).wake t r c).stopOp = c.stopOp from awaken_stopOp t r c]
  · rcases hop with hop | hop | ⟨o, hch, hop⟩
    · rw [hop]
      exact h.stopOps a.1
    · exact Or.inl hop
    · rw [hop]
      rcases ha o hch with ho | ⟨ht, rfl | rfl⟩
      · exact Or.inl ho
      · exact Or.inr ⟨ht, Or.inl rfl⟩
      · exact Or.inr ⟨ht, Or.inr rfl⟩
  · refine (hstop.resolve_right fun hs => ?_).trans h.running
    rcases h.stopOps a.1 with h | ⟨-, h | h⟩ <;> rw [h] at hs <;> cases hs

theorem Owned.holds (h : Owned s) (t : Tid cfg) : (s.ctl t).role.holds = false :=
  holds_of_stopOp (by rcases h.stopOps t with h | ⟨-, h | h⟩ <;> simp [h])

theorem Owned.elsewhere (h : Owned s) (ht : t ≠ .agent 0) : (s.ctl t).stopOp = none :=
  (h.stopOps t).resolve_right fun h => ht h.1

theorem owned_of_run (h : Reachable MainStops s) : Owned s :=
  h.keeps (P := Owned) (fun _ _ _ hs ha hstep => hs.step ha hstep) ⟨fun _ => Or.inl rfl, rfl⟩

/-- A thread that drives no agent leaves the barrier alone. -/
theorem Owned.ext (h : Owned s) (h' : Owned s') (hext : ∀ x, (s.ctl (.ext x)).external = true)
    (hext' : ∀ x, (s'.ctl (.ext x)).external = true) {x : ℕ} (hx : a.1 = .ext x)
    (hstep : (cluster cfg).step s a = some s') : s'.mem.safepoint = s.mem.safepoint ∧ s'.roles = s.roles := by
  obtain ⟨hself, hother⟩ := barrier_inv hstep
  rw [hx] at hself hother
  have hf := foreign_of_stopOp (h.elsewhere (t := .ext x) (by simp))
  have hf' := foreign_of_stopOp (h'.elsewhere (t := .ext x) (by simp))
  rw [role_of_external (hext x) hf, role_of_external (hext' x) hf', hf] at hself
  refine ⟨?_, funext fun j => hother _ (by simp)⟩
  generalize s'.mem.safepoint = sp' at hself
  cases hself <;> first | rfl | contradiction

/-- The word of a pending stop moves only when the main agent is in `resume_world`. -/
theorem Owned.word (h : Owned s) (h' : Owned s') (hext : ∀ x, (s.ctl (.ext x)).external = true)
    (hext' : ∀ x, (s'.ctl (.ext x)).external = true) (hstep : (cluster cfg).step s a = some s')
    (hp : pending s.mem.safepoint.state = true) (hres : (s'.ctl (.agent 0)).stopOp ≠ some .resumeWorld) :
    s'.mem.safepoint.state = s.mem.safepoint.state := by
  obtain ⟨i, hi⟩ | ⟨x, hx⟩ : (∃ i, a.1 = .agent i) ∨ ∃ x, a.1 = .ext x := by cases a.1 <;> simp
  · obtain ⟨hself, -⟩ := barrier_inv hstep
    have hr := h.holds a.1
    have hr' := h'.holds a.1
    have hd : (s'.ctl a.1).role ≠ .draining := by
      intro hdr
      obtain ⟨h₁, h₂⟩ := stopOp_of_draining hdr
      obtain ⟨ht, hop⟩ := (h'.stopOps a.1).resolve_left h₁
      exact hres (ht ▸ hop.resolve_left h₂)
    generalize (s.ctl a.1).role = r, s'.mem.safepoint = sp', (s'.ctl a.1).role = r' at hself hr hr' hd
    cases hself with
    | request => cases hr'
    | requestSafepoint _ hp' =>
      rw [hp] at hp'
      cases hp'
    | release | releaseOther => exact absurd rfl hd
    | _ => rfl
  · rw [(h.ext h' hext hext' hx hstep).1]

theorem enter_of_role {k : EnterK} (h : (∃ st, c.role = .waiting k st) ∨ c.role = .leaving k) :
    ∃ pc, c = .enter k pc := by
  unfold Ctl.role at h
  split at h <;> rcases h with ⟨st, h⟩ | h <;> cases h <;> exact ⟨_, rfl⟩

theorem snapped_inv {k : EnterK} {st : BitVec 32} (h : c.role = .snapped k st) : c = .enter k (.arrive st) := by
  unfold Ctl.role at h
  split at h <;> cases h
  rfl

theorem inv_of_run (h : Reachable (fun s a => MainStops s a ∧ ArrivesFresh s a) s) :
    Inv s.mem.safepoint s.roles 0 := by
  refine h.keeps_with (Q := fun s => Reachable MainStops s) (P := fun s => Inv s.mem.safepoint s.roles 0)
    (fun _ h => h.mono fun _ _ h => h.1) ?_ ⟨?_, fun i => ?_⟩
  · rintro s a s' hs hinv ⟨ha, hfresh⟩ hstep
    have ho := owned_of_run hs
    have ho' := ho.step ha hstep
    obtain ⟨hself, hother⟩ := barrier_inv hstep
    rw [ho.running] at hself
    obtain ⟨i, hi⟩ | ⟨x, hx⟩ : (∃ i, a.1 = .agent i) ∨ ∃ x, a.1 = .ext x := by cases a.1 <;> simp
    · rw [hi] at hself hother
      refine hinv.step rfl (fun j hj => hother _ (by simpa using hj)) (by simpa using cfg.agents_u32) hself
        ⟨ho.holds _, ho'.holds _⟩ (fun hne => ?_) fun k st hr => hfresh k st (hi ▸ snapped_inv hr)
      have hop := ho.elsewhere (t := .agent i) (by simpa using hne)
      exact ⟨foreign_of_stopOp hop, fun hd => (stopOp_of_draining hd).1 hop⟩
    · obtain ⟨hsp, hroles⟩ := ho.ext ho' (external_of_run hs) (external_of_run (hs.tail ha hstep)) hx hstep
      rwa [hsp, hroles]
  · simp [State.init, Mem.new, Safepoint.new, Lib.count, State.roles, Ctl.role, Role.counted]
  · show RoleOk _ _ Role.none
    trivial

/-! ### A complete count -/

/-- At the barrier while the word is `word`, or on the way back to it before any task code. -/
inductive Captured (word : BitVec 32) : Ctl cfg → Prop
  | waits {c : Ctl cfg} {k : EnterK} : c.role = .waiting k word → Captured word c
  | enter {k : EnterK} {pc : EnterPc} : (∀ j, k ≠ .site j) → Captured word (.enter k pc)
  | top : Captured word (.run .top)
  | inPass {p : Pass} : Captured word (.drive p .inPass)

theorem Captured.inTaskCode {word : BitVec 32} (h : Captured word c) : c.inTaskCode = false := by
  cases h with
  | waits h =>
    unfold Ctl.role at h
    split at h <;> first | rfl | cases h
  | enter | top | inPass => rfl

theorem awaken_enter (t : Tid cfg) (r : Addr cfg) (k : EnterK) (pc : EnterPc) :
    ∃ pc', awaken t r (.enter k pc) = .enter k pc' := by
  cases pc with
  | asleep st =>
    simp only [Parallel.awaken]
    split <;> exact ⟨_, rfl⟩
  | _ => exact ⟨_, rfl⟩

theorem Captured.awaken {word : BitVec 32} {r : Addr cfg} (h : Captured word c) : Captured word (awaken t r c) := by
  cases h with
  | waits h => exact .waits ((awaken_role t r c).trans h)
  | @enter k pc hk =>
    obtain ⟨pc', hpc⟩ := awaken_enter t r k pc
    rw [hpc]
    exact .enter hk
  | top => exact .top
  | inPass => exact .inPass

/-- While a stop is pending, a captured thread stays captured. -/
theorem Captured.step (hc : Captured m.safepoint.state c) (h : ExecCase t m c ch (m', c', w))
    (hp : pending m.safepoint.state = true) : Captured m.safepoint.state c' := by
  cases hc with
  | waits hr =>
    have hself := h.barrier
    rw [hr] at hself
    generalize hr' : c'.role = r', m'.safepoint = sp' at hself
    cases hself with
    | idle => exact .waits hr'
    | see _ _ hne => exact absurd rfl hne
  | @enter k pc hk =>
    cases h with
    | enter h =>
      unfold execEnter at h
      split at h <;> cases h
      · exact .enter hk
      · cases k with
        | run => exact .top
        | pass => exact .inPass
        | site j => exact absurd rfl (hk j)
    | spurious h =>
      unfold spuriousWake at h
      split at h <;> cases h <;> rename_i heq <;> cases heq
      exact .enter hk
  | top =>
    cases h with
    | run _ h =>
      cases ch <;> simp only [execRun, Safepoint.requested, hp, reduceCtorEq, ↓reduceIte] at h
      cases h
      exact .enter (by simp)
    | spurious h => cases h
  | inPass =>
    cases h with
    | drive _ h =>
      cases ch <;> simp only [execDrive, Safepoint.requested, hp, reduceCtorEq, ↓reduceIte] at h
      cases h
      exact .enter (by simp)
    | spurious h => cases h

/-- When the count is complete, all agents but the main one are captured. -/
theorem Inv.captured {k : Site} (h : Inv s.mem.safepoint s.roles 0) (hmain : s.ctl (.agent 0) = .worldIsStopped k)
    (hle : s.mem.others ≤ s.mem.safepoint.stopped) {j : Fin cfg.agentCount} (hj : j ≠ 0) :
    Captured s.mem.safepoint.state (s.ctl (.agent j)) := by
  have hrole : s.roles 0 = .none := by
    rw [State.roles, hmain]
    rfl
  have hcounted : (s.roles j).counted = true := by
    have hle' : s.mem.others.toNat ≤ s.mem.safepoint.stopped.toNat := hle
    have hcard := others_toNat s.mem
    refine all_of_count (f := fun j => (s.roles j).counted) (a := 0) (by rw [hrole]; rfl) ?_ hj
    rw [← h.count]
    omega
  have hok := h.roles j
  rw [hrole] at hok
  -- A poll was counted for the current round; the others go back to the barrier.
  cases hr : s.roles j with
  | waiting k' st =>
    obtain ⟨pc, hpc⟩ := enter_of_role (Or.inl ⟨st, hr⟩)
    rw [hr] at hok
    cases k' with
    | site k' =>
      obtain ⟨-, rfl⟩ := hok.resolve_right (by simp)
      exact .waits hr
    | _ => exact hpc ▸ .enter (by simp)
  | leaving k' =>
    obtain ⟨pc, hpc⟩ := enter_of_role (Or.inr hr)
    rw [hr] at hok
    cases k' with
    | site k' => cases hok
    | _ => exact hpc ▸ .enter (by simp)
  | _ => rw [hr] at hcounted; cases hcounted

/-- A complete count holds until the main agent resumes the world. -/
theorem captured_of_run {k : Site} (h₀ : Reachable (fun s a => MainStops s a ∧ ArrivesFresh s a) s₀)
    (hmain : s₀.ctl (.agent 0) = .worldIsStopped k) (hle : s₀.mem.others ≤ s₀.mem.safepoint.stopped)
    (hp : pending s₀.mem.safepoint.state = true) (h : Run (fun s a => MainStops s a ∧ Holds s a) s₀ s) :
    ∀ j : Fin cfg.agentCount, j ≠ 0 → Captured s.mem.safepoint.state (s.ctl (.agent j)) := by
  have h₀' : Reachable MainStops s₀ := h₀.mono fun _ _ h => h.1
  have reached : ∀ s, Run (fun s a => MainStops s a ∧ Holds s a) s₀ s → Reachable MainStops s :=
    fun s h => h₀'.trans (h.mono fun _ _ h => h.1)
  refine (h.keeps_with (Q := fun s => Reachable MainStops s) (P := fun s => (∀ t, (s.ctl t).stopOp ≠ some .resumeWorld) ∧
    pending s.mem.safepoint.state = true ∧
      ∀ j : Fin cfg.agentCount, j ≠ 0 → Captured s.mem.safepoint.state (s.ctl (.agent j))) reached ?_ ?_).2.2
  · rintro s a s' hs ⟨hres, hp, hcap⟩ ⟨ha, hholds⟩ hstep
    have hres' : ∀ t, (s'.ctl t).stopOp ≠ some .resumeWorld :=
      avoided_of_step hres (fun o ho hop => hholds (by rw [ho]; cases o <;> cases hop; rfl)) hstep
    have hs' := hs.tail ha hstep
    have hword := (owned_of_run hs).word (owned_of_run hs') (external_of_run hs) (external_of_run hs') hstep hp (hres' _)
    rw [hword]
    obtain ⟨m, c, w, he, -, hctl⟩ := step_inv hstep
    refine ⟨hres', hp, fun j hj => ?_⟩
    refine Program.forall_ctl (P := fun t c => t = .agent j → Captured s.mem.safepoint.state c)
      (fun t r c hc ht => (hc ht).awaken) hctl (fun ht => (ht ▸ hcap j hj : Captured s.mem.safepoint.state (s.ctl a.1)).step he hp) (fun t _ ht => ht ▸ hcap j hj)
      (.agent j) rfl
  · have ho := owned_of_run h₀'
    refine ⟨fun t => ?_, hp, fun j hj => (inv_of_run h₀).captured hmain hle hj⟩
    rcases ho.stopOps t with hop | ⟨rfl, -⟩
    · simp [hop]
    · simp [hmain, Ctl.stopOp]

end Cluster


end NonBlocking

section
variable {cfg : Config} {s₀ s : State cfg}

/-- The non-blocking stop is a real stop when no poll is counted late: from the moment `world_is_stopped` finds
    the count complete for a stop that the main agent holds until it calls `resume_world`, no other agent is in
    task code outside `enter`. -/
theorem world_stays_stopped {k : Site} (h₀ : Reachable (fun s a => MainStops s a ∧ ArrivesFresh s a) s₀)
    (hmain : s₀.ctl (.agent 0) = .worldIsStopped k) (hle : s₀.mem.others ≤ s₀.mem.safepoint.stopped)
    (hp : pending s₀.mem.safepoint.state = true) (h : Run (fun s a => MainStops s a ∧ Holds s a) s₀ s) :
    ∀ j : Fin cfg.agentCount, j ≠ 0 → (s.ctl (.agent j)).inTaskCode = false :=
  fun j hj => (NonBlocking.captured_of_run h₀ hmain hle hp h j hj).inTaskCode

/-- Two agents: the worker's task polls and is counted in time. -/
theorem world_stays_stopped_two :
    ∃ s₀ s : State (.new 2 (by decide) (by decide)), Reachable (fun s a => MainStops s a ∧ ArrivesFresh s a) s₀ ∧
      Run (fun s a => MainStops s a ∧ Holds s a) s₀ s ∧
      (∃ p j st, s.ctl (.agent 1) = .enter (.site (.task p j)) (.asleep st)) ∧
      ∀ j : Fin 2, j ≠ 0 → (s.ctl (.agent j)).inTaskCode = false := by
  obtain ⟨s₀, s, h₀, ⟨hmain, hle, hp⟩, hs, hq⟩ := run_of_actions (fun s a => MainStops s a ∧ ArrivesFresh s a)
    (fun s a => MainStops s a ∧ Holds s a)
    ([Tid.calls (.agent 1) .spawn] ++ Tid.go (.agent 1) 5 ++ [Tid.calls (.agent 1) .run] ++ Tid.go (.agent 1) 8 ++
      [Tid.calls (.agent 0) .requestSafepoint] ++ Tid.go (.agent 0) 5 ++
      [Tid.calls (.agent 1) .poll] ++ Tid.go (.agent 1) 3 ++ [Tid.calls (.agent 0) .worldIsStopped])
    (Tid.go (.agent 1) 4 ++ Tid.go (.agent 0) 1)
    (fun s₀ : State (.new 2 (by decide) (by decide)) => s₀.ctl (.agent 0) = .worldIsStopped .host ∧
      s₀.mem.others ≤ s₀.mem.safepoint.stopped ∧ pending s₀.mem.safepoint.state = true)
    (fun s => s.ctl (.agent 1) = .enter (.site (.task ⟨.worker, true, 0⟩ ⟨1, 0⟩)) (.asleep 1)) (by decide +kernel)
  exact ⟨s₀, s, h₀, hs, ⟨_, _, _, hq⟩, world_stays_stopped h₀ hmain hle hp hs⟩

end

end Krio.Parallel
