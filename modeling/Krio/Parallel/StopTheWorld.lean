import Krio.Parallel.Barrier

/-! Stop-the-world exclusion. In runs without `request_safepoint`, `resume_world` and `shutdown`, while the
closure of a `stop_the_world` call executes, every other agent waits inside `enter` for the round of that
call.

The barrier compares an anonymous count, so the invariant says which agents the count can be made of.
An agent counted for an earlier round can only be there while the releaser of that round is still
draining; the releaser is not counted then, so no count reaches the number of the others. -/

namespace Krio.Parallel
open Lib Safepoint

namespace Barrier

section Protocol
variable {ι : Type} [Fintype ι] {others : BitVec 32} {sp sp' : Safepoint} {r r' : ι → Role} {i : ι}
  {x : Role}

/-- The releaser of an earlier round waits for the count to drain. -/
def Draining (r : ι → Role) : Prop := ∃ d, r d = .draining

/-- A thread counted with snapshot `s` waits for the current round, or for one whose releaser is still
    draining; then at most one stop was requested since. -/
def WaitsFor (sp : Safepoint) (r : ι → Role) (s : BitVec 32) : Prop :=
  pending sp.state = true ∧ s = sp.state ∨
    Draining r ∧ (pending sp.state = true ∧ s + 2 = sp.state ∨ pending sp.state = false ∧ s + 1 = sp.state)

/-- What a role says about the barrier's word. -/
def RoleOk (sp : Safepoint) (r : ι → Role) : Role → Prop
  | .snapped _ s => pending sp.state = true ∧ s = sp.state
  | .waiting _ s => WaitsFor sp r s
  | .leaving _ => Draining r
  | .owner | .inF | .releasing => pending sp.state = true
  | .none | .draining => True

/-- All threads but `i` wait for the current round. -/
def Stopped (sp : Safepoint) (r : ι → Role) (i : ι) : Prop := ∀ j, j ≠ i → ∃ k, r j = .waiting k sp.state

/-- The invariant of the barrier between agents that only call `stop_the_world`. -/
structure Inv (sp : Safepoint) (r : ι → Role) : Prop where
  count : sp.stopped.toNat = Lib.count fun i => (r i).counted
  roles : ∀ i, RoleOk sp r (r i)
  owned : pending sp.state = true → ∃ i, (r i).holds = true
  unique : ∀ i j, (r i).holds = true → (r j).holds = true → i = j
  stopped : ∀ i, (r i).stops = true → Stopped sp r i

omit [Fintype ι] in
theorem Draining.of_ne (h : Draining r) (hne : ∀ j, j ≠ i → r' j = r j) (hi : r i ≠ .draining) : Draining r' := by
  obtain ⟨d, hd⟩ := h
  exact ⟨d, by rw [hne d (by rintro rfl; exact hi hd), hd]⟩

omit [Fintype ι] in
theorem RoleOk.mono {y : Role} (h : RoleOk sp r y) (hst : sp'.state = sp.state) (hd : Draining r → Draining r') :
    RoleOk sp' r' y := by
  cases y <;> simp only [RoleOk, WaitsFor, hst] at h ⊢
  case snapped => exact h
  case waiting => exact h.imp_right fun h => ⟨hd h.1, h.2⟩
  case leaving => exact hd h
  all_goals exact h

omit [Fintype ι] in
/-- A counted thread that sees the word off its snapshot is there from an earlier round. -/
theorem WaitsFor.stale {s : BitVec 32} (h : WaitsFor sp r s) (hs : sp.state ≠ s) : Draining r := by
  rcases h with ⟨-, rfl⟩ | ⟨hd, -⟩
  · exact absurd rfl hs
  · exact hd

namespace Inv

theorem pending_of_holds (h : Inv sp r) (hi : (r i).holds = true) : pending sp.state = true := by
  have hok := h.roles i
  cases hr : r i <;> simp_all [Role.holds, RoleOk]

/-- While a releaser drains, the count cannot reach the number of the others. -/
theorem not_draining (h : Inv sp r) (hn : others.toNat + 1 = Fintype.card ι) (hi : (r i).counted = false)
    (hle : others ≤ sp.stopped) (hd : r i ≠ .draining) : ¬Draining r := by
  rintro ⟨d, hrd⟩
  have hdi : d ≠ i := by
    rintro rfl
    exact hd hrd
  have hall := all_of_count (f := fun j => (r j).counted) hi (by
    rw [← h.count, ← hn]
    have : others.toNat ≤ sp.stopped.toNat := hle
    omega) hdi
  simp [hrd, Role.counted] at hall

/-- When all others have arrived, they all wait for the current round. -/
theorem all_waiting (h : Inv sp r) (hn : others.toNat + 1 = Fintype.card ι) (hi : r i = .owner)
    (hle : others ≤ sp.stopped) : Stopped sp r i := by
  intro j hj
  have hci : (r i).counted = false := by rw [hi]; rfl
  have hnd := h.not_draining hn hci hle (by rw [hi]; simp)
  have hcj := all_of_count (f := fun j => (r j).counted) hci (by
    rw [← h.count, ← hn]
    have : others.toNat ≤ sp.stopped.toNat := hle
    omega) hj
  have hok := h.roles j
  cases hrj : r j with
  | waiting k s =>
    rw [hrj] at hok
    rcases hok with ⟨-, rfl⟩ | ⟨hd, -⟩
    · exact ⟨k, rfl⟩
    · exact absurd hd hnd
  | leaving k =>
    rw [hrj] at hok
    exact absurd hok hnd
  | _ => simp [hrj, Role.counted] at hcj

end Inv

/-! A step of thread `i`, which gets the role `x`. -/

section Steps
variable (hi : r' i = x) (hne : ∀ j, j ≠ i → r' j = r j)
include hi hne

omit [Fintype ι] in
/-- A property of all roles, when only the role of `i` changes. -/
theorem forall_role {P : ι → Role → Prop} (hx : P i x) (h : ∀ j, j ≠ i → P j (r j)) (j : ι) : P j (r' j) := by
  obtain rfl | hj := eq_or_ne j i
  · rw [hi]
    exact hx
  · rw [hne j hj]
    exact h j hj

omit [Fintype ι] in
/-- A thread with a role that `i` did not get had it before. -/
theorem role_of_ne {j : ι} {y : Role} (hj : r' j = y) (hy : x ≠ y) : r j = y := by
  have hji : j ≠ i := by
    rintro rfl
    exact hy (hi.symm.trans hj)
  exact (hne j hji).symm.trans hj

theorem count_same (h : x.counted = (r i).counted) :
    (Lib.count fun j => (r' j).counted) = Lib.count fun j => (r j).counted :=
  count_congr (forall_role (P := fun j y => y.counted = (r j).counted) hi hne h fun _ _ => rfl)

/-- Every step keeps the count of the threads that are counted. -/
theorem count_step {stopping foreign : Bool} (hc : sp.stopped.toNat = Lib.count fun j => (r j).counted)
    (hlt : Fintype.card ι < 2 ^ 32) (hs : Barrier.Step others stopping foreign sp (r i) sp' x) :
    sp'.stopped.toNat = Lib.count fun j => (r' j).counted := by
  generalize hr : r i = y at hs
  have same : x.counted = y.counted → (Lib.count fun j => (r' j).counted) = Lib.count fun j => (r j).counted :=
    fun hxy => count_same hi hne (by rw [hr, hxy])
  cases hs with
  | arrive k s =>
    have hins := count_insert (f := fun j => (r j).counted) (g := fun j => (r' j).counted) (a := i)
      (fun j hj => by rw [hne j hj]) (by rw [hr]; rfl) (by rw [hi]; rfl)
    have hle := count_le_card fun j => (r' j).counted
    rw [hins, BitVec.toNat_add, hc, show (1 : BitVec 32).toNat = 1 from rfl]
    omega
  | leave k =>
    have hers := count_erase (f := fun j => (r j).counted) (g := fun j => (r' j).counted) (a := i)
      (fun j hj => by rw [hne j hj]) (by rw [hr]; rfl) (by rw [hi]; rfl)
    rw [BitVec.toNat_sub, show (1 : BitVec 32).toNat = 1 from rfl]
    have := sp.stopped.isLt
    omega
  | _ => exact hc.trans (same rfl).symm

/-- A step that leaves the word as it is. -/
theorem Inv.update (h : Inv sp r) (hst : sp'.state = sp.state)
    (hcount : sp'.stopped.toNat = Lib.count fun j => (r' j).counted)
    (hroles : ∀ j, j ≠ i → RoleOk sp' r' (r j)) (hx : RoleOk sp' r' x) (hholds : x.holds = (r i).holds)
    (hstops : x.stops = true → Stopped sp r i)
    (hwaits : (∃ k, r i = .waiting k sp.state) → ∃ k, x = .waiting k sp.state) : Inv sp' r' := by
  have holds : ∀ j, (r' j).holds = (r j).holds :=
    forall_role (P := fun j y => y.holds = (r j).holds) hi hne hholds fun _ _ => rfl
  refine ⟨hcount, forall_role (P := fun _ => RoleOk sp' r') hi hne hx hroles, ?_, ?_, ?_⟩
  · rw [hst]
    simp only [holds]
    exact h.owned
  · simp only [holds]
    exact h.unique
  · refine forall_role (P := fun j y => y.stops = true → Stopped sp' r' j) hi hne ?_ ?_
    · intro hs j hj
      rw [hne j hj, hst]
      exact hstops hs j hj
    · intro j _ hs l hl
      rw [hst]
      obtain rfl | hli := eq_or_ne l i
      · rw [hi]
        exact hwaits (h.stopped j hs l hl)
      · rw [hne l hli]
        exact h.stopped j hs l hl

theorem Inv.request (h : Inv sp r) (hr : r i = .none) (hp : pending sp.state = false) (hx : x = .owner) :
    Inv { sp with state := sp.state + 1 } r' := by
  have hp' : pending (sp.state + 1) = true := by rw [pending_add_one, hp]; rfl
  have hd : Draining r → Draining r' := fun hd => hd.of_ne hne (by rw [hr]; simp)
  -- Nobody holds a stop while the word is idle.
  have hnone : ∀ j, (r j).holds = false := by
    intro j
    by_contra hj
    have := h.pending_of_holds (i := j) (by simpa using hj)
    rw [hp] at this
    cases this
  have hroles : ∀ j, j ≠ i → RoleOk { sp with state := sp.state + 1 } r' (r j) := by
    intro j _
    have hok := h.roles j
    have hj := hnone j
    cases hrj : r j <;> rw [hrj] at hok hj
    case snapped => exact absurd hok.1 (by simp [hp])
    case waiting k s =>
      rcases hok with ⟨hp₂, -⟩ | ⟨hdr, ⟨hp₂, -⟩ | ⟨-, hs⟩⟩
      · rw [hp] at hp₂
        cases hp₂
      · rw [hp] at hp₂
        cases hp₂
      · exact Or.inr ⟨hd hdr, Or.inl ⟨hp', by rw [← hs, BitVec.add_assoc]; rfl⟩⟩
    case leaving => exact hd hok
    case none | draining => trivial
    all_goals cases hj
  have honly : ∀ j, (r' j).holds = true → j = i := by
    intro j hj
    by_contra hji
    rw [hne j hji, hnone j] at hj
    cases hj
  refine ⟨?_, forall_role (P := fun _ => RoleOk _ r') hi hne (by rw [hx]; exact hp') hroles, ?_, ?_, ?_⟩
  · rw [count_same hi hne (by rw [hx, hr]; rfl)]
    exact h.count
  · exact fun _ => ⟨i, by rw [hi, hx]; rfl⟩
  · exact fun j l hj hl => (honly j hj).trans (honly l hl).symm
  · intro j hj
    have hji : j = i := honly j (by cases hrj : r' j <;> simp_all [Role.stops, Role.holds])
    rw [hji, hi, hx] at hj
    cases hj

theorem Inv.release (h : Inv sp r) (hr : r i = .releasing) (hp : pending sp.state = true) (hx : x = .draining) :
    Inv { sp with state := sp.state + 1 } r' := by
  have hp' : pending (sp.state + 1) = false := by rw [pending_add_one, hp]; rfl
  have hwait : Stopped sp r i := h.stopped i (by rw [hr]; rfl)
  have hholds : ∀ j, (r' j).holds = false := by
    refine forall_role (P := fun _ y => y.holds = false) hi hne (by rw [hx]; rfl) ?_
    intro j hj
    obtain ⟨k, hk⟩ := hwait j hj
    rw [hk]
    rfl
  refine ⟨?_, forall_role (P := fun _ => RoleOk _ r') hi hne (by rw [hx]; trivial) ?_, ?_, ?_, ?_⟩
  · rw [count_same hi hne (by rw [hx, hr]; rfl)]
    exact h.count
  · intro j hj
    obtain ⟨k, hk⟩ := hwait j hj
    rw [hk]
    exact Or.inr ⟨⟨i, hi.trans hx⟩, Or.inr ⟨hp', rfl⟩⟩
  · intro hp₂
    rw [hp'] at hp₂
    cases hp₂
  · intro j _ hj
    rw [hholds j] at hj
    cases hj
  · intro j hj
    have := hholds j
    cases hrj : r' j <;> simp_all [Role.stops, Role.holds]

theorem Inv.drained (h : Inv sp r) (hr : r i = .draining) (hz : sp.stopped = 0) (hx : x = .none) : Inv sp r' := by
  have hnone := eq_false_of_count_eq_zero (h.count.symm.trans (by rw [hz]; rfl))
  refine h.update hi hne rfl ?_ ?_ (by rw [hx]; trivial) (by rw [hx, hr]; rfl) (by rw [hx]; rintro ⟨⟩) (by rw [hr]; rintro ⟨k, ⟨⟩⟩)
  · rw [count_same hi hne (by rw [hx, hr]; rfl)]
    exact h.count
  · intro j _
    have hok := h.roles j
    have hj := hnone j
    cases hrj : r j <;> rw [hrj] at hok hj <;> first | exact hok | cases hj

/-- The invariant is kept by every step of agents that only call `stop_the_world`. -/
theorem Inv.step (h : Inv sp r) (hn : others.toNat + 1 = Fintype.card ι) (hlt : Fintype.card ι < 2 ^ 32)
    (hs : Barrier.Step others false false sp (r i) sp' x) : Inv sp' r' := by
  have hcount := count_step hi hne h.count hlt hs
  generalize hr : r i = y at hs
  have hd : y ≠ .draining → Draining r → Draining r' := fun hy hd => hd.of_ne hne (by rwa [hr])
  have hroles : y ≠ .draining → sp'.state = sp.state → ∀ j, j ≠ i → RoleOk sp' r' (r j) :=
    fun hy hst j _ => (h.roles j).mono hst (hd hy)
  have hok := h.roles i
  rw [hr] at hok
  cases hs with
  | idle =>
    have : r' = r := by
      funext j
      exact forall_role (P := fun j y => y = r j) hi hne hr.symm (fun _ _ => rfl) j
    rwa [this]
  | snap k hp =>
    exact h.update hi hne rfl hcount (hroles (by simp) rfl) ⟨hp, rfl⟩ (by rw [hr]; rfl) (by rintro ⟨⟩)
      (by rw [hr]; rintro ⟨k, ⟨⟩⟩)
  | arrive k s =>
    exact h.update hi hne rfl hcount (hroles (by simp) rfl) (Or.inl hok) (by rw [hr]; rfl) (by rintro ⟨⟩)
      (by rw [hr]; rintro ⟨k, ⟨⟩⟩)
  | see k s hs =>
    refine h.update hi hne rfl hcount (hroles (by simp) rfl) (hd (by simp) (hok.stale hs)) (by rw [hr]; rfl)
      (by rintro ⟨⟩) ?_
    rw [hr]
    rintro ⟨k', hk⟩
    cases hk
    exact absurd rfl hs
  | leave k =>
    exact h.update hi hne rfl hcount (hroles (by simp) rfl) trivial (by rw [hr]; rfl) (by rintro ⟨⟩)
      (by rw [hr]; rintro ⟨k, ⟨⟩⟩)
  | request hp => exact h.request hi hne hr hp rfl
  | arrived hle =>
    exact h.update hi hne rfl hcount (hroles (by simp) rfl) hok (by rw [hr]; rfl)
      (fun _ => h.all_waiting hn hr hle) (by rw [hr]; rintro ⟨k, ⟨⟩⟩)
  | finish =>
    exact h.update hi hne rfl hcount (hroles (by simp) rfl) hok (by rw [hr]; rfl)
      (fun _ => h.stopped i (by rw [hr]; rfl)) (by rw [hr]; rintro ⟨k, ⟨⟩⟩)
  | release hp => exact h.release hi hne hr hp rfl
  | releaseIdle hp => exact absurd hok (by simp [RoleOk, hp])
  | drained hz => exact h.drained hi hne hr hz rfl
  | requestSafepoint hf => cases hf
  | giveUp hf => cases hf
  | releaseOther hf => cases hf
  | drainStopped hf => cases hf

end Steps

end Protocol

end Barrier

section Cluster
variable {cfg : Config} {s s' : State cfg}

/-- The barrier's invariant holds in every state of a run without `request_safepoint`, `resume_world` and
    `shutdown`. -/
theorem barrierInv_of_run (h : Reachable StopsOnly s) : Barrier.Inv s.mem.safepoint s.roles := by
  refine h.keeps_with (P := fun s => Barrier.Inv s.mem.safepoint s.roles) (Q := Reachable StopsOnly) (fun _ h => h) ?_ ?_
  · intro s a s' hr hinv ha hstep
    rcases roles_inv hstep hr ha with ⟨hsp, hroles⟩ | ⟨i, -, hstep, hne⟩
    · rwa [hsp, hroles]
    · exact hinv.step rfl hne (others_toNat s.mem) (by simpa using cfg.agents_u32) hstep
  · refine ⟨?_, fun _ => trivial, ?_, ?_, ?_⟩
    · simp [State.init, Mem.new, Safepoint.new, Lib.count, State.roles, Ctl.role, Role.counted]
    · exact fun h => absurd h (by simp [State.init, Mem.new, Safepoint.new, pending])
    · rintro _ _ ⟨⟩
    · rintro _ ⟨⟩

/-- Agent `j` is inside `enter`, counted in `stopped`, with the current word as its snapshot. -/
def State.waits (s : State cfg) (j : Fin cfg.agentCount) : Prop :=
  ∃ k pc, s.ctl (.agent j) = .enter k pc ∧ (Ctl.enter k pc : Ctl cfg).role = .waiting k s.mem.safepoint.state

theorem waits_of_role {j : Fin cfg.agentCount} {k : EnterK} (h : s.roles j = .waiting k s.mem.safepoint.state) :
    s.waits j := by
  unfold State.roles at h
  cases hc : s.ctl (.agent j) with
  | enter k' pc =>
    rw [hc] at h
    have hk : k' = k := by cases pc <;> cases h <;> rfl
    subst hk
    exact ⟨k', pc, hc, h⟩
  | stopTheWorld _ pc => rw [hc] at h; cases pc <;> cases h
  | release k pc => rw [hc] at h; cases k <;> cases pc <;> cases h
  | _ => rw [hc] at h; cases h

/-- The threads that execute task code, or the closure of a `stop_the_world` call. -/
def Ctl.mutates : Ctl cfg → Bool
  | .task _ _ | .stopTheWorld _ .inF => true
  | _ => false

/-- Stop-the-world exclusion: while a closure executes, every other agent waits inside `enter` for the
    current round and no other thread is in task code or in a closure; and whenever `await_all` takes the
    count for complete, it consists of arrivals for the current round. -/
theorem stop_the_world_excludes (h : Reachable StopsOnly s) (i : Fin cfg.agentCount) (k : Site) :
    (s.ctl (.agent i) = .stopTheWorld k .inF →
      (∀ j, j ≠ i → s.waits j) ∧ ∀ t, t ≠ .agent i → (s.ctl t).mutates = false) ∧
    (s.ctl (.agent i) = .stopTheWorld k (.awaitAll .load) → s.mem.others ≤ s.mem.safepoint.stopped →
      ∀ j, j ≠ i → s.waits j) := by
  have hinv := barrierInv_of_run h
  have waits : Barrier.Stopped s.mem.safepoint s.roles i → ∀ j, j ≠ i → s.waits j := by
    intro hs j hj
    obtain ⟨k', hk'⟩ := hs j hj
    exact waits_of_role hk'
  refine ⟨fun hi => ?_, fun hi hle => ?_⟩
  · have hall := waits (hinv.stopped i (by simp [State.roles, hi, Ctl.role, Role.stops]))
    refine ⟨hall, fun t ht => ?_⟩
    cases t with
    | agent j =>
      obtain ⟨k', pc, hj, -⟩ := hall j (by simpa using ht)
      rw [hj]
      rfl
    | ext x =>
      have hx := external_of_run h x
      cases hc : s.ctl (.ext x) <;> rw [hc] at hx <;> first | rfl | cases hx
  · exact waits (hinv.all_waiting (others_toNat s.mem) (by simp [State.roles, hi, Ctl.role]) hle)

/-- Two agents: the first stops the second, which `run` takes to the barrier. -/
theorem stop_the_world_excludes_two :
    ∃ s : State (.new 2 (by decide) (by decide)), Reachable StopsOnly s ∧
      s.ctl (.agent 0) = .stopTheWorld .host .inF ∧ (∀ j, j ≠ 0 → s.waits j) := by
  obtain ⟨s, hs, hq⟩ := reachable_of_actions StopsOnly
    ([Tid.calls (.agent 0) .stopTheWorld] ++ Tid.go (.agent 0) 2 ++ [Tid.calls (.agent 1) .run] ++
      Tid.go (.agent 1) 4 ++ Tid.go (.agent 0) 4)
    (fun s : State (.new 2 (by decide) (by decide)) => s.ctl (.agent 0) = .stopTheWorld .host .inF) (by decide +kernel)
  have hs' : s.ctl (.agent 0) = .stopTheWorld .host .inF := by simpa using hq
  exact ⟨s, hs, hs', ((stop_the_world_excludes hs 0 .host).1 hs').1⟩

end Cluster

end Krio.Parallel
