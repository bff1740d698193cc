import Krio.Parallel.BoundedList
import Krio.Parallel.Work

/-! Whether stealing tries every other agent. `next_job` takes the victims from a free-running 32-bit counter plus
the position of its scan, modulo the number of agents; where the sum leaves the word that `usize` is, it wraps,
and the residues on its two sides do not continue each other. -/

namespace Krio.Parallel
open Lib

section
variable {cfg : Config} {i : Fin cfg.agentCount} {r k k' : ℕ} {s s' s₀ : State cfg}

/-- Inside `next_job`. -/
def Ctl.searches : Ctl cfg → Bool
  | .pop _ _ | .drive _ .injector | .drive _ .rotor | .drive _ (.victim _ _) | .steal _ _ _ _ => true
  | _ => false

/-- Only agent `i` acts, in its call of `next_job`. -/
def Searches (i : Fin cfg.agentCount) (s : State cfg) (a : Act cfg) : Prop :=
  a = (.agent i, .go) ∧ (s.ctl (.agent i)).searches = true

/-- No thread is in the middle of an operation on a deque. -/
def Quiescent (s : State cfg) : Prop := ∀ t, (s.ctl t).resting

/-- What the victim loop of agent `i` is for, when it starts from the counter value `r`. -/
structure TriesAll (cfg : Config) (i : Fin cfg.agentCount) (r : ℕ) : Prop where
  /-- No addition overflows. -/
  adds : ∀ k < cfg.agentCount, r + k < 2 ^ cfg.w
  /-- Every other agent is a victim exactly once. -/
  visits : ∀ v, v ≠ i → ∃! k, k < cfg.agentCount ∧ victimAt cfg r k = v
  /-- In a quiescent cluster `next_job` returns `None` only when there is nothing to take. -/
  exhausts : ∀ s s' p, Reachable Sane s → Quiescent s → s.mem.rotor = r → s.ctl (.agent i) = .pop p .loadBottom →
    Run (Searches i) s s' → s'.ctl (.agent i) = p.finish → s.mem.injector = [] ∧ ∀ v, s.live v = []

theorem victimAt_of_lt (h : r + k < 2 ^ cfg.w) : (victimAt cfg r k : ℕ) = (r + k) % cfg.agentCount := by
  exact congrArg (· % cfg.agentCount) (Nat.mod_eq_of_lt h)

theorem exists_victim (h : r + cfg.agentCount ≤ 2 ^ cfg.w) (v : Fin cfg.agentCount) :
    ∃ k < cfg.agentCount, victimAt cfg r k = v := by
  have hn := cfg.agents_pos
  have hr := Nat.mod_lt r hn
  refine ⟨(v + (cfg.agentCount - r % cfg.agentCount)) % cfg.agentCount, Nat.mod_lt _ hn, Fin.ext ?_⟩
  have hk := Nat.mod_lt (v + (cfg.agentCount - r % cfg.agentCount)) hn
  rw [victimAt_of_lt (by omega), Nat.add_mod_mod]
  have hsum : r + (v + (cfg.agentCount - r % cfg.agentCount)) = v + cfg.agentCount * (r / cfg.agentCount + 1) := by
    have := Nat.div_add_mod r cfg.agentCount
    rw [Nat.mul_add, Nat.mul_one]
    omega
  rw [hsum, Nat.add_mul_mod_self_left, Nat.mod_eq_of_lt v.isLt]

theorem victim_unique (h : r + cfg.agentCount ≤ 2 ^ cfg.w) (hk : k < cfg.agentCount) (hk' : k' < cfg.agentCount)
    (hv : victimAt cfg r k = victimAt cfg r k') : k = k' := by
  have hmod : (r + k) % cfg.agentCount = (r + k') % cfg.agentCount := by
    rw [← victimAt_of_lt (by omega), ← victimAt_of_lt (by omega), hv]
  exact (Nat.ModEq.add_left_cancel' r hmod).eq_of_lt_of_lt hk hk'

/-! ### A search with nobody interfering -/

/-- The deques are as they were when the search began at `s₀`, agent `i`'s own one holds nothing, nor did the
    injector, and nor do those of the victims before position `k`. -/
structure Tried (s₀ : State cfg) (i : Fin cfg.agentCount) (m : Mem cfg) (k : ℕ) : Prop where
  deques : m.deques = s₀.mem.deques
  own : s₀.live i = []
  injector : s₀.mem.injector = []
  victims : ∀ j < k, s₀.live (victimAt cfg s₀.mem.rotor j) = []

/-- How far agent `i` has come in the search that it began at `s₀` in pass `p`. -/
def Searched (s₀ : State cfg) (i : Fin cfg.agentCount) (p : Pass) (m : Mem cfg) : Ctl cfg → Prop
  | .pop q pc => q = p ∧ (∀ v, v ≠ i → m.deques v = s₀.mem.deques v) ∧ m.injector = s₀.mem.injector ∧
      m.rotor = s₀.mem.rotor ∧ ∃ n x, runCall Deque.pop n (m.deques i) pc = some x ∧
        runCall Deque.pop 6 (s₀.mem.deques i) .loadBottom = some x
  | .drive q .injector => q = p ∧ m.deques = s₀.mem.deques ∧ m.injector = s₀.mem.injector ∧
      m.rotor = s₀.mem.rotor ∧ s₀.live i = []
  | .drive q .rotor => q = p ∧ m.rotor = s₀.mem.rotor ∧ Tried s₀ i m 0
  | .drive q (.victim start k) => q = p ∧ start = s₀.mem.rotor ∧ Tried s₀ i m k
  | .steal q start k pc => q = p ∧ start = s₀.mem.rotor ∧ Tried s₀ i m k ∧
      ∃ n x, runCall Deque.steal n (s₀.mem.deques (victimAt cfg start k)) pc = some x ∧
        runCall Deque.steal 4 (s₀.mem.deques (victimAt cfg start k)) .loadTop = some x
  | .drive _ (.found _ _) | .ub => True
  | _ => Tried s₀ i m cfg.agentCount

theorem searched_finish {p : Pass} {m : Mem cfg} (h : Tried s₀ i m cfg.agentCount) : Searched s₀ i p m p.finish := by
  unfold Pass.finish
  split
  · split <;> exact h
  · exact h

theorem Tried.more {m : Mem cfg} (h : Tried s₀ i m k) (hk : s₀.live (victimAt cfg s₀.mem.rotor k) = []) :
    Tried s₀ i m (k + 1) := by
  refine ⟨h.deques, h.own, h.injector, fun j hj => ?_⟩
  obtain hj | rfl := Nat.lt_succ_iff_lt_or_eq.mp hj
  · exact h.victims j hj
  · exact hk

theorem setDeque_eq_self {m : Mem cfg} {v : Fin cfg.agentCount} {d : Deque cfg.w Job} (h : m.deques v = d) :
    m.setDeque v d = m := by
  rw [← h, Mem.setDeque, Function.update_eq_self]

/-- A step of the search. -/
theorem Searched.step {p : Pass} (hn : 2 ≤ cfg.agentCount) (hheld : ∀ v, (s₀.mem.deques v).Holds (s₀.live v))
    {m m' : Mem cfg} {c c' : Ctl cfg} {w : Option (Addr cfg)} (h : Searched s₀ i p m c) (hc : c.searches = true)
    (he : ExecCase (.agent i) m c .go (m', c', w)) : w = none ∧ Searched s₀ i p m' c' := by
  cases he with
  | @pop a q pc r ht hp =>
    cases ht
    obtain ⟨rfl, hothers, hinj, hrotor, n, x, hx, hx₀⟩ := h
    unfold execPop at hp
    split at hp <;> rename_i hpop <;> cases hp
    · refine ⟨rfl, rfl, fun v hv => ?_, hinj, hrotor, ?_⟩
      · exact (deques_setDeque_of_ne hv).trans (hothers v hv)
      · obtain ⟨n, hn⟩ := runCall_of_next hx hpop
        exact ⟨n, x, by rwa [deques_setDeque_self], hx₀⟩
    · obtain rfl := eq_of_runCall_ret hx hpop
      obtain ⟨hnil, rfl⟩ := (hheld i).of_pop_none hx₀
      refine ⟨rfl, rfl, funext fun v => ?_, hinj, hrotor, hnil⟩
      obtain rfl | hv := eq_or_ne v i
      · exact deques_setDeque_self ..
      · exact (deques_setDeque_of_ne hv).trans (hothers v hv)
    · exact ⟨rfl, trivial⟩
    · exact ⟨rfl, trivial⟩
  | @drive a q pc o r ht hd =>
    cases ht
    cases pc with
    | injector =>
      obtain ⟨rfl, hdeq, hinj, hrotor, hnil⟩ := h
      simp only [execDrive] at hd
      split at hd
      · cases hd
        exact ⟨rfl, trivial⟩
      · rename_i hnone
        rw [if_pos (show 1 < cfg.agentCount from hn)] at hd
        cases hd
        exact ⟨rfl, rfl, hrotor, hdeq, hnil, hinj ▸ hnone, by simp⟩
    | rotor =>
      obtain ⟨rfl, hrotor, htried⟩ := h
      cases hd
      exact ⟨rfl, rfl, hrotor, htried.deques, htried.own, htried.injector, by simp⟩
    | victim start k =>
      obtain ⟨rfl, rfl, htried⟩ := h
      simp only [execDrive] at hd
      split at hd
      · split at hd <;> rename_i hv <;> cases hd
        · exact ⟨rfl, rfl, rfl, htried.more (by rw [hv]; exact htried.own)⟩
        · obtain ⟨x, hx⟩ := (hheld (victimAt cfg s₀.mem.rotor k)).steal_returns
          exact ⟨rfl, rfl, rfl, htried, 4, x, hx, hx⟩
      · cases hd
        exact ⟨rfl, searched_finish ⟨htried.deques, htried.own, htried.injector, fun j hj => htried.victims j (by omega)⟩⟩
    | _ => cases hc
  | @steal a q start k pc r ht hs =>
    cases ht
    obtain ⟨rfl, rfl, htried, n, x, hx, hx₀⟩ := h
    rw [← htried.deques] at hx
    unfold execSteal at hs
    split at hs <;> rename_i d _ hsteal <;> cases hs
    · obtain rfl := Deque.deque_of_steal_next hsteal
      rw [setDeque_eq_self rfl]
      obtain ⟨n, hn⟩ := runCall_of_next hx hsteal
      rw [htried.deques] at hn
      exact ⟨rfl, rfl, rfl, htried, n, x, hn, hx₀⟩
    · obtain rfl := eq_of_runCall_ret hx hsteal
      obtain ⟨hnil, rfl⟩ := (hheld _).of_steal_none hx₀
      rw [setDeque_eq_self (by rw [htried.deques])]
      exact ⟨rfl, rfl, rfl, htried.more hnil⟩
    · exact ⟨rfl, trivial⟩
    · exact ⟨rfl, trivial⟩
  | _ => cases hc

/-- A search that returns `None` has tried everything, and there was nothing. -/
theorem Searched.run {p : Pass} (hn : 2 ≤ cfg.agentCount) (hs₀ : Reachable Sane s₀) (hq : Quiescent s₀)
    (hctl : s₀.ctl (.agent i) = .pop p .loadBottom) (hrun : Run (Searches i) s₀ s) :
    Searched s₀ i p s.mem (s.ctl (.agent i)) := by
  have hheld : ∀ v, (s₀.mem.deques v).Holds (s₀.live v) :=
    fun v => ((sound_of_run hs₀).deques v).holds (hq (.agent v)).1
  refine hrun.keeps (P := fun s => Searched s₀ i p s.mem (s.ctl (.agent i))) ?_ ?_
  · rintro s a s' h ⟨rfl, hc⟩ hstep
    obtain ⟨m, c, w, he, rfl, hctl'⟩ := step_inv hstep
    obtain ⟨rfl, h'⟩ := h.step hn hheld hc he
    rwa [show s'.ctl (.agent i) = c by rw [hctl']; exact Function.update_self ..]
  · obtain ⟨x, hx⟩ := (hheld i).pop_returns
    rw [hctl]
    exact ⟨rfl, fun _ _ => rfl, rfl, rfl, 6, x, hx, hx⟩

theorem tried_of_finish {p : Pass} {m : Mem cfg} (h : Searched s₀ i p m p.finish) : Tried s₀ i m cfg.agentCount := by
  unfold Pass.finish at h
  split at h
  · split at h <;> exact h
  · exact h

/-- Stealing tries every other agent exactly when the counter plus the number of agents fits into a word: then no
    addition of the victim loop overflows, every other agent is a victim exactly once, and in a quiescent cluster
    `next_job` returns `None` only when there is nothing to take. -/
theorem tries_all_iff (hn : 2 ≤ cfg.agentCount) (i : Fin cfg.agentCount) (r : ℕ) :
    TriesAll cfg i r ↔ r + cfg.agentCount ≤ 2 ^ cfg.w := by
  constructor
  · intro h
    have := h.adds (cfg.agentCount - 1) (by omega)
    omega
  · intro h
    refine ⟨fun k hk => by omega, fun v _ => ?_, ?_⟩
    · obtain ⟨k, hk, hv⟩ := exists_victim h v
      exact ⟨k, ⟨hk, hv⟩, fun k' ⟨hk', hv'⟩ => victim_unique h hk' hk (hv'.trans hv.symm)⟩
    · rintro s s' p hs hq rfl hctl hrun hnone
      have hsearched := Searched.run hn hs hq hctl hrun
      rw [hnone] at hsearched
      have htried := tried_of_finish hsearched
      refine ⟨htried.injector, fun v => ?_⟩
      obtain ⟨k, hk, hv⟩ := exists_victim h v
      rw [← hv]
      exact htried.victims k hk

/-- With words of 64 bits the counter always fits. -/
theorem fits_of_64 (hw : cfg.w = 64) (hr : r < 2 ^ 32) : r + cfg.agentCount ≤ 2 ^ cfg.w := by
  have := cfg.agents_u32
  rw [hw]
  omega

/-- `Cluster::new` on wasm32. -/
def Config.wasm32 (agentCount : ℕ) (pos : 0 < agentCount) (u32 : agentCount < 2 ^ 32) : Config :=
  ⟨agentCount, pos, u32, 32, 256, by decide +kernel⟩

/-- Three agents on wasm32, with the counter at its largest value: agent 1 tries agent 0, agent 0 again and itself,
    and never agent 2. -/
theorem agent_never_tried :
    ¬ TriesAll (.wasm32 3 (by decide) (by decide)) 1 (2 ^ 32 - 1) ∧
      ∀ k < 3, victimAt (.wasm32 3 (by decide) (by decide)) (2 ^ 32 - 1) k ≠ 2 := by
  have hmissed : ∀ k < 3, victimAt (.wasm32 3 (by decide) (by decide)) (2 ^ 32 - 1) k ≠ 2 := by decide +kernel
  refine ⟨fun h => ?_, hmissed⟩
  obtain ⟨k, ⟨hk, hv⟩, -⟩ := h.visits 2 (by decide)
  exact hmissed k hk hv

/-- With words of 64 bits the same counter value leaves no agent out. -/
theorem tries_all_64 : TriesAll (.new 3 (by decide) (by decide)) 1 (2 ^ 32 - 1) :=
  (tries_all_iff (by decide) 1 (2 ^ 32 - 1)).mpr (fits_of_64 rfl (by decide))

end

end Krio.Parallel
