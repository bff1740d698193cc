import Krio.Parallel.Hands

/-! No job is lost, duplicated or run by two agents at once. The places of a cluster are places of custody:
every step of every thread moves at most one job from one place to another, and a job that was spawned
and has not completed is in exactly one of them. -/

namespace Krio.Parallel
open Lib

section
variable {cfg : Config} {s s' : State cfg} {a : Act cfg} {c : Ctl cfg} {w : Option (Addr cfg)} {i : Fin cfg.agentCount}

/-- The books: waiting tasks are filed under their identities, and identities are not given out twice. -/
structure Ledger (m : Mem cfg) : Prop where
  keyed : ∀ e ∈ m.parked.tasks.entries, e.2.id = e.1
  numbered : ∀ j, .spawned j ∈ m.log → j.task < m.spawned ∧ j.id = j.task + 1
  done : ∀ j, .completed j ∈ m.log → .spawned j ∈ m.log
  nextId : m.nextId = (m.spawned + 1) % 2 ^ 64
  spawns : m.spawned < 2 ^ 64

/-- What holds of the jobs of a cluster. -/
structure Sound (s : State cfg) : Prop where
  deques : ∀ v, (s.mem.deques v).Inv (s.live v) (s.owner v) (s.thief v)
  custody : Custody s.hold s.mem.out
  ledger : Ledger s.mem
  onTarget : ∀ t, (s.ctl t).onTarget t

/-! ### What the others see of a step -/

section Views
variable (hc : s'.ctl = (cluster cfg).signal w (Function.update s.ctl a.1 c))
include hc

theorem jobs_self : (s'.ctl a.1).jobs = c.jobs := Program.view_self (v := fun _ c => c.jobs) awaken_jobs hc

theorem jobs_other {u : Tid cfg} (hu : u ≠ a.1) : (s'.ctl u).jobs = (s.ctl u).jobs :=
  Program.view_other (v := fun _ c => c.jobs) awaken_jobs hc hu

theorem owner_agent (ht : a.1 = .agent i) : s'.owner = Function.update s.owner i c.owner := by
  funext v
  obtain rfl | hv := eq_or_ne v i
  · rw [Function.update_self, State.owner, ← ht]
    exact Program.view_self (v := fun _ c => c.owner) awaken_owner hc
  · rw [Function.update_of_ne hv]
    exact Program.view_other (v := fun _ c => c.owner) awaken_owner hc (t := .agent v) (by rw [ht]; simpa using hv)

theorem thief_agent (ht : a.1 = .agent i) (v : Fin cfg.agentCount) :
    s'.thief v = Function.update (s.thief v) i (c.thief v) := by
  funext u
  obtain rfl | hu := eq_or_ne u i
  · rw [Function.update_self, State.thief, ← ht]
    exact congrFun (Program.view_self (v := fun _ c v => c.thief v) awaken_thief hc) v
  · rw [Function.update_of_ne hu]
    exact congrFun (Program.view_other (v := fun _ c v => c.thief v) awaken_thief hc (t := .agent u)
      (by rw [ht]; simpa using hu)) v

theorem owner_ext {x : ℕ} (ht : a.1 = .ext x) : s'.owner = s.owner := by
  funext v
  exact Program.view_other (v := fun _ c => c.owner) awaken_owner hc (t := .agent v) (by rw [ht]; simp)

theorem thief_ext {x : ℕ} (ht : a.1 = .ext x) (v : Fin cfg.agentCount) : s'.thief v = s.thief v := by
  funext u
  exact congrFun (Program.view_other (v := fun _ c v => c.thief v) awaken_thief hc (t := .agent u) (by rw [ht]; simp)) v

end Views

theorem hands_of_resting {t : Tid cfg} (h : (s.ctl t).owner.resting = true) : s.hands t = (s.ctl t).jobs := by
  cases t with
  | agent i => rw [State.hands, State.owner, Deque.hand_of_resting h, List.nil_append]
  | ext x => rfl

/-- A step outside the deques: the deques and the hands of the other threads are as they were. -/
theorem outside_deques (hd : ∀ v, (s.mem.deques v).Inv (s.live v) (s.owner v) (s.thief v))
    (hc : s'.ctl = (cluster cfg).signal w (Function.update s.ctl a.1 c)) (hmem : s'.mem.deques = s.mem.deques)
    (ho : (s.ctl a.1).owner = .idle) (hrest : c.resting) :
    (∀ v, (s'.mem.deques v).Inv (s'.live v) (s'.owner v) (s'.thief v)) ∧ (∀ v, s'.live v = s.live v) ∧
      ∀ u, u ≠ a.1 → s'.hands u = s.hands u := by
  have howner : ∀ v, s'.owner v = s.owner v ∨ a.1 = .agent v ∧ s.owner v = .idle ∧ s'.owner v = c.owner := by
    intro v
    cases ht : a.1 with
    | agent i =>
      rw [owner_agent hc ht]
      obtain rfl | hv := eq_or_ne v i
      · rw [Function.update_self]
        exact Or.inr ⟨rfl, by rw [State.owner, ← ht, ho], rfl⟩
      · exact Or.inl (Function.update_of_ne hv _ _)
    | ext x => exact Or.inl (by rw [owner_ext hc ht])
  have hlive : ∀ v, s'.live v = s.live v := by
    intro v
    rw [State.live, State.live, hmem]
    rcases howner v with h | ⟨-, h₁, h₂⟩
    · rw [h]
    · rw [h₁, h₂, Deque.live_of_resting hrest.1]
  refine ⟨fun v => ?_, hlive, fun u hu => ?_⟩
  · have hown : (s.mem.deques v).Inv (s.live v) (s'.owner v) (s.thief v) := by
      rcases howner v with h | ⟨-, h₁, h₂⟩
      · rw [h]
        exact hd v
      · rw [h₂]
        exact (hd v).rest (by rw [h₁]; rfl) hrest.1
    rw [hmem, hlive v]
    cases ht : a.1 with
    | agent i =>
      rw [thief_agent hc ht]
      refine hown.thief_update fun pc hpc => ?_
      rw [hrest.2 v pc hpc]
      trivial
    | ext x => rwa [thief_ext hc ht]
  · cases u with
    | agent v =>
      rw [State.hands, State.hands, jobs_other hc hu, hmem]
      rcases howner v with h | ⟨h, -, -⟩
      · rw [h]
      · exact absurd h.symm hu
    | ext x => exact jobs_other hc hu

/-! ### Steps -/

/-- Jobs with the same identity are the same job. -/
theorem Sound.eq_of_id (h : Sound s) {j j' : Job} (hj : .spawned j ∈ s.mem.log) (hj' : .spawned j' ∈ s.mem.log)
    (hid : j.id = j'.id) : j = j' := by
  have htask : j.task + 1 = j'.task + 1 := (h.ledger.numbered j hj).2.symm.trans (hid.trans (h.ledger.numbered j' hj').2)
  cases j
  cases j'
  simp_all

/-- A job that some thread has in its hands is not in the map of waiting tasks, nor is its identity. -/
theorem Sound.id_not_parked (h : Sound s) {t : Tid cfg} {j : Job} (hj : j ∈ s.hands t) : j.id ∉ s.mem.parked.tasks := by
  intro hmem
  obtain ⟨e, he, hid⟩ : ∃ e ∈ s.mem.parked.tasks.entries, e.1 = j.id := by
    simpa [AList.mem_keys, AList.keys, List.keys] using hmem
  have hout := (h.custody.out_iff j).mpr ⟨.hands t, hj⟩
  have he' : e.2 ∈ s.hold .parked := List.mem_map_of_mem he
  have hout' := (h.custody.out_iff e.2).mpr ⟨.parked, he'⟩
  have : e.2 = j := h.eq_of_id hout'.1 hout.1 ((h.ledger.keyed e he).trans hid)
  rw [this] at he'
  cases h.custody.unique j .parked (.hands t) he' hj

theorem SameLedger.out_iff {m m' : Mem cfg} (h : SameLedger m m') (j : Job) : m'.out j ↔ m.out j := by
  rw [Mem.out, Mem.out, h.born, h.done]

/-- A step outside the deques moves at most one job. -/
theorem Sound.handover (h : Sound s) (hrest : (s.ctl a.1).resting) (hrest' : (s'.ctl a.1).resting)
    (hjobs : (s'.ctl a.1).jobs = c.jobs) (hlive : ∀ v, s'.live v = s.live v)
    (hothers : ∀ u, u ≠ a.1 → s'.hands u = s.hands u) (hh : Handover s.mem (s.ctl a.1) s'.mem c) :
    Custody.Step s.hold s'.hold s.mem.out s'.mem.out := by
  have mine : s.hold (.hands a.1) = (s.ctl a.1).jobs := hands_of_resting hrest.1
  have mine' : s'.hold (.hands a.1) = c.jobs := (hands_of_resting hrest'.1).trans hjobs
  have others : ∀ r, r ≠ .hands a.1 → (s'.mem.injector = s.mem.injector ∨ r ≠ .injector) →
      (s'.mem.parked.tasks = s.mem.parked.tasks ∨ r ≠ .parked) → (s'.hold r).Perm (s.hold r) := by
    intro r hr hi hp
    cases r with
    | deque v => exact .of_eq (hlive v)
    | injector => exact .of_eq (hi.resolve_right (by simp))
    | parked =>
      refine .of_eq ?_
      show s'.mem.parked.waiting = s.mem.parked.waiting
      rw [Parked.waiting, Parked.waiting, hp.resolve_right (by simp)]
    | hands u => exact .of_eq (hothers u (by simpa using hr))
  cases hh with
  | keep hj hi hp hl =>
    refine .same (fun r => ?_) hl.out_iff
    obtain rfl | hr := eq_or_ne r (.hands a.1)
    · exact .of_eq ((mine'.trans hj).trans mine.symm)
    · exact others r hr (Or.inl hi) (Or.inl hp)
  | @take j hj hj' hi hp hl =>
    refine .move (p := .injector) (q := .hands a.1) (x := j) (by simp) (.of_eq hi) (.of_eq ?_) ?_ hl.out_iff
    · rw [mine', hj', mine, hj]
    · exact fun r hr hr' => others r hr' (Or.inr hr) (Or.inl hp)
  | @put k j hc hc' hi hp hl =>
    have hj : (s.ctl a.1).jobs = j :: c.jobs := by
      rw [hc, hc', jobs_injectResume]
      rfl
    refine .move (p := .hands a.1) (q := .injector) (x := j) (by simp) (.of_eq ?_) ?_ ?_ hl.out_iff
    · rw [mine', mine, hj]
    · show s'.mem.injector.Perm (j :: s.mem.injector)
      rw [hi]
      exact List.perm_append_singleton _ _
    · exact fun r hr hr' => others r hr (Or.inr hr') (Or.inl hp)
  | @park p j hc hj hi hp hl =>
    have hcj : (s.ctl a.1).jobs = [j] := by rw [hc]; rfl
    have hid := h.id_not_parked (t := a.1) (j := j) (by rw [hands_of_resting hrest.1, hcj]; simp)
    refine .move (p := .hands a.1) (q := .parked) (x := j) (by simp) (.of_eq ?_) ?_ ?_ hl.out_iff
    · rw [mine', mine, hj, hcj]
    · exact .of_eq (Parked.waiting_insert hp hid)
    · exact fun r hr hr' => others r hr (Or.inl hi) (Or.inr hr')
  | @wake id j hj hi hid hp hl =>
    refine .move (p := .parked) (q := .hands a.1) (x := j) (by simp) (Parked.waiting_erase hid hp) (.of_eq ?_) ?_ hl.out_iff
    · rw [mine', mine, hj]
    · exact fun r hr hr' => others r hr' (Or.inl hi) (Or.inr hr)
  | spawn hc hj hm =>
    refine .enter (q := .hands a.1) (x := s.mem.mint) ?_ (.of_eq ?_) ?_ ?_
    · rintro ⟨hborn, -⟩
      exact lt_irrefl _ (h.ledger.numbered _ hborn).1
    · rw [mine', mine, hj]
    · exact fun r hr => others r hr (Or.inl (by rw [hm]; rfl)) (Or.inl (by rw [hm]; rfl))
    · intro y
      have hdone : .completed s.mem.mint ∉ s.mem.log := fun hd => lt_irrefl _ (h.ledger.numbered _ (h.ledger.done _ hd)).1
      rw [hm]
      simp only [Mem.out, Mem.minted, List.mem_cons, reduceCtorEq, false_or, Event.spawned.injEq]
      constructor
      · rintro ⟨rfl | hy, hy'⟩
        · exact Or.inl rfl
        · exact Or.inr ⟨hy, hy'⟩
      · rintro (rfl | ⟨hy, hy'⟩)
        · exact ⟨Or.inl rfl, hdone⟩
        · exact ⟨Or.inr hy, hy'⟩
  | @complete j i hj hj' hm =>
    refine .leave (p := .hands a.1) (x := j) (.of_eq ?_) ?_ ?_
    · rw [mine', mine, hj, hj']
    · exact fun r hr => others r hr (Or.inl (by rw [hm]; rfl)) (Or.inl (by rw [hm]; rfl))
    · intro y
      rw [hm]
      simp only [Mem.out, Mem.record, List.mem_cons, reduceCtorEq, false_or, Event.completed.injEq, not_or]
      tauto

/-- A step that touches one deque and leaves the others with their owners and thieves as they were. -/
theorem touch {v₀ : Fin cfg.agentCount} {d : Deque cfg.w Job} {l : List Job}
    (hd : ∀ v, (s.mem.deques v).Inv (s.live v) (s.owner v) (s.thief v))
    (hmem : s'.mem.deques = Function.update s.mem.deques v₀ d) (howner : ∀ v, v ≠ v₀ → s'.owner v = s.owner v)
    (hthief : ∀ v, v ≠ v₀ → s'.thief v = s.thief v) (hinv : d.Inv l (s'.owner v₀) (s'.thief v₀)) :
    (∀ v, (s'.mem.deques v).Inv (s'.live v) (s'.owner v) (s'.thief v)) ∧ s'.live v₀ = l ∧
      ∀ v, v ≠ v₀ → s'.live v = s.live v := by
  have hlive : s'.live v₀ = l := by rw [State.live, hmem, Function.update_self, hinv.live_eq]
  have hother : ∀ v, v ≠ v₀ → s'.live v = s.live v := by
    intro v hv
    rw [State.live, State.live, hmem, Function.update_of_ne hv, howner v hv]
  refine ⟨fun v => ?_, hlive, hother⟩
  obtain rfl | hv := eq_or_ne v v₀
  · rw [hlive, hmem, Function.update_self]
    exact hinv
  · rw [hother v hv, howner v hv, hthief v hv, hmem, Function.update_of_ne hv]
    exact hd v

/-- The places that a step on the deque of agent `i` by its own thread may change. -/
theorem Sound.own_deque (h : Sound s) {d : Deque cfg.w Job} {l : List Job} (ht : a.1 = .agent i)
    (hctl : s'.ctl = (cluster cfg).signal w (Function.update s.ctl a.1 c))
    (hmem : s'.mem = s.mem.setDeque i d) (hth : ∀ v, (s.ctl a.1).thief v = none) (hth' : ∀ v, c.thief v = none)
    (hinv : d.Inv l c.owner (s.thief i)) :
    (∀ v, (s'.mem.deques v).Inv (s'.live v) (s'.owner v) (s'.thief v)) ∧ s'.hold (.deque i) = l ∧
      s'.hold (.hands a.1) = d.hand c.owner ++ c.jobs ∧
      ∀ r, r ≠ .deque i → r ≠ .hands a.1 → s'.hold r = s.hold r := by
  have howner := owner_agent hctl ht
  have hthief : ∀ v, s'.thief v = s.thief v := by
    intro v
    rw [thief_agent hctl ht, hth' v]
    refine Function.update_eq_self_iff.mpr ?_
    have := hth v
    rw [ht] at this
    exact this.symm
  have hdeq : s'.mem.deques = Function.update s.mem.deques i d := by rw [hmem]; rfl
  have hi : s'.owner i = c.owner := by rw [howner, Function.update_self]
  obtain ⟨h₁, h₂, h₃⟩ := touch h.deques hdeq (fun v hv => by rw [howner, Function.update_of_ne hv]) (fun v _ => hthief v)
    (by rwa [hi, hthief])
  refine ⟨h₁, h₂, ?_, fun r hr hr' => ?_⟩
  · show s'.hands a.1 = _
    have := jobs_self hctl
    rw [ht] at this ⊢
    rw [State.hands, hi, hdeq, Function.update_self, this]
  · cases r with
    | deque v => exact h₃ v (by simpa using hr)
    | injector =>
      show s'.mem.injector = s.mem.injector
      rw [hmem]
      rfl
    | parked =>
      show s'.mem.parked.waiting = s.mem.parked.waiting
      rw [hmem]
      rfl
    | hands u =>
      have hu : u ≠ a.1 := by simpa using hr'
      cases u with
      | agent v =>
        have hv : v ≠ i := by
          rintro rfl
          exact hu ht.symm
        show s'.hands (.agent v) = s.hands (.agent v)
        rw [State.hands, State.hands, hdeq, Function.update_of_ne hv, howner, Function.update_of_ne hv, jobs_other hctl hu]
      | ext x => exact jobs_other hctl hu

/-- A step on its own deque after which the thread has what it had, and so has the deque. -/
theorem Sound.own_stays (h : Sound s) {d : Deque cfg.w Job} (ht : a.1 = .agent i)
    (hctl : s'.ctl = (cluster cfg).signal w (Function.update s.ctl a.1 c))
    (hmem : s'.mem = s.mem.setDeque i d) (hth : ∀ v, (s.ctl a.1).thief v = none) (hth' : ∀ v, c.thief v = none)
    (hinv : d.Inv (s.live i) c.owner (s.thief i)) (hhands : d.hand c.owner ++ c.jobs = s.hands a.1) :
    (∀ v, (s'.mem.deques v).Inv (s'.live v) (s'.owner v) (s'.thief v)) ∧
      Custody.Step s.hold s'.hold s.mem.out s'.mem.out := by
  obtain ⟨h₁, h₂, h₃, h₄⟩ := h.own_deque ht hctl hmem hth hth' hinv
  refine ⟨h₁, .same (fun r => .of_eq ?_) fun y => by rw [hmem]; rfl⟩
  by_cases hr : r = .deque i
  · rw [hr, h₂]
    rfl
  · by_cases hr' : r = .hands a.1
    · rw [hr', h₃, hhands]
      rfl
    · exact h₄ r hr hr'

theorem Sound.pop (h : Sound s) (ht : a.1 = .agent i) {p : Pass} {pc : Deque.PopPc cfg.w}
    (hc : s.ctl a.1 = .pop p pc) (hctl : s'.ctl = (cluster cfg).signal w (Function.update s.ctl a.1 c))
    (he : execPop i s.mem p pc = some (s'.mem, c, w)) :
    (∀ v, (s'.mem.deques v).Inv (s'.live v) (s'.owner v) (s'.thief v)) ∧
      Custody.Step s.hold s'.hold s.mem.out s'.mem.out := by
  have hown : s.owner i = .pop pc := by rw [State.owner, ← ht, hc]; rfl
  have hd := h.deques i
  rw [hown] at hd
  have hhands : s.hands a.1 = (s.mem.deques i).hand (.pop pc) ++ [] := by
    rw [ht] at hc ⊢
    rw [State.hands, hown, hc]
    rfl
  have hth : ∀ v, (s.ctl a.1).thief v = none := fun v => by rw [hc]; rfl
  unfold execPop at he
  split at he <;> simp only [quiet, Option.some.injEq, Prod.mk.injEq] at he <;> obtain ⟨hm, rfl, rfl⟩ := he
  · rename_i d pc' hp
    obtain ⟨l, hd', ⟨rfl, hh⟩ | ⟨x, hl, hh, hh'⟩⟩ := hd.pop_next hp
    · exact h.own_stays ht hctl hm.symm hth (fun _ => rfl) hd' ((congrArg (· ++ []) hh).trans hhands.symm)
    · -- The pop has taken the last value out of the deque.
      obtain ⟨h₁, h₂, h₃, h₄⟩ := h.own_deque ht hctl hm.symm hth (fun _ => rfl) hd'
      refine ⟨h₁, .move (p := .deque i) (q := .hands a.1) (x := x) (by simp) ?_ ?_ (fun r hr hr' => .of_eq (h₄ r hr hr'))
        fun y => by rw [← hm]; rfl⟩
      · rw [h₂]
        exact (List.Perm.of_eq hl).trans (List.perm_append_singleton _ _)
      · rw [h₃, State.hold, hhands, hh]
        exact .of_eq (congrArg (· ++ []) hh')
  · rename_i d hp
    obtain ⟨hd', hh⟩ := hd.pop_none hp
    exact h.own_stays ht hctl hm.symm hth (fun _ => rfl) hd' (by rw [hhands, hh]; rfl)
  · rename_i d j hp
    obtain ⟨rfl, hd', x, hx, hh⟩ := hd.pop_some hp
    cases hx
    exact h.own_stays ht hctl hm.symm hth (fun _ => rfl) hd' (by rw [hhands, hh]; rfl)
  · rename_i d hp
    obtain ⟨-, -, x, hx, -⟩ := hd.pop_some hp
    cases hx

theorem Sound.push (h : Sound s) (ht : a.1 = .agent i) {k : PushK cfg} {j : Job} {pc : Deque.PushPc cfg.w}
    (hc : s.ctl a.1 = .push k j pc) (hctl : s'.ctl = (cluster cfg).signal w (Function.update s.ctl a.1 c))
    (he : execPush i s.mem k j pc = some (s'.mem, c, w)) :
    (∀ v, (s'.mem.deques v).Inv (s'.live v) (s'.owner v) (s'.thief v)) ∧
      Custody.Step s.hold s'.hold s.mem.out s'.mem.out := by
  have hown : s.owner i = .push j pc := by rw [State.owner, ← ht, hc]; rfl
  have hd := h.deques i
  rw [hown] at hd
  have hhands : s.hands a.1 = j :: k.jobs := by
    rw [ht] at hc ⊢
    rw [State.hands, hown, hc]
    rfl
  have hth : ∀ v, (s.ctl a.1).thief v = none := fun v => by rw [hc]; rfl
  unfold execPush at he
  split at he <;> simp only [quiet, Option.some.injEq, Prod.mk.injEq] at he <;> obtain ⟨hm, rfl, rfl⟩ := he
  · rename_i d pc' hp
    exact h.own_stays ht hctl hm.symm hth (fun _ => rfl) (hd.push_next hp) hhands.symm
  · rename_i d hp
    have hrest := resting_pushResume k
    obtain ⟨h₁, h₂, h₃, h₄⟩ := h.own_deque ht hctl hm.symm hth (thief_pushResume k) ((hd.push_ret hp).rest rfl hrest.1)
    refine ⟨h₁, .move (p := .hands a.1) (q := .deque i) (x := j) (by simp) ?_ ?_ (fun r hr hr' => .of_eq (h₄ r hr' hr))
      fun y => by rw [← hm]; rfl⟩
    · rw [h₃, State.hold, hhands, Deque.hand_of_resting hrest.1, List.nil_append, jobs_pushResume]
    · rw [h₂]
      exact List.perm_append_singleton _ _
  · rename_i d hp
    exact h.own_stays ht hctl hm.symm hth (fun _ => rfl) (hd.push_ret hp) hhands.symm

/-- The places that a step of agent `i` on the deque of `v`, which it steals from, may change. -/
theorem Sound.other_deque (h : Sound s) {v : Fin cfg.agentCount} {d : Deque cfg.w Job} {l : List Job}
    (ht : a.1 = .agent i) (hctl : s'.ctl = (cluster cfg).signal w (Function.update s.ctl a.1 c))
    (hmem : s'.mem = s.mem.setDeque v d) (ho : (s.ctl a.1).owner = .idle) (ho' : c.owner = .idle)
    (hth : ∀ u, u ≠ v → (s.ctl a.1).thief u = none) (hth' : ∀ u, u ≠ v → c.thief u = none)
    (hinv : d.Inv l (s.owner v) (Function.update (s.thief v) i (c.thief v)))
    (hhand : d.hand (s.owner v) = (s.mem.deques v).hand (s.owner v)) :
    (∀ u, (s'.mem.deques u).Inv (s'.live u) (s'.owner u) (s'.thief u)) ∧ s'.hold (.deque v) = l ∧
      s'.hold (.hands a.1) = c.jobs ∧ ∀ r, r ≠ .deque v → r ≠ .hands a.1 → s'.hold r = s.hold r := by
  have howner : s'.owner = s.owner := by
    rw [owner_agent hctl ht, ho']
    refine Function.update_eq_self_iff.mpr ?_
    rw [State.owner, ← ht, ho]
  have hdeq : s'.mem.deques = Function.update s.mem.deques v d := by rw [hmem]; rfl
  have hthief : ∀ u, u ≠ v → s'.thief u = s.thief u := by
    intro u hu
    rw [thief_agent hctl ht, hth' u hu]
    refine Function.update_eq_self_iff.mpr ?_
    have := hth u hu
    rw [ht] at this
    exact this.symm
  obtain ⟨h₁, h₂, h₃⟩ := touch h.deques hdeq (fun u _ => by rw [howner]) hthief
    (by rwa [howner, thief_agent hctl ht])
  have hjobs := jobs_self hctl
  refine ⟨h₁, h₂, ?_, fun r hr hr' => ?_⟩
  · have hi : s.owner i = .idle := by rw [State.owner, ← ht, ho]
    show s'.hands a.1 = c.jobs
    rw [ht] at hjobs ⊢
    rw [State.hands, howner, hi, hjobs]
    rfl
  · cases r with
    | deque u => exact h₃ u (by simpa using hr)
    | injector =>
      show s'.mem.injector = s.mem.injector
      rw [hmem]
      rfl
    | parked =>
      show s'.mem.parked.waiting = s.mem.parked.waiting
      rw [hmem]
      rfl
    | hands u =>
      have hu : u ≠ a.1 := by simpa using hr'
      cases u with
      | agent u' =>
        show s'.hands (.agent u') = s.hands (.agent u')
        rw [State.hands, State.hands, howner, jobs_other hctl hu, hdeq]
        obtain rfl | hv := eq_or_ne u' v
        · rw [Function.update_self, hhand]
        · rw [Function.update_of_ne hv]
      | ext x => exact jobs_other hctl hu

theorem Sound.steal (h : Sound s) (ha : Sane s a) (ht : a.1 = .agent i) {p : Pass} {start k : ℕ}
    {pc : Deque.StealPc cfg.w Job} (hc : s.ctl a.1 = .steal p start k pc)
    (hctl : s'.ctl = (cluster cfg).signal w (Function.update s.ctl a.1 c))
    (he : execSteal (victimAt cfg start k) s.mem p start k pc = some (s'.mem, c, w)) :
    (∀ v, (s'.mem.deques v).Inv (s'.live v) (s'.owner v) (s'.thief v)) ∧
      Custody.Step s.hold s'.hold s.mem.out s'.mem.out := by
  generalize hv : victimAt cfg start k = v at he
  have hd := h.deques v
  have hown : (s.ctl a.1).owner = .idle := by rw [hc]; rfl
  have hother : ∀ u, u ≠ v → ∀ pc, (Ctl.steal p start k pc : Ctl cfg).thief u = none :=
    fun u hu pc => by simp [Ctl.thief, hv, hu.symm]
  have hth : ∀ u, u ≠ v → (s.ctl a.1).thief u = none := fun u hu => by rw [hc, hother u hu]
  have hthi : s.thief v i = some pc := by
    rw [State.thief, ← ht, hc]
    simp [Ctl.thief, hv]
  have hhands : s.hold (.hands a.1) = [] := by
    show s.hands a.1 = []
    rw [hands_of_resting (by rw [hown]; rfl), hc]
    rfl
  -- A step that takes nothing changes no place.
  have stays : s'.mem = s.mem.setDeque v (s.mem.deques v) → c.owner = .idle → (∀ u, u ≠ v → c.thief u = none) →
      (s.mem.deques v).Inv (s.live v) (s.owner v) (Function.update (s.thief v) i (c.thief v)) → c.jobs = [] →
      (∀ v, (s'.mem.deques v).Inv (s'.live v) (s'.owner v) (s'.thief v)) ∧
        Custody.Step s.hold s'.hold s.mem.out s'.mem.out := by
    intro hm ho' hth' hinv hj
    obtain ⟨h₁, h₂, h₃, h₄⟩ := h.other_deque ht hctl hm hown ho' hth hth' hinv rfl
    refine ⟨h₁, .same (fun r => .of_eq ?_) fun y => by rw [hm]; rfl⟩
    by_cases hr : r = .deque v
    · rw [hr, h₂]
      rfl
    · by_cases hr' : r = .hands a.1
      · rw [hr', h₃, hhands, hj]
      · exact h₄ r hr hr'
  unfold execSteal at he
  split at he <;> simp only [quiet, Option.some.injEq, Prod.mk.injEq] at he <;> obtain ⟨hm, rfl, rfl⟩ := he
  · rename_i d pc' hs
    obtain ⟨rfl, hd'⟩ := hd.steal_next hthi hs
    exact stays hm.symm rfl (fun u hu => hother u hu pc') (by simpa [Ctl.thief, hv] using hd') rfl
  · rename_i d hs
    obtain ⟨rfl, hd'⟩ := hd.steal_none (k := i) hs
    exact stays hm.symm rfl (fun _ _ => rfl) hd' rfl
  · rename_i d j hs
    have hin : (s.mem.deques v).inTime pc = true := ha.inTime v pc (by rw [hc]; simp [Ctl.thief, hv])
    obtain ⟨x, l, hl, hx, hd', hhand⟩ := hd.steal_some hthi hin hs
    cases hx
    obtain ⟨h₁, h₂, h₃, h₄⟩ := h.other_deque ht hctl hm.symm hown rfl hth (fun _ _ => rfl) hd' hhand
    refine ⟨h₁, .move (p := .deque v) (q := .hands a.1) (x := j) (by simp) ?_ ?_ (fun r hr hr' => .of_eq (h₄ r hr hr'))
      fun y => by rw [← hm]; rfl⟩
    · rw [h₂]
      exact .of_eq hl
    · rw [h₃, hhands]
      rfl
  · rename_i d hs
    have hin : (s.mem.deques v).inTime pc = true := ha.inTime v pc (by rw [hc]; simp [Ctl.thief, hv])
    obtain ⟨x, l, hl, hx, -⟩ := hd.steal_some hthi hin hs
    cases hx

theorem Ledger.same {m m' : Mem cfg} (h : Ledger m) (hl : SameLedger m m')
    (hk : ∀ e ∈ m'.parked.tasks.entries, e.2.id = e.1) : Ledger m' := by
  refine ⟨hk, ?_, ?_, ?_, ?_⟩
  · simpa only [hl.born, hl.spawned] using h.numbered
  · simpa only [hl.born, hl.done] using h.done
  · rw [hl.nextId, hl.spawned, h.nextId]
  · rw [hl.spawned]
    exact h.spawns

theorem Ledger.handover {m m' : Mem cfg} {c c' : Ctl cfg} (h : Ledger m) (hh : Handover m c m' c')
    (hm : c.mints = true → m.spawned + 1 < 2 ^ 64) (hborn : ∀ j ∈ c.jobs, .spawned j ∈ m.log) : Ledger m' := by
  have keyed : m'.parked.tasks = m.parked.tasks → ∀ e ∈ m'.parked.tasks.entries, e.2.id = e.1 := by
    intro hp
    rw [hp]
    exact h.keyed
  cases hh with
  | keep _ _ hp hl => exact h.same hl (keyed hp)
  | take _ _ _ hp hl => exact h.same hl (keyed hp)
  | put _ _ _ hp hl => exact h.same hl (keyed hp)
  | park _ _ _ hp hl =>
    refine h.same hl ?_
    rw [hp, AList.entries_insert]
    intro e he
    rcases List.mem_cons.mp he with rfl | he
    · rfl
    · exact h.keyed e ((List.kerase_sublist _ _).subset he)
  | wake _ _ _ hp hl =>
    refine h.same hl ?_
    rw [hp]
    exact fun e he => h.keyed e ((List.kerase_sublist _ _).subset he)
  | spawn hc _ hm' =>
    have hlt := hm hc
    have hid : m.mint.id = m.spawned + 1 := h.nextId.trans (Nat.mod_eq_of_lt hlt)
    subst hm'
    refine ⟨h.keyed, fun j hj => ?_, fun j hj => ?_, ?_, hlt⟩
    · rcases List.mem_cons.mp hj with hj | hj
      · cases hj
        exact ⟨Nat.lt_succ_self _, hid⟩
      · obtain ⟨h₁, h₂⟩ := h.numbered j hj
        exact ⟨Nat.lt_succ_of_lt h₁, h₂⟩
    · rcases List.mem_cons.mp hj with hj | hj
      · cases hj
      · exact List.mem_cons_of_mem _ (h.done j hj)
    · show (m.nextId + 1) % 2 ^ 64 = (m.spawned + 1 + 1) % 2 ^ 64
      rw [h.nextId, Nat.mod_eq_of_lt hlt]
  | @complete j i hj hj' hm' =>
    subst hm'
    have hlog : ∀ e, e ∈ ((m.record (.stepEnd j i)).record (.completed j)).log ↔
        e = .completed j ∨ e = .stepEnd j i ∨ e ∈ m.log := by simp [Mem.record]
    refine ⟨h.keyed, fun j' hj => ?_, fun j' hj => ?_, h.nextId, h.spawns⟩
    · exact h.numbered j' (by simpa [hlog] using hj)
    · rw [hlog]
      have : j' = j ∨ .completed j' ∈ m.log := by simpa [hlog] using hj
      rcases this with rfl | hj
      · exact Or.inr (Or.inr (hborn j' (by simp [*])))
      · exact Or.inr (Or.inr (h.done j' hj))

section
variable {m m' : Mem cfg} {v : Fin cfg.agentCount}

theorem execPop_mem {p : Pass} {pc : Deque.PopPc cfg.w} (h : execPop v m p pc = some (m', c, w)) :
    ∃ d, m' = m.setDeque v d := by
  unfold execPop at h
  split at h <;> cases h <;> exact ⟨_, rfl⟩

theorem execPush_mem {k : PushK cfg} {j : Job} {pc : Deque.PushPc cfg.w} (h : execPush v m k j pc = some (m', c, w)) :
    ∃ d, m' = m.setDeque v d := by
  unfold execPush at h
  split at h <;> cases h <;> exact ⟨_, rfl⟩

theorem execSteal_mem {p : Pass} {start k : ℕ} {pc : Deque.StealPc cfg.w Job}
    (h : execSteal v m p start k pc = some (m', c, w)) :
    ∃ d o, (m.deques v).steal pc = (d, o) ∧ m' = m.setDeque v d := by
  unfold execSteal at h
  split at h <;> cases h <;> exact ⟨_, _, ‹_›, rfl⟩

/-- A push goes to the thread's own deque: a deposit does, and `spawn_on` names it. -/
theorem agent_of_push {t : Tid cfg} {k : PushK cfg} {j : Job} {pc : Deque.PushPc cfg.w}
    (hown : ∀ i, t = .agent i → v = k.target i) (hext : ∀ x, t = .ext x → ∃ k', k = .spawnOn k' v)
    (ht : (Ctl.push k j pc).onTarget t) : t = .agent v := by
  cases t with
  | agent i =>
    rw [hown i rfl]
    cases k with
    | deposit => rfl
    | spawnOn k' a' => exact ht
  | ext x =>
    obtain ⟨k', rfl⟩ := hext x rfl
    exact ht

/-- A step works on the thread's own deque, steals from one, or leaves the deques alone. -/
theorem ExecCase.deque {t : Tid cfg} {c c' : Ctl cfg} {ch : Choice cfg} (h : ExecCase t m c ch (m', c', w)) :
    (∃ v d, m' = m.setDeque v d ∧ (c.onTarget t → t = .agent v)) ∨
    (∃ u v pc d o, t = .agent u ∧ c.thief v = some pc ∧ (m.deques v).steal pc = (d, o) ∧ m' = m.setDeque v d) ∨
    (m'.deques = m.deques ∧ c'.resting ∧ Handover m c m' c') := by
  cases c with
  | pop p pc =>
    cases h with
    | pop ht hp =>
      obtain ⟨d, hd⟩ := execPop_mem hp
      exact Or.inl ⟨_, d, hd, fun _ => ht⟩
    | spurious hp => cases hp
  | push k j pc =>
    cases h with
    | @push v _ _ _ r hown hext hp =>
      obtain ⟨d, hd⟩ := execPush_mem hp
      exact Or.inl ⟨v, d, hd, agent_of_push hown hext⟩
    | spurious hp => cases hp
  | steal p start k pc =>
    cases h with
    | steal ht hp =>
      obtain ⟨d, o, hd, hm⟩ := execSteal_mem hp
      exact Or.inr (Or.inl ⟨_, _, pc, d, o, ht, by simp [Ctl.thief], hd, hm⟩)
    | spurious hp => cases hp
  | _ => exact Or.inr (Or.inr (h.handover rfl fun _ => rfl))

end

/-- Every step keeps the invariant. -/
theorem Sound.step (h : Sound s) (ha : Sane s a) (hstep : (cluster cfg).step s a = some s') : Sound s' := by
  obtain ⟨m, c, w, he, rfl, hctl⟩ := step_inv hstep
  have honTarget : ∀ t, (s'.ctl t).onTarget t :=
    Program.forall_ctl (P := fun t c => c.onTarget t) (fun t r c => awaken_onTarget) hctl
      (he.onTarget ha.owner (h.onTarget a.1)) fun t _ => h.onTarget t
  -- Outside the deques.
  have outside : (s.ctl a.1).owner = .idle → (∀ v, (s.ctl a.1).thief v = none) → Sound s' := by
    intro ho ht
    obtain ⟨hmem, hrest, hh⟩ := he.handover ho ht
    obtain ⟨hd, hlive, hothers⟩ := outside_deques h.deques hctl hmem ho hrest
    have hrest' : (s'.ctl a.1).resting := by
      rcases Program.ctl_acting hctl with hc | ⟨r, -, hc⟩
      · rwa [hc]
      · rw [hc]
        exact awaken_resting hrest
    have hcust := h.handover (resting_of_idle ho ht) hrest' (jobs_self hctl) hlive hothers hh
    have hborn : ∀ j ∈ (s.ctl a.1).jobs, .spawned j ∈ s.mem.log := by
      intro j hj
      rw [← hands_of_resting (resting_of_idle ho ht).1] at hj
      exact ((h.custody.out_iff j).mpr ⟨.hands a.1, hj⟩).1
    exact ⟨hd, h.custody.step hcust, h.ledger.handover hh ha.spawns hborn, honTarget⟩
  -- A step that writes one deque.
  have inside : ∀ {v d}, s'.mem = s.mem.setDeque v d →
      (∀ v, (s'.mem.deques v).Inv (s'.live v) (s'.owner v) (s'.thief v)) ∧
        Custody.Step s.hold s'.hold s.mem.out s'.mem.out → Sound s' := by
    intro v d hm ⟨hd, hcust⟩
    refine ⟨hd, h.custody.step hcust, ?_, honTarget⟩
    rw [hm]
    exact h.ledger.same (.of_log rfl rfl rfl) h.ledger.keyed
  cases hc : s.ctl a.1 with
  | pop p pc =>
    have he' := he
    rw [hc] at he'
    generalize a.2 = ch at he'
    generalize hm' : s'.mem = m' at he'
    cases he' with
    | pop ht hp =>
      obtain ⟨d, hd⟩ := execPop_mem hp
      exact inside (hm'.trans hd) (h.pop ht hc hctl (hm' ▸ hp))
    | spurious hp => cases hp
  | push k j pc =>
    have he' := he
    rw [hc] at he'
    generalize a.2 = ch at he'
    generalize hm' : s'.mem = m' at he'
    cases he' with
    | push hown hext hp =>
      obtain ⟨d, hd⟩ := execPush_mem hp
      have ht := agent_of_push hown hext (hc ▸ h.onTarget a.1)
      exact inside (hm'.trans hd) (h.push ht hc hctl (hm' ▸ hp))
    | spurious hp => cases hp
  | steal p start k pc =>
    have he' := he
    rw [hc] at he'
    generalize a.2 = ch at he'
    generalize hm' : s'.mem = m' at he'
    cases he' with
    | steal ht hp =>
      obtain ⟨d, o, -, hd⟩ := execSteal_mem hp
      exact inside (hm'.trans hd) (h.steal ha ht hc hctl (hm' ▸ hp))
    | spurious hp => cases hp
  | _ => exact outside (by rw [hc]; rfl) fun v => by rw [hc]; rfl

theorem sound_init : Sound (State.init cfg) := by
  have hempty : ∀ p, (State.init cfg).hold p = [] := by
    intro p
    cases p with
    | deque v => exact (Deque.Inv.new (ι := Fin cfg.agentCount) cfg.capacity_le).live_eq
    | injector => rfl
    | parked => rfl
    | hands t => cases t <;> rfl
  refine ⟨fun v => ?_, ⟨fun p => ?_, fun x p q hx => ?_, fun x => ?_⟩, ⟨?_, ?_, ?_, ?_, ?_⟩, fun t => ?_⟩
  · have hnew : Deque.Inv (Deque.withCapacity 0 cfg.dequeCapacity : Deque cfg.w Job) [] .idle
        fun _ : Fin cfg.agentCount => none := .new cfg.capacity_le
    rwa [show (State.init cfg).live v = [] from hempty (.deque v)]
  · rw [hempty]
    exact List.nodup_nil
  · rw [hempty] at hx
    cases hx
  · have hno : ¬(State.init cfg).mem.out x := fun h => absurd h.1 (by simp [State.init, Mem.new])
    exact ⟨fun h => absurd h hno, fun ⟨p, hp⟩ => by rw [hempty] at hp; cases hp⟩
  · rintro e ⟨⟩
  · rintro j ⟨⟩
  · rintro j ⟨⟩
  · rfl
  · exact Nat.two_pow_pos 64
  · trivial

/-- In every run that keeps the callers' promises. -/
theorem sound_of_run (h : Reachable Sane s) : Sound s :=
  h.keeps (P := Sound) (fun _ _ _ hs ha hstep => hs.step ha hstep) sound_init

theorem Handover.completed {m m' : Mem cfg} {c c' : Ctl cfg} (h : Handover m c m' c') {j : Job}
    (hj : .completed j ∈ m.log) : .completed j ∈ m'.log := by
  cases h with
  | keep _ _ _ hl | take _ _ _ _ hl | put _ _ _ _ hl | park _ _ _ _ hl | wake _ _ _ _ hl => exact (hl.done j).mpr hj
  | spawn _ _ hm | complete _ _ hm =>
    subst hm
    simp [Mem.minted, Mem.record, hj]

/-- A completed job stays completed. -/
theorem completed_of_step (hstep : (cluster cfg).step s a = some s') {j : Job} (hj : .completed j ∈ s.mem.log) :
    .completed j ∈ s'.mem.log := by
  obtain ⟨m, c, w, he, rfl, -⟩ := step_inv hstep
  rcases he.deque with ⟨v, d, hm, -⟩ | ⟨u, v, pc, d, o, -, -, -, hm⟩ | ⟨-, -, hh⟩
  · rwa [hm]
  · rwa [hm]
  · exact hh.completed hj

/-- No job is lost, duplicated or run by two threads at once: a job that was spawned and has not completed is
    in exactly one place, and there once; a completed job is in none, then and later; and no two threads are
    inside the step of one job. -/
theorem no_job_lost (h : Reachable Sane s) {j : Job} (hj : .spawned j ∈ s.mem.log) :
    (.completed j ∉ s.mem.log → ∃! p, j ∈ s.hold p) ∧ (∀ p, (s.hold p).count j ≤ 1) ∧
      (.completed j ∈ s.mem.log → ∀ s', Run Sane s s' → ∀ p, j ∉ s'.hold p) ∧
      ∀ t t', j ∈ (s.ctl t).site.jobs → j ∈ (s.ctl t').site.jobs → t = t' := by
  have hs := sound_of_run h
  refine ⟨fun hd => hs.custody.exists_unique ⟨hj, hd⟩, fun p => List.nodup_iff_count_le_one.mp (hs.custody.nodup p) j, ?_, ?_⟩
  · intro hd s' hrun p
    have hd' : .completed j ∈ s'.mem.log :=
      hrun.keeps (P := fun s => .completed j ∈ s.mem.log) (fun _ _ _ hd _ hstep => completed_of_step hstep hd) hd
    exact (sound_of_run (h.trans hrun)).custody.not_mem (fun hout => hout.2 hd') p
  · intro t t' ht ht'
    have inHands : ∀ u, j ∈ (s.ctl u).site.jobs → j ∈ s.hold (.hands u) := by
      intro u hu
      have := site_jobs_subset _ hu
      cases u with
      | agent i => exact List.mem_append_right _ this
      | ext x => exact this
    exact Place.hands.inj (hs.custody.unique j _ _ (inHands t ht) (inHands t' ht'))

/-- Two agents with deques of two jobs, on a machine of 32 bits. -/
def smallDeques : Config := { Config.two with w := 32, dequeCapacity := 2, capacity_le := by decide +kernel }

/-- The third job that agent 0 spawns on itself spills into the injector, where agent 1 finds it. It completes there, and
    agent 1 steals the first one: that is in the step of agent 1 and nowhere else, and the completed job is in no place. -/
theorem no_job_lost_stolen :
    ∃ s : State smallDeques, Reachable Sane s ∧ .migrate ⟨1, 0⟩ 0 1 ∈ s.mem.log ∧ (∃! p, (⟨1, 0⟩ : Job) ∈ s.hold p) ∧
      .completed ⟨3, 2⟩ ∈ s.mem.log ∧ ∀ p, (⟨3, 2⟩ : Job) ∉ s.hold p := by
  obtain ⟨s, hs, hq⟩ := reachable_of_actions Sane
    ([Tid.calls (.agent 0) (.spawnOn 0)] ++ Tid.go (.agent 0) 8 ++ [Tid.calls (.agent 0) (.spawnOn 0)] ++
      Tid.go (.agent 0) 8 ++ [Tid.calls (.agent 0) (.spawnOn 0)] ++ Tid.go (.agent 0) 7 ++
      [Tid.calls (.agent 1) (.driveOnce .worker)] ++ Tid.go (.agent 1) 7 ++ [(.agent 1, .ret .completed)] ++
      Tid.go (.agent 1) 15)
    (fun s : State smallDeques => decide (.spawned ⟨1, 0⟩ ∈ s.mem.log ∧ .completed ⟨1, 0⟩ ∉ s.mem.log ∧
      .spawned ⟨3, 2⟩ ∈ s.mem.log ∧ .completed ⟨3, 2⟩ ∈ s.mem.log ∧ .migrate ⟨1, 0⟩ 0 1 ∈ s.mem.log)) (by decide +kernel)
  obtain ⟨hfirst, hruns, hthird, hdone, hmigrate⟩ := of_decide_eq_true hq
  exact ⟨s, hs, hmigrate, (no_job_lost hs hfirst).1 hruns, hdone, (no_job_lost hs hthird).2.2.1 hdone s .refl⟩

end

end Krio.Parallel
