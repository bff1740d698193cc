import Krio.Stackless.Lowering
import Krio.Stackless.PriorityLoop

/-! The whole body after one marked region was transformed, under each executor. -/

namespace Krio.Stackless

variable {U : Type} {hooks : Hooks U} {cfg : Body U} {r : Region} {start : ℕ}

section
variable {a b : Body U} {ms : List Machine} {progress allDone top exit post pending n l hi stuck : ℕ} {t : Term}

/-- The loop is the same in a body that has the same blocks from `top` on and the same exits. -/
theorem CoopLoop.mono (h : CoopLoop hooks a ms progress allDone top (top + 1) (top + 2) (top + 3) l t) (hne : ms ≠ [])
    (hb : ∀ c, (top ≤ c ∧ c < top + 4 + 6 * ms.length ∨ ∃ m ∈ ms, c = m.exitBb) → b.block c = a.block c) :
    CoopLoop hooks b ms progress allDone top (top + 1) (top + 2) (top + 3) l t := by
  have hpos : 0 < ms.length := List.length_pos_iff.mpr hne
  have hin : ∀ c, top ≤ c → c < top + 4 + 6 * ms.length → b.block c = a.block c := fun c h1 h2 => hb c (.inl ⟨h1, h2⟩)
  have hcheck : ∀ k < ms.length, top ≤ roundCheck top (top + 3) 5 k ∧ roundCheck top (top + 3) 5 k < top + 4 + 6 * ms.length := by
    intro k hk
    cases k with
    | zero => exact ⟨le_rfl, by rw [roundCheck]; omega⟩
    | succ k =>
      rw [roundCheck]
      omega
  refine ⟨fun k m hm => ?_, fun k hk => ?_, ?_, ?_, ?_, ?_, ?_⟩
  · have hk := (List.getElem?_eq_some_iff.mp hm).1
    refine (turn_lays allDone progress).stable a b m _ _ _ _ (h.turns k m hm) fun c hc => ?_
    rcases hc with rfl | rfl | ⟨h1, h2, -⟩
    · exact hin _ (hcheck k hk).1 (hcheck k hk).2
    · exact hb _ (.inr ⟨m, List.mem_of_getElem? hm, rfl⟩)
    · rw [roundAfter] at h1 h2
      exact hin c (by omega) (by omega)
  · rw [hin _ (by rw [roundAfter]; omega) (by rw [roundAfter]; omega), h.next k hk]
  · rw [hin _ (by rw [roundAfter]; omega) (by rw [roundAfter]; omega), h.final]
  · rw [hin _ (by omega) (by omega), h.notDone]
  · rw [hin _ (by omega) (by omega), h.stuck]
  · rw [hin _ (by omega) (by omega), h.exit]
  · rw [hin _ (by omega) (by omega), h.post]

theorem OneshotPoll.mono (h : OneshotPoll a ms allDone top (top + 1) (top + 2) (top + 3) (top + 4) l t) (hne : ms ≠ [])
    (hb : ∀ c, (top ≤ c ∧ c < top + 3 + 5 * ms.length ∨ ∃ m ∈ ms, c = m.exitBb) → b.block c = a.block c) :
    OneshotPoll b ms allDone top (top + 1) (top + 2) (top + 3) (top + 4) l t := by
  have hpos : 0 < ms.length := List.length_pos_iff.mpr hne
  have hin : ∀ c, top ≤ c → c < top + 3 + 5 * ms.length → b.block c = a.block c := fun c h1 h2 => hb c (.inl ⟨h1, h2⟩)
  have hcheck : ∀ k < ms.length, top ≤ roundCheck top (top + 4) 4 k ∧ roundCheck top (top + 4) 4 k < top + 3 + 5 * ms.length := by
    intro k hk
    cases k with
    | zero => exact ⟨le_rfl, by rw [roundCheck]; omega⟩
    | succ k =>
      rw [roundCheck]
      omega
  refine ⟨fun k m hm => ?_, fun k hk => ?_, ?_, ?_, ?_, ?_⟩
  · have hk := (List.getElem?_eq_some_iff.mp hm).1
    refine (turnOnce_lays allDone).stable a b m _ _ _ _ (h.turns k m hm) fun c hc => ?_
    rcases hc with rfl | rfl | ⟨h1, h2, -⟩
    · exact hin _ (hcheck k hk).1 (hcheck k hk).2
    · exact hb _ (.inr ⟨m, List.mem_of_getElem? hm, rfl⟩)
    · rw [roundAfter] at h1 h2
      exact hin c (by omega) (by omega)
  · rw [hin _ (by rw [roundAfter]; omega) (by rw [roundAfter]; omega), h.next k hk]
  · rw [hin _ (by rw [roundAfter]; omega) (by rw [roundAfter]; omega), h.final]
  · rw [hin _ (by omega) (by omega), h.pending]
  · rw [hin _ (by omega) (by omega), h.done]
  · rw [hin _ (by omega) (by omega), h.post]

theorem PrioLoop.weaken {Q Q' : ℕ → Prop} {bands : List Band} (h : PrioLoop hooks a hi Q bands ms progress n stuck t)
    (hQ : ∀ d, Q d → Q' d) : PrioLoop hooks a hi Q' bands ms progress n stuck t := by
  obtain ⟨d, hd, hb⟩ := h.noProgress
  exact ⟨h.exit, h.post, h.init, h.top, h.scan.mono (fun c hc => ⟨hc, rfl⟩) hQ, h.checks.mono (fun c hc => ⟨hc, rfl⟩) hQ,
    ⟨d, hQ d hd, hb⟩, h.stuck_block, h.stuck_mem⟩

theorem PrioLoop.mono {Q : ℕ → Prop} {bands : List Band} (h : PrioLoop hooks a hi Q bands ms progress n stuck t)
    (hb : ∀ c, (n ≤ c ∧ c < hi ∨ ∃ m ∈ ms, c = m.exitBb) → b.block c = a.block c) :
    PrioLoop hooks b hi Q bands ms progress n stuck t := by
  obtain ⟨h1, h2⟩ := h.stuck_mem
  have hin : ∀ c, n ≤ c → c < hi → b.block c = a.block c := fun c h1 h2 => hb c (.inl ⟨h1, h2⟩)
  refine ⟨?_, ?_, ?_, ?_, ?_, ?_, ?_, ?_, ⟨h1, h2⟩⟩
  · rw [hin _ le_rfl (by omega), h.exit]
  · rw [hin _ (by omega) (by omega), h.post]
  · rw [hin _ (by omega) (by omega), h.init]
  · rw [hin _ (by omega) (by omega), h.top]
  · refine h.scan.mono (fun c hc => ⟨hc, ?_⟩) fun d hd => hd
    rcases hc with hc | hc
    · exact hin c (by omega) (by omega)
    · exact hb c (.inr hc)
  · exact h.checks.mono (fun c hc => ⟨hc, hin c (by omega) (by omega)⟩) fun d hd => hd
  · rw [hin _ (by omega) (by omega)]
    exact h.noProgress
  · rw [hin _ (by omega) (by omega), h.stuck_block]

end

namespace Assembly
variable {ms : List Machine} {cfgM cfgL : Body U} {lo ll : ℕ → ℕ}

/-- The blocks of the executor and the exits go through `finish_region` as they are. -/
theorem loop_kept (A : Assembly hooks cfg r start ms cfgM cfgL lo ll) (top : ℕ) {c : ℕ}
    (hc : cfgM.next ≤ c ∧ c < cfgL.next ∨ ∃ m ∈ ms, c = m.exitBb) : (finishRegion cfgL r ms top).block c = cfgL.block c := by
  have hnext := A.next_le
  rcases hc with hc | ⟨m, hm, rfl⟩
  · refine A.kept_new top (by omega) (by omega) fun m hm => ?_
    have hlt := (A.head_new hm).2
    omega
  · obtain ⟨-, -, h1, h2, -⟩ := A.dispatch_exit hm
    exact A.kept_new top h1 (by omega) fun m' hm' => (A.built.dispatch_exit.2.1 m' (List.mem_of_mem_head? hm') m hm).symm

/-- The machines leave the block of `region_end` alone. -/
theorem region_end_unbuilt (A : Assembly hooks cfg r start ms cfgM cfgL lo ll) :
    cfgM.block r.regionEnd.1 = cfg.block r.regionEnd.1 := by
  refine A.unbuilt A.marked.region_lt.2 fun hr => ?_
  obtain ⟨x, hx, hr⟩ := List.mem_flatMap.mp hr
  obtain ⟨c, hc, rfl⟩ := List.mem_map.mp hx
  exact A.marked.end_outside c hc (A.marked.inside_of_rewrites hc hr)

/-- What `region_end` leaves behind: its block, without a terminator. -/
theorem region_end (A : Assembly hooks cfg r start ms cfgM cfgL lo ll) (top : ℕ)
    (hend : cfgL.block r.regionEnd.1 = ⟨cfgM.stmts r.regionEnd.1, .unreachable⟩) :
    (finishRegion cfgL r ms top).block r.regionEnd.1 =
      ⟨blank r.markers r.regionEnd.1 (cfg.stmts r.regionEnd.1), .unreachable⟩ := by
  have hnext := A.next_le
  have hlt := A.marked.region_lt.2
  have hnd : ∀ m, ms.head? = some m → r.regionEnd.1 ≠ m.dispatchBb := fun m hm => by
    have hle := (A.head_new hm).1
    omega
  have hM := A.region_end_unbuilt
  rw [(finishRegion_block cfgL r ms top _).2.2.2, if_neg A.ends_apart, if_neg (by omega), liftTerm_of_ne hnd, Cfg.stmts, Cfg.term,
    hend, Cfg.stmts, hM]
  rfl

theorem exits_fresh (A : Assembly hooks cfg r start ms cfgM cfgL lo ll) :
    ∀ m ∈ ms, m.exitBb < cfgM.next ∧ m.exitBb ≠ r.regionEnd.1 ∧ cfgM.block m.exitBb = .fresh := by
  intro m hm
  obtain ⟨-, -, h1, h2, h3⟩ := A.dispatch_exit hm
  exact ⟨h2, (A.new_ne h1).2, h3⟩

end Assembly

/-- The machines of a marked region, before an executor wires them. -/
theorem Marked.machines_ready (h : Marked hooks cfg r start) {ms : List Machine} {cfgM : Body U}
    (hout : machinesOf hooks cfg r = (ms, cfgM)) :
    ms ≠ [] ∧ (∀ m ∈ ms, m.progressLocal = cfg.locals.length) ∧ r.regionEnd.1 < cfgM.next ∧
      (∀ m ∈ ms, m.exitBb < cfgM.next ∧ m.exitBb ≠ r.regionEnd.1 ∧ cfgM.block m.exitBb = .fresh) ∧
      (ms.map (·.exitBb)).Nodup ∧ cfgM.term r.regionEnd.1 = cfg.term r.regionEnd.1 := by
  obtain ⟨lo, ll, A⟩ := h.assembly hout Extends.refl
  refine ⟨fun hnil => ?_, A.locals.progress_eq, h.region_lt.2.trans_le A.next_le.1, A.exits_fresh, A.built.exits_nodup,
    congrArg Block.term A.region_end_unbuilt⟩
  have hcount := A.count
  rw [hnil, List.length_nil] at hcount
  exact h.nonempty (List.length_eq_zero_iff.mp hcount.symm)

variable (hooks cfg r start) in
/-- The body after the transform and what is known of it whatever the executor: it enters the loop at `top`. -/
structure Transformed (ms : List Machine) (cfgM cfg' : Body U) (top : ℕ) : Prop where
  out : machinesOf hooks cfg r = (ms, cfgM)
  assembled : ∃ cfgL lo ll, Assembly hooks cfg r start ms cfgM cfgL lo ll ∧ cfg' = finishRegion cfgL r ms top ∧
    ∀ (u : U) (S : ℕ → Prop), hooks.deadlock ≠ some u → Edit u S cfgM cfgL
  region_end : cfg'.block r.regionEnd.1 = ⟨blank r.markers r.regionEnd.1 (cfg.stmts r.regionEnd.1), .unreachable⟩

/-- A region without priorities under the round-robin executor. -/
theorem Marked.roundRobin (h : Marked hooks cfg r start) (hp : r.coroutines.any (·.priority.isSome) = false)
    (loops : List Loop) :
    ∃ ms cfgM cfg', let top := cfgM.next
      transformRegion hooks (cooperative hooks) loops cfg r =
        (loops ++ [⟨top, top + 1, roundAfter (top + 3) 5 (ms.length - 1) + 3, top + 3 + 6 * ms.length⟩], cfg') ∧
      Transformed hooks cfg r start ms cfgM cfg' top ∧
      CoopLoop hooks cfg' ms cfg.locals.length cfgM.locals.length top (top + 1) (top + 2) (top + 3) (cfgM.locals.length + 1)
        (cfg.term r.regionEnd.1) := by
  obtain ⟨⟨ms, cfgM⟩, hout⟩ : ∃ out, machinesOf hooks cfg r = out := ⟨_, rfl⟩
  obtain ⟨hne, hprog, hr, he, hnodup, hterm⟩ := h.machines_ready hout
  obtain ⟨cfgL, heq, hext, hnext, hend, hloop, hedit⟩ := buildCooperativeLoop_spec hooks cfgM r ms _ hne hprog hr he hnodup
  obtain ⟨lo, ll, A⟩ := h.assembly hout hext
  refine ⟨ms, cfgM, finishRegion cfgL r ms cfgM.next, ?_, ⟨hout, ⟨cfgL, lo, ll, A, rfl, hedit⟩, A.region_end _ hend⟩, ?_⟩
  · rw [transformRegion_eq, hout, cooperative, if_neg (by simp [hp]), heq]
  · rw [← hterm]
    refine hloop.mono hne fun c hc => A.loop_kept _ (hc.imp_left fun hc => ⟨hc.1, ?_⟩)
    omega

/-- A region with priorities under the same executor. -/
theorem Marked.prioritised (h : Marked hooks cfg r start) (hp : r.coroutines.any (·.priority.isSome) = true)
    (loops : List Loop) :
    ∃ ms cfgM cfgL lo ll bands stuck, let n := cfgM.next
      let cfg' := finishRegion cfgL r ms (n + 2)
      transformRegion hooks (cooperative hooks) loops cfg r = (loops ++ [⟨n + 3, n, n + 4, stuck⟩], cfg') ∧
      Assembly hooks cfg r start ms cfgM cfgL lo ll ∧ Transformed hooks cfg r start ms cfgM cfg' (n + 2) ∧
      BandsAt r ms cfgM.locals.length (n + 5) bands ∧
      PrioLoop hooks cfg' cfgL.next (fun d => cfgM.locals.length + 2 * bands.length ≤ d) bands ms cfg.locals.length n stuck
        (cfg.term r.regionEnd.1) := by
  obtain ⟨⟨ms, cfgM⟩, hout⟩ : ∃ out, machinesOf hooks cfg r = out := ⟨_, rfl⟩
  obtain ⟨hne, hprog, hr, he, hnodup, hterm⟩ := h.machines_ready hout
  obtain ⟨cfgL, bands, stuck, heq, hext, hend, hbands, hloop, hedit⟩ := buildPriorityLoop_spec hooks cfgM r ms _ hne hprog hr he hnodup
  obtain ⟨lo, ll, A⟩ := h.assembly hout hext
  refine ⟨ms, cfgM, cfgL, lo, ll, bands, stuck, ?_, A, ⟨hout, ⟨cfgL, lo, ll, A, rfl, hedit⟩, A.region_end _ hend⟩, hbands, ?_⟩
  · rw [transformRegion_eq, hout, cooperative, if_pos hp, heq]
  · rw [← hterm]
    exact (hloop.weaken fun d hd => hd.1).mono fun c hc => A.loop_kept _ hc

/-- A region under the one-shot executor. -/
theorem Marked.oneshot (h : Marked hooks cfg r start) (exits : List RegionExits) :
    ∃ ms cfgM cfg', let top := cfgM.next
      transformRegion hooks waker exits cfg r = (exits ++ [⟨top + 1, top + 2⟩], cfg') ∧
      Transformed hooks cfg r start ms cfgM cfg' top ∧
      OneshotPoll cfg' ms cfgM.locals.length top (top + 1) (top + 2) (top + 3) (top + 4) (cfgM.locals.length + 1)
        (cfg.term r.regionEnd.1) := by
  obtain ⟨⟨ms, cfgM⟩, hout⟩ : ∃ out, machinesOf hooks cfg r = out := ⟨_, rfl⟩
  obtain ⟨hne, hprog, hr, he, hnodup, hterm⟩ := h.machines_ready hout
  obtain ⟨cfgL, heq, hext, hnext, hend, hloop, hedit⟩ := buildOneshotPoll_spec cfgM r ms hne hr he hnodup
  obtain ⟨lo, ll, A⟩ := h.assembly hout hext
  refine ⟨ms, cfgM, finishRegion cfgL r ms cfgM.next, ?_, ⟨hout, ⟨cfgL, lo, ll, A, rfl, fun u S _ => hedit u S⟩, A.region_end _ hend⟩, ?_⟩
  · rw [transformRegion_eq, hout, waker, heq]
  · rw [← hterm]
    refine hloop.mono hne fun c hc => A.loop_kept _ (hc.imp_left fun hc => ⟨hc.1, ?_⟩)
    have hpos : 0 < ms.length := List.length_pos_iff.mpr hne
    omega

end Krio.Stackless
