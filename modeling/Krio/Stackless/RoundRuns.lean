import Krio.Stackless.PriorityEnds
import Krio.Stackless.Rounds

/-! A pass over the coroutines of a region without priorities: what the log and the flags tell of it, and that the loop's
own blocks and the polls keep this. -/

namespace Krio.Stackless

variable {U : Type} {host : Host U} {hooks : Hooks U} {cfg cfg' : Body U} {r : Region} {start l0 top progress allDone k : ℕ}
  {ms : List Machine} {m : Machine} {c : Coroutine} {E B : ℕ → Prop} {tracks : Bool} {σ τ : Store host}
  {add log new : List (Event U)}

/-! ## What a pass leaves behind -/

/-- The pass that began at `top` has come by the first `k` coroutines: each is finished or was polled in it, and none of the
    others was. -/
structure Passed (r : Region) (ms : List Machine) (top k : ℕ) (log : List (Event U)) : Prop where
  taken : ∀ j < k, ∀ m c, ms[j]? = some m → r.coroutines[j]? = some c →
    Finished r c log ∨ .enter m.dispatchBb ∈ since top log ∧ ∃ v, .set m.pollResultLocal v ∈ since top log
  due : ∀ j m, k ≤ j → ms[j]? = some m → .enter m.dispatchBb ∉ since top log ∧ ∀ v, .set m.pollResultLocal v ∉ since top log

/-- None of the first `k` coroutines is finished, each poll of one in this pass ended blocked, and no guard was passed. -/
structure Idle (cfg' : Body U) (r : Region) (ms : List Machine) (progress top k : ℕ) (log : List (Event U)) : Prop where
  stays : ∀ j < k, ∀ m c, ms[j]? = some m → r.coroutines[j]? = some c →
    ¬Finished r c log ∧ ∀ v, .set m.pollResultLocal v ∈ since top log → v = pollBlocked
  guards : ¬GuardPassed cfg' progress (since top log)

/-- What the flags say of the pass. -/
structure Flagged (cfg' : Body U) (r : Region) (ms : List Machine) (progress allDone top : ℕ) (tracks : Bool) (k : ℕ)
    (σ : Store host) : Prop where
  done : σ.locals allDone ≠ 0 ↔ ∀ j < k, ∀ c, r.coroutines[j]? = some c → Finished r c σ.log
  moved : tracks = true → σ.locals progress = 1 ∧ ¬Idle cfg' r ms progress top k σ.log ∨
    σ.locals progress = 0 ∧ Idle cfg' r ms progress top k σ.log

/-- What holds of the coroutines while the region runs and none is being polled. -/
structure Resting (hooks : Hooks U) (cfg : Body U) (r : Region) (start : ℕ) (ms : List Machine) (σ : Store host) : Prop where
  region : Plain cfg r start r.regionBegin.1
  status : ∀ m c, Drives r ms m c → Ended m .finished σ.locals ∧ Finished r c σ.log ∨
    Waits m (findSuspensionPoints hooks cfg c).length σ ∧ ¬Finished r c σ.log

theorem Resting.finished_iff (h : Resting hooks cfg r start ms σ) (hd : Drives r ms m c) :
    σ.locals m.stateLocal = doneState ↔ Finished r c σ.log := by
  rcases h.status m c hd with ⟨h1, h2⟩ | ⟨⟨i, hi, -, hne⟩, h2⟩
  · exact iff_of_true h1.1 h2
  · exact iff_of_false (fun heq => hne (hi.symm.trans heq)) h2

theorem Passed.next (h : Passed r ms top k log) (hm : ms[k]? = some m) (hc : r.coroutines[k]? = some c)
    (hk : Finished r c log) : Passed r ms top (k + 1) log where
  taken j hj m' c' hm' hc' := by
    rcases Nat.lt_succ_iff_lt_or_eq.mp hj with hj | rfl
    · exact h.taken j hj m' c' hm' hc'
    · cases hc.symm.trans hc'
      exact .inl hk
  due j m' hj hm' := h.due j m' (Nat.le_of_succ_le hj) hm'

/-- One coroutine more. -/
theorem idle_succ (hm : ms[k]? = some m) (hc : r.coroutines[k]? = some c) : Idle cfg' r ms progress top (k + 1) log ↔
    Idle cfg' r ms progress top k log ∧ ¬Finished r c log ∧ ∀ v, .set m.pollResultLocal v ∈ since top log → v = pollBlocked := by
  constructor
  · exact fun h => ⟨⟨fun j hj => h.stays j (hj.trans (Nat.lt_succ_self k)), h.guards⟩, h.stays k (Nat.lt_succ_self k) m c hm hc⟩
  · rintro ⟨h, hk⟩
    refine ⟨fun j hj m' c' hm' hc' => ?_, h.guards⟩
    rcases Nat.lt_succ_iff_lt_or_eq.mp hj with hj | rfl
    · exact h.stays j hj m' c' hm' hc'
    · cases hm.symm.trans hm'
      cases hc.symm.trans hc'
      exact hk

/-! ## The loop's own blocks -/

/-- A step out of a block enters it, and then no other. -/
theorem step_enter {b : ℕ} {c' : Conf host} (h : step cfg' ⟨.block b, τ⟩ = some c') :
    ∃ new, c'.store.log = new ++ .enter b :: τ.log ∧ ∀ b', .enter b' ∉ new := by
  cases h
  exact execAll_log (cfg'.stmts b) (τ.note (.enter b))

/-- From `σ` to `τ` the loop went through blocks in `B` only, and has added `add` to the log. -/
structure Calm (n : ℕ) (ms : List Machine) (B : ℕ → Prop) (σ τ : Store host) (add : List (Event U)) : Prop where
  unseen : Unseen n ms σ τ
  log : τ.log = add ++ σ.log
  enters : ∀ b, .enter b ∈ add → B b
  polls : ∀ m ∈ ms, ∀ v, .set m.pollResultLocal v ∉ add

theorem Through.calm {n : ℕ} {a b : Conf host} (h : Through cfg' B a b) (hq : Unseen n ms a.store b.store) :
    ∃ add, Calm n ms B a.store b.store add := by
  obtain ⟨add, hlog, henters⟩ := h.log
  obtain ⟨add', hlog', hpolls⟩ := hq.polls
  obtain rfl := List.append_cancel_right (hlog.symm.trans hlog')
  exact ⟨add, hq, hlog, henters, hpolls⟩

/-- A block of a loop that is entered at `top`, other than the first. -/
structure Inner (cfg cfg' : Body U) (E : ℕ → Prop) (top b : ℕ) : Prop where
  executor : E b
  top : b ≠ top
  plain : ¬BehindGuard cfg' cfg.locals.length b

section
variable (h : Staged hooks cfg cfg' r start ms top l0 E)
include h

theorem Staged.executor_ne {b : ℕ} (hb : E b) : b ≠ r.regionBegin.1 ∧ (∀ c ∈ r.coroutines, b ≠ c.last.1) ∧ ∀ m ∈ ms, b ≠ m.dispatchBb := by
  have hle := h.new b hb
  have hlt := h.marked.region_lt.1
  refine ⟨by omega, fun c hc => ?_, fun m hm heq => (h.dispatch m hm).2 (heq ▸ hb)⟩
  have hlt' := (h.marked.mem_markers_lt hc).2
  omega

namespace Calm
variable (hq : Calm cfg.locals.length ms B σ τ add)
include hq

theorem finished_iff (hB : ∀ b, B b → E b) (hc : c ∈ r.coroutines) : Finished r c τ.log ↔ Finished r c σ.log := by
  rw [hq.log]
  exact finished_append_iff (fun hin => (h.executor_ne (hB _ (hq.enters _ hin))).1 rfl)
    fun hin => (h.executor_ne (hB _ (hq.enters _ hin))).2.1 c hc rfl

theorem resting (hB : ∀ b, B b → E b) (hs : Resting hooks cfg r start ms σ) : Resting hooks cfg r start ms τ := by
  refine ⟨hs.region, fun m c hd => ?_⟩
  obtain ⟨hstate, hpoll⟩ := hq.unseen.machines m hd.mem.1
  rw [hq.finished_iff h hB hd.mem.2, Waits, Ended, hstate, hpoll]
  exact hs.status m c hd

variable (hB : ∀ b, B b → Inner cfg cfg' E top b)
include hB

omit h in
theorem since_log : since top τ.log = add ++ since top σ.log := by
  rw [hq.log]
  exact since_append fun hin => (hB _ (hq.enters _ hin)).top rfl

theorem mem_since (hm : m ∈ ms) : (.enter m.dispatchBb ∈ since top τ.log ↔ .enter m.dispatchBb ∈ since top σ.log) ∧
    ∀ v, .set m.pollResultLocal v ∈ since top τ.log ↔ .set m.pollResultLocal v ∈ since top σ.log := by
  rw [hq.since_log hB]
  refine ⟨List.mem_append.trans (or_iff_right fun hin => ?_), fun v => List.mem_append.trans (or_iff_right (hq.polls m hm v))⟩
  exact (h.executor_ne (hB _ (hq.enters _ hin)).executor).2.2 m hm rfl

theorem passed (hp : Passed r ms top k σ.log) : Passed r ms top k τ.log := by
  refine ⟨fun j hj m c hm hc => ?_, fun j m hj hm => ?_⟩
  · obtain ⟨hdispatch, hpoll⟩ := hq.mem_since h hB (List.mem_of_getElem? hm)
    rw [hdispatch, hq.finished_iff h (fun b hb => (hB b hb).executor) (List.mem_of_getElem? hc)]
    simp only [hpoll]
    exact hp.taken j hj m c hm hc
  · obtain ⟨hdispatch, hpoll⟩ := hq.mem_since h hB (List.mem_of_getElem? hm)
    rw [hdispatch]
    simp only [hpoll]
    exact hp.due j m hj hm

theorem idle_iff : Idle cfg' r ms cfg.locals.length top k τ.log ↔ Idle cfg' r ms cfg.locals.length top k σ.log := by
  have hstays : ∀ {j : ℕ} {m : Machine} {c : Coroutine}, ms[j]? = some m → r.coroutines[j]? = some c →
      ((¬Finished r c τ.log ∧ ∀ v, .set m.pollResultLocal v ∈ since top τ.log → v = pollBlocked) ↔
        ¬Finished r c σ.log ∧ ∀ v, .set m.pollResultLocal v ∈ since top σ.log → v = pollBlocked) := fun hm hc => by
    rw [hq.finished_iff h (fun b hb => (hB b hb).executor) (List.mem_of_getElem? hc)]
    simp only [(hq.mem_since h hB (List.mem_of_getElem? hm)).2]
  have hguards : GuardPassed cfg' cfg.locals.length (since top τ.log) ↔ GuardPassed cfg' cfg.locals.length (since top σ.log) := by
    rw [hq.since_log hB]
    exact guardPassed_of_not fun b hb hin => (hB b (hq.enters b hin)).plain hb
  exact ⟨fun hi => ⟨fun j hj m c hm hc => (hstays hm hc).mp (hi.stays j hj m c hm hc), mt hguards.mpr hi.guards⟩,
    fun hi => ⟨fun j hj m c hm hc => (hstays hm hc).mpr (hi.stays j hj m c hm hc), mt hguards.mp hi.guards⟩⟩

theorem flagged (hf : Flagged cfg' r ms cfg.locals.length allDone top tracks k σ) (hdone : τ.locals allDone = σ.locals allDone)
    (hmoved : tracks = true → τ.locals cfg.locals.length = σ.locals cfg.locals.length) :
    Flagged cfg' r ms cfg.locals.length allDone top tracks k τ := by
  refine ⟨?_, fun htracks => ?_⟩
  · rw [hdone, hf.done]
    exact forall₄_congr fun j _ c hc => (hq.finished_iff h (fun b hb => (hB b hb).executor) (List.mem_of_getElem? hc)).symm
  · rw [hmoved htracks, hq.idle_iff h hB]
    exact hf.moved htracks

end Calm

omit h in
/-- A pass begins: the log tells of nothing in it yet. -/
theorem pass_begins {a : Conf host} (hstep : step cfg' ⟨.block top, σ⟩ = some a) (hq : Unseen cfg.locals.length ms σ a.store)
    (hone : a.store.locals allDone = 1) (hzero : tracks = true → a.store.locals cfg.locals.length = 0) :
    Passed r ms top 0 a.store.log ∧ Flagged cfg' r ms cfg.locals.length allDone top tracks 0 a.store := by
  obtain ⟨new, hlog, hnew⟩ := step_enter hstep
  obtain ⟨add, hlog', hadd⟩ := hq.polls
  have hsince : since top a.store.log = new := by
    rw [hlog, since_append (hnew top), since_enter, List.append_nil]
  have hsub : new ⊆ add := by
    have heq : add = new ++ [.enter top] := by
      refine List.append_cancel_right (hlog'.symm.trans (hlog.trans ?_))
      rw [List.append_assoc]
      rfl
    rw [heq]
    exact List.subset_append_left _ _
  have hnone : ∀ (j : ℕ) (m : Machine), ms[j]? = some m → .enter m.dispatchBb ∉ since top a.store.log ∧
      ∀ v, .set m.pollResultLocal v ∉ since top a.store.log := fun j m hm => by
    rw [hsince]
    exact ⟨hnew _, fun v hin => hadd m (List.mem_of_getElem? hm) v (hsub hin)⟩
  refine ⟨⟨fun j hj => absurd hj (Nat.not_lt_zero j), fun j m _ hm => hnone j m hm⟩, ?_, fun htracks => .inr ⟨hzero htracks, ?_, ?_⟩⟩
  · rw [hone]
    exact iff_of_true one_ne_zero fun j hj => absurd hj (Nat.not_lt_zero j)
  · exact fun j hj => absurd hj (Nat.not_lt_zero j)
  · rw [hsince]
    rintro ⟨b, -, hin⟩
    exact hnew b hin

end

/-! ## A poll -/

/-- A poll that came to its end is ready exactly if its machine is done. -/
theorem Polled.ready_iff (h : Staged hooks cfg cfg' r start ms top l0 E) (hm : m ∈ ms) {res : ℤ}
    (hp : Polled hooks cfg cfg' r ms l0 E c m σ τ new res) (hnot : ∀ y res, Suspends cfg' m y doneState res → .enter y ∉ τ.log) :
    res = pollReady ↔ τ.locals m.stateLocal = doneState := by
  cases hp with
  | finished ran guards ends => exact iff_of_true rfl (Function.update_self _ _ _)
  | @suspended τ new y id res ran guards stays hid hres suspends at_y =>
    refine iff_of_false (fun heq => ?_) fun heq => ?_
    · rcases hres with rfl | rfl
      · cases heq
      · cases heq
    · have hstate : ((τ.assign m.stateLocal id).assign m.pollResultLocal res).locals m.stateLocal = id :=
        (Function.update_of_ne (h.locals.state_poll m hm m hm) _ _).trans (Function.update_self _ _ _)
      refine hnot y res ((hstate.symm.trans heq) ▸ suspends) ?_
      refine List.mem_cons_of_mem _ (List.mem_cons_of_mem _ ?_)
      rw [ran.log]
      exact List.mem_append_left _ at_y

namespace Served
variable {pre post : List (Event U)} {res : ℤ} {m' : Machine} {c' : Coroutine}
  (hv : Served hooks cfg cfg' r ms l0 E m c res pre post σ τ)

include hv in
theorem enter_iff {b : ℕ} : .enter b ∈ post ++ .set m.pollResultLocal res :: pre ↔ .enter b ∈ pre := by
  rw [List.mem_append, List.mem_cons, or_iff_right fun hin => ?_, or_iff_right (by simp)]
  cases hv.ends _ hin

variable (h : Staged hooks cfg cfg' r start ms top l0 E) (hd : Drives r ms m c)
include h hv hd

/-- A poll does not enter the region, nor a block of the executor, and of the end markers its own only. -/
theorem enters_ne : (.enter r.regionBegin.1 ∉ pre) ∧ (∀ b, E b → .enter b ∉ pre) ∧
    (∀ m' ∈ ms, .enter m'.dispatchBb ∈ pre → m'.dispatchBb = m.dispatchBb) ∧ ∀ c' ∈ r.coroutines, .enter c'.last.1 ∈ pre → c' = c := by
  obtain ⟨hle, hE⟩ := h.dispatch m hd.mem.1
  have hlt := h.marked.region_lt.1
  refine ⟨fun hin => ?_, fun b hb hin => ?_, fun m' hm' hin => ?_, fun c' hc' hin => ?_⟩
  · rcases hv.enters _ hin with heq | haside
    · omega
    · exact haside.region rfl
  · rcases hv.enters _ hin with rfl | haside
    · exact hE hb
    · exact haside.executor hb
  · exact (hv.enters _ hin).resolve_right fun haside => haside.dispatch m' hm' rfl
  · rcases hv.enters _ hin with heq | haside
    · have hlt' := (h.marked.mem_markers_lt hc').2
      omega
    · exact haside.ends c' hc' rfl

theorem poll_iff (hm : m' ∈ ms) {v : ℤ} :
    .set m'.pollResultLocal v ∈ post ++ .set m.pollResultLocal res :: pre ↔ m' = m ∧ v = res := by
  obtain ⟨hle, -, hne⟩ := h.locals.poll_mem m' hm
  have hpre : .set m'.pollResultLocal v ∉ pre := fun hin => by
    rcases hv.stores _ _ hin with hlt | ⟨heq, -⟩ | heq
    · omega
    · exact hne heq
    · exact h.locals.state_poll _ hd.mem.1 m' hm heq.symm
  have hpost : .set m'.pollResultLocal v ∉ post := fun hin =>
    h.locals.state_poll _ hd.mem.1 m' hm (Event.set.inj (hv.ends _ hin)).1.symm
  rw [List.mem_append, or_iff_right hpost, List.mem_cons, or_iff_left hpre, Event.set.injEq]
  refine and_congr_left fun _ => ⟨fun heq => (h.eq_of_local hm hd.mem.1).2 heq, fun heq => heq ▸ rfl⟩

theorem finished_iff : Finished r c' τ.log ↔ .enter c'.last.1 ∈ pre ∨ Finished r c' σ.log := by
  have hregion : .enter r.regionBegin.1 ∉ post ++ .set m.pollResultLocal res :: pre := fun hin =>
    (hv.enters_ne h hd).1 (hv.enter_iff.mp hin)
  rw [hv.log, Finished, mem_since_append hregion, hv.enter_iff]
  rfl

/-- Who had finished before, or not. -/
theorem finished_other (hd' : Drives r ms m' c') (hne : m' ≠ m) : Finished r c' τ.log ↔ Finished r c' σ.log := by
  rw [hv.finished_iff h hd, or_iff_right fun hin => hne ?_]
  exact (h.drives_iff hd' hd).mpr ((hv.enters_ne h hd).2.2.2 c' hd'.mem.2 hin)

theorem resting (hs : Resting hooks cfg r start ms σ) (hstays : ¬Finished r c σ.log)
    (hres : res = pollReady ↔ τ.locals m.stateLocal = doneState) : Resting hooks cfg r start ms τ := by
  refine ⟨hs.region, fun m' c' hd' => ?_⟩
  by_cases hm : m' = m
  · subst hm
    obtain rfl := (h.drives_iff hd' hd).mp rfl
    rw [hv.finished_iff h hd, or_iff_left hstays]
    exact hv.status.imp (fun ⟨h1, h2⟩ => ⟨⟨h1, hv.result.trans (hres.mpr h1)⟩, h2⟩) id
  · rw [hv.finished_other h hd hd' hm]
    have hkeep : ∀ l, l = m'.stateLocal ∨ l = m'.pollResultLocal → τ.locals l = σ.locals l := fun l hl => by
      obtain ⟨h1, -, h2⟩ := h.locals.state_mem m' hd'.mem.1
      obtain ⟨h3, -, h4⟩ := h.locals.poll_mem m' hd'.mem.1
      have hown := h.eq_of_local hd'.mem.1 hd.mem.1
      rcases hl with rfl | rfl
      · exact hv.locals _ (by omega) (fun ht => (ht.2.2.2 m' hd'.mem.1).1 rfl) (fun heq => hm (hown.1 heq))
          (h.locals.state_poll m' hd'.mem.1 _ hd.mem.1)
      · exact hv.locals _ (by omega) (fun ht => (ht.2.2.2 m' hd'.mem.1).2 rfl)
          (h.locals.state_poll m hd.mem.1 m' hd'.mem.1).symm fun heq => hm (hown.2 heq)
    rw [Waits, Ended, hkeep _ (.inl rfl), hkeep _ (.inr rfl)]
    exact hs.status m' c' hd'

variable (htop : E top)
include htop

theorem since_log : since top τ.log = (post ++ .set m.pollResultLocal res :: pre) ++ since top σ.log := by
  rw [hv.log]
  exact since_append fun hin => (hv.enters_ne h hd).2.1 top htop (hv.enter_iff.mp hin)

theorem passed (hm : ms[k]? = some m) (hp : Passed r ms top k σ.log) : Passed r ms top (k + 1) τ.log := by
  have hmono : since top σ.log ⊆ since top τ.log := hv.since_log h hd htop ▸ List.subset_append_right _ _
  refine ⟨fun j hj m' c' hm' hc' => ?_, fun j m' hj hm' => ?_⟩
  · rcases Nat.lt_succ_iff_lt_or_eq.mp hj with hj | rfl
    · rcases hp.taken j hj m' c' hm' hc' with hfin | ⟨h1, v, h2⟩
      · exact .inl ((hv.finished_iff h hd).mpr (.inr hfin))
      · exact .inr ⟨hmono h1, v, hmono h2⟩
    · cases hm.symm.trans hm'
      rw [hv.since_log h hd htop]
      exact .inr ⟨List.mem_append_left _ (hv.enter_iff.mpr hv.dispatched), res,
        List.mem_append_left _ ((hv.poll_iff h hd hd.mem.1).mpr ⟨rfl, rfl⟩)⟩
  · have hne : m' ≠ m := fun heq => by
      have hlt : k ≠ j := by omega
      exact h.locals.state_inj k j m m' hm hm' hlt (congrArg Machine.stateLocal heq.symm)
    obtain ⟨h1, h2⟩ := hp.due j m' (Nat.le_of_succ_le hj) hm'
    have hmem := List.mem_of_getElem? hm'
    rw [hv.since_log h hd htop]
    refine ⟨fun hin => ?_, fun v hin => ?_⟩
    · rcases List.mem_append.mp hin with hin | hin
      · exact hne (h.eq_of_dispatch hmem hd.mem.1 ((hv.enters_ne h hd).2.2.1 m' hmem (hv.enter_iff.mp hin)))
      · exact h1 hin
    · rcases List.mem_append.mp hin with hin | hin
      · exact hne ((hv.poll_iff h hd hmem).mp hin).1
      · exact h2 v hin

/-- The poll's result stands in the log of the pass once. -/
theorem result_unique (hm : ms[k]? = some m) (hp : Passed r ms top k σ.log) {v : ℤ} (hin : .set m.pollResultLocal v ∈ since top τ.log) :
    v = τ.locals m.pollResultLocal := by
  rw [hv.since_log h hd htop] at hin
  rw [hv.result]
  rcases List.mem_append.mp hin with hin | hin
  · exact ((hv.poll_iff h hd hd.mem.1).mp hin).2
  · exact absurd hin ((hp.due k m le_rfl hm).2 v)

theorem flagged (hall : l0 ≤ allDone) (hm : ms[k]? = some m) (hf : Flagged cfg' r ms cfg.locals.length allDone top tracks k σ) :
    Flagged cfg' r ms cfg.locals.length allDone top tracks k τ := by
  have hfirst : ∀ {j : ℕ} {m' : Machine} {c' : Coroutine}, j < k → ms[j]? = some m' → r.coroutines[j]? = some c' → (Finished r c' τ.log ↔ Finished r c' σ.log) ∧
      ∀ v, .set m'.pollResultLocal v ∈ since top τ.log ↔ .set m'.pollResultLocal v ∈ since top σ.log := fun {j m' c'} hj hm' hc' => by
    have hne : m' ≠ m := fun heq => h.locals.state_inj j k m' m hm' hm hj.ne (congrArg Machine.stateLocal heq)
    refine ⟨hv.finished_other h hd ⟨j, hc', hm'⟩ hne, fun v => ?_⟩
    rw [hv.since_log h hd htop, List.mem_append, or_iff_right fun hin => hne ?_]
    exact ((hv.poll_iff h hd (List.mem_of_getElem? hm')).mp hin).1
  have hlt := h.locals.progress_mem.2
  have hsp := (h.locals.state_mem m hd.mem.1).2.1
  have hpp := (h.locals.poll_mem m hd.mem.1).2.1
  refine ⟨?_, fun htracks => ?_⟩
  · rw [hv.locals allDone (by omega) (fun ht => by have := ht.2.1; omega) (by omega) (by omega), hf.done]
    refine forall₄_congr fun j hj c' hc' => ?_
    have hlen : j < ms.length := h.count ▸ (List.getElem?_eq_some_iff.mp hc').1
    exact (hfirst hj (List.getElem?_eq_getElem hlen) hc').1.symm
  · have hstays : (∀ j < k, ∀ m' c', ms[j]? = some m' → r.coroutines[j]? = some c' →
        ¬Finished r c' τ.log ∧ ∀ v, .set m'.pollResultLocal v ∈ since top τ.log → v = pollBlocked) ↔
        ∀ j < k, ∀ m' c', ms[j]? = some m' → r.coroutines[j]? = some c' →
          ¬Finished r c' σ.log ∧ ∀ v, .set m'.pollResultLocal v ∈ since top σ.log → v = pollBlocked := by
      refine forall₄_congr fun j hj m' c' => forall₂_congr fun hm' hc' => ?_
      obtain ⟨hfin, hpoll⟩ := hfirst hj hm' hc'
      rw [hfin]
      simp only [hpoll]
    have hguards : GuardPassed cfg' cfg.locals.length (since top τ.log) ↔
        .set cfg.locals.length 1 ∈ pre ∨ GuardPassed cfg' cfg.locals.length (since top σ.log) := by
      rw [hv.since_log h hd htop, guardPassed_append, hv.guards]
      refine or_congr_left ⟨fun ⟨b, hb, hin⟩ => ⟨b, hb, hv.enter_iff.mp hin⟩, fun ⟨b, hb, hin⟩ => ⟨b, hb, hv.enter_iff.mpr hin⟩⟩
    have hidle : Idle cfg' r ms cfg.locals.length top k τ.log ↔
        .set cfg.locals.length 1 ∉ pre ∧ Idle cfg' r ms cfg.locals.length top k σ.log := by
      constructor
      · exact fun hi => ⟨fun hin => hi.guards (hguards.mpr (.inl hin)), hstays.mp hi.stays, fun hg => hi.guards (hguards.mpr (.inr hg))⟩
      · exact fun ⟨hnot, hi⟩ => ⟨hstays.mpr hi.stays, fun hg => (hguards.mp hg).elim hnot hi.guards⟩
    rw [hidle]
    rcases hv.flag with ⟨hin, hone⟩ | ⟨hnot, hkeep⟩
    · exact .inl ⟨hone, fun hi => hi.1 hin⟩
    · rw [hkeep, and_iff_right hnot]
      exact hf.moved htracks

end Served

end Krio.Stackless
