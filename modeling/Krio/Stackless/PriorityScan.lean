import Krio.Stackless.PriorityRuns

/-! A scan of a priority loop: what holds between its blocks, and that the loop's own blocks leave it as it is. -/

namespace Krio.Stackless

variable {U : Type} {host : Host U} {hooks : Hooks U} {cfg cfg' : Body U} {r : Region} {start : ℕ} {ms : List Machine}
  {bands : List Band} {n stuck hi l0 b : ℕ} {m : Machine} {c : Coroutine}

variable (hooks cfg cfg' r start ms bands n stuck hi l0) in
/-- A body with the loop over its prioritised coroutines, whose blocks are those from `n` up to `hi` and whose locals
    those from `l0` on. -/
structure Looped : Prop where
  staged : Staged hooks cfg cfg' r start ms (n + 2) l0 (Executes n hi ms)
  bands_at : BandsAt r ms l0 (n + 5) bands
  loop : PrioLoop hooks cfg' hi (fun d => l0 + 2 * bands.length ≤ d) bands ms cfg.locals.length n stuck (cfg.term r.regionEnd.1)
  exits : ∀ m ∈ ms, m.exitBb < n

/-- What the transform makes of a marked region with priorities. -/
theorem Marked.looped (h : Marked hooks cfg r start) (hp : r.coroutines.any (·.priority.isSome) = true)
    (hbelow : ∀ b < cfg.next, ∀ s ∈ cfg.stmts b, s.Below cfg.locals.length) (loops : List Loop) :
    ∃ cfg' bands n stuck hi l0, transformRegion hooks (cooperative hooks) loops cfg r = (loops ++ [⟨n + 3, n, n + 4, stuck⟩], cfg') ∧
      Looped hooks cfg cfg' r start (machinesOf hooks cfg r).1 bands n stuck hi l0 := by
  obtain ⟨ms, cfgM, cfgL, lo, ll, bands, stuck, heq, A, ht, hbands, hloop⟩ := h.prioritised hp loops
  rw [ht.out]
  exact ⟨_, bands, _, stuck, _, _, heq, A.staged _ hbelow, hbands, hloop, fun m hm => (A.dispatch_exit hm).2.2.2.1⟩

variable (hooks cfg r start ms bands) in
/-- What holds of the coroutines while the region runs and none is being polled. -/
structure Settled (σ : Store host) : Prop where
  region : Plain cfg r start r.regionBegin.1
  status : ∀ m c, Drives r ms m c → σ.locals m.stateLocal = doneState ∧ Finished r c σ.log ∨
    Waits m (findSuspensionPoints hooks cfg c).length σ ∧ ¬Finished r c σ.log
  turns : TakesTurns r ms bands σ.log
  attended : Attended r ms σ.log

/-- The machine was polled since `top`, and blocked. -/
def PolledBlocked (top : ℕ) (m : Machine) (log : List (Event U)) : Prop :=
  .enter m.dispatchBb ∈ since top log ∧ .set m.pollResultLocal pollBlocked ∈ since top log

variable (hooks cfg cfg' r start ms bands n) in
/-- What holds in a scan that has come by the stops `passed`. -/
structure Scanning (passed : List Stop) (σ : Store host) : Prop extends Settled hooks cfg r start ms bands σ where
  known : passed ⊆ scanStops bands
  ordered : Ordered r ms bands σ.locals σ.log
  /-- No poll of this scan ended unblocked. -/
  idle : ∀ m ∈ ms, ∀ v, .set m.pollResultLocal v ∈ since (n + 3) σ.log → v = pollBlocked
  passed : ∀ s ∈ passed, s.Due (σ.locals s.last) → ∀ c, Drives r ms s.machine c →
    Finished r c σ.log ∨ PolledBlocked (n + 3) s.machine σ.log
  flag : .set cfg.locals.length 1 ∈ since (n + 3) σ.log ∧ σ.locals cfg.locals.length = 1 ∨
    .set cfg.locals.length 1 ∉ since (n + 3) σ.log ∧ σ.locals cfg.locals.length = 0
  guards : .set cfg.locals.length 1 ∈ since (n + 3) σ.log ↔ GuardPassed cfg' cfg.locals.length (since (n + 3) σ.log)

variable (cfg cfg' ms n hi l0) in
/-- From `σ` to `τ` the run went through blocks of the loop only and has added `add` to the log: it stored to the loop's own
    locals, and 0 to `progress`. -/
structure Quiet (σ τ : Store host) (add : List (Event U)) : Prop where
  log : τ.log = add ++ σ.log
  enters : ∀ b, .enter b ∈ add → Executes n hi ms b ∧ ¬BehindGuard cfg' cfg.locals.length b
  stores : ∀ l v, .set l v ∈ add → l0 ≤ l ∨ l = cfg.locals.length ∧ v = 0
  locals : ∀ x < l0, x ≠ cfg.locals.length → τ.locals x = σ.locals x

section
variable {σ τ : Store host} {add : List (Event U)} {passed : List Stop}
variable (h : Looped hooks cfg cfg' r start ms bands n stuck hi l0)
include h

theorem Looped.executes_ne (hb : Executes n hi ms b) : b ≠ r.regionBegin.1 ∧ ∀ c ∈ r.coroutines, b ≠ c.last.1 := by
  have hle := h.staged.new b hb
  have hlt := h.staged.marked.region_lt.1
  refine ⟨by omega, fun c hc => ?_⟩
  have hlt' := (h.staged.marked.mem_markers_lt hc).2
  omega

theorem Looped.machine_mem {s : Stop} (hs : s ∈ scanStops bands) : s.machine ∈ ms := h.bands_at.machine_mem hs

theorem Looped.member_mem {band : Band} (hband : band ∈ bands) (hm : m ∈ band.members) : m ∈ ms := by
  obtain ⟨i, hi⟩ := List.mem_iff_getElem?.mp hm
  exact h.machine_mem (s := ⟨m, band.last, band.sweep, band.members.length, i, true⟩)
    (mem_scanStops.mpr ⟨band, hband, i, m, hi, rfl⟩)

theorem Looped.nodup : ms.Nodup := by
  refine List.nodup_iff_getElem?_ne_getElem?.mpr fun j k hjk hk heq => ?_
  have hj : j < ms.length := hjk.trans hk
  rw [List.getElem?_eq_getElem hj, List.getElem?_eq_getElem hk, Option.some_inj] at heq
  have hne := h.staged.locals.state_inj j k _ _ (List.getElem?_eq_getElem hj) (List.getElem?_eq_getElem hk) hjk.ne
  exact hne (congrArg Machine.stateLocal heq)

/-- Two machines share no local. -/
theorem Looped.eq_of_local {m' : Machine} (hm : m ∈ ms) (hm' : m' ∈ ms) :
    (m.stateLocal = m'.stateLocal → m = m') ∧ (m.pollResultLocal = m'.pollResultLocal → m = m') := by
  obtain ⟨j, hj⟩ := List.mem_iff_getElem?.mp hm
  obtain ⟨k, hk⟩ := List.mem_iff_getElem?.mp hm'
  by_cases hjk : j = k
  · subst hjk
    rw [hj] at hk
    exact ⟨fun _ => Option.some.inj hk, fun _ => Option.some.inj hk⟩
  · exact ⟨fun heq => absurd heq (h.staged.locals.state_inj j k m m' hj hk hjk),
      fun heq => absurd heq (h.staged.locals.poll_inj j k m m' hj hk hjk)⟩

theorem Quiet.region (hq : Quiet cfg cfg' ms n hi l0 σ τ add) : .enter r.regionBegin.1 ∉ add :=
  fun hin => (h.executes_ne (hq.enters _ hin).1).1 rfl

theorem Quiet.ends (hq : Quiet cfg cfg' ms n hi l0 σ τ add) (hc : c ∈ r.coroutines) : .enter c.last.1 ∉ add :=
  fun hin => (h.executes_ne (hq.enters _ hin).1).2 c hc rfl

theorem Quiet.poll (hq : Quiet cfg cfg' ms n hi l0 σ τ add) (hm : m ∈ ms) (v : ℤ) : .set m.pollResultLocal v ∉ add := by
  intro hin
  obtain ⟨-, hlt, hne⟩ := h.staged.locals.poll_mem m hm
  rcases hq.stores _ _ hin with hle | ⟨heq, -⟩
  · omega
  · exact hne heq

theorem Quiet.flag (hq : Quiet cfg cfg' ms n hi l0 σ τ add) : .set cfg.locals.length 1 ∉ add := by
  intro hin
  have hlt := h.staged.locals.progress_mem.2
  rcases hq.stores _ _ hin with hle | ⟨-, hv⟩
  · omega
  · cases hv

theorem Quiet.waits (hq : Quiet cfg cfg' ms n hi l0 σ τ add) (hm : m ∈ ms) : τ.locals m.stateLocal = σ.locals m.stateLocal := by
  obtain ⟨-, hlt, hne⟩ := h.staged.locals.state_mem m hm
  exact hq.locals _ hlt hne

theorem Settled.quiet (hs : Settled hooks cfg r start ms bands σ) (hq : Quiet cfg cfg' ms n hi l0 σ τ add) :
    Settled hooks cfg r start ms bands τ := by
  refine ⟨hs.region, fun m c hd => ?_, ?_, ?_⟩
  · have hstate := hq.waits h hd.mem.1
    rw [hq.log, finished_append_iff (hq.region h) (hq.ends h hd.mem.2), Waits, hstate]
    exact hs.status m c hd
  · rw [hq.log]
    exact hs.turns.append fun band hband m hm => hq.poll h (h.member_mem hband hm)
  · rw [hq.log]
    exact hs.attended.append (fun m hm => hq.poll h hm) fun c hc => hq.ends h hc

theorem Quiet.ordered (hq : Quiet cfg cfg' ms n hi l0 σ τ add) {lasts lasts' : Locals} (ho : Ordered r ms bands lasts σ.log)
    (hlasts : ∀ x, l0 ≤ x → x < l0 + bands.length → lasts' x = lasts x) : Ordered r ms bands lasts' τ.log := by
  rw [hq.log]
  refine ho.append (fun s hs => ?_) (hq.region h) fun s hs v _ => hq.poll h (h.machine_mem hs) v
  obtain ⟨h1, h2, -⟩ := h.bands_at.locals_of_mem hs
  exact hlasts _ h1 h2

/-- A block of the loop, but for its top and the stores to `last`. -/
theorem Scanning.quiet (hs : Scanning hooks cfg cfg' r start ms bands n passed σ) (hq : Quiet cfg cfg' ms n hi l0 σ τ add)
    (hkeep : ∀ x < l0 + bands.length, τ.locals x = σ.locals x) (htop : .enter (n + 3) ∉ add) :
    Scanning hooks cfg cfg' r start ms bands n passed τ := by
  have hsince : since (n + 3) τ.log = add ++ since (n + 3) σ.log := by rw [hq.log, since_append htop]
  have hmono : since (n + 3) σ.log ⊆ since (n + 3) τ.log := hsince ▸ List.subset_append_right _ _
  have hflag : .set cfg.locals.length 1 ∈ since (n + 3) τ.log ↔ .set cfg.locals.length 1 ∈ since (n + 3) σ.log := by
    rw [hsince, List.mem_append, or_iff_right (hq.flag h)]
  have hprogress := h.staged.locals.progress_mem.2
  refine ⟨hs.toSettled.quiet h hq, hs.known, hq.ordered h hs.ordered fun x _ hx => hkeep x hx, fun m hm v hin => ?_,
    fun s hmem hdue c hd => ?_, ?_, ?_⟩
  · rw [hsince, List.mem_append, or_iff_right (hq.poll h hm v)] at hin
    exact hs.idle m hm v hin
  · rw [hkeep _ (h.bands_at.locals_of_mem (hs.known hmem)).2.1] at hdue
    rcases hs.passed s hmem hdue c hd with hfin | ⟨h1, h2⟩
    · rw [hq.log]
      exact .inl (hfin.append (hq.region h))
    · exact .inr ⟨hmono h1, hmono h2⟩
  · rw [hflag, hkeep _ (by omega)]
    exact hs.flag
  · rw [hflag, hs.guards, hsince, guardPassed_of_not fun b hb hin => (hq.enters b hin).2 hb]

end

/-! ## Polls -/

/-- A poll of `c` from `σ` to the exit of its machine, of which the log tells `pre`, its result and `post`. -/
structure Served (hooks : Hooks U) (cfg cfg' : Body U) (r : Region) (ms : List Machine) (l0 : ℕ) (E : ℕ → Prop) (m : Machine)
    (c : Coroutine) (res : ℤ) (pre post : List (Event U)) (σ τ : Store host) : Prop where
  log : τ.log = (post ++ .set m.pollResultLocal res :: pre) ++ σ.log
  dispatched : .enter m.dispatchBb ∈ pre
  enters : ∀ b, .enter b ∈ pre → b = m.dispatchBb ∨ Aside r ms E c b
  stores : ∀ l v, .set l v ∈ pre → l < cfg.locals.length ∨ l = cfg.locals.length ∧ v = 1 ∨ l = m.stateLocal
  ends : ∀ e ∈ post, e = .set m.stateLocal doneState
  locals : ∀ l, cfg.locals.length < l → ¬Scratch cfg l0 ms l → l ≠ m.stateLocal → l ≠ m.pollResultLocal → τ.locals l = σ.locals l
  result : τ.locals m.pollResultLocal = res
  status : τ.locals m.stateLocal = doneState ∧ .enter c.last.1 ∈ pre ∨
    Waits m (findSuspensionPoints hooks cfg c).length τ ∧ .enter c.last.1 ∉ pre
  flag : .set cfg.locals.length 1 ∈ pre ∧ τ.locals cfg.locals.length = 1 ∨
    .set cfg.locals.length 1 ∉ pre ∧ τ.locals cfg.locals.length = σ.locals cfg.locals.length
  guards : .set cfg.locals.length 1 ∈ pre ↔ GuardPassed cfg' cfg.locals.length pre

section
variable {E : ℕ → Prop} {top : ℕ} {σ τ : Store host} {new pre post : List (Event U)} {res : ℤ}

theorem Staged.dispatch_plain (h : Staged hooks cfg cfg' r start ms top l0 E) (hm : m ∈ ms) :
    ¬BehindGuard cfg' cfg.locals.length m.dispatchBb := by
  obtain ⟨c, hd⟩ := h.drives hm
  obtain ⟨F, entry, entries, done, -, hl⟩ := h.lowered m c hd
  rcases hl.dispatches with ⟨-, d, -, hblock⟩ | ⟨-, hblock⟩
  · exact not_behindGuard hblock (by simp)
  · exact not_behindGuard hblock (by simp)

/-- A poll that came to its end, and did not suspend at the point numbered like the state of a finished coroutine. -/
theorem Polled.served (h : Staged hooks cfg cfg' r start ms top l0 E) (hd : Drives r ms m c)
    (hp : Polled hooks cfg cfg' r ms l0 E c m (σ.note (.enter m.dispatchBb)) τ new res)
    (hnot : ∀ y res, Suspends cfg' m y doneState res → .enter y ∉ τ.log) :
    ∃ pre post, Served hooks cfg cfg' r ms l0 E m c res pre post σ τ := by
  obtain ⟨-, -, hsp⟩ := h.locals.state_mem m hd.mem.1
  obtain ⟨-, -, hpp⟩ := h.locals.poll_mem m hd.mem.1
  have hne : m.stateLocal ≠ m.pollResultLocal := h.locals.state_poll m hd.mem.1 m hd.mem.1
  have hclast : m.dispatchBb ≠ c.last.1 := by
    have hle := (h.dispatch m hd.mem.1).1
    have hlt := (h.marked.mem_markers_lt hd.mem.2).2
    omega
  have henters : ∀ {new : List (Event U)} {b}, (∀ b, .enter b ∈ new → Aside r ms E c b) →
      .enter b ∈ new ++ [Event.enter m.dispatchBb] → b = m.dispatchBb ∨ Aside r ms E c b := fun hnew hin => by
    rcases List.mem_append.mp hin with hin | hin
    · exact .inr (hnew _ hin)
    · exact .inl (Event.enter.inj (List.mem_singleton.mp hin))
  have hset : ∀ {new : List (Event U)} {l v}, .set l v ∈ new ++ [Event.enter m.dispatchBb] ↔ .set l v ∈ new := by simp
  have hguard : ∀ {new : List (Event U)}, (.set cfg.locals.length 1 ∈ new ↔ GuardPassed cfg' cfg.locals.length new) →
      (.set cfg.locals.length 1 ∈ new ++ [Event.enter m.dispatchBb] ↔
        GuardPassed cfg' cfg.locals.length (new ++ [Event.enter m.dispatchBb])) := fun hg => by
    rw [hset, hg, guardPassed_append, or_iff_left]
    rintro ⟨b, hb, hin⟩
    exact h.dispatch_plain hd.mem.1 (Event.enter.inj (List.mem_singleton.mp hin) ▸ hb)
  cases hp with
  | @finished τ new ran guards ends =>
    refine ⟨new ++ [Event.enter m.dispatchBb], [Event.set m.stateLocal doneState], ?_, by simp, fun b => henters ran.enters, fun l v hin => ?_,
      fun e he => List.mem_singleton.mp he, fun l hl ht h1 h2 => ?_, ?_, .inl ⟨Function.update_self _ _ _, ?_⟩, ?_, hguard guards⟩
    · have hlog := ran.log
      simp only [Store.assign, Store.note] at hlog ⊢
      simp [hlog]
    · exact (ran.stores l v (hset.mp hin)).imp_right .inl
    · exact ((Function.update_of_ne h1 _ _).trans (Function.update_of_ne h2 _ _)).trans (ran.locals l hl ht)
    · exact (Function.update_of_ne hne.symm _ _).trans (Function.update_self _ _ _)
    · exact List.mem_append_left _ ends
    · have hkeep : ((τ.assign m.pollResultLocal pollReady).assign m.stateLocal doneState).locals cfg.locals.length =
          τ.locals cfg.locals.length := (Function.update_of_ne hsp.symm _ _).trans (Function.update_of_ne hpp.symm _ _)
      rw [hset, hkeep]
      exact ran.flag
  | @suspended τ new y id res ran guards stays hid hres suspends at_y =>
    have hid' : (id : ℤ) ≠ doneState := fun heq => by
      refine hnot y res (heq ▸ suspends) ?_
      refine List.mem_cons_of_mem _ (List.mem_cons_of_mem _ ?_)
      rw [ran.log]
      exact List.mem_append_left _ at_y
    refine ⟨.set m.stateLocal id :: (new ++ [Event.enter m.dispatchBb]), [], ?_, by simp, fun b hin => ?_, fun l v hin => ?_,
      fun e he => absurd he List.not_mem_nil, fun l hl ht h1 h2 => ?_, Function.update_self _ _ _, .inr ⟨⟨id, ?_, hid.2, hid'⟩, ?_⟩, ?_, ?_⟩
    · have hlog := ran.log
      simp only [Store.assign, Store.note] at hlog ⊢
      simp [hlog]
    · exact henters ran.enters ((List.mem_cons.mp hin).resolve_left (by rintro ⟨⟩))
    · rcases List.mem_cons.mp hin with hin | hin
      · exact .inr (.inr (Event.set.inj hin).1)
      · exact (ran.stores l v (hset.mp hin)).imp_right .inl
    · exact ((Function.update_of_ne h2 _ _).trans (Function.update_of_ne h1 _ _)).trans (ran.locals l hl ht)
    · exact (Function.update_of_ne hne _ _).trans (Function.update_self _ _ _)
    · simpa [hclast.symm] using stays
    · have hkeep : ((τ.assign m.stateLocal id).assign m.pollResultLocal res).locals cfg.locals.length =
          τ.locals cfg.locals.length := (Function.update_of_ne hpp.symm _ _).trans (Function.update_of_ne hsp.symm _ _)
      have hiff : .set cfg.locals.length 1 ∈ .set m.stateLocal (id : ℤ) :: (new ++ [Event.enter m.dispatchBb]) ↔
          .set cfg.locals.length 1 ∈ new := by
        rw [List.mem_cons, hset, or_iff_right fun heq => hsp (Event.set.inj heq).1.symm]
      rw [hiff, hkeep]
      exact ran.flag
    · have hiff := hguard guards
      rw [List.mem_cons, or_iff_right fun heq => hsp (Event.set.inj heq).1.symm, hiff]
      refine ⟨fun hg => hg.mono (List.subset_cons_self _ _), fun hg => ?_⟩
      obtain ⟨b, hb, hin⟩ := hg
      exact ⟨b, hb, (List.mem_cons.mp hin).resolve_left (by rintro ⟨⟩)⟩

end

end Krio.Stackless
