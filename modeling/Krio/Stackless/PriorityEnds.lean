import Krio.Stackless.PriorityPlaces

/-! The blocks around the scan of a priority loop, and the body outside: every step keeps what holds where control is. -/

namespace Krio.Stackless

variable {U : Type} {host : Host U} {hooks : Hooks U} {cfg cfg' : Body U} {r : Region} {start : ℕ} {ms : List Machine}
  {bands : List Band} {n stuck hi l0 : ℕ}

/-- Control has not suspended a coroutine at the point whose number stands for a finished one. -/
def Unmistaken (cfg' : Body U) (ms : List Machine) (log : List (Event U)) : Prop :=
  ∀ m ∈ ms, ∀ y res, Suspends cfg' m y doneState res → .enter y ∉ log

/-- One block of the check. -/
theorem run_check {d next b : ℕ} {m : Machine} (σ : Store host) (temp : l0 + 2 * bands.length ≤ d)
    (block : cfg'.block b = ⟨[.eqCheckI64 d m.stateLocal doneState], .branch d next (stuck + 1)⟩) :
    (runBlock cfg' b σ).place = .block (if σ.locals m.stateLocal = doneState then next else stuck + 1) ∧
      (runBlock cfg' b σ).store.log = .enter b :: σ.log ∧
      ∀ x < l0 + 2 * bands.length, (runBlock cfg' b σ).store.locals x = σ.locals x := by
  rw [runBlock_of block]
  refine ⟨?_, rfl, fun x hx => Function.update_of_ne (by omega) _ _⟩
  by_cases hd : σ.locals m.stateLocal = doneState
  · simp [execAll, Stmt.exec, leads, Store.note, ofBool, hd]
  · simp [execAll, Stmt.exec, leads, Store.note, ofBool, hd]

section
variable {σ : Store host} {b : ℕ}
variable (h : Looped hooks cfg cfg' r start ms bands n stuck hi l0)
include h

theorem Looped.step_check {rest : List Machine} (checks : CheckAt cfg' bands n stuck hi l0 b rest) (known : ∀ m ∈ rest, m ∈ ms)
    (hdone : ∀ m ∈ ms, m ∈ rest ∨ σ.locals m.stateLocal = doneState)
    (scan : Scanning hooks cfg cfg' r start ms bands n (scanStops bands) σ) :
    Held hooks cfg cfg' r start ms bands n stuck hi l0 (runBlock cfg' b σ) := by
  obtain ⟨h1, h2⟩ := h.loop.stuck_mem
  have hin : ∀ {b}, CheckBlock n stuck hi b → Executes n hi ms b ∧ b ≠ n + 3 := fun hb =>
    ⟨.inl ⟨by omega, by omega⟩, by omega⟩
  cases checks with
  | done mem block =>
    have hq : Quiet cfg cfg' ms n hi l0 σ (σ.note (.enter b)) ([] ++ [Event.enter b]) :=
      .of_block (hin mem).1 block (by simp) rfl (fun e he => absurd he List.not_mem_nil) fun _ _ _ => rfl
    rw [runBlock_of block]
    exact .exit (scan.toSettled.quiet h hq) fun m hm => (hdone m hm).resolve_left List.not_mem_nil
  | @check _ d next m rest mem temp block goOn =>
    have hm := known m List.mem_cons_self
    obtain ⟨hplace, hlog, hkeep⟩ := run_check σ temp block
    have hstate : ∀ m ∈ ms, (runBlock cfg' b σ).store.locals m.stateLocal = σ.locals m.stateLocal := fun m hm => by
      have hlt := (h.staged.locals.state_mem m hm).2.1
      exact hkeep _ (by omega)
    have hscan : Scanning hooks cfg cfg' r start ms bands n (scanStops bands) (runBlock cfg' b σ).store := by
      refine h.scanning_block [] scan (hin mem).1 (hin mem).2 block (by simp) hlog (fun e he => absurd he List.not_mem_nil)
        fun x hx => hkeep x (by omega)
    by_cases hd : σ.locals m.stateLocal = doneState
    · rw [if_pos hd] at hplace
      refine .of_place hplace (.check goOn (fun m' hm' => known m' (List.mem_cons_of_mem _ hm')) (fun m' hm' => ?_) hscan)
      rw [hstate m' hm']
      rcases hdone m' hm' with hrest | hfin
      · rcases List.mem_cons.mp hrest with rfl | hrest
        · exact .inr hd
        · exact .inl hrest
      · exact .inr hfin
    · rw [if_neg hd] at hplace
      exact .of_place hplace (.noProgress hscan ⟨m, hm, (hstate m hm).symm ▸ hd⟩)

theorem Looped.step_noProgress (scan : Scanning hooks cfg cfg' r start ms bands n (scanStops bands) σ)
    (waits : ∃ m ∈ ms, σ.locals m.stateLocal ≠ doneState) :
    Held hooks cfg cfg' r start ms bands n stuck hi l0 (runBlock cfg' (stuck + 1) σ) := by
  obtain ⟨h1, h2⟩ := h.loop.stuck_mem
  obtain ⟨d, hd, block⟩ := h.loop.noProgress
  have hE : Executes n hi ms (stuck + 1) := .inl ⟨by omega, by omega⟩
  have hlog : (runBlock cfg' (stuck + 1) σ).store.log = [] ++ .enter (stuck + 1) :: σ.log := by
    rw [runBlock_of block]
    rfl
  have hkeep : ∀ x < l0 + 2 * bands.length, (runBlock cfg' (stuck + 1) σ).store.locals x = σ.locals x := fun x hx => by
    rw [runBlock_of block]
    exact Function.update_of_ne (by omega) _ _
  have hscan : Scanning hooks cfg cfg' r start ms bands n (scanStops bands) (runBlock cfg' (stuck + 1) σ).store :=
    h.scanning_block [] scan hE (by omega) block (by simp) hlog (fun e he => absurd he List.not_mem_nil) fun x hx => hkeep x (by omega)
  have hplace : (runBlock cfg' (stuck + 1) σ).place = .block (if σ.locals cfg.locals.length = 1 then n + 3 else stuck) := by
    rw [runBlock_of block]
    by_cases hone : σ.locals cfg.locals.length = 1
    · simp [execAll, Stmt.exec, leads, Store.note, ofBool, hone]
    · simp [execAll, Stmt.exec, leads, Store.note, ofBool, hone]
  by_cases hone : σ.locals cfg.locals.length = 1
  · rw [if_pos hone] at hplace
    exact .of_place hplace (.top hscan.toSettled hscan.ordered)
  · rw [if_neg hone] at hplace
    have hprogress := h.staged.locals.progress_mem.2
    refine .of_place hplace (.stuck hscan ?_ fun hin => ?_)
    · obtain ⟨m, hm, hne⟩ := waits
      have hlt := (h.staged.locals.state_mem m hm).2.1
      exact ⟨m, hm, (hkeep _ (by omega)).trans_ne hne⟩
    · rcases hscan.flag with ⟨-, hone'⟩ | ⟨hnot, -⟩
      · exact hone ((hkeep _ (by omega)).symm.trans hone')
      · exact hnot hin

theorem Looped.unfinished (hs : Settled hooks cfg r start ms bands σ) (waits : ∃ m ∈ ms, σ.locals m.stateLocal ≠ doneState) :
    ∃ c ∈ r.coroutines, ¬Finished r c σ.log := by
  obtain ⟨m, hm, hne⟩ := waits
  obtain ⟨c, hd⟩ := h.staged.drives hm
  exact ⟨c, hd.mem.2, fun hfin => hne ((hs.finished_iff hd).mpr hfin)⟩

theorem Looped.all_finished (hs : Settled hooks cfg r start ms bands σ) :
    (∀ m ∈ ms, σ.locals m.stateLocal = doneState) ↔ ∀ c ∈ r.coroutines, Finished r c σ.log := by
  constructor
  · intro hdone c hc
    obtain ⟨m, hm, hd⟩ := h.staged.driven hc
    exact (hs.finished_iff hd).mp (hdone m hm)
  · intro hfin m hm
    obtain ⟨c, hd⟩ := h.staged.drives hm
    exact (hs.finished_iff hd).mpr (hfin c hd.mem.2)

theorem Looped.step_stuck (scan : Scanning hooks cfg cfg' r start ms bands n (scanStops bands) σ)
    (waits : ∃ m ∈ ms, σ.locals m.stateLocal ≠ doneState) :
    Held hooks cfg cfg' r start ms bands n stuck hi l0 (runBlock cfg' stuck σ) := by
  obtain ⟨h1, h2⟩ := h.loop.stuck_mem
  have hE : Executes n hi ms stuck := .inl ⟨by omega, by omega⟩
  have hblock := h.loop.stuck_block
  cases hdead : hooks.deadlock with
  | none =>
    rw [stuckBlock, hdead] at hblock
    have hq : Quiet cfg cfg' ms n hi l0 σ (σ.note (.enter stuck)) ([] ++ [Event.enter stuck]) :=
      .of_block hE hblock (by simp) rfl (fun e he => absurd he List.not_mem_nil) fun _ _ _ => rfl
    rw [runBlock_of hblock]
    exact .top (scan.toSettled.quiet h hq) (hq.ordered h scan.ordered fun _ _ _ => rfl)
  | some u =>
    rw [stuckBlock, hdead] at hblock
    obtain ⟨hregion, hlast⟩ := h.executes_ne hE
    obtain ⟨c, hc, hopen⟩ := h.unfinished scan.toSettled waits
    have hends : ∀ c ∈ r.coroutines, .enter c.last.1 ∉ ([.ran u, .enter stuck] : List (Event U)) := fun c hc hin => by
      simp only [List.mem_cons, List.not_mem_nil, or_false, Event.enter.injEq, reduceCtorEq, false_or] at hin
      exact hlast c hc hin.symm
    have hbegin : .enter r.regionBegin.1 ∉ ([.ran u, .enter stuck] : List (Event U)) := fun hin => by
      simp only [List.mem_cons, List.not_mem_nil, or_false, Event.enter.injEq, reduceCtorEq, false_or] at hin
      exact hregion hin.symm
    have hlog : (runBlock cfg' stuck σ).store.log = [Event.ran u, .enter stuck] ++ σ.log := by
      rw [runBlock_of hblock]
      rfl
    have hplace : (runBlock cfg' stuck σ).place = .dead := by
      rw [runBlock_of hblock]
      rfl
    refine .of_place hplace ?_
    refine .outside (fun b hb => by cases hb) ?_ ?_ (.inr ⟨c, hc, ?_⟩)
    · rw [hlog]
      exact scan.turns.append fun _ _ _ _ v => by simp
    · rw [hlog]
      exact scan.attended.append (fun _ _ v => by simp) hends
    · rw [hlog, finished_append_iff hbegin (hends c hc)]
      exact hopen

theorem Looped.step_exit (settled : Settled hooks cfg r start ms bands σ) :
    Held hooks cfg cfg' r start ms bands n stuck hi l0 (runBlock cfg' n σ) := by
  obtain ⟨h1, h2⟩ := h.loop.stuck_mem
  have hE : Executes n hi ms n := .inl ⟨le_rfl, by omega⟩
  have hq : Quiet cfg cfg' ms n hi l0 σ (σ.note (.enter n)) ([] ++ [Event.enter n]) :=
    .of_block hE h.loop.exit (by simp) rfl (fun e he => absurd he List.not_mem_nil) fun _ _ _ => rfl
  rw [runBlock_of h.loop.exit]
  refine .post (settled.quiet h hq) ?_
  have hne : (.enter n : Event U) ≠ .enter r.regionBegin.1 := fun heq => (h.executes_ne hE).1 (Event.enter.inj heq)
  exact (since_cons hne).symm ▸ List.mem_cons_self

theorem Looped.step_post (settled : Settled hooks cfg r start ms bands σ) (left : .enter n ∈ since r.regionBegin.1 σ.log) :
    Held hooks cfg cfg' r start ms bands n stuck hi l0 (runBlock cfg' (n + 1) σ) := by
  obtain ⟨h1, h2⟩ := h.loop.stuck_mem
  have hE : Executes n hi ms (n + 1) := .inl ⟨by omega, by omega⟩
  have hq : Quiet cfg cfg' ms n hi l0 σ (σ.note (.enter (n + 1))) ([] ++ [Event.enter (n + 1)]) :=
    .of_block hE h.loop.post (by simp) rfl (fun e he => absurd he List.not_mem_nil) fun _ _ _ => rfl
  have hs := settled.quiet h hq
  rw [runBlock_of h.loop.post]
  refine .outside (fun b hb => .behind settled.region (leads_successors _ _ hb)) hs.turns hs.attended (.inl ?_)
  have hne : (.enter (n + 1) : Event U) ≠ .enter r.regionBegin.1 := fun heq => (h.executes_ne hE).1 (Event.enter.inj heq)
  exact (since_cons hne).symm ▸ List.mem_cons_of_mem _ left

theorem Looped.step_init (settled : Settled hooks cfg r start ms bands σ)
    (fresh : ∀ m ∈ ms, ∀ v, .set m.pollResultLocal v ∉ since r.regionBegin.1 σ.log) :
    Held hooks cfg cfg' r start ms bands n stuck hi l0 (runBlock cfg' (n + 2) σ) := by
  obtain ⟨h1, h2⟩ := h.loop.stuck_mem
  have hE : Executes n hi ms (n + 2) := .inl ⟨by omega, by omega⟩
  have hlast : ∀ band ∈ bands, l0 ≤ band.last := fun band hband => by
    have hmem : band.last ∈ List.range' l0 bands.length := h.bands_at.last ▸ List.mem_map_of_mem hband
    exact (List.mem_range'_1.mp hmem).1
  obtain ⟨⟨new, hlog, hnew⟩, -, hkeep⟩ := execAll_assigns Band.last (-1) bands (σ.note (.enter (n + 2)))
  have hq : Quiet cfg cfg' ms n hi l0 σ (execAll (σ.note (.enter (n + 2))) (bands.map fun band => .assignI64 band.last (-1)))
      (new ++ [Event.enter (n + 2)]) := by
    refine .of_block hE h.loop.init (fun u => ?_) hlog (fun e he => ?_) fun x hx _ => ?_
    · rw [List.getElem?_map]
      cases bands[1]? <;> simp
    · obtain ⟨band, hband, rfl⟩ := hnew e he
      exact ⟨_, _, rfl, .inl (hlast band hband)⟩
    · refine hkeep x fun band hband heq => ?_
      have hle := hlast band hband
      omega
  rw [runBlock_of h.loop.init]
  refine .top (settled.quiet h hq) ?_
  rintro s hs s' hs' heq ⟨v, -, hin⟩
  rw [hq.log, mem_since_append (hq.region h), or_iff_right (hq.poll h (h.machine_mem hs) v)] at hin
  exact absurd hin (fresh _ (h.machine_mem hs) v)

theorem Looped.step_top (settled : Settled hooks cfg r start ms bands σ) (ordered : Ordered r ms bands σ.locals σ.log) :
    Held hooks cfg cfg' r start ms bands n stuck hi l0 (runBlock cfg' (n + 3) σ) := by
  obtain ⟨h1, h2⟩ := h.loop.stuck_mem
  have hprogress := h.staged.locals.progress_mem.2
  have hE : Executes n hi ms (n + 3) := .inl ⟨by omega, by omega⟩
  have hq : Quiet cfg cfg' ms n hi l0 σ ((σ.note (.enter (n + 3))).assign cfg.locals.length 0)
      ([Event.set cfg.locals.length 0] ++ [Event.enter (n + 3)]) := by
    refine .of_block hE h.loop.top (by simp) rfl (fun e he => ?_) fun x _ hx => Function.update_of_ne hx _ _
    exact ⟨_, _, List.mem_singleton.mp he, .inr ⟨rfl, rfl⟩⟩
  have hsince : since (n + 3) ((σ.note (.enter (n + 3))).assign cfg.locals.length 0).log = [.set cfg.locals.length 0] := by
    simp [Store.assign, Store.note, since_cons]
  rw [runBlock_of h.loop.top]
  refine h.held_scan [] rfl h.loop.scan ?_
  refine ⟨settled.quiet h hq, List.nil_subset _, hq.ordered h ordered fun x hx _ => Function.update_of_ne (by omega) _ _,
    fun m hm v hin => ?_, fun s hs => absurd hs List.not_mem_nil, .inr ⟨?_, Function.update_self _ _ _⟩, ?_⟩
  · have hin' : .set m.pollResultLocal v ∈ ([.set cfg.locals.length 0] : List (Event U)) := hsince ▸ hin
    have hne := (h.staged.locals.poll_mem m hm).2.2
    exact absurd (Event.set.inj (List.mem_singleton.mp hin')).1 hne
  · intro hin
    have hin' : .set cfg.locals.length 1 ∈ ([.set cfg.locals.length 0] : List (Event U)) := hsince ▸ hin
    simp at hin'
  · have hl : since (n + 3) (execAll (σ.note (.enter (n + 3))) [.assignI64 cfg.locals.length 0]).log =
        [.set cfg.locals.length 0] := hsince
    rw [hl]
    refine iff_of_false (by simp) ?_
    rintro ⟨b, -, hin⟩
    cases List.mem_singleton.mp hin

/-- What a block outside the coroutines leaves behind. -/
theorem Looped.keeps_outside (add : List (Event U)) (plain : Plain cfg r start b)
    (hadd : ∀ e ∈ add, e = .enter b ∨ e.Silent cfg.locals.length ∨ ∃ m ∈ ms, ∃ v, e = .set m.stateLocal v) :
    (∀ m ∈ ms, ∀ v, .set m.pollResultLocal v ∉ add) ∧ ∀ c ∈ r.coroutines, .enter c.last.1 ∉ add := by
  refine ⟨fun m hm v hin => ?_, fun c hc hin => ?_⟩
  · rcases hadd _ hin with heq | hsilent | ⟨m', hm', w, heq⟩
    · cases heq
    · have hle := (h.staged.locals.poll_mem m hm).1
      have hlt : m.pollResultLocal < cfg.locals.length := hsilent
      omega
    · exact h.staged.locals.state_poll m' hm' m hm (Event.set.inj heq).1.symm
  · rcases hadd _ hin with heq | hsilent | ⟨m', hm', w, heq⟩
    · have hlast : c.last.1 = b := Event.enter.inj heq
      have hbegin := (h.staged.marked.plain b plain).2 c hc (hlast ▸ .last)
      exact (h.staged.marked.last_ne hc).1 (hlast.trans hbegin)
    · exact hsilent
    · cases heq

theorem Looped.step_begin (hb : host.Below cfg.locals.length) (plain : Plain cfg r start r.regionBegin.1)
    (turns : TakesTurns r ms bands σ.log) (attended : Attended r ms σ.log) :
    Held hooks cfg cfg' r start ms bands n stuck hi l0 (runBlock cfg' r.regionBegin.1 σ) := by
  have hbelow : ∀ s ∈ (cfg.stmts r.regionBegin.1).take r.regionBegin.2 ++ [Stmt.nop], s.Below cfg.locals.length := fun s hs => by
    rcases List.mem_append.mp hs with hs | hs
    · exact h.staged.below _ h.staged.marked.region_lt.1 s (List.mem_of_mem_take hs)
    · rw [List.mem_singleton.mp hs]
      trivial
  obtain ⟨⟨new, hlog, hnew⟩, -⟩ := execAll_silent hb hbelow (σ.note (.enter r.regionBegin.1))
  obtain ⟨⟨inits, hlog', hinits⟩, hzero, -⟩ := execAll_assigns Machine.stateLocal 0 ms
    (execAll (σ.note (.enter r.regionBegin.1)) ((cfg.stmts r.regionBegin.1).take r.regionBegin.2 ++ [Stmt.nop]))
  have hrun : runBlock cfg' r.regionBegin.1 σ = ⟨.block (n + 2), execAll (execAll (σ.note (.enter r.regionBegin.1))
      ((cfg.stmts r.regionBegin.1).take r.regionBegin.2 ++ [Stmt.nop])) (ms.map fun m => .assignI64 m.stateLocal 0)⟩ := by
    rw [runBlock_of h.staged.head, execAll_append]
    rfl
  have hwhole : (runBlock cfg' r.regionBegin.1 σ).store.log = (inits ++ new) ++ .enter r.regionBegin.1 :: σ.log := by
    rw [hrun, hlog', hlog, List.append_assoc]
    rfl
  have hadd : ∀ e ∈ inits ++ new, e = .enter r.regionBegin.1 ∨ e.Silent cfg.locals.length ∨ ∃ m ∈ ms, ∃ v, e = .set m.stateLocal v :=
    fun e he => by
      rcases List.mem_append.mp he with he | he
      · obtain ⟨m, hm, heq⟩ := hinits e he
        exact .inr (.inr ⟨m, hm, 0, heq⟩)
      · exact .inr (.inl (hnew e he))
  obtain ⟨hpoll, hends⟩ := h.keeps_outside _ plain hadd
  obtain ⟨hpoll', hends'⟩ := h.keeps_outside ((inits ++ new) ++ [Event.enter r.regionBegin.1]) plain fun e he => by
    rcases List.mem_append.mp he with he | he
    · exact hadd e he
    · exact .inl (List.mem_singleton.mp he)
  have hnone : .enter r.regionBegin.1 ∉ inits ++ new := fun hin => by
    rcases List.mem_append.mp hin with hin | hin
    · obtain ⟨m, -, heq⟩ := hinits _ hin
      cases heq
    · exact hnew _ hin
  have hsince : since r.regionBegin.1 (runBlock cfg' r.regionBegin.1 σ).store.log = inits ++ new := by
    rw [hwhole, since_append hnone, since_enter, List.append_nil]
  have hwhole' : (runBlock cfg' r.regionBegin.1 σ).store.log = ((inits ++ new) ++ [Event.enter r.regionBegin.1]) ++ σ.log := by
    rw [hwhole, List.append_assoc _ [_]]
    rfl
  have hplace : (runBlock cfg' r.regionBegin.1 σ).place = .block (n + 2) := by rw [hrun]
  refine .of_place hplace (.init ⟨plain, fun m c hd => .inr ⟨⟨0, ?_, Nat.zero_le _, by decide⟩, ?_⟩, ?_, ?_⟩ ?_)
  · rw [hrun]
    exact hzero m hd.mem.1
  · rw [Finished, hsince]
    exact hends c hd.mem.2
  · rw [hwhole']
    exact turns.append fun band hband m hm => hpoll' m (h.member_mem hband hm)
  · rw [hwhole']
    exact attended.append hpoll' hends'
  · rw [hsince]
    exact hpoll

theorem Looped.step_outside {place : ℕ} (hb : host.Below cfg.locals.length) (plain : Plain cfg r start place)
    (turns : TakesTurns r ms bands σ.log) (attended : Attended r ms σ.log)
    (left : .enter n ∈ since r.regionBegin.1 σ.log ∨ ∃ c ∈ r.coroutines, ¬Finished r c σ.log) :
    Held hooks cfg cfg' r start ms bands n stuck hi l0 (runBlock cfg' place σ) := by
  by_cases hbegin : place = r.regionBegin.1
  · subst hbegin
    exact h.step_begin hb plain turns attended
  obtain ⟨⟨new, hlog, hnew⟩, -⟩ := execAll_silent hb (h.staged.below place (h.staged.marked.plain_lt plain)) (σ.note (.enter place))
  have hwhole : (runBlock cfg' place σ).store.log = (new ++ [Event.enter place]) ++ σ.log := by
    rw [runBlock_of (h.staged.plain place plain hbegin), List.append_assoc]
    exact hlog
  obtain ⟨hpoll, hends⟩ := h.keeps_outside (new ++ [Event.enter place]) plain fun e he => by
    rcases List.mem_append.mp he with he | he
    · exact .inr (.inl (hnew e he))
    · exact .inl (List.mem_singleton.mp he)
  have hregion : .enter r.regionBegin.1 ∉ new ++ [Event.enter place] := fun hin => by
    rcases List.mem_append.mp hin with hin | hin
    · exact hnew _ hin
    · exact hbegin (Event.enter.inj (List.mem_singleton.mp hin)).symm
  refine .of_place rfl (.outside (fun b' hb' => ?_) ?_ ?_ ?_)
  · rw [runBlock_of (h.staged.plain place plain hbegin)] at hb'
    exact .next plain hbegin (leads_successors _ _ hb')
  · rw [hwhole]
    exact turns.append fun band hband m hm => hpoll m (h.member_mem hband hm)
  · rw [hwhole]
    exact attended.append hpoll hends
  · rw [hwhole, mem_since_append hregion]
    refine left.imp .inr fun ⟨c, hc, hopen⟩ => ⟨c, hc, ?_⟩
    rw [finished_append_iff hregion (hends c hc)]
    exact hopen

/-- One step keeps what holds. -/
theorem Looped.step (hb : host.Below cfg.locals.length) {c c' : Conf host}
    (hc : Held hooks cfg cfg' r start ms bands n stuck hi l0 c) (hstep : Stackless.step cfg' c = some c')
    (hnot : Unmistaken cfg' ms c'.store.log) : Held hooks cfg cfg' r start ms bands n stuck hi l0 c' := by
  have hrun : ∀ {b : ℕ} {σ : Store host}, Stackless.step cfg' ⟨.block b, σ⟩ = some c' → runBlock cfg' b σ = c' := Option.some.inj
  cases hc with
  | @outside place σ plain turns attended left =>
    cases place with
    | block b =>
      rw [← hrun hstep]
      exact h.step_outside hb (plain b rfl) turns attended left
    | returned => cases hstep
    | dead => cases hstep
  | init settled fresh => exact hrun hstep ▸ h.step_init settled fresh
  | top settled ordered => exact hrun hstep ▸ h.step_top settled ordered
  | site split here goOn scan => exact hrun hstep ▸ h.step_site split here goOn scan
  | poll polling => exact hrun hstep ▸ h.step_poll polling
  | dispatch polling sweep waits => exact hrun hstep ▸ h.step_dispatch hb polling sweep waits
  | turn polling sweep waits hd hF lowered live =>
    rw [← hrun hstep] at hnot ⊢
    exact h.step_turn hb polling sweep waits hd hF lowered live (hnot _ hd.mem.1)
  | blocked split here goOn scan sweep result hb => exact hrun hstep ▸ h.step_blocked split here goOn scan sweep result hb
  | ran hs here settled ordered result hb => exact hrun hstep ▸ h.step_ran hs here settled ordered result hb
  | check checks known hdone scan => exact hrun hstep ▸ h.step_check checks known hdone scan
  | noProgress scan waits => exact hrun hstep ▸ h.step_noProgress scan waits
  | stuck scan waits shut => exact hrun hstep ▸ h.step_stuck scan waits
  | exit settled hdone => exact hrun hstep ▸ h.step_exit settled
  | post settled left => exact hrun hstep ▸ h.step_post settled left

end

end Krio.Stackless
