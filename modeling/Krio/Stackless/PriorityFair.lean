import Krio.Stackless.PriorityEnds

/-! Whole runs of a body with a priority loop: the members of a band take turns, the region is left once all coroutines
are finished, and the deadlock block is reached at the end of a scan in which all were polled and blocked. -/

namespace Krio.Stackless

open StateTransition

variable {U : Type} {host : Host U} {hooks : Hooks U} {cfg cfg' : Body U} {r : Region} {start : ℕ} {ms : List Machine}
  {bands : List Band} {n stuck hi l0 : ℕ}

theorem Unmistaken.of_suffix {log log' : List (Event U)} (h : Unmistaken cfg' ms log') (hsuf : log <:+ log') :
    Unmistaken cfg' ms log := fun m hm y res hs hin => h m hm y res hs (hsuf.subset hin)

section
variable {σ : Store host} {b : ℕ}
variable (h : Looped hooks cfg cfg' r start ms bands n stuck hi l0)
include h

theorem Looped.run (hb : host.Below cfg.locals.length) {c c' : Conf host} (hrun : Reaches (Stackless.step cfg') c c')
    (hc : Held hooks cfg cfg' r start ms bands n stuck hi l0 c) (hnot : Unmistaken cfg' ms c'.store.log) :
    Held hooks cfg cfg' r start ms bands n stuck hi l0 c' := by
  induction hrun with
  | refl => exact hc
  | tail _ hstep ih =>
    obtain ⟨new, hlog, -⟩ := step_log hstep
    exact h.step hb (ih (hnot.of_suffix (hlog ▸ List.suffix_append _ _))) hstep hnot

/-! ## The way out -/

/-- The blocks of a scan and of the check behind it. -/
def Scans (n hi : ℕ) (ms : List Machine) (b : ℕ) : Prop := Executes n hi ms b ∧ b ≠ n + 3

/-- A scan over machines that are done comes to the check. -/
theorem Looped.scan_through {rest : List Stop} (hscan : ScanAt cfg' ms bands n stuck l0 b rest) (hrest : ∀ s ∈ rest, s ∈ scanStops bands)
    (hdone : ∀ m ∈ ms, σ.locals m.stateLocal = doneState) :
    ∃ τ, Through cfg' (Scans n hi ms) ⟨.block b, σ⟩ ⟨.block (n + 4), τ⟩ ∧ ∀ m ∈ ms, τ.locals m.stateLocal = doneState := by
  induction hscan generalizing σ with
  | done => exact ⟨σ, .refl, hdone⟩
  | @stop s a b next rest here goOn ih =>
    have hs := hrest s List.mem_cons_self
    obtain ⟨hm, hl1, hl2, hw1, hw2⟩ := h.stop_locals hs
    have hrest' : ∀ s ∈ rest, s ∈ scanStops bands := fun s hs => hrest s (List.mem_cons_of_mem _ hs)
    have hsite := here.run_site σ
    by_cases hdue : s.Due (σ.locals s.last)
    · rw [if_pos hdue] at hsite
      have htemp := here.temp.1
      have hstate := (h.staged.locals.state_mem _ hm).2.1
      obtain ⟨hplace, -, -, hkeep⟩ := here.run_poll (σ.note (.enter b)) (by omega) (by omega)
      have hfin : (σ.note (.enter b)).locals s.machine.stateLocal = doneState := hdone _ hm
      rw [if_pos hfin] at hplace
      obtain ⟨τ, hthrough, hτ⟩ := ih (σ := (runBlock cfg' a.poll (σ.note (.enter b))).store) hrest' fun m hm => by
        have hlt := (h.staged.locals.state_mem m hm).2.1
        rw [hkeep _ (by omega) (by omega)]
        exact hdone m hm
      refine ⟨τ, .head (h.executes_scan here.mem.1) ?_, hτ⟩
      rw [Conf.eq_of hsite.1 hsite.2]
      refine .head (h.executes_scan here.mem.2.1) ?_
      rw [Conf.eq_of hplace rfl]
      exact hthrough
    · rw [if_neg hdue] at hsite
      obtain ⟨τ, hthrough, hτ⟩ := ih (σ := σ.note (.enter b)) hrest' hdone
      refine ⟨τ, .head (h.executes_scan here.mem.1) ?_, hτ⟩
      rw [Conf.eq_of hsite.1 hsite.2]
      exact hthrough

theorem Looped.scans_check (hb : CheckBlock n stuck hi b) : Scans n hi ms b := by
  obtain ⟨h1, h2⟩ := h.loop.stuck_mem
  exact ⟨.inl ⟨by omega, by omega⟩, by omega⟩

/-- The check comes to the exit where all machines are done. -/
theorem Looped.check_through {rest : List Machine} (hcheck : CheckAt cfg' bands n stuck hi l0 b rest) (hrest : ∀ m ∈ rest, m ∈ ms)
    (hdone : ∀ m ∈ ms, σ.locals m.stateLocal = doneState) :
    ∃ τ, Through cfg' (Scans n hi ms) ⟨.block b, σ⟩ ⟨.block n, τ⟩ := by
  induction hcheck generalizing σ with
  | @done b mem block =>
    refine ⟨σ.note (.enter b), .head (h.scans_check mem) ?_⟩
    rw [runBlock_of block]
    exact .refl
  | @check b d next m rest mem temp block goOn ih =>
    obtain ⟨hplace, -, hkeep⟩ := run_check σ temp block
    rw [if_pos (hdone m (hrest m List.mem_cons_self))] at hplace
    obtain ⟨τ, hthrough⟩ := ih (σ := (runBlock cfg' b σ).store) (fun m hm => hrest m (List.mem_cons_of_mem _ hm)) fun m hm => by
      have hlt := (h.staged.locals.state_mem m hm).2.1
      rw [hkeep _ (by omega)]
      exact hdone m hm
    refine ⟨τ, .head (h.scans_check mem) ?_⟩
    rw [Conf.eq_of hplace rfl]
    exact hthrough

/-- And to the end of the scan where one is not. -/
theorem Looped.check_waits {rest : List Machine} (hcheck : CheckAt cfg' bands n stuck hi l0 b rest) (hrest : ∀ m ∈ rest, m ∈ ms)
    (hwaits : ∃ m ∈ rest, σ.locals m.stateLocal ≠ doneState) :
    ∃ τ, Through cfg' (Scans n hi ms) ⟨.block b, σ⟩ ⟨.block (stuck + 1), τ⟩ ∧ τ.locals cfg.locals.length = σ.locals cfg.locals.length := by
  induction hcheck generalizing σ with
  | done mem block =>
    obtain ⟨m, hm, -⟩ := hwaits
    exact absurd hm List.not_mem_nil
  | @check b d next m rest mem temp block goOn ih =>
    obtain ⟨hplace, -, hkeep⟩ := run_check σ temp block
    have hprogress := h.staged.locals.progress_mem.2
    by_cases hd : σ.locals m.stateLocal = doneState
    · rw [if_pos hd] at hplace
      have hwaits' : ∃ m ∈ rest, (runBlock cfg' b σ).store.locals m.stateLocal ≠ doneState := by
        obtain ⟨m', hm', hne⟩ := hwaits
        have hin : m' ∈ rest := (List.mem_cons.mp hm').resolve_left fun heq => hne (heq ▸ hd)
        have hlt := (h.staged.locals.state_mem m' (hrest m' hm')).2.1
        refine ⟨m', hin, ?_⟩
        rw [hkeep _ (by omega)]
        exact hne
      obtain ⟨τ, hthrough, hflag⟩ := ih (fun m hm => hrest m (List.mem_cons_of_mem _ hm)) hwaits'
      refine ⟨τ, .head (h.scans_check mem) ?_, hflag.trans (hkeep _ (by omega))⟩
      rw [Conf.eq_of hplace rfl]
      exact hthrough
    · rw [if_neg hd] at hplace
      refine ⟨(runBlock cfg' b σ).store, .head (h.scans_check mem) ?_, hkeep _ (by omega)⟩
      rw [Conf.eq_of hplace rfl]
      exact .refl

/-- A scan over machines that are done leaves the region. -/
theorem Looped.exit_of_scan {rest : List Stop} (hscan : ScanAt cfg' ms bands n stuck l0 b rest)
    (hrest : ∀ s ∈ rest, s ∈ scanStops bands) (hdone : ∀ m ∈ ms, σ.locals m.stateLocal = doneState) :
    ∃ τ, Through cfg' (Executes n hi ms) ⟨.block b, σ⟩ ⟨.block n, τ⟩ := by
  obtain ⟨τ, hthrough, hτ⟩ := h.scan_through hscan hrest hdone
  obtain ⟨υ, hthrough'⟩ := h.check_through h.loop.checks (fun m hm => hm) hτ
  exact ⟨υ, (hthrough.trans hthrough').mono fun b hb => hb.1⟩

theorem Looped.exit_of_top (hdone : ∀ m ∈ ms, σ.locals m.stateLocal = doneState) :
    ∃ τ, Through cfg' (Executes n hi ms) ⟨.block (n + 3), σ⟩ ⟨.block n, τ⟩ := by
  obtain ⟨h1, h2⟩ := h.loop.stuck_mem
  obtain ⟨τ, hthrough⟩ := h.exit_of_scan (σ := (σ.note (.enter (n + 3))).assign cfg.locals.length 0) h.loop.scan (fun s hs => hs)
    fun m hm => (Function.update_of_ne (h.staged.locals.state_mem m hm).2.2 _ _).trans (hdone m hm)
  refine ⟨τ, .head (.inl ⟨by omega, by omega⟩) ?_⟩
  rw [runBlock_of h.loop.top]
  exact hthrough

theorem Looped.exit_of_blocked {passed rest : List Stop} {s : Stop} {a : StopBlocks} {next place : ℕ}
    (split : scanStops bands = passed ++ s :: rest) (here : ScanStop cfg' ms bands n stuck l0 s a b next)
    (goOn : ScanAt cfg' ms bands n stuck l0 next rest) (sweep : σ.locals s.sweep = s.half)
    (result : σ.locals s.machine.pollResultLocal = pollBlocked)
    (hb : place = s.machine.exitBb ∨ place = a.after ∨ place = a.passOn) (hdone : ∀ m ∈ ms, σ.locals m.stateLocal = doneState) :
    ∃ τ, Through cfg' (Executes n hi ms) ⟨.block place, σ⟩ ⟨.block n, τ⟩ := by
  have hs : s ∈ scanStops bands := split ▸ List.mem_append_right _ List.mem_cons_self
  obtain ⟨hm, hl1, hl2, hw1, hw2⟩ := h.stop_locals hs
  have htemp := here.temp.2
  obtain ⟨-, -, hPa, -, hPp, hPe⟩ := here.mem
  have hpass : ∀ {σ : Store host}, σ.locals s.sweep = s.half → (∀ m ∈ ms, σ.locals m.stateLocal = doneState) →
      ∃ τ, Through cfg' (Executes n hi ms) ⟨.block a.passOn, σ⟩ ⟨.block n, τ⟩ := fun {σ} sweep hdone => by
    obtain ⟨τ, hthrough⟩ := h.exit_of_scan (σ := σ.note (.enter a.passOn)) goOn
      (fun x hx => split ▸ List.mem_append_right _ (List.mem_cons_of_mem _ hx)) hdone
    refine ⟨τ, .head (h.executes_scan hPp).1 ?_⟩
    rw [here.run_passOn σ sweep]
    exact hthrough
  have hafter : ∀ {σ : Store host}, σ.locals s.sweep = s.half → σ.locals s.machine.pollResultLocal = pollBlocked →
      (∀ m ∈ ms, σ.locals m.stateLocal = doneState) →
      ∃ τ, Through cfg' (Executes n hi ms) ⟨.block a.after, σ⟩ ⟨.block n, τ⟩ := fun {σ} sweep result hdone => by
    obtain ⟨hplace, -, hkeep⟩ := here.run_after σ
    rw [if_pos result] at hplace
    obtain ⟨τ, hthrough⟩ := hpass (σ := (runBlock cfg' a.after σ).store) ((hkeep _ (by omega)).trans sweep) fun m hm => by
      have hlt := (h.staged.locals.state_mem m hm).2.1
      rw [hkeep _ (by omega)]
      exact hdone m hm
    refine ⟨τ, .head (h.executes_scan hPa).1 ?_⟩
    rw [Conf.eq_of hplace rfl]
    exact hthrough
  rcases hb with rfl | rfl | rfl
  · obtain ⟨hplace, hstore⟩ := here.run_exit σ
    obtain ⟨τ, hthrough⟩ := hafter (σ := σ.note (.enter s.machine.exitBb)) sweep result hdone
    refine ⟨τ, .head (h.executes_scan hPe).1 ?_⟩
    rw [Conf.eq_of hplace hstore]
    exact hthrough
  · exact hafter sweep result hdone
  · exact hpass sweep hdone

theorem Looped.exit_of_ran {s : Stop} {a : StopBlocks} {next place : ℕ} (hs : s ∈ scanStops bands)
    (here : ScanStop cfg' ms bands n stuck l0 s a b next) (result : σ.locals s.machine.pollResultLocal ≠ pollBlocked)
    (hb : place = s.machine.exitBb ∨ place = a.after ∨ place = a.ran) (hdone : ∀ m ∈ ms, σ.locals m.stateLocal = doneState) :
    ∃ τ, Through cfg' (Executes n hi ms) ⟨.block place, σ⟩ ⟨.block n, τ⟩ := by
  obtain ⟨hm, hl1, hl2, hw1, hw2⟩ := h.stop_locals hs
  have htemp := here.temp.2
  obtain ⟨-, -, hPa, hPr, -, hPe⟩ := here.mem
  have hran : ∀ {σ : Store host}, (∀ m ∈ ms, σ.locals m.stateLocal = doneState) →
      ∃ τ, Through cfg' (Executes n hi ms) ⟨.block a.ran, σ⟩ ⟨.block n, τ⟩ := fun {σ} hdone => by
    obtain ⟨τ, hthrough⟩ := h.exit_of_top (σ := (σ.note (.enter a.ran)).assign s.last s.index) fun m hm => by
      have hlt := (h.staged.locals.state_mem m hm).2.1
      exact (Function.update_of_ne (by omega) _ _).trans (hdone m hm)
    refine ⟨τ, .head (h.executes_scan hPr).1 ?_⟩
    rw [here.run_ran σ]
    exact hthrough
  have hafter : ∀ {σ : Store host}, σ.locals s.machine.pollResultLocal ≠ pollBlocked →
      (∀ m ∈ ms, σ.locals m.stateLocal = doneState) →
      ∃ τ, Through cfg' (Executes n hi ms) ⟨.block a.after, σ⟩ ⟨.block n, τ⟩ := fun {σ} result hdone => by
    obtain ⟨hplace, -, hkeep⟩ := here.run_after σ
    rw [if_neg result] at hplace
    obtain ⟨τ, hthrough⟩ := hran (σ := (runBlock cfg' a.after σ).store) fun m hm => by
      have hlt := (h.staged.locals.state_mem m hm).2.1
      rw [hkeep _ (by omega)]
      exact hdone m hm
    refine ⟨τ, .head (h.executes_scan hPa).1 ?_⟩
    rw [Conf.eq_of hplace rfl]
    exact hthrough
  rcases hb with rfl | rfl | rfl
  · obtain ⟨hplace, hstore⟩ := here.run_exit σ
    obtain ⟨τ, hthrough⟩ := hafter (σ := σ.note (.enter s.machine.exitBb)) result hdone
    refine ⟨τ, .head (h.executes_scan hPe).1 ?_⟩
    rw [Conf.eq_of hplace hstore]
    exact hthrough
  · exact hafter result hdone
  · exact hran hdone

/-- Once all coroutines are finished, control comes to the region's exit. -/
theorem Looped.reaches_exit (hb : host.Below cfg.locals.length) {c : Conf host}
    (hc : Held hooks cfg cfg' r start ms bands n stuck hi l0 c) (hnot : Unmistaken cfg' ms c.store.log)
    (hfin : ∀ co ∈ r.coroutines, Finished r co c.store.log) (hin : .enter n ∉ since r.regionBegin.1 c.store.log) :
    ∃ τ, Reaches (Stackless.step cfg') c ⟨.block n, τ⟩ := by
  have hdone : ∀ {σ : Store host}, Settled hooks cfg r start ms bands σ → (∀ co ∈ r.coroutines, Finished r co σ.log) →
      ∀ m ∈ ms, σ.locals m.stateLocal = doneState := fun hs => (h.all_finished hs).mpr
  cases hc with
  | outside plain turns attended left =>
    rcases left with hleft | ⟨co, hco, hopen⟩
    · exact absurd hleft hin
    · exact absurd (hfin co hco) hopen
  | @init σ settled fresh =>
    obtain ⟨-, -, hkeep⟩ := execAll_assigns Band.last (-1) bands (σ.note (.enter (n + 2)))
    obtain ⟨τ, hreach⟩ := h.exit_of_top (σ := execAll (σ.note (.enter (n + 2))) (bands.map fun band => .assignI64 band.last (-1)))
      fun m hm => by
        have hlt := (h.staged.locals.state_mem m hm).2.1
        refine (hkeep _ fun band hband heq => ?_).trans (hdone settled hfin m hm)
        have hmem : band.last ∈ List.range' l0 bands.length := h.bands_at.last ▸ List.mem_map_of_mem hband
        have hle := (List.mem_range'_1.mp hmem).1
        omega
    exact ⟨τ, .head (congrArg some (runBlock_of h.loop.init σ)) hreach.reaches⟩
  | top settled ordered =>
    obtain ⟨τ, hthrough⟩ := h.exit_of_top (hdone settled hfin)
    exact ⟨τ, hthrough.reaches⟩
  | site split here goOn scan =>
    obtain ⟨τ, hthrough⟩ := h.exit_of_scan (.stop here goOn) (fun x hx => split ▸ List.mem_append_right _ hx)
      (hdone scan.toSettled hfin)
    exact ⟨τ, hthrough.reaches⟩
  | @poll σ passed rest s a b next polling =>
    have hall := hdone polling.scan.toSettled hfin
    have hs : s ∈ scanStops bands := polling.split ▸ List.mem_append_right _ List.mem_cons_self
    obtain ⟨hm, hl1, hl2, hw1, hw2⟩ := h.stop_locals hs
    have htemp := polling.here.temp.1
    have hstate := (h.staged.locals.state_mem _ hm).2.1
    obtain ⟨hplace, -, -, hkeep⟩ := polling.here.run_poll σ (by omega) (by omega)
    rw [if_pos (hall _ hm)] at hplace
    obtain ⟨τ, hthrough⟩ := h.exit_of_scan (σ := (runBlock cfg' a.poll σ).store) polling.goOn
      (fun x hx => polling.split ▸ List.mem_append_right _ (List.mem_cons_of_mem _ hx)) fun m hm => by
        have hlt := (h.staged.locals.state_mem m hm).2.1
        rw [hkeep _ (by omega) (by omega)]
        exact hall m hm
    exact ⟨τ, .head (congrArg some (Conf.eq_of hplace rfl)) hthrough.reaches⟩
  | @dispatch σ passed rest s a b next polling sweep waits =>
    have hs : s ∈ scanStops bands := polling.split ▸ List.mem_append_right _ List.mem_cons_self
    exact absurd (hdone polling.scan.toSettled hfin _ (h.machine_mem hs)) waits
  | @turn σ₀ σ passed rest s a b next place F co entry done entries new polling sweep waits hd hF lowered live =>
    have hs : s ∈ scanStops bands := polling.split ▸ List.mem_append_right _ List.mem_cons_self
    obtain ⟨-, hopen⟩ := (polling.scan.status _ co hd).resolve_left fun hx => waits hx.1
    have hlog : σ.log = (new ++ [Event.enter s.machine.dispatchBb]) ++ σ₀.log := by
      rw [live.ran.log, List.append_assoc]
      rfl
    obtain ⟨hne, -, hlast⟩ := h.dispatch_ne hd.mem.1
    have hregion : .enter r.regionBegin.1 ∉ new ++ [Event.enter s.machine.dispatchBb] := fun hin => by
      rcases List.mem_append.mp hin with hin | hin
      · exact (live.ran.enters _ hin).region rfl
      · exact hne (Event.enter.inj (List.mem_singleton.mp hin)).symm
    -- the coroutine came to its end in this poll
    have hends : .enter co.last.1 ∈ new := by
      have hf : Finished r co ((new ++ [Event.enter s.machine.dispatchBb]) ++ σ₀.log) := hlog ▸ hfin co hd.mem.2
      refine (List.mem_append.mp (((mem_since_append hregion).mp hf).resolve_right hopen)).resolve_right fun hin => ?_
      exact hlast co hd.mem.2 (Event.enter.inj (List.mem_singleton.mp hin)).symm
    obtain rfl := live.ends.mpr hends
    obtain ⟨new', hplace, hpolled⟩ := live.ended h.staged hd hF lowered hb
    have hlog' : (runBlock cfg' place σ).store.log =
        [Event.set s.machine.stateLocal doneState, .set s.machine.pollResultLocal pollReady, .enter place] ++ σ.log := by
      rw [runBlock_of lowered.done_block]
      rfl
    obtain ⟨pre, post, hserved⟩ := hpolled.served h.staged hd fun y res hy hin => by
      rw [hlog', List.mem_append] at hin
      rcases hin with hin | hin
      · simp only [List.mem_cons, reduceCtorEq, Event.enter.injEq, List.not_mem_nil, or_false, false_or] at hin
        subst hin
        have heq := (lowered.done_block.symm.trans hy)
        simp only [Block.mk.injEq, List.cons.injEq, Stmt.assignI64.injEq] at heq
        exact h.staged.locals.state_poll _ hd.mem.1 _ hd.mem.1 heq.1.1.1.symm
      · exact hnot _ hd.mem.1 y res hy hin
    have hsettled := hserved.settled h hd polling.scan polling.split polling.due hopen
    have hfin' : ∀ co ∈ r.coroutines, Finished r co (runBlock cfg' place σ).store.log := fun co' hco' => by
      rw [hlog']
      refine (hfin co' hco').append fun hin => ?_
      simp only [List.mem_cons, reduceCtorEq, Event.enter.injEq, List.not_mem_nil, or_false, false_or] at hin
      have hle := (hF _ lowered.done_mem).1
      have hlt := h.staged.marked.region_lt.1
      omega
    obtain ⟨τ, hreach⟩ := h.exit_of_ran (σ := (runBlock cfg' place σ).store) hs polling.here (hserved.result.trans_ne (by decide))
      (.inl rfl) (hdone hsettled hfin')
    exact ⟨τ, .head (congrArg some (Conf.eq_of hplace rfl)) hreach.reaches⟩
  | blocked split here goOn scan sweep result hb =>
    obtain ⟨τ, hthrough⟩ := h.exit_of_blocked split here goOn sweep result hb (hdone scan.toSettled hfin)
    exact ⟨τ, hthrough.reaches⟩
  | ran hs here settled ordered result hb =>
    obtain ⟨τ, hthrough⟩ := h.exit_of_ran hs here result hb (hdone settled hfin)
    exact ⟨τ, hthrough.reaches⟩
  | check checks known hall scan =>
    obtain ⟨τ, hthrough⟩ := h.check_through checks known (hdone scan.toSettled hfin)
    exact ⟨τ, hthrough.reaches⟩
  | noProgress scan waits =>
    obtain ⟨m, hm, hne⟩ := waits
    exact absurd (hdone scan.toSettled hfin m hm) hne
  | stuck scan waits shut =>
    obtain ⟨m, hm, hne⟩ := waits
    exact absurd (hdone scan.toSettled hfin m hm) hne
  | exit settled hall => exact ⟨_, .refl⟩
  | post settled left => exact absurd left hin

/-! ## Where control is -/

/-- What holds at the exit, at the check and at the deadlock block. -/
theorem Looped.at_end (hc : Held hooks cfg cfg' r start ms bands n stuck hi l0 ⟨.block b, σ⟩) :
    (b = n → Settled hooks cfg r start ms bands σ ∧ ∀ m ∈ ms, σ.locals m.stateLocal = doneState) ∧
      (b = n + 4 → Scanning hooks cfg cfg' r start ms bands n (scanStops bands) σ) ∧
      (b = stuck → Scanning hooks cfg cfg' r start ms bands n (scanStops bands) σ ∧
        (∃ m ∈ ms, σ.locals m.stateLocal ≠ doneState) ∧ .set cfg.locals.length 1 ∉ since (n + 3) σ.log) := by
  obtain ⟨h1, h2⟩ := h.loop.stuck_mem
  have hscan : ∀ {b}, ScanBlock n stuck ms b → b ≠ n ∧ b ≠ n + 4 ∧ b ≠ stuck := fun hb => by
    rcases hb with hb | ⟨m, hm, rfl⟩
    · omega
    · have hlt := h.exits m hm
      omega
  have hout : ∀ {b}, ¬Executes n hi ms b → b ≠ n ∧ b ≠ n + 4 ∧ b ≠ stuck := fun hb => by
    refine ⟨fun heq => hb (.inl ?_), fun heq => hb (.inl ?_), fun heq => hb (.inl ?_)⟩ <;> omega
  have hnone : ∀ {P Q R : Prop}, b ≠ n ∧ b ≠ n + 4 ∧ b ≠ stuck → (b = n → P) ∧ (b = n + 4 → Q) ∧ (b = stuck → R) := fun hb =>
    ⟨fun heq => absurd heq hb.1, fun heq => absurd heq hb.2.1, fun heq => absurd heq hb.2.2⟩
  cases hc with
  | outside plain turns attended left =>
    have hlt := h.staged.marked.plain_lt (plain b rfl)
    exact hnone (hout fun hE => by have hle := h.staged.new b hE; omega)
  | init settled fresh => exact hnone ⟨by omega, by omega, by omega⟩
  | top settled ordered => exact hnone ⟨by omega, by omega, by omega⟩
  | site split here goOn scan => exact hnone (hscan here.mem.1)
  | poll polling => exact hnone (hscan polling.here.mem.2.1)
  | dispatch polling sweep waits =>
    have hs := polling.split ▸ List.mem_append_right _ List.mem_cons_self
    exact hnone (hout (h.staged.dispatch _ (h.machine_mem hs)).2)
  | turn polling sweep waits hd hF lowered live => exact hnone (hout (h.staged.aside hd hF lowered live.going live.part).executor)
  | blocked split here goOn scan sweep result hb =>
    obtain ⟨-, -, hPa, -, hPp, hPe⟩ := here.mem
    rcases hb with rfl | rfl | rfl
    · exact hnone (hscan hPe)
    · exact hnone (hscan hPa)
    · exact hnone (hscan hPp)
  | ran hs here settled ordered result hb =>
    obtain ⟨-, -, hPa, hPr, -, hPe⟩ := here.mem
    rcases hb with rfl | rfl | rfl
    · exact hnone (hscan hPe)
    · exact hnone (hscan hPa)
    · exact hnone (hscan hPr)
  | check checks known hdone scan =>
    have hb : CheckBlock n stuck hi b := by
      cases checks with
      | done mem _ => exact mem
      | check mem _ _ _ => exact mem
    exact ⟨fun heq => by omega, fun _ => scan, fun heq => by omega⟩
  | noProgress scan waits => exact hnone ⟨by omega, by omega, by omega⟩
  | stuck scan waits shut => exact ⟨fun heq => by omega, fun heq => by omega, fun _ => ⟨scan, waits, shut⟩⟩
  | exit settled hdone => exact ⟨fun _ => ⟨settled, hdone⟩, fun heq => by omega, fun heq => by omega⟩
  | post settled left => exact hnone ⟨by omega, by omega, by omega⟩

/-- The turns that were taken, wherever control is. -/
theorem Looped.takes_turns {c : Conf host} (hc : Held hooks cfg cfg' r start ms bands n stuck hi l0 c) :
    TakesTurns r ms bands c.store.log := by
  cases hc with
  | outside plain turns attended left => exact turns
  | init settled fresh => exact settled.turns
  | top settled ordered => exact settled.turns
  | site split here goOn scan => exact scan.turns
  | poll polling => exact polling.scan.turns
  | dispatch polling sweep waits => exact polling.scan.turns
  | @turn σ₀ σ passed rest s a b next place F co entry done entries new polling sweep waits hd hF lowered live =>
    have hlog : σ.log = (new ++ [Event.enter s.machine.dispatchBb]) ++ σ₀.log := by
      rw [live.ran.log, List.append_assoc]
      rfl
    rw [hlog]
    refine polling.scan.turns.append fun band hband m hm v hin => ?_
    obtain ⟨hle, -, hne⟩ := h.staged.locals.poll_mem m (h.member_mem hband hm)
    rcases List.mem_append.mp hin with hin | hin
    · rcases live.ran.stores _ _ hin with hlt | ⟨heq, -⟩
      · omega
      · exact hne heq
    · cases List.mem_singleton.mp hin
  | blocked split here goOn scan sweep result hb => exact scan.turns
  | ran hs here settled ordered result hb => exact settled.turns
  | check checks known hdone scan => exact scan.turns
  | noProgress scan waits => exact scan.turns
  | stuck scan waits shut => exact scan.turns
  | exit settled hdone => exact settled.turns
  | post settled left => exact settled.turns

/-- At the end of a scan, every coroutine that is not finished was polled in it, and blocked. -/
theorem Looped.polled_blocked (hs : Scanning hooks cfg cfg' r start ms bands n (scanStops bands) σ) {m : Machine} {c : Coroutine}
    (hd : Drives r ms m c) (hopen : ¬Finished r c σ.log) : PolledBlocked (n + 3) m σ.log := by
  obtain ⟨s, hmem, rfl, -⟩ := h.bands_at.first_of_mem hd.mem.1
  have hpolled : ∀ x ∈ scanStops bands, x.machine = s.machine → x.Due (σ.locals x.last) → PolledBlocked (n + 3) s.machine σ.log :=
    fun x hx hm hdue => by
      rw [← hm] at hd ⊢
      exact (hs.passed x hx hdue c hd).resolve_left hopen
  by_cases hdue : s.Due (σ.locals s.last)
  · exact hpolled s hmem rfl hdue
  · exact hpolled s.twin (twin_mem hmem) rfl (Stop.due_twin.mpr hdue)

end

/-! ## Runs -/

/-- Some coroutine is unfinished, and in the scan from `top` on each of them was polled and blocked, and no guard was
    passed. -/
structure ShutOut (cfg' : Body U) (r : Region) (ms : List Machine) (progress top : ℕ) (log : List (Event U)) : Prop where
  unfinished : ∃ c ∈ r.coroutines, ¬Finished r c log
  blocked : ∀ m c, Drives r ms m c → ¬Finished r c log → PolledBlocked top m log
  guards : ¬GuardPassed cfg' progress (since top log)

/-- What a priority loop has kept to in a run that has come to `c`. -/
structure KeepsTurns (cfg' : Body U) (r : Region) (ms : List Machine) (progress : ℕ) (loop : Loop) (c : Conf host) : Prop where
  /-- Between two polls of a coroutine that ended unblocked, every other unfinished one of its band was polled. -/
  turns : ∀ band ∈ bandsOf r r.coroutines.length, ∀ i ∈ band, ∀ j ∈ band, i ≠ j → ∀ m m' co, ms[i]? = some m → ms[j]? = some m' →
    r.coroutines[j]? = some co → ∀ new v' mid v old,
      c.store.log = new ++ .set m.pollResultLocal v' :: (mid ++ .set m.pollResultLocal v :: old) → v' ≠ pollBlocked →
      v ≠ pollBlocked → .enter r.regionBegin.1 ∉ mid → .enter m'.dispatchBb ∈ mid ∨ Finished r co old
  /-- The region is left by its exit when all coroutines are finished. -/
  exit_only : c.place = .block loop.regionExitBb → ∀ co ∈ r.coroutines, Finished r co c.store.log
  exits : (∀ co ∈ r.coroutines, Finished r co c.store.log) → .enter loop.regionExitBb ∉ since r.regionBegin.1 c.store.log →
    ∃ τ, Reaches (step cfg') c ⟨.block loop.regionExitBb, τ⟩
  /-- The deadlock block comes at the end of a scan in which all unfinished coroutines were shut out. -/
  stuck_only : c.place = .block loop.stuckBb → ShutOut cfg' r ms progress loop.loopBb c.store.log
  stuck : c.place = .block loop.currentBb → ShutOut cfg' r ms progress loop.loopBb c.store.log →
    ∃ τ add, Reaches (step cfg') c ⟨.block loop.stuckBb, τ⟩ ∧ τ.log = add ++ c.store.log ∧ .enter loop.loopBb ∉ add

theorem Looped.mates (h : Looped hooks cfg cfg' r start ms bands n stuck hi l0) {band : List ℕ}
    (hband : band ∈ bandsOf r r.coroutines.length) {i j : ℕ} (hi' : i ∈ band) (hj : j ∈ band) (hij : i ≠ j) {m m' : Machine}
    (hm : ms[i]? = some m) (hm' : ms[j]? = some m') : Mates bands m m' := by
  rw [← h.staged.count] at hband
  have hmem : band.filterMap (ms[·]?) ∈ bands.map (·.members) := by
    rw [h.bands_at.members]
    exact List.mem_map_of_mem hband
  obtain ⟨b, hb, heq⟩ := List.mem_map.mp hmem
  refine ⟨b, hb, ?_, ?_, fun hmm => ?_⟩
  · rw [heq]
    exact List.mem_filterMap.mpr ⟨i, hi', hm⟩
  · rw [heq]
    exact List.mem_filterMap.mpr ⟨j, hj, hm'⟩
  · exact h.staged.locals.state_inj i j m m' hm hm' hij (congrArg Machine.stateLocal hmm)

theorem Looped.keepsTurns (h : Looped hooks cfg cfg' r start ms bands n stuck hi l0) (hb : host.Below cfg.locals.length) {c : Conf host}
    (hc : Held hooks cfg cfg' r start ms bands n stuck hi l0 c) (hnot : Unmistaken cfg' ms c.store.log) :
    KeepsTurns cfg' r ms cfg.locals.length ⟨n + 3, n, n + 4, stuck⟩ c := by
  have hat : ∀ {b : ℕ}, c.place = .block b → Held hooks cfg cfg' r start ms bands n stuck hi l0 ⟨.block b, c.store⟩ := fun hp =>
    hp ▸ hc
  refine ⟨fun band hband i hi' j hj hij m m' co hm hm' hco => ?_, fun hp => ?_, h.reaches_exit hb hc hnot, fun hp => ?_, fun hp hshut => ?_⟩
  · exact h.takes_turns hc m m' co (h.mates hband hi' hj hij hm hm') ⟨j, hco, hm'⟩
  · obtain ⟨hs, hdone⟩ := (h.at_end (hat hp)).1 rfl
    exact (h.all_finished hs).mp hdone
  · obtain ⟨hs, hwaits, hshut⟩ := (h.at_end (hat hp)).2.2 rfl
    exact ⟨h.unfinished hs.toSettled hwaits, fun m co hd hopen => h.polled_blocked hs hd hopen, fun hg => hshut (hs.guards.mpr hg)⟩
  · have hs := (h.at_end (hat hp)).2.1 rfl
    obtain ⟨h1, h2⟩ := h.loop.stuck_mem
    obtain ⟨co, hco, hopen⟩ := hshut.unfinished
    obtain ⟨m, hm, hd⟩ := h.staged.driven hco
    obtain ⟨τ, hthrough, hflag⟩ := h.check_waits (σ := c.store) h.loop.checks (fun m hm => hm)
      ⟨m, hm, fun heq => hopen ((hs.finished_iff hd).mp heq)⟩
    have hzero : τ.locals cfg.locals.length = 0 := by
      rcases hs.flag with ⟨hin, -⟩ | ⟨-, hzero⟩
      · exact absurd (hs.guards.mp hin) hshut.guards
      · exact hflag.trans hzero
    obtain ⟨d, -, block⟩ := h.loop.noProgress
    have hrun : (runBlock cfg' (stuck + 1) τ).place = .block stuck := by
      rw [runBlock_of block]
      simp [execAll, Stmt.exec, leads, Store.note, ofBool, hzero]
    have hthrough' : Through cfg' (Scans n hi ms) ⟨.block (n + 4), c.store⟩ ⟨.block stuck, (runBlock cfg' (stuck + 1) τ).store⟩ := by
      refine hthrough.trans (.head ⟨.inl ⟨by omega, by omega⟩, by omega⟩ ?_)
      rw [Conf.eq_of hrun rfl]
      exact .refl
    obtain ⟨add, hlog, hadd⟩ := hthrough'.log
    rw [← Conf.eq_of hp rfl] at hthrough'
    exact ⟨_, add, hthrough'.reaches, hlog, fun hin => (hadd _ hin).2 rfl⟩

theorem Looped.held_start (h : Looped hooks cfg cfg' r start ms bands n stuck hi l0) {σ : Store host} (hlog : σ.log = []) :
    Held hooks cfg cfg' r start ms bands n stuck hi l0 ⟨.block start, σ⟩ := by
  refine .outside (fun b hb => At.block.inj hb ▸ .start) ?_ ?_ (.inr ?_)
  · intro m m' c' _ _ new v' mid v old heq
    rw [hlog] at heq
    exact absurd heq (by simp)
  · intro m c m' _ _ _ new v old heq
    rw [hlog] at heq
    exact absurd heq (by simp)
  · obtain ⟨c, hc⟩ := List.exists_mem_of_ne_nil _ h.staged.marked.nonempty
    refine ⟨c, hc, ?_⟩
    rw [hlog]
    exact List.not_mem_nil

/-- In every run that suspends no coroutine at the point whose number stands for a finished one, a priority loop lets all
    members of a band take turns, leaves the region when all coroutines are finished, and finds a deadlock when all
    that are not were shut out. -/
theorem priority_loop_keeps_turns (h : Marked hooks cfg r start) (hp : r.coroutines.any (·.priority.isSome) = true)
    (hbelow : ∀ b < cfg.next, ∀ s ∈ cfg.stmts b, s.Below cfg.locals.length) (loops : List Loop) :
    ∃ cfg' loop, transformRegion hooks (cooperative hooks) loops cfg r = (loops ++ [loop], cfg') ∧
      ∀ host : Host U, host.Below cfg.locals.length → ∀ (σ : Store host) (c : Conf host), σ.log = [] →
        Reaches (step cfg') ⟨.block start, σ⟩ c → Unmistaken cfg' (machinesOf hooks cfg r).1 c.store.log →
        KeepsTurns cfg' r (machinesOf hooks cfg r).1 cfg.locals.length loop c := by
  obtain ⟨cfg', bands, n, stuck, hi, l0, heq, hl⟩ := h.looped hp hbelow loops
  refine ⟨cfg', _, heq, fun host hb σ c hlog hreach hnot => ?_⟩
  exact hl.keepsTurns hb (hl.run hb hreach (hl.held_start hlog) hnot) hnot

/-! ## A coroutine with many points -/

section
variable {p : Option UInt32} {N t : ℕ} {m : Machine} {cfg' : Body (Option Marker)} {host : Host (Option Marker)}
variable (h : Looped (chainHooks p) (yieldChain N t) cfg' (chainRegion p N) 0 [m] bands n stuck hi l0)
include h

/-- The scan of the chain's one machine. -/
theorem Looped.chain_stops : ∃ last sweep, bands.length = 1 ∧ bands.map (·.last) = [last] ∧
    scanStops bands = [⟨m, last, sweep, 1, 0, false⟩, ⟨m, last, sweep, 1, 0, true⟩] := by
  have hmembers := h.bands_at.members
  have hbands : (bandsOf (chainRegion p N) [m].length).map (·.filterMap ([m][·]?)) = [[m]] := rfl
  rw [hbands] at hmembers
  obtain ⟨band, rest, rfl, hband, hrest⟩ := List.map_eq_cons_iff.mp hmembers
  obtain rfl := List.map_eq_nil_iff.mp hrest
  refine ⟨band.last, band.sweep, rfl, rfl, ?_⟩
  rw [scanStops, List.flatMap_singleton, Band.stops, Band.stops, hband]
  rfl

/-- The first block behind the begin marker yields, at the point with the greatest number. -/
theorem Looped.chain_yields (host : Host (Option Marker)) (hN : 1 ≤ N) : ∃ y, Suspends cfg' m y N pollPending ∧ (yieldChain N t).next ≤ y ∧
    cfg'.block (N + 2) = ⟨[.nop], .goto y⟩ ∧
    (∀ σ : Store host, σ.locals m.stateLocal = 0 → runBlock cfg' m.dispatchBb σ = ⟨.block 1, σ.note (.enter m.dispatchBb)⟩) ∧
    ∃ l, cfg'.block 1 = ⟨l, .goto (N + 2)⟩ := by
  have hd : Drives (chainRegion p N) [m] m (chainCoroutine p N) := ⟨0, rfl, rfl⟩
  obtain ⟨F, entry, entries, done, hF, hl⟩ := h.staged.lowered m _ hd
  have hmarked := h.staged.marked
  have hc : chainCoroutine p N ∈ (chainRegion p N).coroutines := List.mem_singleton_self _
  have hentry : entry = 1 := by
    rcases hl.entry_mem with ⟨-, heq⟩ | ⟨heq, -⟩
    · exact heq
    · cases heq
  have hmem : (⟨N + 2, 0, .yield⟩ : Point) ∈ findSuspensionPoints (chainHooks p) (yieldChain N t) (chainCoroutine p N) := by
    refine (hmarked.mem_points hc).mpr ⟨chain_reached (b := N + 2) (by omega) le_rfl, .yield, ?_, rfl⟩
    simp [Hooks.classifyMarker, Cfg.stmts, chain_block, Hooks.classify, chainHooks, show N ≠ 0 by omega]
  obtain ⟨j, hj⟩ := List.mem_iff_getElem?.mp hmem
  have hjN : j + 1 = N := by
    have hbb := congrArg (Option.map (·.bb)) hj
    rw [← List.getElem?_map, chain_points, Option.map_some, List.getElem?_eq_some_iff] at hbb
    obtain ⟨hlt, hval⟩ := hbb
    rw [List.getElem_range'] at hval
    have hval' : 3 + 1 * j = N + 2 := hval
    omega
  have hjlt : j < entries.length := hl.count ▸ (List.getElem?_eq_some_iff.mp hj).1
  cases hl.sites j _ _ hj (List.getElem?_eq_getElem hjlt) with
  | @yield y e _ hy _ suspends head _ =>
    refine ⟨y, hjN ▸ suspends, (hF y hy).1, head, fun σ hzero => ?_, ?_⟩
    · rcases hl.dispatches with ⟨hnil, -⟩ | ⟨-, hblock⟩
      · rw [hnil] at hmem
        exact absurd hmem List.not_mem_nil
      · rw [runBlock_of hblock]
        have hget : (entry :: entries)[0]? = some entry := rfl
        have htarget : switchTarget (σ.locals m.stateLocal) m.exitBb (stateTargets (entry :: entries)) = entry := by
          rw [hzero]
          exact switchTarget_state hget
        refine Conf.eq_of (congrArg At.block ?_) rfl
        exact htarget.trans hentry
    · have hblock := hl.entry_block
      rw [hentry] at hblock
      exact ⟨_, hblock⟩
  | send kind => cases kind
  | guard kind => cases kind

/-- The chain runs up to its first suspension. -/
theorem Looped.chain_suspends (hN : 1 ≤ N) (σ : Store host) :
    ∃ τ, Through cfg' (· ≠ N + 3) ⟨.block 0, σ⟩ ⟨.block m.exitBb, τ⟩ ∧ τ.locals m.stateLocal = N ∧
      τ.locals m.pollResultLocal = pollPending := by
  obtain ⟨y, hsuspends, hy, hpoint, hdispatch, lead, hentry⟩ := h.chain_yields host hN
  obtain ⟨last, sweep, hlen, hlasts, hstops⟩ := h.chain_stops
  have hd : Drives (chainRegion p N) [m] m (chainCoroutine p N) := ⟨0, rfl, rfl⟩
  have hnext : (yieldChain N t).next = N + 6 := rfl
  obtain ⟨h1, h2⟩ := h.loop.stuck_mem
  have hE : ∀ {b}, Executes n hi [m] b → b ≠ N + 3 := fun hb => by
    have hle := h.staged.new _ hb
    omega
  obtain ⟨-, hstate, hprogress⟩ := h.staged.locals.state_mem m hd.mem.1
  have hlist : last ∈ List.range' l0 bands.length := by
    rw [← h.bands_at.last, hlasts]
    exact List.mem_singleton_self _
  rw [List.mem_range'_1] at hlist
  have hscan := h.loop.scan
  have htop := h.loop.top
  rw [hstops] at hscan
  generalize scanHead (n + 4) bands = b₀ at hscan htop
  cases hscan with
  | @stop s a b next rest here goOn =>
    have hsweep : l0 + bands.length ≤ sweep ∧ sweep < l0 + 2 * bands.length :=
      (h.stop_locals (s := ⟨m, last, sweep, 1, 0, false⟩) (hstops ▸ List.mem_cons_self)).2.2.2
    -- the states start at 0, and no member has run
    let σ₁ := execAll (σ.note (.enter 0)) (([] : List (Stmt (Option Marker))) ++ [Stmt.nop] ++ stateInits [m])
    have h₁ : runBlock cfg' 0 σ = ⟨.block (n + 2), σ₁⟩ := runBlock_of h.staged.head σ
    have hz₁ : σ₁.locals m.stateLocal = 0 := Function.update_self _ _ _
    let σ₂ := execAll (σ₁.note (.enter (n + 2))) (bands.map fun band => .assignI64 band.last (-1))
    have h₂ : runBlock cfg' (n + 2) σ₁ = ⟨.block (n + 3), σ₂⟩ := runBlock_of h.loop.init σ₁
    obtain ⟨-, hset, hkeep₂⟩ := execAll_assigns Band.last (-1) bands (σ₁.note (.enter (n + 2)))
    have hmemlast : ∀ band ∈ bands, band.last = last := fun band hband => by
      have hin : band.last ∈ bands.map (·.last) := List.mem_map_of_mem hband
      rw [hlasts] at hin
      exact List.mem_singleton.mp hin
    have hz₂ : σ₂.locals m.stateLocal = 0 := by
      refine (hkeep₂ _ fun band hband heq => ?_).trans hz₁
      have hl := hmemlast band hband
      omega
    have hl₂ : σ₂.locals last = -1 := by
      obtain ⟨band, hband⟩ := List.exists_mem_of_length_pos (l := bands) (by omega)
      have heq := hset band hband
      rwa [hmemlast band hband] at heq
    -- the scan comes to the machine and polls it
    let σ₃ := (σ₂.note (.enter (n + 3))).assign (yieldChain N t).locals.length 0
    have h₃ : runBlock cfg' (n + 3) σ₂ = ⟨.block b₀, σ₃⟩ := runBlock_of htop σ₂
    have hz₃ : σ₃.locals m.stateLocal = 0 := (Function.update_of_ne hprogress _ _).trans hz₂
    have hprog := h.staged.locals.progress_mem.2
    have hl₃ : σ₃.locals last = -1 := (Function.update_of_ne (by omega) _ _).trans hl₂
    have hdue : Stop.Due ⟨m, last, sweep, 1, 0, false⟩ (σ₃.locals last) := by
      rw [hl₃]
      simp [Stop.Due, Stop.later]
    obtain ⟨hp₄, hs₄⟩ := here.run_site σ₃
    rw [if_pos hdue] at hp₄
    have htemp := here.temp.1
    obtain ⟨hp₅, -, -, hkeep₅⟩ := here.run_poll (σ₃.note (.enter b₀)) (show a.done ≠ sweep by omega)
      (show m.stateLocal ≠ sweep by omega)
    have hz₄ : (σ₃.note (.enter b₀)).locals m.stateLocal = 0 := hz₃
    rw [if_neg (by rw [hz₄]; decide)] at hp₅
    let σ₅ := (runBlock cfg' a.poll (σ₃.note (.enter b₀))).store
    have hz₅ : σ₅.locals m.stateLocal = 0 := (hkeep₅ _ (show m.stateLocal ≠ sweep by omega) (by omega)).trans hz₄
    -- the machine enters its coroutine and comes to the first yield
    let σ₆ := σ₅.note (.enter m.dispatchBb)
    let σ₇ := execAll (σ₆.note (.enter 1)) lead
    have h₇ : runBlock cfg' 1 σ₆ = ⟨.block (N + 2), σ₇⟩ := runBlock_of hentry σ₆
    let σ₈ := σ₇.note (.enter (N + 2))
    have h₈ : runBlock cfg' (N + 2) σ₇ = ⟨.block y, σ₈⟩ := runBlock_of hpoint σ₇
    let σ₉ := ((σ₈.note (.enter y)).assign m.stateLocal N).assign m.pollResultLocal pollPending
    have h₉ : runBlock cfg' y σ₈ = ⟨.block m.exitBb, σ₉⟩ := runBlock_of hsuspends σ₈
    have hdisp := (h.staged.dispatch m hd.mem.1).1
    refine ⟨σ₉, ?_, ?_, Function.update_self _ _ _⟩
    · refine .head (by omega) ?_
      rw [h₁]
      refine .head (hE (.inl ⟨by omega, by omega⟩)) ?_
      rw [h₂]
      refine .head (hE (.inl ⟨by omega, by omega⟩)) ?_
      rw [h₃]
      refine .head (hE (h.executes_scan here.mem.1).1) ?_
      rw [Conf.eq_of hp₄ hs₄]
      refine .head (hE (h.executes_scan here.mem.2.1).1) ?_
      rw [Conf.eq_of hp₅ rfl]
      refine .head (show m.dispatchBb ≠ N + 3 by omega) ?_
      rw [hdispatch _ hz₅]
      refine .head (by omega) ?_
      rw [h₇]
      refine .head (by omega) ?_
      rw [h₈]
      refine .head (show y ≠ N + 3 by omega) ?_
      rw [h₉]
      exact .refl
    · exact (Function.update_of_ne (h.staged.locals.state_poll m hd.mem.1 m hd.mem.1) _ _).trans (Function.update_self _ _ _)

/-- With as many points as the number that stands for a finished coroutine, the chain leaves the region at its first
    suspension. -/
theorem Looped.chain_leaves (hN : (N : ℤ) = doneState) (σ : Store host) (hlog : σ.log = []) :
    ∃ τ, Reaches (Stackless.step cfg') ⟨.block 0, σ⟩ ⟨.block n, τ⟩ ∧ ¬Finished (chainRegion p N) (chainCoroutine p N) τ.log := by
  have hpos : 1 ≤ N := by
    rw [doneState] at hN
    omega
  obtain ⟨τ, hthrough, hstate, hresult⟩ := h.chain_suspends hpos σ
  have hdone : ∀ m' ∈ [m], τ.locals m'.stateLocal = doneState := fun m' hm' => by
    rw [List.mem_singleton.mp hm']
    exact hstate.trans hN
  obtain ⟨s, hs, hm, -⟩ := h.bands_at.first_of_mem (List.mem_singleton_self m)
  obtain ⟨a, b, next, rest, hstop⟩ := h.loop.scan.atStop hs
  have hne : τ.locals s.machine.pollResultLocal ≠ pollBlocked := by
    rw [hm, hresult]
    decide
  obtain ⟨υ, hthrough'⟩ := h.exit_of_ran hs hstop.here hne (.inl rfl) hdone
  rw [hm] at hthrough'
  have hout := hthrough.trans (hthrough'.mono fun b hb heq => (h.executes_ne hb).2 _ (List.mem_singleton_self _) heq)
  obtain ⟨add, hadd, hin⟩ := hout.log
  refine ⟨υ, hout.reaches, fun hfin => ?_⟩
  have hmem := since_subset hfin
  rw [hadd, hlog, List.append_nil] at hmem
  exact hin _ hmem rfl

end

/-- A host whose statements do nothing, and whose receives are ready. -/
def idleHost : Host (Option Marker) := ⟨Unit, fun _ locals state => (locals, state), fun _ _ state => (true, state)⟩

/-- The region is left while its coroutine is suspended. -/
theorem priority_loop_leaves_suspended : ∃ cfg' loop, transformRegion (chainHooks (some 0)) (cooperative (chainHooks (some 0))) []
      (yieldChain 9999 0) (chainRegion (some 0) 9999) = ([loop], cfg') ∧
    ∃ (σ : Store idleHost) (c : Conf idleHost), σ.log = [] ∧ Reaches (step cfg') ⟨.block 0, σ⟩ c ∧
      c.place = .block loop.regionExitBb ∧ ¬Finished (chainRegion (some 0) 9999) (chainCoroutine (some 0) 9999) c.store.log ∧
      ¬KeepsTurns cfg' (chainRegion (some 0) 9999)
        (machinesOf (chainHooks (some 0)) (yieldChain 9999 0) (chainRegion (some 0) 9999)).1
        (yieldChain 9999 0).locals.length loop c := by
  obtain ⟨cfg', bands, n, stuck, hi, l0, heq, h⟩ := (chain_confined (p := some 0) (n := 9999) (t := 0)).toMarked.looped rfl
    (chain_confined (p := some 0)).stmts_below []
  obtain ⟨m, hm⟩ := chain_machine (p := some 0) (n := 9999) (t := 0)
  refine ⟨cfg', _, heq, ⟨fun _ => 0, (), []⟩, ?_⟩
  rw [hm] at h
  obtain ⟨τ, hreach, hopen⟩ := h.chain_leaves rfl (⟨fun _ => 0, (), []⟩ : Store idleHost) rfl
  exact ⟨⟨.block n, τ⟩, rfl, hreach, rfl, hopen, fun hk => hopen (hk.exit_only rfl _ (List.mem_singleton_self _))⟩

/-- Three coroutines, two of them in the first band. -/
theorem priority_loop_keeps_turns_crew : ∃ cfg' loop,
    transformRegion (crewHooks true) (cooperative (crewHooks true)) [] crew (crewRegion true) = ([loop], cfg') ∧
    ∀ host : Host CrewStmt, host.Below 0 → ∀ (σ : Store host) (c : Conf host), σ.log = [] →
      Reaches (step cfg') ⟨.block 0, σ⟩ c → Unmistaken cfg' (machinesOf (crewHooks true) crew (crewRegion true)).1 c.store.log →
      KeepsTurns cfg' (crewRegion true) (machinesOf (crewHooks true) crew (crewRegion true)).1 0 loop c :=
  priority_loop_keeps_turns crew_conforms.toMarked rfl (@crew_conforms true).stmts_below []

end Krio.Stackless
