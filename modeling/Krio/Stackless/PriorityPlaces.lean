import Krio.Stackless.PriorityTurns

/-! Where control is in a body with a priority loop, and what holds there: one block after another keeps it. -/

namespace Krio.Stackless

variable {U : Type} {host : Host U} {hooks : Hooks U} {cfg cfg' : Body U} {r : Region} {start : ℕ} {ms : List Machine}
  {bands : List Band} {n stuck hi l0 : ℕ}

/-- The blocks of a scan. -/
abbrev ScanBlock (n stuck : ℕ) (ms : List Machine) (b : ℕ) : Prop := n + 5 ≤ b ∧ b < stuck ∨ ∃ m ∈ ms, b = m.exitBb

/-- The blocks that ask whether all are done. -/
abbrev CheckBlock (n stuck hi : ℕ) (b : ℕ) : Prop := b = n + 4 ∨ stuck + 1 < b ∧ b < hi

/-- The scan stands at `b`, before the stops `rest`. -/
abbrev ScanAt (cfg' : Body U) (ms : List Machine) (bands : List Band) (n stuck l0 b : ℕ) (rest : List Stop) : Prop :=
  Chain cfg' (ScanBlock n stuck ms) (fun d => l0 + 2 * bands.length ≤ d) (n + 3) (n + 4) b rest

/-- The scan stands at the site `b` of the stop `s` and goes on at `next`. -/
abbrev ScanStop (cfg' : Body U) (ms : List Machine) (bands : List Band) (n stuck l0 : ℕ) (s : Stop) (a : StopBlocks) (b next : ℕ) : Prop :=
  StopAt cfg' (ScanBlock n stuck ms) (fun d => l0 + 2 * bands.length ≤ d) (n + 3) s a b next

/-- The check stands at `b`, before the machines `rest`. -/
abbrev CheckAt (cfg' : Body U) (bands : List Band) (n stuck hi l0 b : ℕ) (rest : List Machine) : Prop :=
  Checks cfg' (CheckBlock n stuck hi) (fun d => l0 + 2 * bands.length ≤ d) (stuck + 1) n b rest

/-- The poll of `s.machine` began in `σ₀`: what the loop keeps meanwhile. -/
structure Polling (hooks : Hooks U) (cfg cfg' : Body U) (r : Region) (start : ℕ) (ms : List Machine) (bands : List Band)
    (n stuck l0 : ℕ) (passed rest : List Stop) (s : Stop) (a : StopBlocks) (b next : ℕ) (σ₀ : Store host) : Prop where
  split : scanStops bands = passed ++ s :: rest
  here : ScanStop cfg' ms bands n stuck l0 s a b next
  goOn : ScanAt cfg' ms bands n stuck l0 next rest
  scan : Scanning hooks cfg cfg' r start ms bands n passed σ₀
  due : s.Due (σ₀.locals s.last)

variable (hooks cfg cfg' r start ms bands n stuck hi l0) in
/-- What holds wherever control is. -/
inductive Held : Conf host → Prop
  | outside {place : At} {σ : Store host} (plain : ∀ b, place = .block b → Plain cfg r start b)
      (turns : TakesTurns r ms bands σ.log) (attended : Attended r ms σ.log)
      (left : .enter n ∈ since r.regionBegin.1 σ.log ∨ ∃ c ∈ r.coroutines, ¬Finished r c σ.log) : Held ⟨place, σ⟩
  | init {σ : Store host} (settled : Settled hooks cfg r start ms bands σ)
      (fresh : ∀ m ∈ ms, ∀ v, .set m.pollResultLocal v ∉ since r.regionBegin.1 σ.log) : Held ⟨.block (n + 2), σ⟩
  | top {σ : Store host} (settled : Settled hooks cfg r start ms bands σ) (ordered : Ordered r ms bands σ.locals σ.log) :
      Held ⟨.block (n + 3), σ⟩
  | site {σ : Store host} {passed rest : List Stop} {s : Stop} {a : StopBlocks} {b next : ℕ}
      (split : scanStops bands = passed ++ s :: rest) (here : ScanStop cfg' ms bands n stuck l0 s a b next)
      (goOn : ScanAt cfg' ms bands n stuck l0 next rest) (scan : Scanning hooks cfg cfg' r start ms bands n passed σ) :
      Held ⟨.block b, σ⟩
  | poll {σ : Store host} {passed rest : List Stop} {s : Stop} {a : StopBlocks} {b next : ℕ}
      (polling : Polling hooks cfg cfg' r start ms bands n stuck l0 passed rest s a b next σ) : Held ⟨.block a.poll, σ⟩
  | dispatch {σ : Store host} {passed rest : List Stop} {s : Stop} {a : StopBlocks} {b next : ℕ}
      (polling : Polling hooks cfg cfg' r start ms bands n stuck l0 passed rest s a b next σ)
      (sweep : σ.locals s.sweep = s.half) (waits : σ.locals s.machine.stateLocal ≠ doneState) :
      Held ⟨.block s.machine.dispatchBb, σ⟩
  | turn {σ₀ σ : Store host} {passed rest : List Stop} {s : Stop} {a : StopBlocks} {b next place : ℕ} {F : ℕ → Prop}
      {c : Coroutine} {entry done : ℕ} {entries : List ℕ} {new : List (Event U)}
      (polling : Polling hooks cfg cfg' r start ms bands n stuck l0 passed rest s a b next σ₀)
      (sweep : σ₀.locals s.sweep = s.half) (waits : σ₀.locals s.machine.stateLocal ≠ doneState) (hd : Drives r ms s.machine c)
      (hF : Own cfg ms (Executes n hi ms) F)
      (lowered : Lowered cfg cfg' r F (Scratch cfg l0 ms) c (findSuspensionPoints hooks cfg c) s.machine entry entries done)
      (live : Live hooks cfg cfg' r ms l0 (Executes n hi ms) F c s.machine entry entries done
        (σ₀.note (.enter s.machine.dispatchBb)) place σ new) : Held ⟨.block place, σ⟩
  | blocked {σ : Store host} {passed rest : List Stop} {s : Stop} {a : StopBlocks} {b next place : ℕ}
      (split : scanStops bands = passed ++ s :: rest) (here : ScanStop cfg' ms bands n stuck l0 s a b next)
      (goOn : ScanAt cfg' ms bands n stuck l0 next rest)
      (scan : Scanning hooks cfg cfg' r start ms bands n (passed ++ [s]) σ) (sweep : σ.locals s.sweep = s.half)
      (result : σ.locals s.machine.pollResultLocal = pollBlocked)
      (hb : place = s.machine.exitBb ∨ place = a.after ∨ place = a.passOn) : Held ⟨.block place, σ⟩
  | ran {σ : Store host} {s : Stop} {a : StopBlocks} {b next place : ℕ} (hs : s ∈ scanStops bands)
      (here : ScanStop cfg' ms bands n stuck l0 s a b next) (settled : Settled hooks cfg r start ms bands σ)
      (ordered : Ordered r ms bands (Function.update σ.locals s.last s.index) σ.log)
      (result : σ.locals s.machine.pollResultLocal ≠ pollBlocked)
      (hb : place = s.machine.exitBb ∨ place = a.after ∨ place = a.ran) : Held ⟨.block place, σ⟩
  | check {σ : Store host} {b : ℕ} {rest : List Machine} (checks : CheckAt cfg' bands n stuck hi l0 b rest)
      (known : ∀ m ∈ rest, m ∈ ms) (hdone : ∀ m ∈ ms, m ∈ rest ∨ σ.locals m.stateLocal = doneState)
      (scan : Scanning hooks cfg cfg' r start ms bands n (scanStops bands) σ) : Held ⟨.block b, σ⟩
  | noProgress {σ : Store host} (scan : Scanning hooks cfg cfg' r start ms bands n (scanStops bands) σ)
      (waits : ∃ m ∈ ms, σ.locals m.stateLocal ≠ doneState) : Held ⟨.block (stuck + 1), σ⟩
  | stuck {σ : Store host} (scan : Scanning hooks cfg cfg' r start ms bands n (scanStops bands) σ)
      (waits : ∃ m ∈ ms, σ.locals m.stateLocal ≠ doneState)
      (shut : .set cfg.locals.length 1 ∉ since (n + 3) σ.log) : Held ⟨.block stuck, σ⟩
  | exit {σ : Store host} (settled : Settled hooks cfg r start ms bands σ) (hdone : ∀ m ∈ ms, σ.locals m.stateLocal = doneState) :
      Held ⟨.block n, σ⟩
  | post {σ : Store host} (settled : Settled hooks cfg r start ms bands σ)
      (left : .enter n ∈ since r.regionBegin.1 σ.log) : Held ⟨.block (n + 1), σ⟩

theorem Held.of_place {c : Conf host} {place : At} (hp : c.place = place)
    (h : Held hooks cfg cfg' r start ms bands n stuck hi l0 ⟨place, c.store⟩) : Held hooks cfg cfg' r start ms bands n stuck hi l0 c := by
  subst hp
  exact h

theorem Settled.finished_iff {σ : Store host} (hs : Settled hooks cfg r start ms bands σ) {m : Machine} {c : Coroutine}
    (hd : Drives r ms m c) : σ.locals m.stateLocal = doneState ↔ Finished r c σ.log := by
  rcases hs.status m c hd with ⟨h1, h2⟩ | ⟨⟨i, hi, -, hne⟩, h2⟩
  · exact iff_of_true h1 h2
  · exact iff_of_false (fun heq => hne (hi.symm.trans heq)) h2

/-- The scan comes by a stop that does not poll, or whose machine is done. -/
theorem Scanning.snoc {σ : Store host} {passed : List Stop} {s : Stop}
    (hs : Scanning hooks cfg cfg' r start ms bands n passed σ) (hmem : s ∈ scanStops bands)
    (hdone : s.Due (σ.locals s.last) → σ.locals s.machine.stateLocal = doneState) :
    Scanning hooks cfg cfg' r start ms bands n (passed ++ [s]) σ := by
  refine { hs with known := ?_, passed := fun x hx hdue c hd => ?_ }
  · exact List.append_subset.mpr ⟨hs.known, List.cons_subset.mpr ⟨hmem, List.nil_subset _⟩⟩
  · rcases List.mem_append.mp hx with hx | hx
    · exact hs.passed x hx hdue c hd
    · obtain rfl := List.mem_singleton.mp hx
      exact .inl ((hs.finished_iff hd).mp (hdone hdue))

/-- A block of the loop. -/
theorem Quiet.of_block {σ τ : Store host} {b : ℕ} {l : List (Stmt U)} {t : Term} (hb : Executes n hi ms b) (hblock : cfg'.block b = ⟨l, t⟩)
    (hl : ∀ u, l[1]? ≠ some (.recv u)) {new : List (Event U)} (hlog : τ.log = new ++ .enter b :: σ.log)
    (hnew : ∀ e ∈ new, ∃ x v, e = .set x v ∧ (l0 ≤ x ∨ x = cfg.locals.length ∧ v = 0))
    (hkeep : ∀ x < l0, x ≠ cfg.locals.length → τ.locals x = σ.locals x) :
    Quiet cfg cfg' ms n hi l0 σ τ (new ++ [.enter b]) := by
  refine ⟨by rw [hlog, List.append_assoc]; rfl, fun b' hin => ?_, fun x v hin => ?_, hkeep⟩
  · rcases List.mem_append.mp hin with hin | hin
    · obtain ⟨x, v, heq, -⟩ := hnew _ hin
      cases heq
    · obtain rfl := Event.enter.inj (List.mem_singleton.mp hin)
      exact ⟨hb, not_behindGuard hblock hl⟩
  · rcases List.mem_append.mp hin with hin | hin
    · obtain ⟨x', v', heq, hx⟩ := hnew _ hin
      obtain ⟨rfl, rfl⟩ := Event.set.inj heq
      exact hx
    · cases List.mem_singleton.mp hin

section
variable {σ : Store host} {passed rest : List Stop} {s : Stop} {a : StopBlocks} {b next : ℕ}
variable (h : Looped hooks cfg cfg' r start ms bands n stuck hi l0)
include h

theorem Looped.executes_scan (hb : ScanBlock n stuck ms b) : Executes n hi ms b ∧ b ≠ n + 3 := by
  obtain ⟨h1, h2⟩ := h.loop.stuck_mem
  rcases hb with hb | ⟨m, hm, rfl⟩
  · exact ⟨.inl ⟨by omega, by omega⟩, by omega⟩
  · have hlt := h.exits m hm
    exact ⟨.inr ⟨m, hm, rfl⟩, by omega⟩

/-- A block of the scan that stores at most to `sweep` and to the locals of its checks. -/
theorem Looped.scanning_block (new : List (Event U)) {l : List (Stmt U)} {t : Term} (hs : Scanning hooks cfg cfg' r start ms bands n passed σ)
    (hb : Executes n hi ms b) (htop : b ≠ n + 3) (hblock : cfg'.block b = ⟨l, t⟩) (hl : ∀ u, l[1]? ≠ some (.recv u))
    {τ : Store host} (hlog : τ.log = new ++ .enter b :: σ.log)
    (hnew : ∀ e ∈ new, ∃ x v, e = .set x v ∧ l0 ≤ x) (hkeep : ∀ x < l0 + bands.length, τ.locals x = σ.locals x) :
    Scanning hooks cfg cfg' r start ms bands n passed τ := by
  refine hs.quiet h (Quiet.of_block hb hblock hl hlog (fun e he => ?_) fun x hx _ => hkeep x (by omega)) hkeep fun hin => ?_
  · obtain ⟨x, v, heq, hx⟩ := hnew e he
    exact ⟨x, v, heq, .inl hx⟩
  · rcases List.mem_append.mp hin with hin | hin
    · obtain ⟨x, v, heq, -⟩ := hnew _ hin
      cases heq
    · exact htop (Event.enter.inj (List.mem_singleton.mp hin)).symm

theorem Looped.held_scan (passed : List Stop) (split : scanStops bands = passed ++ rest) (goOn : ScanAt cfg' ms bands n stuck l0 b rest)
    (scan : Scanning hooks cfg cfg' r start ms bands n passed σ) :
    Held hooks cfg cfg' r start ms bands n stuck hi l0 ⟨.block b, σ⟩ := by
  cases goOn with
  | done =>
    rw [List.append_nil] at split
    exact .check h.loop.checks (fun m hm => hm) (fun m hm => .inl hm) (split ▸ scan)
  | stop here goOn => exact .site split here goOn scan

theorem Looped.stop_locals (hs : s ∈ scanStops bands) : s.machine ∈ ms ∧ l0 ≤ s.last ∧ s.last < l0 + bands.length ∧
    l0 + bands.length ≤ s.sweep ∧ s.sweep < l0 + 2 * bands.length := by
  obtain ⟨h1, h2, h3, h4, -⟩ := h.bands_at.locals_of_mem hs
  exact ⟨h.machine_mem hs, h1, h2, h3, h4⟩

/-! ## A step, block by block -/

theorem Looped.step_site (split : scanStops bands = passed ++ s :: rest) (here : ScanStop cfg' ms bands n stuck l0 s a b next)
    (goOn : ScanAt cfg' ms bands n stuck l0 next rest) (scan : Scanning hooks cfg cfg' r start ms bands n passed σ) :
    Held hooks cfg cfg' r start ms bands n stuck hi l0 (runBlock cfg' b σ) := by
  have hmem : s ∈ scanStops bands := split ▸ List.mem_append_right _ List.mem_cons_self
  obtain ⟨hplace, hstore⟩ := here.run_site σ
  obtain ⟨hE, htop⟩ := h.executes_scan here.mem.1
  have hscan : Scanning hooks cfg cfg' r start ms bands n passed (runBlock cfg' b σ).store := by
    refine h.scanning_block [] scan hE htop here.site (by simp) ?_ (fun e he => absurd he List.not_mem_nil) fun x _ => ?_
    · rw [hstore]
      rfl
    · rw [hstore]
      rfl
  have hlast : (runBlock cfg' b σ).store.locals s.last = σ.locals s.last := by
    rw [hstore]
    rfl
  by_cases hdue : s.Due (σ.locals s.last)
  · rw [if_pos hdue] at hplace
    exact .of_place hplace (.poll ⟨split, here, goOn, hscan, hlast ▸ hdue⟩)
  · rw [if_neg hdue] at hplace
    refine .of_place hplace (h.held_scan (passed ++ [s]) (by rw [split, List.append_assoc]; rfl) goOn ?_)
    exact hscan.snoc hmem fun hd => absurd (hlast ▸ hd) hdue

theorem Looped.step_poll (hp : Polling hooks cfg cfg' r start ms bands n stuck l0 passed rest s a b next σ) :
    Held hooks cfg cfg' r start ms bands n stuck hi l0 (runBlock cfg' a.poll σ) := by
  have hmem : s ∈ scanStops bands := hp.split ▸ List.mem_append_right _ List.mem_cons_self
  obtain ⟨hm, hl1, hl2, hw1, hw2⟩ := h.stop_locals hmem
  have hstate := (h.staged.locals.state_mem _ hm).2.1
  have hdone := hp.here.temp.1
  obtain ⟨hE, htop⟩ := h.executes_scan hp.here.mem.2.1
  obtain ⟨hplace, hlog, hsweep, hkeep⟩ := hp.here.run_poll σ (by omega) (by omega)
  have hkeep' : ∀ x < l0 + bands.length, (runBlock cfg' a.poll σ).store.locals x = σ.locals x := fun x hx =>
    hkeep x (by omega) (by omega)
  have hscan : Scanning hooks cfg cfg' r start ms bands n passed (runBlock cfg' a.poll σ).store := by
    refine h.scanning_block [.set s.sweep s.half] hp.scan hE htop hp.here.poll (by simp) hlog (fun e he => ?_) hkeep'
    exact ⟨s.sweep, s.half, List.mem_singleton.mp he, by omega⟩
  have hstate' := hkeep' s.machine.stateLocal (by omega)
  by_cases hd : σ.locals s.machine.stateLocal = doneState
  · rw [if_pos hd] at hplace
    refine .of_place hplace (h.held_scan (passed ++ [s]) (by rw [hp.split, List.append_assoc]; rfl) hp.goOn ?_)
    exact hscan.snoc hmem fun _ => hstate'.trans hd
  · rw [if_neg hd] at hplace
    have hlast := hkeep' s.last hl2
    exact .of_place hplace (.dispatch ⟨hp.split, hp.here, hp.goOn, hscan, hlast.symm ▸ hp.due⟩ hsweep (hstate'.symm ▸ hd))

theorem Looped.step_dispatch (hb : host.Below cfg.locals.length)
    (hp : Polling hooks cfg cfg' r start ms bands n stuck l0 passed rest s a b next σ) (sweep : σ.locals s.sweep = s.half)
    (waits : σ.locals s.machine.stateLocal ≠ doneState) :
    Held hooks cfg cfg' r start ms bands n stuck hi l0 (runBlock cfg' s.machine.dispatchBb σ) := by
  have hmem : s ∈ scanStops bands := hp.split ▸ List.mem_append_right _ List.mem_cons_self
  obtain ⟨c, hd⟩ := h.staged.drives (h.machine_mem hmem)
  obtain ⟨F, entry, entries, done, hF, hl⟩ := h.staged.lowered _ c hd
  have hw := (hp.scan.status _ c hd).resolve_left fun hfin => waits hfin.1
  obtain ⟨e, new, hplace, -, hlive⟩ := Live.begins h.staged hd hF hl hb hw.1
  exact .of_place hplace (.turn hp sweep waits hd hF hl hlive)

/-- Control that leaves the coroutine `c` otherwise than by its machine's exit. -/
theorem Looped.left_open {σ₀ : Store host} {c : Coroutine} {new : List (Event U)} {place : At}
    (hs : Settled hooks cfg r start ms bands σ₀) (hm : s.machine ∈ ms) (hc : c ∈ r.coroutines) (hstays : ¬Finished r c σ₀.log)
    (hran : Ran cfg.locals.length (Scratch cfg l0 ms) (Aside r ms (Executes n hi ms) c) (σ₀.note (.enter s.machine.dispatchBb)) σ new)
    (hends : .enter c.last.1 ∉ new) (hplace : place = .block r.regionBegin.1 ∨ ∀ b, place ≠ .block b) :
    Held hooks cfg cfg' r start ms bands n stuck hi l0 ⟨place, σ⟩ := by
  have hlog : σ.log = (new ++ [Event.enter s.machine.dispatchBb]) ++ σ₀.log := by
    rw [hran.log, List.append_assoc]
    rfl
  obtain ⟨hne, -, hlast⟩ := h.dispatch_ne hm
  have hnot : ∀ c' ∈ r.coroutines, .enter c'.last.1 ∉ new ++ [Event.enter s.machine.dispatchBb] := fun c' hc' hin => by
    rcases List.mem_append.mp hin with hin | hin
    · exact hends ((hran.enters _ hin).ends c' hc' rfl ▸ hin)
    · exact hlast c' hc' (Event.enter.inj (List.mem_singleton.mp hin)).symm
  have hregion : .enter r.regionBegin.1 ∉ new ++ [Event.enter s.machine.dispatchBb] := fun hin => by
    rcases List.mem_append.mp hin with hin | hin
    · exact (hran.enters _ hin).region rfl
    · exact hne (Event.enter.inj (List.mem_singleton.mp hin)).symm
  have hpoll : ∀ m ∈ ms, ∀ v, .set m.pollResultLocal v ∉ new ++ [Event.enter s.machine.dispatchBb] := fun m hm v hin => by
    obtain ⟨hle, -, hne⟩ := h.staged.locals.poll_mem m hm
    rcases List.mem_append.mp hin with hin | hin
    · rcases hran.stores _ _ hin with hlt | ⟨heq, -⟩
      · omega
      · exact hne heq
    · cases List.mem_singleton.mp hin
  refine .outside (fun b' hb' => ?_) ?_ ?_ (.inr ⟨c, hc, ?_⟩)
  · rcases hplace with rfl | hnone
    · exact At.block.inj hb' ▸ hs.region
    · exact absurd hb' (hnone b')
  · rw [hlog]
    exact hs.turns.append fun band hband m hm => hpoll m (h.member_mem hband hm)
  · rw [hlog]
    exact hs.attended.append hpoll hnot
  · rw [hlog, finished_append_iff hregion (hnot c hc)]
    exact hstays

theorem Looped.step_turn {σ₀ : Store host} {place : ℕ} {F : ℕ → Prop} {c : Coroutine} {entry done : ℕ} {entries : List ℕ}
    {new : List (Event U)} (hb : host.Below cfg.locals.length)
    (hp : Polling hooks cfg cfg' r start ms bands n stuck l0 passed rest s a b next σ₀)
    (sweep : σ₀.locals s.sweep = s.half) (waits : σ₀.locals s.machine.stateLocal ≠ doneState) (hd : Drives r ms s.machine c)
    (hF : Own cfg ms (Executes n hi ms) F)
    (hl : Lowered cfg cfg' r F (Scratch cfg l0 ms) c (findSuspensionPoints hooks cfg c) s.machine entry entries done)
    (hlive : Live hooks cfg cfg' r ms l0 (Executes n hi ms) F c s.machine entry entries done
      (σ₀.note (.enter s.machine.dispatchBb)) place σ new)
    (hnot : ∀ y res, Suspends cfg' s.machine y doneState res → .enter y ∉ (runBlock cfg' place σ).store.log) :
    Held hooks cfg cfg' r start ms bands n stuck hi l0 (runBlock cfg' place σ) := by
  have hmem : s ∈ scanStops bands := hp.split ▸ List.mem_append_right _ List.mem_cons_self
  obtain ⟨hm, hl1, hl2, hw1, hw2⟩ := h.stop_locals hmem
  obtain ⟨-, hstays⟩ := (hp.scan.status _ c hd).resolve_left fun hfin => waits hfin.1
  rcases hlive.step h.staged hd hF hl hb with ⟨b', new', hplace, hlive'⟩ | ⟨new', res, hplace, hpolled⟩ |
    ⟨new', hran, hends, hplace⟩
  · exact .of_place hplace (.turn hp sweep waits hd hF hl hlive')
  · obtain ⟨pre, post, hserved⟩ := hpolled.served h.staged hd hnot
    have hsweep : (runBlock cfg' place σ).store.locals s.sweep = s.half := (hserved.keeps h hd (by omega)).trans sweep
    by_cases hres : res = pollBlocked
    · refine .of_place hplace (.blocked hp.split hp.here hp.goOn ?_ hsweep (hserved.result.trans hres) (.inl rfl))
      exact hserved.scanning h hd hp.scan hp.split hp.due hstays hres
    · refine .of_place hplace (.ran hmem hp.here ?_ ?_ (hserved.result.trans_ne hres) (.inl rfl))
      · exact hserved.settled h hd hp.scan hp.split hp.due hstays
      · refine hserved.ordered h hd hp.scan hp.split hp.due _ (Function.update_self _ _ _) fun x hx hne _ => ?_
        exact (Function.update_of_ne hne _ _).trans (hserved.keeps h hd hx)
  · exact h.left_open hp.scan.toSettled hm hd.mem.2 hstays hran hends hplace

theorem Looped.step_blocked {place : ℕ} (split : scanStops bands = passed ++ s :: rest)
    (here : ScanStop cfg' ms bands n stuck l0 s a b next) (goOn : ScanAt cfg' ms bands n stuck l0 next rest)
    (scan : Scanning hooks cfg cfg' r start ms bands n (passed ++ [s]) σ) (sweep : σ.locals s.sweep = s.half)
    (result : σ.locals s.machine.pollResultLocal = pollBlocked)
    (hb : place = s.machine.exitBb ∨ place = a.after ∨ place = a.passOn) :
    Held hooks cfg cfg' r start ms bands n stuck hi l0 (runBlock cfg' place σ) := by
  have hmem : s ∈ scanStops bands := split ▸ List.mem_append_right _ List.mem_cons_self
  obtain ⟨hm, hl1, hl2, hw1, hw2⟩ := h.stop_locals hmem
  have hpoll := (h.staged.locals.poll_mem _ hm).2.1
  obtain ⟨-, -, hPa, -, hPp, hPe⟩ := here.mem
  rcases hb with rfl | rfl | rfl
  · obtain ⟨hplace, hstore⟩ := here.run_exit σ
    obtain ⟨hE, htop⟩ := h.executes_scan hPe
    refine .of_place hplace ?_
    rw [hstore]
    refine .blocked split here goOn ?_ sweep result (.inr (.inl rfl))
    exact h.scanning_block [] scan hE htop here.exit (by simp) rfl (fun e he => absurd he List.not_mem_nil) fun _ _ => rfl
  · obtain ⟨hplace, hlog, hkeep⟩ := here.run_after σ
    obtain ⟨hE, htop⟩ := h.executes_scan hPa
    have htemp := here.temp.2
    rw [if_pos result] at hplace
    refine .of_place hplace (.blocked split here goOn ?_ ?_ ?_ (.inr (.inr rfl)))
    · refine h.scanning_block [] scan hE htop here.after (by simp) hlog (fun e he => absurd he List.not_mem_nil)
        fun x hx => hkeep x (by omega)
    · exact (hkeep _ (by omega)).trans sweep
    · exact (hkeep _ (by omega)).trans result
  · obtain ⟨first, second, hblock, -⟩ := here.passOn
    obtain ⟨hE, htop⟩ := h.executes_scan hPp
    rw [here.run_passOn σ sweep]
    refine h.held_scan (passed ++ [s]) (by rw [split, List.append_assoc]; rfl) goOn ?_
    exact h.scanning_block [] scan hE htop hblock (by simp) rfl (fun e he => absurd he List.not_mem_nil) fun _ _ => rfl

theorem Looped.step_ran {place : ℕ} (hs : s ∈ scanStops bands) (here : ScanStop cfg' ms bands n stuck l0 s a b next)
    (settled : Settled hooks cfg r start ms bands σ)
    (ordered : Ordered r ms bands (Function.update σ.locals s.last s.index) σ.log)
    (result : σ.locals s.machine.pollResultLocal ≠ pollBlocked)
    (hb : place = s.machine.exitBb ∨ place = a.after ∨ place = a.ran) :
    Held hooks cfg cfg' r start ms bands n stuck hi l0 (runBlock cfg' place σ) := by
  obtain ⟨hm, hl1, hl2, hw1, hw2⟩ := h.stop_locals hs
  have hpoll := (h.staged.locals.poll_mem _ hm).2.1
  obtain ⟨-, -, hPa, hPr, -, hPe⟩ := here.mem
  rcases hb with rfl | rfl | rfl
  · obtain ⟨hplace, hstore⟩ := here.run_exit σ
    have hq : Quiet cfg cfg' ms n hi l0 σ (σ.note (.enter s.machine.exitBb)) ([] ++ [Event.enter s.machine.exitBb]) :=
      .of_block (h.executes_scan hPe).1 here.exit (by simp) rfl (fun e he => absurd he List.not_mem_nil) fun _ _ _ => rfl
    refine .of_place hplace ?_
    rw [hstore]
    exact .ran hs here (settled.quiet h hq) (hq.ordered h ordered fun _ _ _ => rfl) result (.inr (.inl rfl))
  · obtain ⟨hplace, hlog, hkeep⟩ := here.run_after σ
    have htemp := here.temp.2
    have hq : Quiet cfg cfg' ms n hi l0 σ (runBlock cfg' a.after σ).store ([] ++ [Event.enter a.after]) :=
      .of_block (h.executes_scan hPa).1 here.after (by simp) hlog (fun e he => absurd he List.not_mem_nil) fun x hx _ => hkeep x (by omega)
    rw [if_neg result] at hplace
    refine .of_place hplace (.ran hs here (settled.quiet h hq) (hq.ordered h ordered fun x _ hx => ?_) ?_ (.inr (.inr rfl)))
    · by_cases hxl : x = s.last
      · rw [hxl, Function.update_self, Function.update_self]
      · rw [Function.update_of_ne hxl, Function.update_of_ne hxl, hkeep x (by omega)]
    · rw [hkeep _ (by omega)]
      exact result
  · have hq : Quiet cfg cfg' ms n hi l0 σ ((σ.note (.enter a.ran)).assign s.last s.index) ([Event.set s.last s.index] ++ [Event.enter a.ran]) := by
      refine .of_block (h.executes_scan hPr).1 here.ran (by simp) rfl (fun e he => ?_) fun x hx _ => ?_
      · exact ⟨_, _, List.mem_singleton.mp he, .inl hl1⟩
      · exact Function.update_of_ne (by omega) _ _
    rw [here.run_ran]
    exact .top (settled.quiet h hq) (hq.ordered h ordered fun _ _ _ => rfl)

end

end Krio.Stackless
