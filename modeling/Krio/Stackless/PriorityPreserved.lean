import Krio.Stackless.Preserved
import Krio.Stackless.PriorityPlaces

/-! The priority loop is that of its scheduler: it stops where the scheduler looks. -/

namespace Krio.Stackless
open Lib StateTransition

variable {U : Type} {host : Host U} {hooks : Hooks U} {cfg cfg' : Body U} {r : Region} {start n stuck hi l0 b k count : ℕ}
  {ms : List Machine} {bands : List Band} {band : Band} {look : Look} {s : Stop} {τ τ' : Store host}

/-! ## Looks and stops -/

/-- The stop of the loop where the scheduler looks. -/
structure Shows (ms : List Machine) (l0 count : ℕ) (look : Look) (s : Stop) : Prop where
  machine : ms[look.who]? = some s.machine
  last : s.last = l0 + look.band
  sweep : s.sweep = l0 + count + look.band
  index : s.index = look.index
  second : s.second = look.second

theorem filterMap_map_some {α β : Type} {f : α → Option β} {xs : List α} (h : ∀ x ∈ xs, (f x).isSome) :
    (xs.filterMap f).map some = xs.map f := by
  induction xs with
  | nil => rfl
  | cons x xs ih =>
    obtain ⟨y, hy⟩ := Option.isSome_iff_exists.mp (h x List.mem_cons_self)
    rw [List.filterMap_cons_some hy, List.map_cons, List.map_cons, ih fun z hz => h z (List.mem_cons_of_mem _ hz), hy]

theorem shows_half {members : List ℕ} (hlt : ∀ i ∈ members, i < ms.length) (hmembers : band.members = members.filterMap (ms[·]?))
    (hlast : band.last = l0 + k) (hsweep : band.sweep = l0 + count + k) (half : Bool) :
    List.Forall₂ (Shows ms l0 count) (halfLooks k members half) (band.stops half) := by
  have hsome : band.members.map some = members.map (ms[·]?) := by
    rw [hmembers]
    exact filterMap_map_some fun i hi => by simp [hlt i hi]
  have hlen : band.members.length = members.length := by
    rw [← List.length_map some, hsome, List.length_map]
  refine List.forall₂_iff_get.mpr ⟨?_, fun i hi hj => ?_⟩
  · rw [halfLooks, Band.stops, List.length_mapIdx, List.length_mapIdx, hlen]
  · rw [halfLooks, List.length_mapIdx] at hi
    have hget : ms[members[i]]? = some band.members[i] := by
      have h := congrArg (·[i]?) hsome
      simp only [List.getElem?_map, List.getElem?_eq_getElem hi, List.getElem?_eq_getElem (hlen ▸ hi), Option.map_some,
        Option.some.injEq] at h
      exact h.symm
    simp only [List.get_eq_getElem, halfLooks, Band.stops, List.getElem_mapIdx]
    exact ⟨hget, hlast, hsweep, rfl, rfl⟩

theorem shows_looks {members : List (List ℕ)} (hlt : ∀ band ∈ members, ∀ i ∈ band, i < ms.length)
    (hmembers : bands.map (·.members) = members.map (·.filterMap (ms[·]?)))
    (hlast : bands.map (·.last) = List.range' (l0 + k) bands.length)
    (hsweep : bands.map (·.sweep) = List.range' (l0 + count + k) bands.length) :
    List.Forall₂ (Shows ms l0 count) (looksFrom k members) (scanStops bands) := by
  induction bands generalizing members k with
  | nil =>
    obtain rfl : members = [] := List.map_eq_nil_iff.mp hmembers.symm
    exact .nil
  | cons band bands ih =>
    cases members with
    | nil => cases hmembers
    | cons ks members =>
      rw [List.map_cons, List.map_cons, List.cons.injEq] at hmembers
      rw [List.length_cons, List.range'_succ, List.map_cons, List.cons.injEq] at hlast hsweep
      have hband := hlt ks List.mem_cons_self
      have hhalf := shows_half hband hmembers.1 hlast.1 hsweep.1
      have hrest := ih (k := k + 1) (fun band hb => hlt band (List.mem_cons_of_mem _ hb)) hmembers.2 hlast.2 hsweep.2
      exact List.rel_append (List.rel_append (hhalf false) (hhalf true)) hrest

/-- The local `last` of a band says who ran last: its index, or -1 for none yet. -/
def lastIs (v : ℤ) : Option ℕ → Prop
  | none => v = -1
  | some j => v = j

theorem Shows.due_iff (h : Shows ms l0 count look s) {v : ℤ} {last : Option ℕ} (hv : lastIs v last)
    (hlast : ∀ j, last = some j → j < s.size) (hindex : s.index < s.size) : s.Due v ↔ look.due last = true := by
  have hlater : v ∈ s.later ↔ last.any (look.index ≤ ·) = true := by
    rw [Stop.mem_later, ← h.index]
    cases last with
    | none =>
      have hv : v = -1 := hv
      refine iff_of_false ?_ (by simp)
      rintro ⟨i, hi, -⟩
      omega
    | some j =>
      have hv : v = j := hv
      have hj := hlast j rfl
      rw [Option.any_some, decide_eq_true_iff, hv]
      constructor
      · rintro ⟨i, hi, hle, -⟩
        omega
      · exact fun hle => ⟨j, rfl, hle, by omega⟩
  rw [Stop.Due, hlater, Look.due, h.second, beq_iff_eq]
  exact Bool.eq_iff_iff.symm

/-! ## Where the loop is -/

/-- What the locals of the loop say of the scan. -/
structure Recorded (bands : List Band) (l0 progress : ℕ) (q : Scanned) (locals : Locals) : Prop where
  last : ∀ s ∈ scanStops bands, lastIs (locals s.last) (q.last (s.last - l0)) ∧ ∀ j, q.last (s.last - l0) = some j → j < s.size
  moved : locals progress = if q.moved then 1 else 0

/-- The loop is at the stop where the scan looks next, or behind the last one. -/
structure ScanDue (cfg' : Body U) (ms : List Machine) (bands : List Band) (n stuck l0 progress : ℕ) (q : Scanned) (b : ℕ)
    (locals : Locals) : Prop where
  place : ∃ stops, ScanAt cfg' ms bands n stuck l0 b stops ∧ stops ⊆ scanStops bands ∧
    List.Forall₂ (Shows ms l0 bands.length) q.rest stops
  recorded : Recorded bands l0 progress q locals

/-- Coroutine `k` is being polled at a stop of the scan. -/
structure ScanTurn (cfg' : Body U) (ms : List Machine) (bands : List Band) (n stuck l0 progress : ℕ) (q : Scanned) (k : ℕ)
    (locals : Locals) : Prop where
  place : ∃ look rest s a b next stops, q.rest = look :: rest ∧ look.who = k ∧ ScanStop cfg' ms bands n stuck l0 s a b next ∧
    ScanAt cfg' ms bands n stuck l0 next stops ∧ s :: stops ⊆ scanStops bands ∧
    Shows ms l0 bands.length look s ∧ List.Forall₂ (Shows ms l0 bands.length) rest stops ∧ locals s.sweep = s.half
  recorded : Recorded bands l0 progress q locals

section
variable {q : Scanned} {locals locals' : Locals} {a : StopBlocks} {next : ℕ}
  (h : Looped hooks cfg cfg' r start ms bands n stuck hi l0)
include h

theorem Looped.recorded_congr {rest : List Look} (hr : Recorded bands l0 cfg.locals.length q locals)
    (hsame : ∀ x, x = cfg.locals.length ∨ l0 ≤ x ∧ x < l0 + bands.length → locals' x = locals x) :
    Recorded bands l0 cfg.locals.length { q with rest } locals' := by
  refine ⟨fun s hs => ?_, ?_⟩
  · obtain ⟨h1, h2, -⟩ := h.bands_at.locals_of_mem hs
    rw [hsame s.last (.inr ⟨h1, h2⟩)]
    exact hr.last s hs
  · rw [hsame _ (.inl rfl)]
    exact hr.moved

theorem Looped.due_iff (hr : Recorded bands l0 cfg.locals.length q locals) (hs : s ∈ scanStops bands)
    (hshows : Shows ms l0 bands.length look s) : s.Due (locals s.last) ↔ look.due (q.last look.band) = true := by
  obtain ⟨hlast, hlt⟩ := hr.last s hs
  obtain ⟨-, -, -, -, hindex⟩ := h.bands_at.locals_of_mem hs
  rw [hshows.last, Nat.add_sub_cancel_left] at hlast hlt
  rw [← hshows.last] at hlast
  exact hshows.due_iff hlast hlt hindex

omit h in
/-- The site of a stop. -/
theorem StopAt.site_step (hstop : ScanStop cfg' ms bands n stuck l0 s a b next) (τ : Store host) :
    Stackless.step cfg' ⟨.block b, τ⟩ = some ⟨.block (if s.Due (τ.locals s.last) then a.poll else next), τ.note (.enter b)⟩ := by
  obtain ⟨hplace, hstore⟩ := hstop.run_site τ
  rw [← hplace, ← hstore]
  rfl

/-- The poll of a stop notes the half of the scan and asks whether the machine is done. -/
theorem Looped.poll_step (hs : s ∈ scanStops bands) (hstop : ScanStop cfg' ms bands n stuck l0 s a b next) (τ : Store host) :
    ∃ τ', Stackless.step cfg' ⟨.block a.poll, τ⟩ =
        some ⟨.block (if τ.locals s.machine.stateLocal = doneState then next else s.machine.dispatchBb), τ'⟩ ∧
      Unseen cfg.locals.length ms τ τ' ∧ τ'.locals s.sweep = s.half ∧
      ∀ x, x = cfg.locals.length ∨ l0 ≤ x ∧ x < l0 + bands.length → τ'.locals x = τ.locals x := by
  have hloc := h.staged.locals
  have hlt := hloc.progress_mem.2
  obtain ⟨-, -, h1, h2, -⟩ := h.bands_at.locals_of_mem hs
  obtain ⟨-, hstate, -⟩ := hloc.state_mem _ (h.machine_mem hs)
  have htemp := hstop.temp.1
  have hstep := check_step [.assignI64 s.sweep s.half] hstop.poll τ
  have hsame : (execAll (τ.note (.enter a.poll)) [.assignI64 s.sweep s.half]).locals s.machine.stateLocal =
      τ.locals s.machine.stateLocal := Function.update_of_ne (by omega) _ _
  rw [hsame] at hstep
  refine ⟨_, hstep, (Unseen.note _ τ).trans ((Unseen.assign hloc (.inr (by omega)) s.half _).trans (.asks hloc (.inr (by omega)) _ _ _)),
    ?_, fun x hx => ?_⟩
  · exact (Function.update_of_ne (by omega) _ _).trans (Function.update_self _ _ _)
  · exact (Function.update_of_ne (by omega) _ _).trans (Function.update_of_ne (by omega) _ _)

/-- A poll has come back. -/
theorem Looped.after_steps (hstop : ScanStop cfg' ms bands n stuck l0 s a b next) (τ : Store host) :
    ∃ τ', Reaches₁ (Stackless.step cfg') ⟨.block s.machine.exitBb, τ⟩
        ⟨.block (if τ.locals s.machine.pollResultLocal = pollBlocked then a.passOn else a.ran), τ'⟩ ∧
      Unseen cfg.locals.length ms τ τ' ∧
      ∀ x, x = cfg.locals.length ∨ l0 ≤ x ∧ x < l0 + 2 * bands.length → τ'.locals x = τ.locals x := by
  have hlt := h.staged.locals.progress_mem.2
  have htemp := hstop.temp.2
  obtain ⟨τ', hexit, rfl⟩ := goto_step hstop.exit τ
  have hstep := ask_step hstop.after (τ.note (.enter s.machine.exitBb))
  exact ⟨_, .tail (.single hexit) hstep, (Unseen.note _ τ).trans ((Unseen.note _ _).trans (.asks h.staged.locals (.inr (by omega)) _ _ _)),
    fun x hx => Function.update_of_ne (by omega) _ _⟩

/-- A scan begins. -/
theorem Looped.top_step (last : ℕ → Option ℕ) (τ : Store host) (hlast : ∀ s ∈ scanStops bands,
      lastIs (τ.locals s.last) (last (s.last - l0)) ∧ ∀ j, last (s.last - l0) = some j → j < s.size) :
    ∃ b τ', Stackless.step cfg' ⟨.block (n + 3), τ⟩ = some ⟨.block b, τ'⟩ ∧ Unseen cfg.locals.length ms τ τ' ∧
      ScanDue cfg' ms bands n stuck l0 cfg.locals.length ⟨looksFrom 0 (bandsOf r ms.length), last, false⟩ b τ'.locals := by
  have hlt := h.staged.locals.progress_mem.2
  obtain ⟨τ', hstep, rfl⟩ := goto_step h.loop.top τ
  have hshows : List.Forall₂ (Shows ms l0 bands.length) (looksFrom 0 (bandsOf r ms.length)) (scanStops bands) :=
    shows_looks (fun band hb i hi => mem_bandsOf_flatten.mp (List.mem_flatten.mpr ⟨band, hb, hi⟩)) h.bands_at.members
      h.bands_at.last h.bands_at.sweep
  refine ⟨_, _, hstep, (Unseen.note _ τ).trans (.assign h.staged.locals (.inl rfl) 0 _),
    ⟨_, h.loop.scan, List.Subset.refl _, hshows⟩, fun s hs => ?_, Function.update_self _ _ _⟩
  obtain ⟨h1, -⟩ := h.bands_at.locals_of_mem hs
  have hsame : (execAll (τ.note (.enter (n + 3))) [.assignI64 cfg.locals.length 0]).locals s.last = τ.locals s.last :=
    Function.update_of_ne (by omega) _ _
  rw [hsame]
  exact hlast s hs

/-- The end of a scan asks every machine whether it is done. -/
theorem Looped.check_steps {rest : List Machine} (hcheck : CheckAt cfg' bands n stuck hi l0 b rest) (hrest : ∀ m ∈ rest, m ∈ ms)
    (τ : Store host) :
    ∃ τ', Reaches₁ (Stackless.step cfg') ⟨.block b, τ⟩
        ⟨.block (if ∀ m ∈ rest, τ.locals m.stateLocal = doneState then n else stuck + 1), τ'⟩ ∧
      Unseen cfg.locals.length ms τ τ' ∧
      ∀ x, x = cfg.locals.length ∨ l0 ≤ x ∧ x < l0 + 2 * bands.length → τ'.locals x = τ.locals x := by
  have hloc := h.staged.locals
  have hlt := hloc.progress_mem.2
  induction hcheck generalizing τ with
  | done mem block =>
    obtain ⟨τ', hstep, rfl⟩ := goto_step block τ
    rw [if_pos fun m hm => absurd hm List.not_mem_nil]
    exact ⟨_, .single hstep, .note _ τ, fun x hx => rfl⟩
  | @check b d next m rest mem temp block goOn ih =>
    have hstep := ask_step block τ
    have hm := hrest m List.mem_cons_self
    have hunseen : Unseen cfg.locals.length ms τ ((Stmt.eqCheckI64 d m.stateLocal doneState).exec (τ.note (.enter b))) :=
      (Unseen.note _ τ).trans (.asks hloc (.inr (by omega)) _ _ _)
    have hsame : ∀ x, x = cfg.locals.length ∨ l0 ≤ x ∧ x < l0 + 2 * bands.length →
        ((Stmt.eqCheckI64 d m.stateLocal doneState).exec (τ.note (.enter b))).locals x = τ.locals x :=
      fun x hx => Function.update_of_ne (by omega) _ _
    by_cases hdone : τ.locals m.stateLocal = doneState
    · rw [if_pos hdone] at hstep
      obtain ⟨τ', hreach, hunseen', hsame'⟩ := ih (fun m' hm' => hrest m' (List.mem_cons_of_mem _ hm')) _
      have hcond : (∀ m' ∈ m :: rest, τ.locals m'.stateLocal = doneState) ↔
          ∀ m' ∈ rest, ((Stmt.eqCheckI64 d m.stateLocal doneState).exec (τ.note (.enter b))).locals m'.stateLocal = doneState := by
        rw [List.forall_mem_cons, and_iff_right hdone]
        refine forall₂_congr fun m' hm' => ?_
        rw [(hunseen.machines m' (hrest m' (List.mem_cons_of_mem _ hm'))).1]
      rw [if_congr hcond rfl rfl]
      exact ⟨τ', .head hstep hreach, hunseen.trans hunseen', fun x hx => (hsame' x hx).trans (hsame x hx)⟩
    · rw [if_neg hdone] at hstep
      rw [if_neg fun hall => hdone (hall m List.mem_cons_self)]
      exact ⟨_, .single hstep, hunseen, hsame⟩

end

/-! ## The loop -/

section
variable {reports : Bool} (h : Looped hooks cfg cfg' r start ms bands n stuck hi l0)
include h

/-- At a look that is not due, or at a coroutine that is finished, the scan goes on. -/
theorem Looped.look_on {q : Scanned} {rest : List Look} {status : ℕ → Status} (hdue : ScanDue cfg' ms bands n stuck l0 cfg.locals.length q b τ.locals)
    (htold : Told ms status τ.locals) (hq : q.rest = look :: rest)
    (hgo : look.due (q.last look.band) = true → status look.who = .finished) :
    ∃ b' τ', Reaches₁ (Stackless.step cfg') ⟨.block b, τ⟩ ⟨.block b', τ'⟩ ∧ Unseen cfg.locals.length ms τ τ' ∧
      ScanDue cfg' ms bands n stuck l0 cfg.locals.length { q with rest } b' τ'.locals := by
  obtain ⟨⟨stops, hscan, hsub, hshows⟩, hrec⟩ := hdue
  rw [hq] at hshows
  obtain ⟨s, stops, hs, hrest, rfl⟩ := List.forall₂_cons_left_iff.mp hshows
  cases hscan with
  | @stop _ a _ next _ here goOn =>
    have hmem := hsub List.mem_cons_self
    have hsub' : stops ⊆ scanStops bands := fun x hx => hsub (List.mem_cons_of_mem _ hx)
    have hstep := here.site_step τ
    by_cases hs' : s.Due (τ.locals s.last)
    · have hfin := hgo ((h.due_iff hrec hmem hs).mp hs')
      have hdone := ((htold _ _ hs.machine).1 hfin).1
      rw [if_pos hs'] at hstep
      obtain ⟨τ', hpoll, hunseen, -, hsame⟩ := h.poll_step hmem here (τ.note (.enter b))
      rw [if_pos (show (τ.note (.enter b)).locals s.machine.stateLocal = doneState from hdone)] at hpoll
      exact ⟨next, τ', .tail (.single hstep) hpoll, (Unseen.note _ τ).trans hunseen, ⟨stops, goOn, hsub', hrest⟩,
        h.recorded_congr hrec hsame⟩
    · rw [if_neg hs'] at hstep
      exact ⟨next, _, .single hstep, .note _ τ, ⟨stops, goOn, hsub', hrest⟩, h.recorded_congr hrec fun x hx => rfl⟩

/-- At a look that is due, the coroutine is polled if it is not finished. -/
theorem Looped.look_turn {q : Scanned} {rest : List Look} {status : ℕ → Status}
    (hdue : ScanDue cfg' ms bands n stuck l0 cfg.locals.length q b τ.locals) (htold : Told ms status τ.locals)
    (hq : q.rest = look :: rest) (hlook : look.due (q.last look.band) = true) (hne : status look.who ≠ .finished) :
    ∃ m, ms[look.who]? = some m ∧ ∃ τ', Reaches₁ (Stackless.step cfg') ⟨.block b, τ⟩ ⟨.block m.dispatchBb, τ'⟩ ∧
      Unseen cfg.locals.length ms τ τ' ∧ ScanTurn cfg' ms bands n stuck l0 cfg.locals.length q look.who τ'.locals := by
  obtain ⟨⟨stops, hscan, hsub, hshows⟩, hrec⟩ := hdue
  rw [hq] at hshows
  obtain ⟨s, stops, hs, hrest, rfl⟩ := List.forall₂_cons_left_iff.mp hshows
  cases hscan with
  | @stop _ a _ next _ here goOn =>
    have hmem := hsub List.mem_cons_self
    have hstep := here.site_step τ
    have hwaits : (τ.note (.enter b)).locals s.machine.stateLocal ≠ doneState := fun heq => hne ((htold _ _ hs.machine).2 heq)
    rw [if_pos ((h.due_iff hrec hmem hs).mpr hlook)] at hstep
    obtain ⟨τ', hpoll, hunseen, hsweep, hsame⟩ := h.poll_step hmem here (τ.note (.enter b))
    rw [if_neg hwaits] at hpoll
    exact ⟨s.machine, hs.machine, τ', .tail (.single hstep) hpoll, (Unseen.note _ τ).trans hunseen,
      ⟨look, rest, s, a, b, next, stops, hq, rfl, here, goOn, hsub, hs, hrest, hsweep⟩, h.recorded_congr hrec hsame⟩

/-- The end of a scan leaves the region if all coroutines are finished. -/
theorem Looped.scan_end {q : Scanned} {status : ℕ → Status}
    (hdue : ScanDue cfg' ms bands n stuck l0 cfg.locals.length q b τ.locals) (htold : Told ms status τ.locals) (hq : q.rest = []) :
    ∃ τ', Reaches₁ (Stackless.step cfg') ⟨.block b, τ⟩
        ⟨.block (if ∀ k < ms.length, status k = .finished then n else stuck + 1), τ'⟩ ∧
      Unseen cfg.locals.length ms τ τ' ∧ Recorded bands l0 cfg.locals.length q τ'.locals := by
  obtain ⟨⟨stops, hscan, hsub, hshows⟩, hrec⟩ := hdue
  rw [hq] at hshows
  obtain rfl := List.forall₂_nil_left_iff.mp hshows
  cases hscan
  obtain ⟨τ', hreach, hunseen, hsame⟩ := h.check_steps h.loop.checks (fun m hm => hm) τ
  have hcond : (∀ m ∈ ms, τ.locals m.stateLocal = doneState) ↔ ∀ k < ms.length, status k = .finished := by
    constructor
    · intro hall k hk
      exact (htold k _ (List.getElem?_eq_getElem hk)).2 (hall _ (List.getElem_mem hk))
    · intro hall m hm
      obtain ⟨k, hk⟩ := List.mem_iff_getElem?.mp hm
      exact ((htold k m hk).1 (hall k (List.getElem?_eq_some_iff.mp hk).1)).1
  rw [if_congr hcond rfl rfl] at hreach
  exact ⟨τ', hreach, hunseen, h.recorded_congr hrec fun x hx => hsame x (hx.imp_right fun hx => ⟨hx.1, by omega⟩)⟩

/-- The end of a scan that found a coroutine unfinished: another scan, or the report. -/
theorem Looped.noProgress_step {q : Scanned} (hr : Recorded bands l0 cfg.locals.length q τ.locals) :
    ∃ τ', Stackless.step cfg' ⟨.block (stuck + 1), τ⟩ = some ⟨.block (if q.moved = true then n + 3 else stuck), τ'⟩ ∧
      Unseen cfg.locals.length ms τ τ' ∧ Recorded bands l0 cfg.locals.length q τ'.locals := by
  have hlt := h.staged.locals.progress_mem.2
  obtain ⟨d, hd, hblock⟩ := h.loop.noProgress
  have hstep := ask_step hblock τ
  have hcond : τ.locals cfg.locals.length = 1 ↔ q.moved = true := by
    rw [hr.moved]
    cases q.moved <;> simp
  rw [if_congr hcond rfl rfl] at hstep
  exact ⟨_, hstep, (Unseen.note _ τ).trans (.asks h.staged.locals (.inr (by omega)) _ _ _),
    h.recorded_congr hr fun x hx => Function.update_of_ne (by omega) _ _⟩

/-- The poll of a coroutine has ended unblocked: it is the one of its band that ran last, and a new scan begins. -/
theorem Looped.ran_steps {q : Scanned} {a : StopBlocks} {next : ℕ} (hs : s ∈ scanStops bands)
    (hstop : ScanStop cfg' ms bands n stuck l0 s a b next) (hshows : Shows ms l0 bands.length look s)
    (hr : Recorded bands l0 cfg.locals.length q τ.locals) :
    ∃ b' τ', Reaches₁ (Stackless.step cfg') ⟨.block a.ran, τ⟩ ⟨.block b', τ'⟩ ∧ Unseen cfg.locals.length ms τ τ' ∧
      ScanDue cfg' ms bands n stuck l0 cfg.locals.length
        ⟨looksFrom 0 (bandsOf r ms.length), Function.update q.last look.band (some look.index), false⟩ b' τ'.locals := by
  obtain ⟨h1, -, -, -, hindex⟩ := h.bands_at.locals_of_mem hs
  obtain ⟨τ', hran, rfl⟩ := goto_step hstop.ran τ
  obtain ⟨b', τ', htop, hunseen, hdue⟩ := h.top_step (Function.update q.last look.band (some look.index))
    (execAll (τ.note (.enter a.ran)) [.assignI64 s.last s.index]) fun x hx => by
      obtain ⟨h1', -⟩ := h.bands_at.locals_of_mem hx
      have hband := hshows.last
      by_cases heq : x.last = s.last
      · have hlocals : (execAll (τ.note (.enter a.ran)) [.assignI64 s.last s.index]).locals x.last = s.index := by
          rw [heq]
          exact Function.update_self _ _ _
        rw [hlocals, show x.last - l0 = look.band by omega, Function.update_self]
        refine ⟨congrArg Nat.cast hshows.index, fun j hj => ?_⟩
        rw [← Option.some.inj hj, ← hshows.index, (h.bands_at.same_band h.nodup hx hs heq).2.1]
        exact hindex
      · have hlocals : (execAll (τ.note (.enter a.ran)) [.assignI64 s.last s.index]).locals x.last = τ.locals x.last :=
          Function.update_of_ne heq _ _
        rw [hlocals, Function.update_of_ne (by omega)]
        exact hr.last x hx
  exact ⟨b', τ', .tail (.single hran) htop, ((Unseen.note _ τ).trans (.assign h.staged.locals (.inr h1) _ _)).trans hunseen, hdue⟩

/-- The priority loop is that of the scheduler with priorities. -/
theorem Looped.schedules : Schedules hooks (prioritised (bandsOf r ms.length) ms.length hooks.deadlock.isSome) cfg cfg' r ms l0
    (n + 2) (n + 1) (fun q _ b locals => ScanDue cfg' ms bands n stuck l0 cfg.locals.length q b locals)
    fun q _ k locals => ScanTurn cfg' ms bands n stuck l0 cfg.locals.length q k locals where
  behind := h.loop.post
  enters := by
    intro host τ
    have hinit := execAll_assigns (fun band : Band => band.last) (-1) bands (τ.note (.enter (n + 2)))
    obtain ⟨τ', hstep, rfl⟩ := goto_step h.loop.init τ
    obtain ⟨b, τ', htop, hunseen, hdue⟩ := h.top_step (fun _ => none)
      (execAll (τ.note (.enter (n + 2))) (bands.map fun band => .assignI64 band.last (-1))) fun s hs => by
        obtain ⟨band, hband, i, m, -, hs⟩ := mem_scanStops.mp hs
        rw [hs]
        exact ⟨hinit.2.1 band hband, fun j hj => by cases hj⟩
    have hlasts : ∀ band ∈ bands, l0 ≤ band.last := fun band hband => by
      have hmem : band.last ∈ List.range' l0 bands.length := h.bands_at.last ▸ List.mem_map_of_mem hband
      exact (List.mem_range'_1.mp hmem).1
    exact ⟨b, τ', .head hstep (.single htop), ((Unseen.note _ τ).trans (.assigns h.staged.locals _ _ hlasts _)).trans hunseen, hdue⟩
  turn := by
    intro host τ q status b k hdue htold hchoice
    cases hq : q.rest with
    | nil =>
      simp only [prioritised, hq] at hchoice
      split_ifs at hchoice
    | cons look rest =>
      simp only [prioritised, hq] at hchoice
      split_ifs at hchoice with hcond
      cases hchoice
      obtain ⟨hlook, hne⟩ := Bool.and_eq_true_iff.mp hcond
      have hne : status look.who ≠ .finished := bne_iff_ne.mp hne
      exact ⟨hne, h.look_turn hdue htold hq hlook hne⟩
  goOn := by
    intro host τ q q' status b hdue htold hchoice
    cases hq : q.rest with
    | nil =>
      simp only [prioritised, hq] at hchoice
      split_ifs at hchoice with hfin hrep
      cases hchoice
      obtain ⟨τ₁, hreach, hunseen₁, hrec₁⟩ := h.scan_end hdue htold hq
      rw [if_neg hfin] at hreach
      obtain ⟨τ₂, hstep, hunseen₂, hrec₂⟩ := h.noProgress_step hrec₁
      obtain ⟨τ₃, hagain, hunseen₃, hrec₃⟩ : ∃ τ₃, Reaches (Stackless.step cfg') ⟨.block (if q.moved = true then n + 3 else stuck), τ₂⟩
          ⟨.block (n + 3), τ₃⟩ ∧ Unseen cfg.locals.length ms τ₂ τ₃ ∧ Recorded bands l0 cfg.locals.length q τ₃.locals := by
        split
        · exact ⟨τ₂, .refl, .refl _ ms _, hrec₂⟩
        · -- a loop that has no report scans again all the same
          rename_i hmoved
          have hnone : hooks.deadlock = none := by
            rw [Bool.not_eq_true] at hmoved
            simpa [hmoved] using hrep
          have hstuck := h.loop.stuck_block
          rw [stuckBlock, hnone] at hstuck
          obtain ⟨τ₃, hgoto, rfl⟩ := goto_step hstuck τ₂
          exact ⟨_, .single hgoto, .note _ τ₂, hrec₂⟩
      obtain ⟨b', τ', htop, hunseen, hdue'⟩ := h.top_step _ _ hrec₃.last
      exact ⟨b', τ', .tail (.trans_left (hreach.tail hstep) hagain) htop,
        ((hunseen₁.trans hunseen₂).trans hunseen₃).trans hunseen, hdue'⟩
    | cons look rest =>
      simp only [prioritised, hq] at hchoice
      split_ifs at hchoice with hcond
      cases hchoice
      refine h.look_on hdue htold hq fun hlook => ?_
      by_contra hne
      exact hcond (Bool.and_eq_true_iff.mpr ⟨hlook, bne_iff_ne.mpr hne⟩)
  leave := by
    intro host τ q status b hdue htold hchoice
    cases hq : q.rest with
    | nil =>
      simp only [prioritised, hq] at hchoice
      split_ifs at hchoice with hfin
      obtain ⟨τ', hreach, hunseen, -⟩ := h.scan_end hdue htold hq
      rw [if_pos hfin] at hreach
      obtain ⟨τ'', hexit, rfl⟩ := goto_step h.loop.exit τ'
      exact ⟨_, hreach.tail hexit, hunseen.trans (.note _ _)⟩
    | cons look rest =>
      simp only [prioritised, hq] at hchoice
      split_ifs at hchoice
  report := by
    intro host τ q status b hdue htold hchoice
    cases hq : q.rest with
    | nil =>
      simp only [prioritised, hq] at hchoice
      split_ifs at hchoice with hfin hrep
      obtain ⟨hsome, hmoved⟩ := Bool.and_eq_true_iff.mp hrep
      obtain ⟨u, hu⟩ := Option.isSome_iff_exists.mp hsome
      obtain ⟨τ₁, hreach, hunseen₁, hrec₁⟩ := h.scan_end hdue htold hq
      rw [if_neg hfin] at hreach
      obtain ⟨τ₂, hstep, hunseen₂, -⟩ := h.noProgress_step hrec₁
      rw [if_neg (by simpa using hmoved)] at hstep
      have hstuck := h.loop.stuck_block
      rw [stuckBlock, hu] at hstuck
      exact ⟨u, _, hu, (hreach.tail hstep).tail (congrArg some (runBlock_of hstuck τ₂)),
        (hunseen₁.trans hunseen₂).trans (.note _ _)⟩
    | cons look rest =>
      simp only [prioritised, hq] at hchoice
      split_ifs at hchoice
  apart := by
    rintro q status k locals locals' hsame ⟨⟨look, rest, s, a, b, next, stops, hq, hk, here, goOn, hsub, hshows, hrest, hsweep⟩, hrec⟩
    obtain ⟨-, -, h1, -⟩ := h.bands_at.locals_of_mem (hsub List.mem_cons_self)
    refine ⟨⟨look, rest, s, a, b, next, stops, hq, hk, here, goOn, hsub, hshows, hrest, ?_⟩, ?_⟩
    · rw [hsame s.sweep (.inr (by omega)), hsweep]
    · exact h.recorded_congr hrec fun x hx => hsame x (hx.imp_right And.left)
  passed := by
    rintro q status k locals locals' hsame hone ⟨⟨look, rest, s, a, b, next, stops, hq, hk, here, goOn, hsub, hshows, hrest, hsweep⟩, hrec⟩
    obtain ⟨-, -, h1, -⟩ := h.bands_at.locals_of_mem (hsub List.mem_cons_self)
    refine ⟨⟨look, rest, s, a, b, next, stops, hq, hk, here, goOn, hsub, hshows, hrest, ?_⟩, fun x hx => ?_, hone⟩
    · rw [hsame s.sweep (by omega), hsweep]
    · rw [hsame x.last (h.bands_at.locals_of_mem hx).1]
      exact hrec.last x hx
  ended := by
    rintro host τ q status status' k m outcome
      ⟨⟨look, rest, s, a, b, next, stops, hq, rfl, here, goOn, hsub, hshows, hrest, hsweep⟩, hrec⟩ hm hended - -
    obtain rfl := Option.some.inj (hshows.machine.symm.trans hm)
    have hmem := hsub List.mem_cons_self
    obtain ⟨-, -, h1, h2, -⟩ := h.bands_at.locals_of_mem hmem
    obtain ⟨τ₁, hafter, hunseen₁, hsame⟩ := h.after_steps here τ
    have hrec₁ : Recorded bands l0 cfg.locals.length q τ₁.locals :=
      h.recorded_congr hrec fun x hx => hsame x (hx.imp_right fun hx => ⟨hx.1, by omega⟩)
    have hran : τ.locals s.machine.pollResultLocal ≠ pollBlocked → outcome ≠ .blocked → ∃ b τ',
        Reaches₁ (Stackless.step cfg') ⟨.block s.machine.exitBb, τ⟩ ⟨.block b, τ'⟩ ∧ Unseen cfg.locals.length ms τ τ' ∧
        ScanDue cfg' ms bands n stuck l0 cfg.locals.length
          ((prioritised (bandsOf r ms.length) ms.length hooks.deadlock.isSome).ended q look.who outcome) b τ'.locals := by
      intro hpoll hne
      rw [if_neg hpoll] at hafter
      obtain ⟨b', τ', hreach, hunseen, hdue⟩ := h.ran_steps hmem here hshows hrec₁
      refine ⟨b', τ', hafter.trans hreach, hunseen₁.trans hunseen, ?_⟩
      cases outcome with
      | blocked => exact absurd rfl hne
      | finished => simpa only [prioritised, hq] using hdue
      | ran => simpa only [prioritised, hq] using hdue
    cases outcome with
    | finished => exact hran (by rw [hended.2]; decide) (by rintro ⟨⟩)
    | ran =>
      have hpoll : τ.locals s.machine.pollResultLocal = pollPending := hended
      exact hran (by rw [hpoll]; decide) (by rintro ⟨⟩)
    | blocked =>
      have hpoll : τ.locals s.machine.pollResultLocal = pollBlocked := hended
      rw [if_pos hpoll] at hafter
      have hpass := here.run_passOn τ₁ ((hsame s.sweep (.inr ⟨by omega, h2⟩)).trans hsweep)
      refine ⟨next, _, hafter.tail (congrArg some hpass), hunseen₁.trans (.note _ _), ?_⟩
      have hended : (prioritised (bandsOf r ms.length) ms.length hooks.deadlock.isSome).ended q look.who .blocked =
          { q with rest } := by simp only [prioritised, hq]
      rw [hended]
      exact ⟨⟨stops, goOn, fun x hx => hsub (List.mem_cons_of_mem _ hx), hrest⟩, h.recorded_congr hrec₁ fun x hx => rfl⟩

end

/-- The executor keeps what a region with priorities does: its machines take their turns as the scheduler with priorities
    gives them. -/
theorem priority_preserves (hconf : Conforms hooks cfg r start) (hfind : findRegions hooks cfg = [r])
    (honly : OnlyMarkers hooks cfg r) (hprio : r.coroutines.any (·.priority.isSome) = true)
    (hdead : ∀ u, hooks.deadlock = some u → hooks.marker u = none)
    (hfew : ∀ c ∈ r.coroutines, (findSuspensionPoints hooks cfg c).length < 9999) (loops : List Loop) (rounds : ℕ) :
    ∃ loops' cfg', runWith hooks (cooperative hooks) (rounds + 2) loops cfg = some (loops', cfg') ∧
      ∀ host : Host U, host.Below cfg.locals.length → ∀ σ : Store host, SameRuns hooks
        (prioritised (bandsOf r r.coroutines.length) r.coroutines.length hooks.deadlock.isSome) cfg cfg' r start σ := by
  have hmarked := hconf.toMarked
  have hran := hmarked.ran_once (e := loops) hfind honly hdead (.inl ⟨loops, rfl⟩) rounds
  obtain ⟨cfg', bands, n, stuck, hi, l0, heq, hlooped⟩ := hmarked.looped hprio hconf.stmts_below loops
  rw [heq] at hran
  have hsched := hlooped.schedules
  rw [hlooped.staged.count] at hsched
  exact ⟨_, _, hran, fun host hb σ => hsched.sameRuns hconf hlooped.staged hb hfew σ⟩

/-- Three coroutines in two bands. -/
theorem priority_preserves_crew :
    ∃ loops' cfg', runWith (crewHooks true) (cooperative (crewHooks true)) 2 [] crew = some (loops', cfg') ∧
      ∀ host : Host CrewStmt, host.Below 0 → ∀ σ : Store host, SameRuns (crewHooks true)
        (prioritised (bandsOf (crewRegion true) 3) 3 true) crew cfg' (crewRegion true) 0 σ :=
  priority_preserves crew_conforms crew_found crew_only_markers rfl (by simp [crewHooks]) crew_few [] 0

end Krio.Stackless
