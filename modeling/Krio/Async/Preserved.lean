import Krio.Lib.Simulation
import Krio.Async.Pieces

/-! A lowered program does what the program as written does: between any two polls the frames hold what the functions
still need, and a poll takes each of them up where it stopped. -/

namespace Krio.Async
open Lib StateTransition
open Stackless (leads At)

variable {S F : Type} {host : Host S F} {p : Program S F} {live : F → ℕ → ℕ → Set ℕ}

/-- What the transform asks of a program: `block_ids` lists every block, the calls that `classify` reports are of
    suspending functions, and state ids and slots fit. -/
structure Program.Closed (p : Program S F) : Prop where
  entry : ∀ f, p.isSuspending f = true → (p.body f).ids ≠ []
  next : ∀ f, p.isSuspending f = true → ∀ b ∈ (p.body f).ids, ∀ b' ∈ (p.body f).successors b, b' ∈ (p.body f).ids
  calls : ∀ f, p.isSuspending f = true → ∀ b ∈ (p.body f).ids, ∀ i g receiver args result,
    p.classify (p.body f) b i = some (.crossFnCall g receiver args result) → p.isSuspending g = true
  few : ∀ f, p.isSuspending f = true → (scan (p.body f) p.classify).length < 2 ^ 32
  slots : ∀ f, p.isSuspending f = true →
    (p.options f).reservedSlots + (liveAtSites (p.liveness f) (scan (p.body f) p.classify)).dedup.length ≤ 2 ^ 32 - 1

/-- The host's liveness covers what the function reads: what it does from a place on depends on the locals that are
    live there only, and those that are live after a suspension are in the liveness map. -/
structure Program.Covers (p : Program S F) (host : Host S F) (f : F) (live : ℕ → ℕ → Set ℕ) : Prop where
  stmt : ∀ b ∈ (p.body f).ids, ∀ i s, ((p.body f).stmts b)[i]? = some s → p.classify (p.body f) b i = none →
    ∀ σ τ w, Set.EqOn σ τ (live b i) →
      (host.exec s σ w).2 = (host.exec s τ w).2 ∧ Set.EqOn (host.exec s σ w).1 (host.exec s τ w).1 (live b (i + 1))
  yield : ∀ b ∈ (p.body f).ids, ∀ i s v, ((p.body f).stmts b)[i]? = some s →
    p.classify (p.body f) b i = some (.directYield v) →
    (∀ x ∈ live b (i + 1), x ∈ live b i ∧ x ∈ (p.liveness f).lookup b i) ∧
      ∀ σ τ w, Set.EqOn σ τ (live b i) → host.yielded s σ w = host.yielded s τ w
  call : ∀ b ∈ (p.body f).ids, ∀ i g receiver args result,
    p.classify (p.body f) b i = some (.crossFnCall g receiver args result) →
    (∀ x ∈ live b (i + 1), x ≠ result → x ∈ live b i ∧ x ∈ (p.liveness f).lookup b i) ∧
      (∀ x ∈ receiver, x ∈ live b i) ∧ ∀ x ∈ args, x ∈ live b i
  term : ∀ b ∈ (p.body f).ids, ∀ i, ((p.body f).stmts b)[i]? = none → ∀ σ τ : ℕ → host.Value, Set.EqOn σ τ (live b i) →
    leads (fun x => host.word (σ x)) ((p.body f).term b) = leads (fun x => host.word (τ x)) ((p.body f).term b) ∧
      host.result f σ = host.result f τ ∧ ∀ b' ∈ (p.body f).successors b, live b' 0 ⊆ live b i

/-! ## Places -/

/-- The statement `idx` of the block `b` of `f` is, or would be, the `i`-th of the lowered block `c`. -/
def Program.Stands (p : Program S F) (f : F) (b idx c i : ℕ) : Prop :=
  ∃ l e tails ys rs σ slotOf, p.lower f = some (σ.cfg, l) ∧
    Laid (p.body f) p.classify (p.liveness f) l e tails ys rs σ slotOf ∧ b ∈ (p.body f).ids ∧
    Laid.Stands (p.body f) p.classify tails σ b idx c i

variable (p live) in
/-- Control in the lowered block `c`, with these locals, is where `a` is. -/
def Here (a : Act host) (c i : ℕ) (locals : ℕ → host.Value) : Prop :=
  p.Stands a.fn a.block a.idx c i ∧ Set.EqOn locals a.locals (live a.fn a.block a.idx)

variable (p live) in
/-- The lowered block `c`, with these locals, waits for the call that `a` waits for. -/
def AtCall (a : Act host) (c : ℕ) (locals : ℕ → host.Value) : Prop :=
  ∃ cfg l d g receiver args result, p.lower a.fn = some (cfg, l) ∧
    l.kindAt c = some (.crossFnCallResume d receiver args result g) ∧
    p.classify (p.body a.fn) a.block a.idx = some (.crossFnCall g receiver args result) ∧
    p.Stands a.fn a.block (a.idx + 1) d 0 ∧
    ∀ x ∈ live a.fn a.block (a.idx + 1), x ≠ result → locals x = a.locals x

variable (p) in
/-- Whatever the world is when `frame` is polled, control comes to a block with locals as `P` says. -/
def Resumes (frame : Frame host) (P : ℕ → (ℕ → host.Value) → Prop) : Prop :=
  ∃ cfg l c, p.lower frame.fn = some (cfg, l) ∧ l.resumeEntries[frame.state]? = some c ∧
    ∀ w, P c (Lowered.arrive l frame c w)

variable (p live) in
/-- A poll of `frame` goes on where `a` is. -/
structure Ready (a : Act host) (frame : Frame host) : Prop where
  fn : frame.fn = a.fn
  resumes : Resumes p frame fun c locals => Here p live a c 0 locals

variable (p live) in
/-- A poll of `frame` polls the call that `a` waits for. -/
structure Waits (a : Act host) (frame : Frame host) : Prop where
  fn : frame.fn = a.fn
  resumes : Resumes p frame fun c locals => AtCall p live a c locals

variable (p live) in
structure Runs (a : Act host) (x : Active host) : Prop where
  fn : x.frame.fn = a.fn
  here : Here p live a x.block x.idx x.locals

variable (p live) in
structure Polls (a : Act host) (x : Active host) : Prop where
  waits : Waits p live a x.frame
  atCall : AtCall p live a x.block x.locals

variable (p live) in
/-- The same calls are in progress, and the world is the same. -/
inductive Same : Source host → Lowered host → Prop
  | running {a x as xs w} (runs : Runs p live a x) (polls : List.Forall₂ (Polls p live) as xs) :
    Same ⟨a :: as, w, none⟩ ⟨x :: xs, [], w, none⟩
  | done {w v} : Same ⟨[], w, v⟩ ⟨[], [], w, v⟩

theorem Program.Closed.laid (h : p.Closed) {f : F} (hf : p.isSuspending f = true) :
    ∃ e l tails ys rs σ slotOf, (p.body f).ids.head? = some e ∧ p.lower f = some (σ.cfg, l) ∧
      Laid (p.body f) p.classify (p.liveness f) l e tails ys rs σ slotOf := by
  obtain ⟨e, rest, hids⟩ := List.exists_cons_of_ne_nil (h.entry f hf)
  have he : (p.body f).ids.head? = some e := hids ▸ rfl
  obtain ⟨l, tails, ys, rs, σ, slotOf, heq, hl⟩ := laid_of_transform hf he (h.few f hf) (h.slots f hf)
  exact ⟨e, l, tails, ys, rs, σ, slotOf, he, heq, hl⟩

section
variable {b : Act host} {frame : Frame host} {native xs : List (Active host)} {frames : List (Frame host)} {w : host.World}
  {a : Act host} {x : Active host} {as : List (Act host)} {cs : List (Frame host)}

theorem Resumes.dispatch {P : ℕ → (ℕ → host.Value) → Prop} (h : Resumes p frame P) (native : List (Active host))
    (frames : List (Frame host)) (w : host.World) : ∃ c locals, P c locals ∧
    Lowered.dispatch p frame native frames w = some ⟨⟨frame, c, 0, locals⟩ :: native, frames, w, none⟩ := by
  obtain ⟨cfg, l, c, hlower, hentry, hP⟩ := h
  refine ⟨c, _, hP w, ?_⟩
  simp only [Lowered.dispatch, hlower, hentry, Option.bind_eq_bind, Option.bind_some]

/-- A poll that waits for a call polls the next frame. -/
theorem Polls.step (h : Polls p live a x) {v : Option host.Value} :
    Lowered.step p ⟨x :: xs, frame :: frames, w, v⟩ = Lowered.dispatch p frame (x :: xs) frames w := by
  obtain ⟨cfg, l, d, g, receiver, args, result, hlower, hkind, -⟩ := h.atCall
  rw [← h.waits.fn] at hlower
  simp only [Lowered.step, Lowered.run, hlower, hkind, Option.bind_eq_bind, Option.bind_some]

theorem step_frames {as : List (Act host)} (h : List.Forall₂ (Polls p live) as native) {v : Option host.Value} :
    Lowered.step p ⟨native, frame :: frames, w, v⟩ = Lowered.dispatch p frame native frames w := by
  cases h with
  | nil => rfl
  | cons h hs => exact h.step

/-- From the driver, or from a poll in progress, the polls come down to the innermost frame. -/
theorem descend {bs : List (Act host)} (hwaits : List.Forall₂ (Waits p live) bs cs) (hready : Ready p live a frame)
    (hpolls : List.Forall₂ (Polls p live) as native) : ∃ x xs, Runs p live a x ∧
      List.Forall₂ (Polls p live) (bs.reverse ++ as) xs ∧
      Reaches₁ (Lowered.step p) ⟨native, cs ++ [frame], w, none⟩ ⟨x :: xs, [], w, none⟩ := by
  induction hwaits generalizing as native with
  | nil =>
    obtain ⟨c, locals, hhere, heq⟩ := hready.resumes.dispatch native [] w
    exact ⟨_, native, ⟨hready.fn, hhere⟩, hpolls, .single ((step_frames hpolls).trans heq)⟩
  | @cons b c bs cs hb hbs ih =>
    obtain ⟨e, locals, hcall, heq⟩ := hb.resumes.dispatch native (cs ++ [frame]) w
    have hpoll : Polls p live b ⟨c, e, 0, locals⟩ := ⟨hb, hcall⟩
    obtain ⟨x, xs, hruns, hxs, hreach⟩ := ih (hpolls.cons hpoll)
    refine ⟨x, xs, hruns, ?_, .head ((step_frames hpolls).trans heq) hreach⟩
    rwa [List.reverse_cons, List.append_assoc, List.singleton_append]

/-- Once all polls have returned, the driver's next poll goes on where the innermost call is. -/
theorem unwind_reaches {inner : List (Frame host)} {bs : List (Act host)} (hpolls : List.Forall₂ (Polls p live) as native)
    (hinner : List.Forall₂ (Waits p live) bs inner) (hready : Ready p live a frame) : ∃ x xs, Runs p live a x ∧
      List.Forall₂ (Polls p live) (bs.reverse ++ as) xs ∧
      Reaches₁ (Lowered.step p) (Lowered.unwind native (inner ++ [frame]) w) ⟨x :: xs, [], w, none⟩ := by
  have hframes : List.Forall₂ (Waits p live) as.reverse (native.map (·.frame)).reverse :=
    List.rel_reverse (List.forall₂_map_right_iff.mpr (hpolls.imp fun _ _ h => h.waits))
  have hall := List.rel_append hframes hinner
  obtain ⟨x, xs, hruns, hxs, hreach⟩ := descend (w := w) hall hready (List.Forall₂.nil (R := Polls p live))
  refine ⟨x, xs, hruns, ?_, ?_⟩
  · rwa [List.reverse_append, List.reverse_reverse, List.append_nil] at hxs
  · rwa [List.append_assoc] at hreach

end

/-! ## Steps -/

/-- What was saved at the end of a block is what its resume entry loads. -/
theorem Laid.restored {V D : Type} [DecidableEq V] {body : Cfg S} {classify : Cfg S → ℕ → ℕ → Option (SuspensionSite F V)}
    {liveness : LivenessMap V} {l : StateMachineLayout F V} {e : ℕ} {tails ys rs : List ℕ} {σ : Split S F V} {slotOf : V → ℕ}
    (h : Laid body classify liveness l e tails ys rs σ slotOf) {k y r : ℕ} {s : Site F V} (hs : (scan body classify)[k]? = some s)
    (hy : ys[k]? = some y) (hr : rs[k]? = some r) {v : V} (hv : v ∈ liveness.lookup s.1 s.2.1) (env env' : V → D)
    (frame : ℕ → D) : loadAll (l.loadsAt r) (saveAll (l.savesAt y) env frame) env' v = env v := by
  have hslotted : Slotted slotOf (· ∈ liveAtSites liveness (scan body classify))
      ((liveness.lookup s.1 s.2.1).map fun v => (slotOf v, v)) := fun z hz => by
    obtain ⟨v, hv, rfl⟩ := List.mem_map.mp hz
    exact ⟨rfl, List.mem_flatMap.mpr ⟨s, List.mem_of_getElem? hs, hv⟩⟩
  have hmem : v ∈ ((liveness.lookup s.1 s.2.1).map fun v => (slotOf v, v)).map (·.2) := by
    rw [List.map_map]
    simpa using hv
  have hlive : v ∈ liveAtSites liveness (scan body classify) := List.mem_flatMap.mpr ⟨s, List.mem_of_getElem? hs, hv⟩
  rw [h.savesAt_yield hs hy, h.loadsAt_resume hs hr, loadAll_apply hslotted _ _ hmem, saveAll_apply h.inj hslotted hlive,
    if_pos hmem]

theorem Program.Stands.suspending {f : F} {b idx c i : ℕ} (h : p.Stands f b idx c i) : p.isSuspending f = true := by
  obtain ⟨l, e, tails, ys, rs, σ, slotOf, hlower, hl, -⟩ := h
  by_contra hnot
  have hfalse : p.isSuspending f = false := Bool.not_eq_true _ ▸ hnot
  simp only [Program.lower, transformToStateMachineWithOptions, hfalse, Bool.not_false, if_true] at hlower
  obtain ⟨-, rfl⟩ := Prod.mk.inj (Option.some.inj hlower)
  have hentries := hl.entries
  cases hentries

section
variable {a : Act host} {x : Active host} {as : List (Act host)} {xs : List (Active host)} {frames : List (Frame host)}
  {w : host.World} {cfg : Cfg S} {l : StateMachineLayout F ℕ}

/-- A poll in a block that is no resume entry of a call. -/
theorem run_of_kind (xs : List (Active host)) (frames : List (Frame host)) (w : host.World)
    (hlower : p.lower x.frame.fn = some (cfg, l))
    (hkind : ∀ d receiver args result g, l.kindAt x.block ≠ some (.crossFnCallResume d receiver args result g)) :
    Lowered.run p x xs frames w = match (cfg.stmts x.block)[x.idx]? with
      | some s => some (Lowered.statement cfg l s x xs frames w)
      | none => Lowered.terminator p cfg x xs frames w := by
  simp only [Lowered.run, hlower, Option.bind_eq_bind, Option.bind_some]
  cases hk : l.kindAt x.block with
  | none => rfl
  | some kind =>
    cases kind with
    | directYield => rfl
    | crossFnCallInit r receiver args result g => rfl
    | crossFnCallResume d receiver args result g => exact absurd hk (hkind _ _ _ _ _)

/-- The frame of a call that begins. -/
theorem ready_enter (live : F → ℕ → ℕ → Set ℕ) (hclosed : p.Closed) {g : F} (hg : p.isSuspending g = true) (slots : ℕ → host.Value) :
    ∃ b : Act host, p.enter host g slots = some b ∧ Ready p live b ⟨g, 0, slots⟩ := by
  obtain ⟨e, l, tails, ys, rs, σ, slotOf, he, hlower, hl⟩ := hclosed.laid hg
  have hmem := List.mem_of_mem_head? he
  refine ⟨⟨g, e, 0, host.params g slots⟩, by rw [Program.enter, he]; rfl, rfl, σ.cfg, l, e, hlower, ?_, fun w => ⟨?_, ?_⟩⟩
  · rw [hl.entries]
    rfl
  · exact ⟨l, e, tails, ys, rs, σ, slotOf, hlower, hl, hmem, hl.stands_first hmem⟩
  · intro v _
    rw [Lowered.arrive, hl.loadsAt_entry, if_pos rfl]
    rfl

end

section
variable {a : Act host} {x : Active host} {as : List (Act host)} {xs : List (Active host)} {w : host.World}
  {l : StateMachineLayout F ℕ} {e : ℕ} {tails ys rs : List ℕ} {σ : Split S F ℕ} {slotOf : ℕ → ℕ} {k : ℕ}
variable (hfn : x.frame.fn = a.fn) (hlower : p.lower a.fn = some (σ.cfg, l))
  (hl : Laid (p.body a.fn) p.classify (p.liveness a.fn) l e tails ys rs σ slotOf)
include hfn hlower hl

/-- The frame left at a site resumes behind it, with the live locals as they were. -/
theorem resumes_suspend {site : SuspensionSite F ℕ} {r : ℕ} {P : ℕ → (ℕ → host.Value) → Prop}
    (hk : (scan (p.body a.fn) p.classify)[k]? = some (a.block, a.idx, site)) (hy : ys[k]? = some x.block) (hr : rs[k]? = some r)
    (hP : ∀ locals : ℕ → host.Value, (∀ v ∈ (p.liveness a.fn).lookup a.block a.idx, locals v = x.locals v) → P r locals) :
    Resumes p (Lowered.suspend l x) P := by
  refine ⟨σ.cfg, l, r, hfn ▸ hlower, ?_, fun w => hP _ fun v hv => ?_⟩
  · rw [Lowered.suspend, hl.nextState_yield hy, hl.entries, List.getElem?_cons_succ]
    exact hr
  · exact hl.restored hk hy hr hv _ _ _

theorem ready_yield {v : Option ℕ} {d : ℕ} (hcov : p.Covers host a.fn (live a.fn)) {s : S}
    (hk : (scan (p.body a.fn) p.classify)[k]? = some (a.block, a.idx, .directYield v)) (hy : ys[k]? = some x.block)
    (hd : tails[k]? = some d) (hs : ((p.body a.fn).stmts a.block)[a.idx]? = some s)
    (hst : p.Stands a.fn a.block (a.idx + 1) d 0) (hlocals : Set.EqOn x.locals a.locals (live a.fn a.block a.idx)) :
    Ready p live ⟨a.fn, a.block, a.idx + 1, a.locals⟩ (Lowered.suspend l x) := by
  obtain ⟨hmem, hlt, hclass⟩ := mem_scan.mp (List.mem_of_getElem? hk)
  obtain ⟨-, r, d', -, hr, hd', hok⟩ := hl.at_site hk
  obtain rfl := Option.some.inj (hd.symm.trans hd')
  obtain rfl : r = d := hok
  refine ⟨hfn, resumes_suspend hfn hlower hl hk hy hr fun locals heq => ⟨hst, fun u hu => ?_⟩⟩
  obtain ⟨hu', hin⟩ := (hcov.yield a.block hmem a.idx s v hs hclass).1 u hu
  exact (heq u hin).trans (hlocals hu')

theorem waits_call {g : F} {receiver : Option ℕ} {args : List ℕ} {result d : ℕ} (hcov : p.Covers host a.fn (live a.fn))
    (hk : (scan (p.body a.fn) p.classify)[k]? = some (a.block, a.idx, .crossFnCall g receiver args result))
    (hy : ys[k]? = some x.block) (hd : tails[k]? = some d) (hst : p.Stands a.fn a.block (a.idx + 1) d 0)
    (hlocals : Set.EqOn x.locals a.locals (live a.fn a.block a.idx)) : Waits p live a (Lowered.suspend l x) := by
  obtain ⟨hmem, hlt, hclass⟩ := mem_scan.mp (List.mem_of_getElem? hk)
  obtain ⟨-, r, d', -, hr, -, -⟩ := hl.at_site hk
  refine ⟨hfn, resumes_suspend hfn hlower hl hk hy hr fun locals heq => ?_⟩
  refine ⟨σ.cfg, l, d, g, receiver, args, result, hlower, hl.kindAt_resume hk rfl hr hd, hclass, hst, fun u hu hne => ?_⟩
  obtain ⟨hu', hin⟩ := (hcov.call a.block hmem a.idx g receiver args result hclass).1 u hu hne
  exact (heq u hin).trans (hlocals hu')

end

/-- A caller goes on with the value of its call. -/
theorem Polls.returns {a : Act host} {x : Active host} (h : Polls p live a x) (v : host.Value) {as : List (Act host)}
    {xs : List (Active host)} (hs : List.Forall₂ (Polls p live) as xs) {w : host.World} : ∃ c d,
      Source.returns p v (a :: as) w = some c ∧ Lowered.returns p v (x :: xs) [] w = some d ∧ Same p live c d := by
  obtain ⟨cfg, l, d, g, receiver, args, result, hlower, hkind, hclass, hst, heq⟩ := h.atCall
  have hsame : Here p live ⟨a.fn, a.block, a.idx + 1, Function.update a.locals result v⟩ d 0
      (Function.update x.locals result v) := by
    refine ⟨hst, fun u hu => ?_⟩
    by_cases hu' : u = result
    · subst hu'
      simp only [Function.update_self]
    · exact (Function.update_of_ne hu' _ _).trans ((heq u hu hu').trans (Function.update_of_ne hu' _ _).symm)
  refine ⟨⟨⟨a.fn, a.block, a.idx + 1, Function.update a.locals result v⟩ :: as, w, none⟩,
    ⟨⟨x.frame, d, 0, Function.update x.locals result v⟩ :: xs, [], w, none⟩, ?_, ?_, .running ⟨h.waits.fn, hsame⟩ hs⟩
  · simp only [Source.returns, Act.receive, hclass, Option.map_some]
  · rw [← h.waits.fn] at hlower
    simp only [Lowered.returns, hlower, hkind, Option.bind_eq_bind, Option.bind_some]

variable (hclosed : p.Closed) (hcov : ∀ f, p.isSuspending f = true → p.Covers host f (live f))

include hclosed hcov in
/-- Every step of the program as written is some steps of the lowered one. -/
theorem Same.step {c c' : Source host} {d : Lowered host} (h : Same p live c d) (hstep : Source.step p c = some c') :
    ∃ d', Reaches₁ (Lowered.step p) d d' ∧ Same p live c' d' := by
  cases h with
  | done => cases hstep
  | @running a x as xs w runs polls =>
    obtain ⟨hfn, hstands, hlocals⟩ := runs
    have hsus := hstands.suspending
    have hcov := hcov a.fn hsus
    obtain ⟨l, e, tails, ys, rs, σ, slotOf, hlower, hl, hb, hst⟩ := hstands
    have hgo : ∀ {b idx c i}, b ∈ (p.body a.fn).ids → Laid.Stands (p.body a.fn) p.classify tails σ b idx c i →
        p.Stands a.fn b idx c i := fun hb hst => ⟨l, e, tails, ys, rs, σ, slotOf, hlower, hl, hb, hst⟩
    have hlower' : p.lower x.frame.fn = some (σ.cfg, l) := hfn ▸ hlower
    have hrun : Lowered.step p ⟨x :: xs, [], w, none⟩ = _ :=
      run_of_kind xs [] w hlower' fun _ _ _ _ _ => hl.stands_kind hb hst
    rcases hl.stands_cases hb hst with ⟨s, hs, hclass, hget, hend, hst'⟩ | ⟨s, site, k, t, hs, hclass, hk, hy, hd, hget, hend, hst'⟩ |
      ⟨hs, hget, hterm⟩
    · -- a statement that the function runs
      have hkind : (if x.idx + 1 = σ.cfg.statementCount x.block then l.kindAt x.block else none) = none := by
        split
        · exact hend ‹_›
        · rfl
      simp only [Source.step, hs, Source.statement, hclass, Option.some.injEq] at hstep
      simp only [hget, Lowered.statement, hkind] at hrun
      obtain ⟨hw, heq⟩ := hcov.stmt a.block hb a.idx s hs hclass x.locals a.locals w hlocals
      subst hstep
      refine ⟨_, .single hrun, ?_⟩
      rw [hw]
      exact .running ⟨hfn, hgo hb hst', heq⟩ polls
    · cases site with
      | directYield v =>
        have hkind : (if x.idx + 1 = σ.cfg.statementCount x.block then l.kindAt x.block else none) = some .directYield := by
          obtain ⟨-, r, -, -, hr, -, -⟩ := hl.at_site hk
          rw [if_pos hend]
          exact hl.kindAt_yield hk hy hr
        simp only [Source.step, hs, Source.statement, hclass, Option.some.injEq] at hstep
        simp only [hget, Lowered.statement, hkind] at hrun
        have hw := (hcov.yield a.block hb a.idx s v hs hclass).2 x.locals a.locals w hlocals
        have hready := ready_yield hfn hlower hl hcov hk hy hd hs (hgo hb hst') hlocals
        obtain ⟨x', xs', hruns, hpolls, hreach⟩ := unwind_reaches (w := host.yielded s x.locals w) polls (.nil) hready
        subst hstep
        refine ⟨_, .head hrun hreach, ?_⟩
        rw [hw]
        exact .running hruns hpolls
      | crossFnCall g receiver args result =>
        obtain ⟨-, r, -, -, hr, -, -⟩ := hl.at_site hk
        have hkind : (if x.idx + 1 = σ.cfg.statementCount x.block then l.kindAt x.block else none) =
            some (.crossFnCallInit r receiver args result g) := by
          rw [if_pos hend]
          exact hl.kindAt_yield hk hy hr
        obtain ⟨-, hreceiver, hargs⟩ := hcov.call a.block hb a.idx g receiver args result hclass
        have hrec : receiver.map x.locals = receiver.map a.locals := by
          cases receiver with
          | none => rfl
          | some v => exact congrArg some (hlocals (hreceiver v rfl))
        have harg : args.map x.locals = args.map a.locals := List.map_congr_left fun v hv => hlocals (hargs v hv)
        have hg := hclosed.calls a.fn hsus a.block hb a.idx g receiver args result hclass
        obtain ⟨b, henter, hready⟩ := ready_enter live hclosed hg
          (host.args g (receiver.map a.locals) (args.map a.locals))
        simp only [Source.step, hs, Source.statement, hclass, henter, Option.map_some, Option.some.injEq] at hstep
        simp only [hget, Lowered.statement, hkind, hrec, harg] at hrun
        have hwaits := waits_call hfn hlower hl hcov hk hy hd (hgo hb hst') hlocals
        obtain ⟨x', xs', hruns, hpolls, hreach⟩ := unwind_reaches (w := host.called w) polls (.cons hwaits .nil) hready
        subst hstep
        exact ⟨_, .head hrun hreach, .running hruns hpolls⟩
    · -- the end of the block
      obtain ⟨hleads, hresult, hnext⟩ := hcov.term a.block hb a.idx hs x.locals a.locals hlocals
      simp only [Source.step, hs, Source.terminator] at hstep
      simp only [hget, Lowered.terminator, hterm, hleads, hfn, hresult] at hrun
      cases hplace : leads (fun y => host.word (a.locals y)) ((p.body a.fn).term a.block) with
      | block b' =>
        simp only [hplace, Option.some.injEq] at hstep hrun
        have hsucc := Stackless.leads_successors _ _ hplace
        have hb' := hclosed.next a.fn hsus a.block hb b' hsucc
        subst hstep
        exact ⟨_, .single hrun, .running ⟨hfn, hgo hb' (hl.stands_first hb'), hlocals.mono (hnext b' hsucc)⟩ polls⟩
      | returned =>
        simp only [hplace] at hstep hrun
        cases polls with
        | nil =>
          obtain rfl := Option.some.inj hstep
          exact ⟨_, .single hrun, .done⟩
        | cons h hs =>
          obtain ⟨c, d, hc, hd, hsame⟩ := h.returns (host.result a.fn a.locals) hs (w := w)
          obtain rfl := Option.some.inj (hc.symm.trans hstep)
          exact ⟨d, .single (hrun.trans hd), hsame⟩
      | dead =>
        simp only [hplace] at hstep
        cases hstep

include hclosed hcov in
/-- Where the program as written stops, the lowered one stops. -/
theorem Same.halt {c : Source host} {d : Lowered host} (h : Same p live c d) (hstep : Source.step p c = none) :
    Lowered.step p d = none := by
  cases h with
  | done => rfl
  | @running a x as xs w runs polls =>
    obtain ⟨hfn, hstands, hlocals⟩ := runs
    have hsus := hstands.suspending
    obtain ⟨l, e, tails, ys, rs, σ, slotOf, hlower, hl, hb, hst⟩ := hstands
    have hlower' : p.lower x.frame.fn = some (σ.cfg, l) := hfn ▸ hlower
    have hrun : Lowered.step p ⟨x :: xs, [], w, none⟩ = _ :=
      run_of_kind xs [] w hlower' fun _ _ _ _ _ => hl.stands_kind hb hst
    rcases hl.stands_cases hb hst with ⟨s, hs, hclass, -⟩ | ⟨s, site, k, t, hs, hclass, -⟩ | ⟨hs, hget, hterm⟩
    · simp only [Source.step, hs, Source.statement, hclass] at hstep
      cases hstep
    · -- a site hands over: the call that it enters has an entry
      cases site with
      | directYield v =>
        simp only [Source.step, hs, Source.statement, hclass] at hstep
        cases hstep
      | crossFnCall g receiver args result =>
        have hg := hclosed.calls a.fn hsus a.block hb a.idx g receiver args result hclass
        obtain ⟨b, henter, -⟩ := ready_enter live hclosed hg
          (host.args g (receiver.map a.locals) (args.map a.locals))
        simp only [Source.step, hs, Source.statement, hclass, henter] at hstep
        cases hstep
    · obtain ⟨hleads, -, -⟩ := (hcov a.fn hsus).term a.block hb a.idx hs x.locals a.locals hlocals
      simp only [Source.step, hs, Source.terminator] at hstep
      simp only [hget, Lowered.terminator, hterm, hleads] at hrun
      cases hplace : leads (fun y => host.word (a.locals y)) ((p.body a.fn).term a.block) with
      | block b' =>
        simp only [hplace] at hstep
        cases hstep
      | returned =>
        simp only [hplace] at hstep
        cases polls with
        | nil => cases hstep
        | cons h hs =>
          obtain ⟨c, d, hc, -⟩ := h.returns (host.result a.fn a.locals) hs (w := w)
          cases hc.symm.trans hstep
      | dead =>
        simp only [hplace] at hrun
        exact hrun

include hclosed hcov in
theorem matches_same : Matches (Source.step p) (Lowered.step p) fun _ (c : Source host) d => Same p live c d where
  step n c d c' h hstep := by
    obtain ⟨d', hreach, hsame⟩ := h.step hclosed hcov hstep
    exact .inl ⟨n, d', hreach, hsame⟩
  halt n c d h hstep := h.halt hclosed hcov hstep

/-- `d` is at the same point as `c`: the same functions are in progress, the world is the same, and so is the value
    if the outermost function has returned. -/
structure Alike (c : Source host) (d : Lowered host) : Prop where
  calls : d.native.map (·.frame.fn) = c.stack.map (·.fn)
  world : d.world = c.world
  value : d.value = c.value

theorem Same.alike {c : Source host} {d : Lowered host} (h : Same p live c d) : Alike c d := by
  cases h with
  | done => exact ⟨rfl, rfl, rfl⟩
  | running runs polls =>
    have hmap := (polls.imp fun _ _ h => h.waits.fn.symm)
    have heq := List.forall₂_eq_eq_eq ▸ List.forall₂_map_left_iff.mpr (List.forall₂_map_right_iff.mpr hmap)
    exact ⟨congrArg₂ List.cons runs.fn heq.symm, rfl, rfl⟩

variable (p) in
/-- Polling `frame` in the world `w` does what the call `a` does. Each state of the program as written is one that the
    polls come to, and they come to no others but on the way there; the two end together, in the same world with the
    same value. -/
structure Preserved (a : Act host) (frame : Frame host) (w : host.World) : Prop where
  reached : ∀ c, Reaches (Source.step p) ⟨[a], w, none⟩ c →
    ∃ d, Reaches (Lowered.step p) ⟨[], [frame], w, none⟩ d ∧ Alike c d
  passed : ∀ d, Reaches (Lowered.step p) ⟨[], [frame], w, none⟩ d →
    ∃ c d', Reaches (Source.step p) ⟨[a], w, none⟩ c ∧ Reaches (Lowered.step p) d d' ∧ Alike c d'
  ends : (eval (Source.step p) ⟨[a], w, none⟩).Dom ↔ (eval (Lowered.step p) ⟨[], [frame], w, none⟩).Dom
  results : ∀ c ∈ eval (Source.step p) ⟨[a], w, none⟩, ∀ d ∈ eval (Lowered.step p) ⟨[], [frame], w, none⟩, Alike c d

/-- Lowering a program keeps what it does, from a call of any suspending function with any slots in any world. -/
theorem lowered_preserves (p : Program S F) (live : F → ℕ → ℕ → Set ℕ) (hclosed : p.Closed)
    (hcov : ∀ f, p.isSuspending f = true → p.Covers host f (live f)) {f : F} (hf : p.isSuspending f = true)
    (slots : ℕ → host.Value) (w : host.World) : ∃ a, p.enter host f slots = some a ∧ Preserved p a ⟨f, 0, slots⟩ w := by
  obtain ⟨a, henter, hready⟩ := ready_enter live hclosed hf slots
  obtain ⟨x, xs, hruns, hpolls, hfirst⟩ := descend (w := w) (.nil (R := Waits p live)) hready (.nil (R := Polls p live))
  have hsame : Same p live ⟨[a], w, none⟩ ⟨x :: xs, [], w, none⟩ := .running hruns hpolls
  have hmatches := matches_same hclosed hcov
  have heval : eval (Lowered.step p) ⟨[], [⟨f, 0, slots⟩], w, none⟩ = eval (Lowered.step p) ⟨x :: xs, [], w, none⟩ :=
    reaches_eval hfirst.to_reflTransGen
  obtain ⟨hdom, hresult⟩ := hmatches.eval_iff (n := 0) hsame
  refine ⟨a, henter, fun c hc => ?_, fun d hd => ?_, heval ▸ hdom, fun c hc d hd => ?_⟩
  · obtain ⟨-, d, hd, hR⟩ := hmatches.reaches (n := 0) hsame hc
    exact ⟨d, hfirst.to_reflTransGen.trans hd, hR.alike⟩
  · -- the first poll has not begun, or the source catches up
    rcases reaches_total hd hfirst.to_reflTransGen with hd' | hd'
    · exact ⟨_, _, .refl, hd', hsame.alike⟩
    · obtain ⟨-, c, d', hc, hreach, hR⟩ := hmatches.covers (n := 0) hsame hd'
      exact ⟨c, d', hc, hreach, hR.alike⟩
  · obtain ⟨-, hR⟩ := hresult c hc d (heval ▸ hd)
    exact hR.alike

theorem sampleIds_lt : ∀ b ∈ [0], b < 1 := by
  intro b hb
  rw [List.mem_singleton.mp hb]
  exact Nat.zero_lt_one

theorem sampleIds_nodup : [0].Nodup := List.nodup_singleton 0

/-- The outer function of the sample yields, calls the inner one on its local `3` and returns what it gets; the inner
    one yields and returns. -/
def sampleBody (outer : Bool) : Cfg ℕ where
  ids := [0]
  next := 1
  block := fun _ => ⟨if outer then [0, 1, 0, 2, 0] else [0, 1], .ret⟩
  locals := []
  ids_lt := sampleIds_lt
  ids_nodup := sampleIds_nodup

def sampleProgram : Program ℕ Bool where
  body := sampleBody
  isSuspending := fun _ => true
  classify := fun cfg b i =>
    match (cfg.stmts b)[i]? with
    | some 1 => some (.directYield none)
    | some 2 => some (.crossFnCall false none [3] 4)
    | _ => none
  liveness := fun _ => ⟨[((0, 1), [3, 4]), ((0, 3), [3, 4])]⟩
  options := fun _ => ⟨2⟩

/-- Statements count local `3` up, the world adds up what is yielded, and the first slot holds the argument. -/
def sampleHost : Host ℕ Bool where
  Value := ℤ
  World := ℤ
  exec := fun _ locals w => (Function.update locals 3 (locals 3 + 1), w)
  word := id
  args := fun _ _ args _ => args.headD 0
  params := fun _ slots _ => slots 0
  result := fun outer locals => if outer then locals 4 else locals 3
  yielded := fun _ locals w => w + locals 3
  called := fun w => w + 100
  scratch := fun _ _ _ => 0

theorem sampleProgram_closed : sampleProgram.Closed where
  entry f _ := by cases f <;> decide
  next f _ := by cases f <;> decide
  calls _ _ _ _ _ _ _ _ _ _ := rfl
  few f _ := by cases f <;> decide
  slots f _ := by cases f <;> decide

theorem sampleProgram_site {f : Bool} {b i : ℕ} {site : SuspensionSite Bool ℕ} (hb : b ∈ (sampleProgram.body f).ids)
    (h : sampleProgram.classify (sampleProgram.body f) b i = some site) :
    (sampleProgram.liveness f).lookup b i = [3, 4] ∧
      (site = .directYield none ∨ site = .crossFnCall false none [3] 4) := by
  obtain rfl : b = 0 := List.mem_singleton.mp hb
  have hlt : i < 5 := by
    by_contra hge
    have hlen : ((sampleProgram.body f).stmts 0).length ≤ 5 := by cases f <;> decide
    have hnone : ((sampleProgram.body f).stmts 0)[i]? = none := List.getElem?_eq_none (by omega)
    simp only [sampleProgram] at h hnone
    simp only [hnone] at h
    cases h
  have hall : ∀ f, ∀ i < 5, (sampleProgram.classify (sampleProgram.body f) 0 i).all fun site =>
      (sampleProgram.liveness f).lookup 0 i = [3, 4] ∧
        (site = .directYield none ∨ site = .crossFnCall false none [3] 4) := by decide
  simpa [h] using hall f i hlt

theorem sampleProgram_covers (f : Bool) : sampleProgram.Covers sampleHost f fun _ _ => {3, 4} where
  stmt b _ i s _ _ σ τ w h := by
    refine ⟨rfl, fun x hx => ?_⟩
    have h3 : σ 3 = τ 3 := h (.inl rfl)
    have hexec : ∀ ρ : ℕ → ℤ, (sampleHost.exec s ρ w).1 x = if x = 3 then ρ 3 + 1 else ρ x := fun ρ =>
      Function.update_apply ρ 3 (ρ 3 + 1) x
    have heq := congrArg₂ (fun y z : ℤ => if x = 3 then y + 1 else z) h3 (h hx)
    exact (hexec σ).trans (heq.trans (hexec τ).symm)
  yield b hb i s v _ hclass := by
    obtain ⟨hlookup, -⟩ := sampleProgram_site hb hclass
    refine ⟨fun x hx => ⟨hx, ?_⟩, fun σ τ w h => congrArg (Int.add w) (h (.inl rfl))⟩
    rw [hlookup]
    simpa using hx
  call b hb i g receiver args result hclass := by
    obtain ⟨hlookup, hsite⟩ := sampleProgram_site hb hclass
    obtain hsite | hsite := hsite
    · cases hsite
    · cases hsite
      refine ⟨fun x hx _ => ⟨hx, ?_⟩, fun x hx => ?_, fun x hx => .inl (List.mem_singleton.mp hx)⟩
      · rw [hlookup]
        simpa using hx
      · cases hx
  term b _ i _ σ τ h := by
    refine ⟨rfl, ?_, fun b' hb' => subset_rfl⟩
    have h3 : σ 3 = τ 3 := h (.inl rfl)
    have h4 : σ 4 = τ 4 := h (.inr rfl)
    simp only [sampleHost, h3, h4]

theorem lowered_preserves_sample :
    ∃ a, sampleProgram.enter sampleHost true (fun _ => (5 : ℤ)) = some a ∧
      Preserved sampleProgram a ⟨true, 0, fun _ => (5 : ℤ)⟩ (0 : ℤ) :=
  lowered_preserves sampleProgram (fun _ _ _ => {3, 4}) sampleProgram_closed
    (fun f _ => sampleProgram_covers f) rfl _ _

end Krio.Async
