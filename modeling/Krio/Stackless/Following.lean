import Krio.Lib.Simulation
import Krio.Stackless.Rounds

/-! The body after the transform follows the source: wherever a coroutine is in the source, its machine is, and the loop of
an executor polls the machines as the coroutines take turns. -/

namespace Krio.Stackless
open Lib StateTransition

variable {U : Type} {host : Host U} {hooks : Hooks U} {cfg cfg' : Body U} {r : Region} {start top l0 post k : ℕ}
  {ms : List Machine} {n : ℕ} {E : ℕ → Prop} {sched : Scheduler} {Waits Runs : sched.State → (ℕ → Status) → ℕ → Locals → Prop}
  {q : sched.State} {m : Machine} {c : Coroutine} {status : ℕ → Status} {σ σ' τ τ' υ υ' : Store host}

/-! ## What an executor does -/

/-- The machines' locals tell which coroutines are finished. -/
def Told (ms : List Machine) (status : ℕ → Status) (locals : Locals) : Prop :=
  ∀ k m, ms[k]? = some m → (status k = .finished → Ended m .finished locals) ∧
    (locals m.stateLocal = doneState → status k = .finished)

/-- The loop behind `top` is the scheduler's. It is in a block `b` where `Waits` holds when the scheduler is to choose, and
    while coroutine `k` has its turn, `Runs` holds. Once the scheduler leaves the region, control goes on at `post`. -/
structure Schedules (hooks : Hooks U) (sched : Scheduler) (cfg cfg' : Body U) (r : Region) (ms : List Machine) (l0 top post : ℕ)
    (Waits Runs : sched.State → (ℕ → Status) → ℕ → Locals → Prop) : Prop where
  behind : cfg'.block post = ⟨[], cfg.term r.regionEnd.1⟩
  enters : ∀ {host : Host U} (τ : Store host), ∃ b τ', Reaches (step cfg') ⟨.block top, τ⟩ ⟨.block b, τ'⟩ ∧
    Unseen cfg.locals.length ms τ τ' ∧ Waits sched.start (fun _ => .fresh) b τ'.locals
  turn : ∀ {host : Host U} {τ : Store host} {s : sched.State} {status : ℕ → Status} {b k : ℕ}, Waits s status b τ.locals →
    Told ms status τ.locals → sched.choose status s = .turn k → status k ≠ .finished ∧ ∃ m, ms[k]? = some m ∧
      ∃ τ', Reaches₁ (step cfg') ⟨.block b, τ⟩ ⟨.block m.dispatchBb, τ'⟩ ∧ Unseen cfg.locals.length ms τ τ' ∧
        Runs s status k τ'.locals
  goOn : ∀ {host : Host U} {τ : Store host} {s s' : sched.State} {status : ℕ → Status} {b : ℕ}, Waits s status b τ.locals →
    Told ms status τ.locals → sched.choose status s = .goOn s' →
    ∃ b' τ', Reaches₁ (step cfg') ⟨.block b, τ⟩ ⟨.block b', τ'⟩ ∧ Unseen cfg.locals.length ms τ τ' ∧ Waits s' status b' τ'.locals
  leave : ∀ {host : Host U} {τ : Store host} {s : sched.State} {status : ℕ → Status} {b : ℕ}, Waits s status b τ.locals →
    Told ms status τ.locals → sched.choose status s = .leave →
    ∃ τ', Reaches₁ (step cfg') ⟨.block b, τ⟩ ⟨.block post, τ'⟩ ∧ Unseen cfg.locals.length ms τ τ'
  report : ∀ {host : Host U} {τ : Store host} {s : sched.State} {status : ℕ → Status} {b : ℕ}, Waits s status b τ.locals →
    Told ms status τ.locals → sched.choose status s = .report →
    ∃ u τ', hooks.deadlock = some u ∧ Reaches₁ (step cfg') ⟨.block b, τ⟩ ⟨.dead, (Stmt.host u).exec τ'⟩ ∧
      Unseen cfg.locals.length ms τ τ'
  apart : ∀ {s : sched.State} {status : ℕ → Status} {k : ℕ} {locals locals' : Locals},
    (∀ x, x = cfg.locals.length ∨ l0 ≤ x → locals' x = locals x) → Runs s status k locals → Runs s status k locals'
  passed : ∀ {s : sched.State} {status : ℕ → Status} {k : ℕ} {locals locals' : Locals}, (∀ x, l0 ≤ x → locals' x = locals x) →
    locals' cfg.locals.length = 1 → Runs s status k locals → Runs (sched.passed s) status k locals'
  ended : ∀ {host : Host U} {τ : Store host} {s : sched.State} {status status' : ℕ → Status} {k : ℕ} {m : Machine}
    {outcome : Outcome}, Runs s status k τ.locals → ms[k]? = some m → Ended m outcome τ.locals →
    (∀ j ≠ k, status' j = status j) → (status' k = .finished ↔ outcome = .finished) →
    ∃ b τ', Reaches₁ (step cfg') ⟨.block m.exitBb, τ⟩ ⟨.block b, τ'⟩ ∧ Unseen cfg.locals.length ms τ τ' ∧
      Waits (sched.ended s k outcome) status' b τ'.locals

/-! ## What the two stores have in common -/

/-- What the locals of a machine say of its coroutine. -/
def Holds (hooks : Hooks U) (cfg : Body U) (c : Coroutine) (m : Machine) (locals : Locals) : Status → Prop
  | .fresh => locals m.stateLocal = 0
  | .suspended p => ∃ (k : ℕ) (pt : Point), (findSuspensionPoints hooks cfg c)[k]? = some pt ∧ p = pt.resume ∧
      locals m.stateLocal = (k + 1 : ℕ)
  | .finished => locals m.stateLocal = doneState ∧ locals m.pollResultLocal = pollReady

/-- The user sees the same in both stores, the machines are where the coroutines are, and the loop's locals are as `I` says. -/
structure Good (hooks : Hooks U) (cfg : Body U) (r : Region) (start : ℕ) (ms : List Machine) (I : Locals → Prop)
    (status : ℕ → Status) (σ υ : Store host) : Prop where
  region : Plain cfg r start r.regionBegin.1
  agree : Agree cfg.locals.length σ υ
  holds : ∀ (k : ℕ) (c : Coroutine) (m : Machine), r.coroutines[k]? = some c → ms[k]? = some m →
    Holds hooks cfg c m υ.locals (status k)
  inv : I υ.locals

theorem Holds.congr {locals locals' : Locals} {s : Status} (h : Holds hooks cfg c m locals s)
    (hs : locals' m.stateLocal = locals m.stateLocal) (hp : locals' m.pollResultLocal = locals m.pollResultLocal) :
    Holds hooks cfg c m locals' s := by
  cases s with
  | fresh => exact hs.trans h
  | suspended p =>
    obtain ⟨k, pt, hk, hr, hv⟩ := h
    exact ⟨k, pt, hk, hr, hs.trans hv⟩
  | finished => exact ⟨hs.trans h.1, hp.trans h.2⟩

namespace Good
variable {I I' : Locals → Prop}

theorem quiet (h : Good hooks cfg r start ms I status σ υ) (hq : Unseen cfg.locals.length ms υ υ') (hI : I' υ'.locals) :
    Good hooks cfg r start ms I' status σ υ' :=
  ⟨h.region, h.agree.of_keeps hq.below hq.state hq.trace, fun k c m hc hm =>
    (h.holds k c m hc hm).congr (hq.machines m (List.mem_of_getElem? hm)).1 (hq.machines m (List.mem_of_getElem? hm)).2, hI⟩

/-- A store to a machine's temporaries, the flag or the user's locals changes nothing else. -/
theorem kept (h : Good hooks cfg r start ms I status σ υ) (hloc : MachineLocals cfg.locals.length l0 ms cfg.locals.length)
    (agree : Agree cfg.locals.length σ' υ')
    (keeps : ∀ x, cfg.locals.length < x → ¬Scratch cfg l0 ms x → υ'.locals x = υ.locals x)
    (hI : (∀ x, l0 ≤ x → υ'.locals x = υ.locals x) → I' υ'.locals) : Good hooks cfg r start ms I' status σ' υ' := by
  refine ⟨h.region, agree, fun k c m hc hm => ?_, hI fun x hx => ?_⟩
  · have hmem := List.mem_of_getElem? hm
    obtain ⟨h1, -, h2⟩ := hloc.state_mem m hmem
    obtain ⟨h3, -, h4⟩ := hloc.poll_mem m hmem
    refine (h.holds k c m hc hm).congr (keeps _ (by omega) fun hT => ?_) (keeps _ (by omega) fun hT => ?_)
    · exact (hT.2.2.2 m hmem).1 rfl
    · exact (hT.2.2.2 m hmem).2 rfl
  · have hlt := hloc.progress_mem.2
    refine keeps x (by omega) fun hT => ?_
    have hlt' := hT.2.1
    omega

/-- A statement of the body. -/
theorem exec (h : Good hooks cfg r start ms I status σ υ) (hloc : MachineLocals cfg.locals.length l0 ms cfg.locals.length)
    (hI : ∀ {locals locals'}, (∀ x, x = cfg.locals.length ∨ l0 ≤ x → locals' x = locals x) → I locals → I locals')
    (hb : host.Below cfg.locals.length) {s : Stmt U} (hs : s.Below cfg.locals.length) :
    Good hooks cfg r start ms I status (s.exec σ) (s.exec υ) := by
  obtain ⟨hagree, hkeep⟩ := exec_agree hb hs h.agree
  have hlt := hloc.progress_mem.2
  exact h.kept hloc hagree (fun x hx _ => hkeep x hx.le) fun hx =>
    hI (fun x hx' => hkeep x (hx'.elim (fun heq => heq.ge) fun hle => hlt.le.trans hle)) h.inv

theorem note (h : Good hooks cfg r start ms I status σ υ) (b : ℕ) : Good hooks cfg r start ms I status σ (υ.note (.enter b)) :=
  ⟨h.region, h.agree.note_enter b, h.holds, h.inv⟩

end Good

/-! ## The relation -/

/-- The source is at `a` and the body after the transform at `b`. Where the source is within a block, that block is still
    to be run. -/
inductive Follows (hooks : Hooks U) (cfg cfg' : Body U) (r : Region) (start : ℕ) (ms : List Machine) (l0 post : ℕ)
    (Waits Runs : sched.State → (ℕ → Status) → ℕ → Locals → Prop) : Source host sched.State → Conf host → Prop
  | plain {b i : ℕ} {q : sched.State} {status : ℕ → Status} {σ τ : Store host} (hb : Plain cfg r start b)
      (hi : b = r.regionBegin.1 → i ≤ r.regionBegin.2) (agree : Agree cfg.locals.length σ (partway cfg' b i τ)) :
      Follows hooks cfg cfg' r start ms l0 post Waits Runs ⟨.plain (b, i), q, status, σ⟩ ⟨.block b, τ⟩
  | behind {q : sched.State} {status : ℕ → Status} {σ τ : Store host} (region : Plain cfg r start r.regionBegin.1)
      (agree : Agree cfg.locals.length σ τ) :
      Follows hooks cfg cfg' r start ms l0 post Waits Runs ⟨.plain (after r.regionEnd), q, status, σ⟩ ⟨.block post, τ⟩
  | choose {b : ℕ} {q : sched.State} {status : ℕ → Status} {σ τ : Store host}
      (good : Good hooks cfg r start ms (Waits q status b) status σ τ) :
      Follows hooks cfg cfg' r start ms l0 post Waits Runs ⟨.choose, q, status, σ⟩ ⟨.block b, τ⟩
  | run {k x j : ℕ} {c : Coroutine} {m : Machine} {p : Pos} {q : sched.State} {status : ℕ → Status} {σ τ : Store host}
      (hc : r.coroutines[k]? = some c) (hm : ms[k]? = some m)
      (stands : Stands hooks cfg cfg' (Scratch cfg l0 ms) c m p x j)
      (good : Good hooks cfg r start ms (Runs q status k) status σ (partway cfg' x j τ)) :
      Follows hooks cfg cfg' r start ms l0 post Waits Runs ⟨.run k p, q, status, σ⟩ ⟨.block x, τ⟩
  | receive {k x : ℕ} {c : Coroutine} {m : Machine} {b i : ℕ} {u : U} {q : sched.State} {status : ℕ → Status} {σ τ : Store host}
      (hc : r.coroutines[k]? = some c) (hm : ms[k]? = some m) (here : (cfg.stmts b)[i]? = some (.host u))
      (block : (cfg'.stmts x).take 2 = [.assignI64 cfg.locals.length 1, .recv u])
      (stands : Stands hooks cfg cfg' (Scratch cfg l0 ms) c m (b, i + 1) x 2)
      (good : Good hooks cfg r start ms (Runs q status k) status σ τ) :
      Follows hooks cfg cfg' r start ms l0 post Waits Runs ⟨.receive k (b, i), q, status, σ⟩ ⟨.block x, τ⟩
  | suspend {k j y : ℕ} {c : Coroutine} {m : Machine} {p : Point} {outcome : Outcome} {res : ℤ} {q : sched.State}
      {status : ℕ → Status} {σ τ : Store host} (hc : r.coroutines[k]? = some c) (hm : ms[k]? = some m)
      (hp : (findSuspensionPoints hooks cfg c)[j]? = some p)
      (hres : outcome = .ran ∧ res = pollPending ∨ outcome = .blocked ∧ res = pollBlocked)
      (block : Suspends cfg' m y (j + 1 : ℕ) res) (good : Good hooks cfg r start ms (Runs q status k) status σ τ) :
      Follows hooks cfg cfg' r start ms l0 post Waits Runs ⟨.suspend k p.resume outcome, q, status, σ⟩ ⟨.block y, τ⟩
  | finish {k d : ℕ} {c : Coroutine} {m : Machine} {q : sched.State} {status : ℕ → Status} {σ τ : Store host}
      (hc : r.coroutines[k]? = some c) (hm : ms[k]? = some m) (block : Finishes cfg' m d)
      (good : Good hooks cfg r start ms (Runs q status k) status σ τ) :
      Follows hooks cfg cfg' r start ms l0 post Waits Runs ⟨.finish k, q, status, σ⟩ ⟨.block d, τ⟩
  | stopped {place : At} {q : sched.State} {status : ℕ → Status} {σ τ : Store host} (hplace : ∀ b, place ≠ .block b)
      (agree : Agree cfg.locals.length σ τ) :
      Follows hooks cfg cfg' r start ms l0 post Waits Runs ⟨.stopped place, q, status, σ⟩ ⟨place, τ⟩

/-- How much of its block the source has before it. -/
def Source.ahead (cfg : Body U) (a : Source host sched.State) : ℕ :=
  match a.mode with
  | .plain p | .run _ p | .receive _ p => (cfg.stmts p.1).length - p.2
  | _ => 0

/-- A step of the source is some steps of the other, or none further on in a block. -/
def Matched (hooks : Hooks U) (cfg cfg' : Body U) (r : Region) (start : ℕ) (ms : List Machine) (l0 post : ℕ)
    (Waits Runs : sched.State → (ℕ → Status) → ℕ → Locals → Prop) (n : ℕ) (a : Source host sched.State) (b : Conf host) : Prop :=
  (∃ b', Reaches₁ (step cfg') b b' ∧ Follows hooks cfg cfg' r start ms l0 post Waits Runs a b') ∨
    a.ahead cfg < n ∧ Follows hooks cfg cfg' r start ms l0 post Waits Runs a b

theorem stmt_below (hconf : Conforms hooks cfg r start) {b i : ℕ} (hb : b < cfg.next) {s : Stmt U} (hs : (cfg.stmts b)[i]? = some s) :
    s.Below cfg.locals.length := hconf.stmts_below b hb s (List.mem_of_getElem? hs)

theorem ahead_succ {b i : ℕ} {s : Stmt U} (hs : (cfg.stmts b)[i]? = some s) :
    (cfg.stmts b).length - (i + 1) < (cfg.stmts b).length - i := by
  have hlt := (List.getElem?_eq_some_iff.mp hs).1
  omega

/-! ## Outside the coroutines -/

/-- A terminator outside the coroutines. -/
theorem leads_plain {t : Term} (ht : TermBelow cfg.locals.length t) (hnext : ∀ s ∈ t.successors, Plain cfg r start s)
    (hagree : Agree cfg.locals.length σ τ) :
    Follows hooks cfg cfg' r start ms l0 post Waits Runs ⟨.ofAt (fun p => .plain p) (leads σ.locals t), q, status, σ⟩
      ⟨leads τ.locals t, τ⟩ := by
  rw [leads_agree ht hagree]
  cases hplace : leads τ.locals t with
  | block s => exact .plain (hnext s (leads_successors _ _ hplace)) (fun _ => Nat.zero_le _) (hagree.note_enter s)
  | returned => exact .stopped (fun _ => by rintro ⟨⟩) hagree
  | dead => exact .stopped (fun _ => by rintro ⟨⟩) hagree

/-- Stores above the user's locals are not seen. -/
theorem Agree.assigns {n : ℕ} (f : Machine → ℕ) (v : ℤ) (h : Agree n σ υ) (hf : ∀ m ∈ ms, n ≤ f m) :
    Agree n σ (execAll υ (ms.map fun m => .assignI64 (f m) v)) := by
  induction ms generalizing υ with
  | nil => exact h
  | cons m ms ih =>
    have hle := hf m List.mem_cons_self
    refine ih (h.of_keeps (υ := υ.assign (f m) v) (fun l hl => ?_) rfl rfl) fun m' hm' => hf m' (List.mem_cons_of_mem _ hm')
    exact Function.update_of_ne (by omega) _ _

/-- Behind the region. -/
theorem Follows.step_behind (hconf : Conforms hooks cfg r start) (hbehind : cfg'.block post = ⟨[], cfg.term r.regionEnd.1⟩) (hregion : Plain cfg r start r.regionBegin.1)
    (hagree : Agree cfg.locals.length σ τ) {a : Source host sched.State} {n : ℕ}
    (hstep : Source.step sched hooks cfg r ⟨.plain (after r.regionEnd), q, status, σ⟩ = some a) :
    Matched hooks cfg cfg' r start ms l0 post Waits Runs n a ⟨.block post, τ⟩ := by
  have hlt := hconf.region_lt.2
  obtain ⟨c, hc⟩ := List.exists_mem_of_ne_nil _ hconf.nonempty
  have hne : after r.regionEnd ≠ r.regionBegin := fun heq => by
    have hfst : (after r.regionEnd).1 = r.regionBegin.1 := congrArg Prod.fst heq
    exact (hconf.last_ne hc).2.2.1 hfst
  have hnone : (cfg.stmts (after r.regionEnd).1)[(after r.regionEnd).2]? = none :=
    List.getElem?_eq_none (hconf.end_last.le)
  simp only [Source.step, if_neg hne, Option.some.injEq, Source.advance, hnone] at hstep
  subst hstep
  refine .inl ⟨_, .single (congrArg some (runBlock_of hbehind τ)), ?_⟩
  exact leads_plain (hconf.term_below _ hlt) (fun s hs => .behind hregion hs) (hagree.note_enter post)

section
variable (hconf : Conforms hooks cfg r start) (hst : Staged hooks cfg cfg' r start ms top l0 E)
include hconf hst

/-- The block of `region_begin` up to the marker. -/
theorem head_stmts {b i : ℕ} (hb : Plain cfg r start b) (hi : b = r.regionBegin.1 → i < r.regionBegin.2) :
    (cfg'.stmts b)[i]? = (cfg.stmts b)[i]? := by
  by_cases heq : b = r.regionBegin.1
  · have hlt : r.regionBegin.2 < (cfg.stmts r.regionBegin.1).length := by
      obtain ⟨u, hu⟩ := classify_host hconf.region_begin
      exact (List.getElem?_eq_some_iff.mp hu).1
    have hi := hi heq
    rw [heq, Cfg.stmts, hst.head, List.append_assoc, List.getElem?_append_left]
    · exact List.getElem?_take_of_lt hi
    · rw [List.length_take]
      omega
  · rw [Cfg.stmts, hst.plain b hb heq]
    rfl

variable (hr : Schedules hooks sched cfg cfg' r ms l0 top post Waits Runs)
include hr

/-- The region begins. -/
theorem Follows.begins (hregion : Plain cfg r start r.regionBegin.1)
    (hagree : Agree cfg.locals.length σ (partway cfg' r.regionBegin.1 r.regionBegin.2 τ)) :
    Matched hooks cfg cfg' r start ms l0 post Waits Runs n ⟨.choose, sched.start, fun _ => .fresh, σ⟩
      ⟨.block r.regionBegin.1, τ⟩ := by
  have hlt : r.regionBegin.2 < (cfg.stmts r.regionBegin.1).length := by
    obtain ⟨u, hu⟩ := classify_host hconf.region_begin
    exact (List.getElem?_eq_some_iff.mp hu).1
  have hdrop : (cfg'.stmts r.regionBegin.1).drop r.regionBegin.2 = .nop :: stateInits ms := by
    rw [Cfg.stmts, hst.head, List.append_assoc, List.drop_append_of_le_length (by rw [List.length_take]; omega),
      List.drop_eq_nil_of_le (by rw [List.length_take]; omega)]
    rfl
  have hrun := partway_append (τ := τ) hdrop
  rw [show cfg'.term r.regionBegin.1 = .goto top from congrArg Block.term hst.head, execAll_cons] at hrun
  have hgood : Good hooks cfg r start ms (fun _ => True) (fun _ => .fresh) σ
      (execAll (Stmt.exec (partway cfg' r.regionBegin.1 r.regionBegin.2 τ) .nop) (stateInits ms)) := by
    refine ⟨hregion, hagree.assigns (fun m => m.stateLocal) 0 fun m hm => (hst.locals.state_mem m hm).1, fun k c m hc hm => ?_, trivial⟩
    exact (execAll_assigns (fun m : Machine => m.stateLocal) 0 ms _).2.1 m (List.mem_of_getElem? hm)
  obtain ⟨b, τ', hreach, hunseen, hwaits⟩ := hr.enters (execAll (Stmt.exec (partway cfg' r.regionBegin.1 r.regionBegin.2 τ) .nop)
    (stateInits ms))
  exact .inl ⟨_, .head' (congrArg some hrun) hreach, .choose (hgood.quiet hunseen hwaits)⟩

/-- A step outside the coroutines. -/
theorem Follows.step_plain (hb : host.Below cfg.locals.length) {b i : ℕ} (hplain : Plain cfg r start b)
    (hi : b = r.regionBegin.1 → i ≤ r.regionBegin.2) (hagree : Agree cfg.locals.length σ (partway cfg' b i τ)) {a : Source host sched.State}
    (hstep : Source.step sched hooks cfg r ⟨.plain (b, i), q, status, σ⟩ = some a) :
    Matched hooks cfg cfg' r start ms l0 post Waits Runs ((cfg.stmts b).length - i) a ⟨.block b, τ⟩ := by
  have hlt := hconf.plain_lt hplain
  by_cases hbegin : (b, i) = r.regionBegin
  · simp only [Source.step, hbegin, if_true, Option.some.injEq] at hstep
    subst hstep
    obtain ⟨rfl, rfl⟩ : b = r.regionBegin.1 ∧ i = r.regionBegin.2 := Prod.mk.inj hbegin
    exact Follows.begins hconf hst hr hplain hagree
  · have hi' : b = r.regionBegin.1 → i < r.regionBegin.2 := fun heq =>
      lt_of_le_of_ne (hi heq) fun heq' => hbegin (Prod.ext heq heq')
    have hsame := head_stmts hconf hst hplain hi'
    simp only [Source.step, if_neg hbegin, Option.some.injEq, Source.advance] at hstep
    subst hstep
    cases hs : (cfg.stmts b)[i]? with
    | some s =>
      refine .inr ⟨ahead_succ hs, .plain hplain (fun heq => hi' heq) ?_⟩
      rw [partway_succ (hsame.trans hs)]
      exact (exec_agree hb (stmt_below hconf hlt hs) hagree).1
    | none =>
      -- the block of the begin marker does not end here
      have hne : b ≠ r.regionBegin.1 := fun heq => by
        obtain ⟨u, hu⟩ := classify_host hconf.region_begin
        have hlen := (List.getElem?_eq_some_iff.mp hu).1
        have hge := List.getElem?_eq_none_iff.mp hs
        have hi := hi' heq
        rw [heq] at hge
        omega
      have hterm : cfg'.term b = cfg.term b := congrArg Block.term (hst.plain b hplain hne)
      have hrun := partway_end (τ := τ) (hsame.trans hs)
      rw [hterm] at hrun
      exact .inl ⟨_, .single (congrArg some hrun), leads_plain (hconf.term_below b hlt) (fun s hs => .next hplain hne hs) hagree⟩

end

/-! ## Turns -/

/-- Checks of a machine's state store to its temporaries only. -/
theorem Good.checks {I : Locals → Prop} (h : Good hooks cfg r start ms I status σ υ)
    (hloc : MachineLocals cfg.locals.length l0 ms cfg.locals.length)
    (hI : ∀ {locals locals'}, (∀ x, x = cfg.locals.length ∨ l0 ≤ x → locals' x = locals x) → I locals → I locals')
    {l : List (Stmt U)} {y : ℕ} (hl : ∀ s ∈ l, ∃ d v, Scratch cfg l0 ms d ∧ s = .eqCheckI64 d y v) :
    Good hooks cfg r start ms I status σ (execAll υ l) := by
  induction l generalizing υ with
  | nil => exact h
  | cons s l ih =>
    obtain ⟨d, v, hd, rfl⟩ := hl s List.mem_cons_self
    have hgt := hd.gt
    refine ih (h.kept hloc (h.agree.of_keeps (fun l hl => ?_) rfl rfl) (fun x _ hT => ?_) fun hx => hI (fun x hx' => ?_) h.inv)
      fun s hs => hl s (List.mem_cons_of_mem _ hs)
    · exact Function.update_of_ne (by omega) _ _
    · have hne : x ≠ d := by
        rintro rfl
        exact hT hd
      exact Function.update_of_ne hne _ _
    · rcases hx' with rfl | hle
      · exact Function.update_of_ne hgt.ne _ _
      · exact hx x hle

section
variable (hconf : Conforms hooks cfg r start) (hst : Staged hooks cfg cfg' r start ms top l0 E)
  (hr : Schedules hooks sched cfg cfg' r ms l0 top post Waits Runs)
  (hfew : ∀ c ∈ r.coroutines, (findSuspensionPoints hooks cfg c).length < 9999) (hb : host.Below cfg.locals.length)
include hconf hst hr hfew

/-- A coroutine that is not finished goes on where it was. -/
theorem Follows.dispatched (hc : r.coroutines[k]? = some c) (hm : ms[k]? = some m)
    (hgood : Good hooks cfg r start ms (Runs q status k) status σ τ) {p : Pos}
    (hp : status k = .fresh ∧ p = after c.begin ∨ status k = .suspended p) :
    ∃ b', step cfg' ⟨.block m.dispatchBb, τ⟩ = some b' ∧
      Follows hooks cfg cfg' r start ms l0 post Waits Runs ⟨.run k p, q, status, σ⟩ b' := by
  have hd : Drives r ms m c := ⟨k, hc, hm⟩
  obtain ⟨F, entry, entries, done, hF, hl⟩ := hst.lowered m c hd
  have hmem := List.mem_of_getElem? hc
  have hholds := hgood.holds k c m hc hm
  have hstands : ∃ (i e j : ℕ), τ.locals m.stateLocal = i ∧ (i : ℤ) ≠ doneState ∧ (entry :: entries)[i]? = some e ∧
      Stands hooks cfg cfg' (Scratch cfg l0 ms) c m p e j ∧ ∀ υ : Store host, partway cfg' e j υ = υ.note (.enter e) := by
    rcases hp with ⟨hfresh, rfl⟩ | hsus
    · rw [hfresh] at hholds
      refine ⟨0, entry, 1, hholds, by decide, rfl, hst.stands_entry hd hl (hconf.leadIn hmem), fun υ => ?_⟩
      have hblock := hl.entry_block
      rw [hconf.leadIn hmem, List.nil_append] at hblock
      rw [partway, Cfg.stmts, hblock]
      rfl
    · rw [hsus] at hholds
      obtain ⟨j, pt, hj, rfl, hstate⟩ := hholds
      have hlt := (List.getElem?_eq_some_iff.mp hj).1
      have hlt' := hfew c hmem
      have hle : j < entries.length := hl.count ▸ hlt
      have he : entries[j]? = some entries[j] := List.getElem?_eq_getElem hle
      refine ⟨j + 1, entries[j], 0, hstate, ?_, he, hst.stands_resume hd hl hj he, fun υ => rfl⟩
      rw [doneState]
      omega
  obtain ⟨i, e, j, hstate, hne, he, hstands, hpart⟩ := hstands
  obtain ⟨l, hl', hrun⟩ := hl.dispatch_enters τ hstate hne he
  refine ⟨_, congrArg some hrun, .run hc hm hstands ?_⟩
  rw [hpart]
  exact ((hgood.note _).checks hst.locals hr.apart hl').note e

omit hconf hr in
/-- The state locals tell which coroutines are finished: no other state is taken for that of a finished one. -/
theorem Good.told {I : Locals → Prop} (hgood : Good hooks cfg r start ms I status σ τ) : Told ms status τ.locals := by
  intro k m hm
  have hlt : k < r.coroutines.length := hst.count ▸ (List.getElem?_eq_some_iff.mp hm).1
  have hholds := hgood.holds k _ m (List.getElem?_eq_getElem hlt) hm
  cases hs : status k with
  | fresh =>
    rw [hs] at hholds
    refine ⟨by rintro ⟨⟩, fun heq => ?_⟩
    rw [show τ.locals m.stateLocal = 0 from hholds] at heq
    exact absurd heq (by decide)
  | suspended p =>
    rw [hs] at hholds
    obtain ⟨j, pt, hj, -, hstate⟩ := hholds
    have hlt' := (List.getElem?_eq_some_iff.mp hj).1
    have hlt'' := hfew _ (List.getElem_mem hlt)
    refine ⟨by rintro ⟨⟩, fun heq => ?_⟩
    rw [hstate, doneState] at heq
    omega
  | finished =>
    rw [hs] at hholds
    exact ⟨fun _ => hholds, fun _ => rfl⟩

include hb in
/-- The scheduler chooses. -/
theorem Follows.step_choose {b : ℕ} (hgood : Good hooks cfg r start ms (Waits q status b) status σ τ)
    {a : Source host sched.State} {n : ℕ} (hstep : Source.schedule hooks r ⟨.choose, q, status, σ⟩ = some a) :
    Matched hooks cfg cfg' r start ms l0 post Waits Runs n a ⟨.block b, τ⟩ := by
  have htold := Good.told hst hfew hgood
  rw [Source.schedule] at hstep
  cases hchoice : sched.choose status q with
  | turn k =>
    obtain ⟨hne, m, hm, τ', hreach, hunseen, hruns⟩ := hr.turn hgood.inv htold hchoice
    have hlt : k < r.coroutines.length := hst.count ▸ (List.getElem?_eq_some_iff.mp hm).1
    have hc : r.coroutines[k]? = some r.coroutines[k] := List.getElem?_eq_getElem hlt
    have hgo : ∀ p, status k = .fresh ∧ p = after r.coroutines[k].begin ∨ status k = .suspended p →
        Matched hooks cfg cfg' r start ms l0 post Waits Runs n ⟨.run k p, q, status, σ⟩ ⟨.block b, τ⟩ := by
      intro p hp
      obtain ⟨b', hb', hfollows⟩ := Follows.dispatched hconf hst hr hfew hc hm (hgood.quiet hunseen hruns) hp
      exact .inl ⟨b', hreach.tail hb', hfollows⟩
    cases hs : status k with
    | fresh =>
      simp only [hchoice, Source.turn, hc, hs, Option.some.injEq] at hstep
      exact hstep ▸ hgo _ (.inl ⟨hs, rfl⟩)
    | suspended p =>
      simp only [hchoice, Source.turn, hc, hs, Option.some.injEq] at hstep
      exact hstep ▸ hgo _ (.inr hs)
    | finished => exact absurd hs hne
  | goOn q' =>
    obtain ⟨b', τ', hreach, hunseen, hwaits⟩ := hr.goOn hgood.inv htold hchoice
    simp only [hchoice, Option.some.injEq] at hstep
    subst hstep
    exact .inl ⟨_, hreach, .choose (hgood.quiet hunseen hwaits)⟩
  | leave =>
    obtain ⟨τ', hreach, hunseen⟩ := hr.leave hgood.inv htold hchoice
    simp only [hchoice, Option.some.injEq] at hstep
    subst hstep
    exact .inl ⟨_, hreach, .behind hgood.region (hgood.agree.of_keeps hunseen.below hunseen.state hunseen.trace)⟩
  | report =>
    obtain ⟨u, τ', hu, hreach, hunseen⟩ := hr.report hgood.inv htold hchoice
    simp only [hchoice, hu, Option.map_some, Option.some.injEq] at hstep
    subst hstep
    refine .inl ⟨_, hreach, .stopped (fun _ => by rintro ⟨⟩) ?_⟩
    exact (exec_agree hb (s := .host u) trivial (hgood.agree.of_keeps hunseen.below hunseen.state hunseen.trace)).1

omit hconf in
/-- The scheduler can do what it chooses. -/
theorem Follows.schedule_isSome {b : ℕ} (hgood : Good hooks cfg r start ms (Waits q status b) status σ τ) :
    (Source.schedule hooks r (⟨.choose, q, status, σ⟩ : Source host sched.State)).isSome := by
  have htold := Good.told hst hfew hgood
  rw [Source.schedule]
  cases hchoice : sched.choose status q with
  | turn k =>
    obtain ⟨hne, m, hm, -⟩ := hr.turn hgood.inv htold hchoice
    have hlt : k < r.coroutines.length := hst.count ▸ (List.getElem?_eq_some_iff.mp hm).1
    cases hs : status k with
    | fresh => simp only [Source.turn, List.getElem?_eq_getElem hlt, hs, Option.isSome_some]
    | suspended p => simp only [Source.turn, List.getElem?_eq_getElem hlt, hs, Option.isSome_some]
    | finished => exact absurd hs hne
  | goOn q' => rfl
  | leave => rfl
  | report =>
    obtain ⟨u, -, hu, -⟩ := hr.report hgood.inv htold hchoice
    rw [hu]
    rfl

end

/-! ## Inside a coroutine -/

/-- A statement that is no suspension. -/
theorem run_of_free {p : Pos} {a : Source host sched.State} (hne : p ≠ c.last)
    (hfree : ∀ mk, hooks.classifyMarker cfg p.1 p.2 = some mk → SuspKind.ofMarker mk = none) :
    Source.run hooks cfg k c p a = some (Source.advance cfg (.run k) p a) := by
  rw [Source.run, if_neg hne]
  cases hmk : hooks.classifyMarker cfg p.1 p.2 with
  | none => rfl
  | some mk =>
    have hnone := hfree mk hmk
    cases mk <;> first | rfl | cases hnone

section
variable (hconf : Conforms hooks cfg r start) (hst : Staged hooks cfg cfg' r start ms top l0 E)
  (hr : Schedules hooks sched cfg cfg' r ms l0 top post Waits Runs) (hc : r.coroutines[k]? = some c) (hm : ms[k]? = some m)
include hconf hst hc hm

/-- A terminator of a coroutine's body. -/
theorem leads_body {b : ℕ} (hin : Inside cfg c b) (hne : b ≠ c.last.1)
    (hgood : Good hooks cfg r start ms (Runs q status k) status σ υ) :
    Follows hooks cfg cfg' r start ms l0 post Waits Runs ⟨.ofAt (fun p => .run k p) (leads σ.locals (cfg.term b)), q, status, σ⟩
      ⟨leads υ.locals (cfg.term b), υ⟩ := by
  have hmem := List.mem_of_getElem? hc
  have hlt := hconf.inside_lt hmem hin
  rw [leads_agree (hconf.term_below b hlt) hgood.agree]
  cases hplace : leads υ.locals (cfg.term b) with
  | block s =>
    have hd : Drives r ms m c := ⟨k, hc, hm⟩
    obtain ⟨F, entry, entries, done, hF, hl⟩ := hst.lowered m c hd
    have hsucc : s ∈ cfg.successors b := leads_successors _ _ hplace
    have hnot : s ≠ c.begin.1 := fun heq => hconf.entered_once c hmem b hin hne (heq ▸ hsucc)
    exact .run hc hm (hst.stands_first hd hF hl (hconf.ends c hmem) (.next hin hne hsucc) hnot) (hgood.note s)
  | returned => exact .stopped (fun _ => by rintro ⟨⟩) hgood.agree
  | dead => exact .stopped (fun _ => by rintro ⟨⟩) hgood.agree

include hr

/-- A coroutine looks at its guard. -/
theorem Follows.step_look {p : Point} {j e : ℕ} {F : ℕ → Prop} (hp : (findSuspensionPoints hooks cfg c)[j]? = some p)
    (site : Site (cfg.block p.bb) cfg' F (Scratch cfg l0 ms) m (j + 1 : ℕ) p e) (hkind : p.kind = .guardedRecv)
    (hgood : Good hooks cfg r start ms (Runs q status k) status σ (τ.note (.enter e))) (hb : host.Below cfg.locals.length)
    {a : Source host sched.State} (hstep : Source.look cfg k (p.bb, p.stmt) ⟨.run k (p.bb, p.stmt), q, status, σ⟩ = some a) :
    ∃ b', step cfg' ⟨.block e, τ⟩ = some b' ∧ Follows hooks cfg cfg' r start ms l0 post Waits Runs a b' := by
  have hd : Drives r ms m c := ⟨k, hc, hm⟩
  obtain ⟨hin, hlast, -⟩ := hst.points hd.mem.2 p (List.mem_of_getElem? hp)
  cases site with
  | yield kind => cases hkind.symm.trans kind
  | send kind => cases hkind.symm.trans kind
  | @guard e x y d u kind hg hx hy hscratch suspends here guards tail =>
    have here : (cfg.stmts p.bb)[p.stmt]? = some (.host u) := here
    simp only [Source.look, here, Option.some.injEq] at hstep
    obtain ⟨hready, hagree⟩ := hgood.agree.look hb u
    have hgt := hscratch.gt
    have hlook : Good hooks cfg r start ms (Runs q status k) status (σ.look u).2
        (execAll (τ.note (.enter e)) [Stmt.peek u d]) := by
      refine hgood.kept hst.locals (hagree.of_keeps (fun l hl => ?_) rfl rfl) (fun x _ hT => ?_) fun hx =>
        hr.apart (fun x hx' => ?_) hgood.inv
      · exact Function.update_of_ne (by omega) _ _
      · have hne : x ≠ d := by
          rintro rfl
          exact hT hscratch
        exact Function.update_of_ne hne _ _
      · rcases hx' with rfl | hle
        · exact Function.update_of_ne hgt.ne _ _
        · exact hx x hle
    have hcond : (execAll (τ.note (.enter e)) [Stmt.peek u d]).locals d = ofBool (σ.look u).1 := by
      rw [hready]
      exact Function.update_self _ _ _
    refine ⟨_, congrArg some (runBlock_of guards τ), ?_⟩
    subst hstep
    simp only [leads, hcond]
    cases hlk : (σ.look u).1 with
    | true =>
      have hprog := hst.locals.progress_eq m hd.mem.1
      have htail : cfg'.block x = ⟨.assignI64 m.progressLocal 1 :: .recv u :: (cfg.stmts p.bb).drop (p.stmt + 1), cfg.term p.bb⟩ := tail
      refine .receive hc hm here ?_ (.copy hin hlast ?_ ?_ (hconf.free_behind hd.mem.2 (List.mem_of_getElem? hp))) hlook
      · change (cfg'.stmts x).take 2 = _
        rw [Cfg.stmts, htail, hprog]
        rfl
      · change (cfg'.stmts x).drop 2 = _
        rw [Cfg.stmts, htail]
        rfl
      · change cfg'.term x = _
        rw [Cfg.term, htail]
    | false =>
      have hresume : p.resume = (p.bb, p.stmt) := by simp only [Point.resume, hkind]
      rw [← hresume]
      exact .suspend hc hm hp (.inr ⟨rfl, rfl⟩) suspends hlook

variable (hb : host.Below cfg.locals.length)
include hb

/-- A statement that the body has where the coroutine is, and that is no suspension. -/
theorem Follows.step_stmt {b i x j : ℕ} {s : Stmt U} (hin : Inside cfg c b) (hs : (cfg.stmts b)[i]? = some s)
    (hs' : (cfg'.stmts x)[j]? = some s) (hnext : Stands hooks cfg cfg' (Scratch cfg l0 ms) c m (b, i + 1) x (j + 1))
    (hgood : Good hooks cfg r start ms (Runs q status k) status σ (partway cfg' x j τ)) :
    Matched hooks cfg cfg' r start ms l0 post Waits Runs ((cfg.stmts b).length - i)
      (Source.advance cfg (.run k) (b, i) ⟨.run k (b, i), q, status, σ⟩) ⟨.block x, τ⟩ := by
  have hlt := hconf.inside_lt (List.mem_of_getElem? hc) hin
  simp only [Source.advance, hs]
  refine .inr ⟨ahead_succ hs, .run hc hm hnext ?_⟩
  rw [partway_succ hs']
  exact hgood.exec hst.locals hr.apart hb (stmt_below hconf hlt hs)

/-- A coroutine in the block of a suspension, up to the suspension. -/
theorem Follows.step_head {p : Point} {j e i : ℕ} {F : ℕ → Prop} (hp : (findSuspensionPoints hooks cfg c)[j]? = some p)
    (site : Site (cfg.block p.bb) cfg' F (Scratch cfg l0 ms) m (j + 1 : ℕ) p e) (hne : e ≠ p.bb) (hi : i ≤ p.stmt)
    (hgood : Good hooks cfg r start ms (Runs q status k) status σ (partway cfg' p.bb i τ)) {a : Source host sched.State}
    (hstep : Source.run hooks cfg k c (p.bb, i) ⟨.run k (p.bb, i), q, status, σ⟩ = some a) :
    Matched hooks cfg cfg' r start ms l0 post Waits Runs ((cfg.stmts p.bb).length - i) a ⟨.block p.bb, τ⟩ := by
  have hmem := List.mem_of_getElem? hc
  have hpm := List.mem_of_getElem? hp
  obtain ⟨hreach, mk, hmk, hk⟩ := (hconf.mem_points hmem).mp hpm
  obtain ⟨hin, hlast, -⟩ := hst.points hmem p hpm
  have hlt := hconf.inside_lt hmem hin
  obtain ⟨u, hu⟩ := classify_host hmk
  have hlen := (List.getElem?_eq_some_iff.mp hu).1
  have hnl : ∀ i, (p.bb, i) ≠ c.last := fun i heq => hlast (congrArg Prod.fst heq)
  by_cases hi' : i = p.stmt
  · -- the suspension itself
    subst hi'
    rw [Source.run, if_neg (hnl _), hmk] at hstep
    cases site with
    | @yield y e kind hy he suspends head tail =>
      rw [kind] at hk
      obtain rfl : mk = .yield := SuspKind.ofMarker_eq_some hk
      obtain rfl := Option.some.inj hstep
      have hdrop : (cfg'.stmts p.bb).drop p.stmt = [.nop] := by
        rw [Cfg.stmts, head]
        exact List.drop_left' (List.length_take_of_le hlen.le)
      have hrun := partway_append (τ := τ) hdrop
      rw [show cfg'.term p.bb = .goto y from congrArg Block.term head] at hrun
      have hresume : p.resume = after (p.bb, p.stmt) := by simp only [Point.resume, kind, after]
      rw [← hresume]
      exact .inl ⟨_, .single (congrArg some hrun), .suspend hc hm hp (.inl ⟨rfl, rfl⟩) suspends hgood⟩
    | @send y e kind hy he suspends head tail =>
      rw [kind] at hk
      obtain rfl : mk = .producingSend := SuspKind.ofMarker_eq_some hk
      simp only [Source.advance, hu, Option.some.injEq] at hstep
      subst hstep
      have hdrop : (cfg'.stmts p.bb).drop p.stmt = [.host u] := by
        rw [Cfg.stmts, head]
        have hget : (cfg.stmts p.bb).take (p.stmt + 1) = (cfg.stmts p.bb).take p.stmt ++ [.host u] := by
          rw [List.take_add_one, hu]
          rfl
        refine (congrArg (List.drop p.stmt) hget).trans ?_
        exact List.drop_left' (List.length_take_of_le hlen.le)
      have hrun := partway_append (τ := τ) hdrop
      rw [show cfg'.term p.bb = .goto y from congrArg Block.term head] at hrun
      have hresume : p.resume = after (p.bb, p.stmt) := by simp only [Point.resume, kind, after]
      rw [← hresume]
      exact .inl ⟨_, .single (congrArg some hrun), .suspend hc hm hp (.inl ⟨rfl, rfl⟩) suspends
        (hgood.exec hst.locals hr.apart hb (s := .host u) trivial)⟩
    | @guard e x y d u' kind hg hx hy hscratch suspends here guards tail =>
      rw [kind] at hk
      obtain rfl : mk = .guardedRecv := SuspKind.ofMarker_eq_some hk
      rcases hg with ⟨-, heq⟩ | ⟨h0, hFg, hblock⟩
      · exact absurd heq hne
      · have hnone : (cfg'.stmts p.bb)[p.stmt]? = none := by
          rw [Cfg.stmts, hblock]
          exact List.getElem?_eq_none (List.length_take_le _ _)
        have hrun := partway_end (τ := τ) hnone
        rw [show cfg'.term p.bb = .goto e from congrArg Block.term hblock] at hrun
        obtain ⟨b', hb', hfollows⟩ := Follows.step_look hconf hst hr hc hm hp
          (.guard kind (.inr ⟨h0, hFg, hblock⟩) hx hy hscratch suspends here guards tail) kind (hgood.note e) hb hstep
        exact .inl ⟨b', .head (congrArg some hrun) (.single hb'), hfollows⟩
  · have hlt' : i < p.stmt := lt_of_le_of_ne hi hi'
    have hfree : ∀ mk', hooks.classifyMarker cfg p.bb i = some mk' → SuspKind.ofMarker mk' = none := fun mk' hmk' =>
      absurd (hconf.suspension_alone hlt hmk hk hmk') (Ne.symm hi')
    rw [run_of_free (hnl i) hfree] at hstep
    obtain rfl := Option.some.inj hstep
    have hs : (cfg.stmts p.bb)[i]? = some (cfg.stmts p.bb)[i] := List.getElem?_eq_getElem (hlt'.trans hlen)
    have hs' : (cfg'.stmts p.bb)[i]? = (cfg.stmts p.bb)[i]? := by
      cases site with
      | yield kind hy he suspends head tail =>
        rw [Cfg.stmts, head]
        refine (List.getElem?_append_left ?_).trans (List.getElem?_take_of_lt hlt')
        exact (List.length_take_of_le hlen.le).symm ▸ hlt'
      | send kind hy he suspends head tail =>
        rw [Cfg.stmts, head]
        exact List.getElem?_take_of_lt (hlt'.trans (Nat.lt_succ_self _))
      | guard kind hg =>
        rcases hg with ⟨-, heq⟩ | ⟨-, -, hblock⟩
        · exact absurd heq hne
        · rw [Cfg.stmts, hblock]
          exact List.getElem?_take_of_lt hlt'
    exact Follows.step_stmt hconf hst hr hc hm hb hin hs (hs'.trans hs) (.head hp site hne hlt') hgood

/-- A coroutine runs on. -/
theorem Follows.step_run {p : Pos} {x j : ℕ} (hstands : Stands hooks cfg cfg' (Scratch cfg l0 ms) c m p x j)
    (hgood : Good hooks cfg r start ms (Runs q status k) status σ (partway cfg' x j τ)) {a : Source host sched.State}
    (hstep : Source.run hooks cfg k c p ⟨.run k p, q, status, σ⟩ = some a) :
    Matched hooks cfg cfg' r start ms l0 post Waits Runs ((cfg.stmts p.1).length - p.2) a ⟨.block x, τ⟩ := by
  have hmem := List.mem_of_getElem? hc
  cases hstands with
  | @copy b i x j hin hne hrest hterm hfree =>
    have hnl : (b, i) ≠ c.last := fun heq => hne (congrArg Prod.fst heq)
    rw [run_of_free hnl (hfree i le_rfl)] at hstep
    obtain rfl := Option.some.inj hstep
    have hsame : (cfg'.stmts x)[j]? = (cfg.stmts b)[i]? := by
      have hget := congrArg (fun l => l[0]?) hrest
      simpa only [List.getElem?_drop, Nat.add_zero] using hget
    cases hs : (cfg.stmts b)[i]? with
    | some s =>
      have hrest' : (cfg'.stmts x).drop (j + 1) = (cfg.stmts b).drop (i + 1) := by
        rw [← List.tail_drop, ← List.tail_drop, hrest]
      exact Follows.step_stmt hconf hst hr hc hm hb hin hs (hsame.trans hs)
        (.copy hin hne hrest' hterm fun l hl => hfree l (Nat.le_of_succ_le hl)) hgood
    | none =>
      have hrun := partway_end (τ := τ) (hsame.trans hs)
      rw [hterm] at hrun
      simp only [Source.advance, hs]
      exact .inl ⟨_, .single (congrArg some hrun), leads_body hconf hst hc hm hin hne hgood⟩
  | head hp site hne hi => exact Follows.step_head hconf hst hr hc hm hb hp site hne hi hgood hstep
  | @guard p j e F hp site kind =>
    obtain ⟨hin, hlast, -⟩ := hst.points hmem p (List.mem_of_getElem? hp)
    have hnl : (p.bb, p.stmt) ≠ c.last := fun heq => hlast (congrArg Prod.fst heq)
    obtain ⟨-, mk, hmk, hk⟩ := (hconf.mem_points hmem).mp (List.mem_of_getElem? hp)
    rw [kind] at hk
    obtain rfl : mk = .guardedRecv := SuspKind.ofMarker_eq_some hk
    rw [Source.run, if_neg hnl, hmk] at hstep
    obtain ⟨b', hb', hfollows⟩ := Follows.step_look hconf hst hr hc hm hp site kind hgood hb hstep
    exact .inl ⟨b', .single hb', hfollows⟩
  | @last d _ hd hi block =>
    have hlen := (hconf.ends c hmem)
    have hlt : c.last.2 < (cfg.stmts c.last.1).length := by omega
    by_cases hi' : j = c.last.2
    · subst hi'
      rw [Source.run, if_pos rfl] at hstep
      obtain rfl := Option.some.inj hstep
      have hdrop : (cfg'.stmts c.last.1).drop c.last.2 = [.nop] := by
        rw [Cfg.stmts, block]
        exact List.drop_left' (List.length_take_of_le hlt.le)
      have hrun := partway_append (τ := τ) hdrop
      rw [show cfg'.term c.last.1 = .goto d from congrArg Block.term block] at hrun
      exact .inl ⟨_, .single (congrArg some hrun), .finish hc hm hd hgood⟩
    · have hlt' : j < c.last.2 := lt_of_le_of_ne hi hi'
      have hnl : (c.last.1, j) ≠ c.last := fun heq => hi' (congrArg Prod.snd heq)
      have hfree : ∀ mk, hooks.classifyMarker cfg c.last.1 j = some mk → SuspKind.ofMarker mk = none := by
        intro mk hmk
        by_contra hsome
        obtain ⟨kd, hkd⟩ := Option.ne_none_iff_exists'.mp hsome
        exact ((hconf.suspension_block (hconf.mem_markers_lt hmem).2 hmk hkd).2.2 c hmem).2 rfl
      rw [run_of_free hnl hfree] at hstep
      obtain rfl := Option.some.inj hstep
      have hs : (cfg.stmts c.last.1)[j]? = some (cfg.stmts c.last.1)[j] := List.getElem?_eq_getElem (hlt'.trans hlt)
      have hs' : (cfg'.stmts c.last.1)[j]? = (cfg.stmts c.last.1)[j]? := by
        rw [Cfg.stmts, block]
        refine (List.getElem?_append_left ?_).trans (List.getElem?_take_of_lt hlt')
        exact (List.length_take_of_le hlt.le).symm ▸ hlt'
      exact Follows.step_stmt hconf hst hr hc hm hb .last hs (hs'.trans hs) (.last hd hlt' block) hgood

omit hconf in
/-- A coroutine takes what it waited for. -/
theorem Follows.step_receive {b i x : ℕ} {u : U} (here : (cfg.stmts b)[i]? = some (.host u))
    (hblock : (cfg'.stmts x).take 2 = [.assignI64 cfg.locals.length 1, .recv u])
    (hstands : Stands hooks cfg cfg' (Scratch cfg l0 ms) c m (b, i + 1) x 2)
    (hgood : Good hooks cfg r start ms (Runs q status k) status σ τ) :
    Matched hooks cfg cfg' r start ms l0 post Waits Runs ((cfg.stmts b).length - i)
      ⟨.run k (b, i + 1), sched.passed q, status, σ.run u (.received u)⟩ ⟨.block x, τ⟩ := by
  refine .inr ⟨ahead_succ here, .run hc hm hstands ?_⟩
  rw [partway, hblock]
  have hflag : Good hooks cfg r start ms (Runs (sched.passed q) status k) status σ
      ((τ.note (.enter x)).assign cfg.locals.length 1) :=
    (hgood.note x).kept hst.locals ((hgood.note x).agree.of_keeps (fun l hl => Function.update_of_ne hl.ne _ _) rfl rfl)
      (fun y hy _ => Function.update_of_ne hy.ne' _ _) fun hx => hr.passed hx (Function.update_self _ _ _) (hgood.note x).inv
  exact hflag.exec hst.locals hr.apart hb (s := .recv u) trivial

end

section
variable (hst : Staged hooks cfg cfg' r start ms top l0 E) (hr : Schedules hooks sched cfg cfg' r ms l0 top post Waits Runs)
  (hc : r.coroutines[k]? = some c) (hm : ms[k]? = some m)
include hst hr hc hm

/-- The machine of a coroutine takes down how its turn ended, and the scheduler learns of it. -/
theorem Good.leave {s : Status} {outcome : Outcome} (υ' : Store host) (h : Good hooks cfg r start ms (Runs q status k) status σ υ)
    (hkeep : ∀ x, x ≠ m.stateLocal → x ≠ m.pollResultLocal → υ'.locals x = υ.locals x) (hstate : υ'.state = υ.state)
    (htrace : υ'.trace = υ.trace) (hholds : Holds hooks cfg c m υ'.locals s) (hended : Ended m outcome υ'.locals)
    (hs : s = .finished ↔ outcome = .finished) :
    ∃ b', Reaches₁ (step cfg') ⟨.block m.exitBb, υ'⟩ b' ∧ Follows hooks cfg cfg' r start ms l0 post Waits Runs
      ⟨.choose, sched.ended q k outcome, Function.update status k s, σ⟩ b' := by
  have hmem := List.mem_of_getElem? hm
  obtain ⟨h1, h2, h3⟩ := hst.locals.state_mem m hmem
  obtain ⟨h4, h5, h6⟩ := hst.locals.poll_mem m hmem
  have hruns : Runs q status k υ'.locals := hr.apart (fun x hx => hkeep x (by omega) (by omega)) h.inv
  have hgood : Good hooks cfg r start ms (fun _ => True) (Function.update status k s) σ υ' := by
    refine ⟨h.region, h.agree.of_keeps (fun l hl => hkeep l (by omega) (by omega)) hstate htrace, fun j c' m' hc' hm' => ?_, trivial⟩
    by_cases hj : j = k
    · subst hj
      obtain rfl := Option.some.inj (hc.symm.trans hc')
      obtain rfl := Option.some.inj (hm.symm.trans hm')
      rw [Function.update_self]
      exact hholds
    · have hmem' := List.mem_of_getElem? hm'
      rw [Function.update_of_ne hj]
      exact (h.holds j c' m' hc' hm').congr
        (hkeep _ (hst.locals.state_inj j k m' m hm' hm hj) (hst.locals.state_poll m' hmem' m hmem))
        (hkeep _ (hst.locals.state_poll m hmem m' hmem').symm (hst.locals.poll_inj j k m' m hm' hm hj))
  have hothers : ∀ j ≠ k, Function.update status k s j = status j := fun j hj => Function.update_of_ne hj _ _
  obtain ⟨b, τ', hreach, hunseen, hwaits⟩ := hr.ended hruns hm hended hothers (by rwa [Function.update_self])
  exact ⟨_, hreach, .choose (hgood.quiet hunseen hwaits)⟩

theorem Follows.step_suspend {j y : ℕ} {p : Point} {outcome : Outcome} {res : ℤ}
    (hp : (findSuspensionPoints hooks cfg c)[j]? = some p)
    (hres : outcome = .ran ∧ res = pollPending ∨ outcome = .blocked ∧ res = pollBlocked) (hblock : Suspends cfg' m y (j + 1 : ℕ) res)
    (hgood : Good hooks cfg r start ms (Runs q status k) status σ τ) {n : ℕ} :
    Matched hooks cfg cfg' r start ms l0 post Waits Runs n
      ⟨.choose, sched.ended q k outcome, Function.update status k (.suspended p.resume), σ⟩ ⟨.block y, τ⟩ := by
  have hmem := List.mem_of_getElem? hm
  have hne := hst.locals.state_poll m hmem m hmem
  have hstate : (execAll (τ.note (.enter y)) [.assignI64 m.stateLocal (j + 1 : ℕ), .assignI64 m.pollResultLocal res]).locals
      m.stateLocal = (j + 1 : ℕ) := (Function.update_of_ne hne _ _).trans (Function.update_self _ _ _)
  have hpoll : (execAll (τ.note (.enter y)) [.assignI64 m.stateLocal (j + 1 : ℕ), .assignI64 m.pollResultLocal res]).locals
      m.pollResultLocal = res := Function.update_self _ _ _
  have hended : Ended m outcome
      (execAll (τ.note (.enter y)) [.assignI64 m.stateLocal (j + 1 : ℕ), .assignI64 m.pollResultLocal res]).locals := by
    obtain ⟨rfl, rfl⟩ | ⟨rfl, rfl⟩ := hres
    · exact hpoll
    · exact hpoll
  have hs : Status.suspended p.resume = .finished ↔ outcome = .finished := by
    obtain ⟨rfl, -⟩ | ⟨rfl, -⟩ := hres <;> exact iff_of_false (by rintro ⟨⟩) (by rintro ⟨⟩)
  obtain ⟨b', hreach, hfollows⟩ := Good.leave hst hr hc hm (s := .suspended p.resume)
    (execAll (τ.note (.enter y)) [.assignI64 m.stateLocal (j + 1 : ℕ), .assignI64 m.pollResultLocal res]) hgood
    (fun x hx hx' => (Function.update_of_ne hx' _ _).trans (Function.update_of_ne hx _ _)) rfl rfl ⟨j, p, hp, rfl, hstate⟩ hended hs
  exact .inl ⟨b', .head (congrArg some (runBlock_of hblock τ)) hreach, hfollows⟩

theorem Follows.step_finish {d : ℕ} (hblock : Finishes cfg' m d)
    (hgood : Good hooks cfg r start ms (Runs q status k) status σ τ) {n : ℕ} :
    Matched hooks cfg cfg' r start ms l0 post Waits Runs n
      ⟨.choose, sched.ended q k .finished, Function.update status k .finished, σ⟩ ⟨.block d, τ⟩ := by
  have hmem := List.mem_of_getElem? hm
  have hne := hst.locals.state_poll m hmem m hmem
  have hstate : (execAll (τ.note (.enter d)) [.assignI64 m.pollResultLocal pollReady, .assignI64 m.stateLocal doneState]).locals
      m.stateLocal = doneState := Function.update_self _ _ _
  have hpoll : (execAll (τ.note (.enter d)) [.assignI64 m.pollResultLocal pollReady, .assignI64 m.stateLocal doneState]).locals
      m.pollResultLocal = pollReady := (Function.update_of_ne hne.symm _ _).trans (Function.update_self _ _ _)
  have hended : Ended m .finished
      (execAll (τ.note (.enter d)) [.assignI64 m.pollResultLocal pollReady, .assignI64 m.stateLocal doneState]).locals :=
    ⟨hstate, hpoll⟩
  obtain ⟨b', hreach, hfollows⟩ := Good.leave hst hr hc hm (s := .finished)
    (execAll (τ.note (.enter d)) [.assignI64 m.pollResultLocal pollReady, .assignI64 m.stateLocal doneState]) hgood
    (fun x hx hx' => (Function.update_of_ne hx _ _).trans (Function.update_of_ne hx' _ _)) rfl rfl ⟨hstate, hpoll⟩ hended
    (iff_of_true rfl rfl)
  exact .inl ⟨b', .head (congrArg some (runBlock_of hblock τ)) hreach, hfollows⟩

end

/-! ## Runs -/

/-- A coroutine never gets stuck. -/
theorem run_isSome (k : ℕ) (c : Coroutine) (p : Pos) (a : Source host sched.State) : (Source.run hooks cfg k c p a).isSome := by
  rw [Source.run]
  split
  · rfl
  · split
    · rfl
    · rfl
    · -- a guard is a statement of the host
      rename_i hmk
      obtain ⟨u, hu⟩ := classify_host hmk
      simp only [Source.look, hu]
      rfl
    · rfl

section
variable (hconf : Conforms hooks cfg r start) (hst : Staged hooks cfg cfg' r start ms top l0 E)
  (hr : Schedules hooks sched cfg cfg' r ms l0 top post Waits Runs) (hb : host.Below cfg.locals.length)
  (hfew : ∀ c ∈ r.coroutines, (findSuspensionPoints hooks cfg c).length < 9999)
include hconf hst hr hb hfew

theorem Follows.step {a a' : Source host sched.State} {b : Conf host} (h : Follows hooks cfg cfg' r start ms l0 post Waits Runs a b)
    (hstep : Source.step sched hooks cfg r a = some a') :
    Matched hooks cfg cfg' r start ms l0 post Waits Runs (a.ahead cfg) a' b := by
  cases h with
  | plain hplain hi agree => exact Follows.step_plain hconf hst hr hb hplain hi agree hstep
  | behind region agree => exact Follows.step_behind hconf hr.behind region agree hstep
  | choose good => exact Follows.step_choose hconf hst hr hfew hb good hstep
  | run hc hm stands good =>
    simp only [Source.step, hc, Option.bind_some] at hstep
    exact Follows.step_run hconf hst hr hc hm hb stands good hstep
  | receive hc hm here block stands good =>
    simp only [Source.step, here, Option.some.injEq] at hstep
    subst hstep
    exact Follows.step_receive hst hr hc hm hb here block stands good
  | suspend hc hm hp hres block good =>
    obtain rfl := Option.some.inj hstep
    exact Follows.step_suspend hst hr hc hm hp hres block good
  | finish hc hm block good =>
    obtain rfl := Option.some.inj hstep
    exact Follows.step_finish hst hr hc hm block good
  | stopped hplace agree => cases hstep

omit hconf hb in
theorem Follows.halt {a : Source host sched.State} {b : Conf host} (h : Follows hooks cfg cfg' r start ms l0 post Waits Runs a b)
    (hstep : Source.step sched hooks cfg r a = none) : Stackless.step cfg' b = none := by
  cases h with
  | plain hplain hi agree =>
    simp only [Source.step] at hstep
    split at hstep <;> cases hstep
  | behind region agree =>
    simp only [Source.step] at hstep
    split at hstep <;> cases hstep
  | choose good =>
    have hsome := Follows.schedule_isSome hst hr hfew good
    rw [show Source.schedule hooks r _ = none from hstep] at hsome
    cases hsome
  | @run k x j c m p q status σ τ hc hm stands good =>
    simp only [Source.step, hc, Option.bind_some] at hstep
    have hsome : (Source.run hooks cfg k c p ⟨.run k p, q, status, σ⟩).isSome := run_isSome k c p _
    rw [hstep] at hsome
    cases hsome
  | receive hc hm here block stands good =>
    simp only [Source.step, here] at hstep
    cases hstep
  | suspend hc hm hp hres block good => cases hstep
  | finish hc hm block good => cases hstep
  | @stopped place q status σ τ hplace agree =>
    cases place with
    | block b => exact absurd rfl (hplace b)
    | returned => rfl
    | dead => rfl

theorem matches_follows : Matches (Source.step sched hooks cfg r) (Stackless.step cfg') fun n (a : Source host sched.State) b =>
    n = a.ahead cfg ∧ Follows hooks cfg cfg' r start ms l0 post Waits Runs a b where
  step n a b a' h hstep := by
    obtain ⟨rfl, h⟩ := h
    rcases h.step hconf hst hr hb hfew hstep with ⟨b', hreach, h'⟩ | ⟨hlt, h'⟩
    · exact .inl ⟨_, b', hreach, rfl, h'⟩
    · exact .inr ⟨_, hlt, rfl, h'⟩
  halt n a b h hstep := h.2.halt hst hr hfew hstep

end

/-! ## What the user sees -/

theorem trace_suffix_exec (l : List (Stmt U)) (σ : Store host) : σ.trace <:+ (execAll σ l).trace := by
  obtain ⟨new, hlog, -⟩ := execAll_log l σ
  rw [Store.trace, Store.trace, hlog, List.filter_append]
  exact List.suffix_append _ _

/-- The block that the source is in runs up to where the source is. -/
theorem trace_partway (cfg' : Body U) (x j : ℕ) (τ : Store host) :
    τ.trace <:+ (partway cfg' x j τ).trace ∧ (partway cfg' x j τ).trace <:+ (runBlock cfg' x τ).store.trace := by
  have hnote : (τ.note (.enter x)).trace = τ.trace := rfl
  refine ⟨hnote ▸ trace_suffix_exec _ _, ?_⟩
  rw [partway_append rfl]
  exact trace_suffix_exec _ _

/-- A state of the source shows what the other body has shown, and no more than it will show. -/
theorem Follows.trace {a : Source host sched.State} {b : Conf host} (h : Follows hooks cfg cfg' r start ms l0 post Waits Runs a b) :
    b.store.trace <:+ a.store.trace ∧ ∃ b', Reaches (Stackless.step cfg') b b' ∧ a.store.trace <:+ b'.store.trace := by
  have hmid : ∀ {x j : ℕ} {σ τ : Store host}, Agree cfg.locals.length σ (partway cfg' x j τ) →
      τ.trace <:+ σ.trace ∧ ∃ b', Reaches (Stackless.step cfg') ⟨.block x, τ⟩ b' ∧ σ.trace <:+ b'.store.trace := by
    intro x j σ τ hagree
    obtain ⟨h1, h2⟩ := trace_partway cfg' x j τ
    rw [hagree.trace]
    exact ⟨h1, _, .single rfl, h2⟩
  have hsame : ∀ {place : At} {σ τ : Store host}, Agree cfg.locals.length σ τ →
      τ.trace <:+ σ.trace ∧ ∃ b', Reaches (Stackless.step cfg') ⟨place, τ⟩ b' ∧ σ.trace <:+ b'.store.trace := by
    intro place σ τ hagree
    rw [hagree.trace]
    exact ⟨List.suffix_rfl, _, .refl, List.suffix_rfl⟩
  cases h with
  | plain _ _ agree => exact hmid agree
  | behind _ agree => exact hsame agree
  | choose good => exact hsame good.agree
  | run _ _ _ good => exact hmid good.agree
  | receive _ _ _ _ _ good => exact hsame good.agree
  | suspend _ _ _ _ _ good => exact hsame good.agree
  | finish _ _ _ good => exact hsame good.agree
  | stopped _ agree => exact hsame agree

/-- The source, under the scheduler, and the body `cfg'` do the same from `start` on, in the store `σ`: at any time each of
    them has executed nothing that the other does not execute as well, in the same order; one of them stops if and only if
    the other does, and they stop in the same way, with the same user locals and host state. -/
structure SameRuns (hooks : Hooks U) (sched : Scheduler) (cfg cfg' : Body U) (r : Region) (start : ℕ) (σ : Store host) : Prop where
  shown : ∀ a, Reaches (Source.step sched hooks cfg r) (Source.start sched start σ) a →
    ∃ b, Reaches (step cfg') ⟨.block start, σ⟩ b ∧ a.store.trace <:+ b.store.trace
  only : ∀ b, Reaches (step cfg') ⟨.block start, σ⟩ b →
    ∃ a, Reaches (Source.step sched hooks cfg r) (Source.start sched start σ) a ∧ b.store.trace <:+ a.store.trace
  ends : (eval (Source.step sched hooks cfg r) (Source.start sched start σ)).Dom ↔ (eval (step cfg') ⟨.block start, σ⟩).Dom
  results : ∀ a ∈ eval (Source.step sched hooks cfg r) (Source.start sched start σ),
    ∀ b ∈ eval (step cfg') ⟨.block start, σ⟩, a.mode = .stopped b.place ∧ Agree cfg.locals.length a.store b.store

/-- Steps add to the trace. -/
theorem trace_suffix_reaches {b b' : Conf host} (h : Reaches (step cfg') b b') : b.store.trace <:+ b'.store.trace := by
  induction h with
  | refl => exact List.suffix_rfl
  | tail _ hs ih =>
    obtain ⟨new, hlog, -⟩ := step_log hs
    refine ih.trans ?_
    rw [Store.trace, Store.trace, hlog, List.filter_append]
    exact List.suffix_append _ _

/-- A body whose loop is the scheduler's does what the source does. -/
theorem Schedules.sameRuns (hconf : Conforms hooks cfg r start) (hst : Staged hooks cfg cfg' r start ms top l0 E)
    (hr : Schedules hooks sched cfg cfg' r ms l0 top post Waits Runs) (hb : host.Below cfg.locals.length)
    (hfew : ∀ c ∈ r.coroutines, (findSuspensionPoints hooks cfg c).length < 9999) (σ : Store host) :
    SameRuns hooks sched cfg cfg' r start σ := by
  have hmatches := matches_follows hconf hst hr hb hfew
  have hstart : Follows hooks cfg cfg' r start ms l0 post Waits Runs (Source.start sched start σ) ⟨.block start, σ⟩ :=
    .plain .start (fun _ => Nat.zero_le _) (Agree.refl.note_enter start)
  obtain ⟨hdom, hresults⟩ := hmatches.eval_iff ⟨rfl, hstart⟩
  refine ⟨fun a ha => ?_, fun b hb' => ?_, hdom, fun a ha b hb' => ?_⟩
  · obtain ⟨-, b, hb', -, hfollows⟩ := hmatches.reaches ⟨rfl, hstart⟩ ha
    obtain ⟨-, b', hreach, hsuf⟩ := hfollows.trace
    exact ⟨b', hb'.trans hreach, hsuf⟩
  · obtain ⟨-, a, b', ha, hreach, -, hfollows⟩ := hmatches.covers ⟨rfl, hstart⟩ hb'
    exact ⟨a, ha, (trace_suffix_reaches hreach).trans hfollows.trace.1⟩
  · obtain ⟨-, -, hfollows⟩ := hresults a ha b hb'
    have hhalt := (mem_eval.mp hb').2
    cases hfollows with
    | stopped hplace agree => exact ⟨rfl, agree⟩
    | _ => cases hhalt

end Krio.Stackless
