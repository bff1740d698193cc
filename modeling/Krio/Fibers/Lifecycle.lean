import Krio.Fibers.Outputs

/-! What a fiber reports of itself: its state, the result of every `resume`, the error of its closure and its cancellation
follow from what the code of the host and of the fibers did, wherever the fibers lie and however they nest. -/

namespace Krio.Fibers
open Lib

/-- What code did: whose, the host's being `none`, and the call it made. -/
abbrev Did := Option Fid × Op

/-- How the closure of `f` ends, if it does so here. -/
def ends (f : Fid) : Did → Option FiberState
  | (on, .finish) => if on = some f then some .done else none
  | (on, .panic _) => if on = some f then some .errored else none
  | _ => none

def resumes (f : Fid) : Did → Bool
  | (_, .resume g _) => g = f
  | _ => false

def cancels (f : Fid) : Did → Bool
  | (_, .access g .cancel) => g = f
  | _ => false

/-- How the closure of `f` ended, by a log, latest first. -/
def ended (f : Fid) (l : List Did) : Option FiberState := l.findSome? (ends f)

/-- What the closure of `f` panicked with, until it is taken. -/
def errorOf (f : Fid) : List Did → Option AnyBox
  | [] => none
  | (on, .panic p) :: l => if on = some f then some p else errorOf f l
  | (_, .access g .takeError) :: l => if g = f then none else errorOf f l
  | _ :: l => errorOf f l

/-- What a fiber keeps of its life. -/
structure Life where
  started : Bool
  done : Bool
  errored : Bool
  errorPayload : Option AnyBox
  cancelled : Bool

def Data.life (d : Data) : Life := ⟨d.started, d.done, d.errored, d.errorPayload, d.cancelled⟩

/-- What the log says of it. -/
def lifeOf (f : Fid) (l : List Did) : Life where
  started := l.any (resumes f)
  done := (ended f l).isSome
  errored := ended f l = some .errored
  errorPayload := errorOf f l
  cancelled := l.any (cancels f)

/-- The lifecycle state by the log. -/
def stateOf (f : Fid) (l : List Did) : FiberState :=
  match ended f l with
  | some x => x
  | none => if l.any (resumes f) then .suspended else .new

/-- What a `resume` that returns now returns. -/
def stepOf (f : Fid) (l : List Did) : FiberStep :=
  match ended f l with
  | none => .yielded
  | some .errored => .errored
  | some _ => .done

/-- What the functions that report return. -/
def reportOf (f : Fid) (l : List Did) : Access → Option Seen
  | .state => some (.state (stateOf f l))
  | .isDone => some (.bool (ended f l).isSome)
  | .isCancelled => some (.bool (l.any (cancels f)))
  | .takeError => some (.any (errorOf f l))
  | _ => none

/-- The machine, and beside it the log. -/
def stepLogged (x : State × List Did) (o : Op) : Option (State × List Did) :=
  (step x.1 o).map fun s' => (s', match x.1.ctl with
    | .code on => (on, o) :: x.2
    | _ => x.2)

def startLogged : State × List Did := (State.init, [])

section
variable {s s' : State} {o : Op} {f g : Fid} {on : Option Fid} {l : List Did} {d : Data} {e : Did} {a : Addr} {c : Call}

/-! ### What a step records -/

/-- Only `resume` records a call. -/
theorem Effect.called (e : Effect s o s') (hc : .called c ∈ s'.trace) : .called c ∈ s.trace ∨ ∃ i, o = .resume c.fiber i := by
  cases e with
  | entered on f a i sp x =>
    obtain heq | hc := List.mem_cons.mp hc
    · cases heq
      exact .inr ⟨i, rfl⟩
    · exact .inl hc
  | refused | access | outside | answered | woken | returned => exact .inl ((List.mem_cons.mp hc).resolve_left nofun)
  | _ => exact .inl hc

/-- A call of `resume` panics on a fiber that is over, and is recorded otherwise. -/
theorem Wired.resumes (hw : Wired s) {i : Input} (hc : s.ctl = .code on) (hs : step s (.resume f i) = some s') :
    (s.datas f).done = true ∧ s'.trace = .saw on .panicked :: s.trace ∨
      (s.datas f).done = false ∧ s'.trace = .called (s.callOf on f i) :: s.trace := by
  cases hw.effect hs with
  | refused on' _ _ hc' _ hd =>
    cases hc.symm.trans hc'
    exact .inl ⟨hd, rfl⟩
  | entered on' _ a _ sp x hc' _ hd _ =>
    cases hc.symm.trans hc'
    exact .inr ⟨hd, rfl⟩
  | outside _ _ _ hy => cases hy
  | left _ _ _ _ _ _ _ _ _ _ hd => cases hd

theorem Effect.created (e : Effect s o s') : s.created ≤ s'.created := by
  cases e with
  | new on a => exact Nat.le_succ _
  | _ => exact Nat.le_refl _

/-! ### The log -/

theorem ended_cons (e : Did) (l : List Did) : ended f (e :: l) = (ends f e).or (ended f l) := by
  rw [ended, List.findSome?_cons, ended]
  cases ends f e <;> rfl

theorem ended_cases {x : FiberState} (h : ended f l = some x) : x = .done ∨ x = .errored := by
  obtain ⟨⟨on, o⟩, -, he⟩ := List.exists_of_findSome?_eq_some h
  cases o with
  | finish =>
    simp only [ends] at he
    split at he <;> cases he
    exact .inl rfl
  | panic p =>
    simp only [ends] at he
    split at he <;> cases he
    exact .inr rfl
  | _ => cases he

/-- The log says the same of a fiber that an entry is not about. -/
theorem lifeOf_cons (hend : ends f e = none) (hres : resumes f e = false) (hcan : cancels f e = false)
    (herr : errorOf f (e :: l) = errorOf f l) : lifeOf f (e :: l) = lifeOf f l := by
  simp only [lifeOf, List.any_cons, hres, hcan, herr, ended_cons, hend, Bool.false_or, Option.none_or]

theorem lifeOf_resume (i : Input) : lifeOf f ((on, .resume f i) :: l) = { lifeOf f l with started := true } := by
  simp [lifeOf, resumes, cancels, errorOf, ended_cons, ends]

theorem lifeOf_cancel : lifeOf f ((on, .access f .cancel) :: l) = { lifeOf f l with cancelled := true } := by
  simp [lifeOf, resumes, cancels, errorOf, ended_cons, ends]

theorem lifeOf_takeError : lifeOf f ((on, .access f .takeError) :: l) = { lifeOf f l with errorPayload := none } := by
  simp [lifeOf, resumes, cancels, errorOf, ended_cons, ends]

theorem lifeOf_finish : lifeOf f ((some f, .finish) :: l) = { lifeOf f l with done := true, errored := false } := by
  simp [lifeOf, resumes, cancels, errorOf, ended_cons, ends]

theorem lifeOf_panic (p : AnyBox) :
    lifeOf f ((some f, .panic p) :: l) = { lifeOf f l with done := true, errored := true, errorPayload := some p } := by
  simp [lifeOf, resumes, cancels, errorOf, ended_cons, ends]

/-- A call on another fiber. -/
theorem lifeOf_resume_other (hne : g ≠ f) (i : Input) : lifeOf f ((on, .resume g i) :: l) = lifeOf f l :=
  lifeOf_cons rfl (decide_eq_false hne) rfl rfl

theorem lifeOf_access_other (hne : g ≠ f) (q : Access) : lifeOf f ((on, .access g q) :: l) = lifeOf f l := by
  cases q with
  | cancel => exact lifeOf_cons rfl rfl (decide_eq_false hne) rfl
  | takeError => exact lifeOf_cons rfl rfl rfl (if_neg hne)
  | _ => exact lifeOf_cons rfl rfl rfl rfl

/-! ### What a fiber keeps -/

theorem life_update {D : Fid → Data} (hd : d.life = (D g).life) (f : Fid) : (Function.update D g d f).life = (D f).life := by
  obtain rfl | hne := eq_or_ne f g
  · rw [Function.update_self]
    exact hd
  · rw [Function.update_of_ne hne]

theorem life_fill (d : Data) (i : Input) : (d.fill i).life = d.life := by
  cases i <;> rfl

theorem life_answer (d : Data) (q : Ask) : (d.answer q).2.life = d.life := by
  cases q <;> rfl

theorem life_wake (d : Data) (k : Yield Addr) : (d.wake k).2.life = d.life := by
  cases k <;> rfl

/-- A call on a fiber does to it what the log says. -/
theorem life_access (h : d.life = lifeOf f l) (q : Access) : (d.access q).2.life = lifeOf f ((on, .access f q) :: l) := by
  cases q with
  | cancel =>
    rw [lifeOf_cancel, ← h]
    rfl
  | takeError =>
    rw [lifeOf_takeError, ← h]
    rfl
  | takeYieldValue type =>
    have hsame : (d.access (.takeYieldValue type)).2.life = d.life := by
      simp only [Data.access, takeYieldValue_eq]
      split <;> rfl
    exact hsame.trans (h.trans (lifeOf_cons rfl rfl rfl rfl).symm)
  | _ => exact h.trans (lifeOf_cons rfl rfl rfl rfl).symm

/-- So does a switch out of it. -/
theorem life_leave {d' : Data} {pc : Pc} (h : d.life = lifeOf f l) (herr : d.errored = false) (hd : d.leave a o = some (d', pc)) :
    d'.life = lifeOf f ((some f, o) :: l) := by
  cases o with
  | finish =>
    cases hd
    rw [lifeOf_finish, ← h, Data.life, Data.life, herr]
  | panic p =>
    cases hd
    rw [lifeOf_panic, ← h]
    rfl
  | yieldNow | yieldValue | yieldU64 =>
    cases hd
    exact h.trans (lifeOf_cons rfl rfl rfl rfl).symm
  | _ => cases hd

/-- What its code does when it switches away is about no other fiber. -/
theorem lifeOf_leave {r : Data × Pc} (hne : g ≠ f) (hd : d.leave a o = some r) : lifeOf f ((some g, o) :: l) = lifeOf f l := by
  have hne' : some g ≠ some f := fun heq => hne (Option.some.inj heq)
  cases o with
  | finish => exact lifeOf_cons (if_neg hne') rfl rfl rfl
  | panic p => exact lifeOf_cons (if_neg hne') rfl rfl (if_neg hne')
  | yieldNow | yieldValue | yieldU64 => exact lifeOf_cons rfl rfl rfl rfl
  | _ => cases hd

/-- A step of code is in the log. -/
theorem life_of_step (hw : Wired s) (hc : s.ctl = .code on) (e : Effect s o s') (h : ∀ f, (s.datas f).life = lifeOf f l)
    (hbegun : ∀ f, (s.datas f).done = true → (s.datas f).started = true)
    (hfresh : (s.datas s.created).life = (Data.new 0).life) (f : Fid) : (s'.datas f).life = lifeOf f ((on, o) :: l) := by
  -- The fiber that is changed, and any other.
  have hput : ∀ {g d}, s'.datas = Function.update s.datas g d → d.life = lifeOf g ((on, o) :: l) →
      (g ≠ f → lifeOf f ((on, o) :: l) = lifeOf f l) → (s'.datas f).life = lifeOf f ((on, o) :: l) := by
    intro g d hdatas hd hother
    rw [hdatas]
    obtain rfl | hne := eq_or_ne f g
    · rw [Function.update_self]
      exact hd
    · rw [Function.update_of_ne hne, h f, hother hne.symm]
  -- What changes no more than a mailbox.
  have hquiet : lifeOf f ((on, o) :: l) = lifeOf f l → (s'.datas f).life = (s.datas f).life →
      (s'.datas f).life = lifeOf f ((on, o) :: l) := fun hsame hlife => hlife.trans ((h f).trans hsame.symm)
  cases e with
  | new on' a hc' =>
    refine hput datas_new ?_ fun _ => lifeOf_cons rfl rfl rfl rfl
    exact hfresh.symm.trans ((h s.created).trans (lifeOf_cons rfl rfl rfl rfl).symm)
  | move on' g a b hc' ha | drop on' g a hc' ha => exact hquiet (lifeOf_cons rfl rfl rfl rfl) rfl
  | refused on' g i hc' hg hd =>
    refine hput (datas_setData ..) ?_ fun hne => lifeOf_resume_other hne i
    rw [lifeOf_resume, ← h g, life_fill, Data.life, hbegun g hd]
  | entered on' g a i sp x hc' hg hd hr =>
    refine hput datas_entered ?_ fun hne => lifeOf_resume_other hne i
    rw [lifeOf_resume, ← h g]
    cases i <;> rfl
  | access on' g q hc' hg =>
    exact hput (datas_setData ..) (life_access (h g) q) fun hne => lifeOf_access_other hne q
  | outside o y hc' hy => exact hquiet (by cases o <;> cases hy <;> exact lifeOf_cons rfl rfl rfl rfl) rfl
  | answered g q hc' =>
    refine hquiet (lifeOf_cons rfl rfl rfl rfl) ?_
    exact (congrArg (fun D => (D f).life) (datas_setData ..)).trans (life_update (life_answer _ q) f)
  | left g o a c cs sp d pc hc' ht hd =>
    cases hc.symm.trans hc'
    have herr : (s.datas g).errored = false := by
      cases he : (s.datas g).errored with
      | false => rfl
      | true => exact absurd (ht.notDone.symm.trans (hw.errored g he)) Bool.false_ne_true
    exact hput datas_left (life_leave (h g) herr hd) fun hne => lifeOf_leave hne hd
  | began g hc' | woken g k a c cs sp sp' hc' | lost g k p hc' | returned c cs a hc' => cases hc.symm.trans hc'

/-- What follows a switch changes no fiber's life. -/
theorem life_of_go (e : Effect s .go s') (f : Fid) : (s'.datas f).life = (s.datas f).life := by
  cases e with
  | outside o y hc hy => cases hy
  | left g o a c cs sp d pc hc ht hd => cases hd
  | woken f' g k => exact (congrArg (fun D => (D f).life) (datas_setData ..)).trans (life_update (life_wake _ k) f)
  | _ => rfl

/-! ### The invariant -/

theorem called_of_lastCall : ∀ {t : List Event}, lastCall f t = some c → .called c ∈ t ∧ c.fiber = f
  | .called c' :: t, h => by
    rw [lastCall] at h
    split at h
    · obtain rfl := Option.some.inj h
      exact ⟨List.mem_cons_self, ‹_›⟩
    · exact (called_of_lastCall h).imp_left (List.mem_cons_of_mem _)
  | .returned _ _ _ :: t, h => (called_of_lastCall (t := t) h).imp_left (List.mem_cons_of_mem _)
  | .saw _ _ :: t, h => (called_of_lastCall (t := t) h).imp_left (List.mem_cons_of_mem _)

/-- The fibers and the log say the same. -/
structure Told (x : State × List Did) : Prop where
  wired : Wired x.1
  life : ∀ f, (x.1.datas f).life = lifeOf f x.2
  fresh : ∀ f, x.1.created ≤ f → (x.1.datas f).life = (Data.new 0).life
  called : ∀ c, .called c ∈ x.1.trace → (x.1.datas c.fiber).started = true
  begun : ∀ f, (x.1.datas f).done = true → (x.1.datas f).started = true
  last : x.2.Pairwise fun e' e => ∀ f, (ends f e).isSome → e'.1 ≠ some f

theorem Told.done (h : Told (s, l)) (f : Fid) : (s.datas f).done = (ended f l).isSome := congrArg Life.done (h.life f)

theorem Told.started (h : Told (s, l)) (f : Fid) : (s.datas f).started = l.any (resumes f) := congrArg Life.started (h.life f)

/-- A fiber whose code runs was resumed. -/
theorem Told.running (h : Told (s, l)) (hc : s.ctl = .code (some f)) :
    (s.datas f).started = true ∧ (s.datas f).done = false ∧ f < s.created := by
  obtain ⟨a, c, cs, sp, htop⟩ := h.wired.running hc
  obtain ⟨hcalled, -⟩ := called_of_lastCall (h.wired.account.latest c (htop.active ▸ List.mem_cons_self))
  exact ⟨htop.fiber ▸ h.called c hcalled, htop.notDone, h.wired.made f a htop.home⟩

/-- What code does is about fibers that were made. -/
theorem Told.quiet (h : Told (s, l)) (hc : s.ctl = .code on) (e : Effect s o s') (hf : s.created ≤ f) :
    lifeOf f ((on, o) :: l) = lifeOf f l := by
  have hmade : ∀ {g}, g < s.created → g ≠ f := fun hg heq => Nat.not_lt.mpr hf (heq ▸ hg)
  cases e with
  | refused on' g i hc' hg hd => exact lifeOf_resume_other (hmade hg) i
  | entered on' g a i sp x hc' hg hd hr => exact lifeOf_resume_other (hmade hg) i
  | access on' g q hc' hg => exact lifeOf_access_other (hmade hg) q
  | left g o a c cs sp d pc hc' ht hd =>
    cases hc.symm.trans hc'
    exact lifeOf_leave (hmade (h.wired.made _ _ ht.home)) hd
  | outside o y hc' hy => cases o <;> cases hy <;> exact lifeOf_cons rfl rfl rfl rfl
  | _ => exact lifeOf_cons rfl rfl rfl rfl

theorem started_cons (h : (lifeOf f l).started = true) (e : Did) : (lifeOf f (e :: l)).started = true := by
  simp only [lifeOf, List.any_cons] at h ⊢
  rw [h, Bool.or_true]

/-- A step of code. -/
theorem Told.code (h : Told (s, l)) (hc : s.ctl = .code on) (hs : step s o = some s') : Told (s', (on, o) :: l) := by
  have e := h.wired.effect hs
  have hlife := life_of_step h.wired hc e h.life h.begun (h.fresh s.created (Nat.le_refl _))
  have hstart : ∀ f, (s.datas f).started = true → (s'.datas f).started = true := by
    intro f hf
    exact (congrArg Life.started (hlife f)).trans (started_cons ((congrArg Life.started (h.life f)).symm.trans hf) _)
  have hends : ∀ f, (ends f (on, o)).isSome → on = some f := by
    intro f he
    cases o with
    | finish | panic p =>
      simp only [ends] at he
      split at he
      · assumption
      · cases he
    | _ => cases he
  refine ⟨wired_of_step h.wired hs, hlife, fun f hf => ?_, fun c hcalled => ?_, fun f hdone => ?_, ?_⟩
  · -- A fiber yet to be made.
    have hold := Nat.le_trans e.created hf
    rw [hlife f, h.quiet hc e hold, ← h.life f]
    exact h.fresh f hold
  · -- A call in the trace.
    obtain hcalled | ⟨i, rfl⟩ := e.called hcalled
    · exact hstart _ (h.called c hcalled)
    · rw [show (s'.datas c.fiber).started = _ from congrArg Life.started (hlife c.fiber), lifeOf_resume]
  · -- A fiber that is over.
    replace hdone := (congrArg Life.done (hlife f)).symm.trans hdone
    simp only [lifeOf, ended_cons, Option.isSome_or, Bool.or_eq_true] at hdone
    obtain he | hdone := hdone
    · obtain rfl := hends f he
      exact hstart f (h.running hc).1
    · exact hstart f (h.begun f ((h.done f).trans hdone))
  · -- The code of a fiber that is over does not run.
    refine List.pairwise_cons.mpr ⟨fun e he f hend hon => ?_, h.last⟩
    obtain rfl : on = some f := hon
    have hdone : (ended f l).isSome := List.findSome?_isSome_iff.mpr ⟨e, he, hend⟩
    exact absurd ((h.done f).trans hdone) (by rw [(h.running hc).2.1]; exact Bool.false_ne_true)

/-- What follows a switch. -/
theorem Told.go (h : Told (s, l)) (hs : step s .go = some s') : Told (s', l) := by
  have e := h.wired.effect hs
  have hlife := life_of_go e
  have hsame : ∀ f, (s'.datas f).started = (s.datas f).started ∧ (s'.datas f).done = (s.datas f).done :=
    fun f => ⟨congrArg Life.started (hlife f), congrArg Life.done (hlife f)⟩
  refine ⟨wired_of_step h.wired hs, fun f => (hlife f).trans (h.life f), fun f hf => ?_, fun c hc => ?_, fun f hf => ?_, h.last⟩
  · exact (hlife f).trans (h.fresh f (Nat.le_trans e.created hf))
  · exact (hsame _).1.trans (h.called c ((e.called hc).resolve_right fun ⟨_, heq⟩ => by cases heq))
  · exact (hsame f).1.trans (h.begun f ((hsame f).2.symm.trans hf))

theorem told_start : Told startLogged :=
  ⟨wired_init, fun _ => rfl, fun _ _ => rfl, nofun, nofun, List.Pairwise.nil⟩

theorem told_of_step {x y : State × List Did} (h : Told x) (hs : stepLogged x o = some y) : Told y := by
  obtain ⟨s', hs', rfl⟩ := Option.map_eq_some_iff.mp hs
  cases hc : x.1.ctl with
  | code on => exact h.code hc hs'
  | «at» c =>
    cases o with
    | go => exact h.go hs'
    | _ => simp [step, hc] at hs'
  | ub => cases o <;> simp [step, hc] at hs'

theorem told_of_run {ok : State × List Did → Op → Prop} {x : State × List Did} (h : Steps stepLogged ok startLogged x) :
    Told x :=
  h.keeps (fun _ _ _ h _ hs => told_of_step h hs) told_start

/-! ### What is reported -/

theorem Told.state (h : Told (s, l)) (f : Fid) : (s.datas f).state = stateOf f l := by
  have hbegun := h.begun f
  rw [h.started f, h.done f] at hbegun
  have herr : (s.datas f).errored = decide (ended f l = some .errored) := congrArg Life.errored (h.life f)
  rw [Data.state, stateOf, h.started f, h.done f, herr]
  cases he : ended f l with
  | none => cases l.any (resumes f) <;> rfl
  | some y =>
    rw [hbegun (by rw [he]; rfl)]
    obtain rfl | rfl := ended_cases he <;> rfl

theorem Told.stepOf (h : Told (s, l)) (f : Fid) : (s.datas f).step = stepOf f l := by
  have herr : (s.datas f).errored = decide (ended f l = some .errored) := congrArg Life.errored (h.life f)
  rw [Data.step, Krio.Fibers.stepOf, h.done f, herr]
  cases he : ended f l with
  | none => rfl
  | some y => obtain rfl | rfl := ended_cases he <;> rfl

theorem Told.report (h : Told (s, l)) {q : Access} {y : Seen} (hy : reportOf f l q = some y) :
    ((s.datas f).access q).1 = y := by
  cases q with
  | state =>
    obtain rfl := Option.some.inj hy
    exact congrArg Seen.state (h.state f)
  | isDone =>
    obtain rfl := Option.some.inj hy
    exact congrArg Seen.bool (h.done f)
  | isCancelled =>
    obtain rfl := Option.some.inj hy
    exact congrArg Seen.bool (congrArg Life.cancelled (h.life f))
  | takeError =>
    obtain rfl := Option.some.inj hy
    exact congrArg Seen.any (congrArg Life.errorPayload (h.life f))
  | _ => cases hy

/-- A frame belongs to the latest active call. -/
theorem Wired.framed (hw : Wired s) (hc : s.ctl = .at (c.frame a)) : ∃ cs, s.active = c :: cs ∧ s.home c.fiber = some a := by
  have hctl := hw.ctl
  rw [State.CtlOk, hc] at hctl
  obtain ⟨f, -, hr⟩ | ⟨c', cs, b, hact, hb, heq⟩ := hctl
  · exact absurd rfl (hr.not_frame c a)
  · have hpc := congrArg Ctx.pc heq
    simp only [Call.frame, Pc.resume.injEq] at hpc
    obtain ⟨rfl, -, -, rfl⟩ := hpc
    exact ⟨cs, hact, hb⟩

/-- The log restricts no run. -/
theorem logged_of_run {ok : State → Op → Prop} (h : Reachable ok s) :
    ∃ l, Steps stepLogged (fun x o => ok x.1 o) startLogged (s, l) := by
  induction h with
  | refl => exact ⟨[], .refl⟩
  | tail _ ho hs ih =>
    obtain ⟨l, hl⟩ := ih
    exact ⟨_, hl.tail ho (Option.map_eq_some_iff.mpr ⟨_, hs, rfl⟩)⟩

/-- Whatever the host and the fibers do, wherever the fibers lie and however they nest: what a fiber reports of its state,
    its end, its cancellation and its error is what code did to it; a `resume` panics exactly when the closure is over, and
    returns how the closure ended if it did; a fiber finds itself cancelled exactly when code cancelled it; and a closure
    that is over does nothing more. -/
theorem lifecycle_told {ok : State × List Did → Op → Prop} (h : Steps stepLogged ok startLogged (s, l)) :
    (∀ on f q y s', s.ctl = .code on → step s (.access f q) = some s' → reportOf f l q = some y →
      s'.trace = .saw on y :: s.trace) ∧
    (∀ on f i s', s.ctl = .code on → step s (.resume f i) = some s' →
      s'.trace = (if (ended f l).isSome then .saw on .panicked else .called (s.callOf on f i)) :: s.trace) ∧
    (∀ c a s', s.ctl = .at (c.frame a) → step s .go = some s' → s'.trace = .returned c (stepOf c.fiber l) c.hooks :: s.trace) ∧
    (∀ f s', s.ctl = .code (some f) → step s (.ask .isCancelled) = some s' →
      s'.trace = .saw (some f) (.bool (l.any (cancels f))) :: s.trace) ∧
    l.Pairwise fun e' e => ∀ f, (ends f e).isSome → e'.1 ≠ some f := by
  have ht := told_of_run h
  have hw : Wired s := ht.wired
  refine ⟨fun on f q y s' hc hs hy => ?_, fun on f i s' hc hs => ?_, fun c a s' hc hs => ?_, fun f s' hc hs => ?_, ht.last⟩
  · simp only [step, hc] at hs
    split at hs
    · obtain rfl := Option.some.inj hs
      exact congrArg (.saw on · :: s.trace) (ht.report hy)
    · cases hs
  · rw [← ht.done f]
    obtain ⟨hd, htrace⟩ | ⟨hd, htrace⟩ := hw.resumes hc hs <;> rw [htrace, hd] <;> rfl
  · obtain ⟨cs, hact, ha⟩ := hw.framed hc
    simp only [step, hc] at hs
    obtain rfl := Option.some.inj hs
    rw [(hw.land_frame hc hact ha).1, ← ht.stepOf c.fiber]
    rfl
  · obtain ⟨a, c, cs, sp, htop⟩ := hw.running hc
    simp only [step, hc, State.ask, hw.hooks_some htop.top htop.home, State.withFiber, (hw.mem a f).mpr htop.home] at hs
    obtain rfl := Option.some.inj hs
    have hcancel : (s.datas f).cancelled = l.any (cancels f) := congrArg Life.cancelled (ht.life f)
    rw [← hcancel]
    rfl

/-- A fiber resumes another, which panics: the first finds it errored, and cannot resume it again. -/
theorem lifecycle_told_nested :
    ∃ s l s₁ s₂, Steps stepLogged (fun _ _ => True) startLogged (s, l) ∧ s.ctl = .code (some 0) ∧
      step s (.access 1 .state) = some s₁ ∧ s₁.trace = .saw (some 0) (.state .errored) :: s.trace ∧
      step s (.resume 1 .none) = some s₂ ∧ s₂.trace = .saw (some 0) .panicked :: s.trace := by
  have hrun : (runActions stepLogged (fun _ _ => True) startLogged
      [.new 4, .new 8, .resume 0 .none, .go, .resume 1 .none, .go, .panic ⟨0, 5⟩, .go]).any (fun x =>
        x.1.ctl = .code (some 0) ∧ stateOf 1 x.2 = .errored ∧ (ended 1 x.2).isSome ∧ (step x.1 (.access 1 .state)).isSome ∧
          (step x.1 (.resume 1 .none)).isSome) = true := by decide +kernel
  obtain ⟨⟨s, l⟩, hs, hq⟩ := exists_of_runActions hrun
  obtain ⟨hc, hstate, hended, h₁, h₂⟩ := of_decide_eq_true hq
  obtain ⟨s₁, h₁⟩ := Option.isSome_iff_exists.mp h₁
  obtain ⟨s₂, h₂⟩ := Option.isSome_iff_exists.mp h₂
  obtain ⟨hreport, hresume, -⟩ := lifecycle_told hs
  refine ⟨s, l, s₁, s₂, hs, hc, h₁, hreport _ _ _ _ _ hc h₁ (by rw [reportOf, hstate]), h₂, ?_⟩
  rw [hresume _ _ _ _ hc h₂, if_pos hended]

end

end Krio.Fibers
