import Krio.Fibers.Wired
import Krio.Fibers.Coroutine

/-! The fibers are coroutines. While every fiber that returns from a suspended `yield_value` or `yield_u64` lies where
it lay when it was suspended, a step of the machine is a step of the coroutines behind it, and a move is none. -/

namespace Krio.Fibers
open Lib

section
variable {s s' : State} {o : Op} {f g : Fid} {a : Addr} {c : Call} {cs : List Call} {x : Ctx} {sp : Sp}

def Yield.erase {ρ : Type} : Yield ρ → Yield Unit
  | .now => .now
  | .value type _ => .value type ()
  | .u64 _ => .u64 ()

/-- The address that a suspended `yield_value` or `yield_u64` uses once it goes on. -/
def Yield.captured : Yield Addr → Option Addr
  | .now => none
  | .value _ p | .u64 p => some p

def Pc.wait : Pc → Option Wait
  | .run => some .start
  | .yieldNow k => some (.yield k.erase)
  | _ => none

/-- What the stack of `f` waits in. -/
def State.waitAt (s : State) (f : Fid) : Option Wait :=
  if (∃ c ∈ s.pending, c.fiber = f) ∨ (s.fibers f).data.done = true then none
  else ((s.fibers f).fiberSp.bind s.ctxs).bind (·.pc.wait)

def State.coroutine (s : State) (f : Fid) : Option Coroutine :=
  (s.home f).map fun _ => ⟨(s.fibers f).data, s.waitAt f⟩

def Ctl.phase : Ctl → Phase
  | .code _ => .code
  | .at x => if x.pc.returns then .left else
    match x.pc.wait with
    | some w => .entered w
    | none => .stuck
  | .ub => .stuck

def Event.observed : Event → Option (Option Fid × Seen)
  | .called _ => none
  | .returned c r _ => some (c.caller, .step r)
  | .saw on x => some (on, x)

/-- What the code of the host and of the fibers has seen, latest first. -/
def State.observed (s : State) : List (Option Fid × Seen) := s.trace.filterMap Event.observed

/-- The coroutines that the machine implements. -/
def State.coroutines (s : State) : Coroutines where
  get := s.coroutine
  made := s.created
  nextFiberId := s.nextFiberId
  stack := s.active.map (·.fiber)
  phase := s.ctl.phase
  seen := s.observed

/-- A suspended `yield_value` or `yield_u64` goes on only where its fiber lies at the address that it captured. -/
def Settled (s : State) (o : Op) : Prop :=
  o = .go → ∀ f k p, s.ctl = .at ⟨some f, .yieldNow k⟩ → k.captured = some p → s.home f = some p

theorem head_stack (s : State) : s.coroutines.stack.head? = topOf s.active := List.head?_map ..

theorem free_iff : s.coroutines.free f ↔ s.free f := by
  simp [Coroutines.free, State.coroutines, State.coroutine, State.free]

theorem coroutine_eq (ha : s.home f = some a) : s.coroutine f = some ⟨(s.fibers f).data, s.waitAt f⟩ := by
  rw [State.coroutine, ha]
  rfl

/-- A fiber that is asleep and not done waits in what its stack pointer leads to. -/
theorem Wired.waitAt_asleep (h : Wired s) (ha : s.home f = some a) (hp : ∀ c ∈ s.pending, c.fiber ≠ f)
    (hd : (s.fibers f).data.done = false) :
    ∃ sp x, (s.fibers f).fiberSp = some sp ∧ s.ctxs sp = some x ∧ s.Ready f x ∧ s.waitAt f = x.pc.wait := by
  obtain hd' | ⟨sp, x, hsp, hx, hr⟩ := h.asleep f a ha hp
  · rw [hd] at hd'
    cases hd'
  · refine ⟨sp, x, hsp, hx, hr, ?_⟩
    rw [State.waitAt, if_neg, hsp]
    · simp [hx]
    · rintro (⟨c, hc, he⟩ | hd')
      · exact hp c hc he
      · rw [hd] at hd'
        cases hd'

theorem State.Ready.wait (h : s.Ready f x) : ∃ w, x.pc.wait = some w := by
  obtain ⟨-, ⟨hpc, -⟩ | ⟨k, hpc⟩⟩ := h <;> rw [hpc] <;> exact ⟨_, rfl⟩

theorem waitAt_congr (hp : s'.pending = s.pending) (hd : (s'.fibers f).data.done = (s.fibers f).data.done)
    (hx : (s'.fibers f).fiberSp.bind s'.ctxs = (s.fibers f).fiberSp.bind s.ctxs) : s'.waitAt f = s.waitAt f := by
  simp only [State.waitAt, hp, hd, hx]

/-- A fiber that a step leaves alone waits in the same place. -/
theorem Wired.coroutine_keeps (h : Wired s) (hhome : s'.home f = s.home f) (hf : s'.fibers f = s.fibers f)
    (hp : (∃ c ∈ s'.pending, c.fiber = f) ↔ ∃ c ∈ s.pending, c.fiber = f)
    (hx : ∀ sp x, s.ctxs sp = some x → s.Ready f x → s'.ctxs sp = some x) : s'.coroutine f = s.coroutine f := by
  cases ha : s.home f with
  | none => rw [State.coroutine, State.coroutine, hhome, ha, Option.map_none, Option.map_none]
  | some a =>
    rw [coroutine_eq ha, coroutine_eq (hhome.trans ha), hf]
    congr 2
    by_cases hnone : (∃ c ∈ s.pending, c.fiber = f) ∨ (s.fibers f).data.done = true
    · rw [State.waitAt, State.waitAt, if_pos hnone, if_pos (by rwa [hp, hf])]
    · obtain ⟨hpend, hd⟩ := not_or.mp hnone
      obtain ⟨sp, x, hsp, hctx, hr, hw⟩ := h.waitAt_asleep ha (fun c hc he => hpend ⟨c, hc, he⟩) (Bool.not_eq_true _ ▸ hd)
      rw [hw, State.waitAt, if_neg (by rwa [hp, hf]), hf, hsp]
      simp [hx sp x hctx hr]

theorem coroutines_saw {on : Option Fid} {y : Seen} (hon : on = topOf s.active) :
    (s.saw on y).coroutines = s.coroutines.saw y := by
  subst hon
  rw [Coroutines.saw, head_stack]
  rfl

theorem coroutines_setData {d : Data} (ha : s.home f = some a) (hd : d.done = (s.fibers f).data.done) :
    (s.setData f d).coroutines = s.coroutines.set f ⟨d, s.waitAt f⟩ := by
  have hself : (s.setData f d).fibers f = ⟨(s.fibers f).fiberSp, (s.fibers f).callerSp, d⟩ := Function.update_self ..
  refine Coroutines.ext (funext fun g => ?_) rfl rfl rfl rfl rfl
  show (s.setData f d).coroutine g = Function.update s.coroutine f _ g
  obtain rfl | hg := eq_or_ne g f
  · have hwait : (s.setData g d).waitAt g = s.waitAt g := waitAt_congr rfl (by rw [hself, hd]) (by rw [hself]; rfl)
    rw [Function.update_self, coroutine_eq (s := s.setData g d) ha, hwait, hself]
  · have hother : (s.setData f d).fibers g = s.fibers g := Function.update_of_ne hg ..
    have hwait : (s.setData f d).waitAt g = s.waitAt g := waitAt_congr rfl (by rw [hother]) (by rw [hother]; rfl)
    rw [Function.update_of_ne hg, State.coroutine, hother, hwait]
    rfl

theorem coroutines_top (h : Wired s) (ht : topOf s.active = some f) :
    ∃ a, s.home f = some a ∧ s.coroutines.top = some (f, ⟨(s.fibers f).data, s.waitAt f⟩) := by
  obtain ⟨c, hc, hf⟩ : ∃ c ∈ s.active, c.fiber = f := by
    obtain ⟨c, hc, hf⟩ := Option.map_eq_some_iff.mp ht
    exact ⟨c, List.mem_of_head? hc, hf⟩
  obtain ⟨a, ha, -⟩ := h.boxes c hc
  rw [hf] at ha
  refine ⟨a, ha, ?_⟩
  rw [Coroutines.top, head_stack, ht]
  show (s.coroutine f).map _ = _
  rw [coroutine_eq ha]
  rfl

theorem coroutines_top_none (ht : topOf s.active = none) : s.coroutines.top = none := by
  rw [Coroutines.top, head_stack, ht]
  rfl

theorem coroutines_new (h : Wired s) (hc : s.ctl = .code (topOf s.active)) (ha : s.mem a = none) :
    (s.new a).coroutines = s.coroutines.new := by
  refine Coroutines.ext (funext fun g => ?_) rfl rfl rfl rfl rfl
  show (s.new a).coroutine g = Function.update s.coroutine s.created _ g
  obtain rfl | hg := eq_or_ne g s.created
  · rw [Function.update_self]
    have hnone : ∀ c ∈ (s.new a).pending, c.fiber ≠ s.created := by
      intro c hcp he
      obtain ⟨b, hb, -⟩ := h.boxes c (pending_subset _ hcp)
      exact absurd (h.made _ b hb) (he ▸ Nat.lt_irrefl _)
    have hfiber : (s.new a).fibers s.created = ⟨some s.nextSp, none, .new s.nextFiberId⟩ := Function.update_self ..
    have hhome : (s.new a).home s.created = some a := Function.update_self ..
    obtain ⟨sp, x, hsp, hx, -, hw⟩ := (h.new hc ha).waitAt_asleep hhome hnone (by rw [hfiber]; rfl)
    rw [coroutine_eq hhome, hw, hfiber]
    rw [hfiber] at hsp
    obtain rfl := Option.some.inj hsp
    rw [show (s.new a).ctxs s.nextSp = some ⟨some s.created, .run⟩ from Function.update_self ..] at hx
    obtain rfl := Option.some.inj hx
    rfl
  · rw [Function.update_of_ne hg]
    refine h.coroutine_keeps (Function.update_of_ne hg ..) (Function.update_of_ne hg ..) Iff.rfl fun sp x hx _ => ?_
    exact (Function.update_of_ne (Nat.ne_of_lt (h.saved sp x hx)) ..).trans hx

theorem coroutines_move (h : Wired s) (hfree : s.free f) {b : Addr} (ha : s.home f = some a) :
    (s.move f a b).coroutines = s.coroutines := by
  refine Coroutines.ext (funext fun g => ?_) rfl rfl rfl rfl rfl
  show (s.move f a b).coroutine g = s.coroutine g
  obtain rfl | hg := eq_or_ne g f
  · rw [coroutine_eq ha, coroutine_eq (s := s.move g a b) (Function.update_self ..)]
    rfl
  · exact h.coroutine_keeps (Function.update_of_ne hg ..) rfl Iff.rfl fun _ _ hx _ => hx

theorem coroutines_drop (h : Wired s) : (s.drop f a).coroutines = s.coroutines.drop f := by
  refine Coroutines.ext (funext fun g => ?_) rfl rfl rfl rfl rfl
  show (s.drop f a).coroutine g = Function.update s.coroutine f none g
  obtain rfl | hg := eq_or_ne g f
  · have hhome : (s.drop g a).home g = none := Function.update_self ..
    rw [Function.update_self, State.coroutine, hhome]
    rfl
  · rw [Function.update_of_ne hg]
    exact h.coroutine_keeps (Function.update_of_ne hg ..) rfl Iff.rfl fun _ _ hx _ => hx

theorem coroutines_entered (h : Wired s) {on : Option Fid} {input : Input} (hc : s.ctl = .code on) (hfree : s.free f)
    (ha : s.home f = some a) (hsp : (s.fibers f).fiberSp = some sp) (hx : s.ctxs sp = some x) (hr : s.Ready f x)
    (hd : (s.fibers f).data.done = false) :
    s.coroutines.resume f input = some (s.entered on f a input sp x).coroutines := by
  have hpend : s.pending = s.active := by rw [State.pending, hc]
  have hpend' : (s.entered on f a input sp x).pending = s.callOf on f input :: s.active := by
    rw [State.pending, State.entered]
    simp only [hr.not_returns]
    rfl
  have hnone : ∀ c ∈ s.pending, c.fiber ≠ f := fun c hc => hfree.2 c (hpend ▸ hc)
  obtain ⟨sp', x', hsp', hx', -, hw⟩ := h.waitAt_asleep ha hnone hd
  obtain rfl := Option.some.inj (hsp.symm.trans hsp')
  obtain rfl := Option.some.inj (hx.symm.trans hx')
  obtain ⟨w, hw'⟩ := hr.wait
  have hdone : ((s.fibers f).data.fill input).done = false := (fill_flags _ _).1.trans hd
  rw [Coroutines.resume, show s.coroutines.get f = _ from coroutine_eq ha, Option.bind_some]
  simp only
  rw [if_neg (by simp [hdone]), hw, hw', Option.map_some]
  refine congrArg some (Coroutines.ext (funext fun g => ?_) rfl rfl rfl ?_ rfl)
  · show Function.update s.coroutine f _ g = (s.entered on f a input sp x).coroutine g
    obtain rfl | hg := eq_or_ne g f
    · have hfiber : (s.entered on g a input sp x).fibers g = ⟨(s.fibers g).fiberSp, some s.nextSp,
          { (s.fibers g).data.fill input with started := true }⟩ := Function.update_self ..
      rw [Function.update_self, coroutine_eq (s := s.entered on g a input sp x) ha, hfiber, State.waitAt,
        if_pos (Or.inl ⟨s.callOf on g input, hpend' ▸ List.mem_cons_self, rfl⟩)]
    · rw [Function.update_of_ne hg]
      symm
      refine h.coroutine_keeps rfl (Function.update_of_ne hg ..) ?_ fun sp' y hy hr' => ?_
      · rw [hpend', hpend]
        simp [State.callOf, Ne.symm hg]
      · have hne : sp' ≠ sp := by
          rintro rfl
          obtain rfl := Option.some.inj (hy.symm.trans hx)
          exact hg (Option.some.inj (hr'.1.symm.trans hr.1))
        exact (Function.update_of_ne hne ..).trans ((Function.update_of_ne (Nat.ne_of_lt (h.saved sp' y hy)) ..).trans hy)
  · show Phase.entered w = (Ctl.at x).phase
    simp [Ctl.phase, hr.not_returns, hw']

/-- A fiber gives control back. -/
theorem coroutines_left (h : Wired s) {pc : Pc} (ht : Top s f a c cs sp) (hp : s.pending = s.active) {u : Data → Data}
    (hwait : (u (s.fibers f).data).done = true ∧ pc.wait = none ∨
      (u (s.fibers f).data).done = false ∧ pc.wait.isSome) :
    (s.left f (u (s.fibers f).data) pc sp (c.frame a)).coroutines = s.coroutines.leave u pc.wait := by
  have htop : topOf s.active = some f := by rw [topOf, ht.active, List.head?_cons, Option.map_some, ht.fiber]
  have hpend' : (s.left f (u (s.fibers f).data) pc sp (c.frame a)).pending = cs := by
    rw [State.pending, State.left]
    exact (if_pos rfl).trans (congrArg List.tail ht.active)
  obtain ⟨-, -, hctop⟩ := coroutines_top h htop
  rw [Coroutines.leave, hctop]
  refine Coroutines.ext (funext fun g => ?_) rfl rfl rfl rfl rfl
  show (s.left f (u (s.fibers f).data) pc sp (c.frame a)).coroutine g = Function.update s.coroutine f _ g
  have hcs : ∀ c' ∈ cs, c'.fiber ≠ f := by
    intro c' hc' he
    have hnd := h.account.fibers
    rw [ht.active, List.map_cons, List.nodup_cons] at hnd
    exact hnd.1 (List.mem_map.mpr ⟨c', hc', he.trans ht.fiber.symm⟩)
  obtain rfl | hg := eq_or_ne g f
  · have hfiber : (s.left g (u (s.fibers g).data) pc sp (c.frame a)).fibers g =
        ⟨some s.nextSp, (s.fibers g).callerSp, u (s.fibers g).data⟩ := Function.update_self ..
    have hctx : (s.left g (u (s.fibers g).data) pc sp (c.frame a)).ctxs s.nextSp = some ⟨some g, pc⟩ :=
      (Function.update_of_ne (Nat.ne_of_gt (h.saved sp _ ht.saved)) ..).trans (Function.update_self ..)
    rw [Function.update_self, coroutine_eq (s := s.left g _ pc sp (c.frame a)) ht.home, hfiber]
    congr 2
    obtain ⟨hd, hw⟩ | ⟨hd, -⟩ := hwait
    · rw [hw, State.waitAt, if_pos (Or.inr (by rw [hfiber]; exact hd))]
    · rw [State.waitAt, if_neg, hfiber]
      · simp [hctx]
      · rintro (⟨c', hc', he⟩ | hd')
        · exact hcs c' (hpend' ▸ hc') he
        · rw [hfiber, hd] at hd'
          cases hd'
  · rw [Function.update_of_ne hg]
    refine h.coroutine_keeps rfl (Function.update_of_ne hg ..) ?_ fun sp' y hy hr' => ?_
    · rw [hpend', hp, ht.active]
      simp [ht.fiber, Ne.symm hg]
    · have hne : sp' ≠ sp := by
        rintro rfl
        exact hr'.not_frame c a (Option.some.inj (hy.symm.trans ht.saved))
      exact (Function.update_of_ne hne ..).trans ((Function.update_of_ne (Nat.ne_of_lt (h.saved sp' y hy)) ..).trans hy)

theorem coroutines_returned (h : Wired s) (hc : s.ctl = .at (c.frame a)) (hact : s.active = c :: cs) :
    (s.returned c).coroutines = s.coroutines.back := by
  obtain ⟨-, hactive⟩ : Accounted (s.returned c) ∧ (s.returned c).active = cs := h.account.return hact rfl rfl
  have hpend : s.pending = cs := by
    rw [State.pending, hc]
    exact (if_pos rfl).trans (congrArg List.tail hact)
  have hpend' : (s.returned c).pending = s.pending := hactive.trans hpend.symm
  have htop : topOf s.active = some c.fiber := by rw [topOf, hact]; rfl
  obtain ⟨-, -, hctop⟩ := coroutines_top h htop
  have htail : s.coroutines.stack.tail = cs.map (·.fiber) := by
    show (s.active.map (·.fiber)).tail = _
    rw [hact]
    rfl
  rw [Coroutines.back, hctop, htail]
  refine Coroutines.ext (funext fun g => ?_) rfl rfl ?_ rfl ?_
  · exact h.coroutine_keeps rfl rfl (by rw [hpend']) fun _ _ hx _ => hx
  · show (s.returned c).active.map (·.fiber) = _
    rw [hactive]
  · show (c.caller, _) :: _ = _
    rw [(h.linked c cs (hact ▸ List.suffix_refl _)).2, topOf, List.head?_map]
    rfl

theorem coroutines_toCode {on : Option Fid} (hp : s.pending = s.active) :
    { s with ctl := .code on }.coroutines = { s.coroutines with phase := .code } := by
  refine Coroutines.ext (funext fun g => ?_) rfl rfl rfl rfl rfl
  have hwait : { s with ctl := .code on }.waitAt g = s.waitAt g := waitAt_congr (by exact hp.symm) rfl rfl
  exact congrArg (fun w => (s.home g).map fun _ => (⟨(s.fibers g).data, w⟩ : Coroutine)) hwait

/-- The code of the fiber that was switched to goes on. -/
theorem coroutines_land (h : Wired s) (hx : s.ctl = .at x) (hr : s.Ready f x) (ht : topOf s.active = some f)
    (hset : Settled s .go) {w : Wait} (hw : x.pc.wait = some w) : (s.land x).coroutines = s.coroutines.enter w := by
  have hpend : s.pending = s.active := by
    rw [State.pending, hx]
    exact if_neg (by simp [hr.not_returns])
  obtain ⟨a, ha, hctop⟩ := coroutines_top h ht
  obtain ⟨stack, pc⟩ := x
  obtain ⟨hstack, hpc⟩ := id hr
  obtain rfl : stack = some f := hstack
  -- The address that was captured is the fiber's.
  have hhere : ∀ k p, pc = .yieldNow k → k.captured = some p → s.mem p = some f := by
    intro k p hk hp
    exact (h.mem p f).mpr (hset rfl f k p (by rw [hx, hk]) hp)
  rw [Coroutines.enter, hctop]
  obtain ⟨rfl, hcl⟩ | ⟨k, rfl⟩ := hpc
  · obtain rfl := Option.some.inj hw
    simp only [State.land, hcl, if_true]
    refine Coroutines.ext (funext fun g => ?_) rfl rfl rfl rfl rfl
    exact h.coroutine_keeps rfl rfl (by rw [hpend]; rfl) fun _ _ hy _ => hy
  · obtain rfl := Option.some.inj hw
    cases k with
    | now =>
      simp only [State.land, Yield.erase]
      rw [coroutines_toCode (s := s.saw (some f) .unit) hpend, coroutines_saw ht.symm]
    | value type p =>
      simp only [State.land, Yield.erase, State.withFiber, hhere _ p rfl rfl]
      rw [coroutines_toCode (s := (s.setData f _).saw (some f) _) hpend, coroutines_saw (s := s.setData f _) ht.symm,
        coroutines_setData ha (by rfl)]
    | u64 p =>
      simp only [State.land, Yield.erase, State.withFiber, hhere _ p rfl rfl]
      rw [coroutines_toCode (s := (s.setData f _).saw (some f) _) hpend, coroutines_saw (s := s.setData f _) ht.symm,
        coroutines_setData ha (by rfl)]

theorem Wired.hooks_none (h : Wired s) (ht : topOf s.active = none) : s.hooks = ⟨none, none⟩ := by
  rw [h.hooks]
  cases hact : s.active with
  | nil => rfl
  | cons c cs =>
    rw [hact] at ht
    cases ht

theorem Wired.hooks_some (h : Wired s) (ht : topOf s.active = some f) (ha : s.home f = some a) :
    s.hooks = ⟨some f, some a⟩ := by
  rw [h.hooks]
  cases hact : s.active with
  | nil =>
    rw [hact] at ht
    cases ht
  | cons c cs =>
    rw [hact] at ht
    obtain rfl := Option.some.inj ht
    rw [State.hooksOf, ha]

theorem coroutines_ask (h : Wired s) {on : Option Fid} (hon : on = topOf s.active) (q : Ask) :
    (s.ask on q).coroutines = s.coroutines.ask q := by
  cases ht : topOf s.active with
  | none =>
    rw [State.ask, h.hooks_none ht, Coroutines.ask, coroutines_top_none ht]
    exact coroutines_saw hon
  | some f =>
    obtain ⟨a, ha, hctop⟩ := coroutines_top h ht
    rw [State.ask, h.hooks_some ht ha, Coroutines.ask, hctop]
    simp only [State.withFiber, (h.mem a f).mpr ha]
    rw [coroutines_saw (s := s.setData f _) hon, coroutines_setData ha (answer_flags _ q).1]

theorem stack_ne_nil (ht : topOf s.active = some f) : s.coroutines.stack ≠ [] := by
  intro hnil
  rw [← head_stack, hnil] at ht
  cases ht

/-- Outside of any fiber there is nothing to give back. -/
theorem coroutines_outside {on : Option Fid} (hon : on = topOf s.active) (ht : topOf s.active = none) (u : Data → Data)
    (w : Option Wait) : (s.saw on .panicked).coroutines = s.coroutines.leave u w := by
  rw [coroutines_saw hon, Coroutines.leave, coroutines_top_none ht]

theorem coroutines_yield (h : Wired s) (hpend : s.pending = s.active) (ht : topOf s.active = some f) (k : Yield Addr)
    {u : Data → Data} (hu : ∀ d, (u d).done = d.done) :
    ((s.setData f (u (s.fibers f).data)).yieldNow (some f) k).coroutines =
      s.coroutines.leave u (some (.yield k.erase)) := by
  obtain ⟨a, c, cs, sp, htop⟩ := h.top hpend ht
  rw [h.yieldNow_eq htop]
  exact coroutines_left h htop hpend (Or.inr ⟨(hu _).trans htop.notDone, rfl⟩)

/-! ### Steps -/

/-- The call without its address; a move is no call. -/
def Op.erase : Op → Option Op
  | .new _ => some (.new 0)
  | .move _ _ => none
  | o => some o

/-- A call that the running code makes. -/
theorem coroutines_call (h : Wired s) {on : Option Fid} (hc : s.ctl = .code on) (hon : on = topOf s.active)
    (hs : step s o = some s') :
    match o.erase with
    | none => s'.coroutines = s.coroutines
    | some o' => s.coroutines.call o' = some s'.coroutines := by
  have hpend : s.pending = s.active := by rw [State.pending, hc]
  have hget : ∀ {f a}, s.home f = some a → s.coroutines.get f = some ⟨(s.fibers f).data, s.waitAt f⟩ := coroutine_eq
  cases o with
  | new a =>
    simp only [step, hc] at hs
    split at hs <;> cases hs
    exact congrArg some (coroutines_new h (hon ▸ hc) ‹_›).symm
  | move f b =>
    simp only [step, hc] at hs
    split at hs
    · obtain ⟨a, ha, rfl⟩ := Option.map_eq_some_iff.mp hs
      exact coroutines_move h (And.left ‹_›) ha
    · cases hs
  | drop f =>
    simp only [step, hc] at hs
    split at hs
    · obtain ⟨a, ha, rfl⟩ := Option.map_eq_some_iff.mp hs
      rw [coroutines_drop h]
      exact if_pos (free_iff.mpr ‹_›)
    · cases hs
  | resume f input =>
    simp only [step, hc] at hs
    split at hs
    · rename_i hfree
      obtain ⟨a, ha, rfl⟩ := Option.map_eq_some_iff.mp hs
      refine (if_pos (free_iff.mpr hfree)).trans ?_
      cases hd : (s.fibers f).data.done with
      | true =>
        rw [resume_done hd, coroutines_saw (s := s.setData f _) hon, coroutines_setData ha (fill_flags _ _).1,
          Coroutines.resume, hget ha, Option.bind_some]
        exact if_pos (by rw [(fill_flags _ _).1, hd])
      | false =>
        obtain ⟨sp, x, hsp, hx, hr, -⟩ := h.waitAt_asleep ha (fun c hc => hfree.2 c (hpend ▸ hc)) hd
        rw [h.resume_eq ha hsp hx hd]
        exact coroutines_entered h hc hfree ha hsp hx hr hd
    · cases hs
  | access f q =>
    simp only [step, hc] at hs
    split at hs <;> cases hs
    rename_i hfree
    obtain ⟨a, ha⟩ := Option.ne_none_iff_exists'.mp hfree.1
    rw [coroutines_saw (s := s.setData f _) hon, coroutines_setData ha (access_flags _ q).1]
    refine (if_pos (free_iff.mpr hfree)).trans ?_
    rw [Coroutines.access, hget ha]
    rfl
  | ask q =>
    simp only [step, hc] at hs
    cases hs
    exact congrArg some (coroutines_ask h hon q).symm
  | yieldNow =>
    simp only [step, hc] at hs
    cases hs
    refine congrArg some ?_
    cases ht : topOf s.active with
    | none =>
      rw [State.yieldNow, h.hooks_none ht]
      exact (coroutines_outside hon ht _ _).symm
    | some f =>
      have heq := coroutines_yield h hpend ht .now (u := id) fun _ => rfl
      rw [id, setData_self, ← ht, ← hon] at heq
      exact heq.symm
  | yieldValue v type =>
    simp only [step, hc] at hs
    cases hs
    refine congrArg some ?_
    cases ht : topOf s.active with
    | none =>
      rw [State.yieldValue, h.hooks_none ht]
      exact (coroutines_outside hon ht _ _).symm
    | some f =>
      obtain ⟨a, ha, -⟩ := coroutines_top h ht
      rw [State.yieldValue, h.hooks_some ht ha, hon, ht]
      simp only [State.withFiber, (h.mem a f).mpr ha]
      exact (coroutines_yield h hpend ht (.value type a) (u := fun d => { d with outputSlot := some v }) fun _ => rfl).symm
  | yieldU64 n =>
    simp only [step, hc] at hs
    cases hs
    refine congrArg some ?_
    cases ht : topOf s.active with
    | none =>
      rw [State.yieldU64, h.hooks_none ht]
      exact (coroutines_outside hon ht _ _).symm
    | some f =>
      obtain ⟨a, ha, -⟩ := coroutines_top h ht
      rw [State.yieldU64, h.hooks_some ht ha, hon, ht]
      simp only [State.withFiber, (h.mem a f).mpr ha]
      exact (coroutines_yield h hpend ht (.u64 a) (u := fun d => { d with outputU64 := some n }) fun _ => rfl).symm
  | finish =>
    cases on with
    | none => simp [step, hc] at hs
    | some f =>
      simp only [step, hc] at hs
      cases hs
      obtain ⟨a, c, cs, sp, htop⟩ := h.top hpend hon.symm
      rw [← setData_self s f, h.exit_eq htop, setData_self]
      refine (if_neg (stack_ne_nil hon.symm)).trans (congrArg some ?_)
      exact (coroutines_left h htop hpend (u := fun d => { d with done := true })
        (Or.inl (show _ ∧ Pc.finished.wait = none from ⟨rfl, rfl⟩))).symm
  | panic p =>
    cases on with
    | none => simp [step, hc] at hs
    | some f =>
      simp only [step, hc] at hs
      cases hs
      obtain ⟨a, c, cs, sp, htop⟩ := h.top hpend hon.symm
      rw [h.caught_eq htop]
      refine (if_neg (stack_ne_nil hon.symm)).trans (congrArg some ?_)
      exact (coroutines_left h htop hpend (u := fun d => { d with errored := true, errorPayload := some p, done := true })
        (Or.inl (show _ ∧ Pc.finished.wait = none from ⟨rfl, rfl⟩))).symm
  | go => simp [step, hc] at hs

/-- A step of the machine is a step of the coroutines, and a move is none. -/
theorem coroutines_step (h : Wired s) (hset : Settled s o) (hs : step s o = some s') :
    match o.erase with
    | none => s'.coroutines = s.coroutines
    | some o' => s.coroutines.step o' = some s'.coroutines := by
  have hphase : ∀ {p}, s.ctl.phase = p → s.coroutines.phase = p := id
  cases hc : s.ctl with
  | code on =>
    have hon : on = topOf s.active := by
      have := h.ctl
      rwa [State.CtlOk, hc] at this
    have := coroutines_call h hc hon hs
    split <;> rename_i he <;> rw [he] at this
    · exact this
    · rw [Coroutines.step, hphase (p := .code) (by rw [hc]; rfl)]
      exact this
  | «at» x =>
    cases o with
    | go =>
      simp only [step, hc] at hs
      cases hs
      show s.coroutines.step .go = _
      have hctl := h.ctl
      rw [State.CtlOk, hc] at hctl
      obtain ⟨f, ht, hr⟩ | ⟨c, cs, a, hact, ha, rfl⟩ := hctl
      · obtain ⟨w, hw⟩ := hr.wait
        rw [Coroutines.step, hphase (p := .entered w) (by rw [hc, Ctl.phase, hr.not_returns, hw, if_neg Bool.false_ne_true]),
          coroutines_land h hc hr ht hset hw]
        exact if_pos rfl
      · rw [Coroutines.step, hphase (p := .left) (by rw [hc]; rfl), (h.land_frame hc hact ha).1,
          coroutines_returned h hc hact]
        exact if_pos rfl
    | _ => simp [step, hc] at hs
  | ub => cases o <;> simp [step, hc] at hs

end

end Krio.Fibers
