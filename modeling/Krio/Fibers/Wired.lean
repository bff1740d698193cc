import Krio.Fibers.Machine

/-! The chain of callers. A `resume` keeps the hooks it found in its own frame, on the stack of whoever called it, and
that frame is the context that the fiber's `caller_sp` leads back to. So the active calls form a chain, with the hooks
at its head, and every switch out of a fiber goes to the call that resumed it last. -/

namespace Krio.Fibers
open Lib

section
variable {s s' : State} {o : Op} {f : Fid} {a b : Addr} {c : Call} {cs : List Call} {x : Ctx} {sp : Sp}

/-- The hooks while the calls `cs` are active. -/
def State.hooksOf (s : State) : List Call → Hooks
  | [] => ⟨none, none⟩
  | c :: _ => ⟨some c.fiber, s.home c.fiber⟩

/-- The stack that runs while the calls `cs` are active. -/
def topOf (cs : List Call) : Option Fid := cs.head?.map (·.fiber)

/-- Where a call on a fiber at `a` continues when the fiber switches away. -/
def Call.frame (c : Call) (a : Addr) : Ctx := ⟨c.caller, .resume a c.hooks.trampoline c.hooks.fiber c⟩

def Pc.returns : Pc → Bool
  | .resume _ _ _ _ => true
  | _ => false

/-- The active calls that wait in the switch for their fiber. -/
def State.pending (s : State) : List Call :=
  match s.ctl with
  | .at x => if x.pc.returns then s.active.tail else s.active
  | _ => s.active

/-- Every pointer leads to the fiber at `a`. -/
structure TrampolineState.Points (b : TrampolineState) (a : Addr) : Prop where
  doneFlag : b.doneFlag = some a
  erroredFlag : b.erroredFlag = some a
  errorPayloadSlot : b.errorPayloadSlot = some a
  callerSpSlot : b.callerSpSlot = some a
  fiberSpSlot : b.fiberSpSlot = some a

/-- What a fiber's stack does once it is switched to. -/
def State.Ready (s : State) (f : Fid) (x : Ctx) : Prop :=
  x.stack = some f ∧ ((x.pc = .run ∧ (s.boxes f).closure = true) ∨ ∃ k, x.pc = .yieldNow k)

/-- The call waits in its frame. -/
def State.Held (s : State) (c : Call) : Prop :=
  ∃ sp a, (s.fibers c.fiber).callerSp = some sp ∧ s.home c.fiber = some a ∧ s.ctxs sp = some (c.frame a)

/-- The fiber is over, or it waits to be resumed. -/
def State.Asleep (s : State) (f : Fid) : Prop :=
  (s.fibers f).data.done = true ∨ ∃ sp x, (s.fibers f).fiberSp = some sp ∧ s.ctxs sp = some x ∧ s.Ready f x

def State.CtlOk (s : State) : Prop :=
  match s.ctl with
  | .code on => on = topOf s.active
  | .at x => (∃ f, topOf s.active = some f ∧ s.Ready f x) ∨
      ∃ c cs a, s.active = c :: cs ∧ s.home c.fiber = some a ∧ x = c.frame a
  | .ub => True

/-- The account of active calls. -/
structure Accounted (s : State) : Prop where
  ids : (s.active.map (·.id)).Nodup
  fresh : ∀ c ∈ s.active, c.id < s.calls
  fibers : (s.active.map (·.fiber)).Nodup
  latest : ∀ c ∈ s.active, lastCall c.fiber s.trace = some c
  returned : ∀ c r h, .returned c r h ∈ s.trace → h = c.hooks

/-- The pointers between the hooks, the active calls and the stacks. -/
structure Wired (s : State) : Prop where
  account : Accounted s
  mem : ∀ a f, s.mem a = some f ↔ s.home f = some a
  made : ∀ f a, s.home f = some a → f < s.created
  saved : ∀ sp x, s.ctxs sp = some x → sp < s.nextSp
  hooks : s.hooks = s.hooksOf s.active
  linked : ∀ c cs, c :: cs <:+ s.active → c.hooks = s.hooksOf cs ∧ c.caller = topOf cs
  boxes : ∀ c ∈ s.active, ∃ a, s.home c.fiber = some a ∧ (s.boxes c.fiber).Points a
  held : ∀ c ∈ s.pending, s.Held c ∧ (s.fibers c.fiber).data.done = false
  asleep : ∀ f a, s.home f = some a → (∀ c ∈ s.pending, c.fiber ≠ f) → s.Asleep f
  errored : ∀ f, (s.fibers f).data.errored = true → (s.fibers f).data.done = true
  ctl : s.CtlOk

/-! ### Steps that do not switch -/

@[simp] theorem activeCalls_saw (on : Option Fid) (y : Seen) (t : List Event) :
    activeCalls (.saw on y :: t) = activeCalls t := rfl

theorem Accounted.saw (h : Accounted s) {on : Option Fid} {y : Seen} (ht : s'.trace = .saw on y :: s.trace)
    (hc : s'.calls = s.calls) : Accounted s' := by
  have hactive : s'.active = s.active := by rw [State.active, ht]; rfl
  refine ⟨hactive ▸ h.ids, hactive ▸ hc ▸ h.fresh, hactive ▸ h.fibers, ?_, ?_⟩
  · rw [hactive, ht]
    exact h.latest
  · intro c r k hr
    rw [ht] at hr
    exact h.returned c r k (by simpa using hr)

theorem Accounted.same (h : Accounted s) (ht : s'.trace = s.trace) (hc : s'.calls = s.calls) : Accounted s' := by
  have hactive : s'.active = s.active := by rw [State.active, ht]; rfl
  exact ⟨hactive ▸ h.ids, hactive ▸ hc ▸ h.fresh, hactive ▸ h.fibers, hactive ▸ ht ▸ h.latest, ht ▸ h.returned⟩

theorem hooksOf_congr (hh : ∀ c ∈ cs, s'.home c.fiber = s.home c.fiber) : s'.hooksOf cs = s.hooksOf cs := by
  cases cs with
  | nil => rfl
  | cons c cs => rw [State.hooksOf, State.hooksOf, hh c List.mem_cons_self]

theorem pending_subset (s : State) : s.pending ⊆ s.active := by
  unfold State.pending
  split
  · split
    · exact fun _ => List.mem_of_mem_tail
    · exact List.Subset.refl _
  · exact List.Subset.refl _

/-- A step that leaves the active calls and their frames alone. -/
theorem Wired.frame (h : Wired s) (ha : Accounted s') (hactive : s'.active = s.active) (hpending : s'.pending = s.pending)
    (hhooks : s'.hooks = s.hooks)
    (hcalls : ∀ c ∈ s.active, s'.home c.fiber = s.home c.fiber ∧
      (s'.fibers c.fiber).callerSp = (s.fibers c.fiber).callerSp ∧
      (s'.fibers c.fiber).data.done = (s.fibers c.fiber).data.done ∧
      ∀ a, (s.boxes c.fiber).Points a → (s'.boxes c.fiber).Points a)
    (hctxs : ∀ sp x, s.ctxs sp = some x → s'.ctxs sp = some x)
    (hmem : ∀ a f, s'.mem a = some f ↔ s'.home f = some a) (hmade : ∀ f a, s'.home f = some a → f < s'.created)
    (hsaved : ∀ sp x, s'.ctxs sp = some x → sp < s'.nextSp)
    (hasleep : ∀ f a, s'.home f = some a → (∀ c ∈ s.pending, c.fiber ≠ f) → s'.Asleep f)
    (herr : ∀ f, (s'.fibers f).data.errored = true → (s'.fibers f).data.done = true) (hctl : s'.CtlOk) : Wired s' := by
  refine ⟨ha, hmem, hmade, hsaved, ?_, ?_, ?_, ?_, hpending ▸ hasleep, herr, hctl⟩
  · rw [hhooks, h.hooks, hactive, hooksOf_congr fun c hc => (hcalls c hc).1]
  · intro c cs hs
    rw [hactive] at hs
    rw [hooksOf_congr fun c' hc' => (hcalls c' (hs.subset (List.mem_cons_of_mem _ hc'))).1]
    exact h.linked c cs hs
  · intro c hc
    rw [hactive] at hc
    obtain ⟨a, hhome, hpoints⟩ := h.boxes c hc
    exact ⟨a, (hcalls c hc).1.trans hhome, (hcalls c hc).2.2.2 a hpoints⟩
  · intro c hc
    rw [hpending] at hc
    obtain ⟨⟨sp, a, hsp, hhome, hx⟩, hdone⟩ := h.held c hc
    obtain ⟨h₁, h₂, h₃, -⟩ := hcalls c (pending_subset s hc)
    exact ⟨⟨sp, a, h₂.trans hsp, h₁.trans hhome, hctxs sp _ hx⟩, h₃.trans hdone⟩

/-- Nothing but data that no switch reads has changed. -/
structure Same (s s' : State) : Prop where
  mem : s'.mem = s.mem
  home : s'.home = s.home
  created : s'.created = s.created
  ctxs : s'.ctxs = s.ctxs
  nextSp : s'.nextSp = s.nextSp
  hooks : s'.hooks = s.hooks
  boxes : s'.boxes = s.boxes
  sps : ∀ f, (s'.fibers f).fiberSp = (s.fibers f).fiberSp ∧ (s'.fibers f).callerSp = (s.fibers f).callerSp
  flags : ∀ f, (s'.fibers f).data.done = (s.fibers f).data.done ∧ (s'.fibers f).data.errored = (s.fibers f).data.errored

theorem Same.asleep (S : Same s s') (h : s.Asleep f) : s'.Asleep f := by
  obtain hd | ⟨sp, x, hsp, hx, hr⟩ := h
  · exact Or.inl ((S.flags f).1.trans hd)
  · refine Or.inr ⟨sp, x, (S.sps f).1.trans hsp, S.ctxs ▸ hx, ?_⟩
    rwa [State.Ready, S.boxes]

theorem Wired.same (h : Wired s) (S : Same s s') (ha : Accounted s') (hactive : s'.active = s.active)
    (hpending : s'.pending = s.pending) (hctl : s'.CtlOk) : Wired s' := by
  refine h.frame ha hactive hpending S.hooks (fun c hc => ?_) (fun sp x hx => ?_) ?_ ?_ ?_ ?_ ?_ hctl
  · exact ⟨congrFun S.home _, (S.sps _).2, (S.flags _).1, fun a ha => S.boxes ▸ ha⟩
  · rwa [S.ctxs]
  · rw [S.mem, S.home]
    exact h.mem
  · rw [S.home, S.created]
    exact h.made
  · rw [S.ctxs, S.nextSp]
    exact h.saved
  · rw [S.home]
    exact fun f a hf hp => S.asleep (h.asleep f a hf hp)
  · intro f
    rw [(S.flags f).1, (S.flags f).2]
    exact h.errored f

theorem same_setData {d : Data} (hd : d.done = (s.fibers f).data.done) (he : d.errored = (s.fibers f).data.errored) :
    Same s (s.setData f d) := by
  have hg : ∀ g, g = f ∨ (s.setData f d).fibers g = s.fibers g := by
    intro g
    obtain rfl | hg := eq_or_ne g f
    · exact Or.inl rfl
    · exact Or.inr (Function.update_of_ne hg ..)
  have hf : (s.setData f d).fibers f = { s.fibers f with data := d } := Function.update_self ..
  refine ⟨rfl, rfl, rfl, rfl, rfl, rfl, rfl, fun g => ?_, fun g => ?_⟩
  · obtain rfl | hg := hg g
    · rw [hf]
      exact ⟨rfl, rfl⟩
    · rw [hg]
      exact ⟨rfl, rfl⟩
  · obtain rfl | hg := hg g
    · rw [hf]
      exact ⟨hd, he⟩
    · rw [hg]
      exact ⟨rfl, rfl⟩

theorem Wired.setData (h : Wired s) {d : Data} (hd : d.done = (s.fibers f).data.done)
    (he : d.errored = (s.fibers f).data.errored) : Wired (s.setData f d) :=
  h.same (same_setData hd he) (h.account.same rfl rfl) rfl rfl h.ctl

theorem Wired.saw (h : Wired s) (on : Option Fid) (y : Seen) : Wired (s.saw on y) :=
  h.same ⟨rfl, rfl, rfl, rfl, rfl, rfl, rfl, fun _ => ⟨rfl, rfl⟩, fun _ => ⟨rfl, rfl⟩⟩ (h.account.saw rfl rfl) rfl rfl h.ctl

theorem Wired.crash (h : Wired s) (hp : s.pending = s.active) : Wired s.crash :=
  h.same ⟨rfl, rfl, rfl, rfl, rfl, rfl, rfl, fun _ => ⟨rfl, rfl⟩, fun _ => ⟨rfl, rfl⟩⟩ (h.account.same rfl rfl) rfl hp.symm
    trivial

theorem fill_flags (d : Data) (i : Input) : (d.fill i).done = d.done ∧ (d.fill i).errored = d.errored := by
  cases i <;> exact ⟨rfl, rfl⟩

theorem access_flags (d : Data) (q : Access) : (d.access q).2.done = d.done ∧ (d.access q).2.errored = d.errored := by
  cases q with
  | takeYieldValue type =>
    simp only [Data.access, Data.takeYieldValue]
    split
    · exact ⟨rfl, rfl⟩
    · split <;> exact ⟨rfl, rfl⟩
  | _ => exact ⟨rfl, rfl⟩

theorem answer_flags (d : Data) (q : Ask) : (d.answer q).2.done = d.done ∧ (d.answer q).2.errored = d.errored := by
  cases q <;> exact ⟨rfl, rfl⟩

theorem Wired.ask (h : Wired s) (on : Option Fid) (q : Ask) (hp : s.pending = s.active) : Wired (s.ask on q) := by
  unfold State.ask State.withFiber
  split
  · exact h.saw on _
  · split
    · exact h.crash hp
    · exact (h.setData (answer_flags _ q).1 (answer_flags _ q).2).saw on _

/-! ### Where fibers lie -/

/-- A fiber that is not being run can be put elsewhere. -/
theorem Wired.rehome (h : Wired s) (hfree : s.free f) {mem : Addr → Option Fid} {home : Option Addr}
    (hmem : ∀ a g, mem a = some g ↔ Function.update s.home f home g = some a) :
    Wired { s with mem := mem, home := Function.update s.home f home } := by
  have hother : ∀ c ∈ s.active, Function.update s.home f home c.fiber = s.home c.fiber :=
    fun c hc => Function.update_of_ne (hfree.2 c hc) _ _
  have hlive : ∀ g a, Function.update s.home f home g = some a → ∃ a', s.home g = some a' := by
    intro g a hg
    obtain rfl | hgf := eq_or_ne g f
    · exact Option.ne_none_iff_exists'.mp hfree.1
    · rw [Function.update_of_ne hgf] at hg
      exact ⟨a, hg⟩
  refine h.frame (h.account.same rfl rfl) rfl rfl rfl (fun c hc => ⟨hother c hc, rfl, rfl, fun a ha => ha⟩)
    (fun sp x hx => hx) hmem (fun g a hg => ?_) h.saved (fun g a hg hpend => ?_) h.errored ?_
  · obtain ⟨a', ha'⟩ := hlive g a hg
    exact h.made g a' ha'
  · obtain ⟨a', ha'⟩ := hlive g a hg
    exact h.asleep g a' ha' hpend
  · have hctl := h.ctl
    unfold State.CtlOk at hctl ⊢
    split <;> rename_i hc <;> simp only [show s.ctl = _ from hc] at hctl
    · exact hctl
    · refine hctl.imp id fun ⟨c, cs, a, hcs, ha, hx⟩ => ⟨c, cs, a, hcs, ?_, hx⟩
      exact (hother c (hcs ▸ List.mem_cons_self)).trans ha
    · trivial

theorem Wired.move (h : Wired s) (hfree : s.free f) (ha : s.home f = some a)
    (hb : s.mem b = none) : Wired (s.move f a b) := by
  refine h.rehome hfree fun x g => ?_
  have hxb : ∀ y, s.home y ≠ some b := fun y hy => by
    rw [(h.mem b y).mpr hy] at hb
    cases hb
  obtain rfl | hgf := eq_or_ne g f
  · rw [Function.update_self]
    obtain rfl | hx := eq_or_ne x b
    · simp
    · rw [Function.update_of_ne hx]
      obtain rfl | hxa := eq_or_ne x a
      · simp [hx.symm]
      · rw [Function.update_of_ne hxa, h.mem, ha]
        simp [hxa.symm, hx.symm]
  · rw [Function.update_of_ne hgf]
    obtain rfl | hx := eq_or_ne x b
    · simp [hgf.symm, hxb]
    · rw [Function.update_of_ne hx]
      obtain rfl | hxa := eq_or_ne x a
      · rw [Function.update_self]
        refine ⟨nofun, fun hg => absurd ?_ hgf⟩
        exact Option.some.inj (((h.mem x g).mpr hg).symm.trans ((h.mem x f).mpr ha))
      · rw [Function.update_of_ne hxa, h.mem]

theorem Wired.drop (h : Wired s) (hfree : s.free f) (ha : s.home f = some a) :
    Wired (s.drop f a) := by
  refine h.rehome hfree fun x g => ?_
  obtain rfl | hxa := eq_or_ne x a
  · rw [Function.update_self]
    refine ⟨nofun, fun hg => ?_⟩
    obtain rfl | hgf := eq_or_ne g f
    · rw [Function.update_self] at hg
      cases hg
    · rw [Function.update_of_ne hgf] at hg
      exact absurd (Option.some.inj (((h.mem x g).mpr hg).symm.trans ((h.mem x f).mpr ha))) hgf
  · rw [Function.update_of_ne hxa, h.mem]
    obtain rfl | hgf := eq_or_ne g f
    · rw [Function.update_self, ha]
      simp [hxa.symm]
    · rw [Function.update_of_ne hgf]

theorem Wired.new (h : Wired s) {on : Option Fid} (hc : s.ctl = .code on) (ha : s.mem a = none) : Wired (s.new a) := by
  have hnot : ∀ g, g = s.created → s.home g = none := by
    intro g hg
    rw [← Option.not_isSome_iff_eq_none]
    intro hs
    obtain ⟨x, hx⟩ := Option.isSome_iff_exists.mp hs
    exact absurd (h.made g x hx) (hg ▸ Nat.lt_irrefl _)
  have hactive : ∀ c ∈ s.active, c.fiber ≠ s.created := by
    intro c hc hf
    obtain ⟨x, hx, -⟩ := h.boxes c hc
    rw [hnot _ hf] at hx
    cases hx
  have hxa : ∀ y, s.home y ≠ some a := fun y hy => by
    rw [(h.mem a y).mpr hy] at ha
    cases ha
  have hctxs : ∀ sp x, s.ctxs sp = some x → (s.new a).ctxs sp = some x := by
    intro sp x hx
    exact (Function.update_of_ne (Nat.ne_of_lt (h.saved sp x hx)) ..).trans hx
  refine h.frame (h.account.same rfl rfl) rfl rfl rfl (fun c hc => ?_) hctxs (fun x g => ?_) (fun g x hg => ?_)
    (fun sp x hx => ?_) (fun g x hg hpend => ?_) (fun g => ?_) ?_
  · have hne := hactive c hc
    simp only [State.new, Function.update_of_ne hne, true_and]
    exact fun _ ha => ha
  · simp only [State.new]
    obtain rfl | hx := eq_or_ne x a
    · rw [Function.update_self]
      obtain rfl | hg := eq_or_ne g s.created
      · simp
      · simp [Function.update_of_ne hg, hxa, Ne.symm hg]
    · rw [Function.update_of_ne hx, h.mem]
      obtain rfl | hg := eq_or_ne g s.created
      · simp [hnot _ rfl, hx.symm]
      · rw [Function.update_of_ne hg]
  · simp only [State.new] at hg ⊢
    obtain rfl | hgc := eq_or_ne g s.created
    · exact Nat.lt_succ_self _
    · rw [Function.update_of_ne hgc] at hg
      exact Nat.lt_succ_of_lt (h.made g x hg)
  · simp only [State.new] at hx ⊢
    obtain rfl | hsp := eq_or_ne sp s.nextSp
    · exact Nat.lt_succ_self _
    · rw [Function.update_of_ne hsp] at hx
      exact Nat.lt_succ_of_lt (h.saved sp x hx)
  · obtain rfl | hgc := eq_or_ne g s.created
    · exact Or.inr ⟨s.nextSp, _, by simp [State.new], Function.update_self .., rfl, Or.inl ⟨rfl, by simp [State.new]⟩⟩
    · have hg' : s.home g = some x := (Function.update_of_ne hgc ..).symm.trans hg
      obtain hd | ⟨sp, y, hsp, hy, hr⟩ := h.asleep g x hg' hpend
      · exact Or.inl (by simpa only [State.new, Function.update_of_ne hgc] using hd)
      · refine Or.inr ⟨sp, y, by simpa only [State.new, Function.update_of_ne hgc] using hsp, hctxs sp y hy, ?_⟩
        simpa only [State.Ready, State.new, Function.update_of_ne hgc] using hr
  · simp only [State.new]
    obtain rfl | hgc := eq_or_ne g s.created
    · rw [Function.update_self]
      nofun
    · rw [Function.update_of_ne hgc]
      exact h.errored g
  · have hctl := h.ctl
    unfold State.CtlOk at hctl ⊢
    rw [show (s.new a).ctl = .code on from hc]
    rwa [hc] at hctl

/-! ### Into a fiber -/

/-- The call that `resume` makes, and the state after it. -/
def State.callOf (s : State) (on : Option Fid) (f : Fid) (input : Input) : Call := ⟨s.calls, on, f, input, s.hooks⟩

def State.entered (s : State) (on : Option Fid) (f : Fid) (a : Addr) (input : Input) (sp : Sp) (x : Ctx) : State :=
  { s with
    fibers := Function.update s.fibers f
      ⟨(s.fibers f).fiberSp, some s.nextSp, { (s.fibers f).data.fill input with started := true }⟩
    boxes := Function.update s.boxes f ⟨(s.boxes f).closure, some a, some a, some a, some a, some a⟩
    hooks := ⟨some f, some a⟩
    calls := s.calls + 1
    trace := .called (s.callOf on f input) :: s.trace
    ctxs := Function.update (Function.update s.ctxs s.nextSp (some ((s.callOf on f input).frame a))) sp none
    nextSp := s.nextSp + 1
    ctl := .at x }

theorem Wired.resume_eq (h : Wired s) {on : Option Fid} {input : Input} (ha : s.home f = some a)
    (hsp : (s.fibers f).fiberSp = some sp) (hx : s.ctxs sp = some x) (hd : (s.fibers f).data.done = false) :
    s.resume on f a input = s.entered on f a input sp x := by
  have hne : sp ≠ s.nextSp := Nat.ne_of_lt (h.saved sp x hx)
  have hfill : ((s.fibers f).data.fill input).done = false := (fill_flags _ _).1.trans hd
  simp [State.resume, State.switchIn, State.setData, State.setFiber, State.load, State.save, (h.mem a f).mpr ha, hfill, hsp,
    hne, hx, State.entered, State.callOf, Call.frame]

theorem Accounted.called (h : Accounted s) (ht : s'.trace = .called c :: s.trace) (hid : c.id = s.calls)
    (hcalls : s'.calls = s.calls + 1) (hfree : ∀ c' ∈ s.active, c'.fiber ≠ c.fiber) : Accounted s' := by
  have hactive : s'.active = c :: s.active := by rw [State.active, ht]; rfl
  refine ⟨?_, ?_, ?_, ?_, ?_⟩
  · rw [hactive, List.map_cons, List.nodup_cons]
    refine ⟨fun hmem => ?_, h.ids⟩
    obtain ⟨c', hc', he⟩ := List.mem_map.mp hmem
    have := h.fresh c' hc'
    omega
  · rw [hactive, hcalls]
    intro c' hc'
    obtain rfl | hc' := List.mem_cons.mp hc'
    · omega
    · exact Nat.lt_succ_of_lt (h.fresh c' hc')
  · rw [hactive, List.map_cons, List.nodup_cons]
    refine ⟨fun hmem => ?_, h.fibers⟩
    obtain ⟨c', hc', he⟩ := List.mem_map.mp hmem
    exact hfree c' hc' he
  · rw [hactive, ht]
    intro c' hc'
    obtain rfl | hc' := List.mem_cons.mp hc'
    · exact if_pos rfl
    · exact (if_neg (Ne.symm (hfree c' hc'))).trans (h.latest c' hc')
  · intro c' r k hr
    rw [ht] at hr
    exact h.returned c' r k (by simpa using hr)

theorem State.Ready.not_frame (h : s.Ready f x) (c : Call) (a : Addr) : x ≠ c.frame a := by
  rintro rfl
  obtain ⟨-, ⟨hpc, -⟩ | ⟨k, hpc⟩⟩ := h <;> cases hpc

theorem State.Ready.not_returns (h : s.Ready f x) : x.pc.returns = false := by
  obtain ⟨-, ⟨hpc, -⟩ | ⟨k, hpc⟩⟩ := h <;> rw [hpc] <;> rfl

theorem Wired.entered (h : Wired s) {on : Option Fid} {input : Input} (hc : s.ctl = .code on) (hfree : s.free f)
    (ha : s.home f = some a) (hsp : (s.fibers f).fiberSp = some sp) (hx : s.ctxs sp = some x) (hr : s.Ready f x)
    (hd : (s.fibers f).data.done = false) : Wired (s.entered on f a input sp x) := by
  have hpend : s.pending = s.active := by rw [State.pending, hc]
  have hon : on = topOf s.active := by
    have := h.ctl
    rwa [State.CtlOk, hc] at this
  have hactive : (s.entered on f a input sp x).active = s.callOf on f input :: s.active := rfl
  have hpend' : (s.entered on f a input sp x).pending = s.callOf on f input :: s.active := by
    rw [State.pending, State.entered]
    simp only [hr.not_returns]
    rfl
  -- A context that is saved and is not the one loaded stays saved.
  have hctxs : ∀ sp' y, s.ctxs sp' = some y → y ≠ x → (s.entered on f a input sp x).ctxs sp' = some y := by
    intro sp' y hy hyx
    have hne : sp' ≠ sp := by
      rintro rfl
      exact hyx (Option.some.inj (hy.symm.trans hx))
    exact (Function.update_of_ne hne ..).trans ((Function.update_of_ne (Nat.ne_of_lt (h.saved sp' y hy)) ..).trans hy)
  refine ⟨h.account.called rfl rfl rfl hfree.2, h.mem, h.made, ?_, ?_, ?_, ?_, ?_, ?_, ?_, ?_⟩
  · intro sp' y hy
    simp only [State.entered] at hy ⊢
    obtain rfl | hne := eq_or_ne sp' sp
    · rw [Function.update_self] at hy
      cases hy
    · rw [Function.update_of_ne hne] at hy
      obtain rfl | hnew := eq_or_ne sp' s.nextSp
      · exact Nat.lt_succ_self _
      · rw [Function.update_of_ne hnew] at hy
        exact Nat.lt_succ_of_lt (h.saved sp' y hy)
  · rw [hactive]
    exact congrArg _ ha.symm
  · rw [hactive]
    intro c cs hs
    obtain hs | hs := List.suffix_cons_iff.mp hs
    · obtain ⟨rfl, rfl⟩ := List.cons.inj hs
      exact ⟨h.hooks, hon⟩
    · exact h.linked c cs hs
  · rw [hactive]
    intro c hc
    obtain rfl | hc := List.mem_cons.mp hc
    · exact ⟨a, ha, by simp only [State.entered, State.callOf, Function.update_self]; exact ⟨rfl, rfl, rfl, rfl, rfl⟩⟩
    · obtain ⟨b, hb, hp⟩ := h.boxes c hc
      exact ⟨b, hb, by simpa only [State.entered, Function.update_of_ne (hfree.2 c hc)] using hp⟩
  · rw [hpend']
    intro c hc
    obtain rfl | hc := List.mem_cons.mp hc
    · refine ⟨⟨s.nextSp, a, by simp [State.entered, State.callOf], ha, ?_⟩, ?_⟩
      · exact (Function.update_of_ne (Nat.ne_of_gt (h.saved sp x hx)) ..).trans (Function.update_self ..)
      · simpa [State.entered, State.callOf] using (fill_flags _ _).1.trans hd
    · obtain ⟨⟨sp', b, hsp', hb, hy⟩, hdone⟩ := h.held c (hpend ▸ hc)
      have hne := hfree.2 c hc
      refine ⟨⟨sp', b, ?_, hb, hctxs sp' _ hy (hr.not_frame c b).symm⟩, ?_⟩
      · simpa only [State.entered, Function.update_of_ne hne] using hsp'
      · simpa only [State.entered, Function.update_of_ne hne] using hdone
  · rw [hpend']
    intro g b hg hnone
    have hgf : g ≠ f := Ne.symm (hnone _ List.mem_cons_self)
    obtain hd | ⟨sp', y, hsp', hy, hr'⟩ := h.asleep g b hg (fun c hc => hnone c (List.mem_cons_of_mem _ (hpend ▸ hc)))
    · exact Or.inl (by simpa only [State.entered, Function.update_of_ne hgf] using hd)
    · refine Or.inr ⟨sp', y, by simpa only [State.entered, Function.update_of_ne hgf] using hsp', hctxs sp' y hy ?_, ?_⟩
      · rintro rfl
        exact hgf (Option.some.inj (hr'.1.symm.trans hr.1))
      · simpa only [State.Ready, State.entered, Function.update_of_ne hgf] using hr'
  · intro g
    simp only [State.entered]
    obtain rfl | hgf := eq_or_ne g f
    · rw [Function.update_self]
      simp only [(fill_flags _ _).1, (fill_flags _ _).2]
      exact h.errored g
    · rw [Function.update_of_ne hgf]
      exact h.errored g
  · refine Or.inl ⟨f, rfl, hr.1, hr.2.imp (fun ⟨hpc, hcl⟩ => ⟨hpc, ?_⟩) id⟩
    simpa only [State.entered, Function.update_self] using hcl

theorem resume_done {on : Option Fid} {input : Input}
    (hd : (s.fibers f).data.done = true) :
    s.resume on f a input = (s.setData f ((s.fibers f).data.fill input)).saw on .panicked := by
  simp [State.resume, State.setData, State.setFiber, (fill_flags (s.fibers f).data input).1, hd]

theorem Wired.resume (h : Wired s) {on : Option Fid} (input : Input) (hc : s.ctl = .code on) (hfree : s.free f)
    (ha : s.home f = some a) : Wired (s.resume on f a input) := by
  cases hd : (s.fibers f).data.done with
  | true =>
    rw [resume_done hd]
    exact (h.setData (fill_flags _ _).1 (fill_flags _ _).2).saw on _
  | false =>
    have hpend : s.pending = s.active := by rw [State.pending, hc]
    obtain hd' | ⟨sp, x, hsp, hx, hr⟩ := h.asleep f a ha (fun c hc => hfree.2 c (hpend ▸ hc))
    · rw [hd] at hd'
      cases hd'
    · rw [h.resume_eq ha hsp hx hd]
      exact h.entered hc hfree ha hsp hx hr hd

/-! ### Out of a fiber -/

/-- The fiber `f` at `a` runs, resumed by `c` after `cs`. -/
structure Top (s : State) (f : Fid) (a : Addr) (c : Call) (cs : List Call) (sp : Sp) : Prop where
  active : s.active = c :: cs
  fiber : c.fiber = f
  home : s.home f = some a
  points : (s.boxes f).Points a
  callerSp : (s.fibers f).callerSp = some sp
  saved : s.ctxs sp = some (c.frame a)
  notDone : (s.fibers f).data.done = false

theorem Wired.top (h : Wired s) (hp : s.pending = s.active) (ht : topOf s.active = some f) :
    ∃ a c cs sp, Top s f a c cs sp := by
  cases hact : s.active with
  | nil =>
    rw [hact] at ht
    cases ht
  | cons c cs =>
    rw [hact] at ht
    obtain rfl := Option.some.inj ht
    have hmem : c ∈ s.active := hact ▸ List.mem_cons_self
    obtain ⟨⟨sp, a, hsp, ha, hx⟩, hd⟩ := h.held c (hp ▸ hmem)
    obtain ⟨b, hb, hpts⟩ := h.boxes c hmem
    obtain rfl := Option.some.inj (ha.symm.trans hb)
    exact ⟨a, c, cs, sp, hact, rfl, ha, hpts, hsp, hx, hd⟩

/-- After the switch: the stack waits at `pc`, and the caller's frame is next. -/
def State.left (s : State) (f : Fid) (d : Data) (pc : Pc) (sp : Sp) (x : Ctx) : State :=
  { s with
    fibers := Function.update s.fibers f ⟨some s.nextSp, (s.fibers f).callerSp, d⟩
    ctxs := Function.update (Function.update s.ctxs s.nextSp (some ⟨some f, pc⟩)) sp none
    nextSp := s.nextSp + 1
    ctl := .at x }

theorem Wired.switchOut_eq (h : Wired s) {pc : Pc} (ht : Top s f a c cs sp) {d : Data} :
    (s.setData f d).switchOut (s.boxes f) ⟨some f, pc⟩ = s.left f d pc sp (c.frame a) := by
  have hne : sp ≠ s.nextSp := Nat.ne_of_lt (h.saved sp _ ht.saved)
  simp [State.switchOut, State.setData, State.setFiber, State.load, State.save, ht.points.fiberSpSlot,
    ht.points.callerSpSlot, (h.mem a f).mpr ht.home, ht.callerSp, hne, ht.saved, State.left]

theorem setData_self (s : State) (f : Fid) : s.setData f (s.fibers f).data = s := by
  simp [State.setData, State.setFiber]

theorem Wired.yieldNow_eq (h : Wired s) {k : Yield Addr} (ht : Top s f a c cs sp) {d : Data} :
    (s.setData f d).yieldNow (some f) k = s.left f d (.yieldNow k) sp (c.frame a) := by
  have hb : (s.setData f d).hooks.trampoline = some f := by
    show s.hooks.trampoline = some f
    rw [h.hooks, ht.active, State.hooksOf, ht.fiber]
  rw [State.yieldNow, hb]
  exact h.switchOut_eq ht

theorem Wired.exit_eq (h : Wired s) (ht : Top s f a c cs sp) {d : Data} :
    (s.setData f d).exit f = s.left f { d with done := true } .finished sp (c.frame a) := by
  have hdone : ((s.setData f d).boxes f).doneFlag.bind (s.setData f d).mem = some f := by
    show (s.boxes f).doneFlag.bind s.mem = some f
    rw [ht.points.doneFlag]
    exact (h.mem a f).mpr ht.home
  rw [State.exit, hdone, ← h.switchOut_eq ht]
  simp [State.setData, State.setFiber]

theorem Wired.caught_eq (h : Wired s) (ht : Top s f a c cs sp) (p : AnyBox) :
    s.caught f p =
      s.left f { (s.fibers f).data with errored := true, errorPayload := some p, done := true } .finished sp (c.frame a) := by
  have hmem : s.mem a = some f := (h.mem a f).mpr ht.home
  rw [State.caught, ht.points.erroredFlag, ht.points.errorPayloadSlot]
  simp only [Option.bind_some, hmem]
  rw [← h.exit_eq ht (d := { (s.fibers f).data with errored := true, errorPayload := some p })]
  simp [State.setData, State.setFiber]

theorem Wired.left (h : Wired s) {pc : Pc} (ht : Top s f a c cs sp) (hp : s.pending = s.active) {d : Data}
    (hwait : d.done = true ∨ ∃ k, pc = .yieldNow k) (herr : d.errored = true → d.done = true) :
    Wired (s.left f d pc sp (c.frame a)) := by
  have hpend' : (s.left f d pc sp (c.frame a)).pending = cs := by
    rw [State.pending, State.left]
    exact (if_pos rfl).trans (congrArg List.tail ht.active)
  have hcs : ∀ c' ∈ cs, c'.fiber ≠ f := by
    intro c' hc' he
    have hnd := h.account.fibers
    rw [ht.active, List.map_cons, List.nodup_cons] at hnd
    exact hnd.1 (List.mem_map.mpr ⟨c', hc', he.trans ht.fiber.symm⟩)
  have hctxs : ∀ sp' y, s.ctxs sp' = some y → y ≠ c.frame a → (s.left f d pc sp (c.frame a)).ctxs sp' = some y := by
    intro sp' y hy hyx
    have hne : sp' ≠ sp := by
      rintro rfl
      exact hyx (Option.some.inj (hy.symm.trans ht.saved))
    exact (Function.update_of_ne hne ..).trans ((Function.update_of_ne (Nat.ne_of_lt (h.saved sp' y hy)) ..).trans hy)
  have hother : ∀ g, g ≠ f → (s.left f d pc sp (c.frame a)).fibers g = s.fibers g :=
    fun g hg => Function.update_of_ne hg ..
  refine ⟨h.account.same rfl rfl, h.mem, h.made, ?_, h.hooks, h.linked, h.boxes, ?_, ?_, ?_, ?_⟩
  · intro sp' y hy
    simp only [State.left] at hy ⊢
    obtain rfl | hne := eq_or_ne sp' sp
    · rw [Function.update_self] at hy
      cases hy
    · rw [Function.update_of_ne hne] at hy
      obtain rfl | hnew := eq_or_ne sp' s.nextSp
      · exact Nat.lt_succ_self _
      · rw [Function.update_of_ne hnew] at hy
        exact Nat.lt_succ_of_lt (h.saved sp' y hy)
  · rw [hpend']
    intro c' hc'
    obtain ⟨⟨sp', b, hsp', hb, hy⟩, hdone⟩ := h.held c' (by rw [hp, ht.active]; exact List.mem_cons_of_mem _ hc')
    refine ⟨⟨sp', b, ?_, hb, hctxs sp' _ hy ?_⟩, ?_⟩
    · rwa [hother _ (hcs c' hc')]
    · intro he
      obtain rfl : c' = c := by
        have := congrArg Ctx.pc he
        simp only [Call.frame, Pc.resume.injEq] at this
        exact this.2.2.2
      exact hcs c' hc' ht.fiber
    · rwa [hother _ (hcs c' hc')]
  · rw [hpend']
    intro g b hg hnone
    obtain rfl | hgf := eq_or_ne g f
    · have hself : (s.left g d pc sp (c.frame a)).fibers g = ⟨some s.nextSp, (s.fibers g).callerSp, d⟩ :=
        Function.update_self ..
      unfold State.Asleep
      rw [hself]
      refine hwait.imp id fun ⟨k, hk⟩ => ⟨s.nextSp, ⟨some g, pc⟩, rfl, ?_, rfl, Or.inr ⟨k, hk⟩⟩
      exact (Function.update_of_ne (Nat.ne_of_gt (h.saved sp _ ht.saved)) ..).trans (Function.update_self ..)
    · obtain hd | ⟨sp', y, hsp', hy, hr⟩ := h.asleep g b hg fun c' hc' he => by
        rw [hp, ht.active] at hc'
        obtain rfl | hc' := List.mem_cons.mp hc'
        · exact hgf (he.symm.trans ht.fiber)
        · exact hnone c' hc' he
      · exact Or.inl (by rwa [hother g hgf])
      · exact Or.inr ⟨sp', y, by rwa [hother g hgf], hctxs sp' y hy (hr.not_frame c a), hr⟩
  · intro g
    obtain rfl | hgf := eq_or_ne g f
    · rw [show (s.left g d pc sp (c.frame a)).fibers g = _ from Function.update_self ..]
      exact herr
    · rw [hother g hgf]
      exact h.errored g
  · exact Or.inr ⟨c, cs, a, ht.active, ht.fiber ▸ ht.home, rfl⟩

/-! ### Back in the caller -/

theorem Accounted.return (h : Accounted s) {r : FiberStep} (hact : s.active = c :: cs)
    (ht : s'.trace = .returned c r c.hooks :: s.trace) (hc : s'.calls = s.calls) :
    Accounted s' ∧ s'.active = cs := by
  have hids := h.ids
  have hfibers := h.fibers
  rw [hact, List.map_cons, List.nodup_cons] at hids hfibers
  have hactive : s'.active = cs := by
    have htail : (activeCalls s.trace).filter (·.id ≠ c.id) = cs := by
      rw [show activeCalls s.trace = c :: cs from hact, List.filter_cons_of_neg (by simp), List.filter_eq_self]
      intro c' hc'
      refine decide_eq_true fun he => hids.1 (List.mem_map.mpr ⟨c', hc', he⟩)
    rw [State.active, ht]
    exact htail
  have hsub : ∀ c' ∈ cs, c' ∈ s.active := fun c' hc' => hact ▸ List.mem_cons_of_mem _ hc'
  refine ⟨⟨hactive ▸ hids.2, ?_, hactive ▸ hfibers.2, ?_, ?_⟩, hactive⟩
  · rw [hactive, hc]
    exact fun c' hc' => h.fresh c' (hsub c' hc')
  · rw [hactive, ht]
    exact fun c' hc' => h.latest c' (hsub c' hc')
  · intro c' r' k hr
    rw [ht, List.mem_cons] at hr
    obtain hr | hr := hr
    · cases hr
      rfl
    · exact h.returned c' r' k hr

/-- After the call has returned. -/
def State.returned (s : State) (c : Call) : State :=
  { s with
    hooks := c.hooks
    ctl := .code c.caller
    trace := .returned c (s.fibers c.fiber).data.step c.hooks :: s.trace }

theorem Wired.land_frame (h : Wired s) (hc : s.ctl = .at (c.frame a)) (hact : s.active = c :: cs)
    (ha : s.home c.fiber = some a) :
    s.land (c.frame a) = s.returned c ∧ Wired (s.returned c) := by
  have heq : s.land (c.frame a) = s.returned c := by
    simp [State.land, Call.frame, State.withFiber, (h.mem a c.fiber).mpr ha, State.returned]
  obtain ⟨hacc, hactive⟩ : Accounted (s.returned c) ∧ (s.returned c).active = cs := h.account.return hact rfl rfl
  have hpend : s.pending = cs := by
    rw [State.pending, hc]
    exact (if_pos rfl).trans (congrArg List.tail hact)
  have hpend' : (s.returned c).pending = cs := hactive
  obtain ⟨hhooks, hcaller⟩ := h.linked c cs (hact ▸ List.suffix_refl _)
  have hsub : ∀ c' ∈ cs, c' ∈ s.active := fun c' hc' => hact ▸ List.mem_cons_of_mem _ hc'
  refine ⟨heq, hacc, h.mem, h.made, h.saved, hactive ▸ hhooks, ?_, ?_, ?_, ?_, h.errored, ?_⟩
  · rw [hactive]
    exact fun c' cs' hs => h.linked c' cs' (hact ▸ hs.trans (List.suffix_cons c cs))
  · rw [hactive]
    exact fun c' hc' => h.boxes c' (hsub c' hc')
  · rw [hpend']
    exact fun c' hc' => h.held c' (hpend ▸ hc')
  · rw [hpend']
    exact fun g b hg hnone => h.asleep g b hg (hpend ▸ hnone)
  · show c.caller = topOf (s.returned c).active
    rw [hactive]
    exact hcaller

/-! ### Steps -/

/-- A step that ends in user code on the same stack. -/
theorem Wired.toCode (h : Wired s) (hx : s.ctl = .at x) (hr : s.Ready f x) (ht : topOf s.active = some f) :
    Wired { s with ctl := .code x.stack } := by
  have hpend : s.pending = s.active := by
    rw [State.pending, hx]
    exact if_neg (by simp [hr.not_returns])
  exact h.same ⟨rfl, rfl, rfl, rfl, rfl, rfl, rfl, fun _ => ⟨rfl, rfl⟩, fun _ => ⟨rfl, rfl⟩⟩ (h.account.same rfl rfl) rfl
    hpend.symm (hr.1.trans ht.symm)

/-- The trampoline takes the closure and runs it. -/
theorem Wired.run (h : Wired s) (hx : s.ctl = .at x) (hr : s.Ready f x) (ht : topOf s.active = some f) :
    Wired { s with
      boxes := Function.update s.boxes f { s.boxes f with closure := false }
      ctl := .code x.stack } := by
  have hpend : s.pending = s.active := by
    rw [State.pending, hx]
    exact if_neg (by simp [hr.not_returns])
  obtain ⟨a, c, cs, sp, htop⟩ := h.top hpend ht
  refine h.frame (h.account.same rfl rfl) rfl hpend.symm rfl (fun c' hc' => ⟨rfl, rfl, rfl, fun b hb => ?_⟩)
    (fun _ _ hy => hy) h.mem h.made h.saved (fun g b hg hnone => ?_) h.errored (hr.1.trans ht.symm)
  · obtain he | hne := eq_or_ne c'.fiber f
    · simp only [he, Function.update_self]
      exact ⟨(he ▸ hb).1, (he ▸ hb).2, (he ▸ hb).3, (he ▸ hb).4, (he ▸ hb).5⟩
    · simpa only [Function.update_of_ne hne] using hb
  · have hgf : g ≠ f := by
      rintro rfl
      exact hnone c (by rw [hpend, htop.active]; exact List.mem_cons_self) htop.fiber
    refine (h.asleep g b hg hnone).imp id fun ⟨sp', y, hsp', hy, hr'⟩ => ⟨sp', y, hsp', hy, ?_⟩
    simpa only [State.Ready, Function.update_of_ne hgf] using hr'

theorem Wired.land_fiber (h : Wired s) (hx : s.ctl = .at x) (hr : s.Ready f x) (ht : topOf s.active = some f) :
    Wired (s.land x) := by
  have hpend : s.pending = s.active := by
    rw [State.pending, hx]
    exact if_neg (by simp [hr.not_returns])
  obtain ⟨hstack, ⟨hpc, hcl⟩ | ⟨k, hpc⟩⟩ := id hr
  · simp only [State.land, hpc, hstack, hcl, if_true]
    exact hstack ▸ h.run hx hr ht
  · cases k with
    | now =>
      simp only [State.land, hpc]
      exact (h.saw x.stack .unit).toCode hx hr ht
    | value type p | u64 p =>
      simp only [State.land, hpc, State.withFiber]
      split
      · exact h.crash hpend
      · exact ((h.setData (by rfl) (by rfl)).saw x.stack _).toCode hx hr ht

theorem Wired.land (h : Wired s) (hx : s.ctl = .at x) : Wired (s.land x) := by
  have hctl := h.ctl
  rw [State.CtlOk, hx] at hctl
  obtain ⟨f, ht, hr⟩ | ⟨c, cs, a, hact, ha, rfl⟩ := hctl
  · exact h.land_fiber hx hr ht
  · rw [(h.land_frame hx hact ha).1]
    exact (h.land_frame hx hact ha).2

theorem Wired.yieldNow (h : Wired s) {on : Option Fid} (hc : s.ctl = .code on) (k : Yield Addr) :
    Wired (s.yieldNow on k) := by
  have hpend : s.pending = s.active := by rw [State.pending, hc]
  have hctl := h.ctl
  rw [State.CtlOk, hc] at hctl
  subst hctl
  cases ht : topOf s.active with
  | none =>
    have hhooks : s.hooks.trampoline = none := by
      rw [h.hooks]
      cases hact : s.active with
      | nil => rfl
      | cons c cs =>
        rw [hact] at ht
        cases ht
    rw [State.yieldNow, hhooks]
    exact h.saw _ _
  | some f =>
    obtain ⟨a, c, cs, sp, htop⟩ := h.top hpend ht
    rw [← setData_self s f, h.yieldNow_eq htop]
    exact h.left htop hpend (Or.inr ⟨k, rfl⟩) (h.errored f)

/-- Every step keeps the pointers right. -/
theorem wired_of_step (h : Wired s) (hs : step s o = some s') : Wired s' := by
  cases hc : s.ctl with
  | code on =>
    have hpend : s.pending = s.active := by rw [State.pending, hc]
    cases o with
    | new a =>
      simp only [step, hc] at hs
      split at hs <;> cases hs
      exact h.new hc ‹_›
    | move f b =>
      simp only [step, hc] at hs
      split at hs
      · obtain ⟨a, ha, rfl⟩ := Option.map_eq_some_iff.mp hs
        exact h.move (And.left ‹_›) ha (And.right ‹_›)
      · cases hs
    | drop f =>
      simp only [step, hc] at hs
      split at hs
      · obtain ⟨a, ha, rfl⟩ := Option.map_eq_some_iff.mp hs
        exact h.drop ‹_› ha
      · cases hs
    | resume f input =>
      simp only [step, hc] at hs
      split at hs
      · obtain ⟨a, ha, rfl⟩ := Option.map_eq_some_iff.mp hs
        exact h.resume input hc ‹_› ha
      · cases hs
    | access f q =>
      simp only [step, hc] at hs
      split at hs <;> cases hs
      exact (h.setData (access_flags _ q).1 (access_flags _ q).2).saw on _
    | ask q =>
      simp only [step, hc] at hs
      cases hs
      exact h.ask on q hpend
    | yieldNow =>
      simp only [step, hc] at hs
      cases hs
      exact h.yieldNow hc _
    | yieldValue v type =>
      simp only [step, hc, State.yieldValue, State.withFiber] at hs
      split at hs
      · cases hs
        exact h.saw on _
      · split at hs <;> cases hs
        · exact h.crash hpend
        · exact (h.setData (by rfl) (by rfl)).yieldNow hc _
    | yieldU64 n =>
      simp only [step, hc, State.yieldU64, State.withFiber] at hs
      split at hs
      · cases hs
        exact h.saw on _
      · split at hs <;> cases hs
        · exact h.crash hpend
        · exact (h.setData (by rfl) (by rfl)).yieldNow hc _
    | finish =>
      cases on with
      | none => simp [step, hc] at hs
      | some f =>
        simp only [step, hc] at hs
        cases hs
        have ht : topOf s.active = some f := by
          have := h.ctl
          rw [State.CtlOk, hc] at this
          exact this.symm
        obtain ⟨a, c, cs, sp, htop⟩ := h.top hpend ht
        rw [← setData_self s f, h.exit_eq htop]
        exact h.left htop hpend (Or.inl rfl) fun _ => rfl
    | panic p =>
      cases on with
      | none => simp [step, hc] at hs
      | some f =>
        simp only [step, hc] at hs
        cases hs
        have ht : topOf s.active = some f := by
          have := h.ctl
          rw [State.CtlOk, hc] at this
          exact this.symm
        obtain ⟨a, c, cs, sp, htop⟩ := h.top hpend ht
        rw [h.caught_eq htop]
        exact h.left htop hpend (Or.inl rfl) fun _ => rfl
    | go => simp [step, hc] at hs
  | «at» x =>
    cases o with
    | go =>
      simp only [step, hc] at hs
      cases hs
      exact h.land hc
    | _ => simp [step, hc] at hs
  | ub => cases o <;> simp [step, hc] at hs

theorem wired_init : Wired State.init := by
  refine ⟨⟨List.nodup_nil, nofun, List.nodup_nil, nofun, nofun⟩, fun _ _ => ⟨nofun, nofun⟩, nofun, nofun, rfl, ?_, nofun,
    nofun, nofun, nofun, rfl⟩
  exact fun c cs hs => absurd (List.suffix_nil.mp hs) (List.cons_ne_nil c cs)

theorem wired_of_run {ok : State → Op → Prop} (h : Reachable ok s) : Wired s :=
  h.keeps (P := Wired) (fun _ _ _ hs _ hstep => wired_of_step hs hstep) wired_init

end

end Krio.Fibers
