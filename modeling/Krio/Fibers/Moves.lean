import Krio.Fibers.Refine

/-! Moving a suspended fiber. What the switches leave behind names a fiber by its trampoline state, or by an address
that `resume` writes anew, except for `fiber_ptr` in `yield_value` and `yield_u64`, which is read before the switch and
used after it. So moves change nothing that anybody sees as long as no fiber returns from one of these two at another
address. -/

namespace Krio.Fibers
open Lib

section
variable {s s' t : State} {o : Op} {f : Fid} {a p : Addr} {x : Ctx} {P : Ctx → Prop} {ok : State → Op → Prop}

/-- A context that is saved, or goes on next. -/
def State.ctx (s : State) (x : Ctx) : Prop := (∃ sp, s.ctxs sp = some x) ∨ s.ctl = .at x

/-- Fibers stay where they are, and new contexts meet `P`. -/
structure Switches (P : Ctx → Prop) (s s' : State) : Prop where
  mem : s'.mem = s.mem
  home : s'.home = s.home
  created : s'.created = s.created
  ctx : ∀ x, s'.ctx x → s.ctx x ∨ P x

namespace Switches

theorem trans (h : Switches P s t) (h' : Switches P t s') : Switches P s s' := by
  refine ⟨h'.mem.trans h.mem, h'.home.trans h.home, h'.created.trans h.created, fun x hx => ?_⟩
  obtain hx | hx := h'.ctx x hx
  · exact h.ctx x hx
  · exact Or.inr hx

/-- A change of anything else. -/
theorem same (hm : s'.mem = s.mem) (hh : s'.home = s.home) (hcr : s'.created = s.created) (hx : s'.ctxs = s.ctxs)
    (hc : ∀ x, s'.ctl = .at x → s.ctl = .at x) : Switches P s s' := by
  refine ⟨hm, hh, hcr, fun x h => Or.inl ?_⟩
  obtain ⟨sp, h⟩ | h := h
  · exact Or.inl ⟨sp, hx ▸ h⟩
  · exact Or.inr (hc x h)

theorem crash : Switches P s s.crash := same rfl rfl rfl rfl (by rintro _ ⟨⟩)

theorem saw {on : Option Fid} {y : Seen} : Switches P s (s.saw on y) := same rfl rfl rfl rfl fun _ => id

theorem setFiber {z : Fiber} : Switches P s (s.setFiber f z) := same rfl rfl rfl rfl fun _ => id

theorem setData {d : Data} : Switches P s (s.setData f d) := setFiber

theorem save (hx : P x) : Switches P s (s.save x) := by
  refine ⟨rfl, rfl, rfl, fun y hy => ?_⟩
  obtain ⟨sp, hy⟩ | hy := hy
  · simp only [State.save] at hy
    obtain rfl | hsp := eq_or_ne sp s.nextSp
    · rw [Function.update_self] at hy
      exact Or.inr (Option.some.inj hy ▸ hx)
    · rw [Function.update_of_ne hsp] at hy
      exact Or.inl (Or.inl ⟨sp, hy⟩)
  · exact Or.inl (Or.inr hy)

theorem load {sp : Option Sp} : Switches P s (s.load sp) := by
  unfold State.load
  split
  · exact crash
  · split
    · exact crash
    · rename_i sp _ y hsp
      refine ⟨rfl, rfl, rfl, fun z hz => Or.inl (Or.inl ?_)⟩
      obtain ⟨sp', hz⟩ | hz := hz
      · obtain rfl | hne := eq_or_ne sp' sp
        · cases (Function.update_self ..).symm.trans hz
        · exact ⟨sp', (Function.update_of_ne hne ..).symm.trans hz⟩
      · cases hz
        exact ⟨sp, hsp⟩

theorem switchIn {b : Addr} (hx : P x) : Switches P s (s.switchIn a b x) := by
  unfold State.switchIn
  split
  · exact setFiber.trans ((save hx).trans load)
  · exact crash

theorem switchOut {b : TrampolineState} (hx : P x) : Switches P s (s.switchOut b x) := by
  unfold State.switchOut
  split
  · exact setFiber.trans ((save hx).trans load)
  · exact crash

theorem resume {on : Option Fid} {input : Input} (hx : ∀ x : Ctx, x.pc.returns = true → P x) :
    Switches P s (s.resume on f a input) := by
  unfold State.resume
  generalize hu : s.setData f ((s.fibers f).data.fill input) = u
  have h : Switches P s u := hu ▸ setData
  simp only
  split
  · exact h.trans saw
  · refine h.trans (trans ?_ (switchIn (hx _ rfl)))
    exact same rfl rfl rfl rfl fun _ => id

theorem yieldNow {on : Option Fid} {k : Yield Addr} (hx : P ⟨on, .yieldNow k⟩) : Switches P s (s.yieldNow on k) := by
  unfold State.yieldNow
  split
  · exact saw
  · exact switchOut hx

theorem exit (hx : ∀ x : Ctx, x.pc = .finished → P x) : Switches P s (s.exit f) := by
  unfold State.exit
  split
  · exact crash
  · exact setData.trans (switchOut (hx _ rfl))

theorem caught {q : AnyBox} (hx : ∀ x : Ctx, x.pc = .finished → P x) : Switches P s (s.caught f q) := by
  unfold State.caught
  split
  · exact setData.trans (setData.trans (exit hx))
  · exact crash

theorem land (hx : ∀ x : Ctx, x.pc = .finished → P x) : Switches P s (s.land x) := by
  unfold State.land State.withFiber
  split
  · split
    · exact crash
    · split
      · exact same rfl rfl rfl rfl (by rintro _ ⟨⟩)
      · exact exit hx
  · simp only
    split
    · exact same rfl rfl rfl rfl (by rintro _ ⟨⟩)
    · exact same rfl rfl rfl rfl (by rintro _ ⟨⟩)
  · exact same rfl rfl rfl rfl (by rintro _ ⟨⟩)
  · split
    · exact crash
    · exact same rfl rfl rfl rfl (by rintro _ ⟨⟩)
  · split
    · exact crash
    · exact same rfl rfl rfl rfl (by rintro _ ⟨⟩)
  · split
    · exact crash
    · exact switchOut (hx _ ‹_›)

end Switches

def Op.moves : Op → Bool
  | .move _ _ => true
  | _ => false

/-- What a step saves: a frame of `resume`, the end of `fiber_run`, or a yield with the address of the running fiber. -/
def Saves (s : State) (x : Ctx) : Prop :=
  x.pc.returns = true ∨ x.pc = .finished ∨
    ∃ on k, s.ctl = .code on ∧ x = ⟨on, .yieldNow k⟩ ∧ ∀ p, k.captured = some p → s.hooks.fiber = some p

/-- A step that makes, moves or drops no fiber. -/
theorem switches_of_step (hs : step s o = some s') (hn : ∀ a, o ≠ .new a) (hm : o.moves = false) (hd : ∀ f, o ≠ .drop f) :
    Switches (Saves s) s s' := by
  have hfin : ∀ x : Ctx, x.pc = .finished → Saves s x := fun x hx => Or.inr (Or.inl hx)
  cases hc : s.ctl with
  | code on =>
    have hyield : ∀ k : Yield Addr, (∀ p, k.captured = some p → s.hooks.fiber = some p) → Saves s ⟨on, .yieldNow k⟩ :=
      fun k hk => Or.inr (Or.inr ⟨on, k, hc, rfl, hk⟩)
    cases o with
    | new a => exact absurd rfl (hn a)
    | move f b => cases hm
    | drop f => exact absurd rfl (hd f)
    | resume f input =>
      simp only [step, hc] at hs
      split at hs
      · obtain ⟨a, -, rfl⟩ := Option.map_eq_some_iff.mp hs
        exact .resume fun x hx => Or.inl hx
      · cases hs
    | access f q =>
      simp only [step, hc] at hs
      split at hs <;> cases hs
      exact .same rfl rfl rfl rfl fun _ => id
    | ask q =>
      simp only [step, hc, State.ask, State.withFiber] at hs
      split at hs
      · cases hs
        exact .saw
      · split at hs <;> cases hs
        · exact .crash
        · exact .same rfl rfl rfl rfl fun _ => id
    | yieldNow =>
      simp only [step, hc] at hs
      cases hs
      exact .yieldNow (hyield _ (by rintro _ ⟨⟩))
    | yieldValue v type =>
      simp only [step, hc, State.yieldValue, State.withFiber] at hs
      split at hs
      · cases hs
        exact .saw
      · rename_i p hp
        split at hs <;> cases hs
        · exact .crash
        · refine .trans .setData (.yieldNow (hyield _ ?_))
          rintro _ ⟨⟩
          exact hp
    | yieldU64 n =>
      simp only [step, hc, State.yieldU64, State.withFiber] at hs
      split at hs
      · cases hs
        exact .saw
      · rename_i p hp
        split at hs <;> cases hs
        · exact .crash
        · refine .trans .setData (.yieldNow (hyield _ ?_))
          rintro _ ⟨⟩
          exact hp
    | finish =>
      cases on with
      | none => simp [step, hc] at hs
      | some f =>
        simp only [step, hc] at hs
        cases hs
        exact .exit hfin
    | panic q =>
      cases on with
      | none => simp [step, hc] at hs
      | some f =>
        simp only [step, hc] at hs
        cases hs
        exact .caught hfin
    | go => simp [step, hc] at hs
  | «at» x =>
    cases o with
    | go =>
      simp only [step, hc] at hs
      cases hs
      exact .land hfin
    | _ => simp [step, hc] at hs
  | ub => cases o <;> simp [step, hc] at hs

/-! ### Without moves -/

/-- A suspended `yield_value` or `yield_u64` has captured the address at which its fiber still lies. -/
def Anchored (s : State) : Prop :=
  ∀ f k, s.ctx ⟨some f, .yieldNow k⟩ → f < s.created ∧ ∀ p a, k.captured = some p → s.home f = some a → a = p

theorem Anchored.step (h : Anchored s) (hw : Wired s) (hm : o.moves = false) (hs : step s o = some s') : Anchored s' := by
  by_cases hn : ∃ a, o = .new a
  · obtain ⟨a, rfl⟩ := hn
    cases hc : s.ctl with
    | code on =>
      simp only [Fibers.step, hc] at hs
      split at hs <;> cases hs
      intro f k hx
      have hold : s.ctx ⟨some f, .yieldNow k⟩ := by
        obtain ⟨sp, hx⟩ | hx := hx
        · simp only [State.new] at hx
          obtain rfl | hsp := eq_or_ne sp s.nextSp
          · rw [Function.update_self] at hx
            cases hx
          · rw [Function.update_of_ne hsp] at hx
            exact Or.inl ⟨sp, hx⟩
        · exact Or.inr hx
      obtain ⟨hf, hk⟩ := h f k hold
      refine ⟨Nat.lt_succ_of_lt hf, fun p b hp hb => hk p b hp ?_⟩
      exact (Function.update_of_ne (Nat.ne_of_lt hf) ..).symm.trans hb
    | _ => simp [Fibers.step, hc] at hs
  by_cases hd : ∃ g, o = .drop g
  · obtain ⟨g, rfl⟩ := hd
    cases hc : s.ctl with
    | code on =>
      simp only [Fibers.step, hc] at hs
      split at hs
      · obtain ⟨a, -, rfl⟩ := Option.map_eq_some_iff.mp hs
        intro f k hx
        obtain ⟨hf, hk⟩ := h f k hx
        refine ⟨hf, fun p b hp hb => hk p b hp ?_⟩
        obtain rfl | hfg := eq_or_ne f g
        · cases (Function.update_self ..).symm.trans hb
        · exact (Function.update_of_ne hfg ..).symm.trans hb
      · cases hs
    | _ => simp [Fibers.step, hc] at hs
  obtain ⟨-, hhome, hcreated, hctx⟩ := switches_of_step hs (fun a ha => hn ⟨a, ha⟩) hm fun g hg => hd ⟨g, hg⟩
  intro f k hx
  rw [hhome, hcreated]
  obtain hx | hx | hx | ⟨on, k', hc, hx, hp⟩ := hctx _ hx
  · exact h f k hx
  · cases hx
  · cases hx
  · cases hx
    have ht : topOf s.active = some f := by
      have := hw.ctl
      rw [State.CtlOk, hc] at this
      exact this.symm
    obtain ⟨a, ha, -⟩ := coroutines_top hw ht
    refine ⟨hw.made f a ha, fun p b hcap hb => ?_⟩
    have hfiber := hp p hcap
    rw [hw.hooks_some ht hb] at hfiber
    exact Option.some.inj hfiber

/-- With no move every fiber stays where it was suspended. -/
theorem settled_of_moveless (hok : ∀ s o, ok s o → o.moves = false) (h : Reachable ok s) :
    Settled s o := by
  have hw := wired_of_run h
  have ha : Anchored s := by
    refine h.keeps_with (P := Anchored) (Q := Wired) (fun t ht => wired_of_run ht)
      (fun s o t hw ha ho hs => ha.step hw (hok s o ho) hs) ?_
    rintro f k (⟨sp, hx⟩ | hx) <;> cases hx
  intro _ f k p hc hp
  have hctl := hw.ctl
  rw [State.CtlOk, hc] at hctl
  obtain ⟨g, ht, hg, -⟩ | ⟨c, cs, a, -, -, hx⟩ := hctl
  · cases hg
    obtain ⟨a, hhome, -⟩ := coroutines_top hw ht
    rw [hhome, (ha f k (Or.inr hc)).2 p a hp hhome]
  · cases congrArg Ctx.pc hx

/-- There is room for another fiber. -/
def Roomy (s : State) : Prop := ∃ n, ∀ a, n ≤ a → s.mem a = none

theorem roomy_of_step (h : Roomy s) (hs : step s o = some s') : Roomy s' := by
  obtain ⟨n, hn⟩ := h
  have put : ∀ {m : Addr → Option Fid} {b f}, (∀ a, n ≤ a → m a = none) → ∃ n', ∀ a, n' ≤ a →
      Function.update m b (some f) a = none := by
    intro m b f hm
    refine ⟨n + (b + 1), fun a ha => ?_⟩
    have hb : a ≠ b := Nat.ne_of_gt (Nat.le_trans (Nat.le_add_left _ _) ha)
    exact (Function.update_of_ne hb ..).trans (hm a (Nat.le_trans (Nat.le_add_right _ _) ha))
  have clear : ∀ {b} a, n ≤ a → Function.update s.mem b none a = none := by
    intro b a ha
    obtain rfl | hne := eq_or_ne a b
    · exact Function.update_self ..
    · exact (Function.update_of_ne hne ..).trans (hn a ha)
  have outside : (∀ a, o ≠ .new a) → o.moves = false → (∀ f, o ≠ .drop f) → Roomy s' := by
    intro h₁ h₂ h₃
    refine ⟨n, ?_⟩
    rw [(switches_of_step hs h₁ h₂ h₃).mem]
    exact hn
  cases o with
  | new a =>
    cases hc : s.ctl with
    | code on =>
      simp only [step, hc] at hs
      split at hs <;> cases hs
      exact put hn
    | _ => simp [step, hc] at hs
  | move f b =>
    cases hc : s.ctl with
    | code on =>
      simp only [step, hc] at hs
      split at hs
      · obtain ⟨a, -, rfl⟩ := Option.map_eq_some_iff.mp hs
        exact put clear
      · cases hs
    | _ => simp [step, hc] at hs
  | drop f =>
    cases hc : s.ctl with
    | code on =>
      simp only [step, hc] at hs
      split at hs
      · obtain ⟨a, -, rfl⟩ := Option.map_eq_some_iff.mp hs
        exact ⟨n, clear⟩
      · cases hs
    | _ => simp [step, hc] at hs
  | _ => exact outside (by rintro _ ⟨⟩) rfl (by rintro _ ⟨⟩)

theorem erase_new {o : Op} (h : o.erase = some (.new a)) : a = 0 := by
  cases o with
  | move => cases h
  | _ =>
    cases h
    try rfl

/-- What the coroutines can do, the machine can do without a move. -/
theorem step_of_coroutines (hw : Wired s) (hroom : Roomy s) {o₀ : Op} (ho : o₀.erase = some o) {A : Coroutines}
    (h : s.coroutines.step o = some A) : ∃ o' s', step s o' = some s' ∧ o'.moves = false ∧ o'.erase = some o := by
  cases hc : s.ctl with
  | code on =>
    have hon : on = topOf s.active := by
      have := hw.ctl
      rwa [State.CtlOk, hc] at this
    have hcall : s.coroutines.call o = some A := by
      rw [Coroutines.step, show s.coroutines.phase = .code by show s.ctl.phase = _; rw [hc]; rfl] at h
      exact h
    have hfree : ∀ {f} {B : Option Coroutines}, (if s.coroutines.free f then B else none) = some A →
        s.free f ∧ ∃ a, s.home f = some a := by
      intro f B hB
      split at hB
      · exact ⟨free_iff.mp ‹_›, Option.ne_none_iff_exists'.mp (free_iff.mp ‹_›).1⟩
      · cases hB
    have hinside : ∀ {B : Option Coroutines}, (if s.coroutines.stack = [] then none else B) = some A → ∃ f, on = some f := by
      intro B hB
      cases on with
      | some f => exact ⟨f, rfl⟩
      | none =>
        rw [if_pos] at hB
        · cases hB
        · exact List.head?_eq_none_iff.mp ((head_stack s).trans hon.symm)
    cases o with
    | new a =>
      obtain rfl := erase_new ho
      obtain ⟨n, hn⟩ := hroom
      exact ⟨.new n, _, by simp only [step, hc]; exact if_pos (hn n (Nat.le_refl n)), rfl, rfl⟩
    | move f b => cases hcall
    | drop f =>
      obtain ⟨hf, a, ha⟩ := hfree hcall
      exact ⟨.drop f, _, by simp only [step, hc, ha]; exact if_pos hf, rfl, rfl⟩
    | resume f input =>
      obtain ⟨hf, a, ha⟩ := hfree hcall
      exact ⟨.resume f input, _, by simp only [step, hc, ha]; exact if_pos hf, rfl, rfl⟩
    | access f q =>
      obtain ⟨hf, -⟩ := hfree hcall
      exact ⟨.access f q, _, by simp only [step, hc]; exact if_pos hf, rfl, rfl⟩
    | ask q => exact ⟨.ask q, _, by simp only [step, hc]; rfl, rfl, rfl⟩
    | yieldNow => exact ⟨.yieldNow, _, by simp only [step, hc]; rfl, rfl, rfl⟩
    | yieldValue v type => exact ⟨.yieldValue v type, _, by simp only [step, hc]; rfl, rfl, rfl⟩
    | yieldU64 n => exact ⟨.yieldU64 n, _, by simp only [step, hc]; rfl, rfl, rfl⟩
    | finish =>
      obtain ⟨f, rfl⟩ := hinside hcall
      exact ⟨.finish, _, by simp only [step, hc]; rfl, rfl, rfl⟩
    | panic q =>
      obtain ⟨f, rfl⟩ := hinside hcall
      exact ⟨.panic q, _, by simp only [step, hc]; rfl, rfl, rfl⟩
    | go => cases hcall
  | «at» x =>
    obtain rfl : o = .go := by
      rw [Coroutines.step] at h
      split at h
      · rename_i hp
        change s.ctl.phase = .code at hp
        rw [hc, Ctl.phase] at hp
        split at hp
        · cases hp
        · split at hp <;> cases hp
      · split at h
        · assumption
        · cases h
      · split at h
        · assumption
        · cases h
      · cases h
    exact ⟨.go, _, by simp only [step, hc]; rfl, rfl, rfl⟩
  | ub =>
    rw [Coroutines.step, show s.coroutines.phase = .stuck by show s.ctl.phase = _; rw [hc]; rfl] at h
    cases h

/-- A run of the machine is a run of the coroutines. -/
theorem coroutines_via {os : List Op} (hset : ∀ t o, Reachable ok t → ok t o → Settled t o) (hs : Reachable ok s)
    (h : Via step ok s os t) : Via Coroutines.step (fun _ _ => True) s.coroutines (os.filterMap Op.erase) t.coroutines := by
  induction h with
  | nil => exact .nil
  | @cons s u t o os ho hstep _ ih =>
    have hcor := coroutines_step (wired_of_run hs) (hset s o hs ho) hstep
    have ih := ih (hs.tail ho hstep)
    cases he : o.erase with
    | none =>
      rw [he] at hcor
      rw [List.filterMap_cons_none he, ← hcor]
      exact ih
    | some o' =>
      rw [he] at hcor
      rw [List.filterMap_cons_some he]
      exact .cons trivial hcor ih

/-- The same calls without the moves. -/
theorem exists_moveless {u : State} {os : List Op} (hs : Reachable Settled s)
    (hu : Reachable (fun _ o => o.moves = false) u) (hsu : u.coroutines = s.coroutines) (h : Via step Settled s os t) :
    ∃ os' u', Via step (fun _ o => o.moves = false) u os' u' ∧ os'.filterMap Op.erase = os.filterMap Op.erase := by
  induction h generalizing u with
  | nil => exact ⟨[], u, .nil, rfl⟩
  | @cons s v t o os ho hstep _ ih =>
    have hcor := coroutines_step (wired_of_run hs) ho hstep
    cases he : o.erase with
    | none =>
      rw [he] at hcor
      obtain ⟨os', u', hvia, hos⟩ := ih (hs.tail ho hstep) hu (hsu.trans hcor.symm)
      exact ⟨os', u', hvia, by rw [hos, List.filterMap_cons_none he]⟩
    | some o₁ =>
      rw [he] at hcor
      have hwu := wired_of_run hu
      have hroom : Roomy u := hu.keeps (P := Roomy) (fun _ _ _ h _ hs => roomy_of_step h hs) ⟨0, fun _ _ => rfl⟩
      obtain ⟨o', u₁, hstep', hm, he'⟩ := step_of_coroutines hwu hroom he (by rw [hsu]; exact hcor)
      have hcor' := coroutines_step hwu (settled_of_moveless (fun _ _ h => h) hu) hstep'
      rw [he'] at hcor'
      have heq : u₁.coroutines = v.coroutines := by
        rw [hsu] at hcor'
        exact (Option.some.inj (hcor.symm.trans hcor')).symm
      obtain ⟨os', u', hvia, hos⟩ := ih (hs.tail ho hstep) (hu.tail hm hstep') heq
      exact ⟨o' :: os', u', .cons hm hstep' hvia, by rw [List.filterMap_cons_some he', List.filterMap_cons_some he, hos]⟩

/-- What anybody sees of a run in which every fiber that returns from a suspended `yield_value` or `yield_u64` lies
    where it was suspended is what they see in every run of the same calls without moves; and there is such a run. -/
theorem moves_unobservable {os : List Op} (h : Via step Settled State.init os s) :
    (∃ os' s', Via step (fun _ o => o.moves = false) State.init os' s' ∧ os'.filterMap Op.erase = os.filterMap Op.erase) ∧
      ∀ os' s', Via step (fun _ o => o.moves = false) State.init os' s' →
        os'.filterMap Op.erase = os.filterMap Op.erase → s'.observed = s.observed := by
  refine ⟨exists_moveless .refl .refl rfl h, fun os' s' h' he => ?_⟩
  have hrun := coroutines_via (fun _ _ _ => id) .refl h
  have hrun' := coroutines_via (fun t o ht _ => settled_of_moveless (fun _ _ h => h) ht) .refl h'
  rw [he] at hrun'
  exact congrArg Coroutines.seen (hrun'.unique hrun)

instance : ∀ (s : State) (o : Op), Decidable (Settled s o) := fun s o =>
  decidable_of_iff (o = .go → (match s.ctl with
      | .at ⟨some f, .yieldNow k⟩ => k.captured.all fun p => s.home f = some p
      | _ => true) = true) (by
    refine imp_congr_right fun _ => ⟨fun h f k p hc hp => ?_, fun h => ?_⟩
    · rw [hc] at h
      exact of_decide_eq_true ((Option.all_eq_true _ _).mp h p hp)
    · split
      · rename_i f k hc
        refine (Option.all_eq_true _ _).mpr fun p hp => decide_eq_true (h f k p hc hp)
      · rfl)

/-- A fiber that is suspended in `yield_value` is moved, and another one is made in its place: it returns with what is
    in the other's mailbox, and not with the input it was resumed with. -/
theorem moves_observable :
    ∃ os os' s s', Via step (fun _ _ => True) State.init os s ∧ Via step (fun _ o => o.moves = false) State.init os' s' ∧
      os'.filterMap Op.erase = os.filterMap Op.erase ∧ s.observed ≠ s'.observed := by
  have hmoved : (runActions step (fun _ _ => True) State.init
      [.new 4, .resume 0 .none, .go, .yieldValue ⟨0, 1⟩ 0, .go, .move 0 8, .new 4, .resume 0 (.any ⟨0, 7⟩), .go]).any
        (fun s => s.observed = [(some 0, .input 0 none), (none, .step .yielded)]) = true := by decide +kernel
  have hunmoved : (runActions step (fun _ o => o.moves = false) State.init
      [.new 4, .resume 0 .none, .go, .yieldValue ⟨0, 1⟩ 0, .go, .new 8, .resume 0 (.any ⟨0, 7⟩), .go]).any
        (fun s => s.observed = [(some 0, .input 0 (some 7)), (none, .step .yielded)]) = true := by decide +kernel
  obtain ⟨s, hs, hq⟩ := exists_via_of_runActions hmoved
  obtain ⟨s', hs', hq'⟩ := exists_via_of_runActions hunmoved
  refine ⟨_, _, s, s', hs, hs', by decide, ?_⟩
  rw [of_decide_eq_true hq, of_decide_eq_true hq']
  decide

/-- A fiber that is suspended in `yield_now` can be moved. -/
theorem moves_unobservable_now :
    ∃ os s, Via step Settled State.init os s ∧ .move 0 8 ∈ os ∧ ∀ os' s',
      Via step (fun _ o => o.moves = false) State.init os' s' → os'.filterMap Op.erase = os.filterMap Op.erase →
        s'.observed = s.observed := by
  have hrun : (runActions step Settled State.init
      [.new 4, .resume 0 .none, .go, .yieldNow, .go, .move 0 8, .new 4, .resume 0 (.any ⟨0, 7⟩), .go,
        .ask (.takeInput 0), .finish, .go]).any (fun s => s.observed =
          [(none, .step .done), (some 0, .taken 0 (some 7)), (some 0, .unit), (none, .step .yielded)]) = true := by
    decide +kernel
  obtain ⟨s, hs, -⟩ := exists_via_of_runActions hrun
  exact ⟨_, s, hs, by decide, (moves_unobservable hs).2⟩

end

end Krio.Fibers
