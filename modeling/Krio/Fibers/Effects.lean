import Krio.Fibers.Moves

/-! What a step does, with every pointer followed: the hooks lead to the fiber that runs, its trampoline state to its
caller's frame, and the address in a frame to the fiber that was resumed. One case for each thing that code can do, and
one for each context that a switch can lead to. -/

namespace Krio.Fibers
open Lib

section
variable {s s' : State} {o : Op} {f g : Fid} {a b : Addr} {on : Option Fid} {c : Call} {cs : List Call} {sp : Sp}
  {pc : Pc} {d : Data} {x : Ctx} {k : Yield Addr}

def State.datas (s : State) (f : Fid) : Data := (s.fibers f).data

/-- What code of the host gets when it calls what only a fiber's code may call. -/
def Op.outside : Op → Option Seen
  | .ask q => some q.outside
  | .yieldNow | .yieldValue _ _ | .yieldU64 _ => some .panicked
  | _ => none

/-- What the code of a fiber that lies at `a` leaves when it switches away: its data, and where its stack waits. -/
def Data.leave (d : Data) (a : Addr) : Op → Option (Data × Pc)
  | .yieldNow => some (d, .yieldNow .now)
  | .yieldValue v type => some ({ d with outputSlot := some v }, .yieldNow (.value type a))
  | .yieldU64 n => some ({ d with outputU64 := some n }, .yieldNow (.u64 a))
  | .finish => some ({ d with done := true }, .finished)
  | .panic p => some ({ d with errored := true, errorPayload := some p, done := true }, .finished)
  | _ => none

/-- What a yield returns once it is resumed, and what it leaves. -/
def Data.wake (d : Data) : Yield Addr → Seen × Data
  | .now => (.unit, d)
  | .value type _ => (.input type (d.inputSlot.bind (·.downcast type)), { d with inputSlot := none })
  | .u64 _ => (.inputU64 d.inputU64, { d with inputU64 := none })

/-- The trampoline runs the closure. -/
def State.began (s : State) (f : Fid) : State :=
  { s with boxes := Function.update s.boxes f { s.boxes f with closure := false }, ctl := .code (some f) }

/-- The yield `k` of `f` returns, with the mailbox of `g`. -/
def State.woken (s : State) (f g : Fid) (k : Yield Addr) : State :=
  { (s.setData g ((s.datas g).wake k).2).saw (some f) ((s.datas g).wake k).1 with ctl := .code (some f) }

inductive Effect (s : State) : Op → State → Prop
  | new (on : Option Fid) (a : Addr) : s.ctl = .code on → Effect s (.new a) (s.new a)
  | move (on : Option Fid) (f : Fid) (a b : Addr) : s.ctl = .code on → s.home f = some a →
      Effect s (.move f b) (s.move f a b)
  | drop (on : Option Fid) (f : Fid) (a : Addr) : s.ctl = .code on → s.home f = some a → Effect s (.drop f) (s.drop f a)
  | refused (on : Option Fid) (f : Fid) (i : Input) : s.ctl = .code on → f < s.created → (s.datas f).done = true →
      Effect s (.resume f i) ((s.setData f ((s.datas f).fill i)).saw on .panicked)
  | entered (on : Option Fid) (f : Fid) (a : Addr) (i : Input) (sp : Sp) (x : Ctx) : s.ctl = .code on → f < s.created →
      (s.datas f).done = false → s.Ready f x → Effect s (.resume f i) (s.entered on f a i sp x)
  | access (on : Option Fid) (f : Fid) (q : Access) : s.ctl = .code on → f < s.created →
      Effect s (.access f q) ((s.setData f ((s.datas f).access q).2).saw on ((s.datas f).access q).1)
  | outside (o : Op) (y : Seen) : s.ctl = .code none → o.outside = some y → Effect s o (s.saw none y)
  | answered (f : Fid) (q : Ask) : s.ctl = .code (some f) →
      Effect s (.ask q) ((s.setData f ((s.datas f).answer q).2).saw (some f) ((s.datas f).answer q).1)
  | left (f : Fid) (o : Op) (a : Addr) (c : Call) (cs : List Call) (sp : Sp) (d : Data) (pc : Pc) :
      s.ctl = .code (some f) → Top s f a c cs sp → (s.datas f).leave a o = some (d, pc) →
      Effect s o (s.left f d pc sp (c.frame a))
  | began (f : Fid) : s.ctl = .at ⟨some f, .run⟩ → Effect s .go (s.began f)
  | woken (f g : Fid) (k : Yield Addr) (a : Addr) (c : Call) (cs : List Call) (sp : Sp) :
      s.ctl = .at ⟨some f, .yieldNow k⟩ → Top s f a c cs sp → (∀ p, k.captured = some p → s.mem p = some g) →
      (k.captured = none → g = f) → Effect s .go (s.woken f g k)
  /-- A yield that has captured an address where no fiber lies any more. -/
  | lost (f : Fid) (k : Yield Addr) (p : Addr) : s.ctl = .at ⟨some f, .yieldNow k⟩ → k.captured = some p →
      s.mem p = none → Effect s .go s.crash
  | returned (c : Call) (cs : List Call) (a : Addr) : s.ctl = .at (c.frame a) → s.active = c :: cs →
      Effect s .go (s.returned c)

/-! ### One operation at a time -/

/-- The code of a fiber runs while a call on it is active, and the fiber is not over. -/
theorem Wired.running (h : Wired s) (hc : s.ctl = .code (some f)) : ∃ a c cs sp, Top s f a c cs sp := by
  have hctl := h.ctl
  rw [State.CtlOk, hc] at hctl
  exact h.top (by rw [State.pending, hc]) hctl.symm

/-- While the host's code runs no call is active. -/
theorem Wired.idle (h : Wired s) (hc : s.ctl = .code none) : topOf s.active = none := by
  have hctl := h.ctl
  rw [State.CtlOk, hc] at hctl
  exact hctl.symm

theorem Top.top (h : Top s f a c cs sp) : topOf s.active = some f := by
  rw [h.active, ← h.fiber]
  rfl

/-- A call on a fiber needs one that was made. -/
theorem Wired.made_of_free (h : Wired s) (hfree : s.free f) : f < s.created := by
  obtain ⟨a, ha⟩ := Option.ne_none_iff_exists'.mp hfree.1
  exact h.made f a ha

theorem Wired.effect_resume (h : Wired s) (hc : s.ctl = .code on) {i : Input} (hs : step s (.resume f i) = some s') :
    Effect s (.resume f i) s' := by
  have hpend : s.pending = s.active := by rw [State.pending, hc]
  simp only [step, hc] at hs
  split at hs
  · rename_i hfree
    obtain ⟨a, ha, rfl⟩ := Option.map_eq_some_iff.mp hs
    cases hd : (s.fibers f).data.done with
    | true =>
      rw [resume_done hd]
      exact .refused on f i hc (h.made f a ha) hd
    | false =>
      obtain ⟨sp, x, hsp, hx, hr, -⟩ := h.waitAt_asleep ha (fun c hc => hfree.2 c (hpend ▸ hc)) hd
      rw [h.resume_eq ha hsp hx hd]
      exact .entered on f a i sp x hc (h.made f a ha) hd hr
  · cases hs

theorem Wired.effect_ask (h : Wired s) (hc : s.ctl = .code on) {q : Ask} (hs : step s (.ask q) = some s') :
    Effect s (.ask q) s' := by
  simp only [step, hc] at hs
  cases hs
  cases on with
  | none =>
    rw [State.ask, h.hooks_none (h.idle hc)]
    exact .outside _ _ hc rfl
  | some f =>
    obtain ⟨a, c, cs, sp, ht⟩ := h.running hc
    rw [State.ask, h.hooks_some ht.top ht.home]
    simp only [State.withFiber, (h.mem a f).mpr ht.home]
    exact .answered f q hc

/-- What a fiber's code that switches away leaves. -/
theorem Wired.leaves (h : Wired s) (hc : s.ctl = .code (some f)) (ht : Top s f a c cs sp)
    (hd : (s.datas f).leave a o = some (d, pc)) : step s o = some (s.left f d pc sp (c.frame a)) := by
  have hmem := (h.mem a f).mpr ht.home
  cases o with
  | yieldNow =>
    cases hd
    have heq := h.yieldNow_eq ht (k := .now) (d := s.datas f)
    rw [State.datas, setData_self] at heq
    simp only [step, hc]
    rw [heq]
    rfl
  | yieldValue v type =>
    cases hd
    simp only [step, hc, State.yieldValue, h.hooks_some ht.top ht.home, State.withFiber, hmem]
    rw [h.yieldNow_eq ht]
    rfl
  | yieldU64 n =>
    cases hd
    simp only [step, hc, State.yieldU64, h.hooks_some ht.top ht.home, State.withFiber, hmem]
    rw [h.yieldNow_eq ht]
    rfl
  | finish =>
    cases hd
    have heq := h.exit_eq ht (d := s.datas f)
    rw [State.datas, setData_self] at heq
    simp only [step, hc]
    rw [heq]
    rfl
  | panic p =>
    cases hd
    simp only [step, hc]
    rw [h.caught_eq ht]
    rfl
  | _ => cases hd

theorem Wired.effect_leave (h : Wired s) (hc : s.ctl = .code (some f)) (ho : ∀ d a, (Data.leave d a o).isSome)
    (hs : step s o = some s') : Effect s o s' := by
  obtain ⟨a, c, cs, sp, ht⟩ := h.running hc
  obtain ⟨⟨d, pc⟩, hd⟩ := Option.isSome_iff_exists.mp (ho (s.datas f) a)
  obtain rfl := Option.some.inj ((h.leaves hc ht hd).symm.trans hs)
  exact .left f o a c cs sp d pc hc ht hd

/-- What follows a switch into a fiber. -/
theorem effect_land (hc : s.ctl = .at x) (hr : s.Ready f x) (ht : Top s f a c cs sp) : Effect s .go (s.land x) := by
  obtain ⟨stack, pc⟩ := x
  obtain ⟨hstack, hpc⟩ := hr
  obtain rfl : stack = some f := hstack
  obtain ⟨rfl, hcl⟩ | ⟨k, rfl⟩ := hpc
  · simp only [State.land, hcl, if_true]
    exact .began f hc
  · cases k with
    | now =>
      have heq : s.land ⟨some f, .yieldNow .now⟩ = s.woken f f .now := by
        rw [State.woken, Data.wake, State.datas, setData_self]
        rfl
      rw [heq]
      exact .woken f f .now a c cs sp hc ht (by rintro _ ⟨⟩) fun _ => rfl
    | value type p | u64 p =>
      simp only [State.land, State.withFiber]
      split
      · exact .lost f _ p hc rfl ‹_›
      · refine .woken f _ _ a c cs sp hc ht ?_ (by rintro ⟨⟩)
        rintro _ ⟨⟩
        assumption

/-- Every step does one of these. -/
theorem Wired.effect (h : Wired s) (hs : step s o = some s') : Effect s o s' := by
  cases hc : s.ctl with
  | code on =>
    cases o with
    | new a =>
      simp only [step, hc] at hs
      split at hs <;> cases hs
      exact .new on a hc
    | move f b =>
      simp only [step, hc] at hs
      split at hs
      · obtain ⟨a, ha, rfl⟩ := Option.map_eq_some_iff.mp hs
        exact .move on f a b hc ha
      · cases hs
    | drop f =>
      simp only [step, hc] at hs
      split at hs
      · obtain ⟨a, ha, rfl⟩ := Option.map_eq_some_iff.mp hs
        exact .drop on f a hc ha
      · cases hs
    | resume f i => exact h.effect_resume hc hs
    | access f q =>
      simp only [step, hc] at hs
      split at hs <;> cases hs
      exact .access on f q hc (h.made_of_free ‹_›)
    | ask q => exact h.effect_ask hc hs
    | yieldNow | yieldValue v type | yieldU64 n =>
      cases on with
      | none =>
        simp only [step, hc, State.yieldNow, State.yieldValue, State.yieldU64, h.hooks_none (h.idle hc)] at hs
        cases hs
        exact .outside _ _ hc rfl
      | some f => exact h.effect_leave hc (fun _ _ => rfl) hs
    | finish | panic p =>
      cases on with
      | none => simp [step, hc] at hs
      | some f => exact h.effect_leave hc (fun _ _ => rfl) hs
    | go => simp [step, hc] at hs
  | «at» x =>
    cases o with
    | go =>
      simp only [step, hc] at hs
      cases hs
      have hctl := h.ctl
      rw [State.CtlOk, hc] at hctl
      obtain ⟨f, ht, hr⟩ | ⟨c, cs, a, hact, ha, rfl⟩ := hctl
      · have hpend : s.pending = s.active := by
          rw [State.pending, hc]
          exact if_neg (by simp [hr.not_returns])
        obtain ⟨a, c, cs, sp, ht⟩ := h.top hpend ht
        exact effect_land hc hr ht
      · rw [(h.land_frame hc hact ha).1]
        exact .returned c cs a hc hact
    | _ => simp [step, hc] at hs
  | ub => cases o <;> simp [step, hc] at hs

/-! ### The fibers after a step -/

theorem datas_setData (s : State) (f : Fid) (d : Data) : (s.setData f d).datas = Function.update s.datas f d := by
  funext g
  obtain rfl | hg := eq_or_ne g f
  · simp [State.datas, State.setData, State.setFiber]
  · simp [State.datas, State.setData, State.setFiber, hg]

theorem datas_left {y : Ctx} : (s.left f d pc sp y).datas = Function.update s.datas f d := by
  funext g
  obtain rfl | hg := eq_or_ne g f
  · simp [State.datas, State.left]
  · simp [State.datas, State.left, hg]

theorem datas_new : (s.new a).datas = Function.update s.datas s.created (.new s.nextFiberId) := by
  funext g
  obtain rfl | hg := eq_or_ne g s.created
  · simp [State.datas, State.new]
  · simp [State.datas, State.new, hg]

theorem datas_entered {i : Input} :
    (s.entered on f a i sp x).datas = Function.update s.datas f { (s.datas f).fill i with started := true } := by
  funext g
  obtain rfl | hg := eq_or_ne g f
  · simp only [State.datas, State.entered, Function.update_self]
  · simp [State.datas, State.entered, hg]

/-- A yield that still finds its fiber where it was. -/
theorem Settled.here (h : Settled s .go) (hw : Wired s) (hc : s.ctl = .at ⟨some f, .yieldNow k⟩)
    (hg : ∀ p, k.captured = some p → s.mem p = some g) (hn : k.captured = none → g = f) : g = f := by
  cases hp : k.captured with
  | none => exact hn hp
  | some p => exact Option.some.inj ((hg p hp).symm.trans ((hw.mem p f).mpr (h rfl f k p hc hp)))

theorem Settled.not_lost (h : Settled s .go) (hw : Wired s) (hc : s.ctl = .at ⟨some f, .yieldNow k⟩)
    (hp : k.captured = some b) : s.mem b ≠ none := by
  rw [(hw.mem b f).mpr (h rfl f k b hc hp)]
  exact Option.some_ne_none f

end

end Krio.Fibers
