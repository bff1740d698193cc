import Krio.Fibers.Effects

/-! What the host takes. A yield of one kind writes the output slot of its kind and leaves the other as it is, and
`yield_now` writes none; a take empties the slot of its kind. So a value that nobody took is still there after a later
suspension of another kind, and is taken then. -/

namespace Krio.Fibers
open Lib

section
variable {s s' : State} {o : Op} {f g : Fid} {a : Addr}

/-! ### What is owed -/

/-- What a suspension yields. -/
inductive Payload
  | any (v : AnyBox)
  | u64 (n : BitVec 64)
  deriving DecidableEq, Repr

def owedAny : Option Payload → Option AnyBox
  | some (.any v) => some v
  | _ => none

def owedU64 : Option Payload → Option (BitVec 64)
  | some (.u64 n) => some n
  | _ => none

/-- What the latest suspension of each fiber yielded, until it is taken. -/
abbrev Owed := Fid → Option Payload

/-- What a take returns when `p` is owed. -/
def expected (p : Option Payload) : Access → Option Seen
  | .takeYieldValue type => some (.value ((owedAny p).bind (·.downcast type)))
  | .takeYieldAny => some (.any (owedAny p))
  | .takeYieldU64 => some (.u64 (owedU64 p))
  | .hasYieldValue => some (.bool (owedAny p).isSome)
  | _ => none

/-- What is owed after a take. -/
def stillOwed (p : Option Payload) : Access → Option Payload
  | .takeYieldValue type => if ((owedAny p).bind (·.downcast type)).isSome then none else p
  | .takeYieldAny => if (owedAny p).isSome then none else p
  | .takeYieldU64 => if (owedU64 p).isSome then none else p
  | _ => p

/-- What a suspension yields; `yield_now` yields nothing. -/
def Op.suspends : Op → Option (Option Payload)
  | .yieldNow => some none
  | .yieldValue v _ => some (some (.any v))
  | .yieldU64 n => some (some (.u64 n))
  | _ => none

def Owed.step (w : Owed) (s : State) (o : Op) : Owed :=
  match s.ctl, o with
  | .code _, .new _ => Function.update w s.created none
  | .code _, .access f q => Function.update w f (stillOwed (w f) q)
  | .code (some f), o =>
    match o.suspends with
    | some p => Function.update w f p
    | none => w
  | _, _ => w

/-- The machine, and beside it what is owed. -/
def stepOwed (x : State × Owed) (o : Op) : Option (State × Owed) := (step x.1 o).map fun s' => (s', x.2.step x.1 o)

def startOwed : State × Owed := (State.init, fun _ => none)

/-- A call of `resume` on the fiber has come to `Yielded`, and none waits. -/
def State.Suspended (s : State) (f : Fid) : Prop :=
  s.home f ≠ none ∧ (lastCall f s.trace).isSome ∧ (∀ c ∈ s.pending, c.fiber ≠ f) ∧ (s.datas f).step = .yielded

/-- The host takes what the latest suspension yielded: that, once, and nothing else. -/
def Truthful (x : State × Owed) : Prop :=
  ∀ f, x.1.Suspended f → ∀ q y, expected (x.2 f) q = some y → ((x.1.datas f).access q).1 = y

/-- A suspension leaves no slot of another kind filled. -/
def Clears (p new : Option Payload) : Prop :=
  match new with
  | none => p = none
  | some (.any _) => owedU64 p = none
  | some (.u64 _) => owedAny p = none

/-- When a fiber suspends, every value of another kind that it yielded before was taken. -/
def Cleared (x : State × Owed) (o : Op) : Prop :=
  ∀ f new, x.1.ctl = .code (some f) → o.suspends = some new → Clears (x.2 f) new

/-- The output slots hold what is owed, and nothing else. -/
def Owes (d : Data) (p : Option Payload) : Prop := d.done = false → d.outputSlot = owedAny p ∧ d.outputU64 = owedU64 p

variable {d : Data} {p : Option Payload} {w : Owed} {D : Fid → Data}

theorem owes_update (h : ∀ g, Owes (D g) (w g)) (hd : Owes d p) : ∀ g, Owes (Function.update D f d g) (Function.update w f p g) := by
  intro g
  obtain rfl | hg := eq_or_ne g f
  · rw [Function.update_self, Function.update_self]
    exact hd
  · rw [Function.update_of_ne hg, Function.update_of_ne hg]
    exact h g

theorem owes_update_left (h : ∀ g, Owes (D g) (w g)) (hd : Owes d (w f)) : ∀ g, Owes (Function.update D f d g) (w g) := by
  have hself := owes_update (f := f) h hd
  rwa [Function.update_eq_self] at hself

/-- A value of the wanted type leaves the slot; any other stays. -/
theorem takeYieldValue_eq (d : Data) (type : ℕ) : d.takeYieldValue type =
    (.value (d.outputSlot.bind (·.downcast type)),
      if (d.outputSlot.bind (·.downcast type)).isSome then { d with outputSlot := none } else d) := by
  unfold Data.takeYieldValue
  cases d.outputSlot with
  | none => rfl
  | some b =>
    by_cases hb : b.type = type <;> simp [AnyBox.downcast, hb]

theorem Owes.access (h : Owes d p) (q : Access) : Owes (d.access q).2 (stillOwed p q) := by
  intro hd
  rw [(access_flags d q).1] at hd
  obtain ⟨hany, hu64⟩ := h hd
  cases q with
  | takeYieldValue type =>
    simp only [Data.access, takeYieldValue_eq, stillOwed, hany]
    split_ifs with htaken
    · rcases p with _ | ⟨v⟩ | n
      · cases htaken
      · exact ⟨rfl, hu64⟩
      · cases htaken
    · exact ⟨hany, hu64⟩
  | takeYieldAny => rcases p with _ | ⟨v⟩ | n <;> exact ⟨rfl, hu64⟩
  | takeYieldU64 => rcases p with _ | ⟨v⟩ | n <;> exact ⟨hany, rfl⟩
  | _ => exact ⟨hany, hu64⟩

theorem Owes.expected (h : Owes d p) (hd : d.done = false) {q : Access} {y : Seen} (hy : expected p q = some y) :
    (d.access q).1 = y := by
  obtain ⟨hany, hu64⟩ := h hd
  cases q with
  | takeYieldValue type =>
    obtain rfl := Option.some.inj hy
    simp only [Data.access, takeYieldValue_eq, hany]
  | takeYieldAny =>
    obtain rfl := Option.some.inj hy
    exact congrArg Seen.any hany
  | takeYieldU64 =>
    obtain rfl := Option.some.inj hy
    exact congrArg Seen.u64 hu64
  | hasYieldValue =>
    obtain rfl := Option.some.inj hy
    exact congrArg (fun v => Seen.bool v.isSome) hany
  | _ => cases hy

/-- What a suspension does to the slots. -/
def Data.put (d : Data) : Option Payload → Data
  | none => d
  | some (.any v) => { d with outputSlot := some v }
  | some (.u64 n) => { d with outputU64 := some n }

theorem Owes.suspend (h : Owes d p) {new : Option Payload} (hclear : Clears p new) : Owes (d.put new) new := by
  rcases new with _ | ⟨v⟩ | n
  · obtain rfl : p = none := hclear
    exact h
  · exact fun hd => ⟨rfl, (h hd).2.trans hclear⟩
  · exact fun hd => ⟨(h hd).1.trans hclear, rfl⟩

/-- The slots are as they were. -/
theorem Owes.keep {d' : Data} (h : Owes d p) (hd : d'.done = d.done) (hany : d'.outputSlot = d.outputSlot)
    (hu64 : d'.outputU64 = d.outputU64) : Owes d' p := by
  intro hdone
  rw [hany, hu64]
  exact h (hd ▸ hdone)

/-- A fiber's code switches away: it suspends, or is over. -/
theorem Owes.leave (h : ∀ g, Owes (s.datas g) (w g)) (hc : s.ctl = .code (some f)) (hclear : Cleared (s, w) o) {pc : Pc}
    (hd : (s.datas f).leave a o = some (d, pc)) (g : Fid) : Owes (Function.update s.datas f d g) (w.step s o g) := by
  revert g
  cases o with
  | yieldNow | yieldValue v type | yieldU64 n =>
    cases hd
    simp only [Owed.step, hc, Op.suspends]
    exact owes_update h ((h f).suspend (hclear f _ hc rfl))
  | finish | panic q =>
    cases hd
    simp only [Owed.step, hc, Op.suspends]
    exact owes_update_left h (by rintro ⟨⟩)
  | _ => cases hd

theorem owes_of_step (hw : Wired s) (hset : Settled s o) (h : ∀ g, Owes (s.datas g) (w g)) (hclear : Cleared (s, w) o)
    (e : Effect s o s') (g : Fid) : Owes (s'.datas g) (w.step s o g) := by
  revert g
  have hquiet : w.step s o = w → s'.datas = s.datas → ∀ g, Owes (s'.datas g) (w.step s o g) := by
    intro hw' hdatas
    rw [hw', hdatas]
    exact h
  -- What changes one fiber, and not its slots.
  have hkeep : ∀ {f d}, w.step s o = w → s'.datas = Function.update s.datas f d → d.done = (s.datas f).done →
      d.outputSlot = (s.datas f).outputSlot → d.outputU64 = (s.datas f).outputU64 →
      ∀ g, Owes (s'.datas g) (w.step s o g) := by
    intro f d hw' hdatas hd hany hu64
    rw [hw', hdatas]
    exact owes_update_left h ((h f).keep hd hany hu64)
  have hresume : ∀ {on f i}, s.ctl = .code on → w.step s (.resume f i) = w := by
    intro on f i hc
    simp only [Owed.step, hc]
    cases on <;> rfl
  cases e with
  | new on a hc =>
    simp only [Owed.step, hc, datas_new]
    exact owes_update h fun _ => ⟨rfl, rfl⟩
  | move on f a b hc ha | drop on f a hc ha =>
    refine hquiet ?_ rfl
    simp only [Owed.step, hc]
    cases on <;> rfl
  | refused on f i hc hf hd =>
    exact hkeep (hresume hc) (datas_setData ..) (fill_flags _ i).1 (by cases i <;> rfl) (by cases i <;> rfl)
  | entered on f a i sp x hc hf hd hr =>
    exact hkeep (hresume hc) datas_entered (fill_flags _ i).1 (by cases i <;> rfl) (by cases i <;> rfl)
  | access on f q hc hf =>
    have hdatas := datas_setData s f ((s.datas f).access q).2
    simp only [Owed.step, hc]
    exact fun g => congrFun hdatas g ▸ owes_update h ((h f).access q) g
  | outside o y hc hy =>
    refine hquiet ?_ rfl
    cases o <;> cases hy <;> simp only [Owed.step, hc]
  | answered f q hc =>
    exact hkeep (by simp only [Owed.step, hc, Op.suspends]) (datas_setData ..) (answer_flags _ q).1 (by cases q <;> rfl)
      (by cases q <;> rfl)
  | left f o a c cs sp d pc hc ht hd =>
    rw [datas_left]
    exact Owes.leave h hc hclear hd
  | began f hc => exact hquiet (by simp only [Owed.step, hc]) rfl
  | woken f g k a c cs sp hc ht hg hn =>
    exact hkeep (by simp only [Owed.step, hc]) (datas_setData ..) (by cases k <;> rfl) (by cases k <;> rfl)
      (by cases k <;> rfl)
  | lost f k p hc hp hm => exact absurd hm (hset.not_lost hw hc hp)
  | returned c cs a hc hact => exact hquiet (by simp only [Owed.step, hc]) rfl

/-- A state in which the slots hold what is owed is truthful. -/
theorem truthful_of_owes (h : ∀ g, Owes (s.datas g) (w g)) : Truthful (s, w) := by
  rintro f ⟨-, -, -, hstep⟩ q y hy
  have hdone : (s.datas f).done = false := by
    cases hd : (s.datas f).done with
    | false => rfl
    | true =>
      exfalso
      simp only [Data.step, hd] at hstep
      cases he : (s.datas f).errored <;> simp [he] at hstep
  exact (h f).expected hdone hy

theorem suspended_left (hw : Wired s) {c : Call} {cs : List Call} {sp : Sp} {pc : Pc} (ht : Top s f a c cs sp)
    (hd : d.done = false) : (s.left f d pc sp (c.frame a)).Suspended f := by
  have hmem : c ∈ s.active := ht.active ▸ List.mem_cons_self
  refine ⟨?_, ?_, ?_, ?_⟩
  · show s.home f ≠ none
    rw [ht.home]
    rintro ⟨⟩
  · show (lastCall f s.trace).isSome
    rw [← ht.fiber, hw.account.latest c hmem]
    rfl
  · intro c' hc' heq
    have hcs : c' ∈ cs := by
      have hpend : (s.left f d pc sp (c.frame a)).pending = s.active.tail := rfl
      rwa [hpend, ht.active] at hc'
    have hnd := hw.account.fibers
    rw [ht.active, List.map_cons] at hnd
    exact (List.nodup_cons.mp hnd).1 (List.mem_map.mpr ⟨c', hcs, heq.trans ht.fiber.symm⟩)
  · rw [datas_left, Function.update_self, Data.step, hd]

/-- A suspension that leaves a value of another kind untaken is followed by a take that returns it. -/
theorem cleared_of_truthful (hw : Wired s) (h : ∀ g, Owes (s.datas g) (w g)) (hs : step s o = some s')
    (ht : Truthful (s', w.step s o)) : Cleared (s, w) o := by
  intro f new hc hnew
  replace hc : s.ctl = .code (some f) := hc
  obtain ⟨a, c, cs, sp, htop⟩ := hw.running hc
  obtain ⟨hany, hu64⟩ := h f htop.notDone
  have howed : w.step s o f = new := by
    cases o <;> cases hnew <;> simp only [Owed.step, hc, Op.suspends, Function.update_self]
  -- What a take returns right after the suspension.
  have htake : ∀ {d pc}, (s.datas f).leave a o = some (d, pc) → d.done = (s.datas f).done →
      ∀ q y, expected new q = some y → (d.access q).1 = y := by
    intro d pc hd hdone q y hy
    obtain rfl := Option.some.inj ((hw.leaves hc htop hd).symm.trans hs)
    have htrue := ht f (suspended_left hw htop (hdone.trans htop.notDone)) q y (by rwa [← howed] at hy)
    rwa [datas_left, Function.update_self] at htrue
  cases o with
  | yieldNow =>
    obtain rfl := Option.some.inj hnew
    have hnone : owedAny (w f) = none := hany.symm.trans (Seen.any.inj (htake rfl rfl .takeYieldAny _ rfl))
    have hnone' : owedU64 (w f) = none := hu64.symm.trans (Seen.u64.inj (htake rfl rfl .takeYieldU64 _ rfl))
    show w f = none
    rcases hp : w f with _ | ⟨v⟩ | n
    · rfl
    · rw [hp] at hnone
      cases hnone
    · rw [hp] at hnone'
      cases hnone'
  | yieldValue v type =>
    obtain rfl := Option.some.inj hnew
    exact hu64.symm.trans (Seen.u64.inj (htake rfl rfl .takeYieldU64 _ rfl))
  | yieldU64 n =>
    obtain rfl := Option.some.inj hnew
    exact hany.symm.trans (Seen.any.inj (htake rfl rfl .takeYieldAny _ rfl))
  | _ => cases hnew

/-- The machine itself takes the steps of a run with what is owed beside it. -/
theorem reachable_of_owed {ok : State × Owed → Op → Prop} (hok : ∀ x o, ok x o → o.moves = false) {x : State × Owed}
    (h : Steps stepOwed ok startOwed x) : Reachable (fun _ o => o.moves = false) x.1 := by
  induction h with
  | refl => exact .refl
  | tail _ ho hs ih =>
    obtain ⟨s', hs', rfl⟩ := Option.map_eq_some_iff.mp hs
    exact ih.tail (hok _ _ ho) hs'

/-- While every suspension clears the slots of the other kinds, the slots hold what is owed. -/
theorem owes_of_run {x : State × Owed} (h : Steps stepOwed (fun x o => o.moves = false ∧ Cleared x o) startOwed x) (g : Fid) :
    Owes (x.1.datas g) (x.2 g) := by
  induction h generalizing g with
  | refl => exact fun _ => ⟨rfl, rfl⟩
  | tail h ho hs ih =>
    obtain ⟨s', hs', rfl⟩ := Option.map_eq_some_iff.mp hs
    have hr := reachable_of_owed (fun _ _ h => h.1) h
    have hw := wired_of_run hr
    exact owes_of_step hw (settled_of_moveless (fun _ _ h => h) hr) ih ho.2 (hw.effect hs') g

end

/-- Without moves: in every state of a run the host takes what the latest suspension yielded, once, and nothing else,
    exactly when every suspension finds the values of another kind that the fiber yielded before taken. -/
theorem takes_truthful (x : State × Owed) :
    Steps stepOwed (fun x o => o.moves = false ∧ ∀ y, stepOwed x o = some y → Truthful y) startOwed x ↔
      Steps stepOwed (fun x o => o.moves = false ∧ Cleared x o) startOwed x := by
  constructor
  · intro h
    induction h with
    | refl => exact .refl
    | tail h ho hs ih =>
      have hr := reachable_of_owed (fun _ _ h => h.1) ih
      obtain ⟨s', hs', rfl⟩ := Option.map_eq_some_iff.mp hs
      exact ih.tail ⟨ho.1, cleared_of_truthful (wired_of_run hr) (owes_of_run ih) hs' (ho.2 _ hs)⟩ hs
  · intro h
    induction h with
    | refl => exact .refl
    | tail h ho hs ih =>
      refine ih.tail ⟨ho.1, fun y hy => ?_⟩ hs
      obtain rfl := Option.some.inj (hs.symm.trans hy)
      exact truthful_of_owes (owes_of_run (h.tail ho hs))

/-- A value that nobody took surfaces after a later `yield_now`. -/
theorem untaken_value_surfaces :
    ∃ x, Steps stepOwed (fun _ o => o.moves = false) startOwed x ∧ x.1.ctl = .code none ∧ x.2 0 = none ∧
      ((x.1.datas 0).access .takeYieldU64).1 = .u64 (some 7) ∧ ¬Truthful x := by
  have hrun : (runActions stepOwed (fun _ o => o.moves = false) startOwed
      [.new 4, .resume 0 .none, .go, .yieldU64 7, .go, .resume 0 .none, .go, .yieldNow, .go]).any (fun x =>
        (decide (x.1.home 0 ≠ none ∧ x.1.pending = [] ∧ (lastCall 0 x.1.trace).isSome ∧ (x.1.datas 0).step = .yielded) &&
        decide (x.1.ctl = .code none ∧ x.2 0 = none ∧ ((x.1.datas 0).access .takeYieldU64).1 = .u64 (some 7)))) = true := by
    decide +kernel
  obtain ⟨x, hx, hq⟩ := exists_of_runActions hrun
  obtain ⟨hsus, hq⟩ := Bool.and_eq_true_iff.mp hq
  obtain ⟨hhome, hpend, hlast, hstep⟩ := of_decide_eq_true hsus
  obtain ⟨hc, howed, htake⟩ := of_decide_eq_true hq
  refine ⟨x, hx, hc, howed, htake, fun htrue => ?_⟩
  have hsuspended : x.1.Suspended 0 := ⟨hhome, hlast, by simp [hpend], hstep⟩
  have hnone := htrue 0 hsuspended .takeYieldU64 (.u64 none) (by rw [howed]; rfl)
  rw [htake] at hnone
  cases hnone

end Krio.Fibers
