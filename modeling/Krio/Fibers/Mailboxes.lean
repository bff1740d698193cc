import Krio.Fibers.Effects

/-! What a fiber receives. A resume call fills the mailbox of its kind and leaves the other as it is, and reading one
empties it. So a value that the fiber did not read when it was passed in is still there after a later resume call of
another kind, and is received then. -/

namespace Krio.Fibers
open Lib

section
variable {s s' : State} {o : Op} {f g : Fid} {a : Addr} {t : List Event} {d d' : Data}

inductive Mailbox
  | any (type : ℕ)
  | u64
  deriving DecidableEq

/-- The mailbox that a step reads: what follows a `yield_value` or `yield_u64`, `take_input` and `take_input_u64`. -/
def State.reads (s : State) (o : Op) : Option (Fid × Mailbox) :=
  match s.ctl, o with
  | .at ⟨some f, .yieldNow (.value type _)⟩, .go => some (f, .any type)
  | .at ⟨some f, .yieldNow (.u64 _)⟩, .go => some (f, .u64)
  | .code (some f), .ask (.takeInput type) => some (f, .any type)
  | .code (some f), .ask .takeInputU64 => some (f, .u64)
  | _, _ => none

/-- The input goes into the mailbox. -/
def Input.fills : Input → Mailbox → Bool
  | .any _, .any _ => true
  | .u64 _, .u64 => true
  | _, _ => false

/-- The input of the call that resumed `f` last. -/
def lastInput (f : Fid) (t : List Event) : Option Input := (lastCall f t).map (·.input)

/-- What the code received is from the input of the call that woke it: a yield returns exactly that, and a value that
    is taken is that. -/
def Received (i : Option Input) : Seen → Prop
  | .input type v => v = match i with
    | some (.any b) => b.downcast type
    | _ => none
  | .inputU64 n => n = match i with
    | some (.u64 n) => some n
    | _ => none
  | .taken type v => ∀ x, v = some x → ∃ b, i = some (.any b) ∧ b.downcast type = some x
  | .takenU64 n => ∀ x, n = some x → i = some (.u64 x)
  | _ => True

/-- Everything that was received came with the resume call that the fiber last woke from. -/
def Delivered : List Event → Prop
  | [] => True
  | .saw (some f) y :: t => Received (lastInput f t) y ∧ Delivered t
  | _ :: t => Delivered t

/-- The inputs that were passed to a fiber and not read since. -/
@[ext]
structure Mail where
  any : Option AnyBox
  u64 : Option (BitVec 64)

namespace Mail

/-- A later input of a kind takes the place of an earlier one. -/
def put (w : Mail) : Input → Mail
  | .none => w
  | .any v => { w with any := some v }
  | .u64 n => { w with u64 := some n }

/-- What is still unread after the code saw `y`. -/
def without (w : Mail) : Seen → Mail
  | .input _ _ | .taken _ _ => { w with any := none }
  | .inputU64 _ | .takenU64 _ => { w with u64 := none }
  | _ => w

/-- Something is unread that a reader of the mailbox could get. -/
def holds (w : Mail) : Mailbox → Bool
  | .any type => (w.any.bind (·.downcast type)).isSome
  | .u64 => w.u64.isSome

end Mail

/-- What the calls of `resume` passed to `f` and its code has not read since. -/
def unread (f : Fid) : List Event → Mail
  | [] => ⟨none, none⟩
  | .called c :: t => if c.fiber = f then (unread f t).put c.input else unread f t
  | .returned _ _ _ :: t => unread f t
  | .saw on y :: t => if on = some f then (unread f t).without y else unread f t

/-- A fiber reads a mailbox that the last resume call has put nothing into: what earlier calls put there was read, or
    is of another type. -/
def Clean (s : State) (o : Op) : Prop :=
  ∀ f m, s.reads o = some (f, m) → (unread f s.trace).holds m = true → (lastInput f s.trace).any (·.fills m) = true

/-! ### What is unread lies in the mailboxes -/

def Data.mail (d : Data) : Mail := ⟨d.inputSlot, d.inputU64⟩

theorem mail_fill (d : Data) (i : Input) : (d.fill i).mail = d.mail.put i := by
  cases i <;> rfl

theorem mail_answer (d : Data) (q : Ask) : (d.answer q).2.mail = d.mail.without (d.answer q).1 := by
  cases q <;> rfl

theorem mail_wake (d : Data) (k : Yield Addr) : (d.wake k).2.mail = d.mail.without (d.wake k).1 := by
  cases k <;> rfl

theorem mail_access (d : Data) (q : Access) : (d.access q).2.mail = d.mail := by
  cases q with
  | takeYieldValue type =>
    simp only [Data.access, Data.takeYieldValue]
    split
    · rfl
    · split <;> rfl
  | _ => rfl

/-- The functions of `Fiber` read no mailbox. -/
theorem without_access (w : Mail) (d : Data) (q : Access) : w.without (d.access q).1 = w := by
  cases q with
  | takeYieldValue type =>
    simp only [Data.access, Data.takeYieldValue]
    split
    · rfl
    · split <;> rfl
  | _ => rfl

theorem mail_leave {pc : Pc} (hd : d.leave a o = some (d', pc)) : d'.mail = d.mail := by
  cases o <;> cases hd <;> rfl

/-- Seeing what was read from no mailbox changes nothing. -/
theorem unread_saw (on : Option Fid) (y : Seen) (h : ∀ w : Mail, w.without y = w) : unread f (.saw on y :: t) = unread f t := by
  rw [unread, h, ite_self]

/-- The mailboxes hold what is unread, and nothing else; a fiber yet to be made has none. -/
structure Mailed (s : State) : Prop where
  mail : ∀ f, (s.datas f).done = false → (s.datas f).mail = unread f s.trace
  fresh : ∀ f, s.created ≤ f → (s.datas f).done = false ∧ (s.datas f).mail = ⟨none, none⟩
  /-- The fiber that was just switched to is the one that was called last. -/
  awake : ∀ f k, s.ctl = .at ⟨some f, .yieldNow k⟩ → ∃ c t, s.trace = .called c :: t ∧ c.fiber = f

/-- A fiber keeps what it has, or what is unread of it is settled anew. -/
theorem Mailed.of (h : Mailed s) (hcr : s.created ≤ s'.created)
    (hd : ∀ g, (s'.datas g = s.datas g ∧ unread g s'.trace = unread g s.trace) ∨
      g < s'.created ∧ ((s'.datas g).done = false → (s'.datas g).mail = unread g s'.trace))
    (hctl : ∀ f k, s'.ctl = .at ⟨some f, .yieldNow k⟩ → ∃ c t, s'.trace = .called c :: t ∧ c.fiber = f) : Mailed s' := by
  refine ⟨fun g hdone => ?_, fun g hg => ?_, hctl⟩
  · obtain ⟨hsame, hu⟩ | ⟨-, hg⟩ := hd g
    · rw [hsame] at hdone ⊢
      rw [hu]
      exact h.mail g hdone
    · exact hg hdone
  · obtain ⟨hsame, -⟩ | ⟨hlt, -⟩ := hd g
    · rw [hsame]
      exact h.fresh g (Nat.le_trans hcr hg)
    · exact absurd hg (Nat.not_le_of_lt hlt)

theorem Mailed.same (h : Mailed s) (hcr : s'.created = s.created) (hd : s'.datas = s.datas)
    (hu : ∀ g, unread g s'.trace = unread g s.trace) (hctl : ∀ x, s'.ctl ≠ .at x) : Mailed s' :=
  h.of (Nat.le_of_eq hcr.symm) (fun g => .inl ⟨congrFun hd g, hu g⟩) fun _ _ hc => absurd hc (hctl _)

/-- One fiber changes, and what is unread of it with it. -/
theorem Mailed.one (h : Mailed s) (hcr : s'.created = s.created) (hf : f < s.created)
    (hd : s'.datas = Function.update s.datas f d) (hself : d.done = false → d.mail = unread f s'.trace)
    (hother : ∀ g, g ≠ f → unread g s'.trace = unread g s.trace)
    (hctl : ∀ f k, s'.ctl = .at ⟨some f, .yieldNow k⟩ → ∃ c t, s'.trace = .called c :: t ∧ c.fiber = f) : Mailed s' := by
  refine h.of (Nat.le_of_eq hcr.symm) (fun g => ?_) hctl
  rw [hd]
  obtain rfl | hg := eq_or_ne g f
  · rw [Function.update_self]
    exact .inr ⟨hcr ▸ hf, hself⟩
  · rw [Function.update_of_ne hg]
    exact .inl ⟨rfl, hother g hg⟩

/-- Code saw `y` of a fiber whose mailboxes it may have read. -/
theorem Mailed.read (h : Mailed s) (hcr : s'.created = s.created) (hf : f < s.created) {y : Seen}
    (hd : s'.datas = Function.update s.datas f d) (ht : s'.trace = .saw (some f) y :: s.trace)
    (hdone : d.done = (s.datas f).done) (hmail : d.mail = (s.datas f).mail.without y) (hctl : ∀ x, s'.ctl ≠ .at x) :
    Mailed s' := by
  refine h.one hcr hf hd (fun hd' => ?_) (fun g hg => ?_) fun _ _ hc => absurd hc (hctl _)
  · rw [ht, unread, if_pos rfl, hmail, h.mail f (hdone ▸ hd')]
  · rw [ht, unread, if_neg fun heq => hg (Option.some.inj heq).symm]

theorem Mailed.step (h : Mailed s) (hw : Wired s) (hset : Settled s o) (e : Effect s o s') : Mailed s' := by
  have hcode : ∀ {on : Option Fid} {u : State}, s.ctl = .code on → u.ctl = s.ctl → ∀ x, u.ctl ≠ .at x := by
    intro on u hc hu x hx
    rw [hu, hc] at hx
    cases hx
  have hmade : ∀ {f a c cs sp}, Top s f a c cs sp → f < s.created := fun ht => hw.made _ _ ht.home
  cases e with
  | new on a hc =>
    refine h.of (Nat.le_succ _) (fun g => ?_) fun _ _ hx => absurd hx (hcode hc rfl _)
    rw [datas_new]
    obtain rfl | hg := eq_or_ne g s.created
    · obtain ⟨hdone, hmail⟩ := h.fresh s.created (Nat.le_refl _)
      rw [Function.update_self]
      exact .inr ⟨Nat.lt_succ_self _, fun _ => hmail.symm.trans (h.mail _ hdone)⟩
    · rw [Function.update_of_ne hg]
      exact .inl ⟨rfl, rfl⟩
  | move on f a b hc ha => exact h.same rfl rfl (fun _ => rfl) (hcode hc rfl)
  | drop on f a hc ha => exact h.same rfl rfl (fun _ => rfl) (hcode hc rfl)
  | refused on f i hc hf hd =>
    refine h.one rfl hf (datas_setData ..) (fun hd' => ?_) (fun g _ => unread_saw on .panicked fun _ => rfl)
      fun _ _ hx => absurd hx (hcode hc rfl _)
    exact absurd (((fill_flags _ i).1.trans hd).symm.trans hd') Bool.noConfusion
  | entered on f a i sp x hc hf hd hr =>
    refine h.one rfl hf datas_entered (fun _ => ?_) (fun g hg => ?_) fun g k hx => ?_
    · show ((s.datas f).fill i).mail = unread f (.called (s.callOf on f i) :: s.trace)
      rw [unread, if_pos (by rfl), mail_fill, h.mail f hd]
      rfl
    · show unread g (.called (s.callOf on f i) :: s.trace) = _
      rw [unread, if_neg fun heq => hg heq.symm]
    · have hx' : x = ⟨some g, .yieldNow k⟩ := Ctl.at.inj hx
      rw [hx'] at hr
      exact ⟨_, _, rfl, (Option.some.inj hr.1).symm⟩
  | access on f q hc hf =>
    refine h.one rfl hf (datas_setData ..) (fun hd => ?_) (fun g _ => unread_saw on _ (without_access · _ q))
      fun _ _ hx => absurd hx (hcode hc rfl _)
    rw [mail_access]
    exact (h.mail f ((access_flags _ q).1.symm.trans hd)).trans (unread_saw on _ (without_access · _ q)).symm
  | outside o y hc hy => exact h.same rfl rfl (fun g => if_neg (Option.some_ne_none g).symm) (hcode hc rfl)
  | answered f q hc =>
    obtain ⟨a, c, cs, sp, ht⟩ := hw.running hc
    exact h.read rfl (hmade ht) (datas_setData ..) rfl (answer_flags _ q).1 (mail_answer _ q) (hcode hc rfl)
  | left f o a c cs sp d pc hc ht hd =>
    refine h.one rfl (hmade ht) datas_left (fun _ => ?_) (fun _ _ => rfl) fun _ _ hx => ?_
    · exact (mail_leave hd).trans (h.mail f ht.notDone)
    · cases congrArg Ctx.pc (Ctl.at.inj hx)
  | began f hc => exact h.same rfl rfl (fun _ => rfl) fun _ hx => by cases hx
  | woken f g k a c cs sp hc ht hg hn =>
    obtain rfl := hset.here hw hc hg hn
    exact h.read rfl (hmade ht) (datas_setData ..) rfl (by cases k <;> rfl) (mail_wake _ k) fun _ hx => by cases hx
  | lost f k p hc hp hm => exact absurd hm (hset.not_lost hw hc hp)
  | returned c cs a hc hact => exact h.same rfl rfl (fun _ => rfl) fun _ hx => by cases hx


/-! ### What was received -/

/-- A mailbox that the last resume call has filled holds its input, or nothing. -/
structure Kept (i : Option Input) (w : Mail) : Prop where
  any : ∀ v, i = some (.any v) → w.any = none ∨ w.any = some v
  u64 : ∀ n, i = some (.u64 n) → w.u64 = none ∨ w.u64 = some n

/-- It holds its input. -/
structure Filled (i : Option Input) (w : Mail) : Prop where
  any : ∀ v, i = some (.any v) → w.any = some v
  u64 : ∀ n, i = some (.u64 n) → w.u64 = some n

theorem filled_put (w : Mail) (i : Input) : Filled (some i) (w.put i) := by
  cases i with
  | none => exact ⟨nofun, nofun⟩
  | any v => exact ⟨fun _ h => congrArg some (Input.any.inj (Option.some.inj h)), nofun⟩
  | u64 n => exact ⟨nofun, fun _ h => congrArg some (Input.u64.inj (Option.some.inj h))⟩

theorem Filled.kept {i : Option Input} {w : Mail} (h : Filled i w) : Kept i w :=
  ⟨fun v hv => .inr (h.any v hv), fun n hn => .inr (h.u64 n hn)⟩

theorem Kept.without {i : Option Input} {w : Mail} (h : Kept i w) (y : Seen) : Kept i (w.without y) := by
  cases y with
  | input | taken => exact ⟨fun _ _ => .inl rfl, h.u64⟩
  | inputU64 | takenU64 => exact ⟨h.any, fun _ _ => .inl rfl⟩
  | _ => exact h

theorem kept_unread (f : Fid) : ∀ t : List Event, Kept (lastInput f t) (unread f t)
  | [] => ⟨nofun, nofun⟩
  | .called c :: t => by
    simp only [lastInput, lastCall, unread]
    split
    · exact (filled_put _ _).kept
    · exact kept_unread f t
  | .returned _ _ _ :: t => kept_unread f t
  | .saw on y :: t => by
    simp only [unread]
    split
    · exact (kept_unread f t).without y
    · exact kept_unread f t

theorem Mailed.filled (h : Mailed s) {k : Yield Addr} (hc : s.ctl = .at ⟨some f, .yieldNow k⟩) :
    Filled (lastInput f s.trace) (unread f s.trace) := by
  obtain ⟨c, t, ht, rfl⟩ := h.awake f k hc
  rw [ht, lastInput, lastCall, if_pos rfl, unread, if_pos rfl]
  exact filled_put _ _

/-- What is read from a mailbox; `woken` tells a yield that returns from a `take_input`. -/
def Mailbox.seen (w : Mail) (woken : Bool) : Mailbox → Seen
  | .any type => if woken then .input type (w.any.bind (·.downcast type)) else .taken type (w.any.bind (·.downcast type))
  | .u64 => if woken then .inputU64 w.u64 else .takenU64 w.u64

section
variable {i : Option Input} {w : Mail} {m : Mailbox} {woken : Bool}

theorem received_filled (hi : i.any (·.fills m) = true) (hk : Kept i w) (hw : woken = true → Filled i w) :
    Received i (m.seen w woken) := by
  obtain ⟨i, rfl, hfills⟩ := (Option.any_eq_true ..).mp hi
  cases m with
  | any type =>
    cases i with
    | any b =>
      cases woken with
      | true =>
        simp only [Mailbox.seen, if_true, Received]
        rw [(hw rfl).any b rfl]
        rfl
      | false =>
        intro x hx
        obtain hs | hs := hk.any b rfl
        · rw [hs] at hx
          cases hx
        · rw [hs] at hx
          exact ⟨b, rfl, hx⟩
    | _ => cases hfills
  | u64 =>
    cases i with
    | u64 n =>
      cases woken with
      | true =>
        simp only [Mailbox.seen, if_true, Received]
        rw [(hw rfl).u64 n rfl]
      | false =>
        intro x hx
        obtain hs | hs := hk.u64 n rfl
        · rw [hs] at hx
          cases hx
        · rw [hs] at hx
          rw [Option.some.inj hx]
    | _ => cases hfills

/-- What the last resume call has not passed in must not be there. -/
theorem received_unfilled (hi : i.any (·.fills m) = false) : Received i (m.seen w woken) ↔ w.holds m = false := by
  cases m with
  | any type =>
    have hne : ∀ b, i ≠ some (.any b) := by
      rintro b rfl
      cases hi
    simp only [Mail.holds, Option.isSome_eq_false_iff, Option.isNone_iff_eq_none]
    cases woken with
    | true =>
      simp only [Mailbox.seen, if_true, Received]
    | false =>
      refine ⟨fun h => Option.eq_none_iff_forall_ne_some.mpr fun x hx => ?_, fun h x hx => ?_⟩
      · obtain ⟨b, hb, -⟩ := h x hx
        exact hne b hb
      · rw [h] at hx
        cases hx
  | u64 =>
    have hne : ∀ n, i ≠ some (.u64 n) := by
      rintro n rfl
      cases hi
    simp only [Mail.holds, Option.isSome_eq_false_iff, Option.isNone_iff_eq_none]
    cases woken with
    | true =>
      simp only [Mailbox.seen, if_true, Received]
    | false =>
      refine ⟨fun h => Option.eq_none_iff_forall_ne_some.mpr fun x hx => hne x (h x hx), fun h x hx => ?_⟩
      rw [h] at hx
      cases hx

/-- What is read is right exactly when nothing older is unread. -/
theorem received_iff (hk : Kept i w) (hw : woken = true → Filled i w) :
    Received i (m.seen w woken) ↔ (w.holds m = true → i.any (·.fills m) = true) := by
  cases hi : i.any (·.fills m) with
  | true => exact iff_of_true (received_filled hi hk hw) fun _ => rfl
  | false => rw [received_unfilled hi, ← Bool.not_eq_true, imp_iff_not Bool.false_ne_true]

end

theorem received_access (i : Option Input) (d : Data) (q : Access) : Received i (d.access q).1 := by
  cases q with
  | takeYieldValue type =>
    simp only [Data.access, Data.takeYieldValue]
    split
    · trivial
    · split <;> trivial
  | _ => trivial

theorem delivered_saw (on : Option Fid) {y : Seen} (h : ∀ i, Received i y) : Delivered (.saw on y :: t) ↔ Delivered t := by
  cases on with
  | none => exact Iff.rfl
  | some f => exact and_iff_right (h _)

theorem clean_of_none (hr : s.reads o = none) : Clean s o := by
  intro f m hm
  rw [hr] at hm
  cases hm

/-- A step that reads a mailbox. -/
theorem clean_iff {m : Mailbox} (hr : s.reads o = some (f, m)) : Clean s o ↔
    ((unread f s.trace).holds m = true → (lastInput f s.trace).any (·.fills m) = true) := by
  refine ⟨fun h => h f m hr, fun h g m' hm => ?_⟩
  rw [hr] at hm
  cases hm
  exact h

/-- The answer to a call is right when the call is clean. -/
theorem Mailed.answer (h : Mailed s) (hc : s.ctl = .code (some f)) (hdone : (s.datas f).done = false) (q : Ask) :
    Received (lastInput f s.trace) ((s.datas f).answer q).1 ↔ Clean s (.ask q) := by
  have hread : ∀ m, s.reads (.ask q) = some (f, m) → ((s.datas f).answer q).1 = m.seen (s.datas f).mail false →
      (Received (lastInput f s.trace) ((s.datas f).answer q).1 ↔ Clean s (.ask q)) := by
    intro m hr hy
    rw [hy, h.mail f hdone, clean_iff hr]
    exact received_iff (kept_unread f s.trace) nofun
  cases q with
  | takeInput type => exact hread (.any type) (by simp only [State.reads, hc]) rfl
  | takeInputU64 => exact hread .u64 (by simp only [State.reads, hc]) rfl
  | _ => exact iff_of_true trivial (clean_of_none (by simp only [State.reads, hc]))

/-- So is what a yield returns. -/
theorem Mailed.wake (h : Mailed s) {k : Yield Addr} (hc : s.ctl = .at ⟨some f, .yieldNow k⟩) (hdone : (s.datas f).done = false) :
    Received (lastInput f s.trace) ((s.datas f).wake k).1 ↔ Clean s .go := by
  have hread : ∀ m, s.reads .go = some (f, m) → ((s.datas f).wake k).1 = m.seen (s.datas f).mail true →
      (Received (lastInput f s.trace) ((s.datas f).wake k).1 ↔ Clean s .go) := by
    intro m hr hy
    rw [hy, h.mail f hdone, clean_iff hr]
    exact received_iff (kept_unread f s.trace) fun _ => h.filled hc
  cases k with
  | now => exact iff_of_true trivial (clean_of_none (by simp only [State.reads, hc]))
  | value type p => exact hread (.any type) (by simp only [State.reads, hc]) rfl
  | u64 p => exact hread .u64 (by simp only [State.reads, hc]) rfl

theorem Mailed.stays_delivered (h : Mailed s) (hw : Wired s) (hset : Settled s o) (e : Effect s o s') :
    Delivered s'.trace ↔ Delivered s.trace ∧ Clean s o := by
  have hcode : ∀ {on}, s.ctl = .code on → (∀ q, o ≠ .ask q) → Clean s o := by
    intro on hc hq
    refine clean_of_none ?_
    cases o with
    | ask q => exact absurd rfl (hq q)
    | _ => simp only [State.reads, hc]
  cases e with
  | new on a hc | move on f a b hc ha | drop on f a hc ha => exact (and_iff_left (hcode hc nofun)).symm
  | refused on f i hc hf hd =>
    exact (delivered_saw on (y := .panicked) fun _ => trivial).trans (and_iff_left (hcode hc nofun)).symm
  | entered on f a i sp x hc hf hd hr => exact (and_iff_left (hcode hc nofun)).symm
  | access on f q hc hf =>
    exact (delivered_saw on (received_access · _ q)).trans (and_iff_left (hcode hc nofun)).symm
  | outside o y hc hy => exact (and_iff_left (clean_of_none (by cases o <;> simp only [State.reads, hc]))).symm
  | answered f q hc =>
    obtain ⟨a, c, cs, sp, ht⟩ := hw.running hc
    exact and_comm.trans (and_congr_right' (h.answer hc ht.notDone q))
  | left f o a c cs sp d pc hc ht hd =>
    refine (and_iff_left (hcode hc ?_)).symm
    rintro q rfl
    cases hd
  | began f hc => exact (and_iff_left (clean_of_none (by simp only [State.reads, hc]))).symm
  | woken f g k a c cs sp hc ht hg hn =>
    obtain rfl := hset.here hw hc hg hn
    exact and_comm.trans (and_congr_right' (h.wake hc ht.notDone))
  | lost f k p hc hp hm => exact absurd hm (hset.not_lost hw hc hp)
  | returned c cs a hc hact =>
    refine (and_iff_left (clean_of_none ?_)).symm
    simp only [State.reads, hc, Call.frame]
    cases c.caller <;> rfl

end

/-- Without moves: a run delivers to every yield what woke it, and nothing from an earlier resume call, exactly when
    what earlier calls put into a mailbox was read before the fiber reads it after a call that has put nothing there. -/
theorem delivered_iff (s : State) :
    Reachable (fun s o => o.moves = false ∧ Clean s o) s ↔ Reachable (fun _ o => o.moves = false) s ∧ Delivered s.trace := by
  have hsettled : ∀ {s o}, Reachable (fun _ o => o.moves = false) s → Settled s o := settled_of_moveless fun _ _ h => h
  have hmailed : ∀ {s}, Reachable (fun _ o => o.moves = false) s → Mailed s := by
    intro s h
    induction h with
    | refl => exact ⟨fun _ _ => rfl, fun _ _ => ⟨rfl, rfl⟩, nofun⟩
    | tail h _ hs ih => exact ih.step (wired_of_run h) (hsettled h) ((wired_of_run h).effect hs)
  have hstep : ∀ {s o s'}, Reachable (fun _ o => o.moves = false) s → step s o = some s' →
      (Delivered s'.trace ↔ Delivered s.trace ∧ Clean s o) :=
    fun h hs => (hmailed h).stays_delivered (wired_of_run h) (hsettled h) ((wired_of_run h).effect hs)
  constructor
  · intro h
    induction h with
    | refl => exact ⟨.refl, trivial⟩
    | tail h ho hs ih => exact ⟨ih.1.tail ho.1 hs, (hstep ih.1 hs).mpr ⟨ih.2, ho.2⟩⟩
  · rintro ⟨h, hd⟩
    induction h with
    | refl => exact .refl
    | tail h ho hs ih =>
      obtain ⟨hd, hclean⟩ := (hstep h hs).mp hd
      exact (ih hd).tail ⟨ho, hclean⟩ hs

/-- An input that the new fiber does not take: its first yield returns it, although a plain `resume` woke it. -/
theorem input_of_earlier_resume :
    ∃ s, Reachable (fun _ o => o.moves = false) s ∧ s.trace.head? = some (.saw (some 0) (.input 0 (some 1))) ∧
      lastInput 0 s.trace = some .none := by
  have hrun : (runActions step (fun _ o => o.moves = false) State.init
      [.new 4, .resume 0 (.any ⟨0, 1⟩), .go, .yieldValue ⟨0, 9⟩ 0, .go, .resume 0 .none, .go]).any (fun s =>
        s.trace.head? = some (.saw (some 0) (.input 0 (some 1))) ∧ lastInput 0 s.trace = some .none) = true := by
    decide +kernel
  obtain ⟨s, hs, hq⟩ := exists_of_runActions hrun
  exact ⟨s, hs, of_decide_eq_true hq⟩

end Krio.Fibers
