import Krio.Parallel.DequeInv

/-! The deque with nobody interfering is a bounded double-ended list. The indices are words that wrap, at any
place of the run and any number of times; the list is what lies between `top` and `bottom` by their wrapping
difference. -/

namespace Krio.Parallel
open Lib

/-- A sequential operation. -/
inductive DequeOp (α : Type)
  | push (value : α)
  | pop
  | steal
  | len
  deriving DecidableEq

/-- What an operation returns: the value that a push hands back, the bits that a pop or a steal took, a length. -/
inductive DequeResult (α : Type)
  | pushed (back : Option α)
  | taken (value : Option (Option α))
  | length (n : ℕ)
  deriving DecidableEq

/-- What an operation does to a list of at most `c` elements. -/
def DequeOp.onList {α : Type} (c : ℕ) (l : List α) : DequeOp α → List α × DequeResult α
  | .push v => if l.length < c then (l ++ [v], .pushed none) else (l, .pushed (some v))
  | .pop => (l.dropLast, .taken (l.getLast?.map some))
  | .steal => (l.tail, .taken (l.head?.map some))
  | .len => (l, .length l.length)

/-- A sequence of operations on a list, with what they return. -/
def DequeOp.runList {α : Type} (c : ℕ) (l : List α) : List (DequeOp α) → List α × List (DequeResult α)
  | [] => (l, [])
  | op :: ops => ((runList c (op.onList c l).1 ops).1, (op.onList c l).2 :: (runList c (op.onList c l).1 ops).2)

namespace Deque
variable {w : ℕ} {α : Type}

/-- An operation on the deque, run to its return. -/
def apply (d : Deque w α) : DequeOp α → Option (Deque w α × DequeResult α)
  | .push v => (runCall (push v) 4 d .loadBottom).map fun (d, ok) => (d, .pushed (if ok then none else some v))
  | .pop => (runCall pop 6 d .loadBottom).map fun (d, r) => (d, .taken r)
  | .steal => (runCall steal 4 d .loadTop).map fun (d, r) => (d, .taken r)
  | .len => some (d, .length (lenOf d.bottom d.top))

/-- A sequence of operations on the deque, with what they return. -/
def run (d : Deque w α) : List (DequeOp α) → Option (Deque w α × List (DequeResult α))
  | [] => some (d, [])
  | op :: ops => (d.apply op).bind fun (d, r) => (d.run ops).map fun (d, rs) => (d, r :: rs)

/-- `drop` releases `n` slots from index `i` on. -/
def release (d : Deque w α) : ℕ → BitVec w → List (Option α)
  | 0, _ => []
  | n + 1, i => d.read i :: d.release n (i + 1)

/-- The slots that `drop` releases, in order. -/
def drop (d : Deque w α) : List (Option α) := d.release (lenOf d.bottom d.top) d.top

/-- A deque that holds `l`, with no operation in progress. -/
def Holds (d : Deque w α) (l : List α) : Prop := d.Inv l .idle fun _ : Empty => none

section
variable {d : Deque w α} {l : List α} {v x : α}

/-- A deque whose owner is between its operations holds what the owner and the thieves know it holds. -/
theorem Inv.holds {ι : Type} {o : OwnerPc w α} {th : ι → Option (StealPc w α)} (h : d.Inv l o th)
    (ho : o.resting = true) : d.Holds l := by
  have hrest : d.Inv l .idle th := h.rest ho rfl
  exact ⟨hrest.sized, hrest.bounded, hrest.slots, hrest.owner, by rintro ⟨⟩⟩

theorem Holds.len (h : d.Holds l) : (d.bottom - d.top).toInt = l.length := by
  rw [show d.bottom = d.after l.length from h.owner, after_sub_top, h.sized.toInt h.bounded]

theorem Holds.lenOf (h : d.Holds l) : lenOf d.bottom d.top = l.length := by
  rw [Deque.lenOf, h.len]
  omega

/-- A deque with the same slots whose indices delimit another part of them. -/
theorem Holds.of_eq {e : Deque w α} {r : List α} (h : d.Holds l) (hbuf : e.buf.length = d.buf.length)
    (hlen : r.length ≤ d.capacity) (hbottom : e.bottom = e.after r.length)
    (hslots : ∀ i x, r[i]? = some x → e.read (e.after i) = some x) : e.Holds r := by
  refine ⟨h.sized.of_buf hbuf, ?_, hslots, hbottom, by rintro ⟨⟩⟩
  rw [capacity, hbuf]
  exact hlen

/-- A full deque hands the value back. -/
theorem Holds.push_full (h : d.Holds l) (hfull : d.capacity ≤ l.length) :
    runCall (push v) 4 d .loadBottom = some (d, false) := by
  have hge : (d.bottom - d.top).toInt ≥ d.capacity := by
    rw [h.len]
    exact_mod_cast hfull
  rw [runCall_next rfl, runCall_ret (by rw [Deque.push, if_pos hge])]

theorem Holds.push (h : d.Holds l) (hlt : l.length < d.capacity) :
    ∃ d', runCall (push v) 4 d .loadBottom = some (d', true) ∧ d'.Holds (l ++ [v]) ∧ d'.capacity = d.capacity := by
  have hnot : ¬(d.bottom - d.top).toInt ≥ d.capacity := by
    rw [h.len]
    exact_mod_cast hlt.not_ge
  have hseen : Deque.push v d (.loadTop d.bottom) = (d, .next (.write d.bottom)) := by rw [Deque.push, if_neg hnot]
  have h₁ : Inv d l (.push v .loadBottom) fun _ : Empty => none := h.rest rfl rfl
  have h₂ := (h₁.push_next rfl).push_next hseen
  have hpub (d : Deque w α) (b) : Deque.push v d (.publish b) = ({ d with bottom := b + 1 }, .ret true) := rfl
  have h₃ := (h₂.push_next rfl).push_ret (hpub ..)
  refine ⟨_, ?_, h₃, by simp [capacity, write]⟩
  rw [runCall_next rfl, runCall_next hseen, runCall_next rfl, runCall_ret rfl]

/-- `pop` of an empty deque leaves it as it was. -/
theorem Holds.pop_nil (h : d.Holds []) : runCall pop 6 d .loadBottom = some (d, none) := by
  have hb : d.bottom = d.top := by
    rw [← after_zero d]
    exact h.owner
  have hlen : (d.bottom - 1 - d.top).toInt < 0 := by
    rw [show d.bottom - 1 - d.top = -1 by grind, toInt_neg_one h.sized.pos]
    decide
  have hback : { d with bottom := d.bottom - 1 + 1 } = d := by
    rw [show d.bottom - 1 + 1 = d.bottom by grind]
  rw [runCall_next rfl, runCall_next rfl, runCall_next (by rw [Deque.pop, if_pos hlen]), runCall_ret rfl]
  exact congrArg (fun d => some (d, none)) hback

theorem Holds.pop (h : d.Holds (l ++ [x])) :
    ∃ d', runCall pop 6 d .loadBottom = some (d', some (some x)) ∧ d'.Holds l ∧ d'.capacity = d.capacity := by
  have hb : d.bottom - 1 = d.after l.length := by
    have : d.bottom = d.after (l ++ [x]).length := h.owner
    rw [this, List.length_append, List.length_singleton, after_succ]
    grind
  have hcap : l.length + 1 ≤ d.capacity := by simpa using h.bounded
  have hlen : (d.bottom - 1 - d.top).toInt = l.length := by rw [hb, after_sub_top, h.sized.toInt (by omega)]
  have hread : d.read (d.bottom - 1) = some x := hb ▸ h.last
  have hslots : ∀ i y, l[i]? = some y → d.read (d.after i) = some y := fun i y hi =>
    h.slots i y (by rw [List.getElem?_append_left (List.getElem?_eq_some_iff.mp hi).1, hi])
  have hnot : ¬(d.bottom - 1 - d.top).toInt < 0 := by omega
  by_cases hz : (d.bottom - 1 - d.top).toInt = 0
  · -- The last value: the race for it is won.
    obtain rfl : l = [] := List.eq_nil_of_length_eq_zero (by omega)
    have htop : d.bottom - 1 = d.top := hb.trans (after_zero d)
    have hrace : Deque.pop { d with bottom := d.bottom - 1 } (.race (d.bottom - 1) d.top) =
        ({ d with top := d.top + 1, bottom := d.bottom - 1, wins := d.wins + 1 }, .next (.settle (d.bottom - 1) true)) := by
      rw [Deque.pop, casTop, if_pos rfl]
    refine ⟨{ d with top := d.top + 1, bottom := d.bottom - 1 + 1, wins := d.wins + 1 }, ?_,
      h.of_eq rfl (Nat.zero_le _) ?_ (by simp), rfl⟩
    · rw [runCall_next rfl, runCall_next rfl, runCall_next (by rw [Deque.pop, if_neg hnot, if_pos hz]),
        runCall_next hrace, runCall_next rfl, runCall_ret rfl]
      exact congrArg (fun v => some (_, some v)) hread
    · rw [List.length_nil, after_zero, htop]
  · refine ⟨{ d with bottom := d.bottom - 1 }, ?_, h.of_eq rfl (by omega) hb hslots, rfl⟩
    rw [runCall_next rfl, runCall_next rfl, runCall_next (by rw [Deque.pop, if_neg hnot, if_neg hz]), runCall_ret rfl]
    exact congrArg (fun v => some (_, some v)) hread

/-- `steal` from an empty deque leaves it as it was. -/
theorem Holds.steal_nil (h : d.Holds []) : runCall steal 4 d .loadTop = some (d, none) := by
  have hlen : (d.bottom - d.top).toInt ≤ 0 := h.len.le
  rw [runCall_next rfl, runCall_ret (by rw [Deque.steal, if_pos hlen])]

theorem Holds.steal (h : d.Holds (x :: l)) :
    ∃ d', runCall steal 4 d .loadTop = some (d', some (some x)) ∧ d'.Holds l ∧ d'.capacity = d.capacity := by
  have hlen : ¬(d.bottom - d.top).toInt ≤ 0 := by
    rw [h.len, List.length_cons]
    omega
  have hread : d.read d.top = some x := by
    rw [← after_zero d]
    exact h.slots 0 x rfl
  refine ⟨{ d with top := d.top + 1, wins := d.wins + 1 }, ?_, h.of_eq rfl ?_ ?_ ?_, rfl⟩
  · rw [runCall_next rfl, runCall_next (by rw [Deque.steal, if_neg hlen]), runCall_next rfl,
      runCall_ret (by rw [Deque.steal, casTop, if_pos rfl])]
    exact congrArg (fun v => some (_, some v)) hread
  · have := h.bounded
    rw [List.length_cons] at this
    omega
  · exact (show d.bottom = d.after (l.length + 1) from h.owner).trans (after_advance rfl l.length).symm
  · intro i y hi
    rw [after_advance rfl i]
    exact h.slots (i + 1) y hi

/-- `pop` with nobody interfering returns `None` only from an empty deque, and leaves that as it was. -/
theorem Holds.of_pop_none {d' : Deque w α} (h : d.Holds l) (hpop : runCall Deque.pop 6 d .loadBottom = some (d', none)) :
    l = [] ∧ d' = d := by
  rcases List.eq_nil_or_concat' l with rfl | ⟨l, x, rfl⟩
  · rw [h.pop_nil] at hpop
    cases hpop
    exact ⟨rfl, rfl⟩
  · obtain ⟨d₁, hd₁, -⟩ := h.pop
    rw [hd₁] at hpop
    cases hpop

/-- So does `steal`. -/
theorem Holds.of_steal_none {d' : Deque w α} (h : d.Holds l) (hsteal : runCall Deque.steal 4 d .loadTop = some (d', none)) :
    l = [] ∧ d' = d := by
  cases l with
  | nil =>
    rw [h.steal_nil] at hsteal
    cases hsteal
    exact ⟨rfl, rfl⟩
  | cons x l =>
    obtain ⟨d₁, hd₁, -⟩ := h.steal
    rw [hd₁] at hsteal
    cases hsteal

/-- A call with nobody interfering returns. -/
theorem Holds.pop_returns (h : d.Holds l) : ∃ x, runCall Deque.pop 6 d .loadBottom = some x := by
  rcases List.eq_nil_or_concat' l with rfl | ⟨l, x, rfl⟩
  · exact ⟨_, h.pop_nil⟩
  · obtain ⟨d', hd', -⟩ := h.pop
    exact ⟨_, hd'⟩

theorem Holds.steal_returns (h : d.Holds l) : ∃ x, runCall Deque.steal 4 d .loadTop = some x := by
  cases l with
  | nil => exact ⟨_, h.steal_nil⟩
  | cons x l =>
    obtain ⟨d', hd', -⟩ := h.steal
    exact ⟨_, hd'⟩

/-- Only its claim, which returns, writes to the deque. -/
theorem deque_of_steal_next {pc pc' : StealPc w α} {d' : Deque w α} (he : Deque.steal d pc = (d', .next pc')) : d' = d := by
  cases pc <;> simp only [Deque.steal] at he
  case loadBottom => split at he <;> cases he; rfl
  all_goals cases he <;> rfl

/-- An operation does to the deque what it does to the list, and keeps the capacity. -/
theorem Holds.apply (h : d.Holds l) (op : DequeOp α) :
    ∃ d', d.apply op = some (d', (op.onList d.capacity l).2) ∧ d'.Holds (op.onList d.capacity l).1 ∧
      d'.capacity = d.capacity := by
  cases op with
  | push v =>
    rw [DequeOp.onList]
    by_cases hlt : l.length < d.capacity
    · obtain ⟨d', hd', hh, hcap⟩ := h.push (v := v) hlt
      rw [if_pos hlt]
      exact ⟨d', by rw [Deque.apply, hd']; rfl, hh, hcap⟩
    · rw [if_neg hlt]
      exact ⟨d, by rw [Deque.apply, h.push_full (not_lt.mp hlt)]; rfl, h, rfl⟩
  | pop =>
    rcases List.eq_nil_or_concat' l with rfl | ⟨l, x, rfl⟩
    · exact ⟨d, by rw [Deque.apply, h.pop_nil]; rfl, h, rfl⟩
    · obtain ⟨d', hd', hh, hcap⟩ := h.pop
      exact ⟨d', by rw [Deque.apply, hd']; simp [DequeOp.onList], by simpa [DequeOp.onList] using hh, hcap⟩
  | steal =>
    cases l with
    | nil => exact ⟨d, by rw [Deque.apply, h.steal_nil]; rfl, h, rfl⟩
    | cons x l =>
      obtain ⟨d', hd', hh, hcap⟩ := h.steal
      exact ⟨d', by rw [Deque.apply, hd']; rfl, hh, hcap⟩
  | len => exact ⟨d, by rw [Deque.apply, h.lenOf]; rfl, h, rfl⟩

theorem Holds.run (h : d.Holds l) (ops : List (DequeOp α)) :
    ∃ d', d.run ops = some (d', (DequeOp.runList d.capacity l ops).2) ∧ d'.Holds (DequeOp.runList d.capacity l ops).1 := by
  induction ops generalizing d l with
  | nil => exact ⟨d, rfl, h⟩
  | cons op ops ih =>
    obtain ⟨d₁, hd₁, h₁, hcap⟩ := h.apply op
    obtain ⟨d₂, hd₂, h₂⟩ := ih h₁
    rw [hcap] at hd₂ h₂
    refine ⟨d₂, ?_, h₂⟩
    rw [Deque.run, hd₁, Option.bind_some]
    exact congrArg (Option.map _) hd₂

theorem Holds.release (h : d.Holds l) {r : List α} {i : ℕ} (hr : l.drop i = r) :
    d.release r.length (d.after i) = r.map some := by
  induction r generalizing i with
  | nil => rfl
  | cons x r ih =>
    have hx : l[i]? = some x := by
      rw [← List.head?_drop, hr]
      rfl
    have hrest : l.drop (i + 1) = r := by rw [← List.tail_drop, hr, List.tail_cons]
    rw [List.length_cons, Deque.release, h.slots i x hx, ← after_succ, ih hrest]
    rfl

/-- `drop` releases what is in the deque, each value once. -/
theorem Holds.drop (h : d.Holds l) : d.drop = l.map some := by
  have := h.release (r := l) (i := 0) rfl
  rwa [Deque.drop, h.lenOf, ← after_zero d]

theorem holds_withCapacity {start : BitVec w} {cap : ℕ} (h : capacityFor cap ≤ 2 ^ (w - 2)) :
    (withCapacity start cap : Deque w α).Holds [] := .new h

/-- A capacity asked for up to a quarter of the index space is rounded up to at most that. -/
theorem capacityFor_le {cap : ℕ} (hw : 3 ≤ w) (hcap : cap ≤ 2 ^ (w - 2)) : capacityFor cap ≤ 2 ^ (w - 2) := by
  have htwo : 2 ^ 1 ≤ 2 ^ (w - 2) := Nat.pow_le_pow_right (by decide) (by omega)
  refine max_le ?_ htwo
  unfold nextPowerOfTwo
  split
  · omega
  · have hlog : (cap - 1).log2 < w - 2 := (Nat.log2_lt (by omega)).mpr (by omega)
    exact Nat.pow_le_pow_right (by decide) hlog

/-- The deque is a bounded list: whatever the indices start from, every sequence of operations returns what it
    returns on a list of the deque's capacity, and `drop` then releases what is left in the list. -/
theorem deque_is_bounded_list (hw : 3 ≤ w) (start : BitVec w) {cap : ℕ} (hcap : cap ≤ 2 ^ (w - 2))
    (ops : List (DequeOp α)) :
    ∃ d : Deque w α, (withCapacity start cap).run ops = some (d, (DequeOp.runList (capacityFor cap) [] ops).2) ∧
      d.drop = (DequeOp.runList (capacityFor cap) [] ops).1.map some := by
  have hlen : (withCapacity start cap : Deque w α).capacity = capacityFor cap := by simp [withCapacity, capacity]
  have hnew : (withCapacity start cap : Deque w α).Holds [] := holds_withCapacity (capacityFor_le hw hcap)
  obtain ⟨d, hd, hh⟩ := hnew.run ops
  rw [hlen] at hd hh
  exact ⟨d, hd, hh.drop⟩

/-- The indices cross the largest value of a 32-bit word between the second and the third push. -/
theorem deque_is_bounded_list_crossing :
    ∃ d : Deque 32 ℕ, (withCapacity 0x7ffffffd#32 4).run [.push 1, .push 2, .push 3, .len, .steal, .pop] =
        some (d, [.pushed none, .pushed none, .pushed none, .length 3, .taken (some (some 1)), .taken (some (some 3))]) ∧
      d.drop = [some 2] :=
  deque_is_bounded_list (by decide) 0x7ffffffd#32 (by decide) [.push 1, .push 2, .push 3, .len, .steal, .pop]

end

end Deque

end Krio.Parallel
