import Krio.Lib.Runs
import Krio.Parallel.DequeInv

/-! One deque under contention: an owner that pushes and pops in any order, any number of thieves, and
every interleaving of their accesses. A pushed value carries the number of its push, so that equal values
pushed twice are told apart. -/

namespace Krio.Parallel
open Lib

/-- A value together with the number of its push. -/
abbrev Pushed (β : Type) := ℕ × β

/-- The values of `pushed` that no operation has returned. -/
abbrev unreturned [DecidableEq β] (pushed : List (Pushed β)) (returned : List (Option (Pushed β))) : List (Pushed β) :=
  pushed.filter fun v => some v ∉ returned

/-- A deque, where its owner and the thieves are, and what was pushed and returned so far. -/
structure Contention (w : ℕ) (β : Type) where
  deque : Deque w (Pushed β)
  owner : OwnerPc w (Pushed β)
  thieves : ℕ → Option (Deque.StealPc w (Pushed β))
  attempts : ℕ
  /-- The values whose push returned `Ok`, in that order. -/
  pushed : List (Pushed β)
  /-- What pops and steals returned, newest first. -/
  returned : List (Option (Pushed β))

namespace Contention
variable {w : ℕ} {β : Type}

/-- The owner starts an operation or takes a step of it, or a thief does. -/
inductive Act (β : Type)
  | push (v : β)
  | pop
  | owner
  | steal (k : ℕ)
  | thief (k : ℕ)

def init (start : BitVec w) (cap : ℕ) : Contention w β where
  deque := Deque.withCapacity start cap
  owner := .idle
  thieves _ := none
  attempts := 0
  pushed := []
  returned := []

def stepPush (s : Contention w β) (v : Pushed β) (pc : Deque.PushPc w) : Contention w β :=
  match s.deque.push v pc with
  | (d, .next pc') => { s with deque := d, owner := .push v pc' }
  | (d, .ret ok) => { s with deque := d, owner := .idle, pushed := if ok then s.pushed ++ [v] else s.pushed }

def stepPop (s : Contention w β) (pc : Deque.PopPc w) : Contention w β :=
  match s.deque.pop pc with
  | (d, .next pc') => { s with deque := d, owner := .pop pc' }
  | (d, .ret none) => { s with deque := d, owner := .idle }
  | (d, .ret (some v)) => { s with deque := d, owner := .idle, returned := v :: s.returned }

def stepSteal (s : Contention w β) (k : ℕ) (pc : Deque.StealPc w (Pushed β)) : Contention w β :=
  match s.deque.steal pc with
  | (d, .next pc') => { s with deque := d, thieves := Function.update s.thieves k (some pc') }
  | (d, .ret none) => { s with deque := d, thieves := Function.update s.thieves k none }
  | (d, .ret (some v)) =>
    { s with deque := d, thieves := Function.update s.thieves k none, returned := v :: s.returned }

def step (s : Contention w β) : Act β → Option (Contention w β)
  | .push v =>
    match s.owner with
    | .idle => some { s with owner := .push (s.attempts, v) .loadBottom, attempts := s.attempts + 1 }
    | _ => none
  | .pop =>
    match s.owner with
    | .idle => some { s with owner := .pop .loadBottom }
    | _ => none
  | .owner =>
    match s.owner with
    | .idle => none
    | .push v pc => some (s.stepPush v pc)
    | .pop pc => some (s.stepPop pc)
  | .steal k =>
    match s.thieves k with
    | none => some { s with thieves := Function.update s.thieves k (some .loadTop) }
    | some _ => none
  | .thief k =>
    match s.thieves k with
    | none => none
    | some pc => some (s.stepSteal k pc)

/-- Less than a full turn of the index space goes by during a call of `steal`. -/
def NoWrap (s : Contention w β) : Act β → Prop
  | .thief k => ∀ pc ∈ s.thieves k, s.deque.inTime pc = true
  | _ => True

instance (s : Contention w β) (a : Act β) : Decidable (NoWrap s a) := by
  cases a <;> unfold NoWrap <;> infer_instance

/-- No operation is in progress. -/
def Quiescent (s : Contention w β) : Prop := s.owner = .idle ∧ ∀ k, s.thieves k = none

/-- The values that were pushed and not returned. -/
def remaining [DecidableEq β] (s : Contention w β) : List (Pushed β) := unreturned s.pushed s.returned

variable [DecidableEq β]

/-- Everything that was pushed is in the deque, in the owner's hand, or was returned, and only once. -/
structure Inv (s : Contention w β) (live : List (Pushed β)) : Prop where
  deque : s.deque.Inv live s.owner s.thieves
  remaining : live ++ s.deque.hand s.owner = s.remaining
  once : s.returned.Nodup
  returned : ∀ r ∈ s.returned, ∃ v ∈ s.pushed, r = some v
  order : s.pushed.Pairwise (·.1 < ·.1)
  numbered : ∀ v ∈ s.pushed, v.1 < s.attempts
  pushing : ∀ v pc, s.owner = .push v pc → v.1 < s.attempts ∧ ∀ u ∈ s.pushed, u.1 < v.1

variable {s s' : Contention w β} {live : List (Pushed β)} {v x : Pushed β}

omit [DecidableEq β] in
theorem nodup_of_order (h : s.pushed.Pairwise (·.1 < ·.1)) : s.pushed.Nodup :=
  h.imp fun hlt => by
    rintro rfl
    exact lt_irrefl _ hlt

omit [DecidableEq β] in
theorem filter_ne_of_nodup [DecidableEq β] {l₁ l₂ : List (Pushed β)} (h : (l₁ ++ x :: l₂).Nodup) :
    (l₁ ++ x :: l₂).filter (fun v => v ≠ x) = l₁ ++ l₂ := by
  have hx := (List.nodup_middle.mp h)
  rw [List.nodup_cons, List.mem_append, not_or] at hx
  rw [List.filter_append, List.filter_cons_of_neg (by simp), List.filter_eq_self.mpr, List.filter_eq_self.mpr]
  · intro y hy
    simpa using fun hyx : y = x => hx.1.2 (hyx ▸ hy)
  · intro y hy
    simpa using fun hyx : y = x => hx.1.1 (hyx ▸ hy)

/-- Returning a value that is still there keeps the account: it leaves what remains, and is returned for the
    first time. -/
theorem account_of_nodup {pushed l₁ l₂ : List (Pushed β)} {returned : List (Option (Pushed β))} (hnodup : pushed.Nodup)
    (honce : returned.Nodup) (hfrom : ∀ r ∈ returned, ∃ v ∈ pushed, r = some v)
    (hrem : pushed.filter (fun v => some v ∉ returned) = l₁ ++ x :: l₂) :
    pushed.filter (fun v => some v ∉ some x :: returned) = l₁ ++ l₂ ∧ (some x :: returned).Nodup ∧
      ∀ r ∈ some x :: returned, ∃ v ∈ pushed, r = some v := by
  have hx : x ∈ pushed.filter (fun v => some v ∉ returned) := by
    rw [hrem]
    exact List.mem_append_right _ List.mem_cons_self
  obtain ⟨hpush, hret⟩ := List.mem_filter.mp hx
  refine ⟨?_, List.nodup_cons.mpr ⟨by simpa using hret, honce⟩, ?_⟩
  · have hrest : (l₁ ++ x :: l₂).Nodup := hrem ▸ hnodup.filter _
    rw [← filter_ne_of_nodup hrest, ← hrem, List.filter_filter]
    refine List.filter_congr fun v _ => ?_
    simp [not_or]
  · intro r hr
    rcases List.mem_cons.mp hr with rfl | hr
    · exact ⟨x, hpush, rfl⟩
    · exact hfrom r hr

theorem Inv.account {l₁ l₂ : List (Pushed β)} (h : Inv s live) (hrem : s.remaining = l₁ ++ x :: l₂) :
    s.pushed.filter (fun v => some v ∉ some x :: s.returned) = l₁ ++ l₂ ∧ (some x :: s.returned).Nodup ∧
      ∀ r ∈ some x :: s.returned, ∃ v ∈ s.pushed, r = some v :=
  account_of_nodup (nodup_of_order h.order) h.once h.returned hrem

theorem Inv.stepPush {pc : Deque.PushPc w} (h : Inv s live) (ho : s.owner = .push v pc) :
    ∃ live', Inv (s.stepPush v pc) live' := by
  have hd := h.deque
  have hrem := h.remaining
  rw [ho] at hd hrem
  obtain ⟨hlt, hnew⟩ := h.pushing v pc ho
  unfold Contention.stepPush
  split
  · rename_i d pc' he
    refine ⟨live, hd.push_next he, hrem, h.once, h.returned, h.order, h.numbered, ?_⟩
    rintro u _ ⟨⟩
    exact ⟨hlt, hnew⟩
  · rename_i d ok he
    refine ⟨_, hd.push_ret he, ?_, h.once, ?_, ?_, ?_, by rintro u _ ⟨⟩⟩
    all_goals cases ok <;> simp only [Bool.false_eq_true, ↓reduceIte]
    · exact hrem
    · have hv : some v ∉ s.returned := by
        intro hv
        obtain ⟨u, hu, huv⟩ := h.returned _ hv
        cases huv
        exact lt_irrefl _ (hnew v hu)
      have hlive : live = s.pushed.filter fun v => some v ∉ s.returned := by
        simpa [Deque.hand, Contention.remaining, unreturned] using hrem
      show live ++ [v] ++ [] = (s.pushed ++ [v]).filter fun v => some v ∉ s.returned
      rw [List.filter_append, ← hlive, List.filter_cons_of_pos (by simpa using hv), List.filter_nil, List.append_nil]
    · exact h.returned
    · intro r hr
      obtain ⟨u, hu, hru⟩ := h.returned r hr
      exact ⟨u, List.mem_append_left _ hu, hru⟩
    · exact h.order
    · rw [List.pairwise_append]
      exact ⟨h.order, List.pairwise_singleton _ _, by simpa using fun a b hab => hnew (a, b) hab⟩
    · exact h.numbered
    · intro u hu
      rcases List.mem_append.mp hu with hu | hu
      · exact h.numbered u hu
      · cases List.mem_singleton.mp hu
        exact hlt

theorem Inv.stepPop {pc : Deque.PopPc w} (h : Inv s live) (ho : s.owner = .pop pc) :
    ∃ live', Inv (s.stepPop pc) live' := by
  have hd := h.deque
  have hrem := h.remaining
  rw [ho] at hd hrem
  unfold Contention.stepPop
  split
  · rename_i d pc' he
    obtain ⟨live', hd', hcase⟩ := hd.pop_next he
    have hhand : live' ++ d.hand (.pop pc') = live ++ s.deque.hand (.pop pc) := by
      rcases hcase with ⟨rfl, hsame⟩ | ⟨x, rfl, h₁, h₂⟩
      · rw [hsame]
      · rw [h₁, h₂, List.append_nil]
    exact ⟨live', hd', hhand.trans hrem, h.once, h.returned, h.order, h.numbered, by rintro u _ ⟨⟩⟩
  · rename_i d he
    obtain ⟨hd', hhand⟩ := hd.pop_none he
    rw [hhand] at hrem
    exact ⟨live, hd', hrem, h.once, h.returned, h.order, h.numbered, by rintro u _ ⟨⟩⟩
  · rename_i d r he
    obtain ⟨rfl, hd', x, rfl, hhand⟩ := hd.pop_some he
    rw [hhand] at hrem
    obtain ⟨h₁, h₂, h₃⟩ := h.account hrem.symm
    exact ⟨live, hd', h₁.symm, h₂, h₃, h.order, h.numbered, by rintro u _ ⟨⟩⟩

theorem Inv.stepSteal {k : ℕ} {pc : Deque.StealPc w (Pushed β)} (h : Inv s live) (hk : s.thieves k = some pc)
    (hwrap : s.deque.inTime pc = true) : ∃ live', Inv (s.stepSteal k pc) live' := by
  unfold Contention.stepSteal
  split
  · rename_i d pc' he
    obtain ⟨rfl, hd'⟩ := h.deque.steal_next hk he
    exact ⟨live, hd', h.remaining, h.once, h.returned, h.order, h.numbered, h.pushing⟩
  · rename_i d he
    obtain ⟨rfl, hd'⟩ := h.deque.steal_none (k := k) he
    exact ⟨live, hd', h.remaining, h.once, h.returned, h.order, h.numbered, h.pushing⟩
  · rename_i d r he
    obtain ⟨x, l, rfl, rfl, hd', hhand⟩ := h.deque.steal_some hk hwrap he
    obtain ⟨h₁, h₂, h₃⟩ := h.account (show s.remaining = [] ++ x :: _ from h.remaining.symm)
    refine ⟨l, hd', ?_, h₂, h₃, h.order, h.numbered, h.pushing⟩
    exact (congrArg (l ++ ·) hhand).trans h₁.symm

/-- Every step keeps the account. -/
theorem Inv.step {a : Act β} (h : Inv s live) (ha : NoWrap s a) (hs : step s a = some s') : ∃ live', Inv s' live' := by
  cases a with
  | push v =>
    simp only [Contention.step] at hs
    split at hs <;> cases hs
    rename_i ho
    have hd := h.deque
    have hrem := h.remaining
    rw [ho] at hd hrem
    refine ⟨live, ⟨hd.sized, hd.bounded, hd.slots, hd.owner, hd.thieves⟩, hrem, h.once, h.returned, h.order, ?_, ?_⟩
    · exact fun u hu => Nat.lt_succ_of_lt (h.numbered u hu)
    · rintro u _ ⟨⟩
      exact ⟨Nat.lt_succ_self _, h.numbered⟩
  | pop =>
    simp only [Contention.step] at hs
    split at hs <;> cases hs
    rename_i ho
    have hd := h.deque
    have hrem := h.remaining
    rw [ho] at hd hrem
    exact ⟨live, ⟨hd.sized, hd.bounded, hd.slots, hd.owner, hd.thieves⟩, hrem, h.once, h.returned, h.order, h.numbered,
      by rintro u _ ⟨⟩⟩
  | owner =>
    simp only [Contention.step] at hs
    split at hs <;> cases hs
    · exact h.stepPush ‹_›
    · exact h.stepPop ‹_›
  | steal k =>
    simp only [Contention.step] at hs
    split at hs <;> cases hs
    exact ⟨live, h.deque.thief_update (by rintro _ ⟨⟩; trivial), h.remaining, h.once, h.returned, h.order, h.numbered,
      h.pushing⟩
  | thief k =>
    simp only [Contention.step] at hs
    split at hs <;> cases hs
    exact h.stepSteal ‹_› (ha _ ‹_›)

theorem inv_of_run {start : BitVec w} {cap : ℕ} (hcap : Deque.capacityFor cap ≤ 2 ^ (w - 2))
    (h : Steps step NoWrap (init start cap) s) : ∃ live, Inv s live := by
  refine h.keeps (P := fun s => ∃ live, Inv s live) ?_ ?_
  · rintro s a s' ⟨live, hinv⟩ ha hs
    exact hinv.step ha hs
  · refine ⟨[], .new hcap, rfl, List.nodup_nil, ?_, List.Pairwise.nil, ?_, ?_⟩
    · rintro r ⟨⟩
    · rintro v ⟨⟩
    · rintro v pc ⟨⟩

/-- Exactly once: no push is returned twice, whatever is returned was pushed, and when no operation is in
    progress the slots from `top` to `bottom` hold what was pushed and not returned, in push order. -/
theorem deque_exactly_once {start : BitVec w} {cap : ℕ} (hcap : Deque.capacityFor cap ≤ 2 ^ (w - 2))
    (h : Steps step NoWrap (init start cap) s) :
    s.returned.Nodup ∧ (∀ r ∈ s.returned, ∃ v ∈ s.pushed, r = some v) ∧
      (Quiescent s → s.deque.contents = s.remaining.map some) := by
  obtain ⟨live, hinv⟩ := inv_of_run hcap h
  refine ⟨hinv.once, hinv.returned, fun hq => ?_⟩
  have hd := hinv.deque
  rw [hq.1] at hd
  rw [hd.contents_eq, ← hinv.remaining, hq.1]
  simp [Deque.hand]

/-- Two pushes across `isize::MAX`, a steal, and a pop that wins the race for the other value. -/
theorem deque_exactly_once_crossing :
    ∃ s : Contention 64 ℕ, Steps step NoWrap (init (BitVec.intMax 64) 2) s ∧
      s.returned = [some (1, 8), some (0, 7)] ∧ s.returned.Nodup ∧
      (Quiescent s → s.deque.contents = s.remaining.map some) := by
  have hrun : ((runActions step NoWrap (init (BitVec.intMax 64) 2 : Contention 64 ℕ)
      ([.push 7] ++ List.replicate 4 .owner ++ [.push 8] ++ List.replicate 4 .owner ++ [.steal 0] ++
        List.replicate 4 (.thief 0) ++ [.pop] ++ List.replicate 6 .owner)).any fun s =>
      decide (s.returned = [some (1, 8), some (0, 7)])) = true := by decide +kernel
  obtain ⟨s, hs, hq⟩ := exists_of_runActions hrun
  obtain ⟨hnodup, -, hrest⟩ := deque_exactly_once (by decide +kernel) hs
  exact ⟨s, hs, of_decide_eq_true hq, hnodup, hrest⟩

end Contention

end Krio.Parallel
