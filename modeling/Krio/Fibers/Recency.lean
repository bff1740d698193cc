import Krio.Fibers.StackPool

/-! The order in which a thread's pool gives its stacks back. A take fills the gap it leaves with the last stack of
the pool, which then lies before younger and older ones alike. -/

namespace Krio.Fibers
open Lib

/-- A call on the pool of a thread. -/
inductive PoolCall
  | park (s : Stack)
  | take (usableLen : ℕ)
  deriving DecidableEq, Repr

def Stack.parked (s : Stack) : Parked := ⟨s.base, s.totalBytes, s.usableStart, s.usableLen⟩

/-- The pool of a thread. The number beside a stack tells which call parked it, and is no part of the pool. -/
structure Dated where
  entries : List (ℕ × Parked)
  calls : ℕ
  deriving DecidableEq, Repr

namespace Dated

def start : Dated := ⟨[], 0⟩

/-- What the thread keeps. -/
def pool (d : Dated) : List Parked := d.entries.map (·.2)

/-- The index of the stack that a take removes. -/
def found (d : Dated) (usableLen : ℕ) : Option ℕ := rposition (·.usableLen = usableLen) d.pool

def step (d : Dated) : PoolCall → Dated
  | .park s => ⟨if (Fibers.park (some d.pool) s).isSome then d.entries ++ [(d.calls, s.parked)] else d.entries, d.calls + 1⟩
  | .take usableLen => ⟨(d.found usableLen).elim d.entries (swapRemove d.entries), d.calls + 1⟩

def run (calls : List PoolCall) : Dated := calls.foldl step start

/-- A take of this length returns the stack of the length that was parked last, and none only when there is none. -/
def TakesLatest (d : Dated) (usableLen : ℕ) : Prop :=
  match take d.pool usableLen with
  | none => ∀ e ∈ d.entries, e.2.usableLen ≠ usableLen
  | some (s, _) => ∃ e, d.entries.Perm (e :: (d.step (.take usableLen)).entries) ∧ s.parked = e.2 ∧ e.2.usableLen = usableLen ∧
      ∀ e' ∈ d.entries, e'.2.usableLen = usableLen → e'.1 ≤ e.1

end Dated

/-- Behind the stack that a take of this length finds, no other has the length of the pool's last one. -/
def Undisturbed (pool : List Parked) (usableLen : ℕ) : Prop :=
  ∀ ys x zs z, pool = ys ++ x :: (zs ++ [z]) → x.usableLen = usableLen → (∀ y ∈ zs ++ [z], y.usableLen ≠ usableLen) →
    ∀ y ∈ zs, y.usableLen ≠ z.usableLen

namespace Dated
variable {d : Dated} {n : ℕ}

/-- The pool changes as the code changes it. -/
theorem step_pool_park (d : Dated) (s : Stack) : (d.step (.park s)).pool = (Fibers.park (some d.pool) s).getD d.pool := by
  show (if (Fibers.park (some d.pool) s).isSome then d.entries ++ [(d.calls, s.parked)] else d.entries).map (·.2) = _
  by_cases hfull : maxParked ≤ d.pool.length
  · have hpark : Fibers.park (some d.pool) s = none := if_pos hfull
    rw [hpark]
    rfl
  · have hpark : Fibers.park (some d.pool) s = some (d.pool ++ [s.parked]) := if_neg hfull
    rw [hpark, Option.isSome_some, if_pos rfl, List.map_append]
    rfl

theorem step_pool_take (d : Dated) (n : ℕ) :
    (d.step (.take n)).pool = ((Fibers.take d.pool n).map (·.2)).getD d.pool := by
  show ((d.found n).elim d.entries (swapRemove d.entries)).map (·.2) = _
  rw [Fibers.take, found]
  cases hi : rposition (·.usableLen = n) d.pool with
  | none => rfl
  | some i =>
    obtain ⟨ys, x, zs, hpool, rfl, -⟩ := rposition_eq_some hi
    have hx : d.pool[ys.length]? = some x := by
      rw [hpool, List.getElem?_append_right le_rfl, Nat.sub_self, List.getElem?_cons_zero]
    rw [Option.elim_some, Option.bind_some, hx]
    exact (swapRemove_map _ _ _).symm

/-- Of two stacks of one length, the one that was parked later lies behind. -/
structure Ordered (d : Dated) : Prop where
  sorted : d.entries.Pairwise fun a b => a.2.usableLen = b.2.usableLen → a.1 < b.1
  past : ∀ e ∈ d.entries, e.1 < d.calls

theorem take_none (h : take d.pool n = none) : ∀ e ∈ d.entries, e.2.usableLen ≠ n := by
  intro e he
  cases hi : rposition (·.usableLen = n) d.pool with
  | none => exact of_decide_eq_false (rposition_eq_none hi e.2 (List.mem_map_of_mem he))
  | some i =>
    obtain ⟨ys, x, zs, hpool, rfl, -⟩ := rposition_eq_some hi
    simp only [take, hi, Option.bind_some, Option.map_eq_none_iff] at h
    rw [hpool, List.getElem?_append_right le_rfl, Nat.sub_self] at h
    cases h

/-- What a take removes, and what it leaves. -/
theorem take_some {s : Stack} {rest : List Parked} (h : take d.pool n = some (s, rest)) :
    ∃ ys e zs, d.entries = ys ++ e :: zs ∧ e.2.usableLen = n ∧ (∀ z ∈ zs, z.2.usableLen ≠ n) ∧ s.parked = e.2 ∧
      (d.step (.take n)).entries = ys ++ lastFirst zs := by
  obtain ⟨i, hi, h⟩ := Option.bind_eq_some_iff.mp h
  obtain ⟨y, hy, heq⟩ := Option.map_eq_some_iff.mp h
  obtain ⟨rfl, -⟩ := Prod.mk.inj heq
  obtain ⟨ys, x, zs, hpool, hlen, hx, hzs⟩ := rposition_eq_some hi
  have hout : (d.step (.take n)).entries = swapRemove d.entries i := by
    simp only [step, found, hi, Option.elim_some]
  rw [hpool, ← hlen, List.getElem?_append_right le_rfl, Nat.sub_self, List.getElem?_cons_zero] at hy
  obtain rfl := Option.some.inj hy
  obtain ⟨ys', tail, hentries, hys, htail⟩ := List.map_eq_append_iff.mp hpool
  obtain ⟨e, zs', rfl, rfl, hzs'⟩ := List.map_eq_cons_iff.mp htail
  refine ⟨ys', e, zs', hentries, of_decide_eq_true hx, fun z hz => ?_, rfl, ?_⟩
  · exact of_decide_eq_false (hzs z.2 (hzs' ▸ List.mem_map_of_mem hz))
  · rw [hout, hentries, ← hlen, ← hys, List.length_map, swapRemove_append_cons]

namespace Ordered

theorem takesLatest (h : d.Ordered) (n : ℕ) : d.TakesLatest n := by
  rw [TakesLatest]
  split
  · rename_i hnone
    exact take_none hnone
  · rename_i s rest hsome
    obtain ⟨ys, e, zs, hentries, hlen, hzs, hs, hout⟩ := take_some hsome
    have hsorted := h.sorted
    rw [hentries] at hsorted ⊢
    refine ⟨e, ?_, hs, hlen, fun e' he' hlen' => ?_⟩
    · rw [hout]
      exact List.perm_middle.trans (((lastFirst_perm zs).symm.append_left ys).cons e)
    · rcases List.mem_append.mp he' with hys | htail
      · exact ((List.pairwise_append.mp hsorted).2.2 e' hys e List.mem_cons_self (hlen'.trans hlen.symm)).le
      · rcases List.mem_cons.mp htail with rfl | hz
        · exact le_rfl
        · exact absurd hlen' (hzs e' hz)

theorem park (h : d.Ordered) (s : Stack) : (d.step (.park s)).Ordered := by
  have hpast : ∀ e ∈ d.entries, e.1 < d.calls + 1 := fun e he => (h.past e he).trans (Nat.lt_succ_self _)
  simp only [step]
  split
  · refine ⟨List.pairwise_append.mpr ⟨h.sorted, List.pairwise_singleton _ _, fun a ha b hb _ => ?_⟩, fun e he => ?_⟩
    · rw [List.mem_singleton.mp hb]
      exact h.past a ha
    · rcases List.mem_append.mp he with he | he
      · exact hpast e he
      · rw [List.mem_singleton.mp he]
        exact Nat.lt_succ_self _
  · exact ⟨h.sorted, hpast⟩

/-- A take that finds nothing leaves the entries, and another one shortens them from behind unless a last stack moves
    forward. -/
theorem take (h : d.Ordered) (hn : Undisturbed d.pool n) : (d.step (.take n)).Ordered := by
  cases htake : Fibers.take d.pool n with
  | none =>
    have hnone : d.found n = none := by
      cases hi : d.found n with
      | none => rfl
      | some i =>
        obtain ⟨ys, x, zs, hpool, rfl, hx, -⟩ := rposition_eq_some hi
        obtain ⟨e, he, rfl⟩ := List.mem_map.mp (hpool ▸ List.mem_append_right ys List.mem_cons_self)
        exact absurd (of_decide_eq_true hx) (take_none htake e he)
    simp only [step, hnone, Option.elim_none]
    exact ⟨h.sorted, fun e he => (h.past e he).trans (Nat.lt_succ_self _)⟩
  | some out =>
    obtain ⟨ys, e, zs, hentries, hlen, hzs, -, hout⟩ := take_some htake
    have hsorted := h.sorted
    have hpast := h.past
    rw [hentries] at hsorted hpast
    obtain ⟨hys, htail, hcross⟩ := List.pairwise_append.mp hsorted
    rw [List.pairwise_cons] at htail
    refine ⟨?_, fun e' he' => ?_⟩
    · rw [hout]
      refine List.pairwise_append.mpr ⟨hys, ?_, fun a ha b hb =>
        hcross a ha b (List.mem_cons_of_mem _ ((lastFirst_perm zs).mem_iff.mp hb))⟩
      obtain rfl | ⟨ws, z, rfl⟩ := zs.eq_nil_or_concat
      · exact List.Pairwise.nil
      · rw [List.concat_eq_append] at htail hzs hentries ⊢
        rw [lastFirst_concat]
        refine List.pairwise_cons.mpr ⟨fun w hw heq => ?_, (List.pairwise_append.mp htail.2).1⟩
        have hpool : d.pool = ys.map (·.2) ++ e.2 :: (ws.map (·.2) ++ [z.2]) := by simp [pool, hentries]
        refine absurd heq.symm (hn _ _ _ _ hpool hlen ?_ w.2 (List.mem_map_of_mem hw))
        intro y hy
        have hmem : y ∈ (ws ++ [z]).map (·.2) := by simpa using hy
        obtain ⟨a, ha, rfl⟩ := List.mem_map.mp hmem
        exact hzs a ha
    · rw [hout] at he'
      have hmem : e' ∈ ys ++ e :: zs := by
        rcases List.mem_append.mp he' with he' | he'
        · exact List.mem_append_left _ he'
        · exact List.mem_append_right _ (List.mem_cons_of_mem _ ((lastFirst_perm zs).mem_iff.mp he'))
      exact (hpast e' hmem).trans (Nat.lt_succ_self _)

/-- A last stack that moves before another one of its length is not the next to be taken of them. -/
theorem undisturbed (h : d.Ordered) (hall : ∀ m, (d.step (.take n)).TakesLatest m) : Undisturbed d.pool n := by
  intro ys x zs z hpool hx hbehind y hy heq
  obtain ⟨ys', tail, hentries, rfl, htail⟩ := List.map_eq_append_iff.mp hpool
  obtain ⟨e, rest, rfl, rfl, hrest⟩ := List.map_eq_cons_iff.mp htail
  obtain ⟨ws, last, rfl, rfl, hlast⟩ := List.map_eq_append_iff.mp hrest
  obtain ⟨l, rest, rfl, rfl, hnil⟩ := List.map_eq_cons_iff.mp hlast
  obtain rfl := List.map_eq_nil_iff.mp hnil
  have hfound : d.found n = some ys'.length := by
    rw [found, hpool, rposition_append_cons (q := fun p => decide (p.usableLen = n)) _ (decide_eq_true hx)
      fun y hy => decide_eq_false (hbehind y hy), List.length_map]
  have hout : (d.step (.take n)).entries = ys' ++ l :: ws := by
    simp only [step, hfound, Option.elim_some]
    rw [hentries, swapRemove_append_cons, lastFirst_concat]
  obtain ⟨w, hw, rfl⟩ := List.mem_map.mp hy
  have hlatest := hall l.2.usableLen
  rw [TakesLatest] at hlatest
  split at hlatest
  · rename_i hnone
    exact hlatest l (hout ▸ List.mem_append_right _ List.mem_cons_self) rfl
  · rename_i s out hsome
    -- the one that leaves is the last of its length, so it is one of those that `l` has moved before
    obtain ⟨us, e', vs, hentries', hlen', hvs, -, hout'⟩ := take_some hsome
    obtain ⟨e'', hperm, -, -, hmax⟩ := hlatest
    have heq' : e'' = e' := by
      have hperm' : (us ++ e' :: vs).Perm (e' :: (us ++ lastFirst vs)) :=
        List.perm_middle.trans (((lastFirst_perm vs).symm.append_left us).cons e')
      rw [hentries', hout'] at hperm
      have hsame : ([e''] ++ (us ++ lastFirst vs)).Perm ([e'] ++ (us ++ lastFirst vs)) := hperm.symm.trans hperm'
      exact List.singleton_perm_singleton.mp ((List.perm_append_right_iff _).mp hsame)
    subst heq'
    have hle := hmax l (hout ▸ List.mem_append_right _ List.mem_cons_self) rfl
    have hsorted := h.sorted
    rw [hentries] at hsorted
    have hbefore : ∀ a ∈ ys' ++ ws, a.2.usableLen = l.2.usableLen → a.1 < l.1 := by
      intro a ha hlen
      have hsub : (ys' ++ ws ++ [l]).Sublist (ys' ++ e :: (ws ++ [l])) := by
        rw [List.append_assoc]
        exact (List.sublist_cons_self e _).append_left ys'
      exact (List.pairwise_append.mp (hsorted.sublist hsub)).2.2 a ha l (List.mem_singleton_self l) hlen
    have hmem : e'' ∈ ys' ++ ws := by
      rw [hout] at hentries'
      rcases List.append_eq_append_iff.mp hentries' with ⟨as, rfl, htail'⟩ | ⟨as, rfl, htail'⟩
      · cases as with
        | nil =>
          obtain ⟨rfl, rfl⟩ := List.cons.inj htail'
          exact absurd heq (hvs w hw)
        | cons a as =>
          obtain ⟨rfl, rfl⟩ := List.cons.inj htail'
          simp
      · cases as with
        | nil =>
          obtain ⟨rfl, rfl⟩ := List.cons.inj htail'
          exact absurd heq (hvs w hw)
        | cons a as =>
          obtain ⟨rfl, rfl⟩ := List.cons.inj htail'
          simp
    exact absurd (hbefore e'' hmem hlen') (not_lt.mpr hle)

theorem start : Dated.start.Ordered := ⟨List.Pairwise.nil, fun _ he => absurd he List.not_mem_nil⟩

/-- A run of undisturbed takes keeps the order. -/
theorem run {calls : List PoolCall} (h : ∀ pre n post, pre ++ .take n :: post = calls → Undisturbed (Dated.run pre).pool n) :
    (Dated.run calls).Ordered := by
  induction calls using List.reverseRecOn with
  | nil => exact start
  | append_singleton calls c ih =>
    have hcalls := ih fun pre n post heq => h pre n (post ++ [c]) (by rw [← heq, List.append_assoc, List.cons_append])
    rw [Dated.run, List.foldl_concat]
    cases c with
    | park s => exact hcalls.park s
    | take n => exact hcalls.take (h calls n [] rfl)

end Ordered

theorem run_concat (calls : List PoolCall) (c : PoolCall) : run (calls ++ [c]) = (run calls).step c := List.foldl_concat _ _ _ _

end Dated

/-- Wherever a sequence of calls leads, a take of any length returns the stack of that length that was parked last,
    exactly if no take of the sequence moves the pool's last stack before another one of its length. -/
theorem take_latest_iff (calls : List PoolCall) :
    (∀ pre post, pre ++ post = calls → ∀ n, (Dated.run pre).TakesLatest n) ↔
      ∀ pre n post, pre ++ .take n :: post = calls → Undisturbed (Dated.run pre).pool n := by
  constructor
  · intro h pre
    induction hk : pre.length using Nat.strong_induction_on generalizing pre with
    | _ k ih =>
      rintro n post rfl
      have hordered : (Dated.run pre).Ordered := Dated.Ordered.run fun pre' m post' heq => by
        have hlt : pre'.length < k := by
          rw [← hk, ← heq, List.length_append, List.length_cons]
          omega
        exact ih _ hlt pre' rfl m (post' ++ .take n :: post) (by rw [← heq, List.append_assoc, List.cons_append])
      refine hordered.undisturbed fun m => ?_
      rw [← Dated.run_concat]
      exact h (pre ++ [.take n]) post (by rw [List.append_assoc, List.singleton_append]) m
  · rintro h pre post rfl n
    refine (Dated.Ordered.run fun pre' m post' heq => ?_).takesLatest n
    exact h pre' m (post' ++ post) (by rw [← heq, List.append_assoc, List.cons_append])

/-- A stack of one size is parked, then two of another; the first one is taken. -/
def mixedSizes : List PoolCall :=
  [.park ⟨0x10000, 69632, 0x11000, 65536⟩, .park ⟨0x40000, 135168, 0x41000, 131072⟩,
    .park ⟨0x80000, 135168, 0x81000, 131072⟩, .take 65536]

/-- Of the two, the one that was parked first is taken first. -/
theorem older_stack_taken :
    (take (Dated.run mixedSizes).pool 131072).map (·.1) = some ⟨0x40000, 135168, 0x41000, 131072⟩ ∧
      ¬(Dated.run mixedSizes).TakesLatest 131072 := by
  have htake : take (Dated.run mixedSizes).pool 131072 =
      some (⟨0x40000, 135168, 0x41000, 131072⟩, [⟨0x80000, 135168, 0x81000, 131072⟩]) := by decide
  refine ⟨by rw [htake]; rfl, fun h => ?_⟩
  rw [Dated.TakesLatest, htake] at h
  obtain ⟨⟨i, p⟩, hperm, hs, -, hmax⟩ := h
  have hmem : (i, p) ∈ [(2, (⟨0x80000, 135168, 0x81000, 131072⟩ : Parked)), (1, ⟨0x40000, 135168, 0x41000, 131072⟩)] :=
    hperm.mem_iff.mpr List.mem_cons_self
  have hlater := hmax (2, ⟨0x80000, 135168, 0x81000, 131072⟩) (by decide) rfl
  rcases List.mem_cons.mp hmem with heq | hmem
  · obtain ⟨rfl, rfl⟩ := Prod.mk.inj heq
    exact absurd hs (by decide)
  · obtain ⟨rfl, rfl⟩ := Prod.mk.inj (List.mem_singleton.mp hmem)
    exact absurd hlater (by decide)

end Krio.Fibers
