import Mathlib.Algebra.Group.Nat.Defs
import Mathlib.Data.List.Perm.Basic
import Mathlib.Data.Nat.Basic
import Krio.Lib.Runs
import Krio.Lib.SwapRemove

/-! Fiber stacks on a thread: `Stack::new` and `Drop` over the pool of stacks that the thread keeps, as in
`krio-fiber/src/stack.rs` on unix. `usize` arithmetic wraps at `2^64`; a panic leaves the state as it is at the
assertion. The memory manager is outside: `mmap` returns what the operation says, `munmap` unmaps. -/

namespace Krio.Fibers
open Lib

/-- What `mmap` returned. -/
structure Region where
  base : ℕ
  len : ℕ
  deriving DecidableEq, Repr

/-- No byte is in both. -/
def Region.Apart (r q : Region) : Prop := r.base + r.len ≤ q.base ∨ q.base + q.len ≤ r.base

instance : DecidableRel Region.Apart := fun _ _ => inferInstanceAs (Decidable (_ ∨ _))

/-- The page size of the platform. -/
structure Page where
  size : ℕ
  pos : 0 < size
  dvd : size ∣ 2 ^ 64

structure Stack where
  base : ℕ
  totalBytes : ℕ
  usableStart : ℕ
  usableLen : ℕ
  deriving DecidableEq, Repr

structure Parked where
  base : ℕ
  totalBytes : ℕ
  usableStart : ℕ
  usableLen : ℕ
  deriving DecidableEq, Repr

def Stack.region (s : Stack) : Region := ⟨s.base, s.totalBytes⟩

/-- What the fiber runs on. -/
def Stack.usable (s : Stack) : Region := ⟨s.usableStart, s.usableLen⟩

def Parked.region (p : Parked) : Region := ⟨p.base, p.totalBytes⟩

/-- `MAX_PARKED`. -/
def maxParked : ℕ := 16

def divCeil (n d : ℕ) : ℕ := if 0 < n % d then n / d + 1 else n / d

/-- `usable_size`. -/
def Page.usableSize (p : Page) (requestedSize : ℕ) : ℕ := divCeil requestedSize p.size * p.size % 2 ^ 64

section Pool

/-- `cache::take` on the pool of a thread. -/
def take (pool : List Parked) (usableLen : ℕ) : Option (Stack × List Parked) :=
  (rposition (·.usableLen = usableLen) pool).bind fun i =>
    pool[i]?.map fun p => (⟨p.base, p.totalBytes, p.usableStart, p.usableLen⟩, swapRemove pool i)

/-- `cache::park`: the pool with the stack, when the thread keeps it. -/
def park (pool : Option (List Parked)) (s : Stack) : Option (List Parked) :=
  match pool with
  | none => none
  | some ps => if maxParked ≤ ps.length then none else some (ps ++ [⟨s.base, s.totalBytes, s.usableStart, s.usableLen⟩])

end Pool

/-- The stacks of a thread. `pool` is `none` when the thread local was destroyed, `live` are the stacks that are
    held, each with the size it was requested for, `mapped` is what is mapped for stacks now, and `obtained` and
    `unmapped` list what `mmap` returned and what `munmap` was called on. -/
structure Stacks where
  pool : Option (List Parked)
  live : List (ℕ × Stack)
  mapped : List Region
  obtained : List Region
  unmapped : List Region
  deriving DecidableEq, Repr

def Stacks.start : Stacks := ⟨some [], [], [], [], []⟩

def Stacks.munmap (s : Stacks) (r : Region) : Stacks :=
  { s with mapped := s.mapped.erase r, unmapped := s.unmapped ++ [r] }

/-- The length that `mmap_stack` maps: the usable bytes and the guard page. -/
def Page.total (p : Page) (requestedSize : ℕ) : ℕ := (p.usableSize requestedSize + p.size) % 2 ^ 64

/-- `mmap_stack`, once `mmap` returned `base`; `guarded` says whether `mprotect` succeeded. -/
def Stacks.mmapStack (p : Page) (s : Stacks) (requestedSize base : ℕ) (guarded : Bool) : Stacks :=
  let total := p.total requestedSize
  let s := { s with mapped := s.mapped ++ [⟨base, total⟩], obtained := s.obtained ++ [⟨base, total⟩] }
  if guarded then
    { s with live := s.live ++ [(requestedSize, ⟨base, total, base + p.size, p.usableSize requestedSize⟩)] }
  else s

inductive StackOp
  /-- `Stack::new`; `os` is what `mmap` returns, if it is called and does not fail, and whether `mprotect` then
      succeeds. -/
  | new (requestedSize : ℕ) (os : Option (ℕ × Bool))
  /-- Drop the `k`-th live stack. -/
  | drop (k : ℕ)
  /-- The thread exits: its pool is destroyed. -/
  | exit
  deriving DecidableEq, Repr

def Stacks.new (p : Page) (s : Stacks) (requestedSize : ℕ) (os : Option (ℕ × Bool)) : Stacks :=
  match s.pool.bind (take · (p.usableSize requestedSize)) with
  | some (stack, pool) => { s with pool := some pool, live := s.live ++ [(requestedSize, stack)] }
  | none =>
    match os with
    | some (base, guarded) => s.mmapStack p requestedSize base guarded
    | none => s

def Stacks.drop (s : Stacks) (k : ℕ) (stack : Stack) : Stacks :=
  let s := { s with live := s.live.eraseIdx k }
  match park s.pool stack with
  | some pool => { s with pool := some pool }
  | none => s.munmap stack.region

/-- `Drop` of the pool. -/
def Stacks.exit (s : Stacks) (pool : List Parked) : Stacks :=
  pool.foldl (fun s p => s.munmap p.region) { s with pool := none }

def Stacks.step (p : Page) (s : Stacks) : StackOp → Option Stacks
  | .new requestedSize os => some (s.new p requestedSize os)
  | .drop k => s.live[k]?.map fun x => s.drop k x.2
  | .exit => s.pool.map s.exit

/-- What `mmap` returns is not empty, in the address space, and apart from all that is mapped. -/
def Fresh (mapped : List Region) (r : Region) : Prop := 0 < r.len ∧ r.base + r.len ≤ 2 ^ 64 ∧ ∀ q ∈ mapped, q.Apart r

instance (mapped : List Region) (r : Region) : Decidable (Fresh mapped r) := inferInstanceAs (Decidable (_ ∧ _ ∧ _))

/-- Sizes are `usize` values, and `mmap` is as documented. -/
def Allowed (p : Page) (s : Stacks) : StackOp → Prop
  | .new requestedSize (some (base, _)) => requestedSize < 2 ^ 64 ∧ Fresh s.mapped ⟨base, p.total requestedSize⟩
  | .new requestedSize none => requestedSize < 2 ^ 64
  | .drop _ | .exit => True

instance (p : Page) (s : Stacks) (o : StackOp) : Decidable (Allowed p s o) :=
  match o with
  | .new _ (some _) => inferInstanceAs (Decidable (_ ∧ _))
  | .new requestedSize none => inferInstanceAs (Decidable (requestedSize < 2 ^ 64))
  | .drop _ | .exit => inferInstanceAs (Decidable True)

/-- `n` is `requestedSize`, rounded up to whole pages. -/
def Page.RoundsUp (p : Page) (requestedSize n : ℕ) : Prop :=
  p.size ∣ n ∧ requestedSize ≤ n ∧ n < requestedSize + p.size

/-- The mappings that are owned: each live stack and each pool entry owns one. -/
def Stacks.owned (s : Stacks) : List Region :=
  s.live.map (fun x => x.2.region) ++ (s.pool.getD []).map Parked.region

/-- Every mapping has one owner. -/
structure Sound (p : Page) (s : Stacks) : Prop where
  /-- what is mapped is owned by one live stack or by one pool entry -/
  owned : s.mapped.Perm s.owned
  /-- what was obtained is mapped, or was unmapped once -/
  accounted : s.obtained.Perm (s.mapped ++ s.unmapped)
  apart : s.live.Pairwise fun x y => x.2.usable.Apart y.2.usable
  sized : ∀ x ∈ s.live, p.RoundsUp x.1 x.2.usableLen
  capped : ∀ pool, s.pool = some pool → pool.length ≤ maxParked
  finished : s.live = [] → s.pool = none → s.mapped = [] ∧ s.obtained.Perm s.unmapped

/-- The stack that is taken is the last one in the pool of its length. -/
theorem take_split {pool pool' : List Parked} {n : ℕ} {s : Stack} (h : take pool n = some (s, pool')) :
    ∃ ys x zs, pool = ys ++ x :: zs ∧ x.usableLen = n ∧ (∀ z ∈ zs, z.usableLen ≠ n) ∧
      s = ⟨x.base, x.totalBytes, x.usableStart, x.usableLen⟩ ∧ pool' = ys ++ lastFirst zs := by
  obtain ⟨i, hi, h⟩ := Option.bind_eq_some_iff.mp h
  obtain ⟨y, hy, heq⟩ := Option.map_eq_some_iff.mp h
  obtain ⟨rfl, rfl⟩ := Prod.mk.inj heq
  obtain ⟨ys, x, zs, rfl, rfl, hlen, hrest⟩ := rposition_eq_some hi
  rw [List.getElem?_append_right le_rfl, Nat.sub_self, List.getElem?_cons_zero] at hy
  obtain rfl := Option.some.inj hy
  exact ⟨ys, x, zs, rfl, of_decide_eq_true hlen, fun z hz => of_decide_eq_false (hrest z hz), rfl, swapRemove_append_cons _ _ _⟩

/-- A stack that is taken has the asked length, and leaves the pool. -/
theorem take_eq_some {pool pool' : List Parked} {n : ℕ} {s : Stack} (h : take pool n = some (s, pool')) :
    ∃ x : Parked, s = ⟨x.base, x.totalBytes, x.usableStart, x.usableLen⟩ ∧ x.usableLen = n ∧ pool.Perm (x :: pool') := by
  obtain ⟨ys, x, zs, rfl, hlen, -, rfl, rfl⟩ := take_split h
  exact ⟨x, rfl, hlen, List.perm_middle.trans (((lastFirst_perm _).symm.append_left _).cons _)⟩

theorem park_eq_some {pool : Option (List Parked)} {ps' : List Parked} {s : Stack} (h : park pool s = some ps') :
    ∃ ps, pool = some ps ∧ ps.length < maxParked ∧ ps' = ps ++ [⟨s.base, s.totalBytes, s.usableStart, s.usableLen⟩] := by
  cases pool with
  | none => cases h
  | some ps =>
    simp only [park] at h
    split at h
    · cases h
    · exact ⟨ps, rfl, by omega, (Option.some.inj h).symm⟩

namespace Page
variable {p : Page} {r : ℕ}

theorem roundsUp_divCeil (p : Page) (r : ℕ) : p.RoundsUp r (divCeil r p.size * p.size) := by
  have hmod := Nat.div_add_mod' r p.size
  have hlt := Nat.mod_lt r p.pos
  unfold RoundsUp divCeil
  split_ifs with h
  · have hsucc : (r / p.size + 1) * p.size = r / p.size * p.size + p.size := Nat.succ_mul _ _
    exact ⟨Nat.dvd_mul_left _ _, by omega, by omega⟩
  · exact ⟨Nat.dvd_mul_left _ _, by omega, by omega⟩

/-- A size that leaves room for one more page rounds up without wrapping. -/
theorem roundsUp_usableSize (h : r + p.size ≤ 2 ^ 64) : p.RoundsUp r (p.usableSize r) := by
  obtain ⟨hdvd, hle, hlt⟩ := p.roundsUp_divCeil r
  rw [usableSize, Nat.mod_eq_of_lt (by omega)]
  exact ⟨hdvd, hle, hlt⟩

theorem total_eq (h : r + p.size ≤ 2 ^ 64) (hpos : 0 < p.total r) : p.total r = p.usableSize r + p.size := by
  obtain ⟨⟨a, ha⟩, hle, hlt⟩ := p.roundsUp_usableSize h
  obtain ⟨b, hb⟩ := p.dvd
  -- Both are whole numbers of pages, so that the sum does not pass `2^64`.
  have hab : a < b := by
    refine Nat.lt_of_mul_lt_mul_left (a := p.size) ?_
    omega
  have hsum : p.usableSize r + p.size ≤ 2 ^ 64 := by
    have hmul := Nat.mul_le_mul_left p.size (Nat.succ_le_of_lt hab)
    rw [Nat.mul_succ] at hmul
    omega
  obtain heq | hsum := Nat.eq_or_lt_of_le hsum
  · rw [total, heq, Nat.mod_self] at hpos
    cases hpos
  · exact Nat.mod_eq_of_lt hsum

end Page

/-- The layout of a stack: a guard page below the usable bytes. -/
def Laid (p : Page) (s : Stack) : Prop := s.usableStart = s.base + p.size ∧ s.totalBytes = s.usableLen + p.size

/-- What every step keeps. -/
structure Held (p : Page) (s : Stacks) : Prop where
  owned : s.mapped.Perm s.owned
  accounted : s.obtained.Perm (s.mapped ++ s.unmapped)
  apart : s.mapped.Pairwise Region.Apart
  laid : ∀ x ∈ s.live, Laid p x.2
  kept : ∀ pool, s.pool = some pool → ∀ x ∈ pool, Laid p ⟨x.base, x.totalBytes, x.usableStart, x.usableLen⟩
  sized : ∀ x ∈ s.live, p.RoundsUp x.1 x.2.usableLen
  capped : ∀ pool, s.pool = some pool → pool.length ≤ maxParked

theorem Region.Apart.symm {r q : Region} (h : r.Apart q) : q.Apart r := Or.symm h

namespace Held
variable {p : Page} {s s' : Stacks}

theorem start : Held p .start where
  owned := .nil
  accounted := .nil
  apart := .nil
  laid := by simp [Stacks.start]
  kept := by simp [Stacks.start]
  sized := by simp [Stacks.start]
  capped := by simp [Stacks.start]

/-- Apart mappings keep the stacks in them apart. -/
theorem usable_apart {x y : Stack} (hx : Laid p x) (hy : Laid p y) (h : x.region.Apart y.region) :
    x.usable.Apart y.usable := by
  obtain ⟨hxs, hxl⟩ := hx
  obtain ⟨hys, hyl⟩ := hy
  simp only [Region.Apart, Stack.region, Stack.usable] at h ⊢
  omega

theorem sound (h : Held p s) : Sound p s where
  owned := h.owned
  accounted := h.accounted
  apart := by
    have hall : s.owned.Pairwise Region.Apart := h.owned.pairwise h.apart fun hab => hab.symm
    have hlive := List.pairwise_map.mp (List.pairwise_append.mp hall).1
    exact hlive.imp_of_mem fun hx hy hab => usable_apart (h.laid _ hx) (h.laid _ hy) hab
  sized := h.sized
  capped := h.capped
  finished := by
    intro hlive hpool
    have hmapped : s.mapped = [] := by
      have howned := h.owned
      simp only [Stacks.owned, hlive, hpool] at howned
      exact howned.eq_nil
    have hacc := h.accounted
    rw [hmapped] at hacc
    exact ⟨hmapped, hacc⟩

/-- A region that some owner gives up is unmapped. -/
theorem munmap {r : Region} {rest : List Region} (howned : s.mapped.Perm (r :: rest))
    (hacc : s.obtained.Perm (s.mapped ++ s.unmapped)) :
    (s.munmap r).mapped.Perm rest ∧ (s.munmap r).obtained.Perm ((s.munmap r).mapped ++ (s.munmap r).unmapped) := by
  have hmem : r ∈ s.mapped := howned.mem_iff.mpr List.mem_cons_self
  have hrest : (s.mapped.erase r).Perm rest := by
    have herase := howned.erase r
    rwa [List.erase_cons_head] at herase
  refine ⟨hrest, hacc.trans ?_⟩
  have hmapped := List.perm_cons_erase hmem
  show (s.mapped ++ s.unmapped).Perm (s.mapped.erase r ++ (s.unmapped ++ [r]))
  rw [← List.append_assoc]
  exact (hmapped.append_right _).trans (List.perm_append_singleton _ _).symm

theorem new {r : ℕ} {os : Option (ℕ × Bool)} (h : Held p s) (hallowed : Allowed p s (.new r os)) (hr : r + p.size ≤ 2 ^ 64)
    (hguard : ∀ x ∈ os, x.2 = true) : Held p (s.new p r os) := by
  unfold Stacks.new
  cases htake : s.pool.bind (take · (p.usableSize r)) with
  | some x =>
    -- the stack moves from the pool to the live ones
    obtain ⟨stack, pool'⟩ := x
    obtain ⟨pool, hpool, htake⟩ := Option.bind_eq_some_iff.mp htake
    obtain ⟨x, rfl, hlen, hperm⟩ := take_eq_some htake
    have hmem : ∀ y ∈ pool', y ∈ pool := fun y hy => hperm.mem_iff.mpr (List.mem_cons_of_mem _ hy)
    have hx : x ∈ pool := hperm.mem_iff.mpr List.mem_cons_self
    constructor
    case owned =>
      have howned := h.owned
      simp only [Stacks.owned, hpool, Option.getD_some] at howned
      simp only [Stacks.owned, Option.getD_some, List.map_append, List.map_cons, List.map_nil, List.append_assoc,
        List.singleton_append]
      exact howned.trans ((hperm.map _).append_left _)
    case accounted => exact h.accounted
    case apart => exact h.apart
    case laid =>
      intro y hy
      rcases List.mem_append.mp hy with hy | hy
      · exact h.laid y hy
      · rw [List.mem_singleton.mp hy]
        exact h.kept pool hpool x hx
    case kept =>
      rintro _ ⟨⟩ y hy
      exact h.kept pool hpool y (hmem y hy)
    case sized =>
      intro y hy
      rcases List.mem_append.mp hy with hy | hy
      · exact h.sized y hy
      · rw [List.mem_singleton.mp hy]
        exact hlen ▸ p.roundsUp_usableSize hr
    case capped =>
      rintro _ ⟨⟩
      have hcap := h.capped pool hpool
      have hlength := hperm.length_eq
      rw [List.length_cons] at hlength
      omega
  | none =>
    cases os with
    | none => exact h
    | some x =>
      obtain ⟨base, guarded⟩ := x
      obtain rfl : guarded = true := hguard _ rfl
      obtain ⟨-, hpos, -, hfresh⟩ := hallowed
      have htotal := p.total_eq hr hpos
      constructor
      case owned =>
        simp only [Stacks.mmapStack, if_true, Stacks.owned, List.map_append, List.map_cons, List.map_nil]
        refine ((List.perm_append_singleton _ _).trans (h.owned.cons _)).trans ?_
        simp only [Stacks.owned, List.append_assoc, List.singleton_append]
        exact List.perm_middle.symm
      case accounted =>
        have hacc := (h.accounted.append_right [⟨base, p.total r⟩])
        refine hacc.trans ?_
        simp only [Stacks.mmapStack, if_true, List.append_assoc]
        exact List.perm_append_comm.append_left _
      case apart =>
        refine List.pairwise_append.mpr ⟨h.apart, List.pairwise_singleton _ _, fun q hq r' hr' => ?_⟩
        exact List.mem_singleton.mp hr' ▸ hfresh q hq
      case laid =>
        intro y hy
        rcases List.mem_append.mp hy with hy | hy
        · exact h.laid y hy
        · rw [List.mem_singleton.mp hy]
          exact ⟨rfl, htotal⟩
      case kept => exact h.kept
      case sized =>
        intro y hy
        rcases List.mem_append.mp hy with hy | hy
        · exact h.sized y hy
        · rw [List.mem_singleton.mp hy]
          exact p.roundsUp_usableSize hr
      case capped => exact h.capped

theorem drop {k : ℕ} {x : ℕ × Stack} (h : Held p s) (hk : s.live[k]? = some x) : Held p (s.drop k x.2) := by
  obtain ⟨hlt, rfl⟩ := List.getElem?_eq_some_iff.mp hk
  have hlive : s.live.Perm (s.live[k] :: s.live.eraseIdx k) := (List.getElem_cons_eraseIdx_perm hlt).symm
  have hmem : ∀ y ∈ s.live.eraseIdx k, y ∈ s.live := fun y hy => List.mem_of_mem_eraseIdx hy
  have howned : s.mapped.Perm (s.live[k].2.region :: ((s.live.eraseIdx k).map (fun x => x.2.region) ++
      (s.pool.getD []).map Parked.region)) :=
    h.owned.trans ((hlive.map fun x => x.2.region).append_right _)
  simp only [Stacks.drop]
  cases hpark : park s.pool s.live[k].2 with
  | some pool' =>
    obtain ⟨pool, hpool, hlen, rfl⟩ := park_eq_some hpark
    constructor
    case owned =>
      refine howned.trans ?_
      simp only [Stacks.owned, hpool, Option.getD_some, List.map_append, List.map_cons, List.map_nil]
      rw [← List.append_assoc]
      exact (List.perm_append_singleton _ _).symm
    case accounted => exact h.accounted
    case apart => exact h.apart
    case laid => exact fun y hy => h.laid y (hmem y hy)
    case kept =>
      rintro _ ⟨⟩ y hy
      rcases List.mem_append.mp hy with hy | hy
      · exact h.kept pool hpool y hy
      · rw [List.mem_singleton.mp hy]
        exact h.laid _ (List.getElem_mem hlt)
    case sized => exact fun y hy => h.sized y (hmem y hy)
    case capped =>
      rintro _ ⟨⟩
      rw [List.length_append, List.length_singleton]
      exact hlen
  | none =>
    obtain ⟨hmapped, hacc⟩ := munmap (s := { s with live := s.live.eraseIdx k }) howned h.accounted
    exact ⟨hmapped, hacc, h.apart.sublist List.erase_sublist, fun y hy => h.laid y (hmem y hy), h.kept,
      fun y hy => h.sized y (hmem y hy), h.capped⟩

/-- The destroyed pool gives up what it holds, and touches nothing else. -/
theorem munmaps {pool : List Parked} {rest : List Region} (howned : s.mapped.Perm (rest ++ pool.map Parked.region))
    (hacc : s.obtained.Perm (s.mapped ++ s.unmapped)) :
    let s' := pool.foldl (fun s p => s.munmap p.region) s
    s'.mapped.Perm rest ∧ s'.obtained.Perm (s'.mapped ++ s'.unmapped) ∧ s'.mapped.Sublist s.mapped ∧ s'.live = s.live ∧
      s'.pool = s.pool := by
  induction pool generalizing s with
  | nil =>
    rw [List.map_nil, List.append_nil] at howned
    exact ⟨howned, hacc, List.Sublist.refl _, rfl, rfl⟩
  | cons x pool ih =>
    have howned' : s.mapped.Perm (x.region :: (rest ++ pool.map Parked.region)) := howned.trans List.perm_middle
    obtain ⟨hmapped, hacc'⟩ := munmap howned' hacc
    obtain ⟨h1, h2, h3, h4, h5⟩ := ih hmapped hacc'
    exact ⟨h1, h2, h3.trans List.erase_sublist, h4, h5⟩

theorem exit {pool : List Parked} (h : Held p s) (hpool : s.pool = some pool) : Held p (s.exit pool) := by
  have howned := h.owned
  simp only [Stacks.owned, hpool, Option.getD_some] at howned
  obtain ⟨h1, h2, h3, h4, h5⟩ := munmaps (s := { s with pool := none }) howned h.accounted
  change (s.exit pool).mapped.Perm _ at h1
  change (s.exit pool).live = s.live at h4
  change (s.exit pool).pool = none at h5
  constructor
  case owned => simpa [Stacks.owned, h4, h5] using h1
  case accounted => exact h2
  case apart => exact h.apart.sublist h3
  case laid =>
    rw [h4]
    exact h.laid
  case kept =>
    rw [h5]
    rintro _ ⟨⟩
  case sized =>
    rw [h4]
    exact h.sized
  case capped =>
    rw [h5]
    rintro _ ⟨⟩

end Held

/-- No mapping is left without its guard page, and the sizes leave room for one. -/
def StackOp.Plain (p : Page) : StackOp → Prop
  | .new requestedSize os => requestedSize + p.size ≤ 2 ^ 64 ∧ ∀ x ∈ os, x.2 = true
  | .drop _ | .exit => True

instance (p : Page) (o : StackOp) : Decidable (o.Plain p) :=
  match o with
  | .new _ _ => inferInstanceAs (Decidable (_ ∧ ∀ x ∈ _, _))
  | .drop _ | .exit => inferInstanceAs (Decidable True)

theorem Held.step {p : Page} {s s' : Stacks} {o : StackOp} (h : Held p s) (hallowed : Allowed p s o) (hplain : o.Plain p)
    (hs : s.step p o = some s') : Held p s' := by
  cases o with
  | new r os =>
    obtain rfl := Option.some.inj hs
    exact h.new hallowed hplain.1 hplain.2
  | drop k =>
    obtain ⟨x, hx, rfl⟩ := Option.map_eq_some_iff.mp hs
    exact h.drop hx
  | exit =>
    obtain ⟨pool, hpool, rfl⟩ := Option.map_eq_some_iff.mp hs
    exact h.exit hpool

/-- In every run without a failed guard page and without a size in the last page of the address space, every
    mapping has one owner. -/
theorem stacks_owned_once (p : Page) (s : Stacks)
    (h : Steps (Stacks.step p) (fun s o => Allowed p s o ∧ o.Plain p) .start s) : Sound p s := by
  have hheld : Held p s := h.keeps (fun _ _ _ hs hok hstep => hs.step hok.1 hok.2 hstep) .start
  exact hheld.sound

/-- Pages of 4 KiB. -/
def smallPage : Page := ⟨4096, by decide, by decide⟩

/-- A mapping whose guard page could not be protected is left without an owner, and a stack for the greatest
    size has no usable byte. -/
theorem stack_leaked_and_undersized :
    (∃ s, Steps (Stacks.step smallPage) (Allowed smallPage) .start s ∧ s.live = [] ∧ s.pool = none ∧ s.unmapped = [] ∧
      s.mapped = [⟨4096, 12288⟩] ∧ ¬Sound smallPage s) ∧
    ∃ s, Steps (Stacks.step smallPage) (Allowed smallPage) .start s ∧
      s.live = [(2 ^ 64 - 1, ⟨4096, 4096, 8192, 0⟩)] ∧ ¬Sound smallPage s := by
  constructor
  · have hrun : (runActions (Stacks.step smallPage) (Allowed smallPage) .start [.new 8192 (some (4096, false)), .exit]).any
        (fun s => decide (s = ⟨none, [], [⟨4096, 12288⟩], [⟨4096, 12288⟩], []⟩)) = true := by decide +kernel
    obtain ⟨s, hs, hq⟩ := exists_of_runActions hrun
    obtain rfl := of_decide_eq_true hq
    refine ⟨_, hs, rfl, rfl, rfl, rfl, fun hsound => ?_⟩
    have hnil := hsound.owned.eq_nil
    cases hnil
  · have hrun : (runActions (Stacks.step smallPage) (Allowed smallPage) .start [.new (2 ^ 64 - 1) (some (4096, true))]).any
        (fun s => decide (s.live = [(2 ^ 64 - 1, ⟨4096, 4096, 8192, 0⟩)])) = true := by decide +kernel
    obtain ⟨s, hs, hq⟩ := exists_of_runActions hrun
    have hlive := of_decide_eq_true hq
    refine ⟨s, hs, hlive, fun hsound => ?_⟩
    obtain ⟨-, hle, -⟩ := hsound.sized (2 ^ 64 - 1, ⟨4096, 4096, 8192, 0⟩) (by rw [hlive]; exact List.mem_singleton_self _)
    exact absurd hle (by decide)

/-- Two sizes of stacks: one is dropped and handed out again for a size that rounds up to the same length, one is in
    the pool when the thread exits, and two outlive it. -/
theorem stacks_owned_once_sample : ∃ s,
    Steps (Stacks.step smallPage) (fun s o => Allowed smallPage s o ∧ o.Plain smallPage) .start s ∧
    s.live = [(5000, ⟨40960, 12288, 45056, 8192⟩), (8000, ⟨4096, 12288, 8192, 8192⟩)] ∧ s.unmapped = [⟨16384, 8192⟩] ∧
    Sound smallPage s := by
  have hrun : (runActions (Stacks.step smallPage) (fun s o => Allowed smallPage s o ∧ o.Plain smallPage) .start
      [.new 8192 (some (4096, true)), .new 5000 (some (40960, true)), .new 100 (some (16384, true)), .drop 0,
        .new 8000 none, .drop 1, .exit]).any
      (fun s => decide (s.live = [(5000, ⟨40960, 12288, 45056, 8192⟩), (8000, ⟨4096, 12288, 8192, 8192⟩)] ∧
        s.unmapped = [⟨16384, 8192⟩])) = true := by decide +kernel
  obtain ⟨s, hs, hq⟩ := exists_of_runActions hrun
  obtain ⟨hlive, hunmapped⟩ := of_decide_eq_true hq
  exact ⟨s, hs, hlive, hunmapped, stacks_owned_once smallPage s hs⟩

end Krio.Fibers
