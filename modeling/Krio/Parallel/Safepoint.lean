import Mathlib.Algebra.Group.Nat.Defs
import Krio.Lib.Threads

/-! The stop-the-world rendezvous of `krio-parallel/src/safepoint.rs`.

`state` is the round counter and pending flag in one word: odd means a stop is pending. `stopped` counts
the agents at the barrier. Each method is given by its control points, one for each atomic access, each
`unpark_all` and each `park`. A weak compare-exchange that fails spuriously goes back to where it was, so
only the two outcomes of the strong one are steps. -/

namespace Krio.Parallel
open Lib

structure Safepoint where
  state : BitVec 32
  stopped : BitVec 32
  deriving DecidableEq

namespace Safepoint

/-- `Safepoint::new`. -/
def new : Safepoint := ⟨0, 0⟩

/-- `state & PENDING == PENDING`. -/
def pending (state : BitVec 32) : Bool := state &&& 1 == 1

theorem pending_iff {s : BitVec 32} : pending s = true ↔ s.toNat % 2 = 1 := by
  simp [pending, ← BitVec.toNat_inj, Nat.and_one_is_mod]

theorem pending_add_one (s : BitVec 32) : pending (s + 1) = !pending s := by
  rw [Bool.eq_iff_iff, Bool.not_eq_true', ← Bool.not_eq_true, pending_iff, pending_iff, BitVec.toNat_add,
    show (1 : BitVec 32).toNat = 1 from rfl]
  omega

/-- `requested`. -/
def requested (sp : Safepoint) : Bool := pending sp.state

/-- The two words that threads park on. -/
inductive Word
  | state
  | stopped
  deriving DecidableEq

/-- Control points of `request`; it only tries to move a word that is not pending. -/
inductive RequestPc
  | load
  | cas (state : BitVec 32) (idle : pending state = false)
  deriving DecidableEq

/-- The head of `request`'s loop, after `state` was seen. -/
def requestSeen (state : BitVec 32) : Out RequestPc Bool :=
  if h : pending state = false then .next (.cas state h) else .ret false

def request (sp : Safepoint) : RequestPc → Safepoint × Out RequestPc Bool
  | .load => (sp, requestSeen sp.state)
  | .cas state _ => if sp.state = state then ({ sp with state := state + 1 }, .ret true) else (sp, requestSeen sp.state)

/-- A step of `request`: it leaves the words alone, or it moves a word that is not pending and is done. -/
theorem request_inv {sp sp' : Safepoint} {pc : RequestPc} {o : Out RequestPc Bool} (h : sp.request pc = (sp', o)) :
    (sp' = sp ∧ o ≠ .ret true) ∨ (pending sp.state = false ∧ sp' = { sp with state := sp.state + 1 } ∧ o = .ret true) := by
  have seen : requestSeen sp.state ≠ .ret true := by
    unfold requestSeen
    split <;> simp
  cases pc with
  | load =>
    cases h
    exact Or.inl ⟨rfl, seen⟩
  | cas s hs =>
    simp only [Safepoint.request] at h
    split at h
    · rename_i heq
      cases h
      rw [← heq] at hs ⊢
      exact Or.inr ⟨hs, rfl, rfl⟩
    · cases h
      exact Or.inl ⟨rfl, seen⟩

/-- Control points of `enter`; `state` is the snapshot it takes first. -/
inductive EnterPc
  | load
  | arrive (state : BitVec 32)
  | announce (state : BitVec 32)
  | first (state : BitVec 32)
  | again (state : BitVec 32)
  | park (state : BitVec 32)
  | asleep (state : BitVec 32)
  | leave
  | tell
  deriving DecidableEq

/-- A step of `enter`, with the word it signals. A thread asleep takes no step. -/
def enter (sp : Safepoint) : EnterPc → Option (Safepoint × Out EnterPc Unit × Option Word)
  | .load => some (sp, if pending sp.state then .next (.arrive sp.state) else .ret (), none)
  | .arrive state => some ({ sp with stopped := sp.stopped + 1 }, .next (.announce state), none)
  | .announce state => some (sp, .next (.first state), some .stopped)
  | .first state => some (sp, .next (if sp.state = state then .again state else .leave), none)
  | .again state => some (sp, .next (if sp.state = state then .park state else .leave), none)
  | .park state => some (sp, .next (if sp.state = state then .asleep state else .again state), none)
  | .asleep _ => none
  | .leave => some ({ sp with stopped := sp.stopped - 1 }, .next .tell, none)
  | .tell => some (sp, .ret (), some .stopped)

/-- `enter` never moves the word. -/
theorem enter_state {sp sp' : Safepoint} {pc : EnterPc} {o : Out EnterPc Unit} {x : Option Word}
    (h : sp.enter pc = some (sp', o, x)) : sp'.state = sp.state := by
  cases pc <;> cases h <;> rfl

/-- Control points of `release`; it only tries to move a pending word, and `waiting` is the count that
    its drain loop saw. -/
inductive ReleasePc
  | load
  | cas (state : BitVec 32) (pending : pending state = true)
  | wakeAll
  | drain
  | stopping (waiting : BitVec 32)
  | nudge (waiting : BitVec 32)
  | park (waiting : BitVec 32)
  | asleep (waiting : BitVec 32)
  deriving DecidableEq

/-- The head of `release`'s first loop, after `state` was seen. -/
def releaseSeen (state : BitVec 32) : Out ReleasePc Unit :=
  if h : pending state = true then .next (.cas state h) else .ret ()

/-- A step of `release`, given the cluster's `stopping` flag, with the word it signals. -/
def release (sp : Safepoint) (stopping : Bool) : ReleasePc → Option (Safepoint × Out ReleasePc Unit × Option Word)
  | .load => some (sp, releaseSeen sp.state, none)
  | .cas state _ =>
    if sp.state = state then some ({ sp with state := state + 1 }, .next .wakeAll, none)
    else some (sp, releaseSeen sp.state, none)
  | .wakeAll => some (sp, .next .drain, some .state)
  | .drain => some (sp, if sp.stopped = 0 then .ret () else .next (.stopping sp.stopped), none)
  | .stopping waiting => some (sp, if stopping then .ret () else .next (.nudge waiting), none)
  | .nudge waiting => some (sp, .next (.park waiting), some .state)
  | .park waiting => some (sp, .next (if sp.stopped = waiting then .asleep waiting else .drain), none)
  | .asleep _ => none

/-- A step of `release`: it leaves the words alone, or it moves a pending word. -/
theorem release_inv {sp sp' : Safepoint} {stopping : Bool} {pc : ReleasePc} {o : Out ReleasePc Unit} {x : Option Word}
    (h : sp.release stopping pc = some (sp', o, x)) :
    sp' = sp ∨ pending sp.state = true ∧ sp' = { sp with state := sp.state + 1 } := by
  cases pc with
  | cas s hs =>
    simp only [release] at h
    split at h <;> cases h
    · rename_i heq
      exact Or.inr ⟨heq ▸ hs, by rw [heq]⟩
    · exact Or.inl rfl
  | _ => cases h <;> exact Or.inl rfl

/-- Only its compare-exchange moves the word. -/
theorem release_cas {sp sp' : Safepoint} {stopping : Bool} {pc : ReleasePc} {o : Out ReleasePc Unit} {x : Option Word}
    (h : sp.release stopping pc = some (sp', o, x)) (hne : sp'.state ≠ sp.state) : ∃ hp, pc = .cas sp.state hp := by
  cases pc with
  | cas s hs =>
    simp only [release] at h
    split at h <;> cases h
    · rename_i heq
      subst heq
      exact ⟨hs, rfl⟩
    · exact absurd rfl hne
  | _ => cases h <;> exact absurd rfl hne

/-- Control points of `await_all`; `arrived` is the count it saw. -/
inductive AwaitPc
  | load
  | stopping (arrived : BitVec 32)
  | park (arrived : BitVec 32)
  | asleep (arrived : BitVec 32)
  deriving DecidableEq

/-- A step of `await_all(expected)`; it returns whether all arrived. -/
def awaitAll (sp : Safepoint) (expected : BitVec 32) (stopping : Bool) : AwaitPc → Option (Out AwaitPc Bool)
  | .load => some (if expected ≤ sp.stopped then .ret true else .next (.stopping sp.stopped))
  | .stopping arrived => some (if stopping then .ret false else .next (.park arrived))
  | .park arrived => some (.next (if sp.stopped = arrived then .asleep arrived else .load))
  | .asleep _ => none

end Safepoint

end Krio.Parallel
