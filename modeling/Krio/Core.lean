import Mathlib.Data.List.Basic

/-! The vocabulary of `krio-core`: markers, suspensions and task identities. -/

namespace Krio

/-- Marker categories the stackless transform cares about. -/
inductive Marker
  | regionBegin
  | regionEnd
  | coroutineBegin
  | coroutineEnd
  | yield
  | guardedRecv
  | producingSend
  deriving DecidableEq, Repr

/-- Why a coroutine stopped running on this turn. -/
inductive Suspension
  | completed
  | yielded
  | pending
  deriving DecidableEq, Repr

/-- `TaskId(u64)`. -/
abbrev TaskId := ℕ

end Krio
