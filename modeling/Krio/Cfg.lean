import Mathlib.Data.Int.Notation
import Mathlib.Data.List.Nodup
import Mathlib.Logic.Function.Basic
import Krio.Core

/-! The CFG body that the transforms rewrite: `CoroCfg` of `krio-stackless/src/cfg.rs`.

The trait is read through its documentation and the reference adapter of `tests/toy_adapter.rs`: a block
is a list of the host's statements and a terminator, and a method that takes `&mut self` returns the body
after it. Block and local ids are opaque, ordered handles, here numbers. `ids` is what `block_ids` lists, in any order;
`next` is the id of the block that the host allocates next. -/

namespace Krio

/-- The types of the locals that the transform allocates. -/
inductive LocalTy
  | i64Mut
  | bool
  | boolMut
  deriving DecidableEq, Repr

inductive Term
  | unreachable
  | goto (target : ℕ)
  | branch (cond : ℕ) (t f : ℕ)
  | switch (discr : ℕ) (targets : List (ℤ × ℕ)) (otherwise : ℕ)
  | ret
  deriving DecidableEq, Repr

namespace Term

/-- The blocks a terminator can transfer control to. -/
def successors : Term → List ℕ
  | unreachable => []
  | goto b => [b]
  | branch _ t f => [t, f]
  | switch _ targets otherwise => targets.map (·.2) ++ [otherwise]
  | ret => []

/-- Rewrite every reference to `a` so that it points to `b`. -/
def redirect (a b : ℕ) : Term → Term
  | goto t => goto (if t = a then b else t)
  | branch c t f => branch c (if t = a then b else t) (if f = a then b else f)
  | switch d targets otherwise =>
    switch d (targets.map fun x => (x.1, if x.2 = a then b else x.2)) (if otherwise = a then b else otherwise)
  | unreachable => unreachable
  | ret => ret

end Term

structure Block (S : Type) where
  stmts : List S
  term : Term
  deriving DecidableEq, Repr

/-- What `new_block` allocates: no statement, and the host's "unreachable". -/
def Block.fresh {S : Type} : Block S := ⟨[], .unreachable⟩

structure Cfg (S : Type) where
  ids : List ℕ
  next : ℕ
  block : ℕ → Block S
  locals : List LocalTy
  ids_lt : ∀ b ∈ ids, b < next
  ids_nodup : ids.Nodup

namespace Cfg
variable {S : Type}

def stmts (cfg : Cfg S) (b : ℕ) : List S := (cfg.block b).stmts

def term (cfg : Cfg S) (b : ℕ) : Term := (cfg.block b).term

def statementCount (cfg : Cfg S) (b : ℕ) : ℕ := (cfg.stmts b).length

def successors (cfg : Cfg S) (b : ℕ) : List ℕ := (cfg.term b).successors

/-- Replace the contents of a block. -/
def set (cfg : Cfg S) (b : ℕ) (x : Block S) : Cfg S := { cfg with block := Function.update cfg.block b x }

/-- Allocate a block with the given contents. -/
def push (cfg : Cfg S) (x : Block S) : Cfg S where
  ids := cfg.ids ++ [cfg.next]
  next := cfg.next + 1
  block := Function.update cfg.block cfg.next x
  locals := cfg.locals
  ids_lt b hb := by
    rcases List.mem_append.mp hb with h | h
    · exact Nat.lt_succ_of_lt (cfg.ids_lt b h)
    · simp_all
  ids_nodup := by
    refine List.nodup_append.mpr ⟨cfg.ids_nodup, List.nodup_singleton _, ?_⟩
    intro a ha b hb hab
    have hlt := cfg.ids_lt a ha
    simp_all

def newBlock (cfg : Cfg S) : ℕ × Cfg S := (cfg.next, cfg.push .fresh)

def newLocal (cfg : Cfg S) (ty : LocalTy) : ℕ × Cfg S :=
  (cfg.locals.length, { cfg with locals := cfg.locals ++ [ty] })

def newStateLocal (cfg : Cfg S) : ℕ × Cfg S := cfg.newLocal .i64Mut

def newBoolLocal (cfg : Cfg S) : ℕ × Cfg S := cfg.newLocal .bool

def newMutBoolLocal (cfg : Cfg S) : ℕ × Cfg S := cfg.newLocal .boolMut

/-- Append a statement to a block. -/
def emit (cfg : Cfg S) (b : ℕ) (s : S) : Cfg S := cfg.set b { cfg.block b with stmts := cfg.stmts b ++ [s] }

/-- Insert a statement at the front of a block. -/
def prepend (cfg : Cfg S) (b : ℕ) (s : S) : Cfg S := cfg.set b { cfg.block b with stmts := s :: cfg.stmts b }

/-- Replace the statement at `(b, idx)`. -/
def replace (cfg : Cfg S) (b : ℕ) (idx : ℕ) (s : S) : Cfg S :=
  cfg.set b { cfg.block b with stmts := (cfg.stmts b).set idx s }

def setTerm (cfg : Cfg S) (b : ℕ) (t : Term) : Cfg S := cfg.set b { cfg.block b with term := t }

def setGoto (cfg : Cfg S) (b target : ℕ) : Cfg S := cfg.setTerm b (.goto target)

def setBranch (cfg : Cfg S) (b : ℕ) (cond : ℕ) (t f : ℕ) : Cfg S := cfg.setTerm b (.branch cond t f)

def setSwitch (cfg : Cfg S) (b : ℕ) (discr : ℕ) (targets : List (ℤ × ℕ)) (otherwise : ℕ) :
    Cfg S :=
  cfg.setTerm b (.switch discr targets otherwise)

def redirectTargets (cfg : Cfg S) (b a c : ℕ) : Cfg S := cfg.setTerm b ((cfg.term b).redirect a c)

/-- `split_after`: the statements after `idx` move from `src` into a fresh block, which takes `src`'s
    terminator; `src` is left without one. -/
def splitAfter (cfg : Cfg S) (src : ℕ) (idx : ℕ) : ℕ × Cfg S :=
  (cfg.next,
    (cfg.push ⟨(cfg.stmts src).drop (idx + 1), cfg.term src⟩).set src ⟨(cfg.stmts src).take (idx + 1), .unreachable⟩)

section
variable (cfg : Cfg S) (b c : ℕ) (x : Block S)

@[simp] theorem set_block : (cfg.set b x).block c = if c = b then x else cfg.block c := by
  simp [set, Function.update_apply]

@[simp] theorem set_ids : (cfg.set b x).ids = cfg.ids := rfl
@[simp] theorem set_next : (cfg.set b x).next = cfg.next := rfl
@[simp] theorem set_locals : (cfg.set b x).locals = cfg.locals := rfl

@[simp] theorem push_block : (cfg.push x).block c = if c = cfg.next then x else cfg.block c := by
  simp [push, Function.update_apply]

@[simp] theorem push_ids : (cfg.push x).ids = cfg.ids ++ [cfg.next] := rfl
@[simp] theorem push_next : (cfg.push x).next = cfg.next + 1 := rfl
@[simp] theorem push_locals : (cfg.push x).locals = cfg.locals := rfl

@[simp] theorem newBlock_fst : cfg.newBlock.1 = cfg.next := rfl
@[simp] theorem splitAfter_fst (i : ℕ) : (cfg.splitAfter b i).1 = cfg.next := rfl

theorem newBlock_block : cfg.newBlock.2.block c = if c = cfg.next then .fresh else cfg.block c := cfg.push_block c _

@[simp] theorem newBlock_next : cfg.newBlock.2.next = cfg.next + 1 := rfl
@[simp] theorem splitAfter_next (i : ℕ) : (cfg.splitAfter b i).2.next = cfg.next + 1 := rfl

theorem splitAfter_block (i : ℕ) :
    (cfg.splitAfter b i).2.block c = if c = b then ⟨(cfg.stmts b).take (i + 1), .unreachable⟩
      else if c = cfg.next then ⟨(cfg.stmts b).drop (i + 1), cfg.term b⟩ else cfg.block c := by
  simp [splitAfter]

end

end Cfg
end Krio
