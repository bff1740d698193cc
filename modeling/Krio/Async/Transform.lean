import Mathlib.Algebra.Group.Nat.Defs
import Mathlib.Data.List.Sort
import Krio.Cfg

/-! The state-machine transform of `krio-async/src/lib.rs`.

A value is a host local, `F` the host's function ids. `none` is a panic of the source: a body without
blocks, an index subtraction that underflows, or a list index out of range. `u32` arithmetic wraps. -/

namespace Krio.Async

/-- One suspension site, as `classify` reports it. -/
inductive SuspensionSite (F V : Type)
  | directYield (value : Option V)
  | crossFnCall (callee : F) (receiver : Option V) (args : List V) (result : V)
  deriving DecidableEq, Repr

/-- What kind of suspension a block represents. -/
inductive BlockKind (F V : Type)
  | directYield
  | crossFnCallInit (resumeCheckBlock : ℕ) (receiver : Option V) (args : List V) (result : V) (callee : F)
  | crossFnCallResume (doneBlock : ℕ) (receiver : Option V) (args : List V) (result : V) (callee : F)
  deriving DecidableEq, Repr

structure StateMachineLayout (F V : Type) where
  resumeEntries : List ℕ
  yieldBlocks : List (ℕ × ℕ)
  yieldSaves : List (ℕ × List (ℕ × V))
  resumeLoads : List (ℕ × List (ℕ × V))
  blockKinds : List (ℕ × BlockKind F V)
  deriving DecidableEq, Repr

/-- The values live across each site `(block, idx)`, in the coordinates of the body before the transform. -/
structure LivenessMap (V : Type) where
  atSite : List ((ℕ × ℕ) × List V)

namespace LivenessMap
variable {V : Type}

def record (l : LivenessMap V) (block : ℕ) (idx : ℕ) (values : List V) : LivenessMap V :=
  ⟨l.atSite ++ [((block, idx), values)]⟩

/-- The first record of the site. -/
def lookup (l : LivenessMap V) (block : ℕ) (idx : ℕ) : List V :=
  ((l.atSite.find? fun x => x.1.1 = block ∧ x.1.2 = idx).map (·.2)).getD []

end LivenessMap

structure TransformOptions where
  reservedSlots : ℕ

/-- A site with its original coordinates. -/
abbrev Site (F V : Type) := ℕ × ℕ × SuspensionSite F V

section
variable {S F V : Type}

/-- The key of `sites.sort_by_key`. -/
def siteLe (s t : Site F V) : Prop := s.1 < t.1 ∨ s.1 = t.1 ∧ s.2.1 ≤ t.2.1

instance : DecidableRel (siteLe : Site F V → Site F V → Prop) := fun _ _ => inferInstanceAs (Decidable (_ ∨ _))

/-- The sites of one block, in statement order. -/
def scanBlock (cfg : Cfg S) (classify : Cfg S → ℕ → ℕ → Option (SuspensionSite F V)) (bb : ℕ) :
    List (Site F V) :=
  (List.range (cfg.statementCount bb)).filterMap fun idx => (classify cfg bb idx).map fun site => (bb, idx, site)

/-- Pass 1: the sites of the original blocks, sorted by block and index. -/
def scan (cfg : Cfg S) (classify : Cfg S → ℕ → ℕ → Option (SuspensionSite F V)) : List (Site F V) :=
  (cfg.ids.flatMap (scanBlock cfg classify)).insertionSort siteLe

/-- The variables of the splitting loop. -/
structure Split (S F V : Type) where
  cfg : Cfg S
  resumeEntries : List ℕ
  yieldBlocks : List (ℕ × ℕ)
  blockKinds : List (ℕ × BlockKind F V)
  siteYieldBlocks : List ℕ
  siteResumes : List ℕ
  currentOrigBlock : ℕ
  currentBlock : ℕ
  prevOrigIdx : Option ℕ

/-- The loop before the first site. -/
def Split.start (cfg : Cfg S) (entryBlock : ℕ) : Split S F V where
  cfg := cfg
  resumeEntries := [entryBlock]
  yieldBlocks := []
  blockKinds := []
  siteYieldBlocks := []
  siteResumes := []
  currentOrigBlock := entryBlock
  currentBlock := entryBlock
  prevOrigIdx := none

/-- At the first site of an original block the running block is that block. -/
def Split.enter (σ : Split S F V) (origBb : ℕ) : Split S F V :=
  if origBb ≠ σ.currentOrigBlock ∨ σ.prevOrigIdx = none then
    { σ with currentOrigBlock := origBb, currentBlock := origBb, prevOrigIdx := none }
  else σ

/-- The index of a site in the running block: the previous split removed the statements through `prev`. -/
def currentIdx (prevOrigIdx : Option ℕ) (origIdx : ℕ) : Option ℕ :=
  match prevOrigIdx with
  | none => some origIdx
  | some prev => if prev + 1 ≤ origIdx then some (origIdx - (prev + 1)) else none

/-- Split the running block after `idx`, the index of the given site in it. -/
def Split.at (σ : Split S F V) (origIdx idx : ℕ) : SuspensionSite F V → Split S F V
  | .directYield _ =>
    let (resume, cfg) := σ.cfg.splitAfter σ.currentBlock idx
    let nextState := σ.resumeEntries.length % 2 ^ 32
    { σ with
      cfg
      resumeEntries := σ.resumeEntries ++ [resume]
      yieldBlocks := σ.yieldBlocks ++ [(σ.currentBlock, nextState)]
      blockKinds := σ.blockKinds ++ [(σ.currentBlock, .directYield)]
      siteYieldBlocks := σ.siteYieldBlocks ++ [σ.currentBlock]
      siteResumes := σ.siteResumes ++ [resume]
      currentBlock := resume
      prevOrigIdx := some origIdx }
  | .crossFnCall callee receiver args result =>
    let (postCall, cfg) := σ.cfg.splitAfter σ.currentBlock idx
    let (resumeCheck, cfg) := cfg.newBlock
    let nextState := σ.resumeEntries.length % 2 ^ 32
    { σ with
      cfg
      resumeEntries := σ.resumeEntries ++ [resumeCheck]
      yieldBlocks := σ.yieldBlocks ++ [(σ.currentBlock, nextState)]
      blockKinds := σ.blockKinds ++ [(σ.currentBlock, .crossFnCallInit resumeCheck receiver args result callee),
        (resumeCheck, .crossFnCallResume postCall receiver args result callee)]
      siteYieldBlocks := σ.siteYieldBlocks ++ [σ.currentBlock]
      siteResumes := σ.siteResumes ++ [resumeCheck]
      currentBlock := postCall
      prevOrigIdx := some origIdx }

/-- One round of the splitting loop. -/
def Split.site (σ : Split S F V) (s : Site F V) : Option (Split S F V) :=
  (currentIdx (σ.enter s.1).prevOrigIdx s.2.1).map fun idx => (σ.enter s.1).at s.2.1 idx s.2.2

/-- Pass 2: split at every site. -/
def Split.run (σ : Split S F V) (sites : List (Site F V)) : Option (Split S F V) := sites.foldlM Split.site σ

/-- The slot allocator: `value_to_slot` and `next_slot`. -/
structure Slots (V : Type) where
  slotOf : List (V × ℕ)
  nextSlot : ℕ

variable [DecidableEq V]

def Slots.get (m : Slots V) (v : V) : Option ℕ := (m.slotOf.find? fun x => x.1 = v).map (·.2)

/-- `value_to_slot.entry(v).or_insert_with(..)`. -/
def Slots.entry (m : Slots V) (v : V) : ℕ × Slots V :=
  match m.get v with
  | some slot => (slot, m)
  | none => (m.nextSlot, ⟨m.slotOf ++ [(v, m.nextSlot)], (m.nextSlot + 1) % 2 ^ 32⟩)

/-- The `(slot, value)` pairs of one site. -/
def Slots.entries (m : Slots V) : List V → List (ℕ × V) × Slots V
  | [] => ([], m)
  | v :: live =>
    let (slot, m) := m.entry v
    let (rest, m) := m.entries live
    ((slot, v) :: rest, m)

/-- The variables of the captures lift. -/
structure Lift (V : Type) where
  slots : Slots V
  yieldSaves : List (ℕ × List (ℕ × V))
  resumeLoads : List (ℕ × List (ℕ × V))

/-- The save and load tables of the `i`-th site. -/
def Lift.site (liveness : LivenessMap V) (siteYieldBlocks siteResumes : List ℕ) (tables : Lift V)
    (x : Site F V × ℕ) : Option (Lift V) :=
  let live := liveness.lookup x.1.1 x.1.2.1
  if live.isEmpty then some tables
  else do
    let (entries, slots) := tables.slots.entries live
    let yieldBlock ← siteYieldBlocks[x.2]?
    let resume ← siteResumes[x.2]?
    some ⟨slots, tables.yieldSaves ++ [(yieldBlock, entries)], tables.resumeLoads ++ [(resume, entries)]⟩

/-- Pass 3: the captures lift. -/
def lift (liveness : LivenessMap V) (options : TransformOptions) (σ : Split S F V) (sites : List (Site F V)) :
    Option (Lift V) :=
  sites.zipIdx.foldlM (Lift.site liveness σ.siteYieldBlocks σ.siteResumes) ⟨⟨[], options.reservedSlots⟩, [], []⟩

/-- `transform_to_state_machine_with_options`: the body and the layout it leaves. -/
def transformToStateMachineWithOptions (cfg : Cfg S) (fnId : F) (isSuspending : F → Bool)
    (classify : Cfg S → ℕ → ℕ → Option (SuspensionSite F V)) (liveness : LivenessMap V)
    (options : TransformOptions) : Option (Cfg S × StateMachineLayout F V) :=
  if !isSuspending fnId then some (cfg, ⟨[], [], [], [], []⟩)
  else do
    let entryBlock ← cfg.ids.head?
    let sites := scan cfg classify
    let σ ← (Split.start cfg entryBlock).run sites
    let tb ← lift liveness options σ sites
    some (σ.cfg, ⟨σ.resumeEntries, σ.yieldBlocks, tb.yieldSaves, tb.resumeLoads, σ.blockKinds⟩)

/-- `transform_to_state_machine`: no slot is reserved. -/
def transformToStateMachine (cfg : Cfg S) (fnId : F) (isSuspending : F → Bool)
    (classify : Cfg S → ℕ → ℕ → Option (SuspensionSite F V)) (liveness : LivenessMap V) :
    Option (Cfg S × StateMachineLayout F V) :=
  transformToStateMachineWithOptions cfg fnId isSuspending classify liveness ⟨0⟩

end
end Krio.Async
