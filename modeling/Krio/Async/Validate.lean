import Mathlib.Data.List.Dedup
import Krio.Async.Transform

/-! `validate_layout` of `krio-async/src/validate.rs`, and the layouts it accepts. -/

namespace Krio.Async

inductive LayoutError
  | saveWithoutLoad (slot : ℕ)
  | loadWithoutSave (slot : ℕ)
  | duplicateSaveSlot (block slot : ℕ)
  | duplicateLoadSlot (block slot : ℕ)
  | entryCountMismatch (resumeEntries yieldBlocks : ℕ)
  | slotOutOfRange (slot nextSlot : ℕ)
  deriving DecidableEq, Repr

variable {F V : Type}

/-- The pairs of one block, with the slots seen before: no slot occurs twice, all are below `nextSlot`. -/
def checkEntries (duplicate : ℕ → LayoutError) (nextSlot : ℕ) : List ℕ → List (ℕ × V) → Except LayoutError Unit
  | _, [] => .ok ()
  | seen, (slot, _) :: entries =>
    if slot ∈ seen then .error (duplicate slot)
    else if nextSlot ≤ slot then .error (.slotOutOfRange slot nextSlot)
    else checkEntries duplicate nextSlot (slot :: seen) entries

/-- The check of one table, block by block. -/
def checkTable (duplicate : ℕ → ℕ → LayoutError) (nextSlot : ℕ) : List (ℕ × List (ℕ × V)) → Except LayoutError Unit
  | [] => .ok ()
  | (block, entries) :: table => do
    checkEntries (duplicate block) nextSlot [] entries
    checkTable duplicate nextSlot table

/-- The slots of a table, as the sorted keys of a map. -/
def slotsOf (table : List (ℕ × List (ℕ × V))) : List ℕ :=
  (table.flatMap fun x => x.2.map (·.1)).dedup.insertionSort (· ≤ ·)

/-- The first of `slots` that is not among `others` is an error. -/
def checkMatched (error : ℕ → LayoutError) (others : List ℕ) : List ℕ → Except LayoutError Unit
  | [] => .ok ()
  | slot :: slots => if slot ∈ others then checkMatched error others slots else .error (error slot)

def validateLayout (layout : StateMachineLayout F V) (nextSlot : ℕ) : Except LayoutError Unit := do
  if layout.resumeEntries.length ≠ layout.yieldBlocks.length + 1 then
    throw (.entryCountMismatch layout.resumeEntries.length layout.yieldBlocks.length)
  checkTable .duplicateSaveSlot nextSlot layout.yieldSaves
  checkTable .duplicateLoadSlot nextSlot layout.resumeLoads
  let saved := slotsOf layout.yieldSaves
  let loaded := slotsOf layout.resumeLoads
  checkMatched .saveWithoutLoad loaded saved
  checkMatched .loadWithoutSave saved loaded

section
variable {nextSlot : ℕ} {entries : List (ℕ × V)} {table : List (ℕ × List (ℕ × V))}

/-- What the check of a table wants of the slots of one block. -/
def EntriesOk (nextSlot : ℕ) (entries : List (ℕ × V)) : Prop :=
  (entries.map (·.1)).Nodup ∧ ∀ x ∈ entries, x.1 < nextSlot

theorem checkEntries_eq_ok {duplicate : ℕ → LayoutError} {seen : List ℕ} :
    checkEntries duplicate nextSlot seen entries = .ok () ↔
      (entries.map (·.1)).Nodup ∧ (∀ x ∈ entries, x.1 ∉ seen) ∧ ∀ x ∈ entries, x.1 < nextSlot := by
  induction entries generalizing seen with
  | nil => simp [checkEntries]
  | cons x entries ih =>
    obtain ⟨slot, v⟩ := x
    rw [checkEntries]
    by_cases hseen : slot ∈ seen
    · simp [hseen]
    · by_cases hlt : nextSlot ≤ slot
      · simp [hseen, hlt]
      · rw [if_neg hseen, if_neg hlt, ih]
        simp only [List.map_cons, List.nodup_cons, List.mem_cons, forall_eq_or_imp, not_or, List.mem_map, not_exists,
          not_and]
        constructor
        · rintro ⟨hnd, hfresh, hbound⟩
          exact ⟨⟨fun x hx => (hfresh x hx).1, hnd⟩, ⟨hseen, fun x hx => (hfresh x hx).2⟩, not_le.mp hlt, hbound⟩
        · rintro ⟨⟨hne, hnd⟩, ⟨-, hfresh⟩, -, hbound⟩
          exact ⟨hnd, fun x hx => ⟨hne x hx, hfresh x hx⟩, hbound⟩

/-- A check followed by another succeeds when both do. -/
theorem seq_eq_ok {x y : Except LayoutError Unit} : (x >>= fun _ => y) = .ok () ↔ x = .ok () ∧ y = .ok () := by
  cases x <;> simp [bind, Except.bind]

theorem checkTable_eq_ok {duplicate : ℕ → ℕ → LayoutError} :
    checkTable duplicate nextSlot table = .ok () ↔ ∀ x ∈ table, EntriesOk nextSlot x.2 := by
  induction table with
  | nil => simp [checkTable]
  | cons x table ih =>
    obtain ⟨block, entries⟩ := x
    have hentries : checkEntries (duplicate block) nextSlot [] entries = .ok () ↔
        (entries.map (·.1)).Nodup ∧ (∀ x ∈ entries, x.1 ∉ []) ∧ ∀ x ∈ entries, x.1 < nextSlot := checkEntries_eq_ok
    simp only [List.not_mem_nil, not_false_eq_true, implies_true, true_and] at hentries
    rw [checkTable, List.forall_mem_cons, ← ih, EntriesOk, ← hentries, seq_eq_ok]

theorem checkMatched_eq_ok {error : ℕ → LayoutError} {others slots : List ℕ} :
    checkMatched error others slots = .ok () ↔ ∀ slot ∈ slots, slot ∈ others := by
  induction slots with
  | nil => simp [checkMatched]
  | cons slot slots ih =>
    rw [checkMatched, List.forall_mem_cons]
    by_cases h : slot ∈ others <;> simp [h, ih]

theorem mem_slotsOf {slot : ℕ} : slot ∈ slotsOf table ↔ ∃ x ∈ table, ∃ y ∈ x.2, y.1 = slot := by
  rw [slotsOf, List.mem_insertionSort, List.mem_dedup, List.mem_flatMap]
  simp only [List.mem_map]

/-- The layouts that the validator accepts. -/
theorem validateLayout_eq_ok {layout : StateMachineLayout F V} :
    validateLayout layout nextSlot = .ok () ↔
      layout.resumeEntries.length = layout.yieldBlocks.length + 1 ∧
      (∀ x ∈ layout.yieldSaves, EntriesOk nextSlot x.2) ∧ (∀ x ∈ layout.resumeLoads, EntriesOk nextSlot x.2) ∧
      ∀ slot, slot ∈ slotsOf layout.yieldSaves ↔ slot ∈ slotsOf layout.resumeLoads := by
  unfold validateLayout
  by_cases hlen : layout.resumeEntries.length = layout.yieldBlocks.length + 1
  · simp only [hlen, ne_eq, not_true_eq_false, if_false, seq_eq_ok, checkTable_eq_ok, checkMatched_eq_ok,
      true_and]
    constructor
    · rintro ⟨hsaves, hloads, hsl, hls⟩
      exact ⟨hsaves, hloads, fun slot => ⟨hsl slot, hls slot⟩⟩
    · rintro ⟨hsaves, hloads, hiff⟩
      exact ⟨hsaves, hloads, fun slot => (hiff slot).mp, fun slot => (hiff slot).mpr⟩
  · simp [hlen, bind, Except.bind, throw, throwThe, MonadExceptOf.throw]

/-! ## Errors -/

theorem seq_eq_error {x y : Except LayoutError Unit} {e : LayoutError} :
    (x >>= fun _ => y) = .error e ↔ x = .error e ∨ x = .ok () ∧ y = .error e := by
  cases x <;> simp [bind, Except.bind]

/-- Some entry of the table lists the slot. -/
def Lists (table : List (ℕ × List (ℕ × V))) (slot : ℕ) : Prop := ∃ x ∈ table, ∃ y ∈ x.2, y.1 = slot

/-- A slot that is accused of occurring twice does, in what was seen before and what is left. -/
theorem checkEntries_eq_error {duplicate : ℕ → LayoutError} {seen : List ℕ} {e : LayoutError}
    (h : checkEntries duplicate nextSlot seen entries = .error e) :
    (∃ slot, e = duplicate slot ∧ 2 ≤ (seen ++ entries.map (·.1)).count slot) ∨
      ∃ x ∈ entries, e = .slotOutOfRange x.1 nextSlot ∧ nextSlot ≤ x.1 := by
  induction entries generalizing seen with
  | nil => cases h
  | cons x entries ih =>
    obtain ⟨slot, v⟩ := x
    rw [checkEntries] at h
    split at h
    · rename_i hseen
      obtain rfl := Except.error.inj h
      refine .inl ⟨slot, rfl, ?_⟩
      have hpos : 0 < seen.count slot := List.count_pos_iff.mpr hseen
      rw [List.map_cons, List.count_append, List.count_cons_self]
      omega
    · split at h
      · rename_i hle
        obtain rfl := Except.error.inj h
        exact .inr ⟨_, List.mem_cons_self, rfl, hle⟩
      · rcases ih h with ⟨slot', he, hcount⟩ | ⟨x, hx, he⟩
        · refine .inl ⟨slot', he, ?_⟩
          rw [List.map_cons, (List.perm_middle).count_eq]
          exact hcount
        · exact .inr ⟨x, List.mem_cons_of_mem _ hx, he⟩

theorem checkTable_eq_error {duplicate : ℕ → ℕ → LayoutError} {e : LayoutError}
    (h : checkTable duplicate nextSlot table = .error e) :
    (∃ x ∈ table, ∃ slot, e = duplicate x.1 slot ∧ 2 ≤ (x.2.map (·.1)).count slot) ∨
      ∃ slot, Lists table slot ∧ e = .slotOutOfRange slot nextSlot ∧ nextSlot ≤ slot := by
  induction table with
  | nil => cases h
  | cons x table ih =>
    obtain ⟨block, entries⟩ := x
    rcases seq_eq_error.mp h with h | ⟨-, h⟩
    · rcases checkEntries_eq_error h with ⟨slot, he, hcount⟩ | ⟨y, hy, he, hle⟩
      · exact .inl ⟨_, List.mem_cons_self, slot, he, hcount⟩
      · exact .inr ⟨y.1, ⟨_, List.mem_cons_self, y, hy, rfl⟩, he, hle⟩
    · rcases ih h with ⟨x, hx, hslot⟩ | ⟨slot, ⟨x, hx, hslot⟩, he⟩
      · exact .inl ⟨x, List.mem_cons_of_mem _ hx, hslot⟩
      · exact .inr ⟨slot, ⟨x, List.mem_cons_of_mem _ hx, hslot⟩, he⟩

theorem checkMatched_eq_error {error : ℕ → LayoutError} {others slots : List ℕ} {e : LayoutError}
    (h : checkMatched error others slots = .error e) : ∃ slot ∈ slots, slot ∉ others ∧ e = error slot := by
  induction slots with
  | nil => cases h
  | cons slot slots ih =>
    rw [checkMatched] at h
    split at h
    · obtain ⟨slot', hmem, hslot⟩ := ih h
      exact ⟨slot', List.mem_cons_of_mem _ hmem, hslot⟩
    · rename_i hnot
      exact ⟨slot, List.mem_cons_self, hnot, (Except.error.inj h).symm⟩

variable {layout : StateMachineLayout F V}

/-- What the validator asks of a layout. -/
structure Consistent (layout : StateMachineLayout F V) (nextSlot : ℕ) : Prop where
  count : layout.resumeEntries.length = layout.yieldBlocks.length + 1
  once : ∀ x ∈ layout.yieldSaves ++ layout.resumeLoads, (x.2.map (·.1)).Nodup
  below : ∀ slot, Lists (layout.yieldSaves ++ layout.resumeLoads) slot → slot < nextSlot
  matched : ∀ slot, Lists layout.yieldSaves slot ↔ Lists layout.resumeLoads slot

/-- What an error says of a layout. -/
def LayoutError.Describes (layout : StateMachineLayout F V) (nextSlot : ℕ) : LayoutError → Prop
  | .saveWithoutLoad slot => Lists layout.yieldSaves slot ∧ ¬Lists layout.resumeLoads slot
  | .loadWithoutSave slot => Lists layout.resumeLoads slot ∧ ¬Lists layout.yieldSaves slot
  | .duplicateSaveSlot block slot => ∃ entries, (block, entries) ∈ layout.yieldSaves ∧ 2 ≤ (entries.map (·.1)).count slot
  | .duplicateLoadSlot block slot => ∃ entries, (block, entries) ∈ layout.resumeLoads ∧ 2 ≤ (entries.map (·.1)).count slot
  | .entryCountMismatch entries yields =>
    entries = layout.resumeEntries.length ∧ yields = layout.yieldBlocks.length ∧ entries ≠ yields + 1
  | .slotOutOfRange slot bound => bound = nextSlot ∧ bound ≤ slot ∧ Lists (layout.yieldSaves ++ layout.resumeLoads) slot

theorem consistent_iff :
    Consistent layout nextSlot ↔ layout.resumeEntries.length = layout.yieldBlocks.length + 1 ∧
      (∀ x ∈ layout.yieldSaves, EntriesOk nextSlot x.2) ∧ (∀ x ∈ layout.resumeLoads, EntriesOk nextSlot x.2) ∧
      ∀ slot, slot ∈ slotsOf layout.yieldSaves ↔ slot ∈ slotsOf layout.resumeLoads := by
  simp only [mem_slotsOf]
  constructor
  · rintro ⟨hcount, honce, hbelow, hmatched⟩
    have hok : ∀ x ∈ layout.yieldSaves ++ layout.resumeLoads, EntriesOk nextSlot x.2 := fun x hx =>
      ⟨honce x hx, fun y hy => hbelow y.1 ⟨x, hx, y, hy, rfl⟩⟩
    exact ⟨hcount, fun x hx => hok x (List.mem_append_left _ hx), fun x hx => hok x (List.mem_append_right _ hx), hmatched⟩
  · rintro ⟨hcount, hsaves, hloads, hmatched⟩
    have hok : ∀ x ∈ layout.yieldSaves ++ layout.resumeLoads, EntriesOk nextSlot x.2 := fun x hx =>
      (List.mem_append.mp hx).elim (hsaves x) (hloads x)
    refine ⟨hcount, fun x hx => (hok x hx).1, ?_, hmatched⟩
    rintro _ ⟨x, hx, y, hy, rfl⟩
    exact (hok x hx).2 y hy

theorem Lists.saves {slot : ℕ} (h : Lists layout.yieldSaves slot) : Lists (layout.yieldSaves ++ layout.resumeLoads) slot := by
  obtain ⟨x, hx, hslot⟩ := h
  exact ⟨x, List.mem_append_left _ hx, hslot⟩

theorem Lists.loads {slot : ℕ} (h : Lists layout.resumeLoads slot) : Lists (layout.yieldSaves ++ layout.resumeLoads) slot := by
  obtain ⟨x, hx, hslot⟩ := h
  exact ⟨x, List.mem_append_right _ hx, hslot⟩

/-- An error of the validator is true of the layout. -/
theorem describes_of_error {e : LayoutError} (h : validateLayout layout nextSlot = .error e) : e.Describes layout nextSlot := by
  unfold validateLayout at h
  by_cases hlen : layout.resumeEntries.length = layout.yieldBlocks.length + 1
  case neg =>
    rw [if_pos hlen] at h
    obtain rfl := Except.error.inj h
    exact ⟨rfl, rfl, hlen⟩
  rw [if_neg (not_not_intro hlen)] at h
  rcases seq_eq_error.mp h with h | ⟨-, h⟩
  · rcases checkTable_eq_error h with ⟨x, hx, slot, rfl, hcount⟩ | ⟨slot, hslot, rfl, hle⟩
    · exact ⟨x.2, hx, hcount⟩
    · exact ⟨rfl, hle, hslot.saves⟩
  rcases seq_eq_error.mp h with h | ⟨-, h⟩
  · rcases checkTable_eq_error h with ⟨x, hx, slot, rfl, hcount⟩ | ⟨slot, hslot, rfl, hle⟩
    · exact ⟨x.2, hx, hcount⟩
    · exact ⟨rfl, hle, hslot.loads⟩
  rcases seq_eq_error.mp h with h | ⟨-, h⟩
  · obtain ⟨slot, hmem, hnot, rfl⟩ := checkMatched_eq_error h
    exact ⟨mem_slotsOf.mp hmem, fun hl => hnot (mem_slotsOf.mpr hl)⟩
  · obtain ⟨slot, hmem, hnot, rfl⟩ := checkMatched_eq_error h
    exact ⟨mem_slotsOf.mp hmem, fun hl => hnot (mem_slotsOf.mpr hl)⟩

/-- The validator accepts exactly the consistent layouts, and says nothing false of another one. -/
theorem validate_layout_exact (layout : StateMachineLayout F V) (nextSlot : ℕ) :
    (validateLayout layout nextSlot = .ok () ↔ Consistent layout nextSlot) ∧
      ∀ e, validateLayout layout nextSlot = .error e → e.Describes layout nextSlot :=
  ⟨validateLayout_eq_ok.trans consistent_iff.symm, fun _ => describes_of_error⟩

end
end Krio.Async
