import Mathlib.Logic.Relation
import Krio.Stackless.Parts

/-! Which blocks of the transformed body lead where: each executor reaches every machine and what follows the region,
and control does not leave its blocks but for these. -/

namespace Krio.Stackless

variable {U : Type} {hooks : Hooks U} {cfg cfg' : Body U} {r : Region} {start : ℕ}

/-- Control can come from the first block to the second. -/
def Reach (cfg : Body U) : ℕ → ℕ → Prop := Relation.ReflTransGen fun b s => s ∈ cfg.successors b

theorem Reach.step {a b s : ℕ} {l : List (Stmt U)} {t : Term} (h : Reach cfg a b) (hb : cfg.block b = ⟨l, t⟩)
    (hs : s ∈ t.successors) : Reach cfg a s :=
  h.tail (by rwa [Cfg.successors, Cfg.term, hb])

theorem Reach.trans {a b c : ℕ} (h : Reach cfg a b) (h' : Reach cfg b c) : Reach cfg a c := Relation.ReflTransGen.trans h h'

/-- An executor wired into the body: `E` holds its blocks and the exits of the machines, `t` is what follows the
    region. -/
structure Wires (cfg : Body U) (ms : List Machine) (top : ℕ) (t : Term) (E : ℕ → Prop) : Prop where
  dispatches : ∀ m ∈ ms, Reach cfg top m.dispatchBb
  behind : ∃ post, Reach cfg top post ∧ cfg.block post = ⟨[], t⟩
  top_mem : E top
  exits : ∀ m ∈ ms, E m.exitBb
  closed : ∀ b, E b → ∀ s ∈ cfg.successors b, E s ∨ (∃ m ∈ ms, s = m.dispatchBb) ∨ s ∈ t.successors

section
variable {ms : List Machine} {progress allDone top l hi n stuck : ℕ} {t : Term}

theorem closed_of_block {E : ℕ → Prop} {b : ℕ} {x : List (Stmt U)} {t' : Term} (hb : cfg.block b = ⟨x, t'⟩)
    (h : ∀ s ∈ t'.successors, E s ∨ (∃ m ∈ ms, s = m.dispatchBb) ∨ s ∈ t.successors) :
    ∀ s ∈ cfg.successors b, E s ∨ (∃ m ∈ ms, s = m.dispatchBb) ∨ s ∈ t.successors := fun s hs =>
  h s (by rwa [Cfg.successors, Cfg.term, hb] at hs)

theorem stuckBlock_successors {s : ℕ} (hs : s ∈ ((stuckBlock hooks top).term).successors) : s = top := by
  rw [stuckBlock] at hs
  cases hd : hooks.deadlock with
  | none => simpa [hd, Term.successors] using hs
  | some u => simp [hd, Term.successors] at hs

theorem CoopLoop.wires (h : CoopLoop hooks cfg ms progress allDone top (top + 1) (top + 2) (top + 3) l t) (hne : ms ≠ []) :
    Wires cfg ms top t fun b => top ≤ b ∧ b < top + 4 + 6 * ms.length ∨ ∃ m ∈ ms, b = m.exitBb := by
  have hpos : 0 < ms.length := List.length_pos_iff.mpr hne
  have hafter : ∀ k, roundAfter (top + 3) 5 k = top + 3 + 6 * k := fun _ => rfl
  have hcheck : ∀ k, roundCheck top (top + 3) 5 (k + 1) = top + 8 + 6 * k := fun _ => rfl
  have hget : ∀ {k}, k < ms.length → ∃ m ∈ ms, ms[k]? = some m := fun hk =>
    ⟨_, List.getElem_mem hk, List.getElem?_eq_getElem hk⟩
  -- the checks are reached one after the other
  have hturn : ∀ k < ms.length, Reach cfg top (roundCheck top (top + 3) 5 k) ∧ Reach cfg top (roundAfter (top + 3) 5 k + 3) := by
    intro k
    have hend : ∀ k < ms.length, Reach cfg top (roundCheck top (top + 3) 5 k) → Reach cfg top (roundAfter (top + 3) 5 k + 3) := by
      intro k hk hr
      obtain ⟨m, -, hm⟩ := hget hk
      have ht := h.turns k m hm
      exact ((hr.step ht.check (List.mem_cons_self)).step ht.polled List.mem_cons_self).step ht.markDone (List.mem_singleton_self _)
    induction k with
    | zero => exact fun hk => ⟨.refl, hend 0 hk .refl⟩
    | succ k ih =>
      intro hk
      have hr := (ih (by omega)).2.step (h.next k hk) (List.mem_singleton_self _)
      exact ⟨hr, hend (k + 1) hk hr⟩
  refine ⟨fun m hm => ?_, ⟨top + 2, ?_, h.post⟩, .inl ⟨le_rfl, by omega⟩, fun m hm => .inr ⟨m, hm, rfl⟩, ?_⟩
  · obtain ⟨k, hk⟩ := List.mem_iff_getElem?.mp hm
    have hr := (hturn k (List.getElem?_eq_some_iff.mp hk).1).1
    exact hr.step (h.turns k m hk).check (List.mem_cons_of_mem _ (List.mem_singleton_self _))
  · have hr := (hturn (ms.length - 1) (by omega)).2
    exact (hr.step h.final List.mem_cons_self).step h.exit (List.mem_singleton_self _)
  · have hin : ∀ {s}, top ≤ s → s < top + 4 + 6 * ms.length →
        (top ≤ s ∧ s < top + 4 + 6 * ms.length ∨ ∃ m ∈ ms, s = m.exitBb) ∨ (∃ m ∈ ms, s = m.dispatchBb) ∨ s ∈ t.successors :=
      fun h1 h2 => .inl (.inl ⟨h1, h2⟩)
    rintro b (⟨h1, h2⟩ | ⟨m, hm, rfl⟩)
    · have hturnCheck : ∀ k < ms.length, b = roundCheck top (top + 3) 5 k → ∀ s ∈ cfg.successors b,
          (top ≤ s ∧ s < top + 4 + 6 * ms.length ∨ ∃ m ∈ ms, s = m.exitBb) ∨ (∃ m ∈ ms, s = m.dispatchBb) ∨ s ∈ t.successors := by
        rintro k hk rfl
        obtain ⟨m, hmem, hm⟩ := hget hk
        refine closed_of_block (h.turns k m hm).check fun s hs => ?_
        rcases List.mem_pair.mp hs with rfl | rfl
        · exact hin (by rw [hafter]; omega) (by rw [hafter]; omega)
        · exact .inr (.inl ⟨m, hmem, rfl⟩)
      by_cases hb0 : b < top + 3
      · -- the head, the way out and what follows
        obtain rfl | rfl | rfl : b = top ∨ b = top + 1 ∨ b = top + 2 := by omega
        · exact hturnCheck 0 hpos rfl
        · refine closed_of_block h.exit fun s hs => ?_
          rw [List.mem_singleton.mp hs]
          exact hin (by omega) (by omega)
        · exact closed_of_block h.post fun s hs => .inr (.inr hs)
      · by_cases hbe : b = top + 3 + 6 * ms.length
        · refine closed_of_block (x := (stuckBlock hooks top).stmts) (hbe ▸ h.stuck) fun s hs => ?_
          rw [stuckBlock_successors hs]
          exact hin le_rfl (by omega)
        · obtain ⟨k, i, hk, hi, rfl⟩ : ∃ k i, k < ms.length ∧ i < 6 ∧ b = top + 3 + 6 * k + i :=
            ⟨(b - (top + 3)) / 6, (b - (top + 3)) % 6, by omega, by omega, by omega⟩
          obtain ⟨m, hmem, hm⟩ := hget hk
          have ht := h.turns k m hm
          rw [hafter] at ht
          have hi' : i = 0 ∨ i = 1 ∨ i = 2 ∨ i = 3 ∨ i = 4 ∨ i = 5 := by omega
          rcases hi' with rfl | rfl | rfl | rfl | rfl | rfl
          · refine closed_of_block ht.polled fun s hs => ?_
            rcases List.mem_pair.mp hs with rfl | rfl <;> exact hin (by omega) (by omega)
          · refine closed_of_block ht.markDone fun s hs => ?_
            rw [List.mem_singleton.mp hs]
            exact hin (by omega) (by omega)
          · refine closed_of_block ht.markPending fun s hs => ?_
            rcases List.mem_pair.mp hs with rfl | rfl <;> exact hin (by omega) (by omega)
          · by_cases hlast : k + 1 < ms.length
            · refine closed_of_block (h.next k hlast) fun s hs => ?_
              rw [List.mem_singleton.mp hs, hcheck]
              exact hin (by omega) (by omega)
            · obtain rfl : k = ms.length - 1 := by omega
              refine closed_of_block h.final fun s hs => ?_
              rcases List.mem_pair.mp hs with rfl | rfl <;> exact hin (by omega) (by omega)
          · refine closed_of_block ht.ran fun s hs => ?_
            rw [List.mem_singleton.mp hs]
            exact hin (by omega) (by omega)
          · by_cases hlast : k + 1 < ms.length
            · exact hturnCheck (k + 1) hlast (by rw [hcheck]; omega)
            · have hb : top + 3 + 6 * k + 5 = top + 3 + 6 * ms.length - 1 := by omega
              refine closed_of_block (hb ▸ h.notDone) fun s hs => ?_
              rcases List.mem_pair.mp hs with rfl | rfl <;> exact hin (by omega) (by omega)
    · obtain ⟨k, hk⟩ := List.mem_iff_getElem?.mp hm
      have hlt := (List.getElem?_eq_some_iff.mp hk).1
      refine closed_of_block (h.turns k m hk).exit fun s hs => ?_
      rw [List.mem_singleton.mp hs, hafter]
      exact hin (by omega) (by omega)

theorem OneshotPoll.wires (h : OneshotPoll cfg ms allDone top (top + 1) (top + 2) (top + 3) (top + 4) l t) (hne : ms ≠ []) :
    Wires cfg ms top t fun b => top ≤ b ∧ b < top + 3 + 5 * ms.length ∨ ∃ m ∈ ms, b = m.exitBb := by
  have hpos : 0 < ms.length := List.length_pos_iff.mpr hne
  have hafter : ∀ k, roundAfter (top + 4) 4 k = top + 4 + 5 * k := fun _ => rfl
  have hcheck : ∀ k, roundCheck top (top + 4) 4 (k + 1) = top + 8 + 5 * k := fun _ => rfl
  have hget : ∀ {k}, k < ms.length → ∃ m ∈ ms, ms[k]? = some m := fun hk =>
    ⟨_, List.getElem_mem hk, List.getElem?_eq_getElem hk⟩
  have hturn : ∀ k < ms.length, Reach cfg top (roundCheck top (top + 4) 4 k) ∧ Reach cfg top (roundAfter (top + 4) 4 k + 3) := by
    intro k
    have hend : ∀ k < ms.length, Reach cfg top (roundCheck top (top + 4) 4 k) → Reach cfg top (roundAfter (top + 4) 4 k + 3) := by
      intro k hk hr
      obtain ⟨m, -, hm⟩ := hget hk
      have ht := h.turns k m hm
      exact ((hr.step ht.check (List.mem_cons_self)).step ht.polled List.mem_cons_self).step ht.markDone (List.mem_singleton_self _)
    induction k with
    | zero => exact fun hk => ⟨.refl, hend 0 hk .refl⟩
    | succ k ih =>
      intro hk
      have hr := (ih (by omega)).2.step (h.next k hk) (List.mem_singleton_self _)
      exact ⟨hr, hend (k + 1) hk hr⟩
  refine ⟨fun m hm => ?_, ⟨top + 3, ?_, h.post⟩, .inl ⟨le_rfl, by omega⟩, fun m hm => .inr ⟨m, hm, rfl⟩, ?_⟩
  · obtain ⟨k, hk⟩ := List.mem_iff_getElem?.mp hm
    have hr := (hturn k (List.getElem?_eq_some_iff.mp hk).1).1
    exact hr.step (h.turns k m hk).check (List.mem_cons_of_mem _ (List.mem_singleton_self _))
  · have hr := (hturn (ms.length - 1) (by omega)).2
    exact (hr.step h.final List.mem_cons_self).step h.done (List.mem_singleton_self _)
  · have hin : ∀ {s}, top ≤ s → s < top + 3 + 5 * ms.length →
        (top ≤ s ∧ s < top + 3 + 5 * ms.length ∨ ∃ m ∈ ms, s = m.exitBb) ∨ (∃ m ∈ ms, s = m.dispatchBb) ∨ s ∈ t.successors :=
      fun h1 h2 => .inl (.inl ⟨h1, h2⟩)
    rintro b (⟨h1, h2⟩ | ⟨m, hm, rfl⟩)
    · have hturnCheck : ∀ k < ms.length, b = roundCheck top (top + 4) 4 k → ∀ s ∈ cfg.successors b,
          (top ≤ s ∧ s < top + 3 + 5 * ms.length ∨ ∃ m ∈ ms, s = m.exitBb) ∨ (∃ m ∈ ms, s = m.dispatchBb) ∨ s ∈ t.successors := by
        rintro k hk rfl
        obtain ⟨m, hmem, hm⟩ := hget hk
        refine closed_of_block (h.turns k m hm).check fun s hs => ?_
        rcases List.mem_pair.mp hs with rfl | rfl
        · exact hin (by rw [hafter]; omega) (by rw [hafter]; omega)
        · exact .inr (.inl ⟨m, hmem, rfl⟩)
      by_cases hb0 : b < top + 4
      · -- the head, the two exits and what follows
        obtain rfl | rfl | rfl | rfl : b = top ∨ b = top + 1 ∨ b = top + 2 ∨ b = top + 3 := by omega
        · exact hturnCheck 0 hpos rfl
        · refine closed_of_block h.done fun s hs => ?_
          rw [List.mem_singleton.mp hs]
          exact hin (by omega) (by omega)
        · exact closed_of_block h.pending fun s hs => absurd hs List.not_mem_nil
        · exact closed_of_block h.post fun s hs => .inr (.inr hs)
      · obtain ⟨k, i, hk, hi, rfl⟩ : ∃ k i, k < ms.length ∧ i < 5 ∧ b = top + 4 + 5 * k + i :=
          ⟨(b - (top + 4)) / 5, (b - (top + 4)) % 5, by omega, by omega, by omega⟩
        obtain ⟨m, hmem, hm⟩ := hget hk
        have ht := h.turns k m hm
        rw [hafter] at ht
        have hi' : i = 0 ∨ i = 1 ∨ i = 2 ∨ i = 3 ∨ i = 4 := by omega
        rcases hi' with rfl | rfl | rfl | rfl | rfl
        · refine closed_of_block ht.polled fun s hs => ?_
          rcases List.mem_pair.mp hs with rfl | rfl <;> exact hin (by omega) (by omega)
        · refine closed_of_block ht.markDone fun s hs => ?_
          rw [List.mem_singleton.mp hs]
          exact hin (by omega) (by omega)
        · refine closed_of_block ht.markPending fun s hs => ?_
          rw [List.mem_singleton.mp hs]
          exact hin (by omega) (by omega)
        · by_cases hlast : k + 1 < ms.length
          · refine closed_of_block (h.next k hlast) fun s hs => ?_
            rw [List.mem_singleton.mp hs, hcheck]
            exact hin (by omega) (by omega)
          · obtain rfl : k = ms.length - 1 := by omega
            refine closed_of_block h.final fun s hs => ?_
            rcases List.mem_pair.mp hs with rfl | rfl <;> exact hin (by omega) (by omega)
        · exact hturnCheck (k + 1) (by omega) (by rw [hcheck]; omega)
    · obtain ⟨k, hk⟩ := List.mem_iff_getElem?.mp hm
      have hlt := (List.getElem?_eq_some_iff.mp hk).1
      refine closed_of_block (h.turns k m hk).exit fun s hs => ?_
      rw [List.mem_singleton.mp hs, hafter]
      exact hin (by omega) (by omega)

end

end Krio.Stackless
