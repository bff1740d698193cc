import Mathlib.Data.List.Sort
import Krio.Stackless.Transform

/-! What the transform asks of the IR builder, for one region of a body that is entered at block `start`. -/

namespace Krio.Stackless

variable {U : Type}

/-- The statement touches only locals below `n`. -/
def Stmt.Below (n : ℕ) : Stmt U → Prop
  | .host _ => True
  | .assignI64 l _ => l < n
  | .assignBool l _ => l < n
  | .eqCheckI64 dest lhs _ => dest < n ∧ lhs < n
  | .peek _ dest => dest < n
  | .recv _ => True
  | .nop => True

instance (n : ℕ) : (s : Stmt U) → Decidable (s.Below n)
  | .host _ | .recv _ | .nop => inferInstanceAs (Decidable True)
  | .assignI64 l _ | .assignBool l _ | .peek _ l => inferInstanceAs (Decidable (l < n))
  | .eqCheckI64 dest lhs _ => inferInstanceAs (Decidable (dest < n ∧ lhs < n))

/-- The terminator reads only locals below `n`. -/
def TermBelow (n : ℕ) : Term → Prop
  | .branch cond _ _ => cond < n
  | .switch discr _ _ => discr < n
  | _ => True

/-- The blocks of a coroutine: what its begin marker reaches without passing its end marker, and the block of
    the end marker. -/
inductive Inside (cfg : Body U) (c : Coroutine) : ℕ → Prop
  | begin : Inside cfg c c.begin.1
  | last : Inside cfg c c.last.1
  | next {b s : ℕ} : Inside cfg c b → b ≠ c.last.1 → s ∈ cfg.successors b → Inside cfg c s

/-- The blocks that control enters outside the coroutines: `region_begin` passes it on behind `region_end`. -/
inductive Plain (cfg : Body U) (r : Region) (start : ℕ) : ℕ → Prop
  | start : Plain cfg r start start
  | next {b s : ℕ} : Plain cfg r start b → b ≠ r.regionBegin.1 → s ∈ cfg.successors b → Plain cfg r start s
  | behind {s : ℕ} : Plain cfg r start r.regionBegin.1 → s ∈ cfg.successors r.regionEnd.1 → Plain cfg r start s

/-- The part of the IR-builder contract that places the markers of the region `r` and bounds its coroutines. Other
    statements may stand beside a marker. -/
structure Marked (hooks : Hooks U) (cfg : Body U) (r : Region) (start : ℕ) : Prop where
  start_lt : start < cfg.next
  /-- Terminators lead to blocks of the body. -/
  targets : ∀ b < cfg.next, ∀ s ∈ cfg.successors b, s < cfg.next
  /-- The region has coroutines, and its markers are where it says. -/
  nonempty : r.coroutines ≠ []
  markers_lt : ∀ p ∈ r.regionBegin :: r.regionEnd :: r.coroutines.flatMap (fun c => [c.begin, c.last]), p.1 < cfg.next
  region_begin : hooks.classifyMarker cfg r.regionBegin.1 r.regionBegin.2 = some .regionBegin
  region_end : hooks.classifyMarker cfg r.regionEnd.1 r.regionEnd.2 = some .regionEnd
  coroutine_begin : ∀ c ∈ r.coroutines, hooks.classifyMarker cfg c.begin.1 c.begin.2 = some .coroutineBegin
  coroutine_end : ∀ c ∈ r.coroutines, hooks.classifyMarker cfg c.last.1 c.last.2 = some .coroutineEnd
  /-- No two markers share a block, but for `region_begin` and the first `coroutine_begin` behind it. -/
  alone : ∀ b < cfg.next, ∀ i j m m', hooks.classifyMarker cfg b i = some m → hooks.classifyMarker cfg b j = some m' →
    i < j → (b, i) = r.regionBegin ∧ ∃ c, r.coroutines.head? = some c ∧ (b, j) = c.begin
  /-- Bodies share no block. -/
  apart : ∀ (j k : ℕ) (c d : Coroutine), r.coroutines[j]? = some c → r.coroutines[k]? = some d →
    ∀ b, Inside cfg c b → Inside cfg d b → j = k
  /-- Bodies do not hold the region's own markers, but for a shared begin block. -/
  begin_outside : ∀ c ∈ r.coroutines, Inside cfg c r.regionBegin.1 → c.begin.1 = r.regionBegin.1
  end_outside : ∀ c ∈ r.coroutines, ¬Inside cfg c r.regionEnd.1
  /-- Control enters a body, and reaches `region_end`, through the region only. -/
  plain : ∀ b, Plain cfg r start b → b ≠ r.regionEnd.1 ∧
    ∀ c ∈ r.coroutines, Inside cfg c b → b = r.regionBegin.1

/-- A marked region whose bodies run as the transform expects: they touch the locals of the body only, and control
    never comes back to a begin marker's block. -/
structure Confined (hooks : Hooks U) (cfg : Body U) (r : Region) (start : ℕ) : Prop extends Marked hooks cfg r start where
  stmts_below : ∀ b < cfg.next, ∀ s ∈ cfg.stmts b, s.Below cfg.locals.length
  term_below : ∀ b < cfg.next, TermBelow cfg.locals.length (cfg.term b)
  entered_once : ∀ c ∈ r.coroutines, ∀ b, Inside cfg c b → b ≠ c.last.1 → c.begin.1 ∉ cfg.successors b

/-- The IR-builder contract for the region `r`. -/
structure Conforms (hooks : Hooks U) (cfg : Body U) (r : Region) (start : ℕ) : Prop extends Confined hooks cfg r start where
  /-- No statement lies between the region's markers outside a coroutine. -/
  begins : ∀ c ∈ r.coroutines, c.begin.2 = 0 ∨ c.begin = (r.regionBegin.1, r.regionBegin.2 + 1)
  /-- `coroutine_end` and `region_end` are last in their blocks. -/
  ends : ∀ c ∈ r.coroutines, (cfg.stmts c.last.1).length = c.last.2 + 1
  end_last : (cfg.stmts r.regionEnd.1).length = r.regionEnd.2 + 1

variable {hooks : Hooks U} {cfg : Body U} {r : Region} {start : ℕ} {c : Coroutine}

theorem classify_host {b i : ℕ} {m : Marker} (h : hooks.classifyMarker cfg b i = some m) :
    ∃ u, (cfg.stmts b)[i]? = some (.host u) := by
  rw [Hooks.classifyMarker] at h
  obtain ⟨s, hs, hm⟩ := Option.bind_eq_some_iff.mp h
  cases s with
  | host u => exact ⟨u, hs⟩
  | _ => exact absurd hm (by simp [Hooks.classify])

theorem SuspKind.ofMarker_eq_some {m : Marker} {k : SuspKind} (h : SuspKind.ofMarker m = some k) :
    m = match k with | .yield => .yield | .guardedRecv => .guardedRecv | .producingSend => .producingSend := by
  cases m <;> cases h <;> rfl

/-- What the begin marker reaches without passing the end marker. -/
def Reached (cfg : Body U) (c : Coroutine) : ℕ → Prop :=
  Relation.ReflTransGen (fun b s => s ∈ if b = c.last.1 then [] else cfg.successors b) c.begin.1

theorem Reached.inside {b : ℕ} (h : Reached cfg c b) : Inside cfg c b := by
  induction h with
  | refl => exact .begin
  | @tail b s _ hs ih =>
    split at hs
    · simp at hs
    · rename_i hne
      exact .next ih hne hs

theorem Inside.reached {b : ℕ} (h : Inside cfg c b) (hne : b ≠ c.last.1) : Reached cfg c b := by
  induction h with
  | begin => exact .refl
  | last => exact absurd rfl hne
  | @next b s _ hb hs ih => exact (ih hb).tail (by rw [if_neg hb]; exact hs)

/-- A list with at most one index at which `f` has a value yields at most one value. -/
theorem filterMap_length_le_one {α β : Type} (f : α → Option β) (l : List α) (hnodup : l.Nodup)
    (h : ∀ x ∈ l, ∀ y ∈ l, (f x).isSome → (f y).isSome → x = y) : (l.filterMap f).length ≤ 1 := by
  induction l with
  | nil => simp
  | cons x l ih =>
    rw [List.nodup_cons] at hnodup
    have hrest := ih hnodup.2 fun y hy z hz => h y (List.mem_cons_of_mem _ hy) z (List.mem_cons_of_mem _ hz)
    cases hx : f x with
    | none => simpa [List.filterMap_cons, hx] using hrest
    | some v =>
      have hnil : l.filterMap f = [] := by
        refine List.filterMap_eq_nil_iff.mpr fun y hy => ?_
        by_contra hne
        have heq := h x List.mem_cons_self y (List.mem_cons_of_mem _ hy) (by simp [hx]) (Option.isSome_iff_ne_none.mpr hne)
        exact hnodup.1 (heq ▸ hy)
      simp [hx, hnil]

namespace Marked

/-- A suspension marker is the only marker of its block. -/
theorem suspension_alone (h : Marked hooks cfg r start) {b i j : ℕ} {m m' : Marker} {k : SuspKind} (hb : b < cfg.next)
    (hi : hooks.classifyMarker cfg b i = some m) (hk : SuspKind.ofMarker m = some k)
    (hj : hooks.classifyMarker cfg b j = some m') : i = j := by
  have hrb := h.region_begin
  rcases Nat.lt_trichotomy i j with hlt | heq | hlt
  · obtain ⟨heq, -⟩ := h.alone b hb i j m m' hi hj hlt
    rw [← heq] at hrb
    rw [hi] at hrb
    cases hrb
    cases hk
  · exact heq
  · obtain ⟨-, c, hc, heq⟩ := h.alone b hb j i m' m hj hi hlt
    have hcb := h.coroutine_begin c (List.mem_of_mem_head? hc)
    rw [← heq, hi] at hcb
    cases hcb
    cases hk

theorem mem_markers_lt (h : Marked hooks cfg r start) (hc : c ∈ r.coroutines) :
    c.begin.1 < cfg.next ∧ c.last.1 < cfg.next := by
  have hm : ∀ p ∈ [c.begin, c.last], p.1 < cfg.next := fun p hp =>
    h.markers_lt p (List.mem_cons_of_mem _ (List.mem_cons_of_mem _ (List.mem_flatMap.mpr ⟨c, hc, hp⟩)))
  exact ⟨hm _ List.mem_cons_self, hm _ (List.mem_cons_of_mem _ List.mem_cons_self)⟩

theorem inside_lt (h : Marked hooks cfg r start) (hc : c ∈ r.coroutines) {b : ℕ} (hb : Inside cfg c b) : b < cfg.next := by
  induction hb with
  | begin => exact (h.mem_markers_lt hc).1
  | last => exact (h.mem_markers_lt hc).2
  | next _ _ hs ih => exact h.targets _ ih _ hs

theorem region_lt (h : Marked hooks cfg r start) : r.regionBegin.1 < cfg.next ∧ r.regionEnd.1 < cfg.next :=
  ⟨h.markers_lt _ List.mem_cons_self, h.markers_lt _ (List.mem_cons_of_mem _ List.mem_cons_self)⟩

theorem plain_lt (h : Marked hooks cfg r start) {b : ℕ} (hb : Plain cfg r start b) : b < cfg.next := by
  induction hb with
  | start => exact h.start_lt
  | next _ _ hs ih => exact h.targets _ ih _ hs
  | behind _ hs _ => exact h.targets _ h.region_lt.2 _ hs

/-- The depth-first search collects what the begin marker reaches. -/
theorem mem_bodyBlocks (h : Marked hooks cfg r start) (hc : c ∈ r.coroutines) {b : ℕ} :
    b ∈ bodyBlocks cfg c.begin.1 c.last.1 ↔ Reached cfg c b := by
  refine Lib.mem_collect_iff (List.range cfg.next) ?_ ?_ ?_ b
  · intro a ha s hs
    rw [List.mem_range] at ha ⊢
    split at hs
    · simp at hs
    · exact h.targets a ha s hs
  · exact List.mem_range.mpr (h.mem_markers_lt hc).1
  · simp

/-- A block with a suspension marker holds no other marker of the region. -/
theorem suspension_block (h : Marked hooks cfg r start) {b i : ℕ} {m : Marker} {k : SuspKind} (hb : b < cfg.next)
    (hi : hooks.classifyMarker cfg b i = some m) (hk : SuspKind.ofMarker m = some k) :
    b ≠ r.regionBegin.1 ∧ b ≠ r.regionEnd.1 ∧ ∀ c ∈ r.coroutines, b ≠ c.begin.1 ∧ b ≠ c.last.1 := by
  have key : ∀ (p : Pos) (m' : Marker), hooks.classifyMarker cfg p.1 p.2 = some m' → SuspKind.ofMarker m' = none → b ≠ p.1 := by
    rintro ⟨b', j⟩ m' hp hn rfl
    obtain rfl := h.suspension_alone hb hi hk hp
    rw [hi] at hp
    cases hp
    rw [hk] at hn
    cases hn
  exact ⟨key _ _ h.region_begin rfl, key _ _ h.region_end rfl, fun c hc =>
    ⟨key _ _ (h.coroutine_begin c hc) rfl, key _ _ (h.coroutine_end c hc) rfl⟩⟩

theorem mem_pointsOf {b : ℕ} {p : Point} (hp : p ∈ pointsOf hooks cfg c b) :
    p.bb = b ∧ ∃ m, hooks.classifyMarker cfg b p.stmt = some m ∧ SuspKind.ofMarker m = some p.kind := by
  obtain ⟨i, -, hi⟩ := List.mem_filterMap.mp hp
  obtain ⟨k, hk, rfl⟩ := Option.map_eq_some_iff.mp hi
  obtain ⟨m, hm, hmk⟩ := Option.bind_eq_some_iff.mp hk
  exact ⟨rfl, m, hm, hmk⟩

/-- The points are the suspension markers that the begin marker reaches. -/
theorem mem_points (h : Marked hooks cfg r start) (hc : c ∈ r.coroutines) {p : Point} :
    p ∈ findSuspensionPoints hooks cfg c ↔ Reached cfg c p.bb ∧
      ∃ m, hooks.classifyMarker cfg p.bb p.stmt = some m ∧ SuspKind.ofMarker m = some p.kind := by
  simp only [findSuspensionPoints, List.mem_flatMap, List.mem_insertionSort, h.mem_bodyBlocks hc]
  constructor
  · rintro ⟨b, hb, hp⟩
    obtain ⟨rfl, hm⟩ := mem_pointsOf hp
    exact ⟨hb, hm⟩
  · rintro ⟨hb, m, hm, hk⟩
    refine ⟨p.bb, hb, ?_⟩
    have hlt := h.inside_lt hc hb.inside
    obtain ⟨-, -, hothers⟩ := h.suspension_block hlt hm hk
    obtain ⟨hnb, hnl⟩ := hothers c hc
    obtain ⟨u, hu⟩ := classify_host hm
    have hlen : p.stmt < cfg.statementCount p.bb := (List.getElem?_eq_some_iff.mp hu).1
    rw [pointsOf, if_neg hnb, if_neg hnl]
    refine List.mem_filterMap.mpr ⟨p.stmt, ?_, ?_⟩
    · rw [List.mem_range'_1]
      omega
    · rw [hm]
      simp [hk]

theorem pointsOf_length (h : Marked hooks cfg r start) {b : ℕ} (hb : b < cfg.next) :
    (pointsOf hooks cfg c b).length ≤ 1 := by
  refine filterMap_length_le_one _ _ List.nodup_range' ?_
  intro i _ j _ hi hj
  rw [Option.isSome_map] at hi hj
  obtain ⟨k, hk⟩ := Option.isSome_iff_exists.mp hi
  obtain ⟨k', hk'⟩ := Option.isSome_iff_exists.mp hj
  obtain ⟨m, hm, hmk⟩ := Option.bind_eq_some_iff.mp hk
  obtain ⟨m', hm', -⟩ := Option.bind_eq_some_iff.mp hk'
  exact h.suspension_alone hb hm hmk hm'

/-- The points are in the order of their blocks, and every point has a block of its own. -/
theorem points_sorted (h : Marked hooks cfg r start) (hc : c ∈ r.coroutines) :
    ((findSuspensionPoints hooks cfg c).map (·.bb)).Pairwise (· < ·) := by
  have hnodup : ((bodyBlocks cfg c.begin.1 c.last.1).insertionSort (· ≤ ·)).Nodup :=
    (List.perm_insertionSort _ _).nodup_iff.mpr (Lib.collect_nodup _ _ _ (List.nodup_singleton _))
  have hsorted : ((bodyBlocks cfg c.begin.1 c.last.1).insertionSort (· ≤ ·)).Pairwise (· < ·) :=
    ((List.pairwise_insertionSort _ _).and hnodup).imp fun h => lt_of_le_of_ne h.1 h.2
  have hlt : ∀ b ∈ (bodyBlocks cfg c.begin.1 c.last.1).insertionSort (· ≤ ·), b < cfg.next := fun b hb =>
    h.inside_lt hc ((h.mem_bodyBlocks hc).mp ((List.perm_insertionSort _ _).mem_iff.mp hb)).inside
  rw [findSuspensionPoints]
  generalize (bodyBlocks cfg c.begin.1 c.last.1).insertionSort (· ≤ ·) = l at hsorted hlt
  induction l with
  | nil => simp
  | cons b l ih =>
    rw [List.pairwise_cons] at hsorted
    rw [List.flatMap_cons, List.map_append]
    refine List.pairwise_append.mpr ⟨?_, ih hsorted.2 fun x hx => hlt x (List.mem_cons_of_mem _ hx), ?_⟩
    · have hlen := h.pointsOf_length (c := c) (hlt b List.mem_cons_self)
      match hp : pointsOf hooks cfg c b with
      | [] => simp
      | [p] => simp
      | p :: q :: ps => simp [hp] at hlen
    · intro x hx y hy
      obtain ⟨p, hp, rfl⟩ := List.mem_map.mp hx
      obtain ⟨q, hq, rfl⟩ := List.mem_map.mp hy
      obtain ⟨d, hd, hq⟩ := List.mem_flatMap.mp hq
      rw [(mem_pointsOf hp).1, (mem_pointsOf hq).1]
      exact hsorted.1 d hd

theorem points_nodup (h : Marked hooks cfg r start) (hc : c ∈ r.coroutines) :
    ((findSuspensionPoints hooks cfg c).map (·.bb)).Nodup := (h.points_sorted hc).imp fun hlt => hlt.ne

end Marked

end Krio.Stackless
