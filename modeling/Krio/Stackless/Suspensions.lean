import Krio.Stackless.Coroutines
import Krio.Stackless.Resumption

/-! What `find_suspension_points` finds, over the paths of a coroutine's statements. -/

namespace Krio.Stackless

variable {U : Type} {hooks : Hooks U} {cfg : Body U} {c : Coroutine} {p : Pos}

/-- Where control comes from behind the begin marker without passing the end marker: to a statement, or to the
    terminator behind the last one. -/
inductive Along (cfg : Body U) (c : Coroutine) : Pos → Prop
  | begin : Along cfg c (after c.begin)
  | next {p : Pos} : Along cfg c p → p ≠ c.last → p.2 < cfg.statementCount p.1 → Along cfg c (after p)
  | jump {p : Pos} {s : ℕ} : Along cfg c p → p.2 = cfg.statementCount p.1 → s ∈ cfg.successors p.1 → Along cfg c (s, 0)

/-- The marker at `p` is a suspension of this kind, on a path of the coroutine. -/
def SuspendsAt (hooks : Hooks U) (cfg : Body U) (c : Coroutine) (p : Pos) (kind : SuspKind) : Prop :=
  Along cfg c p ∧ p ≠ c.last ∧ (hooks.classifyMarker cfg p.1 p.2).bind SuspKind.ofMarker = some kind

/-- The markers of a coroutine are statements of the body, the begin marker before the end marker where they share a
    block. -/
structure Placed (cfg : Body U) (c : Coroutine) : Prop where
  begin_mem : c.begin.1 ∈ cfg.ids
  begin_lt : c.begin.2 < cfg.statementCount c.begin.1
  last_lt : c.last.2 < cfg.statementCount c.last.1
  forward : c.begin.1 = c.last.1 → c.begin.2 < c.last.2

/-- The stack of the search and the blocks seen so far, one round further. -/
def searchRound (cfg : Body U) (last : ℕ) : List ℕ × List ℕ → Option (List ℕ × List ℕ) :=
  Lib.round fun bb => if bb = last then [] else cfg.successors bb

/-! ## The regions of the scan -/

/-- The positions of a block come in order. -/
theorem positions_sorted (cfg : Body U) : (positions cfg).Pairwise fun p q => p.1 = q.1 → p.2 < q.2 := by
  have hnodup := cfg.ids_nodup
  rw [positions]
  generalize cfg.ids = ids at hnodup
  induction ids with
  | nil => exact List.Pairwise.nil
  | cons bb ids ih =>
    rw [List.nodup_cons] at hnodup
    rw [List.flatMap_cons]
    refine List.pairwise_append.mpr ⟨?_, ih hnodup.2, fun p hp q hq heq => ?_⟩
    · refine List.pairwise_map.mpr (List.pairwise_lt_range.imp fun {i j} hlt _ => ?_)
      exact hlt
    · obtain ⟨i, -, rfl⟩ := List.mem_map.mp hp
      obtain ⟨b, hb, hq⟩ := List.mem_flatMap.mp hq
      obtain ⟨j, -, rfl⟩ := List.mem_map.mp hq
      have heq' : bb = b := heq
      exact absurd (heq' ▸ hb) hnodup.1

theorem mem_positions (hp : p ∈ positions cfg) : p.1 ∈ cfg.ids ∧ p.2 < cfg.statementCount p.1 := by
  obtain ⟨b, hb, hp⟩ := List.mem_flatMap.mp hp
  obtain ⟨i, hi, rfl⟩ := List.mem_map.mp hp
  exact ⟨hb, List.mem_range.mp hi⟩

/-- What the scan holds is placed: the coroutines it has closed, and the begin marker it has come by. -/
structure Scan.Placed (cfg : Body U) (seen : List Pos) (σ : Scan) : Prop where
  regions : ∀ r ∈ σ.regions, ∀ c ∈ r.coroutines, Stackless.Placed cfg c
  current : ∀ c ∈ σ.currentCoroutines, Stackless.Placed cfg c
  begin : ∀ p, σ.currentCoroBegin = some p → p ∈ seen

theorem Scan.Placed.visit {seen : List Pos} {σ : Scan} (h : σ.Placed cfg seen) (hseen : ∀ q ∈ seen, q ∈ positions cfg)
    (hp : p ∈ positions cfg) (hlt : ∀ q ∈ seen, q.1 = p.1 → q.2 < p.2) : (σ.visit hooks cfg p).Placed cfg (seen ++ [p]) := by
  have hkeep : ∀ q, σ.currentCoroBegin = some q → q ∈ seen ++ [p] := fun q hq => List.mem_append_left _ (h.begin q hq)
  rw [Scan.visit]
  split
  · rename_i m _
    cases m with
    | regionBegin => exact ⟨h.regions, fun c hc => absurd hc List.not_mem_nil, hkeep⟩
    | regionEnd =>
      rw [Scan.step]
      split
      · refine ⟨fun r hr c hc => ?_, fun c hc => absurd hc List.not_mem_nil, hkeep⟩
        rcases List.mem_append.mp hr with hr | hr
        · exact h.regions r hr c hc
        · rw [List.mem_singleton.mp hr] at hc
          exact h.current c hc
      · exact ⟨h.regions, h.current, hkeep⟩
    | coroutineBegin =>
      refine ⟨h.regions, h.current, fun q hq => ?_⟩
      cases hq
      exact List.mem_append_right _ (List.mem_singleton_self p)
    | coroutineEnd =>
      rw [Scan.step]
      split
      · rename_i begin hbegin
        refine ⟨h.regions, fun c hc => ?_, fun q hq => ?_⟩
        · rcases List.mem_append.mp hc with hc | hc
          · exact h.current c hc
          · rw [List.mem_singleton.mp hc]
            have hin := h.begin begin hbegin
            obtain ⟨h1, h2⟩ := mem_positions (hseen begin hin)
            exact ⟨h1, h2, (mem_positions hp).2, hlt begin hin⟩
        · cases hq
      · exact ⟨h.regions, h.current, hkeep⟩
    | _ => exact ⟨h.regions, h.current, hkeep⟩
  · exact ⟨h.regions, h.current, hkeep⟩

/-- Every coroutine that `find_regions` returns is placed. -/
theorem findRegions_placed {r : Region} (hr : r ∈ findRegions hooks cfg) (hc : c ∈ r.coroutines) : Placed cfg c := by
  have hscan : ∀ rest seen : List Pos, ∀ σ : Scan, seen ++ rest = positions cfg → σ.Placed cfg seen →
      (rest.foldl (Scan.visit hooks cfg) σ).Placed cfg (positions cfg) := by
    intro rest
    induction rest with
    | nil =>
      intro seen σ heq h
      rw [List.append_nil] at heq
      exact heq ▸ h
    | cons p rest ih =>
      intro seen σ heq h
      have hsorted := heq ▸ positions_sorted cfg
      refine ih (seen ++ [p]) _ (by rw [List.append_assoc, List.singleton_append, heq]) (h.visit (fun q hq => ?_) ?_ fun q hq => ?_)
      · exact heq ▸ List.mem_append_left _ hq
      · exact heq ▸ List.mem_append_right _ List.mem_cons_self
      · exact (List.pairwise_append.mp hsorted).2.2 q hq p List.mem_cons_self
  have hstart : Scan.start.Placed cfg [] :=
    ⟨fun r hr => absurd hr List.not_mem_nil, fun c hc => absurd hc List.not_mem_nil, fun q hq => by cases hq⟩
  exact (hscan (positions cfg) [] .start rfl hstart).regions r hr c hc

/-! ## The paths of a coroutine -/

/-- The blocks of a body lead to blocks of the body. -/
def Closed (cfg : Body U) : Prop := ∀ b ∈ cfg.ids, ∀ s ∈ cfg.successors b, s ∈ cfg.ids

theorem ids_length_le (cfg : Body U) : cfg.ids.length ≤ cfg.next := by
  have hsub : cfg.ids ⊆ List.range cfg.next := fun b hb => List.mem_range.mpr (cfg.ids_lt b hb)
  simpa using (List.subperm_of_subset cfg.ids_nodup hsub).length_le

theorem Closed.cut (h : Closed cfg) (last : ℕ) :
    ∀ a ∈ cfg.ids, ∀ s ∈ if a = last then [] else cfg.successors a, s ∈ cfg.ids := by
  intro a ha s hs
  split at hs
  · cases hs
  · exact h a ha s hs

theorem Closed.mem_bodyBlocks (h : Closed cfg) (hb : c.begin.1 ∈ cfg.ids) {b : ℕ} :
    b ∈ bodyBlocks cfg c.begin.1 c.last.1 ↔ Reached cfg c b :=
  Lib.mem_collect_iff cfg.ids (h.cut c.last.1) hb (ids_length_le cfg) b

/-- The search ends, with its stack empty. -/
theorem Closed.search_ends (h : Closed cfg) (hb : c.begin.1 ∈ cfg.ids) :
    Relation.ReflTransGen (fun σ τ => searchRound cfg c.last.1 σ = some τ) ([c.begin.1], [c.begin.1])
      (bodyBlocks cfg c.begin.1 c.last.1, []) := by
  refine Lib.collect_ends (h.cut c.last.1) cfg.next _ _ (List.nodup_singleton _) (fun a ha => ?_) (fun a ha => ha) ?_
  · rwa [List.mem_singleton.mp ha]
  · have hle := ids_length_le cfg
    simp only [List.length_singleton]
    omega

/-- The first statement of a block that the coroutine may run. -/
def firstIn (c : Coroutine) (b : ℕ) : ℕ := if b = c.begin.1 then c.begin.2 + 1 else 0

/-- Control that comes to a block runs along it up to the end marker. -/
theorem Along.walk {b i : ℕ} (h : Along cfg c (b, i)) {n : ℕ} (hn : i + n ≤ cfg.statementCount b)
    (hlast : b = c.last.1 → i + n ≤ c.last.2) : Along cfg c (b, i + n) := by
  induction n with
  | zero => exact h
  | succ n ih =>
    have hprev := ih (by omega) fun heq => by
      have hle := hlast heq
      omega
    refine .next hprev (fun heq => ?_) (show i + n < cfg.statementCount b by omega)
    have hle := hlast (congrArg Prod.fst heq)
    have hsnd : i + n = c.last.2 := congrArg Prod.snd heq
    omega

/-- No path comes back to the begin marker's block, but through the end marker. -/
def NeverBack (cfg : Body U) (c : Coroutine) : Prop := ∀ p, Along cfg c p → p.1 = c.begin.1 → c.begin.2 < p.2

namespace Placed

/-- Where control may be lies between the markers. -/
theorem bounds (h : Placed cfg c) (hback : NeverBack cfg c) (hp : Along cfg c p) :
    Reached cfg c p.1 ∧ firstIn c p.1 ≤ p.2 ∧ (p.1 = c.last.1 → p.2 ≤ c.last.2) := by
  have hfirst : firstIn c p.1 ≤ p.2 := by
    rw [firstIn]
    split
    · rename_i heq
      exact hback p hp heq
    · exact Nat.zero_le _
  suffices hrest : Reached cfg c p.1 ∧ (p.1 = c.last.1 → p.2 ≤ c.last.2) from ⟨hrest.1, hfirst, hrest.2⟩
  clear hfirst
  induction hp with
  | begin => exact ⟨.refl, fun heq => h.forward heq⟩
  | @next p _ hne _ ih =>
    refine ⟨ih.1, fun heq => ?_⟩
    have hsnd : p.2 ≠ c.last.2 := fun hsnd => hne (Prod.ext heq hsnd)
    have hle := ih.2 heq
    exact Nat.succ_le_of_lt (lt_of_le_of_ne hle hsnd)
  | @jump p s _ hcount hs ih =>
    have hne : p.1 ≠ c.last.1 := fun heq => by
      have hle := ih.2 heq
      have hlt := h.last_lt
      rw [heq] at hcount
      omega
    exact ⟨ih.1.tail (by rwa [if_neg hne]), fun _ => Nat.zero_le _⟩

/-- Control may come to the first statement of every block reached. -/
theorem along_first (h : Placed cfg c) (hback : NeverBack cfg c) {b : ℕ} (hb : Reached cfg c b) :
    Along cfg c (b, firstIn c b) := by
  induction hb with
  | refl =>
    rw [firstIn, if_pos rfl]
    exact .begin
  | @tail b s _ hs ih =>
    split at hs
    · cases hs
    · rename_i hne
      have hle : firstIn c b ≤ cfg.statementCount b := by
        rw [firstIn]
        split
        · rename_i heq
          exact heq ▸ h.begin_lt
        · exact Nat.zero_le _
      have hend : Along cfg c (b, cfg.statementCount b) := by
        have hwalk := ih.walk (n := cfg.statementCount b - firstIn c b) (by omega) fun heq => absurd heq hne
        rwa [Nat.add_sub_cancel' hle] at hwalk
      have hjump := hend.jump rfl hs
      have hnb : s ≠ c.begin.1 := fun heq => absurd (hback _ hjump heq) (Nat.not_lt_zero _)
      rwa [firstIn, if_neg hnb]

/-- The points are the suspensions on the coroutine's paths. -/
theorem mem_points (h : Placed cfg c) (hclosed : Closed cfg) (hback : NeverBack cfg c) (q : Point) :
    q ∈ findSuspensionPoints hooks cfg c ↔ SuspendsAt hooks cfg c (q.bb, q.stmt) q.kind := by
  simp only [findSuspensionPoints, List.mem_flatMap, List.mem_insertionSort, hclosed.mem_bodyBlocks h.begin_mem]
  constructor
  · rintro ⟨b, hb, hq⟩
    obtain ⟨i, hi, hkind⟩ := List.mem_filterMap.mp hq
    obtain ⟨k, hk, rfl⟩ := Option.map_eq_some_iff.mp hkind
    rw [List.mem_range'_1] at hi
    change firstIn c b ≤ i ∧ _ at hi
    obtain ⟨hlo, hhi⟩ := hi
    obtain ⟨m, hm, -⟩ := Option.bind_eq_some_iff.mp hk
    obtain ⟨u, hu⟩ := classify_host hm
    have hcount : i < cfg.statementCount b := (List.getElem?_eq_some_iff.mp hu).1
    have hlast : b = c.last.1 → i < c.last.2 := fun heq => by
      rw [if_pos heq] at hhi
      change i < firstIn c b + (c.last.2 - firstIn c b) at hhi
      omega
    refine ⟨?_, fun heq => ?_, hk⟩
    · have hwalk := (h.along_first hback hb).walk (n := i - firstIn c b) (by omega) fun heq => by
        have hlt := hlast heq
        omega
      rwa [Nat.add_sub_cancel' hlo] at hwalk
    · have hlt := hlast (congrArg Prod.fst heq)
      have hsnd : i = c.last.2 := congrArg Prod.snd heq
      omega
  · rintro ⟨halong, hne, hk⟩
    obtain ⟨hb, hlo, hhi⟩ := h.bounds hback halong
    obtain ⟨m, hm, -⟩ := Option.bind_eq_some_iff.mp hk
    obtain ⟨u, hu⟩ := classify_host hm
    have hcount : q.stmt < cfg.statementCount q.bb := (List.getElem?_eq_some_iff.mp hu).1
    refine ⟨q.bb, hb, List.mem_filterMap.mpr ⟨q.stmt, ?_, ?_⟩⟩
    · rw [List.mem_range'_1]
      change firstIn c q.bb ≤ q.stmt ∧ q.stmt < firstIn c q.bb + (_ - firstIn c q.bb)
      refine ⟨hlo, ?_⟩
      split
      · rename_i heq
        have hsnd : q.stmt ≠ c.last.2 := fun hsnd => hne (Prod.ext heq hsnd)
        have hle : q.stmt ≤ c.last.2 := hhi heq
        have hlo' : firstIn c q.bb ≤ q.stmt := hlo
        omega
      · have hlo' : firstIn c q.bb ≤ q.stmt := hlo
        omega
    · rw [hk]
      rfl

end Placed

/-- The order of the list: by block, then by statement. -/
def Point.Before (p q : Point) : Prop := p.bb < q.bb ∨ p.bb = q.bb ∧ p.stmt < q.stmt

theorem points_before (hooks : Hooks U) (cfg : Body U) (c : Coroutine) :
    (findSuspensionPoints hooks cfg c).Pairwise Point.Before := by
  have hnodup : ((bodyBlocks cfg c.begin.1 c.last.1).insertionSort (· ≤ ·)).Nodup :=
    (List.perm_insertionSort _ _).nodup_iff.mpr (Lib.collect_nodup _ _ _ (List.nodup_singleton _))
  have hsorted : ((bodyBlocks cfg c.begin.1 c.last.1).insertionSort (· ≤ ·)).Pairwise (· < ·) :=
    ((List.pairwise_insertionSort _ _).and hnodup).imp fun h => lt_of_le_of_ne h.1 h.2
  rw [findSuspensionPoints, List.flatMap, List.pairwise_flatten]
  refine ⟨fun l hl => ?_, ?_⟩
  · obtain ⟨b, -, rfl⟩ := List.mem_map.mp hl
    refine List.Pairwise.filterMap _ (R := (· < ·)) (fun i j hij p hp q hq => ?_) (List.pairwise_lt_range' _)
    obtain ⟨k, -, rfl⟩ := Option.map_eq_some_iff.mp hp
    obtain ⟨k', -, rfl⟩ := Option.map_eq_some_iff.mp hq
    exact .inr ⟨rfl, hij⟩
  · refine List.pairwise_map.mpr (hsorted.imp fun {b b'} hlt p hp q hq => .inl ?_)
    rw [(Marked.mem_pointsOf hp).1, (Marked.mem_pointsOf hq).1]
    exact hlt

/-- The search ends, and the list holds the suspensions on the coroutine's paths, each once, in the order of their
    blocks and statements. -/
theorem findSuspensionPoints_spec (hclosed : Closed cfg) (h : Placed cfg c) (hback : NeverBack cfg c) :
    (∃ body, Relation.ReflTransGen (fun σ τ => searchRound cfg c.last.1 σ = some τ) ([c.begin.1], [c.begin.1]) (body, []) ∧
      findSuspensionPoints hooks cfg c = (body.insertionSort (· ≤ ·)).flatMap (pointsOf hooks cfg c)) ∧
    (∀ q, q ∈ findSuspensionPoints hooks cfg c ↔ SuspendsAt hooks cfg c (q.bb, q.stmt) q.kind) ∧
    (findSuspensionPoints hooks cfg c).Nodup ∧ (findSuspensionPoints hooks cfg c).Pairwise Point.Before := by
  refine ⟨⟨_, hclosed.search_ends h.begin_mem, rfl⟩, h.mem_points hclosed hback, ?_, points_before hooks cfg c⟩
  refine (points_before hooks cfg c).imp fun {p q} hpq heq => ?_
  subst heq
  rcases hpq with hlt | ⟨-, hlt⟩
  · exact lt_irrefl _ hlt
  · exact lt_irrefl _ hlt

section
variable {r : Option UInt32} {n t : ℕ}

theorem chain_closed : Closed (yieldChain n t) := by
  intro b _ s hs
  have hcases := chain_successors hs
  refine List.mem_range.mpr ?_
  omega

theorem chain_placed : Placed (yieldChain n t) (chainCoroutine r n) where
  begin_mem := List.mem_range.mpr (by simp [chainCoroutine])
  begin_lt := Nat.zero_lt_one
  last_lt := by simp [Cfg.statementCount, Cfg.stmts, chain_block, chainCoroutine]
  forward heq := by simp [chainCoroutine] at heq

theorem chain_never_back : NeverBack (yieldChain n t) (chainCoroutine r n) := by
  suffices hkey : ∀ p, Along (yieldChain n t) (chainCoroutine r n) p → 1 ≤ p.1 ∧ (p.1 = 1 → 0 < p.2) from
    fun p hp => (hkey p hp).2
  intro p hp
  induction hp with
  | begin => exact ⟨le_rfl, fun _ => Nat.zero_lt_one⟩
  | next _ _ _ ih => exact ⟨ih.1, fun _ => Nat.succ_pos _⟩
  | jump _ _ hs ih =>
    have hcases := chain_successors hs
    have hpos := ih.1
    refine ⟨?_, fun heq => ?_⟩ <;> omega

end

/-- The points of a coroutine that yields in two blocks, numbered against the flow of control. -/
theorem findSuspensionPoints_spec_chain :
    (∃ body, Relation.ReflTransGen (fun σ τ => searchRound (yieldChain 2 0) 5 σ = some τ) ([1], [1]) (body, []) ∧
      findSuspensionPoints (chainHooks none) (yieldChain 2 0) (chainCoroutine none 2) =
        (body.insertionSort (· ≤ ·)).flatMap (pointsOf (chainHooks none) (yieldChain 2 0) (chainCoroutine none 2))) ∧
    (∀ q, q ∈ findSuspensionPoints (chainHooks none) (yieldChain 2 0) (chainCoroutine none 2) ↔
      SuspendsAt (chainHooks none) (yieldChain 2 0) (chainCoroutine none 2) (q.bb, q.stmt) q.kind) ∧
    (findSuspensionPoints (chainHooks none) (yieldChain 2 0) (chainCoroutine none 2)).Nodup ∧
      (findSuspensionPoints (chainHooks none) (yieldChain 2 0) (chainCoroutine none 2)).Pairwise Point.Before :=
  findSuspensionPoints_spec chain_closed chain_placed chain_never_back

end Krio.Stackless
