import Krio.Async.Split

/-! The splitting loop over all sites, and what the transform does to the body of a suspending function. -/

namespace Krio.Async
open Lib

variable {S F V : Type} {cfg : Cfg S} {classify : Cfg S → ℕ → ℕ → Option (SuspensionSite F V)}

/-- The indices of a block's statements that `classify` reports. -/
def sitesAt (cfg : Cfg S) (classify : Cfg S → ℕ → ℕ → Option (SuspensionSite F V)) (bb : ℕ) : List ℕ :=
  (List.range (cfg.statementCount bb)).filter fun idx => (classify cfg bb idx).isSome

section Scan
variable {s : Site F V} {b : ℕ}

theorem mem_scanBlock : s ∈ scanBlock cfg classify b ↔
    s.1 = b ∧ s.2.1 < cfg.statementCount b ∧ classify cfg b s.2.1 = some s.2.2 := by
  obtain ⟨c, i, x⟩ := s
  simp only [scanBlock, List.mem_filterMap, List.mem_range, Option.map_eq_some_iff, Prod.mk.injEq]
  constructor
  · rintro ⟨_, hi, _, hx, rfl, rfl, rfl⟩
    exact ⟨rfl, hi, hx⟩
  · rintro ⟨rfl, hi, hx⟩
    exact ⟨i, hi, x, hx, rfl, rfl, rfl⟩

theorem mem_scan : s ∈ scan cfg classify ↔
    s.1 ∈ cfg.ids ∧ s.2.1 < cfg.statementCount s.1 ∧ classify cfg s.1 s.2.1 = some s.2.2 := by
  rw [scan, List.mem_insertionSort, List.mem_flatMap]
  constructor
  · rintro ⟨b, hb, hs⟩
    obtain ⟨rfl, hi, hx⟩ := mem_scanBlock.mp hs
    exact ⟨hb, hi, hx⟩
  · rintro ⟨hb, hi, hx⟩
    exact ⟨s.1, hb, mem_scanBlock.mpr ⟨rfl, hi, hx⟩⟩

/-- Within a block the scan meets the sites in the order of their indices. -/
theorem scanBlock_pairwise : (scanBlock cfg classify b).Pairwise fun s t => s.2.1 < t.2.1 := by
  refine List.Pairwise.filterMap _ ?_ List.pairwise_lt_range
  rintro i j hij s hs t ht
  obtain ⟨x, -, rfl⟩ := Option.map_eq_some_iff.mp hs
  obtain ⟨y, -, rfl⟩ := Option.map_eq_some_iff.mp ht
  exact hij

/-- No two sites have the same coordinates. -/
theorem scan_keys_ne : (cfg.ids.flatMap (scanBlock cfg classify)).Pairwise
    fun s t => ¬(s.1 = t.1 ∧ s.2.1 = t.2.1) := by
  rw [List.flatMap_def, List.pairwise_flatten]
  refine ⟨?_, ?_⟩
  · intro l hl
    obtain ⟨b, -, rfl⟩ := List.mem_map.mp hl
    exact scanBlock_pairwise.imp fun hij h => absurd h.2 hij.ne
  · refine List.Pairwise.map _ ?_ cfg.ids_nodup
    intro b c hbc s hs t ht h
    exact hbc ((mem_scanBlock.mp hs).1.symm.trans (h.1.trans (mem_scanBlock.mp ht).1))

instance : Std.Total (siteLe : Site F V → Site F V → Prop) :=
  ⟨fun s t => by unfold siteLe; omega⟩

instance : IsTrans (Site F V) siteLe :=
  ⟨fun s t u => by unfold siteLe; omega⟩

theorem scan_sorted : (scan cfg classify).Pairwise SiteLt := by
  have hle : (scan cfg classify).Pairwise siteLe := List.pairwise_insertionSort siteLe _
  have hne : (scan cfg classify).Pairwise fun s t => ¬(s.1 = t.1 ∧ s.2.1 = t.2.1) :=
    (List.perm_insertionSort siteLe _).symm.pairwise scan_keys_ne fun h h' => h ⟨h'.1.symm, h'.2.symm⟩
  refine (hle.and hne).imp ?_
  rintro s t ⟨hle | ⟨heq, hle⟩, hne⟩
  · exact .inl hle
  · exact .inr ⟨heq, lt_of_le_of_ne hle fun h => hne ⟨heq, h⟩⟩

/-- The sorted sites of a block are the statements of it that `classify` reports. -/
theorem siteIdxs_scan (hb : b ∈ cfg.ids) : siteIdxs (scan cfg classify) b = sitesAt cfg classify b := by
  have hsorted : (siteIdxs (scan cfg classify) b).Pairwise (· < ·) := by
    refine List.pairwise_map.mpr (List.pairwise_filter.mpr (scan_sorted.imp ?_))
    rintro s t (h | h) hs ht
    · simp only [decide_eq_true_eq] at hs ht
      omega
    · exact h.2
  refine hsorted.eq_of_mem_iff (List.pairwise_lt_range.filter _) fun i => ?_
  simp only [siteIdxs, sitesAt, List.mem_map, List.mem_filter, List.mem_range, Option.isSome_iff_exists, mem_scan,
    decide_eq_true_eq]
  constructor
  · rintro ⟨s, ⟨⟨-, hi, hx⟩, rfl⟩, rfl⟩
    exact ⟨hi, s.2.2, hx⟩
  · rintro ⟨hi, x, hx⟩
    exact ⟨(b, i, x), ⟨⟨hb, hi, hx⟩, rfl⟩, rfl⟩

end Scan

section Run
variable {e : ℕ} {done rest : List (Site F V)} {tails ys rs : List ℕ} {σ : Split S F V}

/-- The loop never underflows, whatever sites follow, and keeps both invariants. -/
theorem Splitting.run (h : Splitting cfg done tails σ) (hR : Recorded cfg e done tails ys rs σ)
    (hsorted : (done ++ rest).Pairwise SiteLt)
    (hrest : ∀ s ∈ rest, s.1 ∈ cfg.ids ∧ s.2.1 < cfg.statementCount s.1) :
    ∃ σ' tails' ys' rs', σ.run rest = some σ' ∧ Splitting cfg (done ++ rest) tails' σ' ∧
      Recorded cfg e (done ++ rest) tails' ys' rs' σ' := by
  induction rest generalizing done tails ys rs σ with
  | nil =>
    rw [List.append_nil]
    exact ⟨σ, tails, ys, rs, rfl, h, hR⟩
  | cons s rest ih =>
    obtain ⟨hs, hidx⟩ := hrest s List.mem_cons_self
    have hassoc : done ++ s :: rest = (done ++ [s]) ++ rest := by simp
    rw [hassoc] at hsorted ⊢
    have hsorted' := (List.pairwise_append.mp hsorted).1
    obtain ⟨idx, hsite, h'⟩ := h.site hsorted' hs hidx
    obtain ⟨ys', rs', hR'⟩ := hR.site h hs idx (h.enter hsorted').1
    obtain ⟨σ', tails', ys', rs', hrun, hfinal⟩ := ih h' hR' hsorted fun t ht => hrest t (List.mem_cons_of_mem _ ht)
    refine ⟨σ', tails', ys', rs', ?_, hfinal⟩
    rw [Split.run, List.foldlM_cons, hsite]
    exact hrun

theorem Splitting.start (e : ℕ) : Splitting cfg [] [] (Split.start cfg e : Split S F V) where
  next_le := le_rfl
  length_eq := rfl
  fresh := by simp
  nodup := List.nodup_nil
  cut _ _ := rfl
  term _ _ := rfl
  untouched _ _ _ := rfl
  running := .inl ⟨rfl, rfl⟩

theorem Recorded.start (e : ℕ) : Recorded cfg e [] [] [] [] (Split.start cfg e : Split S F V) where
  lengths := ⟨rfl, rfl⟩
  entries := rfl
  yields := rfl
  kinds := rfl
  siteYields := rfl
  siteResumes := rfl
  home := by simp
  yields_lt := by simp
  resumes_nodup := List.nodup_nil
  resumes_mem := by simp
  resumes := by simp

theorem tails_eq_tailsIn {sites : List (Site F V)} {f : ℕ → SuspensionSite F V → Option ℕ} {n b : ℕ}
    (hlen : tails.length = sites.length) (h : ∀ k s, sites[k]? = some s → f (n + k) s.2.2 = tails[k]?) :
    ((sites.zipIdx n).filterMap fun x => if x.1.1 = b then f x.2 x.1.2.2 else none) = tailsIn sites tails b := by
  induction sites generalizing n tails with
  | nil => rfl
  | cons s sites ih =>
    cases tails with
    | nil => simp at hlen
    | cons t tails =>
      have htail : f n s.2.2 = some t := by simpa using h 0 s rfl
      have hrest : ((sites.zipIdx (n + 1)).filterMap fun x => if x.1.1 = b then f x.2 x.1.2.2 else none) =
          tailsIn sites tails b := ih (by simpa using hlen) fun k s' hk => by
        have := h (k + 1) s' (by simpa using hk)
        rwa [show n + 1 + k = n + (k + 1) by omega]
      by_cases hb : s.1 = b <;> simp [List.zipIdx_cons, tailsIn, hb, htail, hrest]

end Run

section Lift
variable [DecidableEq V] {liveness : LivenessMap V} {ys rs : List ℕ}

theorem lift_site_isSome {tables : Lift V} {x : Site F V × ℕ} (hy : x.2 < ys.length) (hr : x.2 < rs.length) :
    (Lift.site liveness ys rs tables x).isSome := by
  simp only [Lift.site]
  split
  · rfl
  · simp [List.getElem?_eq_getElem hy, List.getElem?_eq_getElem hr]

/-- The captures lift never reads past the tables of the splitting loop. -/
theorem lift_foldlM_isSome {xs : List (Site F V × ℕ)} {tables : Lift V}
    (h : ∀ x ∈ xs, x.2 < ys.length ∧ x.2 < rs.length) : (xs.foldlM (Lift.site liveness ys rs) tables).isSome := by
  induction xs generalizing tables with
  | nil => rfl
  | cons x xs ih =>
    obtain ⟨hy, hr⟩ := h x List.mem_cons_self
    have hsome : (Lift.site liveness ys rs tables x).isSome := lift_site_isSome hy hr
    obtain ⟨tables', ht⟩ := Option.isSome_iff_exists.mp hsome
    rw [List.foldlM_cons, ht]
    exact ih fun y hy => h y (List.mem_cons_of_mem _ hy)

theorem Tabled.lift_isSome {done : List (Site F V)} {tails : List ℕ} {σ : Split S F V} (hT : Tabled cfg done tails σ)
    (options : TransformOptions) : (lift liveness options σ done).isSome := by
  refine lift_foldlM_isSome fun x hx => ?_
  have := List.mem_zipIdx' hx
  rw [hT.siteYields, hT.siteResumes]
  omega

end Lift

/-- The transformed body holds the original one: each original block has become a chain of blocks, cut after
    each of its sites. -/
structure Conserves (cfg cfg' : Cfg S) (classify : Cfg S → ℕ → ℕ → Option (SuspensionSite F V))
    (l : StateMachineLayout F V) : Prop where
  length : ∀ b ∈ cfg.ids, (l.tails (scan cfg classify) b).length = (sitesAt cfg classify b).length
  stmts : ∀ b ∈ cfg.ids, (l.chain (scan cfg classify) b).flatMap cfg'.stmts = cfg.stmts b
  cut : ∀ b ∈ cfg.ids, ∀ j i, (sitesAt cfg classify b)[j]? = some i →
    ((l.chain (scan cfg classify) b).take (j + 1)).flatMap cfg'.stmts = (cfg.stmts b).take (i + 1) ∧
      ∃ c, (l.chain (scan cfg classify) b)[j]? = some c ∧ (cfg'.stmts c).getLast? = (cfg.stmts b)[i]?
  term : ∀ b ∈ cfg.ids, ∃ c, (l.chain (scan cfg classify) b).getLast? = some c ∧ cfg'.term c = cfg.term b
  resumeCheck : ∀ k b i f r a v, (scan cfg classify)[k]? = some (b, i, .crossFnCall f r a v) →
    ∃ rc, l.resumeEntries[k + 1]? = some rc ∧ cfg'.stmts rc = []
  nodup : ∀ b ∈ cfg.ids, (l.chain (scan cfg classify) b).Nodup
  disjoint : ∀ b ∈ cfg.ids, ∀ c ∈ cfg.ids, b ≠ c →
    List.Disjoint (l.chain (scan cfg classify) b) (l.chain (scan cfg classify) c)
  untouched : ∀ b ∈ cfg.ids, sitesAt cfg classify b = [] → cfg'.block b = cfg.block b

/-- What the two loop invariants say once every site was split. -/
theorem conserves_of_splitting {tails : List ℕ} {σ : Split S F V} {l : StateMachineLayout F V}
    (h : Splitting cfg (scan cfg classify) tails σ) (hT : Tabled cfg (scan cfg classify) tails σ)
    (hentries : l.resumeEntries = σ.resumeEntries) (hkinds : l.blockKinds = σ.blockKinds) :
    Conserves cfg σ.cfg classify l := by
  have htails : ∀ b, l.tails (scan cfg classify) b = tailsIn (scan cfg classify) tails b := by
    intro b
    refine tails_eq_tailsIn h.length_eq fun k s hk => ?_
    rw [hentries, hkinds, Nat.add_comm 1 k]
    exact hT.tail k s hk
  have hchain : ∀ b, l.chain (scan cfg classify) b = b :: tailsIn (scan cfg classify) tails b := by
    intro b
    rw [StateMachineLayout.chain, htails]
  have hcut : ∀ b ∈ cfg.ids, Cut σ.cfg.stmts (cfg.stmts b) 0 (sitesAt cfg classify b) b
      (tailsIn (scan cfg classify) tails b) := by
    intro b hb
    rw [← siteIdxs_scan hb]
    exact h.cut b hb
  constructor
  case length =>
    intro b hb
    rw [htails]
    exact (hcut b hb).length_eq
  case stmts =>
    intro b hb
    rw [hchain]
    exact (hcut b hb).flatMap_eq
  case cut =>
    intro b hb j i hj
    rw [hchain]
    exact ⟨(hcut b hb).take_flatMap hj, (hcut b hb).getLast?_eq hj⟩
  case term =>
    intro b hb
    rw [hchain]
    exact ⟨_, by rw [List.getLast?_cons, List.getLastD_eq_getLast?], h.term b hb⟩
  case resumeCheck =>
    intro k b i f r a v hk
    obtain ⟨rc, hrc, -, -, hempty⟩ := hT.check k b i f r a v hk
    exact ⟨rc, hentries ▸ hrc, hempty⟩
  case nodup =>
    intro b hb
    rw [hchain]
    exact h.chain_nodup hb
  case disjoint =>
    intro b hb c hc hne x hxb hxc
    rw [hchain] at hxb hxc
    exact hne (h.eq_of_mem_chain hb hc hxb hxc)
  case untouched =>
    intro b hb hnone
    refine h.untouched b hb fun s hs hsb => ?_
    have hmem : s.2.1 ∈ siteIdxs (scan cfg classify) b :=
      List.mem_map_of_mem (List.mem_filter.mpr ⟨hs, by simpa using hsb⟩)
    rw [siteIdxs_scan hb, hnone] at hmem
    exact absurd hmem List.not_mem_nil

variable (classify) in
/-- The transform of a suspending function succeeds on every body that has a block; it splits all its sites. -/
theorem transform_eq [DecidableEq V] (liveness : LivenessMap V) (options : TransformOptions) {e : ℕ}
    (he : cfg.ids.head? = some e) {fnId : F} {isSuspending : F → Bool} (hsus : isSuspending fnId = true) :
    ∃ σ tails ys rs tb, Splitting cfg (scan cfg classify) tails σ ∧ Recorded cfg e (scan cfg classify) tails ys rs σ ∧
      lift liveness options σ (scan cfg classify) = some tb ∧
      transformToStateMachineWithOptions cfg fnId isSuspending classify liveness options =
        some (σ.cfg, ⟨σ.resumeEntries, σ.yieldBlocks, tb.yieldSaves, tb.resumeLoads, σ.blockKinds⟩) := by
  have hstart : Splitting cfg [] [] (Split.start cfg e : Split S F V) := .start e
  have hsorted : ([] ++ scan cfg classify).Pairwise SiteLt := by simpa using scan_sorted
  obtain ⟨σ, tails, ys, rs, hrun, h, hR⟩ :=
    hstart.run (.start e) hsorted fun s hs => ⟨(mem_scan.mp hs).1, (mem_scan.mp hs).2.1⟩
  rw [List.nil_append] at h hR
  have hsome : (lift liveness options σ (scan cfg classify)).isSome := (hR.tabled h).lift_isSome options
  obtain ⟨tb, htb⟩ := Option.isSome_iff_exists.mp hsome
  exact ⟨σ, tails, ys, rs, tb, h, hR, htb, by simp [transformToStateMachineWithOptions, hsus, he, hrun, htb]⟩

/-- The body of a suspending function that was transformed has a block. -/
theorem head?_of_transform [DecidableEq V] {liveness : LivenessMap V} {options : TransformOptions} {fnId : F}
    {isSuspending : F → Bool} {x : Cfg S × StateMachineLayout F V} (hsus : isSuspending fnId = true)
    (h : transformToStateMachineWithOptions cfg fnId isSuspending classify liveness options = some x) :
    ∃ e, cfg.ids.head? = some e := by
  cases he : cfg.ids.head? with
  | none => simp [transformToStateMachineWithOptions, hsus, he] at h
  | some e => exact ⟨e, rfl⟩

/-- Splitting conserves the program, and no index subtraction underflows: the transform of a suspending
    function fails on a body without blocks only. -/
theorem splitting_conserves [DecidableEq V] (cfg : Cfg S) (fnId : F) (isSuspending : F → Bool)
    (classify : Cfg S → ℕ → ℕ → Option (SuspensionSite F V)) (liveness : LivenessMap V) (options : TransformOptions)
    (hsus : isSuspending fnId = true) :
    (cfg.ids = [] ∧ transformToStateMachineWithOptions cfg fnId isSuspending classify liveness options = none) ∨
      ∃ cfg' l, transformToStateMachineWithOptions cfg fnId isSuspending classify liveness options = some (cfg', l) ∧
        Conserves cfg cfg' classify l := by
  cases he : cfg.ids.head? with
  | none => exact .inl ⟨List.head?_eq_none_iff.mp he, by simp [transformToStateMachineWithOptions, hsus, he]⟩
  | some e =>
    obtain ⟨σ, tails, ys, rs, tb, h, hR, -, heq⟩ := transform_eq classify liveness options he hsus
    exact .inr ⟨σ.cfg, _, heq, conserves_of_splitting h (hR.tabled h) rfl rfl⟩

/-- A block with a direct yield and a call to a suspending function, among other statements. -/
def sampleCfg : Cfg ℕ where
  ids := [0]
  next := 1
  block := fun _ => ⟨[0, 1, 0, 2, 0], .ret⟩
  locals := []
  ids_lt := by decide
  ids_nodup := by decide

/-- Statement `1` yields, statement `2` calls. -/
def sampleClassify (cfg : Cfg ℕ) (bb idx : ℕ) : Option (SuspensionSite ℕ ℕ) :=
  match (cfg.stmts bb)[idx]? with
  | some 1 => some (.directYield none)
  | some 2 => some (.crossFnCall 7 none [3] 4)
  | _ => none

theorem splitting_conserves_sample :
    ∃ cfg' l, transformToStateMachineWithOptions sampleCfg 0 (fun _ => true) sampleClassify ⟨[]⟩ ⟨0⟩ = some (cfg', l) ∧
      Conserves sampleCfg cfg' sampleClassify l :=
  (splitting_conserves sampleCfg 0 (fun _ => true) sampleClassify ⟨[]⟩ ⟨0⟩ rfl).resolve_left fun h =>
    absurd h.1 (by decide)

end Krio.Async
