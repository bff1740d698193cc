import Krio.Async.Conserve

/-! The tables of the layout describe one state machine: state `k + 1` is the `k`-th site, left through the
block that ends in it and entered again through its resume entry. State ids are `u32`, so that they repeat
from `2^32` sites on. -/

namespace Krio.Async
open Lib

variable {S F V : Type}

/-- The tables `l` of the body `cfg'`, into which `cfg` was split at `sites`: `ys` are the blocks that end in the
    sites, `rs` the resume entries, and `ds` the blocks that start with what followed the sites. -/
structure Describes (cfg cfg' : Cfg S) (sites : List (Site F V)) (l : StateMachineLayout F V) (ys rs ds : List ℕ) :
    Prop where
  lengths : ys.length = sites.length ∧ rs.length = sites.length ∧ ds.length = sites.length
  entries : ∃ e, cfg.ids.head? = some e ∧ l.resumeEntries = e :: rs
  entries_nodup : l.resumeEntries.Nodup
  yields : l.yieldBlocks = ys.mapIdx fun k y => (y, k + 1)
  yields_nodup : ys.Nodup
  ends : ∀ (k : ℕ) (s : Site F V) (y : ℕ), sites[k]? = some s → ys[k]? = some y →
    cfg'.stmts y ≠ [] ∧ cfg'.stmts y <:+ (cfg.stmts s.1).take (s.2.1 + 1)
  resumes : ∀ (k : ℕ) (s : Site F V) (r d : ℕ), sites[k]? = some s → rs[k]? = some r → ds[k]? = some d →
    ResumeOk cfg' ds r d s.2.2
  resumes_fresh : ∀ r ∈ rs, r ∉ cfg.ids
  follows : ∀ (k : ℕ) (s : Site F V) (d : ℕ), sites[k]? = some s → ds[k]? = some d →
    cfg'.stmts d <+: (cfg.stmts s.1).drop (s.2.1 + 1) ∧ (cfg'.stmts d).head? = (cfg.stmts s.1)[s.2.1 + 1]?
  kinds : l.blockKinds = kindsOf sites ys rs ds

section
variable {cfg : Cfg S} {sites : List (Site F V)} {tails ys rs : List ℕ} {σ : Split S F V} {e k : ℕ} {s : Site F V}

theorem siteIdxs_append (done rest : List (Site F V)) (b : ℕ) :
    siteIdxs (done ++ rest) b = siteIdxs done b ++ siteIdxs rest b := by
  rw [siteIdxs, List.filter_append, List.map_append]
  rfl

theorem tailsIn_append {done rest : List (Site F V)} {ts us : List ℕ} (h : ts.length = done.length) (b : ℕ) :
    tailsIn (done ++ rest) (ts ++ us) b = tailsIn done ts b ++ tailsIn rest us b := by
  rw [tailsIn, List.zip_append h.symm, List.filter_append, List.map_append]
  rfl

theorem length_tailsIn {done : List (Site F V)} {ts : List ℕ} (h : ts.length = done.length) (b : ℕ) :
    (tailsIn done ts b).length = (siteIdxs done b).length := by
  induction done generalizing ts with
  | nil => simp [tailsIn, siteIdxs]
  | cons s done ih =>
    obtain ⟨t, ts, rfl⟩ := List.exists_cons_of_length_eq_add_one h
    have hrest := ih (by simpa using h)
    by_cases hb : s.1 = b
    · simpa [tailsIn, siteIdxs, hb] using hrest
    · simpa [tailsIn, siteIdxs, hb] using hrest

/-- Where a site stands in the chain of its block: `j` sites of the block come before it. -/
theorem Recorded.place (hR : Recorded cfg e sites tails ys rs σ) (h : Splitting cfg sites tails σ) (hk : sites[k]? = some s) :
    ∃ j : ℕ, (siteIdxs sites s.1)[j]? = some s.2.1 ∧ (s.1 :: tailsIn sites tails s.1)[j]? = ys[k]? ∧
      (tailsIn sites tails s.1)[j]? = tails[k]? := by
  obtain ⟨hlt, hs⟩ := List.getElem?_eq_some_iff.mp hk
  have htl : k < tails.length := h.length_eq ▸ hlt
  have hsites : sites = sites.take k ++ s :: sites.drop (k + 1) := by
    rw [← hs, List.getElem_cons_drop, List.take_append_drop]
  have htails : tails = tails.take k ++ tails[k] :: tails.drop (k + 1) := by
    rw [List.getElem_cons_drop, List.take_append_drop]
  have hlen : (tails.take k).length = (sites.take k).length := by
    rw [List.length_take, List.length_take, h.length_eq]
  set A := tailsIn (sites.take k) (tails.take k) s.1 with hA
  have hAlen : A.length = (siteIdxs (sites.take k) s.1).length := length_tailsIn hlen _
  have hIn : ∃ B, tailsIn sites tails s.1 = A ++ tails[k] :: B := by
    refine ⟨tailsIn (sites.drop (k + 1)) (tails.drop (k + 1)) s.1, ?_⟩
    refine (congrArg₂ (tailsIn · · s.1) hsites htails).trans ?_
    simp only [tailsIn_append hlen, ← hA]
    simp [tailsIn, -List.getElem_cons_drop]
  obtain ⟨B, hB⟩ := hIn
  refine ⟨A.length, ?_, ?_, ?_⟩
  · rw [hsites, siteIdxs_append, hAlen]
    simp [siteIdxs]
  · rw [hR.home k s hk, ← hA, hB]
    obtain hnil | ⟨A', a, hA'⟩ := A.eq_nil_or_concat
    · rw [hnil]
      rfl
    · rw [hA']
      simp
  · rw [hB, List.getElem?_append_right le_rfl, Nat.sub_self, List.getElem?_eq_getElem htl]
    rfl

/-- The pieces before and after a site. -/
theorem Recorded.around (hR : Recorded cfg e sites tails ys rs σ) (h : Splitting cfg sites tails σ) (hs : s.1 ∈ cfg.ids)
    (hk : sites[k]? = some s) : ∃ y d, ys[k]? = some y ∧ tails[k]? = some d ∧
      (σ.cfg.stmts y ≠ [] ∧ σ.cfg.stmts y <:+ (cfg.stmts s.1).take (s.2.1 + 1)) ∧
      σ.cfg.stmts d <+: (cfg.stmts s.1).drop (s.2.1 + 1) ∧ (σ.cfg.stmts d).head? = (cfg.stmts s.1)[s.2.1 + 1]? := by
  obtain ⟨j, hj, hy, hd⟩ := hR.place h hk
  obtain ⟨y, d, hqy, hrd, hne, hends, hfollows⟩ := (h.cut s.1 hs).around hj
  exact ⟨y, d, hy ▸ hqy, hd ▸ hrd, ⟨hne, hends⟩, hfollows⟩

/-- Different sites end different blocks. -/
theorem Recorded.yields_nodup (hR : Recorded cfg e sites tails ys rs σ) (h : Splitting cfg sites tails σ)
    (hsorted : sites.Pairwise SiteLt) (hids : ∀ s ∈ sites, s.1 ∈ cfg.ids) : ys.Nodup := by
  refine List.pairwise_iff_getElem.mpr fun k k' hk hk' hlt heq => ?_
  have hlen := hR.lengths.1
  have hs : sites[k]? = some sites[k] := List.getElem?_eq_getElem (hlen ▸ hk)
  have hs' : sites[k']? = some sites[k'] := List.getElem?_eq_getElem (hlen ▸ hk')
  obtain ⟨j, hj, hy, -⟩ := hR.place h hs
  obtain ⟨j', hj', hy', -⟩ := hR.place h hs'
  rw [List.getElem?_eq_getElem hk] at hy
  rw [List.getElem?_eq_getElem hk', ← heq] at hy'
  have hb := hids _ (List.getElem_mem (hlen ▸ hk))
  have hb' := hids _ (List.getElem_mem (hlen ▸ hk'))
  have hbb := h.eq_of_mem_chain hb hb' (List.mem_of_getElem? hy) (List.mem_of_getElem? hy')
  rw [← hbb] at hy' hj'
  have hjlt := (List.getElem?_eq_some_iff.mp hy).1
  have hjj : j = j' := (List.getElem?_inj hjlt (h.chain_nodup hb)).mp (hy.trans hy'.symm)
  rw [hjj, hj'] at hj
  rcases List.pairwise_iff_getElem.mp hsorted k k' (hlen ▸ hk) (hlen ▸ hk') hlt with hne | ⟨-, hidx⟩
  · exact absurd hbb hne.ne
  · exact absurd (Option.some.inj hj) hidx.ne'

theorem Recorded.map_yieldBlocks (hR : Recorded cfg e sites tails ys rs σ) : σ.yieldBlocks.map (·.1) = ys := by
  rw [hR.yields]
  refine List.ext_getElem? fun k => ?_
  rw [List.getElem?_map, List.getElem?_mapIdx]
  cases ys[k]? <;> rfl

/-- With fewer than `2^32` sites the tables describe the machine. -/
theorem Recorded.describes (hR : Recorded cfg e sites tails ys rs σ) (h : Splitting cfg sites tails σ)
    (he : cfg.ids.head? = some e) (hsorted : sites.Pairwise SiteLt) (hids : ∀ s ∈ sites, s.1 ∈ cfg.ids)
    (hlt : sites.length < 2 ^ 32) (saves loads : List (ℕ × List (ℕ × V))) :
    Describes cfg σ.cfg sites ⟨σ.resumeEntries, σ.yieldBlocks, saves, loads, σ.blockKinds⟩ ys rs tails := by
  obtain ⟨hly, hlr⟩ := hR.lengths
  have hfresh : ∀ r ∈ rs, r ∉ cfg.ids := fun r hr hmem =>
    absurd (cfg.ids_lt r hmem) (Nat.not_lt.mpr (hR.resumes_mem r hr).1)
  constructor
  case lengths => exact ⟨hly, hlr, h.length_eq⟩
  case entries => exact ⟨e, he, hR.entries⟩
  case entries_nodup =>
    rw [hR.entries]
    exact List.nodup_cons.mpr ⟨fun hmem => hfresh e hmem (List.mem_of_mem_head? he), hR.resumes_nodup⟩
  case yields =>
    refine hR.yields.trans (List.mapIdx_eq_mapIdx_iff.mpr fun k hk => ?_)
    rw [Nat.mod_eq_of_lt (by omega)]
  case yields_nodup => exact hR.yields_nodup h hsorted hids
  case ends =>
    intro k s y hs hy
    obtain ⟨y', d, hy', -, hends, -⟩ := hR.around h (hids s (List.mem_of_getElem? hs)) hs
    obtain rfl := Option.some.inj (hy.symm.trans hy')
    exact hends
  case resumes => exact hR.resumes
  case resumes_fresh => exact hfresh
  case follows =>
    intro k s d hs hd
    obtain ⟨y, d', -, hd', -, hfollows⟩ := hR.around h (hids s (List.mem_of_getElem? hs)) hs
    obtain rfl := Option.some.inj (hd.symm.trans hd')
    exact hfollows
  case kinds => exact hR.kinds

/-- From `2^32` sites on a state id is `0`, that of the entry. -/
theorem Recorded.few (hR : Recorded cfg e sites tails ys rs σ) {saves loads : List (ℕ × List (ℕ × V))} {cfg' : Cfg S}
    {ys' rs' ds' : List ℕ}
    (hd : Describes cfg cfg' sites ⟨σ.resumeEntries, σ.yieldBlocks, saves, loads, σ.blockKinds⟩ ys' rs' ds') :
    sites.length < 2 ^ 32 := by
  by_contra hge
  have hly := hR.lengths.1
  have hly' := hd.lengths.1
  have heq : (ys.mapIdx fun k y => (y, (k + 1) % 2 ^ 32)) = ys'.mapIdx fun k y => (y, k + 1) := hR.yields.symm.trans hd.yields
  have hk : 2 ^ 32 - 1 < ys.length := by omega
  have hk' : 2 ^ 32 - 1 < ys'.length := by omega
  have hat := congrArg (fun l => l[2 ^ 32 - 1]?) heq
  simp only [List.getElem?_mapIdx, List.getElem?_eq_getElem hk, List.getElem?_eq_getElem hk', Option.map_some] at hat
  have hid := congrArg Prod.snd (Option.some.inj hat)
  simp only [Nat.reducePow, Nat.reduceSub, Nat.reduceAdd, Nat.mod_self] at hid
  cases hid

end

/-- The tables describe one consistent machine exactly when the body has fewer than `2^32` sites. -/
theorem tables_describe [DecidableEq V] (cfg : Cfg S) (fnId : F) (isSuspending : F → Bool)
    (classify : Cfg S → ℕ → ℕ → Option (SuspensionSite F V)) (liveness : LivenessMap V) (options : TransformOptions)
    (cfg' : Cfg S) (l : StateMachineLayout F V) (hsus : isSuspending fnId = true)
    (h : transformToStateMachineWithOptions cfg fnId isSuspending classify liveness options = some (cfg', l)) :
    (∃ ys rs ds, Describes cfg cfg' (scan cfg classify) l ys rs ds) ↔ (scan cfg classify).length < 2 ^ 32 := by
  obtain ⟨e, he⟩ := head?_of_transform hsus h
  obtain ⟨σ, tails, ys, rs, tb, h', hR, -, heq⟩ := transform_eq classify liveness options he hsus
  obtain ⟨rfl, rfl⟩ := Prod.mk.inj (Option.some.inj (heq.symm.trans h))
  constructor
  · rintro ⟨ys', rs', ds', hd⟩
    exact hR.few hd
  · intro hlt
    exact ⟨ys, rs, tails, hR.describes h' he scan_sorted (fun s hs => (mem_scan.mp hs).1) hlt _ _⟩

theorem singleton_ids_lt : ∀ b ∈ [0], b < 1 := fun _ hb => (List.mem_singleton.mp hb).symm ▸ Nat.one_pos

theorem singleton_ids_nodup : [0].Nodup := List.nodup_singleton 0

/-- A body of one block that yields `n` times. -/
def yieldsBody (n : ℕ) : Cfg ℕ where
  ids := [0]
  next := 1
  block := fun _ => ⟨List.replicate n 0, .ret⟩
  locals := []
  ids_lt := singleton_ids_lt
  ids_nodup := singleton_ids_nodup

/-- Every statement yields. -/
def allYield (_ : Cfg ℕ) (_ _ : ℕ) : Option (SuspensionSite ℕ ℕ) := some (.directYield none)

theorem scan_yieldsBody (n : ℕ) : (scan (yieldsBody n) allYield).length = n := by
  have hblock : scanBlock (yieldsBody n) allYield 0 = (List.range n).map fun i => (0, i, .directYield none) := by
    rw [scanBlock, ← List.filterMap_eq_map]
    simp [Cfg.statementCount, Cfg.stmts, yieldsBody, allYield]
  rw [scan, List.length_insertionSort]
  show ([0].flatMap (scanBlock (yieldsBody n) allYield)).length = n
  simp [hblock]

/-- The body that yields `2^32` times: no lists of blocks make its tables a consistent machine. -/
theorem wrapped_state_ids : ∃ cfg' l,
    transformToStateMachineWithOptions (yieldsBody (2 ^ 32)) 0 (fun _ => true) allYield (⟨[]⟩ : LivenessMap ℕ) ⟨0⟩ =
      some (cfg', l) ∧
    ∀ ys rs ds, ¬Describes (yieldsBody (2 ^ 32)) cfg' (scan (yieldsBody (2 ^ 32)) allYield) l ys rs ds := by
  obtain ⟨σ, tails, ys, rs, tb, -, hR, -, heq⟩ :=
    @transform_eq ℕ ℕ ℕ (yieldsBody (2 ^ 32)) allYield _ ⟨[]⟩ ⟨0⟩ 0 rfl 0 (fun _ => true) rfl
  refine ⟨_, _, heq, fun ys' rs' ds' hd => ?_⟩
  have hlt := hR.few hd
  rw [scan_yieldsBody] at hlt
  exact absurd hlt (lt_irrefl _)

theorem tables_describe_sample : (∃ ys rs ds, Describes sampleCfg
    ((transformToStateMachineWithOptions sampleCfg 0 (fun _ => true) sampleClassify (⟨[]⟩ : LivenessMap ℕ) ⟨0⟩).get rfl).1
    (scan sampleCfg sampleClassify)
    ((transformToStateMachineWithOptions sampleCfg 0 (fun _ => true) sampleClassify (⟨[]⟩ : LivenessMap ℕ) ⟨0⟩).get rfl).2
    ys rs ds) ↔ (scan sampleCfg sampleClassify).length < 2 ^ 32 :=
  tables_describe sampleCfg 0 (fun _ => true) sampleClassify ⟨[]⟩ ⟨0⟩ _ _ rfl (Option.eq_some_of_isSome rfl)

end Krio.Async
