import Krio.Lib.Cut
import Krio.Async.Transform

/-! Splitting conserves the program: an original block is afterwards a chain of blocks, cut after each of
its sites. The loop invariant keeps the tail block of every site that was split. -/

namespace Krio.Async
open Lib

variable {S F V : Type}

/-- The indices of the sites in an original block, in the order of `sites`. -/
def siteIdxs (sites : List (Site F V)) (bb : ℕ) : List ℕ := (sites.filter (·.1 = bb)).map (·.2.1)

/-- The `done_block` of the call that resumes at `resumeCheck`. -/
def doneBlock (kinds : List (ℕ × BlockKind F V)) (resumeCheck : ℕ) : Option ℕ :=
  kinds.findSome? fun x => match x.2 with
    | .crossFnCallResume d _ _ _ _ => if x.1 = resumeCheck then some d else none
    | _ => none

/-- Where the statements after the `k`-th site went: the resume entry of a direct yield, the `done_block` of
    a call. -/
def tailOf (entries : List ℕ) (kinds : List (ℕ × BlockKind F V)) (k : ℕ) :
    SuspensionSite F V → Option ℕ
  | .directYield _ => entries[k]?
  | .crossFnCall .. => entries[k]?.bind (doneBlock kinds)

/-- The tails of the sites of one block. -/
def StateMachineLayout.tails (l : StateMachineLayout F V) (sites : List (Site F V)) (bb : ℕ) : List ℕ :=
  (sites.zipIdx 1).filterMap fun x => if x.1.1 = bb then tailOf l.resumeEntries l.blockKinds x.2 x.1.2.2 else none

/-- The blocks that hold what was in `bb`. -/
def StateMachineLayout.chain (l : StateMachineLayout F V) (sites : List (Site F V)) (bb : ℕ) : List ℕ :=
  bb :: l.tails sites bb

/-- The tails of the sites of `bb`, when `tails` lists the tail of each site. -/
def tailsIn (sites : List (Site F V)) (tails : List ℕ) (bb : ℕ) : List ℕ :=
  ((sites.zip tails).filter (·.1.1 = bb)).map (·.2)

section
variable {done : List (Site F V)} {tails : List ℕ} {s : Site F V} {t b : ℕ}

theorem siteIdxs_snoc : siteIdxs (done ++ [s]) b = if s.1 = b then siteIdxs done b ++ [s.2.1] else siteIdxs done b := by
  by_cases h : s.1 = b <;> simp [siteIdxs, List.filter_append, h]

theorem siteIdxs_eq_nil (h : ∀ s ∈ done, s.1 ≠ b) : siteIdxs done b = [] := by
  rw [siteIdxs, List.filter_eq_nil_iff.mpr (by simpa using h)]
  rfl

theorem tailsIn_snoc (hlen : tails.length = done.length) :
    tailsIn (done ++ [s]) (tails ++ [t]) b = if s.1 = b then tailsIn done tails b ++ [t] else tailsIn done tails b := by
  rw [tailsIn, List.zip_append hlen.symm]
  by_cases h : s.1 = b <;> simp [tailsIn, List.filter_append, h]

theorem tailsIn_eq_nil (h : ∀ s ∈ done, s.1 ≠ b) : tailsIn done tails b = [] := by
  rw [tailsIn, List.filter_eq_nil_iff.mpr]
  · rfl
  · intro x hx
    simpa using h x.1 (List.of_mem_zip hx).1

theorem tailsIn_sublist (hlen : tails.length = done.length) : (tailsIn done tails b).Sublist tails := by
  have hzip : (done.zip tails).map (·.2) = tails := List.map_snd_zip hlen.le
  have hsub : ((done.zip tails).filter (·.1.1 = b)).Sublist (done.zip tails) := List.filter_sublist
  have := hsub.map (·.2)
  rwa [hzip] at this

/-- A tail belongs to the chain of one block only. -/
theorem eq_of_mem_tailsIn {c : ℕ} (hnd : tails.Nodup)
    (hb : t ∈ tailsIn done tails b) (hc : t ∈ tailsIn done tails c) : b = c := by
  simp only [tailsIn, List.mem_map, List.mem_filter, decide_eq_true_eq] at hb hc
  obtain ⟨x, ⟨hx, rfl⟩, rfl⟩ := hb
  obtain ⟨y, ⟨hy, rfl⟩, hxy⟩ := hc
  obtain ⟨i, hi, rfl⟩ := List.mem_iff_getElem.mp hx
  obtain ⟨j, hj, rfl⟩ := List.mem_iff_getElem.mp hy
  simp only [List.getElem_zip] at hxy ⊢
  obtain rfl := (List.Nodup.getElem_inj_iff hnd).mp hxy
  rfl

end

section
variable (σ : Split S F V) (i idx : ℕ) (s : SuspensionSite F V) (c : ℕ)

@[simp] theorem at_currentBlock : (σ.at i idx s).currentBlock = σ.cfg.next := by cases s <;> rfl
@[simp] theorem at_currentOrigBlock : (σ.at i idx s).currentOrigBlock = σ.currentOrigBlock := by cases s <;> rfl
@[simp] theorem at_prevOrigIdx : (σ.at i idx s).prevOrigIdx = some i := by cases s <;> rfl

theorem at_next : σ.cfg.next < (σ.at i idx s).cfg.next := by
  cases s with
  | directYield _ => simp [Split.at]
  | crossFnCall _ _ _ _ =>
    simp only [Split.at, Cfg.newBlock_next, Cfg.splitAfter_next]
    omega

/-- A split changes the running block and fresh blocks only. -/
theorem at_block_of_ne {c : ℕ} (hc : c < σ.cfg.next) (hne : c ≠ σ.currentBlock) :
    (σ.at i idx s).cfg.block c = σ.cfg.block c := by
  have h₁ : c ≠ σ.cfg.next := by omega
  have h₂ : c ≠ σ.cfg.next + 1 := by omega
  cases s <;> simp [Split.at, Cfg.newBlock_block, Cfg.splitAfter_block, hne, h₁, h₂]

theorem at_block_current (hc : σ.currentBlock < σ.cfg.next) :
    (σ.at i idx s).cfg.block σ.currentBlock = ⟨(σ.cfg.stmts σ.currentBlock).take (idx + 1), .unreachable⟩ := by
  have h : σ.currentBlock ≠ σ.cfg.next + 1 := by omega
  cases s <;> simp [Split.at, Cfg.newBlock_block, Cfg.splitAfter_block, h]

theorem at_block_tail (hc : σ.currentBlock < σ.cfg.next) :
    (σ.at i idx s).cfg.block σ.cfg.next = ⟨(σ.cfg.stmts σ.currentBlock).drop (idx + 1), σ.cfg.term σ.currentBlock⟩ := by
  have hne : σ.cfg.next ≠ σ.currentBlock := by omega
  cases s <;> simp [Split.at, Cfg.newBlock_block, Cfg.splitAfter_block, hne]

end

/-- The order of the sorted sites; no two sites have the same coordinates. -/
def SiteLt (s t : Site F V) : Prop := s.1 < t.1 ∨ s.1 = t.1 ∧ s.2.1 < t.2.1

/-- What the loop has done when it has split at the sites `done`, with `tails` the tail block of each. -/
structure Splitting (cfg : Cfg S) (done : List (Site F V)) (tails : List ℕ) (σ : Split S F V) : Prop where
  next_le : cfg.next ≤ σ.cfg.next
  length_eq : tails.length = done.length
  fresh : ∀ t ∈ tails, cfg.next ≤ t ∧ t < σ.cfg.next
  nodup : tails.Nodup
  cut : ∀ b ∈ cfg.ids, Cut σ.cfg.stmts (cfg.stmts b) 0 (siteIdxs done b) b (tailsIn done tails b)
  term : ∀ b ∈ cfg.ids, σ.cfg.term ((tailsIn done tails b).getLastD b) = cfg.term b
  untouched : ∀ b ∈ cfg.ids, (∀ s ∈ done, s.1 ≠ b) → σ.cfg.block b = cfg.block b
  running : (done = [] ∧ σ.prevOrigIdx = none) ∨ ∃ s, done.getLast? = some s ∧ s.1 = σ.currentOrigBlock ∧
    σ.prevOrigIdx = some s.2.1 ∧ tails.getLast? = some σ.currentBlock

/-- What the tables of the loop say about the sites `done`. -/
structure Tabled (cfg : Cfg S) (done : List (Site F V)) (tails : List ℕ) (σ : Split S F V) : Prop where
  yields : σ.yieldBlocks.length = done.length
  siteYields : σ.siteYieldBlocks.length = done.length
  siteResumes : σ.siteResumes.length = done.length
  entries : σ.resumeEntries.length = done.length + 1
  entries_lt : ∀ k b, σ.resumeEntries[k + 1]? = some b → b < σ.cfg.next
  kinds_lt : ∀ x ∈ σ.blockKinds, x.1 < σ.cfg.next
  tail : ∀ k s, done[k]? = some s → tailOf σ.resumeEntries σ.blockKinds (k + 1) s.2.2 = tails[k]?
  check : ∀ k b i f r a v, done[k]? = some (b, i, .crossFnCall f r a v) →
    ∃ rc, σ.resumeEntries[k + 1]? = some rc ∧ cfg.next ≤ rc ∧ rc ∉ tails ∧ σ.cfg.stmts rc = []

/-- The block kinds of a site: `y` ends in it, `r` is its resume entry, and `d` holds what follows it. -/
def kindsAt (y r d : ℕ) : SuspensionSite F V → List (ℕ × BlockKind F V)
  | .directYield _ => [(y, .directYield)]
  | .crossFnCall callee receiver args result =>
    [(y, .crossFnCallInit r receiver args result callee), (r, .crossFnCallResume d receiver args result callee)]

def kindsOf (sites : List (Site F V)) (ys rs ds : List ℕ) : List (ℕ × BlockKind F V) :=
  (sites.zip (ys.zip (rs.zip ds))).flatMap fun x => kindsAt x.2.1 x.2.2.1 x.2.2.2 x.1.2.2

/-- What the resume entry `r` of a site is, `d` being the block with what follows the site. -/
def ResumeOk (body : Cfg S) (ds : List ℕ) (r d : ℕ) : SuspensionSite F V → Prop
  | .directYield _ => r = d
  | .crossFnCall .. => r ∉ ds ∧ body.block r = .fresh

/-- The tables of the loop after the sites `done`: `ys` end in them, `rs` are their resume entries. -/
structure Recorded (cfg : Cfg S) (e : ℕ) (done : List (Site F V)) (tails ys rs : List ℕ) (σ : Split S F V) : Prop where
  lengths : ys.length = done.length ∧ rs.length = done.length
  entries : σ.resumeEntries = e :: rs
  yields : σ.yieldBlocks = ys.mapIdx fun k y => (y, (k + 1) % 2 ^ 32)
  kinds : σ.blockKinds = kindsOf done ys rs tails
  siteYields : σ.siteYieldBlocks = ys
  siteResumes : σ.siteResumes = rs
  home : ∀ (k : ℕ) (s : Site F V), done[k]? = some s →
    ys[k]? = some ((tailsIn (done.take k) (tails.take k) s.1).getLastD s.1)
  yields_lt : ∀ y ∈ ys, y < σ.cfg.next
  resumes_nodup : rs.Nodup
  resumes_mem : ∀ r ∈ rs, cfg.next ≤ r ∧ r < σ.cfg.next
  resumes : ∀ (k : ℕ) (s : Site F V) (r d : ℕ), done[k]? = some s → rs[k]? = some r → tails[k]? = some d →
    ResumeOk σ.cfg tails r d s.2.2

section
variable {cfg : Cfg S} {done : List (Site F V)} {tails : List ℕ} {σ : Split S F V} {s : Site F V}

@[simp] theorem enter_cfg (b : ℕ) : (σ.enter b).cfg = σ.cfg := by
  unfold Split.enter
  split <;> rfl

/-- Entering a block changes none of the tables. -/
theorem enter_tables (b : ℕ) : (σ.enter b).resumeEntries = σ.resumeEntries ∧ (σ.enter b).yieldBlocks = σ.yieldBlocks ∧
    (σ.enter b).blockKinds = σ.blockKinds ∧ (σ.enter b).siteYieldBlocks = σ.siteYieldBlocks ∧
    (σ.enter b).siteResumes = σ.siteResumes := by
  unfold Split.enter
  split <;> exact ⟨rfl, rfl, rfl, rfl, rfl⟩

@[simp] theorem enter_currentOrigBlock (b : ℕ) : (σ.enter b).currentOrigBlock = b := by
  unfold Split.enter
  split
  · rfl
  · simp_all

/-- After `enter` the running block is the last block of the site's chain, and the index of the site in it is
    what the cuts made so far leave of its index. -/
theorem Splitting.enter (h : Splitting cfg done tails σ) (hsorted : (done ++ [s]).Pairwise SiteLt) :
    (σ.enter s.1).currentBlock = (tailsIn done tails s.1).getLastD s.1 ∧ lastOff 0 (siteIdxs done s.1) ≤ s.2.1 ∧
      currentIdx (σ.enter s.1).prevOrigIdx s.2.1 = some (s.2.1 - lastOff 0 (siteIdxs done s.1)) := by
  rcases h.running with ⟨rfl, hprev⟩ | ⟨s', hlast, horig, hprev, hcur⟩
  · simp [Split.enter, hprev, tailsIn, siteIdxs, currentIdx]
  · obtain ⟨pre, rfl⟩ := List.getLast?_eq_some_iff.mp hlast
    have hs' : SiteLt s' s := (List.pairwise_append.mp hsorted).2.2 s' (by simp) s (by simp)
    by_cases hb : s'.1 = s.1
    · -- a later site of the running block
      obtain ⟨ts, hts⟩ := List.getLast?_eq_some_iff.mp hcur
      have hlen : ts.length = pre.length := by
        have := h.length_eq
        simpa [hts] using this
      have hidx : s'.2.1 < s.2.1 := by
        rcases hs' with h' | h' <;> omega
      have henter : σ.enter s.1 = σ := by
        simp [Split.enter, ← horig, hb, hprev]
      rw [henter, hts, tailsIn_snoc hlen, siteIdxs_snoc, if_pos hb, if_pos hb, lastOff_snoc, hprev]
      refine ⟨by simp, hidx, ?_⟩
      simp [currentIdx, Nat.succ_le_of_lt hidx]
    · -- the first site of its block: no earlier site lies in it
      have hne : ∀ s'' ∈ pre ++ [s'], s''.1 ≠ s.1 := by
        intro s'' hs'' heq
        rcases List.mem_append.mp hs'' with hpre | hself
        · have hle : SiteLt s'' s' :=
            (List.pairwise_append.mp (List.pairwise_append.mp hsorted).1).2.2 s'' hpre s' (by simp)
          rcases hle with h₁ | h₁ <;> rcases hs' with h₂ | h₂ <;> omega
        · exact hb (by simpa [List.mem_singleton.mp hself] using heq)
      have henter : (σ.enter s.1).currentBlock = s.1 ∧ (σ.enter s.1).prevOrigIdx = none := by
        simp [Split.enter, ← horig, Ne.symm hb]
      rw [henter.1, henter.2, tailsIn_eq_nil hne, siteIdxs_eq_nil hne]
      simp [currentIdx]

theorem Splitting.lt_of_mem_chain (h : Splitting cfg done tails σ) {b c : ℕ} (hb : b ∈ cfg.ids)
    (hc : c ∈ b :: tailsIn done tails b) : c < σ.cfg.next := by
  rcases List.mem_cons.mp hc with rfl | hc
  · exact (cfg.ids_lt c hb).trans_le h.next_le
  · exact (h.fresh c ((tailsIn_sublist h.length_eq).mem hc)).2

theorem Splitting.le_of_mem_tailsIn (h : Splitting cfg done tails σ) {b c : ℕ} (hc : c ∈ tailsIn done tails b) :
    cfg.next ≤ c :=
  (h.fresh c ((tailsIn_sublist h.length_eq).mem hc)).1

theorem Splitting.chain_nodup (h : Splitting cfg done tails σ) {b : ℕ} (hb : b ∈ cfg.ids) :
    (b :: tailsIn done tails b).Nodup := by
  refine List.nodup_cons.mpr ⟨fun hmem => ?_, (tailsIn_sublist h.length_eq).nodup h.nodup⟩
  exact absurd (cfg.ids_lt b hb) (not_lt.mpr (h.le_of_mem_tailsIn hmem))

/-- The chains of different original blocks are disjoint. -/
theorem Splitting.eq_of_mem_chain (h : Splitting cfg done tails σ) {b b' c : ℕ} (hb : b ∈ cfg.ids) (hb' : b' ∈ cfg.ids)
    (hc : c ∈ b :: tailsIn done tails b) (hc' : c ∈ b' :: tailsIn done tails b') : b = b' := by
  rcases List.mem_cons.mp hc with rfl | hc <;> rcases List.mem_cons.mp hc' with rfl | hc'
  · rfl
  · exact absurd (cfg.ids_lt c hb) (not_lt.mpr (h.le_of_mem_tailsIn hc'))
  · exact absurd (cfg.ids_lt c hb') (not_lt.mpr (h.le_of_mem_tailsIn hc))
  · exact eq_of_mem_tailsIn h.nodup hc hc'

/-- One round of the loop never underflows, and splits the last block of the site's chain. -/
theorem Splitting.site (h : Splitting cfg done tails σ) (hsorted : (done ++ [s]).Pairwise SiteLt) (hs : s.1 ∈ cfg.ids)
    (hidx : s.2.1 < cfg.statementCount s.1) :
    ∃ idx, σ.site s = some ((σ.enter s.1).at s.2.1 idx s.2.2) ∧
      Splitting cfg (done ++ [s]) (tails ++ [σ.cfg.next]) ((σ.enter s.1).at s.2.1 idx s.2.2) := by
  obtain ⟨hcur, hoff, hcurrent⟩ := h.enter hsorted
  set off := lastOff 0 (siteIdxs done s.1) with hoffdef
  set τ := σ.enter s.1 with hτ
  have hcfg : τ.cfg = σ.cfg := enter_cfg _
  have hlast : τ.currentBlock ∈ s.1 :: tailsIn done tails s.1 := hcur ▸ List.getLastD_mem_cons
  have hlt : τ.currentBlock < τ.cfg.next := hcfg ▸ h.lt_of_mem_chain hs hlast
  have hcurStmts : σ.cfg.stmts τ.currentBlock = (cfg.stmts s.1).drop off := hcur ▸ (h.cut s.1 hs).content_last
  have hothers : ∀ b ∈ cfg.ids, b ≠ s.1 → ∀ c ∈ b :: tailsIn done tails b, c ≠ τ.currentBlock := by
    intro b hb hne c hc heq
    exact hne (h.eq_of_mem_chain hb hs hc (heq ▸ hlast))
  have hkept : ∀ b ∈ cfg.ids, b ≠ s.1 → ∀ c ∈ b :: tailsIn done tails b,
      (τ.at s.2.1 (s.2.1 - off) s.2.2).cfg.block c = σ.cfg.block c := by
    intro b hb hne c hc
    rw [at_block_of_ne τ _ _ _ (hcfg ▸ h.lt_of_mem_chain hb hc) (hothers b hb hne c hc), hcfg]
  have hnext : τ.cfg.next = σ.cfg.next := by rw [hcfg]
  have hbcur := at_block_current τ s.2.1 (s.2.1 - off) s.2.2 hlt
  have hbtail := at_block_tail τ s.2.1 (s.2.1 - off) s.2.2 hlt
  rw [hcfg] at hbcur hbtail
  refine ⟨s.2.1 - off, by rw [Split.site, hcurrent]; rfl, ?_, ?_, ?_, ?_, ?_, ?_, ?_, ?_⟩
  · have := h.next_le
    have := at_next τ s.2.1 (s.2.1 - off) s.2.2
    omega
  · simp [h.length_eq]
  · have hgrow := at_next τ s.2.1 (s.2.1 - off) s.2.2
    intro t ht
    rcases List.mem_append.mp ht with ht | ht
    · have := h.fresh t ht
      omega
    · obtain rfl := List.mem_singleton.mp ht
      have := h.next_le
      omega
  · refine List.nodup_append.mpr ⟨h.nodup, List.nodup_singleton _, ?_⟩
    rintro a ha _ hb rfl
    obtain rfl := List.mem_singleton.mp hb
    exact absurd (h.fresh _ ha).2 (lt_irrefl _)
  · intro b hb
    rw [siteIdxs_snoc, tailsIn_snoc h.length_eq]
    by_cases hbs : s.1 = b
    · subst hbs
      rw [if_pos rfl, if_pos rfl]
      have hlen : s.2.1 + 1 - off = s.2.1 - off + 1 := by omega
      refine (h.cut s.1 hb).snoc (h.chain_nodup hb) hoff hidx ?_ ?_ ?_
      · rw [← hoffdef, hlen, ← hcur]
        exact congrArg Block.stmts hbcur
      · rw [← hoffdef, hlen, ← hcur]
        exact congrArg Block.stmts hbtail
      · intro c hc hne
        rw [← hcur] at hne
        exact congrArg Block.stmts ((at_block_of_ne τ _ _ _ (hcfg ▸ h.lt_of_mem_chain hb hc) hne).trans (by rw [hcfg]))
    · rw [if_neg hbs, if_neg hbs]
      exact (h.cut b hb).congr fun c hc => congrArg Block.stmts (hkept b hb (Ne.symm hbs) c hc)
  · intro b hb
    rw [tailsIn_snoc h.length_eq]
    by_cases hbs : s.1 = b
    · subst hbs
      rw [if_pos rfl, List.getLastD_concat]
      exact (congrArg Block.term hbtail).trans (hcur ▸ h.term s.1 hb)
    · rw [if_neg hbs]
      exact (congrArg Block.term (hkept b hb (Ne.symm hbs) _ List.getLastD_mem_cons)).trans (h.term b hb)
  · intro b hb hnone
    have hbs : b ≠ s.1 := fun hbs => hnone s (by simp) hbs.symm
    exact (hkept b hb hbs b List.mem_cons_self).trans (h.untouched b hb fun s' hs' => hnone s' (by simp [hs']))
  · exact .inr ⟨s, by simp, by simp [hτ], by simp, by simp [hnext]⟩

/-- What a split adds to the tables: a resume entry `r`, and what goes with it. -/
theorem at_tables (σ : Split S F V) (i idx : ℕ) (x : SuspensionSite F V) : ∃ r,
    (σ.at i idx x).resumeEntries = σ.resumeEntries ++ [r] ∧
    (σ.at i idx x).yieldBlocks = σ.yieldBlocks ++ [(σ.currentBlock, σ.resumeEntries.length % 2 ^ 32)] ∧
    (σ.at i idx x).blockKinds = σ.blockKinds ++ kindsAt σ.currentBlock r σ.cfg.next x ∧
    (σ.at i idx x).siteYieldBlocks = σ.siteYieldBlocks ++ [σ.currentBlock] ∧
    (σ.at i idx x).siteResumes = σ.siteResumes ++ [r] ∧ σ.cfg.next ≤ r ∧ r < (σ.at i idx x).cfg.next ∧
    match x with
    | .directYield _ => r = σ.cfg.next
    | .crossFnCall .. => r ≠ σ.cfg.next ∧ (σ.at i idx x).cfg.block r = .fresh := by
  cases x with
  | directYield v => exact ⟨σ.cfg.next, rfl, rfl, rfl, rfl, rfl, le_rfl, at_next σ i idx _, rfl⟩
  | crossFnCall f a args v =>
    exact ⟨σ.cfg.next + 1, rfl, rfl, rfl, rfl, rfl, Nat.le_succ _, by simp [Split.at], by simp,
      by simp [Split.at, Cfg.newBlock_block]⟩

theorem kindsOf_snoc {ys rs : List ℕ} {y r d : ℕ} (hy : ys.length = done.length) (hr : rs.length = done.length)
    (hd : tails.length = done.length) :
    kindsOf (done ++ [s]) (ys ++ [y]) (rs ++ [r]) (tails ++ [d]) = kindsOf done ys rs tails ++ kindsAt y r d s.2.2 := by
  have hrd : (rs ++ [r]).zip (tails ++ [d]) = rs.zip tails ++ [(r, d)] := List.zip_append (hr.trans hd.symm)
  have hyrd : (ys ++ [y]).zip ((rs ++ [r]).zip (tails ++ [d])) = ys.zip (rs.zip tails) ++ [(y, r, d)] := by
    rw [hrd]
    exact List.zip_append (by simp [hy, hr, hd])
  rw [kindsOf, hyrd, List.zip_append (by simp [hy, hr, hd]), List.flatMap_append]
  simp [kindsOf]

/-- The tables say where the statements after a call went. -/
theorem doneBlock_kindsOf {sites : List (Site F V)} {ys rs ds : List ℕ} {k b i r d : ℕ} {f : F} {a : Option V}
    {args : List V} {v : V} (hlen : ys.length = sites.length) (hnd : rs.Nodup)
    (hs : sites[k]? = some (b, i, .crossFnCall f a args v)) (hr : rs[k]? = some r) (hd : ds[k]? = some d) :
    doneBlock (kindsOf sites ys rs ds) r = some d := by
  induction sites generalizing ys rs ds k with
  | nil => simp at hs
  | cons s sites ih =>
    obtain ⟨y, ys, rfl⟩ := List.exists_cons_of_length_eq_add_one (by simpa using hlen)
    cases rs with
    | nil => simp at hr
    | cons r' rs =>
      cases ds with
      | nil => simp at hd
      | cons d' ds =>
        have happ : kindsOf (s :: sites) (y :: ys) (r' :: rs) (d' :: ds) = kindsAt y r' d' s.2.2 ++ kindsOf sites ys rs ds := by
          simp [kindsOf]
        rw [happ, doneBlock, List.findSome?_append]
        cases k with
        | zero =>
          obtain rfl : s = _ := Option.some.inj hs
          obtain rfl : r' = r := Option.some.inj hr
          obtain rfl : d' = d := Option.some.inj hd
          simp [kindsAt]
        | succ k =>
          obtain ⟨hnot, hnd⟩ := List.nodup_cons.mp hnd
          have hmem : r ∈ rs := List.mem_of_getElem? (by simpa using hr)
          have hne : r' ≠ r := fun heq => hnot (heq ▸ hmem)
          have hnone : (kindsAt y r' d' s.2.2).findSome? (fun x => match x.2 with
              | .crossFnCallResume d _ _ _ _ => if x.1 = r then some d else none
              | _ => none) = none := by
            cases s.2.2 <;> simp [kindsAt, hne]
          rw [hnone]
          exact ih (by simpa using hlen) hnd (by simpa using hs) (by simpa using hr) (by simpa using hd)

/-- One round of the loop keeps what the tables say. -/
theorem Recorded.site {e : ℕ} {ys rs : List ℕ} (hR : Recorded cfg e done tails ys rs σ) (h : Splitting cfg done tails σ)
    (hs : s.1 ∈ cfg.ids) (idx : ℕ) (hcur : (σ.enter s.1).currentBlock = (tailsIn done tails s.1).getLastD s.1) :
    ∃ ys' rs', Recorded cfg e (done ++ [s]) (tails ++ [σ.cfg.next]) ys' rs' ((σ.enter s.1).at s.2.1 idx s.2.2) := by
  obtain ⟨r, h1, h2, h3, h4, h5, hge, hlt, hr⟩ := at_tables (σ.enter s.1) s.2.1 idx s.2.2
  obtain ⟨e1, e2, e3, e4, e5⟩ := enter_tables (σ := σ) s.1
  have hgrow := at_next (σ.enter s.1) s.2.1 idx s.2.2
  have hkeep : ∀ c < σ.cfg.next, c ≠ (σ.enter s.1).currentBlock →
      ((σ.enter s.1).at s.2.1 idx s.2.2).cfg.block c = σ.cfg.block c := by
    intro c hc hne
    rw [at_block_of_ne (σ.enter s.1) _ _ _ (by rwa [enter_cfg]) hne, enter_cfg]
  rw [enter_cfg] at hge hgrow hr h3
  rw [e1, hR.entries] at h1
  rw [e1, e2, hR.yields, hR.entries] at h2
  rw [e3, hR.kinds] at h3
  rw [e4, hR.siteYields] at h4
  rw [e5, hR.siteResumes] at h5
  obtain ⟨hly, hlr⟩ := hR.lengths
  have hmem : (σ.enter s.1).currentBlock ∈ s.1 :: tailsIn done tails s.1 := hcur ▸ List.getLastD_mem_cons
  have hlast : ∀ (k : ℕ) (s' : Site F V), (done ++ [s])[k]? = some s' → k < done.length ∧ done[k]? = some s' ∨
      k = done.length ∧ s' = s := by
    intro k s' hk
    by_cases hlt : k < done.length
    · rw [List.getElem?_append_left hlt] at hk
      exact .inl ⟨hlt, hk⟩
    · have hle := (List.getElem?_eq_some_iff.mp hk).1
      rw [List.length_append, List.length_singleton] at hle
      obtain rfl : k = done.length := by omega
      rw [List.getElem?_concat_length] at hk
      exact .inr ⟨rfl, (Option.some.inj hk).symm⟩
  refine ⟨ys ++ [(σ.enter s.1).currentBlock], rs ++ [r], ⟨by simp [hly], by simp [hlr]⟩, h1, ?_, ?_, h4, h5, ?_, ?_, ?_, ?_, ?_⟩
  · rw [h2, List.mapIdx_concat, hly, List.length_cons, hlr]
  · rw [h3, kindsOf_snoc hly hlr h.length_eq]
  · intro k s' hk
    rcases hlast k s' hk with ⟨hkl, hk⟩ | ⟨rfl, rfl⟩
    · rw [List.getElem?_append_left (hly ▸ hkl), hR.home k s' hk, List.take_append_of_le_length hkl.le,
        List.take_append_of_le_length (h.length_eq ▸ hkl.le)]
    · rw [← hly, List.getElem?_concat_length, hly, List.take_left, ← h.length_eq, List.take_left, hcur]
  · intro y hy
    rcases List.mem_append.mp hy with hy | hy
    · have hlt' := hR.yields_lt y hy
      omega
    · rw [List.mem_singleton.mp hy]
      exact (h.lt_of_mem_chain hs hmem).trans hgrow
  · refine List.nodup_append.mpr ⟨hR.resumes_nodup, List.nodup_singleton _, ?_⟩
    rintro x hx _ hx' rfl
    have hlt' := (hR.resumes_mem x hx).2
    rw [List.mem_singleton.mp hx'] at hlt'
    omega
  · intro x hx
    rcases List.mem_append.mp hx with hx | hx
    · have hx' := hR.resumes_mem x hx
      omega
    · rw [List.mem_singleton.mp hx]
      have hle := h.next_le
      exact ⟨hle.trans hge, hlt⟩
  · intro k s' r' d hk hkr hkd
    rcases hlast k s' hk with ⟨hkl, hk⟩ | ⟨rfl, rfl⟩
    · rw [List.getElem?_append_left (hlr ▸ hkl)] at hkr
      rw [List.getElem?_append_left (h.length_eq ▸ hkl)] at hkd
      have hok := hR.resumes k s' r' d hk hkr hkd
      obtain ⟨hr'ge, hr'lt⟩ := hR.resumes_mem r' (List.mem_of_getElem? hkr)
      cases hx : s'.2.2 with
      | directYield v =>
        rw [hx] at hok
        exact hok
      | crossFnCall f a args v =>
        rw [hx] at hok
        obtain ⟨hnot, hfresh⟩ := hok
        have hne : r' ≠ (σ.enter s.1).currentBlock := by
          intro heq
          rw [← heq] at hmem
          rcases List.mem_cons.mp hmem with hm | hm
          · have hlt' := cfg.ids_lt s.1 hs
            omega
          · exact hnot ((tailsIn_sublist h.length_eq).mem hm)
        refine ⟨?_, (hkeep r' hr'lt hne).trans hfresh⟩
        rw [List.mem_append, List.mem_singleton, not_or]
        exact ⟨hnot, hr'lt.ne⟩
    · rw [← hlr, List.getElem?_concat_length] at hkr
      rw [← h.length_eq, List.getElem?_concat_length] at hkd
      obtain rfl := Option.some.inj hkr
      obtain rfl := Option.some.inj hkd
      revert hr
      cases s'.2.2 with
      | directYield v => exact fun hr => hr
      | crossFnCall f a args v =>
        rintro ⟨hne, hfresh⟩
        refine ⟨?_, hfresh⟩
        rw [List.mem_append, List.mem_singleton, not_or]
        refine ⟨fun hm => ?_, hne⟩
        have hlt' := (h.fresh _ hm).2
        omega

/-- What the recorded tables say, site by site. -/
theorem Recorded.tabled {e : ℕ} {ys rs : List ℕ} (hR : Recorded cfg e done tails ys rs σ) (h : Splitting cfg done tails σ) :
    Tabled cfg done tails σ := by
  obtain ⟨hly, hlr⟩ := hR.lengths
  have hentry : ∀ k, σ.resumeEntries[k + 1]? = rs[k]? := fun k => by rw [hR.entries, List.getElem?_cons_succ]
  have hdone : ∀ (k : ℕ) (s : Site F V), done[k]? = some s → ∃ r d, rs[k]? = some r ∧ tails[k]? = some d := by
    intro k s hk
    have hlt := (List.getElem?_eq_some_iff.mp hk).1
    exact ⟨_, _, List.getElem?_eq_getElem (hlr ▸ hlt), List.getElem?_eq_getElem (h.length_eq ▸ hlt)⟩
  refine ⟨by simp [hR.yields, hly], by rw [hR.siteYields, hly], by rw [hR.siteResumes, hlr], by simp [hR.entries, hlr], ?_, ?_,
    ?_, ?_⟩
  · intro k b hk
    rw [hentry] at hk
    exact (hR.resumes_mem b (List.mem_of_getElem? hk)).2
  · intro x hx
    rw [hR.kinds, kindsOf, List.mem_flatMap] at hx
    obtain ⟨z, hz, hx⟩ := hx
    have hz1 := (List.of_mem_zip hz).2
    have hy := hR.yields_lt _ (List.of_mem_zip hz1).1
    have hr := (hR.resumes_mem _ (List.of_mem_zip (List.of_mem_zip hz1).2).1).2
    cases hs : z.1.2.2 with
    | directYield v =>
      rw [hs, kindsAt, List.mem_singleton] at hx
      exact hx ▸ hy
    | crossFnCall f a args v =>
      rw [hs, kindsAt] at hx
      rcases List.mem_cons.mp hx with rfl | hx
      · exact hy
      · exact List.mem_singleton.mp hx ▸ hr
  · intro k s hk
    obtain ⟨r, d, hr, hd⟩ := hdone k s hk
    have hok := hR.resumes k s r d hk hr hd
    obtain ⟨b, i, x⟩ := s
    cases x with
    | directYield v =>
      obtain rfl : r = d := hok
      rw [tailOf, hentry, hr, hd]
    | crossFnCall f a args v =>
      rw [tailOf, hentry, hr, hd, Option.bind_some, hR.kinds]
      exact doneBlock_kindsOf hly hR.resumes_nodup hk hr hd
  · intro k b i f a args v hk
    obtain ⟨r, d, hr, hd⟩ := hdone k _ hk
    obtain ⟨hnot, hfresh⟩ : r ∉ tails ∧ σ.cfg.block r = .fresh := hR.resumes k _ r d hk hr hd
    refine ⟨r, (hentry k).trans hr, (hR.resumes_mem r (List.mem_of_getElem? hr)).1, hnot, ?_⟩
    rw [Cfg.stmts, hfresh]
    rfl

end
end Krio.Async
