import Krio.Async.Program

/-! Where the statements of a function are after the transform: every place of the body is in one piece of its block,
and a suspension ends the piece it is in. -/

namespace Krio.Async
open Lib

variable {S F V : Type} {body : Cfg S} {classify : Cfg S → ℕ → ℕ → Option (SuspensionSite F V)} {liveness : LivenessMap V}
  {l : StateMachineLayout F V} {e : ℕ} {tails ys rs : List ℕ} {σ : Split S F V} {slotOf : V → ℕ} {b c i j k off : ℕ}

variable (body classify liveness l e tails ys rs σ slotOf) in
/-- The layout `l` of a body whose sites were all split, the slots being those of `slotOf`. -/
structure Laid : Prop where
  split : Splitting body (scan body classify) tails σ
  recorded : Recorded body e (scan body classify) tails ys rs σ
  entry : body.ids.head? = some e
  few : (scan body classify).length < 2 ^ 32
  entries : l.resumeEntries = e :: rs
  yields : l.yieldBlocks = σ.yieldBlocks
  kinds : l.blockKinds = σ.blockKinds
  saves : l.yieldSaves = tableOf liveness slotOf (scan body classify) ys
  loads : l.resumeLoads = tableOf liveness slotOf (scan body classify) rs
  inj : ∀ v ∈ liveAtSites liveness (scan body classify), ∀ w ∈ liveAtSites liveness (scan body classify),
    slotOf v = slotOf w → v = w

/-- What the transform of a suspending function returns. -/
theorem laid_of_transform [DecidableEq V] {fnId : F} {isSuspending : F → Bool} {options : TransformOptions}
    (hsus : isSuspending fnId = true) (he : body.ids.head? = some e) (hfew : (scan body classify).length < 2 ^ 32)
    (hbound : options.reservedSlots + (liveAtSites liveness (scan body classify)).dedup.length ≤ 2 ^ 32 - 1) :
    ∃ l tails ys rs σ slotOf, transformToStateMachineWithOptions body fnId isSuspending classify liveness options =
      some (σ.cfg, l) ∧ Laid body classify liveness l e tails ys rs σ slotOf := by
  obtain ⟨σ, tails, ys, rs, tb, h, hR, htb, heq⟩ := transform_eq classify liveness options he hsus
  obtain ⟨hly, hlr⟩ := hR.lengths
  obtain ⟨hslots, hsaves, hloads⟩ := lift_eq (by rw [hR.siteYields, hly]) (by rw [hR.siteResumes, hlr]) htb
  refine ⟨_, tails, ys, rs, σ, tb.slots.slotFor, heq, h, hR, he, hfew, hR.entries, rfl, rfl, ?_, ?_, ?_⟩
  · exact hR.siteYields ▸ hsaves
  · exact hR.siteResumes ▸ hloads
  · rw [hslots]
    exact fun v hv w hw => slot_entries_inj (by omega) hv hw

theorem mem_kindsOf {sites : List (Site F V)} {ds : List ℕ} {x : ℕ × BlockKind F V} : x ∈ kindsOf sites ys rs ds ↔
    ∃ (k : ℕ) (s : Site F V) (y r d : ℕ), sites[k]? = some s ∧ ys[k]? = some y ∧ rs[k]? = some r ∧ ds[k]? = some d ∧
      x ∈ kindsAt y r d s.2.2 := by
  rw [kindsOf, List.mem_flatMap]
  constructor
  · rintro ⟨z, hz, hx⟩
    obtain ⟨k, hk⟩ := List.mem_iff_getElem?.mp hz
    obtain ⟨hs, hk⟩ := List.getElem?_zip_eq_some.mp hk
    obtain ⟨hy, hk⟩ := List.getElem?_zip_eq_some.mp hk
    obtain ⟨hr, hd⟩ := List.getElem?_zip_eq_some.mp hk
    exact ⟨k, z.1, _, _, _, hs, hy, hr, hd, hx⟩
  · rintro ⟨k, s, y, r, d, hs, hy, hr, hd, hx⟩
    refine ⟨(s, y, r, d), List.mem_of_getElem? (i := k) ?_, hx⟩
    exact List.getElem?_zip_eq_some.mpr ⟨hs, List.getElem?_zip_eq_some.mpr ⟨hy, List.getElem?_zip_eq_some.mpr ⟨hr, hd⟩⟩⟩

/-- The entry that a table over distinct blocks has for one of them. -/
theorem pairs_of_tableOf {sites : List (Site F V)} {s : Site F V} {y : ℕ} (hnd : ys.Nodup) (hs : sites[k]? = some s)
    (hy : ys[k]? = some y) :
    ((tableOf liveness slotOf sites ys).filter (·.1 = y)).flatMap (·.2) =
      (liveness.lookup s.1 s.2.1).map fun v => (slotOf v, v) := by
  induction sites generalizing ys k with
  | nil => simp at hs
  | cons s' sites ih =>
    cases ys with
    | nil => simp at hy
    | cons y' ys =>
      obtain ⟨hnot, hnd⟩ := List.nodup_cons.mp hnd
      have hrest : ∀ {y}, y ∉ ys → (tableOf liveness slotOf sites ys).filter (·.1 = y) = [] := fun {y} hy => by
        rw [List.filter_eq_nil_iff]
        intro z hz heq
        obtain ⟨k, s, -, hk, -, -⟩ := mem_tableOf.mp hz
        exact hy (of_decide_eq_true heq ▸ List.mem_of_getElem? hk)
      rw [tableOf_cons, List.filter_append, List.flatMap_append]
      cases k with
      | zero =>
        obtain rfl := Option.some.inj hs
        obtain rfl := Option.some.inj hy
        rw [hrest hnot]
        by_cases hempty : (liveness.lookup s'.1 s'.2.1).isEmpty
        · rw [if_pos hempty, List.isEmpty_iff.mp hempty]
          rfl
        · rw [if_neg hempty]
          simp
      | succ k =>
        rw [List.getElem?_cons_succ] at hs hy
        have hne : y' ≠ y := fun heq => hnot (heq ▸ List.mem_of_getElem? hy)
        rw [ih hnd hs hy]
        split <;> simp [hne]

namespace Laid

/-- The sites of one block. -/
abbrev cuts (body : Cfg S) (classify : Cfg S → ℕ → ℕ → Option (SuspensionSite F V)) (b : ℕ) : List ℕ :=
  siteIdxs (scan body classify) b

/-- The blocks that hold what was in `b`. -/
abbrev chain (body : Cfg S) (classify : Cfg S → ℕ → ℕ → Option (SuspensionSite F V)) (tails : List ℕ) (b : ℕ) : List ℕ :=
  b :: tailsIn (scan body classify) tails b

theorem cuts_eq (hb : b ∈ body.ids) : cuts body classify b = sitesAt body classify b := siteIdxs_scan hb

theorem cuts_nodup (hb : b ∈ body.ids) : (cuts body classify b).Nodup := by
  rw [cuts_eq hb]
  exact List.nodup_range.filter _

theorem mem_cuts (hb : b ∈ body.ids) : i ∈ cuts body classify b ↔ i < body.statementCount b ∧ (classify body b i).isSome := by
  rw [cuts_eq hb, sitesAt, List.mem_filter, List.mem_range]

theorem site_mem {s : Site F V} (hs : (scan body classify)[k]? = some s) : s.1 ∈ body.ids :=
  (mem_scan.mp (List.mem_of_getElem? hs)).1

/-- The kind of a block for which only one is recorded. -/
theorem kindAt_eq {x : ℕ × BlockKind F V} (hx : x ∈ l.blockKinds) (huniq : ∀ z ∈ l.blockKinds, z.1 = x.1 → z.2 = x.2) :
    l.kindAt x.1 = some x.2 := by
  have hsome : (l.blockKinds.find? (·.1 = x.1)).isSome := by
    rw [List.find?_isSome]
    exact ⟨x, hx, decide_eq_true rfl⟩
  obtain ⟨z, hz⟩ := Option.isSome_iff_exists.mp hsome
  have hfst := List.find?_some hz
  rw [StateMachineLayout.kindAt, hz, Option.map_some]
  exact congrArg some (huniq z (List.mem_of_find?_eq_some hz) (of_decide_eq_true hfst))

section
variable (h : Laid body classify liveness l e tails ys rs σ slotOf)
include h

theorem yields_nodup : ys.Nodup := h.recorded.yields_nodup h.split scan_sorted fun _ hs => (mem_scan.mp hs).1

/-- What the tables say of the `k`-th site. -/
theorem at_site {s : Site F V} (hs : (scan body classify)[k]? = some s) : ∃ y r d, ys[k]? = some y ∧ rs[k]? = some r ∧
    tails[k]? = some d ∧ ResumeOk σ.cfg tails r d s.2.2 := by
  have hlt := (List.getElem?_eq_some_iff.mp hs).1
  obtain ⟨hly, hlr⟩ := h.recorded.lengths
  refine ⟨_, _, _, List.getElem?_eq_getElem (hly ▸ hlt), List.getElem?_eq_getElem (hlr ▸ hlt),
    List.getElem?_eq_getElem (h.split.length_eq ▸ hlt), ?_⟩
  exact h.recorded.resumes k s _ _ hs (List.getElem?_eq_getElem _) (List.getElem?_eq_getElem _)

theorem site_of_yield {y : ℕ} (hy : ys[k]? = some y) : ∃ s, (scan body classify)[k]? = some s :=
  ⟨_, List.getElem?_eq_getElem (h.recorded.lengths.1 ▸ (List.getElem?_eq_some_iff.mp hy).1)⟩

theorem yield_mem {s : Site F V} {y : ℕ} (hs : (scan body classify)[k]? = some s) (hy : ys[k]? = some y) :
    y ∈ chain body classify tails s.1 := by
  obtain ⟨j, -, hj, -⟩ := h.recorded.place h.split hs
  exact List.mem_of_getElem? (hj.trans hy)

/-- The resume entry of a call holds nothing of the body. -/
theorem resume_not_mem {s : Site F V} {r d : ℕ} {f : F} {a : Option V} {args : List V} {v : V}
    (hs : (scan body classify)[k]? = some s) (hr : rs[k]? = some r) (hd : tails[k]? = some d)
    (hx : s.2.2 = .crossFnCall f a args v) (hb : b ∈ body.ids) : r ∉ chain body classify tails b := by
  have hok := h.recorded.resumes k s r d hs hr hd
  rw [hx] at hok
  intro hmem
  rcases List.mem_cons.mp hmem with rfl | hmem
  · have hlt := body.ids_lt r hb
    have hge := (h.recorded.resumes_mem r (List.mem_of_getElem? hr)).1
    omega
  · exact hok.1 ((tailsIn_sublist h.split.length_eq).mem hmem)

theorem mem_blockKinds {x : ℕ × BlockKind F V} : x ∈ l.blockKinds ↔
    ∃ (k : ℕ) (s : Site F V) (y r d : ℕ), (scan body classify)[k]? = some s ∧ ys[k]? = some y ∧ rs[k]? = some r ∧
      tails[k]? = some d ∧ x ∈ kindsAt y r d s.2.2 := by
  rw [h.kinds, h.recorded.kinds]
  exact mem_kindsOf

/-- A block kind is that of the block that ends in a site, or of the resume entry of a call. -/
theorem kind_cases {x : ℕ × BlockKind F V} (hx : x ∈ l.blockKinds) : ∃ (k : ℕ) (s : Site F V) (y r d : ℕ),
    (scan body classify)[k]? = some s ∧ ys[k]? = some y ∧ rs[k]? = some r ∧ tails[k]? = some d ∧
      match s.2.2 with
      | .directYield _ => x = (y, .directYield)
      | .crossFnCall f a args v => x = (y, .crossFnCallInit r a args v f) ∨ x = (r, .crossFnCallResume d a args v f) := by
  obtain ⟨k, s, y, r, d, hs, hy, hr, hd, hx⟩ := h.mem_blockKinds.mp hx
  refine ⟨k, s, y, r, d, hs, hy, hr, hd, ?_⟩
  cases hsite : s.2.2 with
  | directYield v =>
    rw [hsite, kindsAt] at hx
    exact List.mem_singleton.mp hx
  | crossFnCall f a args v =>
    rw [hsite, kindsAt] at hx
    exact (List.mem_cons.mp hx).imp_right List.mem_singleton.mp

/-- Two sites end no block together. -/
theorem yield_inj {k' y : ℕ} (hy : ys[k]? = some y) (hy' : ys[k']? = some y) : k = k' :=
  (List.getElem?_inj (List.getElem?_eq_some_iff.mp hy).1 h.yields_nodup).mp (hy.trans hy'.symm)

theorem resume_inj {k' r : ℕ} (hr : rs[k]? = some r) (hr' : rs[k']? = some r) : k = k' :=
  (List.getElem?_inj (List.getElem?_eq_some_iff.mp hr).1 h.recorded.resumes_nodup).mp (hr.trans hr'.symm)

/-- The kind of a block that ends in a site. -/
theorem kindAt_yield {s : Site F V} {y r : ℕ} (hs : (scan body classify)[k]? = some s) (hy : ys[k]? = some y)
    (hr : rs[k]? = some r) : l.kindAt y = some (match s.2.2 with
      | .directYield _ => .directYield
      | .crossFnCall f a args v => .crossFnCallInit r a args v f) := by
  obtain ⟨-, -, d, -, -, hd, -⟩ := h.at_site hs
  refine kindAt_eq (x := (y, _)) (h.mem_blockKinds.mpr ⟨k, s, y, r, d, hs, hy, hr, hd, ?_⟩) fun z hz heq => ?_
  · cases s.2.2 with
    | directYield v => exact List.mem_cons_self
    | crossFnCall f a args v => exact List.mem_cons_self
  · obtain ⟨k', s', y', r', d', hs', hy', hr', hd', hz⟩ := h.kind_cases hz
    have hmem := h.yield_mem hs hy
    cases hsite : s'.2.2 with
    | directYield v =>
      rw [hsite] at hz
      subst hz
      obtain rfl : y' = y := heq
      obtain rfl := h.yield_inj hy hy'
      obtain rfl := Option.some.inj (hs.symm.trans hs')
      rw [hsite]
    | crossFnCall f a args v =>
      rw [hsite] at hz
      rcases hz with rfl | rfl
      · obtain rfl : y' = y := heq
        obtain rfl := h.yield_inj hy hy'
        obtain rfl := Option.some.inj (hs.symm.trans hs')
        obtain rfl := Option.some.inj (hr.symm.trans hr')
        rw [hsite]
      · obtain rfl : r' = y := heq
        exact absurd hmem (h.resume_not_mem hs' hr' hd' hsite (site_mem hs))

/-- The kind of the resume entry of a call. -/
theorem kindAt_resume {s : Site F V} {r d : ℕ} {f : F} {a : Option V} {args : List V} {v : V}
    (hs : (scan body classify)[k]? = some s) (hx : s.2.2 = .crossFnCall f a args v) (hr : rs[k]? = some r)
    (hd : tails[k]? = some d) : l.kindAt r = some (.crossFnCallResume d a args v f) := by
  obtain ⟨y, -, -, hy, -, -, -⟩ := h.at_site hs
  refine kindAt_eq (x := (r, _)) (h.mem_blockKinds.mpr ⟨k, s, y, r, d, hs, hy, hr, hd, ?_⟩) fun z hz heq => ?_
  · rw [hx]
    exact List.mem_cons_of_mem _ (List.mem_singleton_self _)
  · obtain ⟨k', s', y', r', d', hs', hy', hr', hd', hz⟩ := h.kind_cases hz
    have hmem := h.yield_mem hs' hy'
    have hnot : y' ≠ r := fun heq => h.resume_not_mem hs hr hd hx (site_mem hs') (heq ▸ hmem)
    cases hsite : s'.2.2 with
    | directYield v =>
      rw [hsite] at hz
      subst hz
      exact absurd heq hnot
    | crossFnCall f a args v =>
      rw [hsite] at hz
      rcases hz with rfl | rfl
      · exact absurd heq hnot
      · obtain rfl : r' = r := heq
        obtain rfl := h.resume_inj hr hr'
        obtain rfl := Option.some.inj (hs.symm.trans hs')
        obtain rfl := Option.some.inj (hd.symm.trans hd')
        rw [hx] at hsite
        obtain ⟨rfl, rfl, rfl, rfl⟩ := SuspensionSite.crossFnCall.inj hsite
        rfl

/-- A block that holds part of the body and ends in no site has no kind. -/
theorem kindAt_none (hb : b ∈ body.ids) (hc : c ∈ chain body classify tails b) (hnot : c ∉ ys) : l.kindAt c = none := by
  rw [StateMachineLayout.kindAt, Option.map_eq_none_iff, List.find?_eq_none]
  intro z hz heq
  obtain ⟨k', s', y', r', d', hs', hy', hr', hd', hz⟩ := h.kind_cases hz
  have heq' : z.1 = c := of_decide_eq_true heq
  cases hsite : s'.2.2 with
  | directYield v =>
    rw [hsite] at hz
    subst hz
    obtain rfl : y' = c := heq'
    exact hnot (List.mem_of_getElem? hy')
  | crossFnCall f a args v =>
    rw [hsite] at hz
    rcases hz with rfl | rfl
    · obtain rfl : y' = c := heq'
      exact hnot (List.mem_of_getElem? hy')
    · obtain rfl : r' = c := heq'
      exact h.resume_not_mem hs' hr' hd' hsite hb hc

theorem nextState_yield {y : ℕ} (hy : ys[k]? = some y) : l.nextState y = k + 1 := by
  have hlt := (List.getElem?_eq_some_iff.mp hy).1
  have hlen := h.recorded.lengths.1
  have hfew := h.few
  have hmem : ∀ z ∈ l.yieldBlocks, z.1 = y → z.2 = k + 1 := by
    intro z hz heq
    rw [h.yields, h.recorded.yields, List.mem_mapIdx] at hz
    obtain ⟨k', hk', rfl⟩ := hz
    have hy' : ys[k']? = some y := heq ▸ List.getElem?_eq_getElem hk'
    obtain rfl := h.yield_inj hy hy'
    exact Nat.mod_eq_of_lt (by omega)
  have hsome : (l.yieldBlocks.find? (·.1 = y)).isSome := by
    rw [List.find?_isSome]
    refine ⟨(y, (k + 1) % 2 ^ 32), ?_, decide_eq_true rfl⟩
    rw [h.yields, h.recorded.yields, List.mem_mapIdx]
    exact ⟨k, hlt, by rw [(List.getElem?_eq_some_iff.mp hy).2]⟩
  obtain ⟨z, hz⟩ := Option.isSome_iff_exists.mp hsome
  have hfst := List.find?_some hz
  rw [StateMachineLayout.nextState, hz]
  exact hmem z (List.mem_of_find?_eq_some hz) (of_decide_eq_true hfst)

theorem savesAt_yield {s : Site F V} {y : ℕ} (hs : (scan body classify)[k]? = some s) (hy : ys[k]? = some y) :
    l.savesAt y = (liveness.lookup s.1 s.2.1).map fun v => (slotOf v, v) := by
  rw [StateMachineLayout.savesAt, h.saves]
  exact pairs_of_tableOf h.yields_nodup hs hy

theorem loadsAt_resume {s : Site F V} {r : ℕ} (hs : (scan body classify)[k]? = some s) (hr : rs[k]? = some r) :
    l.loadsAt r = (liveness.lookup s.1 s.2.1).map fun v => (slotOf v, v) := by
  rw [StateMachineLayout.loadsAt, h.loads]
  exact pairs_of_tableOf h.recorded.resumes_nodup hs hr

/-- The entry of the function loads nothing. -/
theorem loadsAt_entry : l.loadsAt e = [] := by
  rw [StateMachineLayout.loadsAt, h.loads, List.filter_eq_nil_iff.mpr, List.flatMap_nil]
  intro z hz heq
  obtain ⟨k, s, -, hk, -, -⟩ := mem_tableOf.mp hz
  have hge := (h.recorded.resumes_mem _ (List.mem_of_getElem? hk)).1
  have hlt := body.ids_lt e (List.mem_of_mem_head? h.entry)
  have heq' : z.1 = e := of_decide_eq_true heq
  omega

end

/-! ## Pieces -/

variable (body classify tails σ) in
/-- The block `c` is the `j`-th piece of `b` and starts with what was at `off`. -/
structure Piece (b j off c : ℕ) : Prop where
  place : (chain body classify tails b)[j]? = some c
  cut : Cut σ.cfg.stmts (body.stmts b) off ((cuts body classify b).drop j) c ((tailsIn (scan body classify) tails b).drop j)
  before : ∀ i ∈ (cuts body classify b).take j, i < off

variable (body classify tails σ) in
/-- The statement `idx` of `b` is, or would be, the `i`-th of the block `c`. -/
def Stands (b idx c i : ℕ) : Prop :=
  ∃ j off, Piece body classify tails σ b j off c ∧ idx = off + i ∧ ∀ cut, (cuts body classify b)[j]? = some cut → idx ≤ cut

section
variable (h : Laid body classify liveness l e tails ys rs σ slotOf)
include h

theorem first (hb : b ∈ body.ids) : Piece body classify tails σ b 0 0 b :=
  ⟨rfl, h.split.cut b hb, fun _ hi => absurd hi List.not_mem_nil⟩

theorem stands_first (hb : b ∈ body.ids) : Stands body classify tails σ b 0 b 0 :=
  ⟨0, 0, h.first hb, rfl, fun _ _ => Nat.zero_le _⟩

omit h in
/-- A piece with a cut ends there, and another one follows. -/
theorem Piece.next (hp : Piece body classify tails σ b j off c) (hi : (cuts body classify b)[j]? = some i) :
    off ≤ i ∧ i < body.statementCount b ∧ σ.cfg.stmts c = ((body.stmts b).drop off).take (i + 1 - off) ∧
      ∃ d, (tailsIn (scan body classify) tails b)[j]? = some d ∧ Piece body classify tails σ b (j + 1) (i + 1) d := by
  obtain ⟨hlt, rfl⟩ := List.getElem?_eq_some_iff.mp hi
  have hcut := hp.cut
  rw [List.drop_eq_getElem_cons hlt] at hcut
  cases htl : (tailsIn (scan body classify) tails b).drop j with
  | nil =>
    rw [htl] at hcut
    exact hcut.elim
  | cons d ps =>
    rw [htl] at hcut
    obtain ⟨h1, h2, h3, h4⟩ := hcut
    have hd : (tailsIn (scan body classify) tails b)[j]? = some d := by
      rw [← List.head?_drop, htl]
      rfl
    have hps : ps = (tailsIn (scan body classify) tails b).drop (j + 1) := by
      rw [← List.tail_drop, htl]
      rfl
    refine ⟨h1, h2, h3, d, hd, hd, hps ▸ h4, fun i' hi' => ?_⟩
    rw [List.take_succ_eq_append_getElem hlt] at hi'
    rcases List.mem_append.mp hi' with hi' | hi'
    · have hlt' := hp.before i' hi'
      omega
    · rw [List.mem_singleton.mp hi']
      exact Nat.lt_succ_self _

omit h in
/-- The last piece is what is left of the block. -/
theorem Piece.last (hp : Piece body classify tails σ b j off c) (hj : (cuts body classify b)[j]? = none) :
    σ.cfg.stmts c = (body.stmts b).drop off ∧ c = (tailsIn (scan body classify) tails b).getLastD b := by
  have hle := List.getElem?_eq_none_iff.mp hj
  have hcut := hp.cut
  have hlen := hcut.length_eq
  rw [List.drop_eq_nil_of_le hle] at hcut hlen
  have hnil : (tailsIn (scan body classify) tails b).drop j = [] := List.eq_nil_of_length_eq_zero hlen
  rw [hnil] at hcut
  refine ⟨hcut, ?_⟩
  have hplace := hp.place
  have hge : (tailsIn (scan body classify) tails b).length ≤ j := List.drop_eq_nil_iff.mp hnil
  have hlt := (List.getElem?_eq_some_iff.mp hplace).1
  rw [List.length_cons] at hlt
  obtain rfl : j = (tailsIn (scan body classify) tails b).length := by omega
  have hlast : (chain body classify tails b).getLast? = some c := by
    rw [List.getLast?_eq_getElem?, List.length_cons, Nat.add_sub_cancel]
    exact hplace
  rw [List.getLast?_cons] at hlast
  rw [List.getLastD_eq_getLast?]
  exact (Option.some.inj hlast).symm

/-- The site that ends a piece. -/
theorem piece_site (hb : b ∈ body.ids) (hp : Piece body classify tails σ b j off c)
    (hi : (cuts body classify b)[j]? = some i) : ∃ (x : SuspensionSite F V) (k d : ℕ), classify body b i = some x ∧
      (scan body classify)[k]? = some (b, i, x) ∧ ys[k]? = some c ∧ tails[k]? = some d ∧
      Piece body classify tails σ b (j + 1) (i + 1) d := by
  obtain ⟨hlt, hsome⟩ := (mem_cuts hb).mp (List.mem_of_getElem? hi)
  obtain ⟨x, hx⟩ := Option.isSome_iff_exists.mp hsome
  obtain ⟨k, hk⟩ := List.mem_iff_getElem?.mp (mem_scan.mpr ⟨hb, hlt, hx⟩ : (b, i, x) ∈ scan body classify)
  obtain ⟨j', hj', hy, hd⟩ := h.recorded.place h.split hk
  have hjj : j' = j := by
    have hlt' := (List.getElem?_eq_some_iff.mp hj').1
    exact (List.getElem?_inj hlt' (cuts_nodup hb)).mp (hj'.trans hi.symm)
  subst hjj
  obtain ⟨-, -, -, d, hd', hnext⟩ := hp.next hi
  exact ⟨x, k, d, hx, hk, hy.symm.trans hp.place, hd.symm.trans hd', hnext⟩

/-- A piece without a cut ends in no site. -/
theorem piece_end (hb : b ∈ body.ids) (hp : Piece body classify tails σ b j off c) (hj : (cuts body classify b)[j]? = none) :
    c ∉ ys := by
  intro hc
  obtain ⟨k, hk⟩ := List.mem_iff_getElem?.mp hc
  obtain ⟨s, hs⟩ := h.site_of_yield hk
  obtain ⟨j', hj', hy, -⟩ := h.recorded.place h.split hs
  have hmem := h.yield_mem hs hk
  have hbb := h.split.eq_of_mem_chain (site_mem hs) hb hmem (List.mem_of_getElem? hp.place)
  rw [hbb] at hy hj'
  have hjlt := (List.getElem?_eq_some_iff.mp (hy.trans hk)).1
  have hjj : j' = j := (List.getElem?_inj hjlt (h.split.chain_nodup hb)).mp ((hy.trans hk).trans hp.place.symm)
  rw [hjj, hj] at hj'
  cases hj'

/-- What stands at a place of a piece: a statement that the function runs, the site that ends the piece, or the end of
    the block. -/
theorem stands_cases {idx : ℕ} (hb : b ∈ body.ids) (hs : Stands body classify tails σ b idx c i) :
    (∃ s, (body.stmts b)[idx]? = some s ∧ classify body b idx = none ∧ (σ.cfg.stmts c)[i]? = some s ∧
        (i + 1 = σ.cfg.statementCount c → l.kindAt c = none) ∧ Stands body classify tails σ b (idx + 1) c (i + 1)) ∨
      (∃ (s : S) (x : SuspensionSite F V) (k d : ℕ), (body.stmts b)[idx]? = some s ∧ classify body b idx = some x ∧
        (scan body classify)[k]? = some (b, idx, x) ∧ ys[k]? = some c ∧ tails[k]? = some d ∧
        (σ.cfg.stmts c)[i]? = some s ∧ i + 1 = σ.cfg.statementCount c ∧ Stands body classify tails σ b (idx + 1) d 0) ∨
      ((body.stmts b)[idx]? = none ∧ (σ.cfg.stmts c)[i]? = none ∧ σ.cfg.term c = body.term b) := by
  obtain ⟨j, off, hp, rfl, hle⟩ := hs
  have hmem := List.mem_of_getElem? hp.place
  cases hcut : (cuts body classify b)[j]? with
  | none =>
    obtain ⟨hstmts, hlast⟩ := hp.last hcut
    have hnone : l.kindAt c = none := h.kindAt_none hb hmem (h.piece_end hb hp hcut)
    have hget : (σ.cfg.stmts c)[i]? = (body.stmts b)[off + i]? := by rw [hstmts, List.getElem?_drop]
    cases hs : (body.stmts b)[off + i]? with
    | none =>
      refine .inr (.inr ⟨rfl, hget.trans hs, ?_⟩)
      rw [hlast]
      exact h.split.term b hb
    | some s =>
      refine .inl ⟨s, rfl, ?_, hget.trans hs, fun _ => hnone, j, off, hp, rfl, fun i' hi' => ?_⟩
      · by_contra hx
        have hin : off + i ∈ cuts body classify b := (mem_cuts hb).mpr
          ⟨(List.getElem?_eq_some_iff.mp hs).1, Option.ne_none_iff_isSome.mp hx⟩
        rw [← List.take_append_drop j (cuts body classify b)] at hin
        rcases List.mem_append.mp hin with hin | hin
        · have hlt := hp.before _ hin
          omega
        · rw [List.drop_eq_nil_of_le (List.getElem?_eq_none_iff.mp hcut)] at hin
          exact List.not_mem_nil hin
      · rw [hcut] at hi'
        cases hi'
  | some i' =>
    obtain ⟨hoff, hlt, hstmts, -⟩ := hp.next hcut
    have hle' := hle i' hcut
    have hlt' : i' < (body.stmts b).length := hlt
    have hget : (σ.cfg.stmts c)[i]? = (body.stmts b)[off + i]? := by
      rw [hstmts, List.getElem?_take_of_lt (by omega), List.getElem?_drop]
    have hcount : σ.cfg.statementCount c = i' + 1 - off := by
      rw [Cfg.statementCount, hstmts, List.length_take, List.length_drop]
      omega
    obtain ⟨s, hs⟩ : ∃ s, (body.stmts b)[off + i]? = some s := ⟨_, List.getElem?_eq_getElem (by omega)⟩
    by_cases heq : off + i = i'
    · obtain ⟨x, k, d, hx, hk, hy, hd, hnext⟩ := h.piece_site hb hp hcut
      subst heq
      refine .inr (.inl ⟨s, x, k, d, hs, hx, hk, hy, hd, hget.trans hs, by omega, j + 1, off + i + 1, hnext, rfl, ?_⟩)
      intro i₂ hi₂
      have hcut' := hnext.cut
      have hmem₂ : i₂ ∈ (cuts body classify b).drop (j + 1) := List.mem_of_getElem? (i := 0) (by simpa using hi₂)
      exact hcut'.le_of_mem hmem₂
    · refine .inl ⟨s, hs, ?_, hget.trans hs, fun hend => by omega, j, off, hp, rfl, fun i₂ hi₂ => ?_⟩
      · by_contra hx
        have hin : off + i ∈ cuts body classify b := (mem_cuts hb).mpr ⟨by omega, Option.ne_none_iff_isSome.mp hx⟩
        rw [← List.take_append_drop j (cuts body classify b)] at hin
        rcases List.mem_append.mp hin with hin | hin
        · have hbefore := hp.before _ hin
          omega
        · have hjlt := (List.getElem?_eq_some_iff.mp hcut).1
          rw [List.drop_eq_getElem_cons hjlt, (List.getElem?_eq_some_iff.mp hcut).2] at hin
          rcases List.mem_cons.mp hin with hin | hin
          · exact heq hin
          · obtain ⟨_, _, _, -, -, -, -, hnext⟩ := h.piece_site hb hp hcut
            have hge := hnext.cut.le_of_mem hin
            omega
      · rw [hcut] at hi₂
        obtain rfl := Option.some.inj hi₂
        omega

/-- A place of the body stands in no resume entry of a call. -/
theorem stands_kind {idx : ℕ} (hb : b ∈ body.ids) (hs : Stands body classify tails σ b idx c i) {d : ℕ} {a : Option V}
    {args : List V} {v : V} {f : F} : l.kindAt c ≠ some (.crossFnCallResume d a args v f) := by
  obtain ⟨j, off, hp, -, -⟩ := hs
  have hmem := List.mem_of_getElem? hp.place
  by_cases hc : c ∈ ys
  · obtain ⟨k, hk⟩ := List.mem_iff_getElem?.mp hc
    obtain ⟨s, hs⟩ := h.site_of_yield hk
    obtain ⟨-, r, -, -, hr, -, -⟩ := h.at_site hs
    rw [h.kindAt_yield hs hk hr]
    cases s.2.2 with
    | directYield v => simp
    | crossFnCall f a args v => simp
  · rw [h.kindAt_none hb hmem hc]
    simp

end

end Laid

end Krio.Async
