import Krio.Stackless.Contract
import Krio.Stackless.Loops

/-! The body after a conforming region was transformed: where the pieces of every coroutine are, and that the
rest of the body is as before. -/

namespace Krio.Stackless

variable {U : Type} {hooks : Hooks U} {cfg : Body U} {r : Region} {start : ℕ}

/-- The locals of the machines: above those of the body, below those of the executor, no two the same. -/
structure MachineLocals (n0 l0 : ℕ) (ms : List Machine) (progress : ℕ) : Prop where
  progress_mem : n0 ≤ progress ∧ progress < l0
  state_mem : ∀ m ∈ ms, n0 ≤ m.stateLocal ∧ m.stateLocal < l0 ∧ m.stateLocal ≠ progress
  poll_mem : ∀ m ∈ ms, n0 ≤ m.pollResultLocal ∧ m.pollResultLocal < l0 ∧ m.pollResultLocal ≠ progress
  progress_eq : ∀ m ∈ ms, m.progressLocal = progress
  state_poll : ∀ m ∈ ms, ∀ m' ∈ ms, m.stateLocal ≠ m'.pollResultLocal
  state_inj : ∀ (j k : ℕ) (m m' : Machine), ms[j]? = some m → ms[k]? = some m' → j ≠ k → m.stateLocal ≠ m'.stateLocal
  poll_inj : ∀ (j k : ℕ) (m m' : Machine), ms[j]? = some m → ms[k]? = some m' → j ≠ k →
    m.pollResultLocal ≠ m'.pollResultLocal

/-- A local of a machine that holds the outcome of a check or a peek. -/
def Temp (n0 l0 : ℕ) (ms : List Machine) (progress d : ℕ) : Prop :=
  n0 ≤ d ∧ d < l0 ∧ d ≠ progress ∧ ∀ m ∈ ms, d ≠ m.stateLocal ∧ d ≠ m.pollResultLocal

/-- The statements that stand before the begin marker of a coroutine and come into its machine with it. -/
def leadIn (cfg : Body U) (r : Region) (co : Coroutine) : List (Stmt U) :=
  ((cfg.stmts co.begin.1).take co.begin.2).drop (if co.begin.1 = r.regionBegin.1 then r.regionBegin.2 + 1 else 0)

/-- What became of the coroutine `co` with the points `pts`: its machine `m` is entered at `entry` first and
    at `entries` later. The machine's own blocks, but for dispatch and exit, are in `F`. -/
structure Lowered (cfg cfg' : Body U) (r : Region) (F T : ℕ → Prop) (co : Coroutine) (pts : List Point) (m : Machine)
    (entry : ℕ) (entries : List ℕ) (done : ℕ) : Prop where
  count : entries.length = pts.length
  dispatches : Dispatches cfg' T m pts entry entries
  entry_block : cfg'.block entry =
    ⟨leadIn cfg r co ++ .nop :: (cfg.stmts co.begin.1).drop (co.begin.2 + 1), cfg.term co.begin.1⟩
  entry_mem : co.begin.1 ≠ r.regionBegin.1 ∧ entry = co.begin.1 ∨ co.begin.1 = r.regionBegin.1 ∧ F entry
  done_mem : F done
  done_block : cfg'.block done = ⟨[.assignI64 m.pollResultLocal pollReady, .assignI64 m.stateLocal doneState], .goto m.exitBb⟩
  last : cfg'.block co.last.1 =
    ⟨(cfg.stmts co.last.1).take co.last.2 ++ .nop :: (cfg.stmts co.last.1).drop (co.last.2 + 1), .goto done⟩
  sites : ∀ (j : ℕ) (p : Point) (e : ℕ), pts[j]? = some p → entries[j]? = some e →
    Site (cfg.block p.bb) cfg' F T m (j + 1 : ℕ) p e
  body : ∀ b, Inside cfg co b → b ≠ co.begin.1 → b ≠ co.last.1 → (∀ p ∈ pts, p.bb ≠ b) → cfg'.block b = cfg.block b

namespace Marked

theorem mem_snapshot {x : Coroutine × List Point} {k : ℕ} (hx : (snapshot hooks cfg r)[k]? = some x) :
    r.coroutines[k]? = some x.1 ∧ x.2 = findSuspensionPoints hooks cfg x.1 := by
  rw [snapshot, List.getElem?_map] at hx
  obtain ⟨c, hc, rfl⟩ := Option.map_eq_some_iff.mp hx
  exact ⟨hc, rfl⟩

theorem inside_of_rewrites (h : Marked hooks cfg r start) {c : Coroutine} (hc : c ∈ r.coroutines) {b : ℕ}
    (hb : b ∈ rewrites (c, findSuspensionPoints hooks cfg c)) : Inside cfg c b := by
  rcases List.mem_append.mp hb with hb | hb
  · obtain ⟨p, hp, rfl⟩ := List.mem_map.mp hb
    exact ((h.mem_points hc).mp hp).1.inside
  · rw [List.mem_singleton.mp hb]
    exact .last

theorem rewrites_nodup (h : Marked hooks cfg r start) : ((snapshot hooks cfg r).flatMap rewrites).Nodup := by
  rw [List.nodup_flatMap]
  constructor
  · intro x hx
    obtain ⟨c, hc, rfl⟩ := List.mem_map.mp hx
    refine List.nodup_append.mpr ⟨h.points_nodup hc, List.nodup_singleton _, ?_⟩
    intro a ha b hb hab
    obtain ⟨p, hp, rfl⟩ := List.mem_map.mp ha
    obtain ⟨hr, m, hm, hk⟩ := (h.mem_points hc).mp hp
    have hne := ((h.suspension_block (h.inside_lt hc hr.inside) hm hk).2.2 c hc).2
    exact hne (hab.trans (List.mem_singleton.mp hb))
  · refine List.pairwise_iff_getElem.mpr fun i j hi hj hij => ?_
    intro b hbi hbj
    have hxi := mem_snapshot (List.getElem?_eq_getElem hi)
    have hxj := mem_snapshot (List.getElem?_eq_getElem hj)
    have hin : ∀ {k : ℕ} {x : Coroutine × List Point}, r.coroutines[k]? = some x.1 ∧ x.2 = findSuspensionPoints hooks cfg x.1 →
        b ∈ rewrites x → Inside cfg x.1 b := by
      rintro k ⟨c, pts⟩ ⟨hc, hp⟩ hb
      obtain rfl : pts = findSuspensionPoints hooks cfg c := hp
      exact h.inside_of_rewrites (List.mem_of_getElem? hc) hb
    exact hij.ne (h.apart i j _ _ hxi.1 hxj.1 b (hin hxi hbi) (hin hxj hbj))

theorem rewrites_lt (h : Marked hooks cfg r start) : ∀ b ∈ (snapshot hooks cfg r).flatMap rewrites, b < cfg.next := by
  intro b hb
  obtain ⟨x, hx, hb⟩ := List.mem_flatMap.mp hb
  obtain ⟨c, hc, rfl⟩ := List.mem_map.mp hx
  exact h.inside_lt hc (h.inside_of_rewrites hc hb)

theorem points_host (h : Marked hooks cfg r start) : ∀ x ∈ snapshot hooks cfg r, ∀ p ∈ x.2,
    ∃ u, (cfg.stmts p.bb)[p.stmt]? = some (.host u) := by
  intro x hx p hp
  obtain ⟨c, hc, rfl⟩ := List.mem_map.mp hx
  obtain ⟨-, m, hm, -⟩ := (h.mem_points hc).mp hp
  exact classify_host hm

end Marked

/-- The body with every machine built, and the machines. -/
def machinesOf (hooks : Hooks U) (cfg : Body U) (r : Region) : List Machine × Body U :=
  buildMachines cfg.locals.length (snapshot hooks cfg r) cfg.newStateLocal.2

theorem transformRegion_eq {E : Type} (f : Executor U E) (e : E) :
    transformRegion hooks f e cfg r = f e (machinesOf hooks cfg r).2 r (machinesOf hooks cfg r).1 := rfl

namespace AllBuilt
variable {orig cfgM : Body U} {cs : List (Coroutine × List Point)} {ms : List Machine} {progress : ℕ} {lo ll : ℕ → ℕ}

theorem built_at (h : AllBuilt orig cfgM cs ms progress lo ll) {k : ℕ} {m : Machine} (hm : ms[k]? = some m) :
    ∃ x entries done, cs[k]? = some x ∧ m.progressLocal = progress ∧
      Built orig cfgM (fun c => lo k ≤ c ∧ c < lo (k + 1)) (fun d => ll k ≤ d ∧ d < ll (k + 1)) x.1 x.2 m entries done := by
  have hk : k < cs.length := h.count ▸ (List.getElem?_eq_some_iff.mp hm).1
  obtain ⟨hp, entries, done, hb⟩ := h.built k _ m (List.getElem?_eq_getElem hk) hm
  exact ⟨_, entries, done, List.getElem?_eq_getElem hk, hp, hb⟩

/-- Intervals of different machines do not meet. -/
theorem interval_eq {f : ℕ → ℕ} (hf : Monotone f) {j k d : ℕ} (hj : f j ≤ d ∧ d < f (j + 1)) (hk : f k ≤ d ∧ d < f (k + 1)) :
    j = k := by
  rcases Nat.lt_trichotomy j k with hlt | heq | hlt
  · have hle := hf (Nat.add_one_le_of_lt hlt)
    omega
  · exact heq
  · have hle := hf (Nat.add_one_le_of_lt hlt)
    omega

theorem machineLocals (h : AllBuilt orig cfgM cs ms progress lo ll) {n0 : ℕ} (hprog : n0 ≤ progress) (h0 : progress < ll 0) :
    MachineLocals n0 (ll cs.length) ms progress := by
  have hbound : ∀ {k d : ℕ}, k < cs.length → ll k ≤ d ∧ d < ll (k + 1) → n0 ≤ d ∧ d < ll cs.length ∧ d ≠ progress := by
    intro k d hk hd
    have h1 := h.ll_mono (Nat.zero_le k)
    have h2 := h.ll_mono (Nat.add_one_le_of_lt hk)
    omega
  have hlt : ∀ {k : ℕ} {m : Machine}, ms[k]? = some m → k < cs.length := fun hm =>
    h.count ▸ (List.getElem?_eq_some_iff.mp hm).1
  refine ⟨⟨hprog, h0.trans_le (h.ll_mono (Nat.zero_le _))⟩, ?_, ?_, ?_, ?_, ?_, ?_⟩
  · intro m hm
    obtain ⟨k, hk⟩ := List.mem_iff_getElem?.mp hm
    obtain ⟨x, entries, done, -, -, hb⟩ := h.built_at hk
    exact hbound (hlt hk) hb.state
  · intro m hm
    obtain ⟨k, hk⟩ := List.mem_iff_getElem?.mp hm
    obtain ⟨x, entries, done, -, -, hb⟩ := h.built_at hk
    exact hbound (hlt hk) hb.poll
  · intro m hm
    obtain ⟨k, hk⟩ := List.mem_iff_getElem?.mp hm
    obtain ⟨x, entries, done, -, hp, -⟩ := h.built_at hk
    exact hp
  · intro m hm m' hm' heq
    obtain ⟨j, hj⟩ := List.mem_iff_getElem?.mp hm
    obtain ⟨k, hk⟩ := List.mem_iff_getElem?.mp hm'
    obtain ⟨x, entries, done, -, -, hb⟩ := h.built_at hj
    obtain ⟨x', entries', done', -, -, hb'⟩ := h.built_at hk
    obtain rfl := interval_eq h.ll_mono hb.state (heq ▸ hb'.poll)
    rw [hj] at hk
    cases hk
    exact hb.state_ne heq
  · intro j k m m' hj hk hne heq
    obtain ⟨x, entries, done, -, -, hb⟩ := h.built_at hj
    obtain ⟨x', entries', done', -, -, hb'⟩ := h.built_at hk
    exact hne (interval_eq h.ll_mono hb.state (heq ▸ hb'.state))
  · intro j k m m' hj hk hne heq
    obtain ⟨x, entries, done, -, -, hb⟩ := h.built_at hj
    obtain ⟨x', entries', done', -, -, hb'⟩ := h.built_at hk
    exact hne (interval_eq h.ll_mono hb.poll (heq ▸ hb'.poll))

theorem temp (h : AllBuilt orig cfgM cs ms progress lo ll) {n0 : ℕ} (hprog : n0 ≤ progress) (h0 : progress < ll 0) {k : ℕ}
    {m : Machine} (hm : ms[k]? = some m) {d : ℕ} (hd : (ll k ≤ d ∧ d < ll (k + 1)) ∧ d ≠ m.stateLocal ∧ d ≠ m.pollResultLocal) :
    Temp n0 (ll cs.length) ms progress d := by
  have hk : k < cs.length := h.count ▸ (List.getElem?_eq_some_iff.mp hm).1
  have h1 := h.ll_mono (Nat.zero_le k)
  have h2 := h.ll_mono (Nat.add_one_le_of_lt hk)
  refine ⟨by omega, by omega, by omega, fun m' hm' => ?_⟩
  obtain ⟨j, hj⟩ := List.mem_iff_getElem?.mp hm'
  obtain ⟨x, entries, done, -, -, hb⟩ := h.built_at hj
  constructor
  · rintro rfl
    obtain rfl := interval_eq h.ll_mono hb.state hd.1
    rw [hj] at hm
    cases hm
    exact hd.2.1 rfl
  · rintro rfl
    obtain rfl := interval_eq h.ll_mono hb.poll hd.1
    rw [hj] at hm
    cases hm
    exact hd.2.2 rfl

/-- Dispatch and exit blocks are new, and no two of them are the same. -/
theorem dispatch_exit (h : AllBuilt orig cfgM cs ms progress lo ll) :
    (∀ m ∈ ms, lo 0 ≤ m.dispatchBb ∧ m.dispatchBb < lo cs.length ∧ lo 0 ≤ m.exitBb ∧ m.exitBb < lo cs.length ∧
      cfgM.block m.exitBb = .fresh) ∧
    (∀ m ∈ ms, ∀ m' ∈ ms, m.dispatchBb ≠ m'.exitBb) ∧
    (∀ (j k : ℕ) (m m' : Machine), ms[j]? = some m → ms[k]? = some m' → j ≠ k →
      m.dispatchBb ≠ m'.dispatchBb ∧ m.exitBb ≠ m'.exitBb) := by
  refine ⟨?_, ?_, ?_⟩
  · intro m hm
    obtain ⟨k, hk⟩ := List.mem_iff_getElem?.mp hm
    obtain ⟨x, entries, done, -, -, hb⟩ := h.built_at hk
    have hlt : k < cs.length := h.count ▸ (List.getElem?_eq_some_iff.mp hk).1
    have h1 := h.lo_mono (Nat.zero_le k)
    have h2 := h.lo_mono (Nat.add_one_le_of_lt hlt)
    obtain ⟨hd, he, -⟩ := hb.dispatch
    exact ⟨by omega, by omega, by omega, by omega, hb.exit⟩
  · intro m hm m' hm' heq
    obtain ⟨j, hj⟩ := List.mem_iff_getElem?.mp hm
    obtain ⟨k, hk⟩ := List.mem_iff_getElem?.mp hm'
    obtain ⟨x, entries, done, -, -, hb⟩ := h.built_at hj
    obtain ⟨x', entries', done', -, -, hb'⟩ := h.built_at hk
    obtain rfl := interval_eq h.lo_mono hb.dispatch.1 (heq ▸ hb'.dispatch.2.1)
    rw [hj] at hk
    cases hk
    exact hb.dispatch.2.2 heq
  · intro j k m m' hj hk hne
    obtain ⟨x, entries, done, -, -, hb⟩ := h.built_at hj
    obtain ⟨x', entries', done', -, -, hb'⟩ := h.built_at hk
    exact ⟨fun heq => hne (interval_eq h.lo_mono hb.dispatch.1 (heq ▸ hb'.dispatch.1)),
      fun heq => hne (interval_eq h.lo_mono hb.dispatch.2.1 (heq ▸ hb'.dispatch.2.1))⟩

theorem exits_nodup (h : AllBuilt orig cfgM cs ms progress lo ll) : (ms.map (·.exitBb)).Nodup := by
  refine List.pairwise_iff_getElem.mpr fun i j hi hj hij => ?_
  rw [List.length_map] at hi hj
  rw [List.getElem_map, List.getElem_map]
  exact (h.dispatch_exit.2.2 i j _ _ (List.getElem?_eq_getElem hi) (List.getElem?_eq_getElem hj) hij.ne).2

end AllBuilt


/-! ## Blanked blocks -/

section
variable {ps : List Pos} {b i : ℕ} {l : List (Stmt U)}

theorem blank_take (h : ∀ j < i, (b, j) ∉ ps) (hi : (b, i) ∈ ps) (hlt : i < l.length) :
    (blank ps b l).take (i + 1) = l.take i ++ [.nop] := by
  have hget : (blank ps b l)[i]? = some .nop := by
    rw [blank_getElem?, List.getElem?_eq_getElem hlt]
    simp [hi]
  rw [List.take_add_one, hget]
  congr 1
  refine List.ext_getElem? fun j => ?_
  rw [List.getElem?_take, List.getElem?_take, blank_getElem?]
  by_cases hj : j < i
  · simp [hj, h j hj]
  · simp [hj]

/-- Where only the statement at `i` is blanked from `lo` on. -/
theorem blank_drop {lo : ℕ} (hlo : lo ≤ i) (h : ∀ j, lo ≤ j → ((b, j) ∈ ps ↔ j = i)) (hlt : i < l.length) :
    (blank ps b l).drop lo = (l.take i).drop lo ++ .nop :: l.drop (i + 1) := by
  have hlen : ((l.take i).drop lo).length = i - lo := by
    rw [List.length_drop, List.length_take, Nat.min_eq_left hlt.le]
  refine List.ext_getElem? fun j => ?_
  rw [List.getElem?_drop, blank_getElem?]
  simp only [h (lo + j) (Nat.le_add_right _ _)]
  rcases Nat.lt_trichotomy (lo + j) i with hj | hj | hj
  · rw [List.getElem?_append_left (by omega), List.getElem?_drop, List.getElem?_take, if_pos hj]
    simp [hj.ne]
  · rw [List.getElem?_append_right (by omega), hlen, show j - (i - lo) = 0 by omega, hj, List.getElem?_eq_getElem hlt]
    simp
  · rw [List.getElem?_append_right (by omega), hlen, show j - (i - lo) = (lo + j - (i + 1)) + 1 by omega,
      List.getElem?_cons_succ, List.getElem?_drop, show i + 1 + (lo + j - (i + 1)) = lo + j by omega]
    simp [hj.ne']

end

namespace Marked

/-- What the markers of the region are. -/
theorem mem_markers {p : Pos} (h : Marked hooks cfg r start) (hp : p ∈ r.markers) :
    p.1 < cfg.next ∧ ∃ m, hooks.classifyMarker cfg p.1 p.2 = some m ∧ SuspKind.ofMarker m = none := by
  rcases List.mem_append.mp hp with hp | hp
  · obtain ⟨c, hc, hp⟩ := List.mem_flatMap.mp hp
    rcases List.mem_cons.mp hp with rfl | hp
    · exact ⟨(h.mem_markers_lt hc).1, _, h.coroutine_begin c hc, rfl⟩
    · rw [List.mem_singleton.mp hp]
      exact ⟨(h.mem_markers_lt hc).2, _, h.coroutine_end c hc, rfl⟩
  · rcases List.mem_cons.mp hp with rfl | hp
    · exact ⟨h.region_lt.1, _, h.region_begin, rfl⟩
    · rw [List.mem_singleton.mp hp]
      exact ⟨h.region_lt.2, _, h.region_end, rfl⟩

theorem markers_begin {c : Coroutine} (hc : c ∈ r.coroutines) : c.begin ∈ r.markers ∧ c.last ∈ r.markers :=
  ⟨List.mem_append_left _ (List.mem_flatMap.mpr ⟨c, hc, List.mem_cons_self⟩),
    List.mem_append_left _ (List.mem_flatMap.mpr ⟨c, hc, List.mem_cons_of_mem _ (List.mem_singleton.mpr rfl)⟩)⟩

theorem markers_region : r.regionBegin ∈ r.markers ∧ r.regionEnd ∈ r.markers :=
  ⟨List.mem_append_right _ List.mem_cons_self, List.mem_append_right _ (List.mem_cons_of_mem _ (List.mem_singleton.mpr rfl))⟩

/-- A block holds two of the region's markers only where the region and its first coroutine begin. -/
theorem markers_pair (h : Marked hooks cfg r start) {b i j : ℕ} (hi : (b, i) ∈ r.markers) (hj : (b, j) ∈ r.markers)
    (hij : i < j) : (b, i) = r.regionBegin ∧ ∃ c, r.coroutines.head? = some c ∧ (b, j) = c.begin := by
  obtain ⟨hb, m, hm, -⟩ := h.mem_markers hi
  obtain ⟨-, m', hm', -⟩ := h.mem_markers hj
  exact h.alone b hb i j m m' hm hm' hij

/-- The marker that is neither first in a shared block nor second stands alone. -/
theorem marker_single (h : Marked hooks cfg r start) {b i j : ℕ} {m : Marker} (hi : (b, i) ∈ r.markers)
    (hm : hooks.classifyMarker cfg b i = some m) (hrb : m ≠ .regionBegin) (hcb : m ≠ .coroutineBegin)
    (hj : (b, j) ∈ r.markers) : j = i := by
  have hr := h.region_begin
  rcases Nat.lt_trichotomy i j with hlt | heq | hlt
  · obtain ⟨heq, -⟩ := h.markers_pair hi hj hlt
    rw [← heq, hm] at hr
    exact absurd (Option.some.inj hr) hrb
  · exact heq.symm
  · obtain ⟨-, c, hc, heq⟩ := h.markers_pair hj hi hlt
    have hc' := h.coroutine_begin c (List.mem_of_mem_head? hc)
    rw [← heq, hm] at hc'
    exact absurd (Option.some.inj hc') hcb

end Marked

theorem liftTerm_of_ne {ms : List Machine} {newEntry c : ℕ} {t : Term} (h : ∀ m, ms.head? = some m → c ≠ m.dispatchBb) :
    liftTerm r ms newEntry c t = t := by
  cases ms with
  | nil => rfl
  | cons m ms =>
    cases hr : r.coroutines with
    | nil => simp only [liftTerm, hr]
    | cons co cos =>
      simp only [liftTerm, hr]
      rw [if_neg fun hc => h m rfl hc.2]

theorem liftTerm_of_unshared {ms : List Machine} {newEntry c : ℕ} {t : Term}
    (h : ∀ co, r.coroutines.head? = some co → co.begin.1 ≠ r.regionBegin.1) : liftTerm r ms newEntry c t = t := by
  cases ms with
  | nil => rfl
  | cons m ms =>
    cases hr : r.coroutines with
    | nil => simp only [liftTerm, hr]
    | cons co cos =>
      simp only [liftTerm, hr]
      rw [if_neg fun hc => h co (by rw [hr]; rfl) hc.1]

theorem Dispatches.mono {a : Body U} {G G' : ℕ → Prop} {m : Machine} {pts : List Point} {entry : ℕ} {entries : List ℕ}
    (h : Dispatches a G m pts entry entries) (hG : ∀ d, G d → G' d) : Dispatches a G' m pts entry entries := by
  rcases h with ⟨hnil, d, hd, hblock⟩ | h
  · exact .inl ⟨hnil, d, hG d hd, hblock⟩
  · exact .inr h

/-- A dispatch after its first target was moved. -/
theorem Dispatches.lift {a b : Body U} {G : ℕ → Prop} {m : Machine} {pts : List Point} {entry newEntry : ℕ}
    {entries : List ℕ} (h : Dispatches a G m pts entry entries)
    (hb : b.block m.dispatchBb = ⟨a.stmts m.dispatchBb, (a.term m.dispatchBb).redirect entry newEntry⟩)
    (hexit : m.exitBb ≠ entry) (hentries : ∀ e ∈ entries, e ≠ entry) : Dispatches b G m pts newEntry entries := by
  rcases h with ⟨hnil, d, hd, hblock⟩ | ⟨hnil, hblock⟩
  · refine .inl ⟨hnil, d, hd, ?_⟩
    rw [hb, Cfg.stmts, Cfg.term, hblock]
    simp [Term.redirect, hexit]
  · refine .inr ⟨hnil, ?_⟩
    rw [hb, Cfg.stmts, Cfg.term, hblock]
    have hmap : (stateTargets (entry :: entries)).map (fun x => (x.1, if x.2 = entry then newEntry else x.2)) =
        stateTargets (newEntry :: entries) := by
      refine List.ext_getElem? fun i => ?_
      simp only [stateTargets, List.getElem?_map, List.getElem?_mapIdx]
      cases i with
      | zero => simp
      | succ i =>
        cases hi : entries[i]? with
        | none => simp [hi]
        | some e => simp [hi, hentries e (List.mem_of_getElem? hi)]
    simp [Term.redirect, hexit, hmap]


/-- The blocks of machine `k` but for its dispatch and exit. The first machine may have one more, `extra`: the
    lifted head of its body. -/
def OwnBlock (lo : ℕ → ℕ) (extra k : ℕ) (m : Machine) (c : ℕ) : Prop :=
  (lo k ≤ c ∧ c < lo (k + 1) ∧ c ≠ m.dispatchBb ∧ c ≠ m.exitBb) ∨ c = extra ∧ k = 0

/-- The machines of a marked region. -/
theorem Marked.machines (h : Marked hooks cfg r start) :
    let out := machinesOf hooks cfg r
    Extends (· ∈ (snapshot hooks cfg r).flatMap rewrites) cfg.newStateLocal.2 out.2 ∧
      ∃ lo ll, lo 0 = cfg.next ∧ ll 0 = cfg.locals.length + 1 ∧ lo r.coroutines.length = out.2.next ∧
        ll r.coroutines.length = out.2.locals.length ∧
        AllBuilt cfg.newStateLocal.2 out.2 (snapshot hooks cfg r) out.1 cfg.locals.length lo ll := by
  intro out
  have hlen : (snapshot hooks cfg r).length = r.coroutines.length := by simp [snapshot]
  have hlocals : cfg.newStateLocal.2.locals.length = cfg.locals.length + 1 := by simp [Cfg.newStateLocal]
  obtain ⟨hext, lo, ll, h1, h2, h3, h4, h5⟩ :=
    buildMachines_spec cfg.locals.length (snapshot hooks cfg r) cfg.newStateLocal.2 h.rewrites_nodup h.rewrites_lt h.points_host
  rw [hlen] at h3 h4
  exact ⟨hext, lo, ll, h1, h2.trans hlocals, h3, h4, h5⟩

namespace Marked

/-- The blocks of `coroutine_end` and `region_end` hold no other marker of the region. -/
theorem last_ne (h : Marked hooks cfg r start) {c : Coroutine} (hc : c ∈ r.coroutines) :
    c.last.1 ≠ r.regionBegin.1 ∧ c.last.1 ≠ r.regionEnd.1 ∧ r.regionEnd.1 ≠ r.regionBegin.1 ∧
      r.regionEnd.1 ≠ c.begin.1 ∧ ∀ d ∈ r.coroutines, c.last.1 ≠ d.begin.1 := by
  have key : ∀ (p q : Pos) (m m' : Marker), p ∈ r.markers → q ∈ r.markers → hooks.classifyMarker cfg p.1 p.2 = some m →
      hooks.classifyMarker cfg q.1 q.2 = some m' → m ≠ .regionBegin → m ≠ .coroutineBegin → m ≠ m' → p.1 ≠ q.1 := by
    rintro ⟨b, i⟩ ⟨b', j⟩ m m' hp hq hm hm' h1 h2 h3 rfl
    obtain rfl := h.marker_single hp hm h1 h2 hq
    rw [hm] at hm'
    exact h3 (Option.some.inj hm')
  obtain ⟨hbm, hlm⟩ := markers_begin hc
  obtain ⟨hrb, hre⟩ := markers_region (r := r)
  refine ⟨key _ _ _ _ hlm hrb (h.coroutine_end c hc) h.region_begin (by decide) (by decide) (by decide),
    key _ _ _ _ hlm hre (h.coroutine_end c hc) h.region_end (by decide) (by decide) (by decide),
    key _ _ _ _ hre hrb h.region_end h.region_begin (by decide) (by decide) (by decide),
    key _ _ _ _ hre hbm h.region_end (h.coroutine_begin c hc) (by decide) (by decide) (by decide), fun d hd => ?_⟩
  exact key _ _ _ _ hlm (markers_begin hd).1 (h.coroutine_end c hc) (h.coroutine_begin d hd) (by decide) (by decide) (by decide)

/-- The blocks where the region and its coroutines begin are not rewritten. -/
theorem begin_not_rewritten (h : Marked hooks cfg r start) {b : ℕ} (hb : b ∈ (snapshot hooks cfg r).flatMap rewrites) :
    b ≠ r.regionBegin.1 ∧ b ≠ r.regionEnd.1 ∧ ∀ c ∈ r.coroutines, b ≠ c.begin.1 := by
  obtain ⟨x, hx, hb⟩ := List.mem_flatMap.mp hb
  obtain ⟨c, hc, rfl⟩ := List.mem_map.mp hx
  rcases List.mem_append.mp hb with hb | hb
  · obtain ⟨p, hp, rfl⟩ := List.mem_map.mp hb
    obtain ⟨hr, m, hm, hk⟩ := (h.mem_points hc).mp hp
    obtain ⟨h1, h2, h3⟩ := h.suspension_block (h.inside_lt hc hr.inside) hm hk
    exact ⟨h1, h2, fun d hd => (h3 d hd).1⟩
  · rw [List.mem_singleton.mp hb]
    obtain ⟨h1, h2, -, -, h3⟩ := h.last_ne hc
    exact ⟨h1, h2, h3⟩

/-- A marker of the region in a block of a coroutine is one of that coroutine's. -/
theorem marker_inside (h : Marked hooks cfg r start) {k : ℕ} {c : Coroutine} (hc : r.coroutines[k]? = some c) {b i : ℕ}
    (hb : Inside cfg c b) (hi : (b, i) ∈ r.markers) : b = c.begin.1 ∨ b = c.last.1 := by
  have hmem := List.mem_of_getElem? hc
  rcases List.mem_append.mp hi with hi | hi
  · obtain ⟨d, hd, hi⟩ := List.mem_flatMap.mp hi
    obtain ⟨j, hj⟩ := List.mem_iff_getElem?.mp hd
    have hin : Inside cfg d b := by
      rcases List.mem_cons.mp hi with heq | hi
      · obtain rfl : b = d.begin.1 := congrArg Prod.fst heq
        exact .begin
      · obtain rfl : b = d.last.1 := congrArg Prod.fst (List.mem_singleton.mp hi)
        exact .last
    obtain rfl := h.apart j k d c hj hc b hin hb
    rw [hj] at hc
    cases hc
    rcases List.mem_cons.mp hi with heq | hi
    · exact .inl (congrArg Prod.fst heq)
    · exact .inr (congrArg Prod.fst (List.mem_singleton.mp hi))
  · rcases List.mem_cons.mp hi with heq | hi
    · have hbr : b = r.regionBegin.1 := congrArg Prod.fst heq
      exact .inl (hbr.trans (h.begin_outside c hmem (hbr ▸ hb)).symm)
    · have hbr : b = r.regionEnd.1 := congrArg Prod.fst (List.mem_singleton.mp hi)
      exact absurd (hbr ▸ hb) (h.end_outside c hmem)

/-- A block of a coroutine that is rewritten holds a point of the coroutine or its end marker. -/
theorem rewritten_inside (h : Marked hooks cfg r start) {k : ℕ} {c : Coroutine} (hc : r.coroutines[k]? = some c) {b : ℕ}
    (hb : Inside cfg c b) (hr : b ∈ (snapshot hooks cfg r).flatMap rewrites) :
    b = c.last.1 ∨ ∃ p ∈ findSuspensionPoints hooks cfg c, p.bb = b := by
  obtain ⟨x, hx, hr⟩ := List.mem_flatMap.mp hr
  obtain ⟨d, hd, rfl⟩ := List.mem_map.mp hx
  obtain ⟨j, hj⟩ := List.mem_iff_getElem?.mp hd
  obtain rfl := h.apart j k d c hj hc b (h.inside_of_rewrites hd hr) hb
  rw [hj] at hc
  cases hc
  rcases List.mem_append.mp hr with hr | hr
  · exact .inr (List.mem_map.mp hr)
  · exact .inl (List.mem_singleton.mp hr)

/-- What is left of the block of a begin marker from `lo` on, no other marker behind `lo`. -/
theorem blank_begin (h : Marked hooks cfg r start) {c : Coroutine} (hc : c ∈ r.coroutines) {lo : ℕ} (hlo : lo ≤ c.begin.2)
    (halone : ∀ j < c.begin.2, lo ≤ j → (c.begin.1, j) ∉ r.markers) :
    (blank r.markers c.begin.1 (cfg.stmts c.begin.1)).drop lo =
      ((cfg.stmts c.begin.1).take c.begin.2).drop lo ++ .nop :: (cfg.stmts c.begin.1).drop (c.begin.2 + 1) := by
  obtain ⟨u, hu⟩ := classify_host (h.coroutine_begin c hc)
  refine blank_drop hlo (fun j hj => ⟨fun hjm => ?_, fun heq => heq ▸ (markers_begin hc).1⟩) (List.getElem?_eq_some_iff.mp hu).1
  rcases Nat.lt_trichotomy j c.begin.2 with hlt | heq | hlt
  · exact absurd hjm (halone j hlt hj)
  · exact heq
  · obtain ⟨heq, -⟩ := h.markers_pair (markers_begin hc).1 hjm hlt
    have hrb := h.region_begin
    rw [← heq, h.coroutine_begin c hc] at hrb
    cases hrb

/-- A coroutine that begins in the block of `region_begin` is the first, and begins behind it. -/
theorem shared_begin (h : Marked hooks cfg r start) {k : ℕ} {c : Coroutine} (hc : r.coroutines[k]? = some c)
    (hs : c.begin.1 = r.regionBegin.1) : k = 0 ∧ r.regionBegin.2 < c.begin.2 := by
  have hmem := List.mem_of_getElem? hc
  have hcb := h.coroutine_begin c hmem
  have hrb := h.region_begin
  have hbm : (r.regionBegin.1, c.begin.2) ∈ r.markers := hs ▸ (markers_begin hmem).1
  have hrm : (r.regionBegin.1, r.regionBegin.2) ∈ r.markers := markers_region.1
  rw [hs] at hcb
  have hlt : r.regionBegin.2 < c.begin.2 := by
    rcases Nat.lt_trichotomy r.regionBegin.2 c.begin.2 with hlt | heq | hlt
    · exact hlt
    · rw [heq, hcb] at hrb
      cases hrb
    · obtain ⟨heq, -⟩ := h.markers_pair hbm hrm hlt
      rw [← heq, hcb] at hrb
      cases hrb
  obtain ⟨-, d, hd, heq⟩ := h.markers_pair hrm hbm hlt
  have hd0 : r.coroutines[0]? = some d := by rwa [List.head?_eq_getElem?] at hd
  refine ⟨(h.apart 0 k d c hd0 hc c.begin.1 ?_ .begin).symm, hlt⟩
  have hd1 : r.regionBegin.1 = d.begin.1 := Prod.mk.inj heq |>.1
  rw [hs, hd1]
  exact .begin

end Marked

/-- On the contract, nothing stands before a begin marker. -/
theorem Conforms.leadIn (h : Conforms hooks cfg r start) {c : Coroutine} (hc : c ∈ r.coroutines) : leadIn cfg r c = [] := by
  rw [Stackless.leadIn]
  rcases h.begins c hc with h0 | h1
  · rw [h0, List.take_zero, List.drop_nil]
  · rw [h1, if_pos rfl]
    refine List.drop_eq_nil_of_le ?_
    rw [List.length_take]
    exact Nat.min_le_left _ _

/-- A region between its machines and `finish_region`: `cfgM` has the machines `ms`, whose blocks and locals are
    bounded by `lo` and `ll`, and `cfgL` the blocks of the executor as well. -/
structure Assembly (hooks : Hooks U) (cfg : Body U) (r : Region) (start : ℕ) (ms : List Machine) (cfgM cfgL : Body U)
    (lo ll : ℕ → ℕ) : Prop where
  marked : Marked hooks cfg r start
  machines : Extends (· ∈ (snapshot hooks cfg r).flatMap rewrites) cfg.newStateLocal.2 cfgM
  lo_first : lo 0 = cfg.next
  ll_first : ll 0 = cfg.locals.length + 1
  lo_last : lo r.coroutines.length = cfgM.next
  ll_last : ll r.coroutines.length = cfgM.locals.length
  built : AllBuilt cfg.newStateLocal.2 cfgM (snapshot hooks cfg r) ms cfg.locals.length lo ll
  loop : Extends (fun c => c = r.regionEnd.1 ∨ ∃ m ∈ ms, c = m.exitBb) cfgM cfgL

namespace Assembly
variable {ms : List Machine} {cfgM cfgL : Body U} {lo ll : ℕ → ℕ} {k top : ℕ} {c : Coroutine} {m : Machine}

theorem snapshot_length : (snapshot hooks cfg r).length = r.coroutines.length := by simp [snapshot]

theorem count (A : Assembly hooks cfg r start ms cfgM cfgL lo ll) : ms.length = r.coroutines.length :=
  A.built.count.trans snapshot_length

theorem next_le (A : Assembly hooks cfg r start ms cfgM cfgL lo ll) : cfg.next ≤ cfgM.next ∧ cfgM.next ≤ cfgL.next :=
  ⟨A.machines.next_le, A.loop.next_le⟩

theorem dispatch_exit (A : Assembly hooks cfg r start ms cfgM cfgL lo ll) (hm : m ∈ ms) :
    cfg.next ≤ m.dispatchBb ∧ m.dispatchBb < cfgM.next ∧ cfg.next ≤ m.exitBb ∧ m.exitBb < cfgM.next ∧
      cfgM.block m.exitBb = .fresh := by
  have h := A.built.dispatch_exit.1 m hm
  rwa [snapshot_length, A.lo_first, A.lo_last] at h

theorem locals (A : Assembly hooks cfg r start ms cfgM cfgL lo ll) :
    MachineLocals cfg.locals.length cfgM.locals.length ms cfg.locals.length := by
  have hlt := A.ll_first
  have h := A.built.machineLocals le_rfl (show cfg.locals.length < ll 0 by omega)
  rwa [snapshot_length, A.ll_last] at h

theorem temp (A : Assembly hooks cfg r start ms cfgM cfgL lo ll) (hm : ms[k]? = some m) {d : ℕ}
    (hd : (ll k ≤ d ∧ d < ll (k + 1)) ∧ d ≠ m.stateLocal ∧ d ≠ m.pollResultLocal) :
    Temp cfg.locals.length cfgM.locals.length ms cfg.locals.length d := by
  have hlt := A.ll_first
  have h := A.built.temp le_rfl (show cfg.locals.length < ll 0 by omega) hm hd
  rwa [snapshot_length, A.ll_last] at h

/-- A new block holds no marker of the region. -/
theorem new_unmarked (A : Assembly hooks cfg r start ms cfgM cfgL lo ll) {b : ℕ} (hb : cfg.next ≤ b) (i : ℕ) :
    (b, i) ∉ r.markers := fun hi => absurd (A.marked.mem_markers hi).1 (Nat.not_lt.mpr hb)

theorem new_ne (A : Assembly hooks cfg r start ms cfgM cfgL lo ll) {b : ℕ} (hb : cfg.next ≤ b) :
    b ≠ r.regionBegin.1 ∧ b ≠ r.regionEnd.1 := by
  have h := A.marked.region_lt
  omega

theorem head_new (A : Assembly hooks cfg r start ms cfgM cfgL lo ll) (hm : ms.head? = some m) :
    cfg.next ≤ m.dispatchBb ∧ m.dispatchBb < cfgM.next := by
  have h := A.dispatch_exit (List.mem_of_mem_head? hm)
  exact ⟨h.1, h.2.1⟩

/-- A block that holds no marker of the region and is no dispatch goes through `finish_region` as it is. -/
theorem kept (top : ℕ) {b : ℕ} (h1 : b ≠ r.regionBegin.1) (h2 : b ≠ cfgL.next) (h3 : ∀ i, (b, i) ∉ r.markers) (h4 : ∀ m, ms.head? = some m → b ≠ m.dispatchBb) :
    (finishRegion cfgL r ms top).block b = cfgL.block b := by
  rw [(finishRegion_block cfgL r ms top b).2.2.2, if_neg h1, if_neg h2, blank_of_not_mem h3, liftTerm_of_ne h4]
  rfl

theorem kept_new (A : Assembly hooks cfg r start ms cfgM cfgL lo ll) (top : ℕ) {b : ℕ} (hb : cfg.next ≤ b)
    (h2 : b ≠ cfgL.next) (h4 : ∀ m, ms.head? = some m → b ≠ m.dispatchBb) :
    (finishRegion cfgL r ms top).block b = cfgL.block b :=
  kept top (A.new_ne hb).1 h2 (A.new_unmarked hb) h4

/-- The executor rewrites no old block but the one of `region_end`. -/
theorem old (A : Assembly hooks cfg r start ms cfgM cfgL lo ll) {b : ℕ} (hb : b < cfg.next) (hne : b ≠ r.regionEnd.1) :
    cfgL.block b = cfgM.block b := by
  refine A.loop.same b (hb.trans_le A.next_le.1) ?_
  rintro (heq | ⟨m, hm, heq⟩)
  · exact hne heq
  · have hle := (A.dispatch_exit hm).2.2.1
    omega

theorem unbuilt (A : Assembly hooks cfg r start ms cfgM cfgL lo ll) {b : ℕ} (hb : b < cfg.next)
    (hnot : b ∉ (snapshot hooks cfg r).flatMap rewrites) : cfgM.block b = cfg.block b := A.machines.same b hb hnot

theorem old_kept (A : Assembly hooks cfg r start ms cfgM cfgL lo ll) (top : ℕ) {b : ℕ} (hb : b < cfg.next)
    (h1 : b ≠ r.regionBegin.1) (h2 : b ≠ r.regionEnd.1) (h3 : ∀ i, (b, i) ∉ r.markers) :
    (finishRegion cfgL r ms top).block b = cfgM.block b := by
  have hle := A.next_le
  rw [kept top h1 (by omega) h3 (fun m hm => by have hlt := (A.head_new hm).1; omega), A.old hb h2]

/-- The blocks where the region and its coroutines begin come to `finish_region` as they were. -/
theorem begin_old (A : Assembly hooks cfg r start ms cfgM cfgL lo ll) {b : ℕ} (hb : b < cfg.next) (h2 : b ≠ r.regionEnd.1)
    (h : b = r.regionBegin.1 ∨ ∃ c ∈ r.coroutines, b = c.begin.1) : cfgL.block b = cfg.block b := by
  rw [A.old hb h2, A.unbuilt hb fun hr => ?_]
  obtain ⟨h3, -, h4⟩ := A.marked.begin_not_rewritten hr
  rcases h with heq | ⟨c, hc, heq⟩
  · exact h3 heq
  · exact h4 c hc heq

theorem ends_apart (A : Assembly hooks cfg r start ms cfgM cfgL lo ll) : r.regionEnd.1 ≠ r.regionBegin.1 := by
  obtain ⟨c, hc⟩ := List.exists_mem_of_ne_nil _ A.marked.nonempty
  exact (A.marked.last_ne hc).2.2.1

/-- The region's begin marker enters the executor. -/
theorem head (A : Assembly hooks cfg r start ms cfgM cfgL lo ll) (top : ℕ) :
    (finishRegion cfgL r ms top).block r.regionBegin.1 =
      ⟨(cfg.stmts r.regionBegin.1).take r.regionBegin.2 ++ [.nop] ++ stateInits ms, .goto top⟩ := by
  have h := A.marked
  obtain ⟨u, hu⟩ := classify_host h.region_begin
  have hlt := (List.getElem?_eq_some_iff.mp hu).1
  have hold := A.begin_old h.region_lt.1 A.ends_apart.symm (.inl rfl)
  have hstmts : cfgL.stmts r.regionBegin.1 = cfg.stmts r.regionBegin.1 := congrArg Block.stmts hold
  rw [(finishRegion_block cfgL r ms top _).2.2.2, if_pos rfl, hstmts, blank_take ?_ Marked.markers_region.1 hlt]
  intro j hj hjm
  obtain ⟨heq, -⟩ := h.markers_pair hjm Marked.markers_region.1 hj
  exact absurd (congrArg Prod.snd heq) hj.ne

/-- What lies outside the region is as before. -/
theorem outside (A : Assembly hooks cfg r start ms cfgM cfgL lo ll) (top : ℕ) {b : ℕ} (hb : b < cfg.next)
    (h1 : b ≠ r.regionBegin.1) (h2 : b ≠ r.regionEnd.1) (h3 : ∀ c ∈ r.coroutines, ¬Inside cfg c b) :
    (finishRegion cfgL r ms top).block b = cfg.block b := by
  rw [A.old_kept top hb h1 h2 ?_, A.unbuilt hb ?_]
  · intro hr
    obtain ⟨x, hx, hr⟩ := List.mem_flatMap.mp hr
    obtain ⟨c, hc, rfl⟩ := List.mem_map.mp hx
    exact h3 c hc (A.marked.inside_of_rewrites hc hr)
  · intro i hi
    rcases List.mem_append.mp hi with hi | hi
    · obtain ⟨c, hc, hi⟩ := List.mem_flatMap.mp hi
      rcases List.mem_cons.mp hi with heq | hi
      · obtain rfl : b = c.begin.1 := congrArg Prod.fst heq
        exact h3 c hc .begin
      · obtain rfl : b = c.last.1 := congrArg Prod.fst (List.mem_singleton.mp hi)
        exact h3 c hc .last
    · rcases List.mem_cons.mp hi with heq | hi
      · exact h1 (congrArg Prod.fst heq)
      · exact h2 (congrArg Prod.fst (List.mem_singleton.mp hi))

/-- The machine's own blocks stay. -/
theorem own (A : Assembly hooks cfg r start ms cfgM cfgL lo ll) (top : ℕ) (hm : ms[k]? = some m) {d : ℕ}
    (hd : lo k ≤ d ∧ d < lo (k + 1)) (hdd : d ≠ m.dispatchBb) (hde : d ≠ m.exitBb) :
    (finishRegion cfgL r ms top).block d = cfgM.block d := by
  have hlo := A.lo_first
  have hhi := A.lo_last
  have hks : k < r.coroutines.length := A.count ▸ (List.getElem?_eq_some_iff.mp hm).1
  have hlok := A.built.lo_mono (Nat.zero_le k)
  have hlok' := A.built.lo_mono (Nat.add_one_le_of_lt hks)
  have hnext := A.next_le
  have hother : ∀ m' ∈ ms, d ≠ m'.dispatchBb ∧ d ≠ m'.exitBb := by
    intro m' hm'
    obtain ⟨j, hj⟩ := List.mem_iff_getElem?.mp hm'
    obtain ⟨x, es, dn, -, -, hbj⟩ := A.built.built_at hj
    constructor
    · rintro rfl
      obtain rfl := AllBuilt.interval_eq A.built.lo_mono hbj.dispatch.1 hd
      rw [hj] at hm
      cases hm
      exact hdd rfl
    · rintro rfl
      obtain rfl := AllBuilt.interval_eq A.built.lo_mono hbj.dispatch.2.1 hd
      rw [hj] at hm
      cases hm
      exact hde rfl
  rw [A.kept_new top (by omega) (by omega) fun m' hm' => (hother m' (List.mem_of_mem_head? hm')).1]
  refine A.loop.same d (by omega) ?_
  rintro (heq | ⟨m', hm', heq⟩)
  · have hlt := A.marked.region_lt.2
    omega
  · exact (hother m' hm').2 heq

/-- The dispatch, but for the lift. -/
theorem dispatch (A : Assembly hooks cfg r start ms cfgM cfgL lo ll) (top : ℕ) (hm : m ∈ ms) :
    (finishRegion cfgL r ms top).block m.dispatchBb =
      ⟨cfgM.stmts m.dispatchBb, liftTerm r ms cfgL.next m.dispatchBb (cfgM.term m.dispatchBb)⟩ := by
  obtain ⟨h1, h2, -, -, -⟩ := A.dispatch_exit hm
  have hnext := A.next_le
  have hL : cfgL.block m.dispatchBb = cfgM.block m.dispatchBb := by
    refine A.loop.same _ h2 ?_
    rintro (heq | ⟨m', hm', heq⟩)
    · exact (A.new_ne h1).2 heq
    · exact A.built.dispatch_exit.2.1 m hm m' hm' heq
  rw [(finishRegion_block cfgL r ms top _).2.2.2, if_neg (A.new_ne h1).1, if_neg (by omega),
    blank_of_not_mem (A.new_unmarked h1), Cfg.stmts, Cfg.term, hL]
  rfl

/-- No state but the first is entered at the block of the begin marker. -/
theorem entries_ne (A : Assembly hooks cfg r start ms cfgM cfgL lo ll) (hc : c ∈ r.coroutines) {F G : ℕ → Prop}
    (hF : ∀ d, F d → cfg.next ≤ d) {entries : List ℕ} (hcount : entries.length = (findSuspensionPoints hooks cfg c).length)
    (hsites : ∀ (j : ℕ) (p : Point) (e : ℕ), (findSuspensionPoints hooks cfg c)[j]? = some p → entries[j]? = some e →
      Site (cfg.block p.bb) cfgM F G m (j + 1 : ℕ) p e) : ∀ e ∈ entries, e ≠ c.begin.1 := by
  intro e he
  have h := A.marked
  obtain ⟨j, hj⟩ := List.mem_iff_getElem?.mp he
  have hjlt : j < (findSuspensionPoints hooks cfg c).length := hcount ▸ (List.getElem?_eq_some_iff.mp hj).1
  have hbegin := (h.mem_markers_lt hc).1
  obtain ⟨hr, mk, hmk, hkind⟩ := (h.mem_points hc).mp (List.getElem_mem hjlt)
  have hpb := ((h.suspension_block (h.inside_lt hc hr.inside) hmk hkind).2.2 c hc).1
  have hnew : ∀ d, F d → d ≠ c.begin.1 := fun d hd heq => absurd (hF d hd) (by omega)
  cases hsites j _ e (List.getElem?_eq_getElem hjlt) hj with
  | yield _ _ he' => exact hnew _ he'
  | send _ _ he' => exact hnew _ he'
  | guard _ hg =>
    rcases hg with ⟨_, rfl⟩ | ⟨_, hF', _⟩
    · exact hpb
    · exact hnew _ hF'

/-- Where a coroutine is entered first: at its begin marker's block, or at what was lifted out of it. -/
theorem entry (A : Assembly hooks cfg r start ms cfgM cfgL lo ll) (top : ℕ) (hc : r.coroutines[k]? = some c)
    (hm : ms[k]? = some m) {G : ℕ → Prop} {pts : List Point} {entries : List ℕ}
    (hd : Dispatches cfgM G m pts c.begin.1 entries) (hentries : ∀ e ∈ entries, e ≠ c.begin.1) :
    ∃ entry, (c.begin.1 ≠ r.regionBegin.1 ∧ entry = c.begin.1 ∨
        c.begin.1 = r.regionBegin.1 ∧ OwnBlock lo cfgL.next k m entry) ∧
      (finishRegion cfgL r ms top).block entry =
        ⟨leadIn cfg r c ++ .nop :: (cfg.stmts c.begin.1).drop (c.begin.2 + 1), cfg.term c.begin.1⟩ ∧
      Dispatches (finishRegion cfgL r ms top) G m pts entry entries := by
  have h := A.marked
  have hmem := List.mem_of_getElem? hc
  have hmm := List.mem_of_getElem? hm
  have hnext := A.next_le
  have hbegin := (h.mem_markers_lt hmem).1
  have hLb := A.begin_old hbegin (h.last_ne hmem).2.2.2.1.symm (.inr ⟨c, hmem, rfl⟩)
  have hLs : cfgL.stmts c.begin.1 = cfg.stmts c.begin.1 := congrArg Block.stmts hLb
  have hLt : cfgL.term c.begin.1 = cfg.term c.begin.1 := congrArg Block.term hLb
  have hexit : m.exitBb ≠ c.begin.1 := by
    have hle := (A.dispatch_exit hmm).2.2.1
    omega
  have hdisp := A.dispatch top hmm
  by_cases hs : c.begin.1 = r.regionBegin.1
  · -- the head of the first body is lifted out of the block of `region_begin`
    obtain ⟨rfl, hlt⟩ := h.shared_begin hc hs
    have hhead : ms.head? = some m := by rw [List.head?_eq_getElem?, hm]
    refine ⟨cfgL.next, .inr ⟨hs, .inr ⟨rfl, rfl⟩⟩, ?_, hd.lift ?_ hexit hentries⟩
    · have hnd : ∀ m', ms.head? = some m' → cfgL.next ≠ m'.dispatchBb := fun m' hm' => by
        have hlt := (A.head_new hm').2
        omega
      have hblank := h.blank_begin hmem (Nat.succ_le_of_lt hlt) fun j hj hlo hjm => by
        have hrm : (c.begin.1, r.regionBegin.2) ∈ r.markers := by
          rw [hs]
          exact Marked.markers_region.1
        obtain ⟨-, d, hd', heq⟩ := h.markers_pair hrm hjm (by omega)
        rw [List.head?_eq_getElem?, hc] at hd'
        cases hd'
        exact absurd (congrArg Prod.snd heq) hj.ne
      rw [(finishRegion_block cfgL r ms top _).2.2.2, if_neg (A.new_ne (by omega)).1, if_pos rfl, liftTerm_of_ne hnd, ← hs, hLs,
        hLt, leadIn, if_pos hs]
      rw [hs] at hblank ⊢
      rw [hblank]
    · rw [hdisp]
      congr 1
      cases hms : ms with
      | nil => simp [hms] at hm
      | cons m' rest =>
        obtain rfl : m' = m := by simpa [hms] using hm
        cases hcs : r.coroutines with
        | nil => simp [hcs] at hc
        | cons c' cos =>
          obtain rfl : c' = c := by simpa [hcs] using hc
          simp only [liftTerm, hcs, hs, and_self, if_true]
  · have hunlift : liftTerm r ms cfgL.next m.dispatchBb (cfgM.term m.dispatchBb) = cfgM.term m.dispatchBb := by
      by_cases hk0 : k = 0
      · subst hk0
        refine liftTerm_of_unshared fun co hco => ?_
        rw [List.head?_eq_getElem?, hc] at hco
        cases hco
        exact hs
      · refine liftTerm_of_ne fun m' hm' => ?_
        rw [List.head?_eq_getElem?] at hm'
        exact (A.built.dispatch_exit.2.2 k 0 m m' hm hm' hk0).1
    refine ⟨c.begin.1, .inl ⟨hs, rfl⟩, ?_, ?_⟩
    · have hnd : ∀ m', ms.head? = some m' → c.begin.1 ≠ m'.dispatchBb := fun m' hm' => by
        have hlt := (A.head_new hm').1
        omega
      have hblank := h.blank_begin hmem (Nat.zero_le _) fun j hj _ hjm => by
        have hfst := congrArg Prod.fst (h.markers_pair hjm (Marked.markers_begin hmem).1 hj).1
        exact hs hfst
      rw [(finishRegion_block cfgL r ms top _).2.2.2, if_neg hs, if_neg (by omega), liftTerm_of_ne hnd, hLs, hLt, leadIn,
        if_neg hs, ← hblank, List.drop_zero]
    · rw [hunlift] at hdisp
      have hsame : (finishRegion cfgL r ms top).block m.dispatchBb = cfgM.block m.dispatchBb := hdisp
      rcases hd with ⟨hnil, d, hd, hblock⟩ | ⟨hnil, hblock⟩
      · exact .inl ⟨hnil, d, hd, hsame.trans hblock⟩
      · exact .inr ⟨hnil, hsame.trans hblock⟩

/-- The block of an end marker: the marker is blanked, and control goes on in the machine. -/
theorem last (A : Assembly hooks cfg r start ms cfgM cfgL lo ll) (top : ℕ) (hc : c ∈ r.coroutines) {done : ℕ}
    (hlast : cfgM.block c.last.1 = ⟨cfg.stmts c.last.1, .goto done⟩) :
    (finishRegion cfgL r ms top).block c.last.1 =
      ⟨(cfg.stmts c.last.1).take c.last.2 ++ .nop :: (cfg.stmts c.last.1).drop (c.last.2 + 1), .goto done⟩ := by
  have h := A.marked
  have hlt := (h.mem_markers_lt hc).2
  have hnext := A.next_le
  obtain ⟨h1, h2, -, -, -⟩ := h.last_ne hc
  obtain ⟨u, hu⟩ := classify_host (h.coroutine_end c hc)
  have honly : ∀ j, 0 ≤ j → ((c.last.1, j) ∈ r.markers ↔ j = c.last.2) := fun j _ =>
    ⟨h.marker_single (Marked.markers_begin hc).2 (h.coroutine_end c hc) (by decide) (by decide),
      fun heq => heq ▸ (Marked.markers_begin hc).2⟩
  have hblank := blank_drop (Nat.zero_le _) honly (List.getElem?_eq_some_iff.mp hu).1
  rw [List.drop_zero, List.drop_zero] at hblank
  have hnd : ∀ m', ms.head? = some m' → c.last.1 ≠ m'.dispatchBb := fun m' hm' => by
    have hle := (A.head_new hm').1
    omega
  rw [(finishRegion_block cfgL r ms top _).2.2.2, if_neg h1, if_neg (by omega), liftTerm_of_ne hnd, Cfg.stmts, Cfg.term,
    A.old hlt h2, hlast, hblank]

/-- What became of coroutine `k`. -/
theorem lowered (A : Assembly hooks cfg r start ms cfgM cfgL lo ll) (top : ℕ) (hc : r.coroutines[k]? = some c)
    (hm : ms[k]? = some m) : ∃ entry entries done, Lowered cfg (finishRegion cfgL r ms top) r (OwnBlock lo cfgL.next k m)
      (Temp cfg.locals.length cfgM.locals.length ms cfg.locals.length) c (findSuspensionPoints hooks cfg c) m entry entries
      done := by
  have h := A.marked
  have hmem := List.mem_of_getElem? hc
  have hx : (snapshot hooks cfg r)[k]? = some (c, findSuspensionPoints hooks cfg c) := by
    rw [snapshot, List.getElem?_map, hc]
    rfl
  obtain ⟨-, entries, done, hb⟩ := A.built.built k _ m hx hm
  have hlok := A.built.lo_mono (Nat.zero_le k)
  have hlo := A.lo_first
  have hF : ∀ d, (lo k ≤ d ∧ d < lo (k + 1)) ∧ d ≠ m.dispatchBb ∧ d ≠ m.exitBb → OwnBlock lo cfgL.next k m d :=
    fun d hd => .inl ⟨hd.1.1, hd.1.2, hd.2.1, hd.2.2⟩
  have hT : ∀ d, (ll k ≤ d ∧ d < ll (k + 1)) ∧ d ≠ m.stateLocal ∧ d ≠ m.pollResultLocal →
      Temp cfg.locals.length cfgM.locals.length ms cfg.locals.length d := fun d hd => A.temp hm hd
  have hpoint : ∀ p ∈ findSuspensionPoints hooks cfg c, (finishRegion cfgL r ms top).block p.bb = cfgM.block p.bb := by
    intro p hp
    obtain ⟨hr, mk, hmk, hkind⟩ := (h.mem_points hmem).mp hp
    have hlt := h.inside_lt hmem hr.inside
    obtain ⟨h1, h2, h3⟩ := h.suspension_block hlt hmk hkind
    refine A.old_kept top hlt h1 h2 fun i hi => ?_
    rcases h.marker_inside hc hr.inside hi with heq | heq
    · exact (h3 c hmem).1 heq
    · exact (h3 c hmem).2 heq
  have hentries := A.entries_ne hmem (fun d hd => by omega) hb.count hb.sites
  obtain ⟨entry, hentry1, hentry2, hentry3⟩ := A.entry top hc hm (hb.dispatches.mono hT) hentries
  refine ⟨entry, entries, done, hb.count, hentry3, hentry2, hentry1, hF _ hb.done_new, ?_, A.last top hmem hb.last, ?_, ?_⟩
  · rw [A.own top hm hb.done_new.1 hb.done_new.2.1 hb.done_new.2.2]
    exact hb.done_block
  · intro j p e hp he
    refine (hb.sites j p e hp he).mono ?_ hT (hpoint p (List.mem_of_getElem? hp))
    intro d hd
    exact ⟨hF d hd, A.own top hm hd.1 hd.2.1 hd.2.2⟩
  · intro b hbi h1 h2 h3
    have hlt := h.inside_lt hmem hbi
    have hnrb : b ≠ r.regionBegin.1 := fun heq => h1 (heq.trans (h.begin_outside c hmem (heq ▸ hbi)).symm)
    have hnre : b ≠ r.regionEnd.1 := fun heq => h.end_outside c hmem (heq ▸ hbi)
    rw [A.old_kept top hlt hnrb hnre ?_, A.unbuilt hlt ?_]
    · intro hr
      rcases h.rewritten_inside hc hbi hr with heq | ⟨p, hp, heq⟩
      · exact h2 heq
      · exact h3 p hp heq
    · intro i hi
      rcases h.marker_inside hc hbi hi with heq | heq
      · exact h1 heq
      · exact h2 heq

end Assembly

/-- A marked region is assembled from its machines by any executor that rewrites only the block of `region_end` and
    the exits. -/
theorem Marked.assembly (h : Marked hooks cfg r start) {ms : List Machine} {cfgM cfgL : Body U}
    (hout : machinesOf hooks cfg r = (ms, cfgM))
    (hext : Extends (fun c => c = r.regionEnd.1 ∨ ∃ m ∈ ms, c = m.exitBb) cfgM cfgL) :
    ∃ lo ll, Assembly hooks cfg r start ms cfgM cfgL lo ll := by
  obtain ⟨hM, lo, ll, h1, h2, h3, h4, h5⟩ := h.machines
  rw [hout] at hM h3 h4 h5
  exact ⟨lo, ll, h, hM, h1, h2, h3, h4, h5, hext⟩

end Krio.Stackless
