import Krio.Stackless.Resumption
import Krio.Stackless.Scan

/-! What becomes of the statements around the markers: each stays in one block, and control still reaches it, but for
those behind `region_end` in its block. -/

namespace Krio.Stackless

variable {U : Type} {hooks : Hooks U} {cfg cfg' cfgM : Body U} {r : Region} {start top : ℕ} {ms : List Machine} {E : ℕ → Prop}

/-- A body after the transform, with the blocks of its executor. -/
structure Rewritten (hooks : Hooks U) (cfg : Body U) (r : Region) (start : ℕ) (ms : List Machine) (cfgM cfg' : Body U)
    (top : ℕ) (E : ℕ → Prop) : Prop where
  marked : Marked hooks cfg r start
  transformed : Transformed hooks cfg r start ms cfgM cfg' top
  wires : Wires cfg' ms top (cfg.term r.regionEnd.1) E
  new : ∀ b, E b → cfg.next ≤ b

/-- Under either executor the body is rewritten so. -/
theorem Marked.rewritten (h : Marked hooks cfg r start)
    (hout : (∃ loops, cfg' = (transformRegion hooks (cooperative hooks) loops cfg r).2) ∨
      ∃ exits, cfg' = (transformRegion hooks waker exits cfg r).2) :
    ∃ ms cfgM top E, Rewritten hooks cfg r start ms cfgM cfg' top E := by
  have hexits : ∀ {ms cfgM cfg'' top}, Transformed hooks cfg r start ms cfgM cfg'' top → cfg.next ≤ cfgM.next ∧
      ms ≠ [] ∧ ∀ m ∈ ms, cfg.next ≤ m.exitBb := by
    intro ms cfgM cfg'' top ht
    obtain ⟨cfgL, lo, ll, A, -, -⟩ := ht.assembled
    exact ⟨A.next_le.1, (h.machines_ready ht.out).1, fun m hm => (A.dispatch_exit hm).2.2.1⟩
  rcases hout with ⟨loops, rfl⟩ | ⟨exits, rfl⟩
  · cases hp : r.coroutines.any (·.priority.isSome) with
    | false =>
      obtain ⟨ms, cfgM, cfg', heq, ht, hloop⟩ := h.roundRobin hp loops
      obtain ⟨hle, hne, hex⟩ := hexits ht
      rw [heq]
      refine ⟨ms, cfgM, _, _, h, ht, hloop.wires hne, ?_⟩
      rintro b (hb | ⟨m, hm, rfl⟩)
      · omega
      · exact hex m hm
    | true =>
      obtain ⟨ms, cfgM, cfgL, lo, ll, bands, stuck, heq, -, ht, hbands, hloop⟩ := h.prioritised hp loops
      obtain ⟨hle, -, hex⟩ := hexits ht
      rw [heq]
      have hstuck := hloop.stuck_mem
      exact ⟨ms, cfgM, _, _, h, ht, hloop.wires hbands, fun b hb => hb.new hle (by omega) hex⟩
  · obtain ⟨ms, cfgM, cfg', heq, ht, hloop⟩ := h.oneshot exits
    obtain ⟨hle, hne, hex⟩ := hexits ht
    rw [heq]
    refine ⟨ms, cfgM, _, _, h, ht, hloop.wires hne, ?_⟩
    rintro b (hb | ⟨m, hm, rfl⟩)
    · omega
    · exact hex m hm

namespace Rewritten
variable {b k : ℕ} {c : Coroutine}

/-- What became of coroutine `k`. -/
theorem lowered (h : Rewritten hooks cfg r start ms cfgM cfg' top E) (hc : r.coroutines[k]? = some c) :
    ∃ m F T entry entries done, ms[k]? = some m ∧ (∀ d, F d → cfg.next ≤ d) ∧
      Lowered cfg cfg' r F T c (findSuspensionPoints hooks cfg c) m entry entries done := by
  obtain ⟨cfgL, lo, ll, A, rfl, -⟩ := h.transformed.assembled
  have hlt : k < ms.length := A.count ▸ (List.getElem?_eq_some_iff.mp hc).1
  obtain ⟨entry, entries, done, hl⟩ := A.lowered top hc (List.getElem?_eq_getElem hlt)
  have hnext := A.next_le
  refine ⟨_, _, _, entry, entries, done, List.getElem?_eq_getElem hlt, fun d hd => ?_, hl⟩
  have hlo := A.lo_first
  have hmono := A.built.lo_mono (Nat.zero_le k)
  rcases hd with hd | hd
  · omega
  · omega

theorem points (h : Rewritten hooks cfg r start ms cfgM cfg' top E) (hc : c ∈ r.coroutines) :
    ∀ p ∈ findSuspensionPoints hooks cfg c, Inside cfg c p.bb ∧ p.bb ≠ c.last.1 ∧ p.bb ≠ c.begin.1 := by
  intro p hp
  obtain ⟨hr, m, hm, hk⟩ := (h.marked.mem_points hc).mp hp
  obtain ⟨h1, h2⟩ := (h.marked.suspension_block (h.marked.inside_lt hc hr.inside) hm hk).2.2 c hc
  exact ⟨hr.inside, h2, h1⟩

/-! ## What control reaches -/

theorem plain_block (h : Rewritten hooks cfg r start ms cfgM cfg' top E) (hb : Plain cfg r start b) (hne : b ≠ r.regionBegin.1) :
    cfg'.block b = cfg.block b := by
  obtain ⟨cfgL, lo, ll, A, rfl, -⟩ := h.transformed.assembled
  obtain ⟨h1, h2⟩ := h.marked.plain b hb
  exact A.outside top (h.marked.plain_lt hb) hne h1 fun c hc hin => hne (h2 c hc hin)

theorem head_block (h : Rewritten hooks cfg r start ms cfgM cfg' top E) : cfg'.block r.regionBegin.1 =
    ⟨(cfg.stmts r.regionBegin.1).take r.regionBegin.2 ++ [.nop] ++ stateInits ms, .goto top⟩ := by
  obtain ⟨cfgL, lo, ll, A, rfl, -⟩ := h.transformed.assembled
  exact A.head top

theorem reach_top (h : Rewritten hooks cfg r start ms cfgM cfg' top E) (hr : Reach cfg' start r.regionBegin.1) :
    Reach cfg' start top := hr.step h.head_block (List.mem_singleton_self _)

/-- Control still reaches every block outside the coroutines. -/
theorem reach_plain (h : Rewritten hooks cfg r start ms cfgM cfg' top E) (hb : Plain cfg r start b) : Reach cfg' start b := by
  induction hb with
  | start => exact .refl
  | @next b s hb hne hs ih =>
    refine ih.tail ?_
    rwa [Cfg.successors, Cfg.term, h.plain_block hb hne]
  | behind hb hs ih =>
    obtain ⟨post, hpost, hblock⟩ := h.wires.behind
    exact ((h.reach_top ih).trans hpost).step hblock hs

section
variable {F T : ℕ → Prop} {m : Machine} {entry done : ℕ} {entries : List ℕ}

/-- And every block that a dispatch leads to. -/
theorem reach_entries (h : Rewritten hooks cfg r start ms cfgM cfg' top E) (hr : Plain cfg r start r.regionBegin.1)
    (hm : ms[k]? = some m) {pts : List Point} (hl : Lowered cfg cfg' r F T c pts m entry entries done) :
    ∀ e ∈ entry :: entries, Reach cfg' start e := by
  intro e he
  have hd : Reach cfg' start m.dispatchBb :=
    (h.reach_top (h.reach_plain hr)).trans (h.wires.dispatches m (List.mem_of_getElem? hm))
  rcases hl.dispatches with ⟨hnil, d, -, hblock⟩ | ⟨-, hblock⟩
  · have hcount := hl.count
    rw [hnil, List.length_nil] at hcount
    rw [List.length_eq_zero_iff.mp hcount, List.mem_singleton] at he
    exact hd.step hblock (List.mem_cons_of_mem _ (List.mem_singleton.mpr he))
  · refine hd.step hblock ?_
    rw [Term.successors, stateTargets_blocks]
    exact List.mem_append_left _ he

/-- The block that ends a block of a body as it was ended before. -/
theorem reach_tail (h : Rewritten hooks cfg r start ms cfgM cfg' top E) (hr : Plain cfg r start r.regionBegin.1)
    (hm : ms[k]? = some m)
    (hl : Lowered cfg cfg' r F T c (findSuspensionPoints hooks cfg c) m entry entries done)
    (hb : Inside cfg c b) (hne : b ≠ c.last.1) (hin : b ≠ c.begin.1 → Reach cfg' start b) :
    ∃ e l, Reach cfg' start e ∧ cfg'.block e = ⟨l, cfg.term b⟩ := by
  by_cases hbegin : b = c.begin.1
  · subst hbegin
    exact ⟨entry, _, h.reach_entries hr hm hl entry List.mem_cons_self, hl.entry_block⟩
  · by_cases hp : ∃ p ∈ findSuspensionPoints hooks cfg c, p.bb = b
    · obtain ⟨p, hp, rfl⟩ := hp
      obtain ⟨j, hj⟩ := List.mem_iff_getElem?.mp hp
      have hlt : j < entries.length := hl.count ▸ (List.getElem?_eq_some_iff.mp hj).1
      have he := h.reach_entries hr hm hl _ (List.mem_cons_of_mem _ (List.getElem_mem hlt))
      cases hl.sites j p _ hj (List.getElem?_eq_getElem hlt) with
      | yield _ _ _ _ _ tail => exact ⟨_, _, he, tail⟩
      | send _ _ _ _ _ tail => exact ⟨_, _, he, tail⟩
      | guard _ _ _ _ _ _ _ guards tail => exact ⟨_, _, he.step guards List.mem_cons_self, tail⟩
    · refine ⟨b, cfg.stmts b, hin hbegin, ?_⟩
      exact hl.body b hb hbegin hne fun p hp' heq => hp ⟨p, hp', heq⟩

/-- Control still reaches every block of a body. -/
theorem reach_body (h : Rewritten hooks cfg r start ms cfgM cfg' top E) (hr : Plain cfg r start r.regionBegin.1)
    (hm : ms[k]? = some m)
    (hl : Lowered cfg cfg' r F T c (findSuspensionPoints hooks cfg c) m entry entries done)
    (hb : Reached cfg c b) (hne : b ≠ c.begin.1) : Reach cfg' start b := by
  induction hb with
  | refl => exact absurd rfl hne
  | @tail b s hb hs ih =>
    split at hs
    · exact absurd hs List.not_mem_nil
    · rename_i hlast
      obtain ⟨e, l, he, hblock⟩ := h.reach_tail hr hm hl (Reached.inside hb) hlast ih
      exact he.step hblock hs

/-- A statement of a body, but for its markers, is where control comes by. -/
theorem body_statement (h : Rewritten hooks cfg r start ms cfgM cfg' top E) (hr : Plain cfg r start r.regionBegin.1)
    (hc : r.coroutines[k]? = some c) (hm : ms[k]? = some m)
    (hl : Lowered cfg cfg' r F T c (findSuspensionPoints hooks cfg c) m entry entries done)
    (hb : Reached cfg c b) {i : ℕ} (h1 : b = c.begin.1 → c.begin.2 < i) (h2 : b = c.last.1 → i < c.last.2) {s : Stmt U}
    (hs : (cfg.stmts b)[i]? = some s) (hmarker : ∀ p ∈ findSuspensionPoints hooks cfg c, (p.bb, p.stmt) ≠ (b, i)) :
    ∃ b', Reach cfg' start b' ∧ s ∈ cfg'.stmts b' := by
  have hmem := List.mem_of_getElem? hc
  have htake : ∀ {n}, i < n → s ∈ (cfg.stmts b).take n := fun hi =>
    List.mem_of_getElem? (i := i) (by rw [List.getElem?_take, if_pos hi, hs])
  have hdrop : ∀ {n}, n ≤ i → s ∈ (cfg.stmts b).drop n := fun {n} hi =>
    List.mem_of_getElem? (i := i - n) (by rw [List.getElem?_drop, Nat.add_sub_cancel' hi, hs])
  have hplace : ∀ {b' : ℕ} {l : List (Stmt U)} {t : Term}, cfg'.block b' = ⟨l, t⟩ → s ∈ l → s ∈ cfg'.stmts b' := fun hb hs => by
    rwa [Cfg.stmts, hb]
  by_cases hbegin : b = c.begin.1
  · subst hbegin
    refine ⟨entry, h.reach_entries hr hm hl entry List.mem_cons_self, hplace hl.entry_block ?_⟩
    exact List.mem_append_right _ (List.mem_cons_of_mem _ (hdrop (h1 rfl)))
  have hreach := h.reach_body hr hm hl hb hbegin
  by_cases hlast : b = c.last.1
  · subst hlast
    exact ⟨_, hreach, hplace hl.last (List.mem_append_left _ (htake (h2 rfl)))⟩
  by_cases hp : ∃ p ∈ findSuspensionPoints hooks cfg c, p.bb = b
  · obtain ⟨p, hp, rfl⟩ := hp
    obtain ⟨j, hj⟩ := List.mem_iff_getElem?.mp hp
    have hlt : j < entries.length := hl.count ▸ (List.getElem?_eq_some_iff.mp hj).1
    have he := h.reach_entries hr hm hl _ (List.mem_cons_of_mem _ (List.getElem_mem hlt))
    have hne : i ≠ p.stmt := fun heq => hmarker p hp (by rw [heq])
    rcases Nat.lt_or_gt_of_ne hne with hi | hi
    · -- before the marker, the statement stays
      refine ⟨p.bb, hreach, ?_⟩
      cases hl.sites j p _ hj (List.getElem?_eq_getElem hlt) with
      | yield _ _ _ _ head _ => exact hplace head (List.mem_append_left _ (htake hi))
      | send _ _ _ _ head _ => exact hplace head (htake (Nat.lt_succ_of_lt hi))
      | guard _ hg _ _ _ _ _ _ _ =>
        rcases hg with ⟨h0, -⟩ | ⟨-, -, hblock⟩
        · omega
        · exact hplace hblock (htake hi)
    · -- behind it, the statement moves into the block that resumes
      cases hl.sites j p _ hj (List.getElem?_eq_getElem hlt) with
      | yield _ _ _ _ _ tail => exact ⟨_, he, hplace tail (hdrop hi)⟩
      | send _ _ _ _ _ tail => exact ⟨_, he, hplace tail (hdrop hi)⟩
      | guard _ _ _ _ _ _ _ guards tail =>
        exact ⟨_, he.step guards List.mem_cons_self, hplace tail (List.mem_cons_of_mem _ (List.mem_cons_of_mem _ (hdrop hi)))⟩
  · refine ⟨b, hreach, ?_⟩
    rw [Cfg.stmts, hl.body b hb.inside hbegin hlast fun p hp' heq => hp ⟨p, hp', heq⟩]
    exact List.mem_of_getElem? hs

end

/-! ## What control does not reach -/

/-- The blocks that control can be in after the transform. -/
inductive Entered (cfg cfg' : Body U) (r : Region) (start : ℕ) (hooks : Hooks U) (ms : List Machine) (E : ℕ → Prop) : ℕ → Prop
  | plain {b : ℕ} (h : Plain cfg r start b) : Entered cfg cfg' r start hooks ms E b
  | executor {b : ℕ} (hr : Plain cfg r start r.regionBegin.1) (h : E b) : Entered cfg cfg' r start hooks ms E b
  | machine {b k : ℕ} {c : Coroutine} {m : Machine} {F T : ℕ → Prop} {entry done : ℕ} {entries : List ℕ}
      (hr : Plain cfg r start r.regionBegin.1) (hc : r.coroutines[k]? = some c) (hm : ms[k]? = some m)
      (hF : ∀ d, F d → cfg.next ≤ d) (hl : Lowered cfg cfg' r F T c (findSuspensionPoints hooks cfg c) m entry entries done)
      (h : Part cfg cfg' F c (findSuspensionPoints hooks cfg c) m entry entries done b) : Entered cfg cfg' r start hooks ms E b

theorem entered_next (h : Rewritten hooks cfg r start ms cfgM cfg' top E) (hb : Entered cfg cfg' r start hooks ms E b) {s : ℕ}
    (hs : s ∈ cfg'.successors b) : Entered cfg cfg' r start hooks ms E s := by
  cases hb with
  | plain hp =>
    by_cases hne : b = r.regionBegin.1
    · subst hne
      rw [Cfg.successors, Cfg.term, h.head_block] at hs
      rw [List.mem_singleton.mp hs]
      exact .executor hp h.wires.top_mem
    · rw [Cfg.successors, Cfg.term, h.plain_block hp hne] at hs
      exact .plain (.next hp hne hs)
  | executor hr hE =>
    rcases h.wires.closed b hE s hs with hE | ⟨m, hm, rfl⟩ | hs
    · exact .executor hr hE
    · obtain ⟨k, hk⟩ := List.mem_iff_getElem?.mp hm
      have hlt := (List.getElem?_eq_some_iff.mp hk).1
      obtain ⟨cfgL, lo, ll, A, -, -⟩ := h.transformed.assembled
      have hc : r.coroutines[k]? = some _ := List.getElem?_eq_getElem (A.count ▸ hlt)
      obtain ⟨m', F, T, entry, entries, done, hm', hF, hl⟩ := h.lowered hc
      rw [hk] at hm'
      cases hm'
      exact .machine hr hc hk hF hl .dispatch
    · exact .plain (.behind hr hs)
  | @machine k c m F T entry done entries hr hc hm hF hl hpart =>
    have hmem := List.mem_of_getElem? hc
    have hne : c.begin.1 ≠ c.last.1 := ((h.marked.last_ne hmem).2.2.2.2 c hmem).symm
    rcases hpart.leads hl hne (fun p hp => ⟨(h.points hmem p hp).1, (h.points hmem p hp).2.1⟩) hs with hp | rfl | rfl
    · exact .machine hr hc hm hF hl hp
    · exact .executor hr (h.wires.exits m (List.mem_of_getElem? hm))
    · -- back to the begin marker's block
      rcases hl.entry_mem with ⟨-, heq⟩ | ⟨heq, -⟩
      · exact .machine hr hc hm hF hl (heq ▸ .entry)
      · exact .plain (heq ▸ hr)

/-- `region_end` is not among them. -/
theorem entered_ne (h : Rewritten hooks cfg r start ms cfgM cfg' top E) (hb : Entered cfg cfg' r start hooks ms E b) :
    b ≠ r.regionEnd.1 := by
  have hlt := h.marked.region_lt.2
  cases hb with
  | plain hp => exact (h.marked.plain b hp).1
  | executor hr hE =>
    have hle := h.new b hE
    omega
  | @machine k c m F T entry done entries hr hc hm hF hl hpart =>
    have hmem := List.mem_of_getElem? hc
    have hin : ∀ {b}, Inside cfg c b → b ≠ r.regionEnd.1 := fun hb heq => h.marked.end_outside c hmem (heq ▸ hb)
    have hnew : ∀ {b}, F b → b ≠ r.regionEnd.1 := fun hb heq => by
      have hle := hF _ hb
      omega
    cases hpart with
    | dispatch =>
      obtain ⟨cfgL, lo, ll, A, -, -⟩ := h.transformed.assembled
      exact (A.new_ne (A.dispatch_exit (List.mem_of_getElem? hm)).1).2
    | entry =>
      rcases hl.entry_mem with ⟨-, rfl⟩ | ⟨-, hF'⟩
      · exact hin .begin
      · exact hnew hF'
    | body inside _ _ _ => exact hin inside
    | point hp => exact hin (h.points hmem _ hp).1
    | resume he =>
      obtain ⟨j, hj⟩ := List.mem_iff_getElem?.mp he
      have hjlt : j < (findSuspensionPoints hooks cfg c).length := hl.count ▸ (List.getElem?_eq_some_iff.mp hj).1
      cases hl.sites j _ _ (List.getElem?_eq_getElem hjlt) hj with
      | yield _ _ he' _ _ _ => exact hnew he'
      | send _ _ he' _ _ _ => exact hnew he'
      | guard _ hg _ _ _ _ _ _ _ =>
        rcases hg with ⟨-, rfl⟩ | ⟨-, hF', -⟩
        · exact hin (h.points hmem _ (List.getElem_mem hjlt)).1
        · exact hnew hF'
    | through hF' _ _ _ _ => exact hnew hF'
    | suspend hF' _ _ _ => exact hnew hF'
    | last => exact hin .last
    | done => exact hnew hl.done_mem

/-- Control no longer comes to the block of `region_end`. -/
theorem region_end_unreached (h : Rewritten hooks cfg r start ms cfgM cfg' top E) : ¬Reach cfg' start r.regionEnd.1 := by
  intro hr
  have hentered : ∀ {b}, Reach cfg' start b → Entered cfg cfg' r start hooks ms E b := by
    intro b hb
    induction hb with
    | refl => exact .plain .start
    | tail _ hs ih => exact h.entered_next ih hs
  exact h.entered_ne (hentered hr) rfl

/-! ## Nothing is doubled -/

/-- The blocks that the machines split. -/
def Suspending (hooks : Hooks U) (cfg : Body U) (r : Region) (b : ℕ) : Prop :=
  ∃ c ∈ r.coroutines, ∃ p ∈ findSuspensionPoints hooks cfg c, p.bb = b

theorem machines_edit (h : Marked hooks cfg r start) (hout : machinesOf hooks cfg r = (ms, cfgM)) (u : U) :
    Edit u (Suspending hooks cfg r) cfg cfgM := by
  have h1 : Edit u (Suspending hooks cfg r) cfg.newStateLocal.2 (machinesOf hooks cfg r).2 := by
    refine buildMachines_edit _ _ _ (fun x hx p hp => ?_) fun x hx p hp => ?_
    · obtain ⟨c, hc, rfl⟩ := List.mem_map.mp hx
      exact h.inside_lt hc ((h.mem_points hc).mp hp).1.inside
    · obtain ⟨c, hc, rfl⟩ := List.mem_map.mp hx
      exact ⟨c, hc, p, hp, rfl⟩
  rw [hout] at h1
  exact (Edit.refl.newLocal).trans h1

theorem at_most_once (h : Rewritten hooks cfg r start ms cfgM cfg' top E) {u : U} (hdead : hooks.deadlock ≠ some u)
    (hu : AtMostOnce u cfg) : AtMostOnce u cfg' := by
  obtain ⟨cfgL, lo, ll, A, rfl, hedit⟩ := h.transformed.assembled
  have hlt := h.marked.region_lt.1
  have hM := machines_edit h.marked h.transformed.out u
  have hL := hM.trans (hedit u _ hdead)
  have hfinish : Edit u (fun _ => True) cfgL (finishRegion cfgL r ms top) :=
    finishRegion_edit ms top (hlt.trans_le hL.next_le) trivial
  exact hfinish.atMostOnce (hL.atMostOnce hu)

end Rewritten

/-! ## The statements that control comes by -/

/-- The places of a body from which the region must not take a statement: outside the region, in a coroutine between
    its markers, and behind `region_end` in its block. -/
inductive Covered (cfg : Body U) (r : Region) (start : ℕ) : Pos → Prop
  | outside {b i : ℕ} (h : Plain cfg r start b) (hi : b = r.regionBegin.1 → i < r.regionBegin.2) : Covered cfg r start (b, i)
  | within {c : Coroutine} {b i : ℕ} (hr : Plain cfg r start r.regionBegin.1) (hc : c ∈ r.coroutines) (hb : Reached cfg c b)
      (h1 : b = c.begin.1 → c.begin.2 < i) (h2 : b = c.last.1 → i < c.last.2) : Covered cfg r start (b, i)
  | behind {i : ℕ} (hr : Plain cfg r start r.regionBegin.1) (hi : r.regionEnd.2 < i) : Covered cfg r start (r.regionEnd.1, i)

/-- The statement stands in one block, and control comes to it. -/
def KeptOnce (cfg : Body U) (start : ℕ) (u : U) : Prop := ∃ b, Reach cfg start b ∧ ∀ b', .host u ∈ cfg.stmts b' ↔ b' = b

theorem Rewritten.kept_iff (h : Rewritten hooks cfg r start ms cfgM cfg' top E) {b i : ℕ} {u : U}
    (hcov : Covered cfg r start (b, i)) (hu : (cfg.stmts b)[i]? = some (.host u)) (hmarker : hooks.marker u = none)
    (hdead : hooks.deadlock ≠ some u) (honce : AtMostOnce u cfg) : KeptOnce cfg' start u ↔ b ≠ r.regionEnd.1 := by
  have honce' := h.at_most_once hdead honce
  have hclass : ∀ {j m}, hooks.classifyMarker cfg b j = some m → j ≠ i := by
    rintro j m hm rfl
    rw [Hooks.classifyMarker, hu, Option.bind_some, Hooks.classify, hmarker] at hm
    cases hm
  have hkeep : ∀ {b'}, Reach cfg' start b' → .host u ∈ cfg'.stmts b' → KeptOnce cfg' start u := fun hr hin =>
    ⟨_, hr, fun b'' => ⟨fun h => honce'.apart _ _ h hin, fun heq => heq ▸ hin⟩⟩
  cases hcov with
  | outside hp hi =>
    refine ⟨fun _ => (h.marked.plain b hp).1, fun _ => hkeep (h.reach_plain hp) ?_⟩
    by_cases hb : b = r.regionBegin.1
    · subst hb
      rw [Cfg.stmts, h.head_block]
      refine List.mem_append_left _ (List.mem_append_left _ (List.mem_of_getElem? (i := i) ?_))
      rw [List.getElem?_take, if_pos (hi rfl), hu]
    · rw [Cfg.stmts, h.plain_block hp hb]
      exact List.mem_of_getElem? hu
  | @within c _ _ hr hc hb h1 h2 =>
    refine ⟨fun _ heq => h.marked.end_outside c hc (heq ▸ hb.inside), fun _ => ?_⟩
    obtain ⟨k, hk⟩ := List.mem_iff_getElem?.mp hc
    obtain ⟨m, F, T, entry, entries, done, hm, -, hl⟩ := h.lowered hk
    obtain ⟨b', hreach, hin⟩ := h.body_statement hr hk hm hl hb h1 h2 hu fun p hp heq => by
      obtain ⟨-, mk, hmk, -⟩ := (h.marked.mem_points hc).mp hp
      obtain ⟨hbb, hii⟩ := Prod.mk.inj heq
      rw [hbb] at hmk
      exact hclass hmk hii
    exact hkeep hreach hin
  | behind hr hi =>
    refine ⟨?_, fun hne => absurd rfl hne⟩
    rintro ⟨b', hreach, honly⟩
    -- the statement stays where control no longer comes
    have hin : .host u ∈ cfg'.stmts r.regionEnd.1 := by
      rw [Cfg.stmts, h.transformed.region_end]
      refine List.mem_of_getElem? (i := i) ?_
      have hmem : (r.regionEnd.1, i) ∉ r.markers := fun hmem => by
        obtain ⟨-, m, hm, -⟩ := h.marked.mem_markers hmem
        exact hclass hm rfl
      rw [blank_getElem?, hu, Option.map_some, if_neg hmem]
    have heq := (honly _).mp hin
    exact absurd (heq ▸ hreach) h.region_end_unreached

/-! ## The markers are gone -/

theorem mem_blank {ps : List Pos} {b : ℕ} {l : List (Stmt U)} {u : U} (h : .host u ∈ blank ps b l) :
    ∃ i, (b, i) ∉ ps ∧ l[i]? = some (.host u) := by
  obtain ⟨i, hi⟩ := List.mem_iff_getElem?.mp h
  rw [blank_getElem?] at hi
  obtain ⟨s, hs, heq⟩ := Option.map_eq_some_iff.mp hi
  split at heq
  · cases heq
  · rename_i hne
    exact ⟨i, hne, heq ▸ hs⟩

/-- The region's markers are the only ones of their kinds in the body. -/
def OnlyMarkers (hooks : Hooks U) (cfg : Body U) (r : Region) : Prop :=
  ∀ b < cfg.next, ∀ i m, hooks.classifyMarker cfg b i = some m → SuspKind.ofMarker m = none → (b, i) ∈ r.markers

/-- The blocks of the region's markers come to `finish_region` with their statements. -/
theorem Rewritten.marker_block {cfgL : Body U} {lo ll : ℕ → ℕ} (A : Assembly hooks cfg r start ms cfgM cfgL lo ll) {b i : ℕ}
    (hb : (b, i) ∈ r.markers) (hne : b ≠ r.regionEnd.1) : cfgL.stmts b = cfg.stmts b := by
  have h := A.marked
  rcases List.mem_append.mp hb with hb | hb
  · obtain ⟨c, hc, hb⟩ := List.mem_flatMap.mp hb
    obtain ⟨hlt1, hlt2⟩ := h.mem_markers_lt hc
    rcases List.mem_cons.mp hb with heq | hb
    · obtain rfl : b = c.begin.1 := congrArg Prod.fst heq
      exact congrArg Block.stmts (A.begin_old hlt1 hne (.inr ⟨c, hc, rfl⟩))
    · obtain rfl : b = c.last.1 := congrArg Prod.fst (List.mem_singleton.mp hb)
      obtain ⟨k, hk⟩ := List.mem_iff_getElem?.mp hc
      have hlt : k < ms.length := A.count ▸ (List.getElem?_eq_some_iff.mp hk).1
      have hx : (snapshot hooks cfg r)[k]? = some (c, findSuspensionPoints hooks cfg c) := by
        rw [snapshot, List.getElem?_map, hk]
        rfl
      obtain ⟨-, entries, done, hb⟩ := A.built.built k _ _ hx (List.getElem?_eq_getElem hlt)
      rw [Cfg.stmts, A.old hlt2 hne, hb.last]
      rfl
  · rcases List.mem_cons.mp hb with heq | hb
    · obtain rfl : b = r.regionBegin.1 := congrArg Prod.fst heq
      exact congrArg Block.stmts (A.begin_old h.region_lt.1 hne (.inl rfl))
    · exact absurd (congrArg Prod.fst (List.mem_singleton.mp hb)) hne

theorem Rewritten.no_markers (h : Rewritten hooks cfg r start ms cfgM cfg' top E) (honly : OnlyMarkers hooks cfg r)
    (hdead : ∀ u, hooks.deadlock = some u → hooks.marker u = none) {b i : ℕ} {m : Marker} (hb : b < cfg'.next)
    (hm : hooks.classifyMarker cfg' b i = some m) : SuspKind.ofMarker m ≠ none := by
  intro hkind
  obtain ⟨u, hu⟩ := classify_host hm
  have hmu : hooks.marker u = some m := by
    rw [Hooks.classifyMarker, hu] at hm
    exact hm
  have hclass : ∀ {b j : ℕ}, (cfg.stmts b)[j]? = some (.host u) → hooks.classifyMarker cfg b j = some m := fun hj => by
    rw [Hooks.classifyMarker, hj]
    exact hmu
  have hreport : hooks.deadlock ≠ some u := fun heq => by
    rw [hdead u heq] at hmu
    cases hmu
  have hin := List.mem_of_getElem? hu
  obtain ⟨cfgL, lo, ll, A, hfin, hedit⟩ := h.transformed.assembled
  by_cases hend : b = r.regionEnd.1
  · -- the block of `region_end` keeps its statements
    subst hend
    rw [Cfg.stmts, h.transformed.region_end] at hin
    obtain ⟨j, hj, hget⟩ := mem_blank hin
    exact hj (honly _ h.marked.region_lt.2 j m (hclass hget) hkind)
  -- any other statement was in a block before the markers were erased
  obtain ⟨b₀, j, hlt₀, hne₀, hj, hget⟩ : ∃ b₀ j, b₀ < cfgL.next ∧ b₀ ≠ r.regionEnd.1 ∧ (b₀, j) ∉ r.markers ∧
      (cfgL.stmts b₀)[j]? = some (.host u) := by
    have hrb : r.regionBegin.1 < cfgL.next := h.marked.region_lt.1.trans_le (A.next_le.1.trans A.next_le.2)
    rw [hfin, Cfg.stmts, (finishRegion_block cfgL r ms top b).2.2.2] at hin
    rw [hfin, (finishRegion_block cfgL r ms top b).1] at hb
    split at hin
    · rcases List.mem_append.mp hin with hin | hin
      · obtain ⟨j, hj, hget⟩ := mem_blank (List.mem_of_mem_take hin)
        exact ⟨_, j, hrb, A.ends_apart.symm, hj, hget⟩
      · obtain ⟨m', -, heq⟩ := List.mem_map.mp hin
        cases heq
    · split at hin
      · obtain ⟨j, hj, hget⟩ := mem_blank (List.mem_of_mem_drop hin)
        exact ⟨_, j, hrb, A.ends_apart.symm, hj, hget⟩
      · obtain ⟨j, hj, hget⟩ := mem_blank hin
        exact ⟨b, j, by omega, hend, hj, hget⟩
  have hL := (Rewritten.machines_edit h.marked h.transformed.out u).trans (hedit u _ hreport)
  rcases hL.origin (List.mem_of_getElem? hget) hlt₀ with ⟨hlt, hin₀⟩ | ⟨src, ⟨c, hc, p, hp, rfl⟩, hin₀⟩
  · obtain ⟨j₀, hj₀⟩ := List.mem_iff_getElem?.mp hin₀
    have hmarker := honly b₀ hlt j₀ m (hclass hj₀) hkind
    rw [Rewritten.marker_block A hmarker hne₀] at hget
    exact hj (honly b₀ hlt j m (hclass hget) hkind)
  · obtain ⟨j₀, hj₀⟩ := List.mem_iff_getElem?.mp hin₀
    obtain ⟨hr, mk, hmk, hk⟩ := (h.marked.mem_points hc).mp hp
    have heq := h.marked.suspension_alone (h.marked.inside_lt hc hr.inside) hmk hk (hclass hj₀)
    rw [← heq] at hj₀
    have hsame := hclass hj₀
    rw [hmk] at hsame
    cases hsame
    rw [hk] at hkind
    cases hkind

/-- Without markers the scan finds no region. -/
theorem findRegions_nil (h : ∀ b < cfg.next, ∀ i m, hooks.classifyMarker cfg b i = some m → SuspKind.ofMarker m ≠ none) :
    findRegions hooks cfg = [] := by
  have hvisit : ∀ pos : Pos, pos.1 < cfg.next → ∀ σ : Scan, σ.visit hooks cfg pos = σ := by
    intro pos hpos σ
    rw [Scan.visit]
    split
    · rename_i m hm
      cases m with
      | yield => rfl
      | guardedRecv => rfl
      | producingSend => rfl
      | _ => exact absurd rfl (h _ hpos _ _ hm)
    · rfl
  have hfold : ∀ l : List Pos, (∀ pos ∈ l, pos.1 < cfg.next) → l.foldl (Scan.visit hooks cfg) .start = .start := by
    intro l
    induction l with
    | nil => exact fun _ => rfl
    | cons pos l ih =>
      intro hl
      rw [List.foldl_cons, hvisit pos (hl pos List.mem_cons_self)]
      exact ih fun q hq => hl q (List.mem_cons_of_mem _ hq)
  rw [findRegions, hfold]
  · rfl
  · intro pos hpos
    obtain ⟨b, hb, hpos⟩ := List.mem_flatMap.mp hpos
    obtain ⟨i, -, rfl⟩ := List.mem_map.mp hpos
    exact cfg.ids_lt b hb

/-- A body with one region is done after one round. -/
theorem runWith_single {X : Type} {f : Executor U X} {e : X} (hfind : findRegions hooks cfg = [r]) (hne : r.coroutines ≠ [])
    (hnone : findRegions hooks (transformRegion hooks f e cfg r).2 = []) (rounds : ℕ) :
    runWith hooks f (rounds + 2) e cfg = some (transformRegion hooks f e cfg r) := by
  have h1 : nextRegion hooks cfg = some r := by
    rw [nextRegion, hfind, List.find?_cons_of_pos]
    simpa using hne
  have h2 : nextRegion hooks (transformRegion hooks f e cfg r).2 = none := by
    rw [nextRegion, hnone]
    rfl
  simp only [runWith, h1, h2]

theorem hosts_twice {u : U} {l : List (Stmt U)} (h : [u, u].Sublist (hosts l)) :
    ∃ i j : ℕ, i < j ∧ l[i]? = some (Stmt.host u) ∧ l[j]? = some (Stmt.host u) := by
  induction l with
  | nil => simp at h
  | cons x l ih =>
    have hrest : [u, u].Sublist (hosts l) → ∃ i j : ℕ, i < j ∧ (x :: l)[i]? = some (Stmt.host u) ∧ (x :: l)[j]? = some (Stmt.host u) := fun h => by
      obtain ⟨i, j, hij, hi, hj⟩ := ih h
      exact ⟨i + 1, j + 1, by omega, by rwa [List.getElem?_cons_succ], by rwa [List.getElem?_cons_succ]⟩
    cases hx : x.host? with
    | none =>
      rw [hosts_cons_none hx] at h
      exact hrest h
    | some v =>
      have hxv : x = .host v := by
        cases x with
        | host w =>
          cases hx
          rfl
        | _ => cases hx
      subst hxv
      have hcons : hosts (.host v :: l) = v :: hosts l := rfl
      rw [hcons] at h
      cases h with
      | cons _ h => exact hrest h
      | cons_cons _ h =>
        obtain ⟨j, hj⟩ := List.mem_iff_getElem?.mp (mem_hosts.mp (List.singleton_sublist.mp h))
        exact ⟨0, j + 1, Nat.succ_pos j, rfl, by rwa [List.getElem?_cons_succ]⟩

/-- The statement stands at this place only. -/
def OnlyAt (cfg : Body U) (u : U) (pos : Pos) : Prop :=
  ∀ b i, (cfg.stmts b)[i]? = some (Stmt.host u) ↔ (b, i) = pos

theorem OnlyAt.atMostOnce {u : U} {pos : Pos} (h : OnlyAt cfg u pos) : AtMostOnce u cfg := by
  refine ⟨fun b hs => ?_, fun b b' hb hb' => ?_⟩
  · obtain ⟨i, j, hij, hi, hj⟩ := hosts_twice hs
    have heq := ((h b i).mp hi).trans ((h b j).mp hj).symm
    exact hij.ne (congrArg Prod.snd heq)
  · obtain ⟨i, hi⟩ := List.mem_iff_getElem?.mp hb
    obtain ⟨j, hj⟩ := List.mem_iff_getElem?.mp hb'
    exact congrArg Prod.fst (((h b i).mp hi).trans ((h b' j).mp hj).symm)

/-- Under either executor `run_with` ends, and an ordinary statement that control came by before is in one block
    afterwards, where control comes, unless it stands behind `region_end` in its block. -/
theorem statement_kept_iff (h : Marked hooks cfg r start) (hfind : findRegions hooks cfg = [r]) (honly : OnlyMarkers hooks cfg r)
    (hdead : ∀ u, hooks.deadlock = some u → hooks.marker u = none) {b i : ℕ} {u : U} (hcov : Covered cfg r start (b, i))
    (hu : OnlyAt cfg u (b, i)) (hmarker : hooks.marker u = none) (hreport : hooks.deadlock ≠ some u)
    (loops : List Loop) (exits : List RegionExits) (rounds : ℕ) :
    (∃ loops' cfg', runWith hooks (cooperative hooks) (rounds + 2) loops cfg = some (loops', cfg') ∧
      (KeptOnce cfg' start u ↔ b ≠ r.regionEnd.1)) ∧
    ∃ exits' cfg', runWith hooks waker (rounds + 2) exits cfg = some (exits', cfg') ∧
      (KeptOnce cfg' start u ↔ b ≠ r.regionEnd.1) := by
  have hkey : ∀ {X : Type} (f : Executor U X) (e : X), ((∃ loops, (transformRegion hooks f e cfg r).2 =
      (transformRegion hooks (cooperative hooks) loops cfg r).2) ∨
        ∃ exits, (transformRegion hooks f e cfg r).2 = (transformRegion hooks waker exits cfg r).2) →
      ∃ e' cfg', runWith hooks f (rounds + 2) e cfg = some (e', cfg') ∧ (KeptOnce cfg' start u ↔ b ≠ r.regionEnd.1) := by
    intro X f e hout
    obtain ⟨ms, cfgM, top, E, hw⟩ := h.rewritten hout
    have hnil := findRegions_nil fun b hb i m hm => hw.no_markers honly hdead hb hm
    exact ⟨_, _, runWith_single hfind h.nonempty hnil rounds,
      hw.kept_iff hcov ((hu b i).mpr rfl) hmarker hreport hu.atMostOnce⟩
  exact ⟨hkey _ loops (.inl ⟨loops, rfl⟩), hkey _ exits (.inr ⟨exits, rfl⟩)⟩

section
variable {p : Option UInt32} {n : ℕ}

theorem chain_only_at : OnlyAt (yieldChain n 1) none (n + 4, 1) := by
  intro b i
  rw [Cfg.stmts, chain_block, Prod.mk.injEq]
  split_ifs <;> rcases i with _ | _ | i <;> simp <;> omega

theorem chain_only_markers {t : ℕ} : OnlyMarkers (chainHooks p) (yieldChain n t) (chainRegion p n) := by
  intro b hb i m hm hkind
  obtain rfl := chain_marker_first hm
  rw [Hooks.classifyMarker, Cfg.stmts, chain_block] at hm
  simp only [Region.markers, chainRegion, chainCoroutine]
  split_ifs at hm with h1 h2 h3 h4 h5 h6
  · simp [h1]
  · simp [h2]
  · cases hm
  · cases hm
    cases hkind
  · simp [h5]
  · simp [h6]
  · cases hm

/-- The statement behind `region_end` in its block. -/
theorem chain_covered : Covered (yieldChain n 1) (chainRegion p n) 0 (n + 4, 1) := .behind .start Nat.zero_lt_one

end

/-- Control no longer comes to a statement that stands behind `region_end`. -/
theorem statement_lost_behind_region_end :
    Covered (yieldChain 1 1) (chainRegion none 1) 0 (5, 1) ∧ OnlyAt (yieldChain 1 1) none (5, 1) ∧
      (∃ loops cfg', runWith (chainHooks none) (cooperative (chainHooks none)) 2 [] (yieldChain 1 1) = some (loops, cfg') ∧
        ¬KeptOnce cfg' 0 none) ∧
      ∃ exits cfg', runWith (chainHooks none) waker 2 [] (yieldChain 1 1) = some (exits, cfg') ∧ ¬KeptOnce cfg' 0 none := by
  have hkey : ∀ cfg', ((∃ loops, cfg' = (transformRegion (chainHooks none) (cooperative (chainHooks none)) loops (yieldChain 1 1)
        (chainRegion none 1)).2) ∨
      ∃ exits, cfg' = (transformRegion (chainHooks none) waker exits (yieldChain 1 1) (chainRegion none 1)).2) →
      ¬KeptOnce cfg' 0 none ∧ findRegions (chainHooks none) cfg' = [] := by
    intro cfg' hout
    obtain ⟨ms, cfgM, top, E, hw⟩ := chain_confined.toMarked.rewritten hout
    refine ⟨fun hkept => ?_, findRegions_nil fun b hb i m hm => hw.no_markers chain_only_markers (by simp [chainHooks]) hb hm⟩
    exact (hw.kept_iff chain_covered ((chain_only_at 5 1).mpr rfl) rfl (by simp [chainHooks]) chain_only_at.atMostOnce).mp
      hkept rfl
  have hfind : findRegions (chainHooks none) (yieldChain 1 1) = [chainRegion none 1] := rfl
  refine ⟨chain_covered, chain_only_at, ?_, ?_⟩
  · obtain ⟨hlost, hnil⟩ := hkey _ (.inl ⟨[], rfl⟩)
    exact ⟨_, _, runWith_single hfind (List.cons_ne_nil _ _) hnil 0, hlost⟩
  · obtain ⟨hlost, hnil⟩ := hkey _ (.inr ⟨[], rfl⟩)
    exact ⟨_, _, runWith_single hfind (List.cons_ne_nil _ _) hnil 0, hlost⟩

section
variable {banded : Bool}

theorem crew_only_markers : OnlyMarkers (crewHooks banded) crew (crewRegion banded) := by
  have hmarkers : (crewRegion banded).markers = (crewRegion false).markers := by cases banded <;> rfl
  have hall : ∀ b < 12, ∀ i < (crew.stmts b).length, (((crewHooks false).classifyMarker crew b i).all fun m =>
      SuspKind.ofMarker m ≠ none ∨ (b, i) ∈ (crewRegion false).markers) = true := by
    decide
  intro b hb i m hm hkind
  obtain ⟨u, hu⟩ := classify_host hm
  rw [hmarkers]
  have hall := (Option.all_eq_true ..).mp (hall b hb i (List.getElem?_eq_some_iff.mp hu).1) m hm
  exact (of_decide_eq_true hall).resolve_left fun hne => hne hkind

theorem crew_only_at : OnlyAt crew (none, 1) (5, 0) := by
  intro b i
  constructor
  · intro h
    have hall : ∀ b ∈ List.range 12, ∀ i ∈ List.range (crew.stmts b).length, (crew.stmts b)[i]? = some (.host (none, 1)) →
        (b, i) = (5, 0) := by
      decide
    obtain hb | hb := Nat.lt_or_ge b 12
    · exact hall b (List.mem_range.mpr hb) i (List.mem_range.mpr (List.getElem?_eq_some_iff.mp h).1) h
    · rw [Cfg.stmts, crew_beyond hb] at h
      cases h
  · rintro ⟨⟩
    rfl

/-- The second coroutine comes by its statement. -/
theorem crew_covered : Covered crew (crewRegion banded) 0 (5, 0) := by
  have hmem : ⟨(4, 0), (6, 0), if banded then some 1 else none⟩ ∈ (crewRegion banded).coroutines :=
    List.mem_cons_of_mem _ List.mem_cons_self
  have hreached : Reached crew ⟨(4, 0), (6, 0), if banded then some 1 else none⟩ 5 :=
    Relation.ReflTransGen.refl.tail (List.mem_singleton_self _)
  exact .within .start hmem hreached nofun nofun

end

/-- A statement behind `region_end`, which is lost, and one of a coroutine, which is kept. -/
theorem statement_kept_iff_crew :
    ((∃ loops' cfg', runWith (chainHooks none) (cooperative (chainHooks none)) 2 [] (yieldChain 1 1) = some (loops', cfg') ∧
      ¬KeptOnce cfg' 0 none) ∧
    ∃ exits' cfg', runWith (chainHooks none) waker 2 [] (yieldChain 1 1) = some (exits', cfg') ∧ ¬KeptOnce cfg' 0 none) ∧
    (∃ loops' cfg', runWith (crewHooks true) (cooperative (crewHooks true)) 2 [] crew = some (loops', cfg') ∧
      KeptOnce cfg' 0 (none, 1)) ∧
    ∃ exits' cfg', runWith (crewHooks true) waker 2 [] crew = some (exits', cfg') ∧ KeptOnce cfg' 0 (none, 1) := by
  have hfind : findRegions (chainHooks none) (yieldChain 1 1) = [chainRegion none 1] := rfl
  obtain ⟨⟨loops, cfg₁, hrun₁, hlost₁⟩, exits, cfg₂, hrun₂, hlost₂⟩ := statement_kept_iff chain_confined.toMarked hfind
    chain_only_markers (by simp [chainHooks]) chain_covered chain_only_at rfl (by simp [chainHooks]) [] [] 0
  obtain ⟨⟨loops', cfg₃, hrun₃, hkept₃⟩, exits', cfg₄, hrun₄, hkept₄⟩ := statement_kept_iff crew_conforms.toMarked crew_found
    crew_only_markers (by simp [crewHooks]) (@crew_covered true) crew_only_at rfl (by simp [crewHooks]) [] [] 0
  exact ⟨⟨⟨_, _, hrun₁, fun h => hlost₁.mp h rfl⟩, _, _, hrun₂, fun h => hlost₂.mp h rfl⟩,
    ⟨_, _, hrun₃, hkept₃.mpr (by decide)⟩, _, _, hrun₄, hkept₄.mpr (by decide)⟩

end Krio.Stackless
