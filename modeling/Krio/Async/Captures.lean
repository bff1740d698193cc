import Krio.Async.Slots
import Krio.Async.Tables

/-! The capture tables: what is saved before a suspension is what the next resume loads. A host that records
one site several times gets the first record only. -/

namespace Krio.Async
open Lib

variable {S F V : Type}

/-- The sites that the transform splits at: none in a function that does not suspend. -/
def suspensionSites (cfg : Cfg S) (fnId : F) (isSuspending : F → Bool)
    (classify : Cfg S → ℕ → ℕ → Option (SuspensionSite F V)) : List (Site F V) :=
  if isSuspending fnId then scan cfg classify else []

section Frames
variable {D : Type}

/-- Writing a list of entries, one after the other. -/
theorem foldl_update {K A : Type*} [DecidableEq K] {key : A → K} {val : A → D} {k : K} {d : D} (xs : List A) (f : K → D)
    (h : ∀ x ∈ xs, key x = k → val x = d) :
    xs.foldl (fun f x => Function.update f (key x) (val x)) f k = if k ∈ xs.map key then d else f k := by
  induction xs generalizing f with
  | nil => rfl
  | cons x xs ih =>
    obtain ⟨hx, hxs⟩ := List.forall_mem_cons.mp h
    rw [List.foldl_cons, ih _ hxs]
    by_cases hk : key x = k
    · rw [← hx hk, ← hk, Function.update_self]
      simp
    · rw [Function.update_of_ne (Ne.symm hk)]
      simp [Ne.symm hk]

/-- The saves before a suspension: each value goes from its local to its slot of the frame. -/
def saveAll (pairs : List (ℕ × V)) (env : V → D) (frame : ℕ → D) : ℕ → D :=
  pairs.foldl (fun frame x => Function.update frame x.1 (env x.2)) frame

variable [DecidableEq V]

/-- The loads after a resume. -/
def loadAll (pairs : List (ℕ × V)) (frame : ℕ → D) (env : V → D) : V → D :=
  pairs.foldl (fun env x => Function.update env x.2 (frame x.1)) env

omit [DecidableEq V] in
/-- The frame after the suspensions of a history, each with the locals it saved from. -/
def runSaves (history : List ((ℕ × List (ℕ × V)) × (V → D))) (frame : ℕ → D) : ℕ → D :=
  history.foldl (fun frame x => saveAll x.1.2 x.2 frame) frame

/-- What the value was when it was last saved. -/
def lastSaved (history : List ((ℕ × List (ℕ × V)) × (V → D))) (v : V) : Option D :=
  history.reverse.findSome? fun x => if v ∈ x.1.2.map (·.2) then some (x.2 v) else none

/-- Pairs of live values with their slots. -/
def Slotted (slotOf : V → ℕ) (live : V → Prop) (pairs : List (ℕ × V)) : Prop :=
  ∀ x ∈ pairs, x.1 = slotOf x.2 ∧ live x.2

variable {slotOf : V → ℕ} {live : V → Prop} {pairs : List (ℕ × V)} {v : V}

theorem loadAll_apply (h : Slotted slotOf live pairs) (frame : ℕ → D) (env : V → D) (hv : v ∈ pairs.map (·.2)) :
    loadAll pairs frame env v = frame (slotOf v) := by
  rw [loadAll, foldl_update pairs env fun x hx hxv => by rw [(h x hx).1, hxv], if_pos hv]

theorem saveAll_apply (hinj : ∀ v, live v → ∀ w, live w → slotOf v = slotOf w → v = w) (h : Slotted slotOf live pairs)
    (hv : live v) (env : V → D) (frame : ℕ → D) :
    saveAll pairs env frame (slotOf v) = if v ∈ pairs.map (·.2) then env v else frame (slotOf v) := by
  have hkey : ∀ x ∈ pairs, x.1 = slotOf v ↔ x.2 = v := by
    intro x hx
    obtain ⟨hslot, hlive⟩ := h x hx
    rw [hslot]
    exact ⟨fun heq => hinj _ hlive _ hv heq, fun heq => heq ▸ rfl⟩
  have hmem : slotOf v ∈ pairs.map (·.1) ↔ v ∈ pairs.map (·.2) := by
    simp only [List.mem_map]
    constructor
    · rintro ⟨x, hx, heq⟩
      exact ⟨x, hx, (hkey x hx).mp heq⟩
    · rintro ⟨x, hx, heq⟩
      exact ⟨x, hx, (hkey x hx).mpr heq⟩
  rw [saveAll, foldl_update pairs frame fun x hx hxv => by rw [(hkey x hx).mp hxv]]
  simp only [hmem]

/-- The frame holds each value as it was when it was last saved. -/
theorem runSaves_apply (hinj : ∀ v, live v → ∀ w, live w → slotOf v = slotOf w → v = w)
    {history : List ((ℕ × List (ℕ × V)) × (V → D))} (h : ∀ x ∈ history, Slotted slotOf live x.1.2) (hv : live v)
    (frame : ℕ → D) : runSaves history frame (slotOf v) = (lastSaved history v).getD (frame (slotOf v)) := by
  induction history using List.reverseRecOn with
  | nil => rfl
  | append_singleton history x ih =>
    have hx := h x (by simp)
    have hih := ih fun y hy => h y (by simp [hy])
    rw [runSaves, List.foldl_append, List.foldl_cons, List.foldl_nil, ← runSaves, saveAll_apply hinj hx hv, hih]
    simp only [lastSaved, List.reverse_append, List.reverse_singleton, List.singleton_append, List.findSome?_cons]
    split_ifs <;> rfl

theorem lastSaved_isSome {history : List ((ℕ × List (ℕ × V)) × (V → D))} (h : ∃ x ∈ history, v ∈ x.1.2.map (·.2)) :
    (lastSaved history v).isSome := by
  obtain ⟨x, hx, hv⟩ := h
  rw [lastSaved, List.findSome?_isSome_iff]
  exact ⟨x, List.mem_reverse.mpr hx, by rw [if_pos hv]; rfl⟩

end Frames

/-- The capture tables of a layout, over the slots from `r` on: `slotOf` is the slot of each live value. -/
structure Captures [DecidableEq V] (cfg cfg' : Cfg S) (sites : List (Site F V)) (liveness : LivenessMap V) (r : ℕ)
    (l : StateMachineLayout F V) (slotOf : V → ℕ) : Prop where
  inj : ∀ v ∈ liveAtSites liveness sites, ∀ w ∈ liveAtSites liveness sites, slotOf v = slotOf w → v = w
  saved : ∀ n, n ∈ slotsOf l.yieldSaves ↔ r ≤ n ∧ n < r + (liveAtSites liveness sites).dedup.length
  loaded : ∀ n, n ∈ slotsOf l.resumeLoads ↔ r ≤ n ∧ n < r + (liveAtSites liveness sites).dedup.length
  lengths : l.yieldBlocks.length = sites.length ∧ l.resumeEntries.tail.length = sites.length
  ends : ∀ (k : ℕ) (s : Site F V) (y : ℕ), sites[k]? = some s → (l.yieldBlocks.map (·.1))[k]? = some y →
    cfg'.stmts y ≠ [] ∧ cfg'.stmts y <:+ (cfg.stmts s.1).take (s.2.1 + 1)
  saves : l.yieldSaves = tableOf liveness slotOf sites (l.yieldBlocks.map (·.1))
  loads : l.resumeLoads = tableOf liveness slotOf sites l.resumeEntries.tail
  restores : ∀ {D : Type} (history : List ((ℕ × List (ℕ × V)) × (V → D))), (∀ x ∈ history, x.1 ∈ l.yieldSaves) →
    ∀ z ∈ l.resumeLoads, ∀ p ∈ z.2, (∃ x ∈ history, p ∈ x.1.2) → ∀ (frame : ℕ → D) (env : V → D),
      some (loadAll z.2 (runSaves history frame) env p.2) = lastSaved history p.2

section
variable {liveness : LivenessMap V} {slotOf : V → ℕ} {sites : List (Site F V)} {ys rs : List ℕ}

theorem slotted_of_mem_tableOf {z : ℕ × List (ℕ × V)} (hz : z ∈ tableOf liveness slotOf sites ys) :
    Slotted slotOf (· ∈ liveAtSites liveness sites) z.2 := by
  obtain ⟨k, s, hs, -, -, hz⟩ := mem_tableOf.mp hz
  rw [hz]
  intro x hx
  obtain ⟨v, hv, rfl⟩ := List.mem_map.mp hx
  exact ⟨rfl, List.mem_flatMap.mpr ⟨s, List.mem_of_getElem? hs, hv⟩⟩

/-- A live value of a site is listed at the site's block. -/
theorem exists_mem_tableOf {k y : ℕ} {s : Site F V} {v : V} (hs : sites[k]? = some s) (hy : ys[k]? = some y)
    (hv : v ∈ liveness.lookup s.1 s.2.1) : ∃ z ∈ tableOf liveness slotOf sites ys, z.1 = y ∧ v ∈ z.2.map (·.2) := by
  refine ⟨(y, (liveness.lookup s.1 s.2.1).map fun v => (slotOf v, v)), ?_, rfl, by simpa using hv⟩
  exact mem_tableOf.mpr ⟨k, s, hs, hy, List.ne_nil_of_mem hv, rfl⟩

variable [DecidableEq V]

/-- Tables that pair each value with a slot of its own restore what was last saved. -/
theorem tableOf_restores {D : Type}
    (hinj : ∀ v ∈ liveAtSites liveness sites, ∀ w ∈ liveAtSites liveness sites, slotOf v = slotOf w → v = w)
    {history : List ((ℕ × List (ℕ × V)) × (V → D))} (hhist : ∀ x ∈ history, x.1 ∈ tableOf liveness slotOf sites ys)
    {z : ℕ × List (ℕ × V)} (hz : z ∈ tableOf liveness slotOf sites rs) {p : ℕ × V} (hp : p ∈ z.2)
    (hsaved : ∃ x ∈ history, p ∈ x.1.2) (frame : ℕ → D) (env : V → D) :
    some (loadAll z.2 (runSaves history frame) env p.2) = lastSaved history p.2 := by
  have hslotted := slotted_of_mem_tableOf hz
  have hlive := (hslotted p hp).2
  have hsome : (lastSaved history p.2).isSome := by
    obtain ⟨x, hx, hpx⟩ := hsaved
    exact lastSaved_isSome ⟨x, hx, List.mem_map_of_mem hpx⟩
  obtain ⟨d, hd⟩ := Option.isSome_iff_exists.mp hsome
  rw [loadAll_apply hslotted _ _ (List.mem_map_of_mem hp),
    runSaves_apply hinj (fun x hx => slotted_of_mem_tableOf (hhist x hx)) hlive, hd]
  rfl

/-- What the transform of a suspending function leaves in the tables, in terms of the two loops. -/
theorem tables_of_transform {cfg : Cfg S} {classify : Cfg S → ℕ → ℕ → Option (SuspensionSite F V)} {options : TransformOptions}
    {fnId : F} {isSuspending : F → Bool} {cfg' : Cfg S} {l : StateMachineLayout F V} (hsus : isSuspending fnId = true)
    (h : transformToStateMachineWithOptions cfg fnId isSuspending classify liveness options = some (cfg', l)) :
    ∃ e tails ys rs σ, Splitting cfg (scan cfg classify) tails σ ∧ Recorded cfg e (scan cfg classify) tails ys rs σ ∧
      cfg' = σ.cfg ∧ l.yieldBlocks.map (·.1) = ys ∧ l.resumeEntries = e :: rs ∧
      let m := ((⟨[], options.reservedSlots⟩ : Slots V).entries (liveAtSites liveness (scan cfg classify))).2
      l.yieldSaves = tableOf liveness m.slotFor (scan cfg classify) ys ∧
        l.resumeLoads = tableOf liveness m.slotFor (scan cfg classify) rs := by
  obtain ⟨e, he⟩ := head?_of_transform hsus h
  obtain ⟨σ, tails, ys, rs, tb, h', hR, htb, heq⟩ := transform_eq classify liveness options he hsus
  obtain ⟨rfl, rfl⟩ := Prod.mk.inj (Option.some.inj (heq.symm.trans h))
  obtain ⟨hly, hlr⟩ := hR.lengths
  obtain ⟨hslots, hsaves, hloads⟩ := lift_eq (by rw [hR.siteYields, hly]) (by rw [hR.siteResumes, hlr]) htb
  rw [hR.siteYields, hslots] at hsaves
  rw [hR.siteResumes, hslots] at hloads
  exact ⟨e, tails, ys, rs, σ, h', hR, rfl, hR.map_yieldBlocks, hR.entries, hsaves, hloads⟩

/-- Capture slots are sound. -/
theorem capture_slots (cfg : Cfg S) (fnId : F) (isSuspending : F → Bool)
    (classify : Cfg S → ℕ → ℕ → Option (SuspensionSite F V)) (liveness : LivenessMap V) (options : TransformOptions)
    (cfg' : Cfg S) (l : StateMachineLayout F V)
    (hbound : options.reservedSlots +
      (liveAtSites liveness (suspensionSites cfg fnId isSuspending classify)).dedup.length ≤ 2 ^ 32 - 1)
    (h : transformToStateMachineWithOptions cfg fnId isSuspending classify liveness options = some (cfg', l)) :
    ∃ slotOf : V → ℕ, Captures cfg cfg' (suspensionSites cfg fnId isSuspending classify) liveness options.reservedSlots l
      slotOf := by
  by_cases hsus : isSuspending fnId = true
  · rw [suspensionSites, if_pos hsus] at hbound ⊢
    obtain ⟨e, tails, ys, rs, σ, h', hR, rfl, hyields, hentries, hsaves, hloads⟩ := tables_of_transform hsus h
    obtain ⟨hly, hlr⟩ := hR.lengths
    have hlt : options.reservedSlots + (liveAtSites liveness (scan cfg classify)).dedup.length < 2 ^ 32 := by omega
    have htail : l.resumeEntries.tail = rs := by
      rw [hentries]
      rfl
    refine ⟨_, fun v hv w hw => slot_entries_inj hlt hv hw, fun n => ?_, fun n => ?_, ⟨?_, ?_⟩, ?_, ?_, ?_, ?_⟩
    · rw [hsaves, mem_slotsOf_tableOf hly, exists_slot_entries hlt]
    · rw [hloads, mem_slotsOf_tableOf hlr, exists_slot_entries hlt]
    · rw [← hly, ← hyields, List.length_map]
    · rw [htail, hlr]
    · intro k s y hs hy
      obtain ⟨y', d, hy', -, hends, -⟩ := hR.around h' (mem_scan.mp (List.mem_of_getElem? hs)).1 hs
      rw [hyields] at hy
      obtain rfl := Option.some.inj (hy.symm.trans hy')
      exact hends
    · exact hsaves.trans (by rw [hyields])
    · exact hloads.trans (by rw [htail])
    · intro D history hhist z hz p hp hsaved frame env
      exact tableOf_restores (fun v hv w hw => slot_entries_inj hlt hv hw) (fun x hx => hsaves ▸ hhist x hx) (hloads ▸ hz) hp
        hsaved frame env
  · rw [suspensionSites, if_neg hsus]
    have hl : some (cfg, (⟨[], [], [], [], []⟩ : StateMachineLayout F V)) = some (cfg', l) := by
      rw [← h]
      simp [transformToStateMachineWithOptions, hsus]
    obtain ⟨rfl, rfl⟩ := Prod.mk.inj (Option.some.inj hl)
    have hnone : ∀ n : ℕ, n ∈ slotsOf ([] : List (ℕ × List (ℕ × V))) ↔ options.reservedSlots ≤ n ∧
        n < options.reservedSlots + (liveAtSites liveness ([] : List (Site F V))).dedup.length := by
      intro n
      simp [slotsOf, liveAtSites]
    exact ⟨fun _ => 0, by simp [liveAtSites], hnone, hnone, ⟨rfl, rfl⟩, by simp, rfl, rfl, by simp⟩

theorem capture_slots_sample : ∃ slotOf : ℕ → ℕ, Captures sampleCfg sampleRun.1
    (suspensionSites sampleCfg 0 (fun _ => true) sampleClassify) ⟨[((0, 1), [42]), ((0, 3), [43, 42])]⟩ 3 sampleRun.2 slotOf :=
  capture_slots sampleCfg 0 (fun _ => true) sampleClassify ⟨[((0, 1), [42]), ((0, 3), [43, 42])]⟩ ⟨3⟩ sampleRun.1 sampleRun.2
    (by decide) (Option.eq_some_of_isSome rfl)

/-- The map that a sequence of `record` calls builds. -/
def recordAll (calls : List ((ℕ × ℕ) × List V)) : LivenessMap V :=
  calls.foldl (fun l c => l.record c.1.1 c.1.2 c.2) ⟨[]⟩

omit [DecidableEq V] in
theorem recordAll_atSite (calls : List ((ℕ × ℕ) × List V)) : (recordAll calls).atSite = calls := by
  suffices h : ∀ l : LivenessMap V, (calls.foldl (fun l c => l.record c.1.1 c.1.2 c.2) l).atSite = l.atSite ++ calls from h ⟨[]⟩
  induction calls with
  | nil => simp
  | cons c calls ih =>
    intro l
    rw [List.foldl_cons, ih]
    simp [LivenessMap.record]

/-- The first call for the site recorded `values`. -/
def FirstRecord (calls : List ((ℕ × ℕ) × List V)) (site : ℕ × ℕ) (values : List V) : Prop :=
  ∃ pre post, calls = pre ++ (site, values) :: post ∧ ∀ c ∈ pre, c.1 ≠ site

/-- Every value that some call recorded for a site is saved at the site's yield block and loaded at its resume
    entry. -/
def Kept (calls : List ((ℕ × ℕ) × List V)) (sites : List (Site F V)) (l : StateMachineLayout F V) : Prop :=
  ∀ (k : ℕ) (s : Site F V), sites[k]? = some s → ∀ c ∈ calls, c.1 = (s.1, s.2.1) → ∀ v ∈ c.2,
    ∃ y r, (l.yieldBlocks.map (·.1))[k]? = some y ∧ l.resumeEntries[k + 1]? = some r ∧
      (∃ z ∈ l.yieldSaves, z.1 = y ∧ v ∈ z.2.map (·.2)) ∧ ∃ z ∈ l.resumeLoads, z.1 = r ∧ v ∈ z.2.map (·.2)

omit [DecidableEq V] in
/-- `lookup` returns what the first call for the site recorded. -/
theorem lookup_recordAll {calls : List ((ℕ × ℕ) × List V)} {b i : ℕ} {values : List V} (h : FirstRecord calls (b, i) values) :
    (recordAll calls).lookup b i = values := by
  obtain ⟨pre, post, rfl, hpre⟩ := h
  have hnone : pre.find? (fun x => x.1.1 = b ∧ x.1.2 = i) = none := by
    rw [List.find?_eq_none]
    intro x hx
    simp only [decide_eq_true_eq]
    exact fun heq => hpre x hx (Prod.ext heq.1 heq.2)
  rw [LivenessMap.lookup, recordAll_atSite, List.find?_append, hnone]
  simp

omit [DecidableEq V] in
theorem exists_firstRecord {calls : List ((ℕ × ℕ) × List V)} {site : ℕ × ℕ} (h : ∃ c ∈ calls, c.1 = site) :
    ∃ values, FirstRecord calls site values := by
  induction calls with
  | nil => simp at h
  | cons c calls ih =>
    by_cases hc : c.1 = site
    · exact ⟨c.2, [], calls, by rw [← hc]; rfl, by simp⟩
    · obtain ⟨c', hmem, hc'⟩ := h
      have hmem' : c' ∈ calls := (List.mem_cons.mp hmem).resolve_left fun heq => hc (heq ▸ hc')
      obtain ⟨values, pre, post, rfl, hpre⟩ := ih ⟨c', hmem', hc'⟩
      exact ⟨values, c :: pre, post, rfl, List.forall_mem_cons.mpr ⟨hc, hpre⟩⟩

/-- No recorded value is dropped exactly when the first record of each site has every value that any record of it has. -/
theorem records_kept (cfg : Cfg S) (fnId : F) (isSuspending : F → Bool)
    (classify : Cfg S → ℕ → ℕ → Option (SuspensionSite F V)) (calls : List ((ℕ × ℕ) × List V)) (options : TransformOptions)
    (cfg' : Cfg S) (l : StateMachineLayout F V)
    (h : transformToStateMachineWithOptions cfg fnId isSuspending classify (recordAll calls) options = some (cfg', l)) :
    Kept calls (suspensionSites cfg fnId isSuspending classify) l ↔
      ∀ s ∈ suspensionSites cfg fnId isSuspending classify, ∀ values, FirstRecord calls (s.1, s.2.1) values →
        ∀ c ∈ calls, c.1 = (s.1, s.2.1) → ∀ v ∈ c.2, v ∈ values := by
  by_cases hsus : isSuspending fnId = true
  · rw [suspensionSites, if_pos hsus]
    obtain ⟨e, tails, ys, rs, σ, h', hR, rfl, hyields, hentries, hsaves, hloads⟩ := tables_of_transform hsus h
    obtain ⟨hly, hlr⟩ := hR.lengths
    constructor
    · intro hkept s hs values hfirst c hc hcs v hv
      obtain ⟨k, hk⟩ := List.mem_iff_getElem?.mp hs
      obtain ⟨y, r, hy, -, ⟨z, hz, hzy, hvz⟩, -⟩ := hkept k s hk c hc hcs v hv
      rw [hyields] at hy
      rw [hsaves] at hz
      obtain ⟨k', s', hk', hy', -, hpairs⟩ := mem_tableOf.mp hz
      have hnd := hR.yields_nodup h' scan_sorted fun s hs => (mem_scan.mp hs).1
      have hkk : k = k' := (List.getElem?_inj (List.getElem?_eq_some_iff.mp hy).1 hnd).mp (by rw [hy, hy', hzy])
      rw [← hkk, hk] at hk'
      obtain rfl := Option.some.inj hk'
      rw [hpairs, lookup_recordAll hfirst] at hvz
      simpa using hvz
    · intro hfirst k s hk c hc hcs v hv
      obtain ⟨values, hvalues⟩ := exists_firstRecord ⟨c, hc, hcs⟩
      have hlive := hfirst s (List.mem_of_getElem? hk) values hvalues c hc hcs v hv
      rw [← lookup_recordAll hvalues] at hlive
      have hlt := (List.getElem?_eq_some_iff.mp hk).1
      obtain ⟨y, hy⟩ : ∃ y, ys[k]? = some y := ⟨_, List.getElem?_eq_getElem (hly ▸ hlt)⟩
      obtain ⟨r, hr⟩ : ∃ r, rs[k]? = some r := ⟨_, List.getElem?_eq_getElem (hlr ▸ hlt)⟩
      refine ⟨y, r, hyields ▸ hy, by rw [hentries, List.getElem?_cons_succ, hr], ?_, ?_⟩
      · rw [hsaves]
        exact exists_mem_tableOf hk hy hlive
      · rw [hloads]
        exact exists_mem_tableOf hk hr hlive
  · rw [suspensionSites, if_neg hsus]
    simp [Kept]

/-- The transform of the sample, recorded twice at its first site. -/
def sampleTwice : Cfg ℕ × StateMachineLayout ℕ ℕ :=
  (transformToStateMachineWithOptions sampleCfg 0 (fun _ => true) sampleClassify
    (recordAll [((0, 1), [42]), ((0, 1), [43])]) ⟨0⟩).get rfl

/-- A host that records a site twice: the value of the second call is neither saved nor loaded. -/
theorem second_record_dropped : ∃ cfg' l,
    transformToStateMachineWithOptions sampleCfg 0 (fun _ => true) sampleClassify
      (recordAll [((0, 1), [42]), ((0, 1), [43])]) ⟨0⟩ = some (cfg', l) ∧
    ¬Kept [((0, 1), [42]), ((0, 1), [43])] (suspensionSites sampleCfg 0 (fun _ => true) sampleClassify) l := by
  refine ⟨sampleTwice.1, sampleTwice.2, Option.eq_some_of_isSome rfl, fun hkept => ?_⟩
  obtain ⟨y, r, -, -, ⟨z, hz, -, hv⟩, -⟩ := hkept 0 (0, 1, .directYield none) rfl ((0, 1), [43]) (by simp) rfl 43 (by simp)
  revert z
  decide

theorem records_kept_sample : Kept [((0, 1), [42]), ((0, 1), [42]), ((0, 3), [43])]
    (suspensionSites sampleCfg 0 (fun _ => true) sampleClassify)
    ((transformToStateMachineWithOptions sampleCfg 0 (fun _ => true) sampleClassify
      (recordAll [((0, 1), [42]), ((0, 1), [42]), ((0, 3), [43])]) ⟨0⟩).get rfl).2 ↔
    ∀ s ∈ suspensionSites sampleCfg 0 (fun _ => true) sampleClassify, ∀ values,
      FirstRecord [((0, 1), [42]), ((0, 1), [42]), ((0, 3), [43])] (s.1, s.2.1) values →
      ∀ c ∈ [((0, 1), [42]), ((0, 1), [42]), ((0, 3), [43])], c.1 = (s.1, s.2.1) → ∀ v ∈ c.2, v ∈ values :=
  records_kept sampleCfg 0 (fun _ => true) sampleClassify [((0, 1), [42]), ((0, 1), [42]), ((0, 3), [43])] ⟨0⟩ _ _
    (Option.eq_some_of_isSome rfl)

end
end Krio.Async
