import Mathlib.Data.List.Range
import Krio.Async.Conserve
import Krio.Async.Validate

/-! The slots of the captures lift: one slot for each value, handed out in order from `reserved_slots` on,
and tables that the validator accepts. -/

namespace Krio.Async

variable {S F V : Type} {r slot : ℕ} {all live : List V} {m : Slots V} {v : V}

/-- The allocator after some of the values of `all` were given slots, none of them wrapped. -/
structure SlotsOk (r : ℕ) (all : List V) (m : Slots V) : Prop where
  keys : (m.slotOf.map (·.1)).Nodup
  sub : ∀ x ∈ m.slotOf, x.1 ∈ all
  slots : m.slotOf.map (·.2) = List.range' r m.slotOf.length
  next : m.nextSlot = r + m.slotOf.length

theorem SlotsOk.start : SlotsOk r all ⟨[], r⟩ := ⟨List.nodup_nil, by simp, rfl, rfl⟩

theorem lookup_nodup {liveness : LivenessMap V} (h : ∀ x ∈ liveness.atSite, x.2.Nodup) (b i : ℕ) :
    (liveness.lookup b i).Nodup := by
  unfold LivenessMap.lookup
  cases hfind : liveness.atSite.find? fun x => x.1.1 = b ∧ x.1.2 = i with
  | none => exact List.nodup_nil
  | some x => exact h x (List.mem_of_find?_eq_some hfind)

/-- The values that `lookup` returns over all sites. -/
def liveAtSites (liveness : LivenessMap V) (sites : List (Site F V)) : List V :=
  sites.flatMap fun s => liveness.lookup s.1 s.2.1

/-- The table over the given blocks: an entry for each site with live values, which pairs each of them with its
    slot. -/
def tableOf (liveness : LivenessMap V) (slotOf : V → ℕ) (sites : List (Site F V)) (blocks : List ℕ) :
    List (ℕ × List (ℕ × V)) :=
  (sites.zip blocks).filterMap fun x =>
    if (liveness.lookup x.1.1 x.1.2.1).isEmpty then none
    else some (x.2, (liveness.lookup x.1.1 x.1.2.1).map fun v => (slotOf v, v))

section
variable {liveness : LivenessMap V} {sites : List (Site F V)} {ys : List ℕ}

theorem mem_tableOf {slotOf : V → ℕ} {z : ℕ × List (ℕ × V)} : z ∈ tableOf liveness slotOf sites ys ↔
    ∃ (k : ℕ) (s : Site F V), sites[k]? = some s ∧ ys[k]? = some z.1 ∧ liveness.lookup s.1 s.2.1 ≠ [] ∧
      z.2 = (liveness.lookup s.1 s.2.1).map fun v => (slotOf v, v) := by
  rw [tableOf, List.mem_filterMap]
  constructor
  · rintro ⟨x, hx, heq⟩
    obtain ⟨k, hk⟩ := List.mem_iff_getElem?.mp hx
    obtain ⟨hs, hy⟩ := List.getElem?_zip_eq_some.mp hk
    split at heq
    · cases heq
    · rename_i hne
      obtain rfl := Option.some.inj heq
      exact ⟨k, x.1, hs, hy, by simpa using hne, rfl⟩
  · rintro ⟨k, s, hs, hy, hne, hz⟩
    have hmem : (s, z.1) ∈ sites.zip ys := List.mem_of_getElem? (List.getElem?_zip_eq_some.mpr ⟨hs, hy⟩)
    exact ⟨(s, z.1), hmem, by simp [hne, ← hz]⟩

theorem tableOf_cons {slotOf : V → ℕ} {s : Site F V} {y : ℕ} : tableOf liveness slotOf (s :: sites) (y :: ys) =
    (if (liveness.lookup s.1 s.2.1).isEmpty then [] else [(y, (liveness.lookup s.1 s.2.1).map fun v => (slotOf v, v))]) ++
      tableOf liveness slotOf sites ys := by
  rw [tableOf, List.zip_cons_cons, List.filterMap_cons]
  split_ifs <;> rfl

/-- One table passes the validator's check. -/
theorem entriesOk_of_mem_tableOf {slotOf : V → ℕ} {z : ℕ × List (ℕ × V)} {n : ℕ}
    (hinj : ∀ v ∈ liveAtSites liveness sites, ∀ w ∈ liveAtSites liveness sites, slotOf v = slotOf w → v = w)
    (hlt : ∀ v ∈ liveAtSites liveness sites, slotOf v < n) (hnd : ∀ b i, (liveness.lookup b i).Nodup)
    (hz : z ∈ tableOf liveness slotOf sites ys) : EntriesOk n z.2 := by
  obtain ⟨k, s, hs, -, -, hz⟩ := mem_tableOf.mp hz
  have hmem : ∀ v ∈ liveness.lookup s.1 s.2.1, v ∈ liveAtSites liveness sites := fun v hv =>
    List.mem_flatMap.mpr ⟨s, List.mem_of_getElem? hs, hv⟩
  rw [hz]
  refine ⟨?_, ?_⟩
  · rw [List.map_map]
    exact (hnd s.1 s.2.1).map_on fun v hv w hw heq => hinj v (hmem v hv) w (hmem w hw) heq
  · intro y hy
    obtain ⟨v, hv, rfl⟩ := List.mem_map.mp hy
    exact hlt v (hmem v hv)

/-- The slots listed by a table are those of the live values. -/
theorem mem_slotsOf_tableOf {slotOf : V → ℕ} {n : ℕ} (hlen : ys.length = sites.length) :
    n ∈ slotsOf (tableOf liveness slotOf sites ys) ↔ ∃ v ∈ liveAtSites liveness sites, slotOf v = n := by
  rw [mem_slotsOf]
  constructor
  · rintro ⟨z, hz, y, hy, rfl⟩
    obtain ⟨k, s, hs, -, -, hz⟩ := mem_tableOf.mp hz
    rw [hz] at hy
    obtain ⟨v, hv, rfl⟩ := List.mem_map.mp hy
    exact ⟨v, List.mem_flatMap.mpr ⟨s, List.mem_of_getElem? hs, hv⟩, rfl⟩
  · rintro ⟨v, hv, rfl⟩
    obtain ⟨s, hs, hv⟩ := List.mem_flatMap.mp hv
    obtain ⟨k, hk, rfl⟩ := List.mem_iff_getElem.mp hs
    refine ⟨(ys[k], (liveness.lookup sites[k].1 sites[k].2.1).map fun v => (slotOf v, v)), ?_, (slotOf v, v),
      List.mem_map_of_mem hv, rfl⟩
    exact mem_tableOf.mpr ⟨k, sites[k], List.getElem?_eq_getElem hk, List.getElem?_eq_getElem (hlen ▸ hk),
      List.ne_nil_of_mem hv, rfl⟩

end

variable [DecidableEq V]

theorem find?_eq_some_of_nodup {l : List (V × ℕ)} (hnd : (l.map (·.1)).Nodup) :
    (l.find? fun x => x.1 = v).map (·.2) = some slot ↔ (v, slot) ∈ l := by
  induction l with
  | nil => simp
  | cons x l ih =>
    obtain ⟨w, n⟩ := x
    obtain ⟨hw, hnd⟩ := List.nodup_cons.mp hnd
    by_cases hwv : w = v
    · subst hwv
      have hnot : (w, slot) ∉ l := fun hmem => hw (List.mem_map.mpr ⟨_, hmem, rfl⟩)
      simp [hnot, eq_comm]
    · have hne : v ≠ w := Ne.symm hwv
      rw [List.find?_cons_of_neg (by simpa using hwv), ih hnd]
      simp [hne]

theorem SlotsOk.get_eq_some (h : SlotsOk r all m) : m.get v = some slot ↔ (v, slot) ∈ m.slotOf :=
  find?_eq_some_of_nodup h.keys

/-- Different values have different slots. -/
theorem SlotsOk.inj (h : SlotsOk r all m) {w : V} (hv : m.get v = some slot) (hw : m.get w = some slot) : v = w := by
  have hnd : (m.slotOf.map (·.2)).Nodup := h.slots ▸ List.nodup_range'
  have heq := List.inj_on_of_nodup_map hnd (h.get_eq_some.mp hv) (h.get_eq_some.mp hw) rfl
  exact congrArg Prod.fst heq

theorem SlotsOk.lt (h : SlotsOk r all m) (hv : m.get v = some slot) : r ≤ slot ∧ slot < m.nextSlot := by
  have hmem : slot ∈ m.slotOf.map (·.2) := List.mem_map_of_mem (h.get_eq_some.mp hv)
  rw [h.slots, List.mem_range'_1] at hmem
  rw [h.next]
  exact hmem

/-- There are no more slots than values. -/
theorem SlotsOk.next_le (h : SlotsOk r all m) : m.nextSlot ≤ r + all.dedup.length := by
  have hsub : m.slotOf.map (·.1) ⊆ all.dedup := by
    intro x hx
    obtain ⟨y, hy, rfl⟩ := List.mem_map.mp hx
    exact List.mem_dedup.mpr (h.sub y hy)
  have hlen : m.slotOf.length ≤ all.dedup.length := by
    simpa using (List.subperm_of_subset h.keys hsub).length_le
  rw [h.next]
  omega

/-- Whatever has a slot in `m` has the same slot in `m'`. -/
def Slots.Extends (m m' : Slots V) : Prop := ∀ w n, m.get w = some n → m'.get w = some n

/-- `entry` gives a value the slot it has, or the next one, and takes no slot away. -/
theorem Slots.get_entry (m : Slots V) (v : V) : (m.entry v).2.get v = some (m.entry v).1 ∧ m.Extends (m.entry v).2 := by
  unfold Slots.entry
  cases hget : m.get v with
  | some n => exact ⟨hget, fun _ _ hw => hw⟩
  | none =>
    have hnone : m.slotOf.find? (fun x => x.1 = v) = none := Option.map_eq_none_iff.mp hget
    refine ⟨by simp [Slots.get, hnone], fun w n hw => ?_⟩
    obtain ⟨x, hx, hn⟩ := Option.map_eq_some_iff.mp hw
    simp [Slots.get, List.find?_append, hx, hn]

/-- Every value of the list has a slot afterwards, and no slot is taken away. -/
theorem Slots.get_entries (m : Slots V) (live : List V) :
    (∀ v ∈ live, ∃ n, (m.entries live).2.get v = some n) ∧ m.Extends (m.entries live).2 := by
  induction live generalizing m with
  | nil => exact ⟨by simp, fun _ _ hw => hw⟩
  | cons v live ih =>
    obtain ⟨hget, hkeep⟩ := m.get_entry v
    obtain ⟨hgets, hkeeps⟩ := ih (m.entry v).2
    refine ⟨List.forall_mem_cons.mpr ⟨⟨_, hkeeps v _ hget⟩, hgets⟩, fun w n hw => hkeeps w n (hkeep w n hw)⟩

theorem Slots.entries_append (m : Slots V) (live rest : List V) :
    (m.entries (live ++ rest)).2 = ((m.entries live).2.entries rest).2 := by
  induction live generalizing m with
  | nil => rfl
  | cons v live ih => exact ih (m.entry v).2

/-- The slot of a value; `0` when it has none. -/
def Slots.slotFor (m : Slots V) (v : V) : ℕ := (m.get v).getD 0

theorem Slots.slotFor_eq {n : ℕ} (h : m.get v = some n) : m.slotFor v = n := by
  rw [Slots.slotFor, h]
  rfl

/-- The pairs of one site: its values in order, each with the slot that it keeps. -/
theorem Slots.entries_eq {m' : Slots V} (hkeep : (m.entries live).2.Extends m') :
    (m.entries live).1 = live.map fun v => (m'.slotFor v, v) := by
  induction live generalizing m with
  | nil => rfl
  | cons v live ih =>
    have hslot : (m.entries (v :: live)).2.get v = some (m.entry v).1 :=
      ((m.entry v).2.get_entries live).2 v _ (m.get_entry v).1
    rw [List.map_cons, Slots.slotFor_eq (hkeep v _ hslot), ← ih hkeep]
    rfl

theorem SlotsOk.entry (h : SlotsOk r all m) (hbound : r + all.dedup.length < 2 ^ 32) (hv : v ∈ all) :
    SlotsOk r all (m.entry v).2 := by
  unfold Slots.entry
  cases hget : m.get v with
  | some n => exact h
  | none =>
    have hkey : v ∉ m.slotOf.map (·.1) := by
      intro hmem
      obtain ⟨x, hx, rfl⟩ := List.mem_map.mp hmem
      rw [h.get_eq_some.mpr hx] at hget
      cases hget
    have hkeys : ((m.slotOf ++ [(v, m.nextSlot)]).map (·.1)).Nodup := by
      rw [List.map_append]
      exact List.nodup_append.mpr ⟨h.keys, List.nodup_singleton _, by
        rintro a ha b hb rfl
        exact hkey (by simpa [List.mem_singleton.mp hb] using ha)⟩
    have hsub : ∀ x ∈ m.slotOf ++ [(v, m.nextSlot)], x.1 ∈ all := by
      intro x hx
      rcases List.mem_append.mp hx with hx | hx
      · exact h.sub x hx
      · rw [List.mem_singleton.mp hx]
        exact hv
    have hslots : (m.slotOf ++ [(v, m.nextSlot)]).map (·.2) =
        List.range' r (m.slotOf ++ [(v, m.nextSlot)]).length := by
      rw [List.map_append, h.slots, List.length_append, List.length_singleton, List.range'_concat, h.next, Nat.one_mul]
      rfl
    have hraw : SlotsOk r all ⟨m.slotOf ++ [(v, m.nextSlot)], m.nextSlot + 1⟩ :=
      ⟨hkeys, hsub, hslots, by rw [h.next, List.length_append, List.length_singleton, Nat.add_assoc]⟩
    have hmod : (m.nextSlot + 1) % 2 ^ 32 = m.nextSlot + 1 := Nat.mod_eq_of_lt (hraw.next_le.trans_lt hbound)
    simp only [hmod]
    exact hraw

theorem SlotsOk.entries (h : SlotsOk r all m) (hbound : r + all.dedup.length < 2 ^ 32) (hlive : ∀ v ∈ live, v ∈ all) :
    SlotsOk r all (m.entries live).2 := by
  induction live generalizing m with
  | nil => exact h
  | cons v live ih =>
    obtain ⟨hv, hlive⟩ := List.forall_mem_cons.mp hlive
    exact ih (h.entry hbound hv) hlive

section
variable {liveness : LivenessMap V} {sites : List (Site F V)} {ys rs : List ℕ} {tables tables' : Lift V}

/-- The save and load tables from the `n`-th site on, and the slots handed out. -/
theorem lift_foldlM_eq {n : ℕ} (hy : n + sites.length ≤ ys.length) (hr : n + sites.length ≤ rs.length)
    (h : (sites.zipIdx n).foldlM (Lift.site liveness ys rs) tables = some tables') :
    tables'.slots = (tables.slots.entries (liveAtSites liveness sites)).2 ∧
      tables'.yieldSaves = tables.yieldSaves ++ tableOf liveness tables'.slots.slotFor sites (ys.drop n) ∧
      tables'.resumeLoads = tables.resumeLoads ++ tableOf liveness tables'.slots.slotFor sites (rs.drop n) := by
  induction sites generalizing n tables with
  | nil =>
    obtain rfl := Option.some.inj h
    simp [tableOf, liveAtSites, Slots.entries]
  | cons s sites ih =>
    rw [List.zipIdx_cons, List.foldlM_cons, Option.bind_eq_bind, Option.bind_eq_some_iff] at h
    obtain ⟨tables₁, hsite, h⟩ := h
    rw [List.length_cons] at hy hr
    obtain ⟨hslots, hsaves, hloads⟩ := ih (by omega) (by omega) h
    have hyn : n < ys.length := by omega
    have hrn : n < rs.length := by omega
    have hlive : liveAtSites liveness (s :: sites) = liveness.lookup s.1 s.2.1 ++ liveAtSites liveness sites := rfl
    rw [hlive, Slots.entries_append, ← List.getElem_cons_drop hyn, ← List.getElem_cons_drop hrn, tableOf_cons, tableOf_cons]
    simp only [Lift.site] at hsite
    split at hsite
    · rename_i hempty
      obtain rfl := Option.some.inj hsite
      rw [if_pos hempty, if_pos hempty, List.isEmpty_iff.mp hempty]
      exact ⟨hslots, hsaves, hloads⟩
    · rename_i hne
      simp only [List.getElem?_eq_getElem hyn, List.getElem?_eq_getElem hrn, Option.bind_eq_bind, Option.bind_some,
        Option.some.injEq] at hsite
      subst hsite
      have hkeep : (tables.slots.entries (liveness.lookup s.1 s.2.1)).2.Extends tables'.slots :=
        hslots ▸ (Slots.get_entries _ _).2
      have hpairs := Slots.entries_eq hkeep
      rw [if_neg hne, if_neg hne, hsaves, hloads, ← hpairs, List.append_assoc, List.append_assoc]
      exact ⟨hslots, rfl, rfl⟩

/-- The captures lift of all sites. -/
theorem lift_eq {options : TransformOptions} {σ : Split S F V} {tb : Lift V} (hy : σ.siteYieldBlocks.length = sites.length)
    (hr : σ.siteResumes.length = sites.length) (h : lift liveness options σ sites = some tb) :
    tb.slots = ((⟨[], options.reservedSlots⟩ : Slots V).entries (liveAtSites liveness sites)).2 ∧
      tb.yieldSaves = tableOf liveness tb.slots.slotFor sites σ.siteYieldBlocks ∧
      tb.resumeLoads = tableOf liveness tb.slots.slotFor sites σ.siteResumes := by
  have h0 := lift_foldlM_eq (n := 0) (by rw [hy, Nat.zero_add]) (by rw [hr, Nat.zero_add]) h
  simpa using h0

/-- The slots of the live values, when they do not wrap. -/
theorem slotsOk_entries (hbound : r + all.dedup.length < 2 ^ 32) : SlotsOk r all ((⟨[], r⟩ : Slots V).entries all).2 :=
  SlotsOk.start.entries hbound fun _ hv => hv

end

section
variable (hbound : r + all.dedup.length < 2 ^ 32)
include hbound

/-- Different live values have different slots, and the slots are `r`, `r + 1`, .. -/
theorem slot_entries_inj {w : V} (hv : v ∈ all) (hw : w ∈ all)
    (heq : ((⟨[], r⟩ : Slots V).entries all).2.slotFor v = ((⟨[], r⟩ : Slots V).entries all).2.slotFor w) : v = w := by
  obtain ⟨n, hn⟩ := ((⟨[], r⟩ : Slots V).get_entries all).1 v hv
  obtain ⟨n', hn'⟩ := ((⟨[], r⟩ : Slots V).get_entries all).1 w hw
  rw [Slots.slotFor_eq hn, Slots.slotFor_eq hn'] at heq
  exact (slotsOk_entries hbound).inj hn (heq ▸ hn')

theorem exists_slot_entries (n : ℕ) :
    (∃ v ∈ all, ((⟨[], r⟩ : Slots V).entries all).2.slotFor v = n) ↔ r ≤ n ∧ n < r + all.dedup.length := by
  have hok := slotsOk_entries hbound
  have hall := ((⟨[], r⟩ : Slots V).get_entries all).1
  set m := ((⟨[], r⟩ : Slots V).entries all).2
  have hkeys : (m.slotOf.map (·.1)).Perm all.dedup := by
    refine (List.perm_ext_iff_of_nodup hok.keys (List.nodup_dedup _)).mpr fun v => ?_
    rw [List.mem_dedup]
    constructor
    · intro hv
      obtain ⟨x, hx, rfl⟩ := List.mem_map.mp hv
      exact hok.sub x hx
    · intro hv
      obtain ⟨n, hn⟩ := hall v hv
      exact List.mem_map_of_mem (hok.get_eq_some.mp hn)
  have hlen : m.slotOf.length = all.dedup.length := by simpa using hkeys.length_eq
  have hrange : n ∈ m.slotOf.map (·.2) ↔ r ≤ n ∧ n < r + all.dedup.length := by
    rw [hok.slots, List.mem_range'_1, hlen]
  rw [← hrange, List.mem_map]
  constructor
  · rintro ⟨v, hv, rfl⟩
    obtain ⟨n, hn⟩ := hall v hv
    exact ⟨(v, n), hok.get_eq_some.mp hn, (Slots.slotFor_eq hn).symm⟩
  · rintro ⟨x, hx, rfl⟩
    exact ⟨x.1, hok.sub x hx, Slots.slotFor_eq (hok.get_eq_some.mpr hx)⟩

end

/-- A layout that the transform returns passes the validator exactly when the function is suspending. -/
theorem validate_transform_iff (cfg : Cfg S) (fnId : F) (isSuspending : F → Bool)
    (classify : Cfg S → ℕ → ℕ → Option (SuspensionSite F V)) (liveness : LivenessMap V) (options : TransformOptions)
    (cfg' : Cfg S) (l : StateMachineLayout F V) (hnd : ∀ b i, (liveness.lookup b i).Nodup)
    (hbound : options.reservedSlots + (liveAtSites liveness (scan cfg classify)).dedup.length ≤ 2 ^ 32 - 1)
    (h : transformToStateMachineWithOptions cfg fnId isSuspending classify liveness options = some (cfg', l)) :
    validateLayout l (options.reservedSlots + (liveAtSites liveness (scan cfg classify)).dedup.length) = .ok () ↔
      isSuspending fnId = true := by
  constructor
  · intro hok
    by_contra hsus
    have hl : l = ⟨[], [], [], [], []⟩ := by
      have hfalse : isSuspending fnId = false := by simpa using hsus
      simp only [transformToStateMachineWithOptions, hfalse, Bool.not_false, if_true] at h
      exact (congrArg Prod.snd (Option.some.inj h)).symm
    have hcount := (validateLayout_eq_ok.mp hok).1
    rw [hl] at hcount
    cases hcount
  · intro hsus
    obtain ⟨e, he⟩ := head?_of_transform hsus h
    obtain ⟨σ, tails, ys, rs, tb, h', hR, htb, heq⟩ := transform_eq classify liveness options he hsus
    obtain ⟨rfl, rfl⟩ := Prod.mk.inj (Option.some.inj (heq.symm.trans h))
    obtain ⟨hslots, hsaves, hloads⟩ := lift_eq (by rw [hR.siteYields, hR.lengths.1]) (by rw [hR.siteResumes, hR.lengths.2]) htb
    have hlt : options.reservedSlots + (liveAtSites liveness (scan cfg classify)).dedup.length < 2 ^ 32 := by omega
    have hinj : ∀ v ∈ liveAtSites liveness (scan cfg classify), ∀ w ∈ liveAtSites liveness (scan cfg classify),
        tb.slots.slotFor v = tb.slots.slotFor w → v = w := by
      rw [hslots]
      exact fun v hv w hw => slot_entries_inj hlt hv hw
    have hslotlt : ∀ v ∈ liveAtSites liveness (scan cfg classify),
        tb.slots.slotFor v < options.reservedSlots + (liveAtSites liveness (scan cfg classify)).dedup.length := by
      rw [hslots]
      exact fun v hv => ((exists_slot_entries hlt _).mp ⟨v, hv, rfl⟩).2
    refine validateLayout_eq_ok.mpr ⟨by rw [(hR.tabled h').entries, (hR.tabled h').yields], ?_, ?_, fun slot => ?_⟩
    · intro z hz
      exact entriesOk_of_mem_tableOf hinj hslotlt hnd (hsaves ▸ hz)
    · intro z hz
      exact entriesOk_of_mem_tableOf hinj hslotlt hnd (hloads ▸ hz)
    · rw [hsaves, hloads, mem_slotsOf_tableOf (by rw [hR.siteYields, hR.lengths.1]),
        mem_slotsOf_tableOf (by rw [hR.siteResumes, hR.lengths.2])]

/-- The validator refuses the trivial layout of a function that does not suspend. -/
theorem trivial_layout_refused :
    ∃ cfg' l, transformToStateMachineWithOptions sampleCfg 0 (fun _ => false) sampleClassify (⟨[]⟩ : LivenessMap ℕ) ⟨0⟩ =
      some (cfg', l) ∧
      validateLayout l (0 + (liveAtSites ⟨[]⟩ (scan sampleCfg sampleClassify)).dedup.length) ≠ .ok () :=
  ⟨sampleCfg, ⟨[], [], [], [], []⟩, rfl, by decide⟩

/-- The transform of the sample as a suspending function, with one value live at each site and three slots
    reserved. -/
def sampleRun : Cfg ℕ × StateMachineLayout ℕ ℕ :=
  (transformToStateMachineWithOptions sampleCfg 0 (fun _ => true) sampleClassify
    ⟨[((0, 1), [42]), ((0, 3), [43, 42])]⟩ ⟨3⟩).get rfl

theorem validate_transform_iff_sample :
    validateLayout sampleRun.2 (3 + (liveAtSites ⟨[((0, 1), [42]), ((0, 3), [43, 42])]⟩
      (scan sampleCfg sampleClassify)).dedup.length) = .ok () ↔ true = true :=
  validate_transform_iff sampleCfg 0 (fun _ => true) sampleClassify ⟨[((0, 1), [42]), ((0, 3), [43, 42])]⟩ ⟨3⟩
    sampleRun.1 sampleRun.2 (lookup_nodup (by decide)) (by decide) (Option.eq_some_of_isSome rfl)

end Krio.Async
