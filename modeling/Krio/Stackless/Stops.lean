import Mathlib.Data.List.Pairwise
import Krio.Stackless.Resumption
import Krio.Stackless.Scan

/-! The order of a scan: which stop of a member polls it, and what a scan has come by before. -/

namespace Krio.Stackless

variable {U : Type} {hooks : Hooks U} {cfg : Body U} {r : Region} {ms : List Machine} {l site : ℕ} {bands : List Band} {s s' : Stop}

theorem mem_stops {band : Band} {half : Bool} : s ∈ band.stops half ↔
    ∃ i m, band.members[i]? = some m ∧ s = ⟨m, band.last, band.sweep, band.members.length, i, half⟩ := by
  rw [List.mem_iff_getElem?]
  refine exists_congr fun i => ?_
  rw [Band.stops, List.getElem?_mapIdx, Option.map_eq_some_iff]
  exact exists_congr fun m => and_congr_right fun _ => eq_comm

/-- The stops: two for each member of each band. -/
theorem mem_scanStops : s ∈ scanStops bands ↔ ∃ band ∈ bands, ∃ i m, band.members[i]? = some m ∧
    s = ⟨m, band.last, band.sweep, band.members.length, i, s.second⟩ := by
  rw [scanStops, List.mem_flatMap]
  refine exists_congr fun band => and_congr_right fun _ => ?_
  rw [List.mem_append, mem_stops, mem_stops]
  constructor
  · rintro (⟨i, m, hm, rfl⟩ | ⟨i, m, hm, rfl⟩)
    · exact ⟨i, m, hm, rfl⟩
    · exact ⟨i, m, hm, rfl⟩
  · rintro ⟨i, m, hm, hs⟩
    cases hsec : s.second with
    | false => exact .inl ⟨i, m, hm, hsec ▸ hs⟩
    | true => exact .inr ⟨i, m, hm, hsec ▸ hs⟩

/-! ## Which stop polls -/

/-- Where `last` is `v`, the stop polls its machine. -/
def Stop.Due (s : Stop) (v : ℤ) : Prop := s.second = true ↔ v ∈ s.later

instance (s : Stop) (v : ℤ) : Decidable (s.Due v) := inferInstanceAs (Decidable (_ ↔ _))

theorem Stop.mem_later {v : ℤ} : v ∈ s.later ↔ ∃ i : ℕ, v = i ∧ s.index ≤ i ∧ i < s.index + (s.size - s.index) := by
  rw [Stop.later, List.mem_map]
  refine exists_congr fun i => ?_
  rw [List.mem_range'_1, eq_comm, and_comm]

/-- Of a member's two stops one polls. -/
theorem Stop.due_twin {v : ℤ} : s.twin.Due v ↔ ¬s.Due v := by
  have hlater : s.twin.later = s.later := rfl
  rw [Stop.Due, Stop.Due, hlater, Stop.twin]
  cases s.second <;> simp

/-- A stop comes before another of its band: in an earlier half, or in the same one with a smaller index. -/
def Stop.Before (s s' : Stop) : Prop := s.second = false ∧ s'.second = true ∨ s.second = s'.second ∧ s.index < s'.index

/-- `j` comes after `k` and not after `l`, going round. -/
def Cyclic (k l j : ℕ) : Prop := k < l ∧ k < j ∧ j ≤ l ∨ l < k ∧ (k < j ∨ j ≤ l)

theorem Cyclic.trans {i j k l : ℕ} (h : Cyclic i k j) (h' : Cyclic k l j) : Cyclic i l j := by
  simp only [Cyclic] at h h' ⊢
  omega

theorem not_cyclic_self {k j : ℕ} : ¬Cyclic k k j := by
  simp only [Cyclic]
  omega

/-- Where both stops of a band poll and one comes later than the other, its member comes round before the one that ran
    last. -/
theorem Stop.Before.cyclic {k : ℕ} (h : s.Before s') (hsize : s'.size = s.size) (hlt : k < s.size) (hdue : s.Due k)
    (hdue' : s'.Due k) : Cyclic s.index k s'.index := by
  have hmem : ∀ {s : Stop}, k < s.size → ((k : ℤ) ∈ s.later ↔ s.index ≤ k) := fun {s} hlt => by
    rw [Stop.mem_later]
    constructor
    · rintro ⟨i, hi, h1, h2⟩
      rw [Int.ofNat.inj hi]
      exact h1
    · exact fun hle => ⟨k, rfl, hle, by omega⟩
  rw [Stop.Due, hmem hlt] at hdue
  rw [Stop.Due, hmem (hsize.symm ▸ hlt)] at hdue'
  rw [Cyclic]
  rcases h with ⟨h1, h2⟩ | ⟨h1, h2⟩
  · have hk : ¬s.index ≤ k := fun hle => by simp [hdue.mpr hle] at h1
    have hk' := hdue'.mp h2
    omega
  · rw [h1] at hdue
    have hiff := hdue.symm.trans hdue'
    omega

/-! ## The stops of the bands -/

theorem nodup_of_map_range' {α : Type*} {f : α → ℕ} {xs : List α} {a n : ℕ} (h : xs.map f = List.range' a n) {x y : α}
    (hx : x ∈ xs) (hy : y ∈ xs) (heq : f x = f y) : x = y :=
  List.inj_on_of_nodup_map (h ▸ List.nodup_range') hx hy heq

namespace BandsAt
variable (h : BandsAt r ms l site bands)
include h

theorem band_eq {band band' : Band} (hb : band ∈ bands) (hb' : band' ∈ bands) (heq : band.last = band'.last) : band = band' :=
  nodup_of_map_range' h.last hb hb' heq

theorem locals_of_mem (hs : s ∈ scanStops bands) : l ≤ s.last ∧ s.last < l + bands.length ∧ l + bands.length ≤ s.sweep ∧
    s.sweep < l + 2 * bands.length ∧ s.index < s.size := by
  obtain ⟨band, hband, i, m, hm, hs⟩ := mem_scanStops.mp hs
  have hlast : band.last ∈ List.range' l bands.length := h.last ▸ List.mem_map_of_mem hband
  have hsweep : band.sweep ∈ List.range' (l + bands.length) bands.length := h.sweep ▸ List.mem_map_of_mem hband
  rw [List.mem_range'_1] at hlast hsweep
  have hlt := (List.getElem?_eq_some_iff.mp hm).1
  have hsweep' : band.sweep < l + 2 * bands.length := by omega
  rw [hs]
  exact ⟨hlast.1, hlast.2, hsweep.1, hsweep', hlt⟩

theorem members_nodup (hnodup : ms.Nodup) : (∀ band ∈ bands, band.members.Nodup) ∧
    ∀ band ∈ bands, ∀ band' ∈ bands, ∀ m ∈ band.members, m ∈ band'.members → band = band' := by
  have hflat : ((bands.map (·.members)).flatten).Nodup := by
    rw [h.members]
    exact (members_perm r ms).nodup_iff.mpr hnodup
  obtain ⟨h1, h2⟩ := List.nodup_flatten.mp hflat
  refine ⟨fun band hb => h1 _ (List.mem_map_of_mem hb), fun band hb band' hb' m hm hm' => ?_⟩
  by_contra hne
  have hsymm : Std.Symm fun band band' : Band => band.members.Disjoint band'.members := ⟨fun _ _ hd _ hx hx' => hd hx' hx⟩
  exact (List.pairwise_map.mp h2).forall hb hb' hne hm hm'

theorem same_band (hnodup : ms.Nodup) (hs : s ∈ scanStops bands) (hs' : s' ∈ scanStops bands) (heq : s.last = s'.last) :
    s.sweep = s'.sweep ∧ s.size = s'.size ∧ (s.machine = s'.machine ↔ s.index = s'.index) := by
  obtain ⟨band, hband, i, m, hm, hs⟩ := mem_scanStops.mp hs
  obtain ⟨band', hband', j, m', hm', hs'⟩ := mem_scanStops.mp hs'
  rw [hs, hs'] at heq ⊢
  obtain rfl := h.band_eq hband hband' heq
  refine ⟨rfl, rfl, fun hmm => ?_, fun hij => ?_⟩
  · have hmm' : m = m' := hmm
    exact (List.getElem?_inj (List.getElem?_eq_some_iff.mp hm).1 ((h.members_nodup hnodup).1 _ hband)).mp
      (hm.trans (hmm' ▸ hm'.symm))
  · have hij' : i = j := hij
    rw [hij', hm'] at hm
    exact (Option.some.inj hm).symm

theorem same_machine (hnodup : ms.Nodup) (hs : s ∈ scanStops bands) (hs' : s' ∈ scanStops bands) (heq : s.machine = s'.machine) :
    s.last = s'.last := by
  obtain ⟨band, hband, i, m, hm, hs⟩ := mem_scanStops.mp hs
  obtain ⟨band', hband', j, m', hm', hs'⟩ := mem_scanStops.mp hs'
  rw [hs, hs'] at heq ⊢
  have hmm : m = m' := heq
  have hmem := List.mem_of_getElem? hm
  rw [(h.members_nodup hnodup).2 band hband band' hband' m hmem (hmm ▸ List.mem_of_getElem? hm')]

/-- The scan comes to the stops of a band in their order. -/
theorem ordered : (scanStops bands).Pairwise fun s s' => s.last = s'.last → s.Before s' := by
  refine List.pairwise_flatMap.mpr ⟨fun band _ => ?_, ?_⟩
  · have hhalf : ∀ half, (band.stops half).Pairwise fun s s' => s.last = s'.last → s.Before s' := by
      intro half
      refine List.pairwise_iff_getElem.mpr fun i j hi hj hij _ => ?_
      simp only [Band.stops, List.getElem_mapIdx]
      exact .inr ⟨rfl, hij⟩
    refine List.pairwise_append.mpr ⟨hhalf false, hhalf true, fun x hx y hy _ => ?_⟩
    obtain ⟨i, m, -, rfl⟩ := mem_stops.mp hx
    obtain ⟨j, m', -, rfl⟩ := mem_stops.mp hy
    exact .inl ⟨rfl, rfl⟩
  · have hlasts : (bands.map (·.last)).Nodup := h.last ▸ List.nodup_range'
    refine (List.pairwise_map.mp hlasts).imp fun {band band'} hne x hx y hy heq => ?_
    have hof : ∀ {b : Band} {x : Stop}, x ∈ b.stops false ++ b.stops true → x.last = b.last := fun hx => by
      rcases List.mem_append.mp hx with hx | hx
      · obtain ⟨i, m, -, rfl⟩ := mem_stops.mp hx
        rfl
      · obtain ⟨i, m, -, rfl⟩ := mem_stops.mp hx
        rfl
    rw [hof hx, hof hy] at heq
    exact absurd heq hne

/-- When the scan polls at `s`, it has come by the other members of the band already, but for those that come round
    before the one that ran last. -/
theorem passed_or_cyclic (hnodup : ms.Nodup) {passed rest : List Stop} (hss : scanStops bands = passed ++ s :: rest)
    (hs' : s' ∈ scanStops bands) (heq : s.last = s'.last) (hne : s.machine ≠ s'.machine) {v : ℤ} (hdue : s.Due v) :
    (∃ x ∈ passed, x.machine = s'.machine ∧ x.last = s'.last ∧ x.Due v) ∨
      ∀ k : ℕ, v = k → k < s.size → Cyclic s.index k s'.index := by
  obtain ⟨x, hx, hmachine, hlast, hindex, hxdue⟩ : ∃ x ∈ scanStops bands, x.machine = s'.machine ∧ x.last = s'.last ∧
      x.index = s'.index ∧ x.Due v := by
    by_cases hd : s'.Due v
    · exact ⟨s', hs', rfl, rfl, rfl, hd⟩
    · exact ⟨s'.twin, twin_mem hs', rfl, rfl, rfl, Stop.due_twin.mpr hd⟩
  have hs : s ∈ scanStops bands := hss ▸ List.mem_append_right _ List.mem_cons_self
  have hxs : s.last = x.last := heq.trans hlast.symm
  rw [hss] at hx
  rcases List.mem_append.mp hx with hx | hx
  · exact .inl ⟨x, hx, hmachine, hlast, hxdue⟩
  · refine .inr fun k hv hk => ?_
    rcases List.mem_cons.mp hx with rfl | hrest
    · exact absurd hmachine hne
    · have hordered := h.ordered
      rw [hss] at hordered
      have hbefore := (List.pairwise_cons.mp (List.pairwise_append.mp hordered).2.1).1 x hrest hxs
      have hsize := (h.same_band hnodup hs (hss ▸ List.mem_append_right _ hx) hxs).2.1
      rw [← hindex]
      exact hbefore.cyclic hsize.symm hk (hv ▸ hdue) (hv ▸ hxdue)

end BandsAt

/-- Members of one band. -/
def Mates (bands : List Band) (m m' : Machine) : Prop := ∃ band ∈ bands, m ∈ band.members ∧ m' ∈ band.members ∧ m ≠ m'

theorem Mates.stops {m m' : Machine} (h : Mates bands m m') : ∃ s ∈ scanStops bands, ∃ s' ∈ scanStops bands,
    s.machine = m ∧ s'.machine = m' ∧ s.last = s'.last := by
  obtain ⟨band, hband, hm, hm', -⟩ := h
  obtain ⟨i, hi⟩ := List.mem_iff_getElem?.mp hm
  obtain ⟨j, hj⟩ := List.mem_iff_getElem?.mp hm'
  exact ⟨⟨m, band.last, band.sweep, band.members.length, i, true⟩, mem_scanStops.mpr ⟨band, hband, i, m, hi, rfl⟩,
    ⟨m', band.last, band.sweep, band.members.length, j, true⟩, mem_scanStops.mpr ⟨band, hband, j, m', hj, rfl⟩, rfl, rfl, rfl⟩

/-! ## Where the blocks of a stop lead -/

theorem switchTarget_const {v : ℤ} {o t : ℕ} {vs : List ℤ} :
    switchTarget v o (vs.map fun w => (w, t)) = if v ∈ vs then t else o := by
  induction vs with
  | nil => rfl
  | cons w vs ih =>
    rw [List.map_cons, switchTarget, ih]
    by_cases hv : v = w
    · rw [if_pos hv, if_pos (hv ▸ List.mem_cons_self)]
    · rw [if_neg hv]
      exact if_congr ⟨List.mem_cons_of_mem _, fun hmem => (List.mem_cons.mp hmem).resolve_left hv⟩ rfl rfl

section
variable {host : Host U} {P Q : ℕ → Prop} {top b next : ℕ} {a : StopBlocks} (h : StopAt cfg P Q top s a b next) (σ : Store host)
include h

theorem StopAt.run_site : (runBlock cfg b σ).place = .block (if s.Due (σ.locals s.last) then a.poll else next) ∧
    (runBlock cfg b σ).store = σ.note (.enter b) := by
  rw [runBlock_of h.site]
  refine ⟨congrArg At.block ?_, rfl⟩
  have hlocals : (execAll (σ.note (.enter b)) []).locals = σ.locals := rfl
  rw [hlocals, switchTarget_const]
  by_cases hv : σ.locals s.last ∈ s.later
  · by_cases hsec : s.second = true
    · simp [Stop.Due, hv, hsec]
    · simp [Stop.Due, hv, hsec]
  · by_cases hsec : s.second = true
    · simp [Stop.Due, hv, hsec]
    · simp [Stop.Due, hv, hsec]

theorem StopAt.run_poll (hne : a.done ≠ s.sweep) (hstate : s.machine.stateLocal ≠ s.sweep) :
    (runBlock cfg a.poll σ).place =
        .block (if σ.locals s.machine.stateLocal = doneState then next else s.machine.dispatchBb) ∧
      (runBlock cfg a.poll σ).store.log = .set s.sweep s.half :: .enter a.poll :: σ.log ∧
      (runBlock cfg a.poll σ).store.locals s.sweep = s.half ∧
      ∀ x, x ≠ s.sweep → x ≠ a.done → (runBlock cfg a.poll σ).store.locals x = σ.locals x := by
  rw [runBlock_of h.poll]
  refine ⟨?_, rfl, ?_, fun x hx hx' => ?_⟩
  · simp only [execAll, List.foldl_cons, List.foldl_nil, Stmt.exec, leads, Store.assign, Store.note, Function.update_self,
      Function.update_of_ne hstate]
    by_cases hdone : σ.locals s.machine.stateLocal = doneState
    · simp [ofBool, hdone]
    · simp [ofBool, hdone]
  · exact (Function.update_of_ne hne.symm _ _).trans (Function.update_self _ _ _)
  · exact (Function.update_of_ne hx' _ _).trans (Function.update_of_ne hx _ _)

theorem StopAt.run_exit : (runBlock cfg s.machine.exitBb σ).place = .block a.after ∧
    (runBlock cfg s.machine.exitBb σ).store = σ.note (.enter s.machine.exitBb) := by
  rw [runBlock_of h.exit]
  exact ⟨rfl, rfl⟩

theorem StopAt.run_after : (runBlock cfg a.after σ).place =
      .block (if σ.locals s.machine.pollResultLocal = pollBlocked then a.passOn else a.ran) ∧
    (runBlock cfg a.after σ).store.log = .enter a.after :: σ.log ∧
    ∀ x, x ≠ a.blocked → (runBlock cfg a.after σ).store.locals x = σ.locals x := by
  rw [runBlock_of h.after]
  refine ⟨?_, rfl, fun x hx => Function.update_of_ne hx _ _⟩
  simp only [execAll, List.foldl_cons, List.foldl_nil, Stmt.exec, leads, Store.note, Function.update_self]
  by_cases hblocked : σ.locals s.machine.pollResultLocal = pollBlocked
  · simp [ofBool, hblocked]
  · simp [ofBool, hblocked]

theorem StopAt.run_ran : runBlock cfg a.ran σ = ⟨.block top, (σ.note (.enter a.ran)).assign s.last s.index⟩ := by
  rw [runBlock_of h.ran]
  rfl

theorem StopAt.run_passOn (hsweep : σ.locals s.sweep = s.half) : runBlock cfg a.passOn σ =
    ⟨.block next, σ.note (.enter a.passOn)⟩ := by
  obtain ⟨first, second, hblock, hnext⟩ := h.passOn
  rw [runBlock_of hblock, hnext]
  have hlocals : (execAll (σ.note (.enter a.passOn)) []).locals s.sweep = s.half := hsweep
  simp only [leads, hlocals, Stop.half, switchTarget]
  cases s.second <;> rfl

end

end Krio.Stackless
