import Krio.Stackless.PriorityFair
import Krio.Stackless.Rounds

/-! The order of the bands: while a coroutine of one band is polled, those of the more urgent bands have all been looked at. -/

namespace Krio.Stackless
open StateTransition

variable {U : Type} {host : Host U} {hooks : Hooks U} {cfg cfg' : Body U} {r : Region} {start n stuck hi l0 i j : ℕ}
  {ms : List Machine} {bands : List Band}

/-! ## Urgency -/

/-- Coroutine `j` is in a band before that of `i`. -/
def Ahead (r : Region) (j i : ℕ) : Prop :=
  ∃ before band rest, bandsOf r r.coroutines.length = before ++ band :: rest ∧ i ∈ band ∧ ∃ band' ∈ before, j ∈ band'

/-- The members of a band have one priority. -/
def OnePriority (r : Region) (bands : List (List ℕ)) : Prop :=
  ∀ band ∈ bands, ∀ i ∈ band, ∀ j ∈ band, priorityOf r i = priorityOf r j

theorem OnePriority.join {bands : List (List ℕ)} (h : OnePriority r bands) (i : ℕ) : OnePriority r (joinBand r bands i) := by
  obtain ⟨init, first, rest, rfl, hp, heq⟩ | ⟨-, heq⟩ := joinBand_cases r bands i
  · rw [heq]
    intro band hband x hx y hy
    rcases List.mem_append.mp hband with hband | hband
    · exact h band (List.mem_append_left _ hband) x hx y hy
    · obtain rfl := List.mem_singleton.mp hband
      have hall : ∀ x ∈ (first :: rest) ++ [i], priorityOf r x = priorityOf r i := fun x hx => by
        rcases List.mem_append.mp hx with hx | hx
        · exact (h _ (List.mem_append_right _ (List.mem_singleton_self _)) x hx first List.mem_cons_self).trans hp
        · rw [List.mem_singleton.mp hx]
      exact (hall x hx).trans (hall y hy).symm
  · rw [heq]
    intro band hband x hx y hy
    rcases List.mem_append.mp hband with hband | hband
    · exact h band hband x hx y hy
    · obtain rfl := List.mem_singleton.mp hband
      rw [List.mem_singleton.mp hx, List.mem_singleton.mp hy]

theorem bandsOf_onePriority (r : Region) (count : ℕ) : OnePriority r (bandsOf r count) := by
  have hfold : ∀ (l : List ℕ) (bands : List (List ℕ)), OnePriority r bands → OnePriority r (l.foldl (joinBand r) bands) := by
    intro l
    induction l with
    | nil => exact fun _ h => h
    | cons i l ih => exact fun bands h => ih _ (h.join i)
  exact hfold _ [] fun _ hband => absurd hband List.not_mem_nil

/-- A coroutine with a smaller key is in a band before. -/
theorem ahead_of_key (hi : i < r.coroutines.length) (hj : j < r.coroutines.length) (hkey : priorityKey r j < priorityKey r i) :
    Ahead r j i := by
  obtain ⟨band, hband, hin⟩ := List.mem_flatten.mp (mem_bandsOf_flatten.mpr hi)
  obtain ⟨before, rest, hsplit⟩ := List.append_of_mem hband
  refine ⟨before, band, rest, hsplit, hin, ?_⟩
  have hsorted : (bandsOf r r.coroutines.length).flatten.Pairwise (beforeOrEq r) := by
    rw [bandsOf_flatten]
    exact List.pairwise_insertionSort _ _
  obtain ⟨band', hband', hin'⟩ := List.mem_flatten.mp (mem_bandsOf_flatten.mpr hj)
  rw [hsplit] at hband' hsorted
  rcases List.mem_append.mp hband' with hband' | hband'
  · exact ⟨band', hband', hin'⟩
  · rcases List.mem_cons.mp hband' with rfl | hband'
    · -- in one band the keys are the same
      have hsame := bandsOf_onePriority r _ band' hband i hin j hin'
      rw [priorityKey_eq, priorityKey_eq, hsame] at hkey
      exact absurd hkey (lt_irrefl _)
    · rw [List.flatten_append, List.flatten_cons] at hsorted
      have hle := (List.pairwise_append.mp (List.pairwise_append.mp hsorted).2.1).2.2 i hin j
        (List.mem_flatten.mpr ⟨band', hband', hin'⟩)
      rw [beforeOrEq] at hle
      omega

/-! ## Dispatches -/

section
variable {σ : Store host} {m : Machine}
variable (h : Looped hooks cfg cfg' r start ms bands n stuck hi l0)
include h

/-- A machine is dispatched from a stop of the scan. -/
theorem Looped.at_dispatch (hc : Held hooks cfg cfg' r start ms bands n stuck hi l0 ⟨.block m.dispatchBb, σ⟩) (hm : m ∈ ms) :
    ∃ passed s rest, scanStops bands = passed ++ s :: rest ∧ s.machine = m ∧
      Scanning hooks cfg cfg' r start ms bands n passed σ := by
  obtain ⟨hnew, hnot⟩ := h.staged.dispatch m hm
  obtain ⟨h1, h2⟩ := h.loop.stuck_mem
  generalize hb : m.dispatchBb = b at hc
  rw [hb] at hnew hnot
  cases hc with
  | outside plain turns attended left =>
    have hlt := h.staged.marked.plain_lt (plain b rfl)
    omega
  | init settled fresh => exact absurd (.inl ⟨by omega, by omega⟩) hnot
  | top settled ordered => exact absurd (.inl ⟨by omega, by omega⟩) hnot
  | site split here goOn scan => exact absurd (h.executes_scan here.mem.1).1 hnot
  | poll polling => exact absurd (h.executes_scan polling.here.mem.2.1).1 hnot
  | @dispatch σ passed rest s a b next polling sweep waits =>
    have hs : s ∈ scanStops bands := polling.split ▸ List.mem_append_right _ List.mem_cons_self
    exact ⟨passed, s, rest, polling.split, (h.staged.eq_of_dispatch hm (h.machine_mem hs) hb).symm, polling.scan⟩
  | turn polling sweep waits hd hF lowered live =>
    exact absurd hb.symm ((h.staged.aside hd hF lowered live.going live.part).dispatch m hm)
  | blocked split here goOn scan sweep result hplace =>
    obtain ⟨-, -, hPa, -, hPp, hPe⟩ := here.mem
    rcases hplace with rfl | rfl | rfl
    · exact absurd (h.executes_scan hPe).1 hnot
    · exact absurd (h.executes_scan hPa).1 hnot
    · exact absurd (h.executes_scan hPp).1 hnot
  | ran hs here settled ordered result hplace =>
    obtain ⟨-, -, hPa, hPr, -, hPe⟩ := here.mem
    rcases hplace with rfl | rfl | rfl
    · exact absurd (h.executes_scan hPe).1 hnot
    · exact absurd (h.executes_scan hPa).1 hnot
    · exact absurd (h.executes_scan hPr).1 hnot
  | check checks known hdone scan =>
    have hcheck : CheckBlock n stuck hi b := by
      cases checks with
      | done mem _ => exact mem
      | check mem _ _ _ => exact mem
    exact absurd (.inl ⟨by omega, by omega⟩) hnot
  | noProgress scan waits => exact absurd (.inl ⟨by omega, by omega⟩) hnot
  | stuck scan waits shut => exact absurd (.inl ⟨by omega, by omega⟩) hnot
  | exit settled hdone => exact absurd (.inl ⟨by omega, by omega⟩) hnot
  | post settled left => exact absurd (.inl ⟨by omega, by omega⟩) hnot

/-- A scan that has come to a member of a band has come by all stops of the bands before it. -/
theorem Looped.passed_before {before rest : List Band} {band : Band} (hbands : bands = before ++ band :: rest) (hm : m ∈ band.members)
    {passed after : List Stop} {s : Stop} (hsplit : scanStops bands = passed ++ s :: after) (hs : s.machine = m) :
    scanStops before ⊆ passed := by
  have hstops : scanStops bands = scanStops before ++ scanStops (band :: rest) := by rw [hbands, scanStops, List.flatMap_append]; rfl
  -- `s` belongs to no band before
  have hnot : s ∉ scanStops before := fun hin => by
    obtain ⟨band', hband', k, m', hm', heq⟩ := mem_scanStops.mp hin
    have hmm : m' = m := (congrArg Stop.machine heq).symm.trans hs
    have hmem : m ∈ band'.members := hmm ▸ List.mem_of_getElem? hm'
    have hin' : band' ∈ bands := hbands ▸ List.mem_append_left _ hband'
    have hin'' : band ∈ bands := hbands ▸ List.mem_append_right _ List.mem_cons_self
    obtain rfl := (h.bands_at.members_nodup h.nodup).2 band' hin' band hin'' m hmem hm
    have hnodup : (bands.map (·.last)).Nodup := h.bands_at.last ▸ List.nodup_range'
    rw [hbands, List.map_append, List.map_cons] at hnodup
    exact (List.nodup_append.mp hnodup).2.2 _ (List.mem_map_of_mem hband') _ List.mem_cons_self rfl
  rw [hstops] at hsplit
  rcases List.append_eq_append_iff.mp hsplit with ⟨between, rfl, -⟩ | ⟨between, hbefore, hafter⟩
  · exact List.subset_append_left _ _
  · cases between with
    | nil =>
      rw [List.append_nil] at hbefore
      rw [hbefore]
      exact List.Subset.refl _
    | cons x between =>
      obtain ⟨rfl, -⟩ := List.cons.inj hafter
      exact absurd (hbefore ▸ List.mem_append_right _ List.mem_cons_self) hnot

/-- The loop's bands hold the machines of the region's bands. -/
theorem Looped.bands_split {before rest : List (List ℕ)} {band : List ℕ} (hsplit : bandsOf r r.coroutines.length = before ++ band :: rest) :
    ∃ before' band' rest', bands = before' ++ band' :: rest' ∧ before'.map (·.members) = before.map (·.filterMap (ms[·]?)) ∧
      band'.members = band.filterMap (ms[·]?) := by
  have hmembers := h.bands_at.members
  rw [h.staged.count, hsplit, List.map_append, List.map_cons] at hmembers
  obtain ⟨before', rest', rfl, hbefore, hrest⟩ := List.map_eq_append_iff.mp hmembers
  obtain ⟨band', rest', rfl, hband, -⟩ := List.map_eq_cons_iff.mp hrest
  exact ⟨before', band', rest', rfl, hbefore, hband⟩

/-- While a machine is dispatched, the coroutines of the bands before have been polled in this scan, and blocked. -/
theorem Looped.ahead_blocked (hc : Held hooks cfg cfg' r start ms bands n stuck hi l0 ⟨.block m.dispatchBb, σ⟩) (hm : ms[i]? = some m)
    (hahead : Ahead r j i) {m' : Machine} {c : Coroutine} (hm' : ms[j]? = some m') (hco : r.coroutines[j]? = some c) :
    Finished r c σ.log ∨ PolledBlocked (n + 3) m' σ.log := by
  obtain ⟨before, band, rest, hsplit, hin, band₁, hband₁, hj⟩ := hahead
  obtain ⟨before', band', rest', hbands, hbefore, hband⟩ := h.bands_split hsplit
  obtain ⟨passed, s, after, hstops, hs, hscan⟩ := h.at_dispatch hc (List.mem_of_getElem? hm)
  have hmem : m ∈ band'.members := hband ▸ List.mem_filterMap.mpr ⟨i, hin, hm⟩
  have hpassed := h.passed_before hbands hmem hstops hs
  -- the stop of `m'` that polls it in this scan
  obtain ⟨band₂, hband₂, hmembers⟩ := List.mem_map.mp (hbefore ▸ List.mem_map_of_mem hband₁)
  have hmem' : m' ∈ band₂.members := hmembers ▸ List.mem_filterMap.mpr ⟨j, hj, hm'⟩
  obtain ⟨k, hk⟩ := List.mem_iff_getElem?.mp hmem'
  have hstop : ∀ half, (⟨m', band₂.last, band₂.sweep, band₂.members.length, k, half⟩ : Stop) ∈ scanStops before' := fun half =>
    mem_scanStops.mpr ⟨band₂, hband₂, k, m', hk, rfl⟩
  have hd : Drives r ms m' c := ⟨j, hco, hm'⟩
  by_cases hdue : Stop.Due ⟨m', band₂.last, band₂.sweep, band₂.members.length, k, false⟩ (σ.locals band₂.last)
  · exact hscan.passed _ (hpassed (hstop false)) hdue c hd
  · exact hscan.passed _ (hpassed (hstop true)) (Stop.due_twin.mpr hdue) c hd

end

/-! ## Runs -/

/-- What a priority loop keeps to whenever it dispatches a machine. -/
structure KeepsPriority (r : Region) (ms : List Machine) (loop : Loop) (c : Conf host) : Prop where
  /-- Since the scan began, no poll has ended unblocked. -/
  idle : ∀ m ∈ ms, c.place = .block m.dispatchBb → ∀ m' ∈ ms, ∀ v, .set m'.pollResultLocal v ∈ since loop.loopBb c.store.log →
    v = pollBlocked
  /-- Since then every unfinished coroutine of the bands before has been polled, and blocked. -/
  ahead : ∀ i m, ms[i]? = some m → c.place = .block m.dispatchBb → ∀ j m' co, Ahead r j i → ms[j]? = some m' →
    r.coroutines[j]? = some co → Finished r co c.store.log ∨ PolledBlocked loop.loopBb m' c.store.log
  /-- So has every unfinished one with a smaller priority. -/
  urgent : ∀ i m, ms[i]? = some m → c.place = .block m.dispatchBb → ∀ j m' co, priorityKey r j < priorityKey r i →
    ms[j]? = some m' → r.coroutines[j]? = some co → Finished r co c.store.log ∨ PolledBlocked loop.loopBb m' c.store.log

theorem Looped.keepsPriority (h : Looped hooks cfg cfg' r start ms bands n stuck hi l0) {c : Conf host}
    (hc : Held hooks cfg cfg' r start ms bands n stuck hi l0 c) : KeepsPriority r ms ⟨n + 3, n, n + 4, stuck⟩ c := by
  have hat : ∀ {b : ℕ}, c.place = .block b → Held hooks cfg cfg' r start ms bands n stuck hi l0 ⟨.block b, c.store⟩ := fun hp =>
    hp ▸ hc
  refine ⟨fun m hm hp m' hm' v hin => ?_, fun i m hm hp j m' co hahead hm' hco => ?_, fun i m hm hp j m' co hkey hm' hco => ?_⟩
  · obtain ⟨passed, s, rest, -, -, hscan⟩ := h.at_dispatch (hat hp) hm
    exact hscan.idle m' hm' v hin
  · exact h.ahead_blocked (hat hp) hm hahead hm' hco
  · have hi := (List.getElem?_eq_some_iff.mp hm).1
    rw [h.staged.count] at hi
    exact h.ahead_blocked (hat hp) hm (ahead_of_key hi (List.getElem?_eq_some_iff.mp hco).1 hkey) hm' hco

/-- In every run that suspends no coroutine at the point whose number stands for a finished one, a priority loop dispatches a
    coroutine only after all unfinished ones of the bands before it have been polled and have blocked, since a poll ended
    unblocked last. -/
theorem priority_loop_keeps_priority (h : Marked hooks cfg r start) (hp : r.coroutines.any (·.priority.isSome) = true)
    (hbelow : ∀ b < cfg.next, ∀ s ∈ cfg.stmts b, s.Below cfg.locals.length) (loops : List Loop) :
    ∃ cfg' loop, transformRegion hooks (cooperative hooks) loops cfg r = (loops ++ [loop], cfg') ∧
      ∀ host : Host U, host.Below cfg.locals.length → ∀ (σ : Store host) (c : Conf host), σ.log = [] →
        Reaches (step cfg') ⟨.block start, σ⟩ c → Unmistaken cfg' (machinesOf hooks cfg r).1 c.store.log →
        KeepsPriority r (machinesOf hooks cfg r).1 loop c := by
  obtain ⟨cfg', bands, n, stuck, hi, l0, heq, hl⟩ := h.looped hp hbelow loops
  refine ⟨cfg', _, heq, fun host hb σ c hlog hreach hnot => ?_⟩
  exact hl.keepsPriority (hl.run hb hreach (hl.held_start hlog) hnot)

/-- Three coroutines, the third in a later band than the others. -/
theorem priority_loop_keeps_priority_crew : ∃ cfg' loop,
    transformRegion (crewHooks true) (cooperative (crewHooks true)) [] crew (crewRegion true) = ([loop], cfg') ∧
    ∀ host : Host CrewStmt, host.Below 0 → ∀ (σ : Store host) (c : Conf host), σ.log = [] →
      Reaches (step cfg') ⟨.block 0, σ⟩ c → Unmistaken cfg' (machinesOf (crewHooks true) crew (crewRegion true)).1 c.store.log →
      KeepsPriority (crewRegion true) (machinesOf (crewHooks true) crew (crewRegion true)).1 loop c :=
  priority_loop_keeps_priority crew_conforms.toMarked rfl (@crew_conforms true).stmts_below []

end Krio.Stackless
