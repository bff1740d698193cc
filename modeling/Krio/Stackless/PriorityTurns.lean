import Krio.Stackless.PriorityScan

/-! What a poll in a scan of a priority loop leaves behind: its band took turns, and the scan goes on where the poll
blocked, or starts again. -/

namespace Krio.Stackless

variable {U : Type} {host : Host U} {hooks : Hooks U} {cfg cfg' : Body U} {r : Region} {start : ℕ} {ms : List Machine}
  {bands : List Band} {n stuck hi l0 : ℕ} {passed rest : List Stop} {s : Stop} {c : Coroutine} {σ τ : Store host}
  {pre post : List (Event U)} {res : ℤ}

section
variable (h : Looped hooks cfg cfg' r start ms bands n stuck hi l0)
include h

/-- Before a stop polls, the others of its band were looked at since its member ran last. -/
theorem Looped.turn_due (hs : Scanning hooks cfg cfg' r start ms bands n passed σ) (hss : scanStops bands = passed ++ s :: rest)
    (hdue : s.Due (σ.locals s.last)) {m' : Machine} {c' : Coroutine} (hmates : Mates bands s.machine m') (hd : Drives r ms m' c')
    (hran : ∃ w, w ≠ pollBlocked ∧ .set s.machine.pollResultLocal w ∈ since r.regionBegin.1 σ.log) :
    .enter m'.dispatchBb ∈ recent s.machine σ.log ∨ Finished r c' σ.log := by
  have hmem : s ∈ scanStops bands := hss ▸ List.mem_append_right _ List.mem_cons_self
  have hne : s.machine ≠ m' := by
    obtain ⟨band, -, -, -, hne⟩ := hmates
    exact hne
  obtain ⟨s₁, hs₁, s', hs', hm₁, rfl, hlast⟩ := hmates.stops
  have hlast' : s.last = s'.last := (h.bands_at.same_machine h.nodup hmem hs₁ hm₁.symm).trans hlast
  obtain ⟨k, hk, hlt, hserved⟩ := hs.ordered s hmem s' hs' hlast' hran
  rcases h.bands_at.passed_or_cyclic h.nodup hss hs' hlast' hne hdue with ⟨x, hx, hmx, hlx, hxdue⟩ | hcyc
  · rw [hlast', ← hlx] at hxdue
    rw [← hmx] at hd ⊢
    rcases hs.passed x hx hxdue c' hd with hfin | ⟨hpolled, -⟩
    · exact .inr hfin
    · refine .inl (since_subset_sinceStored (fun v hv hin => ?_) hpolled)
      exact unblocked_iff.mp hv (hs.idle s.machine (h.machine_mem hmem) v hin)
  · exact hserved (hcyc k hk hlt) c' hd

theorem Looped.dispatch_ne {m : Machine} (hm : m ∈ ms) : m.dispatchBb ≠ r.regionBegin.1 ∧ m.dispatchBb ≠ n + 3 ∧
    ∀ c ∈ r.coroutines, m.dispatchBb ≠ c.last.1 := by
  obtain ⟨hle, hE⟩ := h.staged.dispatch _ hm
  have hlt := h.staged.marked.region_lt.1
  obtain ⟨h1, h2⟩ := h.loop.stuck_mem
  refine ⟨by omega, fun heq => hE (.inl ⟨by omega, by omega⟩), fun c hc => ?_⟩
  have hlt' := (h.staged.marked.mem_markers_lt hc).2
  omega

end

namespace Served
variable (h : Looped hooks cfg cfg' r start ms bands n stuck hi l0)
  (hv : Served hooks cfg cfg' r ms l0 (Executes n hi ms) s.machine c res pre post σ τ) (hd : Drives r ms s.machine c)
include h hv hd

omit h hd in
theorem enters_mem {b : ℕ} (hin : .enter b ∈ post ++ .set s.machine.pollResultLocal res :: pre) : .enter b ∈ pre := by
  rcases List.mem_append.mp hin with hin | hin
  · cases hv.ends _ hin
  · exact (List.mem_cons.mp hin).resolve_left (by rintro ⟨⟩)

theorem region : .enter r.regionBegin.1 ∉ post ++ .set s.machine.pollResultLocal res :: pre := by
  intro hin
  rcases hv.enters _ (hv.enters_mem hin) with heq | haside
  · exact (h.dispatch_ne hd.mem.1).1 heq.symm
  · exact haside.region rfl

theorem top : .enter (n + 3) ∉ post ++ .set s.machine.pollResultLocal res :: pre := by
  intro hin
  obtain ⟨h1, h2⟩ := h.loop.stuck_mem
  rcases hv.enters _ (hv.enters_mem hin) with heq | haside
  · exact (h.dispatch_ne hd.mem.1).2.1 heq.symm
  · exact haside.executor (.inl ⟨by omega, by omega⟩)

theorem last_mem {c' : Coroutine} (hc : c' ∈ r.coroutines) (hin : .enter c'.last.1 ∈ pre) : c' = c := by
  rcases hv.enters _ hin with heq | haside
  · exact absurd heq.symm ((h.dispatch_ne hd.mem.1).2.2 c' hc)
  · exact haside.ends c' hc rfl

theorem not_poll {m : Machine} (hm : m ∈ ms) (v : ℤ) : .set m.pollResultLocal v ∉ pre ∧ .set m.pollResultLocal v ∉ post := by
  obtain ⟨hle, -, hne⟩ := h.staged.locals.poll_mem m hm
  refine ⟨fun hin => ?_, fun hin => ?_⟩
  · rcases hv.stores _ _ hin with hlt | ⟨heq, -⟩ | heq
    · omega
    · exact hne heq
    · exact h.staged.locals.state_poll _ hd.mem.1 m hm heq.symm
  · exact h.staged.locals.state_poll _ hd.mem.1 m hm (Event.set.inj (hv.ends _ hin)).1.symm

theorem poll_mem {m : Machine} (hm : m ∈ ms) {v : ℤ} :
    .set m.pollResultLocal v ∈ post ++ .set s.machine.pollResultLocal res :: pre ↔ m = s.machine ∧ v = res := by
  obtain ⟨h1, h2⟩ := hv.not_poll h hd hm v
  rw [List.mem_append, or_iff_right h2, List.mem_cons, or_iff_left h1, Event.set.injEq]
  refine and_congr_left fun _ => ⟨(h.eq_of_local hm hd.mem.1).2, fun heq => heq ▸ rfl⟩

theorem keeps {x : ℕ} (hx : l0 ≤ x) : τ.locals x = σ.locals x := by
  have h1 := h.staged.locals.progress_mem.2
  have h2 := (h.staged.locals.state_mem _ hd.mem.1).2.1
  have h3 := (h.staged.locals.poll_mem _ hd.mem.1).2.1
  exact hv.locals x (by omega) (fun ht => by have := ht.2.1; omega) (by omega) (by omega)

theorem status_next (hs : Settled hooks cfg r start ms bands σ) (hstays : ¬Finished r c σ.log) (m' : Machine) (c' : Coroutine)
    (hd' : Drives r ms m' c') : τ.locals m'.stateLocal = doneState ∧ Finished r c' τ.log ∨
      Waits m' (findSuspensionPoints hooks cfg c').length τ ∧ ¬Finished r c' τ.log := by
  have hmem : Finished r c' τ.log ↔ .enter c'.last.1 ∈ pre ∨ Finished r c' σ.log := by
    rw [hv.log, Finished, mem_since_append (hv.region h hd)]
    refine or_congr_left ⟨hv.enters_mem, fun hin => List.mem_append_right _ (List.mem_cons_of_mem _ hin)⟩
  rw [hmem]
  by_cases heq : s.machine = m'
  · obtain rfl := (h.staged.drives_iff hd hd').mp heq
    rw [← heq]
    exact hv.status.imp (And.imp_right .inl) (And.imp_right fun hnot => not_or.mpr ⟨hnot, hstays⟩)
  · have hcne : c' ≠ c := fun hc => heq ((h.staged.drives_iff hd hd').mpr hc.symm)
    rw [or_iff_right fun hin => hcne (hv.last_mem h hd hd'.mem.2 hin)]
    have hstate : τ.locals m'.stateLocal = σ.locals m'.stateLocal := by
      obtain ⟨h1, -, h3⟩ := h.staged.locals.state_mem m' hd'.mem.1
      refine hv.locals _ (by omega) (fun ht => (ht.2.2.2 m' hd'.mem.1).1 rfl) (fun hl => heq ?_) ?_
      · exact ((h.eq_of_local hd'.mem.1 hd.mem.1).1 hl).symm
      · exact h.staged.locals.state_poll m' hd'.mem.1 _ hd.mem.1
    rw [Waits, hstate]
    exact hs.status m' c' hd'

theorem settled (hs : Scanning hooks cfg cfg' r start ms bands n passed σ) (hss : scanStops bands = passed ++ s :: rest)
    (hdue : s.Due (σ.locals s.last)) (hstays : ¬Finished r c σ.log) : Settled hooks cfg r start ms bands τ := by
  have hregion : .enter r.regionBegin.1 ∉ pre := fun hin =>
    hv.region h hd (List.mem_append_right _ (List.mem_cons_of_mem _ hin))
  have huniq : ∀ m', Drives r ms m' c → m' = s.machine := fun m' hd' => (h.staged.drives_iff hd' hd).mpr rfl
  have hatt : Attended r ms (pre ++ σ.log) := hs.attended.poll hv.dispatched huniq
    (fun m' hm' _ v => (hv.not_poll h hd hm' v).1) fun c' hc' hin => hv.last_mem h hd hc' hin
  refine ⟨hs.region, hv.status_next h hd hs.toSettled hstays, ?_, ?_⟩
  · rw [hv.log, List.append_assoc, List.cons_append]
    refine TakesTurns.append ?_ fun band hband m hm v => (hv.not_poll h hd (h.member_mem hband hm) v).2
    refine TakesTurns.cons ?_ hatt hd.mem.1 (fun _ m' c' hmates hd' ⟨w, hw, hin⟩ => ?_)
      (fun m' hm' heq => (h.eq_of_local hm' hd.mem.1).2 heq) fun band hband m hm => h.member_mem hband hm
    · exact hs.turns.append fun band hband m hm v => (hv.not_poll h hd (h.member_mem hband hm) v).1
    · rw [mem_since_append hregion, or_iff_right (hv.not_poll h hd hd.mem.1 w).1] at hin
      rw [recent_append fun v _ => (hv.not_poll h hd hd.mem.1 v).1]
      exact (h.turn_due hs hss hdue hmates hd' ⟨w, hw, hin⟩).imp (List.mem_append_right _) (Finished.append hregion)
  · rw [hv.log]
    refine hs.attended.poll ?_ huniq (fun m' hm' hne v hin => hne ((hv.poll_mem h hd hm').mp hin).1) fun c' hc' hin => ?_
    · exact List.mem_append_right _ (List.mem_cons_of_mem _ hv.dispatched)
    · exact hv.last_mem h hd hc' (hv.enters_mem hin)

/-- The scan after a poll that blocked. -/
theorem scanning (hs : Scanning hooks cfg cfg' r start ms bands n passed σ) (hss : scanStops bands = passed ++ s :: rest)
    (hdue : s.Due (σ.locals s.last)) (hstays : ¬Finished r c σ.log) (hblocked : res = pollBlocked) :
    Scanning hooks cfg cfg' r start ms bands n (passed ++ [s]) τ := by
  have hmem : s ∈ scanStops bands := hss ▸ List.mem_append_right _ List.mem_cons_self
  have hregion := hv.region h hd
  have hsince : since (n + 3) τ.log = (post ++ .set s.machine.pollResultLocal res :: pre) ++ since (n + 3) σ.log := by
    rw [hv.log, since_append (hv.top h hd)]
  have hmono : since (n + 3) σ.log ⊆ since (n + 3) τ.log := hsince ▸ List.subset_append_right _ _
  have hprogress := h.staged.locals.progress_mem
  obtain ⟨-, -, hsp⟩ := h.staged.locals.state_mem _ hd.mem.1
  obtain ⟨-, -, hpp⟩ := h.staged.locals.poll_mem _ hd.mem.1
  have hflag : .set cfg.locals.length 1 ∈ post ++ .set s.machine.pollResultLocal res :: pre ↔ .set cfg.locals.length 1 ∈ pre := by
    rw [List.mem_append, List.mem_cons, or_iff_right fun hin => hsp (Event.set.inj (hv.ends _ hin)).1.symm,
      or_iff_right fun heq => hpp (Event.set.inj heq).1.symm]
  have hguards : GuardPassed cfg' cfg.locals.length (post ++ .set s.machine.pollResultLocal res :: pre) ↔
      GuardPassed cfg' cfg.locals.length pre := by
    constructor
    · intro hg
      obtain ⟨b, hb, hin⟩ := hg
      exact ⟨b, hb, hv.enters_mem hin⟩
    · exact fun hg => hg.mono fun e he => List.mem_append_right _ (List.mem_cons_of_mem _ he)
  refine ⟨hv.settled h hd hs hss hdue hstays, ?_, ?_, fun m hm v hin => ?_, fun x hx hxdue c' hd' => ?_, ?_, ?_⟩
  · refine List.append_subset.mpr ⟨hs.known, List.cons_subset.mpr ⟨hmem, List.nil_subset _⟩⟩
  · rw [hv.log]
    refine hs.ordered.append (fun x hx => hv.keeps h hd (h.bands_at.locals_of_mem hx).1) hregion fun x hx v hne hin => ?_
    exact hne (((hv.poll_mem h hd (h.machine_mem hx)).mp hin).2.trans hblocked)
  · rw [hsince, List.mem_append] at hin
    rcases hin with hin | hin
    · exact ((hv.poll_mem h hd hm).mp hin).2.trans hblocked
    · exact hs.idle m hm v hin
  · rw [hv.keeps h hd (h.bands_at.locals_of_mem ?_).1] at hxdue
    · rcases List.mem_append.mp hx with hx | hx
      · rcases hs.passed x hx hxdue c' hd' with hfin | ⟨h1, h2⟩
        · rw [hv.log]
          exact .inl (hfin.append hregion)
        · exact .inr ⟨hmono h1, hmono h2⟩
      · obtain rfl := List.mem_singleton.mp hx
        refine .inr ⟨?_, ?_⟩
        · rw [hsince]
          exact List.mem_append_left _ (List.mem_append_right _ (List.mem_cons_of_mem _ hv.dispatched))
        · rw [hsince, ← hblocked]
          exact List.mem_append_left _ (List.mem_append_right _ List.mem_cons_self)
    · rcases List.mem_append.mp hx with hx | hx
      · exact hs.known hx
      · exact List.mem_singleton.mp hx ▸ hmem
  · rw [hsince, List.mem_append, hflag]
    rcases hv.flag with ⟨hin, hone⟩ | ⟨hnot, hkeep⟩
    · exact .inl ⟨.inl hin, hone⟩
    · rw [or_iff_right hnot, hkeep]
      exact hs.flag
  · rw [hsince, List.mem_append, hflag, hv.guards, hs.guards, guardPassed_append, hguards]

/-- Who was looked at since, after a poll that did not block. -/
theorem ordered (hs : Scanning hooks cfg cfg' r start ms bands n passed σ) (hss : scanStops bands = passed ++ s :: rest)
    (hdue : s.Due (σ.locals s.last)) (lasts : Locals) (hlast : lasts s.last = s.index)
    (hlasts : ∀ x, l0 ≤ x → x ≠ s.last → x < l0 + bands.length → lasts x = σ.locals x) :
    Ordered r ms bands lasts τ.log := by
  have hmem : s ∈ scanStops bands := hss ▸ List.mem_append_right _ List.mem_cons_self
  have hregion := hv.region h hd
  rintro s₁ hs₁ s₂ hs₂ heq ⟨v, hv', hin⟩
  by_cases hm : s₁.machine = s.machine
  · -- the member itself: none comes round before it
    have hl : s₁.last = s.last := h.bands_at.same_machine h.nodup hs₁ hmem hm
    have hi : s₁.index = s.index := (h.bands_at.same_band h.nodup hs₁ hmem hl).2.2.mp hm
    refine ⟨s.index, hl ▸ hlast, hi ▸ (h.bands_at.locals_of_mem hs₁).2.2.2.2, fun hcyc => ?_⟩
    rw [hi] at hcyc
    exact absurd hcyc not_cyclic_self
  have hrecent : recent s₁.machine τ.log = (post ++ .set s.machine.pollResultLocal res :: pre) ++ recent s₁.machine σ.log := by
    rw [hv.log]
    exact recent_append fun v _ hin => hm ((hv.poll_mem h hd (h.machine_mem hs₁)).mp hin).1
  rw [hv.log, mem_since_append hregion, or_iff_right fun hin => hm ((hv.poll_mem h hd (h.machine_mem hs₁)).mp hin).1] at hin
  obtain ⟨k, hk, hlt, hserved⟩ := hs.ordered s₁ hs₁ s₂ hs₂ heq ⟨v, hv', hin⟩
  have hold : Cyclic s₁.index k s₂.index → ∀ c', Drives r ms s₂.machine c' →
      .enter s₂.machine.dispatchBb ∈ recent s₁.machine τ.log ∨ Finished r c' τ.log := fun hcyc c' hd' => by
    rw [hrecent, hv.log]
    exact (hserved hcyc c' hd').imp (List.mem_append_right _) (Finished.append hregion)
  by_cases hl : s₁.last = s.last
  · -- another member of the band
    have hsize := (h.bands_at.same_band h.nodup hs₁ hmem hl).2.1
    refine ⟨s.index, hl ▸ hlast, hsize ▸ (h.bands_at.locals_of_mem hmem).2.2.2.2, fun hcyc c' hd' => ?_⟩
    have hl₂ : s.last = s₂.last := hl.symm.trans heq
    by_cases hm₂ : s.machine = s₂.machine
    · rw [hrecent, ← hm₂]
      exact .inl (List.mem_append_left _ (List.mem_append_right _ (List.mem_cons_of_mem _ hv.dispatched)))
    rcases h.bands_at.passed_or_cyclic h.nodup hss hs₂ hl₂ hm₂ hdue with ⟨x, hx, hmx, hlx, hxdue⟩ | hcyc'
    · rw [hl₂, ← hlx] at hxdue
      rw [← hmx] at hd' ⊢
      rcases hs.passed x hx hxdue c' hd' with hfin | ⟨hpolled, -⟩
      · rw [hv.log]
        exact .inr (hfin.append hregion)
      · rw [hrecent]
        refine .inl (List.mem_append_right _ (since_subset_sinceStored (fun v hv hin => ?_) hpolled))
        exact unblocked_iff.mp hv (hs.idle _ (h.machine_mem hs₁) v hin)
    · rw [hl] at hk
      exact hold (hcyc.trans (hcyc' k hk (hsize ▸ hlt))) c' hd'
  · obtain ⟨h1, h2, -⟩ := h.bands_at.locals_of_mem hs₁
    exact ⟨k, (hlasts _ h1 hl h2).trans hk, hlt, hold⟩

end Served

end Krio.Stackless
