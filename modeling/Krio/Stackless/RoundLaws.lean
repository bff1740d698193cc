import Krio.Stackless.Preserved
import Krio.Stackless.PriorityFair
import Krio.Stackless.RoundPlaces

/-! Whole runs of the loops that know no priorities: every pass polls each coroutine that is not finished once and in
order, the region is left when all are finished, and a deadlock is found when none is and all were shut out. -/

namespace Krio.Stackless
open StateTransition

variable {U : Type} {host : Host U} {hooks : Hooks U} {cfg cfg' : Body U} {r : Region} {start : ℕ} {ms : List Machine}
  {dead : Option U} {tracks : Bool} {A E : ℕ → Prop} {x : Places} {l0 top : ℕ}

section
variable {i b : ℕ} {m : Machine} {σ : Store host} {c c' : Conf host}
variable (h : Rounded hooks cfg cfg' r start ms dead tracks A E x l0)
include h

/-! ## Around the loop -/

theorem Rounded.step_leave (rests : Resting hooks cfg r start ms σ) :
    TurnHeld hooks cfg cfg' r start ms tracks E x l0 (runBlock cfg' x.leave σ) := by
  have hB : ∀ b, b = x.leave → E b := fun b hb => hb ▸ (h.at_outer (.inr (.inl rfl))).executor
  have hrun := runBlock_of h.turns.leave σ
  have hunseen : Unseen cfg.locals.length ms σ _ := .note x.leave σ
  obtain ⟨add, hq⟩ := Through.calm (B := (· = x.leave)) (.step rfl (congrArg some hrun)) hunseen
  rw [hrun]
  exact .post (hq.resting h.staged hB rests)

theorem Rounded.step_shut (rests : Resting hooks cfg r start ms σ) :
    TurnHeld hooks cfg cfg' r start ms tracks E x l0 (runBlock cfg' x.shut σ) := by
  have hblock := h.turns.shut
  cases hdead : dead with
  | none =>
    rw [hdead] at hblock
    have hB : ∀ b, b = x.shut → E b := fun b hb => hb ▸ (h.at_outer (.inr (.inr (.inl rfl)))).executor
    have hrun := runBlock_of hblock σ
    have hunseen : Unseen cfg.locals.length ms σ _ := .note x.shut σ
    obtain ⟨add, hq⟩ := Through.calm (B := (· = x.shut)) (.step rfl (congrArg some hrun)) hunseen
    rw [hrun]
    exact .check (Nat.zero_le _) (hq.resting h.staged hB rests) (fun hpos => absurd hpos (lt_irrefl 0)) fun hpos =>
      absurd hpos (lt_irrefl 0)
  | some u =>
    rw [hdead] at hblock
    rw [runBlock_of hblock]
    exact .outside fun b hb => by cases hb

theorem Rounded.step_post (rests : Resting hooks cfg r start ms σ) :
    TurnHeld hooks cfg cfg' r start ms tracks E x l0 (runBlock cfg' x.post σ) := by
  rw [runBlock_of h.post]
  exact .outside fun b hb => .behind rests.region (leads_successors _ _ hb)

/-- The region begins: every machine waits at its begin marker. -/
theorem Rounded.step_begin (plain : Plain cfg r start r.regionBegin.1) :
    TurnHeld hooks cfg cfg' r start ms tracks E x l0 (runBlock cfg' r.regionBegin.1 σ) := by
  have hstep : Stackless.step cfg' ⟨.block r.regionBegin.1, σ⟩ = some (runBlock cfg' r.regionBegin.1 σ) := rfl
  obtain ⟨new, hlog, hnew⟩ := step_enter hstep
  have hrun := runBlock_of h.staged.head σ
  have hplace : (runBlock cfg' r.regionBegin.1 σ).place = .block (x.check 0) := by rw [hrun]; rfl
  obtain ⟨-, hzero, -⟩ := execAll_assigns Machine.stateLocal 0 ms
    (execAll (σ.note (.enter r.regionBegin.1)) ((cfg.stmts r.regionBegin.1).take r.regionBegin.2 ++ [Stmt.nop]))
  have hrests : Resting hooks cfg r start ms (runBlock cfg' r.regionBegin.1 σ).store := by
    refine ⟨plain, fun m c hd => .inr ⟨⟨0, ?_, Nat.zero_le _, by decide⟩, ?_⟩⟩
    · rw [hrun, execAll_append]
      exact hzero m hd.mem.1
    · rw [Finished, hlog, since_append (hnew _), since_enter, List.append_nil]
      exact hnew _
  rw [Conf.eq_of hplace rfl]
  exact .check (Nat.zero_le _) hrests (fun hpos => absurd hpos (lt_irrefl 0)) fun hpos => absurd hpos (lt_irrefl 0)

theorem Rounded.step_outside (plain : Plain cfg r start b) :
    TurnHeld hooks cfg cfg' r start ms tracks E x l0 (runBlock cfg' b σ) := by
  by_cases hbegin : b = r.regionBegin.1
  · subst hbegin
    exact h.step_begin plain
  · rw [runBlock_of (h.staged.plain b plain hbegin)]
    exact .outside fun b' hb' => .next plain hbegin (leads_successors _ _ hb')

/-! ## Runs -/

/-- One step keeps what holds. -/
theorem Rounded.step (hb : host.Below cfg.locals.length) (hc : Turning hooks cfg cfg' r start ms tracks A E x l0 c)
    (hstep : Stackless.step cfg' c = some c') (hnot : Unmistaken cfg' ms c'.store.log) :
    Turning hooks cfg cfg' r start ms tracks A E x l0 c' := by
  obtain ⟨c₀, hthrough, hheld⟩ := hc
  rcases hthrough.cases_head with rfl | ⟨d, ⟨hd, -⟩, hrest⟩
  · have hrun : ∀ {b : ℕ} {σ : Store host}, Stackless.step cfg' ⟨.block b, σ⟩ = some c' → runBlock cfg' b σ = c' := Option.some.inj
    cases hheld with
    | @outside place σ plain =>
      cases place with
      | block b => exact ⟨_, .refl, hrun hstep ▸ h.step_outside (plain b rfl)⟩
      | returned => cases hstep
      | dead => cases hstep
    | check hk rests passed flagged =>
      rcases hk.lt_or_eq with hlt | rfl
      · exact ⟨_, .refl, h.step_check hlt rests passed flagged hstep⟩
      · have hpos : 0 < ms.length := h.staged.count ▸ List.length_pos_iff.mpr h.staged.marked.nonempty
        exact h.step_last rests (passed hpos) (flagged hpos) hstep
    | dispatch turn => exact ⟨_, .refl, hrun hstep ▸ h.step_dispatch hb turn⟩
    | poll turn hF lowered live =>
      rw [← hrun hstep] at hnot ⊢
      exact ⟨_, .refl, h.step_poll hb turn hF lowered live (hnot _ (List.mem_of_getElem? turn.drives.1))⟩
    | ended turn hplace =>
      rcases hplace with rfl | rfl
      · exact ⟨_, .refl, hrun hstep ▸ h.step_exit turn⟩
      · exact h.step_over turn hstep
    | leave rests hdone => exact ⟨_, .refl, hrun hstep ▸ h.step_leave rests⟩
    | shut rests opens passed idle => exact ⟨_, .refl, hrun hstep ▸ h.step_shut rests⟩
    | post rests => exact ⟨_, .refl, hrun hstep ▸ h.step_post rests⟩
  · rw [hstep] at hd
    obtain rfl := Option.some.inj hd
    exact ⟨c₀, hrest, hheld⟩

theorem Rounded.run (hb : host.Below cfg.locals.length) (hrun : Reaches (Stackless.step cfg') c c')
    (hc : Turning hooks cfg cfg' r start ms tracks A E x l0 c) (hnot : Unmistaken cfg' ms c'.store.log) :
    Turning hooks cfg cfg' r start ms tracks A E x l0 c' := by
  induction hrun with
  | refl => exact hc
  | tail _ hstep ih =>
    obtain ⟨new, hlog, -⟩ := step_log hstep
    exact h.step hb (ih (hnot.of_suffix (hlog ▸ List.suffix_append _ _))) hstep hnot

/-! ## Where control is -/

omit h in
theorem Turning.held (hc : Turning hooks cfg cfg' r start ms tracks A E x l0 ⟨.block b, σ⟩) (hb : ¬A b) :
    TurnHeld hooks cfg cfg' r start ms tracks E x l0 ⟨.block b, σ⟩ := by
  obtain ⟨c₀, hthrough, hheld⟩ := hc
  rcases hthrough.cases_head with rfl | ⟨d, ⟨-, hA⟩, -⟩
  · exact hheld
  · exact absurd (hA b rfl) hb

/-- A machine is dispatched when its coroutine has its turn. -/
theorem Rounded.at_dispatch (hc : TurnHeld hooks cfg cfg' r start ms tracks E x l0 ⟨.block m.dispatchBb, σ⟩) (hm : ms[i]? = some m) :
    ∃ co, TurnBegun hooks cfg cfg' r start ms tracks x i m co σ := by
  have hmem := List.mem_of_getElem? hm
  obtain ⟨hnew, hE⟩ := h.staged.dispatch m hmem
  generalize hplace : m.dispatchBb = b at hc
  rw [hplace] at hnew hE
  cases hc with
  | outside plain => exact absurd hnew (not_le.mpr (h.staged.marked.plain_lt (plain b rfl)))
  | @check k σ hk rests passed flagged =>
    rcases Nat.eq_zero_or_pos k with rfl | hpos
    · exact absurd (h.outer _ (by simp [Places.outer])).1 hE
    · exact absurd (h.at_check hpos hk).executor hE
  | @dispatch k m' co σ turn =>
    obtain rfl := h.staged.eq_of_dispatch hmem (List.mem_of_getElem? turn.drives.1) hplace
    obtain rfl : i = k := by
      by_contra hne
      exact h.staged.locals.state_inj i k m m hm turn.drives.1 hne rfl
    exact ⟨co, turn⟩
  | @poll k place entry done m' co σ₀ σ F entries new turn hF lowered live =>
    have hd : Drives r ms m' co := ⟨k, turn.drives.2, turn.drives.1⟩
    exact absurd hplace.symm ((h.staged.aside hd hF lowered live.going live.part).dispatch m hmem)
  | @ended k place m' co σ turn hplace' =>
    have hm' := turn.drives.1
    rcases hplace' with rfl | rfl
    · exact absurd (h.at_exit (List.mem_of_getElem? hm')).executor hE
    · exact absurd (h.through (h.turns.inside k (List.getElem?_eq_some_iff.mp hm').1)).executor hE
  | leave rests hdone => exact absurd (h.at_outer (.inr (.inl rfl))).executor hE
  | shut rests opens passed idle => exact absurd (h.at_outer (.inr (.inr (.inl rfl)))).executor hE
  | post rests => exact absurd (h.at_outer (.inr (.inr (.inr rfl)))).executor hE

/-- What holds at the end of a pass, and where the loop ends. -/
theorem Rounded.at_end (hc : Turning hooks cfg cfg' r start ms tracks A E x l0 ⟨.block b, σ⟩) :
    (b = x.check ms.length → Resting hooks cfg r start ms σ ∧ Passed r ms (x.check 0) ms.length σ.log ∧
      Flagged cfg' r ms cfg.locals.length x.allDone (x.check 0) tracks ms.length σ) ∧
    (b = x.leave → ∀ co ∈ r.coroutines, Finished r co σ.log) ∧
    (b = x.shut → (∃ co ∈ r.coroutines, ¬Finished r co σ.log) ∧ Passed r ms (x.check 0) ms.length σ.log ∧
      (tracks = true → Idle cfg' r ms cfg.locals.length (x.check 0) ms.length σ.log)) := by
  have hapart := h.apart
  simp only [Places.outer, List.nodup_cons, List.mem_cons, List.not_mem_nil, or_false, not_or, not_false_eq_true, List.nodup_nil,
    and_true] at hapart
  obtain ⟨⟨h01, h02, h03, h04⟩, ⟨h12, h13, h14⟩, ⟨h23, h24⟩, h34⟩ := hapart
  by_cases hb : b = x.check ms.length ∨ b = x.leave ∨ b = x.shut
  swap
  · exact ⟨fun heq => absurd (.inl heq) hb, fun heq => absurd (.inr (.inl heq)) hb, fun heq => absurd (.inr (.inr heq)) hb⟩
  have hmem : b ∈ x.outer ms.length := by
    rcases hb with rfl | rfl | rfl <;> simp [Places.outer]
  have hE := (h.outer b hmem).1
  have hnone : ∀ {P : Prop}, (A b ∨ (∃ m ∈ ms, b = m.exitBb) ∨ ∃ k, 0 < k ∧ k < ms.length ∧ b = x.check k) → P := fun hin =>
    absurd hmem (h.inner b hin).2.2
  have hheld := hc.held fun hA => hnone (.inl hA)
  cases hheld with
  | outside plain => exact absurd (h.staged.new b hE) (not_le.mpr (h.staged.marked.plain_lt (plain b rfl)))
  | @check k σ hk rests passed flagged =>
    rcases Nat.eq_zero_or_pos k with rfl | hpos
    · exact ⟨fun heq => absurd heq h01, fun heq => absurd heq h02, fun heq => absurd heq h03⟩
    · rcases hk.lt_or_eq with hlt | rfl
      · exact hnone (.inr (.inr ⟨k, hpos, hlt, rfl⟩))
      · exact ⟨fun _ => ⟨rests, passed hpos, flagged hpos⟩, fun heq => absurd heq h12, fun heq => absurd heq h13⟩
  | dispatch turn => exact absurd hE (h.staged.dispatch _ (List.mem_of_getElem? turn.drives.1)).2
  | @poll k place entry done m' co σ₀ σ F entries new turn hF lowered live =>
    have hd : Drives r ms m' co := ⟨k, turn.drives.2, turn.drives.1⟩
    exact absurd hE (h.staged.aside hd hF lowered live.going live.part).executor
  | @ended k place m' co σ turn hplace =>
    have hm' := turn.drives.1
    rcases hplace with rfl | rfl
    · exact hnone (.inr (.inl ⟨m', List.mem_of_getElem? hm', rfl⟩))
    · exact hnone (.inl (h.turns.inside k (List.getElem?_eq_some_iff.mp hm').1))
  | leave rests hdone => exact ⟨fun heq => absurd heq.symm h12, fun _ => hdone, fun heq => absurd heq h23⟩
  | shut rests opens passed idle =>
    exact ⟨fun heq => absurd heq.symm h13, fun heq => absurd heq.symm h23, fun _ => ⟨opens, passed, idle⟩⟩
  | post rests => exact ⟨fun heq => absurd heq.symm h14, fun heq => absurd heq.symm h24, fun heq => absurd heq.symm h34⟩

end

/-! ## The law of a pass -/

/-- What a loop that knows no priorities has kept to in a run that has come to `c`. One that `tracks` ends at `stuckBb` only
    where nothing went on in the last pass. -/
structure KeepsRounds (cfg' : Body U) (r : Region) (ms : List Machine) (progress : ℕ) (tracks : Bool) (loop : Loop) (c : Conf host) :
    Prop where
  /-- A coroutine that has its turn is not finished; in this pass each one before it was polled, unless it is finished, and
      neither it nor any behind it was. -/
  turn : ∀ i m co, ms[i]? = some m → r.coroutines[i]? = some co → c.place = .block m.dispatchBb →
    ¬Finished r co c.store.log ∧ Passed r ms loop.loopBb i c.store.log
  /-- At the end of a pass every coroutine was polled in it, unless it is finished. -/
  pass : c.place = .block loop.currentBb → Passed r ms loop.loopBb ms.length c.store.log
  /-- There the region is left exactly when all are finished. -/
  leave : c.place = .block loop.currentBb → (∀ co ∈ r.coroutines, Finished r co c.store.log) →
    ∃ τ, step cfg' c = some ⟨.block loop.regionExitBb, τ⟩
  leave_only : c.place = .block loop.regionExitBb → ∀ co ∈ r.coroutines, Finished r co c.store.log
  /-- Otherwise the loop ends there, at the latest when nothing went on; -/
  stuck : c.place = .block loop.currentBb → (∃ co ∈ r.coroutines, ¬Finished r co c.store.log) →
    (tracks = true → Idle cfg' r ms progress loop.loopBb ms.length c.store.log) →
    ∃ τ add, Reaches (step cfg') c ⟨.block loop.stuckBb, τ⟩ ∧ τ.log = add ++ c.store.log ∧ .enter loop.loopBb ∉ add
  stuck_only : c.place = .block loop.stuckBb → (∃ co ∈ r.coroutines, ¬Finished r co c.store.log) ∧
    (tracks = true → Idle cfg' r ms progress loop.loopBb ms.length c.store.log)
  /-- or the next pass begins. -/
  again : tracks = true → c.place = .block loop.currentBb → (∃ co ∈ r.coroutines, ¬Finished r co c.store.log) →
    ¬Idle cfg' r ms progress loop.loopBb ms.length c.store.log →
    ∃ τ add, Reaches (step cfg') c ⟨.block loop.loopBb, τ⟩ ∧ τ.log = add ++ c.store.log ∧ .enter loop.stuckBb ∉ add

theorem Rounded.keepsRounds (h : Rounded hooks cfg cfg' r start ms dead tracks A E x l0) {c : Conf host}
    (hc : Turning hooks cfg cfg' r start ms tracks A E x l0 c) :
    KeepsRounds cfg' r ms cfg.locals.length tracks ⟨x.check 0, x.leave, x.check ms.length, x.shut⟩ c := by
  have hat : ∀ {b : ℕ}, c.place = .block b → Turning hooks cfg cfg' r start ms tracks A E x l0 ⟨.block b, c.store⟩ := fun hp =>
    hp ▸ hc
  have hflag : (∀ co ∈ r.coroutines, Finished r co c.store.log) ↔
      ∀ j < ms.length, ∀ co, r.coroutines[j]? = some co → Finished r co c.store.log := h.all_finished.symm
  -- the end of a pass that does not leave
  have hgo : c.place = .block (x.check ms.length) → (∃ co ∈ r.coroutines, ¬Finished r co c.store.log) → ∃ τ add,
      Reaches (Stackless.step cfg') c ⟨.block (if tracks = true ∧ c.store.locals cfg.locals.length = 1 then x.check 0 else x.shut), τ⟩ ∧
        τ.log = add ++ c.store.log ∧ .enter (x.check 0) ∉ add ∧ .enter x.shut ∉ add := by
    rintro hp ⟨co, hco, hopen⟩
    obtain ⟨-, -, hflagged⟩ := (h.at_end (hat hp)).1 rfl
    have hall : c.store.locals x.allDone = 0 := by
      by_contra hne
      exact hopen (hflag.mpr (hflagged.done.mp hne) co hco)
    obtain ⟨τ, -, -, hdeparts⟩ := h.turns.stays c.store hall
    obtain ⟨c₁, hstep, hthrough⟩ := hdeparts
    have hwhole : Through cfg' (fun b => A b ∨ b = x.check ms.length) ⟨.block (x.check ms.length), c.store⟩ _ :=
      .head (.inr rfl) ((Option.some.inj hstep) ▸ hthrough.mono fun _ => Or.inl)
    obtain ⟨add, hlog, hadd⟩ := hwhole.log
    have hout : ∀ b, b = x.check 0 ∨ b = x.shut → ¬(A b ∨ b = x.check ms.length) := fun b hb hin => by
      rcases hin with hA | heq
      · refine (h.inner b (.inl hA)).2.2 ?_
        rcases hb with rfl | rfl <;> simp [Places.outer]
      · have hapart := h.apart
        simp only [Places.outer, List.nodup_cons, List.mem_cons, not_or] at hapart
        rcases hb with rfl | rfl
        · exact hapart.1.1 heq
        · exact hapart.2.1.2.1 heq.symm
    rw [← Conf.eq_of hp rfl] at hwhole
    exact ⟨τ, add, hwhole.reaches, hlog, fun hin => hout _ (.inl rfl) (hadd _ hin), fun hin => hout _ (.inr rfl) (hadd _ hin)⟩
  refine ⟨fun i m co hm hco hp => ?_, fun hp => ((h.at_end (hat hp)).1 rfl).2.1, fun hp hdone => ?_, fun hp => (h.at_end (hat hp)).2.1 rfl,
    fun hp hopen hidle => ?_, fun hp => ?_, fun ht hp hopen hidle => ?_⟩
  · have hA : ¬A m.dispatchBb := fun hA => (h.staged.dispatch m (List.mem_of_getElem? hm)).2 (h.through hA).executor
    obtain ⟨co', hturn⟩ := h.at_dispatch ((hat hp).held hA) hm
    cases hco.symm.trans hturn.drives.2
    exact ⟨hturn.opens, hturn.passed⟩
  · obtain ⟨-, -, hflagged⟩ := (h.at_end (hat hp)).1 rfl
    obtain ⟨τ, -, hstep⟩ := h.turns.leaves c.store (hflagged.done.mpr (hflag.mp hdone))
    rw [← Conf.eq_of hp rfl] at hstep
    exact ⟨τ, hstep⟩
  · obtain ⟨-, -, hflagged⟩ := (h.at_end (hat hp)).1 rfl
    obtain ⟨τ, add, hreach, hlog, hadd, -⟩ := hgo hp hopen
    have hzero : ¬(tracks = true ∧ c.store.locals cfg.locals.length = 1) := by
      intro hboth
      obtain ⟨ht, hone⟩ := hboth
      rcases hflagged.moved ht with ⟨-, hnot⟩ | ⟨hz, -⟩
      · exact hnot (hidle ht)
      · rw [hone] at hz
        exact one_ne_zero hz
    rw [if_neg hzero] at hreach
    exact ⟨τ, add, hreach, hlog, hadd⟩
  · obtain ⟨hopen, -, hidle⟩ := (h.at_end (hat hp)).2.2 rfl
    exact ⟨hopen, hidle⟩
  · obtain ⟨-, -, hflagged⟩ := (h.at_end (hat hp)).1 rfl
    obtain ⟨τ, add, hreach, hlog, -, hadd⟩ := hgo hp hopen
    rw [if_pos ⟨ht, ((hflagged.moved ht).resolve_right fun hi => hidle hi.2).1⟩] at hreach
    exact ⟨τ, add, hreach, hlog, hadd⟩

/-! ## The executors -/

/-- The round-robin loop of a marked region. -/
theorem CoopLoop.rounded (hst : Staged hooks cfg cfg' r start ms top l0 (Executes top (top + 3 + 6 * ms.length + 1) ms))
    (h : CoopLoop hooks cfg' ms cfg.locals.length l0 top (top + 1) (top + 2) (top + 3) (l0 + 1) (cfg.term r.regionEnd.1))
    (hne : ms ≠ []) (hexits : ∀ m ∈ ms, m.exitBb < top) :
    Rounded hooks cfg cfg' r start ms hooks.deadlock true (CoopPass cfg' cfg.locals.length top ms.length)
      (Executes top (top + 3 + 6 * ms.length + 1) ms) (coopPlaces top ms.length l0) l0 := by
  have hpos := List.length_pos_iff.mpr hne
  have hcheck : ∀ {k m}, ms[k]? = some m → ¬BehindGuard cfg' cfg.locals.length (roundCheck top (top + 3) 5 k) := fun {k m} hm => by
    refine not_behindGuard (h.turns k m hm).check fun u => ?_
    cases k with
    | zero => simp [leadOf]
    | succ k => simp [leadOf]
  have houter : ∀ b ∈ (coopPlaces top ms.length l0).outer ms.length,
      b = top ∨ b = roundAfter (top + 3) 5 (ms.length - 1) + 3 ∨ b = top + 1 ∨ b = top + 3 + 6 * ms.length ∨ b = top + 2 := fun b hb => by
    rw [Places.outer, coopPlaces_check hpos, coopPlaces_end] at hb
    simpa [coopPlaces, roundCheck] using hb
  refine ⟨by rw [coopPlaces_check hpos]; exact hst, h.turns_of hst.locals hne, le_rfl, h.post, ?_, fun b hb => ?_, fun b hb => ?_⟩
  · rw [Places.outer, coopPlaces_check hpos, coopPlaces_end]
    simp only [coopPlaces, roundCheck, roundAfter, List.nodup_cons, List.mem_cons, List.not_mem_nil, or_false, List.nodup_nil,
      not_false_eq_true, and_true]
    omega
  · rcases houter b hb with rfl | rfl | rfl | rfl | rfl
    · exact ⟨.inl ⟨le_rfl, by omega⟩, hcheck (List.getElem?_eq_getElem hpos)⟩
    · exact ⟨.inl ⟨by rw [roundAfter]; omega, by rw [roundAfter]; omega⟩, not_behindGuard h.final (by simp)⟩
    · exact ⟨.inl ⟨by omega, by omega⟩, not_behindGuard h.exit (by simp)⟩
    · refine ⟨.inl ⟨by omega, by omega⟩, not_behindGuard (l := (stuckBlock hooks top).stmts) h.stuck fun u => ?_⟩
      rw [stuckBlock]
      cases hooks.deadlock with
      | none => simp
      | some u => simp
    · exact ⟨.inl ⟨by omega, by omega⟩, not_behindGuard h.post (by simp)⟩
  · have hnot : top ≤ b → b < top ∨ top + 3 ≤ b ∧ b < top + 3 + 6 * ms.length ∧ b ≠ roundAfter (top + 3) 5 (ms.length - 1) + 3 →
        b ∉ (coopPlaces top ms.length l0).outer ms.length := fun _ hcase hin => by
      have := houter b hin
      omega
    rcases hb with ⟨h1, h2, h3, h4⟩ | ⟨m, hm, rfl⟩ | ⟨k, hk, hlt, rfl⟩
    · exact ⟨.inl ⟨by omega, by omega⟩, h4, hnot (by omega) (.inr ⟨h1, h2, h3⟩)⟩
    · obtain ⟨k, hk⟩ := List.mem_iff_getElem?.mp hm
      refine ⟨.inr ⟨m, hm, rfl⟩, not_behindGuard (h.turns k m hk).exit (by simp), fun hin => ?_⟩
      have hlt := hexits m hm
      have hcase := houter _ hin
      rw [roundAfter] at hcase
      omega
    · rw [coopPlaces_check hlt] at hnot ⊢
      obtain ⟨k, rfl⟩ := Nat.exists_eq_succ_of_ne_zero hk.ne'
      rw [roundCheck, roundAfter] at hnot
      refine ⟨.inl ⟨?_, ?_⟩, hcheck (List.getElem?_eq_getElem hlt), hnot (by omega) (.inr ⟨by omega, by omega, by omega⟩)⟩
      · rw [roundCheck]
        omega
      · rw [roundCheck]
        omega

/-- The one-shot poll of a marked region, where its `pending` exit leads back to its top. -/
theorem OneshotPoll.rounded
    (hst : Staged hooks cfg (cfg'.setGoto (top + 2) top) r start ms top l0 (Executes top (top + 4 + 5 * ms.length - 1) ms))
    (h : OneshotPoll cfg' ms l0 top (top + 1) (top + 2) (top + 3) (top + 4) (l0 + 1) (cfg.term r.regionEnd.1))
    (hne : ms ≠ []) (hexits : ∀ m ∈ ms, m.exitBb < top) :
    Rounded hooks cfg (cfg'.setGoto (top + 2) top) r start ms none false
      (OneshotPass (cfg'.setGoto (top + 2) top) cfg.locals.length top ms.length) (Executes top (top + 4 + 5 * ms.length - 1) ms)
      (oneshotPlaces top ms.length l0) l0 := by
  have hpos := List.length_pos_iff.mpr hne
  have hother : ∀ b ≠ top + 2, (cfg'.setGoto (top + 2) top).block b = cfg'.block b := fun b hb => Function.update_of_ne hb _ _
  have hturns := h.turns_of hst.locals hne hexits
  generalize cfg'.setGoto (top + 2) top = cfg₁ at hother hst hturns ⊢
  have hturn : ∀ {k m}, ms[k]? = some m → TurnOnce l0 cfg₁ m (leadOf [.assignBool l0 true] k) (roundCheck top (top + 4) 4 k)
      (roundAfter (top + 4) 4 k) (l0 + 1 + 2 * k) := fun hm => h.rewired hother hexits hm
  have hcheck : ∀ {k m}, ms[k]? = some m → ¬BehindGuard cfg₁ cfg.locals.length (roundCheck top (top + 4) 4 k) := fun {k m} hm => by
    refine not_behindGuard (hturn hm).check fun u => ?_
    cases k with
    | zero => simp [leadOf]
    | succ k => simp [leadOf]
  have houter : ∀ b ∈ (oneshotPlaces top ms.length l0).outer ms.length,
      b = top ∨ b = roundAfter (top + 4) 4 (ms.length - 1) + 3 ∨ b = top + 1 ∨ b = top + 2 ∨ b = top + 3 := fun b hb => by
    rw [Places.outer, oneshotPlaces_check hpos, oneshotPlaces_end] at hb
    simpa [oneshotPlaces, roundCheck] using hb
  have hshut := hturns.shut
  rw [oneshotPlaces_check hpos] at hshut
  refine ⟨by rw [oneshotPlaces_check hpos]; exact hst, hturns, le_rfl, (hother (top + 3) (by omega)).trans h.post, ?_,
    fun b hb => ?_, fun b hb => ?_⟩
  · rw [Places.outer, oneshotPlaces_check hpos, oneshotPlaces_end]
    simp only [oneshotPlaces, roundCheck, roundAfter, List.nodup_cons, List.mem_cons, List.not_mem_nil, or_false, List.nodup_nil,
      not_false_eq_true, and_true]
    omega
  · rcases houter b hb with rfl | rfl | rfl | rfl | rfl
    · exact ⟨.inl ⟨le_rfl, by omega⟩, hcheck (List.getElem?_eq_getElem hpos)⟩
    · refine ⟨.inl ⟨by rw [roundAfter]; omega, by rw [roundAfter]; omega⟩, not_behindGuard ((hother _ ?_).trans h.final) (by simp)⟩
      rw [roundAfter]
      omega
    · exact ⟨.inl ⟨by omega, by omega⟩, not_behindGuard ((hother _ (by omega)).trans h.done) (by simp)⟩
    · exact ⟨.inl ⟨by omega, by omega⟩, not_behindGuard hshut (by simp)⟩
    · exact ⟨.inl ⟨by omega, by omega⟩, not_behindGuard ((hother _ (by omega)).trans h.post) (by simp)⟩
  · have hnot : b < top ∨ top + 4 ≤ b ∧ b < top + 4 + 5 * ms.length - 1 ∧ b ≠ roundAfter (top + 4) 4 (ms.length - 1) + 3 →
        b ∉ (oneshotPlaces top ms.length l0).outer ms.length := fun hcase hin => by
      have hcases := houter b hin
      rw [roundAfter] at hcase hcases
      omega
    rcases hb with ⟨h1, h2, h3, h4⟩ | ⟨m, hm, rfl⟩ | ⟨k, hk, hlt, rfl⟩
    · exact ⟨.inl ⟨by omega, by omega⟩, h4, hnot (.inr ⟨h1, h2, h3⟩)⟩
    · obtain ⟨k, hk⟩ := List.mem_iff_getElem?.mp hm
      exact ⟨.inr ⟨m, hm, rfl⟩, not_behindGuard (hturn hk).exit (by simp), hnot (.inl (hexits m hm))⟩
    · rw [oneshotPlaces_check hlt] at hnot ⊢
      obtain ⟨k, rfl⟩ := Nat.exists_eq_succ_of_ne_zero hk.ne'
      rw [roundCheck, roundAfter] at hnot
      refine ⟨.inl ⟨?_, ?_⟩, hcheck (List.getElem?_eq_getElem hlt), hnot (.inr ⟨by omega, by omega, by omega⟩)⟩
      · rw [roundCheck]
        omega
      · rw [roundCheck]
        omega

/-- In every run that suspends no coroutine at the point whose number stands for a finished one, the round-robin loop polls
    every unfinished coroutine once a pass and in order, leaves the region when all are finished, and goes to its deadlock
    block when none is finished and the last pass found every guard shut. -/
theorem roundRobin_keeps_rounds (h : Marked hooks cfg r start) (hp : r.coroutines.any (·.priority.isSome) = false)
    (hbelow : ∀ b < cfg.next, ∀ s ∈ cfg.stmts b, s.Below cfg.locals.length) (loops : List Loop) :
    ∃ cfg' loop, transformRegion hooks (cooperative hooks) loops cfg r = (loops ++ [loop], cfg') ∧
      ∀ host : Host U, host.Below cfg.locals.length → ∀ (σ : Store host) (c : Conf host),
        Reaches (step cfg') ⟨.block start, σ⟩ c → Unmistaken cfg' (machinesOf hooks cfg r).1 c.store.log →
        KeepsRounds cfg' r (machinesOf hooks cfg r).1 cfg.locals.length true loop c := by
  obtain ⟨ms, top, l0, cfg', heq, hout, hne, hexits, hloop, hst⟩ := h.roundRobin_staged hp hbelow loops
  have hrounded := hloop.rounded hst hne hexits
  refine ⟨_, _, heq, fun host hb σ c hreach hnot => ?_⟩
  rw [hout] at hnot ⊢
  have hkeeps := hrounded.keepsRounds (hrounded.run hb hreach ⟨_, .refl, .outside fun b hb' => At.block.inj hb' ▸ .start⟩ hnot)
  rw [coopPlaces_check (List.length_pos_iff.mpr hne), coopPlaces_end] at hkeeps
  exact hkeeps

/-- Likewise the one-shot poll with its `pending` exit led back to its top: it takes `done` exactly when all are finished, and
    `pending` otherwise. -/
theorem oneshot_keeps_rounds (h : Marked hooks cfg r start)
    (hbelow : ∀ b < cfg.next, ∀ s ∈ cfg.stmts b, s.Below cfg.locals.length) (exits : List RegionExits) :
    ∃ done pending top last flag cfg', transformRegion hooks waker exits cfg r = (exits ++ [⟨done, pending⟩], cfg') ∧
      cfg'.term r.regionBegin.1 = .goto top ∧ cfg'.block last = ⟨[], .branch flag done pending⟩ ∧
      ∀ host : Host U, host.Below cfg.locals.length → ∀ (σ : Store host) (c : Conf host),
        Reaches (step (cfg'.setGoto pending top)) ⟨.block start, σ⟩ c →
        Unmistaken (cfg'.setGoto pending top) (machinesOf hooks cfg r).1 c.store.log →
        KeepsRounds (cfg'.setGoto pending top) r (machinesOf hooks cfg r).1 cfg.locals.length false ⟨top, done, last, pending⟩ c := by
  obtain ⟨ms, top, l0, cfg', heq, hout, hne, hexits, hhead, hpoll, hst⟩ := h.oneshot_staged hbelow exits
  have hrounded := hpoll.rounded hst hne hexits
  refine ⟨_, _, _, _, _, _, heq, hhead, hpoll.final, fun host hb σ c hreach hnot => ?_⟩
  rw [hout] at hnot ⊢
  have hkeeps := hrounded.keepsRounds (hrounded.run hb hreach ⟨_, .refl, .outside fun b hb' => At.block.inj hb' ▸ .start⟩ hnot)
  rw [oneshotPlaces_check (List.length_pos_iff.mpr hne), oneshotPlaces_end] at hkeeps
  exact hkeeps

/-! ## An example -/

/-- Three coroutines, one of them with a guard, under the round-robin loop with its deadlock report. -/
theorem roundRobin_keeps_rounds_crew : ∃ cfg' loop,
    transformRegion (crewHooks false) (cooperative (crewHooks false)) [] crew (crewRegion false) = ([loop], cfg') ∧
    ∀ host : Host CrewStmt, host.Below 0 → ∀ (σ : Store host) (c : Conf host),
      Reaches (step cfg') ⟨.block 0, σ⟩ c → Unmistaken cfg' (machinesOf (crewHooks false) crew (crewRegion false)).1 c.store.log →
      KeepsRounds cfg' (crewRegion false) (machinesOf (crewHooks false) crew (crewRegion false)).1 0 true loop c :=
  roundRobin_keeps_rounds crew_conforms.toMarked rfl (@crew_conforms false).stmts_below []

/-- And under the one-shot poll. -/
theorem oneshot_keeps_rounds_crew : ∃ done pending top last flag cfg',
    transformRegion (crewHooks false) waker [] crew (crewRegion false) = ([⟨done, pending⟩], cfg') ∧
      cfg'.term 0 = .goto top ∧ cfg'.block last = ⟨[], .branch flag done pending⟩ ∧
      ∀ host : Host CrewStmt, host.Below 0 → ∀ (σ : Store host) (c : Conf host),
        Reaches (step (cfg'.setGoto pending top)) ⟨.block 0, σ⟩ c →
        Unmistaken (cfg'.setGoto pending top) (machinesOf (crewHooks false) crew (crewRegion false)).1 c.store.log →
        KeepsRounds (cfg'.setGoto pending top) (crewRegion false) (machinesOf (crewHooks false) crew (crewRegion false)).1 0 false
          ⟨top, done, last, pending⟩ c :=
  oneshot_keeps_rounds crew_conforms.toMarked (@crew_conforms false).stmts_below []

end Krio.Stackless
