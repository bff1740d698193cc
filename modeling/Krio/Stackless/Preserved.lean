import Krio.Stackless.Following
import Krio.Stackless.Kept
import Krio.Stackless.Schedulers

/-! The loops of the two executors take the turns of the region: the transform keeps what the region does. -/

namespace Krio.Stackless
open Lib StateTransition

variable {U : Type} {host : Host U} {hooks : Hooks U} {cfg cfg' : Body U} {r : Region} {start n l0 allDone top : ℕ}
  {ms : List Machine} {τ τ' τ'' : Store host}

/-! ## A loop that counts who is done -/

/-- What the flags say of the pass. -/
structure Counted (tracks : Bool) (n allDone : ℕ) (s : Pass) (status : ℕ → Status) (locals : Locals) : Prop where
  done : locals allDone ≠ 0 ↔ ∀ j < s.turn, status j = .finished
  moved : tracks = true → locals n = if s.moved then 1 else 0

/-- The loop is about to take the next turn of the pass. -/
structure Due (tracks : Bool) (n count : ℕ) (x : Places) (s : Pass) (status : ℕ → Status) (b : ℕ) (locals : Locals) : Prop where
  place : b = x.check s.turn
  turn : s.turn ≤ count
  first : s.turn = 0 → s.moved = false
  counted : 0 < s.turn → Counted tracks n x.allDone s status locals

/-- Coroutine `k` has the turn of the pass. -/
structure OnTurn (tracks : Bool) (n count allDone : ℕ) (s : Pass) (status : ℕ → Status) (k : ℕ) (locals : Locals) : Prop where
  turn : s.turn = k ∧ k < count
  counted : Counted tracks n allDone s status locals

section
variable {dead : Option U} {tracks : Bool} {A : ℕ → Prop} {x : Places} {s : Pass} {status : ℕ → Status} {b : ℕ}
  (h : Turns dead tracks A cfg' cfg.locals.length ms x)
include h

/-- A turn begins with the question whether the machine is done. -/
theorem Turns.asked (hd : Due tracks cfg.locals.length ms.length x s status b τ.locals) {m : Machine}
    (hm : ms[s.turn]? = some m) : ∃ τ', step cfg' ⟨.block b, τ⟩ =
      some ⟨.block (if τ.locals m.stateLocal = doneState then x.afterPoll s.turn else m.dispatchBb), τ'⟩ ∧
      Unseen cfg.locals.length ms τ τ' ∧ Counted tracks cfg.locals.length x.allDone s status τ'.locals := by
  obtain ⟨τ', hstep, hunseen, hflag, hprogress⟩ := h.asks τ hm
  rw [← hd.place] at hstep
  refine ⟨τ', hstep, hunseen, ?_, fun htracks => ?_⟩
  · rw [hflag]
    split
    · rename_i h0
      rw [h0]
      exact iff_of_true one_ne_zero fun j hj => absurd hj (Nat.not_lt_zero j)
    · exact (hd.counted (Nat.pos_of_ne_zero ‹_›)).done
  · rw [hprogress htracks]
    split
    · rename_i h0
      rw [hd.first h0]
      rfl
    · exact (hd.counted (Nat.pos_of_ne_zero ‹_›)).moved htracks

/-- A pass that ends with a coroutine unfinished goes on, or to the block `shut`. -/
theorem Turns.unfinished (hd : Due tracks cfg.locals.length ms.length x s status b τ.locals) (hpos : 0 < ms.length)
    (hlt : ¬s.turn < ms.length) (hfin : ¬∀ k < ms.length, status k = .finished) : ∃ τ', Unseen cfg.locals.length ms τ τ' ∧
      Reaches₁ (step cfg') ⟨.block b, τ⟩ ⟨.block (if tracks && s.moved then x.check 0 else x.shut), τ'⟩ := by
  have hend : s.turn = ms.length := le_antisymm hd.turn (not_lt.mp hlt)
  have hcounted := hd.counted (hend ▸ hpos)
  have hflag : τ.locals x.allDone = 0 := by
    by_contra hne
    exact hfin (hend ▸ hcounted.done.mp hne)
  obtain ⟨τ', hunseen, -, hdeparts⟩ := h.stays τ hflag
  have hgoal : (if tracks = true ∧ τ.locals cfg.locals.length = 1 then x.check 0 else x.shut) =
      if tracks && s.moved then x.check 0 else x.shut := by
    refine if_congr ?_ rfl rfl
    rw [Bool.and_eq_true]
    refine and_congr_right fun htracks => ?_
    rw [hcounted.moved htracks]
    split <;> simp_all
  rw [← hend, ← hd.place, hgoal] at hdeparts
  exact ⟨τ', hunseen, hdeparts.reaches₁⟩

/-- Such a loop is that of the round-robin scheduler. -/
theorem Turns.schedules (hall : l0 ≤ x.allDone) (htop : x.check 0 = top) (hpos : 0 < ms.length)
    (hdead : ∀ u, dead = some u → tracks = true ∧ hooks.deadlock = some u)
    (hbehind : cfg'.block x.post = ⟨[], cfg.term r.regionEnd.1⟩) :
    Schedules hooks (roundRobin ms.length dead.isSome) cfg cfg' r ms l0 top x.post
      (Due tracks cfg.locals.length ms.length x) (OnTurn tracks cfg.locals.length ms.length x.allDone) where
  behind := hbehind
  enters τ := ⟨top, τ, .refl, .refl _ ms τ, htop.symm, Nat.zero_le _, fun _ => rfl, fun h0 => absurd h0 (lt_irrefl 0)⟩
  turn := by
    intro host τ s status b k hd htold hchoice
    simp only [roundRobin] at hchoice
    split_ifs at hchoice with hlt hs
    · cases hchoice
      have hm := List.getElem?_eq_getElem hlt
      obtain ⟨τ', hstep, hunseen, hcounted⟩ := h.asked hd hm
      rw [if_neg fun heq => hs ((htold _ _ hm).2 heq)] at hstep
      exact ⟨hs, _, hm, τ', .single hstep, hunseen, ⟨rfl, hlt⟩, hcounted⟩
  goOn := by
    intro host τ s s' status b hd htold hchoice
    simp only [roundRobin] at hchoice
    split_ifs at hchoice with hlt hs hfin hrep
    · cases hchoice
      have hm := List.getElem?_eq_getElem hlt
      obtain ⟨hdone, hready⟩ := (htold _ _ hm).1 hs
      obtain ⟨τ', hstep, hunseen, hcounted⟩ := h.asked hd hm
      rw [if_pos hdone] at hstep
      obtain ⟨hq1, hq2⟩ := hunseen.machines _ (List.mem_of_getElem? hm)
      obtain ⟨τ'', hdeparts, hunseen', hflag, hprogress⟩ := h.ready τ' hm ⟨hq1.trans hdone, hq2.trans hready⟩
      refine ⟨_, τ'', .head hstep hdeparts.reaches₁, hunseen.trans hunseen', rfl, hlt, by rintro ⟨⟩, fun _ => ⟨?_, hprogress⟩⟩
      rw [hflag, Nat.forall_lt_succ_right, and_iff_left hs]
      exact hcounted.done
    · cases hchoice
      obtain ⟨τ', hunseen, hreach⟩ := h.unfinished hd hpos hlt hfin
      have hdue : ∀ υ : Locals, Due tracks cfg.locals.length ms.length x ⟨0, false⟩ status (x.check 0) υ := fun υ =>
        ⟨rfl, Nat.zero_le _, fun _ => rfl, fun h0 => absurd h0 (lt_irrefl 0)⟩
      split_ifs at hreach with hmoved
      · exact ⟨_, τ', hreach, hunseen, hdue _⟩
      · -- a loop that has no report begins again all the same
        have hnone : dead = none := by
          by_contra hne
          obtain ⟨u, hu⟩ := Option.ne_none_iff_exists'.mp hne
          rw [(hdead u hu).1, Bool.true_and] at hmoved
          exact hrep (by rw [hu, Bool.eq_false_iff.mpr hmoved]; rfl)
        have hshut := h.shut
        rw [hnone] at hshut
        obtain ⟨τ'', hgoto, rfl⟩ := goto_step hshut τ'
        exact ⟨_, _, hreach.tail hgoto, hunseen.trans (.note _ τ'), hdue _⟩
  leave := by
    intro host τ s status b hd htold hchoice
    simp only [roundRobin] at hchoice
    split_ifs at hchoice with hlt hs hfin
    · have hend : s.turn = ms.length := le_antisymm hd.turn (not_lt.mp hlt)
      have hcounted := hd.counted (hend ▸ hpos)
      obtain ⟨τ₁, hunseen, hstep⟩ := h.leaves τ (hcounted.done.mpr (hend ▸ hfin))
      rw [← hend, ← hd.place] at hstep
      obtain ⟨τ₂, hgoto, rfl⟩ := goto_step h.leave τ₁
      exact ⟨_, .tail (.single hstep) hgoto, hunseen.trans (.note _ τ₁)⟩
  report := by
    intro host τ s status b hd htold hchoice
    simp only [roundRobin] at hchoice
    split_ifs at hchoice with hlt hs hfin hrep
    · obtain ⟨hsome, hmoved⟩ := Bool.and_eq_true_iff.mp hrep
      obtain ⟨u, hu⟩ := Option.isSome_iff_exists.mp hsome
      obtain ⟨τ', hunseen, hreach⟩ := h.unfinished hd hpos hlt hfin
      rw [if_neg (by simpa using fun _ => hmoved)] at hreach
      have hshut := h.shut
      rw [hu] at hshut
      exact ⟨u, _, (hdead u hu).2, hreach.tail (congrArg some (runBlock_of hshut τ')), hunseen.trans (.note _ τ')⟩
  apart := by
    rintro s status k locals locals' hsame ⟨hturn, hdone, hmoved⟩
    refine ⟨hturn, ?_, fun htracks => ?_⟩
    · rw [hsame x.allDone (.inr hall)]
      exact hdone
    · rw [hsame _ (.inl rfl)]
      exact hmoved htracks
  passed := by
    rintro s status k locals locals' hsame hone ⟨hturn, hdone, -⟩
    refine ⟨hturn, ?_, fun _ => hone⟩
    rw [hsame x.allDone hall]
    exact hdone
  ended := by
    rintro host τ (s : Pass) status status' k m outcome ⟨⟨rfl, hlt⟩, hdone, hmoved⟩ hm hended hothers hfin
    have hexit := runBlock_of (h.exits hm) τ
    have hnote : Unseen cfg.locals.length ms τ (τ.note (.enter m.exitBb)) := .note _ τ
    have hlocals : (τ.note (.enter m.exitBb)).locals = τ.locals := rfl
    have hbefore : (∀ j < s.turn, status' j = .finished) ↔ ∀ j < s.turn, status j = .finished :=
      forall₂_congr fun j hj => by rw [hothers j hj.ne]
    have hpending : outcome ≠ .finished → τ.locals m.pollResultLocal ≠ pollReady →
        (τ.locals m.pollResultLocal = pollBlocked ↔ outcome = .blocked) → ∃ b τ', Reaches₁ (step cfg') ⟨.block m.exitBb, τ⟩ ⟨.block b, τ'⟩ ∧
          Unseen cfg.locals.length ms τ τ' ∧ Due tracks cfg.locals.length ms.length x
            ((roundRobin ms.length dead.isSome).ended s s.turn outcome) status' b τ'.locals := by
      intro hne hpoll hblocked
      obtain ⟨τ', hdeparts, hunseen, hflag, hprogress⟩ := h.pending (τ.note (.enter m.exitBb)) hm hpoll
      refine ⟨_, τ', .head (congrArg some hexit) hdeparts.reaches₁, hnote.trans hunseen, rfl, hlt, by rintro ⟨⟩,
        fun _ => ⟨?_, fun htracks => ?_⟩⟩
      · rw [hflag]
        exact iff_of_false (not_not_intro rfl) fun hall' => hne (hfin.mp (hall' _ (Nat.lt_succ_self _)))
      · rw [hprogress htracks, hlocals]
        by_cases hb : outcome = .blocked
        · subst hb
          rw [if_pos (hblocked.mpr rfl), hmoved htracks]
          simp [roundRobin]
        · rw [if_neg (mt hblocked.mp hb)]
          simp [roundRobin, hb]
    cases outcome with
    | finished =>
      obtain ⟨τ', hdeparts, hunseen, hflag, hprogress⟩ := h.ready (τ.note (.enter m.exitBb)) hm hended
      refine ⟨_, τ', .head (congrArg some hexit) hdeparts.reaches₁, hnote.trans hunseen, rfl, hlt, by rintro ⟨⟩,
        fun _ => ⟨?_, fun htracks => ?_⟩⟩
      · rw [hflag]
        refine hdone.trans (hbefore.symm.trans ?_)
        exact (Nat.forall_lt_succ_right.trans (and_iff_left (hfin.mpr rfl))).symm
      · rw [hprogress htracks]
        simp [roundRobin]
    | ran =>
      have hpoll : τ.locals m.pollResultLocal = pollPending := hended
      exact hpending (by rintro ⟨⟩) (by rw [hpoll]; decide) (by rw [hpoll]; decide)
    | blocked =>
      have hpoll : τ.locals m.pollResultLocal = pollBlocked := hended
      exact hpending (by rintro ⟨⟩) (by rw [hpoll]; decide) (iff_of_true hpoll rfl)

end

/-! ## The executors -/

/-- A body with one region is transformed once, and left without markers. -/
theorem Marked.ran_once {X : Type} {f : Executor U X} {e : X} (h : Marked hooks cfg r start) (hfind : findRegions hooks cfg = [r])
    (honly : OnlyMarkers hooks cfg r) (hdead : ∀ u, hooks.deadlock = some u → hooks.marker u = none)
    (hout : (∃ loops, (transformRegion hooks f e cfg r).2 = (transformRegion hooks (cooperative hooks) loops cfg r).2) ∨
      ∃ exits, (transformRegion hooks f e cfg r).2 = (transformRegion hooks waker exits cfg r).2) (rounds : ℕ) :
    runWith hooks f (rounds + 2) e cfg = some (transformRegion hooks f e cfg r) := by
  obtain ⟨ms, cfgM, top, E, hw⟩ := h.rewritten hout
  exact runWith_single hfind h.nonempty (findRegions_nil fun b hb i m hm => hw.no_markers honly hdead hb hm) rounds

/-- The round-robin executor keeps what a region without priorities does: its machines take their turns as the coroutines
    do, up to the next suspension each, from any store the function is called in. -/
theorem roundRobin_preserves (hconf : Conforms hooks cfg r start) (hfind : findRegions hooks cfg = [r])
    (honly : OnlyMarkers hooks cfg r) (hprio : r.coroutines.any (·.priority.isSome) = false)
    (hdead : ∀ u, hooks.deadlock = some u → hooks.marker u = none)
    (hfew : ∀ c ∈ r.coroutines, (findSuspensionPoints hooks cfg c).length < 9999) (loops : List Loop) (rounds : ℕ) :
    ∃ loops' cfg', runWith hooks (cooperative hooks) (rounds + 2) loops cfg = some (loops', cfg') ∧
      ∀ host : Host U, host.Below cfg.locals.length → ∀ σ : Store host,
        SameRuns hooks (roundRobin r.coroutines.length hooks.deadlock.isSome) cfg cfg' r start σ := by
  have hran := hconf.toMarked.ran_once (e := loops) hfind honly hdead (.inl ⟨loops, rfl⟩) rounds
  obtain ⟨ms, top, l0, cfg', heq, -, hne, -, hloop, hst⟩ := hconf.toMarked.roundRobin_staged hprio hconf.stmts_below loops
  rw [heq] at hran
  have hpos := List.length_pos_iff.mpr hne
  have hsched := (hloop.turns_of hst.locals hne).schedules (r := r) le_rfl (coopPlaces_check hpos) hpos (fun _ hu => ⟨rfl, hu⟩)
    hloop.post
  rw [hst.count] at hsched
  exact ⟨_, _, hran, fun host hb σ => hsched.sameRuns hconf hst hb hfew σ⟩

/-- The one-shot executor keeps what a region does, if its `pending` exit leads back to its top with the locals as they
    are. It takes no notice of priorities and reports no deadlock. -/
theorem oneshot_preserves (hconf : Conforms hooks cfg r start) (hfind : findRegions hooks cfg = [r])
    (honly : OnlyMarkers hooks cfg r) (hdead : ∀ u, hooks.deadlock = some u → hooks.marker u = none)
    (hfew : ∀ c ∈ r.coroutines, (findSuspensionPoints hooks cfg c).length < 9999) (exits : List RegionExits) (rounds : ℕ) :
    ∃ done pending top cfg', runWith hooks waker (rounds + 2) exits cfg = some (exits ++ [⟨done, pending⟩], cfg') ∧
      cfg'.term r.regionBegin.1 = .goto top ∧ ∀ host : Host U, host.Below cfg.locals.length → ∀ σ : Store host,
        SameRuns hooks (roundRobin r.coroutines.length false) cfg (cfg'.setGoto pending top) r start σ := by
  have hran := hconf.toMarked.ran_once (e := exits) hfind honly hdead (.inr ⟨exits, rfl⟩) rounds
  obtain ⟨ms, top, l0, cfg', heq, -, hne, hexits, hhead, hpoll, hst⟩ := hconf.toMarked.oneshot_staged hconf.stmts_below exits
  rw [heq] at hran
  have hpos := List.length_pos_iff.mpr hne
  have hnone : ∀ u, none = some u → false = true ∧ hooks.deadlock = some u := nofun
  have hsched := (hpoll.turns_of hst.locals hne hexits).schedules le_rfl (oneshotPlaces_check hpos) hpos hnone
    ((Function.update_of_ne (show top + 3 ≠ top + 2 by omega) _ _).trans hpoll.post)
  rw [hst.count] at hsched
  exact ⟨_, _, _, _, hran, hhead, fun host hb σ => hsched.sameRuns hconf hst hb hfew σ⟩

/-! ## An example -/

/-- Three coroutines, one of them with a guard, under the round-robin loop with its deadlock report. -/
theorem roundRobin_preserves_crew :
    ∃ loops' cfg', runWith (crewHooks false) (cooperative (crewHooks false)) 2 [] crew = some (loops', cfg') ∧
      ∀ host : Host CrewStmt, host.Below 0 → ∀ σ : Store host,
        SameRuns (crewHooks false) (roundRobin 3 true) crew cfg' (crewRegion false) 0 σ :=
  roundRobin_preserves crew_conforms crew_found crew_only_markers rfl (by simp [crewHooks]) crew_few [] 0

/-- And, whatever their priorities, under the one-shot poll. -/
theorem oneshot_preserves_crew :
    ∃ done pending top cfg', runWith (crewHooks true) waker 2 [] crew = some ([] ++ [⟨done, pending⟩], cfg') ∧
      cfg'.term 0 = .goto top ∧ ∀ host : Host CrewStmt, host.Below 0 → ∀ σ : Store host,
        SameRuns (crewHooks true) (roundRobin 3 false) crew (cfg'.setGoto pending top) (crewRegion true) 0 σ :=
  oneshot_preserves crew_conforms crew_found crew_only_markers (by simp [crewHooks]) crew_few [] 0

end Krio.Stackless
