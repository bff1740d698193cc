import Krio.Stackless.RoundRuns

/-! Where control is in a body with a loop that knows no priorities, and what holds there: one step after another keeps it. -/

namespace Krio.Stackless
open StateTransition

variable {U : Type} {host : Host U} {hooks : Hooks U} {cfg cfg' : Body U} {r : Region} {start : ℕ} {ms : List Machine}
  {dead : Option U} {tracks : Bool} {A E : ℕ → Prop} {x : Places} {l0 : ℕ}

/-- The places of a loop over `count` machines that stand for a decision. -/
def Places.outer (x : Places) (count : ℕ) : List ℕ := [x.check 0, x.check count, x.leave, x.shut, x.post]

variable (hooks cfg cfg' r start ms dead tracks A E x l0) in
/-- A body with a loop over its coroutines that knows no priorities. Its blocks are those in `E`, and its locals those from
    `l0` on. -/
structure Rounded : Prop where
  staged : Staged hooks cfg cfg' r start ms (x.check 0) l0 E
  turns : Turns dead tracks A cfg' cfg.locals.length ms x
  allDone : l0 ≤ x.allDone
  post : cfg'.block x.post = ⟨[], cfg.term r.regionEnd.1⟩
  apart : (x.outer ms.length).Nodup
  outer : ∀ b ∈ x.outer ms.length, E b ∧ ¬BehindGuard cfg' cfg.locals.length b
  inner : ∀ b, (A b ∨ (∃ m ∈ ms, b = m.exitBb) ∨ ∃ k, 0 < k ∧ k < ms.length ∧ b = x.check k) →
    E b ∧ ¬BehindGuard cfg' cfg.locals.length b ∧ b ∉ x.outer ms.length

variable (hooks cfg cfg' r start ms tracks E x l0) in
/-- Coroutine `k` has its turn. -/
structure TurnBegun (k : ℕ) (m : Machine) (c : Coroutine) (σ : Store host) : Prop where
  drives : ms[k]? = some m ∧ r.coroutines[k]? = some c
  rests : Resting hooks cfg r start ms σ
  opens : ¬Finished r c σ.log
  passed : Passed r ms (x.check 0) k σ.log
  flagged : Flagged cfg' r ms cfg.locals.length x.allDone (x.check 0) tracks k σ

variable (hooks cfg cfg' r start ms tracks x) in
/-- Coroutine `k` was polled, or is finished, and the flags do not know yet. -/
structure TurnOver (k : ℕ) (m : Machine) (c : Coroutine) (σ : Store host) : Prop where
  drives : ms[k]? = some m ∧ r.coroutines[k]? = some c
  rests : Resting hooks cfg r start ms σ
  passed : Passed r ms (x.check 0) (k + 1) σ.log
  flagged : Flagged cfg' r ms cfg.locals.length x.allDone (x.check 0) tracks k σ
  result : ¬Finished r c σ.log → σ.locals m.pollResultLocal ≠ pollReady ∧
    ∀ v, .set m.pollResultLocal v ∈ since (x.check 0) σ.log → v = σ.locals m.pollResultLocal

variable (hooks cfg cfg' r start ms tracks E x l0) in
/-- What holds where control is in the loop, but for the blocks between the end of a poll and the next turn. -/
inductive TurnHeld : Conf host → Prop
  | outside {place : At} {σ : Store host} (plain : ∀ b, place = .block b → Plain cfg r start b) : TurnHeld ⟨place, σ⟩
  | check {k : ℕ} {σ : Store host} (hk : k ≤ ms.length) (rests : Resting hooks cfg r start ms σ)
      (passed : 0 < k → Passed r ms (x.check 0) k σ.log)
      (flagged : 0 < k → Flagged cfg' r ms cfg.locals.length x.allDone (x.check 0) tracks k σ) : TurnHeld ⟨.block (x.check k), σ⟩
  | dispatch {k : ℕ} {m : Machine} {c : Coroutine} {σ : Store host}
      (turn : TurnBegun hooks cfg cfg' r start ms tracks x k m c σ) : TurnHeld ⟨.block m.dispatchBb, σ⟩
  | poll {k place entry done : ℕ} {m : Machine} {c : Coroutine} {σ₀ σ : Store host} {F : ℕ → Prop} {entries : List ℕ}
      {new : List (Event U)} (turn : TurnBegun hooks cfg cfg' r start ms tracks x k m c σ₀) (hF : Own cfg ms E F)
      (lowered : Lowered cfg cfg' r F (Scratch cfg l0 ms) c (findSuspensionPoints hooks cfg c) m entry entries done)
      (live : Live hooks cfg cfg' r ms l0 E F c m entry entries done (σ₀.note (.enter m.dispatchBb)) place σ new) :
      TurnHeld ⟨.block place, σ⟩
  | ended {k place : ℕ} {m : Machine} {c : Coroutine} {σ : Store host} (turn : TurnOver hooks cfg cfg' r start ms tracks x k m c σ)
      (hplace : place = m.exitBb ∨ place = x.afterPoll k) : TurnHeld ⟨.block place, σ⟩
  | leave {σ : Store host} (rests : Resting hooks cfg r start ms σ) (hdone : ∀ c ∈ r.coroutines, Finished r c σ.log) :
      TurnHeld ⟨.block x.leave, σ⟩
  | shut {σ : Store host} (rests : Resting hooks cfg r start ms σ) (opens : ∃ c ∈ r.coroutines, ¬Finished r c σ.log)
      (passed : Passed r ms (x.check 0) ms.length σ.log)
      (idle : tracks = true → Idle cfg' r ms cfg.locals.length (x.check 0) ms.length σ.log) : TurnHeld ⟨.block x.shut, σ⟩
  | post {σ : Store host} (rests : Resting hooks cfg r start ms σ) : TurnHeld ⟨.block x.post, σ⟩

variable (hooks cfg cfg' r start ms tracks A E x l0) in
/-- What holds wherever control is: it is on the way to such a place. -/
def Turning (c : Conf host) : Prop := ∃ c', Through cfg' A c c' ∧ TurnHeld hooks cfg cfg' r start ms tracks E x l0 c'

section
variable {k : ℕ} {m : Machine} {c : Coroutine} {σ τ : Store host} {a : Conf host} {B : ℕ → Prop} {add : List (Event U)}
variable (h : Rounded hooks cfg cfg' r start ms dead tracks A E x l0)
include h

theorem Rounded.through (hb : A k) : Inner cfg cfg' E (x.check 0) k := by
  obtain ⟨h1, h2, h3⟩ := h.inner k (.inl hb)
  exact ⟨h1, fun heq => h3 (heq ▸ by simp [Places.outer]), h2⟩

theorem Rounded.at_exit (hm : m ∈ ms) : Inner cfg cfg' E (x.check 0) m.exitBb := by
  obtain ⟨h1, h2, h3⟩ := h.inner _ (.inr (.inl ⟨m, hm, rfl⟩))
  exact ⟨h1, fun heq => h3 (heq ▸ by simp [Places.outer]), h2⟩

/-- The places of a decision are not the first block, but for that itself. -/
theorem Rounded.at_outer (hk : k = x.check ms.length ∨ k = x.leave ∨ k = x.shut ∨ k = x.post) : Inner cfg cfg' E (x.check 0) k := by
  have hmem : k ∈ x.outer ms.length := by
    rcases hk with rfl | rfl | rfl | rfl <;> simp [Places.outer]
  have hne := (List.nodup_cons.mp h.apart).1
  refine ⟨(h.outer k hmem).1, fun heq => hne ?_, (h.outer k hmem).2⟩
  rw [← heq]
  rcases hk with rfl | rfl | rfl | rfl <;> simp

theorem Rounded.at_check (hpos : 0 < k) (hk : k ≤ ms.length) : Inner cfg cfg' E (x.check 0) (x.check k) := by
  rcases hk.lt_or_eq with hlt | rfl
  · obtain ⟨h1, h2, h3⟩ := h.inner _ (.inr (.inr ⟨k, hpos, hlt, rfl⟩))
    exact ⟨h1, fun heq => h3 (heq ▸ by simp [Places.outer]), h2⟩
  · exact h.at_outer (.inl rfl)

theorem Rounded.pair (hk : k < ms.length) : ∃ m c, ms[k]? = some m ∧ r.coroutines[k]? = some c :=
  ⟨_, _, List.getElem?_eq_getElem hk, List.getElem?_eq_getElem (h.staged.count ▸ hk)⟩

/-- All coroutines are finished where the first `ms.length` are. -/
theorem Rounded.all_finished {log : List (Event U)} :
    (∀ j < ms.length, ∀ c, r.coroutines[j]? = some c → Finished r c log) ↔ ∀ c ∈ r.coroutines, Finished r c log := by
  constructor
  · intro hall c hc
    obtain ⟨j, hj⟩ := List.mem_iff_getElem?.mp hc
    exact hall j (h.staged.count ▸ (List.getElem?_eq_some_iff.mp hj).1) c hj
  · exact fun hall j _ c hc => hall c (List.mem_of_getElem? hc)

/-! ## A step, place by place -/

/-- A turn begins with the question whether the machine is done. -/
theorem Rounded.step_check (hk : k < ms.length) (rests : Resting hooks cfg r start ms σ)
    (passed : 0 < k → Passed r ms (x.check 0) k σ.log)
    (flagged : 0 < k → Flagged cfg' r ms cfg.locals.length x.allDone (x.check 0) tracks k σ)
    (hstep : step cfg' ⟨.block (x.check k), σ⟩ = some a) : TurnHeld hooks cfg cfg' r start ms tracks E x l0 a := by
  obtain ⟨m, c, hm, hc⟩ := h.pair hk
  obtain ⟨τ, hasks, hunseen, hall, hprogress⟩ := h.turns.asks σ hm
  rw [hasks] at hstep
  obtain rfl := Option.some.inj hstep
  obtain ⟨add, hq⟩ := Through.calm (B := (· = x.check k)) (.step rfl hasks) hunseen
  have hE : ∀ b, b = x.check k → E b := fun b hb => by
    rw [hb]
    rcases Nat.eq_zero_or_pos k with rfl | hpos
    · exact (h.outer _ (by simp [Places.outer])).1
    · exact (h.at_check hpos hk.le).executor
  have hrests : Resting hooks cfg r start ms τ := hq.resting h.staged hE rests
  have hround : Passed r ms (x.check 0) k τ.log ∧ Flagged cfg' r ms cfg.locals.length x.allDone (x.check 0) tracks k τ := by
    rcases Nat.eq_zero_or_pos k with rfl | hpos
    · exact pass_begins hasks hunseen hall hprogress
    · have hB : ∀ b, b = x.check k → Inner cfg cfg' E (x.check 0) b := fun b hb => hb ▸ h.at_check hpos hk.le
      rw [if_neg hpos.ne'] at hall
      exact ⟨hq.passed h.staged hB (passed hpos), hq.flagged h.staged hB (flagged hpos) hall fun ht => by
        rw [hprogress ht, if_neg hpos.ne']⟩
  obtain ⟨hpassed, hflagged⟩ := hround
  have hd : Drives r ms m c := ⟨k, hc, hm⟩
  have hstate : σ.locals m.stateLocal = doneState ↔ Finished r c τ.log := by
    rw [← (hunseen.machines m hd.mem.1).1]
    exact hrests.finished_iff hd
  by_cases hfin : Finished r c τ.log
  · rw [if_pos (hstate.mpr hfin)]
    exact .ended ⟨⟨hm, hc⟩, hrests, hpassed.next hm hc hfin, hflagged, fun hopen => absurd hfin hopen⟩ (.inr rfl)
  · rw [if_neg (mt hstate.mp hfin)]
    exact .dispatch ⟨⟨hm, hc⟩, hrests, hfin, hpassed, hflagged⟩

theorem Rounded.step_dispatch (hb : host.Below cfg.locals.length) (turn : TurnBegun hooks cfg cfg' r start ms tracks x k m c σ) :
    TurnHeld hooks cfg cfg' r start ms tracks E x l0 (runBlock cfg' m.dispatchBb σ) := by
  have hd : Drives r ms m c := ⟨k, turn.drives.2, turn.drives.1⟩
  obtain ⟨F, entry, entries, done, hF, hl⟩ := h.staged.lowered m c hd
  have hw := (turn.rests.status m c hd).resolve_left fun hfin => turn.opens hfin.2
  obtain ⟨e, new, hplace, -, hlive⟩ := Live.begins h.staged hd hF hl hb hw.1
  rw [Conf.eq_of hplace rfl]
  exact .poll turn hF hl hlive

theorem Rounded.step_poll {place entry done : ℕ} {F : ℕ → Prop} {entries : List ℕ} {new : List (Event U)}
    (hb : host.Below cfg.locals.length) (turn : TurnBegun hooks cfg cfg' r start ms tracks x k m c σ) (hF : Own cfg ms E F)
    (hl : Lowered cfg cfg' r F (Scratch cfg l0 ms) c (findSuspensionPoints hooks cfg c) m entry entries done)
    (hlive : Live hooks cfg cfg' r ms l0 E F c m entry entries done (σ.note (.enter m.dispatchBb)) place τ new)
    (hnot : ∀ y res, Suspends cfg' m y doneState res → .enter y ∉ (runBlock cfg' place τ).store.log) :
    TurnHeld hooks cfg cfg' r start ms tracks E x l0 (runBlock cfg' place τ) := by
  obtain ⟨⟨hm, hc⟩, hrests, hopens, hpassed, hflagged⟩ := id turn
  have hd : Drives r ms m c := ⟨k, hc, hm⟩
  have htop : E (x.check 0) := (h.outer _ (by simp [Places.outer])).1
  rcases hlive.step h.staged hd hF hl hb with ⟨b', new', hplace, hlive'⟩ | ⟨new', res, hplace, hpolled⟩ | ⟨new', -, -, hplace⟩
  · rw [Conf.eq_of hplace rfl]
    exact .poll turn hF hl hlive'
  · have hready := hpolled.ready_iff h.staged hd.mem.1 hnot
    obtain ⟨pre, post, hv⟩ := hpolled.served h.staged hd hnot
    have hrests' := hv.resting h.staged hd hrests hopens hready
    rw [Conf.eq_of hplace rfl]
    refine .ended ⟨⟨hm, hc⟩, hrests', hv.passed h.staged hd htop hm hpassed, hv.flagged h.staged hd htop h.allDone hm hflagged,
      fun hopen => ⟨?_, fun v hin => hv.result_unique h.staged hd htop hm hpassed hin⟩⟩ (.inl rfl)
    rw [hv.result, Ne, hready, hrests'.finished_iff hd]
    exact hopen
  · refine Conf.eq_of (c := runBlock cfg' place τ) rfl rfl ▸ .outside fun b hb' => ?_
    rcases hplace with hplace | hnone
    · exact At.block.inj (hplace.symm.trans hb') ▸ hrests.region
    · exact absurd hb' (hnone b)

/-- The exit of a machine leads to where the poll comes back. -/
theorem Rounded.step_exit (turn : TurnOver hooks cfg cfg' r start ms tracks x k m c σ) :
    TurnHeld hooks cfg cfg' r start ms tracks E x l0 (runBlock cfg' m.exitBb σ) := by
  obtain ⟨⟨hm, hc⟩, hrests, hpassed, hflagged, hresult⟩ := turn
  have hrun := runBlock_of (h.turns.exits hm) σ
  have hB : ∀ b, b = m.exitBb → Inner cfg cfg' E (x.check 0) b := fun b hb => hb ▸ h.at_exit (List.mem_of_getElem? hm)
  have hunseen : Unseen cfg.locals.length ms σ _ := .note m.exitBb σ
  obtain ⟨add, hq⟩ := Through.calm (B := (· = m.exitBb)) (.step rfl (congrArg some hrun)) hunseen
  rw [hrun]
  refine .ended ⟨⟨hm, hc⟩, hq.resting h.staged (fun b hb => (hB b hb).executor) hrests, hq.passed h.staged hB hpassed,
    hq.flagged h.staged hB hflagged rfl fun _ => rfl, fun hopen => ?_⟩ (.inr rfl)
  rw [hq.finished_iff h.staged (fun b hb => (hB b hb).executor) (List.mem_of_getElem? hc)] at hopen
  refine ⟨(hresult hopen).1, fun v hin => (hresult hopen).2 v ?_⟩
  exact ((hq.mem_since h.staged hB (List.mem_of_getElem? hm)).2 v).mp hin

/-- The flags take note of the turn, and the next one is due. -/
theorem Rounded.step_over (turn : TurnOver hooks cfg cfg' r start ms tracks x k m c σ)
    (hstep : step cfg' ⟨.block (x.afterPoll k), σ⟩ = some a) : Turning hooks cfg cfg' r start ms tracks A E x l0 a := by
  obtain ⟨⟨hm, hc⟩, hrests, hpassed, hflagged, hresult⟩ := turn
  have hk := (List.getElem?_eq_some_iff.mp hm).1
  have hd : Drives r ms m c := ⟨k, hc, hm⟩
  have hB : ∀ b, A b → Inner cfg cfg' E (x.check 0) b := fun b hb => h.through hb
  have hE : ∀ b, A b → E b := fun b hb => (hB b hb).executor
  have hnext : ∀ {τ : Store host}, Departs cfg' A ⟨.block (x.afterPoll k), σ⟩ ⟨.block (x.check (k + 1)), τ⟩ →
      Unseen cfg.locals.length ms σ τ → Flagged cfg' r ms cfg.locals.length x.allDone (x.check 0) tracks (k + 1) τ →
      Turning hooks cfg cfg' r start ms tracks A E x l0 a := fun {τ} hdeparts hunseen hflagged' => by
    obtain ⟨add, hq⟩ := (hdeparts.through (h.turns.inside k hk)).calm hunseen
    obtain ⟨a', hstep', hthrough⟩ := hdeparts
    rw [hstep] at hstep'
    obtain rfl := Option.some.inj hstep'
    exact ⟨_, hthrough, .check hk (hq.resting h.staged hE hrests) (fun _ => hq.passed h.staged hB hpassed) fun _ => hflagged'⟩
  have hsucc : ∀ {log : List (Event U)}, (∀ j < k + 1, ∀ c, r.coroutines[j]? = some c → Finished r c log) ↔
      (∀ j < k, ∀ c, r.coroutines[j]? = some c → Finished r c log) ∧ Finished r c log := fun {log} =>
    Nat.forall_lt_succ_right.trans (and_congr_right fun _ => ⟨fun hall => hall c hc, fun hfin c' hc' => by
      cases hc.symm.trans hc'
      exact hfin⟩)
  by_cases hfin : Finished r c σ.log
  · have hended := ((hrests.status m c hd).resolve_right fun hw => hw.2 hfin).1
    obtain ⟨τ, hdeparts, hunseen, hall, hprogress⟩ := h.turns.ready σ hm hended
    obtain ⟨add, hq⟩ := (hdeparts.through (h.turns.inside k hk)).calm hunseen
    have hfin' := (hq.finished_iff h.staged hE hd.mem.2).mpr hfin
    refine hnext hdeparts hunseen ⟨?_, fun ht => .inl ⟨hprogress ht, fun hi => (hi.stays k (Nat.lt_succ_self k) m c hm hc).1 hfin'⟩⟩
    rw [hall, hflagged.done, hsucc, and_iff_left hfin']
    exact forall₄_congr fun j _ c' hc' => (hq.finished_iff h.staged hE (List.mem_of_getElem? hc')).symm
  · obtain ⟨hpoll, hunique⟩ := hresult hfin
    obtain ⟨τ, hdeparts, hunseen, hall, hprogress⟩ := h.turns.pending σ hm hpoll
    obtain ⟨add, hq⟩ := (hdeparts.through (h.turns.inside k hk)).calm hunseen
    have hopen := mt (hq.finished_iff h.staged hE hd.mem.2).mp hfin
    refine hnext hdeparts hunseen ⟨iff_of_false (not_not_intro hall) fun hf => hopen (hsucc.mp hf).2, fun ht => ?_⟩
    obtain ⟨-, v, hin⟩ := (hpassed.taken k (Nat.lt_succ_self k) m c hm hc).resolve_left hfin
    obtain rfl := hunique v hin
    have hidle : Idle cfg' r ms cfg.locals.length (x.check 0) (k + 1) τ.log ↔
        Idle cfg' r ms cfg.locals.length (x.check 0) k σ.log ∧ σ.locals m.pollResultLocal = pollBlocked := by
      rw [hq.idle_iff h.staged hB, idle_succ hm hc]
      refine and_congr_right fun _ => ⟨fun hi => hi.2 _ hin, fun hblocked => ⟨hfin, fun v hv => ?_⟩⟩
      rw [hunique v hv, hblocked]
    rw [hprogress ht, hidle]
    by_cases hblocked : σ.locals m.pollResultLocal = pollBlocked
    · rw [if_pos hblocked, and_iff_left hblocked]
      exact hflagged.moved ht
    · rw [if_neg hblocked]
      exact .inl ⟨rfl, fun hi => hblocked hi.2⟩

/-- At the end of a pass the loop is left, or goes on with the next pass or with the end of the loop. -/
theorem Rounded.step_last (rests : Resting hooks cfg r start ms σ) (passed : Passed r ms (x.check 0) ms.length σ.log)
    (flagged : Flagged cfg' r ms cfg.locals.length x.allDone (x.check 0) tracks ms.length σ)
    (hstep : step cfg' ⟨.block (x.check ms.length), σ⟩ = some a) : Turning hooks cfg cfg' r start ms tracks A E x l0 a := by
  have hB : ∀ b, (A b ∨ b = x.check ms.length) → Inner cfg cfg' E (x.check 0) b := fun b hb =>
    hb.elim h.through fun heq => heq ▸ h.at_outer (.inl rfl)
  have hE : ∀ b, (A b ∨ b = x.check ms.length) → E b := fun b hb => (hB b hb).executor
  by_cases hall : σ.locals x.allDone = 0
  · obtain ⟨τ, hunseen, hkeep, a', hstep', hthrough⟩ := h.turns.stays σ hall
    rw [hstep] at hstep'
    obtain rfl := Option.some.inj hstep'
    obtain ⟨add, hq⟩ := Through.calm (B := fun b => A b ∨ b = x.check ms.length) (a := ⟨.block (x.check ms.length), σ⟩)
      (.head (.inr rfl) ((Option.some.inj hstep) ▸ hthrough.mono fun _ => Or.inl)) hunseen
    have hrests := hq.resting h.staged hE rests
    refine ⟨_, hthrough, ?_⟩
    split
    · exact .check (Nat.zero_le _) hrests (fun hpos => absurd hpos (lt_irrefl 0)) fun hpos => absurd hpos (lt_irrefl 0)
    · rename_i hnot
      refine .shut hrests ?_ (hq.passed h.staged hB passed) fun ht => ?_
      · by_contra hnone
        refine (flagged.done.mpr (h.all_finished.mpr fun c hc => ?_)) hall
        by_contra hopen
        exact hnone ⟨c, hc, mt (hq.finished_iff h.staged hE hc).mp hopen⟩
      · rw [hq.idle_iff h.staged hB]
        exact ((flagged.moved ht).resolve_left fun hone => hnot ⟨ht, hone.1⟩).2
  · obtain ⟨τ, hunseen, hstep'⟩ := h.turns.leaves σ hall
    obtain ⟨add, hq⟩ := Through.calm (B := fun b => A b ∨ b = x.check ms.length) (.step (.inr rfl) hstep') hunseen
    rw [hstep] at hstep'
    obtain rfl := Option.some.inj hstep'
    refine ⟨_, .refl, .leave (hq.resting h.staged hE rests) fun c hc => ?_⟩
    exact (hq.finished_iff h.staged hE hc).mpr (h.all_finished.mp (flagged.done.mp hall) c hc)

end

end Krio.Stackless
