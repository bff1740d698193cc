import Krio.Stackless.Standing

/-! The loops of the executors that know no priorities: turn by turn over the machines, with a flag that tells whether all
are done. -/

namespace Krio.Stackless
open StateTransition

variable {U : Type} {host : Host U} {hooks : Hooks U} {cfg cfg' : Body U} {n l0 top : ℕ} {ms : List Machine} {m : Machine}
  {A : ℕ → Prop} {τ τ' τ'' : Store host}

/-! ## What an executor does -/

/-- The executor's own blocks do nothing that the user or a machine would notice. -/
structure Unseen (n : ℕ) (ms : List Machine) (τ τ' : Store host) : Prop where
  below : ∀ l < n, τ'.locals l = τ.locals l
  state : τ'.state = τ.state
  trace : τ'.trace = τ.trace
  machines : ∀ m ∈ ms, τ'.locals m.stateLocal = τ.locals m.stateLocal ∧ τ'.locals m.pollResultLocal = τ.locals m.pollResultLocal
  polls : ∃ add, τ'.log = add ++ τ.log ∧ ∀ m ∈ ms, ∀ v, .set m.pollResultLocal v ∉ add

/-- How the machine's poll came out. -/
def Ended (m : Machine) (outcome : Outcome) (locals : Locals) : Prop :=
  match outcome with
  | .finished => locals m.stateLocal = doneState ∧ locals m.pollResultLocal = pollReady
  | .ran => locals m.pollResultLocal = pollPending
  | .blocked => locals m.pollResultLocal = pollBlocked

namespace Unseen

theorem refl (n : ℕ) (ms : List Machine) (τ : Store host) : Unseen n ms τ τ :=
  ⟨fun _ _ => rfl, rfl, rfl, fun _ _ => ⟨rfl, rfl⟩, [], rfl, fun _ _ _ => List.not_mem_nil⟩

theorem trans (h : Unseen n ms τ τ') (h' : Unseen n ms τ' τ'') : Unseen n ms τ τ'' := by
  obtain ⟨add, hlog, hadd⟩ := h.polls
  obtain ⟨add', hlog', hadd'⟩ := h'.polls
  refine ⟨fun l hl => (h'.below l hl).trans (h.below l hl), h'.state.trans h.state, h'.trace.trans h.trace, fun m hm =>
    ⟨(h'.machines m hm).1.trans (h.machines m hm).1, (h'.machines m hm).2.trans (h.machines m hm).2⟩,
    add' ++ add, by rw [hlog', hlog, List.append_assoc], fun m hm v hin => ?_⟩
  rcases List.mem_append.mp hin with hin | hin
  · exact hadd' m hm v hin
  · exact hadd m hm v hin

theorem note (b : ℕ) (τ : Store host) : Unseen n ms τ (τ.note (.enter b)) :=
  ⟨fun _ _ => rfl, rfl, rfl, fun _ _ => ⟨rfl, rfl⟩, [.enter b], rfl, fun m hm v hin => by cases List.mem_singleton.mp hin⟩

section
variable (hloc : MachineLocals n l0 ms n)
include hloc

/-- A change of the flag `n` or of a local of the loop. -/
theorem of_update {d : ℕ} {v : ℤ} (hd : d = n ∨ l0 ≤ d) (hlocals : τ'.locals = Function.update τ.locals d v)
    (hs : τ'.state = τ.state) (ht : τ'.trace = τ.trace) (hlog : τ'.log = τ.log ∨ τ'.log = .set d v :: τ.log) :
    Unseen n ms τ τ' := by
  have hlt := hloc.progress_mem.2
  have hkeep : ∀ x, x ≠ n → x < l0 → τ'.locals x = τ.locals x := fun x hx hx' => by
    rw [hlocals]
    exact Function.update_of_ne (by omega) _ _
  refine ⟨fun l hl => hkeep l hl.ne (hl.trans hlt), hs, ht, fun m hm => ⟨?_, ?_⟩, ?_⟩
  · exact hkeep _ (hloc.state_mem m hm).2.2 (hloc.state_mem m hm).2.1
  · exact hkeep _ (hloc.poll_mem m hm).2.2 (hloc.poll_mem m hm).2.1
  · rcases hlog with hlog | hlog
    · exact ⟨[], hlog, fun _ _ _ => List.not_mem_nil⟩
    · refine ⟨[.set d v], hlog, fun m hm w hin => ?_⟩
      obtain ⟨-, h1, h2⟩ := hloc.poll_mem m hm
      have heq := (Event.set.inj (List.mem_singleton.mp hin)).1
      omega

theorem assign {d : ℕ} (hd : d = n ∨ l0 ≤ d) (v : ℤ) (τ : Store host) : Unseen n ms τ (τ.assign d v) :=
  .of_update hloc hd rfl rfl rfl (.inr rfl)

theorem assigns {α : Type} (f : α → ℕ) (v : ℤ) {xs : List α} (hf : ∀ x ∈ xs, l0 ≤ f x) (τ : Store host) :
    Unseen n ms τ (execAll τ (xs.map fun x => .assignI64 (f x) v)) := by
  induction xs generalizing τ with
  | nil => exact .refl n ms τ
  | cons x xs ih =>
    exact (Unseen.assign hloc (.inr (hf x List.mem_cons_self)) v τ).trans (ih (fun y hy => hf y (List.mem_cons_of_mem _ hy)) _)

theorem asks {d : ℕ} (hd : d = n ∨ l0 ≤ d) (x : ℕ) (v : ℤ) (τ : Store host) :
    Unseen n ms τ ((Stmt.eqCheckI64 d x v).exec τ) :=
  .of_update hloc hd rfl rfl rfl (.inl rfl)

/-- A store of what a machine's state holds anyway. -/
theorem again {v : ℤ} (hm : m ∈ ms) (h : τ.locals m.stateLocal = v) : Unseen n ms τ (τ.assign m.stateLocal v) := by
  have hsame : (τ.assign m.stateLocal v).locals = τ.locals := by
    rw [← h]
    exact Function.update_eq_self _ _
  refine ⟨fun l _ => congrFun hsame l, rfl, rfl, fun m _ => ⟨congrFun hsame _, congrFun hsame _⟩, [.set m.stateLocal v], rfl,
    fun m' hm' w hin => ?_⟩
  exact hloc.state_poll m hm m' hm' (Event.set.inj (List.mem_singleton.mp hin)).1.symm

end

end Unseen

/-! ## Steps of an executor -/

/-- A block that ends with a check and a branch on it. -/
theorem check_step (lead : List (Stmt U)) {b d x p q : ℕ} {v : ℤ}
    (hblock : cfg'.block b = ⟨lead ++ [.eqCheckI64 d x v], .branch d p q⟩) (τ : Store host) :
    step cfg' ⟨.block b, τ⟩ = some ⟨.block (if (execAll (τ.note (.enter b)) lead).locals x = v then p else q),
      (Stmt.eqCheckI64 d x v).exec (execAll (τ.note (.enter b)) lead)⟩ := by
  refine congrArg some ((runBlock_of hblock τ).trans ?_)
  rw [execAll_append, execAll_cons, execAll_nil]
  by_cases heq : (execAll (τ.note (.enter b)) lead).locals x = v
  · simp [leads, Stmt.exec, ofBool, heq]
  · simp [leads, Stmt.exec, ofBool, heq]

theorem ask_step {b d x p q : ℕ} {v : ℤ} (hblock : cfg'.block b = ⟨[.eqCheckI64 d x v], .branch d p q⟩) (τ : Store host) :
    step cfg' ⟨.block b, τ⟩ =
      some ⟨.block (if τ.locals x = v then p else q), (Stmt.eqCheckI64 d x v).exec (τ.note (.enter b))⟩ :=
  check_step [] hblock τ

theorem goto_step {b q : ℕ} {l : List (Stmt U)} (hblock : cfg'.block b = ⟨l, .goto q⟩) (τ : Store host) :
    ∃ τ', step cfg' ⟨.block b, τ⟩ = some ⟨.block q, τ'⟩ ∧ τ' = execAll (τ.note (.enter b)) l :=
  ⟨_, congrArg some (runBlock_of hblock τ), rfl⟩

theorem branch_step {b d x y : ℕ} (hblock : cfg'.block b = ⟨[], .branch d x y⟩) (τ : Store host) :
    step cfg' ⟨.block b, τ⟩ = some ⟨.block (if τ.locals d ≠ 0 then x else y), τ.note (.enter b)⟩ :=
  congrArg some (runBlock_of hblock τ)

/-- The run leads from `c` to `c'` by a first step, and then through blocks in `A` only. -/
def Departs (cfg' : Body U) (A : ℕ → Prop) (c c' : Conf host) : Prop := ∃ c₁, step cfg' c = some c₁ ∧ Through cfg' A c₁ c'

theorem Departs.reaches₁ {c c' : Conf host} (h : Departs cfg' A c c') : Reaches₁ (step cfg') c c' := by
  obtain ⟨c₁, hstep, hthrough⟩ := h
  exact .head' hstep hthrough.reaches

theorem Departs.through {b : ℕ} {c' : Conf host} (h : Departs cfg' A ⟨.block b, τ⟩ c') (hb : A b) :
    Through cfg' A ⟨.block b, τ⟩ c' := by
  obtain ⟨c₁, hstep, hthrough⟩ := h
  refine .head hb ?_
  rwa [Option.some.inj hstep]

theorem Through.step {b : ℕ} {c : Conf host} (hb : A b) (h : step cfg' ⟨.block b, τ⟩ = some c) : Through cfg' A ⟨.block b, τ⟩ c := by
  refine .head hb ?_
  rw [Option.some.inj h]
  exact .refl

/-! ## Two machines -/

section
variable {hooks : Hooks U} {cfg : Body U} {r : Region} {start : ℕ} {E : ℕ → Prop} {m' : Machine}
  (h : Staged hooks cfg cfg' r start ms top l0 E) (hm : m ∈ ms) (hm' : m' ∈ ms)
include h hm hm'

/-- Two machines share no local. -/
theorem Staged.eq_of_local : (m.stateLocal = m'.stateLocal → m = m') ∧ (m.pollResultLocal = m'.pollResultLocal → m = m') := by
  obtain ⟨j, hj⟩ := List.mem_iff_getElem?.mp hm
  obtain ⟨k, hk⟩ := List.mem_iff_getElem?.mp hm'
  by_cases hjk : j = k
  · subst hjk
    rw [hj] at hk
    exact ⟨fun _ => Option.some.inj hk, fun _ => Option.some.inj hk⟩
  · exact ⟨fun heq => absurd heq (h.locals.state_inj j k m m' hj hk hjk), fun heq => absurd heq (h.locals.poll_inj j k m m' hj hk hjk)⟩

/-- Nor a dispatch block. -/
theorem Staged.eq_of_dispatch (heq : m.dispatchBb = m'.dispatchBb) : m = m' := by
  obtain ⟨c, hd⟩ := h.drives hm
  obtain ⟨c', hd'⟩ := h.drives hm'
  obtain ⟨F, entry, entries, done, -, hl⟩ := h.lowered m c hd
  obtain ⟨F', entry', entries', done', -, hl'⟩ := h.lowered m' c' hd'
  refine (h.eq_of_local hm hm').1 ?_
  rcases hl.dispatches with ⟨-, d, -, hblock⟩ | ⟨-, hblock⟩
  · rcases hl'.dispatches with ⟨-, d', -, hblock'⟩ | ⟨-, hblock'⟩
    · rw [heq, hblock'] at hblock
      injection hblock with hstmts
      injection hstmts with hstmt
      exact (Stmt.eqCheckI64.inj hstmt).2.1.symm
    · rw [heq, hblock'] at hblock
      cases hblock
  · rcases hl'.dispatches with ⟨-, d', -, hblock'⟩ | ⟨-, hblock'⟩
    · rw [heq, hblock'] at hblock
      cases hblock
    · rw [heq, hblock'] at hblock
      injection hblock with _ hterm
      exact (Term.switch.inj hterm).1.symm

end

/-! ## A loop that counts who is done -/

/-- Where a loop over the machines has its blocks. Turn `k` begins at `check k`, and its poll comes back at `afterPoll k`;
    a pass ends where a turn more would begin. From there the loop is left at `leave`; at `shut` it ends up with a machine
    pending. The flag `allDone` stays set over a pass while no machine was found pending. -/
structure Places where
  check : ℕ → ℕ
  afterPoll : ℕ → ℕ
  leave : ℕ
  shut : ℕ
  post : ℕ
  allDone : ℕ

/-- The blocks of the loop do their work. It goes through blocks in `A` from the end of a poll to the next turn. One that
    `tracks` sets the progress flag `n` where a pass goes on after anything but a shut guard, and goes to `shut` only where
    that flag is not set. `dead` is what it does there, before it ends. -/
structure Turns (dead : Option U) (tracks : Bool) (A : ℕ → Prop) (cfg' : Body U) (n : ℕ) (ms : List Machine) (x : Places) :
    Prop where
  inside : ∀ k < ms.length, A (x.afterPoll k)
  asks : ∀ {host : Host U} (τ : Store host) {k : ℕ} {m : Machine}, ms[k]? = some m → ∃ τ',
    step cfg' ⟨.block (x.check k), τ⟩ =
      some ⟨.block (if τ.locals m.stateLocal = doneState then x.afterPoll k else m.dispatchBb), τ'⟩ ∧
    Unseen n ms τ τ' ∧ τ'.locals x.allDone = (if k = 0 then 1 else τ.locals x.allDone) ∧
    (tracks = true → τ'.locals n = if k = 0 then 0 else τ.locals n)
  exits : ∀ {k : ℕ} {m : Machine}, ms[k]? = some m → cfg'.block m.exitBb = ⟨[], .goto (x.afterPoll k)⟩
  ready : ∀ {host : Host U} (τ : Store host) {k : ℕ} {m : Machine}, ms[k]? = some m → Ended m .finished τ.locals → ∃ τ',
    Departs cfg' A ⟨.block (x.afterPoll k), τ⟩ ⟨.block (x.check (k + 1)), τ'⟩ ∧ Unseen n ms τ τ' ∧
      τ'.locals x.allDone = τ.locals x.allDone ∧ (tracks = true → τ'.locals n = 1)
  pending : ∀ {host : Host U} (τ : Store host) {k : ℕ} {m : Machine}, ms[k]? = some m →
    τ.locals m.pollResultLocal ≠ pollReady → ∃ τ',
    Departs cfg' A ⟨.block (x.afterPoll k), τ⟩ ⟨.block (x.check (k + 1)), τ'⟩ ∧ Unseen n ms τ τ' ∧ τ'.locals x.allDone = 0 ∧
      (tracks = true → τ'.locals n = if τ.locals m.pollResultLocal = pollBlocked then τ.locals n else 1)
  leaves : ∀ {host : Host U} (τ : Store host), τ.locals x.allDone ≠ 0 → ∃ τ', Unseen n ms τ τ' ∧
    step cfg' ⟨.block (x.check ms.length), τ⟩ = some ⟨.block x.leave, τ'⟩
  stays : ∀ {host : Host U} (τ : Store host), τ.locals x.allDone = 0 → ∃ τ', Unseen n ms τ τ' ∧ τ'.locals n = τ.locals n ∧
    Departs cfg' A ⟨.block (x.check ms.length), τ⟩
      ⟨.block (if tracks = true ∧ τ.locals n = 1 then x.check 0 else x.shut), τ'⟩
  leave : cfg'.block x.leave = ⟨[], .goto x.post⟩
  shut : cfg'.block x.shut = dead.elim ⟨[], .goto (x.check 0)⟩ fun u => ⟨[.host u], .unreachable⟩

/-- The block where turn `k` of `count` turns begins, and where a pass ends. -/
def roundTurn (top n size count k : ℕ) : ℕ := if k < count then roundCheck top n size k else roundAfter n size (count - 1) + 3

/-- The blocks of a pass behind its first: none of them is the last, and none stands behind a guard. -/
def Passing (cfg' : Body U) (progress lo hi last b : ℕ) : Prop := lo ≤ b ∧ b < hi ∧ b ≠ last ∧ ¬BehindGuard cfg' progress b

/-- The end of a turn leads to the next one. -/
theorem through_next {size count k : ℕ} (hnext : ∀ k, k + 1 < count →
      cfg'.block (roundAfter n size k + 3) = ⟨[], .goto (roundCheck top n size (k + 1))⟩) (hk : k < count)
    (hA : k + 1 < count → A (roundAfter n size k + 3)) (τ : Store host) :
    ∃ τ', Through cfg' A ⟨.block (roundAfter n size k + 3), τ⟩ ⟨.block (roundTurn top n size count (k + 1)), τ'⟩ ∧
      τ'.locals = τ.locals ∧ ∀ n ms, Unseen n ms τ τ' := by
  by_cases hlt : k + 1 < count
  · rw [roundTurn, if_pos hlt]
    exact ⟨_, .step (hA hlt) (congrArg some (runBlock_of (hnext k hlt) τ)), rfl, fun n ms => .note _ τ⟩
  · rw [roundTurn, if_neg hlt, show count - 1 = k by omega]
    exact ⟨τ, .refl, rfl, fun n ms => .refl n ms τ⟩

section
variable {d x y : ℕ} (hloc : MachineLocals n l0 ms n) (hm : m ∈ ms) (hd : l0 < d)
include hloc hd

/-- A poll has come back: with which result? -/
theorem polled_step {b : ℕ} (hblock : cfg'.block b = ⟨[.eqCheckI64 d m.pollResultLocal 0], .branch d x y⟩) (τ : Store host) :
    ∃ τ', step cfg' ⟨.block b, τ⟩ = some ⟨.block (if τ.locals m.pollResultLocal = pollReady then x else y), τ'⟩ ∧
      Unseen n ms τ τ' ∧ τ'.locals l0 = τ.locals l0 ∧ τ'.locals n = τ.locals n := by
  have hlt := hloc.progress_mem.2
  exact ⟨_, ask_step hblock τ, (Unseen.note _ τ).trans (.asks hloc (.inr hd.le) _ _ _), Function.update_of_ne hd.ne _ _,
    Function.update_of_ne (hlt.trans hd).ne _ _⟩

include hm

/-- Is the machine done? The first turn sets the flag before, and clears the progress if the loop tracks it. -/
theorem asks_step {b k : ℕ} {lead : List (Stmt U)} {tracks : Bool}
    (hlead : lead = [.assignBool l0 true] ∧ tracks = false ∨ lead = [.assignBool l0 true, .assignI64 n 0])
    (hblock : cfg'.block b = ⟨leadOf lead k ++ [.eqCheckI64 d m.stateLocal doneState], .branch d x y⟩) (τ : Store host) :
    ∃ τ', step cfg' ⟨.block b, τ⟩ = some ⟨.block (if τ.locals m.stateLocal = doneState then x else y), τ'⟩ ∧
      Unseen n ms τ τ' ∧ τ'.locals l0 = (if k = 0 then 1 else τ.locals l0) ∧
      (tracks = true → τ'.locals n = if k = 0 then 0 else τ.locals n) := by
  have hlt := hloc.progress_mem.2
  have hlead : ∀ σ : Store host, Unseen n ms σ (execAll σ (leadOf lead k)) ∧
      (execAll σ (leadOf lead k)).locals l0 = (if k = 0 then 1 else σ.locals l0) ∧
      (tracks = true → (execAll σ (leadOf lead k)).locals n = if k = 0 then 0 else σ.locals n) := by
    intro σ
    cases k with
    | zero =>
      obtain ⟨rfl, hrep⟩ | rfl := hlead
      · exact ⟨.assign hloc (.inr le_rfl) (ofBool true) σ, Function.update_self _ _ _, fun h => absurd (hrep.symm.trans h) (by decide)⟩
      · refine ⟨(Unseen.assign hloc (.inr le_rfl) (ofBool true) σ).trans (.assign hloc (.inl rfl) 0 _), ?_, fun _ => ?_⟩
        · exact (Function.update_of_ne hlt.ne' _ _).trans (Function.update_self _ _ _)
        · exact Function.update_self _ _ _
    | succ k => exact ⟨.refl n ms σ, rfl, fun _ => rfl⟩
  obtain ⟨hunseen, hflag, hprogress⟩ := hlead (τ.note (.enter b))
  have hstep := check_step _ hblock τ
  rw [(hunseen.machines m hm).1] at hstep
  exact ⟨_, hstep, ((Unseen.note _ τ).trans hunseen).trans (.asks hloc (.inr hd.le) _ _ _),
    (Function.update_of_ne hd.ne _ _).trans hflag, fun h => (Function.update_of_ne (hlt.trans hd).ne _ _).trans (hprogress h)⟩

end

/-! ## The two executors -/

/-- The places of the round-robin loop that is entered at `top`. -/
def coopPlaces (top count l0 : ℕ) : Places where
  check := roundTurn top (top + 3) 5 count
  afterPoll := roundAfter (top + 3) 5
  leave := top + 1
  shut := top + 3 + 6 * count
  post := top + 2
  allDone := l0

/-- The places of the one-shot poll, the `pending` exit of which leads back to `top`. -/
def oneshotPlaces (top count l0 : ℕ) : Places where
  check := roundTurn top (top + 4) 4 count
  afterPoll := roundAfter (top + 4) 4
  leave := top + 1
  shut := top + 2
  post := top + 3
  allDone := l0

@[simp] theorem coopPlaces_check {count k : ℕ} (hk : k < count) : (coopPlaces top count l0).check k = roundCheck top (top + 3) 5 k :=
  if_pos hk

@[simp] theorem coopPlaces_end {count : ℕ} : (coopPlaces top count l0).check count = roundAfter (top + 3) 5 (count - 1) + 3 :=
  if_neg (lt_irrefl count)

@[simp] theorem oneshotPlaces_check {count k : ℕ} (hk : k < count) :
    (oneshotPlaces top count l0).check k = roundCheck top (top + 4) 4 k :=
  if_pos hk

@[simp] theorem oneshotPlaces_end {count : ℕ} : (oneshotPlaces top count l0).check count = roundAfter (top + 4) 4 (count - 1) + 3 :=
  if_neg (lt_irrefl count)

section
variable {t : Term} {hooks : Hooks U} (hloc : MachineLocals n l0 ms n)
  (h : CoopLoop hooks cfg' ms n l0 top (top + 1) (top + 2) (top + 3) (l0 + 1) t)
include hloc h

/-- The blocks of a pass of the round-robin loop. -/
abbrev CoopPass (cfg' : Body U) (n top count : ℕ) : ℕ → Prop :=
  Passing cfg' n (top + 3) (top + 3 + 6 * count) (roundAfter (top + 3) 5 (count - 1) + 3)

omit hloc in
/-- The blocks behind a poll are of the pass. -/
theorem CoopLoop.passing {k i : ℕ} (hm : ms[k]? = some m) (hi : i < 5) (hlast : i = 3 → k + 1 < ms.length) :
    CoopPass cfg' n top ms.length (roundAfter (top + 3) 5 k + i) := by
  have hk := (List.getElem?_eq_some_iff.mp hm).1
  have hturn := h.turns k m hm
  refine ⟨by rw [roundAfter]; omega, by rw [roundAfter]; omega, by rw [roundAfter, roundAfter]; omega, ?_⟩
  obtain rfl | rfl | rfl | rfl | rfl : i = 0 ∨ i = 1 ∨ i = 2 ∨ i = 3 ∨ i = 4 := by omega
  · exact not_behindGuard hturn.polled (by simp)
  · exact not_behindGuard hturn.markDone (by simp)
  · exact not_behindGuard hturn.markPending (by simp)
  · exact not_behindGuard (h.next k (hlast rfl)) (by simp)
  · exact not_behindGuard hturn.ran (by simp)

/-- The round-robin loop. -/
theorem CoopLoop.turns_of (hne : ms ≠ []) :
    Turns hooks.deadlock true (CoopPass cfg' n top ms.length) cfg' n ms (coopPlaces top ms.length l0) where
  inside k hk := h.passing (List.getElem?_eq_getElem hk) (i := 0) (by simp) (by simp)
  asks := by
    intro host τ k m hm
    rw [coopPlaces_check (List.getElem?_eq_some_iff.mp hm).1]
    exact asks_step hloc (List.mem_of_getElem? hm) (by omega) (.inr rfl) (h.turns k m hm).check τ
  exits hm := (h.turns _ _ hm).exit
  ready := by
    rintro host τ k m hm ⟨hdone, hready⟩
    have hk := (List.getElem?_eq_some_iff.mp hm).1
    have hlt := hloc.progress_mem.2
    have hmem := List.mem_of_getElem? hm
    obtain ⟨τ₁, hpolled, hq₁, hf₁, -⟩ := polled_step hloc (by omega) (h.turns k m hm).polled τ
    rw [if_pos hready] at hpolled
    obtain ⟨τ₂, hmark, hτ₂⟩ := goto_step (h.turns k m hm).markDone τ₁
    have hq₂ : Unseen n ms τ₁ τ₂ := by
      rw [hτ₂]
      have hstate : (τ₁.note (.enter (roundAfter (top + 3) 5 k + 1))).locals m.stateLocal = doneState :=
        (hq₁.machines m hmem).1.trans hdone
      exact (Unseen.note _ τ₁).trans ((Unseen.again hloc hmem hstate).trans (.assign hloc (.inl rfl) 1 _))
    have hf₂ : τ₂.locals l0 = τ₁.locals l0 := by
      rw [hτ₂]
      exact (Function.update_of_ne hlt.ne' _ _).trans (Function.update_of_ne (hloc.state_mem m hmem).2.1.ne' _ _)
    have hp₂ : τ₂.locals n = 1 := by
      rw [hτ₂]
      exact Function.update_self _ _ _
    obtain ⟨τ', hreach, hlocals, hnext⟩ := through_next h.next hk (h.passing hm (by simp) fun _ => ·) τ₂
    refine ⟨τ', ⟨_, hpolled, (Through.step (h.passing hm (by simp) (by simp)) hmark).trans hreach⟩,
      (hq₁.trans hq₂).trans (hnext _ _), ?_, fun _ => ?_⟩
    · exact (congrFun hlocals l0).trans (hf₂.trans hf₁)
    · rw [hlocals, hp₂]
  pending := by
    intro host τ k m hm hready
    have hk := (List.getElem?_eq_some_iff.mp hm).1
    have hlt := hloc.progress_mem.2
    have hmem := List.mem_of_getElem? hm
    obtain ⟨τ₁, hpolled, hq₁, -, hp₁⟩ := polled_step hloc (by omega) (h.turns k m hm).polled τ
    rw [if_neg hready] at hpolled
    have hmark := check_step [.assignBool l0 false] (h.turns k m hm).markPending τ₁
    -- a poll that ended unblocked also notes the progress
    have hran : ∀ τ₂ : Store host, ∃ τ₃, Through cfg' (CoopPass cfg' n top ms.length) ⟨.block (if τ.locals m.pollResultLocal = pollBlocked then
        roundAfter (top + 3) 5 k + 3 else roundAfter (top + 3) 5 k + 4), τ₂⟩ ⟨.block (roundAfter (top + 3) 5 k + 3), τ₃⟩ ∧
        Unseen n ms τ₂ τ₃ ∧ τ₃.locals l0 = τ₂.locals l0 ∧
        τ₃.locals n = if τ.locals m.pollResultLocal = pollBlocked then τ₂.locals n else 1 := by
      intro τ₂
      split
      · exact ⟨τ₂, .refl, .refl n ms τ₂, rfl, rfl⟩
      · obtain ⟨τ₃, hstep, hτ₃⟩ := goto_step (h.turns k m hm).ran τ₂
        refine ⟨τ₃, .step (h.passing hm (by simp) (by simp)) hstep, ?_, ?_, ?_⟩
        · rw [hτ₃]
          exact (Unseen.note _ τ₂).trans (.assign hloc (.inl rfl) 1 _)
        · rw [hτ₃]
          exact Function.update_of_ne hlt.ne' _ _
        · rw [hτ₃]
          exact Function.update_self _ _ _
    have hq₂ := (Unseen.note (roundAfter (top + 3) 5 k + 2) τ₁).trans ((Unseen.assign hloc (.inr le_rfl) (ofBool false) _).trans
      (.asks hloc (d := l0 + 1 + 3 * k + 2) (.inr (by omega)) m.pollResultLocal pollBlocked _))
    have hpoll : (execAll (τ₁.note (.enter (roundAfter (top + 3) 5 k + 2))) [.assignBool l0 false]).locals m.pollResultLocal =
        τ.locals m.pollResultLocal :=
      (Function.update_of_ne (hloc.poll_mem m hmem).2.1.ne _ _).trans (hq₁.machines m hmem).2
    rw [hpoll] at hmark
    obtain ⟨τ₃, hreach₃, hq₃, hf₃, hp₃⟩ := hran _
    obtain ⟨τ', hreach, hlocals, hnext⟩ := through_next h.next hk (h.passing hm (by simp) fun _ => ·) τ₃
    refine ⟨τ', ⟨_, hpolled, (Through.step (h.passing hm (by simp) (by simp)) hmark).trans (hreach₃.trans hreach)⟩,
      (hq₁.trans hq₂).trans (hq₃.trans (hnext _ _)), ?_, fun _ => ?_⟩
    · refine (congrFun hlocals l0).trans (hf₃.trans ?_)
      exact (Function.update_of_ne (by omega) _ _).trans (Function.update_self _ _ _)
    · rw [hlocals, hp₃]
      congr 1
      exact (Function.update_of_ne (by omega) _ _).trans ((Function.update_of_ne hlt.ne _ _).trans hp₁)
  leaves τ hflag := by
    rw [coopPlaces_end]
    exact ⟨_, .note _ τ, (branch_step h.final τ).trans (by rw [if_pos (show τ.locals l0 ≠ 0 from hflag)]; rfl)⟩
  stays := by
    intro host τ hflag
    have hpos := List.length_pos_iff.mpr hne
    have hflag : τ.locals l0 = 0 := hflag
    have hfinal := branch_step h.final τ
    rw [if_neg (not_not_intro hflag)] at hfinal
    have hcheck := ask_step h.notDone (τ.note (.enter (roundAfter (top + 3) 5 (ms.length - 1) + 3)))
    have hinside : CoopPass cfg' n top ms.length (top + 3 + 6 * ms.length - 1) :=
      ⟨by omega, by omega, by rw [roundAfter]; omega, not_behindGuard h.notDone (by simp)⟩
    have hlt := hloc.progress_mem.2
    rw [coopPlaces_end, coopPlaces_check hpos]
    simp only [true_and]
    exact ⟨_, (Unseen.note (roundAfter (top + 3) 5 (ms.length - 1) + 3) τ).trans ((Unseen.note (top + 3 + 6 * ms.length - 1) _).trans
      (.asks hloc (.inr (by omega)) _ _ _)), Function.update_of_ne (by omega) _ _, _, hfinal, .step hinside hcheck⟩
  leave := h.exit
  shut := by
    rw [coopPlaces_check (List.length_pos_iff.mpr hne)]
    exact h.stuck

end

section
variable {t : Term} (hloc : MachineLocals n l0 ms n)
  (h : OneshotPoll cfg' ms l0 top (top + 1) (top + 2) (top + 3) (top + 4) (l0 + 1) t)
include hloc h

/-- The blocks of a pass of the one-shot poll. -/
abbrev OneshotPass (cfg' : Body U) (n top count : ℕ) : ℕ → Prop :=
  Passing cfg' n (top + 4) (top + 4 + 5 * count - 1) (roundAfter (top + 4) 4 (count - 1) + 3)

omit hloc in
/-- A body that differs in the block `pending` only. -/
theorem OneshotPoll.rewired {cfg₁ : Body U} (hother : ∀ b ≠ top + 2, cfg₁.block b = cfg'.block b) (hexits : ∀ m ∈ ms, m.exitBb < top)
    {k : ℕ} (hm : ms[k]? = some m) : TurnOnce l0 cfg₁ m (leadOf [.assignBool l0 true] k) (roundCheck top (top + 4) 4 k)
      (roundAfter (top + 4) 4 k) (l0 + 1 + 2 * k) := by
  have hturn := h.turns k m hm
  have hexit := hexits m (List.mem_of_getElem? hm)
  have hafter : ∀ i, cfg₁.block (roundAfter (top + 4) 4 k + i) = cfg'.block (roundAfter (top + 4) 4 k + i) := fun i =>
    hother _ (by rw [roundAfter]; omega)
  refine ⟨(hother _ ?_).trans hturn.check, (hother _ (by omega)).trans hturn.exit, (hafter 0).trans hturn.polled,
    (hafter 1).trans hturn.markDone, (hafter 2).trans hturn.markPending⟩
  cases k with
  | zero => exact (show top ≠ top + 2 by omega)
  | succ k =>
    rw [roundCheck]
    omega

/-- The one-shot poll, where its `pending` exit leads back to its top. -/
theorem OneshotPoll.turns_of (hne : ms ≠ []) (hexits : ∀ m ∈ ms, m.exitBb < top) :
    Turns none false (OneshotPass (cfg'.setGoto (top + 2) top) n top ms.length) (cfg'.setGoto (top + 2) top) n ms
      (oneshotPlaces top ms.length l0) := by
  have hpos := List.length_pos_iff.mpr hne
  have hpending : (cfg'.setGoto (top + 2) top).block (top + 2) = ⟨[], .goto top⟩ := by
    rw [Cfg.setGoto, Cfg.setTerm, h.pending]
    exact Function.update_self _ _ _
  have hother : ∀ b ≠ top + 2, (cfg'.setGoto (top + 2) top).block b = cfg'.block b := fun b hb => Function.update_of_ne hb _ _
  generalize cfg'.setGoto (top + 2) top = cfg₁ at hpending hother ⊢
  have hturn : ∀ {k m}, ms[k]? = some m → TurnOnce l0 cfg₁ m (leadOf [.assignBool l0 true] k) (roundCheck top (top + 4) 4 k)
      (roundAfter (top + 4) 4 k) (l0 + 1 + 2 * k) := fun hm => h.rewired hother hexits hm
  have hnext : ∀ k, k + 1 < ms.length → cfg₁.block (roundAfter (top + 4) 4 k + 3) =
      ⟨[], .goto (roundCheck top (top + 4) 4 (k + 1))⟩ := fun k hk => (hother _ (by rw [roundAfter]; omega)).trans (h.next k hk)
  have hfinal : cfg₁.block (roundAfter (top + 4) 4 (ms.length - 1) + 3) = ⟨[], .branch l0 (top + 1) (top + 2)⟩ :=
    (hother _ (by rw [roundAfter]; omega)).trans h.final
  have hpassing : ∀ {k i : ℕ} {m : Machine}, ms[k]? = some m → i < 4 → (i = 3 → k + 1 < ms.length) →
      OneshotPass cfg₁ n top ms.length (roundAfter (top + 4) 4 k + i) := by
    intro k i m hm hi hlast
    have hk := (List.getElem?_eq_some_iff.mp hm).1
    refine ⟨by rw [roundAfter]; omega, by rw [roundAfter]; omega, by rw [roundAfter, roundAfter]; omega, ?_⟩
    obtain rfl | rfl | rfl | rfl : i = 0 ∨ i = 1 ∨ i = 2 ∨ i = 3 := by omega
    · exact not_behindGuard (hturn hm).polled (by simp)
    · exact not_behindGuard (hturn hm).markDone (by simp)
    · exact not_behindGuard (hturn hm).markPending (by simp)
    · exact not_behindGuard (hnext k (hlast rfl)) (by simp)
  have hpolled : ∀ {host : Host U} (τ : Store host) {k : ℕ} {m : Machine}, ms[k]? = some m → ∃ τ',
      step cfg₁ ⟨.block (roundAfter (top + 4) 4 k), τ⟩ = some ⟨.block
        (if τ.locals m.pollResultLocal = pollReady then roundAfter (top + 4) 4 k + 1 else roundAfter (top + 4) 4 k + 2), τ'⟩ ∧
      Unseen n ms τ τ' ∧ τ'.locals l0 = τ.locals l0 := by
    intro host τ k m hm
    obtain ⟨τ', hstep, hunseen, hflag, -⟩ := polled_step hloc (d := l0 + 1 + 2 * k + 1) (by omega) (hturn hm).polled τ
    exact ⟨τ', hstep, hunseen, hflag⟩
  have hend : ∀ {host : Host U} (τ : Store host), step cfg₁ ⟨.block (roundTurn top (top + 4) 4 ms.length ms.length), τ⟩ =
      some ⟨.block (if τ.locals l0 ≠ 0 then top + 1 else top + 2),
        τ.note (.enter (roundTurn top (top + 4) 4 ms.length ms.length))⟩ := by
    intro host τ
    rw [roundTurn, if_neg (lt_irrefl _)]
    exact branch_step hfinal τ
  refine
    { inside := fun k hk => hpassing (List.getElem?_eq_getElem hk) (i := 0) (by simp) (by simp)
      asks := ?_
      exits := fun hm => (hturn hm).exit
      ready := ?_
      pending := ?_
      leaves := fun τ hflag => ⟨_, .note _ τ, (hend τ).trans (by rw [if_pos (show τ.locals l0 ≠ 0 from hflag)]; rfl)⟩
      stays := fun τ hflag => ⟨_, .note _ τ, rfl, _,
        (hend τ).trans (by rw [if_neg (not_not_intro (show τ.locals l0 = 0 from hflag))]; rfl), .refl⟩
      leave := (hother (top + 1) (by omega)).trans h.done
      shut := by
        rw [oneshotPlaces_check hpos]
        exact hpending }
  · intro host τ k m hm
    rw [oneshotPlaces_check (List.getElem?_eq_some_iff.mp hm).1]
    exact asks_step hloc (List.mem_of_getElem? hm) (by omega) (.inl ⟨rfl, rfl⟩) (hturn hm).check τ
  · rintro host τ k m hm ⟨hdone, hready⟩
    have hk := (List.getElem?_eq_some_iff.mp hm).1
    have hmem := List.mem_of_getElem? hm
    obtain ⟨τ₁, hstep, hq₁, hf₁⟩ := hpolled τ hm
    rw [if_pos hready] at hstep
    obtain ⟨τ₂, hmark, rfl⟩ := goto_step (hturn hm).markDone τ₁
    have hstate : (τ₁.note (.enter (roundAfter (top + 4) 4 k + 1))).locals m.stateLocal = doneState :=
      (hq₁.machines m hmem).1.trans hdone
    obtain ⟨τ', hreach, hlocals, hunseen⟩ := through_next hnext hk (hpassing hm (by simp) fun _ => ·)
      (execAll (τ₁.note (.enter (roundAfter (top + 4) 4 k + 1))) [.assignI64 m.stateLocal doneState])
    refine ⟨τ', ⟨_, hstep, (Through.step (hpassing hm (by simp) (by simp)) hmark).trans hreach⟩,
      (hq₁.trans ((Unseen.note _ τ₁).trans (Unseen.again hloc hmem hstate))).trans (hunseen _ _), ?_, fun hrep => absurd hrep (by decide)⟩
    refine (congrFun hlocals l0).trans ?_
    exact (Function.update_of_ne (hloc.state_mem m hmem).2.1.ne' _ _).trans hf₁
  · intro host τ k m hm hready
    have hk := (List.getElem?_eq_some_iff.mp hm).1
    obtain ⟨τ₁, hstep, hq₁, -⟩ := hpolled τ hm
    rw [if_neg hready] at hstep
    obtain ⟨τ₂, hmark, rfl⟩ := goto_step (hturn hm).markPending τ₁
    obtain ⟨τ', hreach, hlocals, hunseen⟩ := through_next hnext hk (hpassing hm (by simp) fun _ => ·)
      (execAll (τ₁.note (.enter (roundAfter (top + 4) 4 k + 2))) [.assignBool l0 false])
    refine ⟨τ', ⟨_, hstep, (Through.step (hpassing hm (by simp) (by simp)) hmark).trans hreach⟩,
      (hq₁.trans ((Unseen.note _ τ₁).trans (.assign hloc (.inr le_rfl) (ofBool false) _))).trans (hunseen _ _), ?_,
      fun hrep => absurd hrep (by decide)⟩
    exact (congrFun hlocals l0).trans (Function.update_self _ _ _)

end

section
variable {hooks : Hooks U} {cfg : Body U} {r : Region} {start : ℕ}

/-- What the round-robin executor makes of a marked region. -/
theorem Marked.roundRobin_staged (h : Marked hooks cfg r start) (hp : r.coroutines.any (·.priority.isSome) = false)
    (hbelow : ∀ b < cfg.next, ∀ s ∈ cfg.stmts b, s.Below cfg.locals.length) (loops : List Loop) :
    ∃ ms top l0 cfg', transformRegion hooks (cooperative hooks) loops cfg r =
        (loops ++ [⟨top, top + 1, roundAfter (top + 3) 5 (ms.length - 1) + 3, top + 3 + 6 * ms.length⟩], cfg') ∧
      (machinesOf hooks cfg r).1 = ms ∧ ms ≠ [] ∧ (∀ m ∈ ms, m.exitBb < top) ∧
      CoopLoop hooks cfg' ms cfg.locals.length l0 top (top + 1) (top + 2) (top + 3) (l0 + 1) (cfg.term r.regionEnd.1) ∧
      Staged hooks cfg cfg' r start ms top l0 (Executes top (top + 3 + 6 * ms.length + 1) ms) := by
  obtain ⟨ms, cfgM, cfg', heq, ht, hloop⟩ := h.roundRobin hp loops
  obtain ⟨hne, hprog, hr, he, hnodup, -⟩ := h.machines_ready ht.out
  obtain ⟨cfgL, lo, ll, A, rfl, -⟩ := ht.assembled
  obtain ⟨cfgL', hbuilt, -, hnext, -⟩ := buildCooperativeLoop_spec hooks cfgM r ms _ hne hprog hr he hnodup
  have hcfg := congrArg (fun out => out.2.next) heq
  rw [transformRegion_eq, ht.out, cooperative, if_neg (by simp [hp]), hbuilt] at hcfg
  have hsame : cfgL'.next + 1 = cfgL.next + 1 :=
    (finishRegion_block cfgL' r ms cfgM.next 0).1.symm.trans (hcfg.trans (finishRegion_block cfgL r ms cfgM.next 0).1)
  have hst := A.staged cfgM.next hbelow
  rw [← Nat.succ_injective hsame, hnext] at hst
  exact ⟨ms, cfgM.next, _, _, heq, congrArg Prod.fst ht.out, hne, fun m hm => (he m hm).1, hloop, hst⟩

/-- What the one-shot executor makes of it, with the `pending` exit led back to the top. -/
theorem Marked.oneshot_staged (h : Marked hooks cfg r start)
    (hbelow : ∀ b < cfg.next, ∀ s ∈ cfg.stmts b, s.Below cfg.locals.length) (exits : List RegionExits) :
    ∃ ms top l0 cfg', transformRegion hooks waker exits cfg r = (exits ++ [⟨top + 1, top + 2⟩], cfg') ∧
      (machinesOf hooks cfg r).1 = ms ∧ ms ≠ [] ∧ (∀ m ∈ ms, m.exitBb < top) ∧ cfg'.term r.regionBegin.1 = .goto top ∧
      OneshotPoll cfg' ms l0 top (top + 1) (top + 2) (top + 3) (top + 4) (l0 + 1) (cfg.term r.regionEnd.1) ∧
      Staged hooks cfg (cfg'.setGoto (top + 2) top) r start ms top l0 (Executes top (top + 4 + 5 * ms.length - 1) ms) := by
  obtain ⟨ms, cfgM, cfg', heq, ht, hpoll⟩ := h.oneshot exits
  obtain ⟨hne, -, hr, he, hnodup, -⟩ := h.machines_ready ht.out
  obtain ⟨cfgL, lo, ll, A, rfl, -⟩ := ht.assembled
  obtain ⟨cfgL', hbuilt, -, hnext, -⟩ := buildOneshotPoll_spec cfgM r ms hne hr he hnodup
  have hcfg := congrArg (fun out => out.2.next) heq
  rw [transformRegion_eq, ht.out, waker, hbuilt] at hcfg
  have hsame : cfgL'.next + 1 = cfgL.next + 1 :=
    (finishRegion_block cfgL' r ms cfgM.next 0).1.symm.trans (hcfg.trans (finishRegion_block cfgL r ms cfgM.next 0).1)
  have hst := A.staged cfgM.next hbelow
  rw [← Nat.succ_injective hsame, hnext] at hst
  -- the exits are blocks of the executor
  have hpos := List.length_pos_iff.mpr hne
  have hwired : ∀ b, ¬Executes cfgM.next (cfgM.next + 4 + 5 * ms.length - 1) ms b →
      ((finishRegion cfgL r ms cfgM.next).setGoto (cfgM.next + 2) cfgM.next).block b = (finishRegion cfgL r ms cfgM.next).block b :=
    fun b hb => Function.update_of_ne (fun heq => hb (.inl (by omega))) _ _
  exact ⟨ms, cfgM.next, _, _, heq, congrArg Prod.fst ht.out, hne, fun m hm => (he m hm).1, congrArg Block.term hst.head, hpoll,
    hst.rewire hwired⟩

end

end Krio.Stackless
