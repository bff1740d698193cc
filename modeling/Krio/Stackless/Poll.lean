import Krio.Stackless.Histories
import Krio.Stackless.Parts
import Krio.Stackless.Resumption

/-! A poll of a coroutine, from the dispatch of its machine to the exit: what it leaves in the log and in the locals,
whatever the host's statements do. -/

namespace Krio.Stackless

variable {U : Type} {hooks : Hooks U} {cfg cfg' : Body U} {r : Region} {start top l0 : ℕ} {ms : List Machine} {E : ℕ → Prop}
  {m : Machine} {c : Coroutine}

/-- The machine `m` drives the coroutine `c`. -/
def Drives (r : Region) (ms : List Machine) (m : Machine) (c : Coroutine) : Prop :=
  ∃ k : ℕ, r.coroutines[k]? = some c ∧ ms[k]? = some m

/-- A temporary of the machines whose locals are below `l0`. -/
abbrev Scratch (cfg : Body U) (l0 : ℕ) (ms : List Machine) (d : ℕ) : Prop :=
  Temp cfg.locals.length l0 ms cfg.locals.length d

theorem Scratch.gt {d : ℕ} (h : Scratch cfg l0 ms d) : cfg.locals.length < d := by
  have h1 := h.1
  have h2 := h.2.2.1
  omega

/-- The blocks in `F` are new, none of them the executor's or a dispatch. -/
def Own (cfg : Body U) (ms : List Machine) (E F : ℕ → Prop) : Prop :=
  ∀ d, F d → cfg.next ≤ d ∧ ¬E d ∧ ∀ m ∈ ms, d ≠ m.dispatchBb

/-- A body after the transform, as runs see it: the machines, and the blocks `E` of the executor, which is entered at
    `top` and has its locals from `l0` on. -/
structure Staged (hooks : Hooks U) (cfg cfg' : Body U) (r : Region) (start : ℕ) (ms : List Machine) (top l0 : ℕ)
    (E : ℕ → Prop) : Prop where
  marked : Marked hooks cfg r start
  below : ∀ b < cfg.next, ∀ s ∈ cfg.stmts b, s.Below cfg.locals.length
  locals : MachineLocals cfg.locals.length l0 ms cfg.locals.length
  count : ms.length = r.coroutines.length
  head : cfg'.block r.regionBegin.1 =
    ⟨(cfg.stmts r.regionBegin.1).take r.regionBegin.2 ++ [.nop] ++ stateInits ms, .goto top⟩
  plain : ∀ b, Plain cfg r start b → b ≠ r.regionBegin.1 → cfg'.block b = cfg.block b
  new : ∀ b, E b → cfg.next ≤ b
  dispatch : ∀ m ∈ ms, cfg.next ≤ m.dispatchBb ∧ ¬E m.dispatchBb
  lowered : ∀ m c, Drives r ms m c → ∃ F entry entries done, Own cfg ms E F ∧
    Lowered cfg cfg' r F (Scratch cfg l0 ms) c (findSuspensionPoints hooks cfg c) m entry entries done

/-- The blocks of an executor: from `lo` up to `hi`, and the exits of the machines. -/
def Executes (lo hi : ℕ) (ms : List Machine) (b : ℕ) : Prop := lo ≤ b ∧ b < hi ∨ ∃ m ∈ ms, b = m.exitBb

theorem Assembly.staged {cfgM cfgL : Body U} {lo ll : ℕ → ℕ} (A : Assembly hooks cfg r start ms cfgM cfgL lo ll) (top : ℕ)
    (hbelow : ∀ b < cfg.next, ∀ s ∈ cfg.stmts b, s.Below cfg.locals.length) :
    Staged hooks cfg (finishRegion cfgL r ms top) r start ms top cfgM.locals.length (Executes cfgM.next cfgL.next ms) := by
  have hmarked := A.marked
  have hnext := A.next_le
  have hlast := A.lo_last
  have hfirst := A.lo_first
  have hlo : ∀ {k}, k < r.coroutines.length → cfg.next ≤ lo k ∧ lo (k + 1) ≤ cfgM.next := fun {k} hk => by
    have h1 := A.built.lo_mono (Nat.zero_le k)
    have h2 := A.built.lo_mono (Nat.add_one_le_of_lt hk)
    exact ⟨hfirst ▸ h1, hlast ▸ h2⟩
  refine ⟨hmarked, hbelow, A.locals, A.count, A.head top, fun b hb hne => ?_, fun b hb => ?_, fun m hm => ?_, fun m c hd => ?_⟩
  · obtain ⟨h1, h2⟩ := hmarked.plain b hb
    exact A.outside top (hmarked.plain_lt hb) hne h1 fun c hc hin => hne (h2 c hc hin)
  · rcases hb with hb | ⟨m, hm, rfl⟩
    · omega
    · exact (A.dispatch_exit hm).2.2.1
  · obtain ⟨h1, h2, -⟩ := A.dispatch_exit hm
    refine ⟨h1, ?_⟩
    rintro (hb | ⟨m', hm', heq⟩)
    · omega
    · exact A.built.dispatch_exit.2.1 m hm m' hm' heq
  · obtain ⟨k, hc, hm⟩ := hd
    obtain ⟨entry, entries, done, hl⟩ := A.lowered top hc hm
    obtain ⟨hlow, hhigh⟩ := hlo (List.getElem?_eq_some_iff.mp hc).1
    refine ⟨_, entry, entries, done, fun d hd => ?_, hl⟩
    rcases hd with ⟨h1, h2, h3, h4⟩ | ⟨rfl, -⟩
    · refine ⟨by omega, ?_, fun m' hm' heq => ?_⟩
      · rintro (hb | ⟨m', hm', rfl⟩)
        · omega
        · obtain ⟨j, hj⟩ := List.mem_iff_getElem?.mp hm'
          obtain ⟨x, entries', done', -, -, hb⟩ := A.built.built_at hj
          obtain rfl := AllBuilt.interval_eq A.built.lo_mono hb.dispatch.2.1 ⟨h1, h2⟩
          rw [hm] at hj
          exact h4 (congrArg Machine.exitBb (Option.some.inj hj)).symm
      · subst heq
        obtain ⟨j, hj⟩ := List.mem_iff_getElem?.mp hm'
        obtain ⟨x, entries', done', -, -, hb⟩ := A.built.built_at hj
        obtain rfl := AllBuilt.interval_eq A.built.lo_mono hb.dispatch.1 ⟨h1, h2⟩
        rw [hm] at hj
        exact h3 (congrArg Machine.dispatchBb (Option.some.inj hj)).symm
    · refine ⟨by omega, ?_, fun m' hm' heq => ?_⟩
      · rintro (hb | ⟨m', hm', heq⟩)
        · omega
        · have hlt := (A.dispatch_exit hm').2.2.2.1
          omega
      · have hlt := (A.dispatch_exit hm').2.1
        omega

namespace Staged

theorem drives (h : Staged hooks cfg cfg' r start ms top l0 E) (hm : m ∈ ms) : ∃ c, Drives r ms m c := by
  obtain ⟨k, hk⟩ := List.mem_iff_getElem?.mp hm
  have hlt : k < r.coroutines.length := h.count ▸ (List.getElem?_eq_some_iff.mp hk).1
  exact ⟨r.coroutines[k], k, List.getElem?_eq_getElem hlt, hk⟩

theorem driven (h : Staged hooks cfg cfg' r start ms top l0 E) (hc : c ∈ r.coroutines) : ∃ m ∈ ms, Drives r ms m c := by
  obtain ⟨k, hk⟩ := List.mem_iff_getElem?.mp hc
  have hlt : k < ms.length := h.count ▸ (List.getElem?_eq_some_iff.mp hk).1
  exact ⟨_, List.getElem_mem hlt, k, hk, List.getElem?_eq_getElem hlt⟩

/-- A machine drives one coroutine, and a coroutine is driven by one machine. -/
theorem drives_iff (h : Staged hooks cfg cfg' r start ms top l0 E) {m' : Machine} {c' : Coroutine} (hd : Drives r ms m c)
    (hd' : Drives r ms m' c') : m = m' ↔ c = c' := by
  obtain ⟨j, hcj, hmj⟩ := hd
  obtain ⟨k, hck, hmk⟩ := hd'
  constructor
  · rintro rfl
    by_cases hjk : j = k
    · subst hjk
      exact Option.some.inj (hcj.symm.trans hck)
    · exact absurd rfl (h.locals.state_inj j k m m hmj hmk hjk)
  · rintro rfl
    obtain rfl := h.marked.apart j k c c hcj hck _ .begin .begin
    exact Option.some.inj (hmj.symm.trans hmk)

end Staged

theorem Drives.mem (h : Drives r ms m c) : m ∈ ms ∧ c ∈ r.coroutines := by
  obtain ⟨k, hc, hm⟩ := h
  exact ⟨List.mem_of_getElem? hm, List.mem_of_getElem? hc⟩

/-! ## The blocks of a poll -/

/-- A block that a poll of `c` may enter: none of the executor, no dispatch, not the region's begin, no end marker's but
    its own. -/
structure Aside (r : Region) (ms : List Machine) (E : ℕ → Prop) (c : Coroutine) (b : ℕ) : Prop where
  executor : ¬E b
  dispatch : ∀ m ∈ ms, b ≠ m.dispatchBb
  region : b ≠ r.regionBegin.1
  ends : ∀ c' ∈ r.coroutines, b = c'.last.1 → c' = c

section
variable {F : ℕ → Prop} {entry done : ℕ} {entries : List ℕ} {b : ℕ}

theorem Staged.points (h : Staged hooks cfg cfg' r start ms top l0 E) (hc : c ∈ r.coroutines) :
    ∀ p ∈ findSuspensionPoints hooks cfg c, Inside cfg c p.bb ∧ p.bb ≠ c.last.1 ∧ p.bb ≠ c.begin.1 := by
  intro p hp
  obtain ⟨hr, m, hm, hk⟩ := (h.marked.mem_points hc).mp hp
  obtain ⟨h1, h2⟩ := (h.marked.suspension_block (h.marked.inside_lt hc hr.inside) hm hk).2.2 c hc
  exact ⟨hr.inside, h2, h1⟩

theorem Staged.aside_of_new (h : Staged hooks cfg cfg' r start ms top l0 E) (hb : cfg.next ≤ b) (hE : ¬E b)
    (hdispatch : ∀ m ∈ ms, b ≠ m.dispatchBb) : Aside r ms E c b := by
  have hlt := h.marked.region_lt.1
  refine ⟨hE, hdispatch, by omega, fun c' hc' heq => ?_⟩
  have hlt' := (h.marked.mem_markers_lt hc').2
  omega

theorem Staged.aside_of_inside (h : Staged hooks cfg cfg' r start ms top l0 E) (hd : Drives r ms m c) (hb : Inside cfg c b)
    (hne : b = c.begin.1 → c.begin.1 ≠ r.regionBegin.1) : Aside r ms E c b := by
  have hc := hd.mem.2
  have hlt := h.marked.inside_lt hc hb
  refine ⟨fun hE => ?_, fun m' hm' heq => ?_, fun heq => ?_, fun c' hc' heq => ?_⟩
  · have hle := h.new b hE
    omega
  · have hle := (h.dispatch m' hm').1
    omega
  · have hbegin := h.marked.begin_outside c hc (heq ▸ hb)
    exact hne (heq.trans hbegin.symm) hbegin
  · obtain ⟨j, hj⟩ := List.mem_iff_getElem?.mp hc'
    obtain ⟨k, hk, -⟩ := hd
    obtain rfl := h.marked.apart j k c' c hj hk b (heq ▸ .last) hb
    exact Option.some.inj (hj.symm.trans hk)

theorem Staged.aside (h : Staged hooks cfg cfg' r start ms top l0 E) (hd : Drives r ms m c)
    (hF : Own cfg ms E F)
    (hl : Lowered cfg cfg' r F (Scratch cfg l0 ms) c (findSuspensionPoints hooks cfg c) m entry entries done)
    (hgoing : b ≠ m.dispatchBb) (hpart : Part cfg cfg' F c (findSuspensionPoints hooks cfg c) m entry entries done b) : Aside r ms E c b := by
  have hc := hd.mem.2
  have hnew : ∀ {d}, F d → Aside r ms E c d := fun hd => h.aside_of_new (hF _ hd).1 (hF _ hd).2.1 (hF _ hd).2.2
  have hin : ∀ {d}, Inside cfg c d → d ≠ c.begin.1 → Aside r ms E c d := fun hb hne =>
    h.aside_of_inside hd hb fun heq => absurd heq hne
  cases hpart with
  | dispatch => exact absurd rfl hgoing
  | entry =>
    rcases hl.entry_mem with ⟨hne, rfl⟩ | ⟨-, hF'⟩
    · exact h.aside_of_inside hd .begin fun _ => hne
    · exact hnew hF'
  | body inside hb _ _ => exact hin inside hb
  | point hp => exact hin (h.points hc _ hp).1 (h.points hc _ hp).2.2
  | resume he =>
    obtain ⟨j, hj⟩ := List.mem_iff_getElem?.mp he
    have hlt : j < (findSuspensionPoints hooks cfg c).length := hl.count ▸ (List.getElem?_eq_some_iff.mp hj).1
    cases hl.sites j _ _ (List.getElem?_eq_getElem hlt) hj with
    | yield _ _ he' _ _ _ => exact hnew he'
    | send _ _ he' _ _ _ => exact hnew he'
    | guard _ hg _ _ _ _ _ _ _ =>
      rcases hg with ⟨-, rfl⟩ | ⟨-, hF', -⟩
      · have hp := h.points hc _ (List.getElem_mem hlt)
        exact hin hp.1 hp.2.2
      · exact hnew hF'
  | through hF' _ _ _ _ => exact hnew hF'
  | suspend hF' _ _ _ => exact hnew hF'
  | last => exact hin .last ((h.marked.last_ne hc).2.2.2.2 c hc)
  | done => exact hnew hl.done_mem

end

/-! ## What the blocks of a poll leave behind -/

/-- A statement of a machine's block but for those that end a poll: one of the body, a look, a check, or the flag behind
    a guard, which is the local `n`. -/
inductive Harmless (n : ℕ) (T : ℕ → Prop) : Stmt U → Prop
  | below {s : Stmt U} (hs : s.Below n) : Harmless n T s
  | peek {u : U} {d : ℕ} (hd : T d) : Harmless n T (.peek u d)
  | check {d l : ℕ} {v : ℤ} (hd : T d) : Harmless n T (.eqCheckI64 d l v)
  | flag : Harmless n T (.assignI64 n 1)

/-- From `σ₀` to `σ` the run went through blocks in `A` only and has added `new` to the log: it stored to the body's
    locals, to temporaries in `T`, and 1 to the flag `n`. -/
structure Ran {host : Host U} (n : ℕ) (T A : ℕ → Prop) (σ₀ σ : Store host) (new : List (Event U)) : Prop where
  log : σ.log = new ++ σ₀.log
  enters : ∀ b, .enter b ∈ new → A b
  stores : ∀ l v, .set l v ∈ new → l < n ∨ l = n ∧ v = 1
  locals : ∀ l, n < l → ¬T l → σ.locals l = σ₀.locals l
  flag : .set n 1 ∈ new ∧ σ.locals n = 1 ∨ .set n 1 ∉ new ∧ σ.locals n = σ₀.locals n

namespace Ran
variable {host : Host U} {n : ℕ} {T A : ℕ → Prop} {σ₀ σ : Store host} {new : List (Event U)}

theorem refl : Ran n T A σ σ [] :=
  ⟨rfl, fun _ hb => absurd hb List.not_mem_nil, fun _ _ hv => absurd hv List.not_mem_nil, fun _ _ _ => rfl,
    .inr ⟨List.not_mem_nil, rfl⟩⟩

/-- A store to a temporary. -/
theorem scratch (h : Ran n T A σ₀ σ new) (hT : ∀ d, T d → n < d) {d : ℕ} (hd : T d) {τ : Store host} (hlog : τ.log = σ.log)
    (hlocals : ∀ l, l ≠ d → τ.locals l = σ.locals l) : Ran n T A σ₀ τ new := by
  refine ⟨hlog.trans h.log, h.enters, h.stores, fun l hl ht => ?_, ?_⟩
  · rw [hlocals l fun heq => ht (heq ▸ hd)]
    exact h.locals l hl ht
  · rw [hlocals n (hT d hd).ne]
    exact h.flag

theorem exec (h : Ran n T A σ₀ σ new) (hb : host.Below n) (hT : ∀ d, T d → n < d) {s : Stmt U} (hs : Harmless n T s) :
    ∃ new', Ran n T A σ₀ (s.exec σ) (new' ++ new) ∧ (∀ b, .enter b ∉ new') ∧ (.set n 1 ∈ new' ↔ s = .assignI64 n 1) := by
  cases hs with
  | below hs =>
    obtain ⟨⟨new', hlog, hnew⟩, hkeep⟩ := s.exec_silent hb hs σ
    have henter : ∀ b, .enter b ∉ new' := fun b hin => hnew _ hin
    have hset : ∀ {l v}, .set l v ∈ new' → l < n := fun hin => hnew _ hin
    have hflag : s ≠ .assignI64 n 1 := by
      rintro rfl
      exact lt_irrefl n hs
    refine ⟨new', ⟨?_, fun b hin => ?_, fun l v hin => ?_, fun l hl ht => ?_, ?_⟩, henter,
      iff_of_false (fun hin => lt_irrefl n (hset hin)) hflag⟩
    · rw [hlog, h.log, List.append_assoc]
    · rcases List.mem_append.mp hin with hin | hin
      · exact absurd hin (henter b)
      · exact h.enters b hin
    · rcases List.mem_append.mp hin with hin | hin
      · exact .inl (hset hin)
      · exact h.stores l v hin
    · rw [hkeep l hl.le]
      exact h.locals l hl ht
    · rw [hkeep n le_rfl, List.mem_append, or_iff_right fun hin => lt_irrefl n (hset hin)]
      exact h.flag
  | peek hd =>
    refine ⟨[], h.scratch hT hd rfl fun l hl => ?_, fun b => List.not_mem_nil, by simp⟩
    exact Function.update_of_ne hl _ _
  | check hd =>
    refine ⟨[], h.scratch hT hd rfl fun l hl => ?_, fun b => List.not_mem_nil, by simp⟩
    exact Function.update_of_ne hl _ _
  | flag =>
    refine ⟨[.set n 1], ⟨?_, fun b hin => ?_, fun l v hin => ?_, fun l hl ht => ?_, ?_⟩, fun b hin => ?_, by simp⟩
    · exact congrArg (_ :: ·) h.log
    · rcases List.mem_cons.mp hin with hin | hin
      · cases hin
      · exact h.enters b hin
    · rcases List.mem_cons.mp hin with hin | hin
      · cases hin
        exact .inr ⟨rfl, rfl⟩
      · exact h.stores l v hin
    · exact (Function.update_of_ne hl.ne' _ _).trans (h.locals l hl ht)
    · exact .inl ⟨List.mem_cons_self, Function.update_self _ _ _⟩
    · cases List.mem_singleton.mp hin

theorem execAll (h : Ran n T A σ₀ σ new) (hb : host.Below n) (hT : ∀ d, T d → n < d) {l : List (Stmt U)}
    (hl : ∀ s ∈ l, Harmless n T s) : ∃ new', Ran n T A σ₀ (execAll σ l) (new' ++ new) ∧ (∀ b, .enter b ∉ new') ∧
      (.set n 1 ∈ new' ↔ .assignI64 n 1 ∈ l) := by
  induction l generalizing σ new with
  | nil => exact ⟨[], h, fun b => List.not_mem_nil, by simp⟩
  | cons s l ih =>
    obtain ⟨new₁, h₁, hnot₁, hflag₁⟩ := h.exec hb hT (hl s List.mem_cons_self)
    obtain ⟨new₂, h₂, hnot₂, hflag₂⟩ := ih h₁ fun s' hs' => hl s' (List.mem_cons_of_mem _ hs')
    rw [← List.append_assoc] at h₂
    refine ⟨new₂ ++ new₁, h₂, fun b hin => ?_, ?_⟩
    · rcases List.mem_append.mp hin with hin | hin
      · exact hnot₂ b hin
      · exact hnot₁ b hin
    · rw [List.mem_append, hflag₁, hflag₂, List.mem_cons, or_comm, eq_comm]

/-- One block more. -/
theorem block (h : Ran n T A σ₀ σ new) (hb : host.Below n) (hT : ∀ d, T d → n < d) {b : ℕ} (hA : A b) {l : List (Stmt U)}
    (hl : ∀ s ∈ l, Harmless n T s) :
    ∃ new', Ran n T A σ₀ (Stackless.execAll (σ.note (.enter b)) l) (new' ++ .enter b :: new) ∧ (∀ b', .enter b' ∉ new') ∧
      (.set n 1 ∈ new' ↔ .assignI64 n 1 ∈ l) := by
  have hnote : Ran n T A σ₀ (σ.note (.enter b)) (.enter b :: new) := by
    refine ⟨congrArg (_ :: ·) h.log, fun b' hin => ?_, fun l v hin => ?_, h.locals, ?_⟩
    · rcases List.mem_cons.mp hin with hin | hin
      · cases hin
        exact hA
      · exact h.enters b' hin
    · rcases List.mem_cons.mp hin with hin | hin
      · cases hin
      · exact h.stores l v hin
    · rcases h.flag with ⟨h1, h2⟩ | ⟨h1, h2⟩
      · exact .inl ⟨List.mem_cons_of_mem _ h1, h2⟩
      · refine .inr ⟨fun hin => ?_, h2⟩
        rcases List.mem_cons.mp hin with hin | hin
        · cases hin
        · exact h1 hin
  exact hnote.execAll hb hT hl

end Ran

/-! ## Guards passed -/

/-- The block behind a guard: it notes the progress and receives. -/
def BehindGuard (cfg' : Body U) (progress b : ℕ) : Prop :=
  ∃ u rest t, cfg'.block b = ⟨.assignI64 progress 1 :: .recv u :: rest, t⟩

/-- A guard was passed. -/
def GuardPassed (cfg' : Body U) (progress : ℕ) (log : List (Event U)) : Prop :=
  ∃ b, BehindGuard cfg' progress b ∧ .enter b ∈ log

section
variable {n b : ℕ} {new add log : List (Event U)}

theorem GuardPassed.mono (h : GuardPassed cfg' n log) (hsub : log ⊆ new) : GuardPassed cfg' n new := by
  obtain ⟨b, hb, hin⟩ := h
  exact ⟨b, hb, hsub hin⟩

theorem guardPassed_append : GuardPassed cfg' n (add ++ log) ↔ GuardPassed cfg' n add ∨ GuardPassed cfg' n log := by
  constructor
  · rintro ⟨b, hb, hin⟩
    exact (List.mem_append.mp hin).imp (fun hin => ⟨b, hb, hin⟩) fun hin => ⟨b, hb, hin⟩
  · rintro (h | h)
    · exact h.mono (List.subset_append_left _ _)
    · exact h.mono (List.subset_append_right _ _)

theorem guardPassed_of_not (h : ∀ b, BehindGuard cfg' n b → .enter b ∉ add) :
    GuardPassed cfg' n (add ++ log) ↔ GuardPassed cfg' n log := by
  rw [guardPassed_append, or_iff_right]
  rintro ⟨b, hb, hin⟩
  exact h b hb hin

/-- A block without the receive behind a guard stands behind none. -/
theorem not_behindGuard {l : List (Stmt U)} {t : Term} (hblock : cfg'.block b = ⟨l, t⟩) (hl : ∀ u, l[1]? ≠ some (.recv u)) :
    ¬BehindGuard cfg' n b := by
  rintro ⟨u, rest, t', hb⟩
  rw [hblock] at hb
  obtain ⟨rfl, -⟩ := Block.mk.inj hb
  exact hl u rfl

theorem flag_mem_iff {l : List (Stmt U)} {t : Term} (hblock : cfg'.block b = ⟨l, t⟩)
    (hflag : .assignI64 n 1 ∈ l → BehindGuard cfg' n b) : .assignI64 n 1 ∈ l ↔ BehindGuard cfg' n b := by
  refine ⟨hflag, fun ⟨u, rest, t', hb⟩ => ?_⟩
  rw [hblock] at hb
  obtain ⟨rfl, -⟩ := Block.mk.inj hb
  exact List.mem_cons_self

/-- One block more: it stores 1 in the flag exactly if it stands behind a guard. -/
theorem guardPassed_block (h : .set n 1 ∈ new ↔ GuardPassed cfg' n new) (hadd : ∀ b', .enter b' ∉ add)
    (hset : .set n 1 ∈ add ↔ BehindGuard cfg' n b) :
    .set n 1 ∈ add ++ .enter b :: new ↔ GuardPassed cfg' n (add ++ .enter b :: new) := by
  rw [guardPassed_of_not fun b' _ => hadd b', List.mem_append, List.mem_cons, hset, h]
  constructor
  · rintro (hb | hb | hb)
    · exact ⟨b, hb, List.mem_cons_self⟩
    · cases hb
    · exact hb.mono (List.subset_cons_self _ _)
  · rintro ⟨b', hb', hin⟩
    rcases List.mem_cons.mp hin with hin | hin
    · exact .inl (Event.enter.inj hin ▸ hb')
    · exact .inr (.inr ⟨b', hb', hin⟩)

end

/-! ## A poll -/

section
variable {host : Host U} {F : ℕ → Prop} {entry done : ℕ} {entries : List ℕ} {b : ℕ} {σ₀ σ : Store host} {new : List (Event U)}

/-- The machine can be dispatched: its state stands for the begin marker or for a point. -/
def Waits (m : Machine) (count : ℕ) (σ : Store host) : Prop :=
  ∃ i : ℕ, σ.locals m.stateLocal = i ∧ i ≤ count ∧ (i : ℤ) ≠ doneState

/-- A poll of `c` that began in `σ₀` is about to enter `b`: the block that ends it, exactly if control came to the end
    marker. -/
structure Live (hooks : Hooks U) (cfg cfg' : Body U) (r : Region) (ms : List Machine) (l0 : ℕ) (E F : ℕ → Prop) (c : Coroutine)
    (m : Machine) (entry : ℕ) (entries : List ℕ) (done : ℕ) (σ₀ : Store host) (b : ℕ) (σ : Store host) (new : List (Event U)) :
    Prop where
  part : Part cfg cfg' F c (findSuspensionPoints hooks cfg c) m entry entries done b
  going : b ≠ m.dispatchBb
  ran : Ran cfg.locals.length (Scratch cfg l0 ms) (Aside r ms E c) σ₀ σ new
  guards : .set cfg.locals.length 1 ∈ new ↔ GuardPassed cfg' cfg.locals.length new
  ends : b = done ↔ .enter c.last.1 ∈ new

/-- How a poll that began in `σ₀` came to the exit of its machine, with its result. -/
inductive Polled (hooks : Hooks U) (cfg cfg' : Body U) (r : Region) (ms : List Machine) (l0 : ℕ) (E : ℕ → Prop) (c : Coroutine)
    (m : Machine) (σ₀ : Store host) : Store host → List (Event U) → ℤ → Prop
  | finished {τ : Store host} {new : List (Event U)}
      (ran : Ran cfg.locals.length (Scratch cfg l0 ms) (Aside r ms E c) σ₀ τ new)
      (guards : .set cfg.locals.length 1 ∈ new ↔ GuardPassed cfg' cfg.locals.length new) (ends : .enter c.last.1 ∈ new) :
      Polled hooks cfg cfg' r ms l0 E c m σ₀ ((τ.assign m.pollResultLocal pollReady).assign m.stateLocal doneState) new pollReady
  | suspended {τ : Store host} {new : List (Event U)} {y id : ℕ} {res : ℤ}
      (ran : Ran cfg.locals.length (Scratch cfg l0 ms) (Aside r ms E c) σ₀ τ new)
      (guards : .set cfg.locals.length 1 ∈ new ↔ GuardPassed cfg' cfg.locals.length new) (stays : .enter c.last.1 ∉ new)
      (hid : 1 ≤ id ∧ id ≤ (findSuspensionPoints hooks cfg c).length) (hres : res = pollPending ∨ res = pollBlocked)
      (suspends : Suspends cfg' m y id res) (at_y : .enter y ∈ new) :
      Polled hooks cfg cfg' r ms l0 E c m σ₀ ((τ.assign m.stateLocal id).assign m.pollResultLocal res) new res

theorem Staged.below_of_body (h : Staged hooks cfg cfg' r start ms top l0 E) (hc : c ∈ r.coroutines) {l : List (Stmt U)}
    (hl : OfBody cfg c l) : ∀ s ∈ l, s.Below cfg.locals.length := by
  intro s hs
  rcases hl s hs with rfl | ⟨b, hb, hs⟩
  · trivial
  · exact h.below b (h.marked.inside_lt hc hb) s hs

theorem Lowered.ne_done {T : ℕ → Prop} {pts : List Point} (hl : Lowered cfg cfg' r F T c pts m entry entries done)
    {l : List (Stmt U)} {t : Term} (hblock : cfg'.block b = ⟨l, t⟩)
    (hhead : l.head? ≠ some (.assignI64 m.pollResultLocal pollReady)) : b ≠ done := by
  rintro rfl
  rw [hl.done_block] at hblock
  obtain ⟨rfl, -⟩ := Block.mk.inj hblock
  exact hhead rfl

section
variable (h : Staged hooks cfg cfg' r start ms top l0 E) (hd : Drives r ms m c) (hF : Own cfg ms E F)
  (hl : Lowered cfg cfg' r F (Scratch cfg l0 ms) c (findSuspensionPoints hooks cfg c) m entry entries done)

include h hd hl

/-- A block that holds statements of the body only does not end the poll. -/
theorem Staged.body_ne_done {l : List (Stmt U)} {t : Term} (hblock : cfg'.block b = ⟨l, t⟩) (hbody : OfBody cfg c l) : b ≠ done := by
  refine hl.ne_done hblock fun hhead => ?_
  have hbelow : m.pollResultLocal < cfg.locals.length := h.below_of_body hd.mem.2 hbody _ (List.mem_of_mem_head? hhead)
  have hle := (h.locals.poll_mem m hd.mem.1).1
  omega

include hF in
theorem Staged.gathers : Gathers cfg cfg' F c (findSuspensionPoints hooks cfg c) m entries fun b =>
    Part cfg cfg' F c (findSuspensionPoints hooks cfg c) m entry entries done b ∧ b ≠ done ∧ b ≠ m.dispatchBb := by
  have hown : ∀ {b}, F b → b ≠ m.dispatchBb := fun hb => (hF _ hb).2.2 m hd.mem.1
  have hinside : ∀ {b}, Inside cfg c b → b ≠ m.dispatchBb := fun hb heq => by
    have hlt := h.marked.inside_lt hd.mem.2 hb
    have hle := (h.dispatch m hd.mem.1).1
    omega
  have hdrop : ∀ {b}, Inside cfg c b → ∀ i, OfBody cfg c ((cfg.stmts b).drop i) := fun hb i =>
    .of_subset hb fun s => List.mem_of_mem_drop
  refine ⟨fun e he => ⟨.resume he, ?_⟩, fun hF' hid hres hb => ⟨.suspend hF' hid hres hb, ?_, hown hF'⟩,
    fun hF' hc hne hsuf hb => ⟨.through hF' hc hne hsuf hb, ?_, hown hF'⟩⟩
  · obtain ⟨j, hj⟩ := List.mem_iff_getElem?.mp he
    have hlt : j < (findSuspensionPoints hooks cfg c).length := hl.count ▸ (List.getElem?_eq_some_iff.mp hj).1
    have hin := (h.points hd.mem.2 _ (List.getElem_mem hlt)).1
    cases hl.sites j _ _ (List.getElem?_eq_getElem hlt) hj with
    | yield _ _ he' _ _ tail => exact ⟨h.body_ne_done hd hl tail (hdrop hin _), hown he'⟩
    | send _ _ he' _ _ tail => exact ⟨h.body_ne_done hd hl tail (hdrop hin _), hown he'⟩
    | guard _ hg _ _ _ _ _ guards _ =>
      refine ⟨hl.ne_done guards (by simp), ?_⟩
      rcases hg with ⟨-, rfl⟩ | ⟨-, hFg, -⟩
      · exact hinside hin
      · exact hown hFg
  · refine hl.ne_done hb fun hhead => ?_
    have heq := (Stmt.assignI64.inj (Option.some.inj hhead)).1
    exact h.locals.state_poll m hd.mem.1 m hd.mem.1 heq
  · refine hl.ne_done hb fun hhead => ?_
    have heq := (Stmt.assignI64.inj (Option.some.inj hhead)).1
    rw [h.locals.progress_eq m hd.mem.1] at heq
    exact (h.locals.poll_mem m hd.mem.1).2.2 heq.symm

include hF in
/-- A dispatch goes to a block of the machine. -/
theorem Staged.dispatch_run (hw : Waits m (findSuspensionPoints hooks cfg c).length σ) :
    ∃ l e, (∀ s ∈ l, Harmless cfg.locals.length (Scratch cfg l0 ms) s) ∧ .assignI64 cfg.locals.length 1 ∉ l ∧
      (∃ t, cfg'.block m.dispatchBb = ⟨l, t⟩) ∧ runBlock cfg' m.dispatchBb σ = ⟨.block e, execAll (σ.note (.enter m.dispatchBb)) l⟩ ∧
      Part cfg cfg' F c (findSuspensionPoints hooks cfg c) m entry entries done e ∧ e ≠ done ∧ e ≠ m.dispatchBb := by
  obtain ⟨i, hstate, hi, hdone⟩ := hw
  have hlead : OfBody cfg c (leadIn cfg r c ++ .nop :: (cfg.stmts c.begin.1).drop (c.begin.2 + 1)) :=
    OfBody.append_nop (.of_subset .begin fun s hs => List.mem_of_mem_take (List.mem_of_mem_drop hs))
      (.of_subset .begin fun s hs => List.mem_of_mem_drop hs)
  have hentry : entry ≠ done ∧ entry ≠ m.dispatchBb := by
    refine ⟨h.body_ne_done hd hl hl.entry_block hlead, ?_⟩
    rcases hl.entry_mem with ⟨-, rfl⟩ | ⟨-, hFe⟩
    · have hlt := h.marked.inside_lt hd.mem.2 .begin
      have hle := (h.dispatch m hd.mem.1).1
      omega
    · exact (hF _ hFe).2.2 m hd.mem.1
  rcases hl.dispatches with ⟨-, d, hscratch, hblock⟩ | ⟨-, hblock⟩
  · refine ⟨[.eqCheckI64 d m.stateLocal doneState], entry, fun s hs => ?_, by simp, ⟨_, hblock⟩, ?_, .entry, hentry⟩
    · rw [List.mem_singleton.mp hs]
      exact .check hscratch
    · rw [runBlock_of hblock]
      have hne : ¬(i : ℤ) = doneState := hdone
      simp [execAll, Stmt.exec, leads, Store.note, hstate, hne, ofBool]
  · refine ⟨[], (entry :: entries).getD i 0, fun s hs => absurd hs List.not_mem_nil, List.not_mem_nil, ⟨_, hblock⟩, ?_, ?_⟩
    · have hget : (entry :: entries)[i]? = some ((entry :: entries).getD i 0) := by
        have hlt : i < (entry :: entries).length := by
          rw [List.length_cons, hl.count]
          omega
        rw [List.getD_eq_getElem?_getD, List.getElem?_eq_getElem hlt, Option.getD_some]
      rw [runBlock_of hblock]
      have hlocals : (σ.note (.enter m.dispatchBb)).locals m.stateLocal = i := hstate
      simp only [leads, execAll, List.foldl_nil, hlocals, switchTarget_state hget]
    · cases i with
      | zero => exact ⟨.entry, hentry⟩
      | succ i =>
        have hlt : i < entries.length := by
          rw [hl.count]
          omega
        have hget : (entry :: entries).getD (i + 1) 0 = entries[i] := by
          rw [List.getD_cons_succ, List.getD_eq_getElem?_getD, List.getElem?_eq_getElem hlt, Option.getD_some]
        rw [hget]
        exact (h.gathers hd hF hl).resume _ (List.getElem_mem hlt)

include hF in
/-- A poll begins. -/
theorem Live.begins (hb : host.Below cfg.locals.length) (hw : Waits m (findSuspensionPoints hooks cfg c).length σ) :
    ∃ e new, (runBlock cfg' m.dispatchBb σ).place = .block e ∧ e ≠ done ∧
      Live hooks cfg cfg' r ms l0 E F c m entry entries done (σ.note (.enter m.dispatchBb)) e (runBlock cfg' m.dispatchBb σ).store
        new := by
  obtain ⟨l, e, hl', hplain, -, hrun, hpart, hne, hgoing⟩ := h.dispatch_run hd hF hl hw
  obtain ⟨new, hran, hnot, hflag⟩ := (Ran.refl (A := Aside r ms E c)).execAll hb (fun _ => Scratch.gt) hl'
  rw [hrun]
  rw [List.append_nil] at hran
  refine ⟨e, new, rfl, hne, hpart, hgoing, hran, iff_of_false (fun hin => hplain (hflag.mp hin)) ?_, fun heq => absurd heq hne,
    fun hin => absurd hin (hnot _)⟩
  rintro ⟨b, -, hin⟩
  exact hnot b hin

include hF

/-- The blocks that a body goes on to. -/
theorem Staged.body_next {s : ℕ} {x : ℕ} (hx : Inside cfg c x) (hne : x ≠ c.last.1) (hs : s ∈ cfg.successors x) :
    (Part cfg cfg' F c (findSuspensionPoints hooks cfg c) m entry entries done s ∧ s ≠ done ∧ s ≠ m.dispatchBb) ∨
      s = r.regionBegin.1 := by
  have hin := Inside.next hx hne hs
  have hdone : s ≠ done := by
    have hlt := h.marked.inside_lt hd.mem.2 hin
    have hle := (hF done hl.done_mem).1
    omega
  have hgoing : s ≠ m.dispatchBb := by
    have hlt := h.marked.inside_lt hd.mem.2 hin
    have hle := (h.dispatch m hd.mem.1).1
    omega
  by_cases hb : s = c.begin.1
  · rcases hl.entry_mem with ⟨-, heq⟩ | ⟨heq, -⟩
    · refine .inl ⟨?_, hdone, hgoing⟩
      rw [hb, ← heq]
      exact .entry
    · exact .inr (hb.trans heq)
  · exact .inl ⟨part_of_inside hin hb, hdone, hgoing⟩

/-- The block that ends a poll. -/
theorem Live.ended (hlive : Live hooks cfg cfg' r ms l0 E F c m entry entries done σ₀ done σ new)
    (hb : host.Below cfg.locals.length) : ∃ new', (runBlock cfg' done σ).place = .block m.exitBb ∧
      Polled hooks cfg cfg' r ms l0 E c m σ₀ (runBlock cfg' done σ).store new' pollReady := by
  have haside := h.aside hd hF hl hlive.going hlive.part
  obtain ⟨new', hran, hnew, hset⟩ := hlive.ran.block hb (fun _ => Scratch.gt) haside (l := []) fun s hs =>
    absurd hs List.not_mem_nil
  have hin := hlive.ends.mp rfl
  have hguards := guardPassed_block hlive.guards hnew (iff_of_false (fun hin => List.not_mem_nil (hset.mp hin))
    (not_behindGuard hl.done_block (by simp)))
  refine ⟨new' ++ .enter done :: new, ?_, ?_⟩
  · rw [runBlock_of hl.done_block]
    rfl
  · rw [runBlock_of hl.done_block]
    exact .finished hran hguards (List.mem_append_right _ (List.mem_cons_of_mem _ hin))

/-- One block of a poll: it goes on, comes to the exit of its machine, or leaves the coroutine otherwise, back at the
    region's begin or for good. -/
theorem Live.step (hlive : Live hooks cfg cfg' r ms l0 E F c m entry entries done σ₀ b σ new)
    (hb : host.Below cfg.locals.length) :
    (∃ b' new', (runBlock cfg' b σ).place = .block b' ∧
      Live hooks cfg cfg' r ms l0 E F c m entry entries done σ₀ b' (runBlock cfg' b σ).store new') ∨
    (∃ new' res, (runBlock cfg' b σ).place = .block m.exitBb ∧
      Polled hooks cfg cfg' r ms l0 E c m σ₀ (runBlock cfg' b σ).store new' res) ∨
    ∃ new', Ran cfg.locals.length (Scratch cfg l0 ms) (Aside r ms E c) σ₀ (runBlock cfg' b σ).store new' ∧
      .enter c.last.1 ∉ new' ∧
      ((runBlock cfg' b σ).place = .block r.regionBegin.1 ∨ ∀ b', (runBlock cfg' b σ).place ≠ .block b') := by
  have haside := h.aside hd hF hl hlive.going hlive.part
  have hplain : ∀ {l : List (Stmt U)}, OfBody cfg c l → .assignI64 cfg.locals.length 1 ∉ l := fun hbody hin =>
    lt_irrefl _ (h.below_of_body hd.mem.2 hbody _ hin : cfg.locals.length < cfg.locals.length)
  have hlastNe := ((h.marked.last_ne hd.mem.2).2.2.2.2 c hd.mem.2).symm
  by_cases hbd : b = done
  · subst hbd
    obtain ⟨new', hplace, hpolled⟩ := hlive.ended h hd hF hl hb
    exact .inr (.inl ⟨new', pollReady, hplace, hpolled⟩)
  have hnot : .enter c.last.1 ∉ new := fun hin => hbd (hlive.ends.mpr hin)
  by_cases hbl : b = c.last.1
  · -- the end marker's block
    subst hbl
    have hbody : OfBody cfg c ((cfg.stmts c.last.1).take c.last.2 ++ .nop :: (cfg.stmts c.last.1).drop (c.last.2 + 1)) :=
      OfBody.append_nop (.of_subset .last fun s hs => List.mem_of_mem_take hs) (.of_subset .last fun s hs => List.mem_of_mem_drop hs)
    obtain ⟨new', hran, hnew, hset⟩ := hlive.ran.block hb (fun _ => Scratch.gt) haside fun s hs =>
      .below (h.below_of_body hd.mem.2 hbody s hs)
    refine .inl ⟨done, new' ++ .enter c.last.1 :: new, ?_, .done, (hF _ hl.done_mem).2.2 m hd.mem.1, ?_, ?_, ?_⟩
    · rw [runBlock_of hl.last]
      rfl
    · rw [runBlock_of hl.last]
      exact hran
    · exact guardPassed_block hlive.guards hnew (hset.trans (flag_mem_iff hl.last fun hin => absurd hin (hplain hbody)))
    · exact ⟨fun _ => List.mem_append_right _ List.mem_cons_self, fun _ => rfl⟩
  -- any other block: `.enter c.last.1` stays out of the log
  have hgo : ∀ {l : List (Stmt U)} {t : Term}, cfg'.block b = ⟨l, t⟩ →
      (∀ s ∈ l, Harmless cfg.locals.length (Scratch cfg l0 ms) s) →
      (.assignI64 cfg.locals.length 1 ∈ l → BehindGuard cfg' cfg.locals.length b) →
      (∀ s ∈ t.successors, (Part cfg cfg' F c (findSuspensionPoints hooks cfg c) m entry entries done s ∧ s ≠ done ∧ s ≠ m.dispatchBb) ∨
        s = r.regionBegin.1) →
      (∃ b' new', (runBlock cfg' b σ).place = .block b' ∧
        Live hooks cfg cfg' r ms l0 E F c m entry entries done σ₀ b' (runBlock cfg' b σ).store new') ∨
      ∃ new', Ran cfg.locals.length (Scratch cfg l0 ms) (Aside r ms E c) σ₀ (runBlock cfg' b σ).store new' ∧
        .enter c.last.1 ∉ new' ∧
        ((runBlock cfg' b σ).place = .block r.regionBegin.1 ∨ ∀ b', (runBlock cfg' b σ).place ≠ .block b') := by
    intro l t hblock hharm hflag hnext
    obtain ⟨new', hran, hnew, hset⟩ := hlive.ran.block hb (fun _ => Scratch.gt) haside hharm
    have hguards := guardPassed_block hlive.guards hnew (hset.trans (flag_mem_iff hblock hflag))
    have hout : .enter c.last.1 ∉ new' ++ .enter b :: new := fun hin => by
      rcases List.mem_append.mp hin with hin | hin
      · exact hnew _ hin
      · rcases List.mem_cons.mp hin with hin | hin
        · exact hbl (Event.enter.inj hin).symm
        · exact hnot hin
    rw [runBlock_of hblock]
    cases hplace : leads (execAll (σ.note (.enter b)) l).locals t with
    | block s =>
      rcases hnext s (leads_successors _ _ hplace) with ⟨hpart, hne, hgoing⟩ | rfl
      · exact .inl ⟨s, _, rfl, hpart, hgoing, hran, hguards, fun heq => absurd heq hne, fun hin => absurd hin hout⟩
      · exact .inr ⟨_, hran, hout, .inl rfl⟩
    | returned => exact .inr ⟨_, hran, hout, .inr fun b' hb' => by cases hb'⟩
    | dead => exact .inr ⟨_, hran, hout, .inr fun b' hb' => by cases hb'⟩
  have hbelow : ∀ {l : List (Stmt U)}, OfBody cfg c l → ∀ s ∈ l, Harmless cfg.locals.length (Scratch cfg l0 ms) s :=
    fun hbody s hs => .below (h.below_of_body hd.mem.2 hbody s hs)
  have hsingle : ∀ {y : ℕ}, Part cfg cfg' F c (findSuspensionPoints hooks cfg c) m entry entries done y ∧ y ≠ done ∧ y ≠ m.dispatchBb →
      ∀ s ∈ (Term.goto y).successors, (Part cfg cfg' F c (findSuspensionPoints hooks cfg c) m entry entries done s ∧ s ≠ done ∧ s ≠ m.dispatchBb) ∨
        s = r.regionBegin.1 := fun hy s hs => .inl (List.mem_singleton.mp hs ▸ hy)
  have hdoes := hlive.part.does hl (h.gathers hd hF hl) hlastNe fun p hp =>
    ⟨(h.points hd.mem.2 p hp).1, (h.points hd.mem.2 p hp).2.1⟩
  cases hdoes with
  | dispatches heq => exact absurd heq hlive.going
  | runs hbody hx hne block =>
    exact (hgo block (hbelow hbody) (fun hin => absurd hin (hplain hbody)) fun s hs =>
      h.body_next hd hF hl hx hne hs).imp_right .inr
  | cut hbody hy block =>
    exact (hgo block (hbelow hbody) (fun hin => absurd hin (hplain hbody)) (hsingle hy)).imp_right .inr
  | guards hscratch hx hy block =>
    refine (hgo block (fun s hs => ?_) (by simp) fun s hs => ?_).imp_right .inr
    · rw [List.mem_singleton.mp hs]
      exact .peek hscratch
    · rcases List.mem_pair.mp hs with rfl | rfl
      · exact .inl hx
      · exact .inl hy
  | through hbody hx hne block =>
    have hbehind : BehindGuard cfg' cfg.locals.length b := by
      rw [h.locals.progress_eq m hd.mem.1] at block
      exact ⟨_, _, _, block⟩
    refine (hgo block (fun s hs => ?_) (fun _ => hbehind) fun s hs => h.body_next hd hF hl hx hne hs).imp_right .inr
    rcases List.mem_cons.mp hs with rfl | hs
    · rw [h.locals.progress_eq m hd.mem.1]
      exact .flag
    · rcases List.mem_cons.mp hs with rfl | hs
      · exact .below trivial
      · exact hbelow hbody s hs
  | @suspends id res hid hres block =>
    obtain ⟨new', hran, hnew, hset⟩ := hlive.ran.block hb (fun _ => Scratch.gt) haside (l := []) fun s hs =>
      absurd hs List.not_mem_nil
    have hguards := guardPassed_block hlive.guards hnew (iff_of_false (fun hin => List.not_mem_nil (hset.mp hin))
      (not_behindGuard block (by simp)))
    have hout : .enter c.last.1 ∉ new' ++ .enter b :: new := fun hin => by
      rcases List.mem_append.mp hin with hin | hin
      · exact hnew _ hin
      · rcases List.mem_cons.mp hin with hin | hin
        · exact hbl (Event.enter.inj hin).symm
        · exact hnot hin
    refine .inr (.inl ⟨new' ++ .enter b :: new, res, ?_, ?_⟩)
    · rw [runBlock_of block]
      rfl
    · rw [runBlock_of block]
      exact .suspended hran hguards hout hid hres block (List.mem_append_right _ List.mem_cons_self)
  | last heq _ _ => exact absurd heq hbl
  | done heq _ => exact absurd heq hbd

end

end

end Krio.Stackless
