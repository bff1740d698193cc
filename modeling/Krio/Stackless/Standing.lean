import Krio.Stackless.Poll

/-! Where the positions of a coroutine are in its machine, and what running a machine's block leaves alone. -/

namespace Krio.Stackless

variable {U : Type} {hooks : Hooks U} {cfg cfg' : Body U} {r : Region} {start top l0 : ℕ} {ms : List Machine} {E : ℕ → Prop}
  {m : Machine} {c : Coroutine}

/-- Where a coroutine that was suspended at `p` goes on: behind a yield or a send, and at a guard. -/
def Point.resume (p : Point) : Pos :=
  match p.kind with
  | .guardedRecv => (p.bb, p.stmt)
  | _ => (p.bb, p.stmt + 1)

/-- The block `d` ends the coroutine. -/
def Finishes (cfg : Body U) (m : Machine) (d : ℕ) : Prop :=
  cfg.block d = ⟨[.assignI64 m.pollResultLocal pollReady, .assignI64 m.stateLocal doneState], .goto m.exitBb⟩

/-- No suspension marker stands in the block `b` from `i` on. -/
def Free (hooks : Hooks U) (cfg : Body U) (b i : ℕ) : Prop :=
  ∀ j, i ≤ j → ∀ mk, hooks.classifyMarker cfg b j = some mk → SuspKind.ofMarker mk = none

/-- The source position of the coroutine `c` is the `j`-th statement of the block `x` of its machine `m`, whose checks and
    peeks store to `T`. -/
inductive Stands (hooks : Hooks U) (cfg cfg' : Body U) (T : ℕ → Prop) (c : Coroutine) (m : Machine) : Pos → ℕ → ℕ → Prop
  | copy {b i x j : ℕ} (inside : Inside cfg c b) (hne : b ≠ c.last.1) (rest : (cfg'.stmts x).drop j = (cfg.stmts b).drop i)
      (term : cfg'.term x = cfg.term b) (free : Free hooks cfg b i) : Stands hooks cfg cfg' T c m (b, i) x j
  | head {p : Point} {k e i : ℕ} {F : ℕ → Prop} (hp : (findSuspensionPoints hooks cfg c)[k]? = some p)
      (site : Site (cfg.block p.bb) cfg' F T m (k + 1 : ℕ) p e) (hne : e ≠ p.bb) (hi : i ≤ p.stmt) :
      Stands hooks cfg cfg' T c m (p.bb, i) p.bb i
  | guard {p : Point} {k e : ℕ} {F : ℕ → Prop} (hp : (findSuspensionPoints hooks cfg c)[k]? = some p)
      (site : Site (cfg.block p.bb) cfg' F T m (k + 1 : ℕ) p e) (kind : p.kind = .guardedRecv) :
      Stands hooks cfg cfg' T c m (p.bb, p.stmt) e 0
  | last {d i : ℕ} (hd : Finishes cfg' m d) (hi : i ≤ c.last.2)
      (block : cfg'.block c.last.1 = ⟨(cfg.stmts c.last.1).take c.last.2 ++ [.nop], .goto d⟩) :
      Stands hooks cfg cfg' T c m (c.last.1, i) c.last.1 i

namespace Marked

theorem free_begin (h : Marked hooks cfg r start) (hc : c ∈ r.coroutines) (i : ℕ) : Free hooks cfg c.begin.1 i := by
  intro j _ mk hmk
  by_contra hsome
  obtain ⟨k, hk⟩ := Option.ne_none_iff_exists'.mp hsome
  exact ((h.suspension_block (h.mem_markers_lt hc).1 hmk hk).2.2 c hc).1 rfl

theorem free_behind (h : Marked hooks cfg r start) (hc : c ∈ r.coroutines) {p : Point}
    (hp : p ∈ findSuspensionPoints hooks cfg c) : Free hooks cfg p.bb (p.stmt + 1) := by
  intro j hj mk hmk
  obtain ⟨hr, mk', hmk', hk'⟩ := (h.mem_points hc).mp hp
  have heq := h.suspension_alone (h.inside_lt hc hr.inside) hmk' hk' hmk
  omega

theorem free_body (h : Marked hooks cfg r start) (hc : c ∈ r.coroutines) {b : ℕ} (hb : Inside cfg c b) (hne : b ≠ c.last.1)
    (hp : ∀ p ∈ findSuspensionPoints hooks cfg c, p.bb ≠ b) (i : ℕ) : Free hooks cfg b i := by
  intro j _ mk hmk
  by_contra hsome
  obtain ⟨k, hk⟩ := Option.ne_none_iff_exists'.mp hsome
  exact hp ⟨b, j, k⟩ ((h.mem_points hc).mpr ⟨hb.reached hne, mk, hmk, hk⟩) rfl

end Marked

section
variable {F : ℕ → Prop} {entry done : ℕ} {entries : List ℕ} (h : Staged hooks cfg cfg' r start ms top l0 E)
  (hd : Drives r ms m c) (hF : Own cfg ms E F)
  (hl : Lowered cfg cfg' r F (Scratch cfg l0 ms) c (findSuspensionPoints hooks cfg c) m entry entries done)
include hl

/-- The dispatch leads to the block of the machine's state. -/
theorem Lowered.dispatch_enters {host : Host U} {i e : ℕ} (τ : Store host) (hstate : τ.locals m.stateLocal = i)
    (hne : (i : ℤ) ≠ doneState) (he : (entry :: entries)[i]? = some e) :
    ∃ l : List (Stmt U), (∀ s ∈ l, ∃ d v, Scratch cfg l0 ms d ∧ s = .eqCheckI64 d m.stateLocal v) ∧
      runBlock cfg' m.dispatchBb τ = ⟨.block e, execAll (τ.note (.enter m.dispatchBb)) l⟩ := by
  rcases hl.dispatches with ⟨hnil, d, hscratch, hblock⟩ | ⟨-, hblock⟩
  · refine ⟨[.eqCheckI64 d m.stateLocal doneState], fun s hs => ⟨d, _, hscratch, List.mem_singleton.mp hs⟩, ?_⟩
    have hentries : entries = [] := List.length_eq_zero_iff.mp (hl.count.trans (by rw [hnil, List.length_nil]))
    have hie : entry = e := by
      rw [hentries] at he
      cases i with
      | zero => exact Option.some.inj he
      | succ i => cases he
    have hzero : (execAll (τ.note (.enter m.dispatchBb)) [.eqCheckI64 d m.stateLocal doneState]).locals d = 0 := by
      have hd : ofBool (τ.locals m.stateLocal = doneState) = 0 := by
        rw [hstate, decide_eq_false hne]
        rfl
      exact (Function.update_self _ _ _).trans hd
    rw [runBlock_of hblock]
    simp only [leads, hzero, ne_eq, not_true, if_false, hie]
  · refine ⟨[], fun s hs => absurd hs List.not_mem_nil, ?_⟩
    have hlocals : (τ.note (.enter m.dispatchBb)).locals m.stateLocal = i := hstate
    rw [runBlock_of hblock]
    simp only [leads, execAll_nil, hlocals, switchTarget_state he]

include h hd

/-- The first dispatch comes to the statement behind the begin marker. -/
theorem Staged.stands_entry (hlead : leadIn cfg r c = []) :
    Stands hooks cfg cfg' (Scratch cfg l0 ms) c m (c.begin.1, c.begin.2 + 1) entry 1 := by
  have hc := hd.mem.2
  have hblock := hl.entry_block
  rw [hlead, List.nil_append] at hblock
  refine .copy .begin ((h.marked.last_ne hc).2.2.2.2 c hc).symm ?_ (by rw [Cfg.term, hblock]) (h.marked.free_begin hc _)
  rw [Cfg.stmts, hblock]
  rfl

/-- A later dispatch comes to where the coroutine was suspended. -/
theorem Staged.stands_resume {k e : ℕ} {p : Point} (hk : (findSuspensionPoints hooks cfg c)[k]? = some p)
    (he : entries[k]? = some e) : Stands hooks cfg cfg' (Scratch cfg l0 ms) c m p.resume e 0 := by
  have hc := hd.mem.2
  have hp := List.mem_of_getElem? hk
  obtain ⟨hin, hlast, -⟩ := h.points hc p hp
  have htail : cfg'.block e = ⟨(cfg.stmts p.bb).drop (p.stmt + 1), cfg.term p.bb⟩ →
      Stands hooks cfg cfg' (Scratch cfg l0 ms) c m (p.bb, p.stmt + 1) e 0 := fun hblock =>
    .copy hin hlast (by rw [Cfg.stmts, hblock, List.drop_zero]) (by rw [Cfg.term, hblock]) (h.marked.free_behind hc hp)
  have hsite := hl.sites k p e hk he
  cases hsite with
  | yield kind _ _ _ _ tail =>
    simp only [Point.resume, kind]
    exact htail tail
  | send kind _ _ _ _ tail =>
    simp only [Point.resume, kind]
    exact htail tail
  | guard kind hg hr hy hd' suspends here guards tail =>
    simp only [Point.resume, kind]
    exact .guard hk (.guard kind hg hr hy hd' suspends here guards tail) kind

include hF

/-- Control comes to a block of the body. -/
theorem Staged.stands_first (hends : (cfg.stmts c.last.1).length = c.last.2 + 1) {b : ℕ} (hb : Inside cfg c b)
    (hne : b ≠ c.begin.1) : Stands hooks cfg cfg' (Scratch cfg l0 ms) c m (b, 0) b 0 := by
  have hc := hd.mem.2
  by_cases hlast : b = c.last.1
  · subst hlast
    refine .last hl.done_block (Nat.zero_le _) ?_
    rw [hl.last, List.drop_eq_nil_of_le hends.le]
  · by_cases hpt : ∃ p ∈ findSuspensionPoints hooks cfg c, p.bb = b
    · obtain ⟨p, hp, rfl⟩ := hpt
      obtain ⟨k, hk⟩ := List.mem_iff_getElem?.mp hp
      have hlt : k < entries.length := hl.count ▸ (List.getElem?_eq_some_iff.mp hk).1
      have hsite := hl.sites k p _ hk (List.getElem?_eq_getElem hlt)
      by_cases he : entries[k] = p.bb
      · -- only a guard at the head of its block is entered there
        have hnew : ¬F p.bb := fun hFp => by
          have hle := (hF _ hFp).1
          have hlt := h.marked.inside_lt hc hb
          omega
        have hguard : p.kind = .guardedRecv ∧ p.stmt = 0 := by
          rw [he] at hsite
          cases hsite with
          | yield _ _ he' => exact absurd he' hnew
          | send _ _ he' => exact absurd he' hnew
          | guard kind hg =>
            rcases hg with ⟨h0, -⟩ | ⟨-, hFg, -⟩
            · exact ⟨kind, h0⟩
            · exact absurd hFg hnew
        have hstands := Stands.guard hk hsite hguard.1
        rwa [hguard.2, he] at hstands
      · exact .head hk hsite he (Nat.zero_le _)
    · have hpts : ∀ p ∈ findSuspensionPoints hooks cfg c, p.bb ≠ b := fun p hp heq => hpt ⟨p, hp, heq⟩
      have hblock := hl.body b hb hne hlast hpts
      exact .copy hb hlast (by rw [Cfg.stmts, Cfg.stmts, hblock]) (congrArg Block.term hblock) (h.marked.free_body hc hb hlast hpts 0)

end

/-- What the blocks of the executor hold is no matter of the machines. -/
theorem Staged.rewire {cfg'' : Body U} (h : Staged hooks cfg cfg' r start ms top l0 E)
    (hsame : ∀ b, ¬E b → cfg''.block b = cfg'.block b) : Staged hooks cfg cfg'' r start ms top l0 E := by
  have hold : ∀ b < cfg.next, cfg''.block b = cfg'.block b := fun b hb => hsame b fun hE => absurd (h.new b hE) (not_le_of_gt hb)
  refine { h with
    head := (hold _ h.marked.region_lt.1).trans h.head
    plain := fun b hb hne => (hold b (h.marked.plain_lt hb)).trans (h.plain b hb hne)
    lowered := fun m c hd => ?_ }
  obtain ⟨F, entry, entries, done, hF, hl⟩ := h.lowered m c hd
  have hc := hd.mem.2
  have hnew : ∀ d, F d → cfg''.block d = cfg'.block d := fun d hd => hsame d (hF d hd).2.1
  have hbegin := (h.marked.mem_markers_lt hc).1
  refine ⟨F, entry, entries, done, hF, hl.count, ?_, ?_, hl.entry_mem, hl.done_mem, (hnew done hl.done_mem).trans hl.done_block,
    (hold _ (h.marked.mem_markers_lt hc).2).trans hl.last, fun j p e hp he => ?_, fun b hb h1 h2 h3 => ?_⟩
  · rw [Dispatches, hsame _ (h.dispatch m hd.mem.1).2]
    exact hl.dispatches
  · rcases hl.entry_mem with ⟨-, heq⟩ | ⟨-, hFe⟩
    · exact (hold _ (heq ▸ hbegin)).trans hl.entry_block
    · exact (hnew entry hFe).trans hl.entry_block
  · have hlt := h.marked.inside_lt hc (h.points hc p (List.mem_of_getElem? hp)).1
    exact (hl.sites j p e hp he).mono (fun d hd => ⟨hd, hnew d hd⟩) (fun _ hd => hd) (hold _ hlt)
  · exact (hold b (h.marked.inside_lt hc hb)).trans (hl.body b hb h1 h2 h3)

/-! ## Part of a block -/

section
variable {host : Host U} {x j : ℕ} {τ : Store host} {s : Stmt U} {t : Term}

/-- The store once the first `j` statements of the block `x` were run. -/
def partway (cfg : Body U) (x j : ℕ) (τ : Store host) : Store host := execAll (τ.note (.enter x)) ((cfg.stmts x).take j)

theorem partway_succ (h : (cfg.stmts x)[j]? = some s) : partway cfg x (j + 1) τ = s.exec (partway cfg x j τ) := by
  rw [partway, List.take_add_one, h, execAll_append]
  rfl

/-- The rest of a block in one go. -/
theorem partway_append {l : List (Stmt U)} (h : (cfg.stmts x).drop j = l) :
    runBlock cfg x τ = ⟨leads (execAll (partway cfg x j τ) l).locals (cfg.term x), execAll (partway cfg x j τ) l⟩ := by
  rw [runBlock, partway, ← execAll_append, ← h, List.take_append_drop]

theorem partway_end (h : (cfg.stmts x)[j]? = none) :
    runBlock cfg x τ = ⟨leads (partway cfg x j τ).locals (cfg.term x), partway cfg x j τ⟩ :=
  partway_append (List.drop_eq_nil_of_le (List.getElem?_eq_none_iff.mp h))

end

end Krio.Stackless
