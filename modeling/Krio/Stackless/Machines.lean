import Mathlib.Tactic.Common
import Krio.Stackless.Transform

/-! What `build_state_machine` leaves in the body: the blocks of a machine, as they stand once the loop over
the coroutines is through. -/

namespace Krio.Stackless

variable {U : Type}

/-- `cfg'` comes from `cfg` by allocating blocks and locals and rewriting blocks of `T`. -/
structure Extends (T : ℕ → Prop) (cfg cfg' : Body U) : Prop where
  next_le : cfg.next ≤ cfg'.next
  locals_le : cfg.locals.length ≤ cfg'.locals.length
  ids : cfg'.ids = cfg.ids ++ List.range' cfg.next (cfg'.next - cfg.next)
  same : ∀ c < cfg.next, ¬T c → cfg'.block c = cfg.block c

namespace Extends
variable {T T' : ℕ → Prop} {cfg cfg' cfg'' : Body U}

theorem refl : Extends T cfg cfg := ⟨le_rfl, le_rfl, by simp, fun _ _ _ => rfl⟩

theorem trans (h : Extends T cfg cfg') (h' : Extends T cfg' cfg'') : Extends T cfg cfg'' where
  next_le := h.next_le.trans h'.next_le
  locals_le := h.locals_le.trans h'.locals_le
  ids := by
    have hle := h.next_le
    have hle' := h'.next_le
    rw [h'.ids, h.ids, List.append_assoc]
    congr 1
    have hsplit : cfg''.next - cfg.next = (cfg'.next - cfg.next) + (cfg''.next - cfg'.next) := by omega
    have hstart : cfg'.next = cfg.next + (cfg'.next - cfg.next) := by omega
    rw [hsplit, ← List.range'_append_1, ← hstart]
  same c hc hT := (h'.same c (hc.trans_le h.next_le) hT).trans (h.same c hc hT)

theorem mono (hT : ∀ c < cfg.next, T c → T' c) (h : Extends T cfg cfg') : Extends T' cfg cfg' :=
  ⟨h.next_le, h.locals_le, h.ids, fun c hc hn => h.same c hc fun ht => hn (hT c hc ht)⟩

/-- Rewriting blocks that `cfg` does not have yet does not count. -/
theorem trans_new (h : Extends T cfg cfg') (h' : Extends T' cfg' cfg'') (hT : ∀ c < cfg.next, T' c → T c) :
    Extends T cfg cfg'' where
  next_le := h.next_le.trans h'.next_le
  locals_le := h.locals_le.trans h'.locals_le
  ids := by
    have hany : Extends (fun _ => True) cfg cfg' := h.mono fun _ _ _ => trivial
    exact (hany.trans (h'.mono fun _ _ _ => trivial)).ids
  same c hc hn := (h'.same c (hc.trans_le h.next_le) fun ht => hn (hT c hc ht)).trans (h.same c hc hn)

theorem set {b : ℕ} {x : Block (Stmt U)} (hb : T b) : Extends T cfg (cfg.set b x) := by
  refine ⟨le_rfl, le_rfl, by simp, fun c _ hT => ?_⟩
  have hne : c ≠ b := by
    intro heq
    exact hT (heq ▸ hb)
  simp [hne]

theorem set_self {b : ℕ} {x : Block (Stmt U)} : Extends (· = b) cfg (cfg.set b x) := set rfl

theorem push {x : Block (Stmt U)} : Extends T cfg (cfg.push x) := by
  refine ⟨Nat.le_succ _, le_rfl, by simp, fun c hc _ => ?_⟩
  have hne : c ≠ cfg.next := hc.ne
  simp [hne]

theorem newLocal {ty : LocalTy} : Extends T cfg (cfg.newLocal ty).2 :=
  ⟨le_rfl, by simp [Cfg.newLocal], by simp [Cfg.newLocal], fun _ _ _ => rfl⟩

end Extends

/-! ## One suspension -/

/-- The block `y` suspends the machine in state `id` with the poll result `res`. -/
def Suspends (cfg : Body U) (m : Machine) (y : ℕ) (id res : ℤ) : Prop :=
  cfg.block y = ⟨[.assignI64 m.stateLocal id, .assignI64 m.pollResultLocal res], .goto m.exitBb⟩

/-- What became of the point `p` of the block `orig`: the state `id` is entered at the last argument. The
    blocks in `F` and the locals in `G` are new. -/
inductive Site (orig : Block (Stmt U)) (cfg : Body U) (F G : ℕ → Prop) (m : Machine) (id : ℤ) (p : Point) : ℕ → Prop
  | yield {y e : ℕ} (kind : p.kind = .yield) (hy : F y) (he : F e) (suspends : Suspends cfg m y id pollPending)
      (head : cfg.block p.bb = ⟨orig.stmts.take p.stmt ++ [.nop], .goto y⟩)
      (tail : cfg.block e = ⟨orig.stmts.drop (p.stmt + 1), orig.term⟩) : Site orig cfg F G m id p e
  | send {y e : ℕ} (kind : p.kind = .producingSend) (hy : F y) (he : F e) (suspends : Suspends cfg m y id pollPending)
      (head : cfg.block p.bb = ⟨orig.stmts.take (p.stmt + 1), .goto y⟩)
      (tail : cfg.block e = ⟨orig.stmts.drop (p.stmt + 1), orig.term⟩) : Site orig cfg F G m id p e
  | guard {g r y d : ℕ} {u : U} (kind : p.kind = .guardedRecv) (hg : p.stmt = 0 ∧ g = p.bb ∨
        p.stmt ≠ 0 ∧ F g ∧ cfg.block p.bb = ⟨orig.stmts.take p.stmt, .goto g⟩)
      (hr : F r) (hy : F y) (hd : G d) (suspends : Suspends cfg m y id pollBlocked)
      (here : orig.stmts[p.stmt]? = some (.host u))
      (guards : cfg.block g = ⟨[.peek u d], .branch d r y⟩)
      (tail : cfg.block r = ⟨.assignI64 m.progressLocal 1 :: .recv u :: orig.stmts.drop (p.stmt + 1), orig.term⟩) :
      Site orig cfg F G m id p g

theorem Site.mono {orig : Block (Stmt U)} {cfg cfg' : Body U} {F F' G G' : ℕ → Prop} {m : Machine} {id : ℤ} {p : Point}
    {e : ℕ} (h : Site orig cfg F G m id p e) (hF : ∀ c, F c → F' c ∧ cfg'.block c = cfg.block c) (hG : ∀ d, G d → G' d)
    (hp : cfg'.block p.bb = cfg.block p.bb) : Site orig cfg' F' G' m id p e := by
  cases h with
  | @yield y e kind hy he suspends head tail =>
    exact .yield kind (hF y hy).1 (hF _ he).1 ((hF y hy).2.trans suspends) (hp.trans head) ((hF _ he).2.trans tail)
  | @send y e kind hy he suspends head tail =>
    exact .send kind (hF y hy).1 (hF _ he).1 ((hF y hy).2.trans suspends) (hp.trans head) ((hF _ he).2.trans tail)
  | @guard g r y d u kind hg hr hy hd suspends here guards tail =>
    refine .guard kind ?_ (hF r hr).1 (hF y hy).1 (hG d hd) ((hF y hy).2.trans suspends) here ?_
      ((hF r hr).2.trans tail)
    · rcases hg with ⟨h0, rfl⟩ | ⟨h0, hFg, hb⟩
      · exact .inl ⟨h0, rfl⟩
      · exact .inr ⟨h0, (hF _ hFg).1, hp.trans hb⟩
    · rcases hg with ⟨_, rfl⟩ | ⟨_, hFg, _⟩
      · exact hp.trans guards
      · exact (hF _ hFg).2.trans guards

theorem emitSuspend_block (cfg : Body U) (s l e : ℕ) (id res : ℤ) (c : ℕ) :
    (emitSuspend cfg s l e id res).2.block c =
      if c = cfg.next then ⟨[.assignI64 s id, .assignI64 l res], .goto e⟩ else cfg.block c := by
  by_cases hc : c = cfg.next <;>
    simp [emitSuspend, hc, Cfg.newBlock, Cfg.emit, Cfg.setGoto, Cfg.setTerm, Cfg.stmts, Block.fresh]

@[simp] theorem emitSuspend_fst (cfg : Body U) (s l e : ℕ) (id res : ℤ) :
    (emitSuspend cfg s l e id res).1 = cfg.next := rfl

@[simp] theorem emitSuspend_next (cfg : Body U) (s l e : ℕ) (id res : ℤ) :
    (emitSuspend cfg s l e id res).2.next = cfg.next + 1 := rfl

@[simp] theorem emitSuspend_locals (cfg : Body U) (s l e : ℕ) (id res : ℤ) :
    (emitSuspend cfg s l e id res).2.locals = cfg.locals := rfl


/-- The host statement at a guard: what the hook turns into a peek. -/
theorem emitGuardedRecvPeek_eq {cfg : Body U} {bb idx resumeBb : ℕ} {u : U} (h : (cfg.stmts bb)[idx]? = some (.host u)) :
    Hooks.emitGuardedRecvPeek cfg bb idx resumeBb = (cfg.locals.length,
      ((cfg.newLocal .bool).2.replace bb idx (.peek u cfg.locals.length)).prepend resumeBb (.recv u)) := by
  have h' : ((cfg.newLocal .bool).2.stmts bb)[idx]? = some (.host u) := h
  simp only [Hooks.emitGuardedRecvPeek, Cfg.newBoolLocal, h']
  rfl

/-- The guard at the head of a block: it becomes the peek, and the receive heads the block that resumes. -/
theorem emitGuard_spec (cfg : Body U) (m : Machine) (id : ℤ) (g : ℕ) (u : U) (rest : List (Stmt U)) (t : Term)
    (hg : g < cfg.next) (here : cfg.block g = ⟨.host u :: rest, t⟩) :
    let cfg' := emitGuard cfg m.stateLocal m.pollResultLocal m.progressLocal m.exitBb id g
    cfg'.next = cfg.next + 2 ∧ cfg'.locals.length = cfg.locals.length + 1 ∧
      Suspends cfg' m (cfg.next + 1) id pollBlocked ∧
      cfg'.block g = ⟨[.peek u cfg.locals.length], .branch cfg.locals.length cfg.next (cfg.next + 1)⟩ ∧
      cfg'.block cfg.next = ⟨.assignI64 m.progressLocal 1 :: .recv u :: rest, t⟩ ∧
      Extends (· = g) cfg cfg' := by
  intro cfg'
  let r := cfg.splitAfter g 0
  let k := Hooks.emitGuardedRecvPeek r.2 g 0 r.1
  let c := k.2.prepend r.1 (.assignI64 m.progressLocal 1)
  let y := emitSuspend c m.stateLocal m.pollResultLocal m.exitBb id pollBlocked
  have hcfg' : cfg' = y.2.setBranch g k.1 r.1 y.1 := rfl
  have hstmts : cfg.stmts g = .host u :: rest := by rw [Cfg.stmts, here]
  have hterm : cfg.term g = t := by rw [Cfg.term, here]
  have hsplit : r.2.block g = ⟨[.host u], .unreachable⟩ := by
    rw [Cfg.splitAfter_block, if_pos rfl, hstmts]
    rfl
  have hlook : (r.2.stmts g)[0]? = some (.host u) := by rw [Cfg.stmts, hsplit]; rfl
  have hk : k = _ := emitGuardedRecvPeek_eq hlook
  have hne : cfg.next ≠ g := hg.ne'
  have hne' : cfg.next + 1 ≠ g := by omega
  have hr : r.1 = cfg.next := rfl
  have hrn : r.2.next = cfg.next + 1 := rfl
  have hcn : c.next = cfg.next + 1 := by simp [c, hk, Cfg.prepend, Cfg.replace, Cfg.newLocal, hrn]
  have hy : y.1 = cfg.next + 1 := by simp [y, hcn]
  have hk1 : k.1 = cfg.locals.length := by simp [hk, r, Cfg.splitAfter]
  have hc : ∀ b, c.block b = if b = g then ⟨[.peek u k.1], .unreachable⟩
      else if b = cfg.next then ⟨.assignI64 m.progressLocal 1 :: .recv u :: rest, t⟩ else cfg.block b := by
    intro b
    have hrb : ∀ b, (r.2.newLocal .bool).2.block b = r.2.block b := fun _ => rfl
    by_cases hb : b = g
    · simp [c, hk, hb, hr, hne.symm, Cfg.prepend, Cfg.replace, Cfg.stmts, hrb, hsplit]
    · by_cases hb' : b = cfg.next
      · simp [c, hk, hb', hne, Cfg.prepend, Cfg.replace, Cfg.stmts, hrb, r, Cfg.splitAfter_block, hterm]
        simp [here]
      · simp [c, hk, hb, hb', Cfg.prepend, Cfg.replace, hrb, r, Cfg.splitAfter_block]
  have hblock : ∀ b, cfg'.block b = if b = g then ⟨[.peek u k.1], .branch k.1 r.1 y.1⟩
      else if b = cfg.next + 1 then
        ⟨[.assignI64 m.stateLocal id, .assignI64 m.pollResultLocal pollBlocked], .goto m.exitBb⟩
      else if b = cfg.next then ⟨.assignI64 m.progressLocal 1 :: .recv u :: rest, t⟩ else cfg.block b := by
    intro b
    by_cases hb : b = g
    · simp [hcfg', hb, Cfg.setBranch, Cfg.setTerm, y, emitSuspend_block, hc, hcn, hne'.symm]
    · by_cases hb' : b = cfg.next + 1 <;>
        simp [hcfg', hb, hb', Cfg.setBranch, Cfg.setTerm, y, emitSuspend_block, hc, hcn, hne']
  have hnext : cfg'.next = cfg.next + 2 := by simp [hcfg', Cfg.setBranch, Cfg.setTerm, y, hcn]
  have hlocals : cfg'.locals.length = cfg.locals.length + 1 := by
    simp [hcfg', Cfg.setBranch, Cfg.setTerm, y, c, hk, Cfg.prepend, Cfg.replace, Cfg.newLocal, r, Cfg.splitAfter]
  refine ⟨hnext, hlocals, ?_, ?_, ?_, ⟨by omega, by omega, ?_, ?_⟩⟩
  · rw [Suspends, hblock, if_neg hne', if_pos rfl]
  · rw [hblock, if_pos rfl, hk1, hy, hr]
  · rw [hblock, if_neg hne, if_neg (by omega), if_pos rfl]
  · rw [hnext, show cfg.next + 2 - cfg.next = 2 by omega]
    simp [hcfg', Cfg.setBranch, Cfg.setTerm, y, emitSuspend, Cfg.setGoto, Cfg.emit, Cfg.newBlock, hcn]
    simp [c, hk, Cfg.prepend, Cfg.replace, Cfg.newLocal, r, Cfg.splitAfter, List.range']
  · intro b hb hT
    rw [hblock, if_neg hT, if_neg (by omega), if_neg (by omega)]

theorem emitSuspend_extends {T : ℕ → Prop} (cfg : Body U) (s l e : ℕ) (id res : ℤ) :
    Extends T cfg (emitSuspend cfg s l e id res).2 := by
  have hsets : Extends (· = cfg.next) (cfg.push .fresh) (emitSuspend cfg s l e id res).2 :=
    Extends.set_self.trans (Extends.set_self.trans Extends.set_self)
  refine Extends.push.trans_new hsets ?_
  intro c hc heq
  omega

theorem splitAfter_extends (cfg : Body U) (b i : ℕ) : Extends (· = b) cfg (cfg.splitAfter b i).2 :=
  Extends.push.trans (Extends.set_self)

theorem take_set_nop {l : List (Stmt U)} {i : ℕ} (h : i < l.length) :
    (l.take (i + 1)).set i .nop = l.take i ++ [.nop] := by
  rw [List.take_succ_eq_append_getElem h, List.set_append_right _ _ (by simp)]
  simp [Nat.min_eq_left h.le]

section
variable {cfg : Body U} {m : Machine} {id : ℤ} {p : Point} {u : U}

theorem emitGuardedRecv_spec (m : Machine) (id : ℤ) (hp : p.bb < cfg.next) (kind : p.kind = .guardedRecv)
    (here : (cfg.stmts p.bb)[p.stmt]? = some (.host u)) :
    let out := emitGuardedRecv cfg m.stateLocal m.pollResultLocal m.progressLocal m.exitBb id p.bb p.stmt
    Site (cfg.block p.bb) out.2 (fun c => cfg.next ≤ c ∧ c < out.2.next)
      (fun d => cfg.locals.length ≤ d ∧ d < out.2.locals.length) m id p out.1 ∧ Extends (· = p.bb) cfg out.2 := by
  intro out
  obtain ⟨hlt, hget⟩ := List.getElem?_eq_some_iff.mp here
  have hdrop : (cfg.stmts p.bb).drop p.stmt = .host u :: (cfg.stmts p.bb).drop (p.stmt + 1) := by
    rw [List.drop_eq_getElem_cons hlt, hget]
  by_cases h0 : p.stmt = 0
  · rw [h0, List.drop_zero] at hdrop
    have hblock : cfg.block p.bb = ⟨.host u :: (cfg.stmts p.bb).drop 1, cfg.term p.bb⟩ := by
      rw [← hdrop]
      rfl
    obtain ⟨hnext, hlocals, hsus, hg, htail, hext⟩ := emitGuard_spec cfg m id p.bb u _ _ hp hblock
    have hout : out = (p.bb, emitGuard cfg m.stateLocal m.pollResultLocal m.progressLocal m.exitBb id p.bb) := by
      simp only [out, emitGuardedRecv, h0, ite_true]
    rw [hout]
    refine ⟨.guard kind (.inl ⟨h0, rfl⟩) ⟨le_rfl, ?_⟩ ⟨Nat.le_succ _, ?_⟩ ⟨le_rfl, ?_⟩ hsus here hg ?_, hext⟩ <;> dsimp only
    · omega
    · omega
    · omega
    · rw [h0]
      exact htail
  · -- the guard moves to a block of its own
    let s := (cfg.splitAfter p.bb (p.stmt - 1)).2.setGoto p.bb cfg.next
    have hs : ∀ c, s.block c = if c = p.bb then ⟨(cfg.stmts p.bb).take p.stmt, .goto cfg.next⟩
        else if c = cfg.next then ⟨(cfg.stmts p.bb).drop p.stmt, cfg.term p.bb⟩ else cfg.block c := by
      intro c
      have h1 : p.stmt - 1 + 1 = p.stmt := by omega
      by_cases hc : c = p.bb <;>
        simp [s, Cfg.setGoto, Cfg.setTerm, Cfg.stmts, Cfg.splitAfter_block, hc, h1]
    have hgs : s.block cfg.next = ⟨.host u :: (cfg.stmts p.bb).drop (p.stmt + 1), cfg.term p.bb⟩ := by
      rw [hs, if_neg hp.ne', if_pos rfl, hdrop]
    have hsnext : s.next = cfg.next + 1 := rfl
    have hslocals : s.locals = cfg.locals := rfl
    have hse : Extends (· = p.bb) cfg s := (splitAfter_extends cfg p.bb _).trans (Extends.set_self)
    obtain ⟨hnext, hlocals, hsus, hg, htail, hext⟩ := emitGuard_spec s m id cfg.next u _ _ (by omega) hgs
    rw [hslocals] at hlocals hg
    have hout : out = (cfg.next, emitGuard s m.stateLocal m.pollResultLocal m.progressLocal m.exitBb id cfg.next) := by
      simp only [out, emitGuardedRecv, h0, ite_false]
      rfl
    rw [hout]
    refine ⟨.guard kind (.inr ⟨h0, ⟨le_rfl, ?_⟩, ?_⟩) ⟨?_, ?_⟩ ⟨?_, ?_⟩ ⟨le_rfl, ?_⟩ hsus here hg htail, ?_⟩
    · dsimp only
      omega
    · rw [hext.same _ (by omega) hp.ne, hs, if_pos rfl]
      rfl
    · omega
    · dsimp only
      omega
    · omega
    · dsimp only
      omega
    · dsimp only
      omega
    · refine hse.trans_new hext ?_
      intro c hc heq
      omega

/-- One round of the suspension loop turns the point into a site. -/
theorem emitSuspension_spec (m : Machine) (id : ℤ) (hp : p.bb < cfg.next) (here : (cfg.stmts p.bb)[p.stmt]? = some (.host u)) :
    let out := emitSuspension cfg m.stateLocal m.pollResultLocal m.progressLocal m.exitBb id p
    Site (cfg.block p.bb) out.2 (fun c => cfg.next ≤ c ∧ c < out.2.next)
      (fun d => cfg.locals.length ≤ d ∧ d < out.2.locals.length) m id p out.1 ∧ Extends (· = p.bb) cfg out.2 := by
  intro out
  obtain ⟨hlt, -⟩ := List.getElem?_eq_some_iff.mp here
  let y := emitSuspend cfg m.stateLocal m.pollResultLocal m.exitBb id pollPending
  have hy : ∀ c < cfg.next, y.2.block c = cfg.block c := by
    intro c hc
    rw [emitSuspend_block, if_neg hc.ne]
  have hyb : y.2.stmts p.bb = cfg.stmts p.bb := congrArg Block.stmts (hy _ hp)
  have hyt : y.2.term p.bb = cfg.term p.bb := congrArg Block.term (hy _ hp)
  have hye : Extends (· = p.bb) cfg y.2 := emitSuspend_extends _ _ _ _ _ _
  have hyn : y.2.next = cfg.next + 1 := rfl
  have hyl : y.2.locals = cfg.locals := rfl
  have hnp : cfg.next ≠ p.bb := hp.ne'
  have hnp' : cfg.next + 1 ≠ p.bb := by omega
  have hys : Suspends y.2 m cfg.next id pollPending := by
    rw [Suspends, emitSuspend_block, if_pos rfl]
  cases kind : p.kind with
  | guardedRecv =>
    have hout : out = emitGuardedRecv y.2 m.stateLocal m.pollResultLocal m.progressLocal m.exitBb id p.bb p.stmt := by
      simp only [out, emitSuspension, kind]
      rfl
    obtain ⟨hsite, hext⟩ := emitGuardedRecv_spec m id (hp.trans (Nat.lt_succ_self _)) kind (hyb ▸ here)
    rw [hout]
    refine ⟨?_, hye.trans hext⟩
    rw [hy _ hp] at hsite
    refine hsite.mono (fun c hc => ⟨⟨?_, hc.2⟩, rfl⟩) (fun d hd => hd) rfl
    have hlo := hc.1
    omega
  | producingSend =>
    let s := (y.2.splitAfter p.bb p.stmt).2.setGoto p.bb cfg.next
    have hout : out = (cfg.next + 1, s) := by
      simp only [out, emitSuspension, kind]
      rfl
    have hs : ∀ c, s.block c = if c = p.bb then ⟨(cfg.stmts p.bb).take (p.stmt + 1), .goto cfg.next⟩
        else if c = cfg.next + 1 then ⟨(cfg.stmts p.bb).drop (p.stmt + 1), cfg.term p.bb⟩ else y.2.block c := by
      intro c
      by_cases hc : c = p.bb <;>
        simp [s, Cfg.setGoto, Cfg.setTerm, Cfg.stmts, Cfg.splitAfter_block, hc, hyn, hyt, hy _ hp]
    rw [hout]
    refine ⟨.send kind ⟨le_rfl, ?_⟩ ⟨Nat.le_succ _, ?_⟩ ?_ ?_ ?_, hye.trans ((splitAfter_extends _ _ _).trans (Extends.set_self))⟩
    · exact Nat.lt_succ_of_lt (Nat.lt_succ_self _)
    · exact Nat.lt_succ_self _
    · rw [Suspends, hs, if_neg hnp, if_neg (by omega)]
      exact hys
    · rw [hs, if_pos rfl]
      rfl
    · rw [hs, if_neg hnp', if_pos rfl]
      rfl
  | yield =>
    let s := (((y.2.splitAfter p.bb p.stmt).2).replace p.bb p.stmt .nop).setGoto p.bb cfg.next
    have hout : out = (cfg.next + 1, s) := by
      simp only [out, emitSuspension, kind]
      rfl
    have hs : ∀ c, s.block c = if c = p.bb then ⟨(cfg.stmts p.bb).take p.stmt ++ [.nop], .goto cfg.next⟩
        else if c = cfg.next + 1 then ⟨(cfg.stmts p.bb).drop (p.stmt + 1), cfg.term p.bb⟩ else y.2.block c := by
      intro c
      by_cases hc : c = p.bb
      · simp [s, Cfg.setGoto, Cfg.setTerm, Cfg.replace, Cfg.stmts, Cfg.splitAfter_block, hc, hy _ hp]
        exact take_set_nop hlt
      · simp [s, Cfg.setGoto, Cfg.setTerm, Cfg.replace, Cfg.stmts, Cfg.splitAfter_block, hc, hyn, hyt, hy _ hp]
    rw [hout]
    refine ⟨.yield kind ⟨le_rfl, ?_⟩ ⟨Nat.le_succ _, ?_⟩ ?_ ?_ ?_,
      hye.trans ((splitAfter_extends _ _ _).trans ((Extends.set_self).trans (Extends.set_self)))⟩
    · exact Nat.lt_succ_of_lt (Nat.lt_succ_self _)
    · exact Nat.lt_succ_self _
    · rw [Suspends, hs, if_neg hnp, if_neg (by omega)]
      exact hys
    · rw [hs, if_pos rfl]
      rfl
    · rw [hs, if_neg hnp', if_pos rfl]
      rfl

end


/-- The suspension loop turns every point into a site; the points lie in blocks of their own. -/
theorem emitSuspensions_spec (m : Machine) (pts : List Point) (cfg : Body U) (i : ℕ) (hnodup : (pts.map (·.bb)).Nodup)
    (hpts : ∀ p ∈ pts, p.bb < cfg.next ∧ ∃ u, (cfg.stmts p.bb)[p.stmt]? = some (.host u)) :
    let out := emitSuspensions m.stateLocal m.pollResultLocal m.progressLocal m.exitBb i pts cfg
    out.1.length = pts.length ∧
      (∀ (j : ℕ) (p : Point) (e : ℕ), pts[j]? = some p → out.1[j]? = some e →
        Site (cfg.block p.bb) out.2 (fun c => cfg.next ≤ c ∧ c < out.2.next)
          (fun d => cfg.locals.length ≤ d ∧ d < out.2.locals.length) m (i + j + 1 : ℕ) p e) ∧
      Extends (fun c => ∃ p ∈ pts, p.bb = c) cfg out.2 := by
  induction pts generalizing cfg i with
  | nil => exact ⟨rfl, fun _ _ _ h => by simp at h, Extends.refl⟩
  | cons p ps ih =>
    intro out
    obtain ⟨hp, u, here⟩ := hpts p List.mem_cons_self
    obtain ⟨hsite, hext⟩ := emitSuspension_spec m (i + 1 : ℕ) hp here
    generalize hone : emitSuspension cfg m.stateLocal m.pollResultLocal m.progressLocal m.exitBb ((i + 1 : ℕ) : ℤ) p = one
      at hsite hext
    have hout : out = (one.1 :: (emitSuspensions m.stateLocal m.pollResultLocal m.progressLocal m.exitBb (i + 1) ps one.2).1,
        (emitSuspensions m.stateLocal m.pollResultLocal m.progressLocal m.exitBb (i + 1) ps one.2).2) := by
      have hone' := hone
      rw [Int.natCast_succ] at hone'
      simp only [out, emitSuspensions, hone']
    rw [List.map_cons, List.nodup_cons] at hnodup
    have hother : ∀ q ∈ ps, q.bb ≠ p.bb := by
      intro q hq heq
      exact hnodup.1 (List.mem_map.mpr ⟨q, hq, heq⟩)
    have hkept : ∀ q ∈ ps, one.2.block q.bb = cfg.block q.bb := fun q hq =>
      hext.same _ (hpts q (List.mem_cons_of_mem _ hq)).1 (hother q hq)
    have hps : ∀ q ∈ ps, q.bb < one.2.next ∧ ∃ u, (one.2.stmts q.bb)[q.stmt]? = some (.host u) := by
      intro q hq
      obtain ⟨hlt, v, hv⟩ := hpts q (List.mem_cons_of_mem _ hq)
      refine ⟨hlt.trans_le hext.next_le, v, ?_⟩
      rw [Cfg.stmts, hkept q hq]
      exact hv
    obtain ⟨hlen, hsites, hrest⟩ := ih one.2 (i + 1) hnodup.2 hps
    rw [hout]
    generalize emitSuspensions m.stateLocal m.pollResultLocal m.progressLocal m.exitBb (i + 1) ps one.2 = rest
      at hlen hsites hrest
    refine ⟨by simp [hlen], ?_, ?_⟩
    · intro j q e hq he
      cases j with
      | zero =>
        obtain rfl : p = q := Option.some.inj hq
        obtain rfl : one.1 = e := Option.some.inj he
        refine hsite.mono ?_ ?_ ?_
        · rintro c ⟨hlo, hhi⟩
          refine ⟨⟨hlo, hhi.trans_le hrest.next_le⟩, hrest.same c hhi ?_⟩
          rintro ⟨q, hq, rfl⟩
          exact absurd (hpts q (List.mem_cons_of_mem _ hq)).1 (by omega)
        · rintro d ⟨hlo, hhi⟩
          exact ⟨hlo, hhi.trans_le hrest.locals_le⟩
        · refine hrest.same _ (hp.trans_le hext.next_le) ?_
          rintro ⟨q, hq, heq⟩
          exact hother q hq heq
      | succ j =>
        have hmem : q ∈ ps := List.mem_of_getElem? hq
        have h := hsites j q e hq he
        rw [hkept q hmem, show i + 1 + j + 1 = i + (j + 1) + 1 by omega] at h
        refine h.mono (fun c hc => ⟨⟨hext.next_le.trans hc.1, hc.2⟩, rfl⟩) (fun d hd => ⟨hext.locals_le.trans hd.1, hd.2⟩) rfl
    · refine (hext.mono fun c _ hc => ⟨p, List.mem_cons_self, hc.symm⟩).trans_new hrest ?_
      rintro c _ ⟨q, hq, rfl⟩
      exact ⟨q, List.mem_cons_of_mem _ hq, rfl⟩

/-! ## One machine -/

/-- What a machine's dispatch does: it checks for completion, or switches on the state. -/
def Dispatches (cfg : Body U) (G : ℕ → Prop) (m : Machine) (pts : List Point) (entry : ℕ) (entries : List ℕ) : Prop :=
  (pts = [] ∧ ∃ d, G d ∧ cfg.block m.dispatchBb = ⟨[.eqCheckI64 d m.stateLocal doneState], .branch d m.exitBb entry⟩) ∨
    (pts ≠ [] ∧ cfg.block m.dispatchBb = ⟨[], .switch m.stateLocal (stateTargets (entry :: entries)) m.exitBb⟩)

/-- The machine `m` of a coroutine in `cfg`; `orig` is the body it was built in. The blocks in `F` and the
    locals in `G` are new and no other machine uses them. -/
structure Built (orig cfg : Body U) (F G : ℕ → Prop) (co : Coroutine) (pts : List Point) (m : Machine)
    (entries : List ℕ) (done : ℕ) : Prop where
  dispatch : F m.dispatchBb ∧ F m.exitBb ∧ m.dispatchBb ≠ m.exitBb
  state : G m.stateLocal
  poll : G m.pollResultLocal
  state_ne : m.stateLocal ≠ m.pollResultLocal
  count : entries.length = pts.length
  dispatches : Dispatches cfg (fun d => G d ∧ d ≠ m.stateLocal ∧ d ≠ m.pollResultLocal) m pts co.begin.1 entries
  exit : cfg.block m.exitBb = .fresh
  done_new : F done ∧ done ≠ m.dispatchBb ∧ done ≠ m.exitBb
  done_block : cfg.block done = ⟨[.assignI64 m.pollResultLocal pollReady, .assignI64 m.stateLocal doneState], .goto m.exitBb⟩
  last : cfg.block co.last.1 = ⟨orig.stmts co.last.1, .goto done⟩
  sites : ∀ (j : ℕ) (p : Point) (e : ℕ), pts[j]? = some p → entries[j]? = some e →
    Site (orig.block p.bb) cfg (fun c => F c ∧ c ≠ m.dispatchBb ∧ c ≠ m.exitBb)
      (fun d => G d ∧ d ≠ m.stateLocal ∧ d ≠ m.pollResultLocal) m (j + 1 : ℕ) p e


theorem emitDone_block (cfg : Body U) (s l e c : ℕ) :
    (emitDone cfg s l e).2.block c =
      if c = cfg.next then ⟨[.assignI64 l pollReady, .assignI64 s doneState], .goto e⟩ else cfg.block c := by
  by_cases hc : c = cfg.next <;>
    simp [emitDone, hc, Cfg.newBlock, Cfg.emit, Cfg.setGoto, Cfg.setTerm, Cfg.stmts, Block.fresh]

theorem emitDone_extends {T : ℕ → Prop} (cfg : Body U) (s l e : ℕ) : Extends T cfg (emitDone cfg s l e).2 := by
  have hsets : Extends (· = cfg.next) (cfg.push .fresh) (emitDone cfg s l e).2 :=
    Extends.set_self.trans (Extends.set_self.trans Extends.set_self)
  refine Extends.push.trans_new hsets ?_
  intro c hc heq
  omega

@[simp] theorem emitDone_fst (cfg : Body U) (s l e : ℕ) : (emitDone cfg s l e).1 = cfg.next := rfl
@[simp] theorem emitDone_next (cfg : Body U) (s l e : ℕ) : (emitDone cfg s l e).2.next = cfg.next + 1 := rfl
@[simp] theorem emitDone_locals (cfg : Body U) (s l e : ℕ) : (emitDone cfg s l e).2.locals = cfg.locals := rfl

/-- The body with the locals and the first two blocks of a machine. -/
def reserve (cfg : Body U) : Body U :=
  (((cfg.newStateLocal.2.newStateLocal).2.newBlock).2.newBlock).2

theorem reserve_block (cfg : Body U) (c : ℕ) :
    (reserve cfg).block c = if c = cfg.next + 1 ∨ c = cfg.next then .fresh else cfg.block c := by
  simp only [reserve, Cfg.newBlock_block, Cfg.newBlock_next]
  change (if c = cfg.next + 1 then _ else if c = cfg.next then _ else cfg.block c) = _
  by_cases h : c = cfg.next + 1 <;> simp [h]

theorem reserve_locals (cfg : Body U) : (reserve cfg).locals.length = cfg.locals.length + 2 := by
  simp [reserve, Cfg.newStateLocal, Cfg.newLocal, Cfg.newBlock]

theorem reserve_extends {T : ℕ → Prop} (cfg : Body U) : Extends T cfg (reserve cfg) :=
  Extends.newLocal.trans (Extends.newLocal.trans (Extends.push.trans Extends.push))

section
variable {a : Body U} {co : Coroutine} {m : Machine} {pts : List Point}

/-- The machine of a coroutine without suspension points, in the body where its blocks are reserved. -/
theorem emitNoSuspensionMachine_spec (hd : m.dispatchBb < a.next) (hfresh : a.block m.dispatchBb = .fresh)
    (hlast : co.last.1 < a.next) (hld : co.last.1 ≠ m.dispatchBb) :
    let cfg' := emitNoSuspensionMachine a co m.stateLocal m.pollResultLocal m.dispatchBb m.exitBb
    cfg'.next = a.next + 1 ∧ cfg'.locals.length = a.locals.length + 1 ∧
      cfg'.block m.dispatchBb =
        ⟨[.eqCheckI64 a.locals.length m.stateLocal doneState], .branch a.locals.length m.exitBb co.begin.1⟩ ∧
      cfg'.block a.next = ⟨[.assignI64 m.pollResultLocal pollReady, .assignI64 m.stateLocal doneState], .goto m.exitBb⟩ ∧
      cfg'.block co.last.1 = ⟨a.stmts co.last.1, .goto a.next⟩ ∧
      Extends (fun c => c = m.dispatchBb ∨ c = co.last.1) a cfg' := by
  intro cfg'
  let b := (emitDone a m.stateLocal m.pollResultLocal m.exitBb).2
  let d := (b.newLocal .bool).2
  have hcfg' : cfg' = ((d.emit m.dispatchBb (.eqCheckI64 a.locals.length m.stateLocal doneState)).setBranch m.dispatchBb
      a.locals.length m.exitBb co.begin.1).setGoto co.last.1 a.next := rfl
  have hdb : ∀ c, d.block c = b.block c := fun _ => rfl
  have hblock : ∀ c, cfg'.block c = if c = co.last.1 then ⟨a.stmts co.last.1, .goto a.next⟩
      else if c = m.dispatchBb then
        ⟨[.eqCheckI64 a.locals.length m.stateLocal doneState], .branch a.locals.length m.exitBb co.begin.1⟩
      else if c = a.next then
        ⟨[.assignI64 m.pollResultLocal pollReady, .assignI64 m.stateLocal doneState], .goto m.exitBb⟩
      else a.block c := by
    intro c
    by_cases hc : c = co.last.1
    · simp [hcfg', hc, Cfg.setGoto, Cfg.setBranch, Cfg.setTerm, Cfg.emit, Cfg.stmts, hld, hdb, b, emitDone_block, hlast.ne]
    · by_cases hc' : c = m.dispatchBb <;>
        simp [hcfg', hc, hc', hld.symm, Cfg.setGoto, Cfg.setBranch, Cfg.setTerm, Cfg.emit, Cfg.stmts, hdb, b,
          emitDone_block, hd.ne, hfresh, Block.fresh]
  have hext : Extends (fun c => c = m.dispatchBb ∨ c = co.last.1) a cfg' := by
    have hb : Extends (fun c => c = m.dispatchBb ∨ c = co.last.1) a b := emitDone_extends a _ _ _
    have hd' : Extends (fun c => c = m.dispatchBb ∨ c = co.last.1) b d := Extends.newLocal
    refine hb.trans (hd'.trans ?_)
    exact (Extends.set (.inl rfl)).trans ((Extends.set (.inl rfl)).trans (Extends.set (.inr rfl)))
  refine ⟨rfl, by simp [hcfg', Cfg.setGoto, Cfg.setBranch, Cfg.setTerm, Cfg.emit, d, Cfg.newLocal, b], ?_, ?_, ?_, hext⟩
  · rw [hblock, if_neg hld.symm, if_pos rfl]
  · rw [hblock, if_neg hlast.ne', if_neg hd.ne', if_pos rfl]
  · rw [hblock, if_pos rfl]

/-- The machine of a coroutine with suspension points, in the body where its blocks are reserved. -/
theorem emitMultiStateMachine_spec (hd : m.dispatchBb < a.next) (hfresh : a.block m.dispatchBb = .fresh)
    (hlast : co.last.1 < a.next) (hld : co.last.1 ≠ m.dispatchBb) (hpd : ∀ p ∈ pts, p.bb ≠ m.dispatchBb)
    (hnl : ∀ p ∈ pts, p.bb ≠ co.last.1) (hnodup : (pts.map (·.bb)).Nodup)
    (hpts : ∀ p ∈ pts, p.bb < a.next ∧ ∃ u, (a.stmts p.bb)[p.stmt]? = some (.host u)) :
    let cfg' := emitMultiStateMachine a co pts m.stateLocal m.pollResultLocal m.progressLocal m.dispatchBb m.exitBb
    ∃ entries done, a.next ≤ done ∧ done < cfg'.next ∧ entries.length = pts.length ∧
      cfg'.block m.dispatchBb = ⟨[], .switch m.stateLocal (stateTargets (co.begin.1 :: entries)) m.exitBb⟩ ∧
      cfg'.block done = ⟨[.assignI64 m.pollResultLocal pollReady, .assignI64 m.stateLocal doneState], .goto m.exitBb⟩ ∧
      cfg'.block co.last.1 = ⟨a.stmts co.last.1, .goto done⟩ ∧
      (∀ (j : ℕ) (p : Point) (e : ℕ), pts[j]? = some p → entries[j]? = some e →
        Site (a.block p.bb) cfg' (fun c => a.next ≤ c ∧ c < cfg'.next)
          (fun d => a.locals.length ≤ d ∧ d < cfg'.locals.length) m (j + 1 : ℕ) p e) ∧
      Extends (fun c => (∃ p ∈ pts, p.bb = c) ∨ c = m.dispatchBb ∨ c = co.last.1) a cfg' := by
  intro cfg'
  obtain ⟨hlen, hsites, hext⟩ := emitSuspensions_spec m pts a 0 hnodup hpts
  generalize hs : emitSuspensions m.stateLocal m.pollResultLocal m.progressLocal m.exitBb 0 pts a = s at hlen hsites hext
  let b := (emitDone s.2 m.stateLocal m.pollResultLocal m.exitBb).2
  have hcfg' : cfg' = (b.setGoto co.last.1 s.2.next).setSwitch m.dispatchBb m.stateLocal
      (stateTargets (co.begin.1 :: s.1)) m.exitBb := by
    simp only [cfg', emitMultiStateMachine, hs]
    rfl
  have hle := hext.next_le
  have hdisp : s.2.block m.dispatchBb = .fresh := by
    rw [hext.same _ hd, hfresh]
    rintro ⟨p, hp, heq⟩
    exact hpd p hp heq
  have hlb : s.2.block co.last.1 = a.block co.last.1 := by
    refine hext.same _ hlast ?_
    rintro ⟨p, hp, heq⟩
    exact hnl p hp heq
  have hblock : ∀ c, cfg'.block c = if c = m.dispatchBb then
        ⟨[], .switch m.stateLocal (stateTargets (co.begin.1 :: s.1)) m.exitBb⟩
      else if c = co.last.1 then ⟨a.stmts co.last.1, .goto s.2.next⟩
      else if c = s.2.next then
        ⟨[.assignI64 m.pollResultLocal pollReady, .assignI64 m.stateLocal doneState], .goto m.exitBb⟩
      else s.2.block c := by
    intro c
    have hds : m.dispatchBb ≠ s.2.next := by omega
    have hls : co.last.1 ≠ s.2.next := by omega
    by_cases hc : c = m.dispatchBb
    · simp [hcfg', hc, Cfg.setSwitch, Cfg.setGoto, Cfg.setTerm, hld.symm, b, emitDone_block, hds, hdisp,
        Block.fresh]
    · by_cases hc' : c = co.last.1
      · simp [hcfg', hc', hld, Cfg.setSwitch, Cfg.setGoto, Cfg.setTerm, Cfg.stmts, b, emitDone_block, hls, hlb]
      · simp [hcfg', hc, hc', Cfg.setSwitch, Cfg.setGoto, Cfg.setTerm, b, emitDone_block]
  have hnext : cfg'.next = s.2.next + 1 := by rw [hcfg']; rfl
  have hlocals : cfg'.locals = s.2.locals := by rw [hcfg']; rfl
  refine ⟨s.1, s.2.next, hle, by omega, hlen, ?_, ?_, ?_, ?_, ?_⟩
  · rw [hblock, if_pos rfl]
  · rw [hblock, if_neg (by omega), if_neg (by omega), if_pos rfl]
  · rw [hblock, if_neg hld, if_pos rfl]
  · intro j p e hp he
    have hmem := List.mem_of_getElem? hp
    have h := hsites j p e hp he
    rw [Nat.zero_add] at h
    refine h.mono ?_ (fun d hd' => hlocals ▸ hd') ?_
    · rintro c ⟨hlo, hhi⟩
      refine ⟨⟨hlo, by omega⟩, ?_⟩
      rw [hblock, if_neg (by omega), if_neg (by omega), if_neg (by omega)]
    · have hlt := (hpts p hmem).1
      rw [hblock, if_neg (hpd p hmem), if_neg (hnl p hmem), if_neg (by omega)]
  · rw [hcfg']
    have hb : Extends (fun c => (∃ p ∈ pts, p.bb = c) ∨ c = m.dispatchBb ∨ c = co.last.1) s.2 b :=
      emitDone_extends s.2 _ _ _
    refine (hext.mono fun c _ hc => .inl hc).trans (hb.trans ?_)
    exact (Extends.set (.inr (.inr rfl))).trans (Extends.set (.inr (.inl rfl)))

end

/-- `build_state_machine` reserves the locals and blocks of a machine and builds it. -/
theorem buildStateMachine_spec (cfg : Body U) (co : Coroutine) (pts : List Point) (progress : ℕ)
    (hlast : co.last.1 < cfg.next) (hnl : ∀ p ∈ pts, p.bb ≠ co.last.1) (hnodup : (pts.map (·.bb)).Nodup)
    (hpts : ∀ p ∈ pts, p.bb < cfg.next ∧ ∃ u, (cfg.stmts p.bb)[p.stmt]? = some (.host u)) :
    let out := buildStateMachine cfg co pts progress
    out.1.progressLocal = progress ∧ Extends (fun c => (∃ p ∈ pts, p.bb = c) ∨ c = co.last.1) cfg out.2 ∧
      ∃ entries done, Built cfg out.2 (fun c => cfg.next ≤ c ∧ c < out.2.next)
        (fun d => cfg.locals.length ≤ d ∧ d < out.2.locals.length) co pts out.1 entries done := by
  intro out
  let a := reserve cfg
  let m : Machine := ⟨cfg.locals.length, cfg.locals.length + 1, progress, cfg.next, cfg.next + 1⟩
  have hlocal : cfg.newStateLocal.2.locals.length = cfg.locals.length + 1 := by
    simp [Cfg.newStateLocal, Cfg.newLocal]
  have hm : out.1 = m := by
    change (⟨_, cfg.newStateLocal.2.locals.length, _, _, _⟩ : Machine) = m
    rw [hlocal]
    rfl
  have hold : ∀ c < cfg.next, a.block c = cfg.block c := by
    intro c hc
    rw [reserve_block, if_neg (by omega)]
  have hanext : a.next = cfg.next + 2 := rfl
  have halocals : a.locals.length = cfg.locals.length + 2 := reserve_locals cfg
  have hfresh : a.block m.dispatchBb = .fresh := by rw [reserve_block, if_pos (.inr rfl)]
  have hexit : a.block m.exitBb = .fresh := by rw [reserve_block, if_pos (.inl rfl)]
  have hd : m.dispatchBb < a.next := Nat.lt_add_of_pos_right Nat.two_pos
  have hla : co.last.1 < a.next := by omega
  have hld : co.last.1 ≠ m.dispatchBb := hlast.ne
  have hstmts : ∀ c < cfg.next, a.stmts c = cfg.stmts c := fun c hc => congrArg Block.stmts (hold c hc)
  have hmd : m.dispatchBb = cfg.next := rfl
  have hme : m.exitBb = cfg.next + 1 := rfl
  have hms : m.stateLocal = cfg.locals.length := rfl
  have hmp : m.pollResultLocal = cfg.locals.length + 1 := rfl
  have hout : out.2 = if pts = [] then emitNoSuspensionMachine a co m.stateLocal m.pollResultLocal m.dispatchBb m.exitBb
      else emitMultiStateMachine a co pts m.stateLocal m.pollResultLocal m.progressLocal m.dispatchBb m.exitBb := by
    change (if pts = [] then emitNoSuspensionMachine a co _ cfg.newStateLocal.2.locals.length _ _
      else emitMultiStateMachine a co pts _ cfg.newStateLocal.2.locals.length _ _ _) = _
    rw [hlocal]
    rfl
  rw [hm, hout]
  refine ⟨rfl, ?_⟩
  by_cases hnil : pts = []
  · rw [if_pos hnil]
    obtain ⟨hnext, hlocals, hdis, hdone, hlb, hext⟩ :=
      emitNoSuspensionMachine_spec (m := m) hd hfresh hla hld
    refine ⟨(reserve_extends cfg).trans_new hext ?_, [], a.next, ?_⟩
    · rintro c hc (heq | heq)
      · exact absurd heq hc.ne
      · exact .inr heq
    · refine ⟨⟨⟨le_rfl, ?_⟩, ⟨Nat.le_succ _, ?_⟩, (Nat.lt_succ_self _).ne⟩, ⟨le_rfl, ?_⟩, ⟨Nat.le_succ _, ?_⟩,
        (Nat.lt_succ_self _).ne, by rw [hnil]; rfl, .inl ⟨hnil, _, ⟨⟨?_, ?_⟩, ?_, ?_⟩, hdis⟩, ?_,
        ⟨⟨?_, ?_⟩, ?_, ?_⟩, hdone, ?_, ?_⟩
      all_goals try omega
      · rw [hext.same _ (by omega), hexit]
        rintro (heq | heq) <;> omega
      · rw [hlb, hstmts _ hlast]
      · intro j p e hp
        rw [hnil] at hp
        simp at hp
  · rw [if_neg hnil]
    have hpts' : ∀ p ∈ pts, p.bb < a.next ∧ ∃ u, (a.stmts p.bb)[p.stmt]? = some (.host u) := by
      intro p hp
      obtain ⟨hlt, u, hu⟩ := hpts p hp
      exact ⟨by omega, u, by rw [hstmts _ hlt]; exact hu⟩
    have hpd : ∀ p ∈ pts, p.bb ≠ m.dispatchBb := fun p hp => (hpts p hp).1.ne
    obtain ⟨entries, done, hlo, hhi, hcount, hdis, hdone, hlb, hsites, hext⟩ :=
      emitMultiStateMachine_spec (m := m) hd hfresh hla hld hpd hnl hnodup hpts'
    have hle := hext.next_le
    have hlle := hext.locals_le
    refine ⟨(reserve_extends cfg).trans_new hext ?_, entries, done, ?_⟩
    · rintro c hc (h | heq | heq)
      · exact .inl h
      · exact absurd heq hc.ne
      · exact .inr heq
    · refine ⟨⟨⟨le_rfl, ?_⟩, ⟨Nat.le_succ _, ?_⟩, (Nat.lt_succ_self _).ne⟩, ⟨le_rfl, ?_⟩, ⟨Nat.le_succ _, ?_⟩,
        (Nat.lt_succ_self _).ne, hcount, .inr ⟨hnil, hdis⟩, ?_, ⟨⟨?_, hhi⟩, ?_, ?_⟩, hdone, ?_, ?_⟩
      all_goals try omega
      · rw [hext.same _ (by omega), hexit]
        rintro (⟨p, hp, heq⟩ | heq | heq)
        · have hlt := (hpts p hp).1
          omega
        · omega
        · omega
      · rw [hlb, hstmts _ hlast]
      · intro j p e hp he
        have h := hsites j p e hp he
        rw [hold _ (hpts p (List.mem_of_getElem? hp)).1] at h
        refine h.mono ?_ ?_ rfl
        · rintro c ⟨hlo', hhi'⟩
          refine ⟨⟨⟨?_, hhi'⟩, ?_, ?_⟩, rfl⟩ <;> omega
        · rintro d ⟨hlo', hhi'⟩
          refine ⟨⟨?_, hhi'⟩, ?_, ?_⟩ <;> omega


theorem Built.mono {orig orig' cfg cfg' : Body U} {F G : ℕ → Prop} {co : Coroutine} {pts : List Point} {m : Machine}
    {entries : List ℕ} {done : ℕ} (h : Built orig cfg F G co pts m entries done)
    (hF : ∀ c, F c → cfg'.block c = cfg.block c) (hlast : cfg'.block co.last.1 = cfg.block co.last.1)
    (hpts : ∀ p ∈ pts, cfg'.block p.bb = cfg.block p.bb ∧ orig'.block p.bb = orig.block p.bb)
    (horig : orig'.stmts co.last.1 = orig.stmts co.last.1) : Built orig' cfg' F G co pts m entries done where
  dispatch := h.dispatch
  state := h.state
  poll := h.poll
  state_ne := h.state_ne
  count := h.count
  dispatches := by
    rw [Dispatches, hF _ h.dispatch.1]
    exact h.dispatches
  exit := (hF _ h.dispatch.2.1).trans h.exit
  done_new := h.done_new
  done_block := (hF _ h.done_new.1).trans h.done_block
  last := by rw [hlast, horig, h.last]
  sites j p e hp he := by
    have hmem := List.mem_of_getElem? hp
    rw [(hpts p hmem).2]
    exact (h.sites j p e hp he).mono (fun c hc => ⟨hc, hF c hc.1⟩) (fun _ hd => hd) (hpts p hmem).1

/-! ## All machines of a region -/

/-- The blocks of the body that the machine of a coroutine rewrites. -/
def rewrites (x : Coroutine × List Point) : List ℕ := x.2.map (·.bb) ++ [x.1.last.1]

/-- The machines `ms` of the coroutines `cs`: machine `k` has the blocks from `lo k` and the locals from `ll k`
    on to itself. -/
structure AllBuilt (orig cfg : Body U) (cs : List (Coroutine × List Point)) (ms : List Machine) (progress : ℕ)
    (lo ll : ℕ → ℕ) : Prop where
  lo_mono : Monotone lo
  ll_mono : Monotone ll
  count : ms.length = cs.length
  built : ∀ (k : ℕ) (x : Coroutine × List Point) (m : Machine), cs[k]? = some x → ms[k]? = some m →
    m.progressLocal = progress ∧ ∃ entries done,
      Built orig cfg (fun c => lo k ≤ c ∧ c < lo (k + 1)) (fun d => ll k ≤ d ∧ d < ll (k + 1)) x.1 x.2 m entries done

/-- Put a value before a sequence. -/
def before (a : ℕ) (f : ℕ → ℕ) : ℕ → ℕ
  | 0 => a
  | k + 1 => f k

theorem before_monotone {a : ℕ} {f : ℕ → ℕ} (hf : Monotone f) (ha : a ≤ f 0) : Monotone (before a f) := by
  refine monotone_nat_of_le_succ fun k => ?_
  cases k with
  | zero => exact ha
  | succ k => exact hf (Nat.le_succ k)

/-- The loop of `transform_region` builds every machine; no two of them rewrite one block. -/
theorem buildMachines_spec (progress : ℕ) (cs : List (Coroutine × List Point)) (cfg : Body U)
    (hnodup : (cs.flatMap rewrites).Nodup) (hlt : ∀ b ∈ cs.flatMap rewrites, b < cfg.next)
    (hhost : ∀ x ∈ cs, ∀ p ∈ x.2, ∃ u, (cfg.stmts p.bb)[p.stmt]? = some (.host u)) :
    let out := buildMachines progress cs cfg
    Extends (· ∈ cs.flatMap rewrites) cfg out.2 ∧ ∃ lo ll, lo 0 = cfg.next ∧ ll 0 = cfg.locals.length ∧
      lo cs.length = out.2.next ∧ ll cs.length = out.2.locals.length ∧ AllBuilt cfg out.2 cs out.1 progress lo ll := by
  induction cs generalizing cfg with
  | nil =>
    refine ⟨Extends.refl, fun _ => cfg.next, fun _ => cfg.locals.length, rfl, rfl, rfl, rfl, ?_⟩
    exact ⟨monotone_const, monotone_const, rfl, fun k x m h => by simp at h⟩
  | cons x cs ih =>
    obtain ⟨co, pts⟩ := x
    intro out
    rw [List.flatMap_cons] at hnodup
    obtain ⟨hown, hrest, hdisj⟩ := List.nodup_append.mp hnodup
    obtain ⟨hpn, -, hpl⟩ := List.nodup_append.mp hown
    have hin : ∀ b ∈ rewrites (co, pts), b ∈ ((co, pts) :: cs).flatMap rewrites := fun b hb => by
      rw [List.flatMap_cons]
      exact List.mem_append_left _ hb
    have hrin : ∀ b ∈ cs.flatMap rewrites, b ∈ ((co, pts) :: cs).flatMap rewrites := fun b hb => by
      rw [List.flatMap_cons]
      exact List.mem_append_right _ hb
    have hlm : co.last.1 ∈ rewrites (co, pts) := List.mem_append_right _ (List.mem_singleton.mpr rfl)
    have hpm : ∀ p ∈ pts, p.bb ∈ rewrites (co, pts) := fun p hp => List.mem_append_left _ (List.mem_map.mpr ⟨p, hp, rfl⟩)
    obtain ⟨hprog, hext, entries, done, hb⟩ := buildStateMachine_spec cfg co pts progress (hlt _ (hin _ hlm))
      (fun p hp heq => hpl _ (List.mem_map.mpr ⟨p, hp, rfl⟩) _ (List.mem_singleton.mpr rfl) heq) hpn
      (fun p hp => ⟨hlt _ (hin _ (hpm p hp)), hhost _ List.mem_cons_self p hp⟩)
    generalize hone : buildStateMachine cfg co pts progress = one at hprog hext hb
    have hkept : ∀ b ∈ cs.flatMap rewrites, one.2.block b = cfg.block b := by
      intro b hbm
      refine hext.same _ (hlt _ (hrin _ hbm)) ?_
      rintro (⟨p, hp, rfl⟩ | rfl)
      · exact hdisj _ (hpm p hp) _ hbm rfl
      · exact hdisj _ hlm _ hbm rfl
    have hpmem : ∀ y ∈ cs, ∀ p ∈ y.2, p.bb ∈ cs.flatMap rewrites := fun y hy p hp =>
      List.mem_flatMap.mpr ⟨y, hy, List.mem_append_left _ (List.mem_map.mpr ⟨p, hp, rfl⟩)⟩
    have hlmem : ∀ y ∈ cs, y.1.last.1 ∈ cs.flatMap rewrites := fun y hy =>
      List.mem_flatMap.mpr ⟨y, hy, List.mem_append_right _ (List.mem_singleton.mpr rfl)⟩
    obtain ⟨hextr, lo, ll, hlo0, hll0, hlon, hlln, hall⟩ := ih one.2 hrest
      (fun b hbm => (hlt _ (hrin _ hbm)).trans_le hext.next_le) (by
        intro y hy p hp
        obtain ⟨u, hu⟩ := hhost y (List.mem_cons_of_mem _ hy) p hp
        refine ⟨u, ?_⟩
        rw [Cfg.stmts, hkept _ (hpmem y hy p hp)]
        exact hu)
    have hout : out = (one.1 :: (buildMachines progress cs one.2).1, (buildMachines progress cs one.2).2) := by
      simp only [out, buildMachines, hone]
    rw [hout]
    generalize buildMachines progress cs one.2 = rest at hextr hlon hlln hall
    refine ⟨(hext.mono ?_).trans_new hextr (fun c _ hc => hrin c hc), before cfg.next lo, before cfg.locals.length ll, rfl,
      rfl, hlon, hlln, ?_⟩
    · rintro c _ (⟨p, hp, rfl⟩ | rfl)
      · exact hin _ (hpm p hp)
      · exact hin _ hlm
    · have hsame : ∀ c < one.2.next, c ∉ cs.flatMap rewrites → rest.2.block c = one.2.block c := hextr.same
      refine ⟨before_monotone hall.lo_mono (hlo0 ▸ hext.next_le), before_monotone hall.ll_mono (hll0 ▸ hext.locals_le),
        by simp [hall.count], ?_⟩
      intro k y m hy hm
      cases k with
      | zero =>
        obtain rfl : (co, pts) = y := Option.some.inj hy
        obtain rfl : one.1 = m := Option.some.inj hm
        refine ⟨hprog, entries, done, ?_⟩
        simp only [before, hlo0, hll0]
        refine hb.mono ?_ ?_ ?_ rfl
        · rintro c ⟨hlo, hhi⟩
          refine hsame c hhi fun hc => ?_
          exact absurd (hlt _ (hrin _ hc)) (by omega)
        · exact hsame _ ((hlt _ (hin _ hlm)).trans_le hext.next_le) fun hc => hdisj _ hlm _ hc rfl
        · intro p hp
          exact ⟨hsame _ ((hlt _ (hin _ (hpm p hp))).trans_le hext.next_le) fun hc => hdisj _ (hpm p hp) _ hc rfl, rfl⟩
      | succ k =>
        have hmem : y ∈ cs := List.mem_of_getElem? hy
        obtain ⟨hp, es, dn, hbk⟩ := hall.built k y m hy hm
        refine ⟨hp, es, dn, hbk.mono (fun _ _ => rfl) rfl ?_ ?_⟩
        · intro p hp
          exact ⟨rfl, (hkept _ (hpmem y hmem p hp)).symm⟩
        · exact (congrArg Block.stmts (hkept _ (hlmem y hmem))).symm

end Krio.Stackless
