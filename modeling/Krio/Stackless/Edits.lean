import Mathlib.Data.List.Sublists
import Krio.Stackless.Executors

/-! What the rewriting of a region does to a statement `u` of the host: no edit makes a second one of it, and edits
move it only out of the blocks that are split. -/

namespace Krio.Stackless

variable {U : Type}

/-- The host's statement, if it is one. -/
def Stmt.host? : Stmt U → Option U
  | .host u => some u
  | _ => none

/-- The statement is not the host's. -/
class Stmt.Silent (s : Stmt U) : Prop where
  host_eq : s.host? = none

instance {l : ℕ} {v : ℤ} : Stmt.Silent (.assignI64 l v : Stmt U) := ⟨rfl⟩
instance {l : ℕ} {v : Bool} : Stmt.Silent (.assignBool l v : Stmt U) := ⟨rfl⟩
instance {dest lhs : ℕ} {v : ℤ} : Stmt.Silent (.eqCheckI64 dest lhs v : Stmt U) := ⟨rfl⟩
instance {u : U} {dest : ℕ} : Stmt.Silent (.peek u dest) := ⟨rfl⟩
instance {u : U} : Stmt.Silent (.recv u) := ⟨rfl⟩
instance : Stmt.Silent (.nop : Stmt U) := ⟨rfl⟩

/-- The host's statements among these. -/
def hosts (l : List (Stmt U)) : List U := l.filterMap Stmt.host?

section
variable {u : U} {l l' : List (Stmt U)} {s : Stmt U} {i : ℕ}

@[simp] theorem hosts_nil : hosts ([] : List (Stmt U)) = [] := rfl

@[simp] theorem hosts_append : hosts (l ++ l') = hosts l ++ hosts l' := List.filterMap_append

theorem hosts_cons_none (hs : s.host? = none) : hosts (s :: l) = hosts l := List.filterMap_cons_none hs

theorem mem_hosts : u ∈ hosts l ↔ .host u ∈ l := by
  rw [hosts, List.mem_filterMap]
  constructor
  · rintro ⟨s, hs, hu⟩
    cases s with
    | host v =>
      cases hu
      exact hs
    | _ => cases hu
  · exact fun h => ⟨_, h, rfl⟩

theorem hosts_set (hs : s.host? = none) : (hosts (l.set i s)).Sublist (hosts l) := by
  induction l generalizing i with
  | nil => exact List.Sublist.refl _
  | cons x l ih =>
    cases i with
    | zero =>
      rw [List.set_cons_zero, hosts_cons_none hs]
      exact (List.sublist_cons_self x l).filterMap _
    | succ i =>
      have h := ih (i := i)
      rw [List.set_cons_succ]
      cases x with
      | host v => exact h.cons_cons v
      | _ => exact h

end

/-- The bodies that edits lead to from `cfg`: no edit adds the host's statement `u`, and blocks are split only if they
    are in `S` or new. -/
inductive Edit (u : U) (S : ℕ → Prop) (cfg : Body U) : Body U → Prop
  | refl : Edit u S cfg cfg
  | push {a : Body U} {x : Block (Stmt U)} (h : Edit u S cfg a) (hx : u ∉ hosts x.stmts) : Edit u S cfg (a.push x)
  | newLocal {a : Body U} {ty : LocalTy} (h : Edit u S cfg a) : Edit u S cfg (a.newLocal ty).2
  | set {a : Body U} {b : ℕ} {x : Block (Stmt U)} (h : Edit u S cfg a)
      (hx : ∃ vs, u ∉ vs ∧ (hosts x.stmts).Sublist (hosts (a.stmts b) ++ vs)) : Edit u S cfg (a.set b x)
  | split {a : Body U} {b i : ℕ} (h : Edit u S cfg a) (hb : b < a.next) (hS : S b ∨ cfg.next ≤ b) :
      Edit u S cfg (a.splitAfter b i).2

namespace Edit
variable {u : U} {S S' : ℕ → Prop} {cfg a a' : Body U} {b i : ℕ} {s : Stmt U} {t : Term}

theorem next_le (h : Edit u S cfg a) : cfg.next ≤ a.next := by
  induction h with
  | refl => exact le_rfl
  | push _ _ ih => exact ih.trans (Nat.le_succ _)
  | newLocal _ ih => exact ih
  | set _ _ ih => exact ih
  | split _ _ _ ih => exact ih.trans (Nat.le_succ _)

theorem trans_new (h : Edit u S cfg a) (h' : Edit u S' a a') (hS : ∀ b, S' b → S b ∨ cfg.next ≤ b) : Edit u S cfg a' := by
  induction h' with
  | refl => exact h
  | push _ hx ih => exact .push ih hx
  | newLocal _ ih => exact .newLocal ih
  | set _ hx ih => exact .set ih hx
  | split _ hb hb' ih => exact .split ih hb (hb'.elim (hS _) fun hle => .inr (h.next_le.trans hle))

theorem trans (h : Edit u S cfg a) (h' : Edit u S a a') : Edit u S cfg a' := h.trans_new h' fun _ => .inl

theorem mono (h : Edit u S cfg a) (hS : ∀ b, S b → S' b) : Edit u S' cfg a := by
  induction h with
  | refl => exact .refl
  | push _ hx ih => exact .push ih hx
  | newLocal _ ih => exact .newLocal ih
  | set _ hx ih => exact .set ih hx
  | split _ hb hb' ih => exact .split ih hb (hb'.imp_left (hS _))

theorem newBlock (h : Edit u S cfg a) : Edit u S cfg a.newBlock.2 := .push h List.not_mem_nil

theorem emit (h : Edit u S cfg a) [hs : s.Silent] : Edit u S cfg (a.emit b s) := by
  refine .set h ⟨[], List.not_mem_nil, ?_⟩
  rw [hosts_append, hosts_cons_none hs.host_eq]
  exact List.Sublist.refl _

/-- A statement that is not `u`. -/
theorem report {v : U} (h : Edit u S cfg a) (hv : v ≠ u) : Edit u S cfg (a.emit b (.host v)) := by
  refine .set h ⟨[v], ?_, ?_⟩
  · rw [List.mem_singleton]
    exact hv.symm
  · rw [hosts_append]
    exact List.Sublist.refl _

theorem prepend (h : Edit u S cfg a) [hs : s.Silent] : Edit u S cfg (a.prepend b s) := by
  refine .set h ⟨[], List.not_mem_nil, ?_⟩
  rw [hosts_cons_none hs.host_eq, List.append_nil]

theorem replace (h : Edit u S cfg a) [hs : s.Silent] : Edit u S cfg (a.replace b i s) := by
  refine .set h ⟨[], List.not_mem_nil, ?_⟩
  rw [List.append_nil]
  exact hosts_set hs.host_eq

theorem setTerm (h : Edit u S cfg a) : Edit u S cfg (a.setTerm b t) := by
  refine .set h ⟨[], List.not_mem_nil, ?_⟩
  rw [List.append_nil]
  exact List.Sublist.refl _

end Edit

/-! ## What edits keep -/

/-- Two of `u` do not stand in one block, nor one each in two. -/
structure AtMostOnce (u : U) (cfg : Body U) : Prop where
  block : ∀ b, ¬[u, u].Sublist (hosts (cfg.stmts b))
  apart : ∀ b b', .host u ∈ cfg.stmts b → .host u ∈ cfg.stmts b' → b = b'

theorem twice_append {u : U} {l vs : List U} (hl : ¬[u, u].Sublist l) (hvs : u ∉ vs) : ¬[u, u].Sublist (l ++ vs) := by
  intro h
  obtain ⟨l₁, l₂, heq, h₁, h₂⟩ := List.sublist_append_iff.mp h
  have hnil : l₂ = [] := by
    cases l₂ with
    | nil => rfl
    | cons x l₂ =>
      have hx : x ∈ [u, u] := heq ▸ List.mem_append_right _ List.mem_cons_self
      have hxu : x = u := by simpa using hx
      exact absurd (h₂.subset List.mem_cons_self) (hxu ▸ hvs)
  rw [hnil, List.append_nil] at heq
  exact hl (heq ▸ h₁)

theorem twice_of_both {u : U} {l l' : List U} (h : u ∈ l) (h' : u ∈ l') : [u, u].Sublist (l ++ l') :=
  (List.singleton_sublist.mpr h).append (List.singleton_sublist.mpr h')

theorem Edit.atMostOnce {u : U} {S : ℕ → Prop} {cfg a : Body U} (h : Edit u S cfg a) (hu : AtMostOnce u cfg) :
    AtMostOnce u a := by
  induction h with
  | refl => exact hu
  | @push a x _ hx ih =>
    have hnew : ∀ b, (a.push x).stmts b = if b = a.next then x.stmts else a.stmts b := fun b => by
      rw [Cfg.stmts, Cfg.push_block]
      split <;> rfl
    refine ⟨fun b => ?_, fun b b' hb hb' => ?_⟩
    · rw [hnew]
      split
      · exact fun hs => hx (hs.subset List.mem_cons_self)
      · exact ih.block b
    · have hold : ∀ c, .host u ∈ (a.push x).stmts c → .host u ∈ a.stmts c := fun c hc => by
        rw [hnew] at hc
        split at hc
        · exact absurd (mem_hosts.mpr hc) hx
        · exact hc
      exact ih.apart b b' (hold b hb) (hold b' hb')
  | newLocal _ ih => exact ⟨ih.block, ih.apart⟩
  | @set a b x _ hx ih =>
    obtain ⟨vs, hvs, hsub⟩ := hx
    have hnew : ∀ c, (a.set b x).stmts c = if c = b then x.stmts else a.stmts c := fun c => by
      rw [Cfg.stmts, Cfg.set_block]
      split <;> rfl
    refine ⟨fun c => ?_, fun c c' hc hc' => ?_⟩
    · rw [hnew]
      split
      · exact fun hs => twice_append (ih.block b) hvs (hs.trans hsub)
      · exact ih.block c
    · have hold : ∀ c, .host u ∈ (a.set b x).stmts c → .host u ∈ a.stmts c := fun c hc => by
        rw [hnew] at hc
        split at hc
        · rename_i heq
          rcases List.mem_append.mp (hsub.subset (mem_hosts.mpr hc)) with hin | hin
          · exact heq ▸ mem_hosts.mp hin
          · exact absurd hin hvs
        · exact hc
      exact ih.apart c c' (hold c hc) (hold c' hc')
  | @split a b i _ _ _ ih =>
    have hparts : hosts (a.stmts b) = hosts ((a.stmts b).take (i + 1)) ++ hosts ((a.stmts b).drop (i + 1)) := by
      rw [← hosts_append, List.take_append_drop]
    have hnew : ∀ c, (a.splitAfter b i).2.stmts c = if c = b then (a.stmts b).take (i + 1)
        else if c = a.next then (a.stmts b).drop (i + 1) else a.stmts c := fun c => by
      rw [Cfg.stmts, Cfg.splitAfter_block]
      split
      · rfl
      · split <;> rfl
    have htwice := ih.block b
    rw [hparts] at htwice
    refine ⟨fun c => ?_, fun c c' hc hc' => ?_⟩
    · rw [hnew]
      split
      · exact fun hs => htwice (hs.trans (List.sublist_append_left _ _))
      · split
        · exact fun hs => htwice (hs.trans (List.sublist_append_right _ _))
        · exact ih.block c
    · -- where each half of the split block's statements is
      have hold : ∀ c, .host u ∈ (a.splitAfter b i).2.stmts c → c = b ∧ .host u ∈ (a.stmts b).take (i + 1) ∨
          c = a.next ∧ .host u ∈ (a.stmts b).drop (i + 1) ∨ c ≠ b ∧ .host u ∈ a.stmts c := fun c hc => by
        rw [hnew] at hc
        split at hc
        · exact .inl ⟨‹_›, hc⟩
        · split at hc
          · exact .inr (.inl ⟨‹_›, hc⟩)
          · exact .inr (.inr ⟨‹_›, hc⟩)
      have hboth : .host u ∈ (a.stmts b).take (i + 1) → .host u ∉ (a.stmts b).drop (i + 1) := fun h1 h2 =>
        htwice (twice_of_both (mem_hosts.mpr h1) (mem_hosts.mpr h2))
      have htake : .host u ∈ (a.stmts b).take (i + 1) → .host u ∈ a.stmts b := List.mem_of_mem_take
      have hdrop : .host u ∈ (a.stmts b).drop (i + 1) → .host u ∈ a.stmts b := List.mem_of_mem_drop
      rcases hold c hc with ⟨rfl, h1⟩ | ⟨rfl, h1⟩ | ⟨hne, h1⟩ <;> rcases hold c' hc' with ⟨rfl, h2⟩ | ⟨rfl, h2⟩ | ⟨hne', h2⟩
      · rfl
      · exact absurd h2 (hboth h1)
      · exact absurd (ih.apart _ _ h2 (htake h1)) hne'
      · exact absurd h1 (hboth h2)
      · rfl
      · exact absurd (ih.apart _ _ h2 (hdrop h1)) hne'
      · exact absurd (ih.apart _ _ h1 (htake h2)) hne
      · exact absurd (ih.apart _ _ h1 (hdrop h2)) hne
      · exact ih.apart _ _ h1 h2

/-- A statement of the host in an edited body was in the same block, or in one that was split. -/
theorem Edit.origin {u : U} {S : ℕ → Prop} {cfg a : Body U} (h : Edit u S cfg a) {c : ℕ} (hc : .host u ∈ a.stmts c)
    (hlt : c < a.next) : c < cfg.next ∧ .host u ∈ cfg.stmts c ∨ ∃ src, S src ∧ .host u ∈ cfg.stmts src := by
  induction h generalizing c with
  | refl => exact .inl ⟨hlt, hc⟩
  | @push a x _ hx ih =>
    rw [Cfg.stmts, Cfg.push_block] at hc
    split at hc
    · exact absurd (mem_hosts.mpr hc) hx
    · rename_i hne
      exact ih hc (lt_of_le_of_ne (Nat.lt_succ_iff.mp hlt) hne)
  | newLocal _ ih => exact ih hc hlt
  | @set a b x _ hx ih =>
    obtain ⟨vs, hvs, hsub⟩ := hx
    rw [Cfg.stmts, Cfg.set_block] at hc
    split at hc
    · rename_i heq
      subst heq
      rcases List.mem_append.mp (hsub.subset (mem_hosts.mpr hc)) with hin | hin
      · exact ih (mem_hosts.mp hin) hlt
      · exact absurd hin hvs
    · exact ih hc hlt
  | @split a b i _ hb hS ih =>
    rw [Cfg.stmts, Cfg.splitAfter_block] at hc
    split at hc
    · rename_i heq
      subst heq
      exact ih (List.mem_of_mem_take hc) hb
    · split at hc
      · -- what is cut off stands in the block that was split
        rcases ih (List.mem_of_mem_drop hc) hb with ⟨hlt', hin⟩ | hsrc
        · exact .inr ⟨b, hS.resolve_right (Nat.not_le.mpr hlt'), hin⟩
        · exact .inr hsrc
      · rename_i hne
        exact ih hc (lt_of_le_of_ne (Nat.lt_succ_iff.mp hlt) hne)

/-! ## The edits of the transform -/

section
variable {u : U} {S : ℕ → Prop} {cfg : Body U}

theorem emitDone_edit (s l e : ℕ) : Edit u S cfg (emitDone cfg s l e).2 := (((Edit.refl.newBlock).emit).emit).setTerm

theorem emitSuspend_edit (s l e : ℕ) (id res : ℤ) : Edit u S cfg (emitSuspend cfg s l e id res).2 :=
  (((Edit.refl.newBlock).emit).emit).setTerm

theorem emitGuardedRecvPeek_edit (bb idx resumeBb : ℕ) : Edit u S cfg (Hooks.emitGuardedRecvPeek cfg bb idx resumeBb).2 := by
  simp only [Hooks.emitGuardedRecvPeek]
  split
  · exact ((Edit.refl.newLocal).replace).prepend
  · exact Edit.refl.newLocal

theorem emitGuard_edit {guardBb : ℕ} (s l p e : ℕ) (id : ℤ) (hlt : guardBb < cfg.next) (hS : S guardBb) :
    Edit u S cfg (emitGuard cfg s l p e id guardBb) := by
  have h1 : Edit u S cfg (cfg.splitAfter guardBb 0).2 := .split .refl hlt (.inl hS)
  exact (((h1.trans (emitGuardedRecvPeek_edit _ _ _)).prepend).trans (emitSuspend_edit _ _ _ _ _)).setTerm

theorem emitGuardedRecv_edit {bb stmt : ℕ} (s l p e : ℕ) (id : ℤ) (hlt : bb < cfg.next) (hS : S bb) :
    Edit u S cfg (emitGuardedRecv cfg s l p e id bb stmt).2 := by
  rw [emitGuardedRecv]
  split
  · exact emitGuard_edit s l p e id hlt hS
  · have h1 : Edit u S cfg ((cfg.splitAfter bb (stmt - 1)).2.setGoto bb cfg.next) := (Edit.split .refl hlt (.inl hS)).setTerm
    have h2 : Edit u (fun b => S b ∨ b = cfg.next) ((cfg.splitAfter bb (stmt - 1)).2.setGoto bb cfg.next)
        (emitGuard ((cfg.splitAfter bb (stmt - 1)).2.setGoto bb cfg.next) s l p e id cfg.next) :=
      emitGuard_edit s l p e id (Nat.lt_succ_self _) (.inr rfl)
    exact h1.trans_new h2 fun b hb => hb.imp_right fun heq => heq.ge

theorem emitSuspension_edit {p : Point} (s l g e : ℕ) (id : ℤ) (hlt : p.bb < cfg.next) (hS : S p.bb) :
    Edit u S cfg (emitSuspension cfg s l g e id p).2 := by
  have hy : Edit u S cfg (emitSuspend cfg s l e id pollPending).2 := emitSuspend_edit _ _ _ _ _
  have hlt' : p.bb < (emitSuspend cfg s l e id pollPending).2.next := hlt.trans_le hy.next_le
  rw [emitSuspension]
  cases hk : p.kind with
  | guardedRecv => exact hy.trans (emitGuardedRecv_edit s l g e id hlt' hS)
  | producingSend => exact (hy.split hlt' (.inl hS)).setTerm
  | yield => exact ((hy.split hlt' (.inl hS)).replace).setTerm

theorem emitSuspensions_edit (s l g e : ℕ) (pts : List Point) (i : ℕ) (cfg : Body U) (hlt : ∀ p ∈ pts, p.bb < cfg.next)
    (hS : ∀ p ∈ pts, S p.bb) : Edit u S cfg (emitSuspensions s l g e i pts cfg).2 := by
  induction pts generalizing i cfg with
  | nil => exact .refl
  | cons p pts ih =>
    have h1 : Edit u S cfg (emitSuspension cfg s l g e (i + 1) p).2 :=
      emitSuspension_edit s l g e _ (hlt p List.mem_cons_self) (hS p List.mem_cons_self)
    exact h1.trans (ih (i + 1) _ (fun q hq => (hlt q (List.mem_cons_of_mem _ hq)).trans_le h1.next_le)
      fun q hq => hS q (List.mem_cons_of_mem _ hq))

theorem buildStateMachine_edit (co : Coroutine) (pts : List Point) (progress : ℕ) (hlt : ∀ p ∈ pts, p.bb < cfg.next)
    (hS : ∀ p ∈ pts, S p.bb) : Edit u S cfg (buildStateMachine cfg co pts progress).2 := by
  have h1 : Edit u S cfg cfg.newStateLocal.2.newStateLocal.2.newBlock.2.newBlock.2 := (((Edit.refl.newLocal).newLocal).newBlock).newBlock
  have hnext : cfg.next ≤ cfg.newStateLocal.2.newStateLocal.2.newBlock.2.newBlock.2.next := h1.next_le
  simp only [buildStateMachine]
  split
  · exact (((h1.trans (emitDone_edit _ _ _)).newLocal).emit).setTerm.setTerm
  · exact ((h1.trans (emitSuspensions_edit _ _ _ _ pts 0 _ (fun p hp => (hlt p hp).trans_le hnext) hS)).trans
      (emitDone_edit _ _ _)).setTerm.setTerm

/-- The machines split the blocks of their points only. -/
theorem buildMachines_edit (progress : ℕ) (cs : List (Coroutine × List Point)) (cfg : Body U)
    (hlt : ∀ x ∈ cs, ∀ p ∈ x.2, p.bb < cfg.next) (hS : ∀ x ∈ cs, ∀ p ∈ x.2, S p.bb) :
    Edit u S cfg (buildMachines progress cs cfg).2 := by
  induction cs generalizing cfg with
  | nil => exact .refl
  | cons x cs ih =>
    have h1 : Edit u S cfg (buildStateMachine cfg x.1 x.2 progress).2 :=
      buildStateMachine_edit x.1 x.2 progress (hlt x List.mem_cons_self) (hS x List.mem_cons_self)
    exact h1.trans (ih _ (fun y hy p hp => (hlt y (List.mem_cons_of_mem _ hy) p hp).trans_le h1.next_le)
      fun y hy => hS y (List.mem_cons_of_mem _ hy))

/-! ## The edits of the executors -/

/-- Splitting a block after its last statement moves no statement. -/
theorem splitLast_edit {a : Body U} {b : ℕ} (h : Edit u S cfg a) (hb : b < a.next) :
    Edit u S cfg (a.splitAfter b (a.statementCount b - 1)).2 := by
  have hdrop : (a.stmts b).drop (a.statementCount b - 1 + 1) = [] :=
    List.drop_eq_nil_of_le (show (a.stmts b).length ≤ (a.stmts b).length - 1 + 1 by omega)
  refine .set (.push h ?_) ⟨[], List.not_mem_nil, ?_⟩
  · rw [hdrop]
    exact List.not_mem_nil
  · simp only [List.append_nil, Cfg.stmts, Cfg.push_block, if_neg hb.ne]
    exact (List.take_sublist _ _).filterMap _

theorem regionExit_edit {r : Region} (hr : r.regionEnd.1 < cfg.next) : Edit u S cfg (regionExit cfg r).2 :=
  (splitLast_edit (Edit.refl.newBlock) (hr.trans (Nat.lt_succ_self _))).setTerm

theorem emitTurn_edit (allDone progress check : ℕ) (m : Machine) : Edit u S cfg (emitTurn cfg allDone progress check m).2 :=
  (((((((((((((((((Edit.refl.newLocal).emit).newBlock).setTerm).setTerm).newLocal).emit).newBlock).newBlock).newBlock).setTerm.emit).setTerm).emit).emit).newLocal).emit).newBlock.setTerm.emit).setTerm

theorem emitPollOnce_edit (allDone check : ℕ) (m : Machine) : Edit u S cfg (emitPollOnce cfg allDone check m).2 :=
  ((((((((((((Edit.refl.newLocal).emit).newBlock).setTerm).setTerm).newLocal).emit).newBlock).newBlock).newBlock).setTerm.emit).setTerm.emit).setTerm

theorem emitStuck_edit {hooks : Hooks U} (hu : hooks.deadlock ≠ some u) (stuck top : ℕ) :
    Edit u S cfg (emitStuck hooks cfg stuck top) := by
  cases hd : hooks.deadlock with
  | none =>
    have heq : emitStuck hooks cfg stuck top = cfg.setGoto stuck top := by simp [emitStuck, emitDeadlock, hd]
    rw [heq]
    exact Edit.refl.setTerm
  | some v =>
    have heq : emitStuck hooks cfg stuck top = (cfg.emit stuck (.host v)).setTerm stuck .unreachable := by
      simp [emitStuck, emitDeadlock, hd]
    rw [heq]
    exact (Edit.refl.report fun hv => hu (by rw [hd, hv])).setTerm

theorem foldl_edit {α : Type} (f : Body U → α → Body U) (hf : ∀ cfg x, Edit u S cfg (f cfg x)) (xs : List α) (cfg : Body U) :
    Edit u S cfg (xs.foldl f cfg) := by
  induction xs generalizing cfg with
  | nil => exact .refl
  | cons x xs ih => exact (hf cfg x).trans (ih _)

theorem newBlocks_edit (count : ℕ) (cfg : Body U) : Edit u S cfg (newBlocks count cfg).2 := by
  induction count generalizing cfg with
  | zero => exact .refl
  | succ count ih => exact Edit.refl.newBlock.trans (ih _)

theorem newStateLocals_edit (count : ℕ) (cfg : Body U) : Edit u S cfg (newStateLocals count cfg).2 := by
  induction count generalizing cfg with
  | zero => exact .refl
  | succ count ih => exact Edit.refl.newLocal.trans (ih _)

theorem newSites_edit (bands : List (List ℕ)) (cfg : Body U) : Edit u S cfg (newSites bands cfg).2 := by
  induction bands generalizing cfg with
  | nil => exact .refl
  | cons band bands ih => exact (newBlocks_edit _ cfg).trans (ih _)

theorem emitMember_edit (top last sweep n k : ℕ) (site : ScanSite) (m : Machine) :
    Edit u S cfg (emitMember cfg top last sweep n k site m) :=
  ((((((((((((((((Edit.refl.newBlock).newBlock).setTerm).setTerm.emit).newLocal).emit).setTerm).emit).newLocal).emit).setTerm).newBlock).setTerm).newLocal).emit).newBlock.newBlock.setTerm.emit).setTerm.setTerm

theorem emitMembers_edit (top last sweep n k : ℕ) (members : List (ScanSite × Machine)) (cfg : Body U) :
    Edit u S cfg (emitMembers top last sweep n k members cfg) := by
  induction members generalizing k cfg with
  | nil => exact .refl
  | cons x members ih => exact (emitMember_edit _ _ _ _ _ _ _).trans (ih (k + 1) _)

theorem emitBands_edit (top checkDone : ℕ) (bands : List Band) (cfg : Body U) : Edit u S cfg (emitBands top checkDone bands cfg) := by
  induction bands generalizing cfg with
  | nil => exact .refl
  | cons band bands ih => exact (emitMembers_edit _ _ _ _ _ _ _).trans (ih _)

theorem emitChecks_edit (noProgress check : ℕ) (ms : List Machine) (cfg : Body U) :
    Edit u S cfg (emitChecks noProgress check ms cfg).2 := by
  induction ms generalizing check cfg with
  | nil => exact .refl
  | cons m ms ih => exact ((((Edit.refl.newLocal).emit).newBlock).setTerm).trans (ih _ _)

theorem eraseMarkers_edit (r : Region) : Edit u S cfg (eraseMarkers cfg r) :=
  (((foldl_edit _ (fun _ _ => (Edit.refl.replace).replace) r.coroutines cfg).replace).replace)

/-- The last step splits the block of `region_begin`. -/
theorem finishRegion_edit {r : Region} (ms : List Machine) (entry : ℕ) (hr : r.regionBegin.1 < cfg.next) (hS : S r.regionBegin.1) :
    Edit u S cfg (finishRegion cfg r ms entry) := by
  have h1 : Edit u S cfg (eraseMarkers cfg r) := eraseMarkers_edit r
  have h2 := h1.split (i := r.regionBegin.2) (hr.trans_le h1.next_le) (.inl hS)
  have h3 : ∀ a : Body U, Edit u S a (retargetFirst a r ms (eraseMarkers cfg r).next) := fun a => by
    cases ms with
    | nil => exact .refl
    | cons m ms =>
      cases hc : r.coroutines with
      | nil =>
        simp only [retargetFirst, hc]
        exact .refl
      | cons co cos =>
        simp only [retargetFirst, hc]
        split
        · exact Edit.refl.setTerm
        · exact .refl
  exact ((h2.trans (h3 _)).trans (foldl_edit _ (fun _ _ => Edit.refl.emit) ms _)).setTerm

end

end Krio.Stackless
