import Mathlib.Tactic.Common
import Mathlib.Tactic.Ring
import Krio.Stackless.Executors
import Krio.Stackless.Edits
import Krio.Stackless.Machines

/-! What the executors leave in the body: the blocks of a round-robin loop and of a one-shot poll, and what
`finish_region` does to the blocks that hold the markers. -/

namespace Krio.Stackless

variable {U : Type}

/-! ## Erasing the markers -/

/-- Where the markers of a region stand. -/
def Region.markers (r : Region) : List Pos :=
  r.coroutines.flatMap (fun c => [c.begin, c.last]) ++ [r.regionBegin, r.regionEnd]

/-- The statements of block `b`, those at `ps` turned into no-ops. -/
def blank (ps : List Pos) (b : ℕ) (l : List (Stmt U)) : List (Stmt U) :=
  l.mapIdx fun i s => if (b, i) ∈ ps then .nop else s

/-- Turn the statements at `ps` into no-ops. -/
def eraseAll (cfg : Body U) (ps : List Pos) : Body U := ps.foldl (fun cfg p => cfg.replace p.1 p.2 .nop) cfg

theorem blank_getElem? (ps : List Pos) (b i : ℕ) (l : List (Stmt U)) :
    (blank ps b l)[i]? = l[i]?.map fun s => if (b, i) ∈ ps then .nop else s := by
  simp [blank, List.getElem?_mapIdx]

@[simp] theorem blank_length (ps : List Pos) (b : ℕ) (l : List (Stmt U)) : (blank ps b l).length = l.length := by
  simp [blank]

theorem blank_of_not_mem {ps : List Pos} {b : ℕ} {l : List (Stmt U)} (h : ∀ i, (b, i) ∉ ps) : blank ps b l = l := by
  refine List.ext_getElem? fun i => ?_
  rw [blank_getElem?]
  simp [h]

theorem eraseAll_block (cfg : Body U) (ps : List Pos) (c : ℕ) :
    (eraseAll cfg ps).block c = ⟨blank ps c (cfg.stmts c), cfg.term c⟩ := by
  induction ps generalizing cfg with
  | nil => simp [eraseAll, blank_of_not_mem, Cfg.stmts, Cfg.term]
  | cons p ps ih =>
    have hone : ∀ c, (cfg.replace p.1 p.2 .nop).block c =
        if c = p.1 then ⟨(cfg.stmts p.1).set p.2 .nop, cfg.term p.1⟩ else cfg.block c := by
      intro c
      by_cases hc : c = p.1 <;> simp [Cfg.replace, Cfg.term, hc]
    change (eraseAll (cfg.replace p.1 p.2 .nop) ps).block c = _
    rw [ih, Cfg.stmts, Cfg.term, hone]
    by_cases hc : c = p.1
    · subst hc
      rw [if_pos rfl]
      congr 1
      refine List.ext_getElem? fun i => ?_
      rw [blank_getElem?, blank_getElem?, List.getElem?_set]
      by_cases hi : p.2 = i
      · subst hi
        by_cases hlen : p.2 < (cfg.stmts p.1).length
        · simp [hlen]
        · simp [hlen]
      · have hne : (p.1, i) ≠ p := by
          intro heq
          exact hi (congrArg Prod.snd heq).symm
        simp [hi, hne]
    · have hne : ∀ i, (c, i) ≠ p := by
        intro i heq
        exact hc (congrArg Prod.fst heq)
      simp [hc, blank, hne, Cfg.stmts, Cfg.term]

theorem eraseAll_next (cfg : Body U) (ps : List Pos) :
    (eraseAll cfg ps).next = cfg.next ∧ (eraseAll cfg ps).ids = cfg.ids ∧ (eraseAll cfg ps).locals = cfg.locals := by
  induction ps generalizing cfg with
  | nil => exact ⟨rfl, rfl, rfl⟩
  | cons p ps ih => exact ih (cfg.replace p.1 p.2 .nop)

theorem eraseMarkers_eq (cfg : Body U) (r : Region) : eraseMarkers cfg r = eraseAll cfg r.markers := by
  simp only [eraseMarkers, eraseAll, Region.markers, List.foldl_append, List.foldl_flatMap, List.foldl_cons, List.foldl_nil]

/-! ## Finishing a region -/

/-- The writes that initialise the states. -/
def stateInits (machines : List Machine) : List (Stmt U) := machines.map fun m => .assignI64 m.stateLocal 0

/-- Emitting a list of statements at one block. -/
theorem emitAll_block {α : Type} (f : α → Stmt U) (xs : List α) (cfg : Body U) (b c : ℕ) :
    let cfg' := xs.foldl (fun cfg x => cfg.emit b (f x)) cfg
    cfg'.next = cfg.next ∧ cfg'.ids = cfg.ids ∧ cfg'.locals = cfg.locals ∧
      cfg'.block c = if c = b then ⟨cfg.stmts b ++ xs.map f, cfg.term b⟩ else cfg.block c := by
  induction xs generalizing cfg with
  | nil => by_cases hc : c = b <;> simp [hc, Cfg.stmts, Cfg.term]
  | cons x xs ih =>
    intro cfg'
    obtain ⟨hn, hi, hl, hb⟩ := ih (cfg.emit b (f x))
    refine ⟨hn, hi, hl, hb.trans ?_⟩
    by_cases hc : c = b <;> simp [hc, Cfg.emit, Cfg.stmts, Cfg.term]

/-- The terminator of the first dispatch after the lift of the first body. -/
def liftTerm (r : Region) (machines : List Machine) (newEntry c : ℕ) (t : Term) : Term :=
  match machines, r.coroutines with
  | m :: _, co :: _ => if co.begin.1 = r.regionBegin.1 ∧ c = m.dispatchBb then t.redirect co.begin.1 newEntry else t
  | _, _ => t

theorem retargetFirst_block (cfg : Body U) (r : Region) (machines : List Machine) (newEntry c : ℕ) :
    let cfg' := retargetFirst cfg r machines newEntry
    cfg'.next = cfg.next ∧ cfg'.ids = cfg.ids ∧ cfg'.locals = cfg.locals ∧
      cfg'.block c = ⟨cfg.stmts c, liftTerm r machines newEntry c (cfg.term c)⟩ := by
  intro cfg'
  cases hm : machines with
  | nil => simp [cfg', retargetFirst, liftTerm, hm, Cfg.stmts, Cfg.term]
  | cons m ms =>
    cases hr : r.coroutines with
    | nil => simp [cfg', retargetFirst, liftTerm, hm, hr, Cfg.stmts, Cfg.term]
    | cons co cos =>
      by_cases hb : co.begin.1 = r.regionBegin.1
      · by_cases hc : c = m.dispatchBb <;>
          simp [cfg', retargetFirst, liftTerm, hm, hr, hb, hc, Cfg.redirectTargets, Cfg.setTerm, Cfg.stmts, Cfg.term]
      · simp [cfg', retargetFirst, liftTerm, hm, hr, hb, Cfg.stmts, Cfg.term]

/-- `finish_region`, block by block. -/
theorem finishRegion_block (cfg : Body U) (r : Region) (machines : List Machine) (entry c : ℕ) :
    let cfg' := finishRegion cfg r machines entry
    let head := blank r.markers r.regionBegin.1 (cfg.stmts r.regionBegin.1)
    cfg'.next = cfg.next + 1 ∧ cfg'.ids = cfg.ids ++ [cfg.next] ∧ cfg'.locals = cfg.locals ∧
      cfg'.block c =
        if c = r.regionBegin.1 then ⟨head.take (r.regionBegin.2 + 1) ++ stateInits machines, .goto entry⟩
        else if c = cfg.next then
          ⟨head.drop (r.regionBegin.2 + 1), liftTerm r machines cfg.next c (cfg.term r.regionBegin.1)⟩
        else ⟨blank r.markers c (cfg.stmts c), liftTerm r machines cfg.next c (cfg.term c)⟩ := by
  intro cfg' head
  let e := eraseAll cfg r.markers
  obtain ⟨hen, hei, hel⟩ := eraseAll_next cfg r.markers
  let s := (e.splitAfter r.regionBegin.1 r.regionBegin.2).2
  let t := retargetFirst s r machines e.next
  let i := machines.foldl (fun cfg m => cfg.emit r.regionBegin.1 (.assignI64 m.stateLocal 0)) t
  have hcfg' : cfg' = i.setGoto r.regionBegin.1 entry := by
    simp only [cfg', finishRegion, eraseMarkers_eq]
    rfl
  have ht := retargetFirst_block s r machines e.next
  have hi := emitAll_block (fun m => .assignI64 m.stateLocal 0) machines t r.regionBegin.1
  have hblock : cfg'.block c = if c = r.regionBegin.1 then ⟨i.stmts c, .goto entry⟩ else i.block c := by
    by_cases hc : c = r.regionBegin.1 <;> simp [hcfg', Cfg.setGoto, Cfg.setTerm, Cfg.stmts, hc]
  have hsb : ∀ c, s.block c = if c = r.regionBegin.1 then ⟨head.take (r.regionBegin.2 + 1), .unreachable⟩
      else if c = cfg.next then ⟨head.drop (r.regionBegin.2 + 1), cfg.term r.regionBegin.1⟩
      else ⟨blank r.markers c (cfg.stmts c), cfg.term c⟩ := by
    intro c
    have hes : e.stmts r.regionBegin.1 = head := by rw [Cfg.stmts, eraseAll_block]
    have het : e.term r.regionBegin.1 = cfg.term r.regionBegin.1 := by rw [Cfg.term, eraseAll_block]
    simp only [s]
    rw [Cfg.splitAfter_block, hes, het, hen, eraseAll_block]
  refine ⟨?_, ?_, ?_, ?_⟩
  · rw [hcfg']
    exact (hi 0).1.trans ((ht 0).1.trans (congrArg (· + 1) hen))
  · rw [hcfg']
    refine (hi 0).2.1.trans ((ht 0).2.1.trans ?_)
    simp [s, Cfg.splitAfter, e, hei, hen]
  · rw [hcfg']
    exact (hi 0).2.2.1.trans ((ht 0).2.2.1.trans hel)
  · rw [hblock]
    by_cases hc : c = r.regionBegin.1
    · rw [if_pos hc, if_pos hc, Cfg.stmts, (hi c).2.2.2, if_pos hc, Cfg.stmts, (ht _).2.2.2, Cfg.stmts, hsb, if_pos rfl]
      rfl
    · rw [if_neg hc, if_neg hc, (hi c).2.2.2, if_neg hc, (ht c).2.2.2, Cfg.stmts, Cfg.term, hsb, if_neg hc, hen]
      by_cases hc' : c = cfg.next <;> simp [hc']


/-! ## One turn of the round-robin loop -/

section
variable (cfg : Body U) (ty : LocalTy)

@[simp] theorem newLocal_block : (cfg.newLocal ty).2.block = cfg.block := rfl
@[simp] theorem newLocal_next : (cfg.newLocal ty).2.next = cfg.next := rfl
@[simp] theorem newLocal_fst : (cfg.newLocal ty).1 = cfg.locals.length := rfl
@[simp] theorem newLocal_locals : (cfg.newLocal ty).2.locals = cfg.locals ++ [ty] := rfl
@[simp] theorem newLocal_ids : (cfg.newLocal ty).2.ids = cfg.ids := rfl

end

/-- The block `c` after a turn for `m` has been laid out at `check`. -/
def turnBlock (cfg : Body U) (allDone progress check : ℕ) (m : Machine) (c : ℕ) : Block (Stmt U) :=
  let l := cfg.locals.length
  let after := cfg.next
  if c = m.exitBb then ⟨cfg.stmts m.exitBb, .goto after⟩
  else if c = check then ⟨cfg.stmts check ++ [.eqCheckI64 l m.stateLocal doneState], .branch l after m.dispatchBb⟩
  else if c = after then ⟨[.eqCheckI64 (l + 1) m.pollResultLocal 0], .branch (l + 1) (after + 1) (after + 2)⟩
  else if c = after + 1 then ⟨[.assignI64 m.stateLocal doneState, .assignI64 progress 1], .goto (after + 3)⟩
  else if c = after + 2 then
    ⟨[.assignBool allDone false, .eqCheckI64 (l + 2) m.pollResultLocal pollBlocked], .branch (l + 2) (after + 3) (after + 4)⟩
  else if c = after + 3 then .fresh
  else if c = after + 4 then ⟨[.assignI64 progress 1], .goto (after + 3)⟩
  else cfg.block c

theorem emitTurn_block (cfg : Body U) (allDone progress check : ℕ) (m : Machine) (hc : check < cfg.next)
    (he : m.exitBb < cfg.next) (hne : check ≠ m.exitBb) :
    let out := emitTurn cfg allDone progress check m
    out.1 = cfg.next + 3 ∧ out.2.next = cfg.next + 5 ∧ out.2.ids = cfg.ids ++ List.range' cfg.next 5 ∧
      out.2.locals = cfg.locals ++ [.bool, .bool, .bool] ∧
      ∀ c, out.2.block c = turnBlock cfg allDone progress check m c := by
  intro out
  refine ⟨rfl, rfl, ?_, ?_, ?_⟩
  · simp [out, emitTurn, Cfg.newBoolLocal, Cfg.newBlock, Cfg.emit, Cfg.setBranch, Cfg.setGoto, Cfg.setTerm, List.range']
  · simp [out, emitTurn, Cfg.newBoolLocal, Cfg.newBlock, Cfg.emit, Cfg.setBranch, Cfg.setGoto, Cfg.setTerm]
  · intro c
    have hcn : check ≠ cfg.next := hc.ne
    have hen : m.exitBb ≠ cfg.next := he.ne
    simp only [out, emitTurn, Cfg.newBoolLocal, Cfg.newBlock, Cfg.emit, Cfg.setBranch, Cfg.setGoto, Cfg.setTerm,
      Cfg.stmts, Cfg.set_block, Cfg.push_block, Cfg.set_next, Cfg.push_next, newLocal_next, newLocal_block,
      newLocal_fst, newLocal_locals, Cfg.set_locals, Cfg.push_locals, List.length_append, List.length_singleton, turnBlock]
    by_cases h0 : c = m.exitBb
    · subst h0
      grind
    · grind [Block.fresh]


/-! ## A chain of turns -/

/-- The loop over the machines that both executors run after the first turn. -/
def emitChain (turn : Body U → ℕ → Machine → ℕ × Body U) : ℕ → List Machine → Body U → ℕ × Body U
  | currentBb, [], cfg => (currentBb, cfg)
  | currentBb, machine :: machines, cfg =>
    let (checkBb, cfg) := cfg.newBlock
    let cfg := cfg.setGoto currentBb checkBb
    let (currentBb, cfg) := turn cfg checkBb machine
    emitChain turn currentBb machines cfg

/-- The whole loop: the first turn checks at `topBb`. -/
def emitRound (turn : Body U → ℕ → Machine → ℕ × Body U) (topBb : ℕ) (machines : List Machine) (cfg : Body U) :
    ℕ × Body U :=
  match machines with
  | [] => (topBb, cfg)
  | machine :: machines =>
    let (currentBb, cfg) := turn cfg topBb machine
    emitChain turn currentBb machines cfg

theorem emitRound_edit {u : U} {S : ℕ → Prop} {turn : Body U → ℕ → Machine → ℕ × Body U}
    (hturn : ∀ cfg check m, Edit u S cfg (turn cfg check m).2) (top : ℕ) (ms : List Machine) (cfg : Body U) :
    Edit u S cfg (emitRound turn top ms cfg).2 := by
  have hchain : ∀ (ms : List Machine) (cur : ℕ) (cfg : Body U), Edit u S cfg (emitChain turn cur ms cfg).2 := by
    intro ms
    induction ms with
    | nil => exact fun _ _ => .refl
    | cons m ms ih => exact fun cur cfg => ((Edit.refl.newBlock).setTerm).trans ((hturn _ _ _).trans (ih _ _))
  cases ms with
  | nil => exact .refl
  | cons m ms => exact (hturn _ _ _).trans (hchain ms _ _)

theorem emitTurns_eq (allDone progress currentBb : ℕ) (machines : List Machine) (cfg : Body U) :
    emitTurns allDone progress currentBb machines cfg =
      emitChain (fun cfg checkBb m => emitTurn cfg allDone progress checkBb m) currentBb machines cfg := by
  induction machines generalizing currentBb cfg with
  | nil => rfl
  | cons m ms ih => exact ih _ _

theorem emitPollsOnce_eq (allDone currentBb : ℕ) (machines : List Machine) (cfg : Body U) :
    emitPollsOnce allDone currentBb machines cfg =
      emitChain (fun cfg checkBb m => emitPollOnce cfg allDone checkBb m) currentBb machines cfg := by
  induction machines generalizing currentBb cfg with
  | nil => rfl
  | cons m ms ih => exact ih _ _

/-- What is known of one turn: `size` blocks from `after` on, of which the fourth is where it ends, and `locs`
    locals. `T` says what the turn of a machine looks like; it depends on the turn's own blocks. -/
structure LaysTurn (turn : Body U → ℕ → Machine → ℕ × Body U) (size locs : ℕ)
    (T : Body U → Machine → List (Stmt U) → ℕ → ℕ → ℕ → Prop) : Prop where
  size_pos : 3 < size
  lays : ∀ (cfg : Body U) (check : ℕ) (m : Machine), check < cfg.next → m.exitBb < cfg.next → check ≠ m.exitBb →
    cfg.stmts m.exitBb = [] →
    let out := turn cfg check m
    out.1 = cfg.next + 3 ∧ out.2.next = cfg.next + size ∧ out.2.locals.length = cfg.locals.length + locs ∧
      out.2.block (cfg.next + 3) = .fresh ∧ Extends (fun c => c = check ∨ c = m.exitBb) cfg out.2 ∧
      T out.2 m (cfg.stmts check) check cfg.next cfg.locals.length
  stable : ∀ (cfg cfg' : Body U) (m : Machine) (lead : List (Stmt U)) (check after l : ℕ), T cfg m lead check after l →
    (∀ c, c = check ∨ c = m.exitBb ∨ (after ≤ c ∧ c < after + size ∧ c ≠ after + 3) → cfg'.block c = cfg.block c) →
    T cfg' m lead check after l

/-- Where the chain from `current` stands before turn `j`; the turns take `size + 1` blocks each from `n` on. -/
def chainAt (current n size j : ℕ) : ℕ :=
  match j with
  | 0 => current
  | j + 1 => n + (size + 1) * j + 4

theorem emitChain_spec {turn : Body U → ℕ → Machine → ℕ × Body U} {size locs : ℕ}
    {T : Body U → Machine → List (Stmt U) → ℕ → ℕ → ℕ → Prop} (hT : LaysTurn turn size locs T)
    (machines : List Machine) (current : ℕ) (cfg : Body U) (hc : current < cfg.next) (hcf : cfg.block current = .fresh)
    (he : ∀ m ∈ machines, m.exitBb < cfg.next ∧ m.exitBb ≠ current ∧ cfg.block m.exitBb = .fresh)
    (hnodup : (machines.map (·.exitBb)).Nodup) :
    let out := emitChain turn current machines cfg
    let n := cfg.next
    out.1 = chainAt current n size machines.length ∧ out.2.next = n + (size + 1) * machines.length ∧
      out.2.locals.length = cfg.locals.length + locs * machines.length ∧
      (∀ j < machines.length, out.2.block (chainAt current n size j) = ⟨[], .goto (n + (size + 1) * j)⟩) ∧
      out.2.block out.1 = .fresh ∧
      (∀ (j : ℕ) (m : Machine), machines[j]? = some m →
        T out.2 m [] (n + (size + 1) * j) (n + (size + 1) * j + 1) (cfg.locals.length + locs * j)) ∧
      Extends (fun c => c = current ∨ ∃ m ∈ machines, c = m.exitBb) cfg out.2 := by
  induction machines generalizing current cfg with
  | nil =>
    refine ⟨rfl, rfl, rfl, fun j hj => absurd hj (Nat.not_lt_zero _), hcf, fun j m h => by simp at h, Extends.refl⟩
  | cons m ms ih =>
    intro out n
    have hsize := hT.size_pos
    obtain ⟨hen, henc, hef⟩ := he m List.mem_cons_self
    rw [List.map_cons, List.nodup_cons] at hnodup
    let a := (cfg.newBlock.2).setGoto current cfg.next
    have hanext : a.next = cfg.next + 1 := rfl
    have halocals : a.locals = cfg.locals := rfl
    have haext : Extends (· = current) cfg a := Extends.push.trans Extends.set_self
    have hacheck : a.block cfg.next = .fresh := by simp [a, Cfg.setGoto, Cfg.setTerm, hc.ne', Cfg.newBlock]
    have hacur : a.block current = ⟨[], .goto cfg.next⟩ := by
      simp [a, Cfg.setGoto, Cfg.setTerm, Cfg.newBlock, hc.ne, hcf, Block.fresh]
    have hexits : ∀ x ∈ ms, x.exitBb < cfg.next ∧ x.exitBb ≠ current ∧ cfg.block x.exitBb = .fresh :=
      fun x hx => he x (List.mem_cons_of_mem _ hx)
    have haex : a.stmts m.exitBb = [] := by
      rw [Cfg.stmts, haext.same _ hen henc, hef]
      rfl
    obtain ⟨h1, h2, h3, h4, hext, hturn⟩ := hT.lays a cfg.next m (Nat.lt_succ_self _) (hen.trans (Nat.lt_succ_self _))
      hen.ne' haex
    have hout : out = emitChain turn (turn a cfg.next m).1 ms (turn a cfg.next m).2 := rfl
    generalize turn a cfg.next m = one at h1 h2 h3 h4 hext hturn hout
    rw [hanext] at h1 h2 h4 hturn
    rw [halocals] at h3 hturn
    have hone : ∀ x ∈ ms, x.exitBb ≠ m.exitBb := by
      intro x hx heq
      exact hnodup.1 (List.mem_map.mpr ⟨x, hx, heq⟩)
    have hkeep : ∀ c < cfg.next, c ≠ current → c ≠ m.exitBb → one.2.block c = cfg.block c := by
      intro c hcn hcc hce
      rw [hext.same c (by omega) (by rintro (rfl | rfl) <;> omega), haext.same c hcn hcc]
    obtain ⟨i1, i2, i3, i4, i5, i6, i7⟩ := ih one.1 one.2 (by omega) (by rw [h1]; exact h4)
      (by
        intro x hx
        obtain ⟨hx1, hx2, hx3⟩ := hexits x hx
        exact ⟨by omega, by omega, by rw [hkeep _ hx1 hx2 (hone x hx), hx3]⟩)
      hnodup.2
    have hstart : ∀ j, chainAt one.1 one.2.next size j = chainAt current n size (j + 1) := by
      intro j
      cases j with
      | zero =>
        simp only [chainAt, h1, n]
        ring
      | succ j =>
        simp only [chainAt, h2, n]
        ring
    have hn : ∀ j, one.2.next + (size + 1) * j = n + (size + 1) * (j + 1) := by
      intro j
      simp only [h2, n]
      ring
    rw [← hout] at i1 i2 i3 i4 i5 i6 i7
    have hkept : ∀ c < one.2.next, c ≠ one.1 → (∀ x ∈ ms, c ≠ x.exitBb) → out.2.block c = one.2.block c := by
      intro c hcn hc1 hcx
      refine i7.same c hcn ?_
      rintro (heq | ⟨x, hx, heq⟩)
      · exact hc1 heq
      · exact hcx x hx heq
    have hcx : ∀ x ∈ ms, current ≠ x.exitBb := fun x hx => (hexits x hx).2.1.symm
    refine ⟨by rw [i1, hstart]; rfl, by rw [i2, hn]; rfl, ?_, ?_, i5, ?_, ?_⟩
    · rw [i3, h3, List.length_cons]
      ring
    · intro j hj
      cases j with
      | zero =>
        change out.2.block current = ⟨[], .goto (n + (size + 1) * 0)⟩
        rw [hkept _ (by omega) (by omega) hcx, hext.same _ (by omega) (by rintro (h | h) <;> omega), hacur]
        rfl
      | succ j =>
        rw [← hstart, ← hn]
        exact i4 j (Nat.lt_of_succ_lt_succ hj)
    · intro j x hx
      cases j with
      | zero =>
        obtain rfl : m = x := Option.some.inj hx
        have hlead : a.stmts cfg.next = [] := congrArg Block.stmts hacheck
        rw [hlead] at hturn
        refine hT.stable one.2 out.2 m [] _ _ _ hturn ?_
        intro c hcc
        have hlt : c < one.2.next := by rcases hcc with h | h | h <;> omega
        refine hkept c hlt (by rcases hcc with h | h | h <;> omega) ?_
        intro y hy heq
        obtain ⟨hy1, -, -⟩ := hexits y hy
        rcases hcc with h | h | h
        · omega
        · exact hone y hy (heq.symm.trans h)
        · omega
      | succ j =>
        have h := i6 j x hx
        rw [hn, h3, show cfg.locals.length + locs + locs * j = cfg.locals.length + locs * (j + 1) by ring] at h
        exact h
    · have h12 : Extends (fun c => c = current ∨ ∃ x ∈ m :: ms, c = x.exitBb) cfg one.2 := by
        refine (haext.mono fun c _ h => .inl h).trans_new hext ?_
        rintro c hcn (h | h)
        · omega
        · exact .inr ⟨m, List.mem_cons_self, h⟩
      refine h12.trans_new i7 ?_
      rintro c hcn (h | ⟨x, hx, h⟩)
      · omega
      · exact .inr ⟨x, List.mem_cons_of_mem _ hx, h⟩


/-- Where turn `k` checks, and its first block; the turns take `size + 1` blocks each, the first one less. -/
def roundCheck (top n size : ℕ) : ℕ → ℕ
  | 0 => top
  | k + 1 => n + size + (size + 1) * k

def roundAfter (n size k : ℕ) : ℕ := n + (size + 1) * k

theorem emitRound_spec {turn : Body U → ℕ → Machine → ℕ × Body U} {size locs : ℕ}
    {T : Body U → Machine → List (Stmt U) → ℕ → ℕ → ℕ → Prop} (hT : LaysTurn turn size locs T)
    (machines : List Machine) (hne : machines ≠ []) (top : ℕ) (cfg : Body U) (hc : top < cfg.next)
    (he : ∀ m ∈ machines, m.exitBb < cfg.next ∧ m.exitBb ≠ top ∧ cfg.block m.exitBb = .fresh)
    (hnodup : (machines.map (·.exitBb)).Nodup) :
    let out := emitRound turn top machines cfg
    let n := cfg.next
    out.1 = roundAfter n size (machines.length - 1) + 3 ∧
      out.2.next + 1 = n + (size + 1) * machines.length ∧
      out.2.locals.length = cfg.locals.length + locs * machines.length ∧
      (∀ k, k + 1 < machines.length → out.2.block (roundAfter n size k + 3) = ⟨[], .goto (roundCheck top n size (k + 1))⟩) ∧
      out.2.block out.1 = .fresh ∧
      (∀ (k : ℕ) (m : Machine), machines[k]? = some m → T out.2 m (if k = 0 then cfg.stmts top else [])
        (roundCheck top n size k) (roundAfter n size k) (cfg.locals.length + locs * k)) ∧
      Extends (fun c => c = top ∨ ∃ m ∈ machines, c = m.exitBb) cfg out.2 := by
  intro out n
  cases machines with
  | nil => exact absurd rfl hne
  | cons m ms =>
    have hsize := hT.size_pos
    obtain ⟨hen, hent, hef⟩ := he m List.mem_cons_self
    rw [List.map_cons, List.nodup_cons] at hnodup
    have hex : cfg.stmts m.exitBb = [] := congrArg Block.stmts hef
    obtain ⟨h1, h2, h3, h4, hext, hturn⟩ := hT.lays cfg top m hc hen hent.symm hex
    have hout : out = emitChain turn (turn cfg top m).1 ms (turn cfg top m).2 := rfl
    generalize turn cfg top m = one at h1 h2 h3 h4 hext hturn hout
    have hone : ∀ x ∈ ms, x.exitBb ≠ m.exitBb := by
      intro x hx heq
      exact hnodup.1 (List.mem_map.mpr ⟨x, hx, heq⟩)
    have hexits : ∀ x ∈ ms, x.exitBb < one.2.next ∧ x.exitBb ≠ one.1 ∧ one.2.block x.exitBb = .fresh := by
      intro x hx
      obtain ⟨hx1, hx2, hx3⟩ := he x (List.mem_cons_of_mem _ hx)
      refine ⟨by omega, by omega, ?_⟩
      rw [hext.same _ hx1 (by rintro (h | h); exacts [hx2 h, hone x hx h]), hx3]
    obtain ⟨i1, i2, i3, i4, i5, i6, i7⟩ := emitChain_spec hT ms one.1 one.2 (by omega) (by rw [h1]; exact h4) hexits hnodup.2
    rw [← hout] at i1 i2 i3 i4 i5 i6 i7
    have hat : ∀ j, chainAt one.1 one.2.next size j = roundAfter n size j + 3 := by
      intro j
      cases j with
      | zero =>
        simp only [chainAt, roundAfter, h1, n]
        ring
      | succ j =>
        simp only [chainAt, roundAfter, h2, n]
        ring
    have hcheck : ∀ j, one.2.next + (size + 1) * j = roundCheck top n size (j + 1) := fun j => by simp only [h2, roundCheck, n]
    refine ⟨by rw [i1, hat]; rfl, ?_, ?_, ?_, i5, ?_, ?_⟩
    · rw [i2, h2, List.length_cons]
      ring
    · rw [i3, h3, List.length_cons]
      ring
    · intro k hk
      rw [← hat, ← hcheck]
      exact i4 k (Nat.lt_of_succ_lt_succ hk)
    · intro k x hx
      cases k with
      | zero =>
        obtain rfl : m = x := Option.some.inj hx
        refine hT.stable one.2 out.2 m _ _ _ _ hturn ?_
        intro c hcc
        have hlt : c < one.2.next := by
          simp only [roundCheck, roundAfter] at hcc
          rcases hcc with h | h | h <;> omega
        refine i7.same c hlt ?_
        simp only [roundCheck, roundAfter] at hcc
        rintro (heq | ⟨y, hy, heq⟩)
        · rcases hcc with h | h | h <;> omega
        · obtain ⟨hy1, hy2, -⟩ := he y (List.mem_cons_of_mem _ hy)
          rcases hcc with h | h | h
          · exact hy2 (heq.symm.trans h)
          · exact hone y hy (heq.symm.trans h)
          · omega
      | succ k =>
        have h := i6 k x hx
        rw [hcheck, h3, show cfg.locals.length + locs + locs * k = cfg.locals.length + locs * (k + 1) by ring] at h
        have hafter : roundCheck top n size (k + 1) + 1 = roundAfter n size (k + 1) := by
          simp only [roundCheck, roundAfter]
          ring
        rw [hafter] at h
        exact h
    · refine (hext.mono ?_).trans_new i7 ?_
      · rintro c _ (h | h)
        · exact .inl h
        · exact .inr ⟨m, List.mem_cons_self, h⟩
      · rintro c hcn (h | ⟨x, hx, h⟩)
        · omega
        · exact .inr ⟨x, List.mem_cons_of_mem _ hx, h⟩

/-! ## The turns of the two executors -/

/-- A turn of the round-robin loop in the body: it checks at `check` after the statements `lead`, its other
    blocks are the ones from `after` on, its locals those from `l` on. -/
structure Turn (allDone progress : ℕ) (cfg : Body U) (m : Machine) (lead : List (Stmt U)) (check after l : ℕ) : Prop where
  check : cfg.block check = ⟨lead ++ [.eqCheckI64 l m.stateLocal doneState], .branch l after m.dispatchBb⟩
  exit : cfg.block m.exitBb = ⟨[], .goto after⟩
  polled : cfg.block after = ⟨[.eqCheckI64 (l + 1) m.pollResultLocal 0], .branch (l + 1) (after + 1) (after + 2)⟩
  markDone : cfg.block (after + 1) = ⟨[.assignI64 m.stateLocal doneState, .assignI64 progress 1], .goto (after + 3)⟩
  markPending : cfg.block (after + 2) = ⟨[.assignBool allDone false, .eqCheckI64 (l + 2) m.pollResultLocal pollBlocked],
    .branch (l + 2) (after + 3) (after + 4)⟩
  ran : cfg.block (after + 4) = ⟨[.assignI64 progress 1], .goto (after + 3)⟩

theorem turn_lays (allDone progress : ℕ) :
    LaysTurn (U := U) (fun cfg checkBb m => emitTurn cfg allDone progress checkBb m) 5 3 (Turn allDone progress) where
  size_pos := by decide
  lays cfg check m hc he hne hex := by
    intro out
    obtain ⟨h1, h2, h3, h4, hblock⟩ := emitTurn_block cfg allDone progress check m hc he hne
    have hlen : out.2.locals.length = cfg.locals.length + 3 := by
      rw [h4]
      simp
    refine ⟨h1, h2, hlen, ?_, ⟨Nat.le.intro h2.symm, Nat.le.intro hlen.symm, ?_, ?_⟩, ⟨?_, ?_, ?_, ?_, ?_, ?_⟩⟩
    · rw [hblock]
      grind [turnBlock]
    · rw [h3, h2]
      simp
    · intro c hcn hT
      rw [hblock]
      grind [turnBlock]
    all_goals
      rw [hblock]
      grind [turnBlock]
  stable cfg cfg' m lead check after l h hsame := by
    refine ⟨?_, ?_, ?_, ?_, ?_, ?_⟩
    · rw [hsame _ (.inl rfl), h.check]
    · rw [hsame _ (.inr (.inl rfl)), h.exit]
    · rw [hsame _ (by omega), h.polled]
    · rw [hsame _ (by omega), h.markDone]
    · rw [hsame _ (by omega), h.markPending]
    · rw [hsame _ (by omega), h.ran]

/-- The block `c` after a one-shot turn for `m` has been laid out at `check`. -/
def pollOnceBlock (cfg : Body U) (allDone check : ℕ) (m : Machine) (c : ℕ) : Block (Stmt U) :=
  let l := cfg.locals.length
  let after := cfg.next
  if c = m.exitBb then ⟨cfg.stmts m.exitBb, .goto after⟩
  else if c = check then ⟨cfg.stmts check ++ [.eqCheckI64 l m.stateLocal doneState], .branch l after m.dispatchBb⟩
  else if c = after then ⟨[.eqCheckI64 (l + 1) m.pollResultLocal 0], .branch (l + 1) (after + 1) (after + 2)⟩
  else if c = after + 1 then ⟨[.assignI64 m.stateLocal doneState], .goto (after + 3)⟩
  else if c = after + 2 then ⟨[.assignBool allDone false], .goto (after + 3)⟩
  else if c = after + 3 then .fresh
  else cfg.block c

theorem emitPollOnce_block (cfg : Body U) (allDone check : ℕ) (m : Machine) (hc : check < cfg.next)
    (he : m.exitBb < cfg.next) (hne : check ≠ m.exitBb) :
    let out := emitPollOnce cfg allDone check m
    out.1 = cfg.next + 3 ∧ out.2.next = cfg.next + 4 ∧ out.2.ids = cfg.ids ++ List.range' cfg.next 4 ∧
      out.2.locals = cfg.locals ++ [.bool, .bool] ∧ ∀ c, out.2.block c = pollOnceBlock cfg allDone check m c := by
  intro out
  refine ⟨rfl, rfl, ?_, ?_, ?_⟩
  · simp [out, emitPollOnce, Cfg.newBoolLocal, Cfg.newBlock, Cfg.emit, Cfg.setBranch, Cfg.setGoto, Cfg.setTerm, List.range']
  · simp [out, emitPollOnce, Cfg.newBoolLocal, Cfg.newBlock, Cfg.emit, Cfg.setBranch, Cfg.setGoto, Cfg.setTerm]
  · intro c
    have hcn : check ≠ cfg.next := hc.ne
    have hen : m.exitBb ≠ cfg.next := he.ne
    simp only [out, emitPollOnce, Cfg.newBoolLocal, Cfg.newBlock, Cfg.emit, Cfg.setBranch, Cfg.setGoto, Cfg.setTerm,
      Cfg.stmts, Cfg.set_block, Cfg.push_block, Cfg.set_next, Cfg.push_next, newLocal_next, newLocal_block,
      newLocal_fst, newLocal_locals, Cfg.set_locals, Cfg.push_locals, List.length_append, List.length_singleton, pollOnceBlock]
    grind [Block.fresh]

/-- A turn of the one-shot poll. -/
structure TurnOnce (allDone : ℕ) (cfg : Body U) (m : Machine) (lead : List (Stmt U)) (check after l : ℕ) : Prop where
  check : cfg.block check = ⟨lead ++ [.eqCheckI64 l m.stateLocal doneState], .branch l after m.dispatchBb⟩
  exit : cfg.block m.exitBb = ⟨[], .goto after⟩
  polled : cfg.block after = ⟨[.eqCheckI64 (l + 1) m.pollResultLocal 0], .branch (l + 1) (after + 1) (after + 2)⟩
  markDone : cfg.block (after + 1) = ⟨[.assignI64 m.stateLocal doneState], .goto (after + 3)⟩
  markPending : cfg.block (after + 2) = ⟨[.assignBool allDone false], .goto (after + 3)⟩

theorem turnOnce_lays (allDone : ℕ) :
    LaysTurn (U := U) (fun cfg checkBb m => emitPollOnce cfg allDone checkBb m) 4 2 (TurnOnce allDone) where
  size_pos := by decide
  lays cfg check m hc he hne hex := by
    intro out
    obtain ⟨h1, h2, h3, h4, hblock⟩ := emitPollOnce_block cfg allDone check m hc he hne
    have hlen : out.2.locals.length = cfg.locals.length + 2 := by
      rw [h4]
      simp
    refine ⟨h1, h2, hlen, ?_, ⟨Nat.le.intro h2.symm, Nat.le.intro hlen.symm, ?_, ?_⟩, ⟨?_, ?_, ?_, ?_, ?_⟩⟩
    · rw [hblock]
      grind [pollOnceBlock]
    · rw [h3, h2]
      simp
    · intro c hcn hT
      rw [hblock]
      grind [pollOnceBlock]
    all_goals
      rw [hblock]
      grind [pollOnceBlock]
  stable cfg cfg' m lead check after l h hsame := by
    refine ⟨?_, ?_, ?_, ?_, ?_⟩
    · rw [hsame _ (.inl rfl), h.check]
    · rw [hsame _ (.inr (.inl rfl)), h.exit]
    · rw [hsame _ (by omega), h.polled]
    · rw [hsame _ (by omega), h.markDone]
    · rw [hsame _ (by omega), h.markPending]


/-! ## The loops -/

/-- The leading statements of turn `k`. -/
def leadOf (lead : List (Stmt U)) (k : ℕ) : List (Stmt U) := if k = 0 then lead else []

/-- The block reached when a pass ran nothing. -/
def stuckBlock (hooks : Hooks U) (loopBb : ℕ) : Block (Stmt U) :=
  hooks.deadlock.elim ⟨[], .goto loopBb⟩ fun u => ⟨[.host u], .unreachable⟩

/-- The blocks of `build_cooperative_loop`: `top` and `exit` head the loop and its way out, the turns have their
    blocks from `n` on and their locals from `l` on; `t` is what follows the region. -/
structure CoopLoop (hooks : Hooks U) (cfg : Body U) (ms : List Machine) (progress allDone top exit post n l : ℕ)
    (t : Term) : Prop where
  turns : ∀ (k : ℕ) (m : Machine), ms[k]? = some m → Turn allDone progress cfg m
    (leadOf [.assignBool allDone true, .assignI64 progress 0] k) (roundCheck top n 5 k) (roundAfter n 5 k) (l + 3 * k)
  next : ∀ k, k + 1 < ms.length → cfg.block (roundAfter n 5 k + 3) = ⟨[], .goto (roundCheck top n 5 (k + 1))⟩
  final : cfg.block (roundAfter n 5 (ms.length - 1) + 3) = ⟨[], .branch allDone exit (n + 6 * ms.length - 1)⟩
  notDone : cfg.block (n + 6 * ms.length - 1) =
    ⟨[.eqCheckI64 (l + 3 * ms.length) progress 1], .branch (l + 3 * ms.length) top (n + 6 * ms.length)⟩
  stuck : cfg.block (n + 6 * ms.length) = stuckBlock hooks top
  exit : cfg.block exit = ⟨[], .goto post⟩
  post : cfg.block post = ⟨[], t⟩

/-- Splitting a block after its last statement moves nothing but the terminator. -/
theorem splitLast_block (cfg : Body U) (b c : ℕ) :
    ((cfg.splitAfter b (cfg.statementCount b - 1)).2).block c =
      if c = b then ⟨cfg.stmts b, .unreachable⟩ else if c = cfg.next then ⟨[], cfg.term b⟩ else cfg.block c := by
  rw [Cfg.splitAfter_block]
  have htake : (cfg.stmts b).take (cfg.statementCount b - 1 + 1) = cfg.stmts b :=
    List.take_of_length_le (by rw [Cfg.statementCount]; omega)
  have hdrop : (cfg.stmts b).drop (cfg.statementCount b - 1 + 1) = [] :=
    List.drop_eq_nil_of_le (by rw [Cfg.statementCount]; omega)
  rw [htake, hdrop]

theorem regionExit_block (cfg : Body U) (r : Region) (hr : r.regionEnd.1 < cfg.next) :
    let out := regionExit cfg r
    out.1 = cfg.next ∧ out.2.next = cfg.next + 2 ∧ out.2.locals = cfg.locals ∧
      Extends (· = r.regionEnd.1) cfg out.2 ∧
      ∀ x, out.2.block x = if x = cfg.next then ⟨[], .goto (cfg.next + 1)⟩
        else if x = r.regionEnd.1 then ⟨cfg.stmts r.regionEnd.1, .unreachable⟩
        else if x = cfg.next + 1 then ⟨[], cfg.term r.regionEnd.1⟩ else cfg.block x := by
  intro out
  let a := cfg.newBlock.2
  let s := a.splitAfter r.regionEnd.1 (a.statementCount r.regionEnd.1 - 1)
  have hout : out.2 = s.2.setGoto cfg.next (cfg.next + 1) := rfl
  have hold : a.block r.regionEnd.1 = cfg.block r.regionEnd.1 := by
    rw [Cfg.newBlock_block, if_neg hr.ne]
  have hs : ∀ x, s.2.block x = if x = r.regionEnd.1 then ⟨cfg.stmts r.regionEnd.1, .unreachable⟩
      else if x = cfg.next + 1 then ⟨[], cfg.term r.regionEnd.1⟩ else a.block x := by
    intro x
    have h := splitLast_block a r.regionEnd.1 x
    rw [Cfg.stmts, Cfg.term, hold] at h
    exact h
  refine ⟨rfl, rfl, rfl, ?_, ?_⟩
  · have hset : Extends (· = cfg.next) s.2 out.2 := hout ▸ Extends.set_self
    refine (Extends.push.trans (splitAfter_extends a _ _)).trans_new hset ?_
    intro c hc heq
    omega
  · intro x
    by_cases hx : x = cfg.next
    · simp [hout, hx, Cfg.setGoto, Cfg.setTerm, hs, hr.ne', a, Cfg.newBlock, Block.fresh]
    · simp [hout, hx, Cfg.setGoto, Cfg.setTerm, hs, a, Cfg.newBlock]

theorem emitStuck_eq {hooks : Hooks U} {cfg : Body U} {stuck top : ℕ} (h : cfg.block stuck = .fresh) :
    emitStuck hooks cfg stuck top = cfg.set stuck (stuckBlock hooks top) := by
  cases hd : hooks.deadlock with
  | none => simp [emitStuck, emitDeadlock, hd, Cfg.setGoto, Cfg.setTerm, stuckBlock, h, Block.fresh]
  | some u => simp [emitStuck, emitDeadlock, hd, Cfg.emit, Cfg.setTerm, stuckBlock, Cfg.stmts, h, Block.fresh, Cfg.set]

/-- The blocks that an executor adds are not exits of machines. -/
theorem ne_exit {cfg : Body U} {r : Region} {ms : List Machine}
    (he : ∀ m ∈ ms, m.exitBb < cfg.next ∧ m.exitBb ≠ r.regionEnd.1 ∧ cfg.block m.exitBb = .fresh) {y : ℕ}
    (hy : cfg.next ≤ y) : ∀ m ∈ ms, y ≠ m.exitBb := by
  intro m hm
  have hlt := (he m hm).1
  omega

/-- What the pass ends with: the way out, another pass, or `stuckBb`. -/
def emitPassEnd (hooks : Hooks U) (cfg : Body U) (currentBb allDoneLocal progress regionExitBb loopBb : ℕ) : Body U :=
  let (notDoneBb, cfg) := cfg.newBlock
  let cfg := cfg.setBranch currentBb allDoneLocal regionExitBb notDoneBb
  let (stuckBb, cfg) := cfg.newBlock
  let (progressed, cfg) := cfg.newBoolLocal
  let cfg := cfg.emit notDoneBb (.eqCheckI64 progressed progress 1)
  let cfg := cfg.setBranch notDoneBb progressed loopBb stuckBb
  emitStuck hooks cfg stuckBb loopBb

theorem emitPassEnd_edit {hooks : Hooks U} {u : U} {S : ℕ → Prop} (hu : hooks.deadlock ≠ some u) (cfg : Body U)
    (cur allDone progress exit top : ℕ) : Edit u S cfg (emitPassEnd hooks cfg cur allDone progress exit top) :=
  (((((Edit.refl.newBlock).setTerm).newBlock).newLocal).emit).setTerm.trans (emitStuck_edit hu _ _)

theorem emitPassEnd_block (hooks : Hooks U) (cfg : Body U) (cur allDone progress exit top : ℕ) (hc : cur < cfg.next)
    (hf : cfg.block cur = .fresh) :
    let cfg' := emitPassEnd hooks cfg cur allDone progress exit top
    cfg'.next = cfg.next + 2 ∧ cfg'.locals.length = cfg.locals.length + 1 ∧ Extends (· = cur) cfg cfg' ∧
      ∀ y, cfg'.block y = if y = cfg.next + 1 then stuckBlock hooks top
        else if y = cfg.next then
          ⟨[.eqCheckI64 cfg.locals.length progress 1], .branch cfg.locals.length top (cfg.next + 1)⟩
        else if y = cur then ⟨[], .branch allDone exit cfg.next⟩ else cfg.block y := by
  intro cfg'
  let a := (cfg.newBlock.2.setBranch cur allDone exit cfg.next).newBlock.2
  let b := ((a.newLocal .bool).2.emit cfg.next (.eqCheckI64 cfg.locals.length progress 1)).setBranch cfg.next
    cfg.locals.length top (cfg.next + 1)
  have hcfg' : cfg' = emitStuck hooks b (cfg.next + 1) top := rfl
  have hbn : b.next = cfg.next + 2 := rfl
  have hbl : b.locals = cfg.locals ++ [.bool] := rfl
  have hbe : Extends (· = cur) cfg b := by
    have h1 : Extends (· = cur) cfg a := Extends.push.trans (Extends.set_self.trans Extends.push)
    have h2 : Extends (· = cfg.next) a b := Extends.newLocal.trans (Extends.set_self.trans Extends.set_self)
    refine h1.trans_new h2 ?_
    intro c hc heq
    omega
  have hbb : ∀ y, b.block y = if y = cfg.next then
        ⟨[.eqCheckI64 cfg.locals.length progress 1], .branch cfg.locals.length top (cfg.next + 1)⟩
      else if y = cfg.next + 1 then .fresh else if y = cur then ⟨[], .branch allDone exit cfg.next⟩ else cfg.block y := by
    intro y
    have ha : ∀ y, a.block y = if y = cfg.next + 1 then .fresh
        else if y = cur then ⟨[], .branch allDone exit cfg.next⟩ else if y = cfg.next then .fresh else cfg.block y := by
      intro y
      by_cases hy : y = cur
      · simp [a, hy, Cfg.newBlock, Cfg.setBranch, Cfg.setTerm, hc.ne, hf, Block.fresh]
      · simp [a, hy, Cfg.newBlock, Cfg.setBranch, Cfg.setTerm]
    by_cases hy : y = cfg.next
    · simp [b, hy, Cfg.emit, Cfg.setBranch, Cfg.setTerm, Cfg.stmts, ha, hc.ne', Block.fresh]
    · simp [b, hy, Cfg.emit, Cfg.setBranch, Cfg.setTerm, ha]
  have hset : cfg' = b.set (cfg.next + 1) (stuckBlock hooks top) := by
    rw [hcfg']
    refine emitStuck_eq ?_
    rw [hbb, if_neg (by omega), if_pos rfl]
  rw [hset]
  refine ⟨rfl, ?_, ?_, ?_⟩
  · rw [Cfg.set_locals, hbl]
    simp
  · have h3 : Extends (· = cfg.next + 1) b (b.set (cfg.next + 1) (stuckBlock hooks top)) := Extends.set_self
    refine hbe.trans_new h3 ?_
    intro c hc heq
    omega
  · intro y
    rw [Cfg.set_block, hbb]
    by_cases hy : y = cfg.next <;> by_cases hy' : y = cfg.next + 1 <;> simp [hy, hy']

/-- `build_cooperative_loop` up to its turns: the head of the loop, its way out and what follows the region. -/
def coopHead (cfg : Body U) (r : Region) (progress : ℕ) : Body U :=
  let (loopBb, cfg) := cfg.newBlock
  let (_, cfg) := regionExit cfg r
  let (allDoneLocal, cfg) := cfg.newMutBoolLocal
  let cfg := cfg.emit loopBb (.assignBool allDoneLocal true)
  cfg.emit loopBb (.assignI64 progress 0)

/-- The turns behind it. -/
def coopTurns (cfg : Body U) (r : Region) (ms : List Machine) (progress : ℕ) : ℕ × Body U :=
  emitRound (fun b checkBb m => emitTurn b cfg.locals.length progress checkBb m) cfg.next ms (coopHead cfg r progress)

/-- What the head of the loop resets. -/
def coopLead (cfg : Body U) (progress : ℕ) : List (Stmt U) := [.assignBool cfg.locals.length true, .assignI64 progress 0]

/-- The loop in its pieces. -/
theorem buildCooperativeLoop_eq (hooks : Hooks U) (cfg : Body U) (r : Region) {ms : List Machine} {progress : ℕ}
    (hne : ms ≠ []) (hprog : ∀ m ∈ ms, m.progressLocal = progress) :
    buildCooperativeLoop hooks cfg r ms =
      let turns := coopTurns cfg r ms progress
      (⟨cfg.next, cfg.next + 1, turns.1, turns.2.next + 1⟩,
        finishRegion (emitPassEnd hooks turns.2 turns.1 cfg.locals.length progress (cfg.next + 1) cfg.next) r ms cfg.next) := by
  cases ms with
  | nil => exact absurd rfl hne
  | cons m rest =>
    have hround : coopTurns cfg r (m :: rest) progress =
        let first := emitTurn (coopHead cfg r progress) cfg.locals.length progress cfg.next m
        emitTurns cfg.locals.length progress first.1 rest first.2 := (emitTurns_eq _ _ _ _ _).symm
    rw [hround, ← hprog m List.mem_cons_self]
    rfl

section Cooperative
variable {cfg : Body U} {r : Region} {ms : List Machine} (progress : ℕ) (hr : r.regionEnd.1 < cfg.next)
include hr

theorem coopHead_edit {u : U} {S : ℕ → Prop} : Edit u S cfg (coopHead cfg r progress) :=
  (((Edit.refl.newBlock.trans (regionExit_edit (hr.trans (Nat.lt_succ_self _)))).newLocal).emit).emit

theorem coopHead_block :
    let n := cfg.next
    let head := coopHead cfg r progress
    head.next = n + 3 ∧ head.locals.length = cfg.locals.length + 1 ∧ Extends (· = r.regionEnd.1) cfg head ∧
      ∀ y, head.block y = if y = n then ⟨coopLead cfg progress, .unreachable⟩
        else if y = n + 1 then ⟨[], .goto (n + 2)⟩
        else if y = r.regionEnd.1 then ⟨cfg.stmts r.regionEnd.1, .unreachable⟩
        else if y = n + 2 then ⟨[], cfg.term r.regionEnd.1⟩ else cfg.block y := by
  intro n head
  obtain ⟨-, hx2, hx3, hx4, hx5⟩ := regionExit_block cfg.newBlock.2 r (hr.trans (Nat.lt_succ_self _))
  have hhead : head = (((regionExit cfg.newBlock.2 r).2.newLocal .boolMut).2.emit n
      (.assignBool (regionExit cfg.newBlock.2 r).2.locals.length true)).emit n (.assignI64 progress 0) := rfl
  rw [hx3] at hhead
  generalize regionExit cfg.newBlock.2 r = x at hx2 hx3 hx4 hx5 hhead
  rw [hhead]
  have hre : cfg.newBlock.2.stmts r.regionEnd.1 = cfg.stmts r.regionEnd.1 ∧
      cfg.newBlock.2.term r.regionEnd.1 = cfg.term r.regionEnd.1 := by
    simp [Cfg.stmts, Cfg.term, Cfg.newBlock_block, hr.ne]
  refine ⟨hx2, ?_, ?_, fun y => ?_⟩
  · change (x.2.locals ++ [LocalTy.boolMut]).length = _
    rw [hx3]
    exact List.length_append
  · have h1 : Extends (· = r.regionEnd.1) cfg x.2 := Extends.push.trans hx4
    refine h1.trans_new (Extends.newLocal.trans (Extends.set_self.trans Extends.set_self) : Extends (· = n) x.2 _) ?_
    intro y hy heq
    omega
  · have hb : x.2.block n = .fresh := by
      rw [hx5, Cfg.newBlock_next, if_neg (by omega), if_neg hr.ne', if_neg (by omega), Cfg.newBlock_block, if_pos rfl]
    by_cases hy : y = n
    · simp [hy, Cfg.emit, Cfg.stmts, hb, Block.fresh, coopLead]
      rfl
    · have hy' : ¬y = cfg.next := hy
      simp only [Cfg.emit, Cfg.set_block, hy, hy', if_false, newLocal_block, hx5, Cfg.newBlock_next, hre.1, hre.2,
        Cfg.newBlock_block]
      rfl

variable (hne : ms ≠ []) (he : ∀ m ∈ ms, m.exitBb < cfg.next ∧ m.exitBb ≠ r.regionEnd.1 ∧ cfg.block m.exitBb = .fresh)
  (hnodup : (ms.map (·.exitBb)).Nodup)
include hne he hnodup

theorem coopTurns_spec :
    let n := cfg.next
    let l := cfg.locals.length
    let turns := coopTurns cfg r ms progress
    turns.1 = roundAfter (n + 3) 5 (ms.length - 1) + 3 ∧ turns.2.next + 1 = n + 3 + 6 * ms.length ∧
      turns.2.locals.length = l + 1 + 3 * ms.length ∧ turns.2.block turns.1 = .fresh ∧
      (∀ k, k + 1 < ms.length →
        turns.2.block (roundAfter (n + 3) 5 k + 3) = ⟨[], .goto (roundCheck n (n + 3) 5 (k + 1))⟩) ∧
      (∀ (k : ℕ) (m : Machine), ms[k]? = some m → Turn l progress turns.2 m (leadOf (coopLead cfg progress) k)
        (roundCheck n (n + 3) 5 k) (roundAfter (n + 3) 5 k) (l + 1 + 3 * k)) ∧
      Extends (fun c => c = r.regionEnd.1 ∨ ∃ m ∈ ms, c = m.exitBb) cfg turns.2 ∧
      ∀ y < n + 3, y ≠ n → (∀ m ∈ ms, y ≠ m.exitBb) → turns.2.block y = (coopHead cfg r progress).block y := by
  intro n l turns
  obtain ⟨hn, hl, hext, hblock⟩ := coopHead_block progress hr
  have hexits : ∀ m ∈ ms, m.exitBb < (coopHead cfg r progress).next ∧ m.exitBb ≠ n ∧
      (coopHead cfg r progress).block m.exitBb = .fresh := by
    intro m hm
    obtain ⟨h1, h2, h3⟩ := he m hm
    exact ⟨by omega, h1.ne, (hext.same _ h1 h2).trans h3⟩
  obtain ⟨t1, t2, t3, t4, t5, t6, t7⟩ :=
    emitRound_spec (turn_lays l progress) ms hne n (coopHead cfg r progress) (by omega) hexits hnodup
  change turns.1 = _ at t1
  rw [hn] at t1 t2 t4 t6
  rw [hl] at t3 t6
  have hlead : (coopHead cfg r progress).stmts n = coopLead cfg progress := by rw [Cfg.stmts, hblock, if_pos rfl]
  rw [hlead] at t6
  refine ⟨t1, t2, t3, t5, t4, t6, ?_, fun y hy hne' hye => t7.same y (hn ▸ hy) ?_⟩
  · refine (hext.mono fun c _ h => .inl h).trans_new t7 ?_
    rintro y hy (h | h)
    · exact absurd h hy.ne
    · exact .inr h
  · rintro (h | ⟨m, hm, h⟩)
    · exact hne' h
    · exact hye m hm h

/-- The pass after its end is laid out. -/
theorem coopLoop_of_turns (hooks : Hooks U) :
    let n := cfg.next
    let turns := coopTurns cfg r ms progress
    CoopLoop hooks (emitPassEnd hooks turns.2 turns.1 cfg.locals.length progress (n + 1) n) ms progress cfg.locals.length
      n (n + 1) (n + 2) (n + 3) (cfg.locals.length + 1) (cfg.term r.regionEnd.1) := by
  intro n turns
  obtain ⟨t1, t2, t3, t4, t5, t6, -, t8⟩ := coopTurns_spec progress hr hne he hnodup
  obtain ⟨-, -, -, hblock⟩ := coopHead_block progress hr
  change turns.1 = _ at t1
  change turns.2.next + 1 = _ at t2
  have hpos : 0 < ms.length := List.length_pos_iff.mpr hne
  have hround : ∀ k, roundAfter (n + 3) 5 k = n + 3 + 6 * k := fun _ => rfl
  have hcur : turns.1 < turns.2.next := by
    rw [t1, hround]
    omega
  obtain ⟨-, -, hkeep, hend⟩ :=
    emitPassEnd_block hooks turns.2 turns.1 cfg.locals.length progress (n + 1) n hcur t4
  replace hkeep := hkeep.same
  have hnext : turns.2.next = n + 3 + 6 * ms.length - 1 := by omega
  -- Blocks that neither the turns nor the end of the pass write to.
  have hfront : ∀ y, n < y → y < n + 3 → (emitPassEnd hooks turns.2 turns.1 cfg.locals.length progress (n + 1) n).block y =
      (coopHead cfg r progress).block y := by
    intro y hy hlt
    rw [hkeep y (by omega) (by rw [t1, hround]; omega)]
    exact t8 y hlt hy.ne' (ne_exit he hy.le)
  constructor
  case turns =>
    intro k m hm
    have hk : k < ms.length := (List.getElem?_eq_some_iff.mp hm).1
    have hexit := (he m (List.mem_of_getElem? hm)).1
    refine (turn_lays cfg.locals.length progress).stable turns.2 _ m _ _ _ _ (t6 k m hm) ?_
    rintro y (rfl | rfl | ⟨h1, h2, h3⟩)
    · have hcheck : roundCheck n (n + 3) 5 k ≤ n + 3 + 6 * k := by
        cases k with
        | zero => exact Nat.le_add_right n 3
        | succ k =>
          rw [roundCheck]
          omega
      exact hkeep _ (by omega) (by rw [t1, hround]; omega)
    · exact hkeep _ (by omega) (by rw [t1, hround]; omega)
    · rw [hround] at h1 h2 h3
      exact hkeep _ (by omega) (by rw [t1, hround]; omega)
  case next =>
    intro k hk
    exact (hkeep _ (by rw [hround]; omega) (by rw [t1, hround, hround]; omega)).trans (t5 k hk)
  case final =>
    rw [← t1, hend, if_neg (by omega), if_neg hcur.ne, if_pos rfl, hnext]
  case notDone =>
    rw [← hnext, hend, if_neg (by omega), if_pos rfl, t3, ← t2]
  case stuck => rw [hend, if_pos t2.symm]
  case exit => rw [hfront _ (by omega) (by omega), hblock, if_neg (by omega), if_pos rfl]
  case post => rw [hfront _ (by omega) (by omega), hblock, if_neg (by omega), if_neg (by omega), if_neg (by omega), if_pos rfl]

end Cooperative

theorem buildCooperativeLoop_spec (hooks : Hooks U) (cfg : Body U) (r : Region) (ms : List Machine) (progress : ℕ)
    (hne : ms ≠ []) (hprog : ∀ m ∈ ms, m.progressLocal = progress) (hr : r.regionEnd.1 < cfg.next)
    (he : ∀ m ∈ ms, m.exitBb < cfg.next ∧ m.exitBb ≠ r.regionEnd.1 ∧ cfg.block m.exitBb = .fresh)
    (hnodup : (ms.map (·.exitBb)).Nodup) :
    let n := cfg.next
    let l := cfg.locals.length
    ∃ cfgL, buildCooperativeLoop hooks cfg r ms =
        (⟨n, n + 1, roundAfter (n + 3) 5 (ms.length - 1) + 3, n + 3 + 6 * ms.length⟩, finishRegion cfgL r ms n) ∧
      Extends (fun c => c = r.regionEnd.1 ∨ ∃ m ∈ ms, c = m.exitBb) cfg cfgL ∧
      cfgL.next = n + 3 + 6 * ms.length + 1 ∧
      cfgL.block r.regionEnd.1 = ⟨cfg.stmts r.regionEnd.1, .unreachable⟩ ∧
      CoopLoop hooks cfgL ms progress l n (n + 1) (n + 2) (n + 3) (l + 1) (cfg.term r.regionEnd.1) ∧
      ∀ (u : U) (S : ℕ → Prop), hooks.deadlock ≠ some u → Edit u S cfg cfgL := by
  intro n l
  obtain ⟨t1, t2, t3, t4, -, -, t7, t8⟩ := coopTurns_spec progress hr hne he hnodup
  obtain ⟨-, -, -, hblock⟩ := coopHead_block progress hr
  have hloop := coopLoop_of_turns progress hr hne he hnodup hooks
  have hout := buildCooperativeLoop_eq hooks cfg r hne hprog
  have hedit : ∀ (u : U) (S : ℕ → Prop), Edit u S cfg (coopTurns cfg r ms progress).2 := fun u S =>
    (coopHead_edit progress hr).trans (emitRound_edit (fun _ _ _ => emitTurn_edit _ _ _ _) n ms _)
  generalize coopTurns cfg r ms progress = turns at t1 t2 t3 t4 t7 t8 hloop hout hedit
  have hcur : n + 3 ≤ turns.1 ∧ turns.1 < turns.2.next := by
    have hpos : 0 < ms.length := List.length_pos_iff.mpr hne
    rw [t1, roundAfter]
    omega
  obtain ⟨p1, -, p3, -⟩ := emitPassEnd_block hooks turns.2 turns.1 l progress (n + 1) n hcur.2 t4
  refine ⟨_, ?_, ?_, ?_, ?_, hloop, fun u S hu => (hedit u S).trans (emitPassEnd_edit hu _ _ _ _ _ _)⟩
  · rw [hout, ← t1, ← t2]
  · refine t7.trans_new p3 ?_
    intro y hy heq
    omega
  · rw [p1, ← t2]
  · rw [p3.same _ (by omega) (by omega), t8 _ (by omega) hr.ne (fun m hm => (he m hm).2.1.symm), hblock, if_neg hr.ne,
      if_neg (by omega), if_pos rfl]

/-- The blocks of `build_oneshot_poll`, as in `CoopLoop`; `pending` has no terminator yet. -/
structure OneshotPoll (cfg : Body U) (ms : List Machine) (allDone top done pending post n l : ℕ) (t : Term) : Prop where
  turns : ∀ (k : ℕ) (m : Machine), ms[k]? = some m → TurnOnce allDone cfg m (leadOf [.assignBool allDone true] k)
    (roundCheck top n 4 k) (roundAfter n 4 k) (l + 2 * k)
  next : ∀ k, k + 1 < ms.length → cfg.block (roundAfter n 4 k + 3) = ⟨[], .goto (roundCheck top n 4 (k + 1))⟩
  final : cfg.block (roundAfter n 4 (ms.length - 1) + 3) = ⟨[], .branch allDone done pending⟩
  pending : cfg.block pending = .fresh
  done : cfg.block done = ⟨[], .goto post⟩
  post : cfg.block post = ⟨[], t⟩

/-- `build_oneshot_poll` up to its turns: the head, the two exits and what follows the region. -/
def pollHead (cfg : Body U) (r : Region) : Body U :=
  let (topBb, cfg) := cfg.newBlock
  let (doneExitBb, cfg) := cfg.newBlock
  let (_, cfg) := cfg.newBlock
  let (postBb, cfg) := cfg.splitAfter r.regionEnd.1 (cfg.statementCount r.regionEnd.1 - 1)
  let cfg := cfg.setGoto doneExitBb postBb
  let (allDoneLocal, cfg) := cfg.newMutBoolLocal
  cfg.emit topBb (.assignBool allDoneLocal true)

/-- The turns behind it. -/
def pollTurns (cfg : Body U) (r : Region) (ms : List Machine) : ℕ × Body U :=
  emitRound (fun b checkBb m => emitPollOnce b cfg.locals.length checkBb m) cfg.next ms (pollHead cfg r)

/-- The poll in its pieces. -/
theorem buildOneshotPoll_eq (cfg : Body U) (r : Region) {ms : List Machine} (hne : ms ≠ []) :
    buildOneshotPoll cfg r ms =
      let turns := pollTurns cfg r ms
      (⟨cfg.next + 1, cfg.next + 2⟩,
        finishRegion (turns.2.setBranch turns.1 cfg.locals.length (cfg.next + 1) (cfg.next + 2)) r ms cfg.next) := by
  cases ms with
  | nil => exact absurd rfl hne
  | cons m rest =>
    have hround : pollTurns cfg r (m :: rest) =
        let first := emitPollOnce (pollHead cfg r) cfg.locals.length cfg.next m
        emitPollsOnce cfg.locals.length first.1 rest first.2 := (emitPollsOnce_eq _ _ _ _).symm
    rw [hround]
    rfl

section Oneshot
variable {cfg : Body U} {r : Region} {ms : List Machine} (hr : r.regionEnd.1 < cfg.next)
include hr

theorem pollHead_edit {u : U} {S : ℕ → Prop} : Edit u S cfg (pollHead cfg r) :=
  (((splitLast_edit ((Edit.refl.newBlock).newBlock).newBlock (Nat.lt_add_right 3 hr)).setTerm).newLocal).emit

theorem pollHead_block :
    let n := cfg.next
    let l := cfg.locals.length
    let head := pollHead cfg r
    head.next = n + 4 ∧ head.locals.length = l + 1 ∧ Extends (· = r.regionEnd.1) cfg head ∧
      ∀ y, head.block y = if y = n then ⟨[.assignBool l true], .unreachable⟩
        else if y = n + 1 then ⟨[], .goto (n + 3)⟩ else if y = n + 2 then .fresh
        else if y = r.regionEnd.1 then ⟨cfg.stmts r.regionEnd.1, .unreachable⟩
        else if y = n + 3 then ⟨[], cfg.term r.regionEnd.1⟩ else cfg.block y := by
  intro n l head
  let a := cfg.newBlock.2.newBlock.2.newBlock.2
  let s := (a.splitAfter r.regionEnd.1 (a.statementCount r.regionEnd.1 - 1)).2
  have hhead : head = (((s.setGoto (n + 1) (n + 3)).newLocal .boolMut).2).emit n (.assignBool l true) := rfl
  have hab : ∀ y, a.block y = if y = n + 2 ∨ y = n + 1 ∨ y = n then .fresh else cfg.block y := by
    intro y
    simp only [a, Cfg.newBlock_block, Cfg.newBlock_next, n]
    grind
  have hsb : ∀ y, s.block y = if y = r.regionEnd.1 then ⟨cfg.stmts r.regionEnd.1, .unreachable⟩
      else if y = n + 3 then ⟨[], cfg.term r.regionEnd.1⟩ else a.block y := by
    intro y
    have hre : a.block r.regionEnd.1 = cfg.block r.regionEnd.1 := by rw [hab, if_neg (by omega)]
    have h := splitLast_block a r.regionEnd.1 y
    rw [Cfg.stmts, Cfg.term, hre] at h
    exact h
  refine ⟨rfl, ?_, ?_, fun y => ?_⟩
  · change (cfg.locals ++ [LocalTy.boolMut]).length = _
    exact List.length_append
  · have h0 : Extends (· = r.regionEnd.1) cfg a := Extends.push.trans (Extends.push.trans Extends.push)
    have h1 : Extends (fun y => y = n + 1 ∨ y = n) s head :=
      (Extends.set (.inl rfl)).trans (Extends.newLocal.trans (Extends.set (.inr rfl)))
    refine (h0.trans (splitAfter_extends a _ _)).trans_new h1 ?_
    intro y hy heq
    omega
  · have h1 : s.block (n + 1) = .fresh := by
      rw [hsb, if_neg (by omega), if_neg (by omega), hab, if_pos (.inr (.inl rfl))]
    have h2 : s.block n = .fresh := by
      rw [hsb, if_neg hr.ne', if_neg (by omega), hab, if_pos (.inr (.inr rfl))]
    have h3 : s.block (n + 2) = .fresh := by
      rw [hsb, if_neg (by omega), if_neg (by omega), hab, if_pos (.inl rfl)]
    rw [hhead]
    by_cases hy : y = n
    · simp [hy, Cfg.emit, Cfg.setGoto, Cfg.setTerm, Cfg.stmts, h2, Block.fresh]
    · by_cases hy' : y = n + 1
      · simp [hy', Cfg.emit, Cfg.setGoto, Cfg.setTerm, Cfg.stmts, h1, Block.fresh]
      · by_cases hy'' : y = n + 2
        · simp [hy'', Cfg.emit, Cfg.setGoto, Cfg.setTerm, h3]
        · simp [hy, hy', hy'', Cfg.emit, Cfg.setGoto, Cfg.setTerm, hsb, hab]

variable (hne : ms ≠ []) (he : ∀ m ∈ ms, m.exitBb < cfg.next ∧ m.exitBb ≠ r.regionEnd.1 ∧ cfg.block m.exitBb = .fresh)
  (hnodup : (ms.map (·.exitBb)).Nodup)
include hne he hnodup

theorem pollTurns_spec :
    let n := cfg.next
    let l := cfg.locals.length
    let turns := pollTurns cfg r ms
    turns.1 = roundAfter (n + 4) 4 (ms.length - 1) + 3 ∧ turns.2.next + 1 = n + 4 + 5 * ms.length ∧
      turns.2.block turns.1 = .fresh ∧
      (∀ k, k + 1 < ms.length →
        turns.2.block (roundAfter (n + 4) 4 k + 3) = ⟨[], .goto (roundCheck n (n + 4) 4 (k + 1))⟩) ∧
      (∀ (k : ℕ) (m : Machine), ms[k]? = some m → TurnOnce l turns.2 m (leadOf [.assignBool l true] k)
        (roundCheck n (n + 4) 4 k) (roundAfter (n + 4) 4 k) (l + 1 + 2 * k)) ∧
      Extends (fun c => c = r.regionEnd.1 ∨ ∃ m ∈ ms, c = m.exitBb) cfg turns.2 ∧
      ∀ y < n + 4, y ≠ n → (∀ m ∈ ms, y ≠ m.exitBb) → turns.2.block y = (pollHead cfg r).block y := by
  intro n l turns
  obtain ⟨hn, hl, hext, hblock⟩ := pollHead_block hr
  have hexits : ∀ m ∈ ms, m.exitBb < (pollHead cfg r).next ∧ m.exitBb ≠ n ∧ (pollHead cfg r).block m.exitBb = .fresh := by
    intro m hm
    obtain ⟨h1, h2, h3⟩ := he m hm
    exact ⟨by omega, h1.ne, (hext.same _ h1 h2).trans h3⟩
  obtain ⟨t1, t2, -, t4, t5, t6, t7⟩ := emitRound_spec (turnOnce_lays l) ms hne n (pollHead cfg r) (by omega) hexits hnodup
  change turns.1 = _ at t1
  have hlead : (pollHead cfg r).stmts n = [.assignBool l true] := by rw [Cfg.stmts, hblock, if_pos rfl]
  rw [hn] at t1 t2 t4 t6
  rw [hl, hlead] at t6
  refine ⟨t1, t2, t5, t4, t6, ?_, fun y hy hne' hye => t7.same y (hn ▸ hy) ?_⟩
  · refine (hext.mono fun c _ h => .inl h).trans_new t7 ?_
    rintro y hy (h | h)
    · exact absurd h hy.ne
    · exact .inr h
  · rintro (h | ⟨m, hm, h⟩)
    · exact hne' h
    · exact hye m hm h

theorem oneshotPoll_of_turns :
    let n := cfg.next
    let l := cfg.locals.length
    let turns := pollTurns cfg r ms
    OneshotPoll (turns.2.setBranch turns.1 l (n + 1) (n + 2)) ms l n (n + 1) (n + 2) (n + 3) (n + 4) (l + 1)
      (cfg.term r.regionEnd.1) := by
  intro n l turns
  obtain ⟨t1, t2, t3, t4, t5, -, t7⟩ := pollTurns_spec hr hne he hnodup
  obtain ⟨-, -, -, hblock⟩ := pollHead_block hr
  change turns.1 = _ at t1
  have hround : ∀ k, roundAfter (n + 4) 4 k = n + 4 + 5 * k := fun _ => rfl
  have hkeep : ∀ y, y ≠ turns.1 → (turns.2.setBranch turns.1 l (n + 1) (n + 2)).block y = turns.2.block y := by
    intro y hy
    simp [Cfg.setBranch, Cfg.setTerm, hy]
  have hfront : ∀ y, n < y → y < n + 4 →
      (turns.2.setBranch turns.1 l (n + 1) (n + 2)).block y = (pollHead cfg r).block y := by
    intro y hy hlt
    rw [hkeep y (by rw [t1, hround]; omega)]
    exact t7 y hlt hy.ne' (ne_exit he hy.le)
  constructor
  case turns =>
    intro k m hm
    have hk : k < ms.length := (List.getElem?_eq_some_iff.mp hm).1
    refine (turnOnce_lays l).stable turns.2 _ m _ _ _ _ (t5 k m hm) ?_
    rintro y (rfl | rfl | ⟨h1, h2, h3⟩)
    · have hcheck : roundCheck n (n + 4) 4 k ≤ n + 4 + 5 * k := by
        cases k with
        | zero => exact Nat.le_add_right n 4
        | succ k =>
          rw [roundCheck]
          omega
      exact hkeep _ (by rw [t1, hround]; omega)
    · have hexit := (he m (List.mem_of_getElem? hm)).1
      exact hkeep _ (by rw [t1, hround]; omega)
    · rw [hround] at h1 h2 h3
      exact hkeep _ (by rw [t1, hround]; omega)
  case next =>
    intro k hk
    exact (hkeep _ (by rw [t1, hround, hround]; omega)).trans (t4 k hk)
  case final =>
    have hfresh : (turns.2.block turns.1).stmts = [] := congrArg Block.stmts t3
    rw [← t1]
    simp [Cfg.setBranch, Cfg.setTerm, hfresh]
  case pending => rw [hfront _ (by omega) (by omega), hblock, if_neg (by omega), if_neg (by omega), if_pos rfl]
  case done => rw [hfront _ (by omega) (by omega), hblock, if_neg (by omega), if_pos rfl]
  case post =>
    rw [hfront _ (by omega) (by omega), hblock, if_neg (by omega), if_neg (by omega), if_neg (by omega), if_neg (by omega),
      if_pos rfl]

end Oneshot

theorem buildOneshotPoll_spec (cfg : Body U) (r : Region) (ms : List Machine) (hne : ms ≠ [])
    (hr : r.regionEnd.1 < cfg.next)
    (he : ∀ m ∈ ms, m.exitBb < cfg.next ∧ m.exitBb ≠ r.regionEnd.1 ∧ cfg.block m.exitBb = .fresh)
    (hnodup : (ms.map (·.exitBb)).Nodup) :
    let n := cfg.next
    let l := cfg.locals.length
    ∃ cfgL, buildOneshotPoll cfg r ms = (⟨n + 1, n + 2⟩, finishRegion cfgL r ms n) ∧
      Extends (fun c => c = r.regionEnd.1 ∨ ∃ m ∈ ms, c = m.exitBb) cfg cfgL ∧
      cfgL.next = n + 4 + 5 * ms.length - 1 ∧
      cfgL.block r.regionEnd.1 = ⟨cfg.stmts r.regionEnd.1, .unreachable⟩ ∧
      OneshotPoll cfgL ms l n (n + 1) (n + 2) (n + 3) (n + 4) (l + 1) (cfg.term r.regionEnd.1) ∧
      ∀ (u : U) (S : ℕ → Prop), Edit u S cfg cfgL := by
  intro n l
  obtain ⟨t1, t2, -, -, -, t6, t7⟩ := pollTurns_spec hr hne he hnodup
  obtain ⟨-, -, -, hblock⟩ := pollHead_block hr
  have hpoll := oneshotPoll_of_turns hr hne he hnodup
  have hedit : ∀ (u : U) (S : ℕ → Prop), Edit u S cfg (pollTurns cfg r ms).2 := fun u S =>
    (pollHead_edit hr).trans (emitRound_edit (fun _ _ _ => emitPollOnce_edit _ _ _) n ms _)
  have hcur : n + 4 ≤ (pollTurns cfg r ms).1 := by
    rw [t1, roundAfter]
    omega
  refine ⟨_, buildOneshotPoll_eq cfg r hne, ?_, ?_, ?_, hpoll, fun u S => (hedit u S).setTerm⟩
  · refine t6.trans_new (Extends.set_self : Extends (· = (pollTurns cfg r ms).1) (pollTurns cfg r ms).2 _) ?_
    intro y hy heq
    omega
  · change (pollTurns cfg r ms).2.next = _
    omega
  · have hkeep : r.regionEnd.1 ≠ (pollTurns cfg r ms).1 := by omega
    simp only [Cfg.setBranch, Cfg.setTerm, Cfg.set_block, if_neg hkeep]
    rw [t7 _ (by omega) hr.ne (fun m hm => (he m hm).2.1.symm), hblock, if_neg hr.ne, if_neg (by omega), if_neg (by omega),
      if_pos rfl]

end Krio.Stackless
