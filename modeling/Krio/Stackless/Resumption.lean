import Krio.Stackless.Exec
import Krio.Stackless.Transformed

/-! Where a suspended coroutine goes on: the ids of its states, the dispatch switch, and the executors' test for
completion. -/

namespace Krio.Stackless

variable {U : Type} {hooks : Hooks U} {cfg cfg' : Body U} {r : Region} {start : ℕ}

/-! ## The dispatch switch -/

/-- A switch on consecutive values from `n` on. -/
theorem switchTarget_consecutive (otherwise : ℕ) (es : List ℕ) (n i e : ℕ) (he : es[i]? = some e) :
    switchTarget (n + i : ℕ) otherwise (es.mapIdx fun j bb => ((n + j : ℕ), bb)) = e := by
  induction es generalizing n i with
  | nil => simp at he
  | cons x es ih =>
    rw [List.mapIdx_cons, switchTarget]
    cases i with
    | zero =>
      rw [if_pos rfl]
      simpa using he
    | succ i =>
      rw [List.getElem?_cons_succ] at he
      rw [if_neg (by omega)]
      have hrest := ih (n + 1) i he
      rw [show n + 1 + i = n + (i + 1) by omega] at hrest
      simpa [Nat.add_assoc, Nat.add_comm 1] using hrest

theorem switchTarget_state {otherwise i e : ℕ} {es : List ℕ} (he : es[i]? = some e) :
    switchTarget (i : ℕ) otherwise (stateTargets es) = e := by
  have h := switchTarget_consecutive otherwise es 0 i e he
  simpa [stateTargets] using h

/-! ## Turns -/

/-- The turn of a machine: the block asks whether the machine is done, goes on at `next` if so, and dispatches it
    if not. -/
structure TurnOf (cfg : Body U) (m : Machine) (b next : ℕ) : Prop where
  block : ∃ lead d, cfg.block b = ⟨lead ++ [.eqCheckI64 d m.stateLocal doneState], .branch d next m.dispatchBb⟩ ∧
    ∀ s ∈ lead, ∃ l, l ≠ m.stateLocal ∧ ((∃ v, s = .assignI64 l v) ∨ ∃ v, s = .assignBool l v)
  next_ne : next ≠ m.dispatchBb

section
variable {host : Host U} {m : Machine} {b next : ℕ}

theorem execAll_keeps {l : List (Stmt U)} {x : ℕ}
    (hl : ∀ s ∈ l, ∃ y, y ≠ x ∧ ((∃ v, s = .assignI64 y v) ∨ ∃ v, s = .assignBool y v)) (σ : Store host) :
    (execAll σ l).locals x = σ.locals x := by
  induction l generalizing σ with
  | nil => rfl
  | cons s l ih =>
    have hrest : (execAll σ (s :: l)).locals x = (s.exec σ).locals x := ih (fun s hs => hl s (List.mem_cons_of_mem _ hs)) _
    rw [hrest]
    obtain ⟨y, hy, ⟨v, rfl⟩ | ⟨v, rfl⟩⟩ := hl s List.mem_cons_self
    · exact Function.update_of_ne hy.symm _ _
    · exact Function.update_of_ne hy.symm _ _

/-- A turn dispatches the machine unless its state is the one that stands for done. -/
theorem TurnOf.run (h : TurnOf cfg m b next) (σ : Store host) :
    (runBlock cfg b σ).place = .block (if σ.locals m.stateLocal = doneState then next else m.dispatchBb) := by
  obtain ⟨lead, d, hblock, hlead⟩ := h.block
  have hstate : (List.foldl Stmt.exec (σ.note (.enter b)) lead).locals m.stateLocal = σ.locals m.stateLocal :=
    execAll_keeps hlead _
  rw [runBlock_of hblock, execAll, List.foldl_append, List.foldl_cons, List.foldl_nil]
  simp only [leads, Stmt.exec, Function.update_self, hstate]
  by_cases hd : σ.locals m.stateLocal = doneState
  · simp [ofBool, hd]
  · simp [ofBool, hd]

end

/-- A coroutine with the points `pts` is never taken for a finished one: `id j` is stored at the point `j`, where
    the coroutine goes on at `resume j`. -/
structure NeverMistaken (cfg cfg' : Body U) (pts : List Point) (m : Machine) (id : ℕ → ℤ) (resume : ℕ → ℕ) : Prop where
  stored : ∀ j p, pts[j]? = some p → Site (cfg.block p.bb) cfg' (fun _ => True) (fun _ => True) m (id j) p (resume j)
  distinct : ∀ i j, i < pts.length → j < pts.length → id i = id j → i = j
  selected : ∀ (host : Host U) (σ : Store host) (j : ℕ), j < pts.length → σ.locals m.stateLocal = id j →
    (runBlock cfg' m.dispatchBb σ).place = .block (resume j)
  dispatched : ∀ (host : Host U) (σ : Store host) (j b next : ℕ), j < pts.length → TurnOf cfg' m b next →
    σ.locals m.stateLocal = id j → (runBlock cfg' b σ).place = .block m.dispatchBb

theorem Site.id_eq {orig : Block (Stmt U)} {F G F' G' : ℕ → Prop} {m : Machine} {id id' : ℤ} {p : Point} {e e' : ℕ}
    (h : Site orig cfg F G m id p e) (h' : Site orig cfg F' G' m id' p e') : id = id' := by
  have key : ∀ {y y' : ℕ} {res res' : ℤ}, Suspends cfg m y id res → Suspends cfg m y' id' res' → y = y' → id = id' := by
    rintro y y' res res' hs hs' rfl
    have heq := congrArg Block.stmts (hs.symm.trans hs')
    simp only [List.cons.injEq, Stmt.assignI64.injEq] at heq
    exact heq.1.2
  cases h with
  | yield kind hy he suspends head tail =>
    cases h' with
    | yield kind' hy' he' suspends' head' tail' =>
      exact key suspends suspends' (Term.goto.inj (congrArg Block.term (head.symm.trans head')))
    | send kind' => cases kind.symm.trans kind'
    | guard kind' => cases kind.symm.trans kind'
  | send kind hy he suspends head tail =>
    cases h' with
    | yield kind' => cases kind.symm.trans kind'
    | send kind' hy' he' suspends' head' tail' =>
      exact key suspends suspends' (Term.goto.inj (congrArg Block.term (head.symm.trans head')))
    | guard kind' => cases kind.symm.trans kind'
  | guard kind hg hr hy hd suspends here guards tail =>
    cases h' with
    | yield kind' => cases kind.symm.trans kind'
    | send kind' => cases kind.symm.trans kind'
    | guard kind' hg' hr' hy' hd' suspends' here' guards' tail' =>
      have hge : e = e' := by
        rcases hg with ⟨h0, rfl⟩ | ⟨h0, -, hb⟩
        · rcases hg' with ⟨-, rfl⟩ | ⟨h0', -⟩
          · rfl
          · exact absurd h0 h0'
        · rcases hg' with ⟨h0', -⟩ | ⟨-, -, hb'⟩
          · exact absurd h0' h0
          · exact Term.goto.inj (congrArg Block.term (hb.symm.trans hb'))
      subst hge
      exact key suspends suspends' (Term.branch.inj (congrArg Block.term (guards.symm.trans guards'))).2.2

/-- The machine of a coroutine never takes a suspended coroutine for a finished one exactly while it has fewer than
    9999 points. -/
theorem Lowered.never_mistaken {F T : ℕ → Prop} {co : Coroutine} {pts : List Point} {m : Machine} {entry done : ℕ}
    {entries : List ℕ} (h : Lowered cfg cfg' r F T co pts m entry entries done) (hturn : ∃ b next, TurnOf cfg' m b next) :
    (∃ id resume, NeverMistaken cfg cfg' pts m id resume) ↔ pts.length < 9999 := by
  have hsite : ∀ j p, pts[j]? = some p → Site (cfg.block p.bb) cfg' (fun _ => True) (fun _ => True) m (j + 1 : ℕ) p
      (entries.getD j 0) := by
    intro j p hp
    have hj : j < entries.length := by
      rw [h.count]
      exact (List.getElem?_eq_some_iff.mp hp).1
    have he : entries[j]? = some (entries.getD j 0) := by
      rw [List.getD_eq_getElem?_getD, List.getElem?_eq_getElem hj, Option.getD_some]
    exact (h.sites j p _ hp he).mono (fun c _ => ⟨trivial, rfl⟩) (fun _ _ => trivial) rfl
  constructor
  · rintro ⟨id, resume, hnm⟩
    by_contra hlen
    have hj : 9998 < pts.length := by omega
    have hid : ((9998 + 1 : ℕ) : ℤ) = id 9998 :=
      (hsite 9998 _ (List.getElem?_eq_getElem hj)).id_eq (hnm.stored 9998 _ (List.getElem?_eq_getElem hj))
    obtain ⟨b, next, ht⟩ := hturn
    -- any host will do
    let host : Host U := ⟨Unit, fun _ locals state => (locals, state), fun _ _ state => (false, state)⟩
    let σ : Store host := ⟨fun _ => doneState, (), []⟩
    have hrun := ht.run σ
    rw [if_pos rfl, hnm.dispatched host σ 9998 b next hj ht hid] at hrun
    exact ht.next_ne (At.block.inj hrun).symm
  · intro hlen
    refine ⟨fun j => (j + 1 : ℕ), fun j => entries.getD j 0, hsite, fun i j _ _ hij => ?_, ?_, ?_⟩
    · have heq : i + 1 = j + 1 := Int.ofNat.inj hij
      omega
    · intro host σ j hj hstate
      have hblock : cfg'.block m.dispatchBb = ⟨[], .switch m.stateLocal (stateTargets (entry :: entries)) m.exitBb⟩ := by
        rcases h.dispatches with ⟨rfl, -⟩ | ⟨-, hb⟩
        · exact absurd hj (Nat.not_lt_zero j)
        · exact hb
      have he : (entry :: entries)[j + 1]? = some (entries.getD j 0) := by
        have hje : j < entries.length := h.count ▸ hj
        rw [List.getElem?_cons_succ, List.getD_eq_getElem?_getD, List.getElem?_eq_getElem hje, Option.getD_some]
      have hlocals : (σ.note (.enter m.dispatchBb)).locals m.stateLocal = (j + 1 : ℕ) := hstate
      rw [runBlock_of hblock]
      simp only [leads, execAll, List.foldl_nil, hlocals, switchTarget_state he]
    · intro host σ j b next hj ht hstate
      have hne : σ.locals m.stateLocal ≠ doneState := by
        rw [hstate, doneState]
        omega
      rw [ht.run σ, if_neg hne]

/-! ## The turns of the executors -/

section
variable {ms : List Machine} {cfgM : Body U} {top : ℕ} {m : Machine}

theorem Transformed.locals (h : Transformed hooks cfg r start ms cfgM cfg' top) :
    MachineLocals cfg.locals.length cfgM.locals.length ms cfg.locals.length := by
  obtain ⟨cfgL, lo, ll, A, -, -⟩ := h.assembled
  exact A.locals

theorem Transformed.dispatch_lt (h : Transformed hooks cfg r start ms cfgM cfg' top) (hm : m ∈ ms) :
    m.dispatchBb < cfgM.next := by
  obtain ⟨cfgL, lo, ll, A, -, -⟩ := h.assembled
  exact (A.dispatch_exit hm).2.1

end

/-- The statements in front of a test of the executors write locals of the executor. -/
theorem leadOf_assigns {lead : List (Stmt U)} {k x : ℕ}
    (h : ∀ s ∈ lead, ∃ l, l ≠ x ∧ ((∃ v, s = .assignI64 l v) ∨ ∃ v, s = .assignBool l v)) :
    ∀ s ∈ leadOf lead k, ∃ l, l ≠ x ∧ ((∃ v, s = .assignI64 l v) ∨ ∃ v, s = .assignBool l v) := by
  intro s hs
  rw [leadOf] at hs
  split at hs
  · exact h s hs
  · simp at hs

theorem Chain.stop_of_mem {P Q : ℕ → Prop} {top final b : ℕ} {ss : List Stop} (h : Chain cfg P Q top final b ss) {s : Stop}
    (hs : s ∈ ss) : ∃ a b next, StopAt cfg P Q top s a b next ∧ (next = final ∨ P next) := by
  induction h with
  | done => simp at hs
  | @stop s' a b next rest here goOn ih =>
    rcases List.mem_cons.mp hs with rfl | hs
    · refine ⟨a, b, next, here, ?_⟩
      cases goOn with
      | done => exact .inl rfl
      | stop here' _ => exact .inr here'.mem.1
    · exact ih hs

theorem BandsAt.stop_of_mem {ms : List Machine} {l site : ℕ} {bands : List Band} (h : BandsAt r ms l site bands)
    {m : Machine} (hm : m ∈ ms) : ∃ s ∈ scanStops bands, s.machine = m ∧ l ≤ s.sweep := by
  have hmem : m ∈ (bands.map (·.members)).flatten := by
    rw [h.members]
    exact (members_perm r ms).mem_iff.mpr hm
  obtain ⟨members, hband, hmem⟩ := List.mem_flatten.mp hmem
  obtain ⟨band, hin, rfl⟩ := List.mem_map.mp hband
  obtain ⟨j, hj⟩ := List.mem_iff_getElem?.mp hmem
  have hlt := (List.getElem?_eq_some_iff.mp hj).1
  have hsweep : band.sweep ∈ List.range' (l + bands.length) bands.length := h.sweep ▸ List.mem_map.mpr ⟨band, hin, rfl⟩
  rw [List.mem_range'_1] at hsweep
  refine ⟨⟨m, band.last, band.sweep, band.members.length, j, false⟩, ?_, rfl, hsweep.1.trans' (Nat.le_add_right _ _)⟩
  refine List.mem_flatMap.mpr ⟨band, hin, List.mem_append_left _ (List.mem_iff_getElem?.mpr ⟨j, ?_⟩)⟩
  rw [Band.stops, List.getElem?_mapIdx, hj]
  rfl

/-- Under either executor every machine has its turn. -/
theorem Marked.turn (h : Marked hooks cfg r start)
    (hout : (∃ loops, cfg' = (transformRegion hooks (cooperative hooks) loops cfg r).2) ∨
      ∃ exits, cfg' = (transformRegion hooks waker exits cfg r).2) {m : Machine} (hm : m ∈ (machinesOf hooks cfg r).1) :
    (∃ b next, TurnOf cfg' m b next) ∧ ∃ ms cfgM top, Transformed hooks cfg r start ms cfgM cfg' top := by
  rcases hout with ⟨loops, rfl⟩ | ⟨exits, rfl⟩
  · cases hp : r.coroutines.any (·.priority.isSome) with
    | false =>
      obtain ⟨ms, cfgM, cfg', heq, ht, hloop⟩ := h.roundRobin hp loops
      rw [heq]
      rw [ht.out] at hm
      refine ⟨?_, ms, cfgM, _, ht⟩
      obtain ⟨k, hk⟩ := List.mem_iff_getElem?.mp hm
      have hlt := ht.dispatch_lt hm
      obtain ⟨-, h2, h3⟩ := ht.locals.state_mem m hm
      refine ⟨_, _, ⟨_, _, (hloop.turns k m hk).check, leadOf_assigns fun s hs => ?_⟩, ?_⟩
      · rcases List.mem_cons.mp hs with rfl | hs
        · exact ⟨_, h2.ne', .inr ⟨_, rfl⟩⟩
        · exact ⟨_, h3.symm, .inl ⟨_, List.mem_singleton.mp hs⟩⟩
      · rw [roundAfter]
        omega
    | true =>
      obtain ⟨ms, cfgM, cfgL, lo, ll, bands, stuck, heq, A, ht, hbands, hloop⟩ := h.prioritised hp loops
      rw [heq]
      rw [ht.out] at hm
      refine ⟨?_, ms, cfgM, _, ht⟩
      obtain ⟨s, hs, rfl, hsweep⟩ := hbands.stop_of_mem hm
      obtain ⟨a, b, next, hstop, hnext⟩ := hloop.scan.stop_of_mem hs
      have hlt := ht.dispatch_lt hm
      have h2 := (ht.locals.state_mem _ hm).2.1
      refine ⟨a.poll, next, ⟨[.assignI64 s.sweep s.half], _, hstop.poll, fun x hx => ?_⟩, ?_⟩
      · exact ⟨s.sweep, by omega, .inl ⟨_, List.mem_singleton.mp hx⟩⟩
      · rcases hnext with rfl | ⟨hle, -⟩ | ⟨m', hm', rfl⟩
        · omega
        · omega
        · exact (A.built.dispatch_exit.2.1 _ hm m' hm').symm
  · obtain ⟨ms, cfgM, cfg', heq, ht, hloop⟩ := h.oneshot exits
    rw [heq]
    rw [ht.out] at hm
    refine ⟨?_, ms, cfgM, _, ht⟩
    obtain ⟨k, hk⟩ := List.mem_iff_getElem?.mp hm
    have hlt := ht.dispatch_lt hm
    have h2 := (ht.locals.state_mem m hm).2.1
    refine ⟨_, _, ⟨_, _, (hloop.turns k m hk).check, leadOf_assigns fun s hs => ?_⟩, ?_⟩
    · exact ⟨_, h2.ne', .inr ⟨_, List.mem_singleton.mp hs⟩⟩
    · rw [roundAfter]
      omega

theorem Marked.never_mistaken (h : Marked hooks cfg r start)
    (hout : (∃ loops, cfg' = (transformRegion hooks (cooperative hooks) loops cfg r).2) ∨
      ∃ exits, cfg' = (transformRegion hooks waker exits cfg r).2) {k : ℕ} {c : Coroutine} {m : Machine}
    (hc : r.coroutines[k]? = some c) (hm : (machinesOf hooks cfg r).1[k]? = some m) :
    (∃ id resume, NeverMistaken cfg cfg' (findSuspensionPoints hooks cfg c) m id resume) ↔
      (findSuspensionPoints hooks cfg c).length < 9999 := by
  obtain ⟨hturn, ms, cfgM, top, ht⟩ := h.turn hout (List.mem_of_getElem? hm)
  rw [ht.out] at hm
  obtain ⟨cfgL, lo, ll, A, rfl, -⟩ := ht.assembled
  obtain ⟨entry, entries, done, hl⟩ := A.lowered top hc hm
  exact hl.never_mistaken hturn

/-- Under either executor, every coroutine has a turn, and a coroutine suspended at one of its points is never mistaken
    for a finished one exactly while it has fewer than 9999 points. -/
theorem suspended_never_mistaken (h : Marked hooks cfg r start)
    (hout : (∃ loops, cfg' = (transformRegion hooks (cooperative hooks) loops cfg r).2) ∨
      ∃ exits, cfg' = (transformRegion hooks waker exits cfg r).2) {k : ℕ} {c : Coroutine} {m : Machine}
    (hc : r.coroutines[k]? = some c) (hm : (machinesOf hooks cfg r).1[k]? = some m) :
    (∃ b next, TurnOf cfg' m b next) ∧
      ((∃ id resume, NeverMistaken cfg cfg' (findSuspensionPoints hooks cfg c) m id resume) ↔
        (findSuspensionPoints hooks cfg c).length < 9999) :=
  ⟨(h.turn hout (List.mem_of_getElem? hm)).1, h.never_mistaken hout hc hm⟩

/-! ## A coroutine with many points -/

/-- A region of one coroutine that yields in `n` blocks, the last block first, with `t` statements behind
    `region_end`. -/
def yieldChain (n t : ℕ) : Body (Option Marker) where
  ids := List.range (n + 6)
  next := n + 6
  block b :=
    if b = 0 then ⟨[.host (some .regionBegin)], .goto 1⟩
    else if b = 1 then ⟨[.host (some .coroutineBegin)], .goto (n + 2)⟩
    else if b = 2 then ⟨[], .goto (n + 3)⟩
    else if b ≤ n + 2 then ⟨[.host (some .yield)], .goto (b - 1)⟩
    else if b = n + 3 then ⟨[.host (some .coroutineEnd)], .goto (n + 4)⟩
    else if b = n + 4 then ⟨.host (some .regionEnd) :: List.replicate t (.host none), .goto (n + 5)⟩
    else ⟨[], .ret⟩
  locals := []
  ids_lt _ hb := List.mem_range.mp hb
  ids_nodup := List.nodup_range

def chainHooks (priority : Option UInt32) : Hooks (Option Marker) := ⟨id, fun _ => priority, none⟩

def chainCoroutine (priority : Option UInt32) (n : ℕ) : Coroutine := ⟨(1, 0), (n + 3, 0), priority⟩

def chainRegion (priority : Option UInt32) (n : ℕ) : Region := ⟨(0, 0), (n + 4, 0), [chainCoroutine priority n]⟩

section
variable {p : Option UInt32} {n t : ℕ}

theorem chain_block (b : ℕ) : (yieldChain n t).block b =
    if b = 0 then ⟨[.host (some .regionBegin)], .goto 1⟩
    else if b = 1 then ⟨[.host (some .coroutineBegin)], .goto (n + 2)⟩
    else if b = 2 then ⟨[], .goto (n + 3)⟩
    else if b ≤ n + 2 then ⟨[.host (some .yield)], .goto (b - 1)⟩
    else if b = n + 3 then ⟨[.host (some .coroutineEnd)], .goto (n + 4)⟩
    else if b = n + 4 then ⟨.host (some .regionEnd) :: List.replicate t (.host none), .goto (n + 5)⟩
    else ⟨[], .ret⟩ := rfl

theorem chain_stmts (b : ℕ) : ∃ (l : List Marker) (k : ℕ), l.length ≤ 1 ∧
    (yieldChain n t).stmts b = l.map (fun m => .host (some m)) ++ List.replicate k (.host none) := by
  rw [Cfg.stmts, chain_block]
  split_ifs
  · exact ⟨[.regionBegin], 0, le_rfl, rfl⟩
  · exact ⟨[.coroutineBegin], 0, le_rfl, rfl⟩
  · exact ⟨[], 0, Nat.zero_le _, rfl⟩
  · exact ⟨[.yield], 0, le_rfl, rfl⟩
  · exact ⟨[.coroutineEnd], 0, le_rfl, rfl⟩
  · exact ⟨[.regionEnd], t, le_rfl, rfl⟩
  · exact ⟨[], 0, Nat.zero_le _, rfl⟩

theorem chain_marker_first {b i : ℕ} {m : Marker} (h : (chainHooks p).classifyMarker (yieldChain n t) b i = some m) : i = 0 := by
  obtain ⟨l, k, hl, hs⟩ := chain_stmts (n := n) (t := t) b
  rw [Hooks.classifyMarker, hs, List.getElem?_append, List.length_map] at h
  split at h
  · omega
  · obtain ⟨s, hs, hm⟩ := Option.bind_eq_some_iff.mp h
    rw [List.eq_of_mem_replicate (List.mem_of_getElem? hs)] at hm
    cases hm

/-- The successors of the chain's blocks. -/
theorem chain_successors {b s : ℕ} (hs : s ∈ (yieldChain n t).successors b) :
    b = 0 ∧ s = 1 ∨ b = 1 ∧ s = n + 2 ∨ b = 2 ∧ s = n + 3 ∨ 3 ≤ b ∧ b ≤ n + 2 ∧ s = b - 1 ∨ b = n + 3 ∧ s = n + 4 ∨
      b = n + 4 ∧ s = n + 5 := by
  rw [Cfg.successors, Cfg.term, chain_block] at hs
  split_ifs at hs <;> simp [Term.successors] at hs <;> omega

theorem chain_inside {b : ℕ} (h : Inside (yieldChain n t) (chainCoroutine p n) b) : 1 ≤ b ∧ b ≤ n + 3 := by
  induction h with
  | begin => exact ⟨le_rfl, by simp [chainCoroutine]⟩
  | last => exact ⟨by simp [chainCoroutine], le_rfl⟩
  | next _ hb hs ih =>
    have hne : ¬_ = n + 3 := hb
    have hcases := chain_successors hs
    omega

theorem chain_plain {b : ℕ} (h : Plain (yieldChain n t) (chainRegion p n) 0 b) : b = 0 ∨ b = n + 5 := by
  induction h with
  | start => exact .inl rfl
  | next _ hb hs ih =>
    have hne : ¬_ = 0 := hb
    have hcases := chain_successors hs
    omega
  | behind _ hs _ =>
    have hcases := chain_successors hs
    simp only [chainRegion] at hcases
    omega

theorem chain_confined : Confined (chainHooks p) (yieldChain n t) (chainRegion p n) 0 := by
  have hmem : ∀ c ∈ (chainRegion p n).coroutines, c = chainCoroutine p n := fun c hc => List.mem_singleton.mp hc
  have hnext : (yieldChain n t).next = n + 6 := rfl
  refine
    { start_lt := Nat.zero_lt_succ _
      targets := fun b _ s hs => ?_
      nonempty := List.cons_ne_nil _ _
      markers_lt := ?_
      region_begin := rfl
      region_end := ?_
      coroutine_begin := ?_
      coroutine_end := ?_
      alone := fun b _ i j m m' hi hj hij => ?_
      apart := ?_
      begin_outside := ?_
      end_outside := ?_
      plain := ?_
      stmts_below := fun b _ s hs => ?_
      term_below := fun b _ => ?_
      entered_once := ?_ }
  · have hcases := chain_successors hs
    omega
  · intro q hq
    simp only [chainRegion, chainCoroutine, List.flatMap_cons, List.flatMap_nil, List.append_nil, List.mem_cons,
      List.not_mem_nil, or_false] at hq
    rcases hq with rfl | rfl | rfl | rfl <;> simp only [hnext] <;> omega
  · simp [Hooks.classifyMarker, Cfg.stmts, chain_block, chainRegion, Hooks.classify, chainHooks]
  · intro c hc
    rw [hmem c hc]
    rfl
  · intro c hc
    rw [hmem c hc]
    simp [Hooks.classifyMarker, Cfg.stmts, chain_block, chainCoroutine, Hooks.classify, chainHooks]
  · rw [chain_marker_first hi, chain_marker_first hj] at hij
    exact absurd hij (lt_irrefl 0)
  · intro j k c d hj hk _ _ _
    have h1 := (List.getElem?_eq_some_iff.mp hj).1
    have h2 := (List.getElem?_eq_some_iff.mp hk).1
    rw [chainRegion, List.length_singleton] at h1 h2
    omega
  · intro c hc hin
    rw [hmem c hc] at hin
    exact absurd (chain_inside hin).1 (by simp [chainRegion])
  · intro c hc hin
    rw [hmem c hc] at hin
    have hle : n + 4 ≤ n + 3 := (chain_inside hin).2
    omega
  · intro b hb
    have hcases := chain_plain hb
    refine ⟨fun heq => ?_, fun c hc hin => ?_⟩
    · have heq' : b = n + 4 := heq
      omega
    · rw [hmem c hc] at hin
      have hbound := chain_inside hin
      omega
  · obtain ⟨l, k, -, hl⟩ := chain_stmts (n := n) (t := t) b
    rw [hl] at hs
    rcases List.mem_append.mp hs with hs | hs
    · obtain ⟨u, -, rfl⟩ := List.mem_map.mp hs
      trivial
    · rw [List.eq_of_mem_replicate hs]
      trivial
  · rw [Cfg.term, chain_block]
    split_ifs <;> trivial
  · intro c hc b hin hne hs
    rw [hmem c hc] at hin hne hs
    have hbound := chain_inside hin
    have hne' : b ≠ n + 3 := hne
    have hcases := chain_successors hs
    simp only [chainCoroutine] at hcases
    omega

theorem chain_reached {b : ℕ} (h1 : 2 ≤ b) (h2 : b ≤ n + 2) : Reached (yieldChain n t) (chainCoroutine p n) b := by
  induction hk : n + 2 - b generalizing b with
  | zero =>
    obtain rfl : b = n + 2 := by omega
    refine Relation.ReflTransGen.refl.tail ?_
    have hne : ¬(chainCoroutine p n).begin.1 = (chainCoroutine p n).last.1 := fun heq => by
      have heq' : 1 = n + 3 := heq
      omega
    rw [if_neg hne]
    exact List.mem_singleton_self _
  | succ k ih =>
    refine (ih (b := b + 1) (by omega) (by omega) (by omega)).tail ?_
    have hne : ¬b + 1 = (chainCoroutine p n).last.1 := fun heq => by
      have heq' : b + 1 = n + 3 := heq
      omega
    rw [if_neg hne, Cfg.successors, Cfg.term, chain_block]
    simp [show b ≠ 0 by omega, show b ≠ 1 by omega, show b + 1 ≤ n + 2 by omega, Term.successors]

/-- The points of the chain, one a block. -/
theorem chain_points :
    (findSuspensionPoints (chainHooks p) (yieldChain n t) (chainCoroutine p n)).map (·.bb) = List.range' 3 n := by
  have h := (chain_confined (p := p) (n := n) (t := t)).toMarked
  have hc : chainCoroutine p n ∈ (chainRegion p n).coroutines := List.mem_singleton_self _
  refine List.Perm.eq_of_pairwise (fun a b _ _ hab hba => absurd (hab.trans hba) (lt_irrefl a)) (h.points_sorted hc)
    (List.pairwise_lt_range' _) ((List.perm_ext_iff_of_nodup (h.points_nodup hc) List.nodup_range').mpr fun b => ?_)
  rw [List.mem_range'_1, List.mem_map]
  constructor
  · rintro ⟨q, hq, rfl⟩
    obtain ⟨hr, m, hm, hk⟩ := (h.mem_points hc).mp hq
    have hin := chain_inside hr.inside
    obtain ⟨-, -, hothers⟩ := h.suspension_block (h.inside_lt hc hr.inside) hm hk
    have hnb : q.bb ≠ 1 := (hothers _ hc).1
    have hnl : q.bb ≠ n + 3 := (hothers _ hc).2
    have hn2 : q.bb ≠ 2 := fun heq => by
      rw [Hooks.classifyMarker, Cfg.stmts, chain_block, heq] at hm
      cases hm
    omega
  · intro hb
    have h1 : 2 ≤ b := by omega
    have h2 : b ≤ n + 2 := by omega
    refine ⟨⟨b, 0, .yield⟩, (h.mem_points hc).mpr ⟨chain_reached h1 h2, .yield, ?_, rfl⟩, rfl⟩
    simp [Hooks.classifyMarker, Cfg.stmts, chain_block, Hooks.classify, chainHooks, show ¬b = 0 by omega, show ¬b = 1 by omega,
      show ¬b = 2 by omega, show b ≤ n + 2 by omega]

/-- The machines of the chain: one. -/
theorem chain_machine : ∃ m, (machinesOf (chainHooks p) (yieldChain n t) (chainRegion p n)).1 = [m] := by
  obtain ⟨lo, ll, A⟩ := (chain_confined (p := p) (n := n) (t := t)).toMarked.assembly rfl Extends.refl
  exact List.length_eq_one_iff.mp A.count

end

/-- With as many yields as the number that stands for done, the last of them does not suspend the coroutine. -/
theorem suspended_taken_for_finished :
    ∃ m, (machinesOf (chainHooks none) (yieldChain 9999 0) (chainRegion none 9999)).1[0]? = some m ∧
      ¬∃ id resume, NeverMistaken (yieldChain 9999 0)
        (transformRegion (chainHooks none) waker [] (yieldChain 9999 0) (chainRegion none 9999)).2
        (findSuspensionPoints (chainHooks none) (yieldChain 9999 0) (chainCoroutine none 9999)) m id resume := by
  obtain ⟨m, hm⟩ := chain_machine (p := none) (n := 9999) (t := 0)
  have hm0 : (machinesOf (chainHooks none) (yieldChain 9999 0) (chainRegion none 9999)).1[0]? = some m := by
    rw [hm]
    rfl
  refine ⟨m, hm0, fun hnm => ?_⟩
  have hlen : (findSuspensionPoints (chainHooks none) (yieldChain 9999 0) (chainCoroutine none 9999)).length = 9999 := by
    rw [← List.length_map (·.bb), chain_points, List.length_range']
  have hlt := (chain_confined.toMarked.never_mistaken (.inr ⟨[], rfl⟩) rfl hm0).mp hnm
  rw [hlen] at hlt
  exact lt_irrefl _ hlt

/-- A coroutine with three points. -/
theorem suspended_never_mistaken_chain :
    ∃ m, (∃ b next, TurnOf (transformRegion (chainHooks none) (cooperative (chainHooks none)) [] (yieldChain 3 0)
        (chainRegion none 3)).2 m b next) ∧
      (findSuspensionPoints (chainHooks none) (yieldChain 3 0) (chainCoroutine none 3)).length = 3 ∧
      ∃ id resume, NeverMistaken (yieldChain 3 0)
        (transformRegion (chainHooks none) (cooperative (chainHooks none)) [] (yieldChain 3 0) (chainRegion none 3)).2
        (findSuspensionPoints (chainHooks none) (yieldChain 3 0) (chainCoroutine none 3)) m id resume := by
  obtain ⟨m, hm⟩ := chain_machine (p := none) (n := 3) (t := 0)
  have hm0 : (machinesOf (chainHooks none) (yieldChain 3 0) (chainRegion none 3)).1[0]? = some m := by
    rw [hm]
    rfl
  have hlen : (findSuspensionPoints (chainHooks none) (yieldChain 3 0) (chainCoroutine none 3)).length = 3 := by
    rw [← List.length_map (·.bb), chain_points, List.length_range']
  obtain ⟨hturn, hiff⟩ := suspended_never_mistaken chain_confined.toMarked (.inl ⟨[], rfl⟩) rfl hm0
  exact ⟨m, hturn, hlen, hiff.mpr (by rw [hlen]; decide)⟩

/-! ## Several coroutines -/

/-- A marker or a plain statement, and the priority that it gives its coroutine. -/
abbrev CrewStmt := Option Marker × UInt32

/-- The blocks of a region of three coroutines: the first yields, the second has a guarded receive behind a statement, and
    the third sends. -/
def crewBlocks : List (Block (Stmt CrewStmt)) :=
  [⟨[.host (some .regionBegin, 0)], .goto 1⟩,
   ⟨[.host (some .coroutineBegin, 1)], .goto 2⟩,
   ⟨[.host (some .yield, 0)], .goto 3⟩,
   ⟨[.host (some .coroutineEnd, 0)], .goto 4⟩,
   ⟨[.host (some .coroutineBegin, 1)], .goto 5⟩,
   ⟨[.host (none, 1), .host (some .guardedRecv, 0)], .goto 6⟩,
   ⟨[.host (some .coroutineEnd, 0)], .goto 7⟩,
   ⟨[.host (some .coroutineBegin, 2)], .goto 8⟩,
   ⟨[.host (some .producingSend, 0)], .goto 9⟩,
   ⟨[.host (some .coroutineEnd, 0)], .goto 10⟩,
   ⟨[.host (some .regionEnd, 0)], .goto 11⟩,
   ⟨[], .ret⟩]

def crew : Body CrewStmt where
  ids := List.range 12
  next := 12
  block b := crewBlocks.getD b ⟨[], .ret⟩
  locals := []
  ids_lt _ hb := List.mem_range.mp hb
  ids_nodup := List.nodup_range

/-- With priorities the first two coroutines are one band, and the third is another; a deadlock is reported. -/
def crewHooks (banded : Bool) : Hooks CrewStmt := ⟨Prod.fst, fun u => if banded then some u.2 else none, some (none, 0)⟩

def crewRegion (banded : Bool) : Region :=
  let priority (n : UInt32) := if banded then some n else none
  ⟨(0, 0), (10, 0), [⟨(1, 0), (3, 0), priority 1⟩, ⟨(4, 0), (6, 0), priority 1⟩, ⟨(7, 0), (9, 0), priority 2⟩]⟩

section
variable {banded : Bool}

theorem crew_beyond {b : ℕ} (hb : 12 ≤ b) : crew.block b = ⟨[], .ret⟩ := by
  show crewBlocks.getD b ⟨[], .ret⟩ = _
  rw [List.getD_eq_getElem?_getD, List.getElem?_eq_none hb, Option.getD_none]

theorem crew_successors (b : ℕ) : crew.successors b = if b < 11 then [b + 1] else [] := by
  by_cases hb : b < 12
  · have hall : ∀ b < 12, crew.successors b = if b < 11 then [b + 1] else [] := by decide
    exact hall b hb
  · rw [Cfg.successors, Cfg.term, crew_beyond (not_lt.mp hb), if_neg (Nat.not_lt.mpr (Nat.le_of_succ_le (not_lt.mp hb)))]
    rfl

theorem crew_next {b s : ℕ} (hs : s ∈ crew.successors b) : b < 11 ∧ s = b + 1 := by
  rw [crew_successors] at hs
  split at hs
  · exact ⟨‹_›, List.mem_singleton.mp hs⟩
  · cases hs

/-- The bodies lie one behind the other, between the region's markers. -/
theorem crew_inside {c : Coroutine} (hle : c.begin.1 ≤ c.last.1) {b : ℕ} (h : Inside crew c b) :
    c.begin.1 ≤ b ∧ b ≤ c.last.1 := by
  induction h with
  | begin => exact ⟨le_rfl, hle⟩
  | last => exact ⟨hle, le_rfl⟩
  | next _ hb hs ih =>
    obtain ⟨-, rfl⟩ := crew_next hs
    exact ⟨Nat.le_succ_of_le ih.1, Nat.lt_of_le_of_ne ih.2 hb⟩

theorem crew_plain {b : ℕ} (h : Plain crew (crewRegion banded) 0 b) : b = 0 ∨ b = 11 := by
  induction h with
  | start => exact .inl rfl
  | next _ hb hs ih =>
    obtain ⟨hlt, -⟩ := crew_next hs
    exact absurd (ih.resolve_right (Nat.ne_of_lt hlt)) hb
  | behind _ hs _ => exact .inr (crew_next hs).2

/-- A block holds one marker at most. -/
theorem crew_marker {b i j : ℕ} {m m' : Marker} (hb : b < 12) (hi : (crewHooks banded).classifyMarker crew b i = some m)
    (hj : (crewHooks banded).classifyMarker crew b j = some m') : i = j := by
  have hlt : ∀ {i m}, (crewHooks banded).classifyMarker crew b i = some m → i < (crew.stmts b).length := by
    intro i m h
    obtain ⟨u, hu⟩ := classify_host h
    exact (List.getElem?_eq_some_iff.mp hu).1
  have hall : ∀ b < 12, ∀ i < (crew.stmts b).length, ∀ j < (crew.stmts b).length,
      ((crewHooks false).classifyMarker crew b i).isSome → ((crewHooks false).classifyMarker crew b j).isSome → i = j := by
    decide
  exact hall b hb i (hlt hi) j (hlt hj) (Option.isSome_iff_exists.mpr ⟨m, hi⟩) (Option.isSome_iff_exists.mpr ⟨m', hj⟩)

theorem crew_conforms : Conforms (crewHooks banded) crew (crewRegion banded) 0 := by
  have hbounds : ∀ c ∈ (crewRegion banded).coroutines, 1 ≤ c.begin.1 ∧ c.begin.1 ≤ c.last.1 ∧ c.last.1 < 10 := by
    cases banded <;> decide
  have hinside : ∀ c ∈ (crewRegion banded).coroutines, ∀ b, Inside crew c b → c.begin.1 ≤ b ∧ b ≤ c.last.1 :=
    fun c hc b h => crew_inside (hbounds c hc).2.1 h
  have hlast : ∀ c ∈ (crewRegion banded).coroutines, ∀ b, Inside crew c b → b < 10 :=
    fun c hc b h => Nat.lt_of_le_of_lt (hinside c hc b h).2 (hbounds c hc).2.2
  have hapart : (crewRegion banded).coroutines.Pairwise fun c d => c.last.1 < d.begin.1 := by
    cases banded <;> decide
  have hterms : ∀ b < 12, crew.term b = .ret ∨ crew.term b = .goto (b + 1) := by decide
  have hbelow : ∀ b < 12, ∀ s ∈ crew.stmts b, s.Below 0 := by decide
  refine
    { start_lt := Nat.zero_lt_succ _
      targets := fun b _ s hs => ?_
      nonempty := List.cons_ne_nil _ _
      markers_lt := by cases banded <;> decide
      region_begin := rfl
      region_end := rfl
      coroutine_begin := by cases banded <;> decide
      coroutine_end := by cases banded <;> decide
      alone := fun b hb i j m m' hi hj hij => absurd (crew_marker hb hi hj) (Nat.ne_of_lt hij)
      apart := fun j k c d hj hk b hc hd => ?_
      begin_outside := fun c hc h => absurd (hinside c hc _ h).1 (Nat.not_le_of_lt (hbounds c hc).1)
      end_outside := fun c hc h => absurd (hlast c hc _ h) (lt_irrefl 10)
      plain := fun b hb => ?_
      stmts_below := hbelow
      term_below := fun b hb => ?_
      entered_once := fun c hc b hin _ hs => ?_
      begins := by cases banded <;> decide
      ends := by cases banded <;> decide
      end_last := rfl }
  · obtain ⟨hlt, rfl⟩ := crew_next hs
    exact Nat.succ_lt_succ hlt
  · obtain ⟨hj', rfl⟩ := List.getElem?_eq_some_iff.mp hj
    obtain ⟨hk', rfl⟩ := List.getElem?_eq_some_iff.mp hk
    obtain ⟨hc₁, hc₂⟩ := hinside _ (List.getElem_mem hj') b hc
    obtain ⟨hd₁, hd₂⟩ := hinside _ (List.getElem_mem hk') b hd
    obtain hlt | heq | hlt := Nat.lt_trichotomy j k
    · exact absurd (List.pairwise_iff_getElem.mp hapart j k hj' hk' hlt) (Nat.not_lt.mpr (hd₁.trans hc₂))
    · exact heq
    · exact absurd (List.pairwise_iff_getElem.mp hapart k j hk' hj' hlt) (Nat.not_lt.mpr (hc₁.trans hd₂))
  · obtain rfl | rfl := crew_plain hb
    · exact ⟨by rintro ⟨⟩, fun _ _ _ => rfl⟩
    · exact ⟨by rintro ⟨⟩, fun c hc h => absurd (hlast c hc _ h) (by decide)⟩
  · obtain hterm | hterm := hterms b hb <;> rw [hterm] <;> trivial
  · obtain ⟨-, heq⟩ := crew_next hs
    exact absurd (hinside c hc b hin).1 (Nat.not_le_of_lt (heq ▸ Nat.lt_succ_self b))

theorem crew_found : findRegions (crewHooks banded) crew = [crewRegion banded] := by
  cases banded <;> decide

theorem crew_few : ∀ c ∈ (crewRegion banded).coroutines, (findSuspensionPoints (crewHooks banded) crew c).length < 9999 := by
  cases banded <;> decide

end

end Krio.Stackless
