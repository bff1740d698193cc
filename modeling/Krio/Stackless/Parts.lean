import Krio.Stackless.Transformed

/-! The blocks of a machine after the transform: what each does and where it leads. -/

namespace Krio.Stackless

variable {U : Type} {hooks : Hooks U} {cfg cfg' : Body U} {r : Region} {start : ℕ}

theorem stateTargets_blocks (entries : List ℕ) : (stateTargets entries).map (·.2) = entries := by
  refine List.ext_getElem? fun i => ?_
  rw [stateTargets, List.getElem?_map, List.getElem?_mapIdx, Option.map_map]
  cases entries[i]? <;> rfl

/-- The blocks of the machine `m` of the coroutine `co`, but for its exit; `F` holds the new ones. -/
inductive Part (cfg cfg' : Body U) (F : ℕ → Prop) (co : Coroutine) (pts : List Point) (m : Machine) (entry : ℕ)
    (entries : List ℕ) (done : ℕ) : ℕ → Prop
  | dispatch : Part cfg cfg' F co pts m entry entries done m.dispatchBb
  | entry : Part cfg cfg' F co pts m entry entries done entry
  | body {b : ℕ} (inside : Inside cfg co b) (hb : b ≠ co.begin.1) (hl : b ≠ co.last.1) (hp : ∀ p ∈ pts, p.bb ≠ b) :
      Part cfg cfg' F co pts m entry entries done b
  | point {p : Point} (hp : p ∈ pts) : Part cfg cfg' F co pts m entry entries done p.bb
  | resume {e : ℕ} (he : e ∈ entries) : Part cfg cfg' F co pts m entry entries done e
  | through {b c : ℕ} {u : U} {l : List (Stmt U)} (hF : F b) (hc : Inside cfg co c) (hne : c ≠ co.last.1)
      (hl : l <:+ cfg.stmts c) (block : cfg'.block b = ⟨.assignI64 m.progressLocal 1 :: .recv u :: l, cfg.term c⟩) :
      Part cfg cfg' F co pts m entry entries done b
  | suspend {b id : ℕ} {res : ℤ} (hF : F b) (hid : 1 ≤ id ∧ id ≤ pts.length) (hres : res = pollPending ∨ res = pollBlocked)
      (block : Suspends cfg' m b id res) : Part cfg cfg' F co pts m entry entries done b
  | last : Part cfg cfg' F co pts m entry entries done co.last.1
  | done : Part cfg cfg' F co pts m entry entries done done

/-- Statements of a coroutine's body, and erased markers. -/
def OfBody (cfg : Body U) (co : Coroutine) (l : List (Stmt U)) : Prop :=
  ∀ s ∈ l, s = .nop ∨ ∃ c, Inside cfg co c ∧ s ∈ cfg.stmts c

/-- What the block `b` of a machine does; `A` holds the machine's blocks, `T` the locals of its checks. -/
inductive Does (cfg cfg' : Body U) (T A : ℕ → Prop) (co : Coroutine) (count : ℕ) (m : Machine) (done : ℕ) (b : ℕ) : Prop
  | dispatches (h : b = m.dispatchBb)
  | runs {c : ℕ} {l : List (Stmt U)} (hl : OfBody cfg co l) (hc : Inside cfg co c) (hne : c ≠ co.last.1)
      (block : cfg'.block b = ⟨l, cfg.term c⟩)
  | cut {y : ℕ} {l : List (Stmt U)} (hl : OfBody cfg co l) (hy : A y) (block : cfg'.block b = ⟨l, .goto y⟩)
  | guards {u : U} {d x y : ℕ} (hd : T d) (hx : A x) (hy : A y) (block : cfg'.block b = ⟨[.peek u d], .branch d x y⟩)
  | through {u : U} {c : ℕ} {l : List (Stmt U)} (hl : OfBody cfg co l) (hc : Inside cfg co c) (hne : c ≠ co.last.1)
      (block : cfg'.block b = ⟨.assignI64 m.progressLocal 1 :: .recv u :: l, cfg.term c⟩)
  | suspends {id : ℕ} {res : ℤ} (hid : 1 ≤ id ∧ id ≤ count) (hres : res = pollPending ∨ res = pollBlocked)
      (block : Suspends cfg' m b id res)
  | last {l : List (Stmt U)} (h : b = co.last.1) (hl : OfBody cfg co l) (block : cfg'.block b = ⟨l, .goto done⟩)
  | done (h : b = done)
      (block : cfg'.block b = ⟨[.assignI64 m.pollResultLocal pollReady, .assignI64 m.stateLocal doneState], .goto m.exitBb⟩)

/-- `A` holds the blocks of a machine that its points lead to. -/
structure Gathers (cfg cfg' : Body U) (F : ℕ → Prop) (co : Coroutine) (pts : List Point) (m : Machine) (entries : List ℕ)
    (A : ℕ → Prop) : Prop where
  resume : ∀ e ∈ entries, A e
  suspend : ∀ {b id : ℕ} {res : ℤ}, F b → 1 ≤ id ∧ id ≤ pts.length → res = pollPending ∨ res = pollBlocked →
    Suspends cfg' m b id res → A b
  through : ∀ {b c : ℕ} {u : U} {l : List (Stmt U)}, F b → Inside cfg co c → c ≠ co.last.1 → l <:+ cfg.stmts c →
    cfg'.block b = ⟨.assignI64 m.progressLocal 1 :: .recv u :: l, cfg.term c⟩ → A b

section
variable {F T A : ℕ → Prop} {co : Coroutine} {pts : List Point} {m : Machine} {entry done : ℕ} {entries : List ℕ} {b c : ℕ}
  {l : List (Stmt U)}

theorem Part.gathers : Gathers cfg cfg' F co pts m entries (Part cfg cfg' F co pts m entry entries done) :=
  ⟨fun _ he => .resume he, fun hF hid hres hb => .suspend hF hid hres hb, fun hF hc hne hl hb => .through hF hc hne hl hb⟩

theorem OfBody.of_subset (hc : Inside cfg co c) (hl : ∀ s ∈ l, s ∈ cfg.stmts c) : OfBody cfg co l :=
  fun s hs => .inr ⟨c, hc, hl s hs⟩

theorem OfBody.append_nop {l l' : List (Stmt U)} (h : OfBody cfg co l) (h' : OfBody cfg co l') :
    OfBody cfg co (l ++ .nop :: l') := by
  intro s hs
  rcases List.mem_append.mp hs with hs | hs
  · exact h s hs
  · rcases List.mem_cons.mp hs with rfl | hs
    · exact .inl rfl
    · exact h' s hs

theorem part_of_inside (hb : Inside cfg co b) (hne : b ≠ co.begin.1) : Part cfg cfg' F co pts m entry entries done b := by
  by_cases hl : b = co.last.1
  · exact hl ▸ .last
  · by_cases hp : ∃ p ∈ pts, p.bb = b
    · obtain ⟨p, hp, rfl⟩ := hp
      exact .point hp
    · exact .body hb hne hl fun p hp' heq => hp ⟨p, hp', heq⟩

/-- The three blocks of a site. -/
theorem Lowered.site_does (h : Lowered cfg cfg' r F T co pts m entry entries done) (hA : Gathers cfg cfg' F co pts m entries A)
    {j : ℕ} {p : Point} {e : ℕ}
    (hp : pts[j]? = some p) (he : entries[j]? = some e) (hin : Inside cfg co p.bb) (hne : p.bb ≠ co.last.1) :
    Does cfg cfg' T A co pts.length m done p.bb ∧ Does cfg cfg' T A co pts.length m done e := by
  have hj : 1 ≤ j + 1 ∧ j + 1 ≤ pts.length := ⟨Nat.le_add_left _ _, (List.getElem?_eq_some_iff.mp hp).1⟩
  have htake : ∀ i, OfBody cfg co ((cfg.stmts p.bb).take i) := fun i => .of_subset hin fun s => List.mem_of_mem_take
  have hdrop : ∀ i, OfBody cfg co ((cfg.stmts p.bb).drop i) := fun i => .of_subset hin fun s => List.mem_of_mem_drop
  have hnil : OfBody cfg co [] := fun s hs => absurd hs List.not_mem_nil
  cases h.sites j p e hp he with
  | yield kind hy he' suspends head tail =>
    exact ⟨.cut ((htake p.stmt).append_nop hnil) (hA.suspend hy hj (.inl rfl) suspends) head, .runs (hdrop _) hin hne tail⟩
  | send kind hy he' suspends head tail =>
    exact ⟨.cut (htake _) (hA.suspend hy hj (.inl rfl) suspends) head, .runs (hdrop _) hin hne tail⟩
  | guard kind hg hr hy hd suspends here guards tail =>
    have hguard : Does cfg cfg' T A co pts.length m done e :=
      .guards hd (hA.through hr hin hne (List.drop_suffix _ _) tail) (hA.suspend hy hj (.inr rfl) suspends) guards
    rcases hg with ⟨-, rfl⟩ | ⟨-, -, hblock⟩
    · exact ⟨hguard, hguard⟩
    · exact ⟨.cut (htake _) (hA.resume e (List.mem_of_getElem? he)) hblock, hguard⟩

/-- Every block of a machine does one of these things. -/
theorem Part.does (hpart : Part cfg cfg' F co pts m entry entries done b) (h : Lowered cfg cfg' r F T co pts m entry entries done)
    (hA : Gathers cfg cfg' F co pts m entries A) (hne : co.begin.1 ≠ co.last.1) (hpts : ∀ p ∈ pts, Inside cfg co p.bb ∧ p.bb ≠ co.last.1) :
    Does cfg cfg' T A co pts.length m done b := by
  cases hpart with
  | dispatch => exact .dispatches rfl
  | entry =>
    have hlead : OfBody cfg co (leadIn cfg r co) :=
      .of_subset .begin fun s hs => List.mem_of_mem_take (List.mem_of_mem_drop hs)
    exact .runs (hlead.append_nop (.of_subset .begin fun s hs => List.mem_of_mem_drop hs)) .begin hne h.entry_block
  | body inside hb hl hp => exact .runs (.of_subset inside fun s hs => hs) inside hl (h.body b inside hb hl hp)
  | @point p hp =>
    obtain ⟨j, hj⟩ := List.mem_iff_getElem?.mp hp
    have hlt : j < entries.length := h.count ▸ (List.getElem?_eq_some_iff.mp hj).1
    exact (h.site_does hA hj (List.getElem?_eq_getElem hlt) (hpts p hp).1 (hpts p hp).2).1
  | resume he =>
    obtain ⟨j, hj⟩ := List.mem_iff_getElem?.mp he
    have hlt : j < pts.length := h.count ▸ (List.getElem?_eq_some_iff.mp hj).1
    have hp := hpts _ (List.getElem_mem hlt)
    exact (h.site_does hA (List.getElem?_eq_getElem hlt) hj hp.1 hp.2).2
  | through hF hc hne hl block => exact .through (.of_subset hc fun s hs => hl.subset hs) hc hne block
  | suspend hF hid hres block => exact .suspends hid hres block
  | last =>
    refine .last rfl (OfBody.append_nop ?_ ?_) h.last
    · exact .of_subset .last fun s hs => List.mem_of_mem_take hs
    · exact .of_subset .last fun s hs => List.mem_of_mem_drop hs
  | done => exact .done rfl h.done_block

/-- Where the blocks of a machine lead: to its blocks and its exit, and back to the begin marker's block if the body does. -/
theorem Part.leads (hpart : Part cfg cfg' F co pts m entry entries done b) (h : Lowered cfg cfg' r F T co pts m entry entries done)
    (hne : co.begin.1 ≠ co.last.1) (hpts : ∀ p ∈ pts, Inside cfg co p.bb ∧ p.bb ≠ co.last.1) {s : ℕ} (hs : s ∈ cfg'.successors b) :
    Part cfg cfg' F co pts m entry entries done s ∨ s = m.exitBb ∨ s = co.begin.1 := by
  have hterm : ∀ {l : List (Stmt U)} {t : Term}, cfg'.block b = ⟨l, t⟩ → s ∈ t.successors := fun hb => by
    rwa [Cfg.successors, Cfg.term, hb] at hs
  have hbody : ∀ {c : ℕ}, Inside cfg co c → c ≠ co.last.1 → s ∈ cfg.successors c →
      Part cfg cfg' F co pts m entry entries done s ∨ s = m.exitBb ∨ s = co.begin.1 := fun hc hcl hs => by
    by_cases hsb : s = co.begin.1
    · exact .inr (.inr hsb)
    · exact .inl (part_of_inside (.next hc hcl hs) hsb)
  cases hpart.does h Part.gathers hne hpts with
  | dispatches heq =>
    subst heq
    rcases h.dispatches with ⟨-, d, -, hblock⟩ | ⟨-, hblock⟩
    · rcases List.mem_pair.mp (hterm hblock) with rfl | rfl
      · exact .inr (.inl rfl)
      · exact .inl .entry
    · have hmem := hterm hblock
      rw [Term.successors, stateTargets_blocks, List.mem_append, List.mem_singleton] at hmem
      rcases hmem with hmem | rfl
      · rcases List.mem_cons.mp hmem with rfl | hmem
        · exact .inl .entry
        · exact .inl (.resume hmem)
      · exact .inr (.inl rfl)
  | runs hl hc hcl block => exact hbody hc hcl (hterm block)
  | cut hl hy block => exact .inl (List.mem_singleton.mp (hterm block) ▸ hy)
  | guards hd hx hy block =>
    rcases List.mem_pair.mp (hterm block) with rfl | rfl
    · exact .inl hx
    · exact .inl hy
  | through hl hc hcl block => exact hbody hc hcl (hterm block)
  | suspends hid hres block => exact .inr (.inl (List.mem_singleton.mp (hterm block)))
  | last heq hl block => exact .inl (List.mem_singleton.mp (hterm block) ▸ .done)
  | done heq block => exact .inr (.inl (List.mem_singleton.mp (hterm block)))

end

end Krio.Stackless
