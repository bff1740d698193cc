import Krio.Stackless.Reach

/-! The scan of a priority loop, stop by stop: what comes before and after a stop, and that its two halves share the
blocks behind the poll. -/

namespace Krio.Stackless

variable {U : Type} {hooks : Hooks U} {cfg : Body U} {P Q : ℕ → Prop} {top final b next : ℕ} {s s' : Stop} {a a' : StopBlocks}
  {ss rest passed : List Stop}

theorem Chain.drop (h : Chain cfg P Q top final b (passed ++ rest)) : ∃ b', Chain cfg P Q top final b' rest := by
  induction passed generalizing b with
  | nil => exact ⟨b, h⟩
  | cons s passed ih =>
    cases h with
    | stop here goOn => exact ih goOn

/-- The scan of `ss` stands at `b`, before the stops `rest`. -/
structure AtSite (cfg : Body U) (P Q : ℕ → Prop) (top final : ℕ) (ss rest : List Stop) (b : ℕ) : Prop where
  suffix : rest <:+ ss
  chain : Chain cfg P Q top final b rest

/-- The stop `s` of the scan has its blocks `a`, and its site is `b`; the scan goes on at `next` before `rest`. -/
structure AtStop (cfg : Body U) (P Q : ℕ → Prop) (top final : ℕ) (ss : List Stop) (s : Stop) (a : StopBlocks)
    (b next : ℕ) (rest : List Stop) : Prop where
  suffix : s :: rest <:+ ss
  here : StopAt cfg P Q top s a b next
  goOn : Chain cfg P Q top final next rest

namespace AtStop

theorem mem (h : AtStop cfg P Q top final ss s a b next rest) : s ∈ ss := h.suffix.subset List.mem_cons_self

theorem site (h : AtStop cfg P Q top final ss s a b next rest) : AtSite cfg P Q top final ss (s :: rest) b :=
  ⟨h.suffix, .stop h.here h.goOn⟩

theorem next_site (h : AtStop cfg P Q top final ss s a b next rest) : AtSite cfg P Q top final ss rest next :=
  ⟨(List.suffix_cons _ _).trans h.suffix, h.goOn⟩

end AtStop

theorem AtSite.stop (h : AtSite cfg P Q top final ss (s :: rest) b) : ∃ a next, AtStop cfg P Q top final ss s a b next rest := by
  cases h.chain with
  | stop here goOn => exact ⟨_, _, h.suffix, here, goOn⟩

theorem Chain.atStop (h : Chain cfg P Q top final b ss) (hs : s ∈ ss) :
    ∃ a b' next rest, AtStop cfg P Q top final ss s a b' next rest := by
  obtain ⟨passed, rest, rfl⟩ := List.append_of_mem hs
  obtain ⟨b', hb'⟩ := h.drop
  obtain ⟨a, next, hstop⟩ := AtSite.stop ⟨List.suffix_append _ _, hb'⟩
  exact ⟨a, b', next, rest, hstop⟩

/-- Two stops for one machine share what comes after the poll. -/
theorem StopAt.shared {b' next' : ℕ} (h : StopAt cfg P Q top s a b next) (h' : StopAt cfg P Q top s' a' b' next')
    (hm : s.machine = s'.machine) : a.after = a'.after ∧ a.passOn = a'.passOn ∧ a.ran = a'.ran := by
  have hafter : a.after = a'.after := by
    have heq := h'.exit
    rw [← hm, h.exit] at heq
    exact Term.goto.inj (congrArg Block.term heq)
  have hblock := h'.after
  rw [← hafter, h.after] at hblock
  have hterm := Term.branch.inj (congrArg Block.term hblock)
  exact ⟨hafter, hterm.2.1, hterm.2.2⟩

/-- The other half's stop for the same member. -/
def Stop.twin (s : Stop) : Stop := { s with second := !s.second }

theorem twin_mem {bands : List Band} (hs : s ∈ scanStops bands) : s.twin ∈ scanStops bands := by
  obtain ⟨band, hband, hs⟩ := List.mem_flatMap.mp hs
  refine List.mem_flatMap.mpr ⟨band, hband, ?_⟩
  have hstops : ∀ {c}, s ∈ band.stops c → s.second = c ∧ s.twin ∈ band.stops (!c) := by
    intro c hs
    obtain ⟨i, hi⟩ := List.mem_iff_getElem?.mp hs
    rw [Band.stops, List.getElem?_mapIdx] at hi
    obtain ⟨m, hm, rfl⟩ := Option.map_eq_some_iff.mp hi
    refine ⟨rfl, List.mem_iff_getElem?.mpr ⟨i, ?_⟩⟩
    rw [Band.stops, List.getElem?_mapIdx, hm]
    rfl
  rcases List.mem_append.mp hs with hs | hs
  · exact List.mem_append_right _ (hstops hs).2
  · exact List.mem_append_left _ (hstops hs).2

/-- Where the blocks behind the poll go on: after the first half or the second. -/
theorem AtStop.passOn_twin {bands : List Band} (h : AtStop cfg P Q top final (scanStops bands) s a b next rest)
    (hscan : ∃ head, Chain cfg P Q top final head (scanStops bands)) :
    ∃ a' b' next' rest', AtStop cfg P Q top final (scanStops bands) s.twin a' b' next' rest' ∧
      cfg.block a.passOn = ⟨[], .switch s.sweep [(0, if s.second then next' else next)] (if s.second then next else next')⟩ := by
  obtain ⟨head, hscan⟩ := hscan
  obtain ⟨a', b', next', rest', h'⟩ := hscan.atStop (twin_mem h.mem)
  refine ⟨a', b', next', rest', h', ?_⟩
  obtain ⟨-, hpass, -⟩ := h.here.shared h'.here rfl
  obtain ⟨first, second, hb, hn⟩ := h.here.passOn
  obtain ⟨first', second', hb', hn'⟩ := h'.here.passOn
  have hblock := hb
  rw [hpass, hb'] at hblock
  have hterm := Term.switch.inj (congrArg Block.term hblock)
  have hfirst : first' = first := by simpa using hterm.2.1
  have hsecond : second' = second := hterm.2.2
  have htwin : s.twin.second = !s.second := rfl
  rw [htwin, hfirst, hsecond] at hn'
  rw [hb, hn, hn']
  cases s.second <;> rfl

/-! ## The blocks of the loop -/

/-- The blocks of one stop. -/
def StopBlocks.here (a : StopBlocks) (s : Stop) (b : ℕ) : List ℕ := [b, a.poll, s.machine.exitBb, a.after, a.ran, a.passOn]

/-- The blocks of a priority loop that control can be in. -/
inductive InLoop (cfg : Body U) (P P' Q : ℕ → Prop) (bands : List Band) (ms : List Machine) (n stuck : ℕ) : ℕ → Prop
  | exit : InLoop cfg P P' Q bands ms n stuck n
  | post : InLoop cfg P P' Q bands ms n stuck (n + 1)
  | init : InLoop cfg P P' Q bands ms n stuck (n + 2)
  | top : InLoop cfg P P' Q bands ms n stuck (n + 3)
  | site {rest : List Stop} {b : ℕ} (h : AtSite cfg P Q (n + 3) (n + 4) (scanStops bands) rest b) :
      InLoop cfg P P' Q bands ms n stuck b
  | stop {s : Stop} {a : StopBlocks} {b c next : ℕ} {rest : List Stop}
      (h : AtStop cfg P Q (n + 3) (n + 4) (scanStops bands) s a b next rest) (hc : c ∈ a.here s b) :
      InLoop cfg P P' Q bands ms n stuck c
  | check {rest : List Machine} {b : ℕ} (h : Checks cfg P' Q (stuck + 1) n b rest) : InLoop cfg P P' Q bands ms n stuck b
  | noProgress : InLoop cfg P P' Q bands ms n stuck (stuck + 1)
  | stuck : InLoop cfg P P' Q bands ms n stuck stuck

/-- A first half always polls: its site leads to the poll, and the poll to the machine and on. -/
theorem Chain.reach (h : Chain cfg P Q top final b ss) {c : ℕ} (hc : Reach cfg c b) :
    Reach cfg c final ∧ ∀ s ∈ ss, s.second = false → Reach cfg c s.machine.dispatchBb := by
  induction h with
  | done => exact ⟨hc, fun s hs => absurd hs List.not_mem_nil⟩
  | @stop s a b next rest here goOn ih =>
    have hstop : Reach cfg c next ∧ (s.second = false → Reach cfg c s.machine.dispatchBb) := by
      cases hs : s.second with
      | true =>
        refine ⟨hc.step here.site ?_, fun h => by cases h⟩
        rw [hs]
        exact List.mem_append_right _ (List.mem_singleton_self _)
      | false =>
        have hpoll : Reach cfg c a.poll := by
          refine hc.step here.site ?_
          rw [hs]
          exact List.mem_append_right _ (List.mem_singleton_self _)
        exact ⟨hpoll.step here.poll List.mem_cons_self, fun _ => hpoll.step here.poll (List.mem_cons_of_mem _ (List.mem_singleton_self _))⟩
    obtain ⟨h1, h2⟩ := ih hstop.1
    refine ⟨h1, fun x hx hsec => ?_⟩
    rcases List.mem_cons.mp hx with rfl | hx
    · exact hstop.2 hsec
    · exact h2 x hx hsec

theorem Checks.reach {noProgress exit : ℕ} {ms : List Machine} (h : Checks cfg P Q noProgress exit b ms) {c : ℕ}
    (hc : Reach cfg c b) : Reach cfg c exit := by
  induction h with
  | done _ block => exact hc.step block (List.mem_singleton_self _)
  | check _ _ block _ ih => exact ih (hc.step block List.mem_cons_self)

/-- Every machine has a stop in the first half of the scan of its band. -/
theorem BandsAt.first_of_mem {r : Region} {ms : List Machine} {l site : ℕ} {bands : List Band} (h : BandsAt r ms l site bands)
    {m : Machine} (hm : m ∈ ms) : ∃ s ∈ scanStops bands, s.machine = m ∧ s.second = false := by
  have hmem : m ∈ (bands.map (·.members)).flatten := by
    rw [h.members]
    exact (members_perm r ms).mem_iff.mpr hm
  obtain ⟨members, hband, hmem⟩ := List.mem_flatten.mp hmem
  obtain ⟨band, hin, rfl⟩ := List.mem_map.mp hband
  obtain ⟨j, hj⟩ := List.mem_iff_getElem?.mp hmem
  refine ⟨⟨m, band.last, band.sweep, band.members.length, j, false⟩, ?_, rfl, rfl⟩
  refine List.mem_flatMap.mpr ⟨band, hin, List.mem_append_left _ (List.mem_iff_getElem?.mpr ⟨j, ?_⟩)⟩
  rw [Band.stops, List.getElem?_mapIdx, hj]
  rfl

/-- And the stops are for machines of the region. -/
theorem BandsAt.machine_mem {r : Region} {ms : List Machine} {l site : ℕ} {bands : List Band} (h : BandsAt r ms l site bands)
    (hs : s ∈ scanStops bands) : s.machine ∈ ms := by
  obtain ⟨band, hband, hs⟩ := List.mem_flatMap.mp hs
  have hmem : s.machine ∈ band.members := by
    have hstops : ∀ c, s ∈ band.stops c → s.machine ∈ band.members := fun c hs => by
      obtain ⟨i, hi⟩ := List.mem_iff_getElem?.mp hs
      rw [Band.stops, List.getElem?_mapIdx] at hi
      obtain ⟨m, hm, rfl⟩ := Option.map_eq_some_iff.mp hi
      exact List.mem_of_getElem? hm
    rcases List.mem_append.mp hs with hs | hs
    · exact hstops _ hs
    · exact hstops _ hs
  have hflat : s.machine ∈ (bands.map (·.members)).flatten := List.mem_flatten.mpr ⟨_, List.mem_map.mpr ⟨band, hband, rfl⟩, hmem⟩
  rw [h.members] at hflat
  exact (members_perm r ms).mem_iff.mp hflat

theorem PrioLoop.wires {r : Region} {ms : List Machine} {bands : List Band} {progress n stuck hi l site : ℕ} {t : Term}
    (h : PrioLoop hooks cfg hi Q bands ms progress n stuck t) (hbands : BandsAt r ms l site bands) :
    Wires cfg ms (n + 2) t (InLoop cfg (fun c => n + 5 ≤ c ∧ c < stuck ∨ ∃ m ∈ ms, c = m.exitBb)
      (fun c => c = n + 4 ∨ stuck + 1 < c ∧ c < hi) Q bands ms n stuck) := by
  have htop : Reach cfg (n + 2) (n + 3) := Reach.step .refl h.init (List.mem_singleton_self _)
  have hhead : Reach cfg (n + 2) (scanHead (n + 4) bands) := htop.step h.top (List.mem_singleton_self _)
  obtain ⟨hfinal, hdispatch⟩ := h.scan.reach hhead
  refine ⟨fun m hm => ?_, ⟨n + 1, (h.checks.reach hfinal).step h.exit (List.mem_singleton_self _), h.post⟩, .init, fun m hm => ?_, ?_⟩
  · obtain ⟨s, hs, rfl, hsec⟩ := hbands.first_of_mem hm
    exact hdispatch s hs hsec
  · obtain ⟨s, hs, rfl, hsec⟩ := hbands.first_of_mem hm
    obtain ⟨a, b, next, rest, hstop⟩ := h.scan.atStop hs
    exact .stop hstop (by simp [StopBlocks.here])
  · generalize hL : InLoop cfg (fun c => n + 5 ≤ c ∧ c < stuck ∨ ∃ m ∈ ms, c = m.exitBb)
      (fun c => c = n + 4 ∨ stuck + 1 < c ∧ c < hi) Q bands ms n stuck = L
    have hcheck : ∀ {b rest}, Checks cfg (fun c => c = n + 4 ∨ stuck + 1 < c ∧ c < hi) Q (stuck + 1) n b rest →
        ∀ y ∈ cfg.successors b, L y ∨ (∃ m ∈ ms, y = m.dispatchBb) ∨ y ∈ t.successors := by
      intro b rest hc
      rw [← hL]
      cases hc with
      | done _ block =>
        refine closed_of_block block fun y hy => .inl ?_
        rw [List.mem_singleton.mp hy]
        exact .exit
      | check _ _ block goOn =>
        refine closed_of_block block fun y hy => .inl ?_
        rcases List.mem_pair.mp hy with rfl | rfl
        · exact .check goOn
        · exact .noProgress
    have hstop : ∀ {s a b next rest}, AtStop cfg (fun c => n + 5 ≤ c ∧ c < stuck ∨ ∃ m ∈ ms, c = m.exitBb) Q (n + 3) (n + 4)
        (scanStops bands) s a b next rest → ∀ c ∈ a.here s b, ∀ y ∈ cfg.successors c,
        L y ∨ (∃ m ∈ ms, y = m.dispatchBb) ∨ y ∈ t.successors := by
      intro s a b next rest hstop c hc
      have hsite : ∀ {b rest}, AtSite cfg (fun c => n + 5 ≤ c ∧ c < stuck ∨ ∃ m ∈ ms, c = m.exitBb) Q (n + 3) (n + 4)
          (scanStops bands) rest b → L b := fun hs => by
        rw [← hL]
        exact .site hs
      have hin : ∀ y ∈ a.here s b, L y := fun y hy => by
        rw [← hL]
        exact .stop hstop hy
      have hhere := hstop.here
      simp only [StopBlocks.here, List.mem_cons, List.not_mem_nil, or_false] at hc hin
      rcases hc with rfl | rfl | rfl | rfl | rfl | rfl
      · refine closed_of_block hhere.site fun y hy => .inl ?_
        have hcases : y = a.poll ∨ y = next := by
          rcases List.mem_append.mp hy with hy | hy
          · obtain ⟨x, hx, rfl⟩ := List.mem_map.mp hy
            obtain ⟨v, -, rfl⟩ := List.mem_map.mp hx
            cases s.second <;> simp
          · rw [List.mem_singleton.mp hy]
            cases s.second <;> simp
        rcases hcases with rfl | rfl
        · exact hin _ (.inr (.inl rfl))
        · exact hsite hstop.next_site
      · refine closed_of_block hhere.poll fun y hy => ?_
        rcases List.mem_pair.mp hy with rfl | rfl
        · exact .inl (hsite hstop.next_site)
        · exact .inr (.inl ⟨_, hbands.machine_mem hstop.mem, rfl⟩)
      · refine closed_of_block hhere.exit fun y hy => .inl ?_
        rw [List.mem_singleton.mp hy]
        exact hin _ (.inr (.inr (.inr (.inl rfl))))
      · refine closed_of_block hhere.after fun y hy => .inl ?_
        rcases List.mem_pair.mp hy with rfl | rfl
        · exact hin _ (.inr (.inr (.inr (.inr (.inr rfl)))))
        · exact hin _ (.inr (.inr (.inr (.inr (.inl rfl)))))
      · refine closed_of_block hhere.ran fun y hy => .inl ?_
        rw [List.mem_singleton.mp hy, ← hL]
        exact .top
      · obtain ⟨a', b', next', rest', htwin, hblock⟩ := hstop.passOn_twin ⟨_, h.scan⟩
        refine closed_of_block hblock fun y hy => .inl ?_
        have hcases : y = next ∨ y = next' := by
          rcases List.mem_pair.mp hy with rfl | rfl <;> cases s.second <;> simp
        rcases hcases with rfl | rfl
        · exact hsite hstop.next_site
        · exact hsite htwin.next_site
    intro b hb
    rw [← hL] at hb
    cases hb with
    | exit =>
      refine closed_of_block h.exit fun y hy => .inl ?_
      rw [List.mem_singleton.mp hy, ← hL]
      exact .post
    | post => exact closed_of_block h.post fun y hy => .inr (.inr hy)
    | init =>
      refine closed_of_block h.init fun y hy => .inl ?_
      rw [List.mem_singleton.mp hy, ← hL]
      exact .top
    | top =>
      refine closed_of_block h.top fun y hy => .inl ?_
      rw [List.mem_singleton.mp hy, ← hL]
      exact .site ⟨List.suffix_rfl, h.scan⟩
    | @site rest b hs =>
      cases rest with
      | nil =>
        cases hs.chain
        exact hcheck h.checks
      | cons s rest =>
        obtain ⟨a, next, hs⟩ := hs.stop
        exact hstop hs b List.mem_cons_self
    | stop hs hc => exact hstop hs _ hc
    | check hc => exact hcheck hc
    | noProgress =>
      obtain ⟨d, -, hblock⟩ := h.noProgress
      refine closed_of_block hblock fun y hy => .inl ?_
      rw [← hL]
      rcases List.mem_pair.mp hy with rfl | rfl
      · exact .top
      · exact .stuck
    | stuck =>
      refine closed_of_block (x := (stuckBlock hooks (n + 3)).stmts) h.stuck_block fun y hy => .inl ?_
      rw [stuckBlock_successors hy, ← hL]
      exact .top

/-- The loop's blocks are new. -/
theorem InLoop.new {ms : List Machine} {bands : List Band} {n stuck hi lo : ℕ}
    (h : InLoop cfg (fun c => n + 5 ≤ c ∧ c < stuck ∨ ∃ m ∈ ms, c = m.exitBb) (fun c => c = n + 4 ∨ stuck + 1 < c ∧ c < hi) Q bands
      ms n stuck b) (hlo : lo ≤ n) (hstuck : n ≤ stuck) (hexits : ∀ m ∈ ms, lo ≤ m.exitBb) : lo ≤ b := by
  have hP : ∀ {c}, (n + 5 ≤ c ∧ c < stuck ∨ ∃ m ∈ ms, c = m.exitBb) → lo ≤ c := by
    rintro c (hc | ⟨m, hm, rfl⟩)
    · omega
    · exact hexits m hm
  cases h with
  | exit => omega
  | post => omega
  | init => omega
  | top => omega
  | site h =>
    cases h.chain with
    | done => omega
    | stop here goOn => exact hP here.mem.1
  | stop h hc =>
    obtain ⟨h1, h2, h3, h4, h5, h6⟩ := h.here.mem
    simp only [StopBlocks.here, List.mem_cons, List.not_mem_nil, or_false] at hc
    rcases hc with rfl | rfl | rfl | rfl | rfl | rfl
    · exact hP h1
    · exact hP h2
    · exact hP h6
    · exact hP h3
    · exact hP h4
    · exact hP h5
  | check h =>
    cases h with
    | done mem _ => omega
    | check mem _ _ _ => omega
  | noProgress => omega
  | stuck => omega

end Krio.Stackless
