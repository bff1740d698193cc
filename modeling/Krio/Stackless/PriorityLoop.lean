import Mathlib.Tactic.Common
import Krio.Lib.Cut
import Krio.Stackless.Bands
import Krio.Stackless.Loops

/-! What the priority loop leaves in the body: the scan as a chain of stops, two for each member of a band, and
the blocks around it. -/

namespace Krio.Stackless

variable {U : Type}

/-! ## Stops -/

/-- One stop of a scan: member `index` of a band of `size`, in the first or the second half of the band's scan. -/
structure Stop where
  machine : Machine
  last : ℕ
  sweep : ℕ
  size : ℕ
  index : ℕ
  second : Bool
  deriving DecidableEq, Repr

/-- The members from this one on: who ran last if the stop is passed over in the first half, and polled in the
    second. -/
def Stop.later (s : Stop) : List ℤ := (List.range' s.index (s.size - s.index)).map (↑)

def Stop.half (s : Stop) : ℤ := if s.second then 1 else 0

/-- The blocks and locals of a stop. -/
structure StopBlocks where
  poll : ℕ
  after : ℕ
  ran : ℕ
  passOn : ℕ
  done : ℕ
  blocked : ℕ

/-- The stop `s` in the body: the scan comes to it at `b` and goes on at `next`. The blocks are in `P`, the locals
    in `Q`. -/
structure StopAt (cfg : Body U) (P Q : ℕ → Prop) (top : ℕ) (s : Stop) (a : StopBlocks) (b next : ℕ) : Prop where
  mem : P b ∧ P a.poll ∧ P a.after ∧ P a.ran ∧ P a.passOn ∧ P s.machine.exitBb
  temp : Q a.done ∧ Q a.blocked
  site : cfg.block b = ⟨[], .switch s.last (s.later.map fun v => (v, if s.second then a.poll else next))
    (if s.second then next else a.poll)⟩
  poll : cfg.block a.poll = ⟨[.assignI64 s.sweep s.half, .eqCheckI64 a.done s.machine.stateLocal doneState],
    .branch a.done next s.machine.dispatchBb⟩
  exit : cfg.block s.machine.exitBb = ⟨[], .goto a.after⟩
  after : cfg.block a.after =
    ⟨[.eqCheckI64 a.blocked s.machine.pollResultLocal pollBlocked], .branch a.blocked a.passOn a.ran⟩
  ran : cfg.block a.ran = ⟨[.assignI64 s.last s.index], .goto top⟩
  passOn : ∃ first second, cfg.block a.passOn = ⟨[], .switch s.sweep [(0, first)] second⟩ ∧
    next = if s.second then second else first

/-- A part of the scan: from the block through the stops to `final`. -/
inductive Chain (cfg : Body U) (P Q : ℕ → Prop) (top final : ℕ) : ℕ → List Stop → Prop
  | done : Chain cfg P Q top final final []
  | stop {s : Stop} {a : StopBlocks} {b next : ℕ} {rest : List Stop} (here : StopAt cfg P Q top s a b next)
      (goOn : Chain cfg P Q top final next rest) : Chain cfg P Q top final b (s :: rest)

section
variable {cfg cfg' : Body U} {P P' Q Q' : ℕ → Prop} {top mid final b next : ℕ} {s : Stop} {a : StopBlocks} {ss ss' : List Stop}

theorem StopAt.mono (h : StopAt cfg P Q top s a b next) (hP : ∀ c, P c → P' c ∧ cfg'.block c = cfg.block c)
    (hQ : ∀ d, Q d → Q' d) : StopAt cfg' P' Q' top s a b next := by
  obtain ⟨h1, h2, h3, h4, h5, h6⟩ := h.mem
  refine ⟨⟨(hP _ h1).1, (hP _ h2).1, (hP _ h3).1, (hP _ h4).1, (hP _ h5).1, (hP _ h6).1⟩,
    ⟨hQ _ h.temp.1, hQ _ h.temp.2⟩, (hP _ h1).2.trans h.site, (hP _ h2).2.trans h.poll, (hP _ h6).2.trans h.exit,
    (hP _ h3).2.trans h.after, (hP _ h4).2.trans h.ran, ?_⟩
  obtain ⟨first, second, hb, hn⟩ := h.passOn
  exact ⟨first, second, (hP _ h5).2.trans hb, hn⟩

theorem Chain.mono (h : Chain cfg P Q top final b ss) (hP : ∀ c, P c → P' c ∧ cfg'.block c = cfg.block c)
    (hQ : ∀ d, Q d → Q' d) : Chain cfg' P' Q' top final b ss := by
  induction h with
  | done => exact .done
  | stop here _ ih => exact .stop (here.mono hP hQ) ih

theorem Chain.append (h : Chain cfg P Q top mid b ss) (h' : Chain cfg P Q top final mid ss') :
    Chain cfg P Q top final b (ss ++ ss') := by
  induction h with
  | done => exact h'
  | stop here _ ih => exact .stop here ih

end

/-! ## Members -/

/-- The block `c` after member `k` of a band of `n` has been laid out. -/
def memberBlock (cfg : Body U) (top last sweep n k : ℕ) (site : ScanSite) (m : Machine) (c : ℕ) : Block (Stmt U) :=
  let l := cfg.locals.length
  let b := cfg.next
  let later : List ℤ := (List.range' k (n - k)).map (↑)
  if c = m.exitBb then ⟨cfg.stmts m.exitBb, .goto (b + 2)⟩
  else if c = site.first then ⟨cfg.stmts site.first, .switch last (later.map fun v => (v, site.nextFirst)) b⟩
  else if c = site.second then ⟨cfg.stmts site.second, .switch last (later.map fun v => (v, b + 1)) site.nextSecond⟩
  else if c = b then ⟨[.assignI64 sweep 0, .eqCheckI64 l m.stateLocal doneState], .branch l site.nextFirst m.dispatchBb⟩
  else if c = b + 1 then
    ⟨[.assignI64 sweep 1, .eqCheckI64 (l + 1) m.stateLocal doneState], .branch (l + 1) site.nextSecond m.dispatchBb⟩
  else if c = b + 2 then ⟨[.eqCheckI64 (l + 2) m.pollResultLocal pollBlocked], .branch (l + 2) (b + 4) (b + 3)⟩
  else if c = b + 3 then ⟨[.assignI64 last k], .goto top⟩
  else if c = b + 4 then ⟨[], .switch sweep [(0, site.nextFirst)] site.nextSecond⟩
  else cfg.block c

theorem emitPoll_block (cfg : Body U) (poll sweepLocal : ℕ) (sweep : ℤ) (next : ℕ) (m : Machine) (c : ℕ) :
    (emitPoll cfg poll sweepLocal sweep next m).block c =
      if c = poll then ⟨cfg.stmts poll ++ [.assignI64 sweepLocal sweep, .eqCheckI64 cfg.locals.length m.stateLocal doneState],
        .branch cfg.locals.length next m.dispatchBb⟩
      else cfg.block c := by
  by_cases hc : c = poll <;>
    simp [emitPoll, Cfg.newBoolLocal, Cfg.newLocal, Cfg.emit, Cfg.setBranch, Cfg.setTerm, Cfg.stmts, hc]

/-- The two poll blocks of a member, and its scan sites. -/
def emitSites (cfg : Body U) (lastLocal : ℕ) (later : List ℤ) (site : ScanSite) : Body U :=
  ((cfg.newBlock.2.newBlock.2).setSwitch site.first lastLocal (later.map fun v => (v, site.nextFirst)) cfg.next).setSwitch
    site.second lastLocal (later.map fun v => (v, cfg.next + 1)) site.nextSecond

theorem emitSites_block (cfg : Body U) (lastLocal : ℕ) (later : List ℤ) (site : ScanSite) (hf : site.first < cfg.next)
    (hs : site.second < cfg.next) (hfs : site.first ≠ site.second) (c : ℕ) :
    (emitSites cfg lastLocal later site).block c =
      if c = site.first then ⟨cfg.stmts site.first, .switch lastLocal (later.map fun v => (v, site.nextFirst)) cfg.next⟩
      else if c = site.second then
        ⟨cfg.stmts site.second, .switch lastLocal (later.map fun v => (v, cfg.next + 1)) site.nextSecond⟩
      else if c = cfg.next ∨ c = cfg.next + 1 then .fresh else cfg.block c := by
  simp only [emitSites, Cfg.setSwitch, Cfg.setTerm, Cfg.stmts, Cfg.set_block, Cfg.newBlock_block, Cfg.newBlock_next]
  grind

/-- What follows a poll of a member. -/
def emitAfter (cfg : Body U) (topBb lastLocal sweepLocal k : ℕ) (site : ScanSite) (machine : Machine) : Body U :=
  let (after, cfg) := cfg.newBlock
  let cfg := cfg.setGoto machine.exitBb after
  let (blocked, cfg) := cfg.newBoolLocal
  let cfg := cfg.emit after (.eqCheckI64 blocked machine.pollResultLocal pollBlocked)
  let (ran, cfg) := cfg.newBlock
  let (passOn, cfg) := cfg.newBlock
  let cfg := cfg.setBranch after blocked passOn ran
  let cfg := cfg.emit ran (.assignI64 lastLocal k)
  let cfg := cfg.setGoto ran topBb
  cfg.setSwitch passOn sweepLocal [(0, site.nextFirst)] site.nextSecond

theorem emitAfter_block (cfg : Body U) (top last sweep k : ℕ) (site : ScanSite) (m : Machine) (he : m.exitBb < cfg.next)
    (c : ℕ) :
    (emitAfter cfg top last sweep k site m).block c =
      if c = m.exitBb then ⟨cfg.stmts m.exitBb, .goto cfg.next⟩
      else if c = cfg.next then ⟨[.eqCheckI64 cfg.locals.length m.pollResultLocal pollBlocked],
        .branch cfg.locals.length (cfg.next + 2) (cfg.next + 1)⟩
      else if c = cfg.next + 1 then ⟨[.assignI64 last k], .goto top⟩
      else if c = cfg.next + 2 then ⟨[], .switch sweep [(0, site.nextFirst)] site.nextSecond⟩
      else cfg.block c := by
  simp only [emitAfter, Cfg.newBoolLocal, Cfg.newBlock, Cfg.emit, Cfg.setBranch, Cfg.setGoto, Cfg.setSwitch, Cfg.setTerm,
    Cfg.stmts, Cfg.set_block, Cfg.push_block, Cfg.set_next, Cfg.push_next, newLocal_next, newLocal_block, newLocal_fst,
    Cfg.set_locals, Cfg.push_locals]
  grind [Block.fresh]

theorem emitMember_block (cfg : Body U) (top last sweep n k : ℕ) (site : ScanSite) (m : Machine)
    (hf : site.first < cfg.next) (hs : site.second < cfg.next) (he : m.exitBb < cfg.next)
    (hfs : site.first ≠ site.second) (hef : m.exitBb ≠ site.first) (hes : m.exitBb ≠ site.second) :
    let out := emitMember cfg top last sweep n k site m
    out.next = cfg.next + 5 ∧ out.ids = cfg.ids ++ List.range' cfg.next 5 ∧
      out.locals = cfg.locals ++ [.bool, .bool, .bool] ∧ ∀ c, out.block c = memberBlock cfg top last sweep n k site m c := by
  intro out
  refine ⟨rfl, ?_, ?_, ?_⟩
  · simp [out, emitMember, emitPoll, Cfg.newBoolLocal, Cfg.newBlock, Cfg.emit, Cfg.setBranch, Cfg.setGoto, Cfg.setSwitch,
      Cfg.setTerm, List.range']
  · simp [out, emitMember, emitPoll, Cfg.newBoolLocal, Cfg.newBlock, Cfg.emit, Cfg.setBranch, Cfg.setGoto, Cfg.setSwitch,
      Cfg.setTerm]
  · intro c
    let a := emitSites cfg last ((List.range' k (n - k)).map (↑)) site
    let b := emitPoll a cfg.next sweep 0 site.nextFirst m
    let d := emitPoll b (cfg.next + 1) sweep 1 site.nextSecond m
    have hout : out = emitAfter d top last sweep k site m := rfl
    have hdn : d.next = cfg.next + 2 := rfl
    have hal : a.locals = cfg.locals := rfl
    have hbl : b.locals.length = cfg.locals.length + 1 := by
      simp [b, emitPoll, Cfg.newBoolLocal, Cfg.newLocal, Cfg.emit, Cfg.setBranch, Cfg.setTerm, hal]
    have hdl : d.locals.length = cfg.locals.length + 2 := by
      simp [d, emitPoll, Cfg.newBoolLocal, Cfg.newLocal, Cfg.emit, Cfg.setBranch, Cfg.setTerm, hbl]
    have ha := emitSites_block cfg last ((List.range' k (n - k)).map (↑)) site hf hs hfs
    rw [hout, emitAfter_block d top last sweep k site m (by omega), hdn, hdl]
    simp only [Cfg.stmts, d, emitPoll_block, b, hbl, hal]
    simp only [a, ha, memberBlock, Cfg.stmts]
    generalize (List.range' k (n - k)).map (fun v : ℕ => (v : ℤ)) = later
    grind [Block.fresh]

/-- The two stops of a member whose sites are `site`. -/
def BothStops (cfg : Body U) (P Q : ℕ → Prop) (top last sweep n k : ℕ) (site : ScanSite) (m : Machine) : Prop :=
  (∃ a, StopAt cfg P Q top ⟨m, last, sweep, n, k, false⟩ a site.first site.nextFirst) ∧
    ∃ a, StopAt cfg P Q top ⟨m, last, sweep, n, k, true⟩ a site.second site.nextSecond

theorem BothStops.mono {cfg cfg' : Body U} {P P' Q Q' : ℕ → Prop} {top last sweep n k : ℕ} {site : ScanSite} {m : Machine}
    (h : BothStops cfg P Q top last sweep n k site m) (hP : ∀ c, P c → P' c ∧ cfg'.block c = cfg.block c)
    (hQ : ∀ d, Q d → Q' d) : BothStops cfg' P' Q' top last sweep n k site m := by
  obtain ⟨⟨a, ha⟩, a', ha'⟩ := h
  exact ⟨⟨a, ha.mono hP hQ⟩, a', ha'.mono hP hQ⟩

/-- The old blocks that a member takes. -/
def memberSites (x : ScanSite × Machine) : List ℕ := [x.1.first, x.1.second, x.2.exitBb]

/-- `c` is one of the old blocks `bs`, or new between `cfg` and `cfg'`. -/
def Taken (bs : List ℕ) (cfg cfg' : Body U) (c : ℕ) : Prop := c ∈ bs ∨ cfg.next ≤ c ∧ c < cfg'.next

def NewLocal (cfg cfg' : Body U) (d : ℕ) : Prop := cfg.locals.length ≤ d ∧ d < cfg'.locals.length

theorem emitMember_spec (cfg : Body U) (top last sweep n k : ℕ) (site : ScanSite) (m : Machine)
    (hlt : ∀ b ∈ memberSites (site, m), b < cfg.next ∧ cfg.block b = .fresh) (hnodup : (memberSites (site, m)).Nodup) :
    let out := emitMember cfg top last sweep n k site m
    BothStops out (Taken (memberSites (site, m)) cfg out) (NewLocal cfg out) top last sweep n k site m ∧
      Extends (· ∈ memberSites (site, m)) cfg out := by
  intro out
  obtain ⟨hf, hff⟩ := hlt site.first (by simp [memberSites])
  obtain ⟨hs, hsf⟩ := hlt site.second (by simp [memberSites])
  obtain ⟨he, hef⟩ := hlt m.exitBb (by simp [memberSites])
  have hne : site.first ≠ site.second ∧ site.first ≠ m.exitBb ∧ site.second ≠ m.exitBb := by
    simp only [memberSites, List.nodup_cons, List.mem_cons, not_or] at hnodup
    exact ⟨hnodup.1.1, hnodup.1.2.1, hnodup.2.1.1⟩
  obtain ⟨h1, h2, h3⟩ := hne
  obtain ⟨hnext, hids, hlocals, hblk⟩ : out.next = _ ∧ out.ids = _ ∧ out.locals = _ ∧ ∀ c, out.block c = _ :=
    emitMember_block cfg top last sweep n k site m hf hs he h1 h2.symm h3.symm
  have hlen : out.locals.length = cfg.locals.length + 3 := by
    rw [hlocals]
    simp
  have hfs : cfg.stmts site.first = [] := congrArg Block.stmts hff
  have hss : cfg.stmts site.second = [] := congrArg Block.stmts hsf
  have hes : cfg.stmts m.exitBb = [] := congrArg Block.stmts hef
  have hP : ∀ i < 5, Taken (memberSites (site, m)) cfg out (cfg.next + i) := fun i hi => .inr ⟨by omega, by omega⟩
  have hQ : ∀ i < 3, NewLocal cfg out (cfg.locals.length + i) := fun i hi => ⟨by omega, by omega⟩
  have hexit : Taken (memberSites (site, m)) cfg out m.exitBb := .inl (by simp [memberSites])
  refine ⟨⟨⟨⟨cfg.next, cfg.next + 2, cfg.next + 3, cfg.next + 4, cfg.locals.length, cfg.locals.length + 2⟩, ?_⟩,
    ⟨cfg.next + 1, cfg.next + 2, cfg.next + 3, cfg.next + 4, cfg.locals.length + 1, cfg.locals.length + 2⟩, ?_⟩, ?_⟩
  · refine ⟨⟨.inl (by simp [memberSites]), hP 0 (by omega), hP 2 (by omega), hP 3 (by omega), hP 4 (by omega), hexit⟩,
      ⟨hQ 0 (by omega), hQ 2 (by omega)⟩, ?_, ?_, ?_, ?_, ?_, site.nextFirst, site.nextSecond, ?_, rfl⟩
    all_goals
      rw [hblk]
      grind [memberBlock, Stop.later, Stop.half]
  · refine ⟨⟨.inl (by simp [memberSites]), hP 1 (by omega), hP 2 (by omega), hP 3 (by omega), hP 4 (by omega), hexit⟩,
      ⟨hQ 1 (by omega), hQ 2 (by omega)⟩, ?_, ?_, ?_, ?_, ?_, site.nextFirst, site.nextSecond, ?_, rfl⟩
    all_goals
      rw [hblk]
      grind [memberBlock, Stop.later, Stop.half]
  · refine ⟨by omega, by omega, ?_, fun c hc hT => ?_⟩
    · rw [hids, show out.next - cfg.next = 5 by omega]
    · simp only [memberSites, List.mem_cons, List.not_mem_nil, not_or] at hT
      rw [hblk]
      grind [memberBlock]

theorem emitMembers_spec (top last sweep n : ℕ) (members : List (ScanSite × Machine)) (k : ℕ) (cfg : Body U)
    (hlt : ∀ b ∈ members.flatMap memberSites, b < cfg.next ∧ cfg.block b = .fresh)
    (hnodup : (members.flatMap memberSites).Nodup) :
    let out := emitMembers top last sweep n k members cfg
    (∀ (j : ℕ) (x : ScanSite × Machine), members[j]? = some x →
      BothStops out (Taken (members.flatMap memberSites) cfg out) (NewLocal cfg out) top last sweep n (k + j) x.1 x.2) ∧
      Extends (· ∈ members.flatMap memberSites) cfg out := by
  induction members generalizing k cfg with
  | nil => exact ⟨fun j x h => by simp at h, Extends.refl⟩
  | cons x members ih =>
    intro out
    obtain ⟨site, m⟩ := x
    rw [List.flatMap_cons] at hlt hnodup
    obtain ⟨hown, hrest, hdisj⟩ := List.nodup_append.mp hnodup
    obtain ⟨hstops, hext⟩ := emitMember_spec cfg top last sweep n k site m
      (fun b hb => hlt b (List.mem_append_left _ hb)) hown
    generalize hone : emitMember cfg top last sweep n k site m = one at hstops hext
    have hkept : ∀ b ∈ members.flatMap memberSites, one.block b = cfg.block b := fun b hb =>
      hext.same b (hlt b (List.mem_append_right _ hb)).1 fun hmem => hdisj b hmem b hb rfl
    obtain ⟨hall, hextr⟩ := ih (k + 1) one (fun b hb => by
      obtain ⟨h1, h2⟩ := hlt b (List.mem_append_right _ hb)
      exact ⟨h1.trans_le hext.next_le, (hkept b hb).trans h2⟩) hrest
    have hout : out = emitMembers top last sweep n (k + 1) members one := by
      rw [← hone]
      rfl
    rw [← hout] at hall hextr
    refine ⟨fun j x hx => ?_, (hext.mono fun c _ hc => List.mem_append_left _ hc).trans_new hextr fun c _ hc =>
      List.mem_append_right _ hc⟩
    cases j with
    | zero =>
      obtain rfl : (site, m) = x := Option.some.inj hx
      refine hstops.mono (fun c hc => ?_) fun d hd => ⟨hd.1, hd.2.trans_le hextr.locals_le⟩
      have hclt : c < one.next := by
        rcases hc with hc | hc
        · exact (hlt c (List.mem_append_left _ hc)).1.trans_le hext.next_le
        · exact hc.2
      refine ⟨?_, hextr.same c hclt fun hmem => ?_⟩
      · rcases hc with hc | hc
        · exact .inl (List.mem_append_left _ hc)
        · exact .inr ⟨hc.1, hc.2.trans_le hextr.next_le⟩
      · rcases hc with hc | hc
        · exact hdisj c hc c hmem rfl
        · have hold := (hlt c (List.mem_append_right _ hmem)).1
          omega
    | succ j =>
      have h := hall j x hx
      rw [show k + 1 + j = k + (j + 1) by omega] at h
      refine h.mono (fun c hc => ⟨?_, rfl⟩) fun d hd => ⟨hext.locals_le.trans hd.1, hd.2⟩
      rcases hc with hc | hc
      · exact .inl (List.mem_append_right _ hc)
      · exact .inr ⟨hext.next_le.trans hc.1, hc.2⟩

/-! ## Bands -/

/-- The stops of one half of a band's scan. -/
def Band.stops (band : Band) (second : Bool) : List Stop :=
  band.members.mapIdx fun k m => ⟨m, band.last, band.sweep, band.members.length, k, second⟩

/-- The stops of a scan of the bands. -/
def scanStops (bands : List Band) : List Stop := bands.flatMap fun band => band.stops false ++ band.stops true

/-- Every member of the band has its two sites. -/
structure Band.Laid (band : Band) : Prop where
  firsts : band.firsts.length = band.members.length
  seconds : band.seconds.length = band.members.length
  ne_nil : band.members ≠ []

/-- The blocks that the band has when its members are laid out. -/
def Band.blocks (band : Band) : List ℕ := band.firsts ++ band.seconds ++ band.members.map (·.exitBb)

theorem scanSites_getElem? {firsts seconds : List ℕ} {secondHead nextBand j f s : ℕ} (hf : firsts[j]? = some f)
    (hs : seconds[j]? = some s) : (scanSites firsts seconds secondHead nextBand)[j]? =
      some ⟨f, s, (firsts[j + 1]?).getD secondHead, (seconds[j + 1]?).getD nextBand⟩ := by
  induction firsts generalizing seconds j with
  | nil => simp at hf
  | cons f' firsts ih =>
    cases seconds with
    | nil => simp at hs
    | cons s' seconds =>
      cases j with
      | zero =>
        cases hf
        cases hs
        simp [scanSites, List.head?_eq_getElem?, List.headD_eq_head?_getD]
      | succ j => simpa [scanSites] using ih hf hs

theorem memberSites_perm (firsts seconds : List ℕ) (members : List Machine) (secondHead nextBand : ℕ)
    (hf : firsts.length = members.length) (hs : seconds.length = members.length) :
    (((scanSites firsts seconds secondHead nextBand).zip members).flatMap memberSites).Perm
      (firsts ++ seconds ++ members.map (·.exitBb)) := by
  induction members generalizing firsts seconds with
  | nil =>
    rw [List.length_eq_zero_iff.mp hf, List.length_eq_zero_iff.mp hs]
    rfl
  | cons m members ih =>
    cases firsts with
    | nil => cases hf
    | cons f firsts =>
      cases seconds with
      | nil => cases hs
      | cons s seconds =>
        have hrest := ih firsts seconds (Nat.succ.inj hf) (Nat.succ.inj hs)
        rw [scanSites, List.zip_cons_cons, List.flatMap_cons]
        refine (hrest.append_left _).trans (List.perm_iff_count.mpr fun x => ?_)
        simp only [memberSites, List.count_append, List.count_cons, List.count_nil, List.map_cons]
        omega

/-- Stops whose sites lead from one to the next make a chain. -/
theorem chain_of_links {cfg : Body U} {P Q : ℕ → Prop} {top final : ℕ} {ss : List Stop} {bs : List ℕ}
    (hlen : ss.length = bs.length) (h : ∀ (j : ℕ) (s : Stop) (b : ℕ), ss[j]? = some s → bs[j]? = some b →
      ∃ a, StopAt cfg P Q top s a b ((bs[j + 1]?).getD final)) : Chain cfg P Q top final (bs.headD final) ss := by
  induction bs generalizing ss with
  | nil =>
    rw [List.length_eq_zero_iff.mp hlen]
    exact .done
  | cons b bs ih =>
    cases ss with
    | nil => cases hlen
    | cons s ss =>
      obtain ⟨a, ha⟩ := h 0 s b rfl rfl
      have hnext : ((b :: bs)[0 + 1]?).getD final = bs.headD final := by
        rw [List.headD_eq_head?_getD, List.head?_eq_getElem?]
        rfl
      rw [hnext] at ha
      exact .stop ha (ih (Nat.succ.inj hlen) fun j s' b' hs hb => h (j + 1) s' b' hs hb)

theorem emitBand_spec (cfg : Body U) (top nextBand : ℕ) (band : Band) (hband : band.Laid)
    (hlt : ∀ b ∈ band.blocks, b < cfg.next ∧ cfg.block b = .fresh) (hnodup : band.blocks.Nodup) :
    let out := emitBand cfg top nextBand band
    Chain out (Taken band.blocks cfg out) (NewLocal cfg out) top nextBand (band.firsts.headD nextBand)
      (band.stops false ++ band.stops true) ∧ Extends (· ∈ band.blocks) cfg out := by
  intro out
  let members := (scanSites band.firsts band.seconds (band.seconds.headD nextBand) nextBand).zip band.members
  have hperm : (members.flatMap memberSites).Perm band.blocks :=
    memberSites_perm _ _ _ _ _ hband.firsts hband.seconds
  obtain ⟨hstops, hext⟩ : (∀ (j : ℕ) (x : ScanSite × Machine), members[j]? = some x → BothStops out _ _ _ _ _ _ _ _ _) ∧
      Extends _ cfg out := emitMembers_spec top band.last band.sweep band.members.length members 0 cfg
    (fun b hb => hlt b (hperm.mem_iff.mp hb)) (hperm.nodup_iff.mpr hnodup)
  have hP : ∀ c, Taken (members.flatMap memberSites) cfg out c → Taken band.blocks cfg out c ∧ out.block c = out.block c :=
    fun c hc => ⟨hc.imp_left hperm.mem_iff.mp, rfl⟩
  -- the stops of member `j`
  have hboth : ∀ (j : ℕ) (m : Machine) (f s : ℕ), band.members[j]? = some m → band.firsts[j]? = some f →
      band.seconds[j]? = some s → BothStops out (Taken band.blocks cfg out) (NewLocal cfg out) top band.last band.sweep
        band.members.length j ⟨f, s, (band.firsts[j + 1]?).getD (band.seconds.headD nextBand),
          (band.seconds[j + 1]?).getD nextBand⟩ m := by
    intro j m f s hm hf hs
    have hx : members[j]? = some (⟨f, s, (band.firsts[j + 1]?).getD (band.seconds.headD nextBand),
        (band.seconds[j + 1]?).getD nextBand⟩, m) := by
      rw [List.getElem?_zip_eq_some]
      exact ⟨scanSites_getElem? hf hs, hm⟩
    have h := hstops j _ hx
    rw [Nat.zero_add] at h
    exact h.mono hP fun _ hd => hd
  have hidx : ∀ {j : ℕ} {b : ℕ} {bs : List ℕ}, bs.length = band.members.length → bs[j]? = some b → j < band.members.length :=
    fun hl hb => hl ▸ (List.getElem?_eq_some_iff.mp hb).1
  have hstop : ∀ {j : ℕ} {s : Stop} {second : Bool}, (band.stops second)[j]? = some s → ∃ m, band.members[j]? = some m ∧
      s = ⟨m, band.last, band.sweep, band.members.length, j, second⟩ := by
    intro j s second hs
    rw [Band.stops, List.getElem?_mapIdx] at hs
    obtain ⟨m, hm, rfl⟩ := Option.map_eq_some_iff.mp hs
    exact ⟨m, hm, rfl⟩
  have hlen : ∀ second, (band.stops second).length = band.members.length := fun second => by simp [Band.stops]
  have hfirst : Chain out (Taken band.blocks cfg out) (NewLocal cfg out) top (band.seconds.headD nextBand)
      (band.firsts.headD (band.seconds.headD nextBand)) (band.stops false) := by
    refine chain_of_links ((hlen false).trans hband.firsts.symm) fun j s b hs hb => ?_
    obtain ⟨m, hm, rfl⟩ := hstop hs
    have hj := hidx hband.firsts hb
    rw [← hband.seconds] at hj
    exact (hboth j m b _ hm hb (List.getElem?_eq_getElem hj)).1
  have hsecond : Chain out (Taken band.blocks cfg out) (NewLocal cfg out) top nextBand (band.seconds.headD nextBand)
      (band.stops true) := by
    refine chain_of_links ((hlen true).trans hband.seconds.symm) fun j s b hs hb => ?_
    obtain ⟨m, hm, rfl⟩ := hstop hs
    have hj := hidx hband.seconds hb
    rw [← hband.firsts] at hj
    exact (hboth j m _ b hm (List.getElem?_eq_getElem hj) hb).2
  refine ⟨?_, hext.mono fun c _ hc => hperm.mem_iff.mp hc⟩
  have hhead : band.firsts.headD (band.seconds.headD nextBand) = band.firsts.headD nextBand := by
    cases hf : band.firsts with
    | nil =>
      have hnil := hband.firsts
      rw [hf] at hnil
      exact absurd (List.length_eq_zero_iff.mp hnil.symm) hband.ne_nil
    | cons f fs => rfl
  exact hhead ▸ hfirst.append hsecond

/-- Where the scan of the bands begins. -/
def scanHead (checkDone : ℕ) (bands : List Band) : ℕ := (bands.head?.bind (·.firsts.head?)).getD checkDone

theorem emitBands_spec (top checkDone : ℕ) (bands : List Band) (cfg : Body U) (hbands : ∀ band ∈ bands, band.Laid)
    (hlt : ∀ b ∈ bands.flatMap Band.blocks, b < cfg.next ∧ cfg.block b = .fresh)
    (hnodup : (bands.flatMap Band.blocks).Nodup) :
    let out := emitBands top checkDone bands cfg
    Chain out (Taken (bands.flatMap Band.blocks) cfg out) (NewLocal cfg out) top checkDone (scanHead checkDone bands)
      (scanStops bands) ∧ Extends (· ∈ bands.flatMap Band.blocks) cfg out := by
  induction bands generalizing cfg with
  | nil => exact ⟨.done, Extends.refl⟩
  | cons band bands ih =>
    intro out
    rw [List.flatMap_cons] at hlt hnodup
    obtain ⟨hown, hrest, hdisj⟩ := List.nodup_append.mp hnodup
    obtain ⟨hchain, hext⟩ := emitBand_spec cfg top (scanHead checkDone bands) band (hbands band List.mem_cons_self)
      (fun b hb => hlt b (List.mem_append_left _ hb)) hown
    generalize hone : emitBand cfg top (scanHead checkDone bands) band = one at hchain hext
    have hkept : ∀ b ∈ bands.flatMap Band.blocks, one.block b = cfg.block b := fun b hb =>
      hext.same b (hlt b (List.mem_append_right _ hb)).1 fun hmem => hdisj b hmem b hb rfl
    obtain ⟨hchains, hextr⟩ := ih one (fun b hb => hbands b (List.mem_cons_of_mem _ hb)) (fun b hb => by
      obtain ⟨h1, h2⟩ := hlt b (List.mem_append_right _ hb)
      exact ⟨h1.trans_le hext.next_le, (hkept b hb).trans h2⟩) hrest
    have hout : out = emitBands top checkDone bands one := by
      rw [← hone]
      rfl
    rw [← hout] at hchains hextr
    have hhead : scanHead checkDone (band :: bands) = band.firsts.headD (scanHead checkDone bands) := by
      cases hf : band.firsts with
      | nil =>
        have hl := hbands band List.mem_cons_self
        have hnil := hl.firsts
        rw [hf] at hnil
        exact absurd (List.length_eq_zero_iff.mp hnil.symm) hl.ne_nil
      | cons f fs => simp [scanHead, hf]
    refine ⟨?_, (hext.mono fun c _ hc => List.mem_append_left _ hc).trans_new hextr fun c _ hc =>
      List.mem_append_right _ hc⟩
    rw [hhead]
    refine (hchain.mono (fun c hc => ?_) fun d hd => ⟨hd.1, hd.2.trans_le hextr.locals_le⟩).append
      (hchains.mono (fun c hc => ⟨?_, rfl⟩) fun d hd => ⟨hext.locals_le.trans hd.1, hd.2⟩)
    · have hclt : c < one.next := by
        rcases hc with hc | hc
        · exact (hlt c (List.mem_append_left _ hc)).1.trans_le hext.next_le
        · exact hc.2
      refine ⟨?_, hextr.same c hclt fun hmem => ?_⟩
      · rcases hc with hc | hc
        · exact .inl (List.mem_append_left _ hc)
        · exact .inr ⟨hc.1, hc.2.trans_le hextr.next_le⟩
      · rcases hc with hc | hc
        · exact hdisj c hc c hmem rfl
        · have hold := (hlt c (List.mem_append_right _ hmem)).1
          omega
    · rcases hc with hc | hc
      · exact .inl (List.mem_append_right _ hc)
      · exact .inr ⟨hext.next_le.trans hc.1, hc.2⟩

/-! ## What the scan is laid out on -/

theorem newBlocks_spec (count : ℕ) (cfg : Body U) :
    let out := newBlocks count cfg
    out.1 = List.range' cfg.next count ∧ out.2.next = cfg.next + count ∧ out.2.locals = cfg.locals ∧
      (∀ c, out.2.block c = if cfg.next ≤ c ∧ c < cfg.next + count then .fresh else cfg.block c) ∧
      ∀ T, Extends T cfg out.2 := by
  induction count generalizing cfg with
  | zero =>
    refine ⟨rfl, rfl, rfl, fun c => ?_, fun T => Extends.refl⟩
    rw [if_neg (by omega)]
    rfl
  | succ count ih =>
    intro out
    obtain ⟨h1, h2, h3, h4, h5⟩ := ih cfg.newBlock.2
    refine ⟨?_, ?_, h3, fun c => ?_, fun T => Extends.push.trans (h5 T)⟩
    · change cfg.next :: (newBlocks count cfg.newBlock.2).1 = _
      rw [h1, List.range'_succ]
      rfl
    · change (newBlocks count cfg.newBlock.2).2.next = _
      rw [h2, Cfg.newBlock_next]
      omega
    · refine (h4 c).trans ?_
      rw [Cfg.newBlock_next, Cfg.newBlock_block]
      by_cases hc : c = cfg.next
      · rw [if_neg (by omega), if_pos hc, if_pos (by omega)]
      · rw [if_neg hc]
        exact if_congr (by omega) rfl rfl

theorem newSites_spec (bands : List (List ℕ)) (cfg : Body U) :
    let out := newSites bands cfg
    let total := bands.flatten.length
    out.1.map List.length = bands.map List.length ∧ out.1.flatten = List.range' cfg.next total ∧
      out.2.next = cfg.next + total ∧ out.2.locals = cfg.locals ∧
      (∀ c, out.2.block c = if cfg.next ≤ c ∧ c < cfg.next + total then .fresh else cfg.block c) ∧
      ∀ T, Extends T cfg out.2 := by
  induction bands generalizing cfg with
  | nil =>
    refine ⟨rfl, rfl, rfl, rfl, fun c => ?_, fun T => Extends.refl⟩
    rw [if_neg (by simp)]
    rfl
  | cons band bands ih =>
    intro out total
    obtain ⟨h1, h2, h3, h4, h5⟩ := newBlocks_spec band.length cfg
    obtain ⟨i1, i2, i3, i4, i5, i6⟩ := ih (newBlocks band.length cfg).2
    have htotal : total = band.length + bands.flatten.length := by simp [total]
    refine ⟨?_, ?_, ?_, i4.trans h3, fun c => ?_, fun T => (h5 T).trans (i6 T)⟩
    · change (newBlocks band.length cfg).1.length :: (newSites bands (newBlocks band.length cfg).2).1.map List.length = _
      rw [i1, h1, List.length_range']
      rfl
    · change (newBlocks band.length cfg).1 ++ (newSites bands (newBlocks band.length cfg).2).1.flatten = _
      rw [i2, h1, h2, htotal, List.range'_append_1]
    · refine i3.trans ?_
      rw [h2]
      omega
    · refine (i5 c).trans ?_
      rw [h2, h4]
      by_cases hc : cfg.next ≤ c ∧ c < cfg.next + band.length
      · rw [if_neg (by omega), if_pos hc, if_pos (by omega)]
      · rw [if_neg hc]
        exact if_congr (by omega) rfl rfl

theorem newStateLocals_spec (count : ℕ) (cfg : Body U) :
    let out := newStateLocals count cfg
    out.1 = List.range' cfg.locals.length count ∧ out.2.locals.length = cfg.locals.length + count ∧
      out.2.next = cfg.next ∧ out.2.block = cfg.block ∧ ∀ T, Extends T cfg out.2 := by
  induction count generalizing cfg with
  | zero => exact ⟨rfl, rfl, rfl, rfl, fun T => Extends.refl⟩
  | succ count ih =>
    intro out
    obtain ⟨h1, h2, h3, h4, h5⟩ := ih cfg.newStateLocal.2
    have hlen : cfg.newStateLocal.2.locals.length = cfg.locals.length + 1 := by simp [Cfg.newStateLocal]
    refine ⟨?_, ?_, h3, h4, fun T => Extends.newLocal.trans (h5 T)⟩
    · change cfg.locals.length :: (newStateLocals count cfg.newStateLocal.2).1 = _
      rw [h1, hlen, List.range'_succ]
    · refine h2.trans ?_
      rw [hlen]
      omega

/-- What the bands hold once they are laid. -/
theorem layBands_spec (ms : List Machine) (bands : List (List ℕ)) (lasts sweeps : List ℕ) (firsts seconds : List (List ℕ))
    (h1 : lasts.length = bands.length) (h2 : sweeps.length = bands.length) (h3 : firsts.length = bands.length)
    (h4 : seconds.length = bands.length) :
    let out := layBands ms bands lasts sweeps firsts seconds
    out.map (·.members) = bands.map (·.filterMap (ms[·]?)) ∧ out.map (·.last) = lasts ∧ out.map (·.sweep) = sweeps ∧
      out.map (·.firsts) = firsts ∧ out.map (·.seconds) = seconds := by
  induction bands generalizing lasts sweeps firsts seconds with
  | nil =>
    rw [List.length_eq_zero_iff.mp h1, List.length_eq_zero_iff.mp h2, List.length_eq_zero_iff.mp h3,
      List.length_eq_zero_iff.mp h4]
    exact ⟨rfl, rfl, rfl, rfl, rfl⟩
  | cons band bands ih =>
    obtain ⟨a, lasts, rfl⟩ := List.exists_cons_of_length_eq_add_one h1
    obtain ⟨b, sweeps, rfl⟩ := List.exists_cons_of_length_eq_add_one h2
    obtain ⟨c, firsts, rfl⟩ := List.exists_cons_of_length_eq_add_one h3
    obtain ⟨d, seconds, rfl⟩ := List.exists_cons_of_length_eq_add_one h4
    obtain ⟨i1, i2, i3, i4, i5⟩ := ih lasts sweeps firsts seconds (Nat.succ.inj h1) (Nat.succ.inj h2) (Nat.succ.inj h3)
      (Nat.succ.inj h4)
    exact ⟨congrArg (_ :: ·) i1, congrArg (_ :: ·) i2, congrArg (_ :: ·) i3, congrArg (_ :: ·) i4, congrArg (_ :: ·) i5⟩

/-- The chain of checks from a block on: every machine is asked whether it is done, and the last block leads to
    `exit`. -/
inductive Checks (cfg : Body U) (P Q : ℕ → Prop) (noProgress exit : ℕ) : ℕ → List Machine → Prop
  | done {b : ℕ} (mem : P b) (block : cfg.block b = ⟨[], .goto exit⟩) : Checks cfg P Q noProgress exit b []
  | check {b d next : ℕ} {m : Machine} {ms : List Machine} (mem : P b) (temp : Q d)
      (block : cfg.block b = ⟨[.eqCheckI64 d m.stateLocal doneState], .branch d next noProgress⟩)
      (goOn : Checks cfg P Q noProgress exit next ms) : Checks cfg P Q noProgress exit b (m :: ms)

theorem Checks.mono {cfg cfg' : Body U} {P P' Q Q' : ℕ → Prop} {noProgress exit b : ℕ} {ms : List Machine}
    (h : Checks cfg P Q noProgress exit b ms) (hP : ∀ c, P c → P' c ∧ cfg'.block c = cfg.block c)
    (hQ : ∀ d, Q d → Q' d) : Checks cfg' P' Q' noProgress exit b ms := by
  induction h with
  | done mem block => exact .done (hP _ mem).1 ((hP _ mem).2.trans block)
  | check mem temp block _ ih => exact .check (hP _ mem).1 (hQ _ temp) ((hP _ mem).2.trans block) ih

theorem emitChecks_spec (noProgress exit : ℕ) (ms : List Machine) (b : ℕ) (cfg : Body U) (hb : b < cfg.next)
    (hfresh : cfg.block b = .fresh) :
    let out := emitChecks noProgress b ms cfg
    let cfg' := out.2.setGoto out.1 exit
    Checks cfg' (Taken [b] cfg cfg') (NewLocal cfg cfg') noProgress exit b ms ∧ Extends (· = b) cfg cfg' ∧
      cfg'.next = cfg.next + ms.length ∧ cfg'.locals.length = cfg.locals.length + ms.length := by
  induction ms generalizing b cfg with
  | nil =>
    intro out cfg'
    refine ⟨.done (.inl (List.mem_singleton_self _)) ?_, Extends.set_self, rfl, rfl⟩
    simp [cfg', out, emitChecks, Cfg.setGoto, Cfg.setTerm, hfresh, Block.fresh]
  | cons m ms ih =>
    intro out cfg'
    let d := cfg.locals.length
    let a := (((cfg.newLocal .bool).2.emit b (.eqCheckI64 d m.stateLocal doneState)).newBlock.2).setBranch b d cfg.next noProgress
    have hblock : ∀ c, a.block c = if c = b then ⟨[.eqCheckI64 d m.stateLocal doneState], .branch d cfg.next noProgress⟩
        else if c = cfg.next then .fresh else cfg.block c := by
      intro c
      by_cases hc : c = b
      · simp [a, hc, Cfg.setBranch, Cfg.setTerm, Cfg.emit, Cfg.newBlock, Cfg.stmts, hb.ne, hfresh, Block.fresh]
      · simp [a, hc, Cfg.setBranch, Cfg.setTerm, Cfg.emit, Cfg.newBlock]
    have hext : Extends (· = b) cfg a :=
      Extends.newLocal.trans (Extends.set_self.trans (Extends.push.trans Extends.set_self))
    have hanext : a.next = cfg.next + 1 := rfl
    have halocals : a.locals.length = d + 1 := by
      change (cfg.locals ++ [LocalTy.bool]).length = _
      simp [d]
    obtain ⟨i1, i2, i3, i4⟩ := ih cfg.next a (by omega) (by rw [hblock, if_neg hb.ne', if_pos rfl])
    have hout : out = emitChecks noProgress cfg.next ms a := rfl
    rw [← hout] at i1 i2 i3 i4
    have hle := i2.next_le
    have hlle := i2.locals_le
    have hcl : cfg.locals.length < cfg'.locals.length := by
      change cfg.locals.length < (out.2.setGoto out.1 exit).locals.length
      omega
    refine ⟨.check (.inl (List.mem_singleton_self _)) ⟨le_rfl, hcl⟩ ?_ (i1.mono (fun c hc => ⟨?_, rfl⟩) fun d hd => ?_),
      hext.trans_new i2 (fun c hc heq => by omega), ?_, ?_⟩
    · rw [i2.same b (by omega) hb.ne, hblock, if_pos rfl]
    · rcases hc with hc | hc
      · rw [List.mem_singleton.mp hc]
        exact .inr ⟨le_rfl, hle⟩
      · exact .inr ⟨by omega, hc.2⟩
    · exact ⟨by have h1 := hd.1; omega, hd.2⟩
    · refine i3.trans ?_
      rw [hanext, List.length_cons]
      omega
    · refine i4.trans ?_
      rw [halocals, List.length_cons]
      omega

/-! ## The loop -/

/-- What a scan ends with when a coroutine is not finished: another scan, or `stuckBb`. -/
def emitScanEnd (hooks : Hooks U) (cfg : Body U) (progress topBb : ℕ) : Body U :=
  let (stuckBb, cfg) := cfg.newBlock
  let (noProgressBb, cfg) := cfg.newBlock
  let (progressed, cfg) := cfg.newBoolLocal
  let cfg := cfg.emit noProgressBb (.eqCheckI64 progressed progress 1)
  let cfg := cfg.setBranch noProgressBb progressed topBb stuckBb
  emitStuck hooks cfg stuckBb topBb

theorem emitScanEnd_edit {hooks : Hooks U} {u : U} {S : ℕ → Prop} (hu : hooks.deadlock ≠ some u) (cfg : Body U)
    (progress top : ℕ) : Edit u S cfg (emitScanEnd hooks cfg progress top) :=
  ((((Edit.refl.newBlock).newBlock).newLocal).emit).setTerm.trans (emitStuck_edit hu _ _)

theorem emitScanEnd_block (hooks : Hooks U) (cfg : Body U) (progress top : ℕ) :
    let cfg' := emitScanEnd hooks cfg progress top
    cfg'.next = cfg.next + 2 ∧ cfg'.locals.length = cfg.locals.length + 1 ∧ (∀ T, Extends T cfg cfg') ∧
      ∀ y, cfg'.block y = if y = cfg.next then stuckBlock hooks top
        else if y = cfg.next + 1 then ⟨[.eqCheckI64 cfg.locals.length progress 1], .branch cfg.locals.length top cfg.next⟩
        else cfg.block y := by
  intro cfg'
  let b := (((cfg.newBlock.2.newBlock.2).newLocal .bool).2.emit (cfg.next + 1)
    (.eqCheckI64 cfg.locals.length progress 1)).setBranch (cfg.next + 1) cfg.locals.length top cfg.next
  have hbb : ∀ y, b.block y = if y = cfg.next + 1 then
        ⟨[.eqCheckI64 cfg.locals.length progress 1], .branch cfg.locals.length top cfg.next⟩
      else if y = cfg.next then .fresh else cfg.block y := by
    intro y
    by_cases hy : y = cfg.next + 1
    · simp [b, hy, Cfg.emit, Cfg.setBranch, Cfg.setTerm, Cfg.stmts, Cfg.newBlock_block, Block.fresh]
    · simp [b, hy, Cfg.emit, Cfg.setBranch, Cfg.setTerm, Cfg.newBlock_block]
  have hstuck : b.block cfg.next = .fresh := by rw [hbb, if_neg (by omega), if_pos rfl]
  have hset : cfg' = b.set cfg.next (stuckBlock hooks top) := emitStuck_eq hstuck
  rw [hset]
  refine ⟨rfl, ?_, fun T => ?_, fun y => ?_⟩
  · change (cfg.locals ++ [LocalTy.bool]).length = _
    simp
  · have h1 : Extends T cfg (cfg.newBlock.2.newBlock.2) := Extends.push.trans Extends.push
    have h2 : Extends (fun c => c = cfg.next + 1 ∨ c = cfg.next) (cfg.newBlock.2.newBlock.2)
        (b.set cfg.next (stuckBlock hooks top)) :=
      Extends.newLocal.trans ((Extends.set (.inl rfl)).trans ((Extends.set (.inl rfl)).trans (Extends.set (.inr rfl))))
    refine h1.trans_new h2 fun c hc heq => ?_
    omega
  · rw [Cfg.set_block, hbb]
    by_cases hy : y = cfg.next <;> by_cases hy' : y = cfg.next + 1 <;> simp [hy, hy']

/-- The blocks of `build_priority_loop`: from `n` on the way out, what follows the region, `init`, `top` and
    `check_done`; then those of the scan, and from `stuck` on those of its end. Locals in `Q` hold checks only. -/
structure PrioLoop (hooks : Hooks U) (cfg : Body U) (hi : ℕ) (Q : ℕ → Prop) (bands : List Band) (ms : List Machine)
    (progress n stuck : ℕ) (t : Term) : Prop where
  exit : cfg.block n = ⟨[], .goto (n + 1)⟩
  post : cfg.block (n + 1) = ⟨[], t⟩
  init : cfg.block (n + 2) = ⟨bands.map fun band => .assignI64 band.last (-1), .goto (n + 3)⟩
  top : cfg.block (n + 3) = ⟨[.assignI64 progress 0], .goto (scanHead (n + 4) bands)⟩
  scan : Chain cfg (fun c => n + 5 ≤ c ∧ c < stuck ∨ ∃ m ∈ ms, c = m.exitBb) Q (n + 3) (n + 4) (scanHead (n + 4) bands)
    (scanStops bands)
  checks : Checks cfg (fun c => c = n + 4 ∨ stuck + 1 < c ∧ c < hi) Q (stuck + 1) n (n + 4) ms
  noProgress : ∃ d, Q d ∧ cfg.block (stuck + 1) = ⟨[.eqCheckI64 d progress 1], .branch d (n + 3) stuck⟩
  stuck_block : cfg.block stuck = stuckBlock hooks (n + 3)
  stuck_mem : n + 5 ≤ stuck ∧ stuck + 1 < hi

theorem joinBand_ne_nil {r : Region} {bands : List (List ℕ)} {i : ℕ} (h : [] ∉ bands) : [] ∉ joinBand r bands i := by
  obtain ⟨init, first, rest, rfl, -, heq⟩ | ⟨-, heq⟩ := joinBand_cases r bands i
  · rw [heq]
    intro hnil
    rcases List.mem_append.mp hnil with hnil | hnil
    · exact h (List.mem_append_left _ hnil)
    · simp at hnil
  · rw [heq]
    intro hnil
    rcases List.mem_append.mp hnil with hnil | hnil
    · exact h hnil
    · simp at hnil

theorem bandsOf_ne_nil (r : Region) (count : ℕ) : [] ∉ bandsOf r count := by
  have hfold : ∀ (l : List ℕ) (bands : List (List ℕ)), [] ∉ bands → [] ∉ l.foldl (joinBand r) bands := by
    intro l
    induction l with
    | nil => exact fun _ h => h
    | cons i l ih => exact fun bands h => ih _ (joinBand_ne_nil h)
  exact hfold _ [] List.not_mem_nil

/-- The members of a band are as many as it has numbers. -/
theorem members_length {r : Region} {ms : List Machine} {band : List ℕ} (hb : band ∈ bandsOf r ms.length) :
    (band.filterMap (ms[·]?)).length = band.length := by
  refine List.filterMap_length_eq_length.mpr fun i hi => ?_
  have hlt : i < ms.length := mem_bandsOf_flatten.mp (List.mem_flatten.mpr ⟨band, hb, hi⟩)
  simp [hlt]

/-- Every machine is a member of one band. -/
theorem members_perm (r : Region) (ms : List Machine) :
    ((bandsOf r ms.length).map (·.filterMap (ms[·]?))).flatten.Perm ms := by
  have hflat : ((bandsOf r ms.length).map (·.filterMap (ms[·]?))).flatten = (bandsOf r ms.length).flatten.filterMap (ms[·]?) := by
    rw [List.filterMap_flatten]
  rw [hflat, bandsOf_flatten]
  refine ((bandOrder_perm r ms.length).filterMap _).trans ?_
  rw [Lib.filterMap_getElem?_range]

/-- The bands of a priority loop laid out in a body with the locals up to `l`, their sites from `site` on. -/
structure BandsAt (r : Region) (ms : List Machine) (l site : ℕ) (bands : List Band) : Prop where
  members : bands.map (·.members) = (bandsOf r ms.length).map (·.filterMap (ms[·]?))
  last : bands.map (·.last) = List.range' l bands.length
  sweep : bands.map (·.sweep) = List.range' (l + bands.length) bands.length
  laid : ∀ band ∈ bands, band.Laid
  sites : (bands.flatMap (·.firsts) ++ bands.flatMap (·.seconds)) = List.range' site (2 * ms.length)

theorem BandsAt.blocks_perm {r : Region} {ms : List Machine} {l site : ℕ} {bands : List Band} (h : BandsAt r ms l site bands) :
    (bands.flatMap Band.blocks).Perm (List.range' site (2 * ms.length) ++ ms.map (·.exitBb)) := by
  have hmem : (bands.flatMap fun band => band.members.map (·.exitBb)).Perm (ms.map (·.exitBb)) := by
    have hflat : bands.flatMap (fun band => band.members.map (·.exitBb)) = ((bands.map (·.members)).flatten).map (·.exitBb) := by
      rw [List.map_flatten, List.map_map]
      rfl
    rw [hflat, h.members]
    exact (members_perm r ms).map _
  rw [← h.sites]
  have h1 : (bands.flatMap fun band => band.firsts ++ band.seconds).Perm (bands.flatMap (·.firsts) ++ bands.flatMap (·.seconds)) :=
    (List.flatMap_append_perm bands _ _).symm
  have h2 : (bands.flatMap Band.blocks).Perm ((bands.flatMap fun band => band.firsts ++ band.seconds) ++
      bands.flatMap fun band => band.members.map (·.exitBb)) := (List.flatMap_append_perm bands _ _).symm
  exact h2.trans (h1.append hmem)

theorem getElem_of_map_eq {α β γ : Type*} {f : α → γ} {g : β → γ} {xs : List α} {ys : List β} (h : xs.map f = ys.map g)
    {i : ℕ} (hi : i < xs.length) (hj : i < ys.length) : f xs[i] = g ys[i] := by
  have hget := congrArg (·[i]?) h
  simpa [hi, hj] using hget

/-- The bands that the loop lays out, as it allocates them. -/
theorem layBands_at {r : Region} {ms : List Machine} {cfg : Body U} {l : ℕ} :
    let bands := bandsOf r ms.length
    let fs := newSites bands cfg
    let ss := newSites bands fs.2
    let out := layBands ms bands (List.range' l bands.length) (List.range' (l + bands.length) bands.length) fs.1 ss.1
    BandsAt r ms l cfg.next out ∧ ss.2.next = cfg.next + 2 * ms.length ∧ ss.2.locals = cfg.locals ∧
      out.length = bands.length ∧ out.map (·.firsts) = fs.1 ∧
      (∀ c, ss.2.block c = if cfg.next ≤ c ∧ c < cfg.next + 2 * ms.length then .fresh else cfg.block c) ∧
      ∀ T, Extends T cfg ss.2 := by
  intro bands fs ss out
  have htotal : bands.flatten.length = ms.length := by
    rw [bandsOf_flatten, (bandOrder_perm r ms.length).length_eq, List.length_range]
  obtain ⟨f1, f2, f3, f4, f5, f6⟩ := newSites_spec bands cfg
  obtain ⟨s1, s2, s3, s4, s5, s6⟩ := newSites_spec bands fs.2
  have hfl : fs.1.length = bands.length := by
    have h := congrArg List.length f1
    rwa [List.length_map, List.length_map] at h
  have hsl : ss.1.length = bands.length := by
    have h := congrArg List.length s1
    rwa [List.length_map, List.length_map] at h
  obtain ⟨l1, l2, l3, l4, l5⟩ := layBands_spec ms bands (List.range' l bands.length)
    (List.range' (l + bands.length) bands.length) fs.1 ss.1 List.length_range' List.length_range' hfl hsl
  have hlen : out.length = bands.length := by
    have h := congrArg List.length l2
    rwa [List.length_map, List.length_range'] at h
  have hnext : fs.2.next = cfg.next + ms.length := by
    rw [← htotal]
    exact f3
  refine ⟨⟨l1, hlen.symm ▸ l2, hlen.symm ▸ l3, ?_, ?_⟩, ?_, s4.trans f4, hlen, l4, fun c => ?_, fun T => (f6 T).trans (s6 T)⟩
  · intro band hband
    obtain ⟨i, hi, rfl⟩ := List.mem_iff_getElem.mp hband
    have hib : i < bands.length := hlen ▸ hi
    have hmem : out[i].members = bands[i].filterMap (ms[·]?) := getElem_of_map_eq l1 hi hib
    have hbm : bands[i] ∈ bands := List.getElem_mem hib
    have hcount := members_length hbm
    have hf : out[i].firsts.length = bands[i].length := by
      refine getElem_of_map_eq (f := fun band : Band => band.firsts.length) ?_ hi hib
      rw [← f1, ← l4, List.map_map]
      rfl
    have hs : out[i].seconds.length = bands[i].length := by
      refine getElem_of_map_eq (f := fun band : Band => band.seconds.length) ?_ hi hib
      rw [← s1, ← l5, List.map_map]
      rfl
    refine ⟨?_, ?_, fun hnil => ?_⟩
    · rw [hf, hmem, hcount]
    · rw [hs, hmem, hcount]
    · rw [hmem] at hnil
      rw [hnil] at hcount
      exact bandsOf_ne_nil r ms.length (List.length_eq_zero_iff.mp hcount.symm ▸ hbm)
  · have hff : out.flatMap (·.firsts) = List.range' cfg.next ms.length := by
      rw [← htotal, ← f2, List.flatMap_def, l4]
    have hss : out.flatMap (·.seconds) = List.range' (cfg.next + ms.length) ms.length := by
      rw [← hnext, ← htotal, ← s2, List.flatMap_def, l5]
    rw [hff, hss, two_mul, List.range'_append_1]
  · refine s3.trans ?_
    rw [hnext, htotal]
    omega
  · refine (s5 c).trans ?_
    rw [hnext, htotal, f5, htotal]
    by_cases hc : cfg.next ≤ c ∧ c < cfg.next + ms.length
    · rw [if_neg (by omega), if_pos hc, if_pos (by omega)]
    · rw [if_neg hc]
      exact if_congr (by omega) rfl rfl

theorem Extends.of_block {T : ℕ → Prop} {cfg a b : Body U} (h : Extends T cfg a) (hn : b.next = a.next) (hi : b.ids = a.ids)
    (hl : b.locals = a.locals) (hb : ∀ c < cfg.next, b.block c = a.block c) : Extends T cfg b :=
  ⟨hn ▸ h.next_le, hl ▸ h.locals_le, by rw [hi, hn, h.ids], fun c hc hT => (hb c hc).trans (h.same c hc hT)⟩

/-- `build_priority_loop` up to its sites, with the locals of the bands: the way out, what follows the region, `init`,
    `top` and `check_done`. -/
def prioHead (cfg : Body U) (r : Region) (count progress : ℕ) : (List ℕ × List ℕ) × Body U :=
  let (_, cfg) := regionExit cfg r
  let (initBb, cfg) := cfg.newBlock
  let (topBb, cfg) := cfg.newBlock
  let (_, cfg) := cfg.newBlock
  let (lasts, cfg) := newStateLocals count cfg
  let (sweeps, cfg) := newStateLocals count cfg
  let cfg := lasts.foldl (fun cfg l => cfg.emit initBb (.assignI64 l (-1))) cfg
  let cfg := cfg.setGoto initBb topBb
  ((lasts, sweeps), cfg.emit topBb (.assignI64 progress 0))

/-- The bands with their sites, and the body in which `top` leads to the first of them. -/
def prioSites (cfg : Body U) (r : Region) (ms : List Machine) (progress : ℕ) : List Band × Body U :=
  let bands := bandsOf r ms.length
  let ((lasts, sweeps), body) := prioHead cfg r bands.length progress
  let (firsts, body) := newSites bands body
  let (seconds, body) := newSites bands body
  (layBands ms bands lasts sweeps firsts seconds,
    body.setGoto (cfg.next + 3) ((firsts.head?.bind (·.head?)).getD (cfg.next + 4)))

/-- The scan. -/
def prioScan (cfg : Body U) (r : Region) (ms : List Machine) (progress : ℕ) : Body U :=
  let (bands, body) := prioSites cfg r ms progress
  emitBands (cfg.next + 3) (cfg.next + 4) bands body

/-- The loop, before the region is finished. -/
def prioBody (hooks : Hooks U) (cfg : Body U) (r : Region) (ms : List Machine) (progress : ℕ) : Body U :=
  let scan := prioScan cfg r ms progress
  let (checkBb, body) := emitChecks (scan.next + 1) (cfg.next + 4) ms (emitScanEnd hooks scan progress (cfg.next + 3))
  body.setGoto checkBb cfg.next

/-- The loop in its pieces. -/
theorem buildPriorityLoop_eq (hooks : Hooks U) (cfg : Body U) (r : Region) {ms : List Machine} {progress : ℕ}
    (hne : ms ≠ []) (hprog : ∀ m ∈ ms, m.progressLocal = progress) :
    buildPriorityLoop hooks cfg r ms =
      (⟨cfg.next + 3, cfg.next, cfg.next + 4, (prioScan cfg r ms progress).next⟩,
        finishRegion (prioBody hooks cfg r ms progress) r ms (cfg.next + 2)) := by
  cases ms with
  | nil => exact absurd rfl hne
  | cons m rest =>
    rw [← hprog m List.mem_cons_self]
    rfl

section Priority
variable {cfg : Body U} {r : Region} {ms : List Machine} (progress : ℕ) (hr : r.regionEnd.1 < cfg.next)
include hr

theorem prioHead_edit {u : U} {S : ℕ → Prop} (count : ℕ) : Edit u S cfg (prioHead cfg r count progress).2 := by
  have h1 : Edit u S cfg (regionExit cfg r).2 := regionExit_edit hr
  have h2 := (((h1.newBlock).newBlock).newBlock).trans (newStateLocals_edit count _)
  have h3 := h2.trans (newStateLocals_edit count _)
  exact ((h3.trans (foldl_edit _ (fun _ _ => Edit.refl.emit) _ _)).setTerm).emit

theorem prioHead_block (count : ℕ) :
    let n := cfg.next
    let l := cfg.locals.length
    let head := prioHead cfg r count progress
    head.1 = (List.range' l count, List.range' (l + count) count) ∧ head.2.next = n + 5 ∧
      head.2.locals.length = l + 2 * count ∧ Extends (· = r.regionEnd.1) cfg head.2 ∧
      ∀ y, head.2.block y = if y = n + 2 then ⟨(List.range' l count).map fun d => .assignI64 d (-1), .goto (n + 3)⟩
        else if y = n + 3 then ⟨[.assignI64 progress 0], .unreachable⟩ else if y = n + 4 then .fresh
        else (regionExit cfg r).2.block y := by
  intro n l head
  obtain ⟨-, hx2, hx3, hx4, -⟩ := regionExit_block cfg r hr
  -- the blocks, then the locals, then what `init` writes
  let a := (regionExit cfg r).2.newBlock.2.newBlock.2.newBlock.2
  have hab : ∀ y, a.block y =
      if y = n + 2 ∨ y = n + 3 ∨ y = n + 4 then .fresh else (regionExit cfg r).2.block y := by
    intro y
    simp only [a, Cfg.newBlock_block, Cfg.newBlock_next, hx2]
    grind
  have hal : a.locals.length = l := congrArg List.length hx3
  obtain ⟨p1, p2, p3, p4, p5⟩ := newStateLocals_spec count a
  obtain ⟨q1, q2, q3, q4, q5⟩ := newStateLocals_spec count (newStateLocals count a).2
  let q := (newStateLocals count (newStateLocals count a).2).2
  let b := (newStateLocals count a).1.foldl (fun b d => b.emit (n + 2) (.assignI64 d (-1))) q
  have hhead : head.2 = (b.setGoto (n + 2) (n + 3)).emit (n + 3) (.assignI64 progress 0) := rfl
  have hq : ∀ y, q.block y = a.block y := fun y => (congrFun q4 y).trans (congrFun p4 y)
  have hb := emitAll_block (fun d => Stmt.assignI64 (U := U) d (-1)) (newStateLocals count a).1 q (n + 2)
  have hbb : ∀ y, b.block y =
      if y = n + 2 then ⟨(List.range' l count).map fun d => .assignI64 d (-1), .unreachable⟩ else a.block y := by
    intro y
    refine (hb y).2.2.2.trans ?_
    have hfresh : q.block (n + 2) = .fresh := by rw [hq, hab, if_pos (.inl rfl)]
    by_cases hy : y = n + 2
    · rw [if_pos hy, if_pos hy, Cfg.stmts, Cfg.term, hfresh, p1, hal]
      rfl
    · rw [if_neg hy, if_neg hy, hq]
  have hblock : ∀ y, head.2.block y = if y = n + 2 then ⟨(List.range' l count).map fun d => .assignI64 d (-1), .goto (n + 3)⟩
      else if y = n + 3 then ⟨[.assignI64 progress 0], .unreachable⟩ else if y = n + 4 then .fresh
      else (regionExit cfg r).2.block y := by
    intro y
    rw [hhead]
    by_cases hy : y = n + 3
    · simp [hy, Cfg.emit, Cfg.setGoto, Cfg.setTerm, Cfg.stmts, hbb, hab, Block.fresh]
    · by_cases hy' : y = n + 2
      · simp [hy', Cfg.emit, Cfg.setGoto, Cfg.setTerm, Cfg.stmts, hbb]
      · simp [hy, hy', Cfg.emit, Cfg.setGoto, Cfg.setTerm, hbb, hab]
  refine ⟨Prod.ext (p1.trans (by rw [hal])) (q1.trans (by rw [p2, hal])), ?_, ?_, ?_, hblock⟩
  · exact (hb 0).1.trans (q3.trans (p3.trans (congrArg (· + 3) hx2)))
  · refine (congrArg List.length (hb 0).2.2.1).trans ?_
    rw [q2, p2, hal]
    omega
  · have h1 : Extends (· = r.regionEnd.1) cfg a := hx4.trans (Extends.push.trans (Extends.push.trans Extends.push))
    refine (h1.trans ((p5 _).trans (q5 _))).of_block (hb 0).1 (hb 0).2.1 (hb 0).2.2.1 fun c hc => ?_
    rw [hblock, if_neg (by omega), if_neg (by omega), if_neg (by omega)]
    exact ((hq c).trans ((hab c).trans (if_neg (by omega)))).symm

variable (ms) in
theorem prioSites_edit {u : U} {S : ℕ → Prop} : Edit u S cfg (prioSites cfg r ms progress).2 :=
  (((prioHead_edit progress hr _).trans (newSites_edit _ _)).trans (newSites_edit _ _)).setTerm

variable (ms) in
theorem prioSites_spec :
    let n := cfg.next
    let l := cfg.locals.length
    let sites := prioSites cfg r ms progress
    BandsAt r ms l (n + 5) sites.1 ∧ sites.2.next = n + 5 + 2 * ms.length ∧
      sites.2.locals.length = l + 2 * sites.1.length ∧ Extends (· = r.regionEnd.1) cfg sites.2 ∧
      ∀ y, sites.2.block y = if y = n + 3 then ⟨[.assignI64 progress 0], .goto (scanHead (n + 4) sites.1)⟩
        else if n + 5 ≤ y ∧ y < n + 5 + 2 * ms.length then .fresh
        else if y = n + 2 then ⟨sites.1.map fun band => .assignI64 band.last (-1), .goto (n + 3)⟩
        else if y = n + 4 then .fresh else (regionExit cfg r).2.block y := by
  intro n l sites
  obtain ⟨hlocals, hnext, hlen, hext, hblock⟩ := prioHead_block progress hr (bandsOf r ms.length).length
  let bs := bandsOf r ms.length
  have hbs : sites.1 = layBands ms bs (prioHead cfg r bs.length progress).1.1 (prioHead cfg r bs.length progress).1.2
      (newSites bs (prioHead cfg r bs.length progress).2).1
      (newSites bs (newSites bs (prioHead cfg r bs.length progress).2).2).1 := rfl
  have hbody : sites.2 = (newSites bs (newSites bs (prioHead cfg r bs.length progress).2).2).2.setGoto (n + 3)
      (((newSites bs (prioHead cfg r bs.length progress).2).1.head?.bind (·.head?)).getD (n + 4)) := rfl
  rw [hlocals] at hbs
  generalize (prioHead cfg r bs.length progress).2 = head at hnext hlen hext hblock hbs hbody
  obtain ⟨hat, s2, s3, s4, s5, s6, s7⟩ := @layBands_at _ r ms head l
  rw [← hbs] at hat s4 s5
  have hhead : ((newSites bs head).1.head?.bind (·.head?)).getD (n + 4) = scanHead (n + 4) sites.1 := by
    rw [← s5, scanHead]
    cases sites.1 with
    | nil => rfl
    | cons band bands => rfl
  have hlasts : (List.range' l bs.length).map (fun d => Stmt.assignI64 (U := U) d (-1)) =
      sites.1.map fun band => .assignI64 band.last (-1) := by
    rw [← s4, ← hat.last, List.map_map]
    rfl
  rw [hhead] at hbody
  rw [hnext] at hat s2 s6
  refine ⟨hat, ?_, ?_, ?_, fun y => ?_⟩
  · rw [hbody]
    exact s2
  · rw [hbody, s4, ← hlen]
    exact congrArg List.length s3
  · rw [hbody]
    refine (hext.trans (s7 _)).trans_new (Extends.set_self : Extends (· = n + 3) _ _) fun c hc heq => ?_
    omega
  · rw [hbody, ← hlasts]
    by_cases hy : y = n + 3
    · simp [hy, Cfg.setGoto, Cfg.setTerm, s6, hblock, bs, n]
    · simp [hy, Cfg.setGoto, Cfg.setTerm, s6, hblock, bs, l, n]

variable (ms) in
theorem prioScan_edit {u : U} {S : ℕ → Prop} : Edit u S cfg (prioScan cfg r ms progress) :=
  (prioSites_edit ms progress hr).trans (emitBands_edit _ _ _ _)

variable (ms) in
theorem prioBody_edit {hooks : Hooks U} {u : U} {S : ℕ → Prop} (hu : hooks.deadlock ≠ some u) :
    Edit u S cfg (prioBody hooks cfg r ms progress) :=
  (((prioScan_edit ms progress hr).trans (emitScanEnd_edit hu _ progress _)).trans (emitChecks_edit _ _ ms _)).setTerm

variable (he : ∀ m ∈ ms, m.exitBb < cfg.next ∧ m.exitBb ≠ r.regionEnd.1 ∧ cfg.block m.exitBb = .fresh)
  (hnodup : (ms.map (·.exitBb)).Nodup)
include he hnodup

theorem prioScan_spec :
    let n := cfg.next
    let l := cfg.locals.length
    let sites := prioSites cfg r ms progress
    let scan := prioScan cfg r ms progress
    Chain scan (fun c => n + 5 ≤ c ∧ c < scan.next ∨ ∃ m ∈ ms, c = m.exitBb)
        (fun d => l + 2 * sites.1.length ≤ d ∧ d < scan.locals.length) (n + 3) (n + 4) (scanHead (n + 4) sites.1)
        (scanStops sites.1) ∧
      n + 5 ≤ scan.next ∧ l + 2 * sites.1.length ≤ scan.locals.length ∧
      Extends (fun c => c = r.regionEnd.1 ∨ ∃ m ∈ ms, c = m.exitBb) cfg scan ∧
      ∀ y < n + 5, (∀ m ∈ ms, y ≠ m.exitBb) → scan.block y = sites.2.block y := by
  intro n l sites scan
  obtain ⟨hat, hnext, hlen, hext, hblock⟩ := prioSites_spec ms progress hr
  have hscan : scan = emitBands (n + 3) (n + 4) sites.1 sites.2 := rfl
  change BandsAt r ms l (n + 5) sites.1 at hat
  change sites.2.next = _ at hnext
  change sites.2.locals.length = l + 2 * sites.1.length at hlen
  -- The scan writes to the sites and to the exits of the machines.
  have hmem : ∀ y, y ∈ sites.1.flatMap Band.blocks ↔ (n + 5 ≤ y ∧ y < n + 5 + 2 * ms.length) ∨ ∃ m ∈ ms, y = m.exitBb := by
    intro y
    rw [hat.blocks_perm.mem_iff, List.mem_append, List.mem_range'_1, List.mem_map]
    simp only [eq_comm]
  have hfresh : ∀ y ∈ sites.1.flatMap Band.blocks, y < sites.2.next ∧ sites.2.block y = .fresh := by
    intro y hy
    rcases (hmem y).mp hy with hy | ⟨m, hm, rfl⟩
    · exact ⟨by omega, by rw [hblock, if_neg (by omega), if_pos hy]⟩
    · obtain ⟨h1, h2, h3⟩ := he m hm
      exact ⟨by omega, (hext.same _ h1 h2).trans h3⟩
  have hbnodup : (sites.1.flatMap Band.blocks).Nodup := by
    refine hat.blocks_perm.nodup_iff.mpr (List.nodup_append.mpr ⟨List.nodup_range', hnodup, ?_⟩)
    intro y hy z hz hyz
    rw [List.mem_range'_1] at hy
    obtain ⟨m, hm, rfl⟩ := List.mem_map.mp hz
    exact ne_exit he (by omega) m hm hyz
  obtain ⟨hchain, hbands⟩ := emitBands_spec (n + 3) (n + 4) sites.1 sites.2 hat.laid hfresh hbnodup
  rw [← hscan] at hchain hbands
  have hle := hbands.next_le
  have hlle := hbands.locals_le
  refine ⟨hchain.mono (fun c hc => ⟨?_, rfl⟩) fun d hd => ⟨hlen ▸ hd.1, hd.2⟩, by omega, by omega, ?_, fun y hy hye => ?_⟩
  · rcases hc with hc | hc
    · rcases (hmem c).mp hc with hc | hc
      · exact .inl ⟨hc.1, by omega⟩
      · exact .inr hc
    · exact .inl ⟨by omega, hc.2⟩
  · refine (hext.mono fun c _ hc => .inl hc).trans_new hbands fun c hc hin => ?_
    rcases (hmem c).mp hin with h | h
    · omega
    · exact .inr h
  · refine hbands.same y (by omega) fun hin => ?_
    rcases (hmem y).mp hin with h | ⟨m, hm, h⟩
    · omega
    · exact hye m hm h

/-- The checks and the end of a scan, laid out behind it. -/
theorem prioBody_spec (hooks : Hooks U) :
    let n := cfg.next
    let scan := prioScan cfg r ms progress
    let body := prioBody hooks cfg r ms progress
    Checks body (fun c => c = n + 4 ∨ scan.next + 1 < c ∧ c < body.next)
        (fun d => scan.locals.length < d ∧ d < body.locals.length) (scan.next + 1) n (n + 4) ms ∧
      scan.next + 1 < body.next ∧ scan.locals.length < body.locals.length ∧ Extends (· = n + 4) scan body ∧
      body.block scan.next = stuckBlock hooks (n + 3) ∧
      body.block (scan.next + 1) = ⟨[.eqCheckI64 scan.locals.length progress 1], .branch scan.locals.length (n + 3) scan.next⟩ := by
  intro n scan body
  obtain ⟨-, hle, -, -, hfront⟩ := prioScan_spec progress hr he hnodup
  obtain ⟨-, -, -, -, hblock⟩ := prioSites_spec ms progress hr
  obtain ⟨e1, e2, e3, e4⟩ := emitScanEnd_block hooks scan progress (n + 3)
  have hbody : body = (emitChecks (scan.next + 1) (n + 4) ms (emitScanEnd hooks scan progress (n + 3))).2.setGoto
      (emitChecks (scan.next + 1) (n + 4) ms (emitScanEnd hooks scan progress (n + 3))).1 n := rfl
  change n + 5 ≤ scan.next at hle
  generalize emitScanEnd hooks scan progress (n + 3) = endBody at e1 e2 e3 e4 hbody
  have hcheck : endBody.block (n + 4) = .fresh := by
    rw [e4, if_neg (by omega), if_neg (by omega)]
    refine (hfront _ (by omega) (ne_exit he (by omega))).trans ?_
    rw [hblock, if_neg (by omega), if_neg (by omega), if_neg (by omega), if_pos rfl]
  obtain ⟨c1, c2, -, -⟩ := emitChecks_spec (scan.next + 1) n ms (n + 4) endBody (by omega) hcheck
  rw [← hbody] at c1 c2
  have hnext := c2.next_le
  have hlocals := c2.locals_le
  refine ⟨c1.mono (fun c hc => ⟨?_, rfl⟩) fun d hd => ⟨by have h1 := hd.1; omega, hd.2⟩, by omega, by omega,
    (e3 _).trans c2, ?_, ?_⟩
  · rcases hc with hc | hc
    · exact .inl (List.mem_singleton.mp hc)
    · exact .inr ⟨by have h1 := hc.1; omega, hc.2⟩
  · rw [c2.same _ (by omega) (by omega), e4, if_pos rfl]
  · rw [c2.same _ (by omega) (by omega), e4, if_neg (by omega), if_pos rfl]

theorem prioLoop_of_scan (hooks : Hooks U) :
    let n := cfg.next
    let sites := prioSites cfg r ms progress
    let body := prioBody hooks cfg r ms progress
    PrioLoop hooks body body.next (fun d => cfg.locals.length + 2 * sites.1.length ≤ d ∧ d < body.locals.length) sites.1 ms
      progress n (prioScan cfg r ms progress).next (cfg.term r.regionEnd.1) := by
  intro n sites body
  obtain ⟨hchain, hle, hlle, -, hfront⟩ := prioScan_spec progress hr he hnodup
  obtain ⟨-, -, -, -, hblock⟩ := prioSites_spec ms progress hr
  obtain ⟨hchecks, hnext, hlocals, hext, hstuck, hend⟩ := prioBody_spec progress hr he hnodup hooks
  obtain ⟨-, -, -, -, hexit⟩ := regionExit_block cfg r hr
  -- Blocks that neither the scan nor what is behind it writes to.
  have hold : ∀ y, n ≤ y → y < n + 4 → body.block y = sites.2.block y := by
    intro y hy hlt
    exact (hext.same y (hlt.trans (by omega)) (by omega)).trans (hfront y (by omega) (ne_exit he hy))
  constructor
  case exit =>
    rw [hold _ le_rfl (by omega), hblock, if_neg (by omega), if_neg (by omega), if_neg (by omega), if_neg (by omega), hexit,
      if_pos rfl]
  case post =>
    rw [hold _ (by omega) (by omega), hblock, if_neg (by omega), if_neg (by omega), if_neg (by omega), if_neg (by omega),
      hexit, if_neg (by omega), if_neg (by omega), if_pos rfl]
  case init => rw [hold _ (by omega) (by omega), hblock, if_neg (by omega), if_neg (by omega), if_pos rfl]
  case top => rw [hold _ (by omega) (by omega), hblock, if_pos rfl]
  case scan =>
    refine hchain.mono (fun c hc => ⟨hc, ?_⟩) fun d hd => ⟨hd.1, hd.2.trans hlocals⟩
    rcases hc with hc | ⟨m, hm, rfl⟩
    · exact hext.same c hc.2 (by omega)
    · have hlt := (he m hm).1
      exact hext.same _ (by omega) (by omega)
  case checks => exact hchecks.mono (fun c hc => ⟨hc, rfl⟩) fun d hd => ⟨hlle.trans hd.1.le, hd.2⟩
  case noProgress => exact ⟨_, ⟨hlle, hlocals⟩, hend⟩
  case stuck_block => exact hstuck
  case stuck_mem => exact ⟨hle, hnext⟩

end Priority

theorem buildPriorityLoop_spec (hooks : Hooks U) (cfg : Body U) (r : Region) (ms : List Machine) (progress : ℕ)
    (hne : ms ≠ []) (hprog : ∀ m ∈ ms, m.progressLocal = progress) (hr : r.regionEnd.1 < cfg.next)
    (he : ∀ m ∈ ms, m.exitBb < cfg.next ∧ m.exitBb ≠ r.regionEnd.1 ∧ cfg.block m.exitBb = .fresh)
    (hnodup : (ms.map (·.exitBb)).Nodup) :
    let n := cfg.next
    let l := cfg.locals.length
    ∃ cfgL bands stuck, buildPriorityLoop hooks cfg r ms = (⟨n + 3, n, n + 4, stuck⟩, finishRegion cfgL r ms (n + 2)) ∧
      Extends (fun c => c = r.regionEnd.1 ∨ ∃ m ∈ ms, c = m.exitBb) cfg cfgL ∧
      cfgL.block r.regionEnd.1 = ⟨cfg.stmts r.regionEnd.1, .unreachable⟩ ∧
      BandsAt r ms l (n + 5) bands ∧
      PrioLoop hooks cfgL cfgL.next (fun d => l + 2 * bands.length ≤ d ∧ d < cfgL.locals.length) bands ms progress n stuck
        (cfg.term r.regionEnd.1) ∧
      ∀ (u : U) (S : ℕ → Prop), hooks.deadlock ≠ some u → Edit u S cfg cfgL := by
  intro n l
  obtain ⟨-, hle, -, hscan, hfront⟩ := prioScan_spec progress hr he hnodup
  obtain ⟨hat, -, -, -, hblock⟩ := prioSites_spec ms progress hr
  obtain ⟨-, -, -, hext, -, -⟩ := prioBody_spec progress hr he hnodup hooks
  obtain ⟨-, -, -, -, hexit⟩ := regionExit_block cfg r hr
  refine ⟨prioBody hooks cfg r ms progress, (prioSites cfg r ms progress).1, (prioScan cfg r ms progress).next,
    buildPriorityLoop_eq hooks cfg r hne hprog, ?_, ?_, hat, prioLoop_of_scan progress hr he hnodup hooks,
    fun u S hu => prioBody_edit ms progress hr hu⟩
  · exact hscan.trans_new hext fun c hc heq => by omega
  · have hre : ∀ m ∈ ms, r.regionEnd.1 ≠ m.exitBb := fun m hm => (he m hm).2.1.symm
    rw [hext.same _ (by omega) (by omega), hfront _ (by omega) hre, hblock, if_neg (by omega), if_neg (by omega),
      if_neg (by omega), if_neg (by omega), hexit, if_neg hr.ne, if_pos rfl]

end Krio.Stackless
