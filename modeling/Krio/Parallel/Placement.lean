import Krio.Parallel.Contention

/-! Placement on an agent from another thread: `spawn_on` pushes on the agent's deque, while the agent pushes
and pops and thieves steal, in every interleaving. One such call is in progress at a time. -/

namespace Krio.Parallel
open Lib

/-- The agent's `pop` has lowered `bottom` and not yet returned. -/
def OwnerPc.claimed {w : ℕ} {α : Type} : OwnerPc w α → Bool
  | .pop .loadBottom | .pop (.claim _) => false
  | .pop _ => true
  | _ => false

/-- A push at the point where it writes its slot or publishes it. -/
def Deque.PushPc.stores {w : ℕ} : Deque.PushPc w → Bool
  | .write _ | .publish _ => true
  | _ => false

namespace Deque
variable {w : ℕ} {α : Type}

/-- What a push or a pop has loaded still holds where it stores: `bottom` is unchanged, there is room, and
    the slot has the value that was written. -/
def Current (d : Deque w α) : OwnerPc w α → Prop
  | .push _ (.write b) => d.bottom = b ∧ (b - d.top).toInt < d.capacity
  | .push v (.publish b) => d.bottom = b ∧ (b - d.top).toInt < d.capacity ∧ d.read b = some v
  | .pop (.claim b) => d.bottom = b + 1
  | _ => True

instance [DecidableEq α] (d : Deque w α) (o : OwnerPc w α) : Decidable (d.Current o) := by
  unfold Current
  split <;> infer_instance

end Deque

/-- A deque, its agent, a thread in `spawn_on` and the thieves, with what was pushed, spilled and returned. -/
structure Placement (w : ℕ) (β : Type) where
  deque : Deque w (Pushed β)
  owner : OwnerPc w (Pushed β)
  placer : Option (Pushed β × Deque.PushPc w)
  thieves : ℕ → Option (Deque.StealPc w (Pushed β))
  attempts : ℕ
  /-- The values whose push returned `Ok`, in that order. -/
  pushed : List (Pushed β)
  /-- The values that `deposit` gave to the injector, the deque being full. -/
  spilled : List (Pushed β)
  /-- What pops and steals returned, newest first. -/
  returned : List (Option (Pushed β))

namespace Placement
variable {w : ℕ} {β : Type}

/-- An operation is started, or takes a step: the agent's, the placing thread's, or a thief's. -/
inductive Act (β : Type)
  | push (v : β)
  | pop
  | owner
  | place (v : β)
  | placer
  | steal (k : ℕ)
  | thief (k : ℕ)

def init (start : BitVec w) (cap : ℕ) : Placement w β where
  deque := Deque.withCapacity start cap
  owner := .idle
  placer := none
  thieves _ := none
  attempts := 0
  pushed := []
  spilled := []
  returned := []

/-- `deposit` has pushed the value, or gives it to the injector. -/
def deposited (s : Placement w β) (v : Pushed β) (ok : Bool) : Placement w β :=
  if ok then { s with pushed := s.pushed ++ [v] } else { s with spilled := s.spilled ++ [v] }

def stepPush (s : Placement w β) (v : Pushed β) (pc : Deque.PushPc w) : Placement w β :=
  match s.deque.push v pc with
  | (d, .next pc') => { s with deque := d, owner := .push v pc' }
  | (d, .ret ok) => { s with deque := d, owner := .idle }.deposited v ok

def stepPlace (s : Placement w β) (v : Pushed β) (pc : Deque.PushPc w) : Placement w β :=
  match s.deque.push v pc with
  | (d, .next pc') => { s with deque := d, placer := some (v, pc') }
  | (d, .ret ok) => { s with deque := d, placer := none }.deposited v ok

def stepPop (s : Placement w β) (pc : Deque.PopPc w) : Placement w β :=
  match s.deque.pop pc with
  | (d, .next pc') => { s with deque := d, owner := .pop pc' }
  | (d, .ret none) => { s with deque := d, owner := .idle }
  | (d, .ret (some v)) => { s with deque := d, owner := .idle, returned := v :: s.returned }

def stepSteal (s : Placement w β) (k : ℕ) (pc : Deque.StealPc w (Pushed β)) : Placement w β :=
  match s.deque.steal pc with
  | (d, .next pc') => { s with deque := d, thieves := Function.update s.thieves k (some pc') }
  | (d, .ret none) => { s with deque := d, thieves := Function.update s.thieves k none }
  | (d, .ret (some v)) =>
    { s with deque := d, thieves := Function.update s.thieves k none, returned := v :: s.returned }

def step (s : Placement w β) : Act β → Option (Placement w β)
  | .push v =>
    match s.owner with
    | .idle => some { s with owner := .push (s.attempts, v) .loadBottom, attempts := s.attempts + 1 }
    | _ => none
  | .pop =>
    match s.owner with
    | .idle => some { s with owner := .pop .loadBottom }
    | _ => none
  | .owner =>
    match s.owner with
    | .idle => none
    | .push v pc => some (s.stepPush v pc)
    | .pop pc => some (s.stepPop pc)
  | .place v =>
    match s.placer with
    | none => some { s with placer := some ((s.attempts, v), .loadBottom), attempts := s.attempts + 1 }
    | some _ => none
  | .placer => s.placer.map fun p => s.stepPlace p.1 p.2
  | .steal k =>
    match s.thieves k with
    | none => some { s with thieves := Function.update s.thieves k (some .loadTop) }
    | some _ => none
  | .thief k => (s.thieves k).map (s.stepSteal k)

/-- Less than a full turn of the index space goes by during a call of `steal`. -/
def NoWrap (s : Placement w β) : Act β → Prop
  | .thief k => ∀ pc ∈ s.thieves k, s.deque.inTime pc = true
  | _ => True

/-- The two pushers keep out of each other's way: where the agent or the placing thread stores, what it
    loaded still holds, and `spawn_on` does not store while the agent's `pop` has a slot claimed. -/
def Undisturbed (s : Placement w β) : Act β → Prop
  | .owner => s.deque.Current s.owner
  | .placer => ∀ p ∈ s.placer, s.deque.Current (.push p.1 p.2) ∧ (p.2.stores = true → s.owner.claimed = false)
  | a => NoWrap s a

/-- The numbers of the values whose push is in progress. -/
def inFlight (s : Placement w β) : List ℕ :=
  (match s.owner with
    | .push v _ => [v.1]
    | _ => []) ++ (s.placer.map fun p => p.1.1).toList

variable [DecidableEq β]

/-- The values that were pushed and not returned. -/
def remaining (s : Placement w β) : List (Pushed β) := unreturned s.pushed s.returned

/-- No job is lost: each one was pushed or spilled, or its push is in progress, and what was pushed and not
    returned is in the deque or in the agent's hand. None is returned twice, and nothing is read that was
    not written. -/
structure Safe (s : Placement w β) : Prop where
  kept : ∀ n < s.attempts, n ∈ s.pushed.map Prod.fst ∨ n ∈ s.spilled.map Prod.fst ∨ n ∈ s.inFlight
  there : s.deque.live s.owner ++ s.deque.hand s.owner = s.remaining
  once : s.returned.Nodup
  returned : ∀ r ∈ s.returned, ∃ v ∈ s.pushed, r = some v
  initialised : ∀ k t seen value, s.thieves k = some (.claim t seen value) → value.isSome = true

end Placement

/-! ### Reads of written slots -/

namespace Deque
variable {w : ℕ} {α ι : Type} {d d' : Deque w α} {live : List α} {o : OwnerPc w α} {th : ι → Option (StealPc w α)}
  {v : α}

/-- A thief's slot has been written, once `top` has passed it or the thief has seen `bottom` beyond it. -/
def ReadOk (d : Deque w α) : StealPc w α → Prop
  | .loadTop => True
  | .loadBottom t seen => seen < d.wins → (d.read t).isSome = true
  | .read t _ => (d.read t).isSome = true
  | .claim _ _ value => value.isSome = true

/-- Written slots stay written, and `top` passes only these. -/
structure Grows (d d' : Deque w α) : Prop where
  slots : ∀ i, (d.read i).isSome = true → (d'.read i).isSome = true
  wins : d'.wins = d.wins ∨ d'.wins = d.wins + 1 ∧ (d.read d.top).isSome = true

theorem Grows.refl (d : Deque w α) : d.Grows d := ⟨fun _ h => h, Or.inl rfl⟩

theorem ReadOk.grows {pc : StealPc w α} (h : d.ReadOk pc) (hth : d.ThiefOk live pc) (hg : d.Grows d') : d'.ReadOk pc := by
  cases pc with
  | loadTop => trivial
  | loadBottom t seen =>
    intro hlt
    obtain ⟨hle, htop⟩ := hth
    by_cases hseen : seen < d.wins
    · exact hg.slots t (h hseen)
    · obtain hw | ⟨-, hread⟩ := hg.wins
      · exact absurd (hw ▸ hlt) hseen
      · have hnow : d.wins - seen = 0 := by omega
        have ht : d.top = t := by simpa [hnow] using htop
        exact hg.slots t (ht ▸ hread)
  | read t seen => exact hg.slots t h
  | claim t seen value => exact h

theorem Inv.read_top (h : Inv d live o th) (hne : live ≠ []) : (d.read d.top).isSome = true := by
  obtain ⟨x, l, rfl⟩ := List.exists_cons_of_ne_nil hne
  have hread : d.read (d.after 0) = some x := h.slots 0 x rfl
  rw [after_zero] at hread
  exact Option.isSome_of_eq_some hread

theorem Sized.grows_push (h : d.Sized) (v : α) (pc : PushPc w) : d.Grows (d.push v pc).1 := by
  cases pc with
  | loadBottom => exact .refl d
  | loadTop b =>
    simp only [Deque.push]
    split
    · exact .refl d
    · exact .refl d
  | write b =>
    refine ⟨fun i hi => ?_, Or.inl rfl⟩
    show ((d.write b v).read i).isSome = true
    by_cases hs : d.slot b = d.slot i
    · have hread : (d.write b v).read i = some v := by
        have hb : (d.write b v).slot b = (d.write b v).slot i := by simpa [slot, mask, capacity, write] using hs
        have heq : (d.write b v).read b = (d.write b v).read i := by rw [read, read, hb]
        exact heq.symm.trans (read_write_self h)
      rw [hread]
      rfl
    · rw [read_write_of_ne hs]
      exact hi
  | publish b => exact ⟨fun _ hi => hi, Or.inl rfl⟩

theorem Inv.grows_pop {pc : PopPc w} (h : Inv d live (.pop pc) th) : d.Grows (d.pop pc).1 := by
  cases pc with
  | race b t =>
    obtain ⟨hb, hb', rfl, hlen⟩ := h.owner
    by_cases ht : d.top = t
    · simp only [Deque.pop, casTop, if_pos ht]
      refine ⟨fun _ hi => hi, Or.inr ⟨rfl, h.read_top ?_⟩⟩
      rintro rfl
      rw [List.length_nil, after_zero, ht] at hb'
      exact add_one_ne h.sized.pos t hb'
    · simp only [Deque.pop, casTop, if_neg ht]
      exact .refl d
  | loadTop b =>
    simp only [Deque.pop]
    split
    · exact .refl d
    · split
      · exact .refl d
      · exact .refl d
  | loadBottom | claim b | restore b | settle b won | take b => exact ⟨fun _ hi => hi, Or.inl rfl⟩

theorem Inv.grows_steal {k : ι} {pc : StealPc w α} (h : Inv d live o th) (hk : th k = some pc)
    (hwrap : d.inTime pc = true) : d.Grows (d.steal pc).1 := by
  classical
  cases pc with
  | claim t seen value =>
    by_cases ht : d.top = t
    · have he : d.steal (.claim t seen value) =
          ({ d with top := t + 1, wins := d.wins + 1 }, .ret (some value)) := by
        simp [Deque.steal, casTop, ht]
      obtain ⟨x, l, rfl, -⟩ := h.steal_some hk hwrap he
      rw [he]
      exact ⟨fun _ hi => hi, Or.inr ⟨rfl, h.read_top (by simp)⟩⟩
    · simp only [Deque.steal, casTop, if_neg ht]
      exact .refl d
  | loadBottom t seen =>
    simp only [Deque.steal]
    split
    · exact .refl d
    · exact .refl d
  | loadTop | read t seen => exact .refl d

/-- What a thief goes on to read has been written. -/
theorem Inv.readOk_next {k : ι} {pc pc' : StealPc w α} (h : Inv d live o th) (hr : d.ReadOk pc) (hk : th k = some pc)
    (he : d.steal pc = (d', .next pc')) : d'.ReadOk pc' := by
  classical
  obtain ⟨rfl, h'⟩ := h.steal_next hk he
  have hok := h'.thieves k pc' (Function.update_self ..)
  cases pc with
  | loadTop =>
    cases he
    exact fun hlt => absurd hlt (lt_irrefl _)
  | loadBottom t seen =>
    simp only [Deque.steal] at he
    split at he <;> cases he
    obtain ⟨hle, htop, hnow⟩ := hok
    obtain hlt | heq := Nat.lt_or_eq_of_le hle
    · exact hr hlt
    · have ht : d'.top = t := by simpa [heq] using htop
      exact ht ▸ h.read_top (hnow heq)
  | read t seen =>
    cases he
    exact hr
  | claim t seen value => simp [Deque.steal] at he

/-! ### A push that may have been disturbed -/

variable {pc : PushPc w}

/-- A push that does not store leaves the deque alone, and when it returns the deque was full. -/
theorem push_of_not_stores (hpc : pc.stores = false) :
    (d.push v pc).1 = d ∧ ∀ ok, (d.push v pc).2 = .ret ok → ok = false := by
  cases pc with
  | loadBottom => exact ⟨rfl, by simp [Deque.push]⟩
  | loadTop b =>
    simp only [Deque.push]
    split
    · exact ⟨rfl, by simp⟩
    · exact ⟨rfl, by simp⟩
  | write b | publish b => cases hpc

/-- Where a push stores and what it loaded still holds, it knows what the only pusher would know. -/
theorem Inv.of_current (h : Inv d live .idle th) (hpc : pc.stores = true) (hc : d.Current (.push v pc)) :
    Inv d live (.push v pc) th := by
  have hb : d.bottom = d.after live.length := h.owner
  have hroom : ∀ b, d.bottom = b → (b - d.top).toInt < d.capacity → live.length < d.capacity := by
    rintro b rfl hlt
    rw [hb, after_sub_top, h.sized.toInt h.bounded] at hlt
    exact Int.ofNat_lt.mp hlt
  refine ⟨h.sized, h.bounded, h.slots, ?_, h.thieves⟩
  cases pc with
  | loadBottom | loadTop b => cases hpc
  | write b => exact ⟨hb, hc.1.symm, hroom b hc.1 hc.2⟩
  | publish b => exact ⟨hb, hc.1.symm, hroom b hc.1 hc.2.1, hc.2.2⟩

/-- Until it is published a push has not changed what is in the deque. -/
theorem Inv.idle_of_push (h : Inv d live (.push v pc) th) : Inv d live .idle th := by
  refine ⟨h.sized, h.bounded, h.slots, ?_, h.thieves⟩
  have hown := h.owner
  cases pc with
  | loadBottom => exact hown
  | loadTop b | write b | publish b => exact hown.1

theorem Inv.push_next_current {pc' : PushPc w} (h : Inv d live .idle th) (hc : d.Current (.push v pc))
    (he : d.push v pc = (d', .next pc')) : Inv d' live .idle th := by
  by_cases hpc : pc.stores = true
  · exact ((h.of_current hpc hc).push_next he).idle_of_push
  · have hsame := (push_of_not_stores (d := d) (v := v) (by simpa using hpc)).1
    rw [he] at hsame
    obtain rfl : d' = d := hsame
    exact h

theorem Inv.push_ret_current {ok : Bool} (h : Inv d live .idle th) (hc : d.Current (.push v pc))
    (he : d.push v pc = (d', .ret ok)) : Inv d' (if ok then live ++ [v] else live) .idle th := by
  by_cases hpc : pc.stores = true
  · exact (h.of_current hpc hc).push_ret he
  · obtain ⟨hsame, hfull⟩ := push_of_not_stores (d := d) (v := v) (by simpa using hpc)
    rw [he] at hsame hfull
    obtain rfl := hfull ok rfl
    obtain rfl : d' = d := hsame
    exact h

end Deque

/-! ### Runs -/

/-- The agent, as far as the deque shows it: a push that is not published has left no trace. -/
def OwnerPc.core {w : ℕ} {α : Type} (o : OwnerPc w α) : OwnerPc w α := if o.claimed then o else .idle

namespace Placement
variable {w : ℕ} {β : Type}

theorem core_of_not_claimed {o : OwnerPc w β} (h : o.claimed = false) : o.core = .idle := by simp [OwnerPc.core, h]

/-- What is in the deque and in the agent's hand, told from what shows of the agent. -/
theorem live_core (d : Deque w β) (o : OwnerPc w β) : d.live o = d.live o.core ∧ d.hand o = d.hand o.core := by
  rcases o with _ | ⟨v, _ | _ | _ | _⟩ | (_ | _ | _ | _ | _ | _ | _) <;> exact ⟨rfl, rfl⟩

variable [DecidableEq β]

/-- The account: every value of a push is pushed, spilled or in flight, and only once; what was pushed and
    not returned is there. -/
structure Inv (s : Placement w β) (live : List (Pushed β)) : Prop where
  deque : s.deque.Inv live s.owner.core s.thieves
  remaining : live ++ s.deque.hand s.owner.core = s.remaining
  once : s.returned.Nodup
  returned : ∀ r ∈ s.returned, ∃ v ∈ s.pushed, r = some v
  counted : ∀ n, (s.pushed.map Prod.fst).count n + (s.spilled.map Prod.fst).count n + s.inFlight.count n =
    if n < s.attempts then 1 else 0
  reads : ∀ k pc, s.thieves k = some pc → s.deque.ReadOk pc

variable {s s' : Placement w β} {live : List (Pushed β)} {v x : Pushed β}

theorem Inv.nodup (h : Inv s live) : s.pushed.Nodup := by
  refine List.Nodup.of_map Prod.fst (List.nodup_iff_count_le_one.mpr fun n => ?_)
  have hn := h.counted n
  split at hn <;> omega

/-- A value in flight has not been pushed, so it was not returned either. -/
theorem Inv.fresh (h : Inv s live) (hv : v.1 ∈ s.inFlight) : v ∉ s.pushed ∧ some v ∉ s.returned := by
  have hpushed : v ∉ s.pushed := by
    intro hmem
    have hone := List.count_pos_iff.mpr (List.mem_map_of_mem (f := Prod.fst) hmem)
    have hfly := List.count_pos_iff.mpr hv
    have hn := h.counted v.1
    split at hn <;> omega
  refine ⟨hpushed, fun hret => ?_⟩
  obtain ⟨u, hu, huv⟩ := h.returned _ hret
  cases huv
  exact hpushed hu

/-- A push ends: its value leaves the flight and is pushed or spilled. -/
theorem Inv.deposited (s' : Placement w β) (ok : Bool) (h : Inv s live) (hv : v.1 ∈ s.inFlight)
    (hfly : ∀ n, s.inFlight.count n = s'.inFlight.count n + [v.1].count n)
    (hidle : ok = true → s.owner.core = .idle)
    (hkept : s'.pushed = s.pushed ∧ s'.spilled = s.spilled ∧ s'.returned = s.returned ∧ s'.attempts = s.attempts ∧
      s'.thieves = s.thieves)
    (hd : s'.deque.Inv (if ok then live ++ [v] else live) s'.owner.core s'.thieves)
    (hhand : s'.deque.hand s'.owner.core = s.deque.hand s.owner.core) (hgrows : s.deque.Grows s'.deque) :
    Inv (s'.deposited v ok) (if ok then live ++ [v] else live) := by
  obtain ⟨hp, hs, hr, ha, ht⟩ := hkept
  have hreads : ∀ k pc, s'.thieves k = some pc → s'.deque.ReadOk pc := by
    intro k pc hk
    rw [ht] at hk
    exact (h.reads k pc hk).grows (h.deque.thieves k pc hk) hgrows
  cases ok with
  | false =>
    refine ⟨hd, ?_, hr ▸ h.once, ?_, ?_, hreads⟩
    · show live ++ s'.deque.hand s'.owner.core = s'.pushed.filter fun u => some u ∉ s'.returned
      rw [hhand, hp, hr]
      exact h.remaining
    · show ∀ r ∈ s'.returned, ∃ u ∈ s'.pushed, r = some u
      rw [hp, hr]
      exact h.returned
    · intro n
      have hn := h.counted n
      have hf := hfly n
      show (s'.pushed.map Prod.fst).count n + ((s'.spilled ++ [v]).map Prod.fst).count n + s'.inFlight.count n =
        if n < s'.attempts then 1 else 0
      rw [hp, hs, ha, List.map_append, List.count_append]
      simp only [List.map_cons, List.map_nil]
      omega
  | true =>
    obtain ⟨-, hfresh⟩ := h.fresh hv
    refine ⟨hd, ?_, hr ▸ h.once, ?_, ?_, hreads⟩
    · have hlive : live = s.remaining := by
        have hrem := h.remaining
        rwa [hidle rfl, Deque.hand_of_resting rfl, List.append_nil] at hrem
      have hnone : s'.deque.hand s'.owner.core = [] := by rw [hhand, hidle rfl, Deque.hand_of_resting rfl]
      show live ++ [v] ++ s'.deque.hand s'.owner.core = (s'.pushed ++ [v]).filter fun u => some u ∉ s'.returned
      rw [hnone, List.append_nil, hp, hr, List.filter_append, List.filter_cons_of_pos (by simpa using hfresh),
        List.filter_nil, hlive, Placement.remaining]
    · show ∀ r ∈ s'.returned, ∃ u ∈ s'.pushed ++ [v], r = some u
      rw [hp, hr]
      intro r hr'
      obtain ⟨u, hu, hru⟩ := h.returned r hr'
      exact ⟨u, List.mem_append_left _ hu, hru⟩
    · intro n
      have hn := h.counted n
      have hf := hfly n
      show ((s'.pushed ++ [v]).map Prod.fst).count n + (s'.spilled.map Prod.fst).count n + s'.inFlight.count n =
        if n < s'.attempts then 1 else 0
      rw [hp, hs, ha, List.map_append, List.count_append]
      simp only [List.map_cons, List.map_nil]
      omega

/-- A step that pushes, spills and returns nothing keeps the account. -/
theorem Inv.quiet {s' : Placement w β} {live' : List (Pushed β)} (h : Inv s live)
    (hkept : s'.pushed = s.pushed ∧ s'.spilled = s.spilled ∧ s'.returned = s.returned ∧ s'.attempts = s.attempts ∧
      s'.inFlight = s.inFlight)
    (hd : s'.deque.Inv live' s'.owner.core s'.thieves)
    (hhand : live' ++ s'.deque.hand s'.owner.core = live ++ s.deque.hand s.owner.core)
    (hreads : ∀ k pc, s'.thieves k = some pc → s'.deque.ReadOk pc) : Inv s' live' := by
  obtain ⟨hp, hs, hr, ha, hf⟩ := hkept
  refine ⟨hd, ?_, hr ▸ h.once, ?_, ?_, hreads⟩
  · rw [hhand, h.remaining, Placement.remaining, Placement.remaining, hp, hr]
  · rw [hr, hp]
    exact h.returned
  · rw [hp, hs, ha, hf]
    exact h.counted

theorem Inv.stepPush {pc : Deque.PushPc w} (h : Inv s live) (ho : s.owner = .push v pc)
    (hc : s.deque.Current (.push v pc)) : ∃ live', Inv (s.stepPush v pc) live' := by
  have hd : s.deque.Inv live .idle s.thieves := by simpa [ho, OwnerPc.core, OwnerPc.claimed] using h.deque
  have hgrows := h.deque.sized.grows_push v pc
  have hreads : ∀ {d : Deque w (Pushed β)}, s.deque.Grows d → ∀ k pc, s.thieves k = some pc → d.ReadOk pc :=
    fun hg k pc hk => (h.reads k pc hk).grows (h.deque.thieves k pc hk) hg
  unfold Placement.stepPush
  split
  · rename_i d pc' he
    rw [he] at hgrows
    refine ⟨live, h.quiet ⟨rfl, rfl, rfl, rfl, by simp [inFlight, ho]⟩ (hd.push_next_current hc he) ?_ (hreads hgrows)⟩
    rw [ho]
    rfl
  · rename_i d ok he
    rw [he] at hgrows
    refine ⟨_, h.deposited _ _ (by simp [inFlight, ho]) ?_ ?_ ⟨rfl, rfl, rfl, rfl, rfl⟩ (hd.push_ret_current hc he) ?_ hgrows⟩
    · intro n
      simp [inFlight, ho, List.count_cons, Nat.add_comm]
    · rw [ho]
      exact fun _ => rfl
    · rw [ho]
      rfl

theorem Inv.stepPlace {pc : Deque.PushPc w} (h : Inv s live) (hp : s.placer = some (v, pc))
    (hc : s.deque.Current (.push v pc)) (hown : pc.stores = true → s.owner.claimed = false) :
    ∃ live', Inv (s.stepPlace v pc) live' := by
  have hgrows := h.deque.sized.grows_push v pc
  have hreads : ∀ {d : Deque w (Pushed β)}, s.deque.Grows d → ∀ k pc, s.thieves k = some pc → d.ReadOk pc :=
    fun hg k pc hk => (h.reads k pc hk).grows (h.deque.thieves k pc hk) hg
  by_cases hclaimed : s.owner.claimed = true
  · -- The agent has a slot claimed, so this push only loads.
    have hpc : pc.stores = false := by
      by_contra hne
      simp [hown (by simpa using hne)] at hclaimed
    obtain ⟨hsame, hfull⟩ := Deque.push_of_not_stores (d := s.deque) (v := v) hpc
    unfold Placement.stepPlace
    split
    · rename_i d pc' he
      rw [he] at hsame hgrows
      obtain rfl : d = s.deque := hsame
      exact ⟨live, h.quiet ⟨rfl, rfl, rfl, rfl, by simp [inFlight, hp]⟩ h.deque rfl (hreads hgrows)⟩
    · rename_i d ok he
      rw [he] at hsame hfull hgrows
      obtain rfl : d = s.deque := hsame
      obtain rfl := hfull ok rfl
      refine ⟨_, h.deposited { s with placer := none } false (by simp [inFlight, hp]) ?_ nofun
        ⟨rfl, rfl, rfl, rfl, rfl⟩ h.deque rfl hgrows⟩
      intro n
      simp [inFlight, hp]
  · have hcore : s.owner.core = .idle := core_of_not_claimed (by simpa using hclaimed)
    have hd : s.deque.Inv live .idle s.thieves := hcore ▸ h.deque
    unfold Placement.stepPlace
    split
    · rename_i d pc' he
      rw [he] at hgrows
      refine ⟨live, h.quiet ⟨rfl, rfl, rfl, rfl, by simp [inFlight, hp]⟩ ?_ ?_ (hreads hgrows)⟩
      · exact hcore ▸ hd.push_next_current hc he
      · show live ++ d.hand s.owner.core = live ++ s.deque.hand s.owner.core
        rw [hcore]
        rfl
    · rename_i d ok he
      rw [he] at hgrows
      refine ⟨_, h.deposited { s with deque := d, placer := none } ok (by simp [inFlight, hp]) ?_ (fun _ => hcore)
        ⟨rfl, rfl, rfl, rfl, rfl⟩ ?_ ?_ hgrows⟩
      · intro n
        simp [inFlight, hp]
      · exact hcore ▸ hd.push_ret_current hc he
      · show d.hand s.owner.core = s.deque.hand s.owner.core
        rw [hcore]
        rfl

omit [DecidableEq β] in
/-- A pop that has not claimed a slot yet knows nothing, and learns it where it claims one. -/
theorem pop_iff_core {d : Deque w β} {live : List β} {th : ℕ → Option (Deque.StealPc w β)} {pc : Deque.PopPc w}
    (hc : d.Current (.pop pc)) : d.Inv live (OwnerPc.core (.pop pc)) th ↔ d.Inv live (.pop pc) th := by
  cases pc with
  | loadBottom => exact ⟨fun h => h.rest rfl rfl, fun h => h.rest rfl rfl⟩
  | claim b =>
    refine ⟨fun h => ⟨h.sized, h.bounded, h.slots, ⟨h.owner, hc.symm⟩, h.thieves⟩, fun h => ?_⟩
    exact ⟨h.sized, h.bounded, h.slots, h.owner.1, h.thieves⟩
  | loadTop b | restore b | race b t | settle b won | take b => exact Iff.rfl

theorem Inv.stepPop {pc : Deque.PopPc w} (h : Inv s live) (ho : s.owner = .pop pc) (hc : s.deque.Current (.pop pc)) :
    ∃ live', Inv (s.stepPop pc) live' := by
  have hd : s.deque.Inv live (.pop pc) s.thieves := (pop_iff_core hc).mp (ho ▸ h.deque)
  have hhand : s.deque.hand s.owner.core = s.deque.hand (.pop pc) := by
    rw [ho]
    exact (live_core _ _).2.symm
  have hgrows := hd.grows_pop
  have hreads : ∀ {d : Deque w (Pushed β)}, s.deque.Grows d → ∀ k pc, s.thieves k = some pc → d.ReadOk pc :=
    fun hg k pc hk => (h.reads k pc hk).grows (h.deque.thieves k pc hk) hg
  unfold Placement.stepPop
  split
  · rename_i d pc' he
    rw [he] at hgrows
    obtain ⟨live', hd', hcase⟩ := hd.pop_next he
    have hcur : d.Current (.pop pc') := by
      cases pc with
      | loadBottom =>
        cases he
        show s.deque.bottom = s.deque.bottom - 1 + 1
        grind
      | _ =>
        cases pc' with
        | claim b =>
          simp only [Deque.pop] at he
          (repeat' split at he) <;> simp at he
        | _ => trivial
    refine ⟨live', h.quiet ⟨rfl, rfl, rfl, rfl, by simp [inFlight, ho]⟩ ((pop_iff_core hcur).mpr hd') ?_ (hreads hgrows)⟩
    show live' ++ d.hand (OwnerPc.core (.pop pc')) = live ++ s.deque.hand s.owner.core
    rw [hhand, ← (live_core d (.pop pc')).2]
    obtain ⟨rfl, hsame⟩ | ⟨x, rfl, h₁, h₂⟩ := hcase
    · rw [hsame]
    · rw [h₁, h₂, List.append_nil]
  · rename_i d he
    rw [he] at hgrows
    obtain ⟨hd', hnone⟩ := hd.pop_none he
    refine ⟨live, h.quiet ⟨rfl, rfl, rfl, rfl, by simp [inFlight, ho]⟩ hd' ?_ (hreads hgrows)⟩
    rw [hhand, hnone]
    rfl
  · rename_i d r he
    obtain ⟨rfl, hd', x, rfl, hx⟩ := hd.pop_some he
    have hrem : s.remaining = live ++ x :: [] := by rw [← h.remaining, hhand, hx]
    obtain ⟨h₁, h₂, h₃⟩ := Contention.account_of_nodup h.nodup h.once h.returned hrem
    refine ⟨live, hd', h₁.symm, h₂, h₃, ?_, h.reads⟩
    intro n
    have hn := h.counted n
    simpa [inFlight, ho] using hn

theorem Inv.stepSteal {k : ℕ} {pc : Deque.StealPc w (Pushed β)} (h : Inv s live) (hk : s.thieves k = some pc)
    (hwrap : s.deque.inTime pc = true) : ∃ live', Inv (s.stepSteal k pc) live' := by
  have hgrows := h.deque.grows_steal hk hwrap
  -- The other thieves' slots stay written, and the thief's own next point is given.
  have hreads : ∀ {d : Deque w (Pushed β)} {o}, s.deque.Grows d → (∀ pc, o = some pc → d.ReadOk pc) →
      ∀ j pc, Function.update s.thieves k o j = some pc → d.ReadOk pc := by
    intro d o hg ho j pc hj
    by_cases hjk : j = k
    · subst hjk
      rw [Function.update_self] at hj
      exact ho pc hj
    · rw [Function.update_of_ne hjk] at hj
      exact (h.reads j pc hj).grows (h.deque.thieves j pc hj) hg
  unfold Placement.stepSteal
  split
  · rename_i d pc' he
    rw [he] at hgrows
    have hnext := h.deque.readOk_next (h.reads k pc hk) hk he
    obtain ⟨rfl, hd'⟩ := h.deque.steal_next hk he
    refine ⟨live, h.quiet ⟨rfl, rfl, rfl, rfl, rfl⟩ hd' rfl (hreads hgrows ?_)⟩
    rintro _ ⟨⟩
    exact hnext
  · rename_i d he
    rw [he] at hgrows
    obtain ⟨rfl, hd'⟩ := h.deque.steal_none (k := k) he
    exact ⟨live, h.quiet ⟨rfl, rfl, rfl, rfl, rfl⟩ hd' rfl (hreads hgrows nofun)⟩
  · rename_i d r he
    rw [he] at hgrows
    obtain ⟨x, l, rfl, rfl, hd', hhand⟩ := h.deque.steal_some hk hwrap he
    obtain ⟨h₁, h₂, h₃⟩ := Contention.account_of_nodup h.nodup h.once h.returned
      (show s.remaining = [] ++ x :: _ from h.remaining.symm)
    exact ⟨l, hd', (congrArg (l ++ ·) hhand).trans h₁.symm, h₂, h₃, h.counted, hreads hgrows nofun⟩

omit [DecidableEq β] in
/-- A new number is counted once, and no other. -/
theorem count_start (n m : ℕ) : (if n < m then 1 else 0) + [m].count n = if n < m + 1 then 1 else 0 := by
  rw [List.count_singleton]
  obtain hlt | rfl | hgt := lt_trichotomy n m
  · simp [hlt, hlt.ne', Nat.lt_succ_of_lt hlt]
  · simp
  · simp [hgt.ne, not_lt_of_gt hgt, show ¬n < m + 1 by omega]

/-- Every undisturbed step keeps the account. -/
theorem Inv.step {a : Act β} (h : Inv s live) (ha : Undisturbed s a) (hs : Placement.step s a = some s') :
    ∃ live', Inv s' live' := by
  cases a with
  | push v =>
    simp only [Placement.step] at hs
    split at hs <;> cases hs
    rename_i ho
    have hd := h.deque
    rw [ho] at hd
    refine ⟨live, hd, ?_, h.once, h.returned, fun n => ?_, h.reads⟩
    · have hrem := h.remaining
      rw [ho] at hrem
      exact hrem
    · have hn := h.counted n
      have hstart := count_start n s.attempts
      simp only [inFlight, ho, List.nil_append] at hn
      simp only [inFlight, List.count_append]
      omega
  | pop =>
    simp only [Placement.step] at hs
    split at hs <;> cases hs
    rename_i ho
    have hd := h.deque
    rw [ho] at hd
    refine ⟨live, h.quiet ⟨rfl, rfl, rfl, rfl, by simp [inFlight, ho]⟩ hd ?_ h.reads⟩
    rw [ho]
    rfl
  | owner =>
    simp only [Placement.step] at hs
    split at hs <;> cases hs
    · rename_i v pc ho
      exact h.stepPush ho (ho ▸ ha)
    · rename_i pc ho
      exact h.stepPop ho (ho ▸ ha)
  | place v =>
    simp only [Placement.step] at hs
    split at hs <;> cases hs
    rename_i hp
    refine ⟨live, h.deque, h.remaining, h.once, h.returned, fun n => ?_, h.reads⟩
    have hn := h.counted n
    have hstart := count_start n s.attempts
    simp only [inFlight, hp, List.count_append, Option.map_none, Option.map_some, Option.toList_none,
      Option.toList_some, List.count_nil] at hn ⊢
    omega
  | placer =>
    obtain ⟨⟨v, pc⟩, hp, rfl⟩ := Option.map_eq_some_iff.mp hs
    obtain ⟨hc, hown⟩ := ha (v, pc) hp
    exact h.stepPlace hp hc hown
  | steal k =>
    simp only [Placement.step] at hs
    split at hs <;> cases hs
    rename_i hk
    refine ⟨live, h.quiet ⟨rfl, rfl, rfl, rfl, rfl⟩ (h.deque.thief_update (by rintro _ ⟨⟩; trivial)) rfl ?_⟩
    intro j pc hj
    have hj : Function.update s.thieves k (some .loadTop) j = some pc := hj
    by_cases hjk : j = k
    · subst hjk
      rw [Function.update_self] at hj
      cases hj
      trivial
    · rw [Function.update_of_ne hjk] at hj
      exact h.reads j pc hj
  | thief k =>
    obtain ⟨pc, hk, rfl⟩ := Option.map_eq_some_iff.mp hs
    exact h.stepSteal hk (ha pc hk)

theorem inv_of_run {start : BitVec w} {cap : ℕ} (hcap : Deque.capacityFor cap ≤ 2 ^ (w - 2))
    (h : Steps Placement.step Undisturbed (init start cap) s) : ∃ live, Inv s live := by
  refine h.keeps (P := fun s => ∃ live, Inv s live) ?_ ?_
  · rintro s a s' ⟨live, hinv⟩ ha hs
    exact hinv.step ha hs
  · refine ⟨[], .new hcap, rfl, List.nodup_nil, ?_, fun n => by simp [init, inFlight], nofun⟩
    rintro r ⟨⟩

/-- Placement from another thread is safe in every run in which the two pushers keep out of each other's way. -/
theorem placement_safe {start : BitVec w} {cap : ℕ} (hcap : Deque.capacityFor cap ≤ 2 ^ (w - 2))
    (h : Steps Placement.step Undisturbed (init start cap) s) : s.Safe := by
  obtain ⟨live, hinv⟩ := inv_of_run hcap h
  refine ⟨?_, ?_, hinv.once, hinv.returned, fun k t seen value hk => hinv.reads k _ hk⟩
  · intro n hn
    have hone := hinv.counted n
    rw [if_pos hn] at hone
    by_contra hnone
    obtain ⟨hp, hs, hf⟩ : n ∉ s.pushed.map Prod.fst ∧ n ∉ s.spilled.map Prod.fst ∧ n ∉ s.inFlight := by
      simpa only [not_or] using hnone
    rw [List.count_eq_zero.mpr hp, List.count_eq_zero.mpr hs, List.count_eq_zero.mpr hf] at hone
    omega
  · obtain ⟨hlive, hhand⟩ := live_core s.deque s.owner
    rw [hlive, hhand, hinv.deque.live_eq, hinv.remaining]

instance (s : Placement w β) (a : Act β) : Decidable (NoWrap s a) := by
  cases a <;> unfold NoWrap <;> infer_instance

instance (s : Placement w β) (a : Act β) : Decidable (Undisturbed s a) := by
  cases a <;> unfold Undisturbed <;> infer_instance

/-- Two placements, a steal, and the agent's pop, which overlaps a third placement's loads. -/
theorem placement_safe_overlapping :
    ∃ s : Placement 64 ℕ, Steps Placement.step Undisturbed (init 0 4) s ∧
      s.returned = [some (1, 8), some (0, 7)] ∧ s.Safe := by
  have hrun : ((runActions Placement.step Undisturbed (init 0 4 : Placement 64 ℕ)
      ([.place 7] ++ List.replicate 4 .placer ++ [.place 8] ++ List.replicate 4 .placer ++ [.steal 0] ++
        List.replicate 4 (.thief 0) ++ [.pop, .owner, .owner, .owner, .place 9, .placer] ++ List.replicate 3 .owner)).any
      fun s => decide (s.returned = [some (1, 8), some (0, 7)])) = true := by decide +kernel
  obtain ⟨s, hs, hq⟩ := exists_of_runActions hrun
  exact ⟨s, hs, of_decide_eq_true hq, placement_safe (by decide +kernel) hs⟩

/-- The agent pops the second of two jobs while the placing thread, which has loaded `bottom` before, pushes
    a third one beyond it: the popped job is returned again. -/
theorem placement_returns_twice : ∃ s : Placement 64 ℕ, Steps Placement.step NoWrap (init 0 4) s ∧ ¬s.Safe := by
  have hrun : ((runActions Placement.step NoWrap (init 0 4 : Placement 64 ℕ)
      ([.place 7] ++ List.replicate 4 .placer ++ [.place 8] ++ List.replicate 4 .placer ++ [.pop, .owner, .place 9, .placer] ++
        List.replicate 3 .owner ++ List.replicate 3 .placer ++ [.pop] ++ List.replicate 4 .owner ++ [.pop] ++
        List.replicate 4 .owner)).any
      fun s => decide (s.returned = [some (1, 8), some (2, 9), some (1, 8)])) = true := by decide +kernel
  obtain ⟨s, hs, hq⟩ := exists_of_runActions hrun
  refine ⟨s, hs, fun hsafe => ?_⟩
  have hnodup := hsafe.once
  rw [of_decide_eq_true hq] at hnodup
  exact absurd hnodup (by decide)

end Placement

end Krio.Parallel
