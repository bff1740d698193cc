import Krio.Stackless.Poll
import Krio.Stackless.Stops

/-! Runs of a priority loop: what the locals and the log hold wherever control is in it. -/

namespace Krio.Stackless

variable {U : Type} {host : Host U} {hooks : Hooks U} {cfg cfg' : Body U} {r : Region} {start l0 n stuck hi : ℕ}
  {ms : List Machine} {bands : List Band}

/-! ## Histories -/

/-- Control has come to the end marker of `c` since the region began last. -/
def Finished (r : Region) (c : Coroutine) (log : List (Event U)) : Prop := .enter c.last.1 ∈ since r.regionBegin.1 log

/-- A result of a poll other than `POLL_BLOCKED`. -/
def unblocked (v : ℤ) : Bool := v != pollBlocked

theorem unblocked_iff {v : ℤ} : unblocked v = true ↔ v ≠ pollBlocked := bne_iff_ne

/-- The part of the log since a poll of the machine ended unblocked last. -/
def recent (m : Machine) (log : List (Event U)) : List (Event U) := sinceStored m.pollResultLocal unblocked log

/-- Between two polls of a member that ended unblocked while the region ran, every other member of its band was polled,
    but for those that had finished. -/
def TakesTurns (r : Region) (ms : List Machine) (bands : List Band) (log : List (Event U)) : Prop :=
  ∀ m m' c', Mates bands m m' → Drives r ms m' c' → ∀ new v' mid v old,
    log = new ++ .set m.pollResultLocal v' :: (mid ++ .set m.pollResultLocal v :: old) → v' ≠ pollBlocked → v ≠ pollBlocked →
    .enter r.regionBegin.1 ∉ mid → .enter m'.dispatchBb ∈ mid ∨ Finished r c' old

/-- A coroutine that ends after a poll of another was dispatched after it. -/
def Attended (r : Region) (ms : List Machine) (log : List (Event U)) : Prop :=
  ∀ m c m', Drives r ms m c → m' ∈ ms → m' ≠ m → ∀ new v old, log = new ++ .set m'.pollResultLocal v :: old →
    .enter c.last.1 ∈ new → .enter m.dispatchBb ∈ new

/-- What has been polled since a member ran last, where `lasts` holds the member of each band that did: those that come
    round before it. -/
def Ordered (r : Region) (ms : List Machine) (bands : List Band) (lasts : Locals) (log : List (Event U)) : Prop :=
  ∀ s ∈ scanStops bands, ∀ s' ∈ scanStops bands, s.last = s'.last →
    (∃ v, v ≠ pollBlocked ∧ .set s.machine.pollResultLocal v ∈ since r.regionBegin.1 log) →
    ∃ k : ℕ, lasts s.last = k ∧ k < s.size ∧ (Cyclic s.index k s'.index → ∀ c', Drives r ms s'.machine c' →
      .enter s'.machine.dispatchBb ∈ recent s.machine log ∨ Finished r c' log)

section
variable {e : Event U} {add log new old : List (Event U)} {m : Machine} {c : Coroutine}

theorem split_append (he : e ∉ add) (h : add ++ log = new ++ e :: old) : ∃ new', new = add ++ new' ∧ log = new' ++ e :: old := by
  rcases List.append_eq_append_iff.mp h with ⟨as, rfl, hlog⟩ | ⟨bs, rfl, hold⟩
  · exact ⟨as, rfl, hlog⟩
  · cases bs with
    | nil => exact ⟨[], by simp, hold.symm⟩
    | cons b bs =>
      rw [List.cons_append] at hold
      obtain ⟨rfl, -⟩ := List.cons.inj hold
      exact absurd (List.mem_append_right _ List.mem_cons_self) he

theorem Finished.append (hr : .enter r.regionBegin.1 ∉ add) (h : Finished r c log) : Finished r c (add ++ log) :=
  (mem_since_append hr).mpr (.inr h)

theorem finished_append_iff (hr : .enter r.regionBegin.1 ∉ add) (hc : .enter c.last.1 ∉ add) :
    Finished r c (add ++ log) ↔ Finished r c log :=
  (mem_since_append hr).trans (or_iff_right hc)

theorem recent_append (h : ∀ v, v ≠ pollBlocked → .set m.pollResultLocal v ∉ add) : recent m (add ++ log) = add ++ recent m log :=
  sinceStored_append fun v hv => h v (unblocked_iff.mp hv)

theorem TakesTurns.append (h : TakesTurns r ms bands log) (hadd : ∀ band ∈ bands, ∀ m ∈ band.members, ∀ v, .set m.pollResultLocal v ∉ add) :
    TakesTurns r ms bands (add ++ log) := by
  intro m m' c' hmates hd new v' mid v old heq
  have hmem : ∀ v, .set m.pollResultLocal v ∉ add := by
    obtain ⟨band, hband, hm, -⟩ := hmates
    exact hadd band hband m hm
  obtain ⟨new', -, hlog⟩ := split_append (hmem v') heq
  exact h m m' c' hmates hd new' v' mid v old hlog

theorem Attended.append (h : Attended r ms log) (hpoll : ∀ m ∈ ms, ∀ v, .set m.pollResultLocal v ∉ add)
    (hends : ∀ c ∈ r.coroutines, .enter c.last.1 ∉ add) : Attended r ms (add ++ log) := by
  intro m c m' hd hm' hne new v old heq hc
  obtain ⟨new', rfl, hlog⟩ := split_append (hpoll m' hm' v) heq
  have hc' := (List.mem_append.mp hc).resolve_left (hends c hd.mem.2)
  exact List.mem_append_right _ (h m c m' hd hm' hne new' v old hlog hc')

/-- A poll of `c` by `m`. -/
theorem Attended.poll (h : Attended r ms log) (hdispatch : .enter m.dispatchBb ∈ add) (huniq : ∀ m', Drives r ms m' c → m' = m)
    (hpoll : ∀ m' ∈ ms, m' ≠ m → ∀ v, .set m'.pollResultLocal v ∉ add)
    (hends : ∀ c' ∈ r.coroutines, .enter c'.last.1 ∈ add → c' = c) : Attended r ms (add ++ log) := by
  intro m₁ c₁ m' hd hm' hne new v old heq hc
  have hown : .enter c₁.last.1 ∈ add → m₁ = m := fun hin => by
    obtain rfl := hends c₁ hd.mem.2 hin
    exact huniq m₁ hd
  by_cases hin : .set m'.pollResultLocal v ∈ add
  · -- the machine's own result: no other coroutine has ended since
    obtain rfl : m' = m := by
      by_contra hm
      exact hpoll m' hm' hm v hin
    rcases List.append_eq_append_iff.mp heq with ⟨as, rfl, hlog⟩ | ⟨bs, rfl, -⟩
    · rcases List.mem_append.mp hc with hc | hc
      · exact absurd (hown hc).symm hne
      · exact List.mem_append_right _ (h m₁ c₁ m' hd hm' hne as v old hlog hc)
    · exact absurd (hown (List.mem_append_left _ hc)).symm hne
  · obtain ⟨new', rfl, hlog⟩ := split_append hin heq
    rcases List.mem_append.mp hc with hc | hc
    · rw [hown hc]
      exact List.mem_append_left _ hdispatch
    · exact List.mem_append_right _ (h m₁ c₁ m' hd hm' hne new' v old hlog hc)

/-- A poll that ends unblocked after the others of the band were looked at. -/
theorem TakesTurns.cons (h : TakesTurns r ms bands log) (hatt : Attended r ms log) {m : Machine} {v : ℤ} (hm : m ∈ ms)
    (hserved : v ≠ pollBlocked → ∀ m' c', Mates bands m m' → Drives r ms m' c' →
      (∃ w, w ≠ pollBlocked ∧ .set m.pollResultLocal w ∈ since r.regionBegin.1 log) →
      .enter m'.dispatchBb ∈ recent m log ∨ Finished r c' log)
    (hpoll : ∀ m' ∈ ms, m'.pollResultLocal = m.pollResultLocal → m' = m) (hms : ∀ band ∈ bands, ∀ m ∈ band.members, m ∈ ms) :
    TakesTurns r ms bands (.set m.pollResultLocal v :: log) := by
  intro m₁ m' c' hmates hd new v' mid w old heq hv' hw hr
  cases new with
  | cons e new =>
    rw [List.cons_append] at heq
    exact h m₁ m' c' hmates hd new v' mid w old (List.cons.inj heq).2 hv' hw hr
  | nil =>
    obtain ⟨hset, hlog⟩ := List.cons.inj heq
    obtain ⟨hlocal, rfl⟩ := Event.set.inj hset
    have hne : m' ≠ m₁ := by
      obtain ⟨band, -, -, -, hne⟩ := hmates
      exact hne.symm
    obtain rfl : m₁ = m := by
      obtain ⟨band, hband, hm₁, -⟩ := hmates
      exact hpoll m₁ (hms band hband m₁ hm₁) hlocal.symm
    have hrecent : recent m₁ log ⊆ mid := by
      rw [hlog]
      exact sinceStored_subset (unblocked_iff.mpr hw)
    have hran : .set m₁.pollResultLocal w ∈ since r.regionBegin.1 log := by
      rw [hlog, mem_since_append hr, since_cons (by rintro ⟨⟩)]
      exact .inr List.mem_cons_self
    rcases hserved hv' m' c' hmates hd ⟨w, hw, hran⟩ with hin | hfin
    · exact .inl (hrecent hin)
    · rw [hlog, Finished, mem_since_append hr] at hfin
      rcases hfin with hfin | hfin
      · exact .inl (hatt m' c' m₁ hd hm hne.symm mid w old hlog hfin)
      · rw [since_cons (by rintro ⟨⟩)] at hfin
        exact .inr ((List.mem_cons.mp hfin).resolve_left (by rintro ⟨⟩))

theorem Ordered.append {lasts lasts' : Locals} (h : Ordered r ms bands lasts log)
    (hlasts : ∀ s ∈ scanStops bands, lasts' s.last = lasts s.last) (hr : .enter r.regionBegin.1 ∉ add)
    (hpoll : ∀ s ∈ scanStops bands, ∀ v, v ≠ pollBlocked → .set s.machine.pollResultLocal v ∉ add) :
    Ordered r ms bands lasts' (add ++ log) := by
  rintro s hs s' hs' heq ⟨v, hv, hin⟩
  rw [mem_since_append hr, or_iff_right (hpoll s hs v hv)] at hin
  obtain ⟨k, hk, hlt, hserved⟩ := h s hs s' hs' heq ⟨v, hv, hin⟩
  refine ⟨k, (hlasts s hs).trans hk, hlt, fun hcyc c' hd => ?_⟩
  rw [recent_append (hpoll s hs)]
  exact (hserved hcyc c' hd).imp (List.mem_append_right _) (Finished.append hr)

end

end Krio.Stackless
