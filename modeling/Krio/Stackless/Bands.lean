import Krio.Stackless.Executors

/-! The bands of the priority loop: coroutines of one priority, the most urgent band first. -/

namespace Krio.Stackless

/-- The place of a priority in the documented order: lower runs first, no priority comes after every priority. -/
def rank : Option UInt32 → ℕ
  | some p => p.toNat
  | none => 2 ^ 32

theorem rank_inj {p q : Option UInt32} (h : rank p = rank q) : p = q := by
  cases p with
  | none =>
    cases q with
    | none => rfl
    | some q => exact absurd h q.toNat_lt.ne'
  | some p =>
    cases q with
    | none => exact absurd h p.toNat_lt.ne
    | some q => exact congrArg some (UInt32.toNat_inj.mp h)

variable {r : Region} {bands : List (List ℕ)} {i : ℕ}

/-- The key of the sort separates all ranks but the last two. -/
theorem priorityKey_eq (r : Region) (i : ℕ) : priorityKey r i = min (rank (priorityOf r i)) (2 ^ 32 - 1) := by
  change ((priorityOf r i).getD _).toNat = _
  cases priorityOf r i with
  | none => rfl
  | some p => exact (Nat.min_eq_left (Nat.le_sub_one_of_lt p.toNat_lt)).symm

/-- What the bands are to be: the coroutines, those of one priority together and in source order, the bands in
    the order of the priorities. -/
structure Banded (r : Region) (bands : List (List ℕ)) : Prop where
  partition : bands.flatten.Perm (List.range r.coroutines.length)
  ne_nil : [] ∉ bands
  together : ∀ i < r.coroutines.length, ∀ j < r.coroutines.length,
    (∃ b ∈ bands, i ∈ b ∧ j ∈ b) ↔ priorityOf r i = priorityOf r j
  ordered : bands.Pairwise fun b c => ∀ i ∈ b, ∀ j ∈ c, rank (priorityOf r i) < rank (priorityOf r j)
  source : ∀ b ∈ bands, b.Pairwise (· < ·)

/-- The order in which the coroutines go into the bands. -/
def bandOrder (r : Region) (count : ℕ) : List ℕ := (List.range count).insertionSort (beforeOrEq r)

theorem bandOrder_perm (r : Region) (count : ℕ) : (bandOrder r count).Perm (List.range count) := List.perm_insertionSort _ _

/-- Where a coroutine joins the bands: it is added to the last one, or opens a new one. -/
theorem joinBand_cases (r : Region) (bands : List (List ℕ)) (i : ℕ) :
    (∃ init first rest, bands = init ++ [first :: rest] ∧ priorityOf r first = priorityOf r i ∧
      joinBand r bands i = init ++ [(first :: rest) ++ [i]]) ∨
    ((∀ init first rest, bands = init ++ [first :: rest] → priorityOf r first ≠ priorityOf r i) ∧
      joinBand r bands i = bands ++ [[i]]) := by
  unfold joinBand
  split
  · rename_i first rest hlast
    obtain ⟨init, rfl⟩ := List.getLast?_eq_some_iff.mp hlast
    split
    · rename_i hp
      exact .inl ⟨init, first, rest, rfl, hp, by rw [List.dropLast_concat]⟩
    · rename_i hp
      refine .inr ⟨fun init' first' rest' heq => ?_, rfl⟩
      obtain ⟨-, heq⟩ := List.append_inj' heq rfl
      cases heq
      exact hp
  · rename_i hlast
    refine .inr ⟨fun init first rest heq => ?_, rfl⟩
    exact absurd (by rw [heq, List.getLast?_concat]) (hlast first rest)

theorem joinBand_flatten (r : Region) (bands : List (List ℕ)) (i : ℕ) : (joinBand r bands i).flatten = bands.flatten ++ [i] := by
  obtain ⟨init, first, rest, rfl, -, heq⟩ | ⟨-, heq⟩ := joinBand_cases r bands i
  · simp [heq]
  · simp [heq]

theorem bandsOf_flatten (r : Region) (count : ℕ) : (bandsOf r count).flatten = bandOrder r count := by
  have hfold : ∀ (l : List ℕ) (bands : List (List ℕ)), (l.foldl (joinBand r) bands).flatten = bands.flatten ++ l := by
    intro l
    induction l with
    | nil => simp
    | cons i l ih =>
      intro bands
      rw [List.foldl_cons, ih, joinBand_flatten, List.append_assoc, List.singleton_append]
  exact hfold (bandOrder r count) []

/-- Coroutines in the order of the loop, as far as it is right: one goes before another of a greater rank, or of
    the same rank and a later place in the source. -/
def Sorted (r : Region) (i j : ℕ) : Prop :=
  rank (priorityOf r i) < rank (priorityOf r j) ∨ rank (priorityOf r i) = rank (priorityOf r j) ∧ i < j

/-- What the bands of a sorted list of coroutines are. -/
structure Grouped (r : Region) (bands : List (List ℕ)) : Prop where
  ne_nil : [] ∉ bands
  same : ∀ b ∈ bands, ∀ i ∈ b, ∀ j ∈ b, priorityOf r i = priorityOf r j
  ordered : bands.Pairwise fun b c => ∀ i ∈ b, ∀ j ∈ c, rank (priorityOf r i) < rank (priorityOf r j)
  source : ∀ b ∈ bands, b.Pairwise (· < ·)

theorem Grouped.join (h : Grouped r bands) (hi : ∀ x ∈ bands.flatten, Sorted r x i) : Grouped r (joinBand r bands i) := by
  obtain ⟨init, first, rest, rfl, hp, heq⟩ | ⟨hp, heq⟩ := joinBand_cases r bands i
  · rw [heq]
    have hlast : first :: rest ∈ init ++ [first :: rest] := by simp
    have hsame : ∀ x ∈ first :: rest, priorityOf r x = priorityOf r i := fun x hx =>
      (h.same _ hlast x hx first List.mem_cons_self).trans hp
    obtain ⟨hinit, -, hord⟩ := List.pairwise_append.mp h.ordered
    refine ⟨?_, ?_, List.pairwise_append.mpr ⟨hinit, List.pairwise_singleton _ _, ?_⟩, ?_⟩
    · intro hnil
      rcases List.mem_append.mp hnil with hnil | hnil
      · exact h.ne_nil (List.mem_append_left _ hnil)
      · simp at hnil
    · intro b hb x hx y hy
      rcases List.mem_append.mp hb with hb | hb
      · exact h.same b (List.mem_append_left _ hb) x hx y hy
      · obtain rfl := List.mem_singleton.mp hb
        have hall : ∀ x ∈ (first :: rest) ++ [i], priorityOf r x = priorityOf r i := by
          intro x hx
          rcases List.mem_append.mp hx with hx | hx
          · exact hsame x hx
          · rw [List.mem_singleton.mp hx]
        rw [hall x hx, hall y hy]
    · intro b hb c hc x hx y hy
      obtain rfl := List.mem_singleton.mp hc
      rcases List.mem_append.mp hy with hy | hy
      · exact hord b hb _ (List.mem_singleton_self _) x hx y hy
      · rw [List.mem_singleton.mp hy, ← hp]
        exact hord b hb _ (List.mem_singleton_self _) x hx first List.mem_cons_self
    · intro b hb
      rcases List.mem_append.mp hb with hb | hb
      · exact h.source b (List.mem_append_left _ hb)
      · obtain rfl := List.mem_singleton.mp hb
        refine List.pairwise_append.mpr ⟨h.source _ hlast, List.pairwise_singleton _ _, fun x hx y hy => ?_⟩
        rw [List.mem_singleton.mp hy]
        rcases hi x (List.mem_flatten.mpr ⟨_, hlast, hx⟩) with hlt | ⟨-, hlt⟩
        · rw [hsame x hx] at hlt
          exact absurd hlt (lt_irrefl _)
        · exact hlt
  · rw [heq]
    refine ⟨?_, ?_, List.pairwise_append.mpr ⟨h.ordered, List.pairwise_singleton _ _, ?_⟩, ?_⟩
    · intro hnil
      rcases List.mem_append.mp hnil with hnil | hnil
      · exact h.ne_nil hnil
      · simp at hnil
    · intro b hb x hx y hy
      rcases List.mem_append.mp hb with hb | hb
      · exact h.same b hb x hx y hy
      · obtain rfl := List.mem_singleton.mp hb
        rw [List.mem_singleton.mp hx, List.mem_singleton.mp hy]
    · intro b hb c hc x hx y hy
      obtain rfl := List.mem_singleton.mp hc
      rw [List.mem_singleton.mp hy]
      have hxi := hi x (List.mem_flatten.mpr ⟨b, hb, hx⟩)
      -- the last band decides: `x` is in it or in one before it
      obtain ⟨init, last, rfl⟩ := List.eq_nil_or_concat' bands |>.resolve_left fun hnil => by simp [hnil] at hb
      cases last with
      | nil => exact absurd (List.mem_append_right _ (List.mem_singleton_self _)) h.ne_nil
      | cons first rest =>
        have hne : rank (priorityOf r first) ≠ rank (priorityOf r i) := fun heq => hp init first rest rfl (rank_inj heq)
        have hfirst : Sorted r first i := hi first (List.mem_flatten.mpr ⟨first :: rest, by simp, List.mem_cons_self⟩)
        have hlt : rank (priorityOf r first) < rank (priorityOf r i) := hfirst.resolve_right fun heq => hne heq.1
        rcases List.mem_append.mp hb with hb | hb
        · exact ((List.pairwise_append.mp h.ordered).2.2 b hb _ (List.mem_singleton_self _) x hx first
            List.mem_cons_self).trans hlt
        · obtain rfl := List.mem_singleton.mp hb
          rw [h.same (first :: rest) (by simp) x hx first List.mem_cons_self]
          exact hlt
    · intro b hb
      rcases List.mem_append.mp hb with hb | hb
      · exact h.source b hb
      · obtain rfl := List.mem_singleton.mp hb
        exact List.pairwise_singleton _ _

theorem Grouped.joins {l : List ℕ} (h : Grouped r bands) (hl : (bands.flatten ++ l).Pairwise (Sorted r)) :
    Grouped r (l.foldl (joinBand r) bands) := by
  induction l generalizing bands with
  | nil => exact h
  | cons i l ih =>
    have hassoc : bands.flatten ++ i :: l = (joinBand r bands i).flatten ++ l := by
      rw [joinBand_flatten, List.append_assoc, List.singleton_append]
    refine ih (h.join fun x hx => ?_) (hassoc ▸ hl)
    exact (List.pairwise_append.mp hl).2.2 x hx i List.mem_cons_self

instance : Std.Total (beforeOrEq r) := ⟨fun i j => by unfold beforeOrEq; omega⟩

instance : IsTrans ℕ (beforeOrEq r) := ⟨fun i j k => by unfold beforeOrEq; omega⟩

/-- `coroutine_priority` may return any `u32`, but the key of a coroutine without one is the greatest. -/
def NoneLast (r : Region) : Prop :=
  ∀ i j, i < j → priorityOf r i = none → priorityOf r j ≠ some (UInt32.ofNat (2 ^ 32 - 1))

theorem bandOrder_sorted (h : NoneLast r) (count : ℕ) : (bandOrder r count).Pairwise (Sorted r) := by
  have hle : (bandOrder r count).Pairwise (beforeOrEq r) := List.pairwise_insertionSort _ _
  have hne : (bandOrder r count).Nodup := (bandOrder_perm r count).nodup_iff.mpr List.nodup_range
  refine (hle.and hne).imp fun {i j} => ?_
  rintro ⟨hij, hne⟩
  have htop : ∀ k, rank (priorityOf r k) ≤ 2 ^ 32 := by
    intro k
    cases priorityOf r k with
    | none => exact le_rfl
    | some p => exact p.toNat_lt.le
  have hi := htop i
  have hj := htop j
  unfold Sorted
  rw [beforeOrEq, priorityKey_eq, priorityKey_eq] at hij
  by_cases htie : rank (priorityOf r i) = 2 ^ 32 ∧ rank (priorityOf r j) = 2 ^ 32 - 1
  · -- the two ranks that share a key
    have hnone : priorityOf r i = none := rank_inj (q := none) htie.1
    have hmax : priorityOf r j = some (UInt32.ofNat (2 ^ 32 - 1)) := rank_inj (q := some _) htie.2
    exact absurd hmax (h i j (by omega) hnone)
  · omega

theorem mem_bandsOf_flatten {count : ℕ} : i ∈ (bandsOf r count).flatten ↔ i < count := by
  rw [bandsOf_flatten, (bandOrder_perm r count).mem_iff, List.mem_range]

/-- The bands follow the documented order of the priorities exactly when no coroutine without a priority stands
    before one with the greatest priority there is. -/
theorem bands_follow_priorities (r : Region) : Banded r (bandsOf r r.coroutines.length) ↔ NoneLast r := by
  constructor
  · intro h i j hij hi hj
    have hjlt : j < r.coroutines.length := by
      by_contra hge
      rw [priorityOf, List.getElem?_eq_none (Nat.le_of_not_lt hge)] at hj
      cases hj
    -- `i` comes before `j` in the sorted list, so it is not in a later band, though it should be
    have hflat : (bandsOf r r.coroutines.length).flatten.Pairwise (beforeOrEq r) := by
      rw [bandsOf_flatten]
      exact List.pairwise_insertionSort _ _
    obtain ⟨b, hb, hib⟩ := List.mem_flatten.mp (mem_bandsOf_flatten.mpr (hij.trans hjlt))
    obtain ⟨c, hc, hjc⟩ := List.mem_flatten.mp (mem_bandsOf_flatten.mpr hjlt)
    have hkey : priorityKey r i = priorityKey r j := by
      rw [priorityKey_eq, priorityKey_eq, hi, hj]
      rfl
    obtain ⟨m, hm, rfl⟩ := List.mem_iff_getElem.mp hb
    obtain ⟨n, hn, rfl⟩ := List.mem_iff_getElem.mp hc
    have hrank : rank (priorityOf r j) < rank (priorityOf r i) := by
      rw [hi, hj]
      decide
    rcases Nat.lt_trichotomy m n with hlt | heq | hlt
    · have := List.pairwise_iff_getElem.mp h.ordered m n hm hn hlt i hib j hjc
      exact absurd this (lt_asymm hrank)
    · subst heq
      have heq := (h.together i (hij.trans hjlt) j hjlt).mp ⟨_, hb, hib, hjc⟩
      rw [hi, hj] at heq
      cases heq
    · have hbefore := List.pairwise_iff_getElem.mp (List.pairwise_flatten.mp hflat).2 n m hn hm hlt j hjc i hib
      rcases hbefore with h1 | ⟨-, h1⟩
      · exact absurd hkey h1.ne'
      · exact absurd h1 (Nat.not_le.mpr hij)
  · intro h
    have hg : Grouped r (bandsOf r r.coroutines.length) := by
      have hnil : Grouped r [] := ⟨nofun, nofun, .nil, nofun⟩
      exact hnil.joins (bandOrder_sorted h _)
    refine ⟨bandsOf_flatten r _ ▸ bandOrder_perm r _, hg.ne_nil, fun i hi j hj => ⟨?_, fun heq => ?_⟩, hg.ordered, hg.source⟩
    · rintro ⟨b, hb, hib, hjb⟩
      exact hg.same b hb i hib j hjb
    · obtain ⟨b, hb, hib⟩ := List.mem_flatten.mp (mem_bandsOf_flatten.mpr hi)
      obtain ⟨c, hc, hjc⟩ := List.mem_flatten.mp (mem_bandsOf_flatten.mpr hj)
      obtain ⟨m, hm, rfl⟩ := List.mem_iff_getElem.mp hb
      obtain ⟨n, hn, rfl⟩ := List.mem_iff_getElem.mp hc
      rcases Nat.lt_trichotomy m n with hlt | rfl | hlt
      · have := List.pairwise_iff_getElem.mp hg.ordered m n hm hn hlt i hib j hjc
        exact absurd (congrArg rank heq) this.ne
      · exact ⟨_, hb, hib, hjc⟩
      · have := List.pairwise_iff_getElem.mp hg.ordered n m hn hm hlt j hjc i hib
        exact absurd (congrArg rank heq) this.ne'

/-- A coroutine without a priority, and one with the greatest behind it. -/
def noneFirst : Region :=
  ⟨(0, 0), (5, 0), [⟨(1, 0), (2, 0), none⟩, ⟨(3, 0), (4, 0), some (UInt32.ofNat (2 ^ 32 - 1))⟩]⟩

/-- The one without a priority has the more urgent band. -/
theorem none_before_greatest : ¬Banded noneFirst (bandsOf noneFirst noneFirst.coroutines.length) := by
  intro h
  have hbands : bandsOf noneFirst noneFirst.coroutines.length = [[0], [1]] := by decide
  rw [hbands] at h
  have hlt := List.pairwise_cons.mp h.ordered |>.1 [1] (by simp) 0 (by simp) 1 (by simp)
  exact absurd hlt (by decide)

end Krio.Stackless
