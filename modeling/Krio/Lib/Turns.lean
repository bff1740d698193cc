import Mathlib.Data.List.Chain
import Mathlib.Data.List.Count
import Mathlib.Data.List.Nodup
import Mathlib.Tactic.Common

/-! Members that take turns in rounds. In a round every member that is in takes one turn, and what the turn returns
says whether the member is gone. Between two turns of one member every other has one, exactly if those that stay keep
their order from round to round. -/

namespace Krio.Lib

variable {ι σ : Type*} [DecidableEq ι] {gone : σ → Bool}

/-- Those that stay after a round. -/
def stayers (gone : σ → Bool) (round : List (ι × σ)) : List ι := (round.filter (!gone ·.2)).map (·.1)

/-- Between two turns of one member, one after the other, each member that is in all the while has one turn; so no
    member has two turns in a row while another one is in. -/
structure KeepsTurns (gone : σ → Bool) (members : List ι) (trace : List (ι × σ)) : Prop where
  turns : ∀ pre x a mid b post, trace = pre ++ (x, a) :: (mid ++ (x, b) :: post) → x ∉ mid.map (·.1) →
    ∀ y ∈ members, y ≠ x → (∀ e ∈ pre ++ mid, e.1 = y → gone e.2 = false) → (mid.map (·.1)).count y = 1
  no_repeat : ∀ pre x a b post, trace = pre ++ (x, a) :: (x, b) :: post →
    ∀ y ∈ members, y ≠ x → ∃ e ∈ pre, e.1 = y ∧ gone e.2 = true

/-- Rounds in which exactly those take a turn that stayed after the round before. -/
inductive Rounds (gone : σ → Bool) : List ι → List (List (ι × σ)) → Prop
  | nil {members : List ι} : Rounds gone members []
  | cons {members members' : List ι} {round : List (ι × σ)} {rounds : List (List (ι × σ))} :
    round.map (·.1) = members → members'.Perm (stayers gone round) → Rounds gone members' rounds →
      Rounds gone members (round :: rounds)

/-- Those that stay after a round take their turns in the same order in the next. -/
def InOrder (gone : σ → Bool) (rounds : List (List (ι × σ))) : Prop :=
  rounds.IsChain fun round next => next.map (·.1) = stayers gone round

omit [DecidableEq ι] in
theorem mem_stayers {round : List (ι × σ)} {x : ι} : x ∈ stayers gone round ↔ ∃ a, (x, a) ∈ round ∧ gone a = false := by
  simp [stayers]

omit [DecidableEq ι] in
theorem stayers_sublist (round : List (ι × σ)) : (stayers gone round).Sublist (round.map (·.1)) := List.filter_sublist.map _

omit [DecidableEq ι] in
theorem stayers_append (r r' : List (ι × σ)) : stayers gone (r ++ r') = stayers gone r ++ stayers gone r' := by
  simp [stayers]

/-- The last clause follows from the first. -/
theorem KeepsTurns.of_turns {members : List ι} {trace : List (ι × σ)}
    (h : ∀ pre x a mid b post, trace = pre ++ (x, a) :: (mid ++ (x, b) :: post) → x ∉ mid.map (·.1) →
      ∀ y ∈ members, y ≠ x → (∀ e ∈ pre ++ mid, e.1 = y → gone e.2 = false) → (mid.map (·.1)).count y = 1) :
    KeepsTurns gone members trace := by
  refine ⟨h, fun pre x a b post htrace y hy hne => ?_⟩
  by_contra hno
  have hcount := h pre x a [] b post htrace List.not_mem_nil y hy hne fun e he heq => by
    rw [List.append_nil] at he
    cases hgone : gone e.2 with
    | false => rfl
    | true => exact absurd ⟨e, he, heq, hgone⟩ hno
  exact absurd hcount Nat.zero_ne_one

namespace Rounds
variable {members : List ι} {round : List (ι × σ)} {rounds : List (List (ι × σ))}

omit [DecidableEq ι] in
theorem subset (h : Rounds gone members rounds) : ∀ e ∈ rounds.flatten, e.1 ∈ members := by
  induction h with
  | nil => exact fun e he => absurd he List.not_mem_nil
  | cons hround hperm _ ih =>
    intro e he
    rw [List.flatten_cons] at he
    rw [← hround]
    rcases List.mem_append.mp he with he | he
    · exact List.mem_map_of_mem he
    · exact (stayers_sublist _).subset (hperm.mem_iff.mp (ih e he))

omit [DecidableEq ι] in
/-- A turn of `x` and its next one in the round behind: what lies between is the rest of the one round and the
    beginning of the other. -/
theorem next_turn (h : Rounds gone members rounds) (hnodup : (round.map (·.1)).Nodup) (horder : InOrder gone (round :: rounds))
    {pre mid post rest : List (ι × σ)} {x : ι} {a b : σ}
    (hround : round = pre ++ (x, a) :: rest) (htrace : mid ++ (x, b) :: post = rest ++ rounds.flatten) (hx : x ∉ mid.map (·.1)) :
    ∃ m, mid = rest ++ m ∧ m.map (·.1) = stayers gone pre := by
  have hids : (pre.map (·.1) ++ x :: rest.map (·.1)).Nodup := by
    rw [hround, List.map_append, List.map_cons] at hnodup
    exact hnodup
  obtain ⟨-, hcons, hapart⟩ := List.nodup_append.mp hids
  have hxrest : x ∉ rest.map (·.1) := (List.nodup_cons.mp hcons).1
  have hxpre : x ∉ pre.map (·.1) := fun hmem => hapart x hmem x List.mem_cons_self rfl
  -- the second turn is not in the same round
  obtain ⟨m, rfl, hflat⟩ : ∃ m, mid = rest ++ m ∧ rounds.flatten = m ++ (x, b) :: post := by
    rcases List.append_eq_append_iff.mp htrace with ⟨as, hrest, hpost⟩ | ⟨as, hmid, hflat⟩
    · cases as with
      | nil => exact ⟨[], by rw [hrest, List.append_nil, List.append_nil], hpost.symm⟩
      | cons e as =>
        obtain ⟨rfl, -⟩ := List.cons.inj hpost
        have hin : (x, b) ∈ rest := hrest ▸ List.mem_append_right _ List.mem_cons_self
        exact absurd (List.mem_map_of_mem hin) hxrest
    · exact ⟨as, hmid, hflat⟩
  have hxm : x ∉ m.map (·.1) := fun hmem => hx (by
    rw [List.map_append]
    exact List.mem_append_right _ hmem)
  refine ⟨m, rfl, ?_⟩
  cases h with
  | nil => simp at hflat
  | @cons _ _ next rounds hnext _ _ =>
    have hstays : next.map (·.1) = stayers gone round := (List.isChain_cons_cons.mp horder).1
    have hxnext : x ∈ next.map (·.1) := by
      rw [hnext]
      refine Rounds.subset (.cons hnext ‹_› ‹_›) (x, b) ?_
      rw [hflat]
      exact List.mem_append_right _ List.mem_cons_self
    -- nor behind the next one
    obtain ⟨tail, htail⟩ : ∃ tail, next = m ++ (x, b) :: tail := by
      rw [List.flatten_cons] at hflat
      rcases List.append_eq_append_iff.mp hflat with ⟨as, rfl, -⟩ | ⟨as, hnext', hpost⟩
      · refine absurd ?_ hxm
        rw [List.map_append]
        exact List.mem_append_left _ hxnext
      · cases as with
        | nil =>
          rw [List.append_nil] at hnext'
          exact absurd (hnext' ▸ hxnext) hxm
        | cons e as =>
          obtain ⟨rfl, -⟩ := List.cons.inj hpost
          exact ⟨as, hnext'⟩
    have hgone : gone a = false := by
      obtain ⟨c, hc, hfalse⟩ := mem_stayers.mp (hstays ▸ hxnext)
      rw [hround] at hc
      rcases List.mem_append.mp hc with hc | hc
      · exact absurd (List.mem_map_of_mem hc) hxpre
      · rcases List.mem_cons.mp hc with heq | hc
        · rwa [← (Prod.mk.inj heq).2]
        · exact absurd (List.mem_map_of_mem hc) hxrest
    have hsplit : stayers gone pre ++ x :: stayers gone rest = m.map (·.1) ++ x :: tail.map (·.1) := by
      have hcons' : stayers gone ((x, a) :: rest) = x :: stayers gone rest := by
        simp [stayers, hgone]
      rw [htail, List.map_append, List.map_cons, hround, stayers_append, hcons'] at hstays
      exact hstays.symm
    exact ((List.append_cons_inj_of_notMem (fun hmem => hxpre ((stayers_sublist pre).subset hmem))
      fun hmem => hxrest ((stayers_sublist rest).subset hmem)).mp hsplit).1.symm

/-- Those that keep their order take turns. -/
theorem turns (h : Rounds gone members rounds) (hnodup : members.Nodup) (horder : InOrder gone rounds)
    {pre mid post : List (ι × σ)} {x y : ι} {a b : σ} (htrace : rounds.flatten = pre ++ (x, a) :: (mid ++ (x, b) :: post))
    (hx : x ∉ mid.map (·.1)) (hy : y ∈ members) (hne : y ≠ x) (hstays : ∀ e ∈ pre ++ mid, e.1 = y → gone e.2 = false) :
    (mid.map (·.1)).count y = 1 := by
  induction h generalizing pre with
  | nil => simp at htrace
  | @cons members members' round rounds hround hperm hrest ih =>
    subst hround
    have hnodup' : members'.Nodup := hperm.nodup_iff.mpr (hnodup.sublist (stayers_sublist round))
    -- both turns come in later rounds
    have hlater : ∀ as, pre = round ++ as → rounds.flatten = as ++ (x, a) :: (mid ++ (x, b) :: post) →
        (mid.map (·.1)).count y = 1 := by
      rintro as rfl hflat
      refine ih hnodup' horder.tail hflat ?_ fun e he => hstays e ?_
      · obtain ⟨⟨y', c⟩, hc, rfl⟩ := List.mem_map.mp hy
        refine hperm.mem_iff.mpr (mem_stayers.mpr ⟨c, hc, hstays _ ?_ rfl⟩)
        exact List.mem_append_left _ (List.mem_append_left _ hc)
      · rw [List.append_assoc]
        exact List.mem_append_right _ he
    rw [List.flatten_cons] at htrace
    rcases List.append_eq_append_iff.mp htrace with ⟨as, hpre, hflat⟩ | ⟨as, hsplit, hflat⟩
    · exact hlater as hpre hflat
    · cases as with
      | nil => exact hlater [] (by rw [hsplit, List.append_nil, List.append_nil]) hflat.symm
      | cons e as =>
        obtain ⟨rfl, hmid⟩ := List.cons.inj hflat
        obtain ⟨m, rfl, hm⟩ := hrest.next_turn hnodup horder hsplit hmid hx
        have hids := hnodup
        rw [hsplit, List.map_append, List.map_cons] at hids hy
        obtain ⟨hpre, hcons, hapart⟩ := List.nodup_append.mp hids
        rw [List.map_append, List.count_append, hm]
        rcases List.mem_append.mp hy with hy | hy
        · obtain ⟨⟨y', c⟩, hc, rfl⟩ := List.mem_map.mp hy
          have hstay : y' ∈ stayers gone pre := mem_stayers.mpr ⟨c, hc, hstays _ (List.mem_append_left _ hc) rfl⟩
          have hnot : y' ∉ as.map (·.1) := fun hmem => hapart y' hy y' (List.mem_cons_of_mem _ hmem) rfl
          rw [List.count_eq_zero_of_not_mem hnot, List.count_eq_one_of_mem (hpre.sublist (stayers_sublist pre)) hstay]
        · rcases List.mem_cons.mp hy with heq | hy
          · exact absurd heq hne
          · have hnot : y ∉ stayers gone pre := fun hmem =>
              hapart y ((stayers_sublist pre).subset hmem) y (List.mem_cons_of_mem _ hy) rfl
            rw [List.count_eq_zero_of_not_mem hnot, List.count_eq_one_of_mem (List.nodup_cons.mp hcons).2 hy]

end Rounds

/-! ## Those that take turns keep their order -/

omit [DecidableEq ι] in
/-- Of two members of a list one is before the other. -/
theorem pair_sublist {l : List ι} {x y : ι} (hx : x ∈ l) (hy : y ∈ l) (hne : x ≠ y) : [x, y].Sublist l ∨ [y, x].Sublist l := by
  obtain ⟨l₁, l₂, rfl⟩ := List.append_of_mem hx
  rcases List.mem_append.mp hy with hy | hy
  · exact .inr ((List.singleton_sublist.mpr hy).append (List.singleton_sublist.mpr List.mem_cons_self))
  · rcases List.mem_cons.mp hy with heq | hy
    · exact absurd heq.symm hne
    · have hsub : [x, y].Sublist (x :: l₂) := (List.singleton_sublist.mpr hy).cons_cons x
      exact .inl (hsub.trans (List.sublist_append_right _ _))

omit [DecidableEq ι] in
theorem split_of_pair {l : List ι} {x y : ι} (h : [x, y].Sublist l) : ∃ l₁ l₂ l₃, l = l₁ ++ x :: (l₂ ++ y :: l₃) := by
  obtain ⟨l₁, r, rfl, hx, hy⟩ := List.cons_sublist_iff.mp h
  obtain ⟨a, b, rfl⟩ := List.append_of_mem hx
  obtain ⟨c, d, rfl⟩ := List.append_of_mem (List.singleton_sublist.mp hy)
  exact ⟨a, b ++ c, d, by simp⟩

theorem idxOf_pairwise {l : List ι} (h : l.Nodup) : l.Pairwise fun x y => l.idxOf x < l.idxOf y :=
  List.pairwise_iff_getElem.mpr fun i j hi hj hij => by
    rwa [h.idxOf_getElem i hi, h.idxOf_getElem j hj]

/-- Two lists without repeats that have the same members, in the same order. -/
theorem eq_of_same_order {l l' : List ι} (hl : l.Nodup) (hperm : l'.Perm l)
    (h : ∀ x y, [x, y].Sublist l' → ¬[y, x].Sublist l) : l' = l := by
  refine hperm.eq_of_pairwise (fun x y _ _ hxy hyx => absurd hxy (lt_asymm hyx)) ?_ (idxOf_pairwise hl)
  refine List.pairwise_iff_forall_sublist.mpr fun {x y} hxy => ?_
  have hne : x ≠ y := List.pairwise_iff_forall_sublist.mp (hperm.nodup_iff.mpr hl) hxy
  have hx : x ∈ l := hperm.mem_iff.mp (hxy.subset List.mem_cons_self)
  have hy : y ∈ l := hperm.mem_iff.mp (hxy.subset (List.mem_cons_of_mem _ List.mem_cons_self))
  rcases pair_sublist hx hy hne with hsub | hsub
  · exact List.pairwise_iff_forall_sublist.mp (idxOf_pairwise hl) hsub
  · exact absurd hsub (h x y hxy)

omit [DecidableEq ι] in
theorem pair_of_map {round : List (ι × σ)} {x y : ι} (h : [x, y].Sublist (round.map (·.1))) :
    ∃ a b, [(x, a), (y, b)].Sublist round := by
  obtain ⟨l, hl, heq⟩ := List.sublist_map_iff.mp h
  obtain ⟨⟨x', a⟩, r, rfl, rfl, hr⟩ := List.map_eq_cons_iff.mp heq.symm
  obtain ⟨⟨y', b⟩, r, rfl, rfl, hnil⟩ := List.map_eq_cons_iff.mp hr
  obtain rfl := List.map_eq_nil_iff.mp hnil
  exact ⟨a, b, hl⟩

namespace Rounds
variable {members : List ι} {round next : List (ι × σ)} {rounds : List (List (ι × σ))}

/-- Two members that change their order: one of them has two turns and the other none between them. -/
theorem no_turn {trace : List (ι × σ)} (hround : (round.map (·.1)).Nodup) (hnext : (next.map (·.1)).Nodup)
    (hturns : KeepsTurns gone (round.map (·.1)) (round ++ next ++ trace)) (x y : ι) (hxy : [x, y].Sublist (next.map (·.1))) :
    ¬[y, x].Sublist (stayers gone round) := by
  intro hyx
  obtain ⟨c, a, hyx⟩ := pair_of_map hyx
  have hgone : gone c = false := by
    simpa using (List.mem_filter.mp (hyx.subset List.mem_cons_self)).2
  obtain ⟨p, q, r, hsplit⟩ := split_of_pair (hyx.trans List.filter_sublist)
  obtain ⟨b, d, hxy⟩ := pair_of_map hxy
  obtain ⟨m, m', m'', rfl⟩ := split_of_pair hxy
  have hids := hround
  rw [hsplit] at hids
  simp only [List.map_append, List.map_cons, List.nodup_append, List.nodup_cons, List.mem_append, List.mem_cons] at hids hnext
  have hin : (y, c) ∈ round := hsplit ▸ List.mem_append_right _ List.mem_cons_self
  have hym : y ∉ m.map (·.1) := fun hmem => hnext.2.2 y hmem y (.inr (.inr (.inl rfl))) rfl
  have hyr : y ∉ r.map (·.1) := fun hmem => hids.2.1.1 (.inr (.inr hmem))
  have hcount := hturns.turns (p ++ (y, c) :: q) x a (r ++ m) b (m' ++ (y, d) :: m'' ++ trace) (by rw [hsplit]; simp) ?_ y
    (List.mem_map_of_mem hin) ?_ ?_
  · rw [List.map_append, List.count_append, List.count_eq_zero_of_not_mem hyr, List.count_eq_zero_of_not_mem hym] at hcount
    cases hcount
  · intro hmem
    rw [List.map_append] at hmem
    rcases List.mem_append.mp hmem with hmem | hmem
    · exact hids.2.1.2.2.1.1 hmem
    · exact hnext.2.2 x hmem x (.inl rfl) rfl
  · rintro rfl
    exact hids.2.1.1 (.inr (.inl rfl))
  · intro e he heq
    rcases List.mem_append.mp he with he | he
    · have hmem : e ∈ round := by
        rw [hsplit]
        simp only [List.mem_append, List.mem_cons] at he ⊢
        rcases he with he | he | he
        · exact .inl he
        · exact .inr (.inl he)
        · exact .inr (.inr (.inl he))
      rw [List.inj_on_of_nodup_map hround hmem hin heq]
      exact hgone
    · rcases List.mem_append.mp he with he | he
      · exact absurd (heq ▸ List.mem_map_of_mem he) hyr
      · exact absurd (heq ▸ List.mem_map_of_mem he) hym

/-- Those that take turns keep their order. -/
theorem in_order (h : Rounds gone members rounds) (hnodup : members.Nodup) (hturns : KeepsTurns gone members rounds.flatten) :
    InOrder gone rounds := by
  induction h with
  | nil => exact List.isChain_nil
  | @cons members members' round rounds hround hperm hrest ih =>
    subst hround
    have hstay : (stayers gone round).Nodup := hnodup.sublist (stayers_sublist round)
    have hnodup' : members'.Nodup := hperm.nodup_iff.mpr hstay
    have horder := ih hnodup' <| by
      refine .of_turns fun pre x a mid b post htrace hx y hy hne hstays => ?_
      obtain ⟨c, hc, hfalse⟩ := mem_stayers.mp (hperm.mem_iff.mp hy)
      refine hturns.turns (round ++ pre) x a mid b post ?_ hx y (List.mem_map_of_mem hc) hne fun e he heq => ?_
      · rw [List.flatten_cons, htrace, List.append_assoc]
      · rw [List.append_assoc] at he
        rcases List.mem_append.mp he with he | he
        · rw [List.inj_on_of_nodup_map hnodup he hc heq]
          exact hfalse
        · exact hstays e he heq
    cases hrest with
    | nil => exact List.isChain_singleton _
    | @cons _ _ next rounds hnext _ _ =>
      rw [List.flatten_cons, List.flatten_cons, ← List.append_assoc] at hturns
      refine List.isChain_cons_cons.mpr ⟨?_, horder⟩
      exact eq_of_same_order hstay (hnext ▸ hperm) (no_turn hnodup (hnext ▸ hnodup') hturns)

/-- Members keep their turns exactly if they keep their order. -/
theorem keepsTurns_iff (h : Rounds gone members rounds) (hnodup : members.Nodup) :
    KeepsTurns gone members rounds.flatten ↔ InOrder gone rounds :=
  ⟨h.in_order hnodup, fun horder => .of_turns fun _ _ _ _ _ _ htrace hx _ hy hne hstays =>
    h.turns hnodup horder htrace hx hy hne hstays⟩

end Rounds
end Krio.Lib
