import Mathlib.Computability.StateTransition
import Mathlib.Logic.Function.Iterate

/-! A deterministic machine matched by another one: every step of the first is some steps of the second, or none
while a rank goes down. The two then halt together, and each state of one is passed by the other. -/

namespace Krio.Lib

open StateTransition

variable {σ τ : Type*} {f : σ → Option σ} {g : τ → Option τ} {R : ℕ → σ → τ → Prop}

/-- Along `R` every step of `f` is matched by steps of `g`, or lowers the rank; where `f` halts, so does `g`. -/
structure Matches (f : σ → Option σ) (g : τ → Option τ) (R : ℕ → σ → τ → Prop) : Prop where
  step : ∀ n a b a', R n a b → f a = some a' → (∃ m b', Reaches₁ g b b' ∧ R m a' b') ∨ ∃ m < n, R m a' b
  halt : ∀ n a b, R n a b → f a = none → g b = none

/-- `n` steps from `a`, if there are so many. -/
def iter (f : σ → Option σ) (n : ℕ) (a : σ) : Option σ := (fun o => o.bind f)^[n] (some a)

theorem iter_succ (f : σ → Option σ) (n : ℕ) (a : σ) : iter f (n + 1) a = (iter f n a).bind f :=
  Function.iterate_succ_apply' _ n _

theorem iter_add {m n : ℕ} {a b : σ} (h : iter f m a = some b) : iter f (m + n) a = iter f n b := by
  induction n with
  | zero => exact h
  | succ n ih => rw [← Nat.add_assoc, iter_succ, ih, iter_succ]

theorem reaches_iff_iter {a b : σ} : Reaches f a b ↔ ∃ n, iter f n a = some b := by
  constructor
  · intro h
    induction h with
    | refl => exact ⟨0, rfl⟩
    | tail _ hs ih =>
      obtain ⟨n, hn⟩ := ih
      refine ⟨n + 1, ?_⟩
      rw [iter_succ, hn]
      exact hs
  · rintro ⟨n, hn⟩
    induction n generalizing b with
    | zero =>
      cases hn
      exact .refl
    | succ n ih =>
      rw [iter_succ] at hn
      obtain ⟨c, hc, hb⟩ := Option.bind_eq_some_iff.mp hn
      exact (ih hc).tail hb

theorem exists_iter_of_reaches₁ {a b : σ} (h : Reaches₁ f a b) : ∃ n, iter f (n + 1) a = some b := by
  obtain ⟨c, hc, hb⟩ := Relation.TransGen.tail'_iff.mp h
  obtain ⟨n, hn⟩ := reaches_iff_iter.mp hc
  refine ⟨n, ?_⟩
  rw [iter_succ, hn]
  exact hb

namespace Matches

/-- Every state of the first machine is related to one that the second reaches. -/
theorem reaches (h : Matches f g R) {n : ℕ} {a a' : σ} {b : τ} (hR : R n a b) (ha : Reaches f a a') :
    ∃ m b', Reaches g b b' ∧ R m a' b' := by
  induction ha with
  | refl => exact ⟨n, b, .refl, hR⟩
  | tail _ hs ih =>
    obtain ⟨m, b', hb, hR'⟩ := ih
    rcases h.step m _ b' _ hR' hs with ⟨m', b'', hb', hR''⟩ | ⟨m', -, hR''⟩
    · exact ⟨m', b'', hb.trans hb'.to_reflTransGen, hR''⟩
    · exact ⟨m', b', hb, hR''⟩

/-- The first machine catches up with every state of the second. -/
theorem covers_iter (h : Matches f g R) (k : ℕ) : ∀ (n : ℕ) (a : σ) (b b' : τ), R n a b → iter g k b = some b' →
    ∃ m a' b'', Reaches f a a' ∧ Reaches g b' b'' ∧ R m a' b'' := by
  induction k using Nat.strong_induction_on with
  | _ k ihk =>
    intro n
    induction n using Nat.strong_induction_on with
    | _ n ihn =>
      intro a b b' hR hk
      by_cases hk0 : k = 0
      · subst hk0
        cases hk
        exact ⟨n, a, b, .refl, .refl, hR⟩
      · cases ha : f a with
        | none =>
          -- both have halted, yet the second goes on
          obtain ⟨j, rfl⟩ := Nat.exists_eq_succ_of_ne_zero hk0
          have hhalt : iter g 1 b = none := h.halt n a b hR ha
          have hnone : ∀ i, iter g (i + 1) b = none := by
            intro i
            induction i with
            | zero => exact hhalt
            | succ i ih => rw [iter_succ, ih, Option.bind_none]
          rw [Nat.succ_eq_add_one, hnone] at hk
          cases hk
        | some a' =>
          have hstep : Reaches f a a' := .single ha
          rcases h.step n a b a' hR ha with ⟨m, c, hc, hR'⟩ | ⟨m, hm, hR'⟩
          · obtain ⟨i, hi⟩ := exists_iter_of_reaches₁ hc
            by_cases hik : i + 1 ≤ k
            · have hrest : iter g (k - (i + 1)) c = some b' := by
                rw [← iter_add hi, Nat.add_sub_cancel' hik, hk]
              obtain ⟨m', a'', b'', h1, h2, h3⟩ := ihk (k - (i + 1)) (by omega) m a' c b' hR' hrest
              exact ⟨m', a'', b'', hstep.trans h1, h2, h3⟩
            · have hrest : iter g (i + 1 - k) b' = some c := by
                rw [← iter_add hk, Nat.add_sub_cancel' (by omega), hi]
              exact ⟨m, a', c, hstep, reaches_iff_iter.mpr ⟨_, hrest⟩, hR'⟩
          · obtain ⟨m', a'', b'', h1, h2, h3⟩ := ihn m hm a' b b' hR' hk
            exact ⟨m', a'', b'', hstep.trans h1, h2, h3⟩

theorem covers (h : Matches f g R) {n : ℕ} {a : σ} {b b' : τ} (hR : R n a b) (hb : Reaches g b b') :
    ∃ m a' b'', Reaches f a a' ∧ Reaches g b' b'' ∧ R m a' b'' := by
  obtain ⟨k, hk⟩ := reaches_iff_iter.mp hb
  exact h.covers_iter k n a b b' hR hk

/-- Next to a halted state of the second machine the first one halts. -/
theorem halts_of_halted (h : Matches f g R) (n : ℕ) : ∀ (a : σ) (b : τ), R n a b → g b = none →
    ∃ m a', Reaches f a a' ∧ f a' = none ∧ R m a' b := by
  induction n using Nat.strong_induction_on with
  | _ n ih =>
    intro a b hR hb
    cases ha : f a with
    | none => exact ⟨n, a, .refl, ha, hR⟩
    | some a' =>
      rcases h.step n a b a' hR ha with ⟨m, c, hc, -⟩ | ⟨m, hm, hR'⟩
      · obtain ⟨d, hd, -⟩ := Relation.TransGen.head'_iff.mp hc
        rw [hb] at hd
        cases hd
      · obtain ⟨m', a'', h1, h2, h3⟩ := ih m hm a' b hR' hb
        exact ⟨m', a'', .head ha h1, h2, h3⟩

/-- The results of the two machines are related, and one has a result if and only if the other has. -/
theorem eval_iff (h : Matches f g R) {n : ℕ} {a : σ} {b : τ} (hR : R n a b) :
    ((eval f a).Dom ↔ (eval g b).Dom) ∧ ∀ c ∈ eval f a, ∀ d ∈ eval g b, ∃ m, R m c d := by
  have hfwd : ∀ c ∈ eval f a, ∃ d ∈ eval g b, ∃ m, R m c d := by
    intro c hc
    obtain ⟨hreach, hhalt⟩ := mem_eval.mp hc
    obtain ⟨m, d, hd, hR'⟩ := h.reaches hR hreach
    exact ⟨d, mem_eval.mpr ⟨hd, h.halt m c d hR' hhalt⟩, m, hR'⟩
  refine ⟨⟨?_, ?_⟩, ?_⟩
  · intro hdom
    obtain ⟨d, hd, -⟩ := hfwd _ (Part.get_mem hdom)
    exact Part.dom_iff_mem.mpr ⟨d, hd⟩
  · intro hdom
    obtain ⟨hreach, hhalt⟩ := mem_eval.mp (Part.get_mem hdom)
    obtain ⟨m, a', d, ha', hd, hR'⟩ := h.covers hR hreach
    have hdeq : (eval g b).get hdom = d := by
      rcases Relation.ReflTransGen.cases_head hd with heq | ⟨e, he, -⟩
      · exact heq
      · rw [hhalt] at he
        cases he
    rw [hdeq] at hhalt
    obtain ⟨m', a'', ha'', hh, -⟩ := h.halts_of_halted m a' d hR' hhalt
    exact Part.dom_iff_mem.mpr ⟨a'', mem_eval.mpr ⟨ha'.trans ha'', hh⟩⟩
  · intro c hc d hd
    obtain ⟨d', hd', m, hR'⟩ := hfwd c hc
    obtain rfl := Part.mem_unique hd hd'
    exact ⟨m, hR'⟩

end Matches

end Krio.Lib
