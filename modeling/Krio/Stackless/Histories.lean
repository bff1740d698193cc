import Mathlib.Computability.StateTransition
import Krio.Stackless.Agree

/-! What a run leaves in its log: the part since a block was entered last, what statements of the body add, and which
blocks a run went through. -/

namespace Krio.Stackless

variable {U : Type} {host : Host U} {n : ℕ}

/-- The event enters the block. -/
def Event.enters (b : ℕ) : Event U → Bool
  | .enter b' => b' == b
  | _ => false

/-- The event stores a value in the local, and one that `p` asks for. -/
def Event.stores (l : ℕ) (p : ℤ → Bool) : Event U → Bool
  | .set l' v => l' == l && p v
  | _ => false

/-- The part of the log since the block was entered last. -/
def since (b : ℕ) (log : List (Event U)) : List (Event U) := log.takeWhile (!·.enters b)

/-- The part of the log since such a value was stored in the local last. -/
def sinceStored (l : ℕ) (p : ℤ → Bool) (log : List (Event U)) : List (Event U) := log.takeWhile (!·.stores l p)

section
variable {b l : ℕ} {p : ℤ → Bool} {e : Event U} {new log : List (Event U)}

@[simp] theorem enters_enter {b' : ℕ} : (Event.enter b' : Event U).enters b = (b' == b) := rfl
@[simp] theorem enters_ran {u : U} : (Event.ran u).enters b = false := rfl
@[simp] theorem enters_received {u : U} : (Event.received u).enters b = false := rfl
@[simp] theorem enters_set {l : ℕ} {v : ℤ} : (Event.set l v : Event U).enters b = false := rfl

theorem enters_iff : e.enters b = true ↔ e = .enter b := by
  cases e with
  | enter b' => simp
  | _ => simp

theorem stores_iff : e.stores l p = true ↔ ∃ v, e = .set l v ∧ p v = true := by
  cases e with
  | set l' v =>
    simp only [Event.stores, Bool.and_eq_true, beq_iff_eq, Event.set.injEq]
    exact ⟨fun ⟨h, hv⟩ => ⟨v, ⟨h, rfl⟩, hv⟩, fun ⟨w, ⟨h, hw⟩, hp⟩ => ⟨h, hw ▸ hp⟩⟩
  | _ => simp [Event.stores]

theorem since_append (h : .enter b ∉ new) : since b (new ++ log) = new ++ since b log := by
  refine List.takeWhile_append_of_pos fun e he => ?_
  rw [Bool.not_eq_true', Bool.eq_false_iff]
  exact fun hb => h (enters_iff.mp hb ▸ he)

theorem since_cons (h : e ≠ .enter b) : since b (e :: log) = e :: since b log := by
  have hnot : .enter b ∉ [e] := fun he => h (List.mem_singleton.mp he).symm
  exact since_append hnot

@[simp] theorem since_enter : since b (.enter b :: log) = [] := by
  simp [since]

@[simp] theorem since_nil : since b ([] : List (Event U)) = [] := rfl

theorem since_subset : since b log ⊆ log := (List.takeWhile_prefix _).subset

theorem mem_since_append (h : .enter b ∉ new) : e ∈ since b (new ++ log) ↔ e ∈ new ∨ e ∈ since b log := by
  rw [since_append h, List.mem_append]

theorem sinceStored_append (h : ∀ v, p v = true → .set l v ∉ new) :
    sinceStored l p (new ++ log) = new ++ sinceStored l p log := by
  refine List.takeWhile_append_of_pos fun e he => ?_
  rw [Bool.not_eq_true', Bool.eq_false_iff]
  intro hs
  obtain ⟨v, rfl, hv⟩ := stores_iff.mp hs
  exact h v hv he

/-- What stands before such an event is no shorter than the part since the last. -/
theorem sinceStored_subset {mid old : List (Event U)} {v : ℤ} (hv : p v = true) :
    sinceStored l p (mid ++ .set l v :: old) ⊆ mid := by
  induction mid with
  | nil =>
    have hstores : (Event.set l v : Event U).stores l p = true := stores_iff.mpr ⟨v, rfl, hv⟩
    simp [sinceStored, hstores]
  | cons e mid ih =>
    rw [sinceStored, List.cons_append, List.takeWhile_cons]
    split
    · exact List.cons_subset_cons e ih
    · exact List.nil_subset _

/-- Where nothing of the kind was stored since the block was entered, that part is the shorter one. -/
theorem since_subset_sinceStored (h : ∀ v, p v = true → .set l v ∉ since b log) : since b log ⊆ sinceStored l p log := by
  induction log with
  | nil => exact List.Subset.refl _
  | cons e log ih =>
    by_cases he : e = .enter b
    · rw [he, since_enter]
      exact List.nil_subset _
    · rw [since_cons he] at h ⊢
      have hstores : e.stores l p = false := Bool.eq_false_iff.mpr fun hs => by
        obtain ⟨v, rfl, hv⟩ := stores_iff.mp hs
        exact h v hv List.mem_cons_self
      rw [sinceStored, List.takeWhile_cons, hstores, if_pos (by rfl)]
      exact List.cons_subset_cons e (ih fun v hv hmem => h v hv (List.mem_cons_of_mem _ hmem))

end

/-! ## Statements of the body -/

/-- An entry that a statement of the body makes: it enters no block, and stores to locals below `n` only. -/
def Event.Silent (n : ℕ) : Event U → Prop
  | .enter _ => False
  | .set l _ => l < n
  | _ => True

theorem Stmt.exec_silent (hb : host.Below n) {s : Stmt U} (hs : s.Below n) (σ : Store host) :
    (∃ new, (s.exec σ).log = new ++ σ.log ∧ ∀ e ∈ new, e.Silent n) ∧ ∀ l, n ≤ l → (s.exec σ).locals l = σ.locals l := by
  refine ⟨?_, (exec_agree hb hs .refl).2⟩
  cases s with
  | host u => exact ⟨[.ran u], rfl, fun e he => List.mem_singleton.mp he ▸ trivial⟩
  | assignI64 l v => exact ⟨[.set l v], rfl, fun e he => List.mem_singleton.mp he ▸ hs⟩
  | assignBool l v => exact ⟨[.set l (ofBool v)], rfl, fun e he => List.mem_singleton.mp he ▸ hs⟩
  | eqCheckI64 dest lhs v => exact ⟨[], rfl, fun e he => absurd he List.not_mem_nil⟩
  | peek u dest => exact ⟨[], rfl, fun e he => absurd he List.not_mem_nil⟩
  | recv u => exact ⟨[.received u], rfl, fun e he => List.mem_singleton.mp he ▸ trivial⟩
  | nop => exact ⟨[], rfl, fun e he => absurd he List.not_mem_nil⟩

theorem execAll_silent (hb : host.Below n) {l : List (Stmt U)} (hl : ∀ s ∈ l, s.Below n) (σ : Store host) :
    (∃ new, (execAll σ l).log = new ++ σ.log ∧ ∀ e ∈ new, e.Silent n) ∧ ∀ x, n ≤ x → (execAll σ l).locals x = σ.locals x := by
  induction l generalizing σ with
  | nil => exact ⟨⟨[], rfl, fun e he => absurd he List.not_mem_nil⟩, fun _ _ => rfl⟩
  | cons s l ih =>
    obtain ⟨⟨new, hlog, hnew⟩, hkeep⟩ := s.exec_silent hb (hl s List.mem_cons_self) σ
    obtain ⟨⟨new', hlog', hnew'⟩, hkeep'⟩ := ih (fun s' hs' => hl s' (List.mem_cons_of_mem _ hs')) (s.exec σ)
    refine ⟨⟨new' ++ new, ?_, fun e he => ?_⟩, fun x hx => (hkeep' x hx).trans (hkeep x hx)⟩
    · rw [execAll_cons, hlog', hlog, List.append_assoc]
    · rcases List.mem_append.mp he with he | he
      · exact hnew' e he
      · exact hnew e he

theorem Stmt.exec_log (s : Stmt U) (σ : Store host) : ∃ new, (s.exec σ).log = new ++ σ.log ∧ ∀ b, .enter b ∉ new := by
  cases s with
  | host u => exact ⟨[.ran u], rfl, by simp⟩
  | assignI64 l v => exact ⟨[.set l v], rfl, by simp⟩
  | assignBool l v => exact ⟨[.set l (ofBool v)], rfl, by simp⟩
  | eqCheckI64 dest lhs v => exact ⟨[], rfl, by simp⟩
  | peek u dest => exact ⟨[], rfl, by simp⟩
  | recv u => exact ⟨[.received u], rfl, by simp⟩
  | nop => exact ⟨[], rfl, by simp⟩

/-- Statements enter no block. -/
theorem execAll_log (l : List (Stmt U)) (σ : Store host) : ∃ new, (execAll σ l).log = new ++ σ.log ∧ ∀ b, .enter b ∉ new := by
  induction l generalizing σ with
  | nil => exact ⟨[], rfl, fun b => List.not_mem_nil⟩
  | cons s l ih =>
    obtain ⟨new, hlog, hnew⟩ := s.exec_log σ
    obtain ⟨new', hlog', hnew'⟩ := ih (s.exec σ)
    refine ⟨new' ++ new, by rw [execAll_cons, hlog', hlog, List.append_assoc], fun b hin => ?_⟩
    exact (List.mem_append.mp hin).elim (hnew' b) (hnew b)

/-- A step adds to the log, and enters the block it runs. -/
theorem step_log {cfg : Body U} {c c' : Conf host} (h : step cfg c = some c') :
    ∃ new, c'.store.log = new ++ c.store.log ∧ ∀ b, .enter b ∈ new → c.place = .block b := by
  cases hp : c.place with
  | block b =>
    rw [step, hp] at h
    cases h
    obtain ⟨new, hlog, hnew⟩ := execAll_log (cfg.stmts b) (c.store.note (.enter b))
    refine ⟨new ++ [Event.enter b], ?_, fun b' hin => ?_⟩
    · rw [List.append_assoc]
      exact hlog
    · have hin' := (List.mem_append.mp hin).resolve_left (hnew b')
      rw [Event.enter.inj (List.mem_singleton.mp hin')]
  | returned =>
    rw [step, hp] at h
    cases h
  | dead =>
    rw [step, hp] at h
    cases h

/-- A list of stores of one value. -/
theorem execAll_assigns {α : Type*} (f : α → ℕ) (v : ℤ) (xs : List α) (σ : Store host) :
    (∃ new, (execAll σ (xs.map fun x => .assignI64 (f x) v)).log = new ++ σ.log ∧ ∀ e ∈ new, ∃ x ∈ xs, e = .set (f x) v) ∧
      (∀ x ∈ xs, (execAll σ (xs.map fun x => .assignI64 (f x) v)).locals (f x) = v) ∧
      ∀ l, (∀ x ∈ xs, f x ≠ l) → (execAll σ (xs.map fun x => .assignI64 (f x) v)).locals l = σ.locals l := by
  induction xs generalizing σ with
  | nil => exact ⟨⟨[], rfl, fun e he => absurd he List.not_mem_nil⟩, fun x hx => absurd hx List.not_mem_nil, fun _ _ => rfl⟩
  | cons x xs ih =>
    obtain ⟨⟨new, hlog, hnew⟩, hmem, hkeep⟩ := ih (σ.assign (f x) v)
    refine ⟨⟨new ++ [Event.set (f x) v], ?_, fun e he => ?_⟩, fun y hy => ?_, fun l hl => ?_⟩
    · rw [List.append_assoc]
      exact hlog
    · rcases List.mem_append.mp he with he | he
      · obtain ⟨y, hy, rfl⟩ := hnew e he
        exact ⟨y, List.mem_cons_of_mem _ hy, rfl⟩
      · exact ⟨x, List.mem_cons_self, List.mem_singleton.mp he⟩
    · by_cases hin : ∃ z ∈ xs, f z = f y
      · obtain ⟨z, hz, heq⟩ := hin
        exact heq ▸ hmem z hz
      · rcases List.mem_cons.mp hy with rfl | hy
        · exact (hkeep _ fun z hz heq => hin ⟨z, hz, heq⟩).trans (Function.update_self _ _ _)
        · exact absurd ⟨y, hy, rfl⟩ hin
    · have hne : l ≠ f x := (hl x List.mem_cons_self).symm
      exact (hkeep l fun y hy => hl y (List.mem_cons_of_mem _ hy)).trans (Function.update_of_ne hne _ _)

/-! ## Runs through some blocks -/

theorem Conf.eq_of {c : Conf host} {place : At} {σ : Store host} (hp : c.place = place) (hs : c.store = σ) : c = ⟨place, σ⟩ := by
  cases hp
  cases hs
  rfl

open StateTransition

/-- The run leads from `c` to `c'` through blocks in `A` only. -/
def Through (cfg : Body U) (A : ℕ → Prop) (c c' : Conf host) : Prop :=
  Relation.ReflTransGen (fun c c' => step cfg c = some c' ∧ ∀ b, c.place = .block b → A b) c c'

namespace Through
variable {cfg : Body U} {A A' : ℕ → Prop} {c c' c'' : Conf host} {b : ℕ} {σ : Store host}

theorem refl : Through cfg A c c := Relation.ReflTransGen.refl

theorem trans (h : Through cfg A c c') (h' : Through cfg A c' c'') : Through cfg A c c'' := Relation.ReflTransGen.trans h h'

theorem head (hb : A b) (h : Through cfg A (runBlock cfg b σ) c) : Through cfg A ⟨.block b, σ⟩ c :=
  Relation.ReflTransGen.head ⟨rfl, fun _ heq => At.block.inj heq ▸ hb⟩ h

theorem mono (hA : ∀ b, A b → A' b) (h : Through cfg A c c') : Through cfg A' c c' := by
  induction h with
  | refl => exact refl
  | tail _ hstep ih => exact Relation.ReflTransGen.tail ih ⟨hstep.1, fun b hb => hA b (hstep.2 b hb)⟩

theorem reaches (h : Through cfg A c c') : Reaches (step cfg) c c' := by
  induction h with
  | refl => exact .refl
  | tail _ hstep ih => exact .tail ih hstep.1

/-- The log tells of these blocks only. -/
theorem log (h : Through cfg A c c') : ∃ add, c'.store.log = add ++ c.store.log ∧ ∀ b, .enter b ∈ add → A b := by
  induction h with
  | refl => exact ⟨[], rfl, fun b hin => absurd hin List.not_mem_nil⟩
  | tail _ hstep ih =>
    obtain ⟨add, hlog, hadd⟩ := ih
    obtain ⟨new, hlog', hnew⟩ := step_log hstep.1
    refine ⟨new ++ add, by rw [hlog', hlog, List.append_assoc], fun b hin => ?_⟩
    rcases List.mem_append.mp hin with hin | hin
    · exact hstep.2 b (hnew b hin)
    · exact hadd b hin

end Through

end Krio.Stackless
