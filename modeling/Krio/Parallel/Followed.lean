import Krio.Parallel.Homing

/-! Whether a host that listens to the observer can follow a task from agent to agent. `on_migrate` is emitted
for a steal; a job that comes out of the injector may have been on another agent before, and is stepped
without an event. -/

namespace Krio.Parallel
open Lib

variable {cfg : Config}

/-- Where each task was placed: the agent that `spawn_on` named, by the task's identity. -/
abbrev Placed (cfg : Config) := TaskId → Option (Fin cfg.agentCount)

/-- The home of a task, for a host that has heard the events so far, newest first. -/
def home (placed : Placed cfg) : List (Event cfg) → TaskId → Option (Fin cfg.agentCount)
  | [], id => placed id
  | .migrate j _ thief :: es, id => if j.id = id then some thief else home placed es id
  | .stepBegin j i :: es, id => if j.id = id then some i else home placed es id
  | _ :: es, id => home placed es id

/-- Between `on_step_begin` and `on_step_end` of a task. -/
def stepping : List (Event cfg) → TaskId → Bool
  | [], _ => false
  | .stepBegin j _ :: es, id => if j.id = id then true else stepping es id
  | .stepEnd j _ :: es, id => if j.id = id then false else stepping es id
  | _ :: es, id => stepping es id

/-- Every step of a task that has a home begins there; every migration leaves the task's home, and no step of the
    task is in progress. -/
def Followed (placed : Placed cfg) : List (Event cfg) → Prop
  | [] => True
  | .stepBegin j i :: es => (∀ v, home placed es j.id = some v → v = i) ∧ Followed placed es
  | .migrate j victim _ :: es => home placed es j.id = some victim ∧ stepping es j.id = false ∧ Followed placed es
  | _ :: es => Followed placed es

instance (placed : Placed cfg) : ∀ es, Decidable (Followed placed es)
  | [] => isTrue trivial
  | .stepBegin j i :: es =>
    have := instDecidableFollowed placed es
    inferInstanceAs (Decidable ((∀ v, home placed es j.id = some v → v = i) ∧ Followed placed es))
  | .migrate j victim _ :: es =>
    have := instDecidableFollowed placed es
    inferInstanceAs (Decidable (home placed es j.id = some victim ∧ stepping es j.id = false ∧ Followed placed es))
  | .spawned _ :: es | .stepEnd _ _ :: es | .completed _ :: es | .woke _ :: es => instDecidableFollowed placed es

/-- A cluster and the placements its host has asked for. -/
structure Watched (cfg : Config) where
  state : State cfg
  placed : Placed cfg

/-- The placements after a step from `s`: `spawn_on` knows the identity of a task once it is minted. -/
def Placed.after (placed : Placed cfg) (s : State cfg) (t : Tid cfg) : Placed cfg :=
  match s.ctl t with
  | .spawnOn _ x => Function.update placed s.mem.mint.id (some x)
  | _ => placed

def watch (x : Watched cfg) (a : Act cfg) : Option (Watched cfg) :=
  ((cluster cfg).step x.state a).map fun s => ⟨s, x.placed.after x.state a.1⟩

def Watched.init (cfg : Config) : Watched cfg := ⟨State.init cfg, fun _ => none⟩

/-- About to take a job out of the injector. -/
def Ctl.takes : Ctl cfg → Bool
  | .drive _ .injector => true
  | _ => false

/-- Whenever an agent takes a job out of the injector, the task has no home yet or is at home with that agent. -/
def TakesOwn (x : Watched cfg) (a : Act cfg) : Prop :=
  ∀ i, a.1 = .agent i → (x.state.ctl a.1).takes = true → ∀ j ∈ x.state.mem.injector.head?,
    ∀ v ∈ home x.placed x.state.mem.log j.id, v = i

instance (x : Watched cfg) (a : Act cfg) : Decidable (TakesOwn x a) := inferInstanceAs (Decidable (∀ _ : Fin _, _))

/-- What a run of a list of actions reaches. -/
theorem watched_of_actions (ok : Watched cfg → Act cfg → Prop) [∀ x a, Decidable (ok x a)] (as : List (Act cfg))
    (q : Watched cfg → Bool) (h : (runActions watch ok (.init cfg) as).any q = true) :
    ∃ x, Steps watch ok (.init cfg) x ∧ q x = true := exists_of_runActions h

/-! ### A task that changes agent unheard -/

/-- Agent 0 steps a task that was placed on it, the task waits and is woken, and agent 1 takes it out of the
    injector. -/
private def wokenElsewhere : List (Act Config.two) :=
  [Tid.calls (.agent 0) (.spawnOn 0)] ++ Tid.go (.agent 0) 8 ++ [Tid.calls (.agent 0) (.driveOnce .worker)] ++
  Tid.go (.agent 0) 8 ++ [(.agent 0, .ret .pending)] ++ Tid.go (.agent 0) 4 ++ [Tid.calls (.ext 0) (.wake 1)] ++
  Tid.go (.ext 0) 5 ++ [Tid.calls (.agent 1) (.driveOnce .worker)] ++ Tid.go (.agent 1) 7

/-- Two agents: a task that waited on agent 0 is stepped by agent 1, and the host has heard of no migration. -/
theorem task_moves_unheard :
    ∃ x : Watched (.new 2 (by decide) (by decide)), Steps watch (fun x a => Sane x.state a) (.init _) x ∧
      ¬Followed x.placed x.state.mem.log := by
  obtain ⟨x, hx, hq⟩ := watched_of_actions (fun x a => Sane x.state a) wokenElsewhere
    (fun x : Watched Config.two => !decide (Followed x.placed x.state.mem.log)) (by decide +kernel)
  exact ⟨x, hx, by simpa using hq⟩

/-! ### What the host hears -/

section
variable {placed : Placed cfg} {e : Event cfg} {es es' : List (Event cfg)} {id : TaskId}

@[simp] theorem home_silent (h : e.heard = none) : home placed (e :: es) id = home placed es id := by
  cases e <;> first | rfl | cases h

@[simp] theorem stepping_silent (h : e.heard = none) : stepping (e :: es) id = stepping es id := by
  cases e <;> first | rfl | cases h

@[simp] theorem followed_silent (h : e.heard = none) : Followed placed (e :: es) ↔ Followed placed es := by
  cases e <;> first | rfl | cases h

/-- The home of a task that the observer has not heard of is where it was placed. -/
theorem home_unheard (h : ∀ e ∈ es, ∀ j, e.heard = some j → j.id ≠ id) : home placed es id = placed id := by
  induction es with
  | nil => rfl
  | cons e es ih =>
    have hes := ih fun e' he' => h e' (List.mem_cons_of_mem _ he')
    have he := h e (List.mem_cons_self ..)
    cases e <;> simp_all [home, Event.heard]

theorem home_update {i : Fin cfg.agentCount} {id' : TaskId} (hid : id' ≠ id) :
    home (Function.update placed id' i) es id = home placed es id := by
  induction es with
  | nil => exact Function.update_of_ne hid.symm _ _
  | cons e es ih => cases e <;> simp [home, ih]

/-- A placement of a task that the observer has not heard of changes nothing in the past. -/
theorem followed_update {i : Fin cfg.agentCount} (h : ∀ e ∈ es, ∀ j, e.heard = some j → j.id ≠ id) :
    Followed (Function.update placed id i) es ↔ Followed placed es := by
  induction es with
  | nil => rfl
  | cons e es ih =>
    have hes := ih fun e' he' => h e' (List.mem_cons_of_mem _ he')
    have he := h e (List.mem_cons_self ..)
    cases e with
    | stepBegin j i => simp only [Followed, hes, home_update (he j rfl).symm]
    | migrate j v u => simp only [Followed, hes, home_update (he j rfl).symm]
    | _ => exact hes

end

section
variable {s s' : State cfg} {placed placed' : Placed cfg} {a : Act cfg} {c : Ctl cfg} {w : Option (Addr cfg)}
  {i : Fin cfg.agentCount}

/-- What a host knows of a job that agent `i` is about to step: a stolen one is at home with the victim, another
    one has no home yet or is at home. -/
def FoundOk (placed : Placed cfg) (es : List (Event cfg)) (i : Fin cfg.agentCount) :
    Job × Option (Fin cfg.agentCount) → Prop
  | (j, none) => ∀ u, home placed es j.id = some u → u = i
  | (j, some v) => home placed es j.id = some v

/-- The host knows where every job is that is in a deque or in the hands of an agent's thread. -/
structure Homed (s : State cfg) (placed : Placed cfg) : Prop where
  sound : Sound s
  heard : ∀ e ∈ s.mem.log, ∀ j, e.heard = some j → .spawned j ∈ s.mem.log
  atHome : ∀ u, ∀ j ∈ s.atHome u, home placed s.mem.log j.id = some u
  found : ∀ i f, (s.ctl (.agent i)).found = some f → FoundOk placed s.mem.log i f
  stepping : ∀ id, stepping s.mem.log id = true → ∃ t, ∃ j ∈ (s.ctl t).site.jobs, j.id = id
  followed : Followed placed s.mem.log

/-- What a step has to be for the host to know as much after it: homes change only for jobs in the acting thread's
    hands, and what the thread has new at home, or has found, is known. -/
theorem Homed.next (h : Homed s placed) (hsound : Sound s')
    (hctl : s'.ctl = (cluster cfg).signal w (Function.update s.ctl a.1 c))
    (hheard : ∀ e ∈ s'.mem.log, ∀ j, e.heard = some j → e ∈ s.mem.log ∨ .spawned j ∈ s'.mem.log)
    (hspawned : ∀ j, .spawned j ∈ s.mem.log → .spawned j ∈ s'.mem.log)
    (hhome : ∀ id, home placed' s'.mem.log id = home placed s.mem.log id ∨
      (∃ i, a.1 = .agent i ∧ home placed' s'.mem.log id = some i) ∧
        ∀ j, .spawned j ∈ s.mem.log → j.id = id → j ∈ s.hands a.1)
    (hnew : ∀ u, ∀ j ∈ s'.atHome u, j ∈ s.atHome u ∨ home placed' s'.mem.log j.id = some u)
    (hfound : ∀ i f, a.1 = .agent i → c.found = some f → FoundOk placed' s'.mem.log i f)
    (hstepping : ∀ id, Parallel.stepping s'.mem.log id = true → (∃ j ∈ c.site.jobs, j.id = id) ∨
      Parallel.stepping s.mem.log id = true ∧ ∀ j ∈ (s.ctl a.1).site.jobs, j.id ≠ id)
    (hfollowed : Followed placed' s'.mem.log) : Homed s' placed' := by
  refine ⟨hsound, fun e he j hj => ?_, fun u j hj => ?_, fun u f hf => ?_, fun id hid => ?_, hfollowed⟩
  · exact (hheard e he j hj).elim (fun he => hspawned j (h.heard e he j hj)) id
  · obtain hj | hj := hnew u j hj
    · obtain hsame | ⟨⟨i, ht, hi⟩, hmine⟩ := hhome j.id
      · exact hsame.trans (h.atHome u j hj)
      · have := h.sound.agent_of_atHome hj (hmine j (h.sound.spawned_of_atHome hj) rfl)
        rw [ht] at this
        cases this
        exact hi
    · exact hj
  · by_cases ht : a.1 = .agent u
    · refine hfound u f ht ?_
      rw [← hf, ← ht]
      exact (Program.view_self (v := fun _ c => c.found) awaken_found hctl).symm
    · have hf' : (s.ctl (.agent u)).found = some f := by
        rw [← hf]
        exact (Program.view_other (v := fun _ c => c.found) awaken_found hctl fun h => ht h.symm).symm
      have hin : f.1 ∈ s.hold (.hands (.agent u)) := jobs_subset_hands _ (mem_jobs_of_found hf')
      have hsame : home placed' s'.mem.log f.1.id = home placed s.mem.log f.1.id := by
        obtain hsame | ⟨-, hmine⟩ := hhome f.1.id
        · exact hsame
        · have hin' : f.1 ∈ s.hold (.hands a.1) := hmine f.1 (h.sound.spawned_of_hold hin) rfl
          exact absurd (Place.hands.inj (h.sound.custody.unique _ _ _ hin' hin)) ht
      have hok := h.found u f hf'
      obtain ⟨j, _ | v⟩ := f
      · exact fun u' hu' => hok u' (hsame.symm.trans hu')
      · exact hsame.trans hok
  · have self : (s'.ctl a.1).site = c.site := Program.view_self (v := fun _ c => c.site) awaken_site hctl
    obtain ⟨j, hj, hid⟩ | ⟨hid, hout⟩ := hstepping id hid
    · exact ⟨a.1, j, by rwa [self], hid⟩
    · obtain ⟨t, j, hj, rfl⟩ := h.stepping id hid
      have ht : t ≠ a.1 := by
        rintro rfl
        exact hout j hj rfl
      refine ⟨t, j, ?_, rfl⟩
      rwa [Program.view_other (v := fun _ c => c.site) awaken_site hctl ht]

/-- A step after which the observer has heard nothing new. -/
theorem Homed.quiet (h : Homed s placed) (hsound : Sound s')
    (hctl : s'.ctl = (cluster cfg).signal w (Function.update s.ctl a.1 c))
    (hlog : s'.mem.log = s.mem.log ∨ ∃ e, e.heard = none ∧ s'.mem.log = e :: s.mem.log)
    (hnew : ∀ u, s'.atHome u ⊆ s.atHome u)
    (hfound : ∀ i f, a.1 = .agent i → c.found = some f → FoundOk placed s.mem.log i f)
    (hsite : c.site.jobs = (s.ctl a.1).site.jobs) : Homed s' placed := by
  have hhome : ∀ id, home placed s'.mem.log id = home placed s.mem.log id := by
    obtain hlog | ⟨e, he, hlog⟩ := hlog <;> simp [*]
  refine h.next hsound hctl ?_ ?_ (fun id => Or.inl (hhome id)) (fun u j hj => Or.inl (hnew u hj)) ?_ ?_ ?_
  · intro e' he' j hj
    obtain hlog | ⟨e, he, hlog⟩ := hlog
    · exact Or.inl (hlog ▸ he')
    · rw [hlog] at he'
      obtain rfl | he' := List.mem_cons.mp he'
      · rw [he] at hj
        cases hj
      · exact Or.inl he'
  · intro j hj
    obtain hlog | ⟨e, he, hlog⟩ := hlog <;> simp [*]
  · intro i f ht hf
    have hok := hfound i f ht hf
    obtain ⟨j, _ | v⟩ := f <;> simpa only [FoundOk, hhome] using hok
  · intro id hid
    have hid' : Parallel.stepping s.mem.log id = true := by
      obtain hlog | ⟨e, he, hlog⟩ := hlog <;> simpa [*] using hid
    by_cases hj : ∃ j ∈ c.site.jobs, j.id = id
    · exact Or.inl hj
    · refine Or.inr ⟨hid', fun j hj' hid => hj ⟨j, ?_, hid⟩⟩
      rwa [hsite]
  · obtain hlog | ⟨e, he, hlog⟩ := hlog
    · rw [hlog]
      exact h.followed
    · rw [hlog, followed_silent he]
      exact h.followed

/-- A step of the deques: what was at home stays so or is found. -/
theorem Homed.deque (h : Homed s placed) (hsound : Sound s')
    (hctl : s'.ctl = (cluster cfg).signal w (Function.update s.ctl a.1 c)) (hlog : s'.mem.log = s.mem.log)
    (hsub : ∀ u, s'.atHome u ⊆ s.atHome u)
    (hfound : ∀ i j v, a.1 = .agent i → c.found = some (j, v) → ∃ u, j ∈ s.atHome u ∧ (v = some u ∨ v = none ∧ u = i))
    (hsite : c.site.jobs = (s.ctl a.1).site.jobs) : Homed s' placed := by
  refine h.quiet hsound hctl (Or.inl hlog) hsub ?_ hsite
  rintro i ⟨j, v⟩ ht hf
  obtain ⟨u, hj, rfl | ⟨rfl, rfl⟩⟩ := hfound i j v ht hf
  · exact h.atHome u j hj
  · intro u' hu'
    rw [h.atHome u j hj] at hu'
    exact (Option.some.inj hu').symm

/-- A step of the job `j` begins on agent `i`. -/
theorem Homed.begin (h : Homed s placed) (hsound : Sound s')
    (hctl : s'.ctl = (cluster cfg).signal w (Function.update s.ctl a.1 c)) {p : Pass} {j : Job} (ht : a.1 = .agent i)
    (hj : j ∈ s.hands a.1) (hc : c = .task p j)
    (hnew : ∀ u, ∀ j' ∈ s'.atHome u, j' ∈ s.atHome u ∨ a.1 = .agent u ∧ j' ∈ c.settled)
    {es : List (Event cfg)} (hlog : s'.mem.log = .stepBegin j i :: es)
    (hhome : ∀ id, j.id ≠ id → home placed es id = home placed s.mem.log id)
    (hstepping : ∀ id, Parallel.stepping es id = Parallel.stepping s.mem.log id)
    (hspawned : ∀ j', .spawned j' ∈ es ↔ .spawned j' ∈ s.mem.log)
    (hheard : ∀ e ∈ es, ∀ j', e.heard = some j' → e ∈ s.mem.log ∨ j' = j)
    (hfollowed : Followed placed es) (hok : ∀ u, home placed es j.id = some u → u = i)
    (hsite : (s.ctl a.1).site.jobs = []) : Homed s' placed := by
  have hborn := h.sound.spawned_of_hold (p := .hands a.1) hj
  have hi : home placed s'.mem.log j.id = some i := by
    rw [hlog]
    simp [home]
  refine h.next hsound hctl (fun e he j' hj' => ?_) (fun j' hj' => ?_) (fun id => ?_) (fun u j' hj' => ?_) ?_ (fun id hid => ?_) ?_
  · rw [hlog] at he ⊢
    have : .spawned j ∈ (Event.stepBegin j i :: es : List (Event cfg)) := List.mem_cons_of_mem _ ((hspawned j).mpr hborn)
    obtain rfl | he := List.mem_cons.mp he
    · cases hj'
      exact Or.inr this
    · obtain he | rfl := hheard e he j' hj'
      · exact Or.inl he
      · exact Or.inr this
  · rw [hlog]
    exact List.mem_cons_of_mem _ ((hspawned j').mpr hj')
  · by_cases hid : j.id = id
    · subst hid
      refine Or.inr ⟨⟨i, ht, hi⟩, fun j' hj' hid => ?_⟩
      rwa [h.sound.eq_of_id hj' hborn hid]
    · rw [hlog]
      exact Or.inl (by simp [home, hid, hhome id hid])
  · refine (hnew u j' hj').imp_right fun ⟨hu, hj'⟩ => ?_
    rw [hc] at hj'
    obtain rfl : j' = j := List.mem_singleton.mp hj'
    obtain rfl : i = u := Tid.agent.inj (ht.symm.trans hu)
    exact hi
  · intro i' f _ hf
    rw [hc] at hf
    cases hf
  · by_cases hj' : j.id = id
    · exact Or.inl ⟨j, by rw [hc]; exact List.mem_singleton_self _, hj'⟩
    · rw [hlog] at hid
      refine Or.inr ⟨?_, by simp [hsite]⟩
      rw [← hstepping]
      simpa [Parallel.stepping, hj'] using hid
  · rw [hlog]
    exact ⟨hok, hfollowed⟩

/-- The placement of a task that was just minted. -/
theorem Homed.spawnOn (h : Homed s placed) (hsound : Sound s')
    (hctl : s'.ctl = (cluster cfg).signal w (Function.update s.ctl a.1 c)) {k : Site} {x : Fin cfg.agentCount}
    (hid : s.mem.mint.id = s.mem.spawned + 1) (hc : s.ctl a.1 = .spawnOn k x)
    (hc' : c = .push (.spawnOn k x) s.mem.mint .loadBottom)
    (hnew : ∀ u, ∀ j ∈ s'.atHome u, j ∈ s.atHome u ∨ a.1 = .agent u ∧ j ∈ c.settled)
    (hlog : s'.mem.log = .spawned s.mem.mint :: s.mem.log) :
    Homed s' (Function.update placed s.mem.mint.id (some x)) := by
  have ht : a.1 = .agent x := by simpa [hc, Ctl.onTarget] using h.sound.onTarget a.1
  have fresh : ∀ j, .spawned j ∈ s.mem.log → j.id ≠ s.mem.mint.id := by
    intro j hj
    obtain ⟨hlt, hj⟩ := h.sound.ledger.numbered j hj
    rw [hj, hid]
    exact (Nat.add_lt_add_right hlt 1).ne
  have unheard : ∀ e ∈ s.mem.log, ∀ j, e.heard = some j → j.id ≠ s.mem.mint.id :=
    fun e he j hj => fresh j (h.heard e he j hj)
  have hplaced : home (Function.update placed s.mem.mint.id (some x)) s'.mem.log s.mem.mint.id = some x := by
    rw [hlog, home_silent rfl, home_unheard unheard, Function.update_self]
  refine h.next hsound hctl (fun e he j hj => ?_) (fun j hj => ?_) (fun id => ?_) (fun u j hj => ?_) ?_ (fun id hid' => ?_) ?_
  · rw [hlog] at he
    obtain rfl | he := List.mem_cons.mp he
    · cases hj
    · exact Or.inl he
  · rw [hlog]
    exact List.mem_cons_of_mem _ hj
  · by_cases hid' : s.mem.mint.id = id
    · subst hid'
      exact Or.inr ⟨⟨x, ht, hplaced⟩, fun j hj hid' => absurd hid' (fresh j hj)⟩
    · rw [hlog, home_silent rfl]
      exact Or.inl (home_update hid')
  · obtain hold | ⟨hu, hset⟩ := hnew u j hj
    · exact Or.inl hold
    · obtain rfl : x = u := Tid.agent.inj (ht.symm.trans hu)
      rw [hc'] at hset
      obtain rfl | hset := List.mem_cons.mp hset
      · exact Or.inr hplaced
      · refine Or.inl (List.mem_append_right _ (List.mem_append_right _ ?_))
        rw [← ht, hc]
        exact hset
  · intro i f _ hf
    rw [hc'] at hf
    cases hf
  · rw [hlog, stepping_silent rfl] at hid'
    by_cases hj : ∃ j ∈ c.site.jobs, j.id = id
    · exact Or.inl hj
    · refine Or.inr ⟨hid', fun j hj' hid => hj ⟨j, ?_, hid⟩⟩
      rw [hc] at hj'
      rwa [hc']
  · rw [hlog, followed_silent rfl, followed_update unheard]
    exact h.followed

/-- The step of the job `j` has ended. -/
theorem Homed.finish (h : Homed s placed) (hsound : Sound s')
    (hctl : s'.ctl = (cluster cfg).signal w (Function.update s.ctl a.1 c)) {p : Pass} {j : Job}
    (hc : s.ctl a.1 = .task p j) (hfound : c.found = none) (hsub : ∀ u, s'.atHome u ⊆ s.atHome u)
    (hlog : s'.mem.log = .stepEnd j i :: s.mem.log ∨ s'.mem.log = .completed j :: .stepEnd j i :: s.mem.log) :
    Homed s' placed := by
  have hborn : .spawned j ∈ s.mem.log :=
    h.sound.spawned_of_hold (p := .hands a.1) (jobs_subset_hands _ (by rw [hc]; exact List.mem_singleton_self _))
  refine h.next hsound hctl (fun e he j' hj' => ?_) (fun j' hj' => ?_) (fun id => Or.inl ?_) (fun u j' hj' => Or.inl (hsub u hj'))
    ?_ (fun id hid => Or.inr ?_) ?_
  · by_cases he' : e ∈ s.mem.log
    · exact Or.inl he'
    · refine Or.inr ?_
      obtain hlog | hlog := hlog <;> rw [hlog] at he ⊢ <;> cases e <;> simp_all [Event.heard]
  · obtain hlog | hlog := hlog <;> simp [*]
  · obtain hlog | hlog := hlog <;> simp [hlog, home]
  · intro i f _ hf
    rw [hfound] at hf
    cases hf
  · have hid' : (if j.id = id then false else Parallel.stepping s.mem.log id) = true := by
      obtain hlog | hlog := hlog <;> simpa [hlog, Parallel.stepping] using hid
    rw [hc]
    split at hid'
    · cases hid'
    · exact ⟨hid', by simpa [Ctl.site, Site.jobs]⟩
  · obtain hlog | hlog := hlog <;> simpa [hlog, Followed] using h.followed

theorem execPop_site {p : Pass} {pc : Deque.PopPc cfg.w} {m m' : Mem cfg} (h : execPop i m p pc = some (m', c, w)) :
    c.site.jobs = [] := by
  unfold execPop at h
  split at h <;> cases h <;> rfl

theorem execSteal_site {p : Pass} {start k : ℕ} {pc : Deque.StealPc cfg.w Job} {m m' : Mem cfg}
    (h : execSteal i m p start k pc = some (m', c, w)) : c.site.jobs = [] := by
  unfold execSteal at h
  split at h <;> cases h <;> rfl

theorem execPush_site {k : PushK cfg} {j : Job} {pc : Deque.PushPc cfg.w} {m m' : Mem cfg}
    (h : execPush i m k j pc = some (m', c, w)) : c.site.jobs = (Ctl.push k j pc).site.jobs := by
  unfold execPush at h
  split at h <;> cases h <;> rcases k with ⟨_, _ | _⟩ | _ <;> rfl

theorem Placed.after_of_ne (h : ∀ k x, s.ctl a.1 ≠ .spawnOn k x) : placed.after s a.1 = placed := by
  unfold Placed.after
  split
  · exact absurd ‹_› (h _ _)
  · rfl

/-- A step outside the deques. -/
theorem Homed.outside {x : Watched cfg} (h : Homed x.state x.placed) (ha : Sane x.state a) (htake : TakesOwn x a)
    (hsound : Sound s') (hctl : s'.ctl = (cluster cfg).signal w (Function.update x.state.ctl a.1 c))
    (he : ExecCase a.1 x.state.mem (x.state.ctl a.1) a.2 (s'.mem, c, w)) (ho : (x.state.ctl a.1).owner = .idle)
    (hth : ∀ v, (x.state.ctl a.1).thief v = none) : Homed s' (x.placed.after x.state a.1) := by
  obtain ⟨hmem, hrest, -⟩ := he.handover ho hth
  have hat : ∀ {u j}, j ∈ s'.atHome u → j ∈ x.state.atHome u ∨ a.1 = .agent u ∧ j ∈ c.settled :=
    fun hj => h.sound.outside_atHome hctl hmem ho hrest hj
  have hsub : c.settled ⊆ (x.state.ctl a.1).settled → ∀ u, s'.atHome u ⊆ x.state.atHome u := by
    intro hset u j hj
    obtain hj | ⟨hu, hj⟩ := hat hj
    · exact hj
    · exact List.mem_append_right _ (List.mem_append_right _ (hu ▸ hset hj))
  have mine : ∀ {f}, (x.state.ctl a.1).found = some f → f.1 ∈ x.state.hands a.1 :=
    fun hf => jobs_subset_hands _ (mem_jobs_of_found hf)
  cases he.homing ho hth with
  | aside hlog hset hfound hsite hne =>
    rw [Placed.after_of_ne hne]
    exact h.quiet hsound hctl hlog (hsub hset) (fun i f _ hf => by rw [hfound] at hf; cases hf) hsite
  | @take p j hc hj hlog hc' =>
    rw [Placed.after_of_ne (by rw [hc]; simp)]
    refine h.quiet hsound hctl (Or.inl hlog) (hsub (by rw [hc']; exact List.nil_subset _)) ?_ (by rw [hc, hc']; rfl)
    intro i f ht hf
    rw [hc'] at hf
    cases hf
    exact htake i ht (by rw [hc]; rfl) j hj
  | @begin i p j ht hc hlog hc' =>
    rw [Placed.after_of_ne (by rw [hc]; simp)]
    have hok := h.found i (j, none) (by rw [← ht, hc]; rfl)
    exact h.begin hsound hctl ht (mine (f := (j, none)) (by rw [hc]; rfl)) hc' (fun u j' hj' => hat hj') hlog
      (fun _ _ => rfl) (fun _ => rfl) (fun _ => Iff.rfl) (fun e he _ _ => Or.inl he) h.followed hok (by rw [hc]; rfl)
  | @migrate i v p j ht hc hlog hc' =>
    rw [Placed.after_of_ne (by rw [hc]; simp)]
    have hin := mine (f := (j, some v)) (by rw [hc]; rfl)
    have hborn := h.sound.spawned_of_hold (p := .hands a.1) hin
    -- No step of the job is in progress: it is in the hands of the thief.
    have hno : Parallel.stepping x.state.mem.log j.id = false := by
      refine Bool.eq_false_iff.mpr fun hst => ?_
      obtain ⟨t, j', hj', hid⟩ := h.stepping j.id hst
      have hin' : j' ∈ x.state.hold (.hands t) := jobs_subset_hands _ (site_jobs_subset _ hj')
      obtain rfl := h.sound.eq_of_id (h.sound.spawned_of_hold hin') hborn hid
      obtain rfl : t = a.1 := Place.hands.inj (h.sound.custody.unique j' (.hands t) (.hands a.1) hin' hin)
      rw [hc] at hj'
      cases hj'
    refine h.begin hsound hctl ht hin hc' (fun u j' hj' => hat hj') hlog (fun id hid => by simp [home, hid])
      (fun _ => rfl) (fun j' => by simp) (fun e he j' hj' => ?_)
      ⟨h.found i (j, some v) (by rw [← ht, hc]; rfl), hno, h.followed⟩ (fun u hu => ?_) (by rw [hc]; rfl)
    · obtain rfl | he := List.mem_cons.mp he
      · cases hj'
        exact Or.inr rfl
      · exact Or.inl he
    · simpa [home, eq_comm] using hu
  | @finish i p j ht hc hlog hset hfound hsite =>
    rw [Placed.after_of_ne (by rw [hc]; simp)]
    exact h.finish hsound hctl hc hfound (hsub (by rw [hc]; exact hset)) hlog
  | @spawnOn k y hc hc' hlog =>
    have hid : x.state.mem.mint.id = x.state.mem.spawned + 1 :=
      h.sound.ledger.nextId.trans (Nat.mod_eq_of_lt (ha.spawns (by rw [hc]; rfl)))
    have hafter : x.placed.after x.state a.1 = Function.update x.placed x.state.mem.mint.id (some y) := by
      unfold Placed.after
      rw [hc]
    rw [hafter]
    exact h.spawnOn hsound hctl hid hc hc' (fun u j hj => hat hj) hlog

/-- Every step keeps the host informed. -/
theorem Homed.step {x : Watched cfg} (h : Homed x.state x.placed) (ha : Sane x.state a) (htake : TakesOwn x a)
    (hstep : (cluster cfg).step x.state a = some s') : Homed s' (x.placed.after x.state a.1) := by
  have hsound := h.sound.step ha hstep
  obtain ⟨m, c, w, he, rfl, hctl⟩ := step_inv hstep
  cases hc : x.state.ctl a.1 with
  | pop p pc =>
    have he' := he
    rw [hc] at he'
    generalize a.2 = ch at he'
    generalize hm' : s'.mem = m' at he'
    rw [Placed.after_of_ne (by rw [hc]; simp)]
    cases he' with
    | @pop i _ _ _ ht hp =>
      obtain ⟨d, hd⟩ := execPop_mem hp
      obtain ⟨hsub, hfound⟩ := h.sound.pop_atHome hctl ht hc (hm' ▸ hp)
      refine h.deque hsound hctl (by rw [hm', hd]; rfl) hsub (fun i' j v hi' hf => ?_) (by rw [hc]; exact execPop_site hp)
      obtain rfl : i = i' := Tid.agent.inj (ht.symm.trans hi')
      obtain ⟨rfl, hj⟩ := hfound j v hf
      exact ⟨i, hj, Or.inr ⟨rfl, rfl⟩⟩
    | spurious hp => cases hp
  | push k j pc =>
    have he' := he
    rw [hc] at he'
    generalize a.2 = ch at he'
    generalize hm' : s'.mem = m' at he'
    rw [Placed.after_of_ne (by rw [hc]; simp)]
    cases he' with
    | push hown hext hp =>
      obtain ⟨d, hd⟩ := execPush_mem hp
      have ht := agent_of_push hown hext (hc ▸ h.sound.onTarget a.1)
      obtain ⟨hsub, hfound⟩ := h.sound.push_atHome hctl ht hc (hm' ▸ hp)
      refine h.deque hsound hctl (by rw [hm', hd]; rfl) hsub (fun i' j v _ hf => ?_) (by rw [hc]; exact execPush_site hp)
      rw [hfound] at hf
      cases hf
    | spurious hp => cases hp
  | steal p start k pc =>
    have he' := he
    rw [hc] at he'
    generalize a.2 = ch at he'
    generalize hm' : s'.mem = m' at he'
    rw [Placed.after_of_ne (by rw [hc]; simp)]
    cases he' with
    | steal ht hp =>
      obtain ⟨d, o, -, hd⟩ := execSteal_mem hp
      obtain ⟨hsub, hfound⟩ := h.sound.steal_atHome hctl ha ht hc (hm' ▸ hp)
      refine h.deque hsound hctl (by rw [hm', hd]; rfl) hsub (fun i' j v _ hf => ?_) (by rw [hc]; exact execSteal_site hp)
      obtain ⟨u, rfl, hj⟩ := hfound j v hf
      exact ⟨u, hj, Or.inl rfl⟩
    | spurious hp => cases hp
  | _ => exact h.outside ha htake hsound hctl he (by rw [hc]; rfl) fun v => by rw [hc]; rfl

theorem homed_init : Homed (State.init cfg) fun _ => none := by
  have hempty : ∀ u, (State.init cfg).atHome u = [] := by
    intro u
    have hlive : (State.init cfg).live u = [] := (Deque.Inv.new (ι := Fin cfg.agentCount) cfg.capacity_le).live_eq
    rw [State.atHome, hlive]
    rfl
  refine ⟨sound_init, ?_, fun u j hj => ?_, ?_, ?_, trivial⟩
  · rintro e ⟨⟩
  · rw [hempty] at hj
    cases hj
  · rintro i f ⟨⟩
  · rintro id ⟨⟩

/-- In every run in which the injector gives no agent a job that is at home with another one, the host can follow
    every task. -/
theorem host_can_follow {x : Watched cfg} (h : Steps watch (fun x a => Sane x.state a ∧ TakesOwn x a) (.init cfg) x) :
    Followed x.placed x.state.mem.log := by
  refine Homed.followed (s := x.state) (h.keeps (P := fun x => Homed x.state x.placed) ?_ homed_init)
  rintro x a x' hx ⟨ha, htake⟩ hstep
  obtain ⟨s', hs', rfl⟩ := Option.map_eq_some_iff.mp hstep
  exact hx.step ha htake hs'

end

/-- Agent 1 steals a task that was placed on agent 0, and the host hears of it. -/
theorem host_can_follow_two :
    ∃ x : Watched (.new 2 (by decide) (by decide)), Steps watch (fun x a => Sane x.state a ∧ TakesOwn x a) (.init _) x ∧
      .migrate ⟨1, 0⟩ 0 1 ∈ x.state.mem.log ∧ Followed x.placed x.state.mem.log := by
  obtain ⟨x, hx, hq⟩ := watched_of_actions (fun x a => Sane x.state a ∧ TakesOwn x a)
    ([Tid.calls (.agent 0) (.spawnOn 0)] ++ Tid.go (.agent 0) 8 ++ [Tid.calls (.agent 1) (.driveOnce .worker)] ++
      Tid.go (.agent 1) 13)
    (fun x : Watched Config.two => decide (.migrate ⟨1, 0⟩ 0 1 ∈ x.state.mem.log)) (by decide +kernel)
  exact ⟨x, hx, by simpa using hq, host_can_follow hx⟩

end Krio.Parallel
