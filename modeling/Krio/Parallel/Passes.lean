import Krio.Parallel.Inversion

/-! The pass of `drive_once` that a thread is in, and whether it is in `run`. A thread gets into either only by
calling it. -/

namespace Krio.Parallel
open Lib

/-- The pass whose step of a task calls an operation. -/
def Site.pass : Site → Option Pass
  | .host => none
  | .task p _ => some p

namespace Ctl
variable {cfg : Config}

/-- The pass of `drive_once` that a thread is in. -/
def pass : Ctl cfg → Option Pass
  | .task p _ | .drive p _ | .pop p _ | .steal p _ _ _ | .park p _ _ | .push (.deposit p _) _ _
  | .inject (.spill (.deposit p _)) _ | .notify (.surplus p) _ | .enter (.pass p) _ => some p
  | .push (.spawnOn k _) _ _ | .inject (.spill (.spawnOn k _)) _ | .inject (.site k) _ | .notify (.site k) _
  | .hasWork (.site k) _ | .enter (.site k) _ | .release (.stopTheWorld k) _ | .release (.resumeWorld k) _
  | .release (.shutdown k) _ | .wake k _ _ | .spawn k | .spawnOn k _ | .stopTheWorld k _ | .requestSafepoint k _
  | .worldIsStopped k | .shutdown k _ | .poll k => k.pass
  | _ => none

/-- In `run`, or in a pass that it made. -/
def inRun (c : Ctl cfg) : Bool :=
  match c with
  | .run _ | .hasWork .run _ | .enter .run _ => true
  | c => c.pass.any Pass.inRun

/-- In `run`, past its look at the safepoint at the head of the loop, or in the pass that follows, and not yet asleep. -/
def pastLook (c : Ctl cfg) : Bool :=
  match c with
  | .run .publish | .run .recheck | .run .park | .hasWork .run _ => true
  | .run _ | .enter .run _ => false
  | c => c.inRun

end Ctl

section
variable {cfg : Config} {t : Tid cfg} {m m' : Mem cfg} {c c' : Ctl cfg} {ch : Choice cfg} {w : Option (Addr cfg)}

@[simp] theorem inRun_siteResume (k : Site) : (k.resume : Ctl cfg).inRun = k.pass.any Pass.inRun := by cases k <;> rfl

@[simp] theorem inRun_finish {p : Pass} (h : p.inRun = false) : (p.finish : Ctl cfg).inRun = false := by
  simp [Pass.finish, h, Ctl.inRun, Ctl.pass]

theorem inRun_start {k : Site} {o : Call cfg} (h : k.pass.any Pass.inRun = false) (ho : o ≠ .run) :
    (o.start k).inRun = false := by
  cases o <;> first | exact absurd rfl ho | exact h | rfl

theorem awaken_inRun (t : Tid cfg) (r : Addr cfg) (c : Ctl cfg) : (awaken t r c).inRun = c.inRun := by
  unfold awaken
  split <;> (try split) <;> first | rfl | (rename_i k _ _; cases k <;> rfl)

/-- A thread gets into `run` only when its host calls it. -/
theorem ExecCase.inRun (h : ExecCase t m c ch (m', c', w)) (hc : c.inRun = false)
    (hch : c = .host → ch ≠ .call .run) : c'.inRun = false := by
  cases h with
  | callHost h =>
    obtain ⟨-, -, rfl, -⟩ := execCall_inv h
    exact inRun_start hc fun ho => hch rfl (by rw [ho])
  | callTask h =>
    obtain ⟨ha, -, rfl, -⟩ := execCall_inv h
    refine inRun_start hc ?_
    rintro rfl
    cases t <;> cases ha
  | suspend _ h =>
    unfold Parallel.suspend at h
    split at h <;> cases h <;> exact hc
  | run _ h => cases hc
  | drive _ h =>
    unfold execDrive at h
    (repeat' split at h) <;> cases h <;> first | exact hc | exact inRun_finish hc | rfl
  | pop _ h =>
    unfold execPop at h
    split at h <;> cases h <;> first | exact hc | rfl
  | steal _ h =>
    unfold execSteal at h
    split at h <;> cases h <;> first | exact hc | rfl
  | @push a k j pc r _ _ h =>
    unfold execPush at h
    rcases k with ⟨p, _ | _⟩ | ⟨k, x⟩ <;> split at h <;> cases h <;> exact hc
  | park _ h =>
    unfold execPark at h
    split at h <;> cases h <;> exact hc
  | @inject k j => rcases k with (⟨p, _ | _⟩ | _) | _ <;> exact hc
  | @notify k pc r h =>
    unfold execNotify at h
    rcases k with p | k <;> (repeat' split at h) <;> cases h <;> first | exact hc | exact (inRun_siteResume k).trans hc
  | @hasWork k pc r h =>
    unfold execHasWork at h
    rcases k with _ | k
    · cases hc
    · (repeat' split at h) <;> cases h <;> first | exact hc | exact (inRun_siteResume k).trans hc
  | @enter k pc r h =>
    unfold execEnter at h
    rcases k with _ | p | k
    · cases hc
    · split at h <;> cases h <;> exact hc
    · split at h <;> cases h <;> first | exact hc | exact (inRun_siteResume k).trans hc
  | @release k pc r h =>
    unfold execRelease at h
    rcases k with k | k | k <;> split at h <;> cases h <;> first | exact hc | exact (inRun_siteResume k).trans hc
  | spawn | spawnOn => exact hc
  | @wake k id pc r h =>
    simp only [execWake] at h
    split at h <;> cases h <;> first | exact hc | exact (inRun_siteResume k).trans hc
  | @stopTheWorld k pc r h =>
    cases pc <;> simp only [execStop] at h <;> (repeat' split at h) <;> cases h <;>
      first | exact hc | exact (inRun_siteResume k).trans hc
  | @requestSafepoint k pc r h =>
    cases pc <;> simp only [execRequestSafepoint] at h <;> split at h <;> cases h <;>
      first | exact hc | exact (inRun_siteResume k).trans hc
  | @worldIsStopped k => exact (inRun_siteResume k).trans hc
  | @shutdown k pc r h =>
    unfold execShutdown at h
    (repeat' split at h) <;> cases h <;> first | exact hc | exact (inRun_siteResume k).trans hc
  | @poll k =>
    split
    · exact hc
    · exact (inRun_siteResume k).trans hc
  | spurious h =>
    unfold spuriousWake at h
    split at h <;> cases h
    · rename_i k _
      cases k <;> exact hc
    · rename_i k _
      cases k <;> exact hc
    · exact hc

/-- A thread that does not call `run` stays out of it. -/
theorem inRun_of_step {s s' : State cfg} {a : Act cfg} {t : Tid cfg} (hs : (s.ctl t).inRun = false)
    (ha : a.1 = t → s.ctl t = .host → a.2 ≠ .call .run) (hstep : (cluster cfg).step s a = some s') : (s'.ctl t).inRun = false := by
  obtain ⟨m, c, w, he, -, hctl⟩ := step_inv hstep
  refine Program.forall_ctl (P := fun u c => u = t → c.inRun = false) ?_ hctl ?_ (fun u _ hu => by rw [hu]; exact hs) t rfl
  · exact fun u r c hc hu => (awaken_inRun u r c).trans (hc hu)
  · intro ht
    rw [ht] at he
    exact he.inRun hs (ha ht)

theorem inRun_of_pastLook (h : c.pastLook = true) : c.inRun = true := by
  unfold Ctl.pastLook at h
  split at h <;> first | rfl | cases h | exact h

theorem awaken_pastLook (t : Tid cfg) (r : Addr cfg) (c : Ctl cfg) : (awaken t r c).pastLook = c.pastLook := by
  unfold awaken
  split <;> (try split) <;> first | rfl | (rename_i k _ _; cases k <;> rfl)

/-- Past the look come only those who looked, and found no stop. -/
theorem ExecCase.pastLook (h : ExecCase t m c ch (m', c', w)) (hc' : c'.pastLook = true) :
    c.pastLook = true ∨ c = .run .top ∧ ch = .go ∧ m.safepoint.requested = false ∧ m' = m := by
  cases hr : c.inRun with
  | false =>
    -- It has just called `run`, or is in it no more than before.
    have hin := inRun_of_pastLook hc'
    by_cases hcall : c = .host ∧ ch = .call .run
    · obtain ⟨rfl, rfl⟩ := hcall
      cases h with
      | callHost h =>
        obtain ⟨-, -, rfl, -⟩ := execCall_inv h
        cases hc'
    · rw [h.inRun hr fun hh hch => hcall ⟨hh, hch⟩] at hin
      cases hin
  | true =>
    cases h with
    | @run i pc o r ht h =>
      unfold execRun at h
      (repeat' split at h) <;> cases h <;>
        first | exact .inl rfl | exact .inr ⟨rfl, rfl, Bool.eq_false_iff.mpr (by assumption), rfl⟩ | cases hc'
    | @enter k pc r h =>
      unfold execEnter at h
      rcases k with _ | p | k
      · split at h <;> cases h <;> cases hc'
      · exact .inl hr
      · exact .inl hr
    | @hasWork k pc r h => rcases k with _ | k <;> first | exact .inl rfl | exact .inl hr
    | spurious h =>
      unfold spuriousWake at h
      split at h <;> cases h
      · rename_i k _
        rcases k with _ | p | k <;> first | exact .inl hr | cases hc'
      · exact .inl hr
      · exact .inl hr
    | _ => exact .inl hr

end

end Krio.Parallel
