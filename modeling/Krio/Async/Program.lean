import Krio.Async.Captures
import Krio.Stackless.Agree

/-! Programs of functions that suspend, and what they mean: as they are written, on one stack of calls, and lowered as
the layout says, on a stack of frames.

The host gives its statements a meaning. While a function is suspended the driver runs whatever else there is, and
the world may be another one when it polls again. A lowered function keeps nothing but its frame from one poll to the next. -/

namespace Krio.Async
open Stackless (At leads)

/-- What the host supplies. A yield hands out its value and the world goes on until the next poll; a call to a
    suspending function gives the driver a turn as well. -/
structure Host (S F : Type) where
  Value : Type
  World : Type
  exec : S → (ℕ → Value) → World → (ℕ → Value) × World
  /-- The word that a branch or a switch reads off a value. -/
  word : Value → ℤ
  /-- The slots of the frame of a call, with its receiver and arguments. -/
  args : F → Option Value → List Value → ℕ → Value
  /-- The locals of a function at its entry, read off the slots of its frame. -/
  params : F → (ℕ → Value) → ℕ → Value
  result : F → (ℕ → Value) → Value
  yielded : S → (ℕ → Value) → World → World
  called : World → World
  /-- What the locals hold when a poll begins. -/
  scratch : F → World → ℕ → Value

/-- The functions of a program, with what their host says of them. -/
structure Program (S F : Type) where
  body : F → Cfg S
  isSuspending : F → Bool
  classify : Cfg S → ℕ → ℕ → Option (SuspensionSite F ℕ)
  liveness : F → LivenessMap ℕ
  options : F → TransformOptions

variable {S F : Type}

/-! ## As written -/

/-- A call in progress: it is about to run the statement `idx` of `block`, or waits there for the call to return. -/
structure Act (host : Host S F) where
  fn : F
  block : ℕ
  idx : ℕ
  locals : ℕ → host.Value

/-- The calls in progress, the innermost first; `value` is what the outermost returned. -/
structure Source (host : Host S F) where
  stack : List (Act host)
  world : host.World
  value : Option host.Value

variable {host : Host S F}

/-- The entry of a function whose frame holds `slots`. -/
def Program.enter (p : Program S F) (host : Host S F) (f : F) (slots : ℕ → host.Value) : Option (Act host) :=
  (p.body f).ids.head?.map fun b => ⟨f, b, 0, host.params f slots⟩

/-- A caller gets the value that its call returned. -/
def Act.receive (p : Program S F) (v : host.Value) (a : Act host) : Option (Act host) :=
  match p.classify (p.body a.fn) a.block a.idx with
  | some (.crossFnCall _ _ _ result) => some ⟨a.fn, a.block, a.idx + 1, Function.update a.locals result v⟩
  | _ => none

namespace Source

/-- The innermost call has returned `v`. -/
def returns (p : Program S F) (v : host.Value) (rest : List (Act host)) (w : host.World) : Option (Source host) :=
  match rest with
  | [] => some ⟨[], w, some v⟩
  | a :: rest => (a.receive p v).map fun a => ⟨a :: rest, w, none⟩

/-- The innermost call runs the statement `s`. -/
def statement (p : Program S F) (s : S) (a : Act host) (rest : List (Act host)) (w : host.World) : Option (Source host) :=
  match p.classify (p.body a.fn) a.block a.idx with
  | none =>
    let (locals, w) := host.exec s a.locals w
    some ⟨⟨a.fn, a.block, a.idx + 1, locals⟩ :: rest, w, none⟩
  | some (.directYield _) => some ⟨⟨a.fn, a.block, a.idx + 1, a.locals⟩ :: rest, host.yielded s a.locals w, none⟩
  | some (.crossFnCall callee receiver args _) =>
    (p.enter host callee (host.args callee (receiver.map a.locals) (args.map a.locals))).map fun b =>
      ⟨b :: a :: rest, host.called w, none⟩

/-- The innermost call comes to the end of its block. -/
def terminator (p : Program S F) (a : Act host) (rest : List (Act host)) (w : host.World) : Option (Source host) :=
  match leads (fun x => host.word (a.locals x)) ((p.body a.fn).term a.block) with
  | .block b => some ⟨⟨a.fn, b, 0, a.locals⟩ :: rest, w, none⟩
  | .returned => returns p (host.result a.fn a.locals) rest w
  | .dead => none

def step (p : Program S F) (c : Source host) : Option (Source host) :=
  match c.stack with
  | [] => none
  | a :: rest =>
    match ((p.body a.fn).stmts a.block)[a.idx]? with
    | some s => statement p s a rest c.world
    | none => terminator p a rest c.world

end Source

/-! ## Lowered -/

/-- The state of a call between two polls. -/
structure Frame (host : Host S F) where
  fn : F
  state : ℕ
  slots : ℕ → host.Value

/-- A poll in progress, of the function of `frame`. -/
structure Active (host : Host S F) where
  frame : Frame host
  block : ℕ
  idx : ℕ
  locals : ℕ → host.Value

/-- The polls in progress, the innermost first, and the frames that they have not come to, the next one first. Where no
    poll is in progress the driver begins one, of the outermost frame. -/
structure Lowered (host : Host S F) where
  native : List (Active host)
  frames : List (Frame host)
  world : host.World
  value : Option host.Value

namespace StateMachineLayout
variable {V : Type} (l : StateMachineLayout F V) (b : ℕ)

/-- What is saved at the end of a block. -/
def savesAt : List (ℕ × V) := (l.yieldSaves.filter (·.1 = b)).flatMap (·.2)

/-- What is loaded at the start of a block. -/
def loadsAt : List (ℕ × V) := (l.resumeLoads.filter (·.1 = b)).flatMap (·.2)

/-- The kind of a block, if it is one of a suspension. -/
def kindAt : Option (BlockKind F V) := (l.blockKinds.find? (·.1 = b)).map (·.2)

/-- The state after the suspension at the end of a block. -/
def nextState : ℕ := ((l.yieldBlocks.find? (·.1 = b)).map (·.2)).getD 0

end StateMachineLayout

def Program.lower (p : Program S F) (f : F) : Option (Cfg S × StateMachineLayout F ℕ) :=
  transformToStateMachineWithOptions (p.body f) f p.isSuspending p.classify (p.liveness f) (p.options f)

namespace Lowered

/-- The locals at the resume entry `b`, once it has loaded what it lists. -/
def arrive (l : StateMachineLayout F ℕ) (frame : Frame host) (b : ℕ) (w : host.World) : ℕ → host.Value :=
  loadAll (l.loadsAt b) frame.slots (if frame.state = 0 then host.params frame.fn frame.slots else host.scratch frame.fn w)

/-- Poll the function of `frame`: the dispatcher goes to the resume entry of its state. -/
def dispatch (p : Program S F) (frame : Frame host) (native : List (Active host)) (frames : List (Frame host))
    (w : host.World) : Option (Lowered host) := do
  let (_, l) ← p.lower frame.fn
  let b ← l.resumeEntries[frame.state]?
  some ⟨⟨frame, b, 0, arrive l frame b w⟩ :: native, frames, w, none⟩

/-- The frame that the function leaves behind when it suspends at the end of its block. -/
def suspend (l : StateMachineLayout F ℕ) (x : Active host) : Frame host :=
  ⟨x.frame.fn, l.nextState x.block, saveAll (l.savesAt x.block) x.locals x.frame.slots⟩

/-- All polls in progress return to the driver; `inner` are the frames inside of theirs. -/
def unwind (native : List (Active host)) (inner : List (Frame host)) (w : host.World) : Lowered host :=
  ⟨[], (native.map (·.frame)).reverse ++ inner, w, none⟩

/-- The innermost poll has returned `v`: its frame is popped, and its caller goes on at the done block. -/
def returns (p : Program S F) (v : host.Value) (rest : List (Active host)) (frames : List (Frame host)) (w : host.World) :
    Option (Lowered host) :=
  match rest with
  | [] => some ⟨[], frames, w, some v⟩
  | x :: rest => do
    let (_, l) ← p.lower x.frame.fn
    match l.kindAt x.block with
    | some (.crossFnCallResume doneBlock _ _ result _) =>
      some ⟨⟨x.frame, doneBlock, 0, Function.update x.locals result v⟩ :: rest, frames, w, none⟩
    | _ => none

/-- The innermost poll runs the statement `s` of its block; the last one of a block of a suspension is not run. -/
def statement (cfg : Cfg S) (l : StateMachineLayout F ℕ) (s : S) (x : Active host) (rest : List (Active host))
    (frames : List (Frame host)) (w : host.World) : Lowered host :=
  match if x.idx + 1 = cfg.statementCount x.block then l.kindAt x.block else none with
  | some .directYield => unwind rest (suspend l x :: frames) (host.yielded s x.locals w)
  | some (.crossFnCallInit _ receiver args _ callee) =>
    unwind rest (suspend l x :: ⟨callee, 0, host.args callee (receiver.map x.locals) (args.map x.locals)⟩ :: frames)
      (host.called w)
  | _ =>
    let (locals, w) := host.exec s x.locals w
    ⟨⟨x.frame, x.block, x.idx + 1, locals⟩ :: rest, frames, w, none⟩

/-- The innermost poll comes to the end of its block. -/
def terminator (p : Program S F) (cfg : Cfg S) (x : Active host) (rest : List (Active host)) (frames : List (Frame host))
    (w : host.World) : Option (Lowered host) :=
  match leads (fun y => host.word (x.locals y)) (cfg.term x.block) with
  | .block b => some ⟨⟨x.frame, b, 0, x.locals⟩ :: rest, frames, w, none⟩
  | .returned => returns p (host.result x.frame.fn x.locals) rest frames w
  | .dead => none

/-- The innermost poll goes on in its block. A resume block polls the call that it waits for. -/
def run (p : Program S F) (x : Active host) (rest : List (Active host)) (frames : List (Frame host)) (w : host.World) :
    Option (Lowered host) := do
  let (cfg, l) ← p.lower x.frame.fn
  match l.kindAt x.block, frames with
  | some (.crossFnCallResume ..), [] => none
  | some (.crossFnCallResume ..), frame :: frames => dispatch p frame (x :: rest) frames w
  | _, _ =>
    match (cfg.stmts x.block)[x.idx]? with
    | some s => some (statement cfg l s x rest frames w)
    | none => terminator p cfg x rest frames w

def step (p : Program S F) (c : Lowered host) : Option (Lowered host) :=
  match c.native, c.frames with
  | [], [] => none
  | [], frame :: frames => dispatch p frame [] frames c.world
  | x :: rest, frames => run p x rest frames c.world

end Lowered

end Krio.Async
