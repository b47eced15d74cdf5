import Footstone.WorkerManager

/-!
The system as a transition system. A step is one call of the interface, or one
half of a `RunTask` of some worker: taking the next task, or ending its body.
The steps come in any order, so a resize may fall between the two halves, and a
worker may start another `RunTask` inside a task, as `AddSubTaskRunner` does.
What the body of a task does is steps of its own.
-/

namespace Footstone

inductive Op where
  | createTaskRunner (groupId priority : UInt32) (isSchedulable : Bool)
  | addSubTaskRunner (runner sub : RunnerId) (isTaskRunning : Bool)
  | removeSubTaskRunner (runner sub : RunnerId)
  | removeTaskRunner (runner : RunnerId)
  | resize (size : Nat)
  | addWorker
  | postTask (runner : RunnerId) (task : TaskPtr)
  | postDelayedTask (runner : RunnerId) (now : TimePoint) (task : TaskPtr) (delay : TimeDelta)
  | postIdleTask (runner : RunnerId) (task : IdleTaskPtr)
  | runTask (worker : WorkerId) (clock : Nat → TimePoint)
  | finishTask (worker : WorkerId) (elapsed : Nat → TimeDelta)

namespace State

variable (E : Env)

/-- The runners a call names exist. -/
def known (rs : List RunnerId) (s : State) : Except Fault Unit :=
  if ∀ r ∈ rs, r < s.globalTaskRunnerId then .ok () else .error .stranger

/-- The three `Post` calls: queue the task, then `NotifyWorker`. -/
def post (r : RunnerId) (queue : TaskRunner → TaskRunner) (s : State) : Except Fault State := do
  s.known [r]
  let s := s.modifyRunner r queue
  check (s.lock (s.runner r).worker).isSome
  return s

/-- The worker `w` starts the body of a task taken from `r`. -/
def enter (w : WorkerId) (r : Option RunnerId) (s : State) : State :=
  { s.modifyWorker w fun x => { x with isTaskRunning := true } with
    busy := Function.update s.busy w (r :: s.busy w) }

/-- `RunTask` up to the start of the body. The body of an immediate task belongs
to the manager and is run here. -/
def runTask (w : WorkerId) (clock : Nat → TimePoint) (s : State) : Except Fault State :=
  if w ∈ s.workers then do
    let (next, runner, worker) ← (s.worker w).getNextTask E clock s.runner
    let s := { s.setWorker w worker with runner := runner }
    match next with
    | .nullptr => return s
    | .waited _ => return s
    | .immediate task => (s.enter w none).runImmediate task
    | .task r _ => return s.enter w (some r)
    | .idle r _ _ => return s.enter w (some r)
  else .error .stranger

/-- `AddTime` for each runner of `curr_group`, with its own reading of the clock. -/
def addTimes (elapsed : Nat → TimeDelta) : Nat → Group → Runners → Runners
  | _, [], runner => runner
  | i, r :: rs, runner =>
    addTimes elapsed (i + 1) rs
      (Function.update runner r { runner r with time := (runner r).time + elapsed i })

/-- It writes the times only. -/
theorem addTimes_keeps {γ : Type*} (f : TaskRunner → γ)
    (hf : ∀ x time, f { x with time := time } = f x) (elapsed : Nat → TimeDelta) (i : Nat)
    (g : Group) (runner : Runners) (r : RunnerId) :
    f (addTimes elapsed i g runner r) = f (runner r) := by
  induction g generalizing i runner with
  | nil => rfl
  | cons x g ih =>
    rw [addTimes, ih]
    exact update_keeps f (hf _ _) r

/-- The rest of `RunTask` after the body. -/
def finishTask (w : WorkerId) (elapsed : Nat → TimeDelta) (s : State) : Except Fault State :=
  match s.busy w with
  | [] => .error .stranger
  | _ :: rest =>
    .ok { s.modifyWorker w fun x => { x with isTaskRunning := false } with
      runner := addTimes elapsed 0 (s.worker w).currGroup s.runner
      busy := Function.update s.busy w rest }

end State

def step (E : Env) (s : State) : Op → Except Fault State
  | .createTaskRunner groupId priority isSchedulable =>
    s.createTaskRunner groupId priority isSchedulable
  | .addSubTaskRunner r sub isTaskRunning => do
    s.known [r, sub]
    let (_, s) ← s.addSubTaskRunner r sub isTaskRunning
    return s
  | .removeSubTaskRunner r sub => do
    s.known [r, sub]
    return (s.removeSubTaskRunner r sub).2
  | .removeTaskRunner r => do
    s.known [r]
    return s.removeTaskRunner r
  | .resize size => s.resize E size
  | .addWorker => s.addWorker E
  | .postTask r task => s.post r (TaskRunner.postTask task)
  | .postDelayedTask r now task delay => s.post r (TaskRunner.postDelayedTask E now task delay)
  | .postIdleTask r task => s.post r (TaskRunner.postIdleTask task)
  | .runTask w clock => s.runTask E w clock
  | .finishTask w elapsed => s.finishTask w elapsed

/-- The states a new manager with at least one worker gets into. -/
def Reachable (E : Env) (s : State) : Prop :=
  ∃ n ops, 1 ≤ n ∧ Runs.run (step E) (State.new E n) ops = .ok s

end Footstone
