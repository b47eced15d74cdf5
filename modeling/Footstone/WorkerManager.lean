import Footstone.Worker

/-!
`WorkerManager` (`worker_manager.h`, `worker_manager.cc`) and the entry points
of `TaskRunner` that reach into a worker. The state is the manager with the heap
of workers and task runners it refers to; `workers_` owns the workers, so a weak
pointer to a worker locks exactly while the worker is in it. The loops over
`workers_[i]` run over the list of the workers they visit.
-/

namespace Footstone

structure State where
  workers : List WorkerId
  index : Nat
  size : Nat
  worker : WorkerId → Worker
  nextWorker : WorkerId := 0
  runner : Runners
  globalTaskRunnerId : RunnerId := 0
  /-- The `RunTask` calls each worker's thread is in, innermost first, with the
  runner the task was taken from. Not a field of the source. -/
  busy : WorkerId → List (Option RunnerId) := fun _ => []

namespace State

variable (E : Env)

def lock (s : State) (w : Option WorkerId) : Option WorkerId := w.filter (· ∈ s.workers)

def setWorker (w : WorkerId) (x : Worker) (s : State) : State :=
  { s with worker := Function.update s.worker w x }

def modifyWorker (w : WorkerId) (f : Worker → Worker) (s : State) : State :=
  s.setWorker w (f (s.worker w))

def modifyRunner (r : RunnerId) (f : TaskRunner → TaskRunner) (s : State) : State :=
  { s with runner := Function.update s.runner r (f (s.runner r)) }

/-- `workers_[0]`, …, `workers_[n - 1]`. -/
def subscripts (n : Nat) (s : State) : Except Fault (List WorkerId) :=
  if n ≤ s.workers.length then .ok (s.workers.take n) else .error .subscript

/-- `workers_[index_]`. -/
def cursor (s : State) : Except Fault WorkerId :=
  match s.workers[s.index]? with
  | some w => .ok w
  | none => .error .cursor

/-- `size - 1 ? 0 : ++index_`. -/
def advance (size index : Nat) : Nat := if (size : Int) - 1 ≠ 0 then 0 else index + 1

def check (b : Bool) : Except Fault Unit := if b then .ok () else .error .check

/-! ## Creating workers -/

def pushWorker (s : State) : State :=
  { s with
    workers := s.workers ++ [s.nextWorker]
    worker := Function.update s.worker s.nextWorker { groupId := E.groupId s.nextWorker }
    nextWorker := s.nextWorker + 1 }

def createWorkers : Nat → State → State
  | 0, s => s
  | n + 1, s => createWorkers n (s.pushWorker E)

/-- The constructor `WorkerManager(size)`. -/
def new (size : Nat) : State :=
  createWorkers E size
    { workers := [], index := 0, size := size
      worker := fun _ => { groupId := 0 }
      runner := fun _ => { priority := 1, groupId := kDefaultGroupId, isSchedulable := true } }

/-! ## Moving runner-specific data -/

def moveTaskRunnerSpecificNoLock (r : RunnerId) (src dst : WorkerId) (s : State) : State :=
  s.modifyWorker src (Worker.addImmediateTask (.takeSpecific r src dst))

/-- The body of an immediate task. -/
def runImmediate (s : State) : ImmediateTask → Except Fault State
  | .takeSpecific r src dst => do
    check (src ∈ s.workers)
    let (keys, worker) := (s.worker src).getMovedSpecificKeys r
    let (specific, worker) := worker.getMovedSpecific r
    let s := s.setWorker src worker
    if dst ∈ s.workers then
      return s.modifyWorker dst (Worker.addImmediateTask (.installSpecific r dst keys specific))
    else return s
  | .installSpecific r dst keys specific =>
    if dst ∈ s.workers then
      .ok (s.modifyWorker dst fun w => (w.updateSpecificKeys r keys).updateSpecific r specific)
    else .ok s

/-! ## `Balance`, the growing branch -/

/-- What the first loop of the growing branch carries. -/
structure Gathered where
  groupsSize : Nat := 0
  groups : List Group := []
  curWorkerGroup : List Nat := []
  worker : WorkerId → Worker

def gather (runner : Runners) : List WorkerId → Gathered → Except Fault Gathered
  | [], acc => .ok acc
  | w :: ws, acc => do
    let (ret, worker) ← (acc.worker w).retainActiveAndUnschedulable runner
    gather runner ws
      { groupsSize := acc.groupsSize + (acc.worker w).runningGroups.length
        groups := acc.groups ++ ret
        curWorkerGroup := acc.curWorkerGroup ++ [worker.runningGroups.length]
        worker := Function.update acc.worker w worker }

/-- The positions `index` the second loop visits, from `index_` once around. -/
def ring (index size : Nat) : List Nat :=
  (List.range size).map fun k =>
    let i := index + k
    if size ≤ i then i % size else i

/-- `cnt < groups.size()` in `std::size_t`: a negative `cnt` turns into a number
above every list's size. -/
def lessSize (cnt : Int) (size : Nat) : Bool := 0 ≤ cnt && cnt < size

/-- The two inner loops over the runners of the groups that go to `dst`. -/
def moveSpecifics (dst : WorkerId) : List RunnerId → State → Except Fault State
  | [], s => .ok s
  | r :: rs, s =>
    match s.lock (s.runner r).worker with
    | some src => moveSpecifics dst rs (s.moveTaskRunnerSpecificNoLock r src dst)
    | none => .error .check

/-- The second loop. What is left of `groups` at its end goes away with the
local list. -/
def distribute (resizeGroupSize : Nat) (curWorkerGroup : List Nat) :
    List Nat → List Group → State → Except Fault State
  | [], _, s => .ok s
  | index :: rest, groups, s =>
    match s.workers[index]? with
    | none => .error .cursor
    | some w => do
      let cnt : Int := (resizeGroupSize : Int) - (curWorkerGroup.getD index 0 : Nat)
      let (list, groups) :=
        if lessSize cnt groups.length then groups.splitAt cnt.toNat else (groups, [])
      let s ← moveSpecifics w list.flatten s
      distribute resizeGroupSize curWorkerGroup rest groups (s.modifyWorker w (Worker.bindList list))

/-- `std::ceil` is applied to the quotient of two integers, which is rounded
down already. -/
def grow (size : Nat) (s : State) : Except Fault State := do
  let pool ← s.subscripts s.size
  let acc ← gather s.runner pool { worker := s.worker }
  let resizeGroupSize := acc.groupsSize / size
  let index := s.size
  let s ← distribute resizeGroupSize acc.curWorkerGroup (ring index size) acc.groups
    { s with worker := acc.worker, index := index }
  return { s with size := size }

/-! ## `Balance`, the shrinking branch -/

/-- What the first loop of the shrinking branch carries. -/
structure Unbound where
  reduceSize : Int
  groups : List Group := []
  worker : WorkerId → Worker

/-- The loop runs over `workers_[i]` for `i = size_ - 1` down to `0`; the end of
the list is `i = -1`. -/
def unbindWorkers (runner : Runners) : List WorkerId → Unbound → Except Fault Unbound
  | [], acc => if 0 < acc.reduceSize then .error .subscript else .ok acc
  | w :: ws, acc =>
    if ws ≠ [] ∨ 0 < acc.reduceSize then
      if (acc.worker w).hasUnschedulableRunner runner then unbindWorkers runner ws acc
      else
        let (ret, worker) := (acc.worker w).unBindAll
        unbindWorkers runner ws
          { reduceSize := acc.reduceSize - 1
            groups := acc.groups ++ ret
            worker := Function.update acc.worker w worker }
    else .ok acc

/-- The second loop, over `workers_[0]` to `workers_[size - 1]`. -/
def retainWorkers (runner : Runners) : List WorkerId → List Group → (WorkerId → Worker) →
    Except Fault (List Group × (WorkerId → Worker))
  | [], groups, worker => .ok (groups, worker)
  | w :: ws, groups, worker => do
    let (ret, x) ← (worker w).retainActiveAndUnschedulable runner
    retainWorkers runner ws (groups ++ ret) (Function.update worker w x)

/-- `dst->UpdateSpecificKeys(r, src->GetMovedSpecificKeys(r))`. -/
def takeOverSpecificKeys (r : RunnerId) (src dst : WorkerId) (s : State) : State :=
  let (keys, worker) := (s.worker src).getMovedSpecificKeys r
  (s.setWorker src worker).modifyWorker dst (Worker.updateSpecificKeys r keys)

/-- `dst->UpdateSpecific(r, src->GetMovedSpecific(r))`. -/
def takeOverSpecific (r : RunnerId) (src dst : WorkerId) (s : State) : State :=
  let (specific, worker) := (s.worker src).getMovedSpecific r
  (s.setWorker src worker).modifyWorker dst (Worker.updateSpecific r specific)

/-- The body of the loop over the runners of a group that `w` was bound to. -/
def adopt (w : WorkerId) (s : State) (r : RunnerId) : State :=
  let s := match s.lock (s.runner r).worker with
    | some orig => (s.takeOverSpecificKeys r orig w).takeOverSpecific r orig w
    | none => s
  s.modifyRunner r fun x => { x with worker := some w }

/-- The third loop. -/
def rebind (size : Nat) : List Group → State → Except Fault State
  | [], s => .ok s
  | group :: groups, s => do
    let w ← s.cursor
    let worker ← (s.worker w).bind s.runner group
    let s := group.foldl (adopt w) (s.setWorker w worker)
    rebind size groups { s with index := advance size s.index }

/-- The last loop, from `i = k - 1` down while `i > size - 1`. -/
def terminateWorkers (size : Nat) : Nat → State → Except Fault State
  | 0, s => .ok s
  | i + 1, s =>
    if (i : Int) > (size : Int) - 1 then
      match s.workers[i]? with
      | none => .error .subscript
      | some w =>
        let s := s.modifyWorker w fun x => { x with isTerminated := true }
        terminateWorkers size i { s with workers := s.workers.dropLast }
    else .ok s

def shrink (size : Nat) (reduceSize : Int) (s : State) : Except Fault State := do
  let pool ← s.subscripts s.size
  let acc ← unbindWorkers s.runner pool.reverse { reduceSize := reduceSize, worker := s.worker }
  check (E.ndebug || acc.reduceSize == 0)
  let s := { s with worker := acc.worker }
  if 0 < acc.reduceSize then return s
  let pool ← s.subscripts size
  let (groups, worker) ← retainWorkers s.runner pool acc.groups s.worker
  let s := { s with worker := worker, index := if size ≤ s.index then 0 else s.index }
  let s ← rebind size groups s
  let s := { s with size := size }
  terminateWorkers size s.size s

/-! ## The interface -/

def balance (increaseWorkerCount : Int) (s : State) : Except Fault State := do
  let size : Int := s.size + increaseWorkerCount
  if 0 < increaseWorkerCount then s.grow size.toNat
  else
    check (0 < size)
    s.shrink E size.toNat (0 - increaseWorkerCount)

def resize (size : Nat) (s : State) : Except Fault State :=
  if size = s.size then .ok s
  else
    let s' := if s.size < size then s.createWorkers E (size - s.size) else s
    s'.balance E ((size : Int) - s.size)

/-- `AddWorker` of a worker that was just constructed. -/
def addWorker (s : State) : Except Fault State := (s.pushWorker E).balance E 1

/-- Set `worker_` and `Bind` the group of one runner. -/
def bindRunner (r : RunnerId) (w : WorkerId) (s : State) : Except Fault State := do
  let s := s.modifyRunner r fun x => { x with worker := some w }
  let worker ← (s.worker w).bind s.runner [r]
  return s.setWorker w worker

def updateWorkerSpecific (w : WorkerId) (r : RunnerId) (s : State) : State :=
  (s.modifyRunner r fun x => { x with worker := some w }).modifyWorker w fun x =>
    (x.updateSpecificKeys r KeyArray.empty).updateSpecific r SpecificArray.empty

def addTaskRunner (r : RunnerId) (s : State) : Except Fault State := do
  let w ← s.cursor
  let s ← s.bindRunner r w
  let s := s.updateWorkerSpecific w r
  return { s with index := advance s.size s.index }

/-- The new runner gets the id `globalTaskRunnerId`. -/
def createTaskRunner (groupId priority : UInt32) (isSchedulable : Bool) (s : State) :
    Except Fault State :=
  let r := s.globalTaskRunnerId
  let s := { s with
    globalTaskRunnerId := r + 1
    runner := Function.update s.runner r
      { groupId := groupId, priority := priority, isSchedulable := isSchedulable } }
  if isSchedulable then
    if groupId ≠ kDefaultGroupId then
      match s.workers.find? fun w => (s.worker w).groupId == groupId with
      | some w => s.bindRunner r w
      | none => do
        let w ← s.cursor
        bindRunner r w { s with index := advance s.size s.index }
    else s.addTaskRunner r
  else .ok s

def removeTaskRunner (r : RunnerId) (s : State) : State :=
  { s with worker := fun w =>
      if w ∈ s.workers then (s.worker w).unBind r else s.worker w }

/-- `AddSubTaskRunner`. The `RunTask` calls it makes with `is_task_running` set
are steps of the worker of their own. -/
def addSubTaskRunner (r sub : RunnerId) (isTaskRunning : Bool) (s : State) :
    Except Fault (Bool × State) :=
  match s.lock (s.runner r).worker with
  | none => .ok (false, s)
  | some w => do
    let worker ← (s.worker w).bindGroup r sub
    let worker := { worker with isStackingMode := isTaskRunning || worker.isStackingMode }
    return (true, (s.setWorker w worker).modifyRunner r fun x => { x with hasSubRunner := true })

def removeSubTaskRunner (r sub : RunnerId) (s : State) : Bool × State :=
  if (s.runner r).hasSubRunner then
    match s.lock (s.runner r).worker with
    | none => (false, s)
    | some w =>
      (true, (s.modifyWorker w (Worker.unBind sub)).modifyRunner r fun x =>
        { x with hasSubRunner := false })
  else (false, s)

end State

end Footstone
