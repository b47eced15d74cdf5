import Footstone.Lib.HeapOrder

/-!
`TaskRunner` (`task_runner.h`, `task_runner.cc`): its queues and the fields the
workers and the manager read. A runner is named by its `id_`, which stands for
the pointers to it as well; `global_task_runner_id` is taken not to wrap. A task
is named by a number, and a `unique_ptr` to one may be null. The clock is an
argument. Mutexes guard single calls and leave no trace here.
-/

namespace Footstone

abbrev RunnerId := Nat
abbrev WorkerId := Nat

/-- Nanoseconds in an `int64_t`. -/
abbrev TimeDelta := Int64
abbrev TimePoint := Int64

def TimeDelta.max : TimeDelta := Int64.maxValue
def TimePoint.max : TimePoint := Int64.maxValue

structure Task where
  id : Nat
  deriving DecidableEq, Repr

structure IdleTask where
  id : Nat
  deriving DecidableEq, Repr

abbrev TaskPtr := Option Task
abbrev IdleTaskPtr := Option IdleTask
abbrev DelayedEntry := TimePoint × TaskPtr

/-- The order of `DelayedEntryCompare`: the earliest deadline on top. -/
def DelayedEntry.key (e : DelayedEntry) : Int := e.1.toInt

/-- What the sources leave to the build and to the libraries. -/
structure Env where
  /-- Built with `NDEBUG`, so that `TDF_BASE_DCHECK` does nothing. -/
  ndebug : Bool
  /-- The heap behind `std::priority_queue`. -/
  heap : HeapOrder.Discipline DelayedEntry DelayedEntry.key
  /-- What the uninitialised `group_id_` of a new worker reads as. -/
  groupId : WorkerId → UInt32

/-- What a call runs into instead of returning. -/
inductive Fault where
  /-- A `TDF_BASE_CHECK`, or a `TDF_BASE_DCHECK` of a debug build, fails and aborts. -/
  | check
  /-- `workers_[i]` of a loop lies outside `workers_`. -/
  | subscript
  /-- `workers_[index_]` lies outside `workers_`. -/
  | cursor
  /-- A list iterator is used past the end of its list. -/
  | iterator
  /-- `front()`, `back()` or `[0]` of an empty group. -/
  | emptyGroup
  /-- The caller names an object there is none of. -/
  | stranger
  deriving DecidableEq, Repr

def kDefaultGroupId : UInt32 := 0

/-- A debug build, on which the uninitialised group ids read as 0. -/
def Env.debug : Env where
  ndebug := false
  heap := HeapOrder.sorted _ _
  groupId _ := kDefaultGroupId

structure TaskRunner where
  taskQueue : List TaskPtr := []
  idleTaskQueue : List IdleTaskPtr := []
  delayedTaskQueue : List DelayedEntry := []
  worker : Option WorkerId := none
  hasSubRunner : Bool := false
  priority : UInt32
  groupId : UInt32
  time : TimeDelta := 0
  isSchedulable : Bool

namespace TaskRunner

variable (E : Env)

def postTask (task : TaskPtr) (r : TaskRunner) : TaskRunner :=
  { r with taskQueue := r.taskQueue ++ [task] }

def postDelayedTask (now : TimePoint) (task : TaskPtr) (delay : TimeDelta) (r : TaskRunner) :
    TaskRunner :=
  { r with delayedTaskQueue := E.heap.push r.delayedTaskQueue (now + delay, task) }

def postIdleTask (task : IdleTaskPtr) (r : TaskRunner) : TaskRunner :=
  { r with idleTaskQueue := r.idleTaskQueue ++ [task] }

def popIdleTask (r : TaskRunner) : IdleTaskPtr × TaskRunner :=
  match r.idleTaskQueue with
  | [] => (none, r)
  | t :: ts => (t, { r with idleTaskQueue := ts })

def popTaskFromDelayedQueueNoLock (now : TimePoint) (r : TaskRunner) : TaskPtr × TaskRunner :=
  match r.delayedTaskQueue with
  | [] => (none, r)
  | (deadline, task) :: _ =>
    if now < deadline then (none, r)
    else (task, { r with delayedTaskQueue := E.heap.pop r.delayedTaskQueue })

/-- The loop of `GetNext`. Each round pops one delayed entry, so as many rounds
as there are entries are enough; a null task ends it early. -/
def drainDelayed (now : TimePoint) : Nat → TaskRunner → TaskRunner
  | 0, r => r
  | n + 1, r =>
    match popTaskFromDelayedQueueNoLock E now r with
    | (some task, r') => drainDelayed now n { r' with taskQueue := r'.taskQueue ++ [some task] }
    | (none, r') => r'

def getNext (now : TimePoint) (r : TaskRunner) : TaskPtr × TaskRunner :=
  let r := drainDelayed E now r.delayedTaskQueue.length r
  match r.taskQueue with
  | [] => (none, r)
  | t :: ts => (t, { r with taskQueue := ts })

def getNextTimeDelta (now : TimePoint) (r : TaskRunner) : TimeDelta :=
  match r.delayedTaskQueue with
  | [] => TimeDelta.max
  | (deadline, _) :: _ => deadline - now

/-- What the placement of a runner rests on. -/
def place (r : TaskRunner) : Option WorkerId × UInt32 × Bool :=
  (r.worker, r.groupId, r.isSchedulable)

@[simp] theorem postTask_place (task : TaskPtr) (r : TaskRunner) :
    (r.postTask task).place = r.place := rfl

@[simp] theorem postDelayedTask_place (now : TimePoint) (task : TaskPtr) (delay : TimeDelta)
    (r : TaskRunner) : (r.postDelayedTask E now task delay).place = r.place := rfl

@[simp] theorem postIdleTask_place (task : IdleTaskPtr) (r : TaskRunner) :
    (r.postIdleTask task).place = r.place := rfl

@[simp] theorem popIdleTask_place (r : TaskRunner) : r.popIdleTask.2.place = r.place := by
  unfold popIdleTask
  split <;> rfl

/-- A pop writes the delayed queue only. -/
theorem popTaskFromDelayedQueueNoLock_frame (now : TimePoint) (r : TaskRunner) :
    ∃ delayed, (popTaskFromDelayedQueueNoLock E now r).2 =
      { r with delayedTaskQueue := delayed } := by
  unfold popTaskFromDelayedQueueNoLock
  split
  · exact ⟨r.delayedTaskQueue, rfl⟩
  · split
    · exact ⟨r.delayedTaskQueue, rfl⟩
    · exact ⟨_, rfl⟩

/-- The loop of `GetNext` appends to the task queue, and otherwise writes the
delayed queue only. -/
theorem drainDelayed_frame (now : TimePoint) (n : Nat) (r : TaskRunner) :
    ∃ (moved : List Task) (delayed : List DelayedEntry), drainDelayed E now n r =
      { r with taskQueue := r.taskQueue ++ moved.map some, delayedTaskQueue := delayed } := by
  induction n generalizing r with
  | zero => exact ⟨[], r.delayedTaskQueue, by simp [drainDelayed]⟩
  | succ n ih =>
    obtain ⟨delayed, hpop⟩ := popTaskFromDelayedQueueNoLock_frame E now r
    unfold drainDelayed
    split
    · rename_i task r' he
      have hr : r' = { r with delayedTaskQueue := delayed } := by simpa only [he] using hpop
      obtain ⟨moved, delayed', hrest⟩ := ih { r' with taskQueue := r'.taskQueue ++ [some task] }
      exact ⟨task :: moved, delayed', by rw [hrest, hr]; simp⟩
    · rename_i r' he
      have hr : r' = { r with delayedTaskQueue := delayed } := by simpa only [he] using hpop
      exact ⟨[], delayed, by rw [hr]; simp⟩

/-- `GetNext` writes these two queues only. -/
theorem getNext_frame (now : TimePoint) (r : TaskRunner) : ∃ tasks delayed,
    (r.getNext E now).2 = { r with taskQueue := tasks, delayedTaskQueue := delayed } := by
  obtain ⟨moved, delayed, h⟩ := drainDelayed_frame E now r.delayedTaskQueue.length r
  simp only [getNext, h]
  split <;> exact ⟨_, _, rfl⟩

@[simp] theorem getNext_place (now : TimePoint) (r : TaskRunner) :
    (r.getNext E now).2.place = r.place := by
  obtain ⟨tasks, delayed, h⟩ := getNext_frame E now r
  rw [h]
  rfl

/-- The queues that `GetNext` looks at. -/
def due (r : TaskRunner) : List TaskPtr × List DelayedEntry := (r.taskQueue, r.delayedTaskQueue)

@[simp] theorem popIdleTask_due (r : TaskRunner) : r.popIdleTask.2.due = r.due := by
  unfold popIdleTask
  split <;> rfl

@[simp] theorem getNext_idleTaskQueue (now : TimePoint) (r : TaskRunner) :
    (r.getNext E now).2.idleTaskQueue = r.idleTaskQueue := by
  obtain ⟨tasks, delayed, h⟩ := getNext_frame E now r
  rw [h]

theorem drainDelayed_congr {r r' : TaskRunner} (h : r.due = r'.due) (now : TimePoint) (n : Nat) :
    (drainDelayed E now n r).due = (drainDelayed E now n r').due := by
  induction n generalizing r r' with
  | zero => exact h
  | succ n ih =>
    obtain ⟨ht, hd⟩ := Prod.mk.inj h
    unfold drainDelayed popTaskFromDelayedQueueNoLock
    rw [hd]
    cases hq : r'.delayedTaskQueue with
    | nil => exact h
    | cons e queue =>
      obtain ⟨deadline, task⟩ := e
      by_cases hn : now < deadline
      · simpa [hn] using h
      · cases task with
        | none => simp [hn, due, ht]
        | some task =>
          simp only [hn, ↓reduceIte]
          exact ih (by simp [due, ht])

/-- `GetNext` depends on these queues only. -/
theorem getNext_congr {r r' : TaskRunner} (h : r.due = r'.due) (now : TimePoint) :
    (r.getNext E now).1 = (r'.getNext E now).1 ∧
      (r.getNext E now).2.due = (r'.getNext E now).2.due := by
  have hd := drainDelayed_congr E h now r'.delayedTaskQueue.length
  have hlen : r.delayedTaskQueue = r'.delayedTaskQueue := (Prod.mk.inj h).2
  obtain ⟨htask, hdelayed⟩ := Prod.mk.inj hd
  simp only [getNext, hlen, htask]
  split
  · exact ⟨rfl, hd⟩
  · simp [due, hdelayed]

end TaskRunner

end Footstone
