import Footstone.Lib.Runs
import Footstone.TaskRunner
import Mathlib.Logic.Function.Basic
import Std.Data.TreeMap

/-!
`Worker` (`worker.h`, `worker.cc`): the two group lists, the runner-specific
maps, the manager's immediate tasks, and `GetNextTask` in full. A function that
reads runners takes the heap of runners as an argument. `Notify` only wakes the
worker's thread and leaves no trace here; `WaitFor` shows in the result of
`getNextTask`. The thread-local variables of the worker's thread are fields.
-/

namespace Footstone

abbrev Group := List RunnerId
abbrev Runners := RunnerId → TaskRunner

/-- Writing a value that `f` cannot tell from the old one. -/
theorem update_keeps {α β γ : Type*} [DecidableEq α] (f : β → γ) {g : α → β} {a : α} {b : β}
    (h : f b = f (g a)) (x : α) : f (Function.update g a b x) = f (g x) := by
  rw [Function.apply_update (fun _ => f), h, Function.update_eq_self]

def kWorkerKeysMax : Nat := 32

/-- A destructor and a pointer are named by numbers; `none` is null. -/
structure WorkerKey where
  isUsed : Bool := false
  destruct : Option Nat := none
  deriving DecidableEq, Repr

abbrev KeyArray := Fin kWorkerKeysMax → WorkerKey
abbrev SpecificArray := Fin kWorkerKeysMax → Option Nat

def KeyArray.empty : KeyArray := fun _ => {}
def SpecificArray.empty : SpecificArray := fun _ => none

/-- The two tasks of `MoveTaskRunnerSpecificNoLock`: the outer one runs on the
worker `src`, the inner one, with what the outer one took, on `dst`. -/
inductive ImmediateTask where
  | takeSpecific (runnerId : RunnerId) (src dst : WorkerId)
  | installSpecific (runnerId : RunnerId) (dst : WorkerId) (keys : KeyArray)
      (specific : SpecificArray)

structure Worker where
  runningGroups : List Group := []
  pendingGroups : List Group := []
  workerKeyMap : Std.TreeMap RunnerId KeyArray := ∅
  specificMap : Std.TreeMap RunnerId SpecificArray := ∅
  immediateTaskQueue : List ImmediateTask := []
  minWaitTime : TimeDelta := TimeDelta.max
  nextTaskTime : TimePoint := TimePoint.max
  needBalance : Bool := false
  isStackingMode : Bool := false
  isTerminated : Bool := false
  groupId : UInt32
  isTaskRunning : Bool := false
  localRunner : Option RunnerId := none
  currGroup : Group := []

/-- What `GetNextTask` returns, with the runner a task was taken from. `waited`
is the null pointer after `WaitFor`. -/
inductive NextTask where
  | nullptr
  | waited (delta : TimeDelta)
  | immediate (task : ImmediateTask)
  | task (runner : RunnerId) (task : Task)
  | idle (runner : RunnerId) (task : IdleTask) (time : TimeDelta)

namespace Worker

/-- All groups of a worker. -/
def held (w : Worker) : List Group := w.runningGroups ++ w.pendingGroups

def hasUnschedulableRunner (runner : Runners) (w : Worker) : Bool :=
  w.runningGroups.any fun group => group.any fun r => !(runner r).isSchedulable

/-! ## Binding and unbinding -/

/-- Push `child` onto the first group that contains `father`. -/
def pushChild (father child : RunnerId) : List Group → Option (List Group)
  | [] => none
  | g :: gs => if father ∈ g then some ((g ++ [child]) :: gs) else (pushChild father child gs).map (g :: ·)

/-- With no group found, `push_back` goes through the end iterator. -/
def bindGroup (father child : RunnerId) (w : Worker) : Except Fault Worker :=
  match pushChild father child w.runningGroups with
  | some groups => .ok { w with runningGroups := groups }
  | none =>
    match pushChild father child w.pendingGroups with
    | some groups => .ok { w with pendingGroups := groups }
    | none => .error .iterator

/-- `Bind` of one group. -/
def bind (runner : Runners) (group : Group) (w : Worker) : Except Fault Worker :=
  match group with
  | [] => .error .emptyGroup
  | r :: _ =>
    let groupId := (runner r).groupId
    .ok { w with
      groupId := if groupId ≠ kDefaultGroupId then groupId else w.groupId
      pendingGroups := w.pendingGroups ++ [group]
      needBalance := true }

/-- `Bind` of a list of groups. -/
def bindList (list : List Group) (w : Worker) : Worker :=
  { w with pendingGroups := w.pendingGroups ++ list, needBalance := true }

/-- Erase `r` from the first group that contains it. -/
def eraseRunner (r : RunnerId) : List Group → Option (List Group)
  | [] => none
  | g :: gs => if r ∈ g then some (g.erase r :: gs) else (eraseRunner r gs).map (g :: ·)

/-- `UnBind` of a runner. -/
def unBind (r : RunnerId) (w : Worker) : Worker :=
  match eraseRunner r w.runningGroups with
  | some groups => { w with runningGroups := groups }
  | none =>
    match eraseRunner r w.pendingGroups with
    | some groups => { w with pendingGroups := groups }
    | none => w

/-- `UnBind` of everything. -/
def unBindAll (w : Worker) : List Group × Worker :=
  (w.runningGroups ++ w.pendingGroups, { w with runningGroups := [], pendingGroups := [] })

/-- The loop of `RetainActiveAndUnschedulable` behind the first running group.
Once a group is spliced out, the cursor belongs to the list of spliced groups:
the next `++` brings it to that list's end, which is not the end of
`running_groups_`, and the loop reads on through it. -/
def retainLoop (runner : Runners) : List Group → Except Fault (List Group)
  | [] => .ok []
  | g :: gs =>
    if g.any fun r => (runner r).isSchedulable then do
      let kept ← retainLoop runner gs
      return g :: kept
    else .error .iterator

/-- The whole loop: the first running group counts as the active one. -/
def retainRunning (runner : Runners) : List Group → Except Fault (List Group)
  | [] => .ok []
  | g :: gs => do
    let kept ← retainLoop runner gs
    return g :: kept

def retainActiveAndUnschedulable (runner : Runners) (w : Worker) :
    Except Fault (List Group × Worker) := do
  let kept ← retainRunning runner w.runningGroups
  return (w.pendingGroups, { w with runningGroups := kept, pendingGroups := [] })

/-! ## Runner-specific data -/

def addImmediateTask (task : ImmediateTask) (w : Worker) : Worker :=
  { w with immediateTaskQueue := w.immediateTaskQueue ++ [task] }

def getMovedSpecificKeys (r : RunnerId) (w : Worker) : KeyArray × Worker :=
  match w.workerKeyMap[r]? with
  | some keys => (keys, { w with workerKeyMap := w.workerKeyMap.erase r })
  | none => (KeyArray.empty, w)

def updateSpecificKeys (r : RunnerId) (keys : KeyArray) (w : Worker) : Worker :=
  { w with workerKeyMap := w.workerKeyMap.insert r keys }

def getMovedSpecific (r : RunnerId) (w : Worker) : SpecificArray × Worker :=
  match w.specificMap[r]? with
  | some specific => (specific, { w with specificMap := w.specificMap.erase r })
  | none => (SpecificArray.empty, w)

def updateSpecific (r : RunnerId) (specific : SpecificArray) (w : Worker) : Worker :=
  { w with specificMap := w.specificMap.insert r specific }

/-! ## Taking the next task -/

/-- The product the comparator of `SortNoLock` forms, with its narrowing of the
priority and in 64 bits. -/
def weight (runner : Runners) : Group → Int64
  | [] => 0
  | r :: _ => (runner r).priority.toInt32.toInt64 * (runner r).time

/-- The comparator checks both its groups, and a sort of two groups or more
compares every group. -/
def sortNoLock (runner : Runners) (groups : List Group) : Except Fault (List Group) :=
  if 1 < groups.length ∧ [] ∈ groups then .error .check
  else .ok (groups.insertionSort fun a b => weight runner a ≤ weight runner b)

def setTimes (time : TimeDelta) (rs : List RunnerId) (runner : Runners) : Runners :=
  fun r => if r ∈ rs then { runner r with time := time } else runner r

/-- `splice` at `begin()` puts the pending groups before the first running one. -/
def balanceNoLock (runner : Runners) (w : Worker) : Except Fault (Runners × Worker) :=
  match w.pendingGroups, w.runningGroups with
  | [], _ => .ok (runner, w)
  | _ :: _, [] :: _ => .error .emptyGroup
  | pending, running =>
    let time := match running with
      | (r :: _) :: _ => (runner r).time
      | _ => 0
    .ok (setTimes time pending.flatten runner,
      { w with runningGroups := pending ++ running, pendingGroups := [] })

/-- `GetNextTask` sorts two groups or more. -/
def sortStage (runner : Runners) (groups : List Group) : Except Fault (List Group) :=
  if 1 < groups.length then sortNoLock runner groups else .ok groups

/-- `GetNextTask` balances when `need_balance_` is set. -/
def balanceStage (runner : Runners) (w : Worker) : Except Fault (Runners × Worker) :=
  if w.needBalance then do
    let (runner, w) ← balanceNoLock runner w
    return (runner, { w with needBalance := false })
  else .ok (runner, w)

/-- What the loop over the running groups carries. -/
structure Scan where
  runner : Runners
  worker : Worker
  idleTask : Option (RunnerId × IdleTask) := none

/-- The `else` branch of the loop, for the group that starts with `front`. -/
def pollFront (now : TimePoint) (front : RunnerId) (st : Scan) : Scan :=
  let st := match st.idleTask with
    | some _ => st
    | none =>
      let (task, r) := (st.runner front).popIdleTask
      { st with runner := Function.update st.runner front r, idleTask := task.map (front, ·) }
  let lastWaitTime := (st.runner front).getNextTimeDelta now
  if lastWaitTime < st.worker.minWaitTime then
    { st with worker := { st.worker with
        minWaitTime := lastWaitTime, nextTaskTime := now + lastWaitTime } }
  else st

variable (E : Env)

/-- The loop over the running groups; `clock i` is what the `GetNext` of group
`i` reads. The back of a group blocks the runners below it. -/
def scanGroups (now : TimePoint) (clock : Nat → TimePoint) :
    Nat → List Group → Scan → Except Fault (Option (RunnerId × Task) × Scan)
  | _, [], st => .ok (none, st)
  | _, [] :: _, _ => .error .emptyGroup
  | i, (front :: members) :: groups, st =>
    let back := members.getLastD front
    let (task, r) := (st.runner back).getNext E (clock i)
    let st := { st with runner := Function.update st.runner back r }
    match task with
    | some task =>
      .ok (some (back, task), { st with worker := { st.worker with
        currGroup := front :: members, localRunner := some back } })
    | none => scanGroups now clock (i + 1) groups (pollFront now front st)

/-- How `GetNextTask` ends, by what the loop found. -/
def outcome (found : Option (RunnerId × Task)) (st : Scan) : NextTask :=
  match found with
  | some (r, task) => .task r task
  | none =>
    if !st.worker.isTerminated then .nullptr
    else match st.idleTask with
      | some (r, task) => .idle r task st.worker.minWaitTime
      | none => .waited st.worker.minWaitTime

def getNextTask (clock : Nat → TimePoint) (runner : Runners) (w : Worker) :
    Except Fault (NextTask × Runners × Worker) :=
  match w.immediateTaskQueue with
  | task :: queue => .ok (.immediate task, runner, { w with immediateTaskQueue := queue })
  | [] => do
    let groups ← sortStage runner w.runningGroups
    let (runner, w) ← balanceStage runner { w with runningGroups := groups }
    let (found, st) ← scanGroups E (clock 0) (fun i => clock (i + 1)) 0 w.runningGroups
      { runner := runner, worker := w }
    return (outcome found st, st.runner, st.worker)

/-! ## What the list editing does to the groups -/

theorem mem_pushChild {father child : RunnerId} {gs gs' : List Group}
    (h : pushChild father child gs = some gs') :
    ∃ pre g post, gs = pre ++ g :: post ∧ father ∈ g ∧ gs' = pre ++ (g ++ [child]) :: post := by
  induction gs generalizing gs' with
  | nil => simp [pushChild] at h
  | cons g gs ih =>
    simp only [pushChild] at h
    split at h
    · rename_i hf
      cases h
      exact ⟨[], g, gs, rfl, hf, rfl⟩
    · obtain ⟨rest, hr, rfl⟩ := Option.map_eq_some_iff.mp h
      obtain ⟨pre, x, post, rfl, hx, rfl⟩ := ih hr
      exact ⟨g :: pre, x, post, rfl, hx, rfl⟩

theorem pushChild_append (father child : RunnerId) (gs hs : List Group) :
    pushChild father child (gs ++ hs) =
      ((pushChild father child gs).map (· ++ hs)).or ((pushChild father child hs).map (gs ++ ·)) := by
  induction gs with
  | nil => simp [pushChild]
  | cons g gs ih =>
    simp only [List.cons_append, pushChild, ih]
    split
    · simp
    · cases pushChild father child gs <;> cases pushChild father child hs <;> simp

/-- `BindGroup` pushes the child onto one group with the father in it. -/
theorem bindGroup_held {father child : RunnerId} {w w' : Worker}
    (h : w.bindGroup father child = .ok w') :
    pushChild father child w.held = some w'.held := by
  unfold bindGroup at h
  rw [held, pushChild_append]
  split at h
  · rename_i groups hg
    cases h
    simp [hg, held]
  · rename_i hg
    split at h
    · rename_i groups hp
      cases h
      simp [hg, hp, held]
    · cases h

/-- The groups after `r` is erased from the first group that contains it. -/
def erased (r : RunnerId) (gs : List Group) : List Group := (eraseRunner r gs).getD gs

theorem eraseRunner_append (r : RunnerId) (gs hs : List Group) :
    eraseRunner r (gs ++ hs) =
      ((eraseRunner r gs).map (· ++ hs)).or ((eraseRunner r hs).map (gs ++ ·)) := by
  induction gs with
  | nil => simp [eraseRunner]
  | cons g gs ih =>
    simp only [List.cons_append, eraseRunner, ih]
    split
    · simp
    · cases eraseRunner r gs <;> cases eraseRunner r hs <;> simp

theorem unBind_held (r : RunnerId) (w : Worker) : (w.unBind r).held = erased r w.held := by
  have h := eraseRunner_append r w.runningGroups w.pendingGroups
  cases hr : eraseRunner r w.runningGroups with
  | some groups => simp [unBind, erased, held, h, hr]
  | none => cases hp : eraseRunner r w.pendingGroups <;> simp [unBind, erased, held, h, hr, hp]

theorem erased_cons (r : RunnerId) (g : Group) (gs : List Group) :
    erased r (g :: gs) = if r ∈ g then g.erase r :: gs else g :: erased r gs := by
  unfold erased
  rw [eraseRunner]
  split
  · rfl
  · cases eraseRunner r gs <;> rfl

theorem erased_flatten (r : RunnerId) (gs : List Group) :
    (erased r gs).flatten = gs.flatten.erase r := by
  induction gs with
  | nil => rfl
  | cons g gs ih =>
    rw [erased_cons]
    split
    · rename_i h
      simp [List.erase_append_left _ h]
    · rename_i h
      simp [ih, List.erase_append_right _ h]

theorem mem_erased {r : RunnerId} {gs : List Group} {g : Group} (h : g ∈ erased r gs) :
    ∃ g' ∈ gs, g.Sublist g' := by
  induction gs with
  | nil => simp [erased, eraseRunner] at h
  | cons x gs ih =>
    rw [erased_cons] at h
    split at h
    · rcases List.mem_cons.mp h with rfl | h
      · exact ⟨x, List.mem_cons_self, List.erase_sublist⟩
      · exact ⟨g, List.mem_cons_of_mem _ h, .refl _⟩
    · rcases List.mem_cons.mp h with rfl | h
      · exact ⟨g, List.mem_cons_self, .refl _⟩
      · obtain ⟨g', hg', hs⟩ := ih h
        exact ⟨g', List.mem_cons_of_mem _ hg', hs⟩

/-- Erasing leaves an empty group behind exactly when the first group that
contains the runner has nobody else in it. -/
theorem nil_mem_erased {r : RunnerId} {gs : List Group} (h : [] ∉ gs) :
    [] ∈ erased r gs ↔ gs.find? (r ∈ ·) = some [r] := by
  induction gs with
  | nil => simp [erased, eraseRunner]
  | cons g gs ih =>
    simp only [List.mem_cons, not_or] at h
    rw [erased_cons]
    by_cases hr : r ∈ g
    · have hg : [] = g.erase r ↔ g = [r] := by
        constructor
        · intro he
          have hlen := List.length_erase_of_mem hr
          rw [← he] at hlen
          have hpos := List.length_pos_of_mem hr
          obtain ⟨x, rfl⟩ := List.length_eq_one_iff.mp (by simp at hlen; omega : g.length = 1)
          rw [List.mem_singleton.mp hr]
        · rintro rfl
          simp
      simp [hr, h.2, hg]
    · have hg : ([] : Group) ≠ g := h.1
      simp [hr, hg, ih h.2]

/-! ## `RetainActiveAndUnschedulable` -/

/-- Every running group behind the first has a schedulable runner, so that no
group is spliced out. -/
def RetainSafe (runner : Runners) (w : Worker) : Prop :=
  ∀ g ∈ w.runningGroups.tail, ∃ r ∈ g, (runner r).isSchedulable = true

instance (runner : Runners) (w : Worker) : Decidable (RetainSafe runner w) :=
  inferInstanceAs (Decidable (∀ g ∈ _, _))

theorem retainLoop_eq_ok {runner : Runners} {gs kept : List Group} :
    retainLoop runner gs = .ok kept ↔
      kept = gs ∧ ∀ g ∈ gs, ∃ r ∈ g, (runner r).isSchedulable = true := by
  induction gs generalizing kept with
  | nil => exact ⟨fun h => ⟨(Except.ok.inj h).symm, by simp⟩, fun h => by rw [h.1]; rfl⟩
  | cons g gs ih =>
    simp only [retainLoop]
    split
    · rename_i hg
      have hs : ∃ r ∈ g, (runner r).isSchedulable = true := by simpa using hg
      simp only [Runs.bind_eq_ok, ih, List.forall_mem_cons, hs, true_and]
      constructor
      · rintro ⟨_, ⟨rfl, hall⟩, h⟩
        cases h
        exact ⟨rfl, hall⟩
      · rintro ⟨rfl, hall⟩
        exact ⟨gs, ⟨rfl, hall⟩, rfl⟩
    · rename_i hg
      have hs : ¬ ∃ r ∈ g, (runner r).isSchedulable = true := by simpa using hg
      simp [hs]

theorem retainRunning_eq_ok {runner : Runners} {gs kept : List Group} :
    retainRunning runner gs = .ok kept ↔
      kept = gs ∧ ∀ g ∈ gs.tail, ∃ r ∈ g, (runner r).isSchedulable = true := by
  cases gs with
  | nil => exact ⟨fun h => ⟨(Except.ok.inj h).symm, by simp⟩, fun h => by rw [h.1]; rfl⟩
  | cons g gs =>
    simp only [retainRunning, Runs.bind_eq_ok, retainLoop_eq_ok, List.tail_cons]
    constructor
    · rintro ⟨_, ⟨rfl, hall⟩, h⟩
      cases h
      exact ⟨rfl, hall⟩
    · rintro ⟨rfl, hall⟩
      exact ⟨gs, ⟨rfl, hall⟩, rfl⟩

/-- A worker after its pending groups are released. -/
def retained (w : Worker) : Worker := { w with pendingGroups := [] }

/-- When it returns, it has released the pending groups and kept all the others. -/
theorem retain_eq_ok {runner : Runners} {w w' : Worker} {ret : List Group} :
    w.retainActiveAndUnschedulable runner = .ok (ret, w') ↔
      RetainSafe runner w ∧ ret = w.pendingGroups ∧ w' = w.retained := by
  simp only [retainActiveAndUnschedulable, RetainSafe, Runs.bind_eq_ok, retainRunning_eq_ok]
  constructor
  · rintro ⟨_, ⟨rfl, hall⟩, h⟩
    cases h
    exact ⟨hall, rfl, rfl⟩
  · rintro ⟨hall, rfl, rfl⟩
    exact ⟨_, ⟨rfl, hall⟩, rfl⟩

/-! ## `Bind` -/

/-- `Bind` of one group fails on an empty group only. -/
theorem bind_returns {runner : Runners} {w : Worker} {g : Group} :
    (∃ w', w.bind runner g = .ok w') ↔ g ≠ [] := by
  cases g <;> simp [bind]

theorem bind_keeps {runner : Runners} {g : Group} {w w' : Worker} (h : w.bind runner g = .ok w') :
    w'.held = w.held ++ [g] ∧ w'.isTerminated = w.isTerminated := by
  cases g with
  | nil => cases h
  | cons r rs =>
    cases h
    exact ⟨by simp [held], rfl⟩

end Worker

end Footstone
