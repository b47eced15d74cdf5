import Footstone.GetNextTask
import Footstone.Step
import Mathlib.Data.List.Perm.Basic

/-!
Which worker holds which groups, and what the operations other than `Balance` do
to that. Posting, taking and finishing tasks only permute the groups of a
worker; creating, stacking and removing runners edit one place.
-/

namespace Footstone

namespace State

/-- The groups of the worker `w`. -/
def held (s : State) (w : WorkerId) : List Group := (s.worker w).held

/-- All groups of the pool. -/
def allGroups (s : State) : List Group := s.workers.flatMap s.held

/-- `r` is in a group of the worker `w`. -/
def Holds (s : State) (w : WorkerId) (r : RunnerId) : Prop := ∃ g ∈ s.held w, r ∈ g

theorem mem_flatten_allGroups {s : State} {r : RunnerId} :
    r ∈ s.allGroups.flatten ↔ ∃ w ∈ s.workers, s.Holds w r := by
  simp only [allGroups, Holds, List.mem_flatten, List.mem_flatMap]
  constructor
  · rintro ⟨g, ⟨w, hw, hg⟩, hr⟩
    exact ⟨w, hw, g, hg, hr⟩
  · rintro ⟨w, hw, g, hg, hr⟩
    exact ⟨g, ⟨w, hw, hg⟩, hr⟩

/-- What holds of every state the interface leads to. The groups of workers
outside `workers_` do not exist; a runner points to a worker of the pool, and
the pool never shrinks. -/
structure Wf (s : State) : Prop where
  nodup : s.workers.Nodup
  lt_next : ∀ w ∈ s.workers, w < s.nextWorker
  size_pos : 1 ≤ s.size
  size_le : s.size ≤ s.workers.length
  isTerminated : ∀ w ∈ s.workers, (s.worker w).isTerminated = false
  outside : ∀ w, w ∉ s.workers → s.held w = []
  pointer : ∀ r w, (s.runner r).worker = some w → w ∈ s.workers
  known : ∀ w r, s.Holds w r → r < s.globalTaskRunnerId

theorem Wf.mem_of_holds {s : State} (hs : s.Wf) {w : WorkerId} {r : RunnerId} (h : s.Holds w r) :
    w ∈ s.workers := by
  by_contra hw
  obtain ⟨g, hg, -⟩ := h
  rw [hs.outside w hw] at hg
  cases hg

theorem Wf.mem_flatten {s : State} (hs : s.Wf) {r : RunnerId} :
    r ∈ s.allGroups.flatten ↔ ∃ w, s.Holds w r := by
  rw [mem_flatten_allGroups]
  exact ⟨fun ⟨w, _, h⟩ => ⟨w, h⟩, fun ⟨w, h⟩ => ⟨w, hs.mem_of_holds h, h⟩⟩

theorem Wf.lock {s : State} (h : s.Wf) (r : RunnerId) :
    s.lock (s.runner r).worker = (s.runner r).worker := by
  cases hp : (s.runner r).worker with
  | none => rfl
  | some w => exact Option.filter_eq_some_iff.mpr ⟨rfl, by simpa using h.pointer r w hp⟩

/-! ## Frames -/

/-- The pool itself is left alone. -/
structure SamePool (s s' : State) : Prop where
  workers : s'.workers = s.workers
  nextWorker : s'.nextWorker = s.nextWorker
  size : s'.size = s.size
  isTerminated : ∀ w, (s'.worker w).isTerminated = (s.worker w).isTerminated

/-- The cursor is left alone and no runner changes its place. -/
structure SameBooks (s s' : State) : Prop extends SamePool s s' where
  index : s'.index = s.index
  globalTaskRunnerId : s'.globalTaskRunnerId = s.globalTaskRunnerId
  place : ∀ r, (s'.runner r).place = (s.runner r).place

/-- Neither do the groups, up to their order on a worker. -/
structure SamePlaces (s s' : State) : Prop extends SameBooks s s' where
  held : ∀ w, (s'.held w).Perm (s.held w)

theorem SameBooks.pointer {s s' : State} (h : SameBooks s s') (r : RunnerId) :
    (s'.runner r).worker = (s.runner r).worker :=
  congrArg Prod.fst (h.place r)

theorem SameBooks.groupId {s s' : State} (h : SameBooks s s') (r : RunnerId) :
    (s'.runner r).groupId = (s.runner r).groupId :=
  congrArg (fun p => p.2.1) (h.place r)

theorem SameBooks.isSchedulable {s s' : State} (h : SameBooks s s') (r : RunnerId) :
    (s'.runner r).isSchedulable = (s.runner r).isSchedulable :=
  congrArg (fun p => p.2.2) (h.place r)

theorem SamePlaces.refl (s : State) : SamePlaces s s :=
  ⟨⟨⟨rfl, rfl, rfl, fun _ => rfl⟩, rfl, rfl, fun _ => rfl⟩, fun _ => .refl _⟩

theorem SamePlaces.trans {s t u : State} (h : SamePlaces s t) (k : SamePlaces t u) :
    SamePlaces s u where
  workers := k.workers.trans h.workers
  nextWorker := k.nextWorker.trans h.nextWorker
  size := k.size.trans h.size
  isTerminated w := (k.isTerminated w).trans (h.isTerminated w)
  index := k.index.trans h.index
  globalTaskRunnerId := k.globalTaskRunnerId.trans h.globalTaskRunnerId
  held w := (k.held w).trans (h.held w)
  place r := (k.place r).trans (h.place r)

theorem SamePlaces.holds {s s' : State} (h : SamePlaces s s') (w : WorkerId) (r : RunnerId) :
    s'.Holds w r ↔ s.Holds w r := by
  simp only [Holds, (h.held w).mem_iff]

theorem SamePlaces.allGroups_perm {s s' : State} (h : SamePlaces s s') :
    s'.allGroups.Perm s.allGroups := by
  unfold allGroups
  rw [h.workers]
  exact List.Perm.flatMap_left _ fun w _ => h.held w

/-- Writing a worker with the same groups back. -/
theorem setWorker_samePlaces {s : State} {w : WorkerId} {x : Worker}
    (hheld : x.held.Perm (s.held w)) (hterm : x.isTerminated = (s.worker w).isTerminated) :
    SamePlaces s (s.setWorker w x) := by
  refine ⟨⟨⟨rfl, rfl, rfl, fun v => ?_⟩, rfl, rfl, fun _ => rfl⟩, fun v => ?_⟩
  · exact update_keeps Worker.isTerminated hterm v
  · by_cases h : v = w
    · subst h; simpa [setWorker, State.held] using hheld
    · simp [setWorker, State.held, h]

/-- No runner-specific data moves. -/
structure SameData (s s' : State) : Prop where
  workerKeyMap : ∀ w, (s'.worker w).workerKeyMap = (s.worker w).workerKeyMap
  specificMap : ∀ w, (s'.worker w).specificMap = (s.worker w).specificMap
  immediateTaskQueue : ∀ w, (s'.worker w).immediateTaskQueue = (s.worker w).immediateTaskQueue

theorem SameData.of_worker {s s' : State} (h : s'.worker = s.worker) : SameData s s' :=
  ⟨fun _ => by rw [h], fun _ => by rw [h], fun _ => by rw [h]⟩

theorem SameData.trans {s t u : State} (h : SameData s t) (k : SameData t u) : SameData s u where
  workerKeyMap w := (k.workerKeyMap w).trans (h.workerKeyMap w)
  specificMap w := (k.specificMap w).trans (h.specificMap w)
  immediateTaskQueue w := (k.immediateTaskQueue w).trans (h.immediateTaskQueue w)

theorem setWorker_sameData {s : State} {w : WorkerId} {x : Worker}
    (hk : x.workerKeyMap = (s.worker w).workerKeyMap)
    (hs : x.specificMap = (s.worker w).specificMap)
    (hq : x.immediateTaskQueue = (s.worker w).immediateTaskQueue) :
    SameData s (s.setWorker w x) :=
  ⟨update_keeps Worker.workerKeyMap hk, update_keeps Worker.specificMap hs,
    update_keeps Worker.immediateTaskQueue hq⟩

/-! ## Posting a task -/

theorem lock_eq_some {s : State} {p : Option WorkerId} {w : WorkerId} :
    s.lock p = some w ↔ p = some w ∧ w ∈ s.workers := by
  simp [lock, Option.filter_eq_some_iff]

theorem known_eq_ok {s : State} {rs : List RunnerId} {u : Unit} :
    s.known rs = .ok u ↔ ∀ r ∈ rs, r < s.globalTaskRunnerId := by
  simp [known]

theorem check_eq_ok {b : Bool} {u : Unit} : check b = .ok u ↔ b = true := by
  cases b <;> simp [check]

theorem post_samePlaces {s s' : State} {r : RunnerId} {queue : TaskRunner → TaskRunner}
    (hq : ∀ x, (queue x).place = x.place) (h : s.post r queue = .ok s') :
    SamePlaces s s' ∧ s'.worker = s.worker ∧ s'.busy = s.busy := by
  obtain ⟨_, -, h⟩ := Runs.bind_eq_ok.mp h
  obtain ⟨_, -, h⟩ := Runs.bind_eq_ok.mp h
  cases h
  exact ⟨⟨⟨⟨rfl, rfl, rfl, fun _ => rfl⟩, rfl, rfl, update_keeps TaskRunner.place (hq _)⟩,
    fun _ => .refl _⟩, rfl, rfl⟩

/-! ## Running a task -/

theorem enter_samePlaces (s : State) (w : WorkerId) (r : Option RunnerId) :
    SamePlaces s (s.enter w r) :=
  have h : SamePlaces s (s.modifyWorker w fun x => { x with isTaskRunning := true }) :=
    setWorker_samePlaces (.refl _) rfl
  ⟨⟨⟨rfl, rfl, rfl, h.isTerminated⟩, rfl, rfl, fun _ => rfl⟩, h.held⟩

theorem enter_sameData (s : State) (w : WorkerId) (r : Option RunnerId) :
    SameData s (s.enter w r) :=
  have h : SameData s (s.modifyWorker w fun x => { x with isTaskRunning := true }) :=
    setWorker_sameData rfl rfl rfl
  ⟨h.workerKeyMap, h.specificMap, h.immediateTaskQueue⟩

theorem getMoved_keeps (r : RunnerId) (w : Worker) :
    ((w.getMovedSpecificKeys r).2.getMovedSpecific r).2.held = w.held ∧
      ((w.getMovedSpecificKeys r).2.getMovedSpecific r).2.isTerminated = w.isTerminated := by
  unfold Worker.getMovedSpecificKeys Worker.getMovedSpecific
  split <;> dsimp only <;> split <;> exact ⟨rfl, rfl⟩

theorem runImmediate_samePlaces {s s' : State} {task : ImmediateTask}
    (h : s.runImmediate task = .ok s') : SamePlaces s s' ∧ s'.busy = s.busy := by
  cases task with
  | takeSpecific r src dst =>
    obtain ⟨_, -, h⟩ := Runs.bind_eq_ok.mp h
    have hsrc : SamePlaces s (s.setWorker src
        (((s.worker src).getMovedSpecificKeys r).2.getMovedSpecific r).2) :=
      setWorker_samePlaces (.of_eq (getMoved_keeps r _).1) (getMoved_keeps r _).2
    dsimp only at h
    split at h
    · cases h
      exact ⟨hsrc.trans (setWorker_samePlaces (.refl _) rfl), rfl⟩
    · cases h
      exact ⟨hsrc, rfl⟩
  | installSpecific r dst keys specific =>
    simp only [runImmediate] at h
    split at h
    · cases h
      exact ⟨setWorker_samePlaces (.refl _) rfl, rfl⟩
    · cases h
      exact ⟨.refl _, rfl⟩

variable {E : Env}

/-- A `RunTask` runs the front of the immediate queue, or scans the groups, and
then starts at most one task, of a runner the worker holds. -/
theorem runTask_cases {s s' : State} {w : WorkerId} {clock : Nat → TimePoint}
    (h : s.runTask E w clock = .ok s') :
    w ∈ s.workers ∧
      ((∃ task queue, (s.worker w).immediateTaskQueue = task :: queue ∧
        ((s.modifyWorker w fun x => { x with immediateTaskQueue := queue }).enter w none).runImmediate
          task = .ok s') ∨
      (SamePlaces s s' ∧ SameData s s' ∧
        (s'.busy = s.busy ∨ ∃ r, s.Holds w r ∧
          s'.busy = Function.update s.busy w (some r :: s.busy w)))) := by
  unfold runTask at h
  split at h
  · rename_i hw
    obtain ⟨⟨next, runner, worker⟩, hn, h⟩ := Runs.bind_eq_ok.mp h
    refine ⟨hw, ?_⟩
    rcases Worker.getNextTask_cases hn with ⟨task, queue, rfl, hq, rfl, rfl⟩ | ⟨hq, him, hk, hsrc⟩
    · exact Or.inl ⟨task, queue, hq, h⟩
    · right
      have hplaces : SamePlaces s { s.setWorker w worker with runner := runner } :=
        have hset : SamePlaces s (s.setWorker w worker) :=
          setWorker_samePlaces hk.held hk.isTerminated
        ⟨⟨⟨rfl, rfl, rfl, hset.isTerminated⟩, rfl, rfl, hk.place⟩, hset.held⟩
      have hholds : ∀ r, next.source = some r → s.Holds w r := by
        intro r hr
        obtain ⟨g, hg, hr⟩ := hsrc r hr
        exact ⟨g, hk.held.subset hg, hr⟩
      have hdata : SameData s { s.setWorker w worker with runner := runner } :=
        have hset : SameData s (s.setWorker w worker) :=
          setWorker_sameData hk.workerKeyMap hk.specificMap hk.immediateTaskQueue
        ⟨hset.workerKeyMap, hset.specificMap, hset.immediateTaskQueue⟩
      cases next with
      | nullptr => cases h; exact ⟨hplaces, hdata, Or.inl rfl⟩
      | waited delta => cases h; exact ⟨hplaces, hdata, Or.inl rfl⟩
      | immediate task => exact absurd rfl (him task)
      | task r t =>
        cases h
        exact ⟨hplaces.trans (enter_samePlaces _ w (some r)),
          hdata.trans (enter_sameData _ w (some r)), Or.inr ⟨r, hholds r rfl, rfl⟩⟩
      | idle r t time =>
        cases h
        exact ⟨hplaces.trans (enter_samePlaces _ w (some r)),
          hdata.trans (enter_sameData _ w (some r)), Or.inr ⟨r, hholds r rfl, rfl⟩⟩
  · cases h

/-- How the tasks that run change: not at all, or one starts, taken from a runner
the worker holds if from any, or one ends. -/
inductive BusyStep (s s' : State) : Prop where
  | same (h : s'.busy = s.busy)
  | starts (w : WorkerId) (r : Option RunnerId) (hr : ∀ x, r = some x → s.Holds w x)
      (h : s'.busy = Function.update s.busy w (r :: s.busy w))
  | ends (w : WorkerId) (r : Option RunnerId) (rest : List (Option RunnerId))
      (hw : s.busy w = r :: rest) (h : s'.busy = Function.update s.busy w rest)

theorem runTask_samePlaces {s s' : State} {w : WorkerId} {clock : Nat → TimePoint}
    (h : s.runTask E w clock = .ok s') : SamePlaces s s' ∧ BusyStep s s' := by
  obtain ⟨-, ⟨task, queue, -, h⟩ | ⟨h, -, hbusy⟩⟩ := runTask_cases h
  · have hpop : SamePlaces s (s.modifyWorker w fun x => { x with immediateTaskQueue := queue }) :=
      setWorker_samePlaces (.refl _) rfl
    obtain ⟨him, hbusy⟩ := runImmediate_samePlaces h
    exact ⟨(hpop.trans (enter_samePlaces _ w none)).trans him, .starts w none nofun hbusy⟩
  · refine ⟨h, ?_⟩
    rcases hbusy with hbusy | ⟨r, hr, hbusy⟩
    · exact .same hbusy
    · refine .starts w (some r) (fun x hx => ?_) hbusy
      cases hx
      exact hr

theorem finishTask_samePlaces {s s' : State} {w : WorkerId} {elapsed : Nat → TimeDelta}
    (h : s.finishTask w elapsed = .ok s') :
    SamePlaces s s' ∧ SameData s s' ∧
      ∃ r rest, s.busy w = r :: rest ∧ s'.busy = Function.update s.busy w rest := by
  unfold finishTask at h
  split at h
  · cases h
  · rename_i r rest hb
    cases h
    have hset : SamePlaces s (s.modifyWorker w fun x => { x with isTaskRunning := false }) :=
      setWorker_samePlaces (.refl _) rfl
    have hdata : SameData s (s.modifyWorker w fun x => { x with isTaskRunning := false }) :=
      setWorker_sameData rfl rfl rfl
    have hplace := addTimes_keeps TaskRunner.place (fun _ _ => rfl) elapsed 0
    exact ⟨⟨⟨⟨rfl, rfl, rfl, hset.isTerminated⟩, rfl, rfl, hplace _ _⟩, hset.held⟩,
      ⟨hdata.workerKeyMap, hdata.specificMap, hdata.immediateTaskQueue⟩, r, rest, hb, rfl⟩

/-! ## Creating a runner -/

/-- The worker found by `CreateTaskRunner`: the first one that remembers the
group id. -/
def groupWorker (s : State) (groupId : UInt32) : Option WorkerId :=
  if groupId ≠ kDefaultGroupId then s.workers.find? fun w => (s.worker w).groupId == groupId
  else none

/-- Where a schedulable runner with this group id is put. -/
def spot (s : State) (groupId : UInt32) : Option WorkerId :=
  (s.groupWorker groupId).or s.workers[s.index]?

theorem spot_mem {s : State} {groupId : UInt32} {w : WorkerId} (h : s.spot groupId = some w) :
    w ∈ s.workers := by
  rcases Option.or_eq_some_iff.mp h with h | ⟨-, h⟩
  · unfold groupWorker at h
    split at h
    · exact List.mem_of_find?_eq_some h
    · cases h
  · exact List.mem_of_getElem? h

/-- The new runner is the only member of a new group of the worker `w`. -/
structure Created (s s' : State) (w : WorkerId) (groupId priority : UInt32) : Prop
    extends SamePool s s' where
  globalTaskRunnerId : s'.globalTaskRunnerId = s.globalTaskRunnerId + 1
  index : s'.index =
    if s.groupWorker groupId = none then advance s.size s.index else s.index
  runner : s'.runner = Function.update s.runner s.globalTaskRunnerId
    { worker := some w, groupId := groupId, priority := priority, isSchedulable := true }
  held : s'.held = Function.update s.held w (s.held w ++ [[s.globalTaskRunnerId]])
  busy : s'.busy = s.busy

theorem Created.holds {s s' : State} {w : WorkerId} {groupId priority : UInt32}
    (h : Created s s' w groupId priority) {v : WorkerId} {r : RunnerId} :
    s'.Holds v r ↔ s.Holds v r ∨ r = s.globalTaskRunnerId ∧ v = w := by
  rw [Holds, Holds, h.held]
  by_cases hv : v = w
  · subst hv
    simp only [Function.update_self, List.mem_append, List.mem_singleton, or_and_right, exists_or,
      exists_eq_left, and_true]
  · simp [hv]

/-- `Bind` of the group of one runner always returns. -/
theorem bindRunner_eq (s : State) (r : RunnerId) (w : WorkerId) :
    s.bindRunner r w = .ok { s with
      runner := Function.update s.runner r { s.runner r with worker := some w }
      worker := Function.update s.worker w { s.worker w with
        groupId := if (s.runner r).groupId ≠ kDefaultGroupId then (s.runner r).groupId
          else (s.worker w).groupId
        pendingGroups := (s.worker w).pendingGroups ++ [[r]]
        needBalance := true } } := by
  simp [bindRunner, modifyRunner, Worker.bind, setWorker, bind, Except.bind, pure, Except.pure]

theorem update_held {s : State} {w : WorkerId} {x : Worker} {gs : List Group} (h : x.held = gs) :
    (fun v => (Function.update s.worker w x v).held) = Function.update s.held w gs := by
  funext v
  by_cases hv : v = w
  · subst hv; simp [h]
  · simp [hv, State.held]

theorem update_isTerminated {s : State} {w : WorkerId} {x : Worker}
    (h : x.isTerminated = (s.worker w).isTerminated) (v : WorkerId) :
    (Function.update s.worker w x v).isTerminated = (s.worker v).isTerminated :=
  update_keeps Worker.isTerminated h v

theorem cursor_eq_ok {s : State} {w : WorkerId} : s.cursor = .ok w ↔ s.workers[s.index]? = some w := by
  unfold cursor
  cases s.workers[s.index]? <;> simp

/-- What `CreateTaskRunner` leaves behind with the new runner on the worker `w`. -/
def placed (s : State) (w : WorkerId) (groupId priority : UInt32) : State :=
  { s with
    globalTaskRunnerId := s.globalTaskRunnerId + 1
    index := if s.groupWorker groupId = none then advance s.size s.index else s.index
    runner := Function.update s.runner s.globalTaskRunnerId
      { worker := some w, groupId := groupId, priority := priority, isSchedulable := true }
    worker := Function.update s.worker w { s.worker w with
      groupId := if groupId ≠ kDefaultGroupId then groupId else (s.worker w).groupId
      pendingGroups := (s.worker w).pendingGroups ++ [[s.globalTaskRunnerId]]
      needBalance := true
      workerKeyMap := if groupId = kDefaultGroupId then
          (s.worker w).workerKeyMap.insert s.globalTaskRunnerId KeyArray.empty
        else (s.worker w).workerKeyMap
      specificMap := if groupId = kDefaultGroupId then
          (s.worker w).specificMap.insert s.globalTaskRunnerId SpecificArray.empty
        else (s.worker w).specificMap } }

theorem Created.placed (s : State) (w : WorkerId) (groupId priority : UInt32) :
    Created s (s.placed w groupId priority) w groupId priority :=
  ⟨⟨rfl, rfl, rfl, update_isTerminated rfl⟩, rfl, rfl, rfl,
    update_held (by simp [Worker.held, State.held]), rfl⟩

/-- Only the exit for the default group writes the maps, and only a runner without a worker for
its group moves the cursor. -/
theorem createTaskRunner_eq (s : State) (groupId priority : UInt32) :
    s.createTaskRunner groupId priority true =
      match s.spot groupId with
      | some w => .ok (s.placed w groupId priority)
      | none => .error .cursor := by
  unfold createTaskRunner
  by_cases hg : groupId = kDefaultGroupId
  · subst hg
    have hgw : s.groupWorker kDefaultGroupId = none := by simp [groupWorker]
    rw [spot, hgw, Option.none_or]
    simp only [ne_eq, not_true_eq_false, ↓reduceIte, addTaskRunner, cursor]
    cases s.workers[s.index]? with
    | none => rfl
    | some w =>
      simp [bindRunner_eq, State.placed, hgw, updateWorkerSpecific, modifyWorker, setWorker,
        modifyRunner, Worker.updateSpecificKeys, Worker.updateSpecific, bind, Except.bind, pure,
        Except.pure]
  · have hgw : s.groupWorker groupId = s.workers.find? fun w => (s.worker w).groupId == groupId :=
      if_pos hg
    rw [spot, hgw]
    simp only [ne_eq, hg, not_false_eq_true, ↓reduceIte]
    cases hw : s.workers.find? fun w => (s.worker w).groupId == groupId with
    | some w => simp [bindRunner_eq, State.placed, hg, hgw, hw]
    | none =>
      simp only [cursor, Option.none_or]
      cases s.workers[s.index]? with
      | none => rfl
      | some w => simp [bindRunner_eq, State.placed, hg, hgw, hw, bind, Except.bind]

/-- A runner that is not schedulable is only made, any other is put on its spot. -/
theorem createTaskRunner_cases {s s' : State} {groupId priority : UInt32} {isSchedulable : Bool}
    (h : s.createTaskRunner groupId priority isSchedulable = .ok s') :
    (isSchedulable = false ∧ s' = { s with
      globalTaskRunnerId := s.globalTaskRunnerId + 1
      runner := Function.update s.runner s.globalTaskRunnerId
        { groupId := groupId, priority := priority, isSchedulable := false } }) ∨
    (isSchedulable = true ∧
      ∃ w, s.spot groupId = some w ∧ Created s s' w groupId priority) := by
  cases isSchedulable with
  | false =>
    unfold createTaskRunner at h
    cases h
    exact Or.inl ⟨rfl, rfl⟩
  | true =>
    rw [createTaskRunner_eq] at h
    split at h
    · rename_i w hw
      cases h
      exact Or.inr ⟨rfl, w, hw, .placed s w groupId priority⟩
    · cases h

/-- With a spot for the runner the call returns. -/
theorem createTaskRunner_returns {s : State} {groupId : UInt32} {w : WorkerId} (priority : UInt32)
    (hspot : s.spot groupId = some w) :
    ∃ s', s.createTaskRunner groupId priority true = .ok s' :=
  ⟨s.placed w groupId priority, by rw [createTaskRunner_eq, hspot]⟩

/-! ## Stacking and removing runners -/

theorem modifyRunner_place {s : State} {r : RunnerId} {f : TaskRunner → TaskRunner}
    (h : (f (s.runner r)).place = (s.runner r).place) (x : RunnerId) :
    ((s.modifyRunner r f).runner x).place = (s.runner x).place :=
  update_keeps TaskRunner.place h x

/-- `AddSubTaskRunner` does nothing without a worker, else it stacks the runner
on its father's group. -/
theorem addSubTaskRunner_cases {s s' : State} {r sub : RunnerId} {isTaskRunning b : Bool}
    (h : s.addSubTaskRunner r sub isTaskRunning = .ok (b, s')) :
    (s.lock (s.runner r).worker = none ∧ s' = s) ∨
    ∃ w gs, s.lock (s.runner r).worker = some w ∧
      Worker.pushChild r sub (s.held w) = some gs ∧
      SameBooks s s' ∧ s'.busy = s.busy ∧ s'.held = Function.update s.held w gs := by
  unfold addSubTaskRunner at h
  split at h
  · rename_i hl
    cases h
    exact Or.inl ⟨hl, rfl⟩
  · rename_i w hl
    obtain ⟨x, hb, h⟩ := Runs.bind_eq_ok.mp h
    cases h
    have hterm : x.isTerminated = (s.worker w).isTerminated := by
      unfold Worker.bindGroup at hb
      split at hb
      · cases hb; rfl
      · split at hb <;> cases hb; rfl
    exact Or.inr ⟨w, x.held, hl, Worker.bindGroup_held hb,
      ⟨⟨rfl, rfl, rfl, update_isTerminated hterm⟩, rfl, rfl, modifyRunner_place rfl⟩, rfl,
      update_held rfl⟩

theorem unBind_isTerminated (r : RunnerId) (x : Worker) :
    (x.unBind r).isTerminated = x.isTerminated := by
  unfold Worker.unBind
  split
  · rfl
  · split <;> rfl

theorem removeTaskRunner_spec (s : State) (r : RunnerId) :
    SameBooks s (s.removeTaskRunner r) ∧
      ∀ w ∈ s.workers, (s.removeTaskRunner r).held w = Worker.erased r (s.held w) := by
  refine ⟨⟨⟨rfl, rfl, rfl, fun w => ?_⟩, rfl, rfl, fun _ => rfl⟩, fun w hw => ?_⟩
  · simp only [removeTaskRunner]
    split
    · exact unBind_isTerminated r _
    · rfl
  · simp [removeTaskRunner, State.held, hw, Worker.unBind_held]

/-- `RemoveSubTaskRunner` does nothing, or erases the runner from one worker. -/
theorem removeSubTaskRunner_cases (s : State) (r sub : RunnerId) :
    (((s.runner r).hasSubRunner = false ∨ s.lock (s.runner r).worker = none) ∧
      (s.removeSubTaskRunner r sub).2 = s) ∨
    ∃ w, (s.runner r).hasSubRunner = true ∧ s.lock (s.runner r).worker = some w ∧
      SameBooks s (s.removeSubTaskRunner r sub).2 ∧
      (s.removeSubTaskRunner r sub).2.busy = s.busy ∧
      (s.removeSubTaskRunner r sub).2.held =
        Function.update s.held w (Worker.erased sub (s.held w)) := by
  unfold removeSubTaskRunner
  cases hs : (s.runner r).hasSubRunner with
  | false => exact Or.inl ⟨Or.inl rfl, rfl⟩
  | true =>
    simp only [↓reduceIte]
    cases hl : s.lock (s.runner r).worker with
    | none => exact Or.inl ⟨Or.inr rfl, rfl⟩
    | some w =>
      have hplace := modifyRunner_place (s := s.modifyWorker w (Worker.unBind sub)) (r := r)
        (f := fun x => { x with hasSubRunner := false }) rfl
      exact Or.inr ⟨w, trivial, rfl, ⟨⟨rfl, rfl, rfl,
        update_isTerminated (unBind_isTerminated sub _)⟩, rfl, rfl, hplace⟩, rfl,
        update_held (Worker.unBind_held sub _)⟩

end State

end Footstone
