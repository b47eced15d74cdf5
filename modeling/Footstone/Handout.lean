import Footstone.WellFormed

/-!
What `CreateTaskRunner` hands out. Of its four exits only the one for the default
group sets all of a runner up: the exits for a group id leave out
`UpdateWorkerSpecific`, and an unschedulable runner gets no worker at all.
-/

namespace Footstone

namespace Worker

/-- `WorkerKeyCreate`. The array in which the key is marked as used is a copy of
the one in the map, and goes away with the call. -/
def workerKeyCreate (taskRunnerId : RunnerId) (destruct : Option Nat) (w : Worker) : Int × KeyArray :=
  match w.workerKeyMap[taskRunnerId]? with
  | none => (-1, KeyArray.empty)
  | some array =>
    match (List.finRange kWorkerKeysMax).find? fun i => !(array i).isUsed with
    | some i => (i, Function.update array i { isUsed := true, destruct := destruct })
    | none => (-1, array)

/-- Every key of the runner is in use. -/
def AllKeysUsed (r : RunnerId) (w : Worker) : Prop :=
  ∃ array, w.workerKeyMap[r]? = some array ∧ ∀ i, (array i).isUsed = true

theorem workerKeyCreate_eq_neg_one {r : RunnerId} {destruct : Option Nat} {w : Worker}
    (h : (w.workerKeyCreate r destruct).1 = -1) : r ∈ w.workerKeyMap → w.AllKeysUsed r := by
  intro hr
  obtain ⟨array, harray⟩ : ∃ array, w.workerKeyMap[r]? = some array :=
    ⟨_, Std.TreeMap.getElem?_eq_some_getElem hr⟩
  refine ⟨array, harray, fun i => ?_⟩
  unfold workerKeyCreate at h
  simp only [harray] at h
  split at h
  · simp at h
  · rename_i hnone
    simpa using List.find?_eq_none.mp hnone i (List.mem_finRange i)

end Worker

namespace State

variable {E : Env}

/-- `RunnerKeyCreate` of the runner `r`, called on the thread of the worker `thread`. -/
def runnerKeyCreate (r : RunnerId) (destruct : Option Nat) (thread : WorkerId) (s : State) :
    Except Fault Int := do
  check (s.worker thread).isTaskRunning
  match (s.worker thread).localRunner, s.lock (s.runner r).worker with
  | some taskRunnerId, some w => return ((s.worker w).workerKeyCreate taskRunnerId destruct).1
  | _, _ => .error .check

/-- The thread of the worker `w` is in a task of the runner `r`. -/
def inTask (r : RunnerId) (w : WorkerId) (s : State) : State :=
  s.modifyWorker w fun x => { x with isTaskRunning := true, localRunner := some r }

/-- The runner has a worker of the pool, a group of it, and both map entries. -/
def InstalledOn (s : State) (r : RunnerId) (w : WorkerId) : Prop :=
  (s.runner r).worker = some w ∧ w ∈ s.workers ∧ s.Holds w r ∧
    r ∈ (s.worker w).workerKeyMap ∧ r ∈ (s.worker w).specificMap

/-- What one may do with a runner that was handed out. -/
structure HandedOut (E : Env) (s : State) (r : RunnerId) : Prop where
  installed : ∃ w, s.InstalledOn r w
  postTask : ∀ task, ∃ s', step E s (.postTask r task) = .ok s'
  postDelayedTask : ∀ now task delay, ∃ s', step E s (.postDelayedTask r now task delay) = .ok s'
  postIdleTask : ∀ task, ∃ s', step E s (.postIdleTask r task) = .ok s'
  runnerKeyCreate : ∀ destruct thread,
    (s.inTask r thread).runnerKeyCreate r destruct thread = .ok (-1) →
      ∃ w, (s.runner r).worker = some w ∧ (s.worker w).AllKeysUsed r

/-- The runner is schedulable and there is a worker for it, which has, if it is not
to get the entries of the default group, entries for the new id already. -/
def HandsOut (s : State) (groupId : UInt32) (isSchedulable : Bool) : Prop :=
  isSchedulable = true ∧ ∃ w, s.spot groupId = some w ∧
    (groupId = kDefaultGroupId ∨ s.globalTaskRunnerId ∈ (s.worker w).workerKeyMap ∧
      s.globalTaskRunnerId ∈ (s.worker w).specificMap)

/-! ## What follows from the installation -/

theorem InstalledOn.post {s : State} {r : RunnerId} {w : WorkerId} (h : s.InstalledOn r w)
    (hr : r < s.globalTaskRunnerId) {queue : TaskRunner → TaskRunner}
    (hq : ∀ x, (queue x).place = x.place) : ∃ s', s.post r queue = .ok s' := by
  have hworker : (queue (s.runner r)).worker = some w := by
    have := hq (s.runner r)
    simp only [TaskRunner.place, Prod.mk.injEq] at this
    rw [this.1, h.1]
  have hlock : ((s.modifyRunner r queue).lock ((s.modifyRunner r queue).runner r).worker) = some w := by
    simp [modifyRunner, lock_eq_some, hworker, h.2.1]
  refine ⟨s.modifyRunner r queue, Runs.bind_eq_ok.mpr ⟨(), known_eq_ok.mpr (by simpa using hr), ?_⟩⟩
  exact Runs.bind_eq_ok.mpr ⟨(), check_eq_ok.mpr (by rw [hlock]; rfl), rfl⟩

theorem inTask_workerKeyMap (s : State) (r : RunnerId) (thread w : WorkerId) :
    ((s.inTask r thread).worker w).workerKeyMap = (s.worker w).workerKeyMap := by
  by_cases h : w = thread
  · subst h; simp [inTask, modifyWorker, setWorker]
  · simp [inTask, modifyWorker, setWorker, h]

theorem InstalledOn.runnerKeyCreate {s : State} {r : RunnerId} {w : WorkerId} (h : s.InstalledOn r w)
    {destruct : Option Nat} {thread : WorkerId}
    (hk : (s.inTask r thread).runnerKeyCreate r destruct thread = .ok (-1)) :
    (s.worker w).AllKeysUsed r := by
  have hlock : (s.inTask r thread).lock ((s.inTask r thread).runner r).worker = some w :=
    lock_eq_some.mpr ⟨h.1, h.2.1⟩
  have hlocal : ((s.inTask r thread).worker thread).localRunner = some r := by
    simp [inTask, modifyWorker, setWorker]
  obtain ⟨_, -, hk⟩ := Runs.bind_eq_ok.mp hk
  rw [hlock, hlocal] at hk
  have hmap := inTask_workerKeyMap s r thread w
  have := Worker.workerKeyCreate_eq_neg_one (Except.ok.inj hk) (hmap ▸ h.2.2.2.1)
  unfold Worker.AllKeysUsed at this ⊢
  rwa [hmap] at this

theorem InstalledOn.handedOut {s : State} {r : RunnerId} {w : WorkerId} (h : s.InstalledOn r w)
    (hr : r < s.globalTaskRunnerId) : s.HandedOut E r where
  installed := ⟨w, h⟩
  postTask task := h.post hr fun x => TaskRunner.postTask_place task x
  postDelayedTask now task delay := h.post hr fun x => TaskRunner.postDelayedTask_place E now task delay x
  postIdleTask task := h.post hr fun x => TaskRunner.postIdleTask_place task x
  runnerKeyCreate _ _ hk := ⟨w, h.1, h.runnerKeyCreate hk⟩

/-! ## What the exits install -/

/-- Only the exit for the default group writes the maps. -/
theorem createTaskRunner_maps {s s' : State} {groupId priority : UInt32} {w : WorkerId}
    (hspot : s.spot groupId = some w) (h : s.createTaskRunner groupId priority true = .ok s') :
    ((s'.worker w).workerKeyMap = if groupId = kDefaultGroupId then
        (s.worker w).workerKeyMap.insert s.globalTaskRunnerId KeyArray.empty
      else (s.worker w).workerKeyMap) ∧
    (s'.worker w).specificMap = if groupId = kDefaultGroupId then
        (s.worker w).specificMap.insert s.globalTaskRunnerId SpecificArray.empty
      else (s.worker w).specificMap := by
  rw [createTaskRunner_eq, hspot] at h
  cases h
  simp [placed]

theorem Created.installedOn_iff {s s' : State} {groupId priority : UInt32} {w v : WorkerId}
    (hspot : s.spot groupId = some w) (h : s.createTaskRunner groupId priority true = .ok s')
    (hc : Created s s' w groupId priority) : s'.InstalledOn s.globalTaskRunnerId v ↔ v = w ∧
      (groupId = kDefaultGroupId ∨ s.globalTaskRunnerId ∈ (s.worker w).workerKeyMap ∧
        s.globalTaskRunnerId ∈ (s.worker w).specificMap) := by
  obtain ⟨hkeys, hspecific⟩ := createTaskRunner_maps hspot h
  have hworker : (s'.runner s.globalTaskRunnerId).worker = some w := by simp [hc.runner]
  have hmem : w ∈ s'.workers := hc.workers ▸ spot_mem hspot
  have hholds : s'.Holds w s.globalTaskRunnerId := hc.holds.mpr (Or.inr ⟨rfl, rfl⟩)
  unfold InstalledOn
  rw [hworker, Option.some_inj, eq_comm]
  refine and_congr_right fun hv => ?_
  subst hv
  rw [hkeys, hspecific]
  by_cases hg : groupId = kDefaultGroupId <;> simp [hg, hmem, hholds]

end State

/-- **A runner is fully installed when it is schedulable and of the default group.**
For every state, what `CreateTaskRunner` returns is installed on a worker, can be
posted to and can create keys exactly when the runner is schedulable, there is a
worker to put it on, and the runner is of the default group or that worker has
entries for its id from before. -/
theorem handed_out_iff (E : Env) (s : State) (groupId priority : UInt32) (isSchedulable : Bool) :
    (∃ s', s.createTaskRunner groupId priority isSchedulable = .ok s' ∧
      s'.HandedOut E s.globalTaskRunnerId) ↔ s.HandsOut groupId isSchedulable := by
  constructor
  · rintro ⟨s', h, hout⟩
    obtain ⟨v, hv⟩ := hout.installed
    rcases State.createTaskRunner_cases h with ⟨-, rfl⟩ | ⟨rfl, w, hspot, hc⟩
    · have hnone := hv.1
      simp at hnone
    · exact ⟨rfl, w, hspot, ((hc.installedOn_iff hspot h).mp hv).2⟩
  · rintro ⟨rfl, w, hspot, hentries⟩
    obtain ⟨s', h⟩ := State.createTaskRunner_returns priority hspot
    rcases State.createTaskRunner_cases h with ⟨hf, -⟩ | ⟨-, v, hspot', hc⟩
    · cases hf
    · obtain rfl := Option.some.inj (hspot.symm.trans hspot')
      have hon := (hc.installedOn_iff hspot h).mpr ⟨rfl, hentries⟩
      exact ⟨s', h, hon.handedOut (by rw [hc.globalTaskRunnerId]; exact Nat.lt_succ_self _)⟩

/-- The first runner with the group id 5 has no entries on its worker. -/
theorem grouped_not_handedOut : ¬ ∃ s', (State.new .debug 2).createTaskRunner 5 1 true = .ok s' ∧
    s'.HandedOut .debug (State.new .debug 2).globalTaskRunnerId := by
  rintro ⟨s', h, hout⟩
  obtain ⟨v, hv⟩ := hout.installed
  rcases State.createTaskRunner_cases h with ⟨hf, -⟩ | ⟨-, w, hspot, hc⟩
  · cases hf
  · have hw : w = 0 := Option.some.inj (hspot.symm.trans (by decide))
    subst hw
    rcases ((hc.installedOn_iff hspot h).mp hv).2 with hg | ⟨hkeys, -⟩
    · exact absurd hg (by decide)
    · exact absurd hkeys (by decide)

end Footstone
