import Footstone.GetNextTask

/-!
How long a worker sleeps when `GetNextTask` finds nothing to run. The call returns
before it gets to `WaitFor` unless the worker is terminated, and the wait it has
computed by then is the least of the waits of the fronts of its groups in this
call and in all calls before.
-/

namespace Footstone

namespace Worker

/-- The least wait over all the runners of the groups. -/
def earliestWait (now : TimePoint) (runner : Runners) (groups : List Group) : TimeDelta :=
  (groups.flatten.map fun r => (runner r).getNextTimeDelta now).foldr min TimeDelta.max

variable (E : Env)

/-- The call finds no immediate task, no task that is queued or due, and no idle task. -/
structure FindsNothing (clock : Nat → TimePoint) (runner : Runners) (w : Worker) : Prop where
  immediate : w.immediateTaskQueue = []
  queued : ∀ r ∈ (w.lineUp runner).flatten, (runner r).taskQueue = []
  due : ∀ r ∈ (w.lineUp runner).flatten, ∀ e ∈ (runner r).delayedTaskQueue, ∀ i, clock i < e.1
  idle : ∀ r ∈ (w.lineUp runner).flatten, (runner r).idleTaskQueue = []

/-- The call ends in `WaitFor` with the time to the next deadline, and notes when that is. -/
def SleepsUntilDeadline (clock : Nat → TimePoint) (runner : Runners) (w : Worker) : Prop :=
  let delta := earliestWait (clock 0) runner (w.lineUp runner)
  ∃ runner' w', w.getNextTask E clock runner = .ok (.waited delta, runner', w') ∧
    w'.nextTaskTime = clock 0 + delta

variable {E}

/-! ## A call that finds nothing -/

/-- Neither queue of the runner has anything for `GetNext` at `now`, and there is no
idle task. -/
def Quiet (now : TimePoint) (r : TaskRunner) : Prop :=
  r.taskQueue = [] ∧ (∀ e ∈ r.delayedTaskQueue, now < e.1) ∧ r.idleTaskQueue = []

theorem Quiet.getNext {now : TimePoint} {r : TaskRunner} (h : Quiet now r) :
    r.getNext E now = (none, r) := by
  obtain ⟨htask, hdelayed, -⟩ := h
  have hdrain : TaskRunner.drainDelayed E now r.delayedTaskQueue.length r = r := by
    cases hq : r.delayedTaskQueue with
    | nil => rfl
    | cons e queue =>
      have hdue : now < e.1 := hdelayed e (by simp [hq])
      simp [TaskRunner.drainDelayed, TaskRunner.popTaskFromDelayedQueueNoLock, hq, hdue]
  simp only [TaskRunner.getNext, hdrain, htask]

theorem Quiet.popIdleTask {now : TimePoint} {r : TaskRunner} (h : Quiet now r) :
    r.popIdleTask = (none, r) := by
  simp only [TaskRunner.popIdleTask, h.2.2]

/-- The wait of the first runner of a group. -/
def frontWait (now : TimePoint) (runner : Runners) : Group → TimeDelta
  | [] => TimeDelta.max
  | front :: _ => (runner front).getNextTimeDelta now

theorem min_eq_ite (a b : Int64) : min a b = if b < a then b else a := by
  have hmin : min a b = if a ≤ b then a else b := rfl
  rw [hmin]
  by_cases h : a ≤ b
  · rw [if_pos h, if_neg (Int64.not_lt.mpr h)]
  · rw [if_neg h, if_pos (Int64.not_le.mp h)]

theorem pollFront_quiet (now : TimePoint) {front : RunnerId} {st : Scan}
    (hidle : st.idleTask = none) (h : (st.runner front).popIdleTask = (none, st.runner front)) :
    (pollFront now front st).runner = st.runner ∧ (pollFront now front st).idleTask = none ∧
      (pollFront now front st).worker.isTerminated = st.worker.isTerminated ∧
      (pollFront now front st).worker.minWaitTime =
        min st.worker.minWaitTime ((st.runner front).getNextTimeDelta now) := by
  unfold pollFront
  simp only [hidle, h, Function.update_eq_self, Option.map_none, min_eq_ite]
  split <;> exact ⟨rfl, rfl, rfl, rfl⟩

theorem scanGroups_quiet (now : TimePoint) (clock : Nat → TimePoint) (i : Nat)
    {groups : List Group} (st : Scan) (hne : [] ∉ groups) (hidle : st.idleTask = none)
    (h : ∀ r ∈ groups.flatten, ∀ i, Quiet (clock i) (st.runner r)) :
    ∃ st', scanGroups E now clock i groups st = .ok (none, st') ∧ st'.idleTask = none ∧
      st'.worker.isTerminated = st.worker.isTerminated ∧
      st'.worker.minWaitTime =
        (groups.map (frontWait now st.runner)).foldl min st.worker.minWaitTime := by
  induction groups generalizing i st with
  | nil => exact ⟨st, rfl, hidle, rfl, rfl⟩
  | cons g groups ih =>
    cases g with
    | nil => simp at hne
    | cons front members =>
      have hback : members.getLastD front ∈ front :: members := List.getLastD_mem_cons
      have hquiet : ∀ r ∈ front :: members, ∀ i, Quiet (clock i) (st.runner r) := fun r hr =>
        h r (by rw [List.flatten_cons]; exact List.mem_append_left _ hr)
      simp only [scanGroups, (hquiet _ hback i).getNext, Function.update_eq_self]
      obtain ⟨hrunner, hidle', hterm, hmin⟩ := pollFront_quiet now hidle
        (hquiet front List.mem_cons_self i).popIdleTask
      obtain ⟨st', hscan, hi, ht, hm⟩ := @ih (i + 1) (pollFront now front st)
        (fun hm => hne (List.mem_cons_of_mem _ hm)) hidle' (fun r hr => by
          rw [hrunner]
          exact h r (by rw [List.flatten_cons]; exact List.mem_append_right _ hr))
      refine ⟨st', hscan, hi, ht.trans hterm, ?_⟩
      rw [hm, hmin, hrunner, List.map_cons, List.foldl_cons]
      rfl

theorem balanceStage_minWaitTime {runner runner' : Runners} {w w' : Worker}
    (h : balanceStage runner w = .ok (runner', w')) : w'.minWaitTime = w.minWaitTime := by
  obtain ⟨-, rfl⟩ := balanceStage_inv h
  rfl

theorem nil_notMem_lineUp {runner : Runners} {w : Worker} (h : [] ∉ w.held) :
    [] ∉ w.lineUp runner := by
  intro hm
  refine h (List.mem_append.mpr ?_)
  unfold lineUp at hm
  rcases List.mem_append.mp hm with hm | hm
  · split at hm
    · exact Or.inr hm
    · cases hm
  · exact Or.inl ((List.mem_insertionSort _).mp hm)

theorem frontWait_congr {runner runner' : Runners} (h : SameQueues runner runner')
    (now : TimePoint) : frontWait now runner' = frontWait now runner := by
  funext g
  cases g with
  | nil => rfl
  | cons front members =>
    have hdelayed := (Prod.mk.inj (h front).1).2
    simp only [frontWait, TaskRunner.getNextTimeDelta, hdelayed]

/-- The wait is the least of the fronts' waits and of what earlier calls left in
`min_wait_time_`, and only a terminated worker gets to use it. -/
theorem getNextTask_findsNothing {clock : Nat → TimePoint} {runner : Runners} {w : Worker}
    (hne : [] ∉ w.held) (h : FindsNothing clock runner w) :
    ∃ runner' w', w.getNextTask E clock runner =
        .ok (if w.isTerminated then .waited w'.minWaitTime else .nullptr, runner', w') ∧
      w'.minWaitTime =
        ((w.lineUp runner).map (frontWait (clock 0) runner)).foldl min w.minWaitTime := by
  obtain ⟨groups, hs⟩ := sortStage_ok runner fun hm => hne (List.mem_append_left _ hm)
  have hgroups : [] ∉ groups := fun hm =>
    hne ((sortStage_keeps hs).held.subset (List.mem_append_left _ hm))
  obtain ⟨⟨runner₁, w₁⟩, hb⟩ := balanceStage_ok runner
    (w := { w with runningGroups := groups }) hgroups
  obtain ⟨hrun, hqueues⟩ := balanceStage_eq hb
  have hline : w₁.runningGroups = w.lineUp runner := by rw [hrun, sortStage_eq hs, lineUp]
  have hquiet : ∀ r ∈ w₁.runningGroups.flatten, ∀ i, Quiet (clock (i + 1)) (runner₁ r) := by
    intro r hr i
    rw [hline] at hr
    obtain ⟨htask, hdelayed⟩ := Prod.mk.inj (hqueues r).1
    refine ⟨htask.trans (h.queued r hr), fun e he => ?_, (hqueues r).2.trans (h.idle r hr)⟩
    rw [hdelayed] at he
    exact h.due r hr e he _
  obtain ⟨st, hscan, hidle, hterm, hmin⟩ := scanGroups_quiet (E := E) (clock 0)
    (fun i => clock (i + 1)) 0 { runner := runner₁, worker := w₁ }
    (by rw [hline]; exact nil_notMem_lineUp hne) rfl hquiet
  refine ⟨st.runner, st.worker, ?_, ?_⟩
  · have houtcome : outcome none st =
        if w.isTerminated then .waited st.worker.minWaitTime else .nullptr := by
      rw [outcome, hidle, hterm, (balanceStage_keeps hb).isTerminated]
      cases w.isTerminated <;> rfl
    rw [← houtcome]
    unfold getNextTask
    split
    · rename_i hq
      rw [h.immediate] at hq
      cases hq
    · exact Runs.bind_eq_ok.mpr ⟨_, hs, Runs.bind_eq_ok.mpr ⟨_, hb,
        Runs.bind_eq_ok.mpr ⟨_, hscan, rfl⟩⟩⟩
  · rw [hmin, frontWait_congr hqueues, hline, balanceStage_minWaitTime hb]

/-- **A worker that is not terminated never sleeps**: no call ends in `WaitFor`,
whatever is queued and whatever the clock reads. -/
theorem getNextTask_never_sleeps {clock : Nat → TimePoint} {runner : Runners} {w : Worker}
    (h : w.isTerminated = false) : ¬ SleepsUntilDeadline E clock runner w := by
  rintro ⟨runner', w', hcall, -⟩
  cases hq : w.immediateTaskQueue with
  | cons task queue => simp [getNextTask, hq] at hcall
  | nil =>
    obtain ⟨found, st, st', hprep, hscan, hnext, -⟩ := getNextTask_scan hcall hq
    have hterm : st'.worker.isTerminated = false := by
      rw [(scanGroups_keeps hscan).1.isTerminated, hprep.isTerminated, h]
    cases found <;> simp [outcome, hterm] at hnext

end Worker

/-- Runners with one task that is due at 10. -/
def laterRunner : Runners := fun _ =>
  { delayedTaskQueue := [(10, some ⟨0⟩)], priority := 1, groupId := 0, isSchedulable := true }

/-- Two groups, neither with anything to run, and still no `WaitFor`. -/
theorem never_sleeps_pair : ¬ Worker.SleepsUntilDeadline .debug (fun _ => 5) laterRunner
    { runningGroups := [[0], [1, 2]], groupId := 0 } :=
  Worker.getNextTask_never_sleeps rfl

/-- At 5, with a task due at 10 and nothing else, the worker does not sleep. -/
theorem returns_before_deadline :
    Worker.FindsNothing (fun _ => 5) laterRunner { runningGroups := [[0]], groupId := 0 } ∧
    ¬ Worker.SleepsUntilDeadline .debug (fun _ => 5) laterRunner
      { runningGroups := [[0]], groupId := 0 } := by
  constructor
  · refine ⟨rfl, fun _ _ => rfl, fun _ _ e he _ => ?_, fun _ _ => rfl⟩
    rw [List.mem_singleton.mp he]
    decide
  · rintro ⟨runner', w', hcall, -⟩
    have hnull : ∃ runner₁ w₁, Worker.getNextTask .debug (fun _ => 5) laterRunner
        { runningGroups := [[0]], groupId := 0 } = .ok (.nullptr, runner₁, w₁) := ⟨_, _, rfl⟩
    obtain ⟨runner₁, w₁, hnull⟩ := hnull
    rw [hnull] at hcall
    simp at hcall

end Footstone
