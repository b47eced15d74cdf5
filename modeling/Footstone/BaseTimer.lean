import Footstone.TaskRunner

/-!
`BaseTimer` (`base_timer.h`, `base_timer.cc`). A call reads the clock once or several
times, and what it posts to the task runner is returned: the deadlines of the
callbacks, each of which comes back to `OnScheduledTaskInvoked`. A callback is never
taken back; it is judged when it comes.
-/

namespace Footstone

/-- What a call reads from the clock, in this order: for its test, for
`desired_run_time_`, for the deadline of the callback and for `scheduled_run_time_`.
Most calls make some of these readings only. -/
structure Readings where
  test : TimePoint
  desired : TimePoint
  posted : TimePoint
  scheduled : TimePoint
  deriving DecidableEq, Repr

namespace Readings

/-- The same time at every reading. -/
def once (now : TimePoint) : Readings := ⟨now, now, now, now⟩

/-- The clock does not run backwards after it has read `clock`. -/
def Follow (clock : TimePoint) (now : Readings) : Prop :=
  clock ≤ now.test ∧ now.test ≤ now.desired ∧ now.desired ≤ now.posted ∧
    now.posted ≤ now.scheduled

instance (clock : TimePoint) (now : Readings) : Decidable (now.Follow clock) :=
  inferInstanceAs (Decidable (_ ∧ _))

theorem follow_once {clock now : TimePoint} : (once now).Follow clock ↔ clock ≤ now := by
  simp [Follow, once]

end Readings

structure BaseTimer where
  /-- Whether `task_runner_.lock()` still finds the task runner. -/
  taskRunner : Bool
  delay : TimeDelta := 0
  isRunning : Bool := false
  desiredRunTime : TimePoint := 0
  scheduledRunTime : TimePoint := 0
  deriving DecidableEq, Repr

namespace BaseTimer

/-- `Stop` before its `OnStop`. -/
def stop (t : BaseTimer) : BaseTimer := { t with isRunning := false }

/-- `PostDelayedTask` reads the clock for the deadline, and then it is read once more. A
task that is posted without a delay may run at once. -/
def scheduleNewTask (now : Readings) (delay : TimeDelta) (t : BaseTimer) :
    BaseTimer × List TimePoint :=
  if !t.taskRunner then (t, [])
  else if 0 < delay then
    ({ t with
        isRunning := true
        scheduledRunTime := now.scheduled + delay
        desiredRunTime := now.scheduled + delay },
      [now.posted + delay])
  else
    ({ t with
        isRunning := true, scheduledRunTime := now.scheduled, desiredRunTime := now.scheduled },
      [now.posted])

def reset (now : Readings) (t : BaseTimer) : BaseTimer × List TimePoint :=
  if t.scheduledRunTime < now.test then scheduleNewTask now t.delay t
  else
    let t := { t with
      desiredRunTime := if 0 < t.delay then now.desired + t.delay else now.desired }
    if t.scheduledRunTime ≤ t.desiredRunTime then ({ t with isRunning := true }, [])
    else scheduleNewTask now t.delay t

def startInternal (now : Readings) (delay : TimeDelta) (t : BaseTimer) :
    BaseTimer × List TimePoint :=
  reset now { t with delay := delay }

/-- What `OnScheduledTaskInvoked` comes to: it does nothing, it goes on to
`RunUserTask`, or it schedules anew for the rest of the time. -/
inductive Invoked where
  | ignored
  | runUserTask
  | rescheduled (t : BaseTimer) (posted : List TimePoint)

def onScheduledTaskInvoked (now : Readings) (t : BaseTimer) : Invoked :=
  if !t.isRunning then .ignored
  else if t.scheduledRunTime < t.desiredRunTime ∧ now.test < t.desiredRunTime then
    let (t, posted) := scheduleNewTask now (t.desiredRunTime - now.test) t
    .rescheduled t posted
  else .runUserTask

/-! ## What the calls do -/

/-- The time a delay from `now` on ends. -/
def runTime (now : TimePoint) (delay : TimeDelta) : TimePoint := if 0 < delay then now + delay else now

/-- Scheduled for `time`, with the callback for it. -/
def scheduled (time : TimePoint) (t : BaseTimer) : BaseTimer :=
  { t with isRunning := true, scheduledRunTime := time, desiredRunTime := time }

theorem scheduleNewTask_eq (now : Readings) (delay : TimeDelta) {t : BaseTimer}
    (h : t.taskRunner = true) : t.scheduleNewTask now delay =
      (t.scheduled (runTime now.scheduled delay), [runTime now.posted delay]) := by
  unfold scheduleNewTask runTime scheduled
  rw [h]
  by_cases hd : 0 < delay <;> simp [hd]

theorem scheduleNewTask_gone (now : Readings) (delay : TimeDelta) {t : BaseTimer}
    (h : t.taskRunner = false) : t.scheduleNewTask now delay = (t, []) := by
  simp [scheduleNewTask, h]

/-- `Reset` comes at a time that is not past the last schedule, for a time that is not
before it, and counts on its callback. -/
def TakesOver (now : Readings) (t : BaseTimer) : Prop :=
  now.test ≤ t.scheduledRunTime ∧ t.scheduledRunTime ≤ runTime now.desired t.delay

instance (now : Readings) (t : BaseTimer) : Decidable (t.TakesOver now) :=
  inferInstanceAs (Decidable (_ ∧ _))

/-- `Reset` takes the last schedule over, or calls `ScheduleNewTask`. -/
theorem reset_eq (now : Readings) (t : BaseTimer) :
    (t.TakesOver now ∧ t.reset now =
      ({ t with isRunning := true, desiredRunTime := runTime now.desired t.delay }, [])) ∨
    (¬ t.TakesOver now ∧ ∃ desired, t.reset now =
      scheduleNewTask now t.delay { t with desiredRunTime := desired }) := by
  have hrun : (if 0 < t.delay then now.desired + t.delay else now.desired) =
      runTime now.desired t.delay := rfl
  unfold reset TakesOver
  rw [hrun]
  by_cases hpast : t.scheduledRunTime < now.test
  · rw [if_pos hpast]
    exact Or.inr ⟨fun h => Int64.not_le.mpr hpast h.1, t.desiredRunTime, rfl⟩
  · rw [if_neg hpast]
    dsimp only
    by_cases hle : t.scheduledRunTime ≤ runTime now.desired t.delay
    · rw [if_pos hle]
      exact Or.inl ⟨⟨Int64.not_lt.mp hpast, hle⟩, rfl⟩
    · rw [if_neg hle]
      exact Or.inr ⟨fun h => hle h.2, _, rfl⟩

/-- On a task runner that is alive the callbacks stay as they are, or one is posted. -/
theorem reset_cases (now : Readings) {t : BaseTimer} (h : t.taskRunner = true) :
    (t.TakesOver now ∧ t.reset now =
      ({ t with isRunning := true, desiredRunTime := runTime now.desired t.delay }, [])) ∨
    (¬ t.TakesOver now ∧ t.reset now =
      (t.scheduled (runTime now.scheduled t.delay), [runTime now.posted t.delay])) := by
  refine (t.reset_eq now).imp_right ?_
  rintro ⟨hnot, desired, heq⟩
  refine ⟨hnot, heq.trans ?_⟩
  rw [scheduleNewTask_eq now t.delay (by exact h)]
  rfl

/-- A callback that comes now goes on to `RunUserTask`. -/
def Due (now : TimePoint) (t : BaseTimer) : Prop :=
  t.isRunning = true ∧ (t.scheduledRunTime < t.desiredRunTime → t.desiredRunTime ≤ now)

instance (now : TimePoint) (t : BaseTimer) : Decidable (t.Due now) :=
  inferInstanceAs (Decidable (_ ∧ _))

theorem onScheduledTaskInvoked_eq_ignored {now : Readings} {t : BaseTimer} :
    t.onScheduledTaskInvoked now = .ignored ↔ t.isRunning = false := by
  unfold onScheduledTaskInvoked
  cases t.isRunning with
  | false => simp
  | true =>
    by_cases hc : t.scheduledRunTime < t.desiredRunTime ∧ now.test < t.desiredRunTime <;> simp [hc]

/-- One that comes before the time to run at is posted once more for the rest. -/
theorem onScheduledTaskInvoked_eq_rescheduled {now : Readings} {t base : BaseTimer}
    {posted : List TimePoint} (h : t.taskRunner = true) :
    t.onScheduledTaskInvoked now = .rescheduled base posted ↔
      t.isRunning = true ∧ t.scheduledRunTime < t.desiredRunTime ∧ now.test < t.desiredRunTime ∧
        t.scheduled (runTime now.scheduled (t.desiredRunTime - now.test)) = base ∧
        [runTime now.posted (t.desiredRunTime - now.test)] = posted := by
  unfold onScheduledTaskInvoked
  rw [scheduleNewTask_eq now _ h]
  cases t.isRunning with
  | false => simp
  | true =>
    by_cases hc : t.scheduledRunTime < t.desiredRunTime ∧ now.test < t.desiredRunTime
    · simp [hc]
    · simp only [Bool.not_true, Bool.false_eq_true, if_false, if_neg hc, reduceCtorEq, true_and,
        false_iff]
      exact fun he => hc ⟨he.1, he.2.1⟩

theorem onScheduledTaskInvoked_eq_runUserTask {now : Readings} {t : BaseTimer} :
    t.onScheduledTaskInvoked now = .runUserTask ↔ t.Due now.test := by
  unfold onScheduledTaskInvoked Due
  cases t.isRunning with
  | false => simp
  | true =>
    by_cases hc : t.scheduledRunTime < t.desiredRunTime ∧ now.test < t.desiredRunTime
    · simp [hc, Int64.not_le.mpr hc.2]
    · simp only [Bool.not_true, Bool.false_eq_true, if_false, if_neg hc, true_and, true_iff]
      exact fun hlt => Int64.not_lt.mp fun hn => hc ⟨hlt, hn⟩

end BaseTimer

end Footstone
