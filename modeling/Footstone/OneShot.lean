import Footstone.Timers
import Mathlib.Data.List.Count

/-!
Whether a `OneShotTimer` has a task whenever it comes to run one. `Stop` and the
firing clear `user_task_`, and `Reset` starts the timer without looking for one:
after it, a callback that is still out, or `FireNow`, runs a null task. Which
task is run, and how often, is right in any case.
-/

namespace Footstone

open Runs

namespace BaseTimer

/-- `Reset` starts a timer that is not running: there is a task runner to post to,
or the last schedule is taken over. -/
def Rearms (now : Readings) (t : BaseTimer) : Prop := t.taskRunner = true ∨ t.TakesOver now

instance (now : Readings) (t : BaseTimer) : Decidable (t.Rearms now) :=
  inferInstanceAs (Decidable (_ ∨ _))

theorem reset_isRunning (now : Readings) (t : BaseTimer) :
    (t.reset now).1.isRunning = true ↔ t.isRunning = true ∨ t.Rearms now := by
  rcases t.reset_eq now with ⟨htakes, heq⟩ | ⟨hnot, desired, heq⟩ <;> rw [heq]
  · exact iff_of_true rfl (Or.inr (Or.inr htakes))
  · rcases Bool.eq_false_or_eq_true t.taskRunner with h | h
    · rw [scheduleNewTask_eq now _ (by exact h)]
      exact iff_of_true rfl (Or.inr (Or.inl h))
    · rw [scheduleNewTask_gone now _ (by exact h)]
      simp [Rearms, h, hnot]

end BaseTimer

/-- `Start` is given a task. -/
def TimerAction.GivesTask : TimerAction → Prop
  | .start _ task _ => task ≠ none
  | _ => True

instance : DecidablePred TimerAction.GivesTask := fun a => by
  cases a <;> unfold TimerAction.GivesTask <;> infer_instance

/-- The task a call starts the timer with. -/
def TimerAction.started : TimerAction → List Task
  | .start _ (some task) _ => [task]
  | _ => []

/-- A timer with the tasks it was started with, and with the tasks it ran, each
with that of the latest `Start` before. -/
structure OneShotState where
  timer : TimerState
  starts : List Task := []
  ran : List (Task × Option Task) := []

namespace OneShotState

/-- A new one-shot timer. -/
def new (taskRunner : Bool) : OneShotState where
  timer := .new .oneShot taskRunner

def step (s : OneShotState) (a : TimerAction) : Except TimerFault OneShotState := do
  let timer ← s.timer.step a
  return {
    timer := timer
    starts := s.starts ++ a.started
    ran := s.ran ++ (timer.runs.drop s.timer.runs.length).map fun r => (r.task, s.starts.getLast?) }

/-- No step runs a null task, every task that was run is that of the latest `Start`,
and none was run more often than it was given. -/
def AlwaysHasTask (s : OneShotState) : Prop :=
  (∀ a, s.timer.step a ≠ .error .nullTask) ∧ (∀ p ∈ s.ran, p.2 = some p.1) ∧
    ∀ task, (s.ran.map Prod.fst).count task ≤ s.starts.count task

/-- `Reset` does not start the timer while there is no task. -/
def ResetWithTask (s : OneShotState) : TimerAction → Prop
  | .reset now => s.timer.timer.base.Rearms now → s.timer.timer.userTask ≠ none
  | _ => True

instance (s : OneShotState) : DecidablePred s.ResetWithTask := fun a => by
  cases a <;> unfold ResetWithTask <;> infer_instance

/-- A running timer has a task. -/
def Loaded (s : OneShotState) : Prop :=
  s.timer.timer.base.isRunning = true → s.timer.timer.userTask ≠ none

/-- What holds of the tasks whatever is called. -/
structure Accounted (s : OneShotState) : Prop where
  kind : s.timer.timer.kind = .oneShot
  latest : ∀ task, s.timer.timer.userTask = some task → s.starts.getLast? = some task
  ran : ∀ p ∈ s.ran, p.2 = some p.1
  once : ∀ task, (s.ran.map Prod.fst).count task + s.timer.timer.userTask.toList.count task ≤
    s.starts.count task

end OneShotState

namespace TimerState

/-! ## Null tasks -/

theorem run_ne_nullTask {s : TimerState} (h : s.timer.userTask ≠ none) (now : Readings)
    (byCallback : Bool) : s.run now byCallback ≠ .error .nullTask := by
  obtain ⟨task, ht⟩ := Option.ne_none_iff_exists'.mp h
  refine bind_ne_error ?_ fun _ _ => by simp [pure, Except.pure]
  unfold UserTimer.runUserTask
  rw [ht]
  cases s.timer.kind <;> simp

/-- While a running timer has a task, no call runs a null task. -/
theorem step_ne_nullTask {s : TimerState}
    (h : s.timer.base.isRunning = true → s.timer.userTask ≠ none) (a : TimerAction) :
    s.step a ≠ .error .nullTask := by
  have htick : ∀ now, s.tick now ≠ .error .nullTask := fun now => by
    unfold tick
    split <;> simp
  cases a with
  | start now task delay => exact bind_ne_error (htick now) fun _ _ => by simp [pure, Except.pure]
  | reset now => exact bind_ne_error (htick now) fun _ _ => by simp [pure, Except.pure]
  | stop => simp [step]
  | fireNow now =>
    refine bind_ne_error (htick (.once now)) fun s₁ hs₁ => ?_
    obtain ⟨-, rfl⟩ := tick_eq_ok.mp hs₁
    split
    · rename_i hc
      exact run_ne_nullTask (s := { s with clock := now }) (h hc.2) (.once now) false
    · simp
  | callback i now =>
    refine bind_ne_error (htick now) fun s₁ hs₁ => ?_
    obtain ⟨-, rfl⟩ := tick_eq_ok.mp hs₁
    dsimp only
    split
    · simp
    · split
      · simp
      · split
        · simp [pure, Except.pure]
        · simp [pure, Except.pure]
        · rename_i hrun
          have hdue := BaseTimer.onScheduledTaskInvoked_eq_runUserTask.mp hrun
          refine run_ne_nullTask ?_ now true
          exact h hdue.1

/-- `FireNow` on a running one-shot timer without a task. -/
theorem fireNow_nullTask {s : TimerState} (hkind : s.timer.kind = .oneShot)
    (hrun : s.timer.base.isRunning = true) (hnone : s.timer.userTask = none) :
    s.step (.fireNow s.clock) = .error .nullTask := by
  have htick : s.tick (.once s.clock) = .ok s :=
    tick_eq_ok.mpr ⟨Readings.follow_once.mpr Int64.le_rfl, rfl⟩
  simp only [step, htick, bind, Except.bind]
  rw [if_pos ⟨hkind, hrun⟩]
  simp [run, UserTimer.runUserTask, hnone, bind, Except.bind]

/-- The calls that may come to `RunUserTask`. -/
def Fires : TimerAction → Prop
  | .fireNow _ | .callback _ _ => True
  | _ => False

/-- What a step does to a one-shot timer, as far as its task goes. -/
inductive OneShotStep (s s' : TimerState) : TimerAction → Prop where
  | started (now : Readings) (task : TaskPtr) (delay : TimeDelta) (hruns : s'.runs = s.runs)
      (htask : s'.timer.userTask = task) : OneShotStep s s' (.start now task delay)
  | reset (now : Readings) (hruns : s'.runs = s.runs)
      (htask : s'.timer.userTask = s.timer.userTask)
      (hrun : s'.timer.base.isRunning = true ↔
        s.timer.base.isRunning = true ∨ s.timer.base.Rearms now) : OneShotStep s s' (.reset now)
  | stopped (hruns : s'.runs = s.runs) (htask : s'.timer.userTask = none)
      (hrun : s'.timer.base.isRunning = false) : OneShotStep s s' .stop
  | waited {a : TimerAction} (ha : Fires a) (hruns : s'.runs = s.runs)
      (htask : s'.timer.userTask = s.timer.userTask)
      (hrun : s'.timer.base.isRunning = true → s.timer.base.isRunning = true) : OneShotStep s s' a
  | fired {a : TimerAction} (ha : Fires a) (r : TaskRun) (hruns : s'.runs = s.runs ++ [r])
      (htask : s.timer.userTask = some r.task) (hnone : s'.timer.userTask = none)
      (hrun : s'.timer.base.isRunning = false) : OneShotStep s s' a

theorem run_fired {now : Readings} {byCallback : Bool} {s s' : TimerState}
    (hkind : s.timer.kind = .oneShot) (h : s.run now byCallback = .ok s') :
    s'.timer.kind = .oneShot ∧ ∃ r : TaskRun, s'.runs = s.runs ++ [r] ∧
      s.timer.userTask = some r.task ∧ s'.timer.userTask = none ∧
      s'.timer.base.isRunning = false := by
  obtain ⟨task, ht, ⟨-, rfl⟩ | ⟨hk, -⟩⟩ := run_eq_ok.mp h
  · exact ⟨hkind, _, rfl, ht, by simp [UserTimer.stop, hkind], rfl⟩
  · rw [hkind] at hk
    cases hk

theorem step_oneShot {s s' : TimerState} {a : TimerAction} (hkind : s.timer.kind = .oneShot)
    (hs : s.step a = .ok s') : s'.timer.kind = .oneShot ∧ OneShotStep s s' a := by
  cases a with
  | start now task delay =>
    obtain ⟨-, rfl⟩ := step_start_eq_ok.mp hs
    exact ⟨hkind, .started now task delay rfl rfl⟩
  | reset now =>
    obtain ⟨-, rfl⟩ := step_reset_eq_ok.mp hs
    exact ⟨hkind, .reset now rfl rfl (BaseTimer.reset_isRunning now _)⟩
  | stop =>
    cases hs
    exact ⟨hkind, .stopped rfl (by simp [UserTimer.stop, hkind]) rfl⟩
  | fireNow now =>
    obtain ⟨-, -, -, hrun⟩ := step_fireNow_eq_ok.mp hs
    obtain ⟨hk, r, hruns, ht, hnone, hstop⟩ := run_fired (by exact hkind) hrun
    exact ⟨hk, .fired trivial r hruns ht hnone hstop⟩
  | callback i now =>
    obtain ⟨_, ⟨-, -, rfl⟩, hcase⟩ := step_callback_eq_ok.mp hs
    rcases hcase with ⟨-, rfl⟩ | ⟨base, posted, hi, rfl⟩ | ⟨-, hrun⟩
    · exact ⟨hkind, .waited trivial rfl rfl id⟩
    · refine ⟨hkind, .waited trivial rfl rfl fun _ => ?_⟩
      by_contra hstopped
      have hignored : s.timer.base.onScheduledTaskInvoked now = .ignored :=
        BaseTimer.onScheduledTaskInvoked_eq_ignored.mpr (by simpa using hstopped)
      cases hignored.symm.trans hi
    · obtain ⟨hk, r, hruns, ht, hnone, hstop⟩ := run_fired (by exact hkind) hrun
      exact ⟨hk, .fired trivial r hruns ht hnone hstop⟩

end TimerState

namespace OneShotState

variable {s s' : OneShotState} {a : TimerAction}

theorem Accounted.alwaysHasTask_iff (h : s.Accounted) : s.AlwaysHasTask ↔ s.Loaded := by
  constructor
  · intro hs hrun hnone
    exact hs.1 _ (TimerState.fireNow_nullTask h.kind hrun hnone)
  · intro hs
    refine ⟨TimerState.step_ne_nullTask hs, h.ran, fun task => ?_⟩
    have honce := h.once task
    omega

/-- A call that starts nothing and runs nothing keeps the task or drops it. -/
theorem Accounted.quiet (h : s.Accounted) {timer : TimerState} (hkind : timer.timer.kind = .oneShot)
    (hnew : a.started = []) (hruns : timer.runs = s.timer.runs)
    (htask : timer.timer.userTask = s.timer.timer.userTask ∨ timer.timer.userTask = none) :
    Accounted {
      timer := timer
      starts := s.starts ++ a.started
      ran := s.ran ++
        (timer.runs.drop s.timer.runs.length).map fun r => (r.task, s.starts.getLast?) } := by
  refine ⟨hkind, ?_, ?_, ?_⟩ <;> simp only [hruns, hnew, List.drop_length, List.map_nil,
    List.append_nil]
  · intro task ht
    rcases htask with htask | htask <;> rw [htask] at ht
    · exact h.latest task ht
    · cases ht
  · exact h.ran
  · intro task
    have honce := h.once task
    rcases htask with htask | htask <;> rw [htask]
    · exact honce
    · simp only [Option.toList_none, List.count_nil]
      omega

theorem Accounted.step (h : s.Accounted) (ha : a.GivesTask) (hs : s.step a = .ok s') :
    s'.Accounted := by
  obtain ⟨timer, hstep, hs⟩ := bind_eq_ok.mp hs
  cases hs
  obtain ⟨hkind, hcase⟩ := TimerState.step_oneShot h.kind hstep
  cases hcase with
  | started now task delay hruns htask =>
    obtain ⟨t, rfl⟩ := Option.ne_none_iff_exists'.mp ha
    refine ⟨hkind, fun u hu => ?_, by simpa [hruns] using h.ran, fun u => ?_⟩
    · rw [htask] at hu
      simpa [TimerAction.started] using hu
    · have honce := h.once u
      simp only [hruns, List.drop_length, List.map_nil, List.append_nil, htask,
        TimerAction.started, List.count_append, Option.toList_some]
      omega
  | reset now hruns htask hrun => exact h.quiet hkind rfl hruns (Or.inl htask)
  | stopped hruns htask hrun => exact h.quiet hkind rfl hruns (Or.inr htask)
  | waited hf hruns htask hrun =>
    have hnew : a.started = [] := by cases a <;> first | rfl | exact hf.elim
    exact h.quiet hkind hnew hruns (Or.inl htask)
  | fired hf r hruns htask hnone hrun =>
    have hnew : a.started = [] := by cases a <;> first | rfl | exact hf.elim
    have hlatest := h.latest r.task htask
    refine ⟨hkind, by simp [hnone], ?_, fun u => ?_⟩
    · simp only [hruns, List.drop_left, List.map_cons, List.map_nil, hlatest]
      intro p hp
      rcases List.mem_append.mp hp with hp | hp
      · exact h.ran p hp
      · rw [List.mem_singleton.mp hp]
    · have honce := h.once u
      rw [htask] at honce
      simpa [hruns, hnone, hnew, List.count_append] using honce

/-- Only `Reset` starts a timer that has no task. -/
theorem loaded_step_iff (h : s.Accounted) (hl : s.Loaded) (ha : a.GivesTask)
    (hs : s.step a = .ok s') : s'.Loaded ↔ s.ResetWithTask a := by
  obtain ⟨timer, hstep, hs⟩ := bind_eq_ok.mp hs
  cases hs
  unfold Loaded at hl ⊢
  obtain ⟨-, hcase⟩ := TimerState.step_oneShot h.kind hstep
  cases hcase with
  | started now task delay hruns htask =>
    refine iff_of_true (fun _ => ?_) trivial
    rw [htask]
    exact ha
  | reset now hruns htask hrun =>
    rw [htask, hrun]
    exact ⟨fun himp hre => himp (Or.inr hre), fun hcond hor => hor.elim hl hcond⟩
  | stopped hruns htask hrun => exact iff_of_true (fun hr => by simp [hrun] at hr) trivial
  | waited hf hruns htask hrun =>
    have hcond : s.ResetWithTask a := by cases a <;> trivial
    refine iff_of_true (fun hr => ?_) hcond
    rw [htask]
    exact hl (hrun hr)
  | fired hf r hruns htask hnone hrun =>
    have hcond : s.ResetWithTask a := by cases a <;> trivial
    exact iff_of_true (fun hr => by simp [hrun] at hr) hcond

end OneShotState

/-- **A one-shot timer has a task to run**, the one of the latest `Start` and each at
most once, all along a run exactly when no `Reset` starts it while there is no task. -/
theorem one_shot_has_task_iff (taskRunner : Bool) (as : List TimerAction)
    (ha : ∀ a ∈ as, a.GivesTask) :
    Always OneShotState.step OneShotState.AlwaysHasTask (.new taskRunner) as ↔
      Meets OneShotState.step OneShotState.ResetWithTask (.new taskRunner) as := by
  have hnew : (OneShotState.new taskRunner).Accounted :=
    ⟨rfl, fun _ h => (by cases h), by simp [OneShotState.new],
      by simp [OneShotState.new, TimerState.new]⟩
  refine always_iff_meets (A := TimerAction.GivesTask) (J := OneShotState.Accounted) ?_ ?_ ha hnew
    (hnew.alwaysHasTask_iff.mpr fun h => by cases h)
  · exact fun s a s' ha h hs => h.step ha hs
  · intro s a s' ha h hp hs
    rw [(h.step ha hs).alwaysHasTask_iff]
    exact OneShotState.loaded_step_iff h (h.alwaysHasTask_iff.mp hp) ha hs

/-- A `Reset` on the way, and a `Start` after the task was run. -/
theorem one_shot_has_task_restarted :
    Always OneShotState.step OneShotState.AlwaysHasTask (.new true)
      [.start (.once 1) (some ⟨1⟩) 10, .reset (.once 4), .callback 0 (.once 11),
        .callback 0 (.once 14), .start (.once 15) (some ⟨2⟩) 0, .fireNow 15] :=
  (one_shot_has_task_iff true _ (by decide)).mpr (by decide)

/-- Started at 1, stopped, and reset at 2: the callback of the `Start` is taken over,
and at 12 there is no task. -/
theorem reset_after_stop_runs_null : ¬ Always OneShotState.step OneShotState.AlwaysHasTask
    (.new true)
    [.start (.once 1) (some ⟨1⟩) 10, .stop, .reset (.once 2), .callback 0 (.once 11)] := by
  intro h
  have hlast := always_iff_run.mp h _ List.prefix_rfl _ (run_last (by decide))
  exact hlast.1 (.callback 0 (.once 12)) (by decide)

end Footstone
