import Footstone.BaseTimer
import Footstone.Lib.Runs

/-!
`OneShotTimer` and `RepeatingTimer` (`one_shot_timer.cc`, `repeating_timer.cc`) with
the callbacks they have posted. The timer is called, and its callbacks are run, in
any order; a callback is run once, at a time that its deadline has come to. The clock
starts at 0 and does not run backwards, from one call to the next and within a call.
-/

namespace Footstone

inductive TimerKind where
  | oneShot
  | repeating
  deriving DecidableEq, Repr

/-- A one-shot or repeating timer. -/
structure UserTimer where
  base : BaseTimer
  kind : TimerKind
  userTask : TaskPtr := none
  deriving DecidableEq

/-- A run of the user task: when the call was made that came to it, and what `delay_` and
the time of the latest `Start`, `Reset` or run of a repeating timer were. -/
structure TaskRun where
  time : TimePoint
  task : Task
  since : TimePoint
  delay : TimeDelta
  byCallback : Bool
  deriving DecidableEq

structure TimerState where
  timer : UserTimer
  callbacks : List TimePoint := []
  clock : TimePoint := 0
  since : TimePoint := 0
  runs : List TaskRun := []
  deriving DecidableEq

/-- `callback i` runs the `i`-th of the posted callbacks that are left. -/
inductive TimerAction where
  | start (now : Readings) (task : TaskPtr) (delay : TimeDelta)
  | reset (now : Readings)
  | stop
  | fireNow (now : TimePoint)
  | callback (i : Nat) (now : Readings)
  deriving DecidableEq

/-- Why a step is none: the clock runs backwards, there is no such callback or it is
not due, `FireNow` is called on no running one-shot timer, a null task is run. -/
inductive TimerFault where
  | clock
  | notDue
  | notRunning
  | nullTask
  deriving DecidableEq, Repr

namespace UserTimer

/-- `Stop` with the `OnStop` of the class. -/
def stop (t : UserTimer) : UserTimer :=
  { t with
    base := t.base.stop
    userTask := match t.kind with
      | .oneShot => none
      | .repeating => t.userTask }

/-- `RunUserTask`: the task that is run, and the callbacks that are posted. -/
def runUserTask (now : Readings) (t : UserTimer) :
    Except TimerFault (Task × UserTimer × List TimePoint) :=
  match t.kind, t.userTask with
  | _, none => .error .nullTask
  | .oneShot, some task => .ok (task, { t with userTask := none }.stop, [])
  | .repeating, some task =>
    let (base, posted) := t.base.scheduleNewTask now t.base.delay
    .ok (task, { t with base := base }, posted)

end UserTimer

namespace TimerState

def tick (now : Readings) (s : TimerState) : Except TimerFault TimerState :=
  if now.Follow s.clock then .ok { s with clock := now.scheduled } else .error .clock

/-- `RunUserTask`, noted down. -/
def run (now : Readings) (byCallback : Bool) (s : TimerState) : Except TimerFault TimerState := do
  let (task, timer, posted) ← s.timer.runUserTask now
  return { s with
    timer := timer
    callbacks := s.callbacks ++ posted
    since := if s.timer.kind = .repeating then now.test else s.since
    runs := s.runs ++ [⟨now.test, task, s.since, s.timer.base.delay, byCallback⟩] }

def step (s : TimerState) : TimerAction → Except TimerFault TimerState
  | .start now task delay => do
    let s ← s.tick now
    let (base, posted) := s.timer.base.startInternal now delay
    return { s with
      timer := { s.timer with base := base, userTask := task }
      callbacks := s.callbacks ++ posted
      since := now.test }
  | .reset now => do
    let s ← s.tick now
    let (base, posted) := s.timer.base.reset now
    return { s with
      timer := { s.timer with base := base }, callbacks := s.callbacks ++ posted, since := now.test }
  | .stop => .ok { s with timer := s.timer.stop }
  | .fireNow now => do
    let s ← s.tick (.once now)
    if s.timer.kind = .oneShot ∧ s.timer.base.isRunning then s.run (.once now) false
    else .error .notRunning
  | .callback i now => do
    let s ← s.tick now
    match s.callbacks[i]? with
    | none => .error .notDue
    | some deadline =>
      if now.test < deadline then .error .notDue
      else
        let s := { s with callbacks := s.callbacks.eraseIdx i }
        match s.timer.base.onScheduledTaskInvoked now with
        | .ignored => return s
        | .rescheduled base posted =>
          return { s with
            timer := { s.timer with base := base }, callbacks := s.callbacks ++ posted }
        | .runUserTask => s.run now true

/-- A timer that was not started yet, on a task runner that is alive or gone. -/
def new (kind : TimerKind) (taskRunner : Bool) : TimerState where
  timer := { base := { taskRunner := taskRunner }, kind := kind }

/-! ## One step -/

theorem tick_eq_ok {now : Readings} {s s' : TimerState} :
    s.tick now = .ok s' ↔ now.Follow s.clock ∧ s' = { s with clock := now.scheduled } := by
  unfold tick
  split
  · rename_i h
    simp [h, eq_comm]
  · rename_i h
    simp [h]

/-- What comes after a reading of the clock. -/
theorem tick_bind_eq_ok {now : Readings} {s s' : TimerState}
    {f : TimerState → Except TimerFault TimerState} :
    (s.tick now >>= f) = .ok s' ↔
      now.Follow s.clock ∧ f { s with clock := now.scheduled } = .ok s' := by
  rw [Runs.bind_eq_ok]
  constructor
  · rintro ⟨s₁, hs, h⟩
    obtain ⟨hle, rfl⟩ := tick_eq_ok.mp hs
    exact ⟨hle, h⟩
  · rintro ⟨hle, h⟩
    exact ⟨_, tick_eq_ok.mpr ⟨hle, rfl⟩, h⟩

theorem run_eq_ok {now : Readings} {byCallback : Bool} {s s' : TimerState} :
    s.run now byCallback = .ok s' ↔ ∃ task, s.timer.userTask = some task ∧
      ((s.timer.kind = .oneShot ∧ s' = { s with
          timer := { s.timer with userTask := none }.stop
          runs := s.runs ++ [⟨now.test, task, s.since, s.timer.base.delay, byCallback⟩] }) ∨
        (s.timer.kind = .repeating ∧ s' = { s with
          timer := { s.timer with base := (s.timer.base.scheduleNewTask now s.timer.base.delay).1 }
          callbacks := s.callbacks ++ (s.timer.base.scheduleNewTask now s.timer.base.delay).2
          since := now.test
          runs := s.runs ++ [⟨now.test, task, s.since, s.timer.base.delay, byCallback⟩] })) := by
  unfold run UserTimer.runUserTask
  cases hk : s.timer.kind <;> cases ht : s.timer.userTask <;>
    simp [hk, ht, bind, Except.bind, pure, Except.pure, eq_comm]

theorem step_start_eq_ok {now : Readings} {task : TaskPtr} {delay : TimeDelta} {s s' : TimerState} :
    s.step (.start now task delay) = .ok s' ↔ now.Follow s.clock ∧ s' = { s with
      timer := { s.timer with
        base := (s.timer.base.startInternal now delay).1, userTask := task }
      callbacks := s.callbacks ++ (s.timer.base.startInternal now delay).2
      clock := now.scheduled
      since := now.test } := by
  rw [step, tick_bind_eq_ok]
  apply and_congr_right
  intro _
  exact ⟨fun h => (Except.ok.inj h).symm, fun h => congrArg Except.ok h.symm⟩

theorem step_reset_eq_ok {now : Readings} {s s' : TimerState} :
    s.step (.reset now) = .ok s' ↔ now.Follow s.clock ∧ s' = { s with
      timer := { s.timer with base := (s.timer.base.reset now).1 }
      callbacks := s.callbacks ++ (s.timer.base.reset now).2
      clock := now.scheduled
      since := now.test } := by
  rw [step, tick_bind_eq_ok]
  apply and_congr_right
  intro _
  exact ⟨fun h => (Except.ok.inj h).symm, fun h => congrArg Except.ok h.symm⟩

theorem step_fireNow_eq_ok {now : TimePoint} {s s' : TimerState} :
    s.step (.fireNow now) = .ok s' ↔ s.clock ≤ now ∧ s.timer.kind = .oneShot ∧
      s.timer.base.isRunning = true ∧ { s with clock := now }.run (.once now) false = .ok s' := by
  rw [step, tick_bind_eq_ok, Readings.follow_once]
  apply and_congr_right
  intro _
  constructor
  · intro h
    split at h
    · rename_i hc
      exact ⟨hc.1, hc.2, h⟩
    · cases h
  · rintro ⟨hk, hr, h⟩
    rw [if_pos ⟨hk, hr⟩]
    exact h

/-- The `i`-th callback is taken out, at a time its deadline has come to. -/
def Takes (i : Nat) (now : Readings) (s s₁ : TimerState) : Prop :=
  now.Follow s.clock ∧ (∃ deadline, s.callbacks[i]? = some deadline ∧ deadline ≤ now.test) ∧
    s₁ = { s with clock := now.scheduled, callbacks := s.callbacks.eraseIdx i }

theorem step_callback_eq_ok {i : Nat} {now : Readings} {s s' : TimerState} :
    s.step (.callback i now) = .ok s' ↔ ∃ s₁, s.Takes i now s₁ ∧
      ((s₁.timer.base.onScheduledTaskInvoked now = .ignored ∧ s' = s₁) ∨
        (∃ base posted, s₁.timer.base.onScheduledTaskInvoked now = .rescheduled base posted ∧
          s' = { s₁ with
            timer := { s₁.timer with base := base }, callbacks := s₁.callbacks ++ posted }) ∨
        (s₁.timer.base.onScheduledTaskInvoked now = .runUserTask ∧ s₁.run now true = .ok s')) := by
  simp only [step, tick_bind_eq_ok]
  constructor
  · rintro ⟨hle, h⟩
    split at h
    · cases h
    · rename_i deadline hd
      split at h
      · cases h
      · rename_i hdue
        refine ⟨_, ⟨hle, ⟨deadline, hd, Int64.not_lt.mp hdue⟩, rfl⟩, ?_⟩
        split at h
        · rename_i hi
          exact Or.inl ⟨hi, (Except.ok.inj h).symm⟩
        · rename_i base posted hi
          exact Or.inr (Or.inl ⟨base, posted, hi, (Except.ok.inj h).symm⟩)
        · rename_i hi
          exact Or.inr (Or.inr ⟨hi, h⟩)
  · rintro ⟨_, ⟨hle, ⟨deadline, hd, hdue⟩, rfl⟩, h⟩
    refine ⟨hle, ?_⟩
    simp only [hd, if_neg (Int64.not_lt.mpr hdue)]
    rcases h with ⟨hi, rfl⟩ | ⟨base, posted, hi, rfl⟩ | ⟨hi, h⟩
    · rw [hi]; rfl
    · rw [hi]; rfl
    · rw [hi]; exact h

/-! ## A running timer has a callback coming -/

/-- A running timer has a callback that was not run yet. -/
def Armed (s : TimerState) : Prop := s.timer.base.isRunning = true → s.callbacks ≠ []

instance : DecidablePred Armed := fun s =>
  inferInstanceAs (Decidable (_ = true → s.callbacks ≠ []))

/-- A `Start` or `Reset` that takes the last schedule over still finds a callback. -/
def Reuses (s : TimerState) : TimerAction → Prop
  | .start now _ delay =>
    { s.timer.base with delay := delay }.TakesOver now → s.callbacks ≠ []
  | .reset now => s.timer.base.TakesOver now → s.callbacks ≠ []
  | _ => True

instance (s : TimerState) : DecidablePred s.Reuses
  | .start now _ delay => inferInstanceAs (Decidable
      ({ s.timer.base with delay := delay }.TakesOver now → s.callbacks ≠ []))
  | .reset now => inferInstanceAs (Decidable (s.timer.base.TakesOver now → s.callbacks ≠ []))
  | .stop => isTrue trivial
  | .fireNow _ => isTrue trivial
  | .callback .. => isTrue trivial

/-- What `Reset`, called on `base`, comes to on a timer with these callbacks. -/
theorem reset_armed {base : BaseTimer} (h : base.taskRunner = true) (now : Readings)
    (callbacks : List TimePoint) :
    (base.reset now).1.taskRunner = true ∧ (base.reset now).1.isRunning = true ∧
      (callbacks ++ (base.reset now).2 ≠ [] ↔ (base.TakesOver now → callbacks ≠ [])) := by
  rcases BaseTimer.reset_cases now h with ⟨htakes, heq⟩ | ⟨hnot, heq⟩
  · rw [heq, List.append_nil]
    exact ⟨h, rfl, fun hne _ => hne, fun himp => himp htakes⟩
  · rw [heq]
    exact ⟨h, rfl, iff_of_true (by simp) fun htakes => absurd htakes hnot⟩

/-- After a run of the user task a one-shot timer has stopped and a repeating one is
scheduled anew. -/
theorem run_armed {now : Readings} {byCallback : Bool} {s s' : TimerState}
    (h : s.timer.base.taskRunner = true) (hr : s.run now byCallback = .ok s') :
    s'.timer.base.taskRunner = true ∧ s'.Armed := by
  obtain ⟨task, -, ⟨-, rfl⟩ | ⟨-, rfl⟩⟩ := run_eq_ok.mp hr
  · exact ⟨h, fun hrun => by simp [UserTimer.stop, BaseTimer.stop] at hrun⟩
  · rw [BaseTimer.scheduleNewTask_eq now _ h]
    exact ⟨h, fun _ => by simp⟩

/-- A callback leaves a timer that has stopped, or one with a callback. -/
theorem callback_armed {i : Nat} {now : Readings} {s s' : TimerState}
    (h : s.timer.base.taskRunner = true) (hs : s.step (.callback i now) = .ok s') :
    s'.timer.base.taskRunner = true ∧ s'.Armed := by
  obtain ⟨s₁, ⟨-, -, rfl⟩, hcase⟩ := step_callback_eq_ok.mp hs
  rcases hcase with ⟨hi, rfl⟩ | ⟨base, posted, hi, rfl⟩ | ⟨hi, hrun⟩
  · refine ⟨h, fun hrunning => ?_⟩
    rw [BaseTimer.onScheduledTaskInvoked_eq_ignored.mp hi] at hrunning
    cases hrunning
  · obtain ⟨-, -, -, rfl, rfl⟩ := (BaseTimer.onScheduledTaskInvoked_eq_rescheduled h).mp hi
    exact ⟨h, fun _ => by simp⟩
  · exact run_armed (by exact h) hrun

/-- One step: the timer is armed afterwards exactly if the step reuses no callback that is
gone. -/
theorem step_armed {s s' : TimerState} {a : TimerAction} (h : s.timer.base.taskRunner = true)
    (hs : s.step a = .ok s') : s'.timer.base.taskRunner = true ∧ (s'.Armed ↔ s.Reuses a) := by
  cases a with
  | start now task delay =>
    obtain ⟨-, rfl⟩ := step_start_eq_ok.mp hs
    have hbase : ({ s.timer.base with delay := delay } : BaseTimer).taskRunner = true := h
    obtain ⟨hrunner, hrunning, hiff⟩ := reset_armed hbase now s.callbacks
    refine ⟨hrunner, Iff.trans ?_ hiff⟩
    exact ⟨fun ha => ha hrunning, fun hne _ => hne⟩
  | reset now =>
    obtain ⟨-, rfl⟩ := step_reset_eq_ok.mp hs
    obtain ⟨hrunner, hrunning, hiff⟩ := reset_armed h now s.callbacks
    refine ⟨hrunner, Iff.trans ?_ hiff⟩
    exact ⟨fun ha => ha hrunning, fun hne _ => hne⟩
  | stop =>
    cases hs
    refine ⟨h, iff_of_true (fun hrun => ?_) trivial⟩
    simp [UserTimer.stop, BaseTimer.stop] at hrun
  | fireNow now =>
    obtain ⟨-, -, -, hrun⟩ := step_fireNow_eq_ok.mp hs
    obtain ⟨hrunner, harmed⟩ := run_armed (by exact h) hrun
    exact ⟨hrunner, iff_of_true harmed trivial⟩
  | callback i now =>
    obtain ⟨hrunner, harmed⟩ := callback_armed h hs
    exact ⟨hrunner, iff_of_true harmed trivial⟩

end TimerState

/-- **A running timer has a callback coming** all along a run exactly when no `Start` or
`Reset` of it takes the last schedule over while every callback was run already. -/
theorem timer_armed_iff (kind : TimerKind) (as : List TimerAction) :
    Runs.Always TimerState.step TimerState.Armed (.new kind true) as ↔
      Runs.Meets TimerState.step TimerState.Reuses (.new kind true) as :=
  Runs.always_iff_meets (A := fun _ => True) (J := fun s => s.timer.base.taskRunner = true)
    (fun _ _ _ _ h hs => (TimerState.step_armed h hs).1)
    (fun _ _ _ _ h _ hs => (TimerState.step_armed h hs).2)
    (fun _ _ => trivial) rfl (fun h => by cases h)

/-- The task fires at 11, and a `Start` at 11 posts nothing. -/
theorem timer_not_armed : ¬ Runs.Always TimerState.step TimerState.Armed (.new .oneShot true)
    [.start (.once 1) (some ⟨0⟩) 10, .callback 0 (.once 11), .start (.once 11) (some ⟨1⟩) 10] := by
  decide

/-- With the deadline read at 1 and `scheduled_run_time_` at 3, a `Start` at 12 posts nothing
either. -/
example : ¬ Runs.Always TimerState.step TimerState.Armed (.new .oneShot true)
    [.start ⟨1, 1, 1, 3⟩ (some ⟨0⟩) 10, .callback 0 (.once 11),
      .start (.once 12) (some ⟨1⟩) 10] := by
  decide

end Footstone
