import Footstone.Timers
import Mathlib.Algebra.Group.Int.Defs

/-!
How early a timer runs its task. `OnScheduledTaskInvoked` compares two times that the
timer has stored, and not the time its callback was posted for; a callback of an
earlier schedule passes for the one of the current schedule. All of this is about calls
that read one time from the clock.
-/

namespace Footstone

/-- The call reads one time from the clock. -/
def TimerAction.OneReading : TimerAction → Prop
  | .start now _ _ | .reset now | .callback _ now => now = .once now.test
  | _ => True

instance : DecidablePred TimerAction.OneReading
  | .start now _ _ => inferInstanceAs (Decidable (now = .once now.test))
  | .reset now => inferInstanceAs (Decidable (now = .once now.test))
  | .callback _ now => inferInstanceAs (Decidable (now = .once now.test))
  | .stop => isTrue trivial
  | .fireNow _ => isTrue trivial

/-- The end of the delay fits 64 bits. -/
def Fits (now : TimePoint) (delay : TimeDelta) : Prop := now.toInt + delay.toInt < 2 ^ 63

instance (now : TimePoint) (delay : TimeDelta) : Decidable (Fits now delay) :=
  inferInstanceAs (Decidable (_ < _))

namespace BaseTimer

theorem runTime_toInt {now : TimePoint} {delay : TimeDelta} (hnow : 0 ≤ now.toInt)
    (hfits : Fits now delay) : (runTime now delay).toInt = now.toInt + max 0 delay.toInt := by
  unfold runTime Fits at *
  have hpos : 0 < delay ↔ 0 < delay.toInt := Int64.lt_iff_toInt_lt
  split
  · rename_i h
    rw [hpos] at h
    rw [Int64.toInt_add, Int.bmod_eq_of_le (by omega) (by omega)]
    omega
  · rename_i h
    rw [hpos] at h
    omega

/-- The rest of the time ends when the whole time ends. -/
theorem runTime_rest {now desired : TimePoint} (hnow : 0 ≤ now.toInt) (hlt : now < desired) :
    runTime now (desired - now) = desired := by
  rw [Int64.lt_iff_toInt_lt] at hlt
  have hle := desired.toInt_lt
  have hrest : (desired - now).toInt = desired.toInt - now.toInt := by
    rw [Int64.toInt_sub, Int.bmod_eq_of_le (by omega) (by omega)]
  refine Int64.toInt_inj.mp ?_
  rw [runTime_toInt hnow (by unfold Fits; omega)]
  omega

end BaseTimer

namespace TimerState

/-- Every callback that ran the user task came at the end of the delay or later, and the
runs of a repeating timer are a delay apart. -/
def NeverEarly (s : TimerState) : Prop :=
  (∀ r ∈ s.runs, r.byCallback = true → r.since.toInt + r.delay.toInt ≤ r.time.toInt) ∧
  (s.timer.kind = .repeating →
    s.runs.Pairwise fun r r' => r.time.toInt + r'.delay.toInt ≤ r'.time.toInt)

instance : DecidablePred NeverEarly := fun s => inferInstanceAs (Decidable
  ((∀ r ∈ s.runs, r.byCallback = true → r.since.toInt + r.delay.toInt ≤ r.time.toInt) ∧
    (s.timer.kind = .repeating →
      s.runs.Pairwise fun r r' => r.time.toInt + r'.delay.toInt ≤ r'.time.toInt)))

/-- While the timer waits for its last schedule, no callback of an earlier deadline is
run, and no schedule that is made ends beyond 64 bits. -/
def OnTime (s : TimerState) : TimerAction → Prop
  | .start now _ delay => Fits now.test delay
  | .reset now => Fits now.test s.timer.base.delay
  | .callback i now =>
    (∀ deadline ∈ s.callbacks[i]?, s.timer.base.isRunning = true →
      s.timer.base.desiredRunTime = s.timer.base.scheduledRunTime →
        s.timer.base.scheduledRunTime ≤ deadline) ∧
    (s.timer.kind = .repeating → s.timer.base.Due now.test → Fits now.test s.timer.base.delay)
  | _ => True

instance (s : TimerState) : DecidablePred s.OnTime
  | .start now _ delay => inferInstanceAs (Decidable (Fits now.test delay))
  | .reset now => inferInstanceAs (Decidable (Fits now.test s.timer.base.delay))
  | .stop => isTrue trivial
  | .fireNow _ => isTrue trivial
  | .callback i _ =>
    have : Decidable (∀ deadline ∈ s.callbacks[i]?, s.timer.base.isRunning = true →
        s.timer.base.desiredRunTime = s.timer.base.scheduledRunTime →
          s.timer.base.scheduledRunTime ≤ deadline) := Option.decidableForallMem _
    inferInstanceAs (Decidable (_ ∧ (_ → _ → _)))

/-- On a task runner that is alive: a running timer is to run at the end of the delay, and
it is scheduled for that time or an earlier one. -/
structure Timely (s : TimerState) : Prop where
  taskRunner : s.timer.base.taskRunner = true
  clock : 0 ≤ s.clock.toInt
  since : s.since ≤ s.clock
  order : s.timer.base.scheduledRunTime ≤ s.timer.base.desiredRunTime
  desired : s.timer.base.isRunning = true → s.timer.base.desiredRunTime.toInt =
    s.since.toInt + max 0 s.timer.base.delay.toInt
  past : s.timer.kind = .repeating → ∀ r ∈ s.runs, r.time ≤ s.since
  neverEarly : s.NeverEarly

theorem timely_new (kind : TimerKind) : (new kind true).Timely where
  taskRunner := rfl
  clock := by simp [new]
  since := Int64.le_rfl
  order := Int64.le_rfl
  desired h := by simp [new] at h
  past _ r hr := by simp [new] at hr
  neverEarly := ⟨fun r hr => by simp [new] at hr, fun _ => List.Pairwise.nil⟩

theorem Timely.clock_le {s : TimerState} (h : s.Timely) {now : TimePoint} (hle : s.clock ≤ now) :
    0 ≤ now.toInt ∧ s.since ≤ now :=
  ⟨Int.le_trans h.clock (Int64.le_iff_toInt_le.mp hle), Int64.le_trans h.since hle⟩

/-- What `Reset` leaves: a running timer for the end of the delay. -/
theorem reset_spec {base : BaseTimer} {now : TimePoint} (hrunner : base.taskRunner = true)
    (hnow : 0 ≤ now.toInt) (hfits : Fits now base.delay) :
    (base.reset (.once now)).1.taskRunner = true ∧ (base.reset (.once now)).1.delay = base.delay ∧
      (base.reset (.once now)).1.scheduledRunTime ≤ (base.reset (.once now)).1.desiredRunTime ∧
      (base.reset (.once now)).1.desiredRunTime.toInt = now.toInt + max 0 base.delay.toInt := by
  have hrun := BaseTimer.runTime_toInt hnow hfits
  rcases BaseTimer.reset_cases (.once now) hrunner with ⟨htakes, heq⟩ | ⟨-, heq⟩
  · rw [heq]
    exact ⟨hrunner, rfl, htakes.2, hrun⟩
  · rw [heq]
    exact ⟨hrunner, rfl, Int64.le_rfl, hrun⟩

/-- A `Start` or `Reset` at `now`. -/
theorem Timely.reset {s : TimerState} (h : s.Timely) (base : BaseTimer) {now : TimePoint}
    {task : TaskPtr} {callbacks : List TimePoint} (hrunner : base.taskRunner = true)
    (hle : s.clock ≤ now) (hfits : Fits now base.delay) :
    Timely { s with
      timer := { s.timer with base := (base.reset (.once now)).1, userTask := task }
      callbacks := callbacks
      clock := now
      since := now } := by
  obtain ⟨hnow, hsince⟩ := h.clock_le hle
  obtain ⟨hrunner', hdelay, horder, hdesired⟩ := reset_spec hrunner hnow hfits
  exact ⟨hrunner', hnow, Int64.le_rfl, horder, fun _ => by rw [hdesired, hdelay],
    fun hk r hr => Int64.le_trans (h.past hk r hr) hsince, h.neverEarly⟩

/-- A run of the user task that is not early. -/
theorem Timely.run {now : TimePoint} {byCallback : Bool} {s s' : TimerState} (h : s.Timely)
    (hclock : s.clock = now)
    (hdue : byCallback = true → s.since.toInt + s.timer.base.delay.toInt ≤ now.toInt)
    (hone : s.timer.kind = .repeating → byCallback = true ∧ Fits now s.timer.base.delay)
    (hr : s.run (.once now) byCallback = .ok s') : s'.Timely := by
  obtain ⟨hearly, hspaced⟩ := h.neverEarly
  obtain ⟨task, -, ⟨hk, rfl⟩ | ⟨hk, rfl⟩⟩ := run_eq_ok.mp hr
  · have hnot : s.timer.kind ≠ .repeating := by simp [hk]
    refine ⟨h.taskRunner, h.clock, h.since, h.order, fun hrun => ?_, fun hk' => absurd hk' hnot,
      fun r hr hb => ?_, fun hk' => absurd hk' hnot⟩
    · simp [UserTimer.stop, BaseTimer.stop] at hrun
    · rcases List.mem_append.mp hr with hr | hr
      · exact hearly r hr hb
      · obtain rfl := List.mem_singleton.mp hr
        exact hdue hb
  · obtain ⟨hb, hfits⟩ := hone hk
    subst hclock
    have hsince := Int64.le_iff_toInt_le.mp h.since
    rw [BaseTimer.scheduleNewTask_eq _ _ h.taskRunner]
    refine ⟨h.taskRunner, h.clock, Int64.le_rfl, Int64.le_rfl,
      fun _ => BaseTimer.runTime_toInt h.clock hfits, fun _ r hr => ?_, fun r hr hb' => ?_, fun _ => ?_⟩
    · rcases List.mem_append.mp hr with hr | hr
      · exact Int64.le_trans (h.past hk r hr) h.since
      · obtain rfl := List.mem_singleton.mp hr
        exact Int64.le_rfl
    · rcases List.mem_append.mp hr with hr | hr
      · exact hearly r hr hb'
      · obtain rfl := List.mem_singleton.mp hr
        exact hdue hb
    · refine List.pairwise_append.mpr ⟨hspaced hk, List.pairwise_singleton _ _, fun r hr r' hr' => ?_⟩
      obtain rfl := List.mem_singleton.mp hr'
      have hpast := Int64.le_iff_toInt_le.mp (h.past hk r hr)
      have hlate := hdue hb
      dsimp only [Readings.once]
      omega

/-- A callback that was posted for this schedule, or one before which nothing is due. -/
theorem Timely.callback {i : Nat} {now : TimePoint} {s s' : TimerState} (h : s.Timely)
    (hc : s.OnTime (.callback i (.once now))) (hs : s.step (.callback i (.once now)) = .ok s') :
    s'.Timely := by
  obtain ⟨s₁, ⟨hle, ⟨deadline, hd, hdue⟩, rfl⟩, hcase⟩ := step_callback_eq_ok.mp hs
  obtain ⟨hnow, hsince⟩ := h.clock_le (Readings.follow_once.mp hle)
  have h₁ : Timely { s with clock := now, callbacks := s.callbacks.eraseIdx i } :=
    ⟨h.taskRunner, hnow, hsince, h.order, h.desired, h.past, h.neverEarly⟩
  rcases hcase with ⟨-, rfl⟩ | ⟨base, posted, hi, rfl⟩ | ⟨hi, hrun⟩
  · exact h₁
  · obtain ⟨hrunning, -, hlt, rfl, rfl⟩ :=
      (BaseTimer.onScheduledTaskInvoked_eq_rescheduled h₁.taskRunner).mp hi
    have hrest : BaseTimer.runTime (Readings.once now).scheduled
        (s.timer.base.desiredRunTime - (Readings.once now).test) = s.timer.base.desiredRunTime :=
      BaseTimer.runTime_rest hnow hlt
    rw [hrest]
    exact ⟨h.taskRunner, hnow, hsince, Int64.le_rfl, fun _ => h.desired hrunning, h.past,
      h.neverEarly⟩
  · have hcomes := BaseTimer.onScheduledTaskInvoked_eq_runUserTask.mp hi
    have hrunning := hcomes.1
    refine h₁.run rfl (fun _ => ?_) (fun hk => ⟨rfl, hc.2 hk hcomes⟩) hrun
    have hdesired := h.desired hrunning
    -- The time to run at has come: it is behind the schedule and past, or it is the
    -- time of the schedule, and this callback is one for it.
    have hcome : s.timer.base.desiredRunTime ≤ now := by
      by_cases hlt : s.timer.base.scheduledRunTime < s.timer.base.desiredRunTime
      · exact hcomes.2 hlt
      · have heq := Int64.le_antisymm (Int64.not_lt.mp hlt) h.order
        rw [heq]
        exact Int64.le_trans (hc.1 deadline hd hrunning heq) hdue
    rw [Int64.le_iff_toInt_le] at hcome
    change s.since.toInt + s.timer.base.delay.toInt ≤ now.toInt
    omega

theorem Timely.step {s s' : TimerState} {a : TimerAction} (h : s.Timely) (hone : a.OneReading)
    (hc : s.OnTime a) (hs : s.step a = .ok s') : s'.Timely := by
  cases a with
  | start now task delay =>
    obtain ⟨hle, rfl⟩ := step_start_eq_ok.mp hs
    have heq : now = .once now.test := hone
    rw [heq] at hle ⊢
    exact h.reset { s.timer.base with delay := delay } h.taskRunner
      (Readings.follow_once.mp hle) hc
  | reset now =>
    obtain ⟨hle, rfl⟩ := step_reset_eq_ok.mp hs
    have heq : now = .once now.test := hone
    rw [heq] at hle ⊢
    exact h.reset s.timer.base h.taskRunner (Readings.follow_once.mp hle) hc
  | stop =>
    cases hs
    exact ⟨h.taskRunner, h.clock, h.since, h.order,
      fun hrun => by simp [UserTimer.stop, BaseTimer.stop] at hrun, h.past, h.neverEarly⟩
  | fireNow now =>
    obtain ⟨hle, hk, hrunning, hrun⟩ := step_fireNow_eq_ok.mp hs
    obtain ⟨hnow, hsince⟩ := h.clock_le hle
    have h₁ : Timely { s with clock := now } :=
      ⟨h.taskRunner, hnow, hsince, h.order, h.desired, h.past, h.neverEarly⟩
    refine h₁.run rfl (fun hb => by cases hb) (fun hk' => ?_) hrun
    rw [hk] at hk'
    cases hk'
  | callback i now =>
    have heq : now = .once now.test := hone
    rw [heq] at hc hs
    exact h.callback hc hs

/-- On a task runner that is gone nothing is posted and no callback comes. -/
structure Silent (s : TimerState) : Prop where
  taskRunner : s.timer.base.taskRunner = false
  callbacks : s.callbacks = []
  runs : ∀ r ∈ s.runs, r.byCallback = false
  kind : s.timer.kind = .repeating → s.runs = []

theorem Silent.neverEarly {s : TimerState} (h : s.Silent) : s.NeverEarly := by
  refine ⟨fun r hr hb => ?_, fun hk => by rw [h.kind hk]; exact .nil⟩
  rw [h.runs r hr] at hb
  cases hb

theorem silent_new (kind : TimerKind) : (new kind false).Silent :=
  ⟨rfl, rfl, by simp [new], fun _ => rfl⟩

theorem reset_silent (base : BaseTimer) (h : base.taskRunner = false) (now : Readings) :
    (base.reset now).1.taskRunner = false ∧ (base.reset now).2 = [] := by
  rcases base.reset_eq now with ⟨-, heq⟩ | ⟨-, desired, heq⟩ <;> rw [heq]
  · exact ⟨h, rfl⟩
  · rw [BaseTimer.scheduleNewTask_gone _ _ (by exact h)]
    exact ⟨h, rfl⟩

theorem Silent.step {s s' : TimerState} {a : TimerAction} (h : s.Silent)
    (hs : s.step a = .ok s') : s'.Silent := by
  cases a with
  | start now task delay =>
    obtain ⟨-, rfl⟩ := step_start_eq_ok.mp hs
    obtain ⟨hrunner, hposted⟩ := reset_silent { s.timer.base with delay := delay }
      h.taskRunner now
    exact ⟨hrunner, List.append_eq_nil_iff.mpr ⟨h.callbacks, hposted⟩, h.runs, h.kind⟩
  | reset now =>
    obtain ⟨-, rfl⟩ := step_reset_eq_ok.mp hs
    obtain ⟨hrunner, hposted⟩ := reset_silent s.timer.base h.taskRunner now
    exact ⟨hrunner, List.append_eq_nil_iff.mpr ⟨h.callbacks, hposted⟩, h.runs, h.kind⟩
  | stop =>
    cases hs
    exact ⟨h.taskRunner, h.callbacks, h.runs, h.kind⟩
  | fireNow now =>
    obtain ⟨-, hk, -, hrun⟩ := step_fireNow_eq_ok.mp hs
    obtain ⟨task, -, ⟨-, rfl⟩ | ⟨hk', -⟩⟩ := run_eq_ok.mp hrun
    · refine ⟨h.taskRunner, h.callbacks, fun r hr => ?_, fun hk' => ?_⟩
      · rcases List.mem_append.mp hr with hr | hr
        · exact h.runs r hr
        · obtain rfl := List.mem_singleton.mp hr
          rfl
      · have hk'' : s.timer.kind = .repeating := hk'
        rw [hk] at hk''
        cases hk''
    · have hk'' : s.timer.kind = .repeating := hk'
      rw [hk] at hk''
      cases hk''
  | callback i now =>
    obtain ⟨_, ⟨-, ⟨deadline, hd, -⟩, -⟩, -⟩ := step_callback_eq_ok.mp hs
    simp [h.callbacks] at hd

/-- A callback of an earlier schedule makes the timer early, if it comes before the time
of the present one. -/
theorem Timely.early {s : TimerState} (h : s.Timely) {i : Nat} {deadline : TimePoint} {task : Task}
    (hd : s.callbacks[i]? = some deadline) (hrunning : s.timer.base.isRunning = true)
    (heq : s.timer.base.desiredRunTime = s.timer.base.scheduledRunTime)
    (hstale : deadline < s.timer.base.scheduledRunTime)
    (hclock : s.clock < s.timer.base.scheduledRunTime) (ht : s.timer.userTask = some task) :
    ∃ now s', s.step (.callback i (.once now)) = .ok s' ∧ ¬ s'.NeverEarly := by
  -- The callback comes as soon as it is due.
  obtain ⟨now, hle, hdue, hnow⟩ : ∃ now : TimePoint, s.clock ≤ now ∧ deadline ≤ now ∧
      now < s.timer.base.scheduledRunTime := by
    by_cases hc : s.clock ≤ deadline
    · exact ⟨deadline, hc, Int64.le_rfl, hstale⟩
    · exact ⟨s.clock, Int64.le_rfl, Int64.le_of_lt (Int64.not_le.mp hc), hclock⟩
  have hinvoked : s.timer.base.onScheduledTaskInvoked (.once now) = .runUserTask := by
    refine BaseTimer.onScheduledTaskInvoked_eq_runUserTask.mpr ⟨hrunning, fun hlt => ?_⟩
    rw [heq] at hlt
    exact absurd hlt Int64.lt_irrefl
  have hrun : ∃ s', TimerState.run (.once now) true
      { s with clock := now, callbacks := s.callbacks.eraseIdx i } = .ok s' := by
    cases hk : s.timer.kind
    · exact ⟨_, run_eq_ok.mpr ⟨task, ht, Or.inl ⟨hk, rfl⟩⟩⟩
    · exact ⟨_, run_eq_ok.mpr ⟨task, ht, Or.inr ⟨hk, rfl⟩⟩⟩
  obtain ⟨s', hrun⟩ := hrun
  refine ⟨now, s', step_callback_eq_ok.mpr ⟨_,
    ⟨Readings.follow_once.mpr hle, ⟨deadline, hd, hdue⟩, rfl⟩,
    Or.inr (Or.inr ⟨hinvoked, hrun⟩)⟩, fun hearly => ?_⟩
  have hmem : ⟨now, task, s.since, s.timer.base.delay, true⟩ ∈ s'.runs := by
    obtain ⟨task', ht', ⟨-, rfl⟩ | ⟨-, rfl⟩⟩ := run_eq_ok.mp hrun <;>
    · obtain rfl := Option.some.inj (ht'.symm.trans ht)
      simp [Readings.once]
  have hlate := hearly.1 _ hmem rfl
  have hdesired := h.desired hrunning
  have hsince := Int64.le_iff_toInt_le.mp (Int64.le_trans h.since hle)
  rw [Int64.lt_iff_toInt_lt, ← heq] at hnow
  dsimp only at hlate
  omega

end TimerState

/-- **A timer is never early** in any run whose calls read one time each, in which no
callback of an earlier deadline is run while the timer waits for its last schedule, and
the times fit 64 bits. -/
theorem timer_never_early {kind : TimerKind} {taskRunner : Bool} {as : List TimerAction}
    (hone : ∀ a ∈ as, a.OneReading)
    (h : Runs.Meets TimerState.step TimerState.OnTime (.new kind taskRunner) as) :
    Runs.Always TimerState.step TimerState.NeverEarly (.new kind taskRunner) as := by
  cases taskRunner with
  | true =>
    exact Runs.always_of_meets (fun _ _ _ hone hI hc hs => hI.step hone hc hs)
      (fun _ hI => hI.neverEarly) hone (TimerState.timely_new kind) h
  | false =>
    exact Runs.always_of_invariant (fun _ _ _ hI hs => hI.step hs) (fun _ hI => hI.neverEarly)
      (TimerState.silent_new kind) as

/-- A repeating timer that is started again for later, and then runs twice. -/
theorem timer_never_early_repeating :
    Runs.Always TimerState.step TimerState.NeverEarly (.new .repeating true)
      [.start (.once 1) (some ⟨0⟩) 5, .reset (.once 3), .callback 0 (.once 6),
        .callback 0 (.once 9), .callback 0 (.once 14)] :=
  timer_never_early (by decide) (by decide +kernel)

/-- Started for 10, then for 1, and, when that is over, for 100: the callback of the
first start runs the task of the third. -/
theorem timer_early : ¬ Runs.Always TimerState.step TimerState.NeverEarly (.new .oneShot true)
    [.start (.once 1) (some ⟨0⟩) 10, .start (.once 1) (some ⟨1⟩) 1, .callback 1 (.once 2),
      .start (.once 3) (some ⟨2⟩) 100, .callback 0 (.once 11)] := by
  decide

end Footstone
