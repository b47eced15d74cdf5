import Footstone.BaseTimer
import Footstone.Lib.Runs
import Mathlib.Data.List.Nodup

/-!
`IdleTimer` (`idle_timer.cc`) with the idle tasks and the callbacks it has posted. An
idle task is taken from the front of the idle queue, a callback is run at a time that
its deadline has come to, in any order. The callback units are named by the
number of the `Start` they were passed to.
-/

namespace Footstone

/-- An idle task in the queue: a closure with a weak pointer to `idle_task_`, or the
task that was passed to `Start` itself. -/
inductive IdleEntry where
  | weak (n : Nat)
  | strong (n : Nat)
  deriving DecidableEq, Repr

def IdleEntry.num : IdleEntry → Nat
  | weak n | strong n => n

inductive IdleEvent where
  | started (n : Nat)
  | stopped
  | ran (n : Nat)
  deriving DecidableEq, Repr

/-- The events are noted down newest first. -/
structure IdleTimerState where
  base : BaseTimer
  idleTask : Option Nat := none
  idleQueue : List IdleEntry := []
  callbacks : List TimePoint := []
  clock : TimePoint := 0
  starts : Nat := 0
  events : List IdleEvent := []
  deriving DecidableEq

inductive IdleTimerAction where
  | start (now : Readings) (timeout : Option TimeDelta)
  | reset (now : Readings)
  | stop
  | idle
  | callback (i : Nat) (now : Readings)
  deriving DecidableEq

/-- Why a step is none: the clock runs backwards, `Start` finds no task runner, the idle
queue is empty, there is no such callback or it is not due. -/
inductive IdleTimerFault where
  | clock
  | noTaskRunner
  | noIdleTask
  | notDue
  deriving DecidableEq, Repr

namespace IdleTimerState

def tick (now : Readings) (s : IdleTimerState) : Except IdleTimerFault IdleTimerState :=
  if now.Follow s.clock then .ok { s with clock := now.scheduled } else .error .clock

/-- The unit of the `n`-th `Start` is run. -/
def ran (n : Nat) (s : IdleTimerState) : IdleTimerState := { s with events := .ran n :: s.events }

/-- `Stop` with its `OnStop`. -/
def stop (s : IdleTimerState) : IdleTimerState := { s with base := s.base.stop, idleTask := none }

def runUserTask (s : IdleTimerState) : IdleTimerState :=
  match s.idleTask with
  | none => s
  | some n => (s.ran n).stop

/-- Both overloads of `Start`: with a time-out the closure is posted and the timer is
started, without one the task itself is posted and the timer is left alone. -/
def start (now : Readings) (timeout : Option TimeDelta) (s : IdleTimerState) :
    Except IdleTimerFault IdleTimerState :=
  if !s.base.taskRunner then .error .noTaskRunner
  else
    let s := { s with
      idleTask := some s.starts, starts := s.starts + 1, events := .started s.starts :: s.events }
    match timeout with
    | some timeout =>
      let (base, posted) := s.base.startInternal now timeout
      .ok { s with
        base := base
        idleQueue := s.idleQueue ++ [.weak (s.starts - 1)]
        callbacks := s.callbacks ++ posted }
    | none => .ok { s with idleQueue := s.idleQueue ++ [.strong (s.starts - 1)] }

def step (s : IdleTimerState) : IdleTimerAction → Except IdleTimerFault IdleTimerState
  | .start now timeout => do
    let s ← s.tick now
    s.start now timeout
  | .reset now => do
    let s ← s.tick now
    let (base, posted) := s.base.reset now
    return { s with base := base, callbacks := s.callbacks ++ posted }
  | .stop => .ok { s.stop with events := .stopped :: s.events }
  | .idle =>
    match s.idleQueue with
    | [] => .error .noIdleTask
    | .strong n :: queue => .ok ({ s with idleQueue := queue }.ran n)
    | .weak n :: queue =>
      -- `weak_task.lock()` finds the task as long as `idle_task_` holds it.
      if s.idleTask = some n then .ok ({ s with idleQueue := queue }.ran n)
      else .ok { s with idleQueue := queue }
  | .callback i now => do
    let s ← s.tick now
    match s.callbacks[i]? with
    | none => .error .notDue
    | some deadline =>
      if now.test < deadline then .error .notDue
      else
        let s := { s with callbacks := s.callbacks.eraseIdx i }
        match s.base.onScheduledTaskInvoked now with
        | .ignored => return s
        | .rescheduled base posted =>
          return { s with base := base, callbacks := s.callbacks ++ posted }
        | .runUserTask => return s.runUserTask

def new (taskRunner : Bool) : IdleTimerState where
  base := { taskRunner := taskRunner }

/-! ## One step -/

theorem tick_eq_ok {now : Readings} {s s' : IdleTimerState} :
    s.tick now = .ok s' ↔ now.Follow s.clock ∧ s' = { s with clock := now.scheduled } := by
  unfold tick
  split
  · rename_i h
    simp [h, eq_comm]
  · rename_i h
    simp [h]

/-- `Start`, either overload: the task is replaced and gets its place in the queue. -/
theorem step_start {now : Readings} {timeout : Option TimeDelta} {s s' : IdleTimerState}
    (h : s.step (.start now timeout) = .ok s') :
    ∃ base entry callbacks, IdleEntry.num entry = s.starts ∧ s' = { s with
      base := base
      idleTask := some s.starts
      idleQueue := s.idleQueue ++ [entry]
      callbacks := callbacks
      clock := now.scheduled
      starts := s.starts + 1
      events := .started s.starts :: s.events } := by
  simp only [step, Runs.bind_eq_ok, tick_eq_ok] at h
  obtain ⟨_, ⟨-, rfl⟩, h⟩ := h
  unfold start at h
  split at h
  · cases h
  · cases timeout with
    | none =>
      cases h
      exact ⟨_, .strong s.starts, _, rfl, rfl⟩
    | some timeout =>
      cases h
      exact ⟨_, .weak s.starts, _, rfl, rfl⟩

theorem step_reset {now : Readings} {s s' : IdleTimerState} (h : s.step (.reset now) = .ok s') :
    ∃ base callbacks,
      s' = { s with base := base, callbacks := callbacks, clock := now.scheduled } := by
  simp only [step, Runs.bind_eq_ok, tick_eq_ok] at h
  obtain ⟨_, ⟨-, rfl⟩, h⟩ := h
  cases h
  exact ⟨_, _, rfl⟩

/-- The first idle task is run, unless it only leads to a task that is gone. -/
def Finds (entry : IdleEntry) (s : IdleTimerState) : Prop :=
  entry = .strong entry.num ∨ s.idleTask = some entry.num

theorem step_idle {s s' : IdleTimerState} (h : s.step .idle = .ok s') :
    ∃ entry queue, s.idleQueue = entry :: queue ∧
      ((s.Finds entry ∧ s' = { s with idleQueue := queue }.ran entry.num) ∨
        (¬ s.Finds entry ∧ s' = { s with idleQueue := queue })) := by
  simp only [step] at h
  split at h
  · cases h
  · rename_i n queue hq
    cases h
    exact ⟨.strong n, queue, hq, Or.inl ⟨Or.inl rfl, rfl⟩⟩
  · rename_i n queue hq
    split at h
    · rename_i hn
      cases h
      exact ⟨.weak n, queue, hq, Or.inl ⟨Or.inr hn, rfl⟩⟩
    · rename_i hn
      cases h
      exact ⟨.weak n, queue, hq, Or.inr ⟨fun hf => hf.elim nofun hn, rfl⟩⟩

/-- A callback leaves the task alone, or it is due and runs the task that is left. -/
theorem step_callback {i : Nat} {now : Readings} {s s' : IdleTimerState}
    (h : s.step (.callback i now) = .ok s') :
    ((¬ s.base.Due now.test ∨ s.idleTask = none) ∧ ∃ base callbacks,
      s' = { s with base := base, callbacks := callbacks, clock := now.scheduled }) ∨
    (s.base.Due now.test ∧ ∃ n, s.idleTask = some n ∧ ∃ base callbacks,
      s' = { s with
        base := base, idleTask := none, callbacks := callbacks, clock := now.scheduled }.ran n) := by
  have hearly : ∀ next, s.base.onScheduledTaskInvoked now = next → next ≠ .runUserTask →
      ¬ s.base.Due now.test := by
    rintro _ rfl hne hdue
    exact hne (BaseTimer.onScheduledTaskInvoked_eq_runUserTask.mpr hdue)
  simp only [step, Runs.bind_eq_ok, tick_eq_ok] at h
  obtain ⟨_, ⟨-, rfl⟩, h⟩ := h
  split at h
  · cases h
  · split at h
    · cases h
    · split at h
      · rename_i hi
        cases h
        exact Or.inl ⟨Or.inl (hearly _ hi nofun), _, _, rfl⟩
      · rename_i hi
        cases h
        exact Or.inl ⟨Or.inl (hearly _ hi nofun), _, _, rfl⟩
      · rename_i hi
        cases h
        have hdue := BaseTimer.onScheduledTaskInvoked_eq_runUserTask.mp hi
        cases ht : s.idleTask with
        | none =>
          refine Or.inl ⟨Or.inr rfl, s.base, s.callbacks.eraseIdx i, ?_⟩
          simp [runUserTask]
        | some n =>
          refine Or.inr ⟨hdue, n, rfl, s.base.stop, s.callbacks.eraseIdx i, ?_⟩
          simp [runUserTask, stop, ran]

end IdleTimerState

/-! ## What may be run -/

namespace IdleEvent

/-- The `Start` that no `Stop` and no other `Start` came after. -/
def current : List IdleEvent → Option Nat
  | [] => none
  | started n :: _ => some n
  | stopped :: _ => none
  | ran _ :: older => current older

/-- Every unit is run at most once, and after its `Start` no `Stop` and no other `Start`
comes before its run. -/
def OncePerStart : List IdleEvent → Prop
  | [] => True
  | ran n :: older => current older = some n ∧ ran n ∉ older ∧ OncePerStart older
  | _ :: older => OncePerStart older

instance decidableOncePerStart : (events : List IdleEvent) → Decidable (OncePerStart events)
  | [] => isTrue trivial
  | started _ :: older => decidableOncePerStart older
  | stopped :: older => decidableOncePerStart older
  | ran n :: older =>
    have : Decidable (OncePerStart older) := decidableOncePerStart older
    inferInstanceAs (Decidable (current older = some n ∧ ran n ∉ older ∧ OncePerStart older))

end IdleEvent

namespace IdleTimerState

/-- What ties the queue, `idle_task_` and the events together, whatever was called. -/
structure Consistent (s : IdleTimerState) : Prop where
  nodup : (s.idleQueue.map IdleEntry.num).Nodup
  queued : ∀ n ∈ s.idleQueue.map IdleEntry.num, n < s.starts
  ranStarted : ∀ n, .ran n ∈ s.events → n < s.starts
  held : ∀ n, s.idleTask = some n → IdleEvent.current s.events = some n
  waiting : ∀ n, s.idleTask = some n → (.ran n ∉ s.events ↔ n ∈ s.idleQueue.map IdleEntry.num)
  current : ∀ n, IdleEvent.current s.events = some n → s.idleTask = some n ∨ .ran n ∈ s.events

theorem consistent_new (taskRunner : Bool) : (new taskRunner).Consistent where
  nodup := List.nodup_nil
  queued _ h := nomatch h
  ranStarted _ h := nomatch h
  held _ h := nomatch h
  waiting _ h := nomatch h
  current _ h := nomatch h

/-- What only concerns the base of the timer and its callbacks. -/
theorem Consistent.base {s : IdleTimerState} (h : s.Consistent) (base : BaseTimer)
    (callbacks : List TimePoint) (clock : TimePoint) :
    { s with base := base, callbacks := callbacks, clock := clock }.Consistent :=
  ⟨h.nodup, h.queued, h.ranStarted, h.held, h.waiting, h.current⟩

theorem Consistent.start {s : IdleTimerState} (h : s.Consistent) {entry : IdleEntry}
    (hentry : entry.num = s.starts) :
    { s with
      idleTask := some s.starts
      idleQueue := s.idleQueue ++ [entry]
      starts := s.starts + 1
      events := .started s.starts :: s.events }.Consistent := by
  have hfresh : s.starts ∉ s.idleQueue.map IdleEntry.num :=
    fun hm => absurd (h.queued _ hm) (Nat.lt_irrefl _)
  constructor
  · simp only [List.map_append, List.map_cons, List.map_nil, hentry]
    exact List.nodup_append.mpr ⟨h.nodup, List.nodup_singleton _, by
      rintro n hn m hm rfl
      exact hfresh (List.mem_singleton.mp hm ▸ hn)⟩
  · intro n hn
    rcases List.mem_append.mp (List.map_append ▸ hn) with hn | hn
    · exact Nat.lt_succ_of_lt (h.queued n hn)
    · rw [List.mem_singleton.mp hn, hentry]
      exact Nat.lt_succ_self _
  · intro n hn
    rcases List.mem_cons.mp hn with hn | hn
    · cases hn
    · exact Nat.lt_succ_of_lt (h.ranStarted n hn)
  · rintro _ ⟨⟩
    rfl
  · rintro _ ⟨⟩
    have hran : IdleEvent.ran s.starts ∉ s.events :=
      fun hm => absurd (h.ranStarted _ hm) (Nat.lt_irrefl _)
    simp [hran, hentry]
  · rintro _ ⟨⟩
    exact Or.inl rfl

theorem Consistent.stop {s : IdleTimerState} (h : s.Consistent) (base : BaseTimer) :
    { s with base := base, idleTask := none, events := .stopped :: s.events }.Consistent where
  nodup := h.nodup
  queued := h.queued
  ranStarted n hn := by
    rcases List.mem_cons.mp hn with hn | hn
    · cases hn
    · exact h.ranStarted n hn
  held _ hn := nomatch hn
  waiting _ hn := nomatch hn
  current _ hn := nomatch hn

/-- The first idle task is taken out and run. -/
theorem Consistent.idle_ran {s : IdleTimerState} (h : s.Consistent) {entry : IdleEntry}
    {queue : List IdleEntry} (hq : s.idleQueue = entry :: queue) :
    ({ s with idleQueue := queue }.ran entry.num).Consistent := by
  have hnodup := h.nodup
  have hqueued := h.queued
  simp only [hq, List.map_cons, List.nodup_cons, List.mem_cons] at hnodup hqueued
  refine ⟨hnodup.2, fun n hn => hqueued n (Or.inr hn), fun n hn => ?_, h.held, fun n hn => ?_,
    fun n hn => ?_⟩
  · rcases List.mem_cons.mp hn with hn | hn
    · cases hn
      exact hqueued _ (Or.inl rfl)
    · exact h.ranStarted n hn
  · have hw := h.waiting n hn
    simp only [hq, List.map_cons, List.mem_cons] at hw
    show IdleEvent.ran n ∉ IdleEvent.ran entry.num :: s.events ↔ n ∈ queue.map IdleEntry.num
    by_cases hne : n = entry.num
    · subst hne
      simp [hnodup.1]
    · simpa [hne] using hw
  · exact (h.current n hn).imp_right fun hr => List.mem_cons_of_mem _ hr

/-- It is taken out and leads to no task. -/
theorem Consistent.idle_gone {s : IdleTimerState} (h : s.Consistent) {entry : IdleEntry}
    {queue : List IdleEntry} (hq : s.idleQueue = entry :: queue)
    (hgone : ¬ s.Finds entry) : { s with idleQueue := queue }.Consistent := by
  have hnodup := h.nodup
  have hqueued := h.queued
  simp only [hq, List.map_cons, List.nodup_cons, List.mem_cons] at hnodup hqueued
  refine ⟨hnodup.2, fun n hn => hqueued n (Or.inr hn), h.ranStarted, h.held, fun n hn => ?_,
    h.current⟩
  have hw := h.waiting n hn
  have hne : n ≠ entry.num := fun he => hgone (Or.inr (he ▸ hn))
  simpa [hq, hne] using hw

/-- The task that is left is run when the time is out. -/
theorem Consistent.timedOut {s : IdleTimerState} (h : s.Consistent) {n : Nat}
    (hn : s.idleTask = some n) (base : BaseTimer) (callbacks : List TimePoint) (clock : TimePoint) :
    ({ s with base := base, idleTask := none, callbacks := callbacks, clock := clock }.ran
      n).Consistent := by
  have hlt : n < s.starts := by
    by_cases hr : IdleEvent.ran n ∈ s.events
    · exact h.ranStarted n hr
    · exact h.queued n ((h.waiting n hn).mp hr)
  refine ⟨h.nodup, h.queued, fun m hm => ?_, nofun, nofun, fun m hm => Or.inr ?_⟩
  · rcases List.mem_cons.mp hm with hm | hm
    · cases hm
      exact hlt
    · exact h.ranStarted m hm
  · rcases h.current m hm with ht | hr
    · obtain rfl := Option.some.inj (hn.symm.trans ht)
      exact List.mem_cons_self
    · exact List.mem_cons_of_mem _ hr

/-- **Every step** keeps them together. -/
theorem Consistent.step {s s' : IdleTimerState} {a : IdleTimerAction} (h : s.Consistent)
    (hs : s.step a = .ok s') : s'.Consistent := by
  cases a with
  | start now timeout =>
    obtain ⟨base, entry, callbacks, hentry, rfl⟩ := step_start hs
    exact (h.start hentry).base base callbacks now.scheduled
  | reset now =>
    obtain ⟨base, callbacks, rfl⟩ := step_reset hs
    exact h.base base callbacks now.scheduled
  | stop =>
    cases hs
    exact h.stop s.base.stop
  | idle =>
    obtain ⟨entry, queue, hq, ⟨-, rfl⟩ | ⟨hgone, rfl⟩⟩ := step_idle hs
    · exact h.idle_ran hq
    · exact h.idle_gone hq hgone
  | callback i now =>
    rcases step_callback hs with ⟨-, base, callbacks, rfl⟩ | ⟨-, n, hn, base, callbacks, rfl⟩
    · exact h.base base callbacks now.scheduled
    · exact h.timedOut hn base callbacks now.scheduled

/-- The condition on a step: an idle task that was passed to `Start` itself is taken out
while `idle_task_` still holds its copy, and a callback that is due finds no copy whose
idle task was taken out before it. -/
def Single (s : IdleTimerState) : IdleTimerAction → Prop
  | .idle => ∀ entry ∈ s.idleQueue.head?, s.Finds entry → s.idleTask = some entry.num
  | .callback _ now => s.base.Due now.test → ∀ n ∈ s.idleTask, n ∈ s.idleQueue.map IdleEntry.num
  | _ => True

instance (entry : IdleEntry) (s : IdleTimerState) : Decidable (s.Finds entry) :=
  inferInstanceAs (Decidable (_ ∨ _))

instance (s : IdleTimerState) : DecidablePred s.Single
  | .idle => inferInstanceAs (Decidable (∀ entry ∈ s.idleQueue.head?, _ → _))
  | .callback _ now => inferInstanceAs (Decidable (s.base.Due now.test → ∀ n ∈ s.idleTask, _))
  | .start .. => isTrue trivial
  | .reset _ => isTrue trivial
  | .stop => isTrue trivial

/-- A run of the task that is held is a right one exactly if its idle task is still
waiting, and of the others none is. -/
theorem Consistent.once_ran {s : IdleTimerState} (h : s.Consistent) {n : Nat}
    (honce : IdleEvent.OncePerStart s.events) :
    IdleEvent.OncePerStart (.ran n :: s.events) ↔
      s.idleTask = some n ∧ n ∈ s.idleQueue.map IdleEntry.num := by
  constructor
  · rintro ⟨hcurrent, hran, -⟩
    have hn := (h.current n hcurrent).resolve_right hran
    exact ⟨hn, (h.waiting n hn).mp hran⟩
  · rintro ⟨hn, hq⟩
    exact ⟨h.held n hn, (h.waiting n hn).mpr hq, honce⟩

/-- One step from a state in which every run was a right one. -/
theorem Consistent.once_step {s s' : IdleTimerState} {a : IdleTimerAction} (h : s.Consistent)
    (honce : IdleEvent.OncePerStart s.events) (hs : s.step a = .ok s') :
    IdleEvent.OncePerStart s'.events ↔ s.Single a := by
  cases a with
  | start now timeout =>
    obtain ⟨base, entry, callbacks, -, rfl⟩ := step_start hs
    exact iff_of_true honce trivial
  | reset now =>
    obtain ⟨base, callbacks, rfl⟩ := step_reset hs
    exact iff_of_true honce trivial
  | stop =>
    cases hs
    exact iff_of_true honce trivial
  | idle =>
    obtain ⟨entry, queue, hq, hcase⟩ := step_idle hs
    rcases hcase with ⟨hfinds, rfl⟩ | ⟨hgone, rfl⟩
    · refine (h.once_ran honce).trans ?_
      simp [Single, hq, hfinds]
    · refine iff_of_true honce fun e he hfinds => ?_
      simp only [hq, List.head?_cons, Option.mem_def, Option.some.injEq] at he
      exact absurd (he ▸ hfinds) hgone
  | callback i now =>
    rcases step_callback hs with ⟨hnot, base, callbacks, rfl⟩ | ⟨hdue, n, hn, base, callbacks, rfl⟩
    · refine iff_of_true honce fun hdue n hn => ?_
      rcases hnot with hnot | hnone
      · exact absurd hdue hnot
      · rw [hnone] at hn
        cases hn
    · refine (h.once_ran honce).trans ?_
      simp [Single, hdue, hn]

end IdleTimerState

/-- **Run at most once, and not after `Stop` or another `Start`**, exactly in the runs
whose steps are all `Single`. -/
theorem idle_once_iff (taskRunner : Bool) (as : List IdleTimerAction) :
    Runs.Always IdleTimerState.step (fun s => IdleEvent.OncePerStart s.events)
        (.new taskRunner) as ↔
      Runs.Meets IdleTimerState.step IdleTimerState.Single (.new taskRunner) as := by
  apply Runs.always_iff_meets (A := fun _ => True) (J := IdleTimerState.Consistent)
  · exact fun _ _ _ _ hJ hs => hJ.step hs
  · exact fun _ _ _ _ hJ honce hs => hJ.once_step honce hs
  · exact fun _ _ => trivial
  · exact IdleTimerState.consistent_new taskRunner
  · exact trivial

/-- Started with a time-out of 10, run by the idle path, and run again when the time is
out. -/
theorem idle_task_twice : ¬ Runs.Always IdleTimerState.step
    (fun s => IdleEvent.OncePerStart s.events) (.new true)
    [.start (.once 1) (some 10), .idle, .callback 0 (.once 11)] := by
  decide

end Footstone
