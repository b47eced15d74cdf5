import Footstone.TaskRunner
import Footstone.Lib.While

/-!
`TaskRunner::Clear`, which drains the three queues in three loops. The third one
tests the idle queue and pops the delayed one, which the second has emptied.
-/

namespace Footstone

open While

/-- `pop()` of an empty queue. -/
inductive QueueFault where
  | empty
  deriving DecidableEq, Repr

namespace TaskRunner

variable (E : Env)

def popTaskQueue (r : TaskRunner) : Except QueueFault TaskRunner :=
  match r.taskQueue with
  | [] => .error .empty
  | _ :: ts => .ok { r with taskQueue := ts }

def popDelayedTaskQueue (r : TaskRunner) : Except QueueFault TaskRunner :=
  match r.delayedTaskQueue with
  | [] => .error .empty
  | _ :: _ => .ok { r with delayedTaskQueue := E.heap.pop r.delayedTaskQueue }

/-- `Clear`, with at most `rounds` rounds of each loop. -/
def clear (rounds : Nat) (r : TaskRunner) : Option (Except QueueFault TaskRunner) :=
  andThen (loop (fun r => !r.taskQueue.isEmpty) popTaskQueue rounds r) fun r =>
  andThen (loop (fun r => !r.delayedTaskQueue.isEmpty) (popDelayedTaskQueue E) rounds r) fun r =>
  loop (fun r => !r.idleTaskQueue.isEmpty) (popDelayedTaskQueue E) rounds r

/-- The call comes to its end, and all queues are empty. -/
def Clears (r : TaskRunner) : Prop :=
  ∃ rounds r', r.clear E rounds = some (.ok r') ∧ r'.taskQueue = [] ∧ r'.delayedTaskQueue = [] ∧
    r'.idleTaskQueue = []

/-! ## The single loops -/

variable {E}

theorem popTaskQueue_idleTaskQueue {r r' : TaskRunner} (h : r.popTaskQueue = .ok r') :
    r'.idleTaskQueue = r.idleTaskQueue := by
  unfold popTaskQueue at h
  split at h <;> cases h
  rfl

theorem popDelayedTaskQueue_idleTaskQueue {r r' : TaskRunner}
    (h : r.popDelayedTaskQueue E = .ok r') : r'.idleTaskQueue = r.idleTaskQueue := by
  unfold popDelayedTaskQueue at h
  split at h <;> cases h
  rfl

theorem loop_idleTaskQueue {test : TaskRunner → Bool}
    {body : TaskRunner → Except QueueFault TaskRunner}
    (hbody : ∀ x x', body x = .ok x' → x'.idleTaskQueue = x.idleTaskQueue) {rounds : Nat}
    {r r' : TaskRunner} (h : loop test body rounds r = some (.ok r')) :
    r'.idleTaskQueue = r.idleTaskQueue :=
  (loop_invariant (I := fun x => x.idleTaskQueue = r.idleTaskQueue)
    (fun _ _ hx _ hb => (hbody _ _ hb).trans hx) rfl h).1

/-- No loop pops the idle queue. -/
theorem clear_idleTaskQueue {rounds : Nat} {r r' : TaskRunner}
    (h : r.clear E rounds = some (.ok r')) : r'.idleTaskQueue = r.idleTaskQueue := by
  obtain ⟨r₁, h₁, h⟩ := andThen_eq_ok.mp h
  obtain ⟨r₂, h₂, h₃⟩ := andThen_eq_ok.mp h
  calc r'.idleTaskQueue
    _ = r₂.idleTaskQueue := loop_idleTaskQueue (fun _ _ => popDelayedTaskQueue_idleTaskQueue) h₃
    _ = r₁.idleTaskQueue := loop_idleTaskQueue (fun _ _ => popDelayedTaskQueue_idleTaskQueue) h₂
    _ = r.idleTaskQueue := loop_idleTaskQueue (fun _ _ => popTaskQueue_idleTaskQueue) h₁

/-- The first loop empties the task queue and nothing else. -/
theorem clear_tasks {rounds : Nat} (r : TaskRunner) (hn : r.taskQueue.length ≤ rounds) :
    loop (fun r => !r.taskQueue.isEmpty) popTaskQueue rounds r =
      some (.ok { r with taskQueue := [] }) := by
  have hround : ∀ x : TaskRunner, (∃ tasks, x = { r with taskQueue := tasks }) →
      (!x.taskQueue.isEmpty) = true → ∃ x', x.popTaskQueue = .ok x' ∧
        (∃ tasks, x' = { r with taskQueue := tasks }) ∧
        x'.taskQueue.length < x.taskQueue.length := by
    rintro _ ⟨tasks, rfl⟩ htest
    cases tasks with
    | nil => simp at htest
    | cons t ts => exact ⟨_, rfl, ⟨ts, rfl⟩, by simp⟩
  obtain ⟨r', hr, ⟨tasks, rfl⟩, htest⟩ := loop_returns hround ⟨_, rfl⟩ hn
  rw [hr]
  simp only [Bool.not_eq_false', List.isEmpty_iff] at htest
  rw [htest]

/-- The second loop empties the delayed queue and nothing else. -/
theorem clear_delayed {rounds : Nat} (r : TaskRunner) (hh : E.heap.IsHeap r.delayedTaskQueue)
    (hn : r.delayedTaskQueue.length ≤ rounds) :
    loop (fun r => !r.delayedTaskQueue.isEmpty) (popDelayedTaskQueue E) rounds r =
      some (.ok { r with delayedTaskQueue := [] }) := by
  have hround : ∀ x : TaskRunner,
      (∃ queue, E.heap.IsHeap queue ∧ x = { r with delayedTaskQueue := queue }) →
      (!x.delayedTaskQueue.isEmpty) = true → ∃ x', x.popDelayedTaskQueue E = .ok x' ∧
        (∃ queue, E.heap.IsHeap queue ∧ x' = { r with delayedTaskQueue := queue }) ∧
        x'.delayedTaskQueue.length < x.delayedTaskQueue.length := by
    rintro _ ⟨queue, hqueue, rfl⟩ htest
    cases queue with
    | nil => simp at htest
    | cons e es =>
      refine ⟨_, rfl, ⟨_, E.heap.isHeap_pop hqueue, rfl⟩, ?_⟩
      simp [(E.heap.pop_perm hqueue).length_eq]
  obtain ⟨r', hr, ⟨queue, -, rfl⟩, htest⟩ := loop_returns hround ⟨_, hh, rfl⟩ hn
  rw [hr]
  simp only [Bool.not_eq_false', List.isEmpty_iff] at htest
  rw [htest]

/-- **Clearing.** `Clear` comes to its end with empty queues exactly when no idle
task is queued. -/
theorem clears_iff {r : TaskRunner} (hh : E.heap.IsHeap r.delayedTaskQueue) :
    r.Clears E ↔ r.idleTaskQueue = [] := by
  constructor
  · rintro ⟨rounds, r', hr, -, -, hidle⟩
    rw [← clear_idleTaskQueue hr]
    exact hidle
  · intro hidle
    refine ⟨r.taskQueue.length + r.delayedTaskQueue.length,
      { r with taskQueue := [], delayedTaskQueue := [] }, ?_, rfl, rfl, hidle⟩
    rw [clear, clear_tasks r (by omega)]
    dsimp only [andThen]
    rw [clear_delayed { r with taskQueue := [] } hh (by dsimp only; omega)]
    exact loop_of_not (by simp [hidle]) _

end TaskRunner

/-- Two tasks and two delayed ones. -/
theorem clears_without_idle_task : TaskRunner.Clears .debug
    { priority := 1, groupId := 0, isSchedulable := true
      taskQueue := [some ⟨1⟩, some ⟨2⟩]
      delayedTaskQueue := [(5, some ⟨3⟩), (7, some ⟨4⟩)] } :=
  (TaskRunner.clears_iff (by simp [Env.debug, HeapOrder.sorted, DelayedEntry.key])).mpr rfl

/-- One idle task. -/
theorem idle_task_not_cleared : ¬ TaskRunner.Clears .debug
    { priority := 1, groupId := 0, isSchedulable := true, idleTaskQueue := [some ⟨1⟩] } := by
  rintro ⟨rounds, r', hr, -, -, hidle⟩
  rw [TaskRunner.clear_idleTaskQueue hr] at hidle
  cases hidle

end Footstone
