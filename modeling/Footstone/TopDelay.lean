import Footstone.Lib.Runs
import Footstone.Queues
import Mathlib.Data.List.Count

/-!
`PopTask` and `GetTopDelayTask` next to `GetNext`. `GetTopDelayTask` moves the
task out of the top entry of the delayed queue and leaves the entry there; to the
loop of `GetNext` the null task it then finds means that nothing is due. So all
is well as long as the call finds nothing to take.
-/

namespace Footstone

open Runs

namespace TaskRunner

def popTask (r : TaskRunner) : TaskPtr × TaskRunner :=
  match r.taskQueue with
  | [] => (none, r)
  | t :: ts => (t, { r with taskQueue := ts })

/-- The entry stays on top, with a null task. -/
def getTopDelayTask (r : TaskRunner) : TaskPtr × TaskRunner :=
  match r.taskQueue, r.delayedTaskQueue with
  | [], (deadline, task) :: queue =>
    (task, { r with delayedTaskQueue := (deadline, none) :: queue })
  | _, _ => (none, r)

end TaskRunner

/-- A call on a runner that posts a task or takes one, with the clock it reads. -/
inductive TakeCall where
  | postTask (task : Task)
  | postDelayedTask (now : TimePoint) (task : Task) (delay : TimeDelta)
  | popTask
  | getTopDelayTask
  | getNext (now : TimePoint)
  deriving DecidableEq

/-- A runner with the tasks that went in and came out. -/
structure TakeState where
  runner : TaskRunner
  posted : List Task := []
  left : List Task := []
  /-- What the clock read, if the last call was a `GetNext` that returned null. -/
  nullAt : Option TimePoint := none

namespace TakeState

variable (E : Env)

def step (t : TakeState) : TakeCall → Except Fault TakeState
  | .postTask task => .ok { t with
      runner := t.runner.postTask (some task)
      posted := task :: t.posted
      nullAt := none }
  | .postDelayedTask now task delay => .ok { t with
      runner := t.runner.postDelayedTask E now (some task) delay
      posted := task :: t.posted
      nullAt := none }
  | .popTask =>
    let (task, r) := t.runner.popTask
    .ok { t with runner := r, left := t.left ++ task.toList, nullAt := none }
  | .getTopDelayTask =>
    let (task, r) := t.runner.getTopDelayTask
    .ok { t with runner := r, left := t.left ++ task.toList, nullAt := none }
  | .getNext now =>
    let (task, r) := t.runner.getNext E now
    .ok { t with
      runner := r
      left := t.left ++ task.toList
      nullAt := if task = none then some now else none }

/-- No task has left more often than it was posted, every delayed entry has its
task, and after a `GetNext` that returned null nothing was queued or due. -/
def Intact (t : TakeState) : Prop :=
  (∀ task ∈ t.left, t.left.count task ≤ t.posted.count task) ∧
    (∀ e ∈ t.runner.delayedTaskQueue, e.2 ≠ none) ∧
    ∀ now ∈ t.nullAt, t.runner.taskQueue = [] ∧ ∀ e ∈ t.runner.delayedTaskQueue, now < e.1

instance (t : TakeState) : Decidable t.Intact :=
  have : Decidable (∀ now ∈ t.nullAt,
      t.runner.taskQueue = [] ∧ ∀ e ∈ t.runner.delayedTaskQueue, now < e.1) :=
    Option.decidableForallMem _
  inferInstanceAs (Decidable (_ ∧ _ ∧ _))

/-- `GetTopDelayTask` is called only when it returns null: a task is queued, or
none is delayed. -/
def TopUntouched (t : TakeState) : TakeCall → Prop
  | .getTopDelayTask => t.runner.taskQueue ≠ [] ∨ t.runner.delayedTaskQueue = []
  | _ => True

instance (t : TakeState) (c : TakeCall) : Decidable (t.TopUntouched c) := by
  cases c <;> unfold TopUntouched <;> infer_instance

/-- What was posted has left or waits, and nothing else waits. -/
structure Kept (t : TakeState) : Prop where
  isHeap : E.heap.IsHeap t.runner.delayedTaskQueue
  perm : (t.left.map some ++ (t.runner.taskQueue ++ t.runner.delayedTaskQueue.map Prod.snd)).Perm
    (t.posted.map some)

variable {E} {t t' : TakeState}

theorem Kept.nonnull (h : t.Kept E) {task : TaskPtr}
    (ht : task ∈ t.runner.taskQueue ∨ task ∈ t.runner.delayedTaskQueue.map Prod.snd) :
    task ≠ none := by
  have hmem : task ∈ t.posted.map some :=
    h.perm.subset (List.mem_append_right _ (List.mem_append.mpr ht))
  obtain ⟨x, -, rfl⟩ := List.mem_map.mp hmem
  simp

theorem Kept.delayed (h : t.Kept E) : ∀ e ∈ t.runner.delayedTaskQueue, e.2 ≠ none :=
  fun _ he => h.nonnull (Or.inr (List.mem_map_of_mem he))

theorem Kept.count_le (h : t.Kept E) (task : Task) :
    t.left.count task ≤ t.posted.count task := by
  have hcount := h.perm.count_eq (some task)
  have hinj : Function.Injective (some : Task → TaskPtr) := Option.some_injective _
  rw [List.count_append, List.count_map_of_injective _ _ hinj,
    List.count_map_of_injective _ _ hinj] at hcount
  omega

/-- Along with the clause about `GetNext` that is all there is to prove. -/
theorem Kept.intact (h : t.Kept E) (hnull : ∀ now ∈ t.nullAt,
    t.runner.taskQueue = [] ∧ ∀ e ∈ t.runner.delayedTaskQueue, now < e.1) : t.Intact :=
  ⟨fun task _ => h.count_le task, h.delayed, hnull⟩

/-! ## What a call does -/

/-- Taking the front of a queue without null tasks. -/
theorem front_append {queue : List TaskPtr} (h : ∀ task ∈ queue, task ≠ none) :
    queue.head?.join.toList.map some ++ queue.tail = queue := by
  cases queue with
  | nil => rfl
  | cons task rest =>
    cases task with
    | none => exact absurd rfl (h none (by simp))
    | some x => rfl

/-- One more task that was posted and waits. -/
theorem perm_posted {left posted : List Task} {tasks delayed : List TaskPtr} (task : Task)
    (h : (left.map some ++ (tasks ++ delayed)).Perm (posted.map some)) :
    (left.map some ++ (tasks ++ some task :: delayed)).Perm ((task :: posted).map some) := by
  rw [← List.append_assoc] at h ⊢
  exact List.perm_middle.trans (h.cons _)

theorem popTask_eq (r : TaskRunner) :
    r.popTask = (r.taskQueue.head?.join, { r with taskQueue := r.taskQueue.tail }) := by
  unfold TaskRunner.popTask
  split <;> rename_i h
  · cases r
    simp_all
  · simp [h]

theorem getTopDelayTask_null {r : TaskRunner} (h : r.taskQueue ≠ [] ∨ r.delayedTaskQueue = []) :
    r.getTopDelayTask = (none, r) := by
  unfold TaskRunner.getTopDelayTask
  split
  · rename_i ht hd
    rcases h with h | h
    · exact absurd ht h
    · rw [h] at hd
      cases hd
  · rfl

/-- A `GetTopDelayTask` that finds a task leaves an entry without one. -/
theorem getTopDelayTask_empties {r : TaskRunner}
    (h : ¬ (r.taskQueue ≠ [] ∨ r.delayedTaskQueue = [])) :
    ∃ e ∈ r.getTopDelayTask.2.delayedTaskQueue, e.2 = none := by
  obtain ⟨ht, hd⟩ := not_or.mp h
  obtain ⟨⟨deadline, task⟩, queue, hq⟩ := List.exists_cons_of_ne_nil hd
  refine ⟨(deadline, none), ?_, rfl⟩
  simp [TaskRunner.getTopDelayTask, not_not.mp ht, hq]

/-- A call that takes the front of a queue `tasks`, while `delayed` wait. -/
theorem kept_front {left : List Task} {tasks : List TaskPtr} {delayed : List DelayedEntry}
    (hnull : ∀ task ∈ tasks, task ≠ none)
    (hperm : (left.map some ++ (tasks ++ delayed.map Prod.snd)).Perm (t'.posted.map some))
    (hh : E.heap.IsHeap delayed) (hleft : t'.left = left ++ tasks.head?.join.toList)
    (htasks : t'.runner.taskQueue = tasks.tail) (hdelayed : t'.runner.delayedTaskQueue = delayed) :
    t'.Kept E := by
  refine ⟨hdelayed ▸ hh, ?_⟩
  have hsplit : (left ++ tasks.head?.join.toList).map some ++
      (tasks.tail ++ delayed.map Prod.snd) = left.map some ++ (tasks ++ delayed.map Prod.snd) := by
    rw [List.map_append, List.append_assoc, ← List.append_assoc (List.map some _) tasks.tail,
      front_append hnull]
  rw [hleft, htasks, hdelayed, hsplit]
  exact hperm

/-- `GetNext` moves what is due from the one queue to the other, and takes the
front of what is queued then. -/
theorem step_getNext {now : TimePoint} (h : t.Kept E) (hs : step E t (.getNext now) = .ok t') :
    t'.Kept E ∧ ∀ now ∈ t'.nullAt, t'.runner.taskQueue = [] ∧
      ∀ e ∈ t'.runner.delayedTaskQueue, now < e.1 := by
  obtain ⟨moved, r', hd, htask, htasks, hdelayed⟩ :=
    TaskRunner.getNext_drained now h.isHeap h.delayed
  simp only [step] at hs
  generalize t.runner.getNext E now = out at hs htask htasks hdelayed
  obtain ⟨task, r⟩ := out
  dsimp only at htask htasks hdelayed
  cases hs
  have hperm : (t.left.map some ++ (r'.taskQueue ++ r'.delayedTaskQueue.map Prod.snd)).Perm
      (t.posted.map some) := by
    refine List.Perm.trans ?_ h.perm
    rw [hd.taskQueue, List.append_assoc, ← List.map_append]
    exact ((hd.perm.map Prod.snd).append_left _).append_left _
  have hnull : ∀ task ∈ r'.taskQueue, task ≠ none := by
    intro task ht
    have hmem : task ∈ t.posted.map some :=
      hperm.subset (List.mem_append_right _ (List.mem_append_left _ ht))
    obtain ⟨x, -, rfl⟩ := List.mem_map.mp hmem
    simp
  refine ⟨kept_front hnull hperm hd.isHeap (by rw [htask]) htasks hdelayed, ?_⟩
  intro reading hread
  have hnone : task = none := by
    by_contra hne
    simp [hne] at hread
  obtain rfl : now = reading := by simpa [hnone] using hread
  -- Null comes from an empty queue: no queued task is null.
  have hempty : r'.taskQueue = [] := by
    cases hq : r'.taskQueue with
    | nil => rfl
    | cons x xs =>
      have hx : x = none := by simpa [hq, hnone] using htask.symm
      exact absurd hx (hnull x (by simp [hq]))
  refine ⟨by simp [htasks, hempty], fun e he => hd.rest e ?_⟩
  rwa [← hdelayed]

/-- Under the condition every call keeps what there is to keep. -/
theorem step_kept {c : TakeCall} (h : t.Kept E) (hcond : t.TopUntouched c)
    (hs : step E t c = .ok t') : t'.Kept E := by
  cases c with
  | postTask task =>
    cases hs
    refine ⟨h.isHeap, ?_⟩
    simpa [TaskRunner.postTask] using perm_posted task h.perm
  | postDelayedTask now task delay =>
    cases hs
    have hpush := (E.heap.push_perm (now + delay, some task) h.isHeap).map Prod.snd
    refine ⟨E.heap.isHeap_push _ h.isHeap, ?_⟩
    refine ((hpush.append_left _).append_left _).trans ?_
    exact perm_posted task h.perm
  | popTask =>
    simp only [step, popTask_eq] at hs
    cases hs
    exact kept_front (fun task ht => h.nonnull (Or.inl ht)) h.perm h.isHeap rfl rfl rfl
  | getTopDelayTask =>
    simp only [step, getTopDelayTask_null hcond] at hs
    cases hs
    exact ⟨h.isHeap, by simpa using h.perm⟩
  | getNext now => exact (step_getNext h hs).1

/-- After a `GetNext` that returned null nothing is queued or due. -/
theorem step_nullAt {c : TakeCall} (h : t.Kept E) (hs : step E t c = .ok t') :
    ∀ now ∈ t'.nullAt, t'.runner.taskQueue = [] ∧
      ∀ e ∈ t'.runner.delayedTaskQueue, now < e.1 := by
  cases c with
  | getNext now => exact (step_getNext h hs).2
  | _ =>
    cases hs
    simp

/-- A call leaves everything intact exactly when it does not empty the top entry. -/
theorem step_intact_iff {c : TakeCall} (h : t.Kept E) (hs : step E t c = .ok t') :
    t'.Intact ↔ t.TopUntouched c := by
  constructor
  · intro hi
    cases c with
    | getTopDelayTask =>
      by_contra hcond
      obtain ⟨e, he, hnone⟩ := getTopDelayTask_empties hcond
      simp only [step] at hs
      generalize t.runner.getTopDelayTask = out at hs he
      cases hs
      exact hi.2.1 e he hnone
    | _ => trivial
  · intro hcond
    exact (step_kept h hcond hs).intact (step_nullAt h hs)

end TakeState

/-- **Taking a delayed task early.** Along a sequence of posts and takes on a new
runner, no task leaves twice, no delayed entry loses its task and `GetNext` returns
null only when nothing is queued or due, exactly when `GetTopDelayTask` never
returns a task. -/
theorem taken_intact_iff (E : Env) (groupId priority : UInt32) (isSchedulable : Bool)
    (calls : List TakeCall) :
    let start : TakeState := { runner := {
      groupId := groupId, priority := priority, isSchedulable := isSchedulable } }
    Always (TakeState.step E) TakeState.Intact start calls ↔
      Meets (TakeState.step E) TakeState.TopUntouched start calls := by
  intro start
  have hkept : start.Kept E := ⟨E.heap.isHeap_nil, .refl _⟩
  refine always_iff_meets_under (A := fun _ => True) (J := TakeState.Kept E) ?_ ?_
    (fun _ _ => trivial) hkept (hkept.intact (by simp [start]))
  · exact fun t c t' _ h _ hcond hs => TakeState.step_kept h hcond hs
  · exact fun t c t' _ h _ hs => TakeState.step_intact_iff h hs

/-- Two delayed tasks: the upper one is taken early, and the lower one is due
behind it. -/
theorem top_taken_hides_rest : ¬ Always (TakeState.step .debug) TakeState.Intact
    { runner := { groupId := 0, priority := 1, isSchedulable := true } }
    [.postDelayedTask 0 ⟨1⟩ 5, .postDelayedTask 0 ⟨2⟩ 6, .getTopDelayTask, .getNext 10] := by
  decide

end Footstone
