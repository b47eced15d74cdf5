import Footstone.TaskRunner
import Mathlib.Data.List.Nodup
import Mathlib.Data.List.Perm.Basic
import Mathlib.Data.List.Infix
import Mathlib.Data.List.Pairwise

/-!
The queues of one `TaskRunner` against their specification. Along any sequence of
posts and `GetNext` calls every task passes through one history: what was
returned, followed by the task queue. The history has the immediate tasks in
posting order and the delayed ones in the order of their deadlines; what is not
in it yet waits in the delayed queue.
-/

namespace Footstone

/-- A call on a runner, with the clock it reads. -/
inductive Call where
  | postTask (task : Task)
  | postDelayedTask (now : TimePoint) (task : Task) (delay : TimeDelta)
  | getNext (now : TimePoint)
  deriving DecidableEq

/-- What a posting call leaves with the runner. -/
inductive Post where
  | immediate (task : Task)
  | delayed (deadline : TimePoint) (task : Task)
  deriving DecidableEq

namespace Post

def task : Post → Task
  | immediate t => t
  | delayed _ t => t

def isImmediate : Post → Bool
  | immediate _ => true
  | delayed _ _ => false

/-- Delayed posts are in the order of their deadlines. -/
def Ordered : Post → Post → Prop
  | delayed d _, delayed e _ => d ≤ e
  | _, _ => True

end Post

namespace Call

def now? : Call → Option TimePoint
  | postTask _ => none
  | postDelayedTask now _ _ => some now
  | getNext now => some now

def post? : Call → Option Post
  | postTask t => some (.immediate t)
  | postDelayedTask now t delay => some (.delayed (now + delay) t)
  | getNext _ => none

/-- The delay is not negative and the deadline does not overflow. -/
def InRange : Call → Prop
  | postDelayedTask now _ delay =>
    0 ≤ delay.toInt ∧ (now + delay).toInt = now.toInt + delay.toInt
  | _ => True

instance : DecidablePred InRange
  | postTask _ => isTrue trivial
  | postDelayedTask .. => inferInstanceAs (Decidable (_ ∧ _))
  | getNext _ => isTrue trivial

end Call

/-- The calls as a program can make them: the clock does not run backwards, no
deadline overflows, and no task is posted twice (a `unique_ptr` owns it). -/
structure Orderly (calls : List Call) : Prop where
  clock : (calls.filterMap Call.now?).Pairwise (· ≤ ·)
  inRange : ∀ c ∈ calls, c.InRange
  distinct : ((calls.filterMap Call.post?).map Post.task).Nodup

/-- A runner and what its `GetNext` has returned, with the clocks that were read. -/
structure Log where
  runner : TaskRunner
  returned : List (TimePoint × Task) := []

namespace Log

variable (E : Env)

def play (log : Log) : Call → Log
  | .postTask t => { log with runner := log.runner.postTask (some t) }
  | .postDelayedTask now t delay =>
    { log with runner := log.runner.postDelayedTask E now (some t) delay }
  | .getNext now =>
    let (task, runner) := log.runner.getNext E now
    { runner := runner, returned := log.returned ++ task.toList.map (now, ·) }

/-- The log of the calls made on `runner`, one after the other. -/
def of (runner : TaskRunner) (calls : List Call) : Log :=
  calls.foldl (play E) { runner := runner }

end Log

/-! ## Draining the delayed queue -/

namespace TaskRunner

variable {E : Env}

/-- What `drainDelayed` moves: everything that is due, by deadline. -/
structure Drained (E : Env) (now : TimePoint) (r r' : TaskRunner) (moved : List DelayedEntry) :
    Prop where
  taskQueue : r'.taskQueue = r.taskQueue ++ moved.map Prod.snd
  perm : (moved ++ r'.delayedTaskQueue).Perm r.delayedTaskQueue
  isHeap : E.heap.IsHeap r'.delayedTaskQueue
  sorted : moved.Pairwise fun a b => a.1 ≤ b.1
  due : ∀ e ∈ moved, e.1 ≤ now
  rest : ∀ e ∈ r'.delayedTaskQueue, now < e.1

theorem Drained.refl {now : TimePoint} {r : TaskRunner} (h : E.heap.IsHeap r.delayedTaskQueue)
    (hrest : ∀ e ∈ r.delayedTaskQueue, now < e.1) : Drained E now r r [] :=
  ⟨by simp, .refl _, h, .nil, by simp, hrest⟩

/-- One round: the top is due, and it is the earliest of all. -/
theorem Drained.cons {now deadline : TimePoint} {task : TaskPtr} {r r' : TaskRunner}
    {queue : List DelayedEntry} {moved : List DelayedEntry}
    (hq : r.delayedTaskQueue = (deadline, task) :: queue) (hh : E.heap.IsHeap r.delayedTaskQueue)
    (hdue : deadline ≤ now)
    (h : Drained E now { r with
      delayedTaskQueue := E.heap.pop r.delayedTaskQueue
      taskQueue := r.taskQueue ++ [task] } r' moved) :
    Drained E now r r' ((deadline, task) :: moved) := by
  have hpop : (E.heap.pop r.delayedTaskQueue).Perm queue := by
    rw [hq] at hh ⊢
    exact E.heap.pop_perm hh
  refine ⟨by simp [h.taskQueue], ?_, h.isHeap, ?_, ?_, h.rest⟩
  · rw [hq, List.cons_append]
    exact (h.perm.trans hpop).cons _
  · refine List.pairwise_cons.mpr ⟨fun e he => ?_, h.sorted⟩
    have hmem : e ∈ queue := (h.perm.trans hpop).subset (List.mem_append_left _ he)
    rw [hq] at hh
    exact Int64.le_iff_toInt_le.mpr (E.heap.front_le hh e hmem)
  · intro e he
    rcases List.mem_cons.mp he with rfl | he
    · exact hdue
    · exact h.due e he

theorem drainDelayed_drained (now : TimePoint) {n : Nat} {r : TaskRunner}
    (hn : r.delayedTaskQueue.length ≤ n) (hh : E.heap.IsHeap r.delayedTaskQueue)
    (hnull : ∀ e ∈ r.delayedTaskQueue, e.2 ≠ none) :
    ∃ moved, Drained E now r (drainDelayed E now n r) moved := by
  induction n generalizing r with
  | zero =>
    have hq : r.delayedTaskQueue = [] := List.length_eq_zero_iff.mp (Nat.le_zero.mp hn)
    exact ⟨[], .refl hh (by simp [hq])⟩
  | succ n ih =>
    cases hq : r.delayedTaskQueue with
    | nil =>
      have hstop : drainDelayed E now (n + 1) r = r := by
        simp [drainDelayed, popTaskFromDelayedQueueNoLock, hq]
      rw [hstop]
      exact ⟨[], .refl hh (by simp [hq])⟩
    | cons e queue =>
      obtain ⟨deadline, task⟩ := e
      by_cases hdue : now < deadline
      · have hstop : drainDelayed E now (n + 1) r = r := by
          simp [drainDelayed, popTaskFromDelayedQueueNoLock, hq, hdue]
        rw [hstop]
        refine ⟨[], .refl hh fun e he => ?_⟩
        rw [hq] at he hh
        rcases List.mem_cons.mp he with rfl | he
        · exact hdue
        · have hle := E.heap.front_le hh e he
          rw [Int64.lt_iff_toInt_lt] at hdue ⊢
          exact lt_of_lt_of_le hdue hle
      · cases task with
        | none => exact absurd rfl (hnull (deadline, none) (by simp [hq]))
        | some t =>
          have hpop : (E.heap.pop r.delayedTaskQueue).Perm queue := by
            have hh' := hh
            rw [hq] at hh' ⊢
            exact E.heap.pop_perm hh'
          obtain ⟨moved, h⟩ := @ih { r with
            delayedTaskQueue := E.heap.pop r.delayedTaskQueue
            taskQueue := r.taskQueue ++ [some t] }
            (by
              have := hpop.length_eq
              rw [hq, List.length_cons] at hn
              dsimp only
              omega)
            (E.heap.isHeap_pop hh)
            (fun e he => hnull e (by
              rw [hq]
              exact List.mem_cons_of_mem _ (hpop.subset he)))
          have hstep : drainDelayed E now (n + 1) r = drainDelayed E now n { r with
              delayedTaskQueue := E.heap.pop r.delayedTaskQueue
              taskQueue := r.taskQueue ++ [some t] } := by
            simp [drainDelayed, popTaskFromDelayedQueueNoLock, hq, hdue]
          rw [hstep]
          refine ⟨_, h.cons hq hh ?_⟩
          rw [Int64.le_iff_toInt_le]
          rw [Int64.lt_iff_toInt_lt] at hdue
          omega

/-- `GetNext` drains what is due and takes the front of the task queue. -/
theorem getNext_drained (now : TimePoint) {r : TaskRunner} (hh : E.heap.IsHeap r.delayedTaskQueue)
    (hnull : ∀ e ∈ r.delayedTaskQueue, e.2 ≠ none) :
    ∃ moved r', Drained E now r r' moved ∧ (r.getNext E now).1 = r'.taskQueue.head?.join ∧
      (r.getNext E now).2.taskQueue = r'.taskQueue.tail ∧
      (r.getNext E now).2.delayedTaskQueue = r'.delayedTaskQueue := by
  obtain ⟨moved, h⟩ := drainDelayed_drained (E := E) now le_rfl hh hnull
  refine ⟨moved, _, h, ?_⟩
  simp only [getNext]
  split <;> rename_i hq <;> rw [hq] <;> simp

end TaskRunner

/-! ## The history of a runner -/

/-- The post a delayed entry stands for. -/
def DelayedEntry.post? (e : DelayedEntry) : Option Post := e.2.map (Post.delayed e.1)

theorem mem_posts {es : List DelayedEntry} {p : Post} :
    p ∈ es.filterMap DelayedEntry.post? ↔ ∃ d t, (d, some t) ∈ es ∧ p = .delayed d t := by
  simp only [List.mem_filterMap, DelayedEntry.post?, Option.map_eq_some_iff]
  constructor
  · rintro ⟨⟨d, t⟩, he, u, ht, rfl⟩
    cases ht
    exact ⟨d, u, he, rfl⟩
  · rintro ⟨d, t, he, rfl⟩
    exact ⟨_, he, t, rfl, rfl⟩

theorem posts_tasks {es : List DelayedEntry} (h : ∀ e ∈ es, e.2 ≠ none) :
    (es.filterMap DelayedEntry.post?).map (some ·.task) = es.map Prod.snd := by
  induction es with
  | nil => rfl
  | cons e es ih =>
    obtain ⟨d, t⟩ := e
    rw [List.forall_mem_cons] at h
    cases t with
    | none => exact absurd rfl h.1
    | some t => exact congrArg (some t :: ·) (ih h.2)

/-- The posts that are not in the history yet. -/
def TaskRunner.waiting (r : TaskRunner) : List Post := r.delayedTaskQueue.filterMap DelayedEntry.post?

theorem posts_delayed (es : List DelayedEntry) :
    (es.filterMap DelayedEntry.post?).filter Post.isImmediate = [] := by
  rw [List.filter_eq_nil_iff]
  intro p hp
  obtain ⟨d, t, -, rfl⟩ := mem_posts.mp hp
  simp [Post.isImmediate]

theorem TaskRunner.Drained.posts_ordered {E : Env} {now : TimePoint} {r r' : TaskRunner}
    {moved : List DelayedEntry} (h : Drained E now r r' moved) :
    (moved.filterMap DelayedEntry.post?).Pairwise Post.Ordered := by
  refine h.sorted.filterMap _ fun e e' hle p hp q hq => ?_
  obtain ⟨t, -, rfl⟩ := Option.map_eq_some_iff.mp hp
  obtain ⟨u, -, rfl⟩ := Option.map_eq_some_iff.mp hq
  exact hle

theorem TaskRunner.Drained.waiting_perm {E : Env} {now : TimePoint} {r r' : TaskRunner}
    {moved : List DelayedEntry} (h : Drained E now r r' moved) :
    (moved.filterMap DelayedEntry.post? ++ r'.waiting).Perm r.waiting := by
  rw [waiting, ← List.filterMap_append]
  exact h.perm.filterMap _

/-- The front of what is queued is the next task of the history. -/
theorem Log.play_tasks {E : Env} {log : Log} {now : TimePoint} {history : List Post}
    {queue : List TaskPtr}
    (h : history.map (some ·.task) = log.returned.map (some ·.2) ++ queue)
    (htask : (log.runner.getNext E now).1 = queue.head?.join)
    (hqueue : (log.runner.getNext E now).2.taskQueue = queue.tail) :
    history.map (some ·.task) = (log.play E (.getNext now)).returned.map (some ·.2) ++
      (log.play E (.getNext now)).runner.taskQueue := by
  have hplay : (log.play E (.getNext now)).returned =
      log.returned ++ (log.runner.getNext E now).1.toList.map (now, ·) := rfl
  have hrunner : (log.play E (.getNext now)).runner = (log.runner.getNext E now).2 := rfl
  rw [h, hplay, hrunner, htask, hqueue, List.map_append, List.append_assoc]
  congr 1
  cases queue with
  | nil => rfl
  | cons t ts =>
    cases t with
    | some t => rfl
    | none =>
      have hnone : (none : TaskPtr) ∈ history.map (some ·.task) := by
        rw [h]
        simp
      simp at hnone

/-- `history` lists the tasks that were returned and then those of the task queue,
and all that the specification asks for holds of it. -/
structure Tracks (E : Env) (calls : List Call) (log : Log) (history : List Post) : Prop where
  tasks : history.map (some ·.task) = log.returned.map (some ·.2) ++ log.runner.taskQueue
  isHeap : E.heap.IsHeap log.runner.delayedTaskQueue
  nonnull : ∀ e ∈ log.runner.delayedTaskQueue, e.2 ≠ none
  perm : (history ++ log.runner.waiting).Perm (calls.filterMap Call.post?)
  immediate : history.filter Post.isImmediate =
    (calls.filterMap Call.post?).filter Post.isImmediate
  ordered : history.Pairwise Post.Ordered
  before : ∀ d t, Post.delayed d t ∈ history → ∀ e ∈ log.runner.delayedTaskQueue, d ≤ e.1
  past : ∀ d t, Post.delayed d t ∈ history → ∃ now ∈ calls.filterMap Call.now?, d ≤ now
  notEarly : ∀ (k : Nat) now t d u, log.returned[k]? = some (now, t) →
    history[k]? = some (Post.delayed d u) → d ≤ now

namespace Tracks

variable {E : Env} {calls : List Call} {log : Log} {history : List Post}

theorem returned_lt (h : Tracks E calls log history) {k : Nat} {x : TimePoint × Task}
    (hk : log.returned[k]? = some x) : k < history.length := by
  have hlen := congrArg List.length h.tasks
  have hlt := (List.getElem?_eq_some_iff.mp hk).1
  simp only [List.length_map, List.length_append] at hlen
  omega

/-- No pointer in the task queue is null. -/
theorem queue_nonnull (h : Tracks E calls log history) : ∀ t ∈ log.runner.taskQueue, t ≠ none := by
  intro t ht
  have hmem : t ∈ history.map (some ·.task) := by
    rw [h.tasks]
    exact List.mem_append_right _ ht
  obtain ⟨p, -, rfl⟩ := List.mem_map.mp hmem
  simp

theorem postTask (h : Tracks E calls log history) (t : Task) :
    Tracks E (calls ++ [.postTask t]) (log.play E (.postTask t)) (history ++ [.immediate t]) where
  tasks := by
    rw [List.map_append, h.tasks, List.append_assoc]
    rfl
  isHeap := h.isHeap
  nonnull := h.nonnull
  perm := by
    have hp := h.perm.append_right [Post.immediate t]
    simp only [List.filterMap_append, List.append_assoc] at hp ⊢
    exact (List.Perm.append_left _ List.perm_append_comm).trans hp
  immediate := by simp [h.immediate, Call.post?]
  ordered := by
    refine List.pairwise_append.mpr ⟨h.ordered, List.pairwise_singleton _ _, ?_⟩
    rintro (t | ⟨d, t⟩) - q hq <;> rw [List.mem_singleton.mp hq] <;> trivial
  before d u hd := by
    rw [List.mem_append, List.mem_singleton] at hd
    exact h.before d u (hd.resolve_right nofun)
  past d u hd := by
    rw [List.mem_append, List.mem_singleton] at hd
    simpa [Call.now?] using h.past d u (hd.resolve_right nofun)
  notEarly k now v d u hk hh := by
    rw [List.getElem?_append_left (h.returned_lt hk)] at hh
    exact h.notEarly k now v d u hk hh

/-- The clock has passed every delayed task of the history. -/
theorem past_le (h : Tracks E calls log history) {now : TimePoint}
    (hclock : ∀ c ∈ calls.filterMap Call.now?, c ≤ now) {d : TimePoint} {t : Task}
    (hd : Post.delayed d t ∈ history) : d ≤ now := by
  obtain ⟨c, hc, hle⟩ := h.past d t hd
  exact Int64.le_trans hle (hclock c hc)

theorem postDelayedTask (h : Tracks E calls log history) {now : TimePoint} {t : Task}
    {delay : TimeDelta} (hclock : ∀ c ∈ calls.filterMap Call.now?, c ≤ now)
    (hrange : (Call.postDelayedTask now t delay).InRange) :
    Tracks E (calls ++ [.postDelayedTask now t delay])
      (log.play E (.postDelayedTask now t delay)) history := by
  have hpush := E.heap.push_perm (now + delay, some t) h.isHeap
  have hle : now ≤ now + delay := by
    rw [Int64.le_iff_toInt_le, hrange.2]
    have := hrange.1
    omega
  refine ⟨h.tasks, E.heap.isHeap_push _ h.isHeap, fun e he => ?_, ?_, ?_, h.ordered,
    fun d u hd e he => ?_, fun d u hd => ?_, h.notEarly⟩
  · rcases List.mem_cons.mp (hpush.subset he) with rfl | he
    · simp
    · exact h.nonnull e he
  · have hwait : ((log.play E (.postDelayedTask now t delay)).runner.waiting).Perm
        (.delayed (now + delay) t :: log.runner.waiting) := hpush.filterMap _
    have hp := h.perm.append_right [Post.delayed (now + delay) t]
    simp only [List.filterMap_append, List.append_assoc] at hp ⊢
    exact (List.Perm.append_left _ (hwait.trans (List.perm_append_singleton _ _).symm)).trans hp
  · simp [h.immediate, Post.isImmediate, Call.post?]
  · rcases List.mem_cons.mp (hpush.subset he) with rfl | he
    · exact Int64.le_trans (h.past_le hclock hd) hle
    · exact h.before d u hd e he
  · obtain ⟨c, hc, hdc⟩ := h.past d u hd
    exact ⟨c, by rw [List.filterMap_append]; exact List.mem_append_left _ hc, hdc⟩

theorem getNext (h : Tracks E calls log history) {now : TimePoint}
    (hclock : ∀ c ∈ calls.filterMap Call.now?, c ≤ now) :
    ∃ history', Tracks E (calls ++ [.getNext now]) (log.play E (.getNext now)) history' := by
  obtain ⟨moved, r', hd, htask, hqueue, hdelayed⟩ :=
    TaskRunner.getNext_drained now h.isHeap h.nonnull
  have hsub : ∀ e ∈ moved, e ∈ log.runner.delayedTaskQueue := fun e he =>
    hd.perm.subset (List.mem_append_left _ he)
  have hsub' : ∀ e ∈ r'.delayedTaskQueue, e ∈ log.runner.delayedTaskQueue := fun e he =>
    hd.perm.subset (List.mem_append_right _ he)
  have hposts : (calls ++ [Call.getNext now]).filterMap Call.post? = calls.filterMap Call.post? := by
    simp [Call.post?]
  have hmoved : ∀ e ∈ moved, e.2 ≠ none := fun e he => h.nonnull e (hsub e he)
  set history' := history ++ moved.filterMap DelayedEntry.post? with hhistory
  have hpast : ∀ d t, Post.delayed d t ∈ history' → d ≤ now := by
    intro d t hp
    rcases List.mem_append.mp hp with hp | hp
    · exact h.past_le hclock hp
    · obtain ⟨_, _, he, hp⟩ := mem_posts.mp hp
      cases hp
      exact hd.due _ he
  have hqueued : history'.map (some ·.task) = log.returned.map (some ·.2) ++ r'.taskQueue := by
    rw [hhistory, List.map_append, h.tasks, posts_tasks hmoved, hd.taskQueue, List.append_assoc]
  refine ⟨history', Log.play_tasks hqueued htask hqueue, ?_, ?_, ?_, ?_, ?_, ?_, ?_, ?_⟩
  · exact hdelayed ▸ hd.isHeap
  · exact hdelayed ▸ fun e he => h.nonnull e (hsub' e he)
  · have hwait : (log.play E (.getNext now)).runner.waiting = r'.waiting :=
      congrArg (List.filterMap DelayedEntry.post?) hdelayed
    rw [hwait, hhistory, List.append_assoc, hposts]
    exact (hd.waiting_perm.append_left history).trans h.perm
  · rw [hhistory, List.filter_append, posts_delayed, List.append_nil, hposts]
    exact h.immediate
  · refine List.pairwise_append.mpr ⟨h.ordered, hd.posts_ordered, fun p hp q hq => ?_⟩
    obtain ⟨e, u, he, rfl⟩ := mem_posts.mp hq
    cases p with
    | immediate t => trivial
    | delayed d t => exact h.before d t hp _ (hsub _ he)
  · intro d t hp e he
    have he' : e ∈ r'.delayedTaskQueue := hdelayed ▸ he
    exact Int64.le_trans (hpast d t hp) (Int64.le_of_lt (hd.rest e he'))
  · exact fun d t hp => ⟨now, by simp [Call.now?], hpast d t hp⟩
  · intro k c t d u hk hh
    have hd' := hpast d u (List.mem_of_getElem? hh)
    by_cases hlt : k < log.returned.length
    · have hold : log.returned[k]? = some (c, t) := by
        rw [← hk]
        exact (List.getElem?_append_left hlt).symm
      rw [hhistory, List.getElem?_append_left (h.returned_lt hold)] at hh
      exact h.notEarly k c t d u hold hh
    · have hnew : (c, t) ∈ (log.runner.getNext E now).1.toList.map (now, ·) := by
        have hk' : (log.returned ++ (log.runner.getNext E now).1.toList.map (now, ·))[k]? =
            some (c, t) := hk
        rw [List.getElem?_append_right (Nat.le_of_not_lt hlt)] at hk'
        exact List.mem_of_getElem? hk'
      obtain ⟨_, -, he⟩ := List.mem_map.mp hnew
      cases he
      exact hd'

/-- `GetNext` returns null only when nothing is queued and nothing is due. -/
theorem getNext_none (h : Tracks E calls log history) {now : TimePoint}
    (hnone : (log.runner.getNext E now).1 = none) :
    log.runner.taskQueue = [] ∧ ∀ e ∈ log.runner.delayedTaskQueue, now < e.1 := by
  obtain ⟨moved, r', hd, htask, -, -⟩ :=
    TaskRunner.getNext_drained now h.isHeap h.nonnull
  have hempty : r'.taskQueue = [] := by
    rw [htask] at hnone
    cases hq : r'.taskQueue with
    | nil => rfl
    | cons t ts =>
      rw [hq] at hnone
      have hmem : t ∈ log.runner.taskQueue ++ moved.map Prod.snd := by
        rw [← hd.taskQueue, hq]
        exact List.mem_cons_self
      rcases List.mem_append.mp hmem with hmem | hmem
      · exact absurd hnone (h.queue_nonnull t hmem)
      · obtain ⟨e, he, rfl⟩ := List.mem_map.mp hmem
        exact absurd hnone (h.nonnull e (hd.perm.subset (List.mem_append_left _ he)))
  obtain ⟨hq, hm⟩ := List.append_eq_nil_iff.mp (hd.taskQueue.symm.trans hempty)
  refine ⟨hq, fun e he => hd.rest e ?_⟩
  have hperm := hd.perm
  rw [List.map_eq_nil_iff.mp hm, List.nil_append] at hperm
  exact hperm.symm.subset he

end Tracks

theorem Orderly.of_append {calls more : List Call} (h : Orderly (calls ++ more)) : Orderly calls where
  clock := by
    have := h.clock
    rw [List.filterMap_append] at this
    exact (List.pairwise_append.mp this).1
  inRange c hc := h.inRange c (List.mem_append_left _ hc)
  distinct := by
    have := h.distinct
    rw [List.filterMap_append, List.map_append] at this
    exact this.of_append_left

/-- The clock of the last call is not before the others. -/
theorem Orderly.clock_last {calls : List Call} {c : Call} {now : TimePoint}
    (h : Orderly (calls ++ [c])) (hc : c.now? = some now) :
    ∀ t ∈ calls.filterMap Call.now?, t ≤ now := by
  have hclock := h.clock
  rw [List.filterMap_append] at hclock
  intro t ht
  exact (List.pairwise_append.mp hclock).2.2 t ht now (by simp [hc])

/-- Every sequence of calls on a new runner has its history. -/
theorem tracks {E : Env} (runner : TaskRunner) (hq : runner.taskQueue = [])
    (hd : runner.delayedTaskQueue = []) {calls : List Call} (h : Orderly calls) :
    ∃ history, Tracks E calls (Log.of E runner calls) history := by
  induction calls using List.reverseRecOn with
  | nil =>
    refine ⟨[], ?_⟩
    constructor <;> simp [Log.of, hq, hd, TaskRunner.waiting, E.heap.isHeap_nil]
  | append_singleton calls c ih =>
    obtain ⟨history, ht⟩ := ih h.of_append
    have hstep : Log.of E runner (calls ++ [c]) = (Log.of E runner calls).play E c := by
      rw [Log.of, List.foldl_append]
      rfl
    rw [hstep]
    cases c with
    | postTask t => exact ⟨_, ht.postTask t⟩
    | postDelayedTask now t delay =>
      exact ⟨_, ht.postDelayedTask (h.clock_last rfl) (h.inRange _ (by simp))⟩
    | getNext now => exact ht.getNext (h.clock_last rfl)

/-! ## The specification -/

/-- The tasks of the `PostTask` calls, in posting order. -/
def immediates (calls : List Call) : List Task :=
  ((calls.filterMap Call.post?).filter Post.isImmediate).map Post.task

/-- `t` was posted with the deadline `d`. -/
def Deadline (calls : List Call) (d : TimePoint) (t : Task) : Prop :=
  Post.delayed d t ∈ calls.filterMap Call.post?

/-- What the queues of a runner are for. -/
structure Specified (calls : List Call) (log : Log) : Prop where
  /-- Every posted task is returned or still in a queue, and it is there once. -/
  conserved : (log.returned.map (some ·.2) ++ log.runner.taskQueue ++
    log.runner.delayedTaskQueue.map Prod.snd).Perm ((calls.filterMap Call.post?).map (some ·.task))
  once : (log.returned.map Prod.snd).Nodup
  fifo : (log.returned.map Prod.snd).filter (· ∈ immediates calls) <+: immediates calls
  byDeadline : (log.returned.map Prod.snd).Pairwise fun t u =>
    ∀ d e, Deadline calls d t → Deadline calls e u → d ≤ e
  notEarly : ∀ now t, (now, t) ∈ log.returned → ∀ d, Deadline calls d t → d ≤ now

namespace Tracks

variable {E : Env} {calls : List Call} {log : Log} {history : List Post}

theorem mem_posts (h : Tracks E calls log history) {p : Post} (hp : p ∈ history) :
    p ∈ calls.filterMap Call.post? := h.perm.subset (List.mem_append_left _ hp)

/-- A post is known by its task. -/
theorem post_unique (hn : ((calls.filterMap Call.post?).map Post.task).Nodup) {p q : Post}
    (hp : p ∈ calls.filterMap Call.post?) (hq : q ∈ calls.filterMap Call.post?)
    (h : p.task = q.task) : p = q := List.inj_on_of_nodup_map hn hp hq h

/-- What was returned is the beginning of the history. -/
theorem returned_eq (h : Tracks E calls log history) :
    log.returned.map Prod.snd = (history.take log.returned.length).map Post.task := by
  have htake : (history.take log.returned.length).map (some ·.task) = log.returned.map (some ·.2) := by
    rw [List.map_take, h.tasks]
    exact List.take_left' (List.length_map _)
  have hsome := congrArg (List.filterMap id) htake
  simpa only [List.filterMap_map, Function.comp_def, id_eq, List.filterMap_eq_map'] using hsome.symm

theorem specified (h : Tracks E calls log history)
    (hn : ((calls.filterMap Call.post?).map Post.task).Nodup) : Specified calls log := by
  have hdelayed : log.runner.waiting.map (some ·.task) = log.runner.delayedTaskQueue.map Prod.snd :=
    posts_tasks h.nonnull
  have hnodup : (history.map Post.task).Nodup := by
    have hp := (h.perm.map Post.task).nodup_iff.mpr hn
    rw [List.map_append] at hp
    exact hp.of_append_left
  have htake : ∀ p ∈ history.take log.returned.length, p ∈ calls.filterMap Call.post? := fun p hp =>
    h.mem_posts (List.take_subset _ _ hp)
  refine ⟨?_, ?_, ?_, ?_, ?_⟩
  · have hp := h.perm.map (some ·.task)
    rwa [List.map_append, h.tasks, hdelayed] at hp
  · rw [h.returned_eq]
    exact hnodup.sublist ((List.take_sublist _ _).map _)
  · have hmem : ∀ p ∈ history.take log.returned.length,
        (p.task ∈ immediates calls) = (p.isImmediate = true) := by
      intro p hp
      refine propext ⟨fun hi => ?_, fun hi => ?_⟩
      · obtain ⟨q, hq, he⟩ := List.mem_map.mp hi
        obtain ⟨hq, hi⟩ := List.mem_filter.mp hq
        rwa [← post_unique hn hq (htake p hp) he]
      · exact List.mem_map_of_mem (List.mem_filter.mpr ⟨htake p hp, hi⟩)
    have hfilter : ((history.take log.returned.length).map Post.task).filter
        (· ∈ immediates calls) =
          ((history.take log.returned.length).filter Post.isImmediate).map Post.task := by
      rw [List.filter_map]
      refine congrArg _ (List.filter_congr fun p hp => ?_)
      simp [hmem p hp]
    rw [h.returned_eq, hfilter, immediates, ← h.immediate]
    exact ((List.take_prefix _ _).filter _).map _
  · rw [h.returned_eq, List.pairwise_map]
    refine (h.ordered.sublist (List.take_sublist _ _)).imp_of_mem fun hp hq hle d e hd he => ?_
    rw [← post_unique hn hd (htake _ hp) rfl, ← post_unique hn he (htake _ hq) rfl] at hle
    exact hle
  · intro now t ht d hd
    obtain ⟨k, hk⟩ := List.getElem?_of_mem ht
    have hlt := h.returned_lt hk
    have htask : history[k].task = t := by
      have := congrArg (·[k]?) h.returned_eq
      simp only [List.getElem?_map, hk, List.getElem?_take_of_lt (List.getElem?_eq_some_iff.mp hk).1,
        List.getElem?_eq_getElem hlt, Option.map_some, Option.some.injEq] at this
      exact this.symm
    have hpost : history[k] = .delayed d t :=
      post_unique hn (h.mem_posts (List.getElem_mem hlt)) hd htask
    exact h.notEarly k now t d t hk (by rw [List.getElem?_eq_getElem hlt, hpost])

end Tracks

/-- **The queues refine their specification.** On a new runner, along every
orderly sequence of calls, no task is lost or returned twice, immediate tasks come
back in posting order, delayed ones by deadline and never early, and `GetNext`
returns null only when nothing is queued and nothing is due. -/
theorem queues_refine {E : Env} (groupId priority : UInt32) (isSchedulable : Bool)
    {calls : List Call} (h : Orderly calls) :
    let runner : TaskRunner :=
      { groupId := groupId, priority := priority, isSchedulable := isSchedulable }
    Specified calls (Log.of E runner calls) ∧
      ∀ before now after, calls = before ++ .getNext now :: after →
        ((Log.of E runner before).runner.getNext E now).1 = none →
          (Log.of E runner before).runner.taskQueue = [] ∧
            ∀ e ∈ (Log.of E runner before).runner.delayedTaskQueue, now < e.1 := by
  intro runner
  obtain ⟨history, ht⟩ := tracks (E := E) runner rfl rfl h
  refine ⟨ht.specified h.distinct, fun before now after he hnone => ?_⟩
  obtain ⟨_, hb⟩ := tracks (E := E) runner rfl rfl (he ▸ h).of_append
  exact hb.getNext_none hnone

/-- A task that is due overtakes nothing that was queued before it. -/
theorem queues_refine_due : Specified
    [.postDelayedTask 0 ⟨0⟩ 5, .postTask ⟨1⟩, .getNext 3, .getNext 4, .getNext 7]
    (Log.of .debug { groupId := 0, priority := 1, isSchedulable := true }
      [.postDelayedTask 0 ⟨0⟩ 5, .postTask ⟨1⟩, .getNext 3, .getNext 4, .getNext 7]) :=
  (queues_refine 0 1 true ⟨by decide, by decide, by decide⟩).1

end Footstone
