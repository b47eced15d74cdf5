import Footstone.Queues
import Footstone.Lib.Runs
import Mathlib.Data.Fintype.Basic
import Mathlib.Logic.Function.Basic

/-!
A `TaskRunner` that any number of threads post to while its worker calls `GetNext`, by the
accesses between which `queue_mutex_` and `delay_mutex_` let other threads in. `GetNext` pops a
first delayed task with no mutex at all: it looks at the top of the heap, moves the task out of
it and removes the top, and has the task in hand until it gets both mutexes. A push that comes
before the top is removed can put another entry there, whose task is destroyed. Without such a
push nothing is lost or duplicated, immediate tasks stay in the order of their posting and no task
is early. The order of the deadlines is kept as long as that pop does not come between the clock
that a `PostDelayedTask` reads and its push of an earlier deadline either.

A push of the heap and the removal of its top are one access each, and so are `empty()`, `top()`
and the comparison of `popTaskFromDelayedQueueNoLock`: nobody else removes entries. The task is
moved out of the entry that is on top by then; that a push may also move the entries to other
memory is left out, and so is that it may run while the top is being removed. `std::scoped_lock`
gets both mutexes at once; what it tries before it does leaves no trace. The idle queue has a mutex
of its own and is left out, and so is `NotifyWorker`. A task that is posted is not null.
-/

namespace Footstone

/-- The deadline that a post waits for. -/
def Post.deadline? : Post → Option TimePoint
  | .immediate _ => none
  | .delayed deadline _ => some deadline

namespace Fetching

inductive Thread (τ : Type) where
  | worker
  | poster (t : τ)
  deriving DecidableEq

/-- Where a thread is in `PostTask` or `PostDelayedTask`. -/
inductive PostPc where
  | lockQueue (task : Task)
  | push (task : Task)
  | unlockQueue
  | lockDelay (task : Task) (delay : TimeDelta)
  | readClock (task : Task) (delay : TimeDelta)
  | pushDelayed (now : TimePoint) (task : Task) (delay : TimeDelta)
  | unlockDelay
  deriving DecidableEq

/-- It has `delay_mutex_`. -/
def PostPc.holdsDelay : PostPc → Bool
  | .readClock .. | .pushDelayed .. | .unlockDelay => true
  | _ => false

/-- The deadline that the thread has computed and not pushed yet. -/
def PostPc.deadline? : PostPc → Option TimePoint
  | .pushDelayed now _ delay => some (now + delay)
  | _ => none

/-- Where the worker is in `GetNext`. -/
inductive FetchPc where
  | outside
  /-- `popTaskFromDelayedQueueNoLock` without a mutex: its tests, the move, and the `pop()`. -/
  | testFirst (now : TimePoint)
  | moveFirst (now : TimePoint)
  | popFirst (now : TimePoint) (task : TaskPtr)
  | lockBoth (now : TimePoint) (task : TaskPtr)
  | loop (now : TimePoint) (task : TaskPtr)
  | popNext (now : TimePoint)
  | lockQueue
  | takeFront
  | unlockQueue
  deriving DecidableEq

namespace FetchPc

def now? : FetchPc → Option TimePoint
  | testFirst now | moveFirst now | popFirst now _ | lockBoth now _ | loop now _
  | popNext now => some now
  | _ => none

/-- The task it has in hand. -/
def task? : FetchPc → TaskPtr
  | popFirst _ task | lockBoth _ task | loop _ task => task
  | _ => none

def holdsDelay : FetchPc → Bool
  | loop .. | popNext _ => true
  | _ => false

/-- It has looked at the top of the delayed queue and not removed it yet, without a mutex. -/
def atTop : FetchPc → Bool
  | moveFirst _ | popFirst .. => true
  | _ => false

end FetchPc

/-- The runner and the threads at it. The last four fields are what has happened: what `GetNext`
returned and when, what was posted, what got into the task queue, and what the worker has popped
and not queued yet. -/
structure System (τ : Type) where
  runner : TaskRunner
  clock : TimePoint
  queueMutex : Option (Thread τ) := none
  delayMutex : Option (Thread τ) := none
  fetch : FetchPc := .outside
  post : τ → Option PostPc := fun _ => none
  returned : List (TimePoint × Task) := []
  posted : List Post := []
  history : List Post := []
  hand : List Post := []

inductive Op (τ : Type) where
  | postTask (t : τ) (task : Task)
  | postDelayedTask (t : τ) (task : Task) (delay : TimeDelta)
  | go (t : τ)
  | getNext
  | fetch
  | tick (later : TimePoint)

/-- Why a step is none: the thread is in a call, it is in none, it waits for a mutex, or the
clock would run backwards. -/
inductive Fault where
  | busy
  | idle
  | blocked
  | backwards
  deriving DecidableEq

/-- The task of the top entry is moved out. The entry stays on top. -/
def moveOut (r : TaskRunner) : TaskPtr × TaskRunner :=
  match r.delayedTaskQueue with
  | [] => (none, r)
  | (deadline, task) :: queue => (task, { r with delayedTaskQueue := (deadline, none) :: queue })

/-- The entry on top is due. -/
def topDue (now : TimePoint) (r : TaskRunner) : Bool :=
  match r.delayedTaskQueue with
  | [] => false
  | e :: _ => !decide (now < e.1)

/-- What `popTaskFromDelayedQueueNoLock` takes. -/
def popped (now : TimePoint) (r : TaskRunner) : List Post :=
  match r.delayedTaskQueue with
  | [] => []
  | e :: _ => if now < e.1 then [] else e.post?.toList

namespace System

variable {τ : Type} (E : Env)

/-- Nothing has been posted to the runner. -/
def new (r : TaskRunner) (clock : TimePoint) : System τ :=
  { runner := { r with taskQueue := [], delayedTaskQueue := [] }, clock }

variable [DecidableEq τ]

def goTo (t : τ) (pc : Option PostPc) (s : System τ) : System τ :=
  { s with post := Function.update s.post t pc }

/-- The next access of a thread that posts. -/
def goPost (t : τ) (s : System τ) : PostPc → Except Fault (System τ)
  | .lockQueue task =>
    match s.queueMutex with
    | none => .ok { s.goTo t (some (.push task)) with queueMutex := some (.poster t) }
    | some _ => .error .blocked
  | .push task =>
    .ok { s.goTo t (some .unlockQueue) with
      runner := s.runner.postTask (some task)
      posted := s.posted ++ [.immediate task]
      history := s.history ++ [.immediate task] }
  | .unlockQueue => .ok { s.goTo t none with queueMutex := none }
  | .lockDelay task delay =>
    match s.delayMutex with
    | none => .ok { s.goTo t (some (.readClock task delay)) with delayMutex := some (.poster t) }
    | some _ => .error .blocked
  | .readClock task delay => .ok (s.goTo t (some (.pushDelayed s.clock task delay)))
  | .pushDelayed now task delay =>
    .ok { s.goTo t (some .unlockDelay) with
      runner := s.runner.postDelayedTask E now (some task) delay
      posted := s.posted ++ [.delayed (now + delay) task] }
  | .unlockDelay => .ok { s.goTo t none with delayMutex := none }

/-- `popTaskFromDelayedQueueNoLock` under both mutexes. -/
def popNext (now : TimePoint) (s : System τ) : System τ :=
  { s with
    runner := (s.runner.popTaskFromDelayedQueueNoLock E now).2
    fetch := .loop now (s.runner.popTaskFromDelayedQueueNoLock E now).1
    hand := popped now s.runner }

/-- The next access of `GetNext`. -/
def goFetch (s : System τ) : Except Fault (System τ) :=
  match s.fetch with
  | .outside => .error .idle
  | .testFirst now =>
    .ok { s with fetch := if topDue now s.runner then .moveFirst now else .lockBoth now none }
  | .moveFirst now =>
    .ok { s with
      runner := (moveOut s.runner).2
      fetch := .popFirst now (moveOut s.runner).1
      hand := (s.runner.delayedTaskQueue.head?.bind DelayedEntry.post?).toList }
  | .popFirst now task =>
    .ok { s with
      runner := { s.runner with delayedTaskQueue := E.heap.pop s.runner.delayedTaskQueue }
      fetch := .lockBoth now task }
  | .lockBoth now task =>
    match s.queueMutex, s.delayMutex with
    | none, none =>
      .ok { s with fetch := .loop now task, queueMutex := some .worker, delayMutex := some .worker }
    | _, _ => .error .blocked
  | .loop now (some task) =>
    .ok { s with
      runner := s.runner.postTask (some task)
      fetch := .popNext now
      history := s.history ++ s.hand
      hand := [] }
  | .loop _ none => .ok { s with fetch := .lockQueue, queueMutex := none, delayMutex := none }
  | .popNext now => .ok (s.popNext E now)
  | .lockQueue =>
    match s.queueMutex with
    | none => .ok { s with fetch := .takeFront, queueMutex := some .worker }
    | some _ => .error .blocked
  | .takeFront =>
    match s.runner.taskQueue with
    | [] => .ok { s with fetch := .unlockQueue }
    | task :: tasks =>
      .ok { s with
        runner := { s.runner with taskQueue := tasks }
        fetch := .unlockQueue
        returned := s.returned ++ task.toList.map (s.clock, ·) }
  | .unlockQueue => .ok { s with fetch := .outside, queueMutex := none }

def step (s : System τ) : Op τ → Except Fault (System τ)
  | .postTask t task =>
    match s.post t with
    | none => .ok (s.goTo t (some (.lockQueue task)))
    | some _ => .error .busy
  | .postDelayedTask t task delay =>
    match s.post t with
    | none => .ok (s.goTo t (some (.lockDelay task delay)))
    | some _ => .error .busy
  | .go t =>
    match s.post t with
    | none => .error .idle
    | some pc => s.goPost E t pc
  | .getNext =>
    match s.fetch with
    | .outside => .ok { s with fetch := .testFirst s.clock }
    | _ => .error .busy
  | .fetch => s.goFetch E
  | .tick later => if s.clock ≤ later then .ok { s with clock := later } else .error .backwards

end System

/-! ## What an access of the worker does -/

/-- Every entry has its task, but for the one that the worker has moved the task out of. -/
def FetchPc.Fits (fetch : FetchPc) (queue : List DelayedEntry) : Prop :=
  match fetch with
  | .moveFirst now =>
    ∃ deadline task rest, queue = (deadline, some task) :: rest ∧ deadline ≤ now ∧
      ∀ e ∈ rest, e.2 ≠ none
  | .popFirst .. => ∃ deadline rest, queue = (deadline, none) :: rest ∧ ∀ e ∈ rest, e.2 ≠ none
  | _ => ∀ e ∈ queue, e.2 ≠ none

theorem FetchPc.fits_iff {fetch : FetchPc} (h : fetch.atTop = false) (queue : List DelayedEntry) :
    fetch.Fits queue ↔ ∀ e ∈ queue, e.2 ≠ none := by
  cases fetch <;> first | exact Iff.rfl | cases h

namespace System

variable {τ : Type} {E : Env} {s s' : System τ}

inductive Fetched (E : Env) (s : System τ) : System τ → Prop where
  /-- It gets further, with or without the mutexes. -/
  | moved {fetch : FetchPc} {queueMutex delayMutex : Option (Thread τ)}
      (task : fetch.task? = s.fetch.task?) (now : ∀ now ∈ fetch.now?, now ∈ s.fetch.now?)
      (mutex : (delayMutex = s.delayMutex ∧ fetch.holdsDelay = false) ∨
        (s.delayMutex = none ∧ delayMutex = some .worker) ∨
        (s.fetch.holdsDelay = true ∧ fetch.holdsDelay = false))
      (queue : s.fetch.Fits s.runner.delayedTaskQueue → fetch.Fits s.runner.delayedTaskQueue) :
      Fetched E s { s with fetch, queueMutex, delayMutex }
  /-- It moves the task out of the top entry. -/
  | movedOut {now : TimePoint} (start : s.fetch = .moveFirst now) :
      Fetched E s { s with
        runner := (moveOut s.runner).2
        fetch := .popFirst now (moveOut s.runner).1
        hand := (s.runner.delayedTaskQueue.head?.bind DelayedEntry.post?).toList }
  /-- It removes the top entry. -/
  | removed {now : TimePoint} {task : TaskPtr} (start : s.fetch = .popFirst now task) :
      Fetched E s { s with
        runner := { s.runner with delayedTaskQueue := E.heap.pop s.runner.delayedTaskQueue }
        fetch := .lockBoth now task }
  /-- It pops the delayed queue under the mutexes. -/
  | popped {now : TimePoint} (start : s.fetch = .popNext now) : Fetched E s (s.popNext E now)
  /-- It queues what it has in hand. -/
  | queued {now : TimePoint} {task : Task} (start : s.fetch = .loop now (some task)) :
      Fetched E s { s with
        runner := s.runner.postTask (some task)
        fetch := .popNext now
        history := s.history ++ s.hand
        hand := [] }
  /-- It takes the front of the task queue. -/
  | taken {task : TaskPtr} {tasks : List TaskPtr} (start : s.fetch = .takeFront)
      (front : s.runner.taskQueue = task :: tasks) :
      Fetched E s { s with
        runner := { s.runner with taskQueue := tasks }
        fetch := .unlockQueue
        returned := s.returned ++ task.toList.map (s.clock, ·) }

/-- The top entry is due, or it gets on without a task. -/
theorem testFirst_fetched {now : TimePoint} (hfetch : s.fetch = .testFirst now) :
    Fetched E s { s with
      fetch := if topDue now s.runner then .moveFirst now else .lockBoth now none } := by
  by_cases hdue : topDue now s.runner = true
  · rw [if_pos hdue]
    refine .moved (by rw [hfetch]; rfl) (by simp [hfetch, FetchPc.now?]) (Or.inl ⟨rfl, rfl⟩) ?_
    intro hfits
    rw [hfetch] at hfits
    have hnull : ∀ e ∈ s.runner.delayedTaskQueue, e.2 ≠ none := hfits
    unfold topDue at hdue
    cases hq : s.runner.delayedTaskQueue with
    | nil => simp [hq] at hdue
    | cons e rest =>
      obtain ⟨deadline, task⟩ := e
      rw [hq, List.forall_mem_cons] at hnull
      obtain ⟨t, rfl⟩ := Option.ne_none_iff_exists'.mp hnull.1
      exact ⟨deadline, t, rest, rfl, by simpa [hq] using hdue, hnull.2⟩
  · rw [if_neg hdue]
    exact .moved (by rw [hfetch]; rfl) (by simp [hfetch, FetchPc.now?]) (Or.inl ⟨rfl, rfl⟩)
      (by rw [hfetch]; exact id)

theorem goFetch_fetched (hs : s.goFetch E = .ok s') : Fetched E s s' := by
  unfold goFetch at hs
  cases hfetch : s.fetch with
  | outside =>
    rw [hfetch] at hs
    cases hs
  | testFirst now =>
    rw [hfetch] at hs
    cases hs
    exact testFirst_fetched hfetch
  | moveFirst now =>
    rw [hfetch] at hs
    cases hs
    exact .movedOut hfetch
  | popFirst now task =>
    rw [hfetch] at hs
    cases hs
    exact .removed hfetch
  | lockBoth now task =>
    simp only [hfetch] at hs
    split at hs
    · rename_i hdelay
      cases hs
      exact .moved (by rw [hfetch]; rfl) (by simp [hfetch, FetchPc.now?])
        (Or.inr (Or.inl ⟨hdelay, rfl⟩)) (by rw [hfetch]; exact id)
    · cases hs
  | loop now task =>
    cases task with
    | none =>
      rw [hfetch] at hs
      cases hs
      exact .moved (by rw [hfetch]; rfl) (by simp [FetchPc.now?])
        (Or.inr (Or.inr ⟨by rw [hfetch]; rfl, rfl⟩)) (by rw [hfetch]; exact id)
    | some task =>
      rw [hfetch] at hs
      cases hs
      exact .queued hfetch
  | popNext now =>
    rw [hfetch] at hs
    cases hs
    exact .popped hfetch
  | lockQueue =>
    simp only [hfetch] at hs
    split at hs
    · cases hs
      exact .moved (by rw [hfetch]; rfl) (by simp [FetchPc.now?]) (Or.inl ⟨rfl, rfl⟩)
        (by rw [hfetch]; exact id)
    · cases hs
  | takeFront =>
    simp only [hfetch] at hs
    split at hs
    · cases hs
      exact .moved (by rw [hfetch]; rfl) (by simp [FetchPc.now?]) (Or.inl ⟨rfl, rfl⟩)
        (by rw [hfetch]; exact id)
    · rename_i task tasks hq
      cases hs
      exact .taken hfetch hq
  | unlockQueue =>
    rw [hfetch] at hs
    cases hs
    exact .moved (by rw [hfetch]; rfl) (by simp [FetchPc.now?]) (Or.inl ⟨rfl, rfl⟩)
      (by rw [hfetch]; exact id)

end System

/-! ## Nothing is lost, doubled or early -/

namespace System

variable {τ : Type} (E : Env)

/-- Where every task is that was posted: `GetNext` has returned it, it is in the task queue, in
the worker's hand or in the delayed queue. -/
structure Served (s : System τ) : Prop where
  tasks : s.history.map (some ·.task) = s.returned.map (some ·.2) ++ s.runner.taskQueue
  inHand : s.hand.map Post.task = s.fetch.task?.toList
  perm : (s.history ++ s.hand ++ s.runner.waiting).Perm s.posted
  immediate : s.history.filter Post.isImmediate = s.posted.filter Post.isImmediate
  notEarly : ∀ (k : Nat) now t d u, s.returned[k]? = some (now, t) →
    s.history[k]? = some (.delayed d u) → d ≤ now

/-- The deadlines of what was popped, in the order of the pops. -/
def deadlines (s : System τ) : List TimePoint := (s.history ++ s.hand).filterMap Post.deadline?

structure Inv (s : System τ) : Prop extends Served s where
  isHeap : E.heap.IsHeap s.runner.delayedTaskQueue
  fits : s.fetch.Fits s.runner.delayedTaskQueue
  now_le : ∀ now ∈ s.fetch.now?, now ≤ s.clock
  delayed : ∀ p ∈ s.hand, p.isImmediate = false
  past : ∀ d ∈ s.deadlines, d ≤ s.clock

end System

end Fetching

namespace TaskRunner

/-- What a pop of the delayed queue takes, and what it leaves. -/
structure Popped (E : Env) (now : TimePoint) (r r' : TaskRunner) (task : TaskPtr)
    (posts : List Post) : Prop where
  taskQueue : r'.taskQueue = r.taskQueue
  tasks : posts.map Post.task = task.toList
  perm : (posts ++ r'.waiting).Perm r.waiting
  isHeap : E.heap.IsHeap r'.delayedTaskQueue
  subset : ∀ e ∈ r'.delayedTaskQueue, e ∈ r.delayedTaskQueue
  delayed : ∀ p ∈ posts, p.isImmediate = false
  due : ∀ d ∈ posts.filterMap Post.deadline?, d ≤ now
  queued : ∀ d ∈ posts.filterMap Post.deadline?, ∃ e ∈ r.delayedTaskQueue, e.1 = d
  first : ∀ d ∈ posts.filterMap Post.deadline?, ∀ e ∈ r'.delayedTaskQueue, d ≤ e.1
  sorted : (posts.filterMap Post.deadline?).Pairwise (· ≤ ·)

theorem Popped.nothing {E : Env} {now : TimePoint} {r : TaskRunner}
    (hh : E.heap.IsHeap r.delayedTaskQueue) : Popped E now r r none [] :=
  ⟨rfl, rfl, .refl _, hh, fun _ he => he, nofun, nofun, nofun, nofun, .nil⟩

theorem popTaskFromDelayedQueueNoLock_popped {E : Env} (now : TimePoint) {r : TaskRunner}
    (hh : E.heap.IsHeap r.delayedTaskQueue) (hnull : ∀ e ∈ r.delayedTaskQueue, e.2 ≠ none) :
    Popped E now r (r.popTaskFromDelayedQueueNoLock E now).2
      (r.popTaskFromDelayedQueueNoLock E now).1 (Fetching.popped now r) := by
  cases hq : r.delayedTaskQueue with
  | nil =>
    have hnone : r.popTaskFromDelayedQueueNoLock E now = (none, r) := by
      simp [popTaskFromDelayedQueueNoLock, hq]
    have hposts : Fetching.popped now r = [] := by simp [Fetching.popped, hq]
    rw [hnone, hposts]
    exact .nothing hh
  | cons e queue =>
    obtain ⟨deadline, task⟩ := e
    by_cases hdue : now < deadline
    · have hnone : r.popTaskFromDelayedQueueNoLock E now = (none, r) := by
        simp [popTaskFromDelayedQueueNoLock, hq, hdue]
      have hposts : Fetching.popped now r = [] := by simp [Fetching.popped, hq, hdue]
      rw [hnone, hposts]
      exact .nothing hh
    · obtain ⟨t, rfl⟩ : ∃ t, task = some t :=
        Option.ne_none_iff_exists'.mp (hnull (deadline, task) (by simp [hq]))
      have hsome : r.popTaskFromDelayedQueueNoLock E now =
          (some t, { r with delayedTaskQueue := E.heap.pop r.delayedTaskQueue }) := by
        simp [popTaskFromDelayedQueueNoLock, hq, hdue]
      have hposts : Fetching.popped now r = [.delayed deadline t] := by
        simp [Fetching.popped, hq, hdue, DelayedEntry.post?]
      have hpop : (E.heap.pop r.delayedTaskQueue).Perm queue := by
        rw [hq] at hh ⊢
        exact E.heap.pop_perm hh
      have hdeadline : ∀ d ∈ [Post.delayed deadline t].filterMap Post.deadline?, d = deadline := by
        simp [Post.deadline?]
      rw [hsome, hposts]
      refine ⟨rfl, rfl, ?_, E.heap.isHeap_pop hh, fun e he => ?_, by simp [Post.isImmediate],
        fun d hd => ?_, fun d hd => ?_, fun d hd e he => ?_, List.pairwise_singleton _ _⟩
      · rw [waiting, waiting, hq]
        exact (hq ▸ hpop).filterMap DelayedEntry.post? |>.cons _
      · rw [hq]
        exact List.mem_cons_of_mem _ (hpop.subset he)
      · rw [hdeadline d hd]
        exact Int64.not_lt.mp hdue
      · exact ⟨(deadline, some t), by simp [hq], (hdeadline d hd).symm⟩
      · rw [hdeadline d hd]
        rw [hq] at hh
        exact Int64.le_iff_toInt_le.mpr (E.heap.front_le hh e (hpop.subset he))

end TaskRunner

namespace Fetching

namespace System

variable {τ : Type} {E : Env} {s s' : System τ}

namespace Inv

/-- Without a task in hand there is no post in hand. -/
theorem hand_nil (h : Inv E s) (htask : s.fetch.task? = none) : s.hand = [] := by
  have hhand := h.inHand
  rw [htask] at hhand
  exact List.map_eq_nil_iff.mp hhand

theorem returned_lt (h : Inv E s) {k : Nat} {x : TimePoint × Task} (hk : s.returned[k]? = some x) :
    k < s.history.length := by
  have hlen := congrArg List.length h.tasks
  have hlt := (List.getElem?_eq_some_iff.mp hk).1
  simp only [List.length_map, List.length_append] at hlen
  omega

/-- Where the threads are and who has the mutexes changes. -/
theorem moved (h : Inv E s) {fetch : FetchPc} (htask : fetch.task? = s.fetch.task?)
    (hnow : ∀ now ∈ fetch.now?, now ≤ s.clock)
    (hfits : s.fetch.Fits s.runner.delayedTaskQueue → fetch.Fits s.runner.delayedTaskQueue)
    (post : τ → Option PostPc) (queueMutex delayMutex : Option (Thread τ)) :
    Inv E { s with fetch, post, queueMutex, delayMutex } where
  tasks := h.tasks
  inHand := by
    rw [htask]
    exact h.inHand
  perm := h.perm
  immediate := h.immediate
  notEarly := h.notEarly
  isHeap := h.isHeap
  fits := hfits h.fits
  now_le := hnow
  delayed := h.delayed
  past := h.past

theorem tick (h : Inv E s) {later : TimePoint} (hle : s.clock ≤ later) :
    Inv E { s with clock := later } :=
  { h with
    now_le := fun now hnow => Int64.le_trans (h.now_le now hnow) hle
    past := fun d hd => Int64.le_trans (h.past d hd) hle }

/-- An immediate task gets behind the posts that are in the history. -/
theorem push (h : Inv E s) (task : Task) (post : τ → Option PostPc) :
    Inv E { s with
      post, runner := s.runner.postTask (some task)
      posted := s.posted ++ [.immediate task], history := s.history ++ [.immediate task] } where
  tasks := by
    show (s.history ++ [Post.immediate task]).map (fun p => some p.task) =
      _ ++ (s.runner.taskQueue ++ [some task])
    rw [List.map_append, h.tasks, List.append_assoc]
    rfl
  inHand := h.inHand
  perm := by
    have hp := h.perm.append_right [Post.immediate task]
    refine List.Perm.trans ?_ hp
    show (s.history ++ [Post.immediate task] ++ s.hand ++ s.runner.waiting).Perm _
    simp only [List.append_assoc]
    apply List.Perm.append_left
    rw [← List.append_assoc s.hand]
    exact List.perm_append_comm
  immediate := by simp [h.immediate]
  notEarly k now t d u hk hh := by
    rw [List.getElem?_append_left (h.returned_lt hk)] at hh
    exact h.notEarly k now t d u hk hh
  isHeap := h.isHeap
  fits := h.fits
  now_le := h.now_le
  delayed := h.delayed
  past d hd := by
    refine h.past d ?_
    simpa [deadlines, Post.deadline?] using hd

/-- A delayed task gets into the heap, whose top the worker leaves alone. -/
theorem pushDelayed (h : Inv E s) (htop : s.fetch.atTop = false) (now : TimePoint) (task : Task)
    (delay : TimeDelta) (post : τ → Option PostPc) :
    Inv E { s with
      post, runner := s.runner.postDelayedTask E now (some task) delay
      posted := s.posted ++ [.delayed (now + delay) task] } where
  tasks := h.tasks
  inHand := h.inHand
  perm := by
    have hwait : (s.runner.postDelayedTask E now (some task) delay).waiting.Perm
        (.delayed (now + delay) task :: s.runner.waiting) :=
      (E.heap.push_perm (now + delay, some task) h.isHeap).filterMap _
    have hp := h.perm.append_right [Post.delayed (now + delay) task]
    rw [List.append_assoc _ s.runner.waiting] at hp
    exact (List.Perm.append_left _ (hwait.trans (List.perm_append_singleton _ _).symm)).trans hp
  immediate := by simp [h.immediate, Post.isImmediate]
  notEarly := h.notEarly
  isHeap := E.heap.isHeap_push _ h.isHeap
  fits := by
    refine (FetchPc.fits_iff htop _).mpr fun e he => ?_
    rcases List.mem_cons.mp ((E.heap.push_perm (now + delay, some task) h.isHeap).subset he) with
      rfl | he
    · simp
    · exact (FetchPc.fits_iff htop _).mp h.fits e he
  now_le := h.now_le
  delayed := h.delayed
  past := h.past

/-- The worker, which has nothing in hand, pops the delayed queue under the mutexes. -/
theorem popNext (h : Inv E s) {now : TimePoint} (hfetch : s.fetch = .popNext now) :
    Inv E (s.popNext E now) := by
  have hhand := h.hand_nil (by rw [hfetch]; rfl)
  have hnull : ∀ e ∈ s.runner.delayedTaskQueue, e.2 ≠ none :=
    (FetchPc.fits_iff (by rw [hfetch]; rfl) _).mp h.fits
  have hnow : now ≤ s.clock := h.now_le now (by rw [hfetch]; rfl)
  have hpop := TaskRunner.popTaskFromDelayedQueueNoLock_popped now h.isHeap hnull
  refine {
    tasks := ?_
    inHand := hpop.tasks
    perm := ?_
    immediate := h.immediate
    notEarly := h.notEarly
    isHeap := hpop.isHeap
    fits := fun e he => hnull e (hpop.subset e he)
    now_le := fun t ht => ?_
    delayed := hpop.delayed
    past := fun d hd => ?_ }
  · show _ = _ ++ (s.runner.popTaskFromDelayedQueueNoLock E now).2.taskQueue
    rw [hpop.taskQueue]
    exact h.tasks
  · have hp := h.perm
    rw [hhand, List.append_nil] at hp
    show (s.history ++ popped now s.runner ++ _).Perm s.posted
    rw [List.append_assoc]
    exact (hpop.perm.append_left _).trans hp
  · cases ht
    exact hnow
  · have hd' : d ∈ (s.history ++ popped now s.runner).filterMap Post.deadline? := hd
    rw [List.filterMap_append, List.mem_append] at hd'
    rcases hd' with hd' | hd'
    · apply h.past
      rw [deadlines, List.filterMap_append]
      exact List.mem_append_left _ hd'
    · exact Int64.le_trans (hpop.due d hd') hnow

/-- What is in hand once the task is moved out of the top entry, which was due. -/
theorem top (h : Inv E s) {now : TimePoint} (hfetch : s.fetch = .moveFirst now) :
    ∃ deadline task rest, s.runner.delayedTaskQueue = (deadline, some task) :: rest ∧
      deadline ≤ now ∧ (∀ e ∈ rest, e.2 ≠ none) ∧
      moveOut s.runner = (some task, { s.runner with delayedTaskQueue := (deadline, none) :: rest }) ∧
      (s.runner.delayedTaskQueue.head?.bind DelayedEntry.post?).toList = [.delayed deadline task] := by
  have hfits := h.fits
  rw [hfetch] at hfits
  obtain ⟨deadline, task, rest, hq, hdue, hnull⟩ := hfits
  refine ⟨deadline, task, rest, hq, hdue, hnull, ?_, ?_⟩
  · unfold moveOut
    rw [hq]
  · rw [hq]
    rfl

/-- The worker moves the task out of the top entry. -/
theorem movedOut (hkey : E.heap.ByKey) (h : Inv E s) {now : TimePoint}
    (hfetch : s.fetch = .moveFirst now) :
    Inv E { s with
      runner := (moveOut s.runner).2
      fetch := .popFirst now (moveOut s.runner).1
      hand := (s.runner.delayedTaskQueue.head?.bind DelayedEntry.post?).toList } := by
  have hhand := h.hand_nil (by rw [hfetch]; rfl)
  have hnow : now ≤ s.clock := h.now_le now (by rw [hfetch]; rfl)
  obtain ⟨deadline, task, rest, hq, hdue, hnull, hmove, hposts⟩ := h.top hfetch
  rw [hmove, hposts]
  refine {
    tasks := h.tasks
    inHand := rfl
    perm := ?_
    immediate := h.immediate
    notEarly := h.notEarly
    isHeap := hkey (a := (deadline, some task)) rfl (hq ▸ h.isHeap)
    fits := ⟨deadline, rest, rfl, hnull⟩
    now_le := fun t ht => ?_
    delayed := by simp [Post.isImmediate]
    past := fun d hd => ?_ }
  · have hp := h.perm
    have hwait : s.runner.waiting = .delayed deadline task :: rest.filterMap DelayedEntry.post? := by
      rw [TaskRunner.waiting, hq]
      rfl
    rw [hhand, List.append_nil, hwait] at hp
    show (s.history ++ [Post.delayed deadline task] ++ rest.filterMap DelayedEntry.post?).Perm s.posted
    rwa [List.append_assoc]
  · cases ht
    exact hnow
  · have hd' : d ∈ (s.history ++ [Post.delayed deadline task]).filterMap Post.deadline? := hd
    rw [List.filterMap_append, List.mem_append] at hd'
    rcases hd' with hd' | hd'
    · apply h.past
      rw [deadlines, List.filterMap_append]
      exact List.mem_append_left _ hd'
    · obtain rfl : d = deadline := by simpa [Post.deadline?] using hd'
      exact Int64.le_trans hdue hnow

/-- The worker removes the top entry, whose task it has in hand. -/
theorem removed (h : Inv E s) {now : TimePoint} {task : TaskPtr}
    (hfetch : s.fetch = .popFirst now task) :
    Inv E { s with
      runner := { s.runner with delayedTaskQueue := E.heap.pop s.runner.delayedTaskQueue }
      fetch := .lockBoth now task } := by
  have hfits := h.fits
  rw [hfetch] at hfits
  obtain ⟨deadline, rest, hq, hnull⟩ := hfits
  have hpop : (E.heap.pop s.runner.delayedTaskQueue).Perm rest := by
    have hheap := h.isHeap
    rw [hq] at hheap ⊢
    exact E.heap.pop_perm hheap
  refine { h with
    inHand := ?_
    perm := ?_
    isHeap := E.heap.isHeap_pop h.isHeap
    fits := fun e he => hnull e (hpop.subset he)
    now_le := fun t ht => ?_ }
  · have hhand := h.inHand
    rw [hfetch] at hhand
    exact hhand
  · have hwait : s.runner.waiting = rest.filterMap DelayedEntry.post? := by
      rw [TaskRunner.waiting, hq]
      rfl
    have hp := h.perm
    rw [hwait] at hp
    exact ((hpop.filterMap _).append_left _).trans hp
  · apply h.now_le
    rw [hfetch]
    exact ht

/-- The worker queues what it has in hand. -/
theorem queue (h : Inv E s) {now : TimePoint} {task : Task}
    (hfetch : s.fetch = .loop now (some task)) :
    Inv E { s with
      runner := s.runner.postTask (some task), fetch := .popNext now
      history := s.history ++ s.hand, hand := [] } where
  tasks := by
    have hhand : s.hand.map Post.task = [task] := by
      have := h.inHand
      rwa [hfetch] at this
    have hsome : s.hand.map (fun p => some p.task) = [some task] := by
      simpa using congrArg (List.map some) hhand
    show (s.history ++ s.hand).map (fun p => some p.task) =
      _ ++ (s.runner.taskQueue ++ [some task])
    rw [List.map_append, h.tasks, hsome, List.append_assoc]
  inHand := rfl
  perm := by
    show (s.history ++ s.hand ++ [] ++ s.runner.waiting).Perm s.posted
    rw [List.append_nil]
    exact h.perm
  immediate := by
    have hnone : s.hand.filter Post.isImmediate = [] := by
      rw [List.filter_eq_nil_iff]
      intro p hp
      simp [h.delayed p hp]
    rw [List.filter_append, hnone, List.append_nil]
    exact h.immediate
  notEarly k now t d u hk hh := by
    rw [List.getElem?_append_left (h.returned_lt hk)] at hh
    exact h.notEarly k now t d u hk hh
  isHeap := h.isHeap
  fits := (FetchPc.fits_iff (by rw [hfetch]; rfl) _).mp h.fits
  now_le t ht := by
    apply h.now_le
    rw [hfetch]
    exact ht
  delayed := nofun
  past d hd := by
    apply h.past
    simpa [deadlines] using hd

/-- The worker takes the front of the task queue. -/
theorem takeFront (h : Inv E s) (hfetch : s.fetch = .takeFront) {task : TaskPtr}
    {tasks : List TaskPtr} (hq : s.runner.taskQueue = task :: tasks) :
    Inv E { s with
      runner := { s.runner with taskQueue := tasks }, fetch := .unlockQueue
      returned := s.returned ++ task.toList.map (s.clock, ·) } := by
  obtain ⟨t, rfl⟩ : ∃ t, task = some t := by
    apply Option.ne_none_iff_exists'.mp
    rintro rfl
    have hnone : (none : TaskPtr) ∈ s.history.map (some ·.task) := by
      rw [h.tasks, hq]
      simp
    simp at hnone
  refine {
    tasks := ?_
    inHand := ?_
    perm := h.perm
    immediate := h.immediate
    notEarly := fun k now u d v hk hh => ?_
    isHeap := h.isHeap
    fits := (FetchPc.fits_iff (by rw [hfetch]; rfl) _).mp h.fits
    now_le := nofun
    delayed := h.delayed
    past := h.past }
  · show _ = (s.returned ++ [(s.clock, t)]).map (fun x => some x.2) ++ tasks
    rw [h.tasks, hq]
    simp
  · have hhand := h.inHand
    rw [hfetch] at hhand
    exact hhand
  · rcases Nat.lt_or_ge k s.returned.length with hlt | hge
    · rw [List.getElem?_append_left hlt] at hk
      exact h.notEarly k now u d v hk hh
    · -- This is the task that is taken, and the clock has passed all deadlines of the history.
      rw [List.getElem?_append_right hge] at hk
      have hclock : s.clock = now := by
        have hmem := List.mem_of_getElem? hk
        simp only [Option.toList_some, List.map_cons, List.map_nil, List.mem_singleton] at hmem
        exact (congrArg Prod.fst hmem).symm
      rw [← hclock]
      apply h.past
      rw [deadlines, List.filterMap_append, List.mem_append, List.mem_filterMap]
      exact Or.inl ⟨_, List.mem_of_getElem? hh, rfl⟩

/-- The worker makes an access. -/
theorem fetch (hkey : E.heap.ByKey) (h : Inv E s) (hs : Fetched E s s') : Inv E s' := by
  cases hs with
  | moved htask hnow _ hfits =>
    refine h.moved htask (fun now hnow' => ?_) hfits _ _ _
    exact h.now_le now (hnow now hnow')
  | movedOut hfetch => exact h.movedOut hkey hfetch
  | removed hfetch => exact h.removed hfetch
  | popped hfetch => exact h.popNext hfetch
  | queued hfetch => exact h.queue hfetch
  | taken hfetch hq => exact h.takeFront hfetch hq

theorem new (E : Env) (r : TaskRunner) (clock : TimePoint) : Inv E (.new r clock : System τ) where
  tasks := rfl
  inHand := rfl
  perm := .refl _
  immediate := rfl
  notEarly := nofun
  isHeap := E.heap.isHeap_nil
  fits := nofun
  now_le := nofun
  delayed := nofun
  past := nofun

end Inv

/-- No delayed task is pushed while `GetNext` is between the top of the heap and its removal
without a mutex. -/
def Undisturbed (s : System τ) : Op τ → Prop
  | .go t => ∀ pc ∈ s.post t, pc.deadline?.isSome = true → s.fetch.atTop = false
  | _ => True

instance (s : System τ) : DecidablePred s.Undisturbed
  | .go t =>
    have (pc : PostPc) : Decidable (pc.deadline?.isSome = true → s.fetch.atTop = false) :=
      inferInstance
    inferInstanceAs (Decidable (∀ pc ∈ s.post t, _))
  | .postTask .. | .postDelayedTask .. | .getNext | .fetch | .tick _ => isTrue trivial

namespace Inv

variable [DecidableEq τ]

/-- A thread that posts makes an access. -/
theorem goPost (h : Inv E s) {t : τ} {pc : PostPc}
    (hquiet : pc.deadline?.isSome = true → s.fetch.atTop = false)
    (hs : s.goPost E t pc = .ok s') : Inv E s' := by
  cases pc with
  | lockQueue task | lockDelay task delay =>
    simp only [System.goPost] at hs
    split at hs
    · cases hs
      exact h.moved rfl h.now_le id _ _ _
    · cases hs
  | push task =>
    cases hs
    exact h.push task _
  | pushDelayed now task delay =>
    cases hs
    exact h.pushDelayed (hquiet rfl) now task delay _
  | readClock task delay =>
    cases hs
    exact h.moved rfl h.now_le id _ _ _
  | unlockQueue | unlockDelay =>
    cases hs
    exact h.moved rfl h.now_le id _ _ _

theorem step (hkey : E.heap.ByKey) (h : Inv E s) {op : Op τ} (hquiet : s.Undisturbed op)
    (hs : s.step E op = .ok s') : Inv E s' := by
  cases op with
  | postTask t task | postDelayedTask t task delay =>
    simp only [System.step] at hs
    split at hs
    · cases hs
      exact h.moved rfl h.now_le id _ _ _
    · cases hs
  | go t =>
    simp only [System.step] at hs
    split at hs
    · cases hs
    · rename_i pc hpc
      exact h.goPost (hquiet pc hpc) hs
  | getNext =>
    simp only [System.step] at hs
    split at hs
    · rename_i hfetch
      cases hs
      refine h.moved (by rw [hfetch]; rfl) ?_ (by rw [hfetch]; exact id) _ _ _
      rintro _ ⟨⟩
      exact Int64.le_refl _
    · cases hs
  | fetch => exact h.fetch hkey (goFetch_fetched hs)
  | tick later =>
    simp only [System.step] at hs
    split at hs
    · rename_i hle
      cases hs
      exact h.tick hle
    · cases hs

end Inv

/-- **What is posted is taken once**, in every run in which no delayed task is pushed while
`GetNext` is at the top of the heap without a mutex. However else the posts interleave with
`GetNext`, all tasks are accounted for, immediate ones are taken in the order in which they were
posted, and no delayed one before its deadline. -/
theorem always_served [DecidableEq τ] {E : Env} (hkey : E.heap.ByKey) (r : TaskRunner)
    (clock : TimePoint) {ops : List (Op τ)}
    (hquiet : Runs.Meets (step E) Undisturbed (.new r clock) ops) :
    Runs.Always (step E) Served (.new r clock) ops :=
  Runs.always_of_meets (A := fun _ => True) (I := Inv E)
    (fun _ _ _ _ h hc hs => h.step hkey hc hs) (fun _ h => h.toServed) (fun _ _ => trivial)
    (Inv.new E r clock) hquiet

def idleRunner : TaskRunner := { priority := 1, groupId := kDefaultGroupId, isSchedulable := true }

/-- A task waits for 7. Another one is posted for 5, and the clock is at 10 before it is pushed. -/
def late : List (Op Bool) :=
  [.postDelayedTask true ⟨1⟩ 7, .go true, .go true, .go true, .go true, .tick 5,
    .postDelayedTask false ⟨2⟩ 0, .go false, .go false, .tick 10]

/-- The thread pushes it, and then `GetNext` is called twice. -/
def pushedBefore : List (Op Bool) :=
  late ++ [.go false, .go false, .getNext] ++ List.replicate 12 .fetch ++
    [.getNext] ++ List.replicate 6 .fetch

theorem always_served_late :
    Runs.Always (step Env.debug) Served (.new idleRunner 0 : System Bool) pushedBefore :=
  always_served HeapOrder.sorted_byKey idleRunner 0 (by decide +kernel)

/-- `GetNext` has the task of 7 in hand and is about to remove its entry. The one of 5 gets on top
and is removed. -/
theorem pushed_between_lost : ¬ Runs.Always (step Env.debug) Served
    (.new idleRunner 0 : System Bool) (late ++ [.getNext, .fetch, .fetch, .go false, .fetch]) := by
  intro h
  have hlast := Runs.always_iff_run.mp h _ List.prefix_rfl _ (Runs.run_last (by decide +kernel))
  exact absurd hlast.perm.length_eq (by decide +kernel)

end System

/-! ## The order of the deadlines -/

/-- Only the thread that has `delay_mutex_` is in the section it guards. -/
structure Excl (fetch : FetchPc) (post : τ → Option PostPc) (delayMutex : Option (Thread τ)) :
    Prop where
  worker : fetch.holdsDelay = true → delayMutex = some .worker
  poster : ∀ t, ∀ pc ∈ post t, pc.holdsDelay = true → delayMutex = some (.poster t)

/-- What was popped is sorted, and nothing that comes later has an earlier deadline. -/
structure InOrder (deadlines : List TimePoint) (queue : List DelayedEntry)
    (post : τ → Option PostPc) : Prop where
  sorted : deadlines.Pairwise (· ≤ ·)
  queue : ∀ d ∈ deadlines, ∀ e ∈ queue, d ≤ e.1
  coming : ∀ d ∈ deadlines, ∀ t, ∀ pc ∈ post t, ∀ e ∈ pc.deadline?, d ≤ e

section

variable {τ : Type} {fetch fetch' : FetchPc} {post : τ → Option PostPc}
  {delayMutex : Option (Thread τ)} {deadlines : List TimePoint} {queue queue' : List DelayedEntry}

theorem Excl.stays (h : Excl fetch post delayMutex)
    (hholds : fetch'.holdsDelay = true → fetch.holdsDelay = true) :
    Excl fetch' post delayMutex :=
  ⟨fun hf => h.worker (hholds hf), h.poster⟩

/-- While the worker has the mutex nobody is about to push a delayed task. -/
theorem Excl.no_deadline (h : Excl fetch post delayMutex) (hholds : fetch.holdsDelay = true) {t : τ}
    {pc : PostPc} (hpc : pc ∈ post t) : pc.deadline? = none := by
  have hworker := h.worker hholds
  cases pc with
  | pushDelayed now task delay =>
    have hposter := h.poster t _ hpc rfl
    rw [hworker] at hposter
    cases hposter
  | lockQueue | push | unlockQueue | lockDelay | readClock | unlockDelay => rfl

/-- The worker gets the mutex or gives it up. -/
theorem Excl.handover (h : Excl fetch post delayMutex)
    (hmutex : delayMutex = none ∨ delayMutex = some .worker) {delayMutex' : Option (Thread τ)}
    (hholds : fetch'.holdsDelay = true → delayMutex' = some .worker) :
    Excl fetch' post delayMutex' := by
  refine ⟨hholds, fun t pc hpc hpost => ?_⟩
  have hposter := h.poster t pc hpc hpost
  rcases hmutex with hnone | hworker
  · rw [hnone] at hposter
    cases hposter
  · rw [hworker] at hposter
    cases hposter

theorem Excl.goTo [DecidableEq τ] (h : Excl fetch post delayMutex) {t : τ} {pc? : Option PostPc}
    {delayMutex' : Option (Thread τ)}
    (hmutex : delayMutex' = delayMutex ∨ delayMutex = none ∨ delayMutex = some (.poster t))
    (hself : ∀ pc ∈ pc?, pc.holdsDelay = true → delayMutex' = some (.poster t)) :
    Excl fetch (Function.update post t pc?) delayMutex' := by
  refine ⟨fun hf => ?_, fun u pc hpc hholds => ?_⟩
  · have hworker := h.worker hf
    rcases hmutex with rfl | hnone | hposter
    · exact hworker
    · rw [hnone] at hworker
      cases hworker
    · rw [hposter] at hworker
      cases hworker
  · rcases eq_or_ne u t with rfl | hne
    · rw [Function.update_self] at hpc
      exact hself pc hpc hholds
    · rw [Function.update_of_ne hne] at hpc
      have hother := h.poster u pc hpc hholds
      rcases hmutex with rfl | hnone | hposter
      · exact hother
      · rw [hnone] at hother
        cases hother
      · rw [hposter] at hother
        cases hother
        exact absurd rfl hne

theorem InOrder.goTo [DecidableEq τ] (h : InOrder deadlines queue post) {t : τ}
    {pc? : Option PostPc} (hself : ∀ d ∈ deadlines, ∀ pc ∈ pc?, ∀ e ∈ pc.deadline?, d ≤ e) :
    InOrder deadlines queue (Function.update post t pc?) := by
  refine ⟨h.sorted, h.queue, fun d hd u pc hpc e he => ?_⟩
  rcases eq_or_ne u t with rfl | hne
  · rw [Function.update_self] at hpc
    exact hself d hd pc hpc e he
  · rw [Function.update_of_ne hne] at hpc
    exact h.coming d hd u pc hpc e he

/-- What is in the queue afterwards was there or has a later deadline than all that was popped. -/
theorem InOrder.queued (h : InOrder deadlines queue post)
    (hqueue : ∀ e ∈ queue', e ∈ queue ∨ ∀ d ∈ deadlines, d ≤ e.1) :
    InOrder deadlines queue' post := by
  refine ⟨h.sorted, fun d hd e he => ?_, h.coming⟩
  rcases hqueue e he with he | hlate
  · exact h.queue d hd e he
  · exact hlate d hd

/-- A pop takes the earliest deadline of the queue. -/
theorem InOrder.popped {E : Env} {r r' : TaskRunner} {now : TimePoint} {task : TaskPtr}
    {posts : List Post} (h : InOrder deadlines r.delayedTaskQueue post)
    (hpop : TaskRunner.Popped E now r r' task posts)
    (hcoming : ∀ d ∈ posts.filterMap Post.deadline?, ∀ t, ∀ pc ∈ post t, ∀ e ∈ pc.deadline?, d ≤ e) :
    InOrder (deadlines ++ posts.filterMap Post.deadline?) r'.delayedTaskQueue post where
  sorted := by
    refine List.pairwise_append.mpr ⟨h.sorted, hpop.sorted, fun d hd d' hd' => ?_⟩
    obtain ⟨e, he, rfl⟩ := hpop.queued d' hd'
    exact h.queue d hd e he
  queue d hd e he := by
    rcases List.mem_append.mp hd with hd | hd
    · exact h.queue d hd e (hpop.subset e he)
    · exact hpop.first d hd e he
  coming d hd := by
    rcases List.mem_append.mp hd with hd | hd
    · exact h.coming d hd
    · exact hcoming d hd

end

namespace System

variable {τ : Type} {E : Env} {s s' : System τ}

/-- The delay is not negative, and the deadline does not overflow. -/
def InRange (s : System τ) : Op τ → Prop
  | .go t =>
    match s.post t with
    | some (.readClock task delay) => (Call.postDelayedTask s.clock task delay).InRange
    | _ => True
  | _ => True

/-- The pop without a mutex does not take a later deadline than one that another thread is about
to push. -/
def Uncrossed (s : System τ) : Op τ → Prop
  | .fetch =>
    match s.fetch with
    | .moveFirst _ =>
      ∀ entry ∈ s.runner.delayedTaskQueue.head?, ∀ t, ∀ pc ∈ s.post t, ∀ e ∈ pc.deadline?,
        entry.1 ≤ e
    | _ => True
  | _ => True

instance (s : System τ) : DecidablePred s.InRange
  | .go t =>
    match h : s.post t with
    | some (.readClock task delay) => decidable_of_iff
        (Call.postDelayedTask s.clock task delay).InRange (by simp only [InRange, h])
    | none | some (.lockQueue _) | some (.push _) | some .unlockQueue | some (.lockDelay ..)
    | some (.pushDelayed ..) | some .unlockDelay => isTrue (by simp only [InRange, h])
  | .postTask .. | .postDelayedTask .. | .getNext | .fetch | .tick _ => isTrue trivial

instance [Fintype τ] (s : System τ) : DecidablePred s.Uncrossed
  | .fetch =>
    match h : s.fetch with
    | .moveFirst _ =>
      have (d : TimePoint) : Decidable (∀ t, ∀ pc ∈ s.post t, ∀ e ∈ pc.deadline?, d ≤ e) :=
        have (pc : PostPc) : Decidable (∀ e ∈ pc.deadline?, d ≤ e) := Option.decidableForallMem _
        inferInstance
      have : Decidable (∀ entry ∈ s.runner.delayedTaskQueue.head?, ∀ t, ∀ pc ∈ s.post t,
          ∀ e ∈ pc.deadline?, entry.1 ≤ e) := Option.decidableForallMem _
      decidable_of_iff (∀ entry ∈ s.runner.delayedTaskQueue.head?, ∀ t, ∀ pc ∈ s.post t,
        ∀ e ∈ pc.deadline?, entry.1 ≤ e) (by simp only [Uncrossed, h])
    | .outside | .testFirst _ | .popFirst .. | .lockBoth .. | .loop .. | .popNext _ | .lockQueue
    | .takeFront | .unlockQueue => isTrue (by simp only [Uncrossed, h])
  | .postTask .. | .postDelayedTask .. | .getNext | .go _ | .tick _ => isTrue trivial

variable (E) in
structure Kept (s : System τ) : Prop extends Inv E s where
  excl : Excl s.fetch s.post s.delayMutex
  order : InOrder s.deadlines s.runner.delayedTaskQueue s.post

namespace Kept

/-- The deadlines after a pop of the worker, which had nothing in hand. -/
theorem deadlines_pop (hhand : s.hand = []) (posts : List Post) :
    (s.history ++ posts).filterMap Post.deadline? =
      s.deadlines ++ posts.filterMap Post.deadline? := by
  rw [deadlines, hhand, List.append_nil, List.filterMap_append]

/-- The worker moves the task out of the top entry: its deadline is the earliest one. -/
theorem movedOut (h : Kept E s) {now : TimePoint} (hfetch : s.fetch = .moveFirst now)
    (huncrossed : s.Uncrossed .fetch) :
    InOrder ((s.history ++ (s.runner.delayedTaskQueue.head?.bind
      DelayedEntry.post?).toList).filterMap Post.deadline?)
      (moveOut s.runner).2.delayedTaskQueue s.post := by
  obtain ⟨deadline, task, rest, hq, -, -, hmove, hposts⟩ := h.top hfetch
  rw [hposts, hmove, deadlines_pop (h.hand_nil (by rw [hfetch]; rfl))]
  have hlast : [Post.delayed deadline task].filterMap Post.deadline? = [deadline] := by
    simp [Post.deadline?]
  have hfront : ∀ e ∈ rest, deadline ≤ e.1 := fun e he => by
    have hheap := h.isHeap
    rw [hq] at hheap
    exact Int64.le_iff_toInt_le.mpr (E.heap.front_le hheap e he)
  have hpast : ∀ d ∈ s.deadlines, ∀ e ∈ (deadline, some task) :: rest, d ≤ e.1 :=
    fun d hd e he => h.order.queue d hd e (hq ▸ he)
  rw [hlast]
  refine ⟨?_, fun d hd e he => ?_, fun d hd t pc hpc e he => ?_⟩
  · refine List.pairwise_append.mpr ⟨h.order.sorted, List.pairwise_singleton _ _, fun d hd d' hd' => ?_⟩
    rw [List.mem_singleton.mp hd']
    exact hpast d hd _ List.mem_cons_self
  · rcases List.mem_cons.mp he with rfl | he
    · rcases List.mem_append.mp hd with hd | hd
      · exact hpast d hd (deadline, some task) List.mem_cons_self
      · rw [List.mem_singleton.mp hd]
        exact Int64.le_refl _
    · rcases List.mem_append.mp hd with hd | hd
      · exact hpast d hd e (List.mem_cons_of_mem _ he)
      · rw [List.mem_singleton.mp hd]
        exact hfront e he
  · rcases List.mem_append.mp hd with hd | hd
    · exact h.order.coming d hd t pc hpc e he
    · rw [List.mem_singleton.mp hd]
      simp only [Uncrossed, hfetch] at huncrossed
      exact huncrossed (deadline, some task) (by rw [hq]; rfl) t pc hpc e he

theorem fetch (hkey : E.heap.ByKey) (h : Kept E s) (huncrossed : s.Uncrossed .fetch)
    (hs : Fetched E s s') : Kept E s' := by
  refine ⟨h.toInv.fetch hkey hs, ?_, ?_⟩
  · cases hs with
    | moved _ _ hmutex =>
      rcases hmutex with ⟨rfl, hfetch⟩ | ⟨hnone, rfl⟩ | ⟨hholds, hfetch⟩
      · exact h.excl.stays (by simp [hfetch])
      · exact h.excl.handover (Or.inl hnone) fun _ => rfl
      · exact h.excl.handover (Or.inr (h.excl.worker hholds)) (by simp [hfetch])
    | movedOut | removed => exact h.excl.stays nofun
    | popped hfetch | queued hfetch =>
      apply h.excl.stays
      intro _
      rw [hfetch]
      rfl
    | taken => exact h.excl.stays nofun
  · cases hs with
    | moved => exact h.order
    | movedOut hfetch => exact h.movedOut hfetch huncrossed
    | removed hfetch =>
      -- What is left in the queue was there before.
      refine h.order.queued fun e he => Or.inl ?_
      have hfits := h.fits
      rw [hfetch] at hfits
      obtain ⟨deadline, rest, hq, -⟩ := hfits
      have hheap := h.isHeap
      rw [hq] at hheap he ⊢
      exact List.mem_cons_of_mem _ ((E.heap.pop_perm hheap).subset he)
    | @popped now hfetch =>
      have hnull : ∀ e ∈ s.runner.delayedTaskQueue, e.2 ≠ none :=
        (FetchPc.fits_iff (by rw [hfetch]; rfl) _).mp h.fits
      show InOrder ((s.history ++ Fetching.popped now s.runner).filterMap Post.deadline?) _ _
      rw [deadlines_pop (h.hand_nil (by rw [hfetch]; rfl))]
      apply h.order.popped (TaskRunner.popTaskFromDelayedQueueNoLock_popped now h.isHeap hnull)
      intro d _ t pc hpc e he
      rw [h.excl.no_deadline (by rw [hfetch]; rfl) hpc] at he
      cases he
    | queued =>
      show InOrder ((s.history ++ s.hand ++ []).filterMap Post.deadline?) _ _
      rw [List.append_nil]
      exact h.order
    | taken => exact h.order

variable [DecidableEq τ]

theorem goPost (h : Kept E s) {t : τ} (hrange : s.InRange (.go t))
    (hquiet : s.Undisturbed (.go t)) {pc : PostPc} (hpc : s.post t = some pc)
    (hs : s.goPost E t pc = .ok s') : Kept E s' := by
  have hinv := h.toInv.goPost (hquiet pc hpc) hs
  have hposter := h.excl.poster t pc hpc
  cases pc with
  | lockQueue task =>
    simp only [System.goPost] at hs
    split at hs
    · cases hs
      exact ⟨hinv, h.excl.goTo (Or.inl rfl) (by rintro _ ⟨⟩ ⟨⟩), h.order.goTo (by rintro _ _ _ ⟨⟩ _ ⟨⟩)⟩
    · cases hs
  | push task =>
    cases hs
    refine ⟨hinv, h.excl.goTo (Or.inl rfl) (by rintro _ ⟨⟩ ⟨⟩), ?_⟩
    have hsame : (s.history ++ [Post.immediate task] ++ s.hand).filterMap Post.deadline? =
        s.deadlines := by
      simp [deadlines, List.filterMap_cons, Post.deadline?]
    show InOrder ((s.history ++ [Post.immediate task] ++ s.hand).filterMap Post.deadline?) _ _
    rw [hsame]
    exact h.order.goTo (by rintro _ _ _ ⟨⟩ _ ⟨⟩)
  | unlockQueue =>
    cases hs
    exact ⟨hinv, h.excl.goTo (Or.inl rfl) nofun, h.order.goTo nofun⟩
  | lockDelay task delay =>
    simp only [System.goPost] at hs
    split at hs
    · rename_i hdelay
      cases hs
      exact ⟨hinv, h.excl.goTo (Or.inr (Or.inl hdelay)) fun _ _ _ => rfl,
        h.order.goTo (by rintro _ _ _ ⟨⟩ _ ⟨⟩)⟩
    · cases hs
  | readClock task delay =>
    cases hs
    refine ⟨hinv, h.excl.goTo (Or.inl rfl) fun _ _ _ => hposter rfl, h.order.goTo ?_⟩
    rintro d hd _ ⟨⟩ _ ⟨⟩
    have hrange' : (Call.postDelayedTask s.clock task delay).InRange := by
      simpa only [InRange, hpc] using hrange
    have hpast := h.past d hd
    rw [Int64.le_iff_toInt_le] at hpast ⊢
    rw [hrange'.2]
    have := hrange'.1
    omega
  | pushDelayed now task delay =>
    cases hs
    refine ⟨hinv, h.excl.goTo (Or.inl rfl) fun _ _ _ => hposter rfl, ?_⟩
    refine InOrder.goTo (h.order.queued fun e he => ?_) (by rintro _ _ _ ⟨⟩ _ ⟨⟩)
    rcases List.mem_cons.mp ((E.heap.push_perm (now + delay, some task) h.isHeap).subset he) with
      rfl | he
    · exact Or.inr fun d hd => h.order.coming d hd t _ hpc _ rfl
    · exact Or.inl he
  | unlockDelay =>
    cases hs
    exact ⟨hinv, h.excl.goTo (Or.inr (Or.inr (hposter rfl))) nofun, h.order.goTo nofun⟩

theorem step (hkey : E.heap.ByKey) (h : Kept E s) {op : Op τ} (hrange : s.InRange op)
    (hquiet : s.Undisturbed op) (huncrossed : s.Uncrossed op) (hs : s.step E op = .ok s') :
    Kept E s' := by
  have hinv := h.toInv.step hkey hquiet hs
  cases op with
  | postTask t task | postDelayedTask t task delay =>
    simp only [System.step] at hs
    split at hs
    · cases hs
      exact ⟨hinv, h.excl.goTo (Or.inl rfl) (by rintro _ ⟨⟩ ⟨⟩), h.order.goTo (by rintro _ _ _ ⟨⟩ _ ⟨⟩)⟩
    · cases hs
  | go t =>
    simp only [System.step] at hs
    split at hs
    · cases hs
    · rename_i pc hpc
      exact h.goPost hrange hquiet hpc hs
  | getNext =>
    simp only [System.step] at hs
    split at hs
    · cases hs
      exact ⟨hinv, h.excl.stays nofun, h.order⟩
    · cases hs
  | fetch => exact h.fetch hkey huncrossed (goFetch_fetched hs)
  | tick later =>
    simp only [System.step] at hs
    split at hs
    · cases hs
      exact ⟨hinv, h.excl, h.order⟩
    · cases hs

omit [DecidableEq τ] in
theorem new (E : Env) (r : TaskRunner) (clock : TimePoint) : Kept E (.new r clock : System τ) :=
  ⟨.new E r clock, ⟨nofun, nofun⟩, ⟨.nil, nofun, nofun⟩⟩

end Kept

/-- **Delayed tasks are taken in the order of their deadlines**, in every run in which no push
comes while `GetNext` is at the top of the heap without a mutex, and what it takes there does not
get in between the clock and the push of a `PostDelayedTask` with an earlier deadline. -/
theorem always_deadlines_sorted [DecidableEq τ] {E : Env} (hkey : E.heap.ByKey) (r : TaskRunner)
    (clock : TimePoint) {ops : List (Op τ)}
    (hrange : Runs.Meets (step E) InRange (.new r clock) ops)
    (hquiet : Runs.Meets (step E) Undisturbed (.new r clock) ops)
    (huncrossed : Runs.Meets (step E) Uncrossed (.new r clock) ops) :
    Runs.Always (step E) (fun s => s.Served ∧ s.deadlines.Pairwise (· ≤ ·)) (.new r clock) ops :=
  Runs.always_of_meets (A := fun _ => True) (I := Kept E)
    (fun _ _ _ _ h hc hs => h.step hkey hc.1 hc.2.1 hc.2.2 hs)
    (fun _ h => ⟨h.toServed, h.order.sorted⟩) (fun _ _ => trivial) (.new E r clock)
    (Runs.meets_and hrange (Runs.meets_and hquiet huncrossed))

theorem always_deadlines_sorted_late :
    Runs.Always (step Env.debug) (fun s => s.Served ∧ s.deadlines.Pairwise (· ≤ ·))
      (.new idleRunner 0 : System Bool) pushedBefore :=
  always_deadlines_sorted HeapOrder.sorted_byKey idleRunner 0 (by decide) (by decide +kernel)
    (by decide +kernel)

/-- `GetNext` pops the task of 7 before the other is pushed, and takes it first. -/
example : (Runs.last (step Env.debug) (.new idleRunner 0) (late ++ [.getNext, .fetch, .fetch,
    .fetch, .go false, .go false] ++ List.replicate 9 .fetch ++ [.getNext] ++
      List.replicate 6 .fetch)).deadlines = [7, 5] := by decide +kernel

end System

end Fetching

end Footstone
