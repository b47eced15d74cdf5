import Footstone.Lib.Locked

/-!
`thread_safe_queue` (`thread_safe_queue.h`), for any number of threads. `push` and `pop` have
the mutex while they look at the queue and change it, `empty` looks at it without: its
`queue_.empty()`, a call of the library, is taken as one access. What `pop` moves out of the queue
is taken to stay readable there until it is dropped, as nobody reads it.
-/

namespace Footstone

namespace ThreadSafeQueue

open Linear

variable {α : Type}

inductive QueueOp (α : Type) where
  | push (obj : α)
  | pop
  | empty
  deriving DecidableEq

inductive QueueRet (α : Type) where
  | pushed (success : Bool)
  /-- What `pop` has written through its argument, if it returns true. -/
  | popped (obj? : Option α)
  | empty (isEmpty : Bool)
  /-- `front()` of an empty queue. -/
  | undefined
  deriving DecidableEq

/-- The accesses of `push` and `pop`. -/
inductive Pc (α : Type) where
  | size (obj : α)
  | emplace (obj : α)
  | isEmpty
  | front
  | pop (obj : α)

def access (maxCount : Nat) : Calls.Access Unit (List α) (Pc α) (QueueRet α)
  | _, queue, .size obj =>
    if maxCount ≤ queue.length then (queue, .inr (.pushed false)) else (queue, .inl (.emplace obj))
  | _, queue, .emplace obj => (queue ++ [obj], .inr (.pushed true))
  | _, queue, .isEmpty =>
    if queue.isEmpty then (queue, .inr (.popped none)) else (queue, .inl .front)
  | _, queue, .front =>
    match queue with
    | [] => (queue, .inr .undefined)
    | obj :: _ => (queue, .inl (.pop obj))
  | _, queue, .pop obj => (queue.tail, .inr (.popped (some obj)))

/-- The queue as an object behind `queue_mutex_`. -/
def object (maxCount : Nat) : Locked.Object (QueueOp α) (QueueRet α) (List α) (Pc α) where
  start
    | .push obj => some (.size obj)
    | .pop => some .isEmpty
    | .empty => none
  access := access maxCount
  peek queue _ := .empty queue.isEmpty

/-- What the queue is for: a FIFO of at most `maxCount` elements. -/
inductive Bounded (maxCount : Nat) : List α → QueueOp α → QueueRet α → List α → Prop where
  | push {queue : List α} {obj : α} (h : queue.length < maxCount) :
      Bounded maxCount queue (.push obj) (.pushed true) (queue ++ [obj])
  | full {queue : List α} {obj : α} (h : maxCount ≤ queue.length) :
      Bounded maxCount queue (.push obj) (.pushed false) queue
  | pop (obj : α) (queue : List α) :
      Bounded maxCount (obj :: queue) .pop (.popped (some obj)) queue
  | none : Bounded maxCount [] .pop (.popped none) []
  | empty (queue : List α) : Bounded maxCount queue .empty (.empty queue.isEmpty) queue

/-- What a call knows that has the mutex. -/
def Knows (maxCount : Nat) (queue : List α) (op : QueueOp α) : Pc α → Prop
  | .size obj => op = .push obj
  | .emplace obj => op = .push obj ∧ queue.length < maxCount
  | .isEmpty => op = .pop
  | .front => op = .pop ∧ queue ≠ []
  | .pop obj => op = .pop ∧ queue.head? = some obj

variable {maxCount : Nat} {queue queue' : List α} {op : QueueOp α} {ret : QueueRet α} {p q : Pc α}

/-- An access, and what the call knows then, or what it was when it is the last one. -/
theorem access_knows (h : Knows maxCount queue op p) :
    (∃ q, access maxCount () queue p = (queue, .inl q) ∧ Knows maxCount queue op q) ∨
      ∃ queue' ret, access maxCount () queue p = (queue', .inr ret) ∧
        Bounded maxCount queue op ret queue' := by
  cases p with
  | size obj =>
    obtain rfl := h
    by_cases hfull : maxCount ≤ queue.length
    · exact Or.inr ⟨queue, _, if_pos hfull, .full hfull⟩
    · exact Or.inl ⟨_, if_neg hfull, rfl, Nat.lt_of_not_le hfull⟩
  | emplace obj =>
    obtain ⟨rfl, hlt⟩ := h
    exact Or.inr ⟨_, _, rfl, .push hlt⟩
  | isEmpty =>
    obtain rfl := h
    cases queue with
    | nil => exact Or.inr ⟨_, _, rfl, .none⟩
    | cons obj queue => exact Or.inl ⟨_, rfl, rfl, nofun⟩
  | front =>
    obtain ⟨rfl, hne⟩ := h
    cases queue with
    | nil => exact absurd rfl hne
    | cons obj queue => exact Or.inl ⟨_, rfl, rfl, rfl⟩
  | pop obj =>
    obtain ⟨rfl, hhead⟩ := h
    cases queue with
    | nil => cases hhead
    | cons obj' queue =>
      cases hhead
      exact Or.inr ⟨_, _, rfl, .pop obj queue⟩

/-- Up to its last access a call leaves the queue alone. -/
theorem along_knows (h : (object maxCount).Along queue p queue' q)
    (hknows : Knows maxCount queue op p) : queue' = queue ∧ Knows maxCount queue op q := by
  induction h with
  | refl => exact ⟨rfl, hknows⟩
  | step _ ha ih =>
    obtain ⟨rfl, hq⟩ := ih hknows
    change access maxCount () _ _ = _ at ha
    rcases access_knows hq with ⟨q', heq, hq'⟩ | ⟨queue', ret, heq, -⟩
    · rw [heq] at ha
      cases ha
      exact ⟨rfl, hq'⟩
    · rw [heq] at ha
      cases ha

theorem start_knows (h : (object maxCount).start op = some p) : Knows maxCount queue op p := by
  cases op <;> cases h <;> rfl

theorem peeks : (object (α := α) maxCount).Peeks := by
  intro op p queue queue' q op' hstart halong _
  rw [(along_knows halong (start_knows hstart)).1]

/-- **A call that has the queue for itself** is one of a bounded FIFO. -/
theorem does_bounded (h : (object maxCount).Does queue op ret queue') :
    Bounded maxCount queue op ret queue' := by
  rw [Locked.Object.Does] at h
  split at h
  · rename_i p hstart
    obtain ⟨t, q, halong, ha⟩ := h
    obtain ⟨rfl, hq⟩ := along_knows halong (start_knows hstart)
    change access maxCount () _ _ = _ at ha
    rcases access_knows hq with ⟨q', heq, -⟩ | ⟨queue', ret', heq, hbounded⟩
    · rw [heq] at ha
      cases ha
    · rw [heq] at ha
      cases ha
      exact hbounded
  · rename_i hstart
    obtain ⟨rfl, rfl⟩ := h
    cases op with
    | empty => exact .empty _
    | push | pop => cases hstart

end ThreadSafeQueue

end Footstone
