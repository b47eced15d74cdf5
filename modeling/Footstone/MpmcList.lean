import Footstone.Pool
import Footstone.Lib.Runs
import Footstone.Lib.Linearizable

/-!
`mpmc_list` (`mpmc_list.h`) for any number of threads. As with the pool, a thread's place
in a call is the access it does next, with the local variables that are still needed.
Every call is written down with the time it was made and the time it returned.
-/

namespace Footstone

namespace MpmcList

open Linear

variable {α : Type}

/-- The list. A node is a slot of the pool with `data_` in it, and its `next_`. -/
structure Queue (α : Type) where
  pool : Pool α
  next : Nat → Tagged := fun _ => {}
  head : Tagged
  tail : Tagged

/-- The places in `push`, from the node that was allocated on with the node. -/
inductive PushPc where
  | alloc (pc : AllocPc)
  /-- The construction of the node, `data_` first. -/
  | data (p : Nat)
  | next (p : Nat)
  | tail (p : Nat)
  | load (p : Nat) (tail : Tagged)
  /-- `tail == tail_.tag_load`. -/
  | check (p : Nat) (tail next : Tagged)
  /-- `tail->next_.compare_exchange_weak`. -/
  | link (p : Nat) (tail next : Tagged)
  /-- `tail_.compare_exchange_strong`, behind the node. -/
  | swing (p : Nat) (tail : Tagged)
  /-- `tail_.compare_exchange_weak`. -/
  | help (p : Nat) (tail : Tagged) (next : Nat)

inductive PopPc (α : Type) where
  | head
  | tail (head : Tagged)
  | load (head tail : Tagged)
  /-- `head == head_.tag_load`. -/
  | check (head tail : Tagged) (next : Option Nat)
  /-- `tail_.compare_exchange_weak`. -/
  | help (tail : Tagged) (next : Nat)
  | data (head : Tagged) (next : Option Nat)
  /-- `head_.compare_exchange_weak`. -/
  | take (head : Tagged) (next : Nat) (val : α)
  | free (val : α) (pc : FreePc)

inductive Pc (α : Type) where
  | push (val : α) (pc : PushPc)
  | pop (pc : PopPc α)

namespace Queue

def setNext (a : Nat) (next : Tagged) (q : Queue α) : Queue α :=
  { q with next := Function.update q.next a next }

/-- The constructor: `allocator_.alloc()` makes the first node. -/
def new [Inhabited α] : Queue α where
  pool := Pool.setSlot 0 (.data default) { size := 1 }
  head := ⟨some 0, 0⟩
  tail := ⟨some 0, 0⟩

/-- `push` goes on, or has returned. There is no step through a null pointer. -/
def push (L : Layout α) (ok : Bool) (val : α) (q : Queue α) : PushPc → Option (Queue α × Option PushPc)
  | .alloc pc =>
    match q.pool.alloc L ok pc with
    | (pool, .inl pc) => some ({ q with pool := pool }, some (.alloc pc))
    | (pool, .inr p) => some ({ q with pool := pool }, some (.data p))
  | .data p => some ({ q with pool := q.pool.setSlot p (.data val) }, some (.next p))
  | .next p => some (q.setNext p {}, some (.tail p))
  | .tail p => some (q, some (.load p q.tail))
  | .load p tail => tail.ptr.map fun node => (q, some (.check p tail (q.next node)))
  | .check p tail next =>
    if q.tail.Same tail then
      match next.ptr with
      | none => some (q, some (.link p tail next))
      | some n => some (q, some (.help p tail n))
    else some (q, some (.tail p))
  | .link p tail next => tail.ptr.map fun node =>
    if ok ∧ (q.next node).Same next then
      (q.setNext node ((q.next node).swap (some p)), some (.swing p tail))
    else (q, some (.tail p))
  | .swing p tail =>
    if q.tail.Same tail then some ({ q with tail := q.tail.swap (some p) }, none)
    else some (q, none)
  | .help p tail next =>
    if ok ∧ q.tail.Same tail then some ({ q with tail := q.tail.swap (some next) }, some (.tail p))
    else some (q, some (.load p q.tail))

/-- `pop` goes on, or has returned. -/
def pop (L : Layout α) (ok : Bool) (q : Queue α) : PopPc α → Option (Queue α × (PopPc α ⊕ FifoRet α))
  | .head => some (q, .inl (.tail q.head))
  | .tail head => some (q, .inl (.load head q.tail))
  | .load head tail => head.ptr.map fun node => (q, .inl (.check head tail (q.next node).ptr))
  | .check head tail next =>
    if q.head.Same head then
      if head.ptr = tail.ptr then
        match next with
        | none => some (q, .inr .empty)
        | some n => some (q, .inl (.help tail n))
      else some (q, .inl (.data head next))
    else some (q, .inl .head)
  | .help tail next =>
    if ok ∧ q.tail.Same tail then some ({ q with tail := q.tail.swap (some next) }, .inl .head)
    else some (q, .inl .head)
  | .data head next => next.map fun node => (q, .inl (.take head node ((q.pool.slot node).val L)))
  | .take head next val =>
    if ok ∧ q.head.Same head then
      match head.ptr with
      | none => some ({ q with head := q.head.swap (some next) }, .inr (.popped val))
      | some p => some ({ q with head := q.head.swap (some next) }, .inl (.free val (.exchange p)))
    else some (q, .inl (.tail q.head))
  | .free val pc =>
    match q.pool.free L ok pc with
    | (pool, some pc) => some ({ q with pool := pool }, .inl (.free val pc))
    | (pool, none) => some ({ q with pool := pool }, .inr (.popped val))

/-- The next access of a thread. -/
def access (L : Layout α) (ok : Bool) (q : Queue α) : Pc α → Option (Queue α × (Pc α ⊕ FifoRet α))
  | .push val pc => (q.push L ok val pc).map fun (q, pc?) =>
    (q, pc?.elim (.inr .pushed) fun pc => .inl (.push val pc))
  | .pop pc => (q.pop L ok pc).map fun (q, next) => (q, next.map .pop id)

end Queue

/-- The list and the threads that use it, with what they have called. `call` is the
number of a thread's latest call. -/
structure System (τ α : Type) where
  queue : Queue α
  pc : τ → Option (Pc α) := fun _ => none
  call : τ → Nat := fun _ => 0
  calls : List (Call (FifoOp α) (FifoRet α)) := []
  clock : Nat := 0

inductive Op (τ α : Type) where
  | push (t : τ) (val : α)
  | pop (t : τ)
  | access (t : τ) (ok : Bool)

/-- Why a step is none: the thread is in a call, it is in none, or it goes through a
null pointer. -/
inductive Fault where
  | busy
  | idle
  | null
  deriving DecidableEq, Repr

namespace System

variable {τ : Type} [DecidableEq τ]

/-- The thread `t` makes a call. -/
def make (t : τ) (op : FifoOp α) (pc : Pc α) (s : System τ α) : System τ α :=
  { s with
    pc := Function.update s.pc t (some pc)
    call := Function.update s.call t s.calls.length
    calls := s.calls ++ [{ op := op, start := s.clock }]
    clock := s.clock + 1 }

/-- The list is `q` and the thread goes on with `pc`. -/
def goOn (t : τ) (q : Queue α) (pc : Pc α) (s : System τ α) : System τ α :=
  { s with queue := q, pc := Function.update s.pc t (some pc), clock := s.clock + 1 }

/-- The list is `q` and the thread's call returns. -/
def finish (t : τ) (q : Queue α) (ret : FifoRet α) (s : System τ α) : System τ α :=
  { s with
    queue := q
    pc := Function.update s.pc t none
    calls := s.calls.modify (s.call t) fun c => { c with finish := some (s.clock, ret) }
    clock := s.clock + 1 }

def step (L : Layout α) (s : System τ α) : Op τ α → Except Fault (System τ α)
  | .push t val =>
    match s.pc t with
    | none => .ok (s.make t (.push val) (.push val (.alloc .exchange)))
    | some _ => .error .busy
  | .pop t =>
    match s.pc t with
    | none => .ok (s.make t .pop (.pop .head))
    | some _ => .error .busy
  | .access t ok =>
    match s.pc t with
    | none => .error .idle
    | some pc =>
      match s.queue.access L ok pc with
      | none => .error .null
      | some (q, .inl pc) => .ok (s.goOn t q pc)
      | some (q, .inr ret) => .ok (s.finish t q ret)

variable {L : Layout α} {s s' : System τ α} {t : τ}

theorem step_push_eq_ok {val : α} : s.step L (.push t val) = .ok s' ↔
    s.pc t = none ∧ s' = s.make t (.push val) (.push val (.alloc .exchange)) := by
  simp only [step]
  split
  · rename_i hpc
    simp [hpc, eq_comm]
  · rename_i hpc
    simp [hpc]

theorem step_pop_eq_ok : s.step L (.pop t) = .ok s' ↔
    s.pc t = none ∧ s' = s.make t .pop (.pop .head) := by
  simp only [step]
  split
  · rename_i hpc
    simp [hpc, eq_comm]
  · rename_i hpc
    simp [hpc]

/-- An access: the call goes on, or it returns. -/
theorem step_access {ok : Bool} (h : s.step L (.access t ok) = .ok s') :
    ∃ pc q next, s.pc t = some pc ∧ s.queue.access L ok pc = some (q, next) ∧
      ((∃ pc', next = .inl pc' ∧ s' = s.goOn t q pc') ∨
        (∃ ret, next = .inr ret ∧ s' = s.finish t q ret)) := by
  simp only [step] at h
  split at h
  · cases h
  · rename_i pc hpc
    split at h
    · cases h
    · rename_i q pc' hacc
      cases h
      exact ⟨pc, q, _, hpc, hacc, Or.inl ⟨pc', rfl, rfl⟩⟩
    · rename_i q ret hacc
      cases h
      exact ⟨pc, q, _, hpc, hacc, Or.inr ⟨ret, rfl, rfl⟩⟩

theorem step_access_eq_null {ok : Bool} (h : s.step L (.access t ok) = .error .null) :
    ∃ pc, s.pc t = some pc ∧ s.queue.access L ok pc = none := by
  simp only [step] at h
  split at h
  · cases h
  · rename_i pc hpc
    split at h
    · rename_i hacc
      exact ⟨pc, hpc, hacc⟩
    · cases h
    · cases h

/-- A new list, which nobody uses. -/
def new (τ α : Type) [Inhabited α] : System τ α := { queue := .new }

end System

end MpmcList

end Footstone
