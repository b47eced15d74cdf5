import Footstone.SpscQueue
import Mathlib.Data.List.Range

/-!
`mpmc_queue` (`mpmc_queue.h`, on the members of `spsc_queue.h`), for an index of
`w` bits and any number of threads. A thread's place in a call is the access it
does next, with the local variables that are still needed; a step is one such
access. `compare_exchange_weak` may fail for no reason, which the step is told.
-/

namespace Footstone

namespace Mpmc

/-- A value and the number of the push it is from. Pushes are numbered as they claim
their slots; the numbers are not in the source. -/
abbrev Entry (α : Type) := α × Nat

def invalidIndex : BitVec 64 := BitVec.allOnes 64

/-- An index where it meets a slot's flag. -/
def wide {w : Nat} (i : BitVec w) : BitVec 64 := i.setWidth 64

structure Rnode (α : Type) where
  data : Option (Entry α) := none
  flag : BitVec 64 := invalidIndex

/-- The queue. The last four fields are not in the source. -/
structure Queue (α : Type) (w : Nat) where
  maxSize : Nat
  block : BitVec w → Rnode α := fun _ => {}
  tail : BitVec w := 0
  head : BitVec w := 0
  flag : BitVec w := 0
  /-- The values of the pushes that have claimed a slot, by number. -/
  claimed : List α := []
  /-- How often `head_` was stored. -/
  committed : Nat := 0
  /-- The pushes that have returned true. -/
  accepted : List Nat := []
  /-- What the pops have returned: nothing, or what they read. -/
  returned : List (Option (Option (Entry α))) := []

/-- The access a thread does next. `own` is the number of its push. -/
inductive Pc (α : Type) (w : Nat) where
  | idle
  | pushFlag (val : α)
  | pushTail (val : α) (curFlag : BitVec w)
  /-- `flag_.compare_exchange_weak`. -/
  | pushClaim (val : α) (curFlag : BitVec w)
  | pushData (val : α) (curFlag : BitVec w) (own : Nat)
  /-- `item->flag.store`. -/
  | pushStore (curFlag : BitVec w) (own : Nat)
  /-- `item->flag.load`. -/
  | pushSlot (curFlag : BitVec w) (own : Nat)
  | pushHead (curFlag : BitVec w) (cacFlag : BitVec 64) (own : Nat)
  /-- `item->flag.compare_exchange_strong`. -/
  | pushCommit (curFlag : BitVec w) (own : Nat)
  /-- `head_.store`. -/
  | pushAdvance (curFlag : BitVec w) (own : Nat)
  | popTail
  | popHead (curTail : BitVec w)
  | popSlot (curHead : BitVec w)
  /-- `item->flag.compare_exchange_weak`. -/
  | popCommit (curHead : BitVec w)
  | popAdvance (curHead : BitVec w)
  /-- `seen` counts the pops up to the load of `head_`. It is not in the source. -/
  | popData (curTail : BitVec w) (seen : Nat)
  /-- `tail_.compare_exchange_weak`. -/
  | popTake (curTail : BitVec w) (val : Option (Entry α)) (seen : Nat)

variable {α : Type} {w : Nat}

namespace Queue

/-- What the successful pops have read. -/
def popped (q : Queue α w) : List (Option (Entry α)) := q.returned.filterMap id

def claim (val : α) (q : Queue α w) : Queue α w :=
  { q with flag := q.flag + 1, claimed := q.claimed ++ [val] }

def setData (i : BitVec w) (e : Entry α) (q : Queue α w) : Queue α w :=
  { q with block := Function.update q.block i { q.block i with data := some e } }

def setFlag (i : BitVec w) (flag : BitVec 64) (q : Queue α w) : Queue α w :=
  { q with block := Function.update q.block i { q.block i with flag := flag } }

/-- `head_.store(i + 1)`. -/
def advance (i : BitVec w) (q : Queue α w) : Queue α w :=
  { q with head := i + 1, committed := q.committed + 1 }

def accept (own : Nat) (q : Queue α w) : Queue α w := { q with accepted := own :: q.accepted }

def take (val : Option (Entry α)) (q : Queue α w) : Queue α w :=
  { q with tail := q.tail + 1, returned := q.returned ++ [some val] }

def refuse (q : Queue α w) : Queue α w := { q with returned := q.returned ++ [none] }

/-- The next access of a thread. The compare-exchanges that may fail for no reason
do not when `ok`. -/
def access (ok : Bool) (q : Queue α w) : Pc α w → Queue α w × Pc α w
  | .idle => (q, .idle)
  | .pushFlag val => (q, .pushTail val q.flag)
  | .pushTail val curFlag =>
    if curFlag + 1 = q.tail then (q, .idle)
    else if q.maxSize ≤ (curFlag + 1 - q.tail).toNat then (q, .idle)
    else (q, .pushClaim val curFlag)
  | .pushClaim val curFlag =>
    if ok ∧ q.flag = curFlag then (q.claim val, .pushData val curFlag q.claimed.length)
    else (q, .pushTail val q.flag)
  | .pushData val curFlag own => (q.setData curFlag (val, own), .pushStore curFlag own)
  | .pushStore curFlag own => (q.setFlag curFlag (wide curFlag), .pushSlot curFlag own)
  | .pushSlot curFlag own => (q, .pushHead curFlag (q.block curFlag).flag own)
  | .pushHead curFlag cacFlag own =>
    if curFlag ≠ q.head then (q.accept own, .idle)
    else if cacFlag ≠ wide curFlag then (q.accept own, .idle)
    else (q, .pushCommit curFlag own)
  | .pushCommit curFlag own =>
    if (q.block curFlag).flag = wide curFlag then
      (q.setFlag curFlag invalidIndex, .pushAdvance curFlag own)
    else (q.accept own, .idle)
  | .pushAdvance curFlag own => (q.advance curFlag, .pushSlot (curFlag + 1) own)
  | .popTail => (q, .popHead q.tail)
  | .popHead curTail =>
    if curTail = q.head then (q, .popSlot q.head) else (q, .popData curTail q.popped.length)
  | .popSlot curHead =>
    if (q.block curHead).flag ≠ wide curHead then (q.refuse, .idle) else (q, .popCommit curHead)
  | .popCommit curHead =>
    if ok ∧ (q.block curHead).flag = wide curHead then
      (q.setFlag curHead (wide (sizeLimit w)), .popAdvance curHead)
    else (q, .popTail)
  | .popAdvance curHead => (q.advance curHead, .popTail)
  | .popData curTail seen => (q, .popTake curTail (q.block curTail).data seen)
  | .popTake curTail val _ =>
    if ok ∧ q.tail = curTail then (q.take val, .idle) else (q, .popHead q.tail)

end Queue

/-- The queue and the threads that use it. -/
structure System (τ α : Type) (w : Nat) where
  queue : Queue α w
  pc : τ → Pc α w := fun _ => .idle

inductive Op (τ α : Type) where
  | push (t : τ) (val : α)
  | pop (t : τ)
  | access (t : τ) (ok : Bool)

namespace System

variable {τ : Type} [DecidableEq τ]

/-- The queue is `q` and the thread `t` goes on with `p`. -/
def goOn (t : τ) (q : Queue α w) (p : Pc α w) (s : System τ α w) : System τ α w :=
  { queue := q, pc := Function.update s.pc t p }

def step (s : System τ α w) : Op τ α → Except Stray (System τ α w)
  | .push t val =>
    match s.pc t with
    | .idle => .ok (s.goOn t s.queue (.pushFlag val))
    | _ => .error .busy
  | .pop t =>
    match s.pc t with
    | .idle => .ok (s.goOn t s.queue .popTail)
    | _ => .error .busy
  | .access t ok =>
    match s.pc t with
    | .idle => .error .idle
    | p => .ok (s.goOn t (s.queue.access ok p).1 (s.queue.access ok p).2)

variable {s s' : System τ α w} {t : τ}

theorem step_push_eq_ok {val : α} : s.step (.push t val) = .ok s' ↔
    s.pc t = .idle ∧ s' = s.goOn t s.queue (.pushFlag val) := by
  simp only [step]
  split
  · rename_i hpc
    simp [hpc, eq_comm]
  · rename_i hpc
    simpa using fun h => absurd h hpc

theorem step_pop_eq_ok : s.step (.pop t) = .ok s' ↔
    s.pc t = .idle ∧ s' = s.goOn t s.queue .popTail := by
  simp only [step]
  split
  · rename_i hpc
    simp [hpc, eq_comm]
  · rename_i hpc
    simpa using fun h => absurd h hpc

theorem step_access_eq_ok {ok : Bool} : s.step (.access t ok) = .ok s' ↔ s.pc t ≠ .idle ∧
    s' = s.goOn t (s.queue.access ok (s.pc t)).1 (s.queue.access ok (s.pc t)).2 := by
  simp only [step]
  split
  · rename_i hpc
    simp [hpc]
  · rename_i hpc
    rw [Except.ok.injEq, eq_comm]
    exact (and_iff_right hpc).symm

/-- A new queue, which nobody uses. -/
def new (τ α : Type) (w maxSize : Nat) : System τ α w := { queue := { maxSize := maxSize } }

end System

end Mpmc

end Footstone
