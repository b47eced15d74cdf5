import Footstone.Lib.Ring
import Footstone.Lib.Runs
import Mathlib.Logic.Function.Basic

/-!
`spsc_queue` (`spsc_queue.h`), for an index of `w` bits, one thread that pushes and
one that pops. A thread's place in a call is the access it does next, with the local
variables that are still needed; a step is one such access.
-/

namespace Footstone

/-- A call is started within another one, or gone on with outside of any. -/
inductive Stray where
  | busy
  | idle
  deriving DecidableEq

def sizeLimit (w : Nat) : BitVec w := BitVec.allOnes w

namespace Spsc

open Runs Ring

/-- The queue. The last two fields are not in the source. -/
structure Queue (α : Type) (w : Nat) where
  maxSize : Nat
  block : BitVec w → Option α := fun _ => none
  tail : BitVec w := 0
  head : BitVec w := 0
  /-- The values of the pushes that have moved `head_` on. -/
  published : List α := []
  /-- What the pops have read that have moved `tail_` on. -/
  popped : List (Option α) := []

/-- The access that the thread that pushes does next. -/
inductive Producer (α : Type) (w : Nat) where
  | idle
  | head (val : α)
  | tail (val : α) (idHead : BitVec w)
  | data (val : α) (idHead : BitVec w)
  /-- `head_.fetch_add`. -/
  | add (val : α)

/-- The access that the thread that pops does next. -/
inductive Consumer (α : Type) (w : Nat) where
  | idle
  | tail
  | head (idTail : BitVec w)
  | data (idTail : BitVec w)
  /-- `tail_.fetch_add`. -/
  | add (val : Option α)

variable {α : Type} {w : Nat}

/-- `id_head == id_tail - 1`, where indices narrower than `int` become `int`. -/
def AtLimit (idHead idTail : BitVec w) : Prop :=
  if w < 32 then (idHead.toNat : Int) = idTail.toNat - 1 else idHead = idTail - 1

instance (idHead idTail : BitVec w) : Decidable (AtLimit idHead idTail) :=
  inferInstanceAs (Decidable (if w < 32 then (idHead.toNat : Int) = idTail.toNat - 1 else
    idHead = idTail - 1))

namespace Queue

def setData (i : BitVec w) (val : α) (q : Queue α w) : Queue α w :=
  { q with block := Function.update q.block i (some val) }

def publish (val : α) (q : Queue α w) : Queue α w :=
  { q with head := q.head + 1, published := q.published ++ [val] }

def take (val : Option α) (q : Queue α w) : Queue α w :=
  { q with tail := q.tail + 1, popped := q.popped ++ [val] }

/-- The next access of `push`, and what `push` returns when it is over with that. -/
def push (q : Queue α w) : Producer α w → Queue α w × Producer α w × Option Bool
  | .idle => (q, .idle, none)
  | .head val => (q, .tail val q.head, none)
  | .tail val idHead =>
    if AtLimit idHead q.tail then (q, .idle, some false)
    else if q.maxSize ≤ (idHead - q.tail).toNat then (q, .idle, some false)
    else (q, .data val idHead, none)
  | .data val idHead => (q.setData idHead val, .add val, none)
  | .add val => (q.publish val, .idle, some true)

/-- The same for `pop`. -/
def pop (q : Queue α w) : Consumer α w → Queue α w × Consumer α w × Option Bool
  | .idle => (q, .idle, none)
  | .tail => (q, .head q.tail, none)
  | .head idTail => if idTail = q.head then (q, .idle, some false) else (q, .data idTail, none)
  | .data idTail => (q, .add (q.block idTail), none)
  | .add val => (q.take val, .idle, some true)

/-- How many elements are held. -/
def held (q : Queue α w) : Nat := q.published.length - q.popped.length

end Queue

/-- The queue and the two threads. -/
structure System (α : Type) (w : Nat) where
  queue : Queue α w
  producer : Producer α w := .idle
  consumer : Consumer α w := .idle

inductive Op (α : Type) where
  | push (val : α)
  | pop
  /-- An access of the thread that pushes. -/
  | produce
  /-- An access of the thread that pops. -/
  | consume

namespace System

def step (s : System α w) : Op α → Except Stray (System α w)
  | .push val =>
    match s.producer with
    | .idle => .ok { s with producer := .head val }
    | _ => .error .busy
  | .pop =>
    match s.consumer with
    | .idle => .ok { s with consumer := .tail }
    | _ => .error .busy
  | .produce =>
    match s.producer with
    | .idle => .error .idle
    | p => .ok { s with queue := (s.queue.push p).1, producer := (s.queue.push p).2.1 }
  | .consume =>
    match s.consumer with
    | .idle => .error .idle
    | c => .ok { s with queue := (s.queue.pop c).1, consumer := (s.queue.pop c).2.1 }

/-- A new queue, which nobody uses. -/
def new (α : Type) (w maxSize : Nat) : System α w := { queue := { maxSize := maxSize } }

end System

/-! ## Counters that do not wrap -/

theorem AtLimit.succ {idHead idTail : BitVec w} (h : AtLimit idHead idTail) :
    idHead + 1#w = idTail := by
  unfold AtLimit at h
  split at h
  · have hlt := idTail.isLt
    apply BitVec.eq_of_toNat_eq
    rw [BitVec.toNat_add, BitVec.toNat_ofNat, Nat.add_mod_mod, Nat.mod_eq_of_lt (by omega)]
    omega
  · rw [h]
    exact BitVec.sub_add_cancel _ _

namespace Queue

/-- What holds of the queue. -/
structure Wf (q : Queue α w) : Prop where
  head : q.head = pos w q.published.length
  tail : q.tail = pos w q.popped.length
  le : q.popped.length ≤ q.published.length
  bound : q.published.length ≤ q.popped.length + q.maxSize
  limit : q.maxSize < 2 ^ w
  fifo : q.popped = (q.published.take q.popped.length).map some
  data : ∀ k, q.popped.length ≤ k → k < q.published.length → q.block (pos w k) = q.published[k]?

/-- What the thread that pushes knows of the queue, by its place. -/
def Feeds (q : Queue α w) : Producer α w → Prop
  | .tail _ idHead => idHead = q.head
  | .data _ idHead => idHead = q.head ∧ q.published.length < q.popped.length + q.maxSize
  | .add val => q.block q.head = some val ∧ q.published.length < q.popped.length + q.maxSize
  | _ => True

/-- What the thread that pops knows of the queue, by its place. -/
def Drains (q : Queue α w) : Consumer α w → Prop
  | .head idTail => idTail = q.tail
  | .data idTail => idTail = q.tail ∧ q.popped.length < q.published.length
  | .add val => val = q.published[q.popped.length]? ∧ q.popped.length < q.published.length
  | _ => True

variable {q : Queue α w}

/-- The distance of the indices is what is held. -/
theorem Wf.distance (hq : q.Wf) : (q.head - q.tail).toNat = q.held := by
  have hbound := hq.bound
  have hlimit := hq.limit
  rw [hq.head, hq.tail]
  exact pos_sub_toNat hq.le (by omega)

/-- The ring is full when `maxSize` elements are held. -/
theorem Wf.full (hq : q.Wf) (h : AtLimit q.head q.tail ∨ q.maxSize ≤ (q.head - q.tail).toNat) :
    q.held = q.maxSize := by
  have hbound := hq.bound
  have hheld : q.held = q.published.length - q.popped.length := rfl
  rcases h with h | h
  · -- A place short of a whole round.
    have hlimit := hq.limit
    have hle := hq.le
    have hnext := h.succ
    rw [hq.head, hq.tail, pos_succ] at hnext
    by_contra hne
    have := (pos_inj (t := q.popped.length) (by omega) (by omega) le_rfl (by omega)).mp hnext
    omega
  · rw [hq.distance] at h
    omega

/-- The indices are equal when nothing is held. -/
theorem Wf.empty (hq : q.Wf) : q.tail = q.head ↔ q.held = 0 := by
  have hle := hq.le
  have hbound := hq.bound
  have hlimit := hq.limit
  rw [hq.head, hq.tail, pos_inj le_rfl (by omega) hq.le (by omega), held]
  omega

/-- The slot that the next push writes is not one that is held. -/
theorem Wf.head_ne (hq : q.Wf) {k : Nat} (hk : q.popped.length ≤ k) (hk' : k < q.published.length) :
    pos w k ≠ q.head := by
  have hbound := hq.bound
  have hlimit := hq.limit
  rw [hq.head]
  exact pos_ne hk (by omega) hq.le (by omega) hk'.ne

/-! ## One access -/

theorem Wf.setData (hq : q.Wf) (val : α) : (q.setData q.head val).Wf where
  head := hq.head
  tail := hq.tail
  le := hq.le
  bound := hq.bound
  limit := hq.limit
  fifo := hq.fifo
  data k hk hk' := (Function.update_of_ne (hq.head_ne hk hk') _ _).trans (hq.data k hk hk')

theorem Wf.publish (hq : q.Wf) {val : α} (h : q.Feeds (.add val)) : (q.publish val).Wf where
  head := by
    rw [Queue.publish, hq.head, List.length_append]
    exact pos_succ _
  tail := hq.tail
  le := by
    rw [Queue.publish, List.length_append]
    exact Nat.le_add_right_of_le hq.le
  bound := by
    rw [Queue.publish, List.length_append]
    exact h.2
  limit := hq.limit
  fifo := by
    rw [Queue.publish, List.take_append_of_le_length hq.le]
    exact hq.fifo
  data k hk hk' := by
    rw [Queue.publish, List.length_append, List.length_singleton] at hk'
    rcases Nat.lt_succ_iff_lt_or_eq.mp hk' with hlt | rfl
    · rw [Queue.publish, List.getElem?_append_left hlt]
      exact hq.data k hk hlt
    · rw [Queue.publish, List.getElem?_concat_length, ← hq.head]
      exact h.1

theorem Wf.take (hq : q.Wf) {val : Option α} (h : q.Drains (.add val)) : (q.take val).Wf where
  head := hq.head
  tail := by
    rw [Queue.take, hq.tail, List.length_append]
    exact pos_succ _
  le := by
    rw [Queue.take, List.length_append]
    exact h.2
  bound := by
    have hbound := hq.bound
    simp only [Queue.take, List.length_append, List.length_singleton]
    omega
  limit := hq.limit
  fifo := by
    obtain ⟨rfl, hlt⟩ := h
    simp only [Queue.take, List.length_append, List.length_singleton]
    rw [List.take_succ_eq_append_getElem hlt, List.map_append, ← hq.fifo, List.getElem?_eq_getElem hlt]
    rfl
  data k hk hk' := by
    rw [Queue.take, List.length_append] at hk
    exact hq.data k (Nat.le_of_succ_le hk) hk'

end Queue

namespace System

structure Inv (s : System α w) : Prop where
  wf : s.queue.Wf
  feeds : s.queue.Feeds s.producer
  drains : s.queue.Drains s.consumer

variable {s : System α w}

/-- **One access of the thread that pushes.** -/
theorem push_inv {q : Queue α w} {p : Producer α w} {c : Consumer α w} (hwf : q.Wf)
    (hfeeds : q.Feeds p) (hdrains : q.Drains c) : Inv ⟨(q.push p).1, (q.push p).2.1, c⟩ := by
  cases p with
  | idle => exact ⟨hwf, trivial, hdrains⟩
  | head val => exact ⟨hwf, rfl, hdrains⟩
  | tail val idHead =>
    obtain rfl : idHead = q.head := hfeeds
    simp only [Queue.push]
    split
    · exact ⟨hwf, trivial, hdrains⟩
    · split
      · exact ⟨hwf, trivial, hdrains⟩
      · rename_i hroom
        rw [hwf.distance, Queue.held] at hroom
        have hlt : q.published.length < q.popped.length + q.maxSize := by omega
        exact ⟨hwf, And.intro rfl hlt, hdrains⟩
  | data val idHead =>
    obtain ⟨rfl, hroom⟩ := hfeeds
    refine ⟨hwf.setData val, And.intro (Function.update_self _ _ _) hroom, ?_⟩
    cases c <;> exact hdrains
  | add val =>
    refine ⟨hwf.publish hfeeds, trivial, ?_⟩
    have hgrow : q.published.length < (q.publish val).published.length := by
      simp [Queue.publish]
    cases c with
    | idle | tail | head => exact hdrains
    | data idTail => exact ⟨hdrains.1, hdrains.2.trans hgrow⟩
    | add val' =>
      refine ⟨?_, hdrains.2.trans hgrow⟩
      exact hdrains.1.trans (List.getElem?_append_left hdrains.2).symm

/-- **One access of the thread that pops.** -/
theorem pop_inv {q : Queue α w} {p : Producer α w} {c : Consumer α w} (hwf : q.Wf)
    (hfeeds : q.Feeds p) (hdrains : q.Drains c) : Inv ⟨(q.pop c).1, p, (q.pop c).2.1⟩ := by
  cases c with
  | idle => exact ⟨hwf, hfeeds, trivial⟩
  | tail => exact ⟨hwf, hfeeds, rfl⟩
  | head idTail =>
    obtain rfl : idTail = q.tail := hdrains
    simp only [Queue.pop]
    split
    · exact ⟨hwf, hfeeds, trivial⟩
    · rename_i hne
      have hheld := mt hwf.empty.mpr hne
      have hlt : q.popped.length < q.published.length := by
        rw [Queue.held] at hheld
        omega
      exact ⟨hwf, hfeeds, And.intro rfl hlt⟩
  | data idTail =>
    obtain ⟨rfl, hlt⟩ := hdrains
    refine ⟨hwf, hfeeds, And.intro ?_ hlt⟩
    rw [hwf.tail]
    exact hwf.data _ le_rfl hlt
  | add val =>
    refine ⟨hwf.take hdrains, ?_, trivial⟩
    have hgrow : q.popped.length + q.maxSize < (q.take val).popped.length + q.maxSize := by
      simp [Queue.take]
    cases p with
    | idle | head | tail => exact hfeeds
    | data val' idHead => exact ⟨hfeeds.1, hfeeds.2.trans hgrow⟩
    | add val' => exact ⟨hfeeds.1, hfeeds.2.trans hgrow⟩

theorem step_inv {s' : System α w} {op : Op α} (hs : s.Inv) (h : s.step op = .ok s') : s'.Inv := by
  cases op with
  | push val =>
    change (match s.producer with | .idle => _ | _ => _) = _ at h
    split at h <;> cases h
    exact ⟨hs.wf, trivial, hs.drains⟩
  | pop =>
    change (match s.consumer with | .idle => _ | _ => _) = _ at h
    split at h <;> cases h
    exact ⟨hs.wf, hs.feeds, trivial⟩
  | produce =>
    change (match s.producer with | .idle => _ | _ => _) = _ at h
    split at h <;> cases h
    exact push_inv hs.wf hs.feeds hs.drains
  | consume =>
    change (match s.consumer with | .idle => _ | _ => _) = _ at h
    split at h <;> cases h
    exact pop_inv hs.wf hs.feeds hs.drains

theorem new_inv {maxSize : Nat} (h : maxSize ≤ (sizeLimit w).toNat) : (System.new α w maxSize).Inv where
  wf := {
    head := rfl
    tail := rfl
    le := le_rfl
    bound := Nat.zero_le _
    limit := by
      have hround := Nat.two_pow_pos w
      rw [sizeLimit, BitVec.toNat_allOnes] at h
      change maxSize < 2 ^ w
      omega
    fifo := rfl
    data := fun k _ hk => absurd hk (Nat.not_lt_zero k) }
  feeds := trivial
  drains := trivial

/-! ## The channel -/

/-- Values are popped in the order in which they were pushed, the slot that is written
is not the one that is read, and no more than `maxSize` elements are held. -/
structure Channel (s : System α w) : Prop where
  fifo : s.queue.popped <+: s.queue.published.map some
  apart : ∀ val i j, s.producer = .data val i → s.consumer = .data j → i ≠ j
  bounded : s.queue.held ≤ s.queue.maxSize

/-- A push returns false only when it has just found `maxSize` elements, a pop only when
it has found none. -/
def Honest (s : System α w) : Op α → Prop
  | .produce => (s.queue.push s.producer).2.2 = some false → s.queue.held = s.queue.maxSize
  | .consume => (s.queue.pop s.consumer).2.2 = some false → s.queue.held = 0
  | _ => True

theorem Inv.channel (hs : s.Inv) : s.Channel where
  fifo := by
    rw [hs.wf.fifo]
    exact (List.take_prefix _ _).map some
  apart val i j hp hc := by
    obtain ⟨rfl, -⟩ := hp ▸ hs.feeds
    obtain ⟨rfl, hlt⟩ := hc ▸ hs.drains
    rw [hs.wf.tail]
    exact (hs.wf.head_ne le_rfl hlt).symm
  bounded := by
    have hbound := hs.wf.bound
    rw [Queue.held]
    omega

theorem Inv.honest (hs : s.Inv) (op : Op α) : s.Honest op := by
  cases op with
  | push | pop => trivial
  | produce =>
    intro hfalse
    have hfeeds := hs.feeds
    cases hp : s.producer with
    | tail val idHead =>
      rw [hp] at hfeeds hfalse
      obtain rfl : idHead = s.queue.head := hfeeds
      refine hs.wf.full ?_
      by_contra hnot
      rw [not_or] at hnot
      rw [Queue.push, if_neg hnot.1, if_neg hnot.2] at hfalse
      cases hfalse
    | _ =>
      rw [hp] at hfalse
      cases hfalse
  | consume =>
    intro hfalse
    have hdrains := hs.drains
    cases hc : s.consumer with
    | head idTail =>
      rw [hc] at hdrains hfalse
      obtain rfl : idTail = s.queue.tail := hdrains
      refine hs.wf.empty.mp ?_
      by_contra hne
      rw [Queue.pop, if_neg hne] at hfalse
      cases hfalse
    | _ =>
      rw [hc] at hfalse
      cases hfalse

end System

end Spsc

open Runs

end Footstone
