import Footstone.Lib.Calls
import Footstone.SpscQueue

/-!
Calls of `spsc_queue`, one after another. The queue holds `max_size` elements, or
`size_limit` when that is less. For the latter `push` compares `id_head` with
`id_tail - 1`, which an index narrower than `int` does not reach from 0.
-/

namespace Footstone

namespace Spsc

open Runs Ring Calls

variable {α : Type} {w : Nat}

inductive Call (α : Type) where
  | push (val : α)
  | pop

namespace Queue

/-- An access of `push`. -/
def pushAccess : Access Unit (Queue α w) (Producer α w) Bool := fun _ q p =>
  match q.push p with
  | (q', p', none) => (q', .inl p')
  | (q', _, some b) => (q', .inr b)

/-- An access of `pop`. -/
def popAccess : Access Unit (Queue α w) (Consumer α w) Bool := fun _ q c =>
  match q.pop c with
  | (q', c', none) => (q', .inl c')
  | (q', _, some b) => (q', .inr b)

/-- A call, with its four accesses at most. -/
def call (q : Queue α w) : Call α → Except Unfinished (Queue α w × Bool)
  | .push val => Calls.call pushAccess (List.replicate 4 ()) q (.head val)
  | .pop => Calls.call popAccess (List.replicate 4 ()) q .tail

def step (q : Queue α w) (c : Call α) : Except Unfinished (Queue α w) := (q.call c).map Prod.fst

/-- The tests of `push`. -/
def Refuses (q : Queue α w) : Prop :=
  AtLimit q.head q.tail ∨ q.maxSize ≤ (q.head - q.tail).toNat

instance (q : Queue α w) : Decidable q.Refuses :=
  inferInstanceAs (Decidable (AtLimit q.head q.tail ∨ q.maxSize ≤ (q.head - q.tail).toNat))

/-- What `push` does when nothing comes in between. -/
def pushed (val : α) (q : Queue α w) : Queue α w × Bool :=
  if q.Refuses then (q, false) else ((q.setData q.head val).publish val, true)

/-- The same for `pop`. -/
def drained (q : Queue α w) : Queue α w × Bool :=
  if q.tail = q.head then (q, false) else (q.take (q.block q.tail), true)

variable {q : Queue α w}

theorem push_refuse (h : q.Refuses) (val : α) :
    q.push (.tail val q.head) = (q, .idle, some false) := by
  rw [push]
  split
  · rfl
  · rw [if_pos (h.resolve_left ‹_›)]

theorem push_goOn (h : ¬ q.Refuses) (val : α) :
    q.push (.tail val q.head) = (q, .data val q.head, none) := by
  rw [push, if_neg (not_or.mp h).1, if_neg (not_or.mp h).2]

theorem finish_push (q : Queue α w) (val : α) :
    ∃ rest, finish pushAccess (List.replicate 4 ()) q (.head val) =
      some ((q.pushed val).1, (q.pushed val).2, rest) := by
  show ∃ rest, finish pushAccess [(), (), (), ()] q (.head val) = _
  have hhead : pushAccess () q (.head val) = (q, .inl (.tail val q.head)) := rfl
  rw [finish_goOn hhead]
  by_cases h : q.Refuses
  · have htail : pushAccess () q (.tail val q.head) = (q, .inr false) := by
      rw [pushAccess, push_refuse h]
    rw [pushed, if_pos h]
    exact ⟨_, finish_return htail⟩
  · have htail : pushAccess () q (.tail val q.head) = (q, .inl (.data val q.head)) := by
      rw [pushAccess, push_goOn h]
    have hdata : pushAccess () q (.data val q.head) =
        (q.setData q.head val, .inl (.add val)) := rfl
    rw [pushed, if_neg h, finish_goOn htail, finish_goOn hdata]
    exact ⟨_, finish_return rfl⟩

theorem finish_pop (q : Queue α w) :
    ∃ rest, finish popAccess (List.replicate 4 ()) q .tail =
      some (q.drained.1, q.drained.2, rest) := by
  show ∃ rest, finish popAccess [(), (), (), ()] q .tail = _
  have htail : popAccess () q .tail = (q, .inl (.head q.tail)) := rfl
  rw [finish_goOn htail]
  by_cases h : q.tail = q.head
  · have hhead : popAccess () q (.head q.tail) = (q, .inr false) := by
      rw [popAccess, pop, if_pos h]
    rw [drained, if_pos h]
    exact ⟨_, finish_return hhead⟩
  · have hhead : popAccess () q (.head q.tail) = (q, .inl (.data q.tail)) := by
      rw [popAccess, pop, if_neg h]
    have hdata : popAccess () q (.data q.tail) = (q, .inl (.add (q.block q.tail))) := rfl
    rw [drained, if_neg h, finish_goOn hhead, finish_goOn hdata]
    exact ⟨_, finish_return rfl⟩

theorem call_push (q : Queue α w) (val : α) : q.call (.push val) = .ok (q.pushed val) :=
  call_eq_ok.mpr (finish_push q val)

theorem call_pop (q : Queue α w) : q.call .pop = .ok q.drained :=
  call_eq_ok.mpr (finish_pop q)

/-! ## What is held -/

/-- The values that are held, the oldest first. -/
def items (q : Queue α w) : List α := q.published.drop q.popped.length

/-- What stands in the block between `tail_` and `head_`. -/
def elements (q : Queue α w) : List (Option α) :=
  (List.range (q.head - q.tail).toNat).map fun k => q.block (q.tail + BitVec.ofNat w k)

/-- The number of elements that fit in. -/
def capacity (q : Queue α w) : Nat := min q.maxSize (sizeLimit w).toNat

/-- The queue, as if `max_size` were no more than what fits in. -/
def clamped (q : Queue α w) : Queue α w := { q with maxSize := q.capacity }

/-- What holds of the queue when no call is on. -/
def Rest (q : Queue α w) : Prop := q.clamped.Wf

/-- The comparison with `id_tail - 1` is the one that counts, and fails to see that the ring
is full. -/
def Overrun (q : Queue α w) : Prop :=
  w < 32 ∧ (sizeLimit w).toNat < q.maxSize ∧ q.tail = 0 ∧ q.held = (sizeLimit w).toNat

instance (q : Queue α w) : Decidable q.Overrun :=
  inferInstanceAs (Decidable (w < 32 ∧ (sizeLimit w).toNat < q.maxSize ∧ q.tail = 0 ∧
    q.held = (sizeLimit w).toNat))

theorem sizeLimit_toNat (w : Nat) : (sizeLimit w).toNat = 2 ^ w - 1 := BitVec.toNat_allOnes

theorem capacity_lt (q : Queue α w) : q.capacity < 2 ^ w := by
  have hround := Nat.two_pow_pos w
  rw [capacity, sizeLimit_toNat]
  omega

theorem Rest.head_pos (hq : q.Rest) : q.head = pos w q.published.length :=
  Wf.head (q := q.clamped) hq

theorem Rest.tail_pos (hq : q.Rest) : q.tail = pos w q.popped.length :=
  Wf.tail (q := q.clamped) hq

theorem Rest.le (hq : q.Rest) : q.popped.length ≤ q.published.length :=
  Wf.le (q := q.clamped) hq

theorem Rest.data (hq : q.Rest) {k : Nat} (hk : q.popped.length ≤ k)
    (hk' : k < q.published.length) : q.block (pos w k) = q.published[k]? :=
  Wf.data (q := q.clamped) hq k hk hk'

theorem Rest.distance (hq : q.Rest) : (q.head - q.tail).toNat = q.held :=
  Wf.distance (q := q.clamped) hq

theorem Rest.empty_iff (hq : q.Rest) : q.tail = q.head ↔ q.held = 0 :=
  Wf.empty (q := q.clamped) hq

theorem Rest.held_le (hq : q.Rest) : q.held ≤ q.capacity := by
  have hbound : q.published.length ≤ q.popped.length + q.capacity := Wf.bound hq
  rw [held]
  omega

theorem held_eq (q : Queue α w) : q.held = q.items.length := by
  rw [items, List.length_drop, held]

theorem Rest.elements_eq (hq : q.Rest) : q.elements = q.items.map some := by
  have hbound := hq.held_le
  have hlimit := q.capacity_lt
  have hround : q.published.length < q.popped.length + 2 ^ w := by
    rw [held] at hbound
    omega
  rw [elements, hq.head_pos, hq.tail_pos]
  exact Ring.elements_eq q.block hq.le hround fun _ => hq.data

/-- A whole round is held, up to one slot. -/
theorem Rest.head_eq (hq : q.Rest) (h : q.held = (sizeLimit w).toNat) : q.head + 1#w = q.tail := by
  have hround := Nat.two_pow_pos w
  have hle := hq.le
  rw [sizeLimit_toNat, held] at h
  rw [hq.head_pos, hq.tail_pos, pos_succ, ← pos_add_round q.popped.length]
  congr 1
  omega

theorem Rest.atLimit (hq : q.Rest) (h : q.held = (sizeLimit w).toNat)
    (hzero : ¬ (w < 32 ∧ q.tail = 0)) : AtLimit q.head q.tail := by
  have hsub : q.head = q.tail - 1#w := by
    rw [← hq.head_eq h, BitVec.add_sub_cancel]
  by_cases hw : w < 32
  · rw [AtLimit, if_pos hw]
    have htail : q.tail.toNat ≠ 0 := by
      intro h0
      exact hzero ⟨hw, BitVec.eq_of_toNat_eq (by simpa using h0)⟩
    have hlt := q.tail.isLt
    have hone : (1#w).toNat = 1 := by
      rw [BitVec.toNat_ofNat, Nat.mod_eq_of_lt (by omega)]
    have hnat : q.head.toNat = q.tail.toNat - 1 := by
      rw [hsub, BitVec.toNat_sub_of_le (by rw [BitVec.le_def]; omega), hone]
    omega
  · rw [AtLimit, if_neg hw]
    exact hsub

/-- `push` refuses when the queue is full and only then, unless it overruns. -/
theorem Rest.refuses_iff (hq : q.Rest) (h : ¬ q.Overrun) : q.Refuses ↔ q.held = q.capacity := by
  constructor
  · intro hr
    exact Wf.full (q := q.clamped) hq (hr.imp_right ((Nat.min_le_left _ _).trans ·))
  · intro hfull
    rcases Nat.lt_or_ge (sizeLimit w).toNat q.maxSize with hlt | hle
    · have hlimit : q.held = (sizeLimit w).toNat := hfull.trans (Nat.min_eq_right hlt.le)
      exact Or.inl (hq.atLimit hlimit fun hzero => h ⟨hzero.1, hlt, hzero.2, hlimit⟩)
    · refine Or.inr ?_
      rw [hq.distance, hfull, capacity, Nat.min_eq_left hle]

theorem Overrun.not_refuses (h : q.Overrun) (hq : q.Rest) : ¬ q.Refuses := by
  obtain ⟨hw, hlt, hzero, hheld⟩ := h
  rintro (hlimit | hsize)
  · rw [AtLimit, if_pos hw, hzero] at hlimit
    have : (0 : BitVec w).toNat = 0 := by simp
    omega
  · rw [hq.distance] at hsize
    omega

theorem Overrun.held_eq (h : q.Overrun) : q.held = q.capacity := by
  rw [h.2.2.2, capacity, Nat.min_eq_right h.2.1.le]

/-! ## What a call does -/

theorem pushed_true_iff {val : α} (q : Queue α w) : (q.pushed val).2 = true ↔ ¬ q.Refuses := by
  by_cases h : q.Refuses <;> simp [pushed, h]

/-- `push` tells whether there was room, unless it overruns. -/
theorem Rest.pushed_iff (hq : q.Rest) (val : α) :
    ((q.pushed val).2 = true ↔ q.held < q.capacity) ↔ ¬ q.Overrun := by
  have hle := hq.held_le
  rw [pushed_true_iff]
  constructor
  · intro h hover
    have hlt := h.mp (hover.not_refuses hq)
    rw [hover.held_eq] at hlt
    exact hlt.false
  · intro hover
    rw [hq.refuses_iff hover]
    omega

theorem Rest.pushed (hq : q.Rest) (hover : ¬ q.Overrun) (val : α) : (q.pushed val).1.Rest := by
  by_cases h : q.Refuses
  · rw [Queue.pushed, if_pos h]
    exact hq
  · have hle := hq.held_le
    have hne := mt (hq.refuses_iff hover).mpr h
    rw [Queue.pushed, if_neg h]
    have hroom : q.published.length < q.popped.length + q.capacity := by
      rw [held] at hle hne
      omega
    exact (Wf.setData hq val).publish ⟨Function.update_self _ _ _, hroom⟩

theorem Rest.drained_iff (hq : q.Rest) : q.drained.2 = true ↔ 0 < q.held := by
  rw [Queue.drained]
  split
  · rename_i h
    simp [hq.empty_iff.mp h]
  · rename_i h
    simp [Nat.pos_of_ne_zero (mt hq.empty_iff.mpr h)]

/-- What a pop takes when there is something. -/
theorem Rest.data_tail (hq : q.Rest) (h : q.tail ≠ q.head) :
    q.block q.tail = q.published[q.popped.length]? ∧ q.popped.length < q.published.length := by
  have hheld := mt hq.empty_iff.mpr h
  have hlt : q.popped.length < q.published.length := by
    rw [held] at hheld
    omega
  rw [hq.tail_pos]
  exact ⟨hq.data le_rfl hlt, hlt⟩

theorem Rest.drained (hq : q.Rest) : q.drained.1.Rest := by
  rw [Queue.drained]
  split
  · exact hq
  · rename_i h
    exact Wf.take hq (hq.data_tail h)

theorem items_publish (hle : q.popped.length ≤ q.published.length) (i : BitVec w) (val : α) :
    ((q.setData i val).publish val).items = q.items ++ [val] :=
  List.drop_append_of_le_length hle

theorem items_take {x : α} {xs : List α} (h : q.items = x :: xs) (val : Option α) :
    (q.take val).items = xs := by
  have hdrop : (q.take val).items = q.items.drop 1 := by
    rw [items, items, List.drop_drop]
    simp [take]
  rw [hdrop, h]
  rfl

theorem Rest.drained_nil (hq : q.Rest) (h : q.items = []) : q.drained = (q, false) := by
  rw [Queue.drained, if_pos (hq.empty_iff.mpr (by rw [held_eq, h]; rfl))]

/-- A pop takes the oldest value. -/
theorem Rest.drained_cons (hq : q.Rest) {x : α} {xs : List α} (h : q.items = x :: xs) :
    q.drained = (q.take (some x), true) := by
  have hne : q.tail ≠ q.head := by
    intro he
    have hzero := hq.empty_iff.mp he
    rw [held_eq, h] at hzero
    cases hzero
  have hfirst : q.published[q.popped.length]? = some x := by
    have := congrArg (fun l : List α => l[0]?) h
    simpa [items] using this
  rw [Queue.drained, if_neg hne, (hq.data_tail hne).1, hfirst]

/-! ## Calls in a row -/

/-- What the call returns. -/
def answer (q : Queue α w) (c : Call α) : Option Bool :=
  match q.call c with
  | .ok (_, b) => some b
  | .error _ => none

/-- There is room for the call, or something to take. -/
def Fits (q : Queue α w) : Call α → Prop
  | .push _ => q.held < q.capacity
  | .pop => 0 < q.held

instance (q : Queue α w) : (c : Call α) → Decidable (q.Fits c)
  | .push _ => inferInstanceAs (Decidable (q.held < q.capacity))
  | .pop => inferInstanceAs (Decidable (0 < q.held))

/-- The call returns whether it could be done. -/
def Exact (q : Queue α w) (c : Call α) : Prop := q.answer c = some (decide (q.Fits c))

instance (q : Queue α w) (c : Call α) : Decidable (q.Exact c) :=
  inferInstanceAs (Decidable (_ = _))

/-- Values are popped in the order in which they were pushed, and none is left out. -/
structure InOrder (q : Queue α w) : Prop where
  le : q.popped.length ≤ q.published.length
  eq : q.popped = (q.published.take q.popped.length).map some

/-- No push that overruns. -/
def Room (q : Queue α w) : Call α → Prop
  | .push _ => ¬ q.Overrun
  | .pop => True

theorem Rest.inOrder (hq : q.Rest) : q.InOrder :=
  ⟨hq.le, Wf.fifo (q := q.clamped) hq⟩

theorem exact_push (q : Queue α w) (val : α) :
    q.Exact (.push val) ↔ ((q.pushed val).2 = true ↔ q.held < q.capacity) := by
  rw [Exact, answer, call_push, Option.some.injEq, Bool.eq_iff_iff, decide_eq_true_iff]
  rfl

theorem exact_pop (q : Queue α w) : q.Exact .pop ↔ (q.drained.2 = true ↔ 0 < q.held) := by
  rw [Exact, answer, call_pop, Option.some.injEq, Bool.eq_iff_iff, decide_eq_true_iff]
  rfl

theorem Rest.exact_iff (hq : q.Rest) (c : Call α) : q.Exact c ↔ q.Room c := by
  cases c with
  | push val => exact (exact_push q val).trans (hq.pushed_iff val)
  | pop => exact iff_of_true ((exact_pop q).mpr hq.drained_iff) trivial

theorem Rest.step (hq : q.Rest) {c : Call α} (hc : q.Room c) {q' : Queue α w}
    (h : q.step c = .ok q') : q'.Rest := by
  cases c with
  | push val =>
    rw [Queue.step, call_push] at h
    cases h
    exact hq.pushed hc val
  | pop =>
    rw [Queue.step, call_pop] at h
    cases h
    exact hq.drained

theorem new_rest (α : Type) (w maxSize : Nat) : ({ maxSize := maxSize } : Queue α w).Rest where
  head := rfl
  tail := rfl
  le := le_rfl
  bound := Nat.zero_le _
  limit := capacity_lt _
  fifo := rfl
  data k _ hk := absurd hk (Nat.not_lt_zero k)

end Queue

end Spsc

open Runs

end Footstone
