import Footstone.WellFormed

/-!
What a `Resize` reaches. Growing adds the missing workers; shrinking sets `size_`
before its last loop compares with it, so that no worker leaves the pool. The
loop that frees workers goes on to the second one whatever is left to reduce.
-/

namespace Footstone

open Runs

namespace State

variable {E : Env}

/-! ## The size of the pool -/

/-- The pool `s'` that a `Resize` to `n` leads to from `s`. -/
structure Reaches (s : State) (n : Nat) (s' : State) : Prop where
  length : s'.workers.length = n
  size : s'.size = n
  gone : ∀ w ∈ s.workers, w ∉ s'.workers → (s'.worker w).isTerminated = true
  alive : ∀ w ∈ s'.workers, (s'.worker w).isTerminated = false
  bound : ∀ w, w ∉ s'.workers → s'.held w = []

/-- The workers of the pool that have not been terminated. -/
def liveWorkers (s : State) : List WorkerId :=
  s.workers.filter fun w => !(s.worker w).isTerminated

theorem Wf.liveWorkers {s : State} (hs : s.Wf) : s.liveWorkers = s.workers :=
  List.filter_eq_self.mpr fun w hw => by simp [hs.isTerminated w hw]

/-- The pool only ever grows. -/
theorem resize_workers {s s' : State} (hs : s.Wf) {n : Nat} (h : s.resize E n = .ok s') :
    s'.workers = s.workers ++ List.range' s.nextWorker (n - s.size) := by
  rw [(resize_relocates hs h).workers, staged_workers]

theorem resize_length {s s' : State} (hs : s.Wf) {n : Nat} (h : s.resize E n = .ok s') :
    s'.workers.length = s.workers.length + (n - s.size) := by
  rw [resize_workers hs h, List.length_append, List.length_range']

theorem resize_reaches {s s' : State} (hs : s.Wf) {n : Nat} (h : s.resize E n = .ok s') :
    s.Reaches n s' ↔ s.workers.length = s.size ∧ s.size ≤ n := by
  have hlen := resize_length hs h
  have hs' := resize_wf hs h
  have hle := hs.size_le
  constructor
  · intro hr
    have := hr.length
    omega
  · rintro ⟨heq, hn⟩
    refine ⟨by omega, (resize_size hs h).1, fun w hw hout => ?_, hs'.isTerminated, hs'.outside⟩
    rw [resize_workers hs h] at hout
    exact absurd (List.mem_append_left _ hw) hout

/-- A `Resize` that grows the pool or leaves it alone. -/
theorem resize_returns {s : State} (hs : s.Wf) {n : Nat} (hn : s.size ≤ n) :
    (∃ s', s.resize E n = .ok s') ↔ n = s.size ∨ s.GrowSafe := by
  simp only [resize_eq_ok hs]
  constructor
  · rintro ⟨_, ⟨h, -⟩ | ⟨-, h, -⟩ | ⟨-, h, -⟩⟩
    · exact Or.inl h
    · exact Or.inr h
    · omega
  · rintro (rfl | h)
    · exact ⟨s, Or.inl ⟨rfl, rfl⟩⟩
    · rcases hn.eq_or_lt with rfl | hlt
      · exact ⟨s, Or.inl ⟨rfl, rfl⟩⟩
      · exact ⟨_, Or.inr (Or.inl ⟨hlt, h, rfl⟩)⟩

theorem resize_twice {s s₁ s₂ : State} (hs : s.Wf) {a b : Nat} (h₁ : s.resize E a = .ok s₁)
    (h₂ : s₁.resize E b = .ok s₂) :
    s₂.liveWorkers.length = b ↔ s.workers.length = s.size ∧ s.size ≤ a ∧ a ≤ b := by
  have hs₁ := resize_wf hs h₁
  have hle := hs.size_le
  have hsize := (resize_size hs h₁).1
  have hlen₁ := resize_length hs h₁
  have hlen₂ := resize_length hs₁ h₂
  rw [(resize_wf hs₁ h₂).liveWorkers, hlen₂, hlen₁, hsize]
  omega

/-! ## Freeing workers -/

/-- No runner of the worker is unschedulable, running or pending. -/
def holdsNoUnschedulable (s : State) (w : WorkerId) : Bool :=
  (s.held w).all fun group => group.all fun r => (s.runner r).isSchedulable

def freeWorkers (s : State) : List WorkerId := s.pool.filter s.holdsNoUnschedulable

/-- The loop of the shrinking branch that frees workers, as `shrink` starts it. -/
def freeing (s : State) (n : Nat) : Except Fault Unbound :=
  unbindWorkers s.runner s.pool.reverse { reduceSize := s.size - n, worker := s.worker }

/-- Groups, pool and cursor are as they were. -/
structure SameLists (s s' : State) : Prop where
  runningGroups : ∀ w, (s'.worker w).runningGroups = (s.worker w).runningGroups
  pendingGroups : ∀ w, (s'.worker w).pendingGroups = (s.worker w).pendingGroups
  workers : s'.workers = s.workers
  size : s'.size = s.size
  index : s'.index = s.index

/-- The loop stays in range; with enough free workers it reduces by what it should,
and with fewer nothing happens. -/
structure AllOrNothing (E : Env) (s : State) (n : Nat) : Prop where
  inRange : ∃ acc, s.freeing n = .ok acc
  all : (s.size : Int) - n ≤ s.freeWorkers.length → ∃ acc, s.freeing n = .ok acc ∧ acc.reduceSize = 0
  nothing : (s.freeWorkers.length : Int) < s.size - n →
    ∃ s', s.resize E n = .ok s' ∧ SameLists s s'

/-- The loop sees the running groups only. -/
theorem isFree_of_holdsNoUnschedulable {s : State} {w : WorkerId} (h : s.holdsNoUnschedulable w) :
    s.isFree w := by
  simp only [holdsNoUnschedulable, State.held, Worker.held, List.all_append, Bool.and_eq_true] at h
  simpa [isFree, Worker.hasUnschedulableRunner, List.all_eq_true] using h.1

/-- The first worker of the pool is freed only when the others do not suffice. -/
theorem released_length {s : State} (hs : s.Wf) (n : Nat) : (s.released n).length =
    if ((s.pool.tail.filter s.isFree).length : Int) < s.size - n then
      (s.pool.filter s.isFree).length
    else (s.pool.tail.filter s.isFree).length := by
  have hlen : s.pool.length = s.size := by
    have := hs.size_le
    simp [pool]
    omega
  have hpos := hs.size_pos
  unfold released
  cases hp : s.pool with
  | nil => simp [hp] at hlen; omega
  | cons z xs =>
    rw [List.tail_cons]
    simp only [unboundOf, List.filter_reverse, List.length_append, List.length_reverse]
    by_cases hlt : ((xs.filter s.isFree).length : Int) < s.size - n
    · rw [if_pos hlt, if_pos hlt, ← List.singleton_append (l := xs), List.filter_append,
        List.length_append, Nat.add_comm]
    · simp [hlt]

/-- What the loop returns. -/
theorem freeing_eq_ok {s : State} (hs : s.Wf) {n : Nat} {acc : Unbound} :
    s.freeing n = .ok acc ↔ (s.size : Int) - n ≤ (s.released n).length ∧
      acc = Unbound.after { reduceSize := s.size - n, worker := s.worker } (s.released n) :=
  unbindWorkers_pool hs.nodup hs.size_pos hs.size_le

theorem allOrNothing_iff {s : State} (hs : s.Wf) {n : Nat} (h₂ : n < s.size) :
    s.AllOrNothing E n ↔ (s.size : Int) - n ≤ s.freeWorkers.length ∧
      ((s.pool.tail.filter s.isFree).length : Int) ≤ s.size - n := by
  have hlength := released_length hs n
  have hfree : s.freeWorkers.length ≤ (s.pool.filter s.isFree).length :=
    (List.monotone_filter_right _ fun w => isFree_of_holdsNoUnschedulable).length_le
  have htail : (s.pool.filter s.isFree).length ≤ (s.pool.tail.filter s.isFree).length + 1 := by
    cases s.pool with
    | nil => simp
    | cons z xs =>
      rw [List.filter_cons, List.tail_cons]
      split <;> simp
  constructor
  · intro h
    -- A `Resize` that returns has changed `size_`, so the last part has to be idle.
    have henough : (s.size : Int) - n ≤ s.freeWorkers.length := by
      by_contra hno
      obtain ⟨s', hr, hsame⟩ := h.nothing (by omega)
      have := (resize_size hs hr).1
      have := hsame.size
      omega
    obtain ⟨acc, hacc, hzero⟩ := h.all henough
    obtain ⟨hle, rfl⟩ := (freeing_eq_ok hs).mp hacc
    simp only [Unbound.after] at hzero
    refine ⟨henough, ?_⟩
    split at hlength <;> omega
  · rintro ⟨henough, hmost⟩
    have hexact : ((s.released n).length : Int) = s.size - n := by
      split at hlength <;> omega
    have hacc := (freeing_eq_ok hs).mpr ⟨hexact.ge, rfl⟩
    refine ⟨⟨_, hacc⟩, fun _ => ⟨_, hacc, ?_⟩, fun hno => by omega⟩
    simp only [Unbound.after]
    omega

end State

/-- **When `Resize` reaches its target.** For every reachable state, a `Resize`
that returns reaches its target exactly when no worker is too many and the pool
has not been shrunk before; it returns then when the growing branch does. Two in
a row leave the number of workers the second asks for exactly when neither of
them shrinks such a pool. -/
theorem resize_reaches_iff {E : Env} {s : State} (h : Reachable E s) :
    (∀ n s', s.resize E n = .ok s' →
      (s.Reaches n s' ↔ s.workers.length = s.size ∧ s.size ≤ n)) ∧
    (∀ n, s.size ≤ n → ((∃ s', s.resize E n = .ok s') ↔ n = s.size ∨ s.GrowSafe)) ∧
    ∀ a b s₁ s₂, s.resize E a = .ok s₁ → s₁.resize E b = .ok s₂ →
      (s₂.liveWorkers.length = b ↔ s.workers.length = s.size ∧ s.size ≤ a ∧ a ≤ b) :=
  ⟨fun _ _ hr => State.resize_reaches h.wf hr, fun _ hn => State.resize_returns h.wf hn,
    fun _ _ _ _ h₁ h₂ => State.resize_twice h.wf h₁ h₂⟩

/-- One worker of three runs a group with an unschedulable runner, and another has two groups. -/
def busyPool : List Op := [
  .resize 3, .createTaskRunner 0 1 true, .createTaskRunner 0 1 true, .createTaskRunner 0 1 true,
  .createTaskRunner 0 1 false, .addSubTaskRunner 0 3 true, .runTask 1 fun _ => 0]

/-- Such a pool grows to five. -/
theorem resize_reaches_growing : ∃ s s', run (step .debug) (State.new .debug 1) busyPool = .ok s ∧
    s.resize .debug 5 = .ok s' ∧ s.Reaches 5 s' := by
  have hrun : run (step .debug) (State.new .debug 1) busyPool = .ok _ := run_last (by decide)
  have h : Reachable .debug _ := ⟨1, busyPool, by decide, hrun⟩
  have hgrow : run (step .debug) (last (step .debug) (State.new .debug 1) busyPool) [.resize 5] =
      .ok _ := run_last (by decide)
  obtain ⟨s', hr, -⟩ := run_cons_inv hgrow
  exact ⟨_, s', hrun, hr, ((resize_reaches_iff h).1 5 s' hr).mpr ⟨by decide, by decide⟩⟩

/-- All five workers are free, and they all stay when the pool shrinks to one. -/
theorem resize_keeps_workers : ∃ s s', run (step .debug) (State.new .debug 3) [.resize 5] = .ok s ∧
    (s.size : Int) - 1 ≤ s.freeWorkers.length ∧ s.resize .debug 1 = .ok s' ∧ ¬ s.Reaches 1 s' := by
  have hrun : run (step .debug) (State.new .debug 3) [.resize 5, .resize 1] = .ok _ :=
    run_last (by decide)
  obtain ⟨s, hs, h⟩ := run_cons_inv hrun
  have hs' : s = last (step .debug) (State.new .debug 3) [.resize 5] := by
    simp only [last, hs]
  obtain ⟨s', hr, h'⟩ := run_cons_inv h
  refine ⟨s, s', by rw [run_cons hs]; rfl, ?_, hr, fun hreach => ?_⟩
  · rw [hs']
    decide
  · cases h'
    have hlen := hreach.length
    revert hlen
    decide

/-- **All or nothing.** For every reachable state, shrinking is all or nothing
exactly when there are enough workers without unschedulable runners, and not more
than enough behind the first one without running ones. -/
theorem all_or_nothing_iff {E : Env} {s : State} (h : Reachable E s) {n : Nat} (hn : n < s.size) :
    s.AllOrNothing E n ↔ (s.size : Int) - n ≤ s.freeWorkers.length ∧
      ((s.pool.tail.filter s.isFree).length : Int) ≤ s.size - n :=
  State.allOrNothing_iff h.wf hn

/-- To shrink it to one the loop frees the two workers without an unschedulable runner. -/
theorem all_or_nothing_busy : ∃ s, run (step .debug) (State.new .debug 1) busyPool = .ok s ∧
    s.AllOrNothing .debug 1 := by
  have hrun : run (step .debug) (State.new .debug 1) busyPool = .ok _ := run_last (by decide)
  have h : Reachable .debug _ := ⟨1, busyPool, by decide, hrun⟩
  exact ⟨_, hrun, (all_or_nothing_iff h (by decide)).mpr ⟨by decide, by decide⟩⟩

/-- To shrink a new pool of three to two the loop frees two workers. -/
theorem frees_too_many : ∃ s, Reachable .debug s ∧ 2 < s.size ∧ ¬ s.AllOrNothing .debug 2 := by
  refine ⟨State.new .debug 3, ⟨3, [], by decide, rfl⟩, by decide, fun h => ?_⟩
  obtain ⟨acc, hacc, hzero⟩ := h.all (by decide)
  have hreduce : ((State.new .debug 3).freeing 2).toOption.map State.Unbound.reduceSize = some (-1) := by
    decide
  rw [hacc] at hreduce
  simp [Except.toOption, hzero] at hreduce

end Footstone
