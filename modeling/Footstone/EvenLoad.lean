import Footstone.Resizing
import Mathlib.Data.List.TakeWhile

/-!
How many groups each worker has after the pool has grown. A worker above the quota
has a room of negative size, and compared with a `size_t` that is larger than all
the groups there are. So the first worker above the quota gets whatever those before
it leave.
-/

namespace Footstone

open Runs

namespace State

variable {E : Env}

/-- The number of groups `RetainActiveAndUnschedulable` leaves on a worker, and 0 on
a new one. -/
def leftOn (s : State) (w : WorkerId) : Nat :=
  if w ∈ s.pool then
    match (s.worker w).retainActiveAndUnschedulable s.runner with
    | .ok (_, x) => x.held.length
    | .error _ => 0
  else 0

/-- The groups of all workers, divided among `n` of them and rounded up. -/
def share (s : State) (n : Nat) : Nat := (s.allGroups.length + (n - 1)) / n

/-- `Balance` up to `n` workers returns, and leaves no worker with more than its
share, unless it had more. -/
def EvensOut (E : Env) (s : State) (n : Nat) : Prop :=
  ∃ s', s.balance E (n - s.size) = .ok s' ∧
    ∀ w ∈ s.workers, (s'.held w).length ≤ max (s.leftOn w) (s.share n)

/-- The running groups of a worker of the pool. -/
def load (s : State) (w : WorkerId) : Nat :=
  if w ∈ s.pool then (s.worker w).runningGroups.length else 0

/-- The workers in the order of their rooms. -/
def order (s : State) (n : Nat) : List WorkerId := (s.workers.take n).drop s.size ++ s.pool

/-- The workers before the first one above the quota, the new ones first. -/
def belowQuota (s : State) (n : Nat) : List WorkerId :=
  (s.order n).takeWhile fun w => s.load w ≤ s.quota n

/-- The first worker above the quota, if there is one. -/
def firstAbove (s : State) (n : Nat) : Option WorkerId :=
  ((s.order n).dropWhile fun w => s.load w ≤ s.quota n).head?

/-- What the first worker above the quota gets, behind the others, brings it to its
share at most. -/
def FirstFits (s : State) (n : Nat) : Prop :=
  ∀ w ∈ s.firstAbove n, s.pendingGroups.length + ((s.belowQuota n).map s.load).sum ≤
    (s.belowQuota n).length * s.quota n + (s.share n - s.load w)

instance (s : State) (n : Nat) : Decidable (s.FirstFits n) := Option.decidableForallMem _

/-! ## The quota and the share -/

theorem rooms_eq {s : State} (hn : s.workers.Nodup) (n : Nat) :
    s.rooms n = Deal.level (s.quota n) s.load (s.order n) := by
  rw [rooms, order, Deal.level, List.map_append]
  congr 1
  · refine List.map_congr_left fun w hw => ?_
    have hp : w ∉ s.pool := fun hp =>
      List.disjoint_take_drop hn le_rfl hp ((List.take_sublist n _).drop s.size |>.subset hw)
    simp [load, hp]
  · refine List.map_congr_left fun w hw => ?_
    simp [load, hw]

theorem order_nodup {s : State} (hn : s.workers.Nodup) {n : Nat} (h : s.size ≤ n) :
    (s.order n).Nodup := by
  have hperm : (s.order n).Perm (s.workers.take n) := by
    refine List.perm_append_comm.trans ?_
    have htake : s.pool = (s.workers.take n).take s.size := by
      rw [pool, List.take_take, Nat.min_eq_left h]
    rw [htake, List.take_append_drop]
  exact hperm.nodup_iff.mpr (hn.sublist (List.take_sublist _ _))

theorem quota_le_share (s : State) (n : Nat) : s.quota n ≤ s.share n := by
  have hrunning : s.groupsSize ≤ (s.pool.map fun w => (s.held w).length).sum := by
    refine List.sum_le_sum fun w _ => ?_
    simp [State.held, Worker.held]
  have hpool : (s.pool.map fun w => (s.held w).length).sum ≤ s.allGroups.length := by
    rw [allGroups, List.length_flatMap]
    exact ((List.take_sublist _ _).map _).sum_le_sum fun _ _ => Nat.zero_le _
  refine Nat.div_le_div_right ?_
  omega

theorem leftOn_eq {s : State} (h : s.GrowSafe) (w : WorkerId) : s.leftOn w = s.load w := by
  unfold leftOn load
  split
  · rename_i hw
    rw [Worker.retain_eq_ok.mpr ⟨h.1 w hw, rfl, rfl⟩]
    simp [Worker.retained, Worker.held]
  · rfl

theorem balance_eq_grow {s : State} {n : Nat} (h : s.size < n) :
    s.balance E (n - s.size) = s.grow n := by
  have hsize : ((s.size : Int) + ((n : Int) - s.size)).toNat = n := by omega
  unfold balance
  rw [if_pos (by omega), hsize]

theorem grown_length {s : State} (hnew : ∀ w ∈ s.workers, w ∉ s.pool → s.held w = []) (n : Nat)
    {w : WorkerId} (hw : w ∈ s.workers) : ((s.grown n).held w).length =
      s.load w + (Deal.received (Deal.seat (s.rooms n)) s.pendingGroups w).length := by
  rw [(grown_relocates s n).held w, Plan.settled, List.length_append]
  congr 1
  by_cases hp : w ∈ s.pool
  · simp [growPlan, load, hp]
  · simp [growPlan, load, hp, hnew w hw hp]

/-! ## Who gets what -/

theorem load_belowQuota {s : State} {n : Nat} {w : WorkerId} (hw : w ∈ s.belowQuota n) :
    s.load w ≤ s.quota n := by
  simpa using List.mem_takeWhile_imp hw

/-- The first worker above the quota stands behind those below it. -/
theorem order_of_some {s : State} {n : Nat} {w₀ : WorkerId} (h : s.firstAbove n = some w₀) :
    s.quota n < s.load w₀ ∧ ∃ post, s.order n = s.belowQuota n ++ w₀ :: post := by
  obtain ⟨post, hpost⟩ := List.head?_eq_some_iff.mp h
  have habove := List.head_dropWhile_not (fun w => decide (s.load w ≤ s.quota n))
    (l := s.order n) (by rw [hpost]; simp)
  simp only [hpost, List.head_cons, decide_eq_false_iff_not, not_le] at habove
  refine ⟨habove, post, ?_⟩
  rw [belowQuota, ← hpost, List.takeWhile_append_dropWhile]

/-- With nobody above the quota, everyone with a room is below it. -/
theorem order_of_none {s : State} {n : Nat} (h : s.firstAbove n = none) :
    s.belowQuota n = s.order n := by
  have hrest := List.head?_eq_none_iff.mp h
  conv_rhs => rw [← List.takeWhile_append_dropWhile (p := fun w => s.load w ≤ s.quota n)
    (l := s.order n), hrest, List.append_nil]
  rfl

/-- A worker that is not the first above the quota gets up to the quota at most. -/
theorem load_of_ne {s : State} (hn : s.workers.Nodup) {n : Nat} (hsize : s.size ≤ n) {w : WorkerId}
    (hne : ∀ w₀, s.firstAbove n = some w₀ → w ≠ w₀) :
    s.load w + (Deal.received (Deal.seat (s.rooms n)) s.pendingGroups w).length ≤
      max (s.load w) (s.quota n) := by
  have hbelow := fun v (hv : v ∈ s.belowQuota n) => load_belowQuota hv
  have hnodup := (order_nodup hn hsize).sublist
    (List.takeWhile_sublist fun w => s.load w ≤ s.quota n)
  have hreceived : Deal.received (Deal.seat (s.rooms n)) s.pendingGroups w =
      Deal.received (Deal.seat (Deal.level (s.quota n) s.load (s.belowQuota n)))
        s.pendingGroups w := by
    rw [rooms_eq hn]
    cases hfirst : s.firstAbove n with
    | none => rw [order_of_none hfirst]
    | some w₀ =>
      obtain ⟨habove, post, horder⟩ := order_of_some hfirst
      rw [horder, Deal.level_above hbelow habove, if_neg (hne w₀ hfirst).symm, List.append_nil]
  rw [hreceived]
  by_cases hmem : w ∈ s.belowQuota n
  · exact (Deal.level_within hnodup hbelow hmem _).trans (le_max_right _ _)
  · rw [Deal.received_of_not_mem (by rwa [Deal.level_fst])]
    exact le_max_left _ _

/-- The first worker above the quota gets what the others have no room for. -/
theorem received_first {s : State} (hn : s.workers.Nodup) {n : Nat} {w₀ : WorkerId}
    (h : s.firstAbove n = some w₀) :
    (Deal.received (Deal.seat (s.rooms n)) s.pendingGroups w₀).length =
      s.pendingGroups.length + ((s.belowQuota n).map s.load).sum -
        (s.belowQuota n).length * s.quota n := by
  obtain ⟨habove, post, horder⟩ := order_of_some h
  have hbelow := fun v (hv : v ∈ s.belowQuota n) => load_belowQuota hv
  have hseats := Deal.level_seats hbelow
  have hw₀ : w₀ ∉ (Deal.level (s.quota n) s.load (s.belowQuota n)).map Prod.fst := by
    rw [Deal.level_fst]
    exact fun hmem => absurd (hbelow w₀ hmem) (by omega)
  rw [rooms_eq hn, horder, Deal.level_above hbelow habove, Deal.received_of_not_mem hw₀, if_pos rfl,
    List.nil_append, List.length_drop]
  omega

theorem firstAbove_mem {s : State} {n : Nat} {w₀ : WorkerId} (h : s.firstAbove n = some w₀) :
    w₀ ∈ s.workers := by
  obtain ⟨_, post, horder⟩ := order_of_some h
  have hmem : w₀ ∈ s.order n := by
    rw [horder]
    simp
  rcases List.mem_append.mp hmem with hmem | hmem
  · exact List.take_subset _ _ (List.drop_subset _ _ hmem)
  · exact List.take_subset _ _ hmem

end State

/-- **Growing evens out** exactly when it returns and what is left for the first
worker above the quota fits. -/
theorem evens_out_iff {E : Env} {s : State} {n : Nat} (hn : s.workers.Nodup) (h₁ : s.size < n)
    (h₂ : n ≤ s.workers.length) (hnew : ∀ w ∈ s.workers, w ∉ s.pool → s.held w = []) :
    s.EvensOut E n ↔ s.GrowSafe ∧ s.FirstFits n := by
  have hquota := s.quota_le_share n
  unfold State.EvensOut
  rw [State.balance_eq_grow h₁]
  simp only [State.grow_eq_ok hn h₁ h₂]
  constructor
  · rintro ⟨_, ⟨hsafe, rfl⟩, heven⟩
    refine ⟨hsafe, fun w₀ hw₀ => ?_⟩
    have hle := heven w₀ (State.firstAbove_mem hw₀)
    rw [State.grown_length hnew n (State.firstAbove_mem hw₀), State.leftOn_eq hsafe,
      State.received_first hn hw₀] at hle
    omega
  · rintro ⟨hsafe, hfits⟩
    refine ⟨_, ⟨hsafe, rfl⟩, fun w hw => ?_⟩
    rw [State.grown_length hnew n hw, State.leftOn_eq hsafe]
    by_cases hfirst : s.firstAbove n = some w
    · have hfit := hfits w hfirst
      rw [State.received_first hn hfirst]
      omega
    · have hne := State.load_of_ne hn h₁.le (n := n) (w := w)
        (fun w₀ hw₀ hww => hfirst (by rw [hww, hw₀]))
      exact hne.trans (max_le_max_left _ hquota)

/-- Two groups have been run and one has not: it goes to the new worker. -/
theorem evens_out_one_pending : ∃ s, run (step .debug) (State.new .debug 1)
    [.createTaskRunner 5 1 true, .createTaskRunner 5 1 true, .runTask 0 fun _ => 0,
      .runTask 0 fun _ => 0, .createTaskRunner 5 1 true] = .ok s ∧
    (s.createWorkers .debug 1).EvensOut .debug 2 := by
  refine ⟨_, run_last (by decide), (evens_out_iff (by decide) (by decide) (by decide)
    (by decide)).mpr ⟨⟨by decide, fun _ => ?_⟩, by decide⟩⟩
  have hpending : ∀ r ∈ (((last (step .debug) (State.new .debug 1)
      [.createTaskRunner 5 1 true, .createTaskRunner 5 1 true, .runTask 0 fun _ => 0,
        .runTask 0 fun _ => 0, .createTaskRunner 5 1 true]).createWorkers .debug
          1).pendingGroups).flatten, r = 2 := by decide
  intro r hr
  rw [hpending r hr]
  exact ⟨0, by decide⟩

/-- One group has been run and two have not: the quota is 0, and the old worker,
which is above it, gets both. -/
theorem first_above_gets_rest : ∃ s, run (step .debug) (State.new .debug 1)
    [.createTaskRunner 5 1 true, .runTask 0 fun _ => 0, .createTaskRunner 5 1 true,
      .createTaskRunner 5 1 true] = .ok s ∧ ¬ (s.createWorkers .debug 1).EvensOut .debug 2 := by
  refine ⟨_, run_last (by decide), ?_⟩
  rintro ⟨s', hs, heven⟩
  have hlen : (((last (step .debug) (State.new .debug 1) [.createTaskRunner 5 1 true,
      .runTask 0 fun _ => 0, .createTaskRunner 5 1 true, .createTaskRunner 5 1 true]).createWorkers
        .debug 1).balance .debug 1).toOption.map (fun s' => (s'.held 0).length) = some 3 := by
    decide
  have hone : ((2 : Nat) : Int) - ((last (step .debug) (State.new .debug 1)
      [.createTaskRunner 5 1 true, .runTask 0 fun _ => 0, .createTaskRunner 5 1 true,
        .createTaskRunner 5 1 true]).createWorkers .debug 1).size = 1 := by decide
  rw [hone] at hs
  rw [hs] at hlen
  simp only [Except.toOption, Option.map_some, Option.some.injEq] at hlen
  have hle := heven 0 (by decide)
  rw [hlen] at hle
  revert hle
  decide

end Footstone
