import Footstone.GetNextTask
import Footstone.Lib.StableSort
import Mathlib.Data.Int.ConditionallyCompleteOrder
import Mathlib.Data.UInt
import Mathlib.Order.ConditionallyCompleteLattice.Basic

/-!
What the sort and balance steps of `GetNextTask` make of the two lists of groups:
the order in which `SortNoLock` leaves the running groups, and the place at which
`BalanceNoLock` puts the pending ones.
-/

namespace Footstone

open StableSort

namespace Worker

/-! ## Sorting -/

/-- The product of priority and time, neither narrowed nor wrapped. -/
def trueWeight (runner : Runners) : Group → Int
  | [] => 0
  | r :: _ => (runner r).priority.toNat * (runner r).time.toInt

/-- `SortNoLock` returns the groups in the order of their true weights. -/
def SortsByTrueWeight (runner : Runners) (groups : List Group) : Prop :=
  ∃ sorted, sortNoLock runner groups = .ok sorted ∧
    IsStableSort (trueWeight runner) groups sorted

/-- The groups by the weight the comparator computes. -/
def byWeight (runner : Runners) (groups : List Group) : List Group :=
  groups.insertionSort fun a b => (weight runner a).toInt ≤ (weight runner b).toInt

theorem byWeight_eq (runner : Runners) (groups : List Group) :
    (groups.insertionSort fun a b => weight runner a ≤ weight runner b) = byWeight runner groups :=
  insertionSort_congr (List.pairwise_of_forall fun _ _ => Int64.le_iff_toInt_le)

theorem sortNoLock_eq {runner : Runners} {groups : List Group} (h : [] ∉ groups) :
    sortNoLock runner groups = .ok (byWeight runner groups) := by
  rw [sortNoLock, if_neg fun hc => h hc.2, byWeight_eq]

/-- The weight in terms of the integers it is computed from. -/
theorem weight_toInt (runner : Runners) (r : RunnerId) (rs : List RunnerId) :
    (weight runner (r :: rs)).toInt =
      (((runner r).priority.toNat : Int).bmod (2 ^ 32) * (runner r).time.toInt).bmod (2 ^ 64) := by
  have hnarrow : ∀ x : UInt32, x.toInt32.toInt = (x.toNat : Int).bmod (2 ^ 32) := by
    intro x
    rw [← Int32.toInt_toBitVec, UInt32.toBitVec_toInt32, BitVec.toInt_eq_toNat_bmod,
      UInt32.toNat_toBitVec]
  rw [weight, Int64.toInt_mul, Int32.toInt_toInt64, hnarrow]

/-- Nothing is lost while the priority fits an `int32_t` and the product an `int64_t`. -/
theorem weight_eq_trueWeight {runner : Runners} {r : RunnerId} {rs : List RunnerId}
    (hpriority : (runner r).priority.toNat < 2 ^ 31) (htime : 0 ≤ (runner r).time.toInt)
    (hweight : trueWeight runner (r :: rs) < 2 ^ 63) :
    (weight runner (r :: rs)).toInt = trueWeight runner (r :: rs) := by
  have hpos : 0 ≤ trueWeight runner (r :: rs) := Int.mul_nonneg (Int.natCast_nonneg _) htime
  have hpriority' : ((runner r).priority.toNat : Int).bmod (2 ^ 32) = (runner r).priority.toNat :=
    Int.bmod_eq_of_le (by omega) (by omega)
  rw [weight_toInt, hpriority']
  change (trueWeight runner (r :: rs)).bmod (2 ^ 64) = _
  exact Int.bmod_eq_of_le (by omega) (by omega)

/-- The weights of all groups are computed right. -/
def SmallWeights (runner : Runners) (groups : List Group) : Prop :=
  ∀ g ∈ groups, ∀ r ∈ g.head?, (runner r).priority.toNat < 2 ^ 31 ∧
    0 ≤ (runner r).time.toInt ∧ trueWeight runner g < 2 ^ 63

instance (runner : Runners) (groups : List Group) : Decidable (SmallWeights runner groups) :=
  inferInstanceAs (Decidable (∀ g ∈ groups, ∀ r ∈ g.head?, _))

/-- Small priorities and times are sorted as intended. -/
theorem SmallWeights.isStableSort {runner : Runners} {groups : List Group}
    (hsmall : SmallWeights runner groups) (h : [] ∉ groups) :
    IsStableSort (trueWeight runner) groups (byWeight runner groups) := by
  have heq : ∀ g ∈ groups, (weight runner g).toInt = trueWeight runner g := by
    intro g hg
    cases g with
    | nil => exact absurd hg h
    | cons r rs =>
      obtain ⟨hpriority, htime, hweight⟩ := hsmall _ hg r rfl
      exact weight_eq_trueWeight hpriority htime hweight
  have hcongr : byWeight runner groups =
      groups.insertionSort fun a b => trueWeight runner a ≤ trueWeight runner b := by
    refine insertionSort_congr (List.Pairwise.imp_of_mem ?_ (List.pairwise_of_forall
      fun _ _ => trivial))
    intro a b ha hb _
    rw [heq a ha, heq b hb]
  rw [hcongr]
  exact isStableSort_insertionSort _ groups

/-- **`SortNoLock` sorts by true weight** exactly when, of any two groups of the list,
the comparator puts the later one first if and only if its true weight is smaller. -/
theorem sortsByTrueWeight_iff {runner : Runners} {groups : List Group} (h : [] ∉ groups) :
    SortsByTrueWeight runner groups ↔ groups.Pairwise fun a b =>
      weight runner b < weight runner a ↔ trueWeight runner b < trueWeight runner a := by
  have hlt : ∀ a b, weight runner b < weight runner a ↔
      (weight runner b).toInt < (weight runner a).toInt := fun _ _ => Int64.lt_iff_toInt_lt
  simp only [SortsByTrueWeight, sortNoLock_eq h, Except.ok.injEq, exists_eq_left', hlt]
  exact isStableSort_iff _ _ _

end Worker

/-- The priority of every runner but the first is negative as an `int32_t`. -/
def heavyRunner : Runners
  | 0 => { priority := 1, groupId := 0, time := 1, isSchedulable := true }
  | _ => { priority := 2 ^ 31, groupId := 0, time := 1, isSchedulable := true }

/-- Small weights are left alone. -/
theorem sortsByTrueWeight_pair : Worker.SortsByTrueWeight heavyRunner [[0], [0, 1]] :=
  (Worker.sortsByTrueWeight_iff (by decide)).mpr (by decide)

/-- A priority of `2 ^ 31` goes before a priority of 1. -/
theorem sort_narrows : ¬ Worker.SortsByTrueWeight heavyRunner [[0], [1]] := by
  rintro ⟨sorted, hsort, hstable⟩
  have hsorted : sorted = [[1], [0]] := (Except.ok.inj hsort).symm
  subst hsorted
  exact absurd hstable.sorted (by decide)

namespace Worker

/-! ## Balancing -/

/-- The sort and balance steps of `GetNextTask`. -/
def sortBalance (runner : Runners) (w : Worker) : Except Fault (Runners × Worker) := do
  let groups ← sortStage runner w.runningGroups
  balanceStage runner { w with runningGroups := groups }

/-- With no immediate task, `GetNextTask` starts with these steps. -/
theorem getNextTask_sortBalance (E : Env) (clock : Nat → TimePoint) (runner : Runners) {w : Worker}
    (h : w.immediateTaskQueue = []) : w.getNextTask E clock runner = do
      let (runner, w) ← sortBalance runner w
      let (found, st) ← scanGroups E (clock 0) (fun i => clock (i + 1)) 0 w.runningGroups
        { runner := runner, worker := w }
      return (outcome found st, st.runner, st.worker) := by
  unfold getNextTask sortBalance
  rw [h]
  cases sortStage runner w.runningGroups <;> rfl

/-- The time of the first runner of the first group, 0 if there is none. -/
def leaderTime (runner : Runners) : List Group → TimeDelta
  | (r :: _) :: _ => (runner r).time
  | _ => 0

/-- The pending groups right behind the first one. -/
def behindLeader (pending : List Group) : List Group → List Group
  | [] => pending
  | g :: gs => g :: (pending ++ gs)

/-- After the sort and balance steps the pending groups are behind the group that the
sort put first, and their runners have its time. -/
def EntersBehindLeader (runner : Runners) (w : Worker) : Prop :=
  ∃ sorted runner' w', sortStage runner w.runningGroups = .ok sorted ∧
    sortBalance runner w = .ok (runner', w') ∧
    w'.runningGroups = behindLeader w.pendingGroups sorted ∧ w'.pendingGroups = [] ∧
    w'.runningGroups.Perm (w.runningGroups ++ w.pendingGroups) ∧
    ∀ r ∈ w.pendingGroups.flatten, (runner' r).time = leaderTime runner sorted

theorem sortStage_byWeight {runner : Runners} {groups : List Group} (h : [] ∉ groups) :
    sortStage runner groups = .ok (byWeight runner groups) := by
  obtain ⟨sorted, hs⟩ := sortStage_ok runner h
  rw [hs, sortStage_eq hs, byWeight_eq]

/-- What `BalanceNoLock` does in every case: the pending groups go in front. -/
theorem balanceNoLock_spec (runner : Runners) {w : Worker} (h : [] ∉ w.runningGroups) :
    ∃ runner', balanceNoLock runner w = .ok (runner', { w with
        runningGroups := w.pendingGroups ++ w.runningGroups, pendingGroups := [] }) ∧
      ∀ r ∈ w.pendingGroups.flatten, (runner' r).time = leaderTime runner w.runningGroups := by
  unfold balanceNoLock
  split
  · rename_i hp
    refine ⟨runner, ?_, by simp [hp]⟩
    obtain ⟨⟩ := w
    simp only at hp
    subst hp
    rfl
  · rename_i hr
    simp [hr] at h
  · rename_i pending running _ _
    refine ⟨_, rfl, fun r hr => ?_⟩
    rw [setTimes, if_pos hr]
    cases running with
    | nil => rfl
    | cons g gs => cases g <;> rfl

/-- The two steps put the pending groups in front of all sorted ones. -/
theorem sortBalance_spec (runner : Runners) {w : Worker} (h : [] ∉ w.runningGroups)
    (hneed : w.needBalance = true) :
    ∃ runner' w', sortBalance runner w = .ok (runner', w') ∧
      w'.runningGroups = w.pendingGroups ++ byWeight runner w.runningGroups ∧
      w'.pendingGroups = [] ∧
      ∀ r ∈ w.pendingGroups.flatten,
        (runner' r).time = leaderTime runner (byWeight runner w.runningGroups) := by
  have hne : [] ∉ byWeight runner w.runningGroups := by simpa [byWeight] using h
  obtain ⟨runner', hb, htime⟩ := balanceNoLock_spec runner
    (w := { w with runningGroups := byWeight runner w.runningGroups }) hne
  refine ⟨runner', { w with
    runningGroups := w.pendingGroups ++ byWeight runner w.runningGroups, pendingGroups := [],
    needBalance := false }, ?_, rfl, rfl, htime⟩
  rw [sortBalance, sortStage_byWeight h]
  change balanceStage runner { w with runningGroups := byWeight runner w.runningGroups } = _
  rw [balanceStage, if_pos hneed]
  exact Runs.bind_eq_ok.mpr ⟨_, hb, rfl⟩

theorem append_eq_cons_append {pending gs : List Group} {g : Group} :
    pending ++ g :: gs = g :: (pending ++ gs) ↔ ∀ x ∈ pending, x = g := by
  induction pending with
  | nil => simp
  | cons a pending ih =>
    rw [List.cons_append, List.cons_append, List.cons.injEq, List.forall_mem_cons]
    constructor
    · rintro ⟨rfl, h⟩
      exact ⟨rfl, ih.mp h⟩
    · rintro ⟨rfl, h⟩
      exact ⟨rfl, ih.mpr h⟩

/-- **The pending groups enter behind the leader** exactly when there are none, or
there is no running group, or each of them is the leading group once more. -/
theorem entersBehindLeader_iff {runner : Runners} {w : Worker} (h : [] ∉ w.runningGroups)
    (hneed : w.needBalance = true) : EntersBehindLeader runner w ↔
      w.pendingGroups = [] ∨ w.runningGroups = [] ∨
        ∀ g ∈ w.pendingGroups, w.runningGroups.argmin (fun g => (weight runner g).toInt) = some g := by
  obtain ⟨runner', w', hb, hrun, hpending, htime⟩ := sortBalance_spec runner h hneed
  have hperm : w'.runningGroups.Perm (w.runningGroups ++ w.pendingGroups) := by
    rw [hrun]
    exact List.perm_append_comm.trans ((List.perm_insertionSort _ _).append_right _)
  have hiff : EntersBehindLeader runner w ↔
      w.pendingGroups ++ byWeight runner w.runningGroups =
        behindLeader w.pendingGroups (byWeight runner w.runningGroups) := by
    constructor
    · rintro ⟨sorted, runner₁, w₁, hs, hb₁, hrun₁, -⟩
      obtain rfl := Except.ok.inj ((sortStage_byWeight h).symm.trans hs)
      obtain ⟨-, rfl⟩ := Prod.mk.inj (Except.ok.inj (hb.symm.trans hb₁))
      rw [← hrun₁, hrun]
    · intro he
      exact ⟨_, runner', w', sortStage_byWeight h, hb, hrun.trans he, hpending, hperm, htime⟩
  have hhead : w.runningGroups.argmin (fun g => (weight runner g).toInt) =
      (byWeight runner w.runningGroups).head? := (head?_insertionSort _ _).symm
  have hnil : byWeight runner w.runningGroups = [] ↔ w.runningGroups = [] := by
    rw [← List.length_eq_zero_iff, byWeight, List.length_insertionSort, List.length_eq_zero_iff]
  rw [hiff, hhead, ← hnil]
  cases byWeight runner w.runningGroups with
  | nil => simp [behindLeader]
  | cons g gs =>
    simp only [behindLeader, append_eq_cons_append, List.head?_cons, reduceCtorEq, false_or,
      Option.some.injEq]
    constructor
    · exact fun hall => Or.inr fun x hx => (hall x hx).symm
    · rintro (hp | hall) x hx
      · simp [hp] at hx
      · exact (hall x hx).symm

end Worker

/-- Bound to a worker with no running group, a group enters where it should. -/
theorem entersBehindLeader_first : Worker.EntersBehindLeader heavyRunner
    { pendingGroups := [[0], [1]], needBalance := true, groupId := 0 } :=
  (Worker.entersBehindLeader_iff (by decide) rfl).mpr (Or.inr (Or.inl rfl))

/-- With one group running, a newly bound one goes before it. -/
theorem enters_before_leader : ¬ Worker.EntersBehindLeader heavyRunner
    { runningGroups := [[0]], pendingGroups := [[1]], needBalance := true, groupId := 0 } := by
  rintro ⟨sorted, runner', w', hs, hb, hrun, -⟩
  obtain rfl : sorted = [[0]] := (Except.ok.inj hs).symm
  obtain ⟨-, rfl⟩ := Prod.mk.inj (Except.ok.inj hb)
  exact absurd hrun (by decide)

end Footstone
