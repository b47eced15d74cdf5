import Footstone.Worker
import Mathlib.Data.List.Perm.Basic

/-!
The two calls that split the groups of a worker, `RetainActiveAndUnschedulable`
and `Retain`. The first tests the wrong way round and steps on from a group it
has spliced out; the second steps on from a group it has erased.
-/

namespace Footstone

namespace Worker

/-! ## `RetainActiveAndUnschedulable` -/

/-- Some runner of the group is not schedulable. -/
def hasUnschedulable (runner : Runners) (g : Group) : Bool :=
  g.any fun r => !(runner r).isSchedulable

/-- The call returns, the first running group and those with an unschedulable
runner stay, and of the others nothing is lost. -/
def SplitsCorrectly (runner : Runners) (w : Worker) : Prop :=
  ∃ ret w', w.retainActiveAndUnschedulable runner = .ok (ret, w') ∧
    w'.runningGroups =
      w.runningGroups.take 1 ++ w.runningGroups.tail.filter (hasUnschedulable runner) ∧
    ret = w.runningGroups.tail.filter (fun g => !hasUnschedulable runner g) ++
      w.pendingGroups.filter (fun g => !hasUnschedulable runner g) ∧
    (ret ++ w'.held).Perm w.held

/-- Every group behind the first has runners of both kinds, and nothing
unschedulable is pending. -/
def NothingToSplit (runner : Runners) (w : Worker) : Prop :=
  RetainSafe runner w ∧ (∀ g ∈ w.runningGroups.tail, hasUnschedulable runner g = true) ∧
    ∀ g ∈ w.pendingGroups, hasUnschedulable runner g = false

instance (runner : Runners) (w : Worker) : Decidable (NothingToSplit runner w) :=
  inferInstanceAs (Decidable (_ ∧ (∀ g ∈ _, _) ∧ ∀ g ∈ _, _))

/-- The groups released with a call that returns are the pending ones. -/
theorem retained_perm (w : Worker) : (w.pendingGroups ++ w.retained.held).Perm w.held := by
  have h : w.retained.held = w.runningGroups := by simp [retained, held]
  rw [h]
  exact List.perm_append_comm

/-- **A correct split.** `RetainActiveAndUnschedulable` splits as it should
exactly when every running group behind the first has a schedulable and an
unschedulable runner, and no pending group has an unschedulable one. -/
theorem splitsCorrectly_iff (runner : Runners) (w : Worker) :
    w.SplitsCorrectly runner ↔ w.NothingToSplit runner := by
  have htake : w.runningGroups.take 1 ++ w.runningGroups.tail = w.runningGroups := by
    cases w.runningGroups <;> simp
  constructor
  · rintro ⟨ret, w', hok, hrunning, hret, -⟩
    obtain ⟨hsafe, rfl, rfl⟩ := retain_eq_ok.mp hok
    -- All running groups stay, so the filter has to keep everything behind the first.
    have hkept : w.runningGroups.tail.filter (hasUnschedulable runner) = w.runningGroups.tail := by
      refine (List.append_right_inj (w.runningGroups.take 1)).mp ?_
      rw [htake]
      exact hrunning.symm
    have hall := List.filter_eq_self.mp hkept
    have hnone : w.runningGroups.tail.filter (fun g => !hasUnschedulable runner g) = [] := by
      refine List.filter_eq_nil_iff.mpr fun g hg => ?_
      simp [hall g hg]
    rw [hnone, List.nil_append] at hret
    refine ⟨hsafe, hall, fun g hg => ?_⟩
    simpa using List.filter_eq_self.mp hret.symm g hg
  · rintro ⟨hsafe, hall, hpending⟩
    refine ⟨_, _, retain_eq_ok.mpr ⟨hsafe, rfl, rfl⟩, ?_, ?_, w.retained_perm⟩
    · rw [List.filter_eq_self.mpr hall, htake]
      rfl
    · have hnone : w.runningGroups.tail.filter (fun g => !hasUnschedulable runner g) = [] := by
        refine List.filter_eq_nil_iff.mpr fun g hg => ?_
        simp [hall g hg]
      rw [hnone, List.nil_append]
      refine (List.filter_eq_self.mpr fun g hg => ?_).symm
      simp [hpending g hg]

end Worker

/-- Two groups of schedulable runners: the second one should go, and stays. -/
theorem schedulable_group_stays :
    ¬ Worker.SplitsCorrectly (fun _ => { priority := 1, groupId := 0, isSchedulable := true })
      { runningGroups := [[0], [1]], groupId := 0 } := by
  rintro ⟨ret, w', hok, hrunning, -⟩
  obtain ⟨-, -, rfl⟩ := Worker.retain_eq_ok.mp hok
  revert hrunning
  decide

namespace Worker

/-! ## `Retain` -/

/-- The loop of `Retain`, with the group it has found and the groups it leaves. A
group with `r` in it is erased and only the inner loop is left, so that the next
`++` goes through the erased iterator. -/
def retainScan (r : RunnerId) : List Group → Group → Except Fault (Group × List Group)
  | [], group => .ok (group, [])
  | g :: gs, group =>
    if r ∈ g then .error .iterator
    else do
      let (group, rest) ← retainScan r gs group
      return (group, g :: rest)

/-- `Retain`: `running_groups_ = {group}` is a list of one group, found or not. -/
def retain (r : RunnerId) (w : Worker) : Except Fault (List Group × Worker) := do
  let (group, ret) ← retainScan r w.runningGroups []
  return (ret, { w with runningGroups := [group] })

/-- The call returns; of the running groups the one with the runner stays, or
none. -/
def KeepsOne (r : RunnerId) (w : Worker) : Prop :=
  ∃ ret w', w.retain r = .ok (ret, w') ∧
    ((∃ pre g post, w.runningGroups = pre ++ g :: post ∧ r ∈ g ∧ w'.runningGroups = [g] ∧
        ret = pre ++ post) ∨
      ((∀ g ∈ w.runningGroups, r ∉ g) ∧ w'.runningGroups = [] ∧ ret = w.runningGroups))

theorem retainScan_eq_ok {r : RunnerId} {gs rest : List Group} {group group' : Group} :
    retainScan r gs group = .ok (group', rest) ↔
      (∀ g ∈ gs, r ∉ g) ∧ group' = group ∧ rest = gs := by
  induction gs generalizing rest group' with
  | nil => simp [retainScan, eq_comm]
  | cons g gs ih =>
    rw [retainScan]
    split
    · rename_i hr
      simp [hr]
    · rename_i hr
      simp only [Runs.bind_eq_ok, Prod.exists, ih, List.forall_mem_cons, hr, not_false_eq_true,
        true_and]
      constructor
      · rintro ⟨_, _, ⟨hall, rfl, rfl⟩, h⟩
        cases h
        exact ⟨hall, rfl, rfl⟩
      · rintro ⟨hall, rfl, rfl⟩
        exact ⟨_, _, ⟨hall, rfl, rfl⟩, rfl⟩

/-- `Retain` returns only when no running group has the runner. It releases them
all then, and an empty group takes their place. -/
theorem retain_one_eq_ok {r : RunnerId} {w w' : Worker} {ret : List Group} :
    w.retain r = .ok (ret, w') ↔
      (∀ g ∈ w.runningGroups, r ∉ g) ∧ ret = w.runningGroups ∧
        w' = { w with runningGroups := [[]] } := by
  simp only [retain, Runs.bind_eq_ok, Prod.exists, retainScan_eq_ok]
  constructor
  · rintro ⟨_, _, ⟨hall, rfl, rfl⟩, h⟩
    cases h
    exact ⟨hall, rfl, rfl⟩
  · rintro ⟨hall, rfl, rfl⟩
    exact ⟨_, _, ⟨hall, rfl, rfl⟩, rfl⟩

/-- **Retaining one group.** `Retain` does what it should for no worker and no
runner. -/
theorem retain_never_keepsOne (r : RunnerId) (w : Worker) : ¬ w.KeepsOne r := by
  rintro ⟨ret, w', hok, h⟩
  obtain ⟨hall, -, rfl⟩ := retain_one_eq_ok.mp hok
  rcases h with ⟨pre, g, post, hgs, hr, -⟩ | ⟨-, hempty, -⟩
  · exact hall g (by simp [hgs]) hr
  · simp at hempty

end Worker

/-- One running group: looking for its runner goes through an erased iterator, and
looking for another one leaves an empty group. -/
theorem retain_fails_on_one_group :
    ¬ Worker.KeepsOne 0 { runningGroups := [[0]], groupId := 0 } ∧
      ¬ Worker.KeepsOne 1 { runningGroups := [[0]], groupId := 0 } := by
  constructor
  · rintro ⟨ret, w', hok, -⟩
    obtain ⟨hall, -⟩ := Worker.retain_one_eq_ok.mp hok
    exact hall [0] (by simp) (by simp)
  · rintro ⟨ret, w', hok, ⟨pre, g, post, hgs, hr, -⟩ | ⟨-, hempty, -⟩⟩
    · have hg : g ∈ [[0]] := by
        rw [show [[0]] = pre ++ g :: post from hgs]
        simp
      rw [List.mem_singleton.mp hg] at hr
      simp at hr
    · obtain ⟨-, -, rfl⟩ := Worker.retain_one_eq_ok.mp hok
      simp at hempty

end Footstone
