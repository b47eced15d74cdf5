import Footstone.WellFormed
import Mathlib.Data.List.Flatten
import Mathlib.Data.List.Pairwise

/-!
The shape of the groups: when every runner occurs at most once in all the groups
of the pool, and when no group is empty. Both hold in a new pool. The first is
lost when a runner that has a place is stacked on another, the second when the
only runner of a group is removed.
-/

namespace Footstone

open Runs
open scoped List

namespace State

variable {E : Env}

/-! ## One place for every runner -/

/-- Adding to the list of one of several distinct places. -/
theorem flatMap_update_perm {γ : Type*} {ws : List WorkerId} (hn : ws.Nodup) {w : WorkerId}
    (hw : w ∈ ws) (f : WorkerId → List γ) {x l : List γ} (h : x.Perm (f w ++ l)) :
    (ws.flatMap (Function.update f w x)).Perm (ws.flatMap f ++ l) := by
  induction ws with
  | nil => cases hw
  | cons v ws ih =>
    obtain ⟨hv, hn'⟩ := List.nodup_cons.mp hn
    rw [List.flatMap_cons, List.flatMap_cons]
    by_cases e : v = w
    · subst e
      have hrest : ws.flatMap (Function.update f v x) = ws.flatMap f :=
        List.flatMap_congr fun u hu => Function.update_of_ne (ne_of_mem_of_not_mem hu hv) _ _
      rw [Function.update_self, hrest]
      calc x ++ ws.flatMap f
          _ ~ f v ++ l ++ ws.flatMap f := h.append_right _
          _ ~ f v ++ (ws.flatMap f ++ l) := by
            rw [List.append_assoc]
            exact List.perm_append_comm.append_left _
          _ ~ f v ++ ws.flatMap f ++ l := by rw [List.append_assoc]
    · have hw' : w ∈ ws := (List.mem_cons.mp hw).resolve_left (Ne.symm e)
      rw [Function.update_of_ne e, List.append_assoc]
      exact (ih hn' hw').append_left _

theorem flatten_allGroups (s : State) :
    s.allGroups.flatten = s.workers.flatMap fun w => (s.held w).flatten := by
  simp [allGroups, List.flatMap_def, List.flatten_flatten, Function.comp_def]

/-- Editing the groups of one worker edits the runners of that worker. -/
theorem flatten_allGroups_update {s s' : State} {w : WorkerId} {gs : List Group}
    (hworkers : s'.workers = s.workers) (hheld : s'.held = Function.update s.held w gs) :
    s'.allGroups.flatten =
      s.workers.flatMap (Function.update (fun v => (s.held v).flatten) w gs.flatten) := by
  rw [flatten_allGroups, hworkers, hheld]
  refine List.flatMap_congr fun v _ => ?_
  by_cases h : v = w
  · subst h; simp
  · simp [h]

theorem Created.flatten_perm {s s' : State} {w : WorkerId} {groupId priority : UInt32}
    (h : Created s s' w groupId priority) (hw : w ∈ s.workers) (hs : s.Wf) :
    s'.allGroups.flatten.Perm (s.allGroups.flatten ++ [s.globalTaskRunnerId]) := by
  rw [flatten_allGroups_update h.workers h.held, flatten_allGroups s]
  exact flatMap_update_perm hs.nodup hw _ (by simp)

theorem pushChild_flatten_perm {father child : RunnerId} {gs gs' : List Group}
    (h : Worker.pushChild father child gs = some gs') : gs'.flatten.Perm (gs.flatten ++ [child]) := by
  obtain ⟨pre, g, post, rfl, -, rfl⟩ := Worker.mem_pushChild h
  simp only [List.flatten_append, List.flatten_cons, List.append_assoc]
  exact (List.perm_append_comm.append_left g).append_left pre.flatten

/-- A resize neither copies a group nor a runner. -/
theorem resize_nodup {s s' : State} (hs : s.Wf) {n : Nat} (h : s.resize E n = .ok s')
    (hp : s.allGroups.flatten.Nodup) : s'.allGroups.flatten.Nodup := by
  have hnodup := (resize_allGroups hs h).flatten.nodup_iff.mpr hp
  rw [List.flatten_append] at hnodup
  exact hnodup.of_append_left

/-- The condition for a runner to stay in one place. -/
def StacksOnce (s : State) : Op → Prop
  | .addSubTaskRunner r sub _ => (s.runner r).worker = none ∨ ∀ w, ¬ s.Holds w sub
  | _ => True

theorem Effect.nodup_iff {s s' : State} {op : Op} (h : Effect E s op s') (hs : s.Wf)
    (hp : s.allGroups.flatten.Nodup) : s'.allGroups.flatten.Nodup ↔ s.StacksOnce op := by
  have hfresh : s.globalTaskRunnerId ∉ s.allGroups.flatten := by
    intro hm
    obtain ⟨w, hw⟩ := hs.mem_flatten.mp hm
    exact absurd (hs.known w _ hw) (Nat.lt_irrefl _)
  cases h with
  | tasks hop h hbusy =>
    have hcond : s.StacksOnce op := by cases op <;> trivial
    exact iff_of_true (h.allGroups_perm.flatten.nodup_iff.mpr hp) hcond
  | made groupId priority => exact iff_of_true hp trivial
  | created hspot h =>
    refine iff_of_true ?_ trivial
    rw [(h.flatten_perm (spot_mem hspot) hs).nodup_iff, List.nodup_append_comm]
    exact List.nodup_cons.mpr ⟨hfresh, hp⟩
  | notStacked hr =>
    rw [hs.lock] at hr
    exact iff_of_true hp (Or.inl hr)
  | @stacked r sub b w gs _ hr hsub hgs h hbusy hheld =>
    have hw := (lock_eq_some.mp hr)
    have hperm : s'.allGroups.flatten.Perm (s.allGroups.flatten ++ [sub]) := by
      rw [flatten_allGroups_update h.workers hheld, flatten_allGroups s]
      exact flatMap_update_perm hs.nodup hw.2 _ (pushChild_flatten_perm hgs)
    rw [hperm.nodup_iff, List.nodup_append_comm, List.singleton_append, List.nodup_cons,
      hs.mem_flatten, not_exists]
    simp [StacksOnce, hw.1, hp]
  | notUnstacked hr => exact iff_of_true hp trivial
  | @unstacked r sub w _ hsub hr h hbusy hheld =>
    refine iff_of_true (hp.sublist ?_) trivial
    rw [flatten_allGroups_update h.workers hheld, flatten_allGroups s]
    refine List.Sublist.flatMap_right _ fun v _ => ?_
    by_cases hv : v = w
    · subst hv
      rw [Function.update_self, Worker.erased_flatten]
      exact List.erase_sublist
    · rw [Function.update_of_ne hv]
  | removed h hbusy hheld hrest =>
    refine iff_of_true (hp.sublist ?_) trivial
    rw [flatten_allGroups s', flatten_allGroups s, h.workers]
    refine List.Sublist.flatMap_right _ fun v hv => ?_
    rw [hheld v hv, Worker.erased_flatten]
    exact List.erase_sublist
  | resized h => exact iff_of_true (resize_nodup hs h hp) trivial
  | workerAdded h => exact iff_of_true (resize_nodup hs h hp) trivial

/-- No two workers hold a runner that occurs once. -/
theorem holds_unique {s : State} (hs : s.Wf) {r : RunnerId} (hp : s.allGroups.flatten.count r ≤ 1)
    {v w : WorkerId} (hv : s.Holds v r) (hw : s.Holds w r) : v = w := by
  by_contra hne
  have hpos : ∀ {u}, s.Holds u r → 0 < (s.held u).flatten.count r := by
    rintro u ⟨g, hg, hr⟩
    exact List.count_pos_iff.mpr (List.mem_flatten.mpr ⟨g, hg, hr⟩)
  have hw' : w ∈ s.workers.erase v := (List.mem_erase_of_ne (Ne.symm hne)).mpr (hs.mem_of_holds hw)
  have hperm : s.workers ~ v :: w :: (s.workers.erase v).erase w :=
    (List.perm_cons_erase (hs.mem_of_holds hv)).trans ((List.perm_cons_erase hw').cons v)
  have hsum := (hperm.map fun u => (s.held u).flatten.count r).sum_eq
  rw [flatten_allGroups, List.count_flatMap] at hp
  simp only [Function.comp_def, List.map_cons, List.sum_cons] at hp hsum
  have := hpos hv
  have := hpos hw
  omega

/-! ## No empty group -/

theorem nil_mem_allGroups {s : State} : [] ∈ s.allGroups ↔ ∃ w ∈ s.workers, [] ∈ s.held w :=
  List.mem_flatMap

/-- The condition for no group to be left empty: the first group of a worker that
contains the runner to be erased has somebody else in it. -/
def LeavesNoEmpty (s : State) : Op → Prop
  | .removeTaskRunner r => ∀ w ∈ s.workers, (s.held w).find? (r ∈ ·) ≠ some [r]
  | .removeSubTaskRunner r sub => (s.runner r).hasSubRunner = true →
      ∀ w, (s.runner r).worker = some w → (s.held w).find? (sub ∈ ·) ≠ some [sub]
  | _ => True

theorem resize_nil {s s' : State} (hs : s.Wf) {n : Nat} (h : s.resize E n = .ok s')
    (hp : [] ∉ s.allGroups) : [] ∉ s'.allGroups :=
  fun hm => hp ((resize_allGroups hs h).subset (List.mem_append_left _ hm))

/-- Editing the groups of one worker that had no empty group. -/
theorem nil_mem_update {s s' : State} {w : WorkerId} {gs : List Group} (hw : w ∈ s.workers)
    (hworkers : s'.workers = s.workers) (hheld : s'.held = Function.update s.held w gs)
    (hp : [] ∉ s.allGroups) : [] ∈ s'.allGroups ↔ [] ∈ gs := by
  rw [nil_mem_allGroups, hworkers, hheld]
  constructor
  · rintro ⟨v, hv, hm⟩
    by_cases e : v = w
    · subst e
      rwa [Function.update_self] at hm
    · rw [Function.update_of_ne e] at hm
      exact absurd (nil_mem_allGroups.mpr ⟨v, hv, hm⟩) hp
  · intro hm
    exact ⟨w, hw, by rwa [Function.update_self]⟩

theorem Effect.nil_iff {s s' : State} {op : Op} (h : Effect E s op s') (hs : s.Wf)
    (hp : [] ∉ s.allGroups) : [] ∉ s'.allGroups ↔ s.LeavesNoEmpty op := by
  have hheld : ∀ w ∈ s.workers, [] ∉ s.held w :=
    fun w hw hm => hp (nil_mem_allGroups.mpr ⟨w, hw, hm⟩)
  cases h with
  | tasks hop h hbusy =>
    have hcond : s.LeavesNoEmpty op := by cases op <;> trivial
    exact iff_of_true (fun hm => hp (h.allGroups_perm.subset hm)) hcond
  | made groupId priority => exact iff_of_true hp trivial
  | @created groupId priority w _ hspot h =>
    have hw := spot_mem hspot
    refine iff_of_true ?_ trivial
    rw [nil_mem_update hw h.workers h.held hp]
    simpa using hheld w hw
  | notStacked hr => exact iff_of_true hp trivial
  | @stacked r sub b w gs _ hr hsub hgs h hbusy hheld' =>
    have hw := (lock_eq_some.mp hr).2
    have hno := hheld w hw
    obtain ⟨pre, g, post, he, -, rfl⟩ := Worker.mem_pushChild hgs
    refine iff_of_true ?_ trivial
    rw [nil_mem_update hw h.workers hheld' hp]
    rw [he] at hno
    simp only [List.mem_append, List.mem_cons, not_or] at hno ⊢
    exact ⟨hno.1, by simp, hno.2.2⟩
  | @notUnstacked r sub hr =>
    rw [hs.lock] at hr
    refine iff_of_true hp fun hsub w hw => ?_
    rcases hr with hr | hr
    · rw [hsub] at hr
      cases hr
    · rw [hw] at hr
      cases hr
  | @unstacked r sub w _ hsub hr h hbusy hheld' =>
    obtain ⟨hr, hw⟩ := lock_eq_some.mp hr
    rw [nil_mem_update hw h.workers hheld' hp, Worker.nil_mem_erased (hheld w hw)]
    constructor
    · intro hne _ v hv
      cases hr.symm.trans hv
      exact hne
    · intro hcond
      exact hcond hsub w hr
  | @removed r _ h hbusy hheld' hrest =>
    rw [nil_mem_allGroups, h.workers]
    simp only [not_exists, not_and, LeavesNoEmpty]
    refine forall₂_congr fun w hw => ?_
    rw [hheld' w hw, Worker.nil_mem_erased (hheld w hw)]
  | resized h => exact iff_of_true (resize_nil hs h hp) trivial
  | workerAdded h => exact iff_of_true (resize_nil hs h hp) trivial

/-- No worker of the pool has an empty group, and `GetNextTask` returns on each. -/
def NoEmptyGroup (E : Env) (s : State) : Prop :=
  ∀ w ∈ s.workers, [] ∉ s.held w ∧
    ∀ clock, ∃ out, (s.worker w).getNextTask E clock s.runner = .ok out

theorem noEmptyGroup_iff {s : State} : s.NoEmptyGroup E ↔ [] ∉ s.allGroups := by
  rw [nil_mem_allGroups]
  constructor
  · rintro h ⟨w, hw, hm⟩
    exact (h w hw).1 hm
  · intro h w hw
    have hw' : [] ∉ s.held w := fun hm => h ⟨w, hw, hm⟩
    exact ⟨hw', fun clock => Worker.getNextTask_ok hw'⟩

theorem new_allGroups (n : Nat) : (State.new E n).allGroups = [] :=
  List.flatMap_eq_nil_iff.mpr fun w _ => new_held n w

end State

/-! ## Runs -/

/-- **One place for every runner.** Along a run of a new manager every runner
occurs at most once in the groups of the pool exactly when no runner with a place
is ever stacked. -/
theorem single_place_iff {E : Env} {n : Nat} (hn : 1 ≤ n) (ops : List Op) :
    Always (step E) (fun s => s.allGroups.flatten.Nodup) (State.new E n) ops ↔
      Meets (step E) State.StacksOnce (State.new E n) ops := by
  refine always_iff_meets (A := fun _ => True) (J := State.Wf) ?_ ?_ (fun _ _ => trivial)
    (State.new_wf hn) ?_
  · exact fun s op s' _ hs h => (State.step_effect h).wf hs
  · exact fun s op s' _ hs hp h => (State.step_effect h).nodup_iff hs hp
  · rw [State.new_allGroups]
    exact .nil

/-- A runner without a place is stacked. -/
theorem single_place_sub_runner : Always (step .debug) (fun s => s.allGroups.flatten.Nodup)
    (State.new .debug 2)
    [.createTaskRunner 0 1 true, .createTaskRunner 0 1 false, .addSubTaskRunner 0 1 false] := by
  refine (single_place_iff (by decide) _).mpr (meets_of_take fun k op hk => ?_)
  match k, hk with
  | 0, rfl => trivial
  | 1, rfl => trivial
  | 2, rfl =>
    have hwf : State.Wf (last (step .debug) (State.new .debug 2)
        [.createTaskRunner 0 1 true, .createTaskRunner 0 1 false]) :=
      Reachable.wf ⟨2, _, by decide, run_last (by decide)⟩
    have hout : 1 ∉ (State.allGroups (last (step .debug) (State.new .debug 2)
        [.createTaskRunner 0 1 true, .createTaskRunner 0 1 false])).flatten := by decide
    exact Or.inr fun w hw => hout (hwf.mem_flatten.mpr ⟨w, hw⟩)

/-- A runner with a place is stacked on another one. -/
theorem sub_runner_placed_twice : ¬ Always (step .debug) (fun s => s.allGroups.flatten.Nodup)
    (State.new .debug 2)
    [.createTaskRunner 0 1 true, .createTaskRunner 0 1 true, .addSubTaskRunner 0 1 false] := by
  intro h
  have hnodup := always_iff_run.mp h _ List.prefix_rfl _ (run_last (by decide))
  revert hnodup
  decide

/-- **Groups are never empty** exactly when no removal takes the only runner of a
group. -/
theorem no_empty_group_iff {E : Env} {n : Nat} (hn : 1 ≤ n) (ops : List Op) :
    Always (step E) (State.NoEmptyGroup E) (State.new E n) ops ↔
      Meets (step E) State.LeavesNoEmpty (State.new E n) ops := by
  refine always_iff_meets (A := fun _ => True) (J := State.Wf) ?_ ?_ (fun _ _ => trivial)
    (State.new_wf hn) ?_
  · exact fun s op s' _ hs h => (State.step_effect h).wf hs
  · intro s op s' _ hs hp h
    rw [State.noEmptyGroup_iff] at hp ⊢
    exact (State.step_effect h).nil_iff hs hp
  · rw [State.noEmptyGroup_iff, State.new_allGroups]
    exact List.not_mem_nil

/-- A sub runner is removed from a group that its father stays in. -/
theorem no_empty_group_sub_runner : Always (step .debug) (State.NoEmptyGroup .debug)
    (State.new .debug 2)
    [.createTaskRunner 0 1 true, .createTaskRunner 0 1 false, .addSubTaskRunner 0 1 false,
      .removeTaskRunner 1] := by
  refine (no_empty_group_iff (by decide) _).mpr (meets_of_take fun k op hk => ?_)
  match k, hk with
  | 0, rfl => trivial
  | 1, rfl => trivial
  | 2, rfl => trivial
  | 3, rfl =>
    unfold State.LeavesNoEmpty
    decide

/-- The only runner of a group is removed. -/
theorem removed_leaves_empty_group : ¬ Always (step .debug) (State.NoEmptyGroup .debug)
    (State.new .debug 1) [.createTaskRunner 0 1 true, .removeTaskRunner 0] := by
  intro h
  have hne := always_iff_run.mp h _ List.prefix_rfl _ (run_last (by decide))
  rw [State.noEmptyGroup_iff] at hne
  revert hne
  decide

end Footstone
