import Footstone.Groups
import Mathlib.Tactic.FinCases

/-!
Whether two workers can run tasks of one runner at a time. Only the group lists
keep workers apart, so a resize that hands the group of a runner to another
worker while a task of it is being run lets both of them run it.
-/

namespace Footstone

open Runs

/-- `AddSubTaskRunner` is left out. -/
def Op.NotStacking : Op → Prop
  | .addSubTaskRunner .. => False
  | _ => True

/-- A group with a runner whose task a worker is running goes to no other worker. -/
def Plan.Quiet (p : Plan) (s : State) : Prop :=
  ∀ k g, p.moved[k]? = some g → ∀ r ∈ g, ∀ w, some r ∈ s.busy w → ∀ v, p.target k = some v → v = w

theorem Plan.quiet_of_moved {p : Plan} {s : State} (h : p.moved = []) : p.Quiet s := by
  intro k g hk
  rw [h] at hk
  cases hk

namespace State

variable {E : Env}

/-- No two workers are running tasks taken from one runner. -/
def Exclusive (s : State) : Prop :=
  ∀ w v r, some r ∈ s.busy w → some r ∈ s.busy v → w = v

/-- The condition under which workers are kept apart. -/
def QuietAt (E : Env) (s : State) : Op → Prop
  | .resize n => (s.resizePlan E n).Quiet s
  | .addWorker => (s.resizePlan E (s.size + 1)).Quiet s
  | _ => True

/-- A runner whose task is being run is in no group of another worker. -/
structure KeptApart (s : State) : Prop where
  wf : s.Wf
  nodup : s.allGroups.flatten.Nodup
  exclusive : s.Exclusive
  away : ∀ w r, some r ∈ s.busy w → ∀ v, s.Holds v r → v = w
  known : ∀ w r, some r ∈ s.busy w → r < s.globalTaskRunnerId

theorem BusyStep.mem {s s' : State} (h : BusyStep s s') {w : WorkerId} {r : RunnerId}
    (hr : some r ∈ s'.busy w) : some r ∈ s.busy w ∨ s.Holds w r := by
  cases h with
  | same h => rw [h] at hr; exact Or.inl hr
  | starts v x hx h =>
    rw [h] at hr
    by_cases e : w = v
    · subst e
      rw [Function.update_self, List.mem_cons] at hr
      exact hr.symm.imp_right fun hr => hx r hr.symm
    · rw [Function.update_of_ne e] at hr
      exact Or.inl hr
  | ends v x rest hv h =>
    rw [h] at hr
    by_cases e : w = v
    · subst e
      rw [Function.update_self] at hr
      rw [hv]
      exact Or.inl (List.mem_cons_of_mem _ hr)
    · rw [Function.update_of_ne e] at hr
      exact Or.inl hr

/-- A step that starts no task and gives no worker a runner that is being run. -/
theorem KeptApart.of_holds {s s' : State} (hk : s.KeptApart) (hwf : s'.Wf)
    (hnodup : s'.allGroups.flatten.Nodup) (hbusy : s'.busy = s.busy)
    (hglobal : s.globalTaskRunnerId ≤ s'.globalTaskRunnerId)
    (hholds : ∀ v w r, some r ∈ s.busy w → s'.Holds v r → v = w) : s'.KeptApart where
  wf := hwf
  nodup := hnodup
  exclusive w v r hw hv := by
    rw [hbusy] at hw hv
    exact hk.exclusive w v r hw hv
  away w r hw v hv := by
    rw [hbusy] at hw
    exact hholds v w r hw hv
  known w r hw := by
    rw [hbusy] at hw
    exact (hk.known w r hw).trans_le hglobal

theorem resize_keptApart {s s' : State} (hk : s.KeptApart) {n : Nat} (h : s.resize E n = .ok s')
    (hq : (s.resizePlan E n).Quiet s) : s'.KeptApart := by
  obtain ⟨loose, hp⟩ := resizePlan_splits (E := E) hk.wf n
  have hre := resize_relocates hk.wf h
  have hbusy : s'.busy = s.busy := by
    rw [hre.busy, staged, createWorkers_eq]
  have hglobal : s'.globalTaskRunnerId = s.globalTaskRunnerId := by
    rw [hre.globalTaskRunnerId, staged, createWorkers_eq]
  refine hk.of_holds (resize_wf hk.wf h) (resize_nodup hk.wf h hk.nodup) hbusy hglobal.ge ?_
  intro v w r hw hv
  rcases hre.holds.mp hv with ⟨g, hg, hr⟩ | ⟨k, g, hm, hr, ht⟩
  · refine hk.away w r hw v ⟨g, ?_, hr⟩
    rw [← staged_held (E := E) hk.wf n]
    exact hp.mem_held.mpr (Or.inl hg)
  · exact hq k g hm r hr w hw v ht

theorem Effect.keptApart {s s' : State} {op : Op} (h : Effect E s op s') (hop : op.NotStacking)
    (hk : s.KeptApart) (hq : s.QuietAt E op) : s'.KeptApart := by
  have hwf := h.wf hk.wf
  have hnodup := (h.nodup_iff hk.wf hk.nodup).mpr (by cases op <;> trivial)
  cases h with
  | tasks _ h hbusy =>
    have hunique : ∀ {v w r}, s.Holds v r → s.Holds w r → v = w :=
      holds_unique hk.wf (List.nodup_iff_count_le_one.mp hk.nodup _)
    -- A task that is being run was so before, or starts from a runner of that worker.
    refine ⟨hwf, hnodup, fun w v r hw hv => ?_, fun w r hw v hv => ?_, fun w r hw => ?_⟩
    · rcases hbusy.mem hw with hw | hw <;> rcases hbusy.mem hv with hv | hv
      · exact hk.exclusive w v r hw hv
      · exact (hk.away w r hw v hv).symm
      · exact hk.away v r hv w hw
      · exact hunique hw hv
    · rw [h.holds] at hv
      rcases hbusy.mem hw with hw | hw
      · exact hk.away w r hw v hv
      · exact hunique hv hw
    · rw [h.globalTaskRunnerId]
      rcases hbusy.mem hw with hw | hw
      · exact hk.known w r hw
      · exact hk.wf.known w r hw
  | made groupId priority =>
    exact hk.of_holds hwf hnodup rfl (Nat.le_succ _) fun v w r hw hv => hk.away w r hw v hv
  | created hspot h =>
    refine hk.of_holds hwf hnodup h.busy (by rw [h.globalTaskRunnerId]; exact Nat.le_succ _) ?_
    intro v u r hu hr
    rcases h.holds.mp hr with hr | ⟨rfl, -⟩
    · exact hk.away u r hu v hr
    · exact absurd (hk.known u _ hu) (Nat.lt_irrefl _)
  | notStacked hr => exact hop.elim
  | stacked hr hsub hgs h hbusy hheld => exact hop.elim
  | notUnstacked hr => exact hk
  | @unstacked r sub w _ hsub hr h hbusy hheld =>
    refine hk.of_holds hwf hnodup hbusy h.globalTaskRunnerId.ge fun v u x hu hv => ?_
    refine hk.away u x hu v ?_
    rw [Holds, hheld] at hv
    by_cases e : v = w
    · subst e
      rw [Function.update_self] at hv
      exact erased_holds hv
    · rwa [Function.update_of_ne e] at hv
  | removed h hbusy hheld hrest =>
    refine hk.of_holds hwf hnodup hbusy h.globalTaskRunnerId.ge fun v u x hu hv => ?_
    refine hk.away u x hu v ?_
    by_cases hw : v ∈ s.workers
    · rw [Holds, hheld v hw] at hv
      exact erased_holds hv
    · rwa [Holds, hrest v hw] at hv
  | resized h => exact resize_keptApart hk h hq
  | workerAdded h => exact resize_keptApart hk h hq

theorem new_keptApart {n : Nat} (hn : 1 ≤ n) : (State.new E n).KeptApart := by
  have hbusy : (State.new E n).busy = fun _ => [] := by rw [new_eq]
  refine ⟨new_wf hn, by rw [new_allGroups]; exact .nil, ?_, ?_, ?_⟩
  · intro w v r hw
    rw [hbusy] at hw
    cases hw
  · intro w r hw
    rw [hbusy] at hw
    cases hw
  · intro w r hw
    rw [hbusy] at hw
    cases hw

end State

/-- **Mutual exclusion.** Along every run of a new manager without stacking, in
which no resize hands a group with a running task to another worker, no two
workers run tasks of one runner. -/
theorem exclusive_of_quiet {E : Env} {n : Nat} (hn : 1 ≤ n) (ops : List Op)
    (hops : ∀ op ∈ ops, op.NotStacking)
    (hq : Meets (step E) (State.QuietAt E) (State.new E n) ops) :
    Always (step E) State.Exclusive (State.new E n) ops := by
  refine always_of_meets (I := State.KeptApart) ?_ ?_ hops (State.new_keptApart hn) hq
  · exact fun s op s' hop hk hq h => (State.step_effect h).keptApart hop hk hq
  · exact fun s hk => hk.exclusive

/-- A task is being run while the pool grows: its group stays. -/
theorem exclusive_growing_pool : Always (step .debug) State.Exclusive (State.new .debug 2)
    [.createTaskRunner 0 1 true, .postTask 0 (some ⟨1⟩), .postTask 0 (some ⟨2⟩),
      .runTask 0 fun _ => 0, .resize 3, .runTask 0 fun _ => 0] := by
  refine exclusive_of_quiet (by decide) _ ?_ (meets_of_take fun k op hk => ?_)
  · intro op hop
    fin_cases hop <;> trivial
  match k, hk with
  | 0, rfl => trivial
  | 1, rfl => trivial
  | 2, rfl => trivial
  | 3, rfl => trivial
  | 4, rfl => exact Plan.quiet_of_moved (by decide)
  | 5, rfl => trivial

/-- The pool shrinks while a task is being run: its group goes to another worker. -/
theorem resize_shares_running_runner : ¬ Always (step .debug) State.Exclusive (State.new .debug 2)
    [.resize 3, .createTaskRunner 0 1 true, .postTask 0 (some ⟨1⟩), .postTask 0 (some ⟨2⟩),
      .runTask 2 fun _ => 0, .resize 1, .runTask 0 fun _ => 0] := by
  intro h
  have hex := always_iff_run.mp h _ List.prefix_rfl _ (run_last (by decide))
  have heq := hex 0 2 0 (by decide) (by decide)
  revert heq
  decide

end Footstone
