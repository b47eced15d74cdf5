import Footstone.Groups
import Mathlib.Tactic.FinCases

/-!
Group affinity. A runner with a group id is put on the first worker that
remembers the id, which is the last one bound there; `Balance` deals the
groups out one by one without looking at ids.
-/

namespace Footstone

open Runs

/-- Neither stacking nor removing. -/
def Op.NotEditing : Op → Prop
  | .addSubTaskRunner .. | .removeSubTaskRunner .. | .removeTaskRunner _ => False
  | _ => True

namespace State

variable {E : Env}

/-- Two schedulable runners with the same group id. -/
structure Mates (s : State) (r m : RunnerId) : Prop where
  ne : r ≠ m
  left : r < s.globalTaskRunnerId
  right : m < s.globalTaskRunnerId
  schedulable : (s.runner r).isSchedulable = true ∧ (s.runner m).isSchedulable = true
  groupId : (s.runner r).groupId = (s.runner m).groupId
  grouped : (s.runner r).groupId ≠ kDefaultGroupId

/-- Mates are on the same worker. -/
def Affine (s : State) : Prop := ∀ r m, s.Mates r m → ∃ w, s.Holds w r ∧ s.Holds w m

theorem Mates.symm {s : State} {r m : RunnerId} (h : s.Mates r m) : s.Mates m r :=
  ⟨h.ne.symm, h.right, h.left, h.schedulable.symm, h.groupId.symm, h.groupId ▸ h.grouped⟩

end State

/-- A runner that is moved goes where each of its mates stays or goes. -/
def Plan.Together (p : Plan) (s : State) : Prop :=
  ∀ k (g : Group), p.moved[k]? = some g → ∀ r ∈ g, ∀ m, s.Mates r m → ∃ w, p.target k = some w ∧
    ((∃ g' ∈ p.kept w, m ∈ g') ∨ ∃ j g', p.moved[j]? = some g' ∧ m ∈ g' ∧ p.target j = some w)

namespace State

variable {E : Env}

/-- The condition for mates to stay together. -/
def GathersAt (E : Env) (s : State) : Op → Prop
  | .createTaskRunner groupId _ isSchedulable =>
    isSchedulable = true → groupId ≠ kDefaultGroupId → ∀ r, r < s.globalTaskRunnerId →
      (s.runner r).isSchedulable = true → (s.runner r).groupId = groupId →
        ∃ w, s.spot groupId = some w ∧ s.Holds w r
  | .resize n => (s.resizePlan E n).Together s
  | .addWorker => (s.resizePlan E (s.size + 1)).Together s
  | _ => True

/-- The runners keep what makes them mates. -/
theorem mates_congr {s s' : State} (hglobal : s'.globalTaskRunnerId = s.globalTaskRunnerId)
    (hgroup : ∀ r, (s'.runner r).groupId = (s.runner r).groupId)
    (hsched : ∀ r, (s'.runner r).isSchedulable = (s.runner r).isSchedulable) (r m : RunnerId) :
    s'.Mates r m ↔ s.Mates r m := by
  constructor
  · rintro ⟨hne, hl, hr, hs, hg, h0⟩
    simp only [hglobal, hgroup, hsched] at hl hr hs hg h0
    exact ⟨hne, hl, hr, hs, hg, h0⟩
  · rintro ⟨hne, hl, hr, hs, hg, h0⟩
    refine ⟨hne, ?_, ?_, ?_, ?_, ?_⟩ <;> simpa only [hglobal, hgroup, hsched]

theorem relocates_affine {s s' : State} {p : Plan} {loose : WorkerId → List Group}
    (h : p.Relocates s s') (hp : p.Splits s loose) (hs : s.Wf) (hs' : s'.Wf)
    (hn : s.allGroups.flatten.Nodup) (ha : s.Affine) : s'.Affine ↔ p.Together s := by
  have hmates := mates_congr h.globalTaskRunnerId h.groupId h.isSchedulable
  have hcons := (h.conserves hp hs.nodup).flatten.nodup_iff.mpr hn
  rw [List.flatten_append] at hcons
  constructor
  · intro ha' k g hk r hr m hm
    obtain ⟨w, hw, hwm⟩ := ha' r m ((hmates r m).mpr hm)
    have hw' : p.target k = some w := by
      cases ht : p.target k with
      | none =>
        -- A dropped runner is on no worker afterwards.
        have hdropped : r ∈ p.dropped.flatten :=
          List.mem_flatten.mpr ⟨g, Deal.mem_unplaced.mpr ⟨k, hk, ht⟩, hr⟩
        have hheld' : r ∈ s'.allGroups.flatten := hs'.mem_flatten.mpr ⟨w, hw⟩
        exact absurd hdropped (List.disjoint_of_nodup_append hcons hheld')
      | some v =>
        have hv : s'.Holds v r := h.holds.mpr (Or.inr ⟨k, g, hk, hr, ht⟩)
        rw [holds_unique hs' (List.nodup_iff_count_le_one.mp hcons.of_append_left r) hv hw]
    exact ⟨w, hw', h.holds.mp hwm⟩
  · intro hcond r m hm
    have hm := (hmates r m).mp hm
    have hmoved : ∀ {x y}, s.Mates x y → ∀ (k : Nat) (g : Group), p.moved[k]? = some g → x ∈ g →
        ∃ w, s'.Holds w x ∧ s'.Holds w y := by
      intro x y hxy k g hk hx
      obtain ⟨w, ht, hy⟩ := hcond k g hk x hx y hxy
      exact ⟨w, h.holds.mpr (Or.inr ⟨k, g, hk, hx, ht⟩), h.holds.mpr hy⟩
    obtain ⟨w, hwr, hwm⟩ := ha r m hm
    rcases hp.holds hs hwr with hr | ⟨k, g, hk, hr⟩
    · rcases hp.holds hs hwm with hm' | ⟨k, g, hk, hm'⟩
      · exact ⟨w, h.holds.mpr (Or.inl hr), h.holds.mpr (Or.inl hm')⟩
      · obtain ⟨v, hv, hv'⟩ := hmoved hm.symm k g hk hm'
        exact ⟨v, hv', hv⟩
    · exact hmoved hm k g hk hr

theorem resize_affine {s s' : State} (hs : s.Wf) (hn : s.allGroups.flatten.Nodup) {n : Nat}
    (h : s.resize E n = .ok s') (ha : s.Affine) : s'.Affine ↔ (s.resizePlan E n).Together s := by
  obtain ⟨loose, hp⟩ := resizePlan_splits (E := E) hs n
  have hmates : ∀ r m, (s.staged E n).Mates r m ↔ s.Mates r m :=
    mates_congr (staged_globalTaskRunnerId s n) (by simp) (by simp)
  have ha' : (s.staged E n).Affine := by
    intro r m hm
    obtain ⟨w, hr, hm⟩ := ha r m ((hmates r m).mp hm)
    exact ⟨w, by rwa [Holds, staged_held hs], by rwa [Holds, staged_held hs]⟩
  have hn' : (s.staged E n).allGroups.flatten.Nodup := by rwa [staged_allGroups hs]
  rw [relocates_affine (resize_relocates hs h) hp (staged_wf hs n) (resize_wf hs h) hn' ha']
  simp only [Plan.Together, hmates]

theorem SamePlaces.affine {s s' : State} (h : SamePlaces s s') (ha : s.Affine) : s'.Affine := by
  intro r m hm
  obtain ⟨w, hr, hm⟩ := ha r m
    ((mates_congr h.globalTaskRunnerId h.groupId h.isSchedulable r m).mp hm)
  exact ⟨w, (h.holds w r).mpr hr, (h.holds w m).mpr hm⟩

theorem Created.runner_self {s s' : State} {w : WorkerId} {groupId priority : UInt32}
    (h : Created s s' w groupId priority) : s'.runner s.globalTaskRunnerId =
      { worker := some w, groupId := groupId, priority := priority, isSchedulable := true } := by
  rw [h.runner, Function.update_self]

theorem Created.runner_of_lt {s s' : State} {w : WorkerId} {groupId priority : UInt32}
    (h : Created s s' w groupId priority) {r : RunnerId} (hr : r < s.globalTaskRunnerId) :
    s'.runner r = s.runner r := by
  rw [h.runner, Function.update_of_ne (Nat.ne_of_lt hr)]

/-- The mates of the new runner. -/
theorem Created.mates_self {s s' : State} {w : WorkerId} {groupId priority : UInt32}
    (h : Created s s' w groupId priority) {r : RunnerId} : s'.Mates r s.globalTaskRunnerId ↔
      r < s.globalTaskRunnerId ∧ (s.runner r).isSchedulable = true ∧ (s.runner r).groupId = groupId ∧
        groupId ≠ kDefaultGroupId := by
  constructor
  · intro hm
    have hlt : r < s.globalTaskRunnerId + 1 := h.globalTaskRunnerId ▸ hm.left
    have hr := Nat.lt_of_le_of_ne (Nat.lt_succ_iff.mp hlt) hm.ne
    have hsched := hm.schedulable.1
    have hgroup := hm.groupId
    have hgrouped := hm.grouped
    rw [h.runner_of_lt hr] at hsched hgroup hgrouped
    rw [h.runner_self] at hgroup
    rw [hgroup] at hgrouped
    exact ⟨hr, hsched, hgroup, hgrouped⟩
  · rintro ⟨hr, hsched, hgroup, hgrouped⟩
    refine ⟨Nat.ne_of_lt hr, ?_, ?_, ?_, ?_, ?_⟩
    · rw [h.globalTaskRunnerId]
      exact Nat.lt_succ_of_lt hr
    · rw [h.globalTaskRunnerId]
      exact Nat.lt_succ_self _
    · rw [h.runner_of_lt hr, h.runner_self]
      exact ⟨hsched, rfl⟩
    · rw [h.runner_of_lt hr, h.runner_self]
      exact hgroup
    · rw [h.runner_of_lt hr, hgroup]
      exact hgrouped

/-- The mates among the others are those of before. -/
theorem Created.mates_of_ne {s s' : State} {w : WorkerId} {groupId priority : UInt32}
    (h : Created s s' w groupId priority) {r m : RunnerId} (hm : s'.Mates r m)
    (hr : r ≠ s.globalTaskRunnerId) (hm' : m ≠ s.globalTaskRunnerId) : s.Mates r m := by
  have hleft : r < s.globalTaskRunnerId + 1 := h.globalTaskRunnerId ▸ hm.left
  have hright : m < s.globalTaskRunnerId + 1 := h.globalTaskRunnerId ▸ hm.right
  have hr := Nat.lt_of_le_of_ne (Nat.lt_succ_iff.mp hleft) hr
  have hm' := Nat.lt_of_le_of_ne (Nat.lt_succ_iff.mp hright) hm'
  refine ⟨hm.ne, hr, hm', ?_, ?_, ?_⟩
  · simpa only [h.runner_of_lt hr, h.runner_of_lt hm'] using hm.schedulable
  · simpa only [h.runner_of_lt hr, h.runner_of_lt hm'] using hm.groupId
  · simpa only [h.runner_of_lt hr] using hm.grouped

theorem Created.affine_iff {s s' : State} {w : WorkerId} {groupId priority : UInt32}
    (h : Created s s' w groupId priority) (hspot : s.spot groupId = some w) (hs : s.Wf)
    (ha : s.Affine) : s'.Affine ↔ s.GathersAt E (.createTaskRunner groupId priority true) := by
  have hself : s'.Holds w s.globalTaskRunnerId := h.holds.mpr (Or.inr ⟨rfl, rfl⟩)
  constructor
  · intro ha' _ hg r hr hsched hgroup
    obtain ⟨v, hv, hv'⟩ := ha' r _ (h.mates_self.mpr ⟨hr, hsched, hgroup, hg⟩)
    rcases h.holds.mp hv' with hv' | ⟨-, rfl⟩
    · exact absurd (hs.known v _ hv') (Nat.lt_irrefl _)
    · refine ⟨v, hspot, (h.holds.mp hv).resolve_right ?_⟩
      rintro ⟨rfl, -⟩
      exact Nat.lt_irrefl _ hr
  · intro hcond
    have hmeet : ∀ {r}, s'.Mates r s.globalTaskRunnerId → s'.Holds w r := by
      intro r hm
      obtain ⟨hr, hsched, hgroup, hgrouped⟩ := h.mates_self.mp hm
      obtain ⟨v, hv, hv'⟩ := hcond rfl hgrouped r hr hsched hgroup
      cases hspot.symm.trans hv
      exact h.holds.mpr (Or.inl hv')
    intro r m hm
    by_cases hr : r = s.globalTaskRunnerId
    · subst hr
      exact ⟨w, hself, hmeet hm.symm⟩
    · by_cases hm' : m = s.globalTaskRunnerId
      · subst hm'
        exact ⟨w, hmeet hm, hself⟩
      · obtain ⟨v, hv, hv'⟩ := ha r m (h.mates_of_ne hm hr hm')
        exact ⟨v, h.holds.mpr (Or.inl hv), h.holds.mpr (Or.inl hv')⟩

theorem Effect.affine_iff {s s' : State} {op : Op} (h : Effect E s op s') (hop : op.NotEditing)
    (hs : s.Wf) (hn : s.allGroups.flatten.Nodup) (ha : s.Affine) :
    s'.Affine ↔ s.GathersAt E op := by
  cases h with
  | tasks hop h hbusy => exact iff_of_true (h.affine ha) (by cases op <;> trivial)
  | made groupId priority =>
    refine iff_of_true (fun r m hm => ?_) nofun
    have hold : ∀ {x}, x < s.globalTaskRunnerId + 1 → (Function.update s.runner
        s.globalTaskRunnerId { groupId := groupId, priority := priority, isSchedulable := false }
          x).isSchedulable = true → x < s.globalTaskRunnerId := by
      intro x hx hsched
      refine Nat.lt_of_le_of_ne (Nat.lt_succ_iff.mp hx) ?_
      rintro rfl
      simp at hsched
    have hr := hold hm.left hm.schedulable.1
    have hm' := hold hm.right hm.schedulable.2
    have hmates : s.Mates r m := by
      have hsched := hm.schedulable
      have hgroup := hm.groupId
      have hgrouped := hm.grouped
      simp only [Function.update_of_ne (Nat.ne_of_lt hr), Function.update_of_ne (Nat.ne_of_lt hm')]
        at hsched hgroup hgrouped
      exact ⟨hm.ne, hr, hm', hsched, hgroup, hgrouped⟩
    exact ha r m hmates
  | created hspot h => exact h.affine_iff hspot hs ha
  | notStacked hr => exact hop.elim
  | stacked hr hsub hgs h hbusy hheld => exact hop.elim
  | notUnstacked hr => exact hop.elim
  | unstacked hsub hr h hbusy hheld => exact hop.elim
  | removed h hbusy hheld hrest => exact hop.elim
  | resized h => exact resize_affine hs hn h ha
  | workerAdded h => exact resize_affine hs hn h ha

end State

/-- **Group affinity.** Along a run of a new manager that creates and runs runners
and resizes the pool, runners with the same group id stay on one worker exactly
when every creation and every resize leaves them together. -/
theorem affinity_iff {E : Env} {n : Nat} (hn : 1 ≤ n) (ops : List Op)
    (hops : ∀ op ∈ ops, op.NotEditing) :
    Always (step E) State.Affine (State.new E n) ops ↔
      Meets (step E) (State.GathersAt E) (State.new E n) ops := by
  refine always_iff_meets (J := fun s => s.Wf ∧ s.allGroups.flatten.Nodup) ?_ ?_ hops
    ⟨State.new_wf hn, by rw [State.new_allGroups]; exact .nil⟩ ?_
  · intro s op s' hop hj h
    have he := State.step_effect h
    exact ⟨he.wf hj.1, (he.nodup_iff hj.1 hj.2).mpr (by cases op <;> trivial)⟩
  · exact fun s op s' hop hj ha h => (State.step_effect h).affine_iff hop hj.1 hj.2 ha
  · intro r m hm
    have hlt := hm.left
    rw [State.new_eq] at hlt
    exact absurd hlt (Nat.not_lt_zero r)

/-- Two runners of one id that have been run once stay together. -/
theorem affinity_running_pair : Always (step .debug) State.Affine (State.new .debug 2)
    [.createTaskRunner 7 1 true, .createTaskRunner 7 1 true, .runTask 0 fun _ => 0, .resize 3] := by
  refine (affinity_iff (by decide) _ ?_).mpr (meets_of_take fun k op hk => ?_)
  · intro op hop
    fin_cases hop <;> trivial
  match k, hk with
  | 0, rfl => exact fun _ _ r hr => absurd hr (Nat.not_lt_zero r)
  | 1, rfl =>
    intro _ _ r hr _ _
    have hglobal : (last (step .debug) (State.new .debug 2)
        [.createTaskRunner 7 1 true]).globalTaskRunnerId = 1 := by decide
    obtain rfl : r = 0 := Nat.lt_one_iff.mp (hglobal ▸ hr)
    exact ⟨0, by decide, [0], by decide, by decide⟩
  | 2, rfl => trivial
  | 3, rfl =>
    have hmoved : (State.resizePlan .debug (last (step .debug) (State.new .debug 2)
        [.createTaskRunner 7 1 true, .createTaskRunner 7 1 true, .runTask 0 fun _ => 0]) 3).moved =
          [] := by decide
    intro k g hg
    rw [List.take_succ_cons, List.take_succ_cons, List.take_succ_cons, List.take_zero, hmoved] at hg
    cases hg

/-- Two that have not are dealt to different workers when the pool shrinks. -/
theorem resize_parts_group : ¬ Always (step .debug) State.Affine (State.new .debug 2)
    [.createTaskRunner 7 1 true, .createTaskRunner 7 1 true, .resize 1] := by
  intro h
  have ha := always_iff_run.mp h _ List.prefix_rfl _ (run_last (by decide))
  obtain ⟨w, ⟨g, hg, hr⟩, g', hg', hr'⟩ := ha 0 1
    ⟨by decide, by decide, by decide, by decide, by decide, by decide⟩
  have hwf : State.Wf (last (step .debug) (State.new .debug 2)
      [.createTaskRunner 7 1 true, .createTaskRunner 7 1 true, .resize 1]) :=
    Reachable.wf ⟨2, _, by decide, run_last (by decide)⟩
  have hworkers : (last (step .debug) (State.new .debug 2)
      [.createTaskRunner 7 1 true, .createTaskRunner 7 1 true, .resize 1]).workers = [0, 1] := by
    decide
  have hw := hwf.mem_of_holds ⟨g, hg, hr⟩
  rw [hworkers, List.mem_pair] at hw
  have hfirst : ∀ g ∈ State.held (last (step .debug) (State.new .debug 2)
      [.createTaskRunner 7 1 true, .createTaskRunner 7 1 true, .resize 1]) 0, 1 ∉ g := by decide
  have hsecond : ∀ g ∈ State.held (last (step .debug) (State.new .debug 2)
      [.createTaskRunner 7 1 true, .createTaskRunner 7 1 true, .resize 1]) 1, 0 ∉ g := by decide
  rcases hw with rfl | rfl
  · exact hfirst g' hg' hr'
  · exact hsecond g hg hr

end Footstone
