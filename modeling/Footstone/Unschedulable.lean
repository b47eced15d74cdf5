import Footstone.WellFormed

/-!
Where unschedulable runners go when the pool is resized. `HasUnschedulableRunner`
looks at the running groups, the retain filter asks for a schedulable runner, and
the pending groups are spliced out whatever is in them.
-/

namespace Footstone

open Runs

/-- An unschedulable runner of a group that is moved stays or goes back, wherever
it was. -/
def Plan.Pins (p : Plan) (s : State) : Prop :=
  ∀ (k : Nat) (g : Group), p.moved[k]? = some g → ∀ r ∈ g, (s.runner r).isSchedulable = false →
    ∀ w, s.Holds w r → (∃ g' ∈ p.kept w, r ∈ g') ∨
      ∃ (j : Nat) (g' : Group), p.moved[j]? = some g' ∧ r ∈ g' ∧ p.target j = some w

namespace State

variable {E : Env}

/-- The unschedulable runners are still where they were, on workers that run. -/
def KeepsUnschedulable (s s' : State) : Prop :=
  ∀ w r, s.Holds w r → (s.runner r).isSchedulable = false →
    s'.Holds w r ∧ (s'.worker w).isTerminated = false

/-- When a `Resize` returns. -/
def ResizeReturns (E : Env) (s : State) (n : Nat) : Prop :=
  n = s.size ∨ (s.size < n ∧ s.GrowSafe) ∨ (1 ≤ n ∧ n < s.size ∧ s.ShrinkSafe E n)

theorem resize_returns_iff {s : State} (hs : s.Wf) (n : Nat) :
    (∃ s', s.resize E n = .ok s') ↔ s.ResizeReturns E n := by
  simp only [resize_eq_ok hs]
  constructor
  · rintro ⟨s', ⟨rfl, -⟩ | ⟨hlt, hsafe, -⟩ | ⟨hpos, hlt, h⟩⟩
    · exact Or.inl rfl
    · exact Or.inr (Or.inl ⟨hlt, hsafe⟩)
    · exact Or.inr (Or.inr ⟨hpos, hlt, (shrink_returns hs.nodup hpos hs.size_le hlt).mp ⟨s', h⟩⟩)
  · rintro (rfl | ⟨hlt, hsafe⟩ | ⟨hpos, hlt, hsafe⟩)
    · exact ⟨s, Or.inl ⟨rfl, rfl⟩⟩
    · exact ⟨_, Or.inr (Or.inl ⟨hlt, hsafe, rfl⟩)⟩
    · obtain ⟨s', h⟩ := (shrink_returns hs.nodup hpos hs.size_le hlt).mpr hsafe
      exact ⟨s', Or.inr (Or.inr ⟨hpos, hlt, h⟩)⟩

end State

/-- **What a plan does to the unschedulable runners.** -/
theorem Plan.Relocates.keepsUnschedulable_iff {p : Plan} {s s' : State}
    {loose : WorkerId → List Group} (h : p.Relocates s s') (hp : p.Splits s loose) (hs : s.Wf)
    (hs' : s'.Wf) : s.KeepsUnschedulable s' ↔ p.Pins s := by
  constructor
  · intro hk k g hg r hr hsched w hw
    exact h.holds.mp (hk w r hw hsched).1
  · intro hpins w r hw hsched
    have hw' : s'.Holds w r := by
      rcases hp.holds hs hw with hkept | ⟨k, g, hg, hr⟩
      · exact h.holds.mpr (Or.inl hkept)
      · exact h.holds.mpr (hpins k g hg r hr hsched w hw)
    exact ⟨hw', hs'.isTerminated w (hs'.mem_of_holds hw')⟩

namespace State

variable {E : Env}

theorem resize_keepsUnschedulable {s s' : State} (hs : s.Wf) {n : Nat} (h : s.resize E n = .ok s') :
    s.KeepsUnschedulable s' ↔ (s.resizePlan E n).Pins s := by
  obtain ⟨loose, hp⟩ := resizePlan_splits (E := E) hs n
  have hstaged := (resize_relocates hs h).keepsUnschedulable_iff hp (staged_wf hs n) (resize_wf hs h)
  simpa only [KeepsUnschedulable, Plan.Pins, Holds, staged_held hs, staged_runner] using hstaged

end State

/-- **When unschedulable runners are not migrated.** For every reachable state, a
`Resize` that returns keeps them where they were exactly when its plan puts none of
them elsewhere; it returns exactly under `ResizeReturns`. So it is for `AddWorker`. -/
theorem unschedulable_stays_iff {E : Env} {s : State} (h : Reachable E s) :
    (∀ n, ((∃ s', s.resize E n = .ok s') ↔ s.ResizeReturns E n) ∧
      ∀ s', s.resize E n = .ok s' → (s.KeepsUnschedulable s' ↔ (s.resizePlan E n).Pins s)) ∧
    ((∃ s', s.addWorker E = .ok s') ↔ s.ResizeReturns E (s.size + 1)) ∧
      ∀ s', s.addWorker E = .ok s' →
        (s.KeepsUnschedulable s' ↔ (s.resizePlan E (s.size + 1)).Pins s) := by
  rw [State.addWorker_eq]
  exact ⟨fun n => ⟨State.resize_returns_iff h.wf n, fun _ hr => State.resize_keepsUnschedulable h.wf hr⟩,
    State.resize_returns_iff h.wf _, fun _ hr => State.resize_keepsUnschedulable h.wf hr⟩

/-- An unschedulable sub runner of a group that has been run once stays. -/
theorem running_unschedulable_stays : ∃ s s', run (step .debug) (State.new .debug 2)
    [.createTaskRunner 0 1 true, .createTaskRunner 0 1 false, .addSubTaskRunner 0 1 false,
      .runTask 0 fun _ => 0] = .ok s ∧ s.resize .debug 3 = .ok s' ∧ s.KeepsUnschedulable s' := by
  have hrun : run (step .debug) (State.new .debug 2)
      [.createTaskRunner 0 1 true, .createTaskRunner 0 1 false, .addSubTaskRunner 0 1 false,
        .runTask 0 fun _ => 0] = .ok _ := run_last (by decide)
  have hpend : State.pendingGroups (last (step .debug) (State.new .debug 2)
      [.createTaskRunner 0 1 true, .createTaskRunner 0 1 false, .addSubTaskRunner 0 1 false,
        .runTask 0 fun _ => 0]) = [] := by decide
  have hmoved : (State.resizePlan .debug (last (step .debug) (State.new .debug 2)
      [.createTaskRunner 0 1 true, .createTaskRunner 0 1 false, .addSubTaskRunner 0 1 false,
        .runTask 0 fun _ => 0]) 3).moved = [] := by decide
  have hiff := (unschedulable_stays_iff ⟨2, _, by decide, hrun⟩).1 3
  obtain ⟨s', hs'⟩ := hiff.1.mpr (Or.inr (Or.inl ⟨by decide, by decide, fun _ => by
    rw [hpend]
    nofun⟩))
  refine ⟨_, s', hrun, hs', (hiff.2 s' hs').mpr fun k g hg => ?_⟩
  rw [hmoved] at hg
  cases hg

/-- One of a group that waits goes from the third worker to the first. -/
theorem pending_unschedulable_moves : ∃ s s', run (step .debug) (State.new .debug 2)
    [.resize 3, .createTaskRunner 0 1 true, .createTaskRunner 0 1 false,
      .addSubTaskRunner 0 1 false] = .ok s ∧ s.resize .debug 1 = .ok s' ∧
        ¬ s.KeepsUnschedulable s' := by
  have hheld : (State.resize .debug 1 (last (step .debug) (State.new .debug 2)
      [.resize 3, .createTaskRunner 0 1 true, .createTaskRunner 0 1 false,
        .addSubTaskRunner 0 1 false])).toOption.map (fun s' => (s'.held 0, s'.held 2)) =
          some ([[0, 1]], []) := by decide
  cases hr : State.resize .debug 1 (last (step .debug) (State.new .debug 2)
      [.resize 3, .createTaskRunner 0 1 true, .createTaskRunner 0 1 false,
        .addSubTaskRunner 0 1 false]) with
  | error f => simp [hr, Except.toOption] at hheld
  | ok s' =>
    refine ⟨_, s', run_last (by decide), hr, fun hkeeps => ?_⟩
    obtain ⟨⟨g, hg, -⟩, -⟩ := hkeeps 2 1 ⟨[0, 1], by decide, by decide⟩ (by decide)
    simp only [hr, Except.toOption, Option.map_some, Option.some.injEq, Prod.mk.injEq] at hheld
    rw [hheld.2] at hg
    cases hg

end Footstone
