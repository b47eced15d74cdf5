import Footstone.WellFormed

/-!
The back pointer `worker_` of a runner. The shrinking branch of `Balance` sets it
for every group it binds; the growing branch and `BindGroup` do not.
-/

namespace Footstone

open Runs

/-- Carrying out the plan leaves the pointers right: without adoption a runner is
dealt only to the worker it points to, with adoption all groups that contain a
moved runner end on one worker. -/
def Plan.PointsHome (p : Plan) (s : State) : Prop :=
  if p.adopts then
    ∀ g ∈ p.moved, ∀ r ∈ g, ∀ v w, (∃ g ∈ p.settled v, r ∈ g) → (∃ g ∈ p.settled w, r ∈ g) → v = w
  else
    ∀ k g, p.moved[k]? = some g → ∀ r ∈ g, ∀ w, p.target k = some w → (s.runner r).worker = some w

namespace State

variable {E : Env}

/-- Every runner in a group of a worker points to that worker. -/
def BackPointer (s : State) : Prop := ∀ w r, s.Holds w r → (s.runner r).worker = some w

/-- The condition for the pointers to stay right. -/
def PointsRight (E : Env) (s : State) : Op → Prop
  | .addSubTaskRunner r sub _ =>
    ∀ w, (s.runner r).worker = some w → (s.runner sub).worker = some w
  | .resize n => (s.resizePlan E n).PointsHome s
  | .addWorker => (s.resizePlan E (s.size + 1)).PointsHome s
  | _ => True

theorem kept_backPointer {s : State} {p : Plan} {loose : WorkerId → List Group}
    (hp : p.Splits s loose) (hb : s.BackPointer) {w : WorkerId} {r : RunnerId}
    (h : ∃ g ∈ p.kept w, r ∈ g) : (s.runner r).worker = some w := by
  obtain ⟨g, hg, hr⟩ := h
  exact hb w r ⟨g, hp.mem_held.mpr (Or.inl hg), hr⟩

/-- Adopted runners point to the last worker they were bound to. -/
theorem adopted_backPointer {s s' : State} {p : Plan} {loose : WorkerId → List Group}
    (h : p.Relocates s s') (hp : p.Splits s loose) (hb : s.BackPointer) (ha : p.adopts = true) :
    s'.BackPointer ↔ ∀ g ∈ p.moved, ∀ r ∈ g, ∀ v w,
      (∃ g ∈ p.settled v, r ∈ g) → (∃ g ∈ p.settled w, r ∈ g) → v = w := by
  have hholds : ∀ w r, s'.Holds w r ↔ ∃ g ∈ p.settled w, r ∈ g := fun w r => by
    rw [Holds, h.held]
  simp only [← hholds]
  constructor
  · intro hb' g _ r _ v w hv hw
    exact Option.some.inj ((hb' v r hv).symm.trans (hb' w r hw))
  · intro hcond w r hw
    rcases h.pointer r with ⟨-, k, g, hk, hr, he⟩ | ⟨hno, he⟩
    · obtain ⟨v, hv⟩ := Option.ne_none_iff_exists'.mp
        (h.placed ha k (List.getElem?_eq_some_iff.mp hk).1)
      have hheld : s'.Holds v r := h.holds.mpr (Or.inr ⟨k, g, hk, hr, hv⟩)
      rw [he, hv, hcond g (List.mem_of_getElem? hk) r hr v w hheld hw]
    · have hno' : ∀ g ∈ p.moved, r ∉ g := hno.resolve_left (by simp [ha])
      rcases h.holds.mp hw with hg | ⟨k, g, hk, hr, -⟩
      · exact he.trans (kept_backPointer hp hb hg)
      · exact absurd hr (hno' g (List.mem_of_getElem? hk))

/-- Without adoption every pointer stays as it was. -/
theorem dealt_backPointer {s s' : State} {p : Plan} {loose : WorkerId → List Group}
    (h : p.Relocates s s') (hp : p.Splits s loose) (hb : s.BackPointer) (ha : p.adopts = false) :
    s'.BackPointer ↔ ∀ k g, p.moved[k]? = some g → ∀ r ∈ g, ∀ w, p.target k = some w →
      (s.runner r).worker = some w := by
  have hsame : ∀ r, (s'.runner r).worker = (s.runner r).worker := by
    intro r
    rcases h.pointer r with ⟨ha', -⟩ | ⟨-, he⟩
    · rw [ha] at ha'
      cases ha'
    · exact he
  constructor
  · intro hb' k g hk r hr w hw
    rw [← hsame]
    exact hb' w r (h.holds.mpr (Or.inr ⟨k, g, hk, hr, hw⟩))
  · intro hcond w r hw
    rw [hsame]
    rcases h.holds.mp hw with hg | ⟨k, g, hk, hr, ht⟩
    · exact kept_backPointer hp hb hg
    · exact hcond k g hk r hr w ht

theorem relocates_backPointer {s s' : State} {p : Plan} {loose : WorkerId → List Group}
    (h : p.Relocates s s') (hp : p.Splits s loose) (hb : s.BackPointer) :
    s'.BackPointer ↔ p.PointsHome s := by
  unfold Plan.PointsHome
  split
  · exact adopted_backPointer h hp hb ‹_›
  · exact dealt_backPointer h hp hb (by simpa using ‹¬ p.adopts = true›)

theorem resize_backPointer {s s' : State} (hs : s.Wf) {n : Nat} (h : s.resize E n = .ok s')
    (hb : s.BackPointer) : s'.BackPointer ↔ (s.resizePlan E n).PointsHome s := by
  obtain ⟨loose, hp⟩ := resizePlan_splits (E := E) hs n
  have hb' : (s.staged E n).BackPointer := by
    intro w r hw
    rw [Holds, staged_held hs] at hw
    rw [staged_runner]
    exact hb w r hw
  have hrunner : (s.resizePlan E n).PointsHome (s.staged E n) ↔ (s.resizePlan E n).PointsHome s := by
    unfold Plan.PointsHome
    rw [staged_runner]
  rw [relocates_backPointer (resize_relocates hs h) hp hb', hrunner]

/-- Editing one worker when no pointer changes. -/
theorem update_backPointer {s s' : State} {w : WorkerId} {gs : List Group} (h : SameBooks s s')
    (hheld : s'.held = Function.update s.held w gs) (hb : s.BackPointer) :
    s'.BackPointer ↔ ∀ g ∈ gs, ∀ r ∈ g, (s.runner r).worker = some w := by
  constructor
  · intro hb' g hg r hr
    rw [← h.pointer]
    refine hb' w r ⟨g, ?_, hr⟩
    rwa [hheld, Function.update_self]
  · rintro hcond v r ⟨g, hg, hr⟩
    rw [h.pointer]
    rw [hheld] at hg
    by_cases hv : v = w
    · subst hv
      rw [Function.update_self] at hg
      exact hcond g hg r hr
    · rw [Function.update_of_ne hv] at hg
      exact hb v r ⟨g, hg, hr⟩

theorem Effect.backPointer_iff {s s' : State} {op : Op} (h : Effect E s op s') (hs : s.Wf)
    (hb : s.BackPointer) : s'.BackPointer ↔ s.PointsRight E op := by
  cases h with
  | tasks hop h hbusy =>
    have hcond : s.PointsRight E op := by cases op <;> trivial
    refine iff_of_true (fun w r hr => ?_) hcond
    rw [h.pointer]
    exact hb w r ((h.holds w r).mp hr)
  | made groupId priority =>
    refine iff_of_true (fun w r hr => ?_) trivial
    have hne : r ≠ s.globalTaskRunnerId := (hs.known w r hr).ne
    simp only [Function.update_of_ne hne]
    exact hb w r hr
  | created hspot h =>
    refine iff_of_true (fun v r hr => ?_) trivial
    rw [h.runner]
    rcases h.holds.mp hr with hr | ⟨rfl, rfl⟩
    · rw [Function.update_of_ne (hs.known v r hr).ne]
      exact hb v r hr
    · rw [Function.update_self]
  | @notStacked r sub b hr =>
    rw [hs.lock] at hr
    refine iff_of_true hb fun w hw => ?_
    rw [hr] at hw
    cases hw
  | @stacked r sub b w gs _ hr hsub hgs h hbusy hheld =>
    obtain ⟨hr, hw⟩ := lock_eq_some.mp hr
    rw [update_backPointer h hheld hb]
    have hmem : ∀ x, (∃ g ∈ gs, x ∈ g) ↔ s.Holds w x ∨ x = sub := fun x => mem_pushChild_flatten hgs
    constructor
    · intro hcond v hv
      cases hr.symm.trans hv
      obtain ⟨g, hg, hx⟩ := (hmem sub).mpr (Or.inr rfl)
      exact hcond g hg sub hx
    · intro hcond g hg x hx
      rcases (hmem x).mp ⟨g, hg, hx⟩ with hx | rfl
      · exact hb w x hx
      · exact hcond w hr
  | notUnstacked hr => exact iff_of_true hb trivial
  | @unstacked r sub w _ hsub hr h hbusy hheld =>
    refine iff_of_true ?_ trivial
    rw [update_backPointer h hheld hb]
    intro g hg x hx
    exact hb w x (erased_holds ⟨g, hg, hx⟩)
  | removed h hbusy hheld hrest =>
    refine iff_of_true (fun w r hr => ?_) trivial
    rw [h.pointer]
    by_cases hw : w ∈ s.workers
    · rw [Holds, hheld w hw] at hr
      exact hb w r (erased_holds hr)
    · rw [Holds, hrest w hw] at hr
      exact hb w r hr
  | resized h => exact resize_backPointer hs h hb
  | workerAdded h => exact resize_backPointer hs h hb

end State

/-- **The back pointer.** Along a run of a new manager every runner points to the
worker that holds it exactly when every resize and every stacking is one that
leaves the pointers right. -/
theorem back_pointer_iff {E : Env} {n : Nat} (hn : 1 ≤ n) (ops : List Op) :
    Always (step E) State.BackPointer (State.new E n) ops ↔
      Meets (step E) (State.PointsRight E) (State.new E n) ops := by
  refine always_iff_meets (A := fun _ => True) (J := State.Wf) ?_ ?_ (fun _ _ => trivial)
    (State.new_wf hn) ?_
  · exact fun s op s' _ hs h => (State.step_effect h).wf hs
  · exact fun s op s' _ hs hb h => (State.step_effect h).backPointer_iff hs hb
  · rintro w r ⟨g, hg, -⟩
    rw [State.new_held] at hg
    cases hg

/-- Father and sub runner are on the same worker. -/
theorem back_pointer_same_worker : Always (step .debug) State.BackPointer (State.new .debug 2)
    [.createTaskRunner 5 1 true, .createTaskRunner 5 1 true, .addSubTaskRunner 0 1 false] := by
  refine (back_pointer_iff (by decide) _).mpr (meets_of_take fun k op hk => ?_)
  match k, hk with
  | 0, rfl => trivial
  | 1, rfl => trivial
  | 2, rfl =>
    have hsame : ((last (step .debug) (State.new .debug 2)
        [.createTaskRunner 5 1 true, .createTaskRunner 5 1 true]).runner 1).worker =
      ((last (step .debug) (State.new .debug 2)
        [.createTaskRunner 5 1 true, .createTaskRunner 5 1 true]).runner 0).worker := by decide
    exact fun w hw => hsame.trans hw

/-- The sub runner has no worker of its own. -/
theorem sub_runner_points_nowhere : ¬ Always (step .debug) State.BackPointer (State.new .debug 2)
    [.createTaskRunner 0 1 true, .createTaskRunner 0 1 false, .addSubTaskRunner 0 1 false] := by
  intro h
  have hb := always_iff_run.mp h _ List.prefix_rfl _ (run_last (by decide))
  have hp := hb 0 1 ⟨[0, 1], by decide, by decide⟩
  revert hp
  decide

end Footstone
