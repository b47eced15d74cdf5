import Footstone.Resizing

/-!
What one step can do, and that every reachable state is well formed. `Effect`
has a case for each way a step returns; the invariants of the system are proved
by cases on it.
-/

namespace Footstone

/-- The steps that post, take or finish a task. -/
def Op.IsTask : Op → Prop
  | .postTask .. | .postDelayedTask .. | .postIdleTask .. | .runTask .. | .finishTask .. => True
  | _ => False

namespace State

/-- What a step that returns does to the placement of the runners. -/
inductive Effect (E : Env) (s : State) : Op → State → Prop where
  | tasks {op : Op} {s' : State} (hop : op.IsTask) (h : SamePlaces s s') (hbusy : BusyStep s s') :
      Effect E s op s'
  | made (groupId priority : UInt32) : Effect E s (.createTaskRunner groupId priority false)
      { s with
        globalTaskRunnerId := s.globalTaskRunnerId + 1
        runner := Function.update s.runner s.globalTaskRunnerId
          { groupId := groupId, priority := priority, isSchedulable := false } }
  | created {groupId priority : UInt32} {w : WorkerId} {s' : State}
      (hspot : s.spot groupId = some w) (h : Created s s' w groupId priority) :
      Effect E s (.createTaskRunner groupId priority true) s'
  | notStacked {r sub : RunnerId} {b : Bool} (hr : s.lock (s.runner r).worker = none) :
      Effect E s (.addSubTaskRunner r sub b) s
  | stacked {r sub : RunnerId} {b : Bool} {w : WorkerId} {gs : List Group} {s' : State}
      (hr : s.lock (s.runner r).worker = some w) (hsub : sub < s.globalTaskRunnerId)
      (hgs : Worker.pushChild r sub (s.held w) = some gs) (h : SameBooks s s')
      (hbusy : s'.busy = s.busy) (hheld : s'.held = Function.update s.held w gs) : Effect E s (.addSubTaskRunner r sub b) s'
  | notUnstacked {r sub : RunnerId}
      (hr : (s.runner r).hasSubRunner = false ∨ s.lock (s.runner r).worker = none) :
      Effect E s (.removeSubTaskRunner r sub) s
  | unstacked {r sub : RunnerId} {w : WorkerId} {s' : State}
      (hsub : (s.runner r).hasSubRunner = true) (hr : s.lock (s.runner r).worker = some w)
      (h : SameBooks s s') (hbusy : s'.busy = s.busy)
      (hheld : s'.held = Function.update s.held w (Worker.erased sub (s.held w))) :
      Effect E s (.removeSubTaskRunner r sub) s'
  | removed {r : RunnerId} {s' : State} (h : SameBooks s s') (hbusy : s'.busy = s.busy)
      (hheld : ∀ w ∈ s.workers, s'.held w = Worker.erased r (s.held w))
      (hrest : ∀ w, w ∉ s.workers → s'.held w = s.held w) :
      Effect E s (.removeTaskRunner r) s'
  | resized {n : Nat} {s' : State} (h : s.resize E n = .ok s') : Effect E s (.resize n) s'
  | workerAdded {s' : State} (h : s.resize E (s.size + 1) = .ok s') : Effect E s .addWorker s'

variable {E : Env}

theorem step_effect {s s' : State} {op : Op} (h : step E s op = .ok s') : Effect E s op s' := by
  cases op with
  | createTaskRunner groupId priority isSchedulable =>
    rcases createTaskRunner_cases h with ⟨rfl, rfl⟩ | ⟨rfl, w, hspot, h⟩
    · exact .made groupId priority
    · exact .created hspot h
  | addSubTaskRunner r sub b =>
    obtain ⟨_, hknown, h⟩ := Runs.bind_eq_ok.mp h
    obtain ⟨⟨_, t⟩, h, ht⟩ := Runs.bind_eq_ok.mp h
    cases ht
    have hsub := known_eq_ok.mp hknown sub (by simp)
    rcases addSubTaskRunner_cases h with ⟨hr, rfl⟩ | ⟨w, gs, hr, hgs, h, hbusy, hheld⟩
    · exact .notStacked hr
    · exact .stacked hr hsub hgs h hbusy hheld
  | removeSubTaskRunner r sub =>
    obtain ⟨_, -, h⟩ := Runs.bind_eq_ok.mp h
    cases h
    rcases removeSubTaskRunner_cases s r sub with ⟨hr, hs⟩ | ⟨w, hsub, hr, h, hbusy, hheld⟩
    · rw [hs]
      exact .notUnstacked hr
    · exact .unstacked hsub hr h hbusy hheld
  | removeTaskRunner r =>
    obtain ⟨_, -, h⟩ := Runs.bind_eq_ok.mp h
    cases h
    obtain ⟨h, hheld⟩ := removeTaskRunner_spec s r
    exact .removed h rfl hheld fun w hw => by simp [removeTaskRunner, State.held, hw]
  | resize n => exact .resized h
  | addWorker => exact .workerAdded (by rwa [← addWorker_eq])
  | postTask r task =>
    obtain ⟨h, -, hbusy⟩ := post_samePlaces (TaskRunner.postTask_place task) h
    exact .tasks trivial h (.same hbusy)
  | postDelayedTask r now task delay =>
    obtain ⟨h, -, hbusy⟩ := post_samePlaces (TaskRunner.postDelayedTask_place E now task delay) h
    exact .tasks trivial h (.same hbusy)
  | postIdleTask r task =>
    obtain ⟨h, -, hbusy⟩ := post_samePlaces (TaskRunner.postIdleTask_place task) h
    exact .tasks trivial h (.same hbusy)
  | runTask w clock =>
    obtain ⟨h, hbusy⟩ := runTask_samePlaces h
    exact .tasks trivial h hbusy
  | finishTask w elapsed =>
    obtain ⟨h, -, r, rest, hw, hbusy⟩ := finishTask_samePlaces h
    exact .tasks trivial h (.ends w r rest hw hbusy)

/-! ## Well-formedness -/

/-- A step that leaves the books alone and adds no runner to a worker. -/
theorem SameBooks.wf {s s' : State} (h : SameBooks s s') (hs : s.Wf)
    (hholds : ∀ w r, s'.Holds w r → s.Holds w r ∨ r < s.globalTaskRunnerId)
    (hout : ∀ w, w ∉ s.workers → s'.held w = []) : s'.Wf where
  nodup := by rw [h.workers]; exact hs.nodup
  lt_next w hw := by rw [h.nextWorker]; rw [h.workers] at hw; exact hs.lt_next w hw
  size_pos := by rw [h.size]; exact hs.size_pos
  size_le := by rw [h.size, h.workers]; exact hs.size_le
  isTerminated w hw := by rw [h.isTerminated]; rw [h.workers] at hw; exact hs.isTerminated w hw
  outside w hw := by rw [h.workers] at hw; exact hout w hw
  pointer r w hr := by
    rw [h.workers]
    exact hs.pointer r w ((h.pointer r).symm.trans hr)
  known w r hr := by
    rw [h.globalTaskRunnerId]
    rcases hholds w r hr with hr | hr
    · exact hs.known w r hr
    · exact hr

theorem mem_pushChild_flatten {father child r : RunnerId} {gs gs' : List Group}
    (h : Worker.pushChild father child gs = some gs') :
    (∃ g ∈ gs', r ∈ g) ↔ (∃ g ∈ gs, r ∈ g) ∨ r = child := by
  obtain ⟨pre, g, post, rfl, -, rfl⟩ := Worker.mem_pushChild h
  simp only [List.mem_append, List.mem_cons, or_and_right, exists_or]
  grind

theorem Created.wf {s s' : State} {w : WorkerId} {groupId priority : UInt32}
    (h : Created s s' w groupId priority) (hw : w ∈ s.workers) (hs : s.Wf) : s'.Wf where
  nodup := by rw [h.workers]; exact hs.nodup
  lt_next v hv := by rw [h.nextWorker]; rw [h.workers] at hv; exact hs.lt_next v hv
  size_pos := by rw [h.size]; exact hs.size_pos
  size_le := by rw [h.size, h.workers]; exact hs.size_le
  isTerminated v hv := by rw [h.isTerminated]; rw [h.workers] at hv; exact hs.isTerminated v hv
  outside v hv := by
    rw [h.workers] at hv
    have hne : v ≠ w := fun e => hv (e ▸ hw)
    rw [h.held, Function.update_of_ne hne]
    exact hs.outside v hv
  pointer r v hr := by
    rw [h.workers]
    rw [h.runner] at hr
    by_cases he : r = s.globalTaskRunnerId
    · subst he
      rw [Function.update_self] at hr
      cases hr
      exact hw
    · rw [Function.update_of_ne he] at hr
      exact hs.pointer r v hr
  known v r hr := by
    rw [h.globalTaskRunnerId]
    rcases h.holds.mp hr with hr | ⟨rfl, -⟩
    · exact Nat.lt_succ_of_lt (hs.known v r hr)
    · exact Nat.lt_succ_self _

theorem erased_holds {r x : RunnerId} {gs : List Group} (h : ∃ g ∈ Worker.erased r gs, x ∈ g) :
    ∃ g ∈ gs, x ∈ g := by
  obtain ⟨g, hg, hx⟩ := h
  obtain ⟨g', hg', hsub⟩ := Worker.mem_erased hg
  exact ⟨g', hg', hsub.subset hx⟩

theorem Effect.wf {s s' : State} {op : Op} (h : Effect E s op s') (hs : s.Wf) : s'.Wf := by
  cases h with
  | tasks hop h hbusy =>
    refine h.toSameBooks.wf hs (fun w r hr => Or.inl ((h.holds w r).mp hr)) fun w hw => ?_
    have := h.held w
    rw [hs.outside w hw] at this
    exact this.eq_nil
  | made groupId priority =>
    refine ⟨hs.nodup, hs.lt_next, hs.size_pos, hs.size_le, hs.isTerminated, hs.outside, ?_,
      fun w r hr => Nat.lt_succ_of_lt (hs.known w r hr)⟩
    intro r w hr
    by_cases he : r = s.globalTaskRunnerId
    · subst he
      simp at hr
    · simp only [Function.update_of_ne he] at hr
      exact hs.pointer r w hr
  | created hspot h => exact h.wf (spot_mem hspot) hs
  | notStacked hr => exact hs
  | @stacked r sub b w gs _ hr hsub hgs h hbusy hheld =>
    have hw := (lock_eq_some.mp hr).2
    refine h.wf hs (fun v x hx => ?_) fun v hv => ?_
    · by_cases hv : v = w
      · subst hv
        rw [Holds, hheld, Function.update_self] at hx
        rcases (mem_pushChild_flatten hgs).mp hx with hx | rfl
        · exact Or.inl hx
        · exact Or.inr hsub
      · rw [Holds, hheld, Function.update_of_ne hv] at hx
        exact Or.inl hx
    · rw [hheld, Function.update_of_ne (ne_of_mem_of_not_mem hw hv).symm]
      exact hs.outside v hv
  | notUnstacked hr => exact hs
  | @unstacked r sub w _ hsub hr h hbusy hheld =>
    have hw := (lock_eq_some.mp hr).2
    refine h.wf hs (fun v x hx => Or.inl ?_) fun v hv => ?_
    · by_cases hv : v = w
      · subst hv
        rw [Holds, hheld, Function.update_self] at hx
        exact erased_holds hx
      · rwa [Holds, hheld, Function.update_of_ne hv] at hx
    · rw [hheld, Function.update_of_ne (ne_of_mem_of_not_mem hw hv).symm]
      exact hs.outside v hv
  | removed h hbusy hheld hrest =>
    refine h.wf hs (fun v x hx => Or.inl ?_) fun v hv => ?_
    · by_cases hv : v ∈ s.workers
      · rw [Holds, hheld v hv] at hx
        exact erased_holds hx
      · rwa [Holds, hrest v hv] at hx
    · rw [hrest v hv]
      exact hs.outside v hv
  | resized h => exact resize_wf hs h
  | workerAdded h => exact resize_wf hs h

theorem new_eq (n : Nat) : State.new E n = {
    workers := List.range' 0 n
    index := 0
    size := n
    worker := fun w => if 0 ≤ w ∧ w < 0 + n then { groupId := E.groupId w } else { groupId := 0 }
    nextWorker := 0 + n
    runner := fun _ => { priority := 1, groupId := kDefaultGroupId, isSchedulable := true } } :=
  createWorkers_eq n _

theorem new_held (n : Nat) (w : WorkerId) : (State.new E n).held w = [] := by
  rw [new_eq, State.held]
  dsimp only
  split <;> rfl

theorem new_wf {n : Nat} (hn : 1 ≤ n) : (State.new E n).Wf := by
  refine ⟨?_, ?_, ?_, ?_, ?_, fun w _ => new_held n w, ?_, ?_⟩
  · rw [new_eq]
    exact List.nodup_range' ..
  · intro w hw
    rw [new_eq] at hw ⊢
    exact (List.mem_range'_1.mp hw).2
  · rw [new_eq]
    exact hn
  · rw [new_eq]
    simp
  · intro w _
    rw [new_eq]
    dsimp only
    split <;> rfl
  · intro r w hr
    rw [new_eq] at hr
    cases hr
  · rintro w r ⟨g, hg, -⟩
    rw [new_held] at hg
    cases hg

end State

theorem Reachable.wf {E : Env} {s : State} (h : Reachable E s) : s.Wf := by
  obtain ⟨n, ops, hn, hrun⟩ := h
  exact Runs.run_invariant (fun s op s' hs h => (State.step_effect h).wf hs) (State.new_wf hn) hrun

end Footstone
