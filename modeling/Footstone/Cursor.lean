import Footstone.WellFormed

/-!
The placement cursor. `size - 1 ? 0 : ++index_` resets the cursor of a pool of
several workers and advances that of a pool of one, which leaves it behind the
last worker.
-/

namespace Footstone

open Runs

/-- The calls that use the cursor. -/
def Op.Places : Op → Prop
  | .createTaskRunner .. | .resize _ | .addWorker => True
  | _ => False

namespace State

variable {E : Env}

/-- The cursor is inside the pool. -/
def InRange (s : State) : Prop := s.index < s.size ∧ s.size ≤ s.workers.length

/-- No placement on a pool of one, and no shrinking to one with groups to place. -/
def CursorAt (s : State) : Op → Prop
  | .createTaskRunner groupId _ isSchedulable =>
    isSchedulable = true → s.groupWorker groupId = none → s.size ≠ 1
  | .resize n => n = 1 → s.size ≠ 1 → s.releasedGroups 1 = []
  | _ => True

/-! ## Where a call leaves the cursor -/

theorem advance_lt {size index : Nat} (h₁ : 1 ≤ size) (h₂ : index < size) :
    advance size index < size ↔ size ≠ 1 := by
  unfold advance
  split <;> omega

theorem advance_iterate_lt {n index : Nat} (h₁ : 1 ≤ n) (h₂ : index < n) (k : Nat) :
    (advance n)^[k] index < n ↔ (n = 1 → k = 0) := by
  rw [advance_iterate]
  split
  · omega
  · split <;> omega

theorem landingStart_lt {s : State} {n : Nat} (h : 1 ≤ n) : s.landingStart n < n := by
  unfold landingStart
  split <;> omega

theorem resize_inRange {s s' : State} (hs : s.Wf) (hi : s.InRange) {n : Nat}
    (h : s.resize E n = .ok s') : s'.InRange ↔ (n = 1 → s.size ≠ 1 → s.releasedGroups 1 = []) := by
  have hle := (resize_wf hs h).size_le
  have hindex : s'.InRange ↔ s'.index < s'.size := and_iff_left hle
  rw [hindex]
  rcases (resize_eq_ok hs).mp h with ⟨rfl, rfl⟩ | ⟨hlt, -, rfl⟩ | ⟨hpos, hlt, h⟩
  · exact iff_of_true hi.1 fun h₁ h₂ => absurd h₁ h₂
  · have hgrown : ((s.staged E n).grown n).index = s.size := staged_size s n
    have := hs.size_pos
    refine iff_of_true ?_ fun h₁ => by omega
    rw [hgrown]
    exact hlt
  · obtain ⟨u, -, rfl, hu⟩ := shrink_spec hs.nodup hs.size_pos hs.size_le hlt h
    have hiff := advance_iterate_lt hpos (landingStart_lt (s := s) hpos) (s.releasedGroups n).length
    rw [← hu] at hiff
    refine hiff.trans ?_
    rw [List.length_eq_zero_iff]
    constructor
    · rintro hk rfl -
      exact hk rfl
    · rintro hk rfl
      exact hk rfl (by omega)

theorem Effect.inRange_iff {s s' : State} {op : Op} (h : Effect E s op s') (hs : s.Wf)
    (hi : s.InRange) : s'.InRange ↔ s.CursorAt op := by
  have hsame : ∀ {t : State}, SameBooks s t → t.InRange := by
    intro t ht
    unfold InRange
    rw [ht.index, ht.size, ht.workers]
    exact hi
  cases h with
  | tasks hop h hbusy => exact iff_of_true (hsame h.toSameBooks) (by cases op <;> trivial)
  | made groupId priority => exact iff_of_true hi nofun
  | @created groupId priority w _ hspot h =>
    unfold InRange CursorAt
    rw [h.index, h.size, h.workers, and_iff_left hs.size_le]
    split
    · rename_i hg
      simp [advance_lt hs.size_pos hi.1, hg]
    · rename_i hg
      simp [hi.1, hg]
  | notStacked hr => exact iff_of_true hi trivial
  | stacked hr hsub hgs h hbusy hheld => exact iff_of_true (hsame h) trivial
  | notUnstacked hr => exact iff_of_true hi trivial
  | unstacked hsub hr h hbusy hheld => exact iff_of_true (hsame h) trivial
  | removed h hbusy hheld hrest => exact iff_of_true (hsame h) trivial
  | resized h => exact resize_inRange hs hi h
  | workerAdded h =>
    have := hs.size_pos
    exact (resize_inRange hs hi h).trans (iff_of_true (fun h₁ => by omega) trivial)

/-! ## The accesses through the cursor -/

theorem check_ne_cursor (b : Bool) : check b ≠ .error .cursor := by
  cases b <;> simp [check]

theorem subscripts_ne_cursor (n : Nat) (s : State) : s.subscripts n ≠ .error .cursor := by
  unfold subscripts
  split <;> simp

theorem retainLoop_ne_cursor (runner : Runners) (gs : List Group) :
    Worker.retainLoop runner gs ≠ .error .cursor := by
  induction gs with
  | nil => simp [Worker.retainLoop]
  | cons g gs ih =>
    rw [Worker.retainLoop]
    split
    · exact bind_ne_error ih fun _ _ => by simp [pure, Except.pure]
    · simp

theorem retain_ne_cursor (runner : Runners) (w : Worker) :
    w.retainActiveAndUnschedulable runner ≠ .error .cursor := by
  refine bind_ne_error ?_ fun _ _ => by simp [pure, Except.pure]
  cases w.runningGroups with
  | nil => simp [Worker.retainRunning]
  | cons g gs =>
    exact bind_ne_error (retainLoop_ne_cursor runner gs) fun _ _ => by simp [pure, Except.pure]

theorem gather_ne_cursor (runner : Runners) (ws : List WorkerId) (acc : Gathered) :
    gather runner ws acc ≠ .error .cursor := by
  induction ws generalizing acc with
  | nil => simp [gather]
  | cons w ws ih => exact bind_ne_error (retain_ne_cursor runner _) fun _ _ => ih _

theorem moveSpecifics_ne_cursor (dst : WorkerId) (rs : List RunnerId) (s : State) :
    moveSpecifics dst rs s ≠ .error .cursor := by
  induction rs generalizing s with
  | nil => simp [moveSpecifics]
  | cons r rs ih =>
    rw [moveSpecifics]
    split
    · exact ih _
    · simp

/-- The second loop of the growing branch stays inside `workers_`. -/
theorem distribute_ne_cursor {q : Nat} {cur rest : List Nat} {groups : List Group} {s : State}
    (h : ∀ i ∈ rest, i < s.workers.length) : distribute q cur rest groups s ≠ .error .cursor := by
  induction rest generalizing groups s with
  | nil => simp [distribute]
  | cons i rest ih =>
    obtain ⟨hi, hrest⟩ := List.forall_mem_cons.mp h
    rw [distribute, List.getElem?_eq_getElem hi]
    refine bind_ne_error (moveSpecifics_ne_cursor _ _ s) fun t ht => ih fun j hj => ?_
    obtain ⟨-, rfl⟩ := moveSpecifics_eq_ok.mp ht
    exact hrest j hj

theorem grow_ne_cursor {s : State} {n : Nat} (h₁ : s.size ≤ n) (h₂ : n ≤ s.workers.length) :
    s.grow n ≠ .error .cursor := by
  refine bind_ne_error (subscripts_ne_cursor _ s) fun pool _ => ?_
  refine bind_ne_error (gather_ne_cursor _ pool _) fun acc _ => ?_
  refine bind_ne_error (distribute_ne_cursor fun i hi => ?_) fun _ _ => by simp [pure, Except.pure]
  simp only [ring_eq h₁, List.mem_append, List.mem_range'_1, List.mem_range] at hi
  simp only
  omega

theorem unbindWorkers_ne_cursor (runner : Runners) (ws : List WorkerId) (acc : Unbound) :
    unbindWorkers runner ws acc ≠ .error .cursor := by
  induction ws generalizing acc with
  | nil =>
    rw [unbindWorkers]
    split <;> simp
  | cons w ws ih =>
    rw [unbindWorkers]
    split
    · split
      · exact ih acc
      · exact ih _
    · simp

theorem retainWorkers_ne_cursor (runner : Runners) (ws : List WorkerId) (groups : List Group)
    (worker : WorkerId → Worker) : retainWorkers runner ws groups worker ≠ .error .cursor := by
  induction ws generalizing groups worker with
  | nil => simp [retainWorkers]
  | cons w ws ih => exact bind_ne_error (retain_ne_cursor runner _) fun _ _ => ih _ _

/-- The third loop of the shrinking branch, while its cursor is inside `workers_`. -/
theorem rebind_ne_cursor {size : Nat} {groups : List Group} {s : State}
    (h : ∀ k, k < groups.length → s.workers[(advance size)^[k] s.index]? ≠ none) :
    rebind size groups s ≠ .error .cursor := by
  induction groups generalizing s with
  | nil => simp [rebind]
  | cons g groups ih =>
    obtain ⟨w, hw⟩ := Option.ne_none_iff_exists'.mp (h 0 (by simp))
    rw [rebind, cursor_eq_ok.mpr hw]
    refine bind_ne_error (by simp) fun v hv => ?_
    cases hv
    refine bind_ne_error (by cases g <;> simp [Worker.bind]) fun x hx => ih fun k hk => ?_
    have hindex : (g.foldl (adopt w) (s.setWorker w x)).index = s.index :=
      (foldl_adopt_adopted w g _).index
    have hworkers : (g.foldl (adopt w) (s.setWorker w x)).workers = s.workers :=
      (foldl_adopt_adopted w g _).workers
    have hnext := h (k + 1) (by simpa using hk)
    rw [Function.iterate_succ_apply] at hnext
    simpa only [hindex, hworkers] using hnext

theorem shrink_ne_cursor {s : State} (hs : s.Wf) {n : Nat} (h₁ : 1 ≤ n) (h₂ : n < s.size)
    (hc : n = 1 → (s.releasedGroups n).length ≤ s.workers.length) :
    s.shrink E n (s.size - n) ≠ .error .cursor := by
  have hland := (landing_ne_none (s := s) h₁ (h₂.le.trans hs.size_le) _).mpr hc
  refine bind_ne_error (subscripts_ne_cursor _ s) fun pool hpool => ?_
  cases hpool.symm.trans (if_pos hs.size_le)
  refine bind_ne_error (unbindWorkers_ne_cursor _ _ _) fun acc hacc => ?_
  obtain ⟨hle, rfl⟩ := (unbindWorkers_pool hs.nodup hs.size_pos hs.size_le).mp hacc
  refine bind_ne_error (check_ne_cursor _) fun _ _ => ?_
  rw [if_neg (by simp only [Unbound.after]; omega)]
  refine bind_ne_error (subscripts_ne_cursor _ _) fun kept hkept => ?_
  cases hkept.symm.trans (if_pos (h₂.le.trans hs.size_le))
  refine bind_ne_error (retainWorkers_ne_cursor _ _ _ _) fun out hout => ?_
  obtain ⟨-, rfl⟩ := (retainWorkers_eq_ok (hs.nodup.sublist (List.take_sublist n s.workers))).mp hout
  refine bind_ne_error (rebind_ne_cursor fun k hk => ?_) fun u hu => ?_
  · have hgroups := unboundWorker_pending s n (s.workers.take n)
    simp only [List.length_append] at hk
    refine hland k ?_
    rw [releasedGroups, List.length_append, ← hgroups]
    exact hk
  · rw [terminateWorkers_self]
    simp

theorem resize_ne_cursor {s : State} (hs : s.Wf) {n : Nat}
    (hc : n = 1 → s.size ≠ 1 → s.releasedGroups 1 = []) : s.resize E n ≠ .error .cursor := by
  rw [resize_eq]
  split
  · simp
  · split
    · rename_i hlt
      have := hs.size_le
      refine grow_ne_cursor (by rw [staged_size]; omega) ?_
      rw [staged_workers, List.length_append, List.length_range']
      omega
    · split
      · simp
      · refine shrink_ne_cursor hs (by omega) (by omega) ?_
        rintro rfl
        simp [hc rfl (by omega)]

theorem createTaskRunner_ne_cursor {s : State} (hi : s.InRange) (groupId priority : UInt32)
    (isSchedulable : Bool) :
    s.createTaskRunner groupId priority isSchedulable ≠ .error .cursor := by
  cases isSchedulable with
  | false => simp [createTaskRunner]
  | true =>
    have hspot : ∃ w, s.spot groupId = some w := by
      rw [spot, List.getElem?_eq_getElem (hi.1.trans_le hi.2)]
      cases s.groupWorker groupId with
      | none => exact ⟨_, rfl⟩
      | some w => exact ⟨w, rfl⟩
    obtain ⟨w, hw⟩ := hspot
    simp [createTaskRunner_eq, hw]

end State

/-- **The cursor stays in range.** Along a run of a new manager the cursor stays
inside the pool exactly when every call leaves it there, and a call under that
condition from the end of such a run accesses the pool through the cursor only
inside `workers_`. -/
theorem cursor_in_range_iff {E : Env} {n : Nat} (hn : 1 ≤ n) (ops : List Op) :
    (Always (step E) State.InRange (State.new E n) ops ↔
      Meets (step E) State.CursorAt (State.new E n) ops) ∧
    (Always (step E) State.InRange (State.new E n) ops →
      ∀ s, run (step E) (State.new E n) ops = .ok s →
        ∀ op : Op, op.Places → s.CursorAt op → step E s op ≠ .error .cursor) := by
  constructor
  · refine always_iff_meets (A := fun _ => True) (J := State.Wf) ?_ ?_ (fun _ _ => trivial)
      (State.new_wf hn) ?_
    · exact fun s op s' _ hs h => (State.step_effect h).wf hs
    · exact fun s op s' _ hs hi h => (State.step_effect h).inRange_iff hs hi
    · rw [State.new_eq]
      exact ⟨hn, by simp⟩
  · intro h s hrun op hop hc
    have hi := always_iff_run.mp h ops List.prefix_rfl s hrun
    have hs : s.Wf := Reachable.wf ⟨n, ops, hn, hrun⟩
    cases op with
    | createTaskRunner groupId priority isSchedulable =>
      exact State.createTaskRunner_ne_cursor hi groupId priority isSchedulable
    | resize m => exact State.resize_ne_cursor hs hc
    | addWorker =>
      rw [step, State.addWorker_eq]
      have := hs.size_pos
      exact State.resize_ne_cursor hs fun h₁ => by omega
    | _ => exact hop.elim

/-- Two runners are created on a pool of two that is resized in between. -/
theorem cursor_in_range_pair : Always (step .debug) State.InRange (State.new .debug 2)
    [.createTaskRunner 0 1 true, .resize 3, .createTaskRunner 7 1 true] := by
  refine (cursor_in_range_iff (by decide) _).1.mpr (meets_of_take fun k op hk => ?_)
  match k, hk with
  | 0, rfl => exact fun _ _ => by decide
  | 1, rfl => nofun
  | 2, rfl => exact fun _ _ => by decide

/-- On a pool of one the first runner moves the cursor behind the pool. -/
theorem cursor_leaves_pool : ¬ Always (step .debug) State.InRange (State.new .debug 1)
    [.createTaskRunner 0 1 true] := by
  intro h
  have hi := always_iff_run.mp h _ List.prefix_rfl _ (run_last (by decide))
  have hlt := hi.1
  revert hlt
  decide

end Footstone
