import Footstone.Lib.Variant
import Footstone.ThreadPool

/-!
What the threads of a `ThreadPool` wait for. No worker sleeps over a task that nobody is
about to look at, for `Enqueue` notifies after it has let go of the mutex and a worker looks at
the queue again before it waits. Once the pool is stopped, there is an end to what its threads
can do, and it is the end of the destructor.
-/

namespace Footstone

namespace ThreadPool

/-- A worker that is about to look at the queue. -/
def WorkerPc.ready : WorkerPc → Nat
  | .locking => 1
  | _ => 0

namespace System

variable {τ : Type} {n : Nat} {s s' : System τ n} {w : Fin n} {t : τ}

theorem goTo_waiting {pc : WorkerPc} {v : Fin n} (hv : (s.goTo w pc).worker v = .waiting)
    (hpc : pc ≠ .waiting) : s.worker v = .waiting := by
  rcases eq_or_ne v w with rfl | hne
  · exact absurd (by simpa [goTo] using hv) hpc
  · simpa [goTo, hne] using hv

/-- How many workers are about to look at the queue. -/
def ready (s : System τ n) : Nat := ∑ w, (s.worker w).ready

theorem ready_goTo (s : System τ n) (w : Fin n) (pc : WorkerPc) :
    (s.goTo w pc).ready + (s.worker w).ready = s.ready + pc.ready :=
  Variant.sum_update WorkerPc.ready s.worker w pc

/-! ## Who is woken -/

variable [DecidableEq τ]

/-- A worker waits when there is nothing to do. -/
theorem work_waits (hs : s.step (.work w) = .ok s') (hw : s'.worker w = .waiting) :
    s.pool.tasks = [] ∧ s.pool.stop = false := by
  simp only [step] at hs
  split at hs
  · rcases work_cases s.pool with ⟨hq, hstop, -⟩ | ⟨-, -, hwork⟩ | ⟨task, rest, -, hwork⟩
    · exact ⟨hq, hstop⟩
    · rw [hwork] at hs
      cases hs
      simp [goTo] at hw
    · rw [hwork] at hs
      cases hs
      simp [goTo] at hw
  · cases hs

/-- `notify_one` is lost on nobody but a pool in which no worker waits. -/
theorem notifyOne_wakes {w? : Option (Fin n)} (hs : s.step (.notifyOne t w?) = .ok s') :
    (∃ w, s.worker w = .waiting ∧ s'.worker = (s.goTo w .locking).worker) ∨
      s'.worker = s.worker ∧ ∀ w, s.worker w ≠ .waiting := by
  simp only [step] at hs
  split at hs
  · cases hs
  · split at hs
    · rename_i hcan
      cases hs
      cases w? with
      | none => exact Or.inr ⟨rfl, hcan⟩
      | some w => exact Or.inl ⟨w, hcan, rfl⟩
    · cases hs

theorem notifyAll_wakes (hs : s.step .notifyAll = .ok s') : ∀ w, s'.worker w ≠ .waiting := by
  simp only [step] at hs
  split at hs
  · cases hs
    intro w
    show (if s.worker w = .waiting then WorkerPc.locking else s.worker w) ≠ .waiting
    split
    · simp
    · assumption
  · cases hs

/-! ## No worker sleeps over a task -/

/-- The threads `waking` have queued a task and have yet to notify. While some worker waits,
there are enough of them and of the workers that are about to look at the queue for all that is
in it. When the destructor has notified, no worker waits. -/
structure Attended (s : System τ n) (waking : List τ) : Prop where
  nodup : waking.Nodup
  mem : ∀ t, t ∈ waking ↔ s.caller t ≠ .idle
  enough : (∃ w, s.worker w = .waiting) → s.pool.tasks.length ≤ s.ready + waking.length
  joining : ∀ i, s.destructor = .joining i → ∀ w, s.worker w ≠ .waiting

namespace Attended

variable {waking : List τ}

omit [DecidableEq τ] in
/-- A step of a worker that does not go to wait and leaves the callers alone. -/
theorem worker (h : s.Attended waking) (w : Fin n) (pc : WorkerPc) (hpc : pc ≠ .waiting)
    (hworker : s'.worker = (s.goTo w pc).worker) (hcaller : s'.caller = s.caller)
    (hdestructor : s'.destructor = s.destructor)
    (hready : s'.pool.tasks.length + (s.worker w).ready ≤ s.pool.tasks.length + pc.ready) :
    s'.Attended waking where
  nodup := h.nodup
  mem t := by rw [hcaller, h.mem]
  enough := by
    rintro ⟨v, hv⟩
    rw [hworker] at hv
    have henough := h.enough ⟨v, goTo_waiting hv hpc⟩
    have hsum : s'.ready + (s.worker w).ready = s.ready + pc.ready := by
      rw [ready, hworker]
      exact ready_goTo s w pc
    omega
  joining i hi v hv := by
    rw [hworker] at hv
    exact h.joining i (hdestructor ▸ hi) v (goTo_waiting hv hpc)

theorem queued (h : s.Attended waking) (hs : s.step (.enqueue t) = .ok s') :
    ∃ waking', s'.Attended waking' := by
  simp only [step] at hs
  split at hs
  · rename_i ht heq
    rcases enqueue_cases s.pool with ⟨-, hqueued⟩ | ⟨-, hthrown⟩
    · rw [hqueued] at heq
      cases heq
      cases hs
      refine ⟨t :: waking, ?_, ?_, ?_, h.joining⟩
      · exact List.nodup_cons.mpr ⟨fun hmem => (h.mem t).mp hmem ht, h.nodup⟩
      · intro u
        rcases eq_or_ne u t with rfl | hne
        · simp
        · simp [hne, h.mem u]
      · intro hw
        have := h.enough hw
        simp only [List.length_append, List.length_cons, List.length_nil]
        show s.pool.tasks.length + (0 + 1) ≤ s.ready + (waking.length + 1)
        omega
    · rw [hthrown] at heq
      cases heq
  · cases hs
    exact ⟨waking, h.nodup, h.mem, h.enough, h.joining⟩
  · cases hs

theorem notified (h : s.Attended waking) {w? : Option (Fin n)}
    (hs : s.step (.notifyOne t w?) = .ok s') : ∃ waking', s'.Attended waking' := by
  have hwakes := notifyOne_wakes hs
  cases step_effect hs with
  | @notified _ _ task worker ht hworker =>
    have hmem : t ∈ waking := (h.mem t).mpr (by simp [ht])
    have hlength := List.length_erase_of_mem hmem
    have hpos := List.length_pos_of_mem hmem
    refine ⟨waking.erase t, h.nodup.erase t, fun u => ?_, ?_, fun i hi v hv => ?_⟩
    · rcases eq_or_ne u t with rfl | hne
      · simp [h.nodup.mem_erase_iff]
      · simp [h.nodup.mem_erase_iff, hne, h.mem u]
    · rintro ⟨v, hv⟩
      -- Either one more worker is about to look at the queue, or none waits.
      rcases hwakes with ⟨w, hw, heq⟩ | ⟨heq, hnone⟩
      · have henough := h.enough ⟨w, hw⟩
        have hsum := ready_goTo s w .locking
        rw [hw] at hsum
        simp only [WorkerPc.ready, Nat.add_zero] at hsum
        show s.pool.tasks.length ≤ ∑ w, (worker w).ready + (waking.erase t).length
        rw [show worker = (s.goTo w .locking).worker from heq]
        show s.pool.tasks.length ≤ (s.goTo w .locking).ready + (waking.erase t).length
        omega
      · rw [show worker = s.worker from heq] at hv
        exact absurd hv (hnone v)
    · rcases hworker v with heq | ⟨-, heq⟩
      · exact h.joining i hi v (heq.symm.trans hv)
      · cases heq.symm.trans hv

theorem step (h : s.Attended waking) (hi : s.Inv) {op : Op τ n} (hs : s.step op = .ok s') :
    ∃ waking', s'.Attended waking' := by
  cases op with
  | enqueue t => exact h.queued hs
  | notifyOne t w? => exact h.notified hs
  | work w =>
    have hwaits := work_waits hs
    cases step_effect hs with
    | took hw hq =>
      refine ⟨waking, h.worker w (.holding _) (by simp) rfl rfl rfl ?_⟩
      simp [hq, hw, WorkerPc.ready]
    | waits hw =>
      obtain ⟨hq, hstop⟩ := hwaits (by simp [goTo])
      refine ⟨waking, h.nodup, h.mem, fun _ => ?_, fun i hi' => ?_⟩
      · show s.pool.tasks.length ≤ _
        simp [hq]
      · have := hi.orderly.stop.mp (show s.destructor ≠ .notCalled by simp [show s.destructor = _ from hi'])
        rw [hstop] at this
        cases this
    | returns hw hq hstop =>
      refine ⟨waking, h.nodup, h.mem, fun _ => ?_, fun i hi' v hv => ?_⟩
      · show s.pool.tasks.length ≤ _
        simp [hq]
      · exact h.joining i hi' v (goTo_waiting hv (by simp))
  | wake w =>
    cases step_effect hs with
    | woken hw =>
      exact ⟨waking, h.worker w .locking (by simp) rfl rfl rfl (by simp [goTo, hw, WorkerPc.ready])⟩
  | begin w =>
    cases step_effect hs with
    | began hw =>
      exact ⟨waking, h.worker w (.running _) (by simp) rfl rfl rfl (by simp [goTo, hw, WorkerPc.ready])⟩
  | finish w =>
    cases step_effect hs with
    | finished hw =>
      exact ⟨waking, h.worker w .locking (by simp) rfl rfl rfl (by simp [goTo, hw, WorkerPc.ready])⟩
  | stop =>
    cases step_effect hs with
    | stopped hd => exact ⟨waking, h.nodup, h.mem, h.enough, by simp⟩
  | notifyAll =>
    have hnone := notifyAll_wakes hs
    cases step_effect hs with
    | notifiedAll hd hworker =>
      exact ⟨waking, h.nodup, h.mem, fun hw => absurd hw.choose_spec (hnone _), fun _ _ => hnone⟩
  | join =>
    cases step_effect hs with
    | joined hd hi => exact ⟨waking, h.nodup, h.mem, h.enough, fun _ _ => h.joining _ hd⟩

end Attended

/-! ## The end of the destructor -/

end System

/-- What a worker has still to do at most, apart from what is in the queue. -/
def WorkerPc.weight : WorkerPc → Nat
  | .returned => 0
  | .locking => 1
  | .waiting | .running _ => 2
  | .holding _ => 3

def DestructorPc.weight (n : Nat) : DestructorPc → Nat
  | .notCalled => n + 2
  | .notifying => n + 1
  | .joining i => n - i

/-- A step of a worker or of the destructor. -/
def Op.ofPool {τ : Type} {n : Nat} : Op τ n → Bool
  | .enqueue _ | .notifyOne .. => false
  | _ => true

theorem WorkerPc.weight_le (pc : WorkerPc) : pc.weight ≤ 3 := by
  cases pc <;> simp [weight]

namespace System

variable {τ : Type} {n : Nat} {s s' : System τ n}

def workerWeight (s : System τ n) : Nat := ∑ w, (s.worker w).weight

/-- The variant of a pool that is stopped. -/
def weight (s : System τ n) : Nat :=
  4 * s.pool.tasks.length + s.workerWeight + s.destructor.weight n

theorem workerWeight_goTo (s : System τ n) (w : Fin n) (pc : WorkerPc) :
    (s.goTo w pc).workerWeight + (s.worker w).weight = s.workerWeight + pc.weight :=
  Variant.sum_update WorkerPc.weight s.worker w pc

theorem workerWeight_le (s : System τ n) : s.workerWeight ≤ 3 * n := by
  have hle : s.workerWeight ≤ ∑ _w : Fin n, 3 :=
    Finset.sum_le_sum fun w _ => (s.worker w).weight_le
  simpa [Nat.mul_comm] using hle

theorem Woken.weight_le {worker : Fin n → WorkerPc} (h : s.Woken worker) :
    ∑ w, (worker w).weight ≤ s.workerWeight := by
  apply Finset.sum_le_sum
  intro w _
  rcases h w with heq | ⟨hw, heq⟩
  · rw [heq]
  · rw [heq, hw]
    exact Nat.le_succ 1

/-- A worker that goes on from one place to another leaves less to do. -/
theorem weight_goTo (w : Fin n) (pc : WorkerPc) (hworker : s'.worker = (s.goTo w pc).worker)
    (hdestructor : s'.destructor = s.destructor)
    (hlt : 4 * s'.pool.tasks.length + pc.weight < 4 * s.pool.tasks.length + (s.worker w).weight) :
    s'.weight < s.weight := by
  have hsum := s.workerWeight_goTo w pc
  have heq : s'.workerWeight = (s.goTo w pc).workerWeight := by
    rw [workerWeight, hworker]
    rfl
  rw [weight, weight, hdestructor, heq]
  omega

variable [DecidableEq τ] {op : Op τ n}

/-- A step of a thread that calls `Enqueue` makes no more work once the pool is stopped. -/
theorem weight_le_of_caller (hstop : s.pool.stop = true) (hs : s.step op = .ok s')
    (hop : op.ofPool = false) : s'.weight ≤ s.weight := by
  cases step_effect hs with
  | queued hrun =>
    rw [hstop] at hrun
    cases hrun
  | thrown _ => exact le_refl _
  | notified ht hworker =>
    have := hworker.weight_le
    simp only [weight, workerWeight] at this ⊢
    omega
  | _ => cases hop

/-- **Every step of its own threads** leaves a stopped pool with less to do. -/
theorem weight_lt_of_pool (hstop : s.pool.stop = true) (hs : s.step op = .ok s')
    (hop : op.ofPool = true) : s'.weight < s.weight := by
  cases step_effect hs with
  | queued | thrown | notified => cases hop
  | @took w task rest hw hq =>
    apply weight_goTo w (.holding task)
    · rfl
    · rfl
    · simp only [hw, hq, WorkerPc.weight, List.length_cons]
      omega
  | @waits w hw =>
    rw [(work_waits hs (by simp [goTo])).2] at hstop
    cases hstop
  | @returns w hw hq _ =>
    apply weight_goTo w .returned
    · rfl
    · rfl
    · simp [goTo, hw, WorkerPc.weight]
  | @woken w hw =>
    apply weight_goTo w .locking
    · rfl
    · rfl
    · simp [goTo, hw, WorkerPc.weight]
  | @began w task hw =>
    apply weight_goTo w (.running task)
    · rfl
    · rfl
    · simp [goTo, hw, WorkerPc.weight]
  | @finished w task hw =>
    apply weight_goTo w .locking
    · rfl
    · rfl
    · simp [goTo, hw, WorkerPc.weight]
  | stopped hd => simp [weight, workerWeight, hd, DestructorPc.weight]
  | notifiedAll hd hworker =>
    have := hworker.weight_le
    simp only [weight, workerWeight, hd, DestructorPc.weight] at this ⊢
    omega
  | joined hd hi =>
    obtain ⟨hlt, -⟩ := hi
    simp only [weight, workerWeight, hd, DestructorPc.weight]
    omega

/-- The destructor joins no more threads than there are. -/
theorem joining_le {i : Nat} (h : ∀ i, s.destructor = .joining i → i ≤ n)
    (hs : s.step op = .ok s') (hi : s'.destructor = .joining i) : i ≤ n := by
  cases step_effect hs with
  | stopped => cases hi
  | notifiedAll =>
    cases hi
    exact Nat.zero_le n
  | joined hd hj =>
    cases hi
    exact hj.1
  | _ => exact h i hi

/-! ## In every run -/

/-- A worker can go on, other than from a wait, or the destructor can. -/
def CanGoOn (s : System τ n) : Prop :=
  ∃ op, op.ofPool = true ∧ (∀ w, op ≠ .wake w) ∧ (s.step op).isOk = true

/-- There is an end to what the pool's own threads do, whatever calls come in, and it is that
of the destructor. -/
structure Ends (s : System τ n) : Prop where
  bound (ops : List (Op τ n)) :
    Runs.count step (fun _ op => op.ofPool) s ops ≤ 4 * s.pool.tasks.length + 4 * n + 1
  last : ¬ s.CanGoOn → s.destructor = .joining n ∧ ∀ w, s.worker w = .returned

/-- What is known of the threads that wait. -/
structure Progress (s : System τ n) : Prop where
  inv : s.Inv
  attended : ∃ waking, s.Attended waking
  joining : ∀ i, s.destructor = .joining i → i ≤ n

omit [DecidableEq τ] in
theorem progress_new : ({} : System τ n).Progress where
  inv := inv_new
  attended := ⟨[], List.nodup_nil, by simp, by simp, nofun⟩
  joining := nofun

theorem Progress.step (h : s.Progress) (hs : s.step op = .ok s') : s'.Progress where
  inv := h.inv.step hs
  attended := by
    obtain ⟨waking, hw⟩ := h.attended
    exact hw.step h.inv hs
  joining _ hi := joining_le h.joining hs hi

theorem stop_step (hstop : s.pool.stop = true) (hs : s.step op = .ok s') :
    s'.pool.stop = true := by
  cases step_effect hs with
  | stopped => rfl
  | _ => exact hstop

/-- A worker that does not wait can go on until it has returned. -/
theorem canGoOn_of_worker {w : Fin n} (hw : s.worker w ≠ .waiting) (hw' : s.worker w ≠ .returned) :
    s.CanGoOn := by
  cases hpc : s.worker w with
  | locking =>
    refine ⟨.work w, rfl, by simp, ?_⟩
    simp only [System.step, hpc]
    split <;> rfl
  | waiting => exact absurd hpc hw
  | holding task =>
    refine ⟨.begin w, rfl, by simp, ?_⟩
    simp only [System.step, hpc]
    rfl
  | running task =>
    refine ⟨.finish w, rfl, by simp, ?_⟩
    simp only [System.step, hpc]
    rfl
  | returned => exact absurd hpc hw'

theorem Progress.ends (h : s.Progress) (hstop : s.pool.stop = true) : s.Ends where
  bound ops := by
    have hcount : Runs.count System.step (fun _ op => op.ofPool) s ops ≤ s.weight := by
      apply Runs.count_le_variant (A := fun _ => True) (I := fun s => s.pool.stop = true)
      · exact fun _ _ _ _ => stop_step
      · intro s op s' _ hstop hs
        cases hop : op.ofPool with
        | false => exact weight_le_of_caller hstop hs hop
        | true => exact (weight_lt_of_pool hstop hs hop).le
      · exact fun _ _ _ _ => weight_lt_of_pool
      · exact fun _ _ => trivial
      · exact hstop
    have hworkers := s.workerWeight_le
    have hdestructor : s.destructor.weight n ≤ n + 1 := by
      cases hd : s.destructor with
      | notCalled => exact absurd hd (h.inv.orderly.stop.mpr hstop)
      | notifying => exact le_refl _
      | joining i =>
        show n - i ≤ n + 1
        omega
    rw [weight] at hcount
    omega
  last hend := by
    cases hd : s.destructor with
    | notCalled => exact absurd hd (h.inv.orderly.stop.mpr hstop)
    | notifying =>
      apply absurd _ hend
      refine ⟨.notifyAll, rfl, by simp, ?_⟩
      simp only [System.step, hd]
      rfl
    | joining i =>
      obtain ⟨waking, hatt⟩ := h.attended
      have hreturned : ∀ w, s.worker w = .returned := by
        intro w
        by_contra hw
        exact hend (canGoOn_of_worker (hatt.joining i hd w) hw)
      have hle := h.joining i hd
      rcases Nat.lt_or_eq_of_le hle with hlt | rfl
      · have hjoin : ∃ h : i < n, s.worker ⟨i, h⟩ = .returned := ⟨hlt, hreturned _⟩
        apply absurd _ hend
        refine ⟨.join, rfl, by simp, ?_⟩
        simp only [System.step, hd, if_pos hjoin]
        rfl
      · exact ⟨rfl, hreturned⟩

end System

variable {τ : Type} [DecidableEq τ] {n : Nat}

/-- **No worker sleeps over a task**, in any run of the threads. -/
theorem no_task_unattended (ops : List (Op τ n)) :
    Runs.Always System.step (fun s => ∃ waking, s.Attended waking) {} ops :=
  Runs.always_of_invariant (fun _ _ _ => System.Progress.step) (fun _ => System.Progress.attended)
    System.progress_new ops

/-- **The destructor comes to an end**: once the pool is stopped its threads take so many more
steps at most, and the last one is the end of the last join. -/
theorem destructor_ends (ops : List (Op τ n)) :
    Runs.Always System.step (fun s => s.pool.stop = true → s.Ends) {} ops :=
  Runs.always_of_invariant (fun _ _ _ => System.Progress.step) (fun _ => System.Progress.ends)
    System.progress_new ops

end ThreadPool

end Footstone
