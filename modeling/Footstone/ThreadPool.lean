import Footstone.Lib.Jobs
import Footstone.Lib.Runs

/-!
`ThreadPool` (`thread_pool.h`), with the threads that call `Enqueue`, its workers and the
thread in its destructor. What a thread does while it has the mutex is one step. So is what
comes between two such sections: a notification, the end of a wait, the start of a task and
its end, a join. Tasks are numbered as they are queued.
-/

namespace Footstone

/-- `std::runtime_error` -/
structure RuntimeError where
  what : String
  deriving DecidableEq

structure ThreadPool where
  tasks : List Nat := []
  stop : Bool := false
  /-- How many tasks were queued. It is not in the source. -/
  size : Nat := 0

namespace ThreadPool

/-- Where a worker is. -/
inductive WorkerPc where
  /-- About to lock the mutex, at the top of the loop or at the end of a wait. -/
  | locking
  | waiting
  /-- With a task that it has taken. -/
  | holding (task : Nat)
  | running (task : Nat)
  | returned
  deriving DecidableEq

/-- Where a thread that calls `Enqueue` is. -/
inductive CallerPc where
  | idle
  /-- With the task that it has queued. -/
  | notifying (task : Nat)

/-- Where the thread is that destroys the pool. -/
inductive DestructorPc where
  | notCalled
  | notifying
  /-- About to join the worker with this number, if there is one. -/
  | joining (i : Nat)

/-- What `Enqueue` does with the mutex. -/
def enqueue (p : ThreadPool) : Except RuntimeError (Nat × ThreadPool) :=
  if p.stop then .error ⟨"enqueue on stopped ThreadPool"⟩
  else .ok (p.size, { p with tasks := p.tasks ++ [p.size], size := p.size + 1 })

/-- What a worker does with the mutex, up to a wait or to where it lets go of it. -/
def work (p : ThreadPool) : ThreadPool × WorkerPc :=
  if p.stop ∨ p.tasks ≠ [] then
    match p.tasks with
    -- The queue is empty, and so the pool is stopped.
    | [] => (p, .returned)
    | task :: rest => ({ p with tasks := rest }, .holding task)
  else (p, .waiting)

theorem enqueue_cases (p : ThreadPool) :
    (p.stop = false ∧
      p.enqueue = .ok (p.size, { p with tasks := p.tasks ++ [p.size], size := p.size + 1 })) ∨
    (p.stop = true ∧ p.enqueue = .error ⟨"enqueue on stopped ThreadPool"⟩) := by
  rcases hstop : p.stop
  · exact Or.inl ⟨rfl, by simp [enqueue, hstop]⟩
  · exact Or.inr ⟨rfl, if_pos hstop⟩

theorem work_cases (p : ThreadPool) :
    (p.tasks = [] ∧ p.stop = false ∧ p.work = (p, .waiting)) ∨
    (p.tasks = [] ∧ p.stop = true ∧ p.work = (p, .returned)) ∨
    ∃ task rest, p.tasks = task :: rest ∧ p.work = ({ p with tasks := rest }, .holding task) := by
  rcases hq : p.tasks with _ | ⟨task, rest⟩
  · rcases hstop : p.stop
    · exact Or.inl ⟨rfl, rfl, by simp [work, hq, hstop]⟩
    · exact Or.inr (Or.inl ⟨rfl, rfl, by simp [work, hq, hstop]⟩)
  · exact Or.inr (Or.inr ⟨task, rest, rfl, by simp [work, hq]⟩)

/-- The pool and its threads, at first as the constructor leaves them. The last four fields are
not in the source. -/
structure System (τ : Type) (n : Nat) where
  pool : ThreadPool := {}
  worker : Fin n → WorkerPc := fun _ => .locking
  caller : τ → CallerPc := fun _ => .idle
  destructor : DestructorPc := .notCalled
  /-- How the calls of `Enqueue` ended. -/
  outcomes : List (Except RuntimeError Nat) := []
  taken : List Nat := []
  begun : List Nat := []
  ended : List Nat := []

inductive Op (τ : Type) (n : Nat) where
  | enqueue (t : τ)
  /-- `notify_one`, which ends the wait of one worker if any is waiting, and the return. -/
  | notifyOne (t : τ) (w? : Option (Fin n))
  | work (w : Fin n)
  /-- A wait ends for no reason. -/
  | wake (w : Fin n)
  | begin (w : Fin n)
  | finish (w : Fin n)
  | stop
  | notifyAll
  | join

/-- What a worker has of the job that a task is. -/
def WorkerPc.hand : WorkerPc → Jobs.Hand
  | .locking | .waiting | .returned => .empty
  | .holding task => .held task
  | .running task => .begun task

/-- Why a step is none: the thread is not there. -/
inductive Fault where
  | elsewhere

namespace System

variable {τ : Type} {n : Nat}

/-- Whose wait `notify_one` can end. -/
def CanNotify (s : System τ n) : Option (Fin n) → Prop
  | some w => s.worker w = .waiting
  | none => ∀ w, s.worker w ≠ .waiting

instance (s : System τ n) (w? : Option (Fin n)) : Decidable (s.CanNotify w?) :=
  match w? with
  | some w => inferInstanceAs (Decidable (s.worker w = .waiting))
  | none => inferInstanceAs (Decidable (∀ w, s.worker w ≠ .waiting))

/-- The worker goes on at `pc`. -/
def goTo (w : Fin n) (pc : WorkerPc) (s : System τ n) : System τ n :=
  { s with worker := Function.update s.worker w pc }

def step [DecidableEq τ] (s : System τ n) : Op τ n → Except Fault (System τ n)
  | .enqueue t =>
    match s.caller t, s.pool.enqueue with
    | .idle, .ok (task, pool) => .ok { s with
        pool := pool, caller := Function.update s.caller t (.notifying task) }
    | .idle, .error e => .ok { s with outcomes := s.outcomes ++ [.error e] }
    | .notifying _, _ => .error .elsewhere
  | .notifyOne t w? =>
    match s.caller t with
    | .idle => .error .elsewhere
    | .notifying task =>
      if s.CanNotify w? then
        let s := match w? with
          | some w => s.goTo w .locking
          | none => s
        .ok { s with
          caller := Function.update s.caller t .idle, outcomes := s.outcomes ++ [.ok task] }
      else .error .elsewhere
  | .work w =>
    match s.worker w with
    | .locking =>
      let (pool, pc) := s.pool.work
      let s := { s with pool := pool }.goTo w pc
      match pc with
      | .holding task => .ok { s with taken := s.taken ++ [task] }
      | _ => .ok s
    | _ => .error .elsewhere
  | .wake w =>
    match s.worker w with
    | .waiting => .ok (s.goTo w .locking)
    | _ => .error .elsewhere
  | .begin w =>
    match s.worker w with
    | .holding task => .ok { s.goTo w (.running task) with begun := s.begun ++ [task] }
    | _ => .error .elsewhere
  | .finish w =>
    match s.worker w with
    | .running task => .ok { s.goTo w .locking with ended := s.ended ++ [task] }
    | _ => .error .elsewhere
  | .stop =>
    match s.destructor with
    | .notCalled => .ok { s with pool.stop := true, destructor := .notifying }
    | _ => .error .elsewhere
  | .notifyAll =>
    match s.destructor with
    | .notifying => .ok { s with
        worker := fun w => if s.worker w = .waiting then .locking else s.worker w
        destructor := .joining 0 }
    | _ => .error .elsewhere
  | .join =>
    match s.destructor with
    | .joining i =>
      if ∃ h : i < n, s.worker ⟨i, h⟩ = .returned then .ok { s with destructor := .joining (i + 1) }
      else .error .elsewhere
    | _ => .error .elsewhere

/-! ## What a step does -/

/-- Some waits have ended. -/
def Woken (s : System τ n) (worker : Fin n → WorkerPc) : Prop :=
  ∀ w, worker w = s.worker w ∨ s.worker w = .waiting ∧ worker w = .locking

inductive Effect [DecidableEq τ] (s : System τ n) : Op τ n → System τ n → Prop where
  | queued {t : τ} (hstop : s.pool.stop = false) : Effect s (.enqueue t) { s with
      pool.tasks := s.pool.tasks ++ [s.pool.size]
      pool.size := s.pool.size + 1
      caller := Function.update s.caller t (.notifying s.pool.size) }
  | thrown {t : τ} (hstop : s.pool.stop = true) : Effect s (.enqueue t) { s with
      outcomes := s.outcomes ++ [.error ⟨"enqueue on stopped ThreadPool"⟩] }
  | notified {t : τ} {w? : Option (Fin n)} {task : Nat} {worker : Fin n → WorkerPc}
      (ht : s.caller t = .notifying task) (hworker : s.Woken worker) :
      Effect s (.notifyOne t w?) { s with
        worker := worker
        caller := Function.update s.caller t .idle
        outcomes := s.outcomes ++ [.ok task] }
  | took {w : Fin n} {task : Nat} {rest : List Nat} (hw : s.worker w = .locking)
      (hq : s.pool.tasks = task :: rest) : Effect s (.work w) { s.goTo w (.holding task) with
        pool.tasks := rest
        taken := s.taken ++ [task] }
  | waits {w : Fin n} (hw : s.worker w = .locking) : Effect s (.work w) (s.goTo w .waiting)
  | returns {w : Fin n} (hw : s.worker w = .locking) (hq : s.pool.tasks = [])
      (hstop : s.pool.stop = true) : Effect s (.work w) (s.goTo w .returned)
  | woken {w : Fin n} (hw : s.worker w = .waiting) : Effect s (.wake w) (s.goTo w .locking)
  | began {w : Fin n} {task : Nat} (hw : s.worker w = .holding task) :
      Effect s (.begin w) { s.goTo w (.running task) with begun := s.begun ++ [task] }
  | finished {w : Fin n} {task : Nat} (hw : s.worker w = .running task) :
      Effect s (.finish w) { s.goTo w .locking with ended := s.ended ++ [task] }
  | stopped (hd : s.destructor = .notCalled) :
      Effect s .stop { s with pool.stop := true, destructor := .notifying }
  | notifiedAll {worker : Fin n → WorkerPc} (hd : s.destructor = .notifying)
      (hworker : s.Woken worker) :
      Effect s .notifyAll { s with worker := worker, destructor := .joining 0 }
  | joined {i : Nat} (hd : s.destructor = .joining i)
      (hi : ∃ h : i < n, s.worker ⟨i, h⟩ = .returned) :
      Effect s .join { s with destructor := .joining (i + 1) }

variable {s s' : System τ n} {op : Op τ n}

theorem woken_goTo {w : Fin n} (hw : s.worker w = .waiting) :
    s.Woken (s.goTo w .locking).worker := by
  intro v
  rcases eq_or_ne v w with rfl | hne
  · exact Or.inr ⟨hw, Function.update_self ..⟩
  · exact Or.inl (Function.update_of_ne hne ..)

theorem step_effect [DecidableEq τ] (hs : s.step op = .ok s') : s.Effect op s' := by
  cases op with
  | enqueue t =>
    simp only [step] at hs
    rcases ht : s.caller t with _ | task
    · rcases enqueue_cases s.pool with ⟨hstop, heq⟩ | ⟨hstop, heq⟩
      · rw [ht, heq] at hs
        cases hs
        exact .queued hstop
      · rw [ht, heq] at hs
        cases hs
        exact .thrown hstop
    · rw [ht] at hs
      cases hs
  | notifyOne t w? =>
    simp only [step] at hs
    split at hs
    · cases hs
    · rename_i task ht
      split at hs
      · rename_i hcan
        cases hs
        cases w? with
        | none => exact .notified ht fun w => Or.inl rfl
        | some w => exact .notified ht (woken_goTo hcan)
      · cases hs
  | work w =>
    simp only [step] at hs
    split at hs
    · rename_i hw
      rcases work_cases s.pool with ⟨-, -, hwork⟩ | ⟨hq, hstop, hwork⟩ | ⟨task, rest, hq, hwork⟩
      · rw [hwork] at hs
        cases hs
        exact .waits hw
      · rw [hwork] at hs
        cases hs
        exact .returns hw hq hstop
      · rw [hwork] at hs
        cases hs
        exact .took hw hq
    · cases hs
  | wake w =>
    simp only [step] at hs
    split at hs
    · rename_i hw
      cases hs
      exact .woken hw
    · cases hs
  | begin w =>
    simp only [step] at hs
    split at hs
    · rename_i task hw
      cases hs
      exact .began hw
    · cases hs
  | finish w =>
    simp only [step] at hs
    split at hs
    · rename_i task hw
      cases hs
      exact .finished hw
    · cases hs
  | stop =>
    simp only [step] at hs
    split at hs
    · rename_i hd
      cases hs
      exact .stopped hd
    · cases hs
  | notifyAll =>
    simp only [step] at hs
    split at hs
    · rename_i hd
      cases hs
      refine .notifiedAll hd fun w => ?_
      by_cases hw : s.worker w = .waiting
      · exact Or.inr ⟨hw, if_pos hw⟩
      · exact Or.inl (if_neg hw)
    · cases hs
  | join =>
    simp only [step] at hs
    split at hs
    · rename_i i hd
      split at hs
      · rename_i hi
        cases hs
        exact .joined hd hi
      · cases hs
    · cases hs

/-! ## Every task is done once -/

/-- The tasks as jobs that the workers hand out to themselves. -/
def ledger (s : System τ n) : Jobs.Ledger (Fin n) where
  queue := s.pool.tasks
  size := s.pool.size
  taken := s.taken
  begun := s.begun
  ended := s.ended
  hand w := (s.worker w).hand

theorem hand_update (s : System τ n) (w : Fin n) (pc : WorkerPc) :
    (fun v => (Function.update s.worker w pc v).hand) =
      Function.update s.ledger.hand w pc.hand :=
  Function.comp_update WorkerPc.hand s.worker w pc

/-- A worker that has no task goes on without one. -/
theorem hand_goTo {w : Fin n} {pc : WorkerPc} (hw : (s.worker w).hand = .empty)
    (hpc : pc.hand = .empty) : (s.goTo w pc).ledger = s.ledger := by
  have hhand : (fun v => ((s.goTo w pc).worker v).hand) = s.ledger.hand := by
    rw [goTo, hand_update, hpc, ← hw]
    exact Function.update_eq_self w s.ledger.hand
  simp only [ledger, hhand]
  rfl

theorem hand_woken {worker : Fin n → WorkerPc} (h : s.Woken worker) :
    (fun w => (worker w).hand) = s.ledger.hand := by
  funext w
  show (worker w).hand = (s.worker w).hand
  rcases h w with heq | ⟨hw, heq⟩
  · rw [heq]
  · rw [heq, hw]
    rfl

/-- **The pool does with the tasks what can be done with jobs**, or leaves them alone. -/
theorem Effect.refines [DecidableEq τ] (h : s.Effect op s') :
    s'.ledger = s.ledger ∨ Jobs.Step s.ledger s'.ledger := by
  cases h with
  | queued hstop => exact Or.inr .add
  | thrown hstop => exact Or.inl rfl
  | notified ht hworker =>
    apply Or.inl
    simp only [ledger, hand_woken hworker]
  | @took w task rest hw hq =>
    have hstep := Jobs.Step.take (l := s.ledger) hq (congrArg WorkerPc.hand hw)
    rw [show Jobs.Hand.held task = (WorkerPc.holding task).hand from rfl, ← hand_update] at hstep
    exact Or.inr hstep
  | waits hw => exact Or.inl (hand_goTo (congrArg WorkerPc.hand hw) rfl)
  | returns hw hq hstop => exact Or.inl (hand_goTo (congrArg WorkerPc.hand hw) rfl)
  | woken hw => exact Or.inl (hand_goTo (congrArg WorkerPc.hand hw) rfl)
  | @began w task hw =>
    have hstep := Jobs.Step.begin (l := s.ledger) (congrArg WorkerPc.hand hw)
    rw [show Jobs.Hand.begun task = (WorkerPc.running task).hand from rfl, ← hand_update] at hstep
    exact Or.inr hstep
  | @finished w task hw =>
    have hstep := Jobs.Step.finish (l := s.ledger) (congrArg WorkerPc.hand hw)
    rw [show Jobs.Hand.empty = WorkerPc.locking.hand from rfl, ← hand_update] at hstep
    exact Or.inr hstep
  | stopped hd => exact Or.inl rfl
  | notifiedAll hd hworker =>
    apply Or.inl
    simp only [ledger, hand_woken hworker]
  | joined hd hi => exact Or.inl rfl

/-! ## Stopping -/

/-- What is known of the threads. -/
structure Orderly (s : System τ n) : Prop where
  stop : s.destructor ≠ .notCalled ↔ s.pool.stop = true
  /-- A worker has returned from an empty queue, and nothing was queued since. -/
  returned : ∀ w, s.worker w = .returned → s.pool.stop = true ∧ s.pool.tasks = []
  joined : ∀ i, s.destructor = .joining i → ∀ w : Fin n, w.val < i → s.worker w = .returned
  queued : ∀ t task, s.caller t = .notifying task → task < s.pool.size
  accepted : ∀ task, .ok task ∈ s.outcomes → task < s.pool.size

theorem orderly_new : ({} : System τ n).Orderly where
  stop := by simp
  returned := nofun
  joined := nofun
  queued := nofun
  accepted := nofun

theorem Woken.returned_iff {worker : Fin n → WorkerPc} (h : s.Woken worker) (w : Fin n) :
    worker w = .returned ↔ s.worker w = .returned := by
  rcases h w with heq | ⟨hw, heq⟩
  · rw [heq]
  · rw [heq, hw]
    exact iff_of_false nofun nofun

theorem goTo_returned_iff {w : Fin n} {pc : WorkerPc} (hw : s.worker w ≠ .returned)
    (hpc : pc ≠ .returned) (v : Fin n) :
    (s.goTo w pc).worker v = .returned ↔ s.worker v = .returned := by
  rcases eq_or_ne v w with rfl | hne
  · rw [show (s.goTo v pc).worker v = pc from Function.update_self ..]
    exact iff_of_false hpc hw
  · rw [show (s.goTo w pc).worker v = s.worker v from Function.update_of_ne hne ..]

/-- A step that leaves the pool, and who has returned, as they were. -/
theorem Orderly.frame (h : s.Orderly) (hpool : s'.pool.stop = s.pool.stop)
    (htasks : s.pool.tasks = [] → s'.pool.tasks = []) (hsize : s'.pool.size = s.pool.size)
    (hworker : ∀ w, s'.worker w = .returned ↔ s.worker w = .returned)
    (hdestructor : s'.destructor = s.destructor)
    (hcaller : ∀ t task, s'.caller t = .notifying task → s.caller t = .notifying task)
    (houtcomes : ∀ task, .ok task ∈ s'.outcomes → task < s.pool.size) : s'.Orderly where
  stop := by rw [hdestructor, hpool, h.stop]
  returned w hw := by
    obtain ⟨hstop, hq⟩ := h.returned w ((hworker w).mp hw)
    exact ⟨hpool.trans hstop, htasks hq⟩
  joined i hi w hlt := (hworker w).mpr (h.joined i (hdestructor ▸ hi) w hlt)
  queued t task ht := hsize ▸ h.queued t task (hcaller t task ht)
  accepted task ht := hsize ▸ houtcomes task ht

theorem Orderly.effect [DecidableEq τ] (h : s.Orderly) (he : s.Effect op s') : s'.Orderly := by
  cases he with
  | @queued t hstop =>
    exact {
      stop := h.stop
      returned := fun w hw => by
        rw [(h.returned w hw).1] at hstop
        cases hstop
      joined := h.joined
      queued := fun u task hu => by
        rcases eq_or_ne u t with rfl | hne
        · simp only [Function.update_self, CallerPc.notifying.injEq] at hu
          exact hu ▸ Nat.lt_succ_self _
        · simp only [Function.update_of_ne hne] at hu
          exact Nat.lt_succ_of_lt (h.queued u task hu)
      accepted := fun task ht => Nat.lt_succ_of_lt (h.accepted task ht) }
  | thrown hstop =>
    exact h.frame rfl id rfl (fun _ => Iff.rfl) rfl (fun _ _ ht => ht)
      fun task ht => h.accepted task (by simpa using ht)
  | @notified t w? task worker ht hworker =>
    refine h.frame rfl id rfl hworker.returned_iff rfl (fun u j hu => ?_) fun j hj => ?_
    · rcases eq_or_ne u t with rfl | hne
      · simp at hu
      · simpa only [Function.update_of_ne hne] using hu
    · rcases List.mem_append.mp hj with hj | hj
      · exact h.accepted j hj
      · cases List.mem_singleton.mp hj
        exact h.queued t _ ht
  | took hw hq =>
    refine h.frame rfl (fun hnil => ?_) rfl (goTo_returned_iff (by simp [hw]) nofun) rfl
      (fun _ _ ht => ht) h.accepted
    rw [hq] at hnil
    cases hnil
  | waits hw | woken hw | began hw | finished hw =>
    exact h.frame rfl id rfl (goTo_returned_iff (by simp [hw]) nofun) rfl (fun _ _ ht => ht)
      h.accepted
  | @returns w hw hq hstop =>
    refine { h with returned := fun v hv => ⟨hstop, hq⟩, joined := fun i hi v hlt => ?_ }
    have hv := h.joined i hi v hlt
    have hne : v ≠ w := by
      rintro rfl
      rw [hw] at hv
      cases hv
    exact (Function.update_of_ne hne ..).trans hv
  | stopped hd =>
    exact {
      stop := iff_of_true nofun rfl
      returned := fun w hw => absurd hd (h.stop.mpr (h.returned w hw).1)
      joined := nofun
      queued := h.queued
      accepted := h.accepted }
  | notifiedAll hd hworker =>
    exact {
      stop := iff_of_true nofun (h.stop.mp (by simp [hd]))
      returned := fun w hw => h.returned w ((hworker.returned_iff w).mp hw)
      joined := by
        rintro _ ⟨⟩ w hlt
        exact absurd hlt (Nat.not_lt_zero _)
      queued := h.queued
      accepted := h.accepted }
  | @joined i hd hi =>
    obtain ⟨hlt, hreturned⟩ := hi
    exact {
      stop := iff_of_true nofun (h.stop.mp (by simp [hd]))
      returned := h.returned
      joined := by
        rintro _ ⟨⟩ w hw
        rcases Nat.lt_succ_iff_lt_or_eq.mp hw with hw | hw
        · exact h.joined i hd w hw
        · exact (Fin.ext hw : w = ⟨i, hlt⟩) ▸ hreturned
      queued := h.queued
      accepted := h.accepted }

/-- Where the tasks are, and the threads. -/
structure Inv (s : System τ n) : Prop where
  orderly : s.Orderly
  sound : Jobs.Sound s.ledger

theorem Inv.step [DecidableEq τ] (h : s.Inv) (hs : s.step op = .ok s') : s'.Inv where
  orderly := h.orderly.effect (step_effect hs)
  sound := by
    rcases (step_effect hs).refines with heq | hstep
    · exact heq ▸ h.sound
    · exact h.sound.step hstep

theorem inv_new : ({} : System τ n).Inv where
  orderly := orderly_new
  sound := Jobs.sound_empty

/-- No task is run twice, or out of turn, and in the end none is left. -/
structure RunsOnce (s : System τ n) : Prop where
  once : ∀ task, s.begun.count task ≤ 1
  inOrder : s.taken <+: List.range s.pool.size
  joined : ∀ i, s.destructor = .joining i → n ≤ i → ∀ w, s.worker w = .returned
  complete : (∀ w, s.worker w = .returned) → s.pool.tasks = [] ∧
    s.ended.Perm (List.range s.pool.size) ∧ ∀ task, .ok task ∈ s.outcomes → task ∈ s.ended

/-- After `stop_` was set, `Enqueue` throws and queues nothing. -/
def ThrowsStopped [DecidableEq τ] (s : System τ n) : Op τ n → Prop
  | .enqueue t => s.destructor ≠ .notCalled →
    s.pool.enqueue = .error ⟨"enqueue on stopped ThreadPool"⟩ ∧
    ∀ s', s.step (.enqueue t) = .ok s' → s'.pool = s.pool ∧
      s'.outcomes = s.outcomes ++ [.error ⟨"enqueue on stopped ThreadPool"⟩]
  | _ => True

theorem Inv.runsOnce (hn : 0 < n) (h : s.Inv) : s.RunsOnce where
  once := List.nodup_iff_count_le_one.mp h.sound.begun_nodup
  inOrder := h.sound.taken_prefix
  joined i hi hni w := h.orderly.joined i hi w (Nat.lt_of_lt_of_le w.isLt hni)
  complete hall := by
    have hq := (h.orderly.returned ⟨0, hn⟩ (hall _)).2
    have hperm := h.sound.ended_perm hq fun w => by
      show (s.worker w).hand = .empty
      rw [hall w]
      rfl
    exact ⟨hq, hperm, fun task ht =>
      hperm.mem_iff.mpr (List.mem_range.mpr (h.orderly.accepted task ht))⟩

theorem Inv.throwsStopped [DecidableEq τ] (h : s.Inv) (op : Op τ n) : s.ThrowsStopped op := by
  cases op with
  | enqueue t =>
    intro hd
    have hstop := h.orderly.stop.mp hd
    refine ⟨if_pos hstop, fun s' hs => ?_⟩
    cases step_effect hs with
    | queued hstop' =>
      rw [hstop] at hstop'
      cases hstop'
    | thrown => exact ⟨rfl, rfl⟩
  | _ => trivial

end System

/-- **Every accepted task is run exactly once**, in every run of the threads. -/
theorem runs_every_task {τ : Type} [DecidableEq τ] {n : Nat} (hn : 0 < n) (ops : List (Op τ n)) :
    Runs.Always System.step System.RunsOnce {} ops ∧
      Runs.Meets System.step System.ThrowsStopped {} ops :=
  ⟨Runs.always_of_invariant (fun _ _ _ => System.Inv.step) (fun _ => System.Inv.runsOnce hn)
      System.inv_new ops,
    Runs.meets_of_invariant (fun _ _ _ => System.Inv.step) (fun _ op h => h.throwsStopped op)
      System.inv_new ops⟩

/-- Two workers and two tasks. One worker waits and is woken for the first task; the pool is
stopped while it runs, and a third call of `Enqueue` comes too late. -/
def lateCall : List (Op Bool 2) :=
  [.work 0, .enqueue false, .notifyOne false (some 0), .enqueue true, .work 0, .begin 0, .stop,
    .enqueue false, .notifyOne true none, .notifyAll, .work 1, .begin 1, .finish 1, .finish 0,
    .work 1, .work 0, .join, .join]

theorem runs_every_task_late : Runs.Always System.step System.RunsOnce {} lateCall ∧
    Runs.Meets System.step System.ThrowsStopped {} lateCall :=
  runs_every_task (by decide) lateCall

example : (Runs.last System.step {} lateCall).ended = [1, 0] := by decide

end ThreadPool

end Footstone
