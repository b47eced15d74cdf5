import Footstone.IdleTasks
import Footstone.Step

/-!
`ThreadWorker::RunLoop` of a worker that is to run its immediate queues before it
leaves, one access at a time, among `PostTask` calls of other threads and one
`Terminate`. `GetNextTask` looks at the groups one after the other and at
`is_terminated_` after that; `RunTask` looks at it once more.
-/

namespace Footstone

open Runs

/-- Where the thread of the worker is. -/
inductive LoopPc where
  /-- About to call `RunTask`. -/
  | atTop
  /-- In the loop of `GetNextTask`, with the groups it has not looked at. -/
  | scanning (now : TimePoint) (rest : List Group) (idleTask : Option (RunnerId × IdleTask))
  | waiting
  /-- `GetNextTask` has returned null. -/
  | noTask
  /-- In the body of a task, with the runner it is from unless it is an immediate
  or an idle one. -/
  | inTask (task : Option (RunnerId × Task))
  | returned

/-- The groups that the scan has still to look at, from its start to the test
that follows it. -/
def LoopPc.rest? : LoopPc → Option (List Group)
  | .scanning _ rest _ => some rest
  | .waiting | .noTask => some []
  | _ => none

/-- Where `RunTask` is after `GetNextTask`. -/
def LoopPc.after : NextTask → LoopPc
  | .nullptr => .noTask
  | .waited _ => .waiting
  | .immediate _ | .idle .. => .inTask none
  | .task r task => .inTask (some (r, task))

/-- A worker in its `RunLoop` and the threads that post to it. The last five fields
are not in the source. -/
structure Loop (τ : Type) where
  runner : Runners
  worker : Worker
  pc : LoopPc := .atTop
  /-- `Terminate` has been called. -/
  terminating : Bool := false
  /-- The `PostTask` calls whose task is in its queue and that have not returned. -/
  posting : τ → Option (RunnerId × TaskPtr) := fun _ => none
  /-- What was posted by calls that returned before `Terminate` was called. -/
  owed : List (RunnerId × TaskPtr) := []
  done : List Task := []
  /-- The runners that the last scan has looked at. -/
  passed : List RunnerId := []
  /-- What was posted to these runners since. -/
  late : List TaskPtr := []

/-- One access of a posting thread, of the terminating one, or of the worker's. -/
inductive LoopOp (τ : Type) where
  | push (t : τ) (r : RunnerId) (task : TaskPtr)
  /-- `PostTask` returns, after `NotifyWorker`. -/
  | ret (t : τ)
  | callTerminate
  | setTerminated
  /-- `GetNextTask` up to its loop. -/
  | begin (now : TimePoint)
  /-- The next round of the loop. -/
  | scan (clock : TimePoint)
  /-- `GetNextTask` reads `is_terminated_`. -/
  | testNext
  /-- `WaitFor` returns: the flag is set, a `Notify`, the time, or for no reason. -/
  | wake
  /-- `RunTask` reads `is_terminated_`. -/
  | testRun
  | finish (elapsed : Nat → TimeDelta)

namespace Loop

variable {τ : Type} (E : Env)

/-- The body of a task starts. -/
def enter (task : Option (RunnerId × Task)) (s : Loop τ) : Loop τ :=
  { s with worker := { s.worker with isTaskRunning := true }, pc := .inTask task }

def beginNext (now : TimePoint) (s : Loop τ) : Except Fault (Loop τ) :=
  match s.worker.immediateTaskQueue with
  | _ :: queue => .ok (enter none { s with worker := { s.worker with immediateTaskQueue := queue } })
  | [] => do
    let groups ← Worker.sortStage s.runner s.worker.runningGroups
    let (runner, worker) ← Worker.balanceStage s.runner { s.worker with runningGroups := groups }
    return { s with
      runner := runner, worker := worker, passed := [], late := []
      pc := .scanning now worker.runningGroups none }

/-- The thread goes where `GetNextTask` has come to an end. -/
def leave (next : NextTask) (s : Loop τ) : Loop τ :=
  match LoopPc.after next with
  | .inTask task => s.enter task
  | pc => { s with pc := pc }

/-- The worker, with the flag of its thread raised in a body. -/
def entered (pc : LoopPc) (w : Worker) : Worker :=
  match pc with
  | .inTask _ => { w with isTaskRunning := true }
  | _ => w

theorem leave_spec (s : Loop τ) (next : NextTask) : (s.leave next).pc = .after next ∧
    (s.leave next).runner = s.runner ∧ (s.leave next).worker = entered (s.leave next).pc s.worker := by
  cases next <;> exact ⟨rfl, rfl, rfl⟩

def scanNext (clock now : TimePoint) (g : Group) (rest : List Group)
    (idleTask : Option (RunnerId × IdleTask)) (s : Loop τ) : Except Fault (Loop τ) := do
  let (found, st) ← Worker.scanGroups E now (fun _ => clock) 0 [g]
    { runner := s.runner, worker := s.worker, idleTask := idleTask }
  let s := { s with
    runner := st.runner, worker := st.worker, passed := g.getLast?.toList ++ s.passed }
  match found with
  | some task => return s.enter (some task)
  | none => return { s with pc := .scanning now rest st.idleTask }

def step [DecidableEq τ] (s : Loop τ) : LoopOp τ → Except Fault (Loop τ)
  | .push t r task =>
    match s.posting t with
    | none => .ok { s with
        runner := Function.update s.runner r ((s.runner r).postTask task)
        posting := Function.update s.posting t (some (r, task))
        late := if r ∈ s.passed then task :: s.late else s.late }
    | some _ => .error .stranger
  | .ret t =>
    match s.posting t with
    | none => .error .stranger
    | some post => .ok { s with
        posting := Function.update s.posting t none
        owed := if s.terminating then s.owed else post :: s.owed }
  | .callTerminate => if s.terminating then .error .stranger else .ok { s with terminating := true }
  | .setTerminated =>
    if s.terminating then .ok { s with worker := { s.worker with isTerminated := true } }
    else .error .stranger
  | .begin now =>
    match s.pc with
    | .atTop => s.beginNext now
    | _ => .error .stranger
  | .scan clock =>
    match s.pc with
    | .scanning now (g :: rest) idleTask => s.scanNext E clock now g rest idleTask
    | _ => .error .stranger
  | .testNext =>
    match s.pc with
    | .scanning _ [] idleTask =>
      .ok (s.leave (Worker.outcome none
        { runner := s.runner, worker := s.worker, idleTask := idleTask }))
    | _ => .error .stranger
  | .wake =>
    match s.pc with
    | .waiting => .ok { s with pc := .noTask }
    | _ => .error .stranger
  | .testRun =>
    match s.pc with
    | .noTask => .ok { s with pc := if s.worker.isTerminated then .returned else .atTop }
    | _ => .error .stranger
  | .finish elapsed =>
    match s.pc with
    | .inTask task => .ok { s with
        pc := .atTop
        worker := { s.worker with isTaskRunning := false }
        runner := State.addTimes elapsed 0 s.worker.currGroup s.runner
        done := (task.map Prod.snd).toList ++ s.done }
    | _ => .error .stranger

/-- `r` is bound to the worker. -/
def Bound (s : Loop τ) (r : RunnerId) : Prop := ∃ g ∈ s.worker.held, r ∈ g

/-- `RunLoop` has left nothing behind. -/
def Drained (s : Loop τ) : Prop :=
  s.pc = .returned → ∀ r task, (r, some task) ∈ s.owed → s.Bound r → task ∈ s.done

/-- A scan takes no null pointer for an empty queue. The test that ends the loop
follows a scan that saw the runner of every owed task, after the task was there. -/
def LeavesInTime (s : Loop τ) : LoopOp τ → Prop
  | .scan _ => ∀ g rest, s.pc.rest? = some (g :: rest) → ∀ r ∈ g.getLast?,
      (s.runner r).taskQueue.head? ≠ some none
  | .testRun => s.worker.isTerminated = true → ∀ r task, (r, some task) ∈ s.owed → s.Bound r →
      (∃ g ∈ s.worker.runningGroups, g.getLast? = some r) ∧ some task ∉ s.late
  | _ => True

end Loop

/-! ## What the calls do to the immediate queues -/

namespace TaskRunner

variable {E : Env}

theorem drainDelayed_taskQueue (now : TimePoint) (n : Nat) (r : TaskRunner) :
    ∃ moved : List Task, (drainDelayed E now n r).taskQueue = r.taskQueue ++ moved.map some := by
  obtain ⟨moved, delayed, h⟩ := drainDelayed_frame E now n r
  exact ⟨moved, by rw [h]⟩

/-- A task of the immediate queue is returned or stays there. -/
theorem mem_getNext {now : TimePoint} {r : TaskRunner} {task : Task} (h : some task ∈ r.taskQueue) :
    (r.getNext E now).1 = some task ∨ some task ∈ (r.getNext E now).2.taskQueue := by
  obtain ⟨moved, hm⟩ := drainDelayed_taskQueue (E := E) now r.delayedTaskQueue.length r
  have hmem : some task ∈ (drainDelayed E now r.delayedTaskQueue.length r).taskQueue :=
    hm ▸ List.mem_append_left _ h
  simp only [getNext]
  split
  · rename_i hnil
    rw [hnil] at hmem
    cases hmem
  · rename_i t ts hcons
    rw [hcons] at hmem
    exact (List.mem_cons.mp hmem).imp Eq.symm id

/-- With a task or nothing at the front, `GetNext` returns null on an empty queue only. -/
theorem getNext_empty {now : TimePoint} {r : TaskRunner} (hq : r.taskQueue.head? ≠ some none)
    (h : (r.getNext E now).1 = none) : (r.getNext E now).2.taskQueue = [] := by
  obtain ⟨moved, hm⟩ := drainDelayed_taskQueue (E := E) now r.delayedTaskQueue.length r
  simp only [getNext] at h ⊢
  split at h
  · rename_i hnil
    simp [hnil]
  · rename_i t ts hcons
    dsimp only at h
    subst h
    rw [hcons] at hm
    cases hr : r.taskQueue with
    | nil =>
      rw [hr, List.nil_append] at hm
      cases moved <;> simp at hm
    | cons t' ts' =>
      rw [hr, List.cons_append, List.cons.injEq] at hm
      rw [hr, List.head?_cons, ← hm.1] at hq
      exact absurd rfl hq

end TaskRunner

/-- One round of the loop of `GetNextTask`. -/
theorem Worker.scanGroups_single {E : Env} {now : TimePoint} {clock : Nat → TimePoint} {g : Group}
    {st st' : Worker.Scan} {found : Option (RunnerId × Task)}
    (h : Worker.scanGroups E now clock 0 [g] st = .ok (found, st')) :
    ∃ back, g.getLast? = some back ∧
      found = ((st.runner back).getNext E (clock 0)).1.map (back, ·) ∧
      ∀ r, (st'.runner r).due =
        (Function.update st.runner back ((st.runner back).getNext E (clock 0)).2 r).due := by
  cases g with
  | nil => cases h
  | cons front members =>
    refine ⟨members.getLastD front, by rw [List.getLast?_cons, List.getLastD_eq_getLast?], ?_⟩
    simp only [Worker.scanGroups] at h
    generalize members.getLastD front = back at h ⊢
    split at h
    · rename_i task r he
      cases h
      exact ⟨by rw [he]; rfl, fun _ => rfl⟩
    · rename_i he
      cases h
      exact ⟨by rw [he]; rfl, fun r => Worker.pollFront_due now front _ r⟩

/-! ## The invariant -/

namespace Loop

variable {τ : Type} {E : Env}

/-- The task has been run, is being run, or waits for its runner. -/
def Has (s : Loop τ) (r : RunnerId) (task : Task) : Prop :=
  task ∈ s.done ∨ (∃ r', s.pc = .inTask (some (r', task))) ∨ some task ∈ (s.runner r).taskQueue

/-- The scan has seen every running group but `rest`, and what it has seen empty has
only got late tasks since. -/
structure Scanned (s : Loop τ) (rest : List Group) : Prop where
  seen : ∀ g ∈ s.worker.runningGroups, g ∈ rest ∨ ∀ r ∈ g.getLast?, r ∈ s.passed
  late : ∀ r ∈ s.passed, ∀ task, some task ∈ (s.runner r).taskQueue → some task ∈ s.late

structure Inv (s : Loop τ) : Prop where
  terminating : s.worker.isTerminated = true → s.terminating = true
  kept : ∀ r task, (r, some task) ∈ s.owed ∨ (∃ t, s.posting t = some (r, some task)) → s.Has r task
  scanned : ∀ rest, s.pc.rest? = some rest → s.Scanned rest
  left : s.pc = .returned → s.terminating = true
  drained : s.Drained

/-- A step of the worker's thread that does not leave the loop. -/
structure Moves (s s' : Loop τ) : Prop where
  owed : s'.owed = s.owed
  posting : s'.posting = s.posting
  terminating : s'.terminating = s.terminating
  isTerminated : s'.worker.isTerminated = s.worker.isTerminated
  stays : s'.pc ≠ .returned
  has : ∀ r task, s.Has r task → s'.Has r task
  scanned : ∀ rest, s'.pc.rest? = some rest → s'.Scanned rest

theorem Moves.inv {s s' : Loop τ} (h : Moves s s') (hs : s.Inv) : s'.Inv where
  terminating hw := by
    rw [h.terminating]
    rw [h.isTerminated] at hw
    exact hs.terminating hw
  kept r task ho := by
    rw [h.owed, h.posting] at ho
    exact h.has r task (hs.kept r task ho)
  scanned := h.scanned
  left hpc := absurd hpc h.stays
  drained hpc := absurd hpc h.stays

/-- Outside the body of a task nothing but the queues matters. -/
theorem Has.queue {s s' : Loop τ} {r : RunnerId} {task : Task} (h : s.Has r task)
    (hpc : ∀ task, s.pc ≠ .inTask task) (hdone : s'.done = s.done)
    (hq : some task ∈ (s.runner r).taskQueue → s'.Has r task) : s'.Has r task := by
  rcases h with h | ⟨r', h⟩ | h
  · exact Or.inl (hdone ▸ h)
  · exact absurd h (hpc _)
  · exact hq h

theorem beginNext_moves {s s' : Loop τ} {now : TimePoint} (hpc : s.pc = .atTop)
    (h : s.beginNext now = .ok s') : Moves s s' := by
  have hout : ∀ task, s.pc ≠ .inTask task := by simp [hpc]
  unfold beginNext at h
  split at h
  · cases h
    exact ⟨rfl, rfl, rfl, rfl, nofun, fun r task hh => hh.queue hout rfl fun hq => Or.inr (Or.inr hq),
      nofun⟩
  · obtain ⟨groups, hsort, h⟩ := bind_eq_ok.mp h
    obtain ⟨⟨runner, worker⟩, hb, h⟩ := bind_eq_ok.mp h
    cases h
    have hqueues := (Worker.balanceStage_eq hb).2
    refine ⟨rfl, rfl, rfl, (Worker.balanceStage_keeps hb).isTerminated, nofun, fun r task hh => ?_, ?_⟩
    · refine hh.queue hout rfl fun hq => Or.inr (Or.inr ?_)
      have hdue : (runner r).taskQueue = (s.runner r).taskQueue := congrArg Prod.fst (hqueues r).1
      exact hdue ▸ hq
    · intro rest hrest
      cases hrest
      exact ⟨fun g hg => Or.inl hg, nofun⟩

theorem scanNext_moves {s s' : Loop τ} {clock now : TimePoint} {g : Group} {rest : List Group}
    {idleTask : Option (RunnerId × IdleTask)} (hs : s.Inv)
    (hpc : s.pc = .scanning now (g :: rest) idleTask)
    (hnull : ∀ r ∈ g.getLast?, (s.runner r).taskQueue.head? ≠ some none)
    (h : s.scanNext E clock now g rest idleTask = .ok s') : Moves s s' := by
  have hout : ∀ task, s.pc ≠ .inTask task := by simp [hpc]
  obtain ⟨⟨found, st⟩, hscan, h⟩ := bind_eq_ok.mp h
  obtain ⟨back, hback, hfound, hdue⟩ := Worker.scanGroups_single hscan
  obtain ⟨hkeeps, hrun, -, -⟩ := Worker.scanGroups_keeps hscan
  have hself : (st.runner back).taskQueue = ((s.runner back).getNext E clock).2.taskQueue := by
    have := congrArg Prod.fst (hdue back)
    rwa [Function.update_self] at this
  have hother : ∀ r, r ≠ back → (st.runner r).taskQueue = (s.runner r).taskQueue := by
    intro r hr
    have := congrArg Prod.fst (hdue r)
    rwa [Function.update_of_ne hr] at this
  have hqueue : ∀ r task, some task ∈ (s.runner r).taskQueue →
      found = some (back, task) ∨ some task ∈ (st.runner r).taskQueue := by
    intro r task hq
    by_cases hr : r = back
    · subst hr
      rw [hself, hfound]
      exact (TaskRunner.mem_getNext hq).imp_left fun hn => by rw [hn]; rfl
    · exact Or.inr (hother r hr ▸ hq)
  cases hf : found with
  | some task =>
    rw [hf] at h
    cases h
    refine ⟨rfl, rfl, rfl, hkeeps.isTerminated, nofun, fun r task' hh => ?_, nofun⟩
    refine hh.queue hout rfl fun hq => Or.inr ((hqueue r task' hq).imp_left fun hfound => ?_)
    rw [hf] at hfound
    exact ⟨back, by rw [Option.some.inj hfound]; rfl⟩
  | none =>
    rw [hf] at h
    cases h
    have hempty : (st.runner back).taskQueue = [] := by
      rw [hself]
      refine TaskRunner.getNext_empty (hnull back hback) ?_
      rw [hf] at hfound
      exact Option.map_eq_none_iff.mp hfound.symm
    refine ⟨rfl, rfl, rfl, hkeeps.isTerminated, nofun, fun r task' hh => ?_, ?_⟩
    · refine hh.queue hout rfl fun hq => Or.inr (Or.inr ((hqueue r task' hq).resolve_left ?_))
      simp [hf]
    · intro rest' hrest
      cases hrest
      obtain ⟨hseen, hlate⟩ := hs.scanned _ (by rw [hpc]; rfl)
      constructor
      · intro g' hg'
        rw [hback]
        rcases hseen g' (hrun ▸ hg') with hg' | hg'
        · rcases List.mem_cons.mp hg' with rfl | hg'
          · refine Or.inr fun r hr => ?_
            rw [hback] at hr
            simp [Option.mem_some_iff.mp hr]
          · exact Or.inl hg'
        · exact Or.inr fun r hr => List.mem_append_right _ (hg' r hr)
      · intro r hr task hq
        by_cases he : r = back
        · subst he
          rw [hempty] at hq
          cases hq
        · rw [hback] at hr
          rw [hother r he] at hq
          refine hlate r ?_ task hq
          simpa [he] using hr

theorem leave_moves {s : Loop τ} {now : TimePoint} {idleTask : Option (RunnerId × IdleTask)}
    (hs : s.Inv) (hpc : s.pc = .scanning now [] idleTask) (st : Worker.Scan) :
    Moves s (s.leave (Worker.outcome none st)) := by
  have hout : ∀ task, s.pc ≠ .inTask task := by simp [hpc]
  have hscanned := hs.scanned [] (by rw [hpc]; rfl)
  have hhas : ∀ (t : Loop τ), t.done = s.done → t.runner = s.runner →
      ∀ r task, s.Has r task → t.Has r task := by
    intro t hdone hrunner r task hh
    exact hh.queue hout hdone fun hq => Or.inr (Or.inr (hrunner ▸ hq))
  unfold Worker.outcome
  dsimp only
  split
  · refine ⟨rfl, rfl, rfl, rfl, nofun, hhas _ rfl rfl, fun rest hrest => ?_⟩
    cases hrest
    exact ⟨hscanned.seen, hscanned.late⟩
  · split
    · exact ⟨rfl, rfl, rfl, rfl, nofun, hhas _ rfl rfl, nofun⟩
    · refine ⟨rfl, rfl, rfl, rfl, nofun, hhas _ rfl rfl, fun rest hrest => ?_⟩
      cases hrest
      exact ⟨hscanned.seen, hscanned.late⟩

theorem wake_moves {s : Loop τ} (hs : s.Inv) (hpc : s.pc = .waiting) :
    Moves s { s with pc := .noTask } := by
  have hscanned := hs.scanned [] (by rw [hpc]; rfl)
  refine ⟨rfl, rfl, rfl, rfl, nofun, fun r task hh => ?_, fun rest hrest => ?_⟩
  · exact hh.queue (by simp [hpc]) rfl fun hq => Or.inr (Or.inr hq)
  · cases hrest
    exact ⟨hscanned.seen, hscanned.late⟩

theorem finish_moves {s : Loop τ} {task : Option (RunnerId × Task)} (hpc : s.pc = .inTask task)
    (elapsed : Nat → TimeDelta) : Moves s { s with
      pc := .atTop
      worker := { s.worker with isTaskRunning := false }
      runner := State.addTimes elapsed 0 s.worker.currGroup s.runner
      done := (task.map Prod.snd).toList ++ s.done } := by
  refine ⟨rfl, rfl, rfl, rfl, nofun, fun r task' hh => ?_, nofun⟩
  rcases hh with h | ⟨r', h⟩ | h
  · exact Or.inl (List.mem_append_right _ h)
  · rw [hpc, LoopPc.inTask.injEq] at h
    exact Or.inl (by simp [h])
  · have hdue : (State.addTimes elapsed 0 s.worker.currGroup s.runner r).taskQueue =
        (s.runner r).taskQueue :=
      State.addTimes_keeps TaskRunner.taskQueue (fun _ _ => rfl) elapsed 0 _ s.runner r
    rw [← hdue] at h
    exact Or.inr (Or.inr h)

/-- The test of `RunTask`: the only step that can leave something behind. -/
theorem testRun_inv {s : Loop τ} (hs : s.Inv) (hpc : s.pc = .noTask)
    (hc : s.LeavesInTime .testRun) :
    Inv { s with pc := if s.worker.isTerminated then .returned else .atTop } := by
  have hout : ∀ task, s.pc ≠ .inTask task := by simp [hpc]
  refine ⟨hs.terminating, fun r task ho => ?_, fun rest hrest => ?_, fun hpc' => ?_, ?_⟩
  · exact (hs.kept r task ho).queue hout rfl fun hq => Or.inr (Or.inr hq)
  · dsimp only at hrest
    split at hrest <;> cases hrest
  · refine hs.terminating ?_
    by_contra hno
    dsimp only at hpc'
    rw [if_neg hno] at hpc'
    cases hpc'
  · intro hpc' r task ho hbound
    have hterm : s.worker.isTerminated = true := by
      by_contra hno
      dsimp only at hpc'
      rw [if_neg hno] at hpc'
      cases hpc'
    obtain ⟨⟨g, hg, hlast⟩, hlate⟩ := hc hterm r task ho hbound
    obtain ⟨hseen, hkept⟩ := hs.scanned [] (by rw [hpc]; rfl)
    have hpassed : r ∈ s.passed := ((hseen g hg).resolve_left (by simp)) r hlast
    rcases hs.kept r task (Or.inl ho) with h | ⟨r', h⟩ | h
    · exact h
    · exact absurd h (hout _)
    · exact absurd (hkept r hpassed task h) hlate

variable [DecidableEq τ]

/-- What is posted behind the back of the scan is late. -/
theorem push_inv {s : Loop τ} (hs : s.Inv) (t : τ) (r : RunnerId) (task : TaskPtr) : Inv { s with
    runner := Function.update s.runner r ((s.runner r).postTask task)
    posting := Function.update s.posting t (some (r, task))
    late := if r ∈ s.passed then task :: s.late else s.late } := by
  have hmem : ∀ r' task', some task' ∈ (s.runner r').taskQueue → some task' ∈
      (Function.update s.runner r ((s.runner r).postTask task) r').taskQueue := by
    intro r' task' hq
    by_cases hr : r' = r
    · subst hr
      simpa [TaskRunner.postTask] using Or.inl hq
    · simpa [hr] using hq
  refine ⟨hs.terminating, ?_, ?_, hs.left, hs.drained⟩
  · rintro r' task' (ho | ⟨u, hu⟩)
    · exact (hs.kept r' task' (Or.inl ho)).imp_right fun hh => hh.imp_right (hmem r' task')
    · dsimp only at hu
      by_cases hut : u = t
      · subst hut
        rw [Function.update_self, Option.some.injEq, Prod.mk.injEq] at hu
        obtain ⟨rfl, rfl⟩ := hu
        exact Or.inr (Or.inr (by simp [TaskRunner.postTask]))
      · rw [Function.update_of_ne hut] at hu
        exact (hs.kept r' task' (Or.inr ⟨u, hu⟩)).imp_right fun hh =>
          hh.imp_right (hmem r' task')
  · intro rest hrest
    obtain ⟨hseen, hlate⟩ := hs.scanned rest hrest
    refine ⟨hseen, fun r' hr' task' hq => ?_⟩
    dsimp only at hq hr' ⊢
    by_cases hr : r' = r
    · subst hr
      rw [Function.update_self] at hq
      rw [if_pos hr', List.mem_cons]
      exact (List.mem_append.mp hq).elim (fun hq => Or.inr (hlate _ hr' task' hq))
        fun hq => Or.inl (List.mem_singleton.mp hq)
    · rw [Function.update_of_ne hr] at hq
      have hl := hlate r' hr' task' hq
      split
      · exact List.mem_cons_of_mem _ hl
      · exact hl

/-- A call that returns after the loop was left returns after `Terminate` was called. -/
theorem ret_inv {s : Loop τ} (hs : s.Inv) {t : τ} {post : RunnerId × TaskPtr}
    (hpost : s.posting t = some post) : Inv { s with
      posting := Function.update s.posting t none
      owed := if s.terminating then s.owed else post :: s.owed } := by
  refine ⟨hs.terminating, ?_, fun rest hrest => ?_, hs.left, ?_⟩
  · rintro r task (ho | ⟨u, hu⟩)
    · refine hs.kept r task ?_
      dsimp only at ho
      split at ho
      · exact Or.inl ho
      · rcases List.mem_cons.mp ho with rfl | ho
        · exact Or.inr ⟨t, hpost⟩
        · exact Or.inl ho
    · refine hs.kept r task (Or.inr ⟨u, ?_⟩)
      by_cases hut : u = t
      · subst hut
        simp at hu
      · simpa [hut] using hu
  · obtain ⟨hseen, hlate⟩ := hs.scanned rest hrest
    exact ⟨hseen, hlate⟩
  · intro hpc r task ho
    dsimp only at ho
    rw [if_pos (hs.left hpc)] at ho
    exact hs.drained hpc r task ho

/-- **One access keeps the invariant.** -/
theorem step_inv {s s' : Loop τ} {op : LoopOp τ} (hs : s.Inv) (hc : s.LeavesInTime op)
    (h : s.step E op = .ok s') : s'.Inv := by
  cases op with
  | push t r task =>
    change (match s.posting t with | none => _ | some _ => _) = _ at h
    split at h
    · cases h
      exact push_inv hs t r task
    · cases h
  | ret t =>
    change (match s.posting t with | none => _ | some _ => _) = _ at h
    split at h
    · cases h
    · rename_i post hpost
      cases h
      exact ret_inv hs hpost
  | callTerminate =>
    change (if s.terminating then _ else _) = _ at h
    split at h
    · cases h
    · cases h
      refine ⟨fun _ => rfl, hs.kept, fun rest hrest => ?_, fun _ => rfl, hs.drained⟩
      obtain ⟨hseen, hlate⟩ := hs.scanned rest hrest
      exact ⟨hseen, hlate⟩
  | setTerminated =>
    change (if s.terminating then _ else _) = _ at h
    split at h
    · rename_i ht
      cases h
      refine ⟨fun _ => ht, hs.kept, fun rest hrest => ?_, hs.left, hs.drained⟩
      obtain ⟨hseen, hlate⟩ := hs.scanned rest hrest
      exact ⟨hseen, hlate⟩
    · cases h
  | begin now =>
    unfold step at h
    cases hpc : s.pc <;> rw [hpc] at h <;> first | cases h | exact (beginNext_moves hpc h).inv hs
  | scan clock =>
    change (match s.pc with | .scanning now (g :: rest) idleTask => _ | _ => _) = _ at h
    split at h
    · rename_i now g rest idleTask hpc
      exact (scanNext_moves hs hpc (hc g rest (by rw [hpc]; rfl)) h).inv hs
    · cases h
  | testNext =>
    change (match s.pc with | .scanning _ [] idleTask => _ | _ => _) = _ at h
    split at h
    · rename_i now idleTask hpc
      cases h
      exact (leave_moves hs hpc _).inv hs
    · cases h
  | wake =>
    change (match s.pc with | .waiting => _ | _ => _) = _ at h
    split at h
    · rename_i hpc
      cases h
      exact (wake_moves hs hpc).inv hs
    · cases h
  | testRun =>
    change (match s.pc with | .noTask => _ | _ => _) = _ at h
    split at h
    · rename_i hpc
      cases h
      exact testRun_inv hs hpc hc
    · cases h
  | finish elapsed =>
    change (match s.pc with | .inTask task => _ | _ => _) = _ at h
    split at h
    · rename_i task hpc
      cases h
      exact (finish_moves hpc elapsed).inv hs
    · cases h

/-! ## A `GetNextTask` in one piece -/

/-- Where the loop of `GetNextTask` leaves the thread. -/
def scannedPc (now : TimePoint) (idleTask : Option (RunnerId × IdleTask)) :
    Option (RunnerId × Task) → LoopPc
  | some task => .inTask (some task)
  | none => .scanning now [] idleTask

theorem scan_run {now : TimePoint} {clock : Nat → TimePoint} {i : Nat} {groups : List Group}
    {st st' : Worker.Scan} {found : Option (RunnerId × Task)}
    (h : Worker.scanGroups E now clock i groups st = .ok (found, st')) {s : Loop τ}
    (hpc : s.pc = .scanning now groups st.idleTask) (hrunner : s.runner = st.runner)
    (hworker : s.worker = st.worker) : ∃ ops s', run (step E) s ops = .ok s' ∧
      s'.runner = st'.runner ∧ s'.worker = entered s'.pc st'.worker ∧
      s'.pc = scannedPc now st'.idleTask found := by
  induction groups generalizing i st s with
  | nil =>
    cases h
    exact ⟨[], s, rfl, hrunner, by rw [hpc]; exact hworker, hpc⟩
  | cons g groups ih =>
    cases g with
    | nil => cases h
    | cons front members =>
      have hst : ({ runner := s.runner, worker := s.worker, idleTask := st.idleTask } : Worker.Scan) =
          st := by rw [hrunner, hworker]
      have hstep : s.step E (.scan (clock i)) =
          s.scanNext E (clock i) now (front :: members) groups st.idleTask := by
        rw [step, hpc]
      simp only [scanNext, hst] at hstep
      simp only [Worker.scanGroups] at h hstep
      generalize members.getLastD front = back at h hstep
      split at h
      · rename_i task r he
        cases h
        rw [he] at hstep
        exact ⟨[.scan (clock i)], _, run_cons hstep [], rfl, rfl, rfl⟩
      · rename_i r he
        rw [he] at hstep
        obtain ⟨ops, s', hrun, hs'⟩ := ih h (s := { s with
          runner := _, worker := _, passed := _, pc := .scanning now groups _ }) rfl rfl rfl
        exact ⟨.scan (clock i) :: ops, s', (run_cons hstep ops).trans hrun, hs'⟩

/-- **The accesses of a `GetNextTask` make up the call**, when nobody comes between. -/
theorem getNextTask_steps {clock : Nat → TimePoint} {s : Loop τ} {next : NextTask}
    {runner' : Runners} {w' : Worker} (hpc : s.pc = .atTop)
    (h : s.worker.getNextTask E clock s.runner = .ok (next, runner', w')) :
    ∃ ops s', run (step E) s ops = .ok s' ∧ s'.pc = .after next ∧ s'.runner = runner' ∧
      s'.worker = entered s'.pc w' := by
  have hbegin : s.step E (.begin (clock 0)) = s.beginNext (clock 0) := by rw [step, hpc]
  unfold Worker.getNextTask at h
  unfold beginNext at hbegin
  split at h
  · rename_i task queue hq
    cases h
    rw [hq] at hbegin
    exact ⟨[.begin (clock 0)], _, run_cons hbegin [], rfl, rfl, rfl⟩
  · rename_i hq
    obtain ⟨groups, hsort, h⟩ := bind_eq_ok.mp h
    obtain ⟨⟨runner, worker⟩, hb, h⟩ := bind_eq_ok.mp h
    obtain ⟨⟨found, st⟩, hscan, h⟩ := bind_eq_ok.mp h
    cases h
    rw [hq] at hbegin
    have hstart := hbegin.trans (bind_eq_ok.mpr ⟨groups, hsort, bind_eq_ok.mpr ⟨_, hb, rfl⟩⟩)
    obtain ⟨ops, s', hrun, hrunner, hworker, hpc'⟩ := scan_run hscan (s := { s with
      runner := runner, worker := worker, passed := [], late := []
      pc := .scanning (clock 0) worker.runningGroups none }) rfl rfl rfl
    have hrun' := (run_cons hstart ops).trans hrun
    cases found with
    | some task => exact ⟨_, s', hrun', hpc', hrunner, hworker⟩
    | none =>
      have hworker' : s'.worker = st.worker := by rw [hworker, hpc']; rfl
      have htest : s'.step E .testNext = .ok (s'.leave (Worker.outcome none st)) := by
        rw [step, hpc']
        simp only [scannedPc, hrunner, hworker']
      obtain ⟨hpc, hrunner', hentered⟩ := leave_spec s' (Worker.outcome none st)
      exact ⟨_, _, (run_append hrun').trans (run_cons htest []), hpc, hrunner'.trans hrunner,
        hentered.trans (by rw [hworker'])⟩

end Loop

/-- **Graceful termination drains the immediate queues** of a worker whose loop is
left in time, for any number of posting threads and along every interleaving. -/
theorem drained_of_meets {τ : Type} [DecidableEq τ] {E : Env} {runner : Runners} {worker : Worker}
    (h : worker.isTerminated = false) {ops : List (LoopOp τ)}
    (hops : Meets (Loop.step E) Loop.LeavesInTime { runner := runner, worker := worker } ops) :
    Always (Loop.step E) Loop.Drained { runner := runner, worker := worker } ops :=
  always_of_meets (A := fun _ => True) (fun _ _ _ _ => Loop.step_inv) (fun _ => Loop.Inv.drained)
    (fun _ _ => trivial) ⟨by simp [h], by simp, nofun, nofun, nofun⟩ hops

/-- One runner, which is idle, on a worker of its own. -/
def Loop.quiet : Loop Bool where
  runner := fun _ => { priority := 1, groupId := 0, isSchedulable := true }
  worker := { runningGroups := [[0]], groupId := 0 }

/-- A task that is posted before the scan looks at its runner. -/
theorem drained_in_time : Always (Loop.step .debug) Loop.Drained Loop.quiet
    [.push true 0 (some ⟨7⟩), .ret true, .callTerminate, .setTerminated, .begin 0, .scan 0,
      .finish fun _ => 0, .begin 0, .scan 0, .testNext, .wake, .testRun] := by
  refine drained_of_meets rfl (meets_of_take fun k op hk => ?_)
  match k, hk with
  | 5, rfl | 8, rfl =>
    intro g rest hrest r hr
    cases hrest
    cases hr
    decide
  | 11, rfl =>
    intro _ r task ho _
    cases List.mem_singleton.mp ho
    exact ⟨⟨[0], by decide, rfl⟩, by decide⟩
  | 0, rfl | 1, rfl | 2, rfl | 3, rfl | 4, rfl | 6, rfl | 7, rfl | 9, rfl | 10, rfl => trivial

/-- A task that is posted to a runner the scan has passed is left behind, when the
worker is terminated before it looks again. -/
theorem late_task_left : ¬ Always (Loop.step .debug) Loop.Drained Loop.quiet
    [.begin 0, .scan 0, .push true 0 (some ⟨7⟩), .ret true, .callTerminate, .setTerminated,
      .testNext, .wake, .testRun] := by
  intro h
  have hdrained := always_iff_run.mp h _ List.prefix_rfl _ (run_last (by decide))
  exact absurd (hdrained rfl 0 ⟨7⟩ (by decide) ⟨[0], by decide, by decide⟩) (by decide)

end Footstone
