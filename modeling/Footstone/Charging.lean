import Footstone.IdleTasks
import Footstone.Step

/-!
`RunTask` on one worker thread, nested to any depth: which runner a task finds as
the current one, and to whom its time goes. The thread's variables are written
where `GetNextTask` finds an ordinary task, and nowhere else; a `RunTask` inside
a task does not put them back.
-/

namespace Footstone

open Runs

/-- A `RunTask` whose task is in its body. -/
structure Frame where
  /-- The runner the task was taken from; an immediate task has none. -/
  source : Option RunnerId
  /-- The groups of that runner when the task was taken. -/
  groups : List Group

/-- A worker with its thread, in the `RunTask` calls `frames`, innermost first. -/
structure Thread where
  runner : Runners
  worker : Worker
  frames : List Frame := []

inductive ThreadOp where
  /-- `RunTask` up to the body of the task. -/
  | runTask (clock : Nat → TimePoint)
  /-- The rest of the innermost `RunTask`. -/
  | finishTask (elapsed : Nat → TimeDelta)
  /-- `AddSubTaskRunner(sub, true)` of the runner `r`, up to its own `RunTask` calls. -/
  | addSubTaskRunner (r sub : RunnerId)
  /-- Anything else that a body or another thread does to the worker and the
  runners. Nothing but `RunTask` writes the thread's own variables. -/
  | other (runner : Runners) (worker : Worker)

namespace Worker

/-- The thread's own variables are those of `w`. -/
def withLocals (w x : Worker) : Worker :=
  { x with
    isTaskRunning := w.isTaskRunning
    localRunner := w.localRunner
    currGroup := w.currGroup }

end Worker

namespace Thread

variable (E : Env)

/-- `RunTask` up to the body. The body of an immediate task calls nothing. -/
def runTask (clock : Nat → TimePoint) (t : Thread) : Except Fault Thread :=
  match t.frames with
  | { source := none, .. } :: _ => .error .stranger
  | _ => do
    let (next, runner, worker) ← t.worker.getNextTask E clock t.runner
    let enter source := .ok {
      runner := runner
      worker := { worker with isTaskRunning := true }
      frames := { source := source,
                  groups := worker.runningGroups.filter fun g => g.any (source = some ·) } ::
        t.frames }
    match next with
    | .nullptr => return { t with runner := runner, worker := worker }
    | .waited _ => return { t with runner := runner, worker := worker }
    | .immediate _ => enter none
    | .task r _ => enter (some r)
    | .idle r _ _ => enter (some r)

def finishTask (elapsed : Nat → TimeDelta) (t : Thread) : Except Fault Thread :=
  match t.frames with
  | [] => .error .stranger
  | _ :: rest =>
    .ok {
      runner := State.addTimes elapsed 0 t.worker.currGroup t.runner
      worker := { t.worker with isTaskRunning := false }
      frames := rest }

def step (t : Thread) : ThreadOp → Except Fault Thread
  | .runTask clock => t.runTask E clock
  | .finishTask elapsed => t.finishTask elapsed
  | .addSubTaskRunner r sub => do
    let worker ← t.worker.bindGroup r sub
    return { t with
      runner := Function.update t.runner r { t.runner r with hasSubRunner := true }
      worker := { worker with isStackingMode := true } }
  | .other runner worker => .ok { t with runner := runner, worker := t.worker.withLocals worker }

/-- While the body of a task of `r` runs, and no `RunTask` inside it, the current
runner is `r` and a task is running. -/
def KnowsRunner (t : Thread) : Prop :=
  ∀ frame rest r, t.frames = frame :: rest → frame.source = some r →
    t.worker.isTaskRunning = true ∧ t.worker.localRunner = some r

/-- Every runner got the readings of the clock that its places in `g` stand for,
and the others got none. -/
def Charged (elapsed : Nat → TimeDelta) (g : Group) (runner runner' : Runners) : Prop :=
  ∀ r, (runner' r).time =
    (g.zipIdx.filter (·.1 = r)).foldl (fun time p => time + elapsed p.2) (runner r).time

/-- The end of a `RunTask` charges the group of the runner its task was taken
from, and nobody for an immediate task. -/
def ChargesRight (t : Thread) : ThreadOp → Prop
  | .finishTask elapsed => ∀ frame rest t', t.frames = frame :: rest →
      t.finishTask elapsed = .ok t' →
        (frame.source = none → Charged elapsed [] t.runner t'.runner) ∧
        ∀ r, frame.source = some r →
          ∃ g ∈ frame.groups, r ∈ g ∧ Charged elapsed g t.runner t'.runner
  | _ => True

end Thread

namespace Worker

variable (E : Env)

/-- The runner whose idle task the call is going to hand out. -/
def idleSource (clock : Nat → TimePoint) (runner : Runners) (w : Worker) : Option RunnerId :=
  let scan := polled E (fun i => clock (i + 1)) 0 (w.lineUp runner) runner
  if w.immediateTaskQueue = [] ∧ scan.2 = true ∧ w.isTerminated = true then
    (scan.1.foldl poll (runner.idle, none)).2.map Prod.fst
  else none

end Worker

namespace Thread

variable (E : Env)

/-- The condition for the current runner and the times to be right: immediate tasks
run while no group is current, an idle task is one of the current runner, and no task
that a `RunTask` inside another task took comes to its end. -/
def Attributable (t : Thread) : ThreadOp → Prop
  | .runTask clock =>
    (t.worker.immediateTaskQueue ≠ [] → t.worker.currGroup = []) ∧
    ∀ r, t.worker.idleSource E clock t.runner = some r → t.worker.localRunner = some r ∧
      t.worker.currGroup ∈ t.worker.lineUp t.runner ∧ r ∈ t.worker.currGroup
  | .finishTask _ => t.frames.length ≤ 1
  | _ => True

instance (t : Thread) (op : ThreadOp) : Decidable (t.Attributable E op) :=
  match op with
  | .runTask clock =>
    inferInstanceAs (Decidable (_ ∧ ∀ r ∈ t.worker.idleSource E clock t.runner, _))
  | .finishTask _ => inferInstanceAs (Decidable (_ ≤ _))
  | .addSubTaskRunner .. | .other .. => isTrue trivial

end Thread

/-! ## What `GetNextTask` does to the thread's variables -/

namespace Worker

variable {E : Env}

theorem pollFront_locals (now : TimePoint) (front : RunnerId) (st : Scan) :
    SameLocals st.worker (pollFront now front st).worker := by
  unfold pollFront
  cases st.idleTask <;> dsimp only <;> split <;> exact ⟨rfl, rfl, rfl⟩

/-- The variables were just written, for a task of `r`. -/
structure Points (w : Worker) (r : RunnerId) (groups : List Group) : Prop where
  localRunner : w.localRunner = some r
  currGroup : w.currGroup ∈ groups
  mem : r ∈ w.currGroup

/-- The variables are written where a task is found, and left alone elsewhere. -/
theorem scanGroups_locals {now : TimePoint} {clock : Nat → TimePoint} {i : Nat}
    {groups : List Group} {st st' : Scan} {found : Option (RunnerId × Task)}
    (h : scanGroups E now clock i groups st = .ok (found, st')) :
    (∀ r task, found = some (r, task) → Points st'.worker r groups) ∧
    (found = none → SameLocals st.worker st'.worker) := by
  induction groups generalizing i st with
  | nil =>
    cases h
    refine ⟨fun r task he => ?_, fun _ => ⟨rfl, rfl, rfl⟩⟩
    cases he
  | cons g groups ih =>
    cases g with
    | nil => cases h
    | cons front members =>
      simp only [scanGroups] at h
      have hback : members.getLastD front ∈ front :: members := List.getLastD_mem_cons
      generalize members.getLastD front = back at h hback
      split at h
      · cases h
        constructor
        · intro r task he
          cases he
          exact ⟨rfl, List.mem_cons_self, hback⟩
        · intro hno
          cases hno
      · obtain ⟨hfound, hnone⟩ := ih h
        have hfront := pollFront_locals now front
          { st with runner := Function.update st.runner back ((st.runner back).getNext E (clock i)).2 }
        refine ⟨fun r task he => ?_, fun he => hfront.trans (hnone he)⟩
        obtain ⟨hl, hg, hr⟩ := hfound r task he
        exact ⟨hl, List.mem_cons_of_mem _ hg, hr⟩

/-- What a call does to the variables, by what it hands out. -/
theorem getNextTask_locals {clock : Nat → TimePoint} {runner runner' : Runners} {w w' : Worker}
    {next : NextTask} (h : w.getNextTask E clock runner = .ok (next, runner', w')) :
    (∃ r task, next = .task r task ∧ Points w' r w'.runningGroups) ∨
    (SameLocals w w' ∧ (next.source = none ∧ (∀ task, next = .immediate task →
        w.immediateTaskQueue ≠ []) ∨
      ∃ r task time, next = .idle r task time ∧ w.idleSource E clock runner = some r ∧
        w'.runningGroups = w.lineUp runner)) := by
  rcases getNextTask_cases h with ⟨task, queue, rfl, hq, rfl, rfl⟩ | ⟨hq, hnot, -, -⟩
  · exact Or.inr ⟨⟨rfl, rfl, rfl⟩, Or.inl ⟨rfl, fun _ _ => by simp [hq]⟩⟩
  · obtain ⟨found, st, st', hprep, hscan, rfl, rfl, rfl⟩ := getNextTask_scan h hq
    obtain ⟨hwritten, hleft⟩ := scanGroups_locals hscan
    obtain ⟨hfold, hfound⟩ := hprep.polled hscan
    obtain ⟨hkeeps, hgroups, -, -⟩ := scanGroups_keeps hscan
    rw [hprep.runningGroups] at hgroups
    cases found with
    | some x =>
      have hpoints := hwritten x.1 x.2 rfl
      rw [← hgroups] at hpoints
      exact Or.inl ⟨x.1, x.2, rfl, hpoints⟩
    | none =>
      refine Or.inr ⟨hprep.locals.trans (hleft rfl), ?_⟩
      unfold outcome
      cases hterm : st'.worker.isTerminated with
      | false => exact Or.inl ⟨rfl, nofun⟩
      | true =>
        cases hidle : st'.idleTask with
        | none => exact Or.inl ⟨rfl, nofun⟩
        | some x =>
          refine Or.inr ⟨x.1, x.2, _, rfl, ?_, hgroups⟩
          have hterm' : w.isTerminated = true := by
            rw [← hprep.isTerminated, ← hkeeps.isTerminated, hterm]
          have hpopped := (Prod.mk.inj hfold).2
          rw [hidle] at hpopped
          rw [idleSource, if_pos ⟨hq, hfound.mp rfl, hterm'⟩, ← hpopped]
          rfl

end Worker

/-! ## The run -/

theorem addTimes_time (elapsed : Nat → TimeDelta) (i : Nat) (g : Group) (runner : Runners)
    (r : RunnerId) : (State.addTimes elapsed i g runner r).time =
      ((g.zipIdx i).filter (·.1 = r)).foldl (fun time p => time + elapsed p.2) (runner r).time := by
  induction g generalizing i runner with
  | nil => rfl
  | cons x g ih =>
    rw [State.addTimes, ih, List.zipIdx_cons]
    by_cases h : r = x
    · subst h
      simp
    · simp [h, Ne.symm h]

namespace Thread

variable {E : Env}

/-- The variables fit the innermost task. -/
structure Fits (t : Thread) : Prop where
  runner : ∀ frame rest r, t.frames = frame :: rest → frame.source = some r →
    t.worker.isTaskRunning = true ∧ Worker.Points t.worker r frame.groups
  immediate : ∀ frame rest, t.frames = frame :: rest → frame.source = none →
    t.worker.currGroup = []

theorem Fits.knowsRunner {t : Thread} (h : t.Fits) : t.KnowsRunner := fun frame rest r hf hr =>
  ⟨(h.runner frame rest r hf hr).1, (h.runner frame rest r hf hr).2.localRunner⟩

/-- Nothing has changed for the innermost task. -/
theorem Fits.congr {t t' : Thread} (h : t.Fits) (hf : t'.frames = t.frames)
    (hl : Worker.SameLocals t.worker t'.worker) : t'.Fits where
  runner frame rest r he hr := by
    obtain ⟨hrun, hpoints⟩ := h.runner frame rest r (hf ▸ he) hr
    exact ⟨hl.isTaskRunning.trans hrun, hl.localRunner.trans hpoints.localRunner,
      hl.currGroup ▸ hpoints.currGroup, hl.currGroup ▸ hpoints.mem⟩
  immediate frame rest he hr := hl.currGroup.trans (h.immediate frame rest (hf ▸ he) hr)

/-- A `RunTask` that takes nothing, and one that takes a task. -/
theorem runTask_cases {t t' : Thread} {clock : Nat → TimePoint} (h : t.runTask E clock = .ok t') :
    ∃ next runner worker, t.worker.getNextTask E clock t.runner = .ok (next, runner, worker) ∧
      ((next.source = none ∧ (∀ task, next ≠ .immediate task) ∧
        t' = { t with runner := runner, worker := worker }) ∨
      ∃ source, next.source = source ∧ (source = none → ∃ task, next = .immediate task) ∧
        t' = { runner := runner
               worker := { worker with isTaskRunning := true }
               frames := { source := source,
                           groups := worker.runningGroups.filter fun g =>
                             g.any (source = some ·) } :: t.frames }) := by
  unfold runTask at h
  split at h
  · cases h
  · obtain ⟨⟨next, runner, worker⟩, hn, h⟩ := bind_eq_ok.mp h
    refine ⟨next, runner, worker, hn, ?_⟩
    cases next <;> cases h
    · exact Or.inl ⟨rfl, nofun, rfl⟩
    · exact Or.inl ⟨rfl, nofun, rfl⟩
    · exact Or.inr ⟨none, rfl, fun _ => ⟨_, rfl⟩, rfl⟩
    · exact Or.inr ⟨some _, rfl, nofun, rfl⟩
    · exact Or.inr ⟨some _, rfl, nofun, rfl⟩

theorem runTask_fits {t t' : Thread} {clock : Nat → TimePoint} (ht : t.Fits)
    (hc : t.Attributable E (.runTask clock)) (h : t.runTask E clock = .ok t') : t'.Fits := by
  obtain ⟨next, runner, worker, hn, hcase⟩ := runTask_cases h
  obtain ⟨himmediate, hidle⟩ := hc
  rcases Worker.getNextTask_locals hn with ⟨r, task, rfl, hpoints⟩ | ⟨hsame, hnone⟩
  · -- An ordinary task has written the variables.
    rcases hcase with ⟨hs, -⟩ | ⟨source, rfl, -, rfl⟩
    · cases hs
    · refine ⟨fun frame rest x he hx => ?_, fun frame rest he hx => ?_⟩ <;> cases he <;> cases hx
      exact ⟨rfl, hpoints.localRunner, List.mem_filter.mpr ⟨hpoints.currGroup, by
        simpa [NextTask.source] using hpoints.mem⟩, hpoints.mem⟩
  · rcases hcase with ⟨-, -, rfl⟩ | ⟨source, hsource, hi, rfl⟩
    · exact ht.congr rfl hsame
    · rcases hnone with ⟨hs, hq⟩ | ⟨r, task, time, rfl, hr, hline⟩
      · -- An immediate task leaves them as they were.
        obtain rfl : source = none := hsource.symm.trans hs
        obtain ⟨task, rfl⟩ := hi rfl
        refine ⟨fun frame rest x he hx => ?_, fun frame rest he hx => ?_⟩ <;> cases he
        · cases hx
        · exact hsame.currGroup.trans (himmediate (hq task rfl))
      · -- So does an idle task, and they have to fit already.
        obtain rfl : some r = source := hsource
        obtain ⟨hlocal, hgroup, hmem⟩ := hidle r hr
        rw [← hsame.localRunner] at hlocal
        rw [← hsame.currGroup] at hgroup hmem
        refine ⟨fun frame rest x he hx => ?_, fun frame rest he hx => ?_⟩ <;> cases he <;> cases hx
        refine ⟨rfl, hlocal, List.mem_filter.mpr ⟨hline ▸ hgroup, by simpa using hmem⟩, hmem⟩

theorem step_fits {t t' : Thread} {op : ThreadOp} (ht : t.Fits) (hc : t.Attributable E op)
    (h : t.step E op = .ok t') : t'.Fits := by
  cases op with
  | runTask clock => exact runTask_fits ht hc h
  | finishTask elapsed =>
    change t.finishTask elapsed = .ok t' at h
    unfold finishTask at h
    split at h
    · cases h
    · rename_i frame rest hf
      cases h
      have hrest : rest = [] := by
        have hlen : t.frames.length ≤ 1 := hc
        rw [hf, List.length_cons] at hlen
        exact List.length_eq_zero_iff.mp (by omega)
      subst hrest
      exact ⟨nofun, nofun⟩
  | addSubTaskRunner r sub =>
    obtain ⟨worker, hb, h⟩ := bind_eq_ok.mp h
    have hlocals : Worker.SameLocals t.worker worker := by
      unfold Worker.bindGroup at hb
      split at hb
      · cases hb; exact ⟨rfl, rfl, rfl⟩
      · split at hb <;> cases hb
        exact ⟨rfl, rfl, rfl⟩
    cases h
    exact ht.congr rfl ⟨hlocals.isTaskRunning, hlocals.localRunner, hlocals.currGroup⟩
  | other runner worker =>
    cases h
    exact ht.congr rfl ⟨rfl, rfl, rfl⟩

theorem Fits.chargesRight {t : Thread} (h : t.Fits) (op : ThreadOp) : t.ChargesRight op := by
  cases op with
  | finishTask elapsed =>
    intro frame rest t' hf he
    have ht' : t'.runner = State.addTimes elapsed 0 t.worker.currGroup t.runner := by
      unfold finishTask at he
      rw [hf] at he
      cases he
      rfl
    have hcharged : Charged elapsed t.worker.currGroup t.runner t'.runner := fun r => by
      rw [ht']
      exact addTimes_time elapsed 0 _ _ r
    refine ⟨fun hs => ?_, fun r hr => ?_⟩
    · rw [← h.immediate frame rest hf hs]
      exact hcharged
    · have hpoints := (h.runner frame rest r hf hr).2
      exact ⟨_, hpoints.currGroup, hpoints.mem, hcharged⟩
  | _ => trivial

end Thread

/-- **A task knows its runner and its time is charged to its group**, all along a
run of a thread whose steps meet the condition. -/
theorem attributed_of_meets {E : Env} {runner : Runners} {worker : Worker} {ops : List ThreadOp}
    (h : Meets (Thread.step E) (Thread.Attributable E) { runner := runner, worker := worker } ops) :
    Always (Thread.step E) Thread.KnowsRunner { runner := runner, worker := worker } ops ∧
      Meets (Thread.step E) Thread.ChargesRight { runner := runner, worker := worker } ops :=
  ⟨always_of_meets (A := fun _ => True) (fun _ _ _ _ => Thread.step_fits)
    (fun _ => Thread.Fits.knowsRunner) (fun _ _ => trivial) ⟨nofun, nofun⟩ h,
    meets_of_meets (fun _ _ _ => Thread.step_fits) (fun _ op ht _ => ht.chargesRight op)
      ⟨nofun, nofun⟩ h⟩

/-- An immediate task, a task of runner 0, and its idle task, which calls
`AddSubTaskRunner(runner 1, true)` and runs a task of runner 1 inside. -/
theorem attributed_nested :
    let t : Thread := {
      runner := fun r => {
        taskQueue := [some ⟨r⟩], idleTaskQueue := if r = 0 then [some ⟨7⟩] else []
        priority := 1, groupId := 0, isSchedulable := true }
      worker := {
        runningGroups := [[0]], immediateTaskQueue := [.takeSpecific 2 0 1], isTerminated := true
        groupId := 0 } }
    let ops : List ThreadOp := [
      .runTask fun _ => 0, .finishTask fun _ => 5, .runTask fun _ => 5, .finishTask fun _ => 2,
      .runTask fun _ => 7, .addSubTaskRunner 0 1, .runTask fun _ => 8]
    Always (Thread.step .debug) Thread.KnowsRunner t ops ∧
      Meets (Thread.step .debug) Thread.ChargesRight t ops :=
  attributed_of_meets (by decide)

/-- After a `RunTask` inside its body a task is told that no task is running. -/
theorem nested_task_forgets : ¬ Always (Thread.step .debug) Thread.KnowsRunner
    { runner := fun _ => { taskQueue := [some ⟨7⟩], priority := 1, groupId := 0, isSchedulable := true }
      worker := { runningGroups := [[0]], groupId := 0 } }
    [.runTask fun _ => 0, .addSubTaskRunner 0 1, .runTask fun _ => 0, .finishTask fun _ => 5] := by
  intro h
  have hknows := always_iff_run.mp h _ List.prefix_rfl _ (run_last (by decide))
  exact Bool.false_ne_true (hknows _ [] 0 rfl rfl).1

end Footstone
