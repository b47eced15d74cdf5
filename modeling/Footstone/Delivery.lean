import Footstone.IdleTasks
import Footstone.Queues
import Footstone.WellFormed

/-!
The tasks of one runner over whole runs of the system. However runners are created, stacked,
removed and moved between workers, and whatever several workers take in turn from a runner that
is bound to more than one of them, what happens to the two queues of a runner is a sequence of
posts and `GetNext` calls on it. So a task is handed to one worker, once, immediate tasks in the
order of their posting and delayed ones in the order of their deadlines and not before.
-/

namespace Footstone

namespace State

/-! ## What leaves the queues alone -/

/-- Both queues of every runner are as they were, and there is no new runner. -/
structure SameDue (s s' : State) : Prop where
  due : ∀ x, (s'.runner x).due = (s.runner x).due
  count : s'.globalTaskRunnerId = s.globalTaskRunnerId

namespace SameDue

variable {s t u : State}

theorem refl (s : State) : SameDue s s := ⟨fun _ => rfl, rfl⟩

theorem trans (h : SameDue s t) (k : SameDue t u) : SameDue s u :=
  ⟨fun x => (k.due x).trans (h.due x), k.count.trans h.count⟩

/-- The heap of runners is the same. -/
theorem of_runner (h : t.runner = s.runner) (hcount : t.globalTaskRunnerId = s.globalTaskRunnerId) :
    SameDue s t := ⟨fun x => by rw [h], hcount⟩

theorem modifyRunner {r : RunnerId} {f : TaskRunner → TaskRunner}
    (h : (f (s.runner r)).due = (s.runner r).due) : SameDue s (s.modifyRunner r f) :=
  ⟨update_keeps TaskRunner.due h, rfl⟩

end SameDue

variable {E : Env} {s s' : State}

theorem createWorkers_sameDue (n : Nat) (s : State) : SameDue s (s.createWorkers E n) := by
  induction n generalizing s with
  | zero => exact .refl s
  | succ n ih =>
    have hpush : SameDue s (s.pushWorker E) := .of_runner rfl rfl
    exact hpush.trans (ih _)

theorem moveSpecifics_sameDue {dst : WorkerId} {rs : List RunnerId}
    (h : moveSpecifics dst rs s = .ok s') : SameDue s s' := by
  induction rs generalizing s with
  | nil =>
    cases h
    exact .refl _
  | cons r rs ih =>
    unfold moveSpecifics at h
    split at h
    · rename_i src _
      have hmove : SameDue s (s.moveTaskRunnerSpecificNoLock r src dst) := .of_runner rfl rfl
      exact hmove.trans (ih h)
    · cases h

theorem distribute_sameDue {q : Nat} {cur indices : List Nat} {groups : List Group}
    (h : distribute q cur indices groups s = .ok s') : SameDue s s' := by
  induction indices generalizing groups s with
  | nil =>
    cases h
    exact .refl _
  | cons index indices ih =>
    unfold distribute at h
    split at h
    · cases h
    · obtain ⟨t, hmove, h⟩ := Runs.bind_eq_ok.mp h
      refine (moveSpecifics_sameDue hmove).trans (SameDue.trans ?_ (ih h))
      exact .of_runner rfl rfl

theorem grow_sameDue {n : Nat} (h : s.grow n = .ok s') : SameDue s s' := by
  obtain ⟨pool, -, h⟩ := Runs.bind_eq_ok.mp h
  obtain ⟨acc, -, h⟩ := Runs.bind_eq_ok.mp h
  obtain ⟨t, hdistribute, h⟩ := Runs.bind_eq_ok.mp h
  cases h
  have hgather : SameDue s { s with worker := acc.worker, index := s.size } := .of_runner rfl rfl
  have hsize : SameDue t { t with size := n } := .of_runner rfl rfl
  exact (hgather.trans (distribute_sameDue hdistribute)).trans hsize

theorem adopt_sameDue (w : WorkerId) (r : RunnerId) (s : State) : SameDue s (adopt w s r) := by
  unfold adopt
  dsimp only
  refine SameDue.trans ?_ (SameDue.modifyRunner rfl)
  split
  · exact .of_runner rfl rfl
  · exact .refl s

theorem foldl_adopt_sameDue (w : WorkerId) (group : Group) (s : State) :
    SameDue s (group.foldl (adopt w) s) := by
  induction group generalizing s with
  | nil => exact .refl s
  | cons r group ih => exact (adopt_sameDue w r s).trans (ih _)

theorem rebind_sameDue {n : Nat} {groups : List Group} (h : rebind n groups s = .ok s') :
    SameDue s s' := by
  induction groups generalizing s with
  | nil =>
    cases h
    exact .refl _
  | cons group groups ih =>
    obtain ⟨w, -, h⟩ := Runs.bind_eq_ok.mp h
    obtain ⟨x, -, h⟩ := Runs.bind_eq_ok.mp h
    have hset : SameDue s (s.setWorker w x) := .of_runner rfl rfl
    have hadopt := hset.trans (foldl_adopt_sameDue w group _)
    refine (hadopt.trans ?_).trans (ih h)
    exact .of_runner rfl rfl

theorem terminateWorkers_sameDue {n k : Nat} (h : terminateWorkers n k s = .ok s') :
    SameDue s s' := by
  induction k generalizing s with
  | zero =>
    cases h
    exact .refl _
  | succ k ih =>
    unfold terminateWorkers at h
    split at h
    · split at h
      · cases h
      · refine SameDue.trans ?_ (ih h)
        exact .of_runner rfl rfl
    · cases h
      exact .refl _

theorem shrink_sameDue {n : Nat} {reduceSize : Int} (h : s.shrink E n reduceSize = .ok s') :
    SameDue s s' := by
  obtain ⟨pool, -, h⟩ := Runs.bind_eq_ok.mp h
  obtain ⟨acc, -, h⟩ := Runs.bind_eq_ok.mp h
  obtain ⟨_, -, h⟩ := Runs.bind_eq_ok.mp h
  dsimp only at h
  split at h
  · cases h
    exact .of_runner rfl rfl
  · obtain ⟨pool, -, h⟩ := Runs.bind_eq_ok.mp h
    obtain ⟨⟨groups, worker⟩, -, h⟩ := Runs.bind_eq_ok.mp h
    obtain ⟨t, hrebind, h⟩ := Runs.bind_eq_ok.mp h
    have hretain : SameDue s { s with
        worker := worker, index := if n ≤ s.index then 0 else s.index } := .of_runner rfl rfl
    have hsize : SameDue t { t with size := n } := .of_runner rfl rfl
    exact ((hretain.trans (rebind_sameDue hrebind)).trans hsize).trans (terminateWorkers_sameDue h)

theorem resize_sameDue {n : Nat} (h : s.resize E n = .ok s') : SameDue s s' := by
  unfold resize at h
  split at h
  · cases h
    exact .refl s
  · have hstaged : SameDue s (if s.size < n then s.createWorkers E (n - s.size) else s) := by
      split
      · exact createWorkers_sameDue _ s
      · exact .refl s
    unfold balance at h
    dsimp only at h
    split at h
    · exact hstaged.trans (grow_sameDue h)
    · obtain ⟨_, -, h⟩ := Runs.bind_eq_ok.mp h
      exact hstaged.trans (shrink_sameDue h)

theorem runImmediate_sameDue {task : ImmediateTask} (h : s.runImmediate task = .ok s') :
    SameDue s s' := by
  cases task with
  | takeSpecific r src dst =>
    obtain ⟨_, -, h⟩ := Runs.bind_eq_ok.mp h
    dsimp only at h
    split at h
    · cases h
      exact .of_runner rfl rfl
    · cases h
      exact .of_runner rfl rfl
  | installSpecific r dst keys specific =>
    simp only [runImmediate] at h
    split at h
    · cases h
      exact .of_runner rfl rfl
    · cases h
      exact .refl s

theorem addSubTaskRunner_sameDue {r sub : RunnerId} {isTaskRunning b : Bool}
    (h : s.addSubTaskRunner r sub isTaskRunning = .ok (b, s')) : SameDue s s' := by
  unfold addSubTaskRunner at h
  split at h
  · cases h
    exact .refl s
  · rename_i w _
    obtain ⟨x, -, h⟩ := Runs.bind_eq_ok.mp h
    cases h
    exact SameDue.trans (t := s.setWorker w _) (.of_runner rfl rfl) (.modifyRunner rfl)

theorem removeSubTaskRunner_sameDue (r sub : RunnerId) (s : State) :
    SameDue s (s.removeSubTaskRunner r sub).2 := by
  unfold removeSubTaskRunner
  split
  · split
    · exact .refl s
    · rename_i w _
      have hunbind : SameDue s (s.modifyWorker w (Worker.unBind sub)) := .of_runner rfl rfl
      exact hunbind.trans ⟨update_keeps TaskRunner.due rfl, rfl⟩
  · exact .refl s

theorem finishTask_sameDue {w : WorkerId} {elapsed : Nat → TimeDelta}
    (h : s.finishTask w elapsed = .ok s') : SameDue s s' := by
  unfold finishTask at h
  split at h
  · cases h
  · cases h
    exact ⟨addTimes_keeps TaskRunner.due (fun _ _ => rfl) elapsed 0 _ _, rfl⟩

end State

/-! ## One runner in a `GetNextTask` -/

namespace Log

variable {E : Env} {log : Log} {r : TaskRunner}

/-- The queues of `r` are as the calls of the log left them. -/
def Mirrors (log : Log) (r : TaskRunner) : Prop := log.runner.due = r.due

variable (E) in
/-- `GetNext` calls that read these clocks. -/
def fetch (nows : List TimePoint) (log : Log) : Log := (nows.map Call.getNext).foldl (play E) log

theorem Mirrors.getNext (h : log.Mirrors r) (now : TimePoint) :
    (log.play E (.getNext now)).Mirrors (r.getNext E now).2 ∧
      (log.play E (.getNext now)).returned =
        log.returned ++ (r.getNext E now).1.toList.map (now, ·) := by
  obtain ⟨htask, hdue⟩ := TaskRunner.getNext_congr E h now
  refine ⟨hdue, ?_⟩
  rw [← htask]
  rfl

/-- A clock that is read again and again. -/
def Ascending (clock : Nat → TimePoint) : Prop := ∀ i j, i ≤ j → clock i ≤ clock j

/-- `GetNext` calls at readings of `clock` from the `i`-th on lead from the log to the runner `r'`
and return `tasks`. -/
structure Leads (E : Env) (clock : Nat → TimePoint) (i : Nat) (log : Log) (r' : TaskRunner)
    (tasks : List Task) (nows : List TimePoint) (got : List (TimePoint × Task)) : Prop where
  mirrors : (log.fetch E nows).Mirrors r'
  returned : (log.fetch E nows).returned = log.returned ++ got
  tasks : got.map Prod.snd = tasks
  reads : ∀ now ∈ nows, ∃ j, i ≤ j ∧ clock j = now
  times : ∀ x ∈ got, ∃ j, clock j = x.1
  sorted : nows.Pairwise (· ≤ ·)

theorem Leads.refl {clock : Nat → TimePoint} (h : log.Mirrors r) (i : Nat) :
    Leads E clock i log r [] [] [] :=
  ⟨h, (List.append_nil _).symm, rfl, nofun, nofun, .nil⟩

/-- One more call before the others, which returns nothing. -/
theorem Leads.cons {clock : Nat → TimePoint} {i : Nat} {r' : TaskRunner} {tasks : List Task}
    {nows : List TimePoint} {got : List (TimePoint × Task)} (hclock : Ascending clock)
    (hnone : (log.play E (.getNext (clock i))).returned = log.returned)
    (h : Leads E clock (i + 1) (log.play E (.getNext (clock i))) r' tasks nows got) :
    Leads E clock i log r' tasks (clock i :: nows) got where
  mirrors := h.mirrors
  returned := h.returned.trans (by rw [hnone])
  tasks := h.tasks
  reads now hnow := by
    rcases List.mem_cons.mp hnow with rfl | hnow
    · exact ⟨i, le_rfl, rfl⟩
    · obtain ⟨j, hj, rfl⟩ := h.reads now hnow
      exact ⟨j, Nat.le_of_succ_le hj, rfl⟩
  times := h.times
  sorted := by
    refine List.pairwise_cons.mpr ⟨fun now hnow => ?_, h.sorted⟩
    obtain ⟨j, hj, rfl⟩ := h.reads now hnow
    exact hclock i j (Nat.le_of_succ_le hj)

/-- The calls may have started later. -/
theorem Leads.mono {clock : Nat → TimePoint} {i k : Nat} {r' : TaskRunner} {tasks : List Task}
    {nows : List TimePoint} {got : List (TimePoint × Task)}
    (h : Leads E clock k log r' tasks nows got) (hle : i ≤ k) :
    Leads E clock i log r' tasks nows got where
  mirrors := h.mirrors
  returned := h.returned
  tasks := h.tasks
  reads now hnow := by
    obtain ⟨j, hj, rfl⟩ := h.reads now hnow
    exact ⟨j, hle.trans hj, rfl⟩
  times := h.times
  sorted := h.sorted

end Log

/-- The task, if it was taken from the runner `x`. -/
def NextTask.taskOf (x : RunnerId) : NextTask → List Task
  | .task r t => if r = x then [t] else []
  | _ => []

namespace Worker

variable {E : Env} {log : Log}

/-- What was found is of the runner `x`. -/
def found? (x : RunnerId) : Option (RunnerId × Task) → List Task
  | some (r, task) => if r = x then [task] else []
  | none => []

theorem scanGroups_leads {now : TimePoint} {clock : Nat → TimePoint} (hclock : Log.Ascending clock)
    {i : Nat} {groups : List Group} {st st' : Scan} {found : Option (RunnerId × Task)}
    (h : scanGroups E now clock i groups st = .ok (found, st')) {x : RunnerId}
    (hlog : log.Mirrors (st.runner x)) :
    ∃ nows got, log.Leads E clock i (st'.runner x) (found? x found) nows got := by
  induction groups generalizing i st log with
  | nil =>
    cases h
    exact ⟨[], [], .refl hlog i⟩
  | cons g groups ih =>
    cases g with
    | nil => cases h
    | cons front members =>
      simp only [scanGroups] at h
      generalize members.getLastD front = back at h
      by_cases hback : back = x
      · subst hback
        obtain ⟨hmirrors, hreturned⟩ := hlog.getNext (E := E) (clock i)
        have hupdated : (log.play E (.getNext (clock i))).Mirrors
            (Function.update st.runner back ((st.runner back).getNext E (clock i)).2 back) := by
          rw [Function.update_self]
          exact hmirrors
        split at h
        · rename_i task htask
          cases h
          refine ⟨[clock i], [(clock i, task)], hupdated, ?_, ?_, ?_, ?_,
            List.pairwise_singleton _ _⟩
          · rw [htask] at hreturned
            exact hreturned
          · simp [found?]
          · simp only [List.mem_singleton]
            rintro _ rfl
            exact ⟨i, le_rfl, rfl⟩
          · simp only [List.mem_singleton]
            rintro _ rfl
            exact ⟨i, rfl⟩
        · rename_i htask
          rw [htask] at hreturned
          obtain ⟨nows, got, hrest⟩ := ih h (show (log.play E (.getNext (clock i))).Mirrors _ by
            rw [Log.Mirrors, pollFront_due]
            exact hupdated)
          exact ⟨_, _, hrest.cons hclock (by simpa using hreturned)⟩
      · have hother : log.Mirrors
            (Function.update st.runner back ((st.runner back).getNext E (clock i)).2 x) := by
          rw [Function.update_of_ne (Ne.symm hback)]
          exact hlog
        split at h
        · cases h
          refine ⟨[], [], ?_⟩
          rw [found?, if_neg hback]
          exact .refl hother i
        · obtain ⟨nows, got, hrest⟩ := ih h (show log.Mirrors _ by
            rw [Log.Mirrors, pollFront_due]
            exact hother)
          exact ⟨nows, got, hrest.mono (Nat.le_succ i)⟩

theorem outcome_taskOf (x : RunnerId) (found : Option (RunnerId × Task)) (st : Scan) :
    (outcome found st).taskOf x = found? x found := by
  cases found with
  | some found => rfl
  | none =>
    simp only [outcome]
    split
    · rfl
    · split <;> rfl

/-- A whole `GetNextTask`. -/
theorem getNextTask_leads {clock : Nat → TimePoint} (hclock : Log.Ascending clock)
    {runner runner' : Runners} {w w' : Worker} {next : NextTask}
    (h : w.getNextTask E clock runner = .ok (next, runner', w')) {x : RunnerId}
    (hlog : log.Mirrors (runner x)) :
    ∃ nows got, log.Leads E clock 0 (runner' x) (next.taskOf x) nows got := by
  cases hq : w.immediateTaskQueue with
  | cons task queue =>
    unfold getNextTask at h
    rw [hq] at h
    cases h
    exact ⟨[], [], .refl hlog 0⟩
  | nil =>
    obtain ⟨found, st, st', hprepared, hscan, rfl, rfl, rfl⟩ := getNextTask_scan h hq
    have hstart : log.Mirrors (st.runner x) := by
      rw [Log.Mirrors, (hprepared.queues x).1]
      exact hlog
    obtain ⟨nows, got, hleads⟩ :=
      scanGroups_leads (fun i j hij => hclock (i + 1) (j + 1) (Nat.succ_le_succ hij)) hscan hstart
    rw [outcome_taskOf]
    refine ⟨nows, got, hleads.mirrors, hleads.returned, hleads.tasks, fun t ht => ?_, fun y hy => ?_,
      hleads.sorted⟩
    · obtain ⟨j, -, rfl⟩ := hleads.reads t ht
      exact ⟨j + 1, Nat.zero_le _, rfl⟩
    · obtain ⟨j, hj⟩ := hleads.times y hy
      exact ⟨j + 1, hj⟩

end Worker

/-! ## One runner in a run -/

namespace Op

/-- What the step posts to the runner `x`. -/
def post? (x : RunnerId) : Op → Option Post
  | .postTask r task => if r = x then task.map .immediate else none
  | .postDelayedTask r now task delay => if r = x then task.map (.delayed (now + delay)) else none
  | _ => none

/-- The step reads this clock. -/
def Reads : Op → TimePoint → Prop
  | .postDelayedTask _ now _ _, t => t = now
  | .runTask _ clock, t => ∃ i, clock i = t
  | _, _ => False

/-- Tasks are not null, delays not negative, no deadline overflows, and the clock does not run
backwards within a step. -/
def Proper : Op → Prop
  | .postTask _ task => task ≠ none
  | .postDelayedTask _ now task delay =>
    ∃ t, task = some t ∧ (Call.postDelayedTask now t delay).InRange
  | .runTask _ clock => Log.Ascending clock
  | _ => True

/-- Neither does it run backwards from one step to the next. -/
def Before (a b : Op) : Prop := ∀ t, a.Reads t → ∀ u, b.Reads u → t ≤ u

end Op

/-- The steps as a program can make them. -/
structure Timely (ops : List Op) : Prop where
  proper : ∀ op ∈ ops, op.Proper
  clock : ops.Pairwise Op.Before
  distinct : ∀ x, ((ops.filterMap (Op.post? x)).map Post.task).Nodup

/-- A task with the clock that the `GetNextTask` read which took it. -/
abbrev Handed := (Nat → TimePoint) × Task

namespace State

variable (E : Env)

/-- What the step hands to a worker of the tasks of the runner `x`. -/
def handsOut (x : RunnerId) (s : State) : Op → List Handed
  | .runTask w clock =>
    match (s.worker w).getNextTask E clock s.runner with
    | .ok (next, _) => (next.taskOf x).map (clock, ·)
    | .error _ => []
  | _ => []

/-- What a run hands out. -/
def handedOut (x : RunnerId) : State → List Op → List Handed
  | _, [] => []
  | s, op :: ops =>
    s.handsOut E x op ++ match step E s op with
      | .ok s' => handedOut x s' ops
      | .error _ => []

/-- A runner that nothing was posted to. -/
def blank : TaskRunner := { priority := 1, groupId := kDefaultGroupId, isSchedulable := true }

/-- The task that a call returned is the one that was handed out, at a clock that was read. -/
def Matches (a : TimePoint × Task) (b : Handed) : Prop := a.2 = b.2 ∧ ∃ i, b.1 i = a.1

theorem Matches.tasks {xs : List (TimePoint × Task)} {ys : List Handed}
    (h : List.Forall₂ Matches xs ys) : xs.map Prod.snd = ys.map Prod.snd := by
  induction h with
  | nil => rfl
  | cons hab _ ih => simp [hab.1, ih]

theorem Matches.mem {xs : List (TimePoint × Task)} {ys : List Handed}
    (h : List.Forall₂ Matches xs ys) {y : Handed} (hy : y ∈ ys) : ∃ x ∈ xs, Matches x y := by
  induction h with
  | nil => cases hy
  | @cons a b xs ys hab _ ih =>
    rcases List.mem_cons.mp hy with rfl | hy
    · exact ⟨a, List.mem_cons_self, hab⟩
    · obtain ⟨x, hx, hm⟩ := ih hy
      exact ⟨x, List.mem_cons_of_mem _ hx, hm⟩

/-- After the steps `done`, which handed out `given`, the queues of the runner `x` are as these
calls leave them. -/
structure Sees (x : RunnerId) (done : List Op) (given : List Handed) (s : State)
    (calls : List Call) : Prop where
  mirrors : (Log.of E blank calls).Mirrors (s.runner x)
  returned : List.Forall₂ Matches (Log.of E blank calls).returned given
  posts : calls.filterMap Call.post? = done.filterMap (Op.post? x)
  sorted : (calls.filterMap Call.now?).Pairwise (· ≤ ·)
  reads : ∀ t ∈ calls.filterMap Call.now?, ∃ op ∈ done, op.Reads t
  inRange : ∀ c ∈ calls, c.InRange
  unborn : s.globalTaskRunnerId ≤ x → done.filterMap (Op.post? x) = []

variable {E} {x : RunnerId} {done : List Op} {given : List Handed} {s s' : State}
  {calls : List Call} {op : Op}

/-- The step makes the calls `more` on the runner, which return `hs`. -/
theorem Sees.called (h : Sees E x done given s calls) {more : List Call} {hs : List Handed}
    (hmirrors : (more.foldl (Log.play E) (Log.of E blank calls)).Mirrors (s'.runner x))
    (hreturned : ∃ got, (more.foldl (Log.play E) (Log.of E blank calls)).returned =
      (Log.of E blank calls).returned ++ got ∧ List.Forall₂ Matches got hs)
    (hposts : more.filterMap Call.post? = (op.post? x).toList)
    (hreads : ∀ t ∈ more.filterMap Call.now?, op.Reads t)
    (hsorted : (more.filterMap Call.now?).Pairwise (· ≤ ·)) (hrange : ∀ c ∈ more, c.InRange)
    (hbefore : ∀ a ∈ done, a.Before op)
    (hunborn : s'.globalTaskRunnerId ≤ x → s.globalTaskRunnerId ≤ x ∧ op.post? x = none) :
    Sees E x (done ++ [op]) (given ++ hs) s' (calls ++ more) where
  mirrors := by
    rw [Log.of, List.foldl_append]
    exact hmirrors
  returned := by
    obtain ⟨got, hgot, hmatch⟩ := hreturned
    rw [Log.of, List.foldl_append]
    exact hgot ▸ List.rel_append h.returned hmatch
  posts := by
    rw [List.filterMap_append, List.filterMap_append, h.posts, hposts]
    cases hp : op.post? x <;> simp [hp]
  sorted := by
    rw [List.filterMap_append]
    refine List.pairwise_append.mpr ⟨h.sorted, hsorted, fun t ht u hu => ?_⟩
    obtain ⟨a, ha, hread⟩ := h.reads t ht
    exact hbefore a ha t hread u (hreads u hu)
  reads t ht := by
    rw [List.filterMap_append] at ht
    rcases List.mem_append.mp ht with ht | ht
    · obtain ⟨a, ha, hread⟩ := h.reads t ht
      exact ⟨a, List.mem_append_left _ ha, hread⟩
    · exact ⟨op, by simp, hreads t ht⟩
  inRange c hc := by
    rcases List.mem_append.mp hc with hc | hc
    · exact h.inRange c hc
    · exact hrange c hc
  unborn hle := by
    obtain ⟨hle, hpost⟩ := hunborn hle
    simp [h.unborn hle, hpost]

/-- A step that leaves the queues alone. -/
theorem Sees.idle (h : Sees E x done given s calls) (hdue : SameDue s s')
    (hpost : op.post? x = none) (hbefore : ∀ a ∈ done, a.Before op) :
    Sees E x (done ++ [op]) (given ++ []) s' (calls ++ []) := by
  have hmirrors : (([] : List Call).foldl (Log.play E) (Log.of E blank calls)).Mirrors
      (s'.runner x) := h.mirrors.trans (hdue.due x).symm
  apply h.called hmirrors ⟨[], (List.append_nil _).symm, .nil⟩
  · rw [hpost]
    rfl
  · nofun
  · exact .nil
  · nofun
  · exact hbefore
  · intro hle
    rw [hdue.count] at hle
    exact ⟨hle, hpost⟩

/-- Nothing is in the queues of a runner that nothing was posted to. -/
theorem Sees.empty (h : Sees E x done given s calls) (hposts : done.filterMap (Op.post? x) = []) :
    (Log.of E blank calls).runner.due = ([], []) := by
  rw [← h.posts] at hposts
  obtain ⟨history, ht⟩ := tracks (E := E) blank rfl rfl
    (⟨h.sorted, h.inRange, by rw [hposts]; exact .nil⟩ : Orderly calls)
  have hnil := ht.perm
  rw [hposts, List.perm_nil, List.append_eq_nil_iff] at hnil
  obtain ⟨rfl, hwaiting⟩ := hnil
  have htasks := ht.tasks
  rw [List.map_nil, eq_comm, List.append_eq_nil_iff] at htasks
  have hdelayed : (Log.of E blank calls).runner.delayedTaskQueue = [] := by
    apply List.eq_nil_iff_forall_not_mem.mpr
    intro e he
    have hnone := List.filterMap_eq_nil_iff.mp hwaiting e he
    exact ht.nonnull e he (by simpa [DelayedEntry.post?] using hnone)
  rw [TaskRunner.due, htasks.2, hdelayed]

theorem runTask_leads {w : WorkerId} {clock : Nat → TimePoint} (h : s.runTask E w clock = .ok s') :
    ∃ next runner worker, (s.worker w).getNextTask E clock s.runner = .ok (next, runner, worker) ∧
      (∀ x, (s'.runner x).due = (runner x).due) ∧
      s'.globalTaskRunnerId = s.globalTaskRunnerId := by
  unfold runTask at h
  split at h
  · obtain ⟨⟨next, runner, worker⟩, hn, h⟩ := Runs.bind_eq_ok.mp h
    refine ⟨next, runner, worker, hn, ?_⟩
    have hdue : SameDue { s.setWorker w worker with runner := runner } s' := by
      cases next with
      | nullptr | waited delta =>
        cases h
        exact .refl _
      | immediate task =>
        refine SameDue.trans ?_ (runImmediate_sameDue h)
        exact .of_runner rfl rfl
      | task r t | idle r t time =>
        cases h
        exact .of_runner rfl rfl
    exact ⟨hdue.due, hdue.count⟩
  · cases h

theorem createTaskRunner_due {groupId priority : UInt32} {isSchedulable : Bool}
    (h : s.createTaskRunner groupId priority isSchedulable = .ok s') :
    s'.globalTaskRunnerId = s.globalTaskRunnerId + 1 ∧
      (s'.runner s.globalTaskRunnerId).due = ([], []) ∧
      ∀ x ≠ s.globalTaskRunnerId, s'.runner x = s.runner x := by
  rcases createTaskRunner_cases h with ⟨-, rfl⟩ | ⟨-, w, -, hc⟩
  · refine ⟨rfl, ?_, fun x hx => Function.update_of_ne hx _ _⟩
    show (Function.update s.runner s.globalTaskRunnerId _ s.globalTaskRunnerId).due = _
    rw [Function.update_self]
    rfl
  · rw [hc.runner]
    refine ⟨hc.globalTaskRunnerId, ?_, fun x hx => Function.update_of_ne hx _ _⟩
    rw [Function.update_self]
    rfl

/-- A new runner has nothing in its queues, and nothing was posted to it. -/
theorem Sees.created (h : Sees E x done given s calls) {groupId priority : UInt32}
    {isSchedulable : Bool} (hs : s.createTaskRunner groupId priority isSchedulable = .ok s')
    (hbefore : ∀ a ∈ done, a.Before (.createTaskRunner groupId priority isSchedulable)) :
    Sees E x (done ++ [.createTaskRunner groupId priority isSchedulable]) (given ++ []) s'
      (calls ++ []) := by
  obtain ⟨hcount, hnew, hold⟩ := createTaskRunner_due hs
  have hmirrors : (([] : List Call).foldl (Log.play E) (Log.of E blank calls)).Mirrors
      (s'.runner x) := by
    by_cases hx : x = s.globalTaskRunnerId
    · subst hx
      exact (h.empty (h.unborn le_rfl)).trans hnew.symm
    · rw [hold x hx]
      exact h.mirrors
  apply h.called hmirrors ⟨[], (List.append_nil _).symm, .nil⟩ rfl nofun .nil nofun hbefore
  intro hle
  rw [hcount] at hle
  exact ⟨Nat.le_of_succ_le hle, rfl⟩

/-- A post to some runner. `queue` is what it does to that runner and `c` the call it stands for. -/
theorem Sees.posted (h : Sees E x done given s calls) {r : RunnerId}
    {queue : TaskRunner → TaskRunner} {c : Call} (hs : s.post r queue = .ok s')
    (hplay : (Log.play E (Log.of E blank calls) c).returned = (Log.of E blank calls).returned)
    (hqueue : ∀ log : Log, ∀ t, log.Mirrors t → (log.play E c).Mirrors (queue t))
    (hpost : op.post? x = if r = x then c.post? else none)
    (hreads : ∀ t ∈ c.now?, op.Reads t) (hrange : c.InRange)
    (hbefore : ∀ a ∈ done, a.Before op) :
    ∃ calls', Sees E x (done ++ [op]) (given ++ []) s' calls' := by
  obtain ⟨_, hknown, hs⟩ := Runs.bind_eq_ok.mp hs
  obtain ⟨_, -, hs⟩ := Runs.bind_eq_ok.mp hs
  cases hs
  by_cases hr : r = x
  · subst hr
    have hlt : r < s.globalTaskRunnerId := known_eq_ok.mp hknown r (by simp)
    refine ⟨calls ++ [c], h.called ?_ ⟨[], by simpa using hplay, .nil⟩ ?_ ?_ ?_ ?_ hbefore ?_⟩
    · show (Log.play E (Log.of E blank calls) c).Mirrors (Function.update s.runner r _ r)
      rw [Function.update_self]
      exact hqueue _ _ h.mirrors
    · rw [hpost, if_pos rfl]
      cases hc : c.post? <;> simp [hc]
    · intro t ht
      apply hreads
      simpa using ht
    · cases hc : c.now? <;> simp [hc]
    · simpa using hrange
    · intro hle
      exact absurd hlt (Nat.not_lt.mpr hle)
  · rw [if_neg hr] at hpost
    refine ⟨calls ++ [], h.called ?_ ⟨[], (List.append_nil _).symm, .nil⟩ ?_ nofun .nil nofun
      hbefore fun hle => ⟨hle, hpost⟩⟩
    · show (Log.of E blank calls).Mirrors (Function.update s.runner r _ x)
      rw [Function.update_of_ne (Ne.symm hr)]
      exact h.mirrors
    · rw [hpost]
      rfl

/-- A worker takes its next task. -/
theorem Sees.ran (h : Sees E x done given s calls) {w : WorkerId} {clock : Nat → TimePoint}
    (hclock : Log.Ascending clock) (hs : s.runTask E w clock = .ok s')
    (hbefore : ∀ a ∈ done, a.Before (.runTask w clock)) :
    ∃ calls', Sees E x (done ++ [.runTask w clock])
      (given ++ s.handsOut E x (.runTask w clock)) s' calls' := by
  obtain ⟨next, runner, worker, hnext, hdue, hcount⟩ := runTask_leads hs
  obtain ⟨nows, got, hleads⟩ := Worker.getNextTask_leads hclock hnext h.mirrors
  have hnows : (nows.map Call.getNext).filterMap Call.now? = nows := by
    simp [List.filterMap_map, Function.comp_def, Call.now?]
  have hhands : s.handsOut E x (.runTask w clock) = (next.taskOf x).map (clock, ·) := by
    simp only [handsOut, hnext]
  refine ⟨calls ++ nows.map Call.getNext, h.called ?_ ⟨got, hleads.returned, ?_⟩ ?_ ?_ ?_ ?_ hbefore
    fun hle => ⟨hcount ▸ hle, rfl⟩⟩
  · exact hleads.mirrors.trans (hdue x).symm
  · rw [hhands, ← hleads.tasks, List.map_map]
    have htimes := hleads.times
    clear hleads
    induction got with
    | nil => exact .nil
    | cons y got ih =>
      rw [List.forall_mem_cons] at htimes
      exact .cons ⟨rfl, htimes.1⟩ (ih htimes.2)
  · simp [List.filterMap_map, Function.comp_def, Call.post?, Op.post?]
  · rw [hnows]
    intro t ht
    obtain ⟨j, -, hj⟩ := hleads.reads t ht
    exact ⟨j, hj⟩
  · rw [hnows]
    exact hleads.sorted
  · intro c hc
    obtain ⟨now, -, rfl⟩ := List.mem_map.mp hc
    trivial

/-- **One step**, whichever it is. -/
theorem Sees.step (h : Sees E x done given s calls) (hs : step E s op = .ok s')
    (hproper : op.Proper) (hbefore : ∀ a ∈ done, a.Before op) :
    ∃ calls', Sees E x (done ++ [op]) (given ++ s.handsOut E x op) s' calls' := by
  cases op with
  | createTaskRunner groupId priority isSchedulable => exact ⟨_, h.created hs hbefore⟩
  | addSubTaskRunner r sub isTaskRunning =>
    obtain ⟨_, -, hs⟩ := Runs.bind_eq_ok.mp hs
    obtain ⟨⟨b, t⟩, hadd, hs⟩ := Runs.bind_eq_ok.mp hs
    cases hs
    exact ⟨_, h.idle (addSubTaskRunner_sameDue hadd) rfl hbefore⟩
  | removeSubTaskRunner r sub =>
    obtain ⟨_, -, hs⟩ := Runs.bind_eq_ok.mp hs
    cases hs
    exact ⟨_, h.idle (removeSubTaskRunner_sameDue r sub s) rfl hbefore⟩
  | removeTaskRunner r =>
    obtain ⟨_, -, hs⟩ := Runs.bind_eq_ok.mp hs
    cases hs
    exact ⟨_, h.idle (.of_runner rfl rfl) rfl hbefore⟩
  | resize n => exact ⟨_, h.idle (resize_sameDue hs) rfl hbefore⟩
  | addWorker =>
    have hs' : s.resize E (s.size + 1) = .ok s' := by
      rw [← addWorker_eq]
      exact hs
    exact ⟨_, h.idle (resize_sameDue hs') rfl hbefore⟩
  | postTask r task =>
    obtain ⟨t, rfl⟩ := Option.ne_none_iff_exists'.mp hproper
    apply h.posted (c := .postTask t) hs rfl ?_ rfl nofun trivial hbefore
    intro log q hlog
    obtain ⟨htasks, hdelayed⟩ := Prod.mk.inj hlog
    simp [Log.Mirrors, Log.play, TaskRunner.due, TaskRunner.postTask, htasks, hdelayed]
  | postDelayedTask r now task delay =>
    obtain ⟨t, rfl, hrange⟩ := hproper
    apply h.posted (c := .postDelayedTask now t delay) hs rfl ?_ rfl ?_ hrange hbefore
    · intro log q hlog
      obtain ⟨htasks, hdelayed⟩ := Prod.mk.inj hlog
      simp [Log.Mirrors, Log.play, TaskRunner.due, TaskRunner.postDelayedTask, htasks, hdelayed]
    · rintro _ ⟨⟩
      rfl
  | postIdleTask r task =>
    obtain ⟨_, -, hs⟩ := Runs.bind_eq_ok.mp hs
    obtain ⟨_, -, hs⟩ := Runs.bind_eq_ok.mp hs
    cases hs
    exact ⟨_, h.idle (.modifyRunner rfl) rfl hbefore⟩
  | runTask w clock => exact h.ran hproper hs hbefore
  | finishTask w elapsed => exact ⟨_, h.idle (finishTask_sameDue hs) rfl hbefore⟩

/-- **A whole run.** -/
theorem Sees.run {ops : List Op} (h : Sees E x done given s calls)
    (hs : Runs.run (Footstone.step E) s ops = .ok s') (hproper : ∀ op ∈ ops, op.Proper)
    (hclock : (done ++ ops).Pairwise Op.Before) :
    ∃ calls', Sees E x (done ++ ops) (given ++ s.handedOut E x ops) s' calls' := by
  induction ops generalizing s done given calls with
  | nil =>
    cases hs
    refine ⟨calls, ?_⟩
    simpa only [List.append_nil, handedOut] using h
  | cons op ops ih =>
    obtain ⟨t, hstep, hrest⟩ := Runs.run_cons_inv hs
    rw [List.forall_mem_cons] at hproper
    have hbefore : ∀ a ∈ done, a.Before op := by
      intro a ha
      exact (List.pairwise_append.mp hclock).2.2 a ha op List.mem_cons_self
    obtain ⟨calls', h'⟩ := h.step hstep hproper.1 hbefore
    obtain ⟨calls'', h''⟩ := ih h' hrest hproper.2 (by simpa using hclock)
    refine ⟨calls'', ?_⟩
    simpa only [List.append_assoc, List.singleton_append, handedOut, hstep] using h''

theorem Sees.new (E : Env) (n : Nat) (x : RunnerId) : Sees E x [] [] (State.new E n) [] where
  mirrors := by
    rw [new_eq]
    rfl
  returned := .nil
  posts := rfl
  sorted := .nil
  reads := nofun
  inRange := nofun
  unborn _ := rfl

/-- What becomes of the tasks posted to the runner `x` in the run of `ops` from `s₀` to `s`. -/
structure Delivers (E : Env) (x : RunnerId) (s₀ : State) (ops : List Op) (s : State) : Prop where
  /-- Every task that was posted was handed out or is in a queue, and is there once. -/
  conserved : ((s₀.handedOut E x ops).map (some ·.2) ++ (s.runner x).taskQueue ++
    (s.runner x).delayedTaskQueue.map Prod.snd).Perm
      ((ops.filterMap (Op.post? x)).map (some ·.task))
  once : ((s₀.handedOut E x ops).map Prod.snd).Nodup
  fifo : ((s₀.handedOut E x ops).map Prod.snd).filter
      (· ∈ ((ops.filterMap (Op.post? x)).filter Post.isImmediate).map Post.task) <+:
    ((ops.filterMap (Op.post? x)).filter Post.isImmediate).map Post.task
  byDeadline : ((s₀.handedOut E x ops).map Prod.snd).Pairwise fun t u =>
    ∀ d e, .delayed d t ∈ ops.filterMap (Op.post? x) → .delayed e u ∈ ops.filterMap (Op.post? x) →
      d ≤ e
  notEarly : ∀ clock t, (clock, t) ∈ s₀.handedOut E x ops → ∀ d,
    .delayed d t ∈ ops.filterMap (Op.post? x) → ∃ i, d ≤ clock i

theorem Sees.delivers {s₀ : State} {ops : List Op} (h : Sees E x ops (s₀.handedOut E x ops) s calls)
    (hdistinct : ((ops.filterMap (Op.post? x)).map Post.task).Nodup) : Delivers E x s₀ ops s := by
  obtain ⟨history, ht⟩ := tracks (E := E) blank rfl rfl
    (⟨h.sorted, h.inRange, by rw [h.posts]; exact hdistinct⟩ : Orderly calls)
  have hspec := ht.specified (by rw [h.posts]; exact hdistinct)
  obtain ⟨htasks, hdelayed⟩ := Prod.mk.inj h.mirrors
  have hsame : (Log.of E blank calls).returned.map Prod.snd =
      (s₀.handedOut E x ops).map Prod.snd := Matches.tasks h.returned
  have hsome : (Log.of E blank calls).returned.map (fun a => some a.2) =
      (s₀.handedOut E x ops).map fun a => some a.2 := by
    simpa only [List.map_map, Function.comp_def] using congrArg (List.map some) hsame
  refine ⟨?_, ?_, ?_, ?_, ?_⟩
  · rw [← hsome, ← htasks, ← hdelayed, ← h.posts]
    exact hspec.conserved
  · rw [← hsame]
    exact hspec.once
  · rw [← hsame, ← h.posts]
    exact hspec.fifo
  · rw [← hsame, ← h.posts]
    exact hspec.byDeadline
  · intro clock t ht d hd
    rw [← h.posts] at hd
    obtain ⟨⟨now, u⟩, hreturned, rfl, i, hi⟩ := Matches.mem h.returned ht
    refine ⟨i, ?_⟩
    rw [show clock i = now from hi]
    exact hspec.notEarly now u hreturned d hd

/-- **Every task reaches one worker, once and in its order.** Whatever is created, stacked, removed
and resized in between, and whichever workers the runner is bound to. -/
theorem run_delivers {E : Env} {n : Nat} {ops : List Op} {s : State} (htimely : Timely ops)
    (hrun : Runs.run (Footstone.step E) (State.new E n) ops = .ok s) (x : RunnerId) :
    Delivers E x (State.new E n) ops s := by
  obtain ⟨calls, h⟩ := (Sees.new E n x).run hrun htimely.proper (by simpa using htimely.clock)
  exact Sees.delivers (by simpa using h) (htimely.distinct x)

/-- The runner 3 goes to another worker with two tasks in its queues. -/
def movedRunner : List Op := [.createTaskRunner 0 1 true, .createTaskRunner 0 1 true,
  .createTaskRunner 0 1 true, .runTask 0 fun _ => 0, .createTaskRunner 0 1 true,
  .postDelayedTask 3 1 (some ⟨1⟩) 5, .postTask 3 (some ⟨2⟩), .resize 3, .postTask 3 (some ⟨3⟩),
  .runTask 2 fun _ => 4, .finishTask 2 fun _ => 1, .runTask 2 fun _ => 6, .finishTask 2 fun _ => 1,
  .runTask 2 fun _ => 7]

theorem movedRunner_timely : Timely movedRunner where
  proper := by
    simp [movedRunner, Op.Proper, Log.Ascending, Call.InRange]
  clock := by
    simp [movedRunner, Op.Before, Op.Reads]
  distinct x := by
    by_cases hx : 3 = x
    · subst hx
      decide
    · simp [movedRunner, List.filterMap_cons, Op.post?, hx]

theorem run_delivers_movedRunner :
    Delivers .debug 3 (State.new .debug 2) movedRunner
      (Runs.last (Footstone.step .debug) (State.new .debug 2) movedRunner) :=
  run_delivers movedRunner_timely (Runs.run_last (by decide +kernel)) 3

/-- The new worker takes them in their order. -/
example : ((State.new .debug 2).handedOut .debug 3 movedRunner).map Prod.snd =
    [⟨2⟩, ⟨3⟩, ⟨1⟩] := by decide +kernel

end State

end Footstone
