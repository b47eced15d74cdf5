import Footstone.GetNextTask
import Mathlib.Algebra.BigOperators.Group.Finset.Basic
import Mathlib.Algebra.BigOperators.Group.Finset.Piecewise
import Mathlib.Algebra.Order.BigOperators.Group.Finset
import Mathlib.Tactic.Abel

/-!
What a `GetNextTask` does to the idle queues. The loop pops an idle task as soon
as it passes a group without other work, and keeps it only when it falls through
all groups of a worker that is terminated; on every other way out the task that
was popped is gone.
-/

namespace Footstone

/-- The idle task that a call hands out. -/
def NextTask.idleTasks : NextTask → Multiset IdleTaskPtr
  | .idle _ t _ => {some t}
  | _ => 0

abbrev IdleQueues := RunnerId → List IdleTaskPtr

/-- The idle queues of all runners. -/
def Runners.idle (runner : Runners) : IdleQueues := fun r => (runner r).idleTaskQueue

/-- The idle queues of the runners `rs`, put together. -/
def IdleQueues.total (q : IdleQueues) (rs : Finset RunnerId) : Multiset IdleTaskPtr :=
  ∑ r ∈ rs, (q r : Multiset IdleTaskPtr)

namespace Worker

/-- The runners bound to a worker. -/
def bound (w : Worker) : Finset RunnerId := w.held.flatten.toFinset

/-- No idle task is lost: what the queues of the bound runners held is still there
or is handed out, and a call that hands out something else touches no idle queue. -/
structure IdleKept (runner : Runners) (w : Worker) (next : NextTask) (runner' : Runners)
    (w' : Worker) : Prop where
  conserved : runner.idle.total w.bound = runner'.idle.total w'.bound + next.idleTasks
  untouched : next.idleTasks = 0 → ∀ r, runner'.idle r = runner.idle r

variable (E : Env)

/-- The fronts of the groups that the loop passes without finding a task, and
whether it passes all groups. -/
def polled (clock : Nat → TimePoint) : Nat → List Group → Runners → List RunnerId × Bool
  | _, [], _ => ([], true)
  | _, [] :: _, _ => ([], true)
  | i, (front :: members) :: groups, runner =>
    let back := members.getLastD front
    match (runner back).getNext E (clock i) with
    | (some _, _) => ([], false)
    | (none, r) =>
      let rest := polled clock (i + 1) groups (Function.update runner back r)
      (front :: rest.1, rest.2)

/-- The first runner whose idle queue the loop finds non-empty. -/
def firstIdle (clock : Nat → TimePoint) (runner : Runners) (w : Worker) : Option RunnerId :=
  (polled E (fun i => clock (i + 1)) 0 (w.lineUp runner) runner).1.find? fun r =>
    runner.idle r ≠ []

/-- The call pops no idle task, or it pops one and falls through to the end: no
group has other work, and the worker is terminated. -/
def IdleSafe (clock : Nat → TimePoint) (runner : Runners) (w : Worker) : Prop :=
  w.immediateTaskQueue = [] → ∀ r, w.firstIdle E clock runner = some r →
    (polled E (fun i => clock (i + 1)) 0 (w.lineUp runner) runner).2 = true ∧
      w.isTerminated = true ∧ (runner.idle r).head? ≠ some none

/-! ## One poll after the other -/

/-- A poll of the idle queue of `front`; nothing is popped once a task is in hand. -/
def poll (s : IdleQueues × Option (RunnerId × IdleTask)) (front : RunnerId) :
    IdleQueues × Option (RunnerId × IdleTask) :=
  match s.2 with
  | some _ => s
  | none =>
    match s.1 front with
    | [] => s
    | t :: ts => (Function.update s.1 front ts, t.map (front, ·))

theorem poll_some (q : IdleQueues) (x : RunnerId × IdleTask) (fronts : List RunnerId) :
    fronts.foldl poll (q, some x) = (q, some x) := by
  induction fronts with
  | nil => rfl
  | cons f fronts ih => exact ih

theorem poll_empty {q : IdleQueues} {fronts : List RunnerId}
    (h : fronts.find? (fun r => q r ≠ []) = none) :
    fronts.foldl poll (q, none) = (q, none) := by
  induction fronts with
  | nil => rfl
  | cons f fronts ih =>
    have hall := List.find?_eq_none.mp h
    have hf : q f = [] := by simpa using hall f List.mem_cons_self
    have hstep : poll (q, none) f = (q, none) := by simp [poll, hf]
    rw [List.foldl_cons, hstep]
    exact ih (List.find?_eq_none.mpr fun r hr => hall r (List.mem_cons_of_mem _ hr))

/-- The first poll that pops something. -/
theorem poll_first {q : IdleQueues} {fronts : List RunnerId} {f : RunnerId} {t : IdleTaskPtr}
    {ts : List IdleTaskPtr} (h : fronts.find? (fun r => q r ≠ []) = some f) (hf : q f = t :: ts) :
    ∃ rest : List RunnerId, fronts.foldl poll (q, none) =
      rest.foldl poll (Function.update q f ts, t.map (f, ·)) := by
  obtain ⟨-, before, rest, rfl, hbefore⟩ := List.find?_eq_some_iff_append.mp h
  have hnone : before.find? (fun r => q r ≠ []) = none :=
    List.find?_eq_none.mpr fun r hr => by simpa using hbefore r hr
  refine ⟨rest, ?_⟩
  rw [List.foldl_append, poll_empty hnone, List.foldl_cons]
  simp [poll, hf]

/-- A null pointer that was popped never comes back. -/
theorem count_poll (s : IdleQueues × Option (RunnerId × IdleTask)) (fronts : List RunnerId)
    (r : RunnerId) : Multiset.count none ((fronts.foldl poll s).1 r : Multiset IdleTaskPtr) ≤
      Multiset.count none (s.1 r : Multiset IdleTaskPtr) := by
  induction fronts generalizing s with
  | nil => exact le_rfl
  | cons f fronts ih =>
    refine (ih (poll s f)).trans (Multiset.count_le_of_le none ?_)
    unfold poll
    split
    · exact le_rfl
    · split
      · exact le_rfl
      · rename_i t ts hf
        by_cases h : r = f
        · subst h
          dsimp only
          rw [hf, Function.update_self]
          exact Multiset.le_cons_self _ _
        · dsimp only
          rw [Function.update_of_ne h]

/-! ## The loop as polls -/

variable {E : Env}

theorem polled_congr {runner runner' : Runners} (h : ∀ r, (runner r).due = (runner' r).due)
    (clock : Nat → TimePoint) (i : Nat) (groups : List Group) :
    polled E clock i groups runner = polled E clock i groups runner' := by
  induction groups generalizing i runner runner' with
  | nil => rfl
  | cons g groups ih =>
    cases g with
    | nil => rfl
    | cons front members =>
      simp only [polled]
      generalize members.getLastD front = back
      obtain ⟨htask, hdue⟩ := TaskRunner.getNext_congr E (h back) (clock i)
      have hrest : ∀ r, (Function.update runner back ((runner back).getNext E (clock i)).2 r).due =
          (Function.update runner' back ((runner' back).getNext E (clock i)).2 r).due := by
        intro r
        by_cases hr : r = back
        · subst hr; simpa using hdue
        · simpa [hr] using h r
      have hih := ih hrest (i + 1)
      cases hx : (runner back).getNext E (clock i) with
      | mk t x =>
        cases hy : (runner' back).getNext E (clock i) with
        | mk u y =>
          rw [hx, hy] at htask hih
          obtain rfl : t = u := htask
          cases t with
          | none => exact congrArg (fun rest => (front :: rest.1, rest.2)) hih
          | some t => rfl

theorem pollFront_due (now : TimePoint) (front : RunnerId) (st : Scan) (r : RunnerId) :
    ((pollFront now front st).runner r).due = (st.runner r).due := by
  have h : (Function.update st.runner front (st.runner front).popIdleTask.2 r).due =
      (st.runner r).due :=
    update_keeps TaskRunner.due (TaskRunner.popIdleTask_due _) r
  unfold pollFront
  cases st.idleTask <;> dsimp only <;> split <;> first | rfl | exact h

theorem pollFront_idle (now : TimePoint) (front : RunnerId) (st : Scan) :
    ((pollFront now front st).runner.idle, (pollFront now front st).idleTask) =
      poll (st.runner.idle, st.idleTask) front := by
  have hpop : Runners.idle (Function.update st.runner front (st.runner front).popIdleTask.2) =
      Function.update st.runner.idle front (st.runner front).popIdleTask.2.idleTaskQueue := by
    funext r
    by_cases hr : r = front
    · subst hr; simp [Runners.idle]
    · simp [Runners.idle, hr]
  unfold pollFront poll
  cases hi : st.idleTask with
  | some t => dsimp only; split <;> exact congrArg _ hi
  | none =>
    cases hq : (st.runner front).idleTaskQueue with
    | nil =>
      simp only [TaskRunner.popIdleTask, hq]
      split <;> simp [Runners.idle, hq]
    | cons t ts =>
      simp only [TaskRunner.popIdleTask, hq] at hpop ⊢
      split <;> simp [Runners.idle, hq, ← hpop]

/-- The loop polls the fronts of the groups it passes, one after the other. -/
theorem scanGroups_polled {now : TimePoint} {clock : Nat → TimePoint} {i : Nat}
    {groups : List Group} {st st' : Scan} {found : Option (RunnerId × Task)}
    (h : scanGroups E now clock i groups st = .ok (found, st')) :
    (st'.runner.idle, st'.idleTask) =
      (polled E clock i groups st.runner).1.foldl poll (st.runner.idle, st.idleTask) ∧
    (found = none ↔ (polled E clock i groups st.runner).2 = true) := by
  induction groups generalizing i st with
  | nil =>
    cases h
    exact ⟨rfl, by simp [polled]⟩
  | cons g groups ih =>
    cases g with
    | nil => cases h
    | cons front members =>
      simp only [scanGroups] at h
      simp only [polled]
      set back := members.getLastD front
      have hidle : Runners.idle (Function.update st.runner back
          ((st.runner back).getNext E (clock i)).2) = st.runner.idle :=
        funext (update_keeps TaskRunner.idleTaskQueue (TaskRunner.getNext_idleTaskQueue E _ _))
      cases hn : (st.runner back).getNext E (clock i) with
      | mk task r =>
        rw [hn] at h hidle
        cases task with
        | some task =>
          cases h
          exact ⟨by simp [hidle], by simp⟩
        | none =>
          obtain ⟨hpoll, hfound⟩ := ih h
          rw [polled_congr (pollFront_due now front _)] at hpoll hfound
          rw [pollFront_idle] at hpoll
          simp only [hidle] at hpoll
          exact ⟨hpoll, hfound⟩

/-- The whole loop, from the queues before the call. -/
theorem Prepared.polled {clock : Nat → TimePoint} {runner : Runners} {w : Worker} {st st' : Scan}
    {found : Option (RunnerId × Task)} (hp : Prepared runner w st)
    (h : scanGroups E (clock 0) (fun i => clock (i + 1)) 0 (w.lineUp runner) st = .ok (found, st')) :
    (st'.runner.idle, st'.idleTask) =
      (polled E (fun i => clock (i + 1)) 0 (w.lineUp runner) runner).1.foldl poll
        (runner.idle, none) ∧
    (found = none ↔ (polled E (fun i => clock (i + 1)) 0 (w.lineUp runner) runner).2 = true) := by
  obtain ⟨hfold, hfound⟩ := scanGroups_polled h
  have hsame : st.runner.idle = runner.idle := funext fun r => (hp.queues r).2
  rw [polled_congr fun r => (hp.queues r).1] at hfold hfound
  rw [hsame, hp.idleTask] at hfold
  exact ⟨hfold, hfound⟩

theorem mem_lineUp {runner : Runners} {w : Worker} {g : Group} (h : g ∈ w.lineUp runner) :
    g ∈ w.held := by
  rcases List.mem_append.mp h with h | h
  · split at h
    · exact List.mem_append_right _ h
    · cases h
  · exact List.mem_append_left _ ((List.perm_insertionSort _ _).subset h)

theorem mem_polled {clock : Nat → TimePoint} {i : Nat} {groups : List Group} {runner : Runners}
    {r : RunnerId} (h : r ∈ (polled E clock i groups runner).1) : ∃ g ∈ groups, r ∈ g := by
  induction groups generalizing i runner with
  | nil => cases h
  | cons g groups ih =>
    cases g with
    | nil => cases h
    | cons front members =>
      simp only [polled] at h
      split at h
      · cases h
      · rcases List.mem_cons.mp h with rfl | h
        · exact ⟨_, List.mem_cons_self, List.mem_cons_self⟩
        · obtain ⟨g, hg, hr⟩ := ih h
          exact ⟨g, List.mem_cons_of_mem _ hg, hr⟩

theorem firstIdle_bound {clock : Nat → TimePoint} {runner : Runners} {w : Worker} {f : RunnerId}
    (h : w.firstIdle E clock runner = some f) : f ∈ w.bound := by
  obtain ⟨g, hg, hf⟩ := mem_polled (List.mem_of_find?_eq_some h)
  exact List.mem_toFinset.mpr (List.mem_flatten.mpr ⟨g, mem_lineUp hg, hf⟩)

/-! ## What is lost -/

theorem total_pop {q : IdleQueues} {rs : Finset RunnerId} {f : RunnerId} {t : IdleTaskPtr}
    {ts : List IdleTaskPtr} (hf : f ∈ rs) (h : q f = t :: ts) :
    q.total rs = IdleQueues.total (Function.update q f ts) rs + {t} := by
  have hcoe : (fun r => (Function.update q f ts r : Multiset IdleTaskPtr)) =
      Function.update (fun r => (q r : Multiset IdleTaskPtr)) f ts := by
    funext r
    by_cases hr : r = f
    · subst hr; simp
    · simp [hr]
  have hsplit := Finset.sum_eq_add_sum_sdiff_singleton_of_mem hf fun r => (q r : Multiset IdleTaskPtr)
  rw [IdleQueues.total, IdleQueues.total, hcoe, Finset.sum_update_of_mem hf, hsplit, h,
    ← Multiset.cons_coe, ← Multiset.singleton_add]
  abel

theorem total_count_le {q q' : IdleQueues} {rs : Finset RunnerId}
    (h : ∀ r, Multiset.count none (q' r : Multiset IdleTaskPtr) ≤
      Multiset.count none (q r : Multiset IdleTaskPtr)) :
    (q'.total rs).count none ≤ (q.total rs).count none := by
  simp only [IdleQueues.total, Multiset.count_sum']
  exact Finset.sum_le_sum fun r _ => h r

theorem outcome_idleTasks (found : Option (RunnerId × Task)) (st : Scan) :
    (outcome found st).idleTasks = if found = none ∧ st.worker.isTerminated = true then
      match st.idleTask with
      | some (_, t) => {some t}
      | none => 0
    else 0 := by
  unfold outcome
  cases found with
  | some x => rfl
  | none =>
    cases st.worker.isTerminated with
    | false => rfl
    | true =>
      cases st.idleTask with
      | none => rfl
      | some x => rfl

theorem none_notMem_idleTasks (next : NextTask) : next.idleTasks.count none = 0 := by
  cases next <;> simp [NextTask.idleTasks]

section

variable {runner runner' : Runners} {w w' : Worker} {f : RunnerId} {ts : List IdleTaskPtr}

/-- A call that pops nothing loses nothing. -/
theorem idleKept_of_untouched {next : NextTask} (hbound : w'.bound = w.bound)
    (hidle : runner'.idle = runner.idle) (hnext : next.idleTasks = 0) : IdleKept runner w next runner' w' := by
  refine ⟨?_, fun _ r => congrFun hidle r⟩
  rw [hnext, hbound, hidle, add_zero]

/-- A null pointer that is popped is lost: no call hands one out. -/
theorem not_idleKept_of_null (next : NextTask) (hbound : w'.bound = w.bound) (hf : f ∈ w.bound)
    (hq : runner.idle f = none :: ts) (rest : List RunnerId)
    (hidle : runner'.idle = (rest.foldl poll (Function.update runner.idle f ts, none)).1) :
    ¬ IdleKept runner w next runner' w' := by
  intro hk
  have hle := count_poll (Function.update runner.idle f ts, none) rest
  have hcount := congrArg (Multiset.count none) hk.conserved
  have hlost : Multiset.count none (runner'.idle.total w.bound) ≤
      Multiset.count none (IdleQueues.total (Function.update runner.idle f ts) w.bound) := by
    rw [hidle]
    exact total_count_le hle
  rw [total_pop hf hq, hbound, Multiset.count_add, Multiset.count_add, none_notMem_idleTasks]
    at hcount
  simp at hcount
  omega

/-- A task that is popped is kept when it is handed out, and only then. -/
theorem idleKept_of_popped (next : NextTask) (hbound : w'.bound = w.bound) (hf : f ∈ w.bound)
    {task : IdleTask} (hq : runner.idle f = some task :: ts)
    (hidle : runner'.idle = Function.update runner.idle f ts) :
    (next.idleTasks = {some task} → IdleKept runner w next runner' w') ∧
      (next.idleTasks = 0 → ¬ IdleKept runner w next runner' w') := by
  constructor
  · intro hnext
    refine ⟨?_, fun hno => absurd (hnext.symm.trans hno) (Multiset.singleton_ne_zero _)⟩
    rw [hnext, hbound, hidle]
    exact total_pop hf hq
  · intro hnext hk
    have huntouched := hk.untouched hnext f
    rw [hidle, hq, Function.update_self] at huntouched
    exact List.cons_ne_self _ _ huntouched.symm

end

end Worker

open Worker

/-- **Idle tasks are not lost** by a call that returns, exactly when it pops none
or hands out the one it pops. -/
theorem idle_kept_iff {E : Env} {clock : Nat → TimePoint} {runner runner' : Runners}
    {w w' : Worker} {next : NextTask}
    (h : w.getNextTask E clock runner = .ok (next, runner', w')) :
    IdleKept runner w next runner' w' ↔ w.IdleSafe E clock runner := by
  rcases getNextTask_cases h with ⟨task, queue, rfl, hq, rfl, rfl⟩ | ⟨hq, -, hkeeps, -⟩
  · refine iff_of_true ⟨?_, fun _ _ => rfl⟩ fun hnil => ?_
    · simp [NextTask.idleTasks, bound, held]
    · rw [hq] at hnil
      cases hnil
  · obtain ⟨found, st, st', hprep, hscan, rfl, rfl, rfl⟩ := getNextTask_scan h hq
    obtain ⟨hfold, hfound⟩ := hprep.polled hscan
    have hbound : st'.worker.bound = w.bound := by
      ext r
      simp only [bound, List.mem_toFinset]
      exact hkeeps.held.flatten.mem_iff
    have hfall : (found = none ∧ st'.worker.isTerminated = true) ↔
        (polled E (fun i => clock (i + 1)) 0 (w.lineUp runner) runner).2 = true ∧
          w.isTerminated = true := by rw [hfound, hkeeps.isTerminated]
    cases hfirst : w.firstIdle E clock runner with
    | none =>
      -- Nothing was popped.
      rw [poll_empty hfirst] at hfold
      obtain ⟨hq', ht'⟩ := Prod.mk.inj hfold
      have hnext : (outcome found st').idleTasks = 0 := by
        rw [outcome_idleTasks, ht']
        split <;> rfl
      refine iff_of_true (idleKept_of_untouched hbound hq' hnext) fun _ r hr => ?_
      rw [hfirst] at hr
      cases hr
    | some f =>
      have hf := firstIdle_bound hfirst
      cases hqf : runner.idle f with
      | nil => exact absurd hqf (by simpa using List.find?_some hfirst)
      | cons t ts =>
        obtain ⟨rest, hrest⟩ := poll_first hfirst hqf
        rw [hrest] at hfold
        cases t with
        | none =>
          have hlost := not_idleKept_of_null (outcome found st') hbound hf hqf rest (Prod.mk.inj hfold).1
          exact iff_of_false hlost fun hs => (hs hq f hfirst).2.2 (by rw [hqf]; rfl)
        | some task =>
          rw [Option.map_some, poll_some] at hfold
          obtain ⟨hq', ht'⟩ := Prod.mk.inj hfold
          have hnext := outcome_idleTasks found st'
          rw [ht'] at hnext
          obtain ⟨hkept, hlost⟩ :=
            idleKept_of_popped (outcome found st') hbound hf hqf hq'
          constructor
          · intro hk _ r hr
            cases hfirst.symm.trans hr
            by_contra hno
            have hnofall : ¬ (found = none ∧ st'.worker.isTerminated = true) := fun hfell =>
              hno ⟨(hfall.mp hfell).1, (hfall.mp hfell).2, by simp [hqf]⟩
            exact hlost (hnext.trans (if_neg hnofall)) hk
          · intro hs
            obtain ⟨hall, hterm, -⟩ := hs hq f hfirst
            exact hkept (hnext.trans (if_pos (hfall.mpr ⟨hall, hterm⟩)))

/-- A terminated worker without other work hands the idle task out. -/
theorem idle_kept_terminated : ∃ next runner' w',
    Worker.getNextTask .debug (fun _ => 0)
      (fun _ => { idleTaskQueue := [some ⟨7⟩], priority := 1, groupId := 0, isSchedulable := true })
      { runningGroups := [[0]], isTerminated := true, groupId := 0 } = .ok (next, runner', w') ∧
    IdleKept
      (fun _ => { idleTaskQueue := [some ⟨7⟩], priority := 1, groupId := 0, isSchedulable := true })
      { runningGroups := [[0]], isTerminated := true, groupId := 0 } next runner' w' := by
  obtain ⟨⟨next, runner', w'⟩, h⟩ : ∃ out, Worker.getNextTask .debug (fun _ => 0)
      (fun _ => { idleTaskQueue := [some ⟨7⟩], priority := 1, groupId := 0, isSchedulable := true })
      { runningGroups := [[0]], isTerminated := true, groupId := 0 } = .ok out :=
    Worker.getNextTask_ok (by decide)
  refine ⟨next, runner', w', h, (idle_kept_iff h).mpr fun _ r hr => ?_⟩
  obtain rfl : 0 = r := Option.some.inj hr
  decide

/-- One that is not terminated pops it and returns null. -/
theorem idle_task_dropped : ∃ next runner' w',
    Worker.getNextTask .debug (fun _ => 0)
      (fun _ => { idleTaskQueue := [some ⟨7⟩], priority := 1, groupId := 0, isSchedulable := true })
      { runningGroups := [[0]], groupId := 0 } = .ok (next, runner', w') ∧
    ¬ IdleKept
      (fun _ => { idleTaskQueue := [some ⟨7⟩], priority := 1, groupId := 0, isSchedulable := true })
      { runningGroups := [[0]], groupId := 0 } next runner' w' := by
  refine ⟨_, _, _, rfl, fun h => ?_⟩
  exact absurd (h.untouched rfl 0) (by decide)

end Footstone
