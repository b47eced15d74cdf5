import Footstone.Worker

/-!
What a `GetNextTask` does to a worker and to the runners, whichever way it goes:
it permutes the groups, pops at most one immediate task, leaves the
runner-specific data and the placement of every runner alone, and a task it
takes from a runner is one of a runner in its groups. With no empty group it
always returns.
-/

namespace Footstone

/-- The runner a task was taken from. -/
def NextTask.source : NextTask → Option RunnerId
  | .task r _ => some r
  | .idle r _ _ => some r
  | _ => none

namespace Worker

/-- The frame of everything `GetNextTask` does behind its immediate queue. -/
structure Keeps (runner : Runners) (w : Worker) (runner' : Runners) (w' : Worker) : Prop where
  held : w'.held.Perm w.held
  place : ∀ r, (runner' r).place = (runner r).place
  workerKeyMap : w'.workerKeyMap = w.workerKeyMap
  specificMap : w'.specificMap = w.specificMap
  immediateTaskQueue : w'.immediateTaskQueue = w.immediateTaskQueue
  isTerminated : w'.isTerminated = w.isTerminated
  groupId : w'.groupId = w.groupId

theorem Keeps.refl (runner : Runners) (w : Worker) : Keeps runner w runner w :=
  ⟨.refl _, fun _ => rfl, rfl, rfl, rfl, rfl, rfl⟩

theorem Keeps.trans {runner₁ runner₂ runner₃ : Runners} {w₁ w₂ w₃ : Worker}
    (h : Keeps runner₁ w₁ runner₂ w₂) (k : Keeps runner₂ w₂ runner₃ w₃) :
    Keeps runner₁ w₁ runner₃ w₃ where
  held := k.held.trans h.held
  place r := (k.place r).trans (h.place r)
  workerKeyMap := k.workerKeyMap.trans h.workerKeyMap
  specificMap := k.specificMap.trans h.specificMap
  immediateTaskQueue := k.immediateTaskQueue.trans h.immediateTaskQueue
  isTerminated := k.isTerminated.trans h.isTerminated
  groupId := k.groupId.trans h.groupId

/-! ## Sorting and balancing -/

theorem sortNoLock_perm {runner : Runners} {gs gs' : List Group}
    (h : sortNoLock runner gs = .ok gs') : gs'.Perm gs := by
  unfold sortNoLock at h
  split at h
  · cases h
  · cases h
    exact List.perm_insertionSort _ gs

theorem setTimes_place (time : TimeDelta) (rs : List RunnerId) (runner : Runners) (r : RunnerId) :
    (setTimes time rs runner r).place = (runner r).place := by
  unfold setTimes
  split <;> rfl

theorem setTimes_nil (time : TimeDelta) (runner : Runners) : setTimes time [] runner = runner := by
  funext r
  simp [setTimes]

/-- `BalanceNoLock` puts the pending groups in front and sets the times of their runners. -/
theorem balanceNoLock_inv {runner runner' : Runners} {w w' : Worker}
    (h : balanceNoLock runner w = .ok (runner', w')) :
    (∃ time, runner' = setTimes time w.pendingGroups.flatten runner) ∧ w' = { w with
      runningGroups := w.pendingGroups ++ w.runningGroups
      pendingGroups := [] } := by
  unfold balanceNoLock at h
  split at h
  · rename_i hp
    cases h
    refine ⟨⟨0, by rw [hp]; exact (setTimes_nil 0 runner).symm⟩, ?_⟩
    rw [hp, List.nil_append, ← hp]
  · cases h
  · cases h
    exact ⟨⟨_, rfl⟩, rfl⟩

theorem balanceStage_inv {runner runner' : Runners} {w w' : Worker}
    (h : balanceStage runner w = .ok (runner', w')) :
    (∃ time rs, runner' = setTimes time rs runner) ∧ w' = { w with
      runningGroups := (if w.needBalance then w.pendingGroups else []) ++ w.runningGroups
      pendingGroups := if w.needBalance then [] else w.pendingGroups
      needBalance := false } := by
  unfold balanceStage at h
  split at h
  · rename_i hneed
    obtain ⟨⟨runner₁, w₁⟩, hb, h⟩ := Runs.bind_eq_ok.mp h
    obtain ⟨⟨time, rfl⟩, rfl⟩ := balanceNoLock_inv hb
    cases h
    exact ⟨⟨_, _, rfl⟩, by rw [if_pos hneed, if_pos hneed]⟩
  · rename_i hneed
    cases h
    refine ⟨⟨0, [], (setTimes_nil 0 runner).symm⟩, ?_⟩
    rw [if_neg hneed, if_neg hneed, List.nil_append, ← Bool.eq_false_iff.mpr hneed]

theorem sortStage_keeps {runner : Runners} {w : Worker} {gs : List Group}
    (h : sortStage runner w.runningGroups = .ok gs) :
    Keeps runner w runner { w with runningGroups := gs } := by
  have hperm : gs.Perm w.runningGroups := by
    unfold sortStage at h
    split at h
    · exact sortNoLock_perm h
    · cases h; exact .refl _
  exact ⟨hperm.append_right _, fun _ => rfl, rfl, rfl, rfl, rfl, rfl⟩

theorem balanceStage_keeps {runner runner' : Runners} {w w' : Worker}
    (h : balanceStage runner w = .ok (runner', w')) : Keeps runner w runner' w' := by
  obtain ⟨⟨time, rs, rfl⟩, rfl⟩ := balanceStage_inv h
  refine ⟨?_, setTimes_place _ _ _, rfl, rfl, rfl, rfl, rfl⟩
  cases hneed : w.needBalance
  · simp [held]
  · simpa [held, hneed] using List.perm_append_comm

/-! ## The scan over the running groups -/

theorem pollFront_keeps (now : TimePoint) (front : RunnerId) (st : Scan) :
    Keeps st.runner st.worker (pollFront now front st).runner (pollFront now front st).worker ∧
      (pollFront now front st).worker.runningGroups = st.worker.runningGroups := by
  have hplace : ∀ r, (Function.update st.runner front (st.runner front).popIdleTask.2 r).place =
      (st.runner r).place :=
    update_keeps TaskRunner.place (TaskRunner.popIdleTask_place _)
  unfold pollFront
  cases st.idleTask <;> dsimp only <;> split <;>
    first
      | exact ⟨⟨.refl _, hplace, rfl, rfl, rfl, rfl, rfl⟩, rfl⟩
      | exact ⟨⟨.refl _, fun _ => rfl, rfl, rfl, rfl, rfl, rfl⟩, rfl⟩

theorem pollFront_idleTask (now : TimePoint) (front r : RunnerId) (task : IdleTask) (st : Scan)
    (h : (pollFront now front st).idleTask = some (r, task)) :
    st.idleTask = some (r, task) ∨ r = front := by
  unfold pollFront at h
  cases hi : st.idleTask with
  | some t =>
    left
    rw [hi] at h
    dsimp only at h
    split at h <;> exact hi.symm.trans h
  | none =>
    right
    rw [hi] at h
    dsimp only at h
    split at h <;>
    · obtain ⟨_, -, he⟩ := Option.map_eq_some_iff.mp h
      exact (Prod.mk.inj he).1.symm

variable {E : Env}

theorem scanGroups_keeps {now : TimePoint} {clock : Nat → TimePoint} {i : Nat}
    {groups : List Group} {st st' : Scan} {found : Option (RunnerId × Task)}
    (h : scanGroups E now clock i groups st = .ok (found, st')) :
    Keeps st.runner st.worker st'.runner st'.worker ∧
      st'.worker.runningGroups = st.worker.runningGroups ∧
      (∀ r task, found = some (r, task) → ∃ g ∈ groups, r ∈ g) ∧
      ∀ r task, st'.idleTask = some (r, task) →
        st.idleTask = some (r, task) ∨ ∃ g ∈ groups, r ∈ g := by
  induction groups generalizing i st with
  | nil =>
    cases h
    exact ⟨.refl _ _, rfl, by simp, fun r task h => Or.inl h⟩
  | cons g groups ih =>
    cases g with
    | nil => cases h
    | cons front members =>
      simp only [scanGroups] at h
      have hback : members.getLastD front ∈ front :: members := List.getLastD_mem_cons
      generalize hb : members.getLastD front = back at h hback
      have hplace : ∀ r, (Function.update st.runner back
          ((st.runner back).getNext E (clock i)).2 r).place = (st.runner r).place :=
        update_keeps TaskRunner.place (TaskRunner.getNext_place E _ _)
      split at h
      · cases h
        refine ⟨⟨.refl _, hplace, rfl, rfl, rfl, rfl, rfl⟩, rfl, ?_, fun r task h => Or.inl h⟩
        intro r task e
        cases e
        exact ⟨_, List.mem_cons_self, hback⟩
      · obtain ⟨hk, hrun, hfound, hidle⟩ := ih h
        obtain ⟨hp, hprun⟩ := pollFront_keeps now front
          { st with runner := Function.update st.runner back ((st.runner back).getNext E (clock i)).2 }
        refine ⟨Keeps.trans ⟨.refl _, hplace, rfl, rfl, rfl, rfl, rfl⟩ (hp.trans hk),
          hrun.trans hprun, ?_, ?_⟩
        · intro r task e
          obtain ⟨g, hg, hr⟩ := hfound r task e
          exact ⟨g, List.mem_cons_of_mem _ hg, hr⟩
        · intro r task e
          rcases hidle r task e with e | ⟨g, hg, hr⟩
          · rcases pollFront_idleTask now front r task _ e with e | rfl
            · exact Or.inl e
            · exact Or.inr ⟨_, List.mem_cons_self, List.mem_cons_self⟩
          · exact Or.inr ⟨g, List.mem_cons_of_mem _ hg, hr⟩

/-! ## The whole call -/

theorem outcome_source {found : Option (RunnerId × Task)} {st : Scan} {r : RunnerId}
    (h : (outcome found st).source = some r) :
    (∃ task, found = some (r, task)) ∨ ∃ task, st.idleTask = some (r, task) := by
  unfold outcome at h
  split at h
  · cases h
    exact Or.inl ⟨_, rfl⟩
  · split at h
    · cases h
    · split at h
      · rename_i e
        cases h
        exact Or.inr ⟨_, e⟩
      · cases h

/-- Either the front of the immediate queue is popped and nothing else happens,
or the queue is empty and the three stages follow. -/
theorem getNextTask_inv {clock : Nat → TimePoint} {runner runner' : Runners} {w w' : Worker}
    {next : NextTask} (h : w.getNextTask E clock runner = .ok (next, runner', w')) :
    (∃ task queue, next = .immediate task ∧ w.immediateTaskQueue = task :: queue ∧
      runner' = runner ∧ w' = { w with immediateTaskQueue := queue }) ∨
    (w.immediateTaskQueue = [] ∧ ∃ groups runner₁ w₁ found st,
      sortStage runner w.runningGroups = .ok groups ∧
      balanceStage runner { w with runningGroups := groups } = .ok (runner₁, w₁) ∧
      scanGroups E (clock 0) (fun i => clock (i + 1)) 0 w₁.runningGroups
        { runner := runner₁, worker := w₁ } = .ok (found, st) ∧
      next = outcome found st ∧ runner' = st.runner ∧ w' = st.worker) := by
  unfold getNextTask at h
  split at h
  · rename_i task queue hq
    cases h
    exact Or.inl ⟨task, queue, rfl, hq, rfl, rfl⟩
  · rename_i hq
    obtain ⟨groups, hs, h⟩ := Runs.bind_eq_ok.mp h
    obtain ⟨⟨runner₁, w₁⟩, hb, h⟩ := Runs.bind_eq_ok.mp h
    obtain ⟨⟨found, st⟩, hscan, h⟩ := Runs.bind_eq_ok.mp h
    cases h
    exact Or.inr ⟨hq, groups, runner₁, w₁, found, st, hs, hb, hscan, rfl, rfl, rfl⟩

/-- Behind the immediate queue the call stays within its frame. -/
theorem getNextTask_cases {clock : Nat → TimePoint} {runner runner' : Runners} {w w' : Worker}
    {next : NextTask} (h : w.getNextTask E clock runner = .ok (next, runner', w')) :
    (∃ task queue, next = .immediate task ∧ w.immediateTaskQueue = task :: queue ∧
      runner' = runner ∧ w' = { w with immediateTaskQueue := queue }) ∨
    (w.immediateTaskQueue = [] ∧ (∀ task, next ≠ .immediate task) ∧ Keeps runner w runner' w' ∧
      ∀ r, next.source = some r → ∃ g ∈ w'.held, r ∈ g) := by
  obtain himm | ⟨hq, groups, runner₁, w₁, found, st, hs, hb, hscan, rfl, rfl, rfl⟩ :=
    getNextTask_inv h
  · exact Or.inl himm
  · obtain ⟨hk, hrun, hfound, hidle⟩ := scanGroups_keeps hscan
    refine Or.inr ⟨hq, ?_, ((sortStage_keeps hs).trans (balanceStage_keeps hb)).trans hk, ?_⟩
    · intro task e
      unfold outcome at e
      repeat (first | cases e | split at e)
    · intro r e
      have hr : ∃ g ∈ w₁.runningGroups, r ∈ g := by
        rcases outcome_source e with ⟨task, rfl⟩ | ⟨task, hi⟩
        · exact hfound r task rfl
        · rcases hidle r task hi with h | h
          · cases h
          · exact h
      obtain ⟨g, hg, hr⟩ := hr
      exact ⟨g, List.mem_append_left _ (hrun ▸ hg), hr⟩

theorem balanceNoLock_ok (runner : Runners) {w : Worker} (h : [] ∉ w.runningGroups) :
    ∃ out, balanceNoLock runner w = .ok out := by
  unfold balanceNoLock
  split
  · exact ⟨_, rfl⟩
  · rename_i hr
    rw [hr] at h
    simp at h
  · exact ⟨_, rfl⟩

theorem balanceStage_ok (runner : Runners) {w : Worker} (h : [] ∉ w.runningGroups) :
    ∃ out, balanceStage runner w = .ok out := by
  obtain ⟨⟨runner', w'⟩, hb⟩ := balanceNoLock_ok runner h
  unfold balanceStage
  split
  · exact ⟨_, Runs.bind_eq_ok.mpr ⟨_, hb, rfl⟩⟩
  · exact ⟨_, rfl⟩

theorem sortStage_ok (runner : Runners) {gs : List Group} (h : [] ∉ gs) :
    ∃ out, sortStage runner gs = .ok out := by
  unfold sortStage
  split
  · exact ⟨_, if_neg fun hc => h hc.2⟩
  · exact ⟨_, rfl⟩

theorem scanGroups_ok (now : TimePoint) (clock : Nat → TimePoint) {groups : List Group}
    (h : [] ∉ groups) (i : Nat) (st : Scan) : ∃ out, scanGroups E now clock i groups st = .ok out := by
  induction groups generalizing i st with
  | nil => exact ⟨_, rfl⟩
  | cons g groups ih =>
    cases g with
    | nil => simp at h
    | cons front members =>
      simp only [List.mem_cons, not_or] at h
      simp only [scanGroups]
      split
      · exact ⟨_, rfl⟩
      · exact ih h.2 _ _

/-- **`GetNextTask` returns on non-empty groups**: neither the check of the sort
nor `front()` and `back()` can go wrong. -/
theorem getNextTask_ok {clock : Nat → TimePoint} {runner : Runners} {w : Worker}
    (h : [] ∉ w.held) : ∃ out, w.getNextTask E clock runner = .ok out := by
  unfold getNextTask
  split
  · exact ⟨_, rfl⟩
  · have hrun : [] ∉ w.runningGroups := fun hm => h (List.mem_append_left _ hm)
    obtain ⟨groups, hs⟩ := sortStage_ok runner hrun
    have hsort := sortStage_keeps hs
    have hgroups : [] ∉ groups := fun hm => h (hsort.held.subset (List.mem_append_left _ hm))
    obtain ⟨⟨runner₁, w₁⟩, hb⟩ := balanceStage_ok runner
      (w := { w with runningGroups := groups }) hgroups
    have hbal := hsort.trans (balanceStage_keeps hb)
    have hne : [] ∉ w₁.runningGroups := fun hm =>
      h (hbal.held.subset (List.mem_append_left _ hm))
    obtain ⟨⟨found, st⟩, hscan⟩ := scanGroups_ok (E := E) (clock 0)
      (fun i => clock (i + 1)) hne 0 { runner := runner₁, worker := w₁ }
    exact ⟨_, Runs.bind_eq_ok.mpr ⟨_, hs, Runs.bind_eq_ok.mpr ⟨_, hb,
      Runs.bind_eq_ok.mpr ⟨_, hscan, rfl⟩⟩⟩⟩

/-! ## What the loop runs over -/

/-- The running groups when the loop starts: sorted, and behind the pending ones. -/
def lineUp (runner : Runners) (w : Worker) : List Group :=
  (if w.needBalance then w.pendingGroups else []) ++
    w.runningGroups.insertionSort fun a b => weight runner a ≤ weight runner b

theorem sortStage_eq {runner : Runners} {gs gs' : List Group} (h : sortStage runner gs = .ok gs') :
    gs' = gs.insertionSort fun a b => weight runner a ≤ weight runner b := by
  unfold sortStage sortNoLock at h
  split at h
  · split at h <;> cases h
    rfl
  · rename_i hlen
    cases h
    cases gs with
    | nil => rfl
    | cons g gs =>
      cases gs with
      | nil => rfl
      | cons g' gs => simp at hlen

theorem setTimes_queues (time : TimeDelta) (rs : List RunnerId) (runner : Runners) (r : RunnerId) :
    (setTimes time rs runner r).due = (runner r).due ∧
      (setTimes time rs runner r).idleTaskQueue = (runner r).idleTaskQueue := by
  unfold setTimes
  split <;> exact ⟨rfl, rfl⟩

/-- The queues of every runner are as they were. -/
def SameQueues (runner runner' : Runners) : Prop :=
  ∀ r, (runner' r).due = (runner r).due ∧ (runner' r).idleTaskQueue = (runner r).idleTaskQueue

theorem balanceStage_eq {runner runner' : Runners} {w w' : Worker}
    (h : balanceStage runner w = .ok (runner', w')) :
    w'.runningGroups = (if w.needBalance then w.pendingGroups else []) ++ w.runningGroups ∧
      SameQueues runner runner' := by
  obtain ⟨⟨time, rs, rfl⟩, rfl⟩ := balanceStage_inv h
  exact ⟨rfl, setTimes_queues time rs runner⟩

/-- The variables of the thread are as they were. -/
structure SameLocals (w w' : Worker) : Prop where
  isTaskRunning : w'.isTaskRunning = w.isTaskRunning
  localRunner : w'.localRunner = w.localRunner
  currGroup : w'.currGroup = w.currGroup

theorem SameLocals.trans {w₁ w₂ w₃ : Worker} (h : SameLocals w₁ w₂) (k : SameLocals w₂ w₃) :
    SameLocals w₁ w₃ :=
  ⟨k.isTaskRunning.trans h.isTaskRunning, k.localRunner.trans h.localRunner,
    k.currGroup.trans h.currGroup⟩

theorem balanceStage_locals {runner runner' : Runners} {w w' : Worker}
    (h : balanceStage runner w = .ok (runner', w')) : SameLocals w w' := by
  obtain ⟨-, rfl⟩ := balanceStage_inv h
  exact ⟨rfl, rfl, rfl⟩

/-- The loop is about to start. The runners differ from those of before in their
times only. -/
structure Prepared (runner : Runners) (w : Worker) (st : Scan) : Prop where
  idleTask : st.idleTask = none
  runningGroups : st.worker.runningGroups = w.lineUp runner
  isTerminated : st.worker.isTerminated = w.isTerminated
  locals : SameLocals w st.worker
  queues : SameQueues runner st.runner

/-- Behind its immediate queue the call is one loop over `lineUp`. -/
theorem getNextTask_scan {clock : Nat → TimePoint} {runner runner' : Runners} {w w' : Worker}
    {next : NextTask} (h : w.getNextTask E clock runner = .ok (next, runner', w'))
    (hq : w.immediateTaskQueue = []) : ∃ found st st', Prepared runner w st ∧
      scanGroups E (clock 0) (fun i => clock (i + 1)) 0 (w.lineUp runner) st = .ok (found, st') ∧
      next = outcome found st' ∧ runner' = st'.runner ∧ w' = st'.worker := by
  obtain ⟨task, queue, -, himm, -⟩ |
    ⟨-, groups, runner₁, w₁, found, st', hs, hb, hscan, rfl, rfl, rfl⟩ := getNextTask_inv h
  · rw [hq] at himm
    cases himm
  obtain ⟨hrun, hqueues⟩ := balanceStage_eq hb
  have hline : w₁.runningGroups = w.lineUp runner := by rw [hrun, sortStage_eq hs, lineUp]
  have hlocals := balanceStage_locals hb
  refine ⟨found, { runner := runner₁, worker := w₁ }, st', ?_, hline ▸ hscan, rfl, rfl, rfl⟩
  exact ⟨rfl, hline, (balanceStage_keeps hb).isTerminated,
    ⟨hlocals.isTaskRunning, hlocals.localRunner, hlocals.currGroup⟩, hqueues⟩

end Worker

end Footstone
