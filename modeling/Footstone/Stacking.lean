import Footstone.WellFormed

/-!
Stacking a runner on another one. `AddSubTaskRunner` relies on the father being in
a group of its worker: it does not look at whether one was found. And one flag,
`has_sub_runner_`, stands for all the runners stacked through a runner, so that it
is right as long as there is at most one of them when one is removed.
-/

namespace Footstone

open Runs

namespace Worker

/-- `c` is appended to the first group with `f` in it. -/
def Appends (f c : RunnerId) (gs gs' : List Group) : Prop :=
  ∃ pre g post, gs = pre ++ g :: post ∧ (∀ x ∈ pre, f ∉ x) ∧ f ∈ g ∧
    gs' = pre ++ (g ++ [c]) :: post

theorem pushChild_eq_none {f c : RunnerId} {gs : List Group} :
    pushChild f c gs = none ↔ ∀ g ∈ gs, f ∉ g := by
  induction gs with
  | nil => simp [pushChild]
  | cons g gs ih =>
    rw [pushChild]
    split
    · rename_i hf
      simp [hf]
    · rename_i hf
      simp [hf, ih]

theorem appends_of_pushChild {f c : RunnerId} {gs gs' : List Group}
    (h : pushChild f c gs = some gs') : Appends f c gs gs' := by
  induction gs generalizing gs' with
  | nil => simp [pushChild] at h
  | cons g gs ih =>
    rw [pushChild] at h
    split at h
    · rename_i hf
      cases h
      exact ⟨[], g, gs, rfl, by simp, hf, rfl⟩
    · rename_i hf
      obtain ⟨rest, hrest, rfl⟩ := Option.map_eq_some_iff.mp h
      obtain ⟨pre, x, post, rfl, hpre, hx, rfl⟩ := ih hrest
      exact ⟨g :: pre, x, post, rfl, List.forall_mem_cons.mpr ⟨hf, hpre⟩, hx, rfl⟩

/-- Appending keeps the group of the father the only one. -/
theorem Appends.filter {f c : RunnerId} {gs gs' : List Group} {g : Group} (h : Appends f c gs gs')
    (hg : gs.filter (f ∈ ·) = [g]) : gs'.filter (f ∈ ·) = [g ++ [c]] := by
  obtain ⟨pre, x, post, rfl, hpre, hx, rfl⟩ := h
  have hnone : pre.filter (f ∈ ·) = [] := by simpa using hpre
  rw [List.filter_append, hnone, List.nil_append, List.filter_cons_of_pos (by simpa using hx),
    List.cons.injEq] at hg
  rw [List.filter_append, hnone, List.nil_append, List.filter_cons_of_pos (by simp [hx]), hg.2,
    hg.1]

/-- Erasing `c` keeps everybody else where they are. -/
theorem erased_others (c : RunnerId) (gs : List Group) :
    List.Forall₂ (fun g g' => ∀ x, x ≠ c → (x ∈ g ↔ x ∈ g')) gs (erased c gs) := by
  have hsame : ∀ hs : List Group, List.Forall₂ (fun g g' => ∀ x, x ≠ c → (x ∈ g ↔ x ∈ g')) hs hs :=
    fun hs => List.forall₂_same.mpr fun g _ x _ => Iff.rfl
  induction gs with
  | nil => exact .nil
  | cons g gs ih =>
    rw [erased_cons]
    split
    · exact .cons (fun x hx => (List.mem_erase_of_ne hx).symm) (hsame gs)
    · exact .cons (fun x _ => Iff.rfl) ih

/-- The groups of another runner `f` stay the groups of `f`. -/
theorem erased_filter {f c : RunnerId} (hne : f ≠ c) (gs : List Group) :
    List.Forall₂ (fun g g' => ∀ x, x ≠ c → (x ∈ g ↔ x ∈ g')) (gs.filter (f ∈ ·))
      ((erased c gs).filter (f ∈ ·)) := by
  refine List.rel_filter (fun g g' h => ?_) (erased_others c gs)
  simpa using h f hne

/-- What `BindGroup` does, by where the father is. -/
theorem bindGroup_cases (f c : RunnerId) (w : Worker) :
    (∃ gs, w.bindGroup f c = .ok { w with runningGroups := gs } ∧ Appends f c w.runningGroups gs) ∨
    ((∀ g ∈ w.runningGroups, f ∉ g) ∧
      ∃ gs, w.bindGroup f c = .ok { w with pendingGroups := gs } ∧ Appends f c w.pendingGroups gs) ∨
    ((∀ g ∈ w.held, f ∉ g) ∧ w.bindGroup f c = .error .iterator) := by
  cases hr : pushChild f c w.runningGroups with
  | some gs => exact Or.inl ⟨gs, by simp [bindGroup, hr], appends_of_pushChild hr⟩
  | none =>
    have hrunning := pushChild_eq_none.mp hr
    cases hp : pushChild f c w.pendingGroups with
    | some gs =>
      exact Or.inr (Or.inl ⟨hrunning, gs, by simp [bindGroup, hr, hp], appends_of_pushChild hp⟩)
    | none =>
      refine Or.inr (Or.inr ⟨fun g hg => ?_, by simp [bindGroup, hr, hp]⟩)
      rcases List.mem_append.mp hg with hg | hg
      · exact hrunning g hg
      · exact pushChild_eq_none.mp hp g hg

end Worker

namespace State

/-! ## One call of `AddSubTaskRunner` -/

/-- The groups of the worker `v`. -/
def groups (s : State) (v : WorkerId) : List Group × List Group :=
  ((s.worker v).runningGroups, (s.worker v).pendingGroups)

/-- The call on `f`, whose worker is `w`, returns: true with `c` on top of the
group of `f`, a running one or else a pending one, and all other groups as they
were; or false when there is no such group, with nothing changed. -/
def StacksOrKeeps (f c : RunnerId) (b : Bool) (w : WorkerId) (s : State) : Prop :=
  ∃ ok s', s.addSubTaskRunner f c b = .ok (ok, s') ∧
    ((ok = true ∧ (∀ v, v ≠ w → s'.groups v = s.groups v) ∧
        ((Worker.Appends f c (s.groups w).1 (s'.groups w).1 ∧ (s'.groups w).2 = (s.groups w).2) ∨
          ((∀ g ∈ (s.groups w).1, f ∉ g) ∧ (s'.groups w).1 = (s.groups w).1 ∧
            Worker.Appends f c (s.groups w).2 (s'.groups w).2))) ∨
      (ok = false ∧ ¬ s.Holds w f ∧ s'.groups = s.groups ∧
        (s'.runner f).hasSubRunner = (s.runner f).hasSubRunner))

/-- When `BindGroup` returns, so does the call, and only the groups of `w` are new. -/
theorem addSubTaskRunner_bound {f c : RunnerId} {b : Bool} {w : WorkerId} {s : State} {x : Worker}
    (hw : s.lock (s.runner f).worker = some w) (hx : (s.worker w).bindGroup f c = .ok x) :
    ∃ s', s.addSubTaskRunner f c b = .ok (true, s') ∧
      (∀ v, v ≠ w → s'.groups v = s.groups v) ∧
      s'.groups w = (x.runningGroups, x.pendingGroups) := by
  refine ⟨_, by simp only [addSubTaskRunner, hw, hx, bind, Except.bind]; rfl, fun v hv => ?_, ?_⟩
  · simp [groups, setWorker, modifyRunner, hv]
  · simp [groups, setWorker, modifyRunner]

/-- Without a group of the father, `BindGroup` writes through the end iterator. -/
theorem addSubTaskRunner_not_held {f c : RunnerId} {b : Bool} {w : WorkerId} {s : State}
    (hw : s.lock (s.runner f).worker = some w) (hf : ¬ s.Holds w f) :
    s.addSubTaskRunner f c b = .error .iterator := by
  have hnone : ∀ g ∈ (s.worker w).held, f ∉ g := fun g hg hfg => hf ⟨g, hg, hfg⟩
  have hbind : (s.worker w).bindGroup f c = .error .iterator := by
    rcases (s.worker w).bindGroup_cases f c with ⟨gs, -, happ⟩ | ⟨-, gs, -, happ⟩ | ⟨-, h⟩
    · obtain ⟨pre, g, post, hgs, -, hfg, -⟩ := happ
      exact absurd hfg (hnone g (List.mem_append_left _ (by simp [hgs])))
    · obtain ⟨pre, g, post, hgs, -, hfg, -⟩ := happ
      exact absurd hfg (hnone g (List.mem_append_right _ (by simp [hgs])))
    · exact h
  simp [addSubTaskRunner, hw, hbind, bind, Except.bind]

/-- **Stacking or nothing.** `AddSubTaskRunner` of a runner with a worker stacks the
sub runner or leaves everything alone exactly when a group of the worker contains
the runner. -/
theorem stacksOrKeeps_iff {f c : RunnerId} {b : Bool} {w : WorkerId} {s : State}
    (hw : s.lock (s.runner f).worker = some w) : s.StacksOrKeeps f c b w ↔ s.Holds w f := by
  constructor
  · rintro ⟨ok, s', h, -⟩
    by_contra hf
    rw [addSubTaskRunner_not_held hw hf] at h
    cases h
  · intro hf
    rcases (s.worker w).bindGroup_cases f c with
      ⟨gs, hb, happ⟩ | ⟨hnone, gs, hb, happ⟩ | ⟨hnone, -⟩
    · obtain ⟨s', hok, hother, hgroups⟩ := addSubTaskRunner_bound (b := b) hw hb
      refine ⟨true, s', hok, Or.inl ⟨rfl, hother, Or.inl ?_⟩⟩
      rw [hgroups]
      exact ⟨happ, rfl⟩
    · obtain ⟨s', hok, hother, hgroups⟩ := addSubTaskRunner_bound (b := b) hw hb
      refine ⟨true, s', hok, Or.inl ⟨rfl, hother, Or.inr ?_⟩⟩
      rw [hgroups]
      exact ⟨hnone, rfl, happ⟩
    · obtain ⟨g, hg, hfg⟩ := hf
      exact absurd hfg (hnone g hg)

end State

/-- A runner that was just created is in a group. -/
theorem stacksOrKeeps_on_created : (last (step .debug) (State.new .debug 1)
    [.createTaskRunner 0 1 true]).StacksOrKeeps 0 1 false 0 :=
  (State.stacksOrKeeps_iff (by decide)).mpr ⟨[0], by decide, by decide⟩

/-- A runner that was removed still has its worker, and no group. -/
theorem stacking_on_removed_runner : ¬ (last (step .debug) (State.new .debug 1)
    [.createTaskRunner 0 1 true, .removeTaskRunner 0]).StacksOrKeeps 0 1 false 0 := by
  rintro ⟨ok, s', h, -⟩
  have hgroups : ∀ g ∈ (last (step .debug) (State.new .debug 1)
      [.createTaskRunner 0 1 true, .removeTaskRunner 0]).held 0, 0 ∉ g := by decide
  rw [State.addSubTaskRunner_not_held (by decide) fun ⟨g, hg, hf⟩ => hgroups g hg hf] at h
  cases h

namespace TaskRunner

variable (E : Env)

/-! ## What else happens in between -/

@[simp] theorem getNext_hasSubRunner (now : TimePoint) (r : TaskRunner) :
    (r.getNext E now).2.hasSubRunner = r.hasSubRunner := by
  obtain ⟨tasks, delayed, h⟩ := getNext_frame E now r
  rw [h]

@[simp] theorem popIdleTask_hasSubRunner (r : TaskRunner) :
    r.popIdleTask.2.hasSubRunner = r.hasSubRunner := by
  unfold popIdleTask
  split <;> rfl

end TaskRunner

/-- The flags of all runners. -/
def Runners.flags (runner : Runners) : RunnerId → Bool := fun r => (runner r).hasSubRunner

theorem Runners.flags_update {runner : Runners} {r : RunnerId} {x : TaskRunner}
    (h : x.hasSubRunner = (runner r).hasSubRunner) :
    Runners.flags (Function.update runner r x) = runner.flags :=
  funext (update_keeps TaskRunner.hasSubRunner h)

namespace Worker

variable {E : Env}

theorem setTimes_flags (time : TimeDelta) (rs : List RunnerId) (runner : Runners) :
    (setTimes time rs runner).flags = runner.flags := by
  funext r
  simp only [Runners.flags, setTimes]
  split <;> rfl

theorem balanceStage_flags {runner runner' : Runners} {w w' : Worker}
    (h : balanceStage runner w = .ok (runner', w')) : runner'.flags = runner.flags := by
  obtain ⟨⟨time, rs, rfl⟩, -⟩ := balanceStage_inv h
  exact setTimes_flags time rs runner

theorem pollFront_flags (now : TimePoint) (front : RunnerId) (st : Scan) :
    (pollFront now front st).runner.flags = st.runner.flags := by
  have hpop := Runners.flags_update (r := front) (st.runner front).popIdleTask_hasSubRunner
  unfold pollFront
  cases st.idleTask <;> dsimp only <;> split <;> first | rfl | exact hpop

theorem scanGroups_flags {now : TimePoint} {clock : Nat → TimePoint} {i : Nat}
    {groups : List Group} {st st' : Scan} {found : Option (RunnerId × Task)}
    (h : scanGroups E now clock i groups st = .ok (found, st')) :
    st'.runner.flags = st.runner.flags := by
  induction groups generalizing i st with
  | nil => cases h; rfl
  | cons g groups ih =>
    cases g with
    | nil => cases h
    | cons front members =>
      simp only [scanGroups] at h
      generalize members.getLastD front = back at h
      have hnext := Runners.flags_update (r := back)
        ((st.runner back).getNext_hasSubRunner E (clock i))
      split at h
      · cases h
        exact hnext
      · have hrest := ih h
        rw [pollFront_flags] at hrest
        exact hrest.trans hnext

theorem getNextTask_flags {clock : Nat → TimePoint} {runner runner' : Runners} {w w' : Worker}
    {next : NextTask} (h : w.getNextTask E clock runner = .ok (next, runner', w')) :
    runner'.flags = runner.flags := by
  obtain ⟨task, queue, -, -, rfl, -⟩ |
    ⟨-, groups, runner₁, w₁, found, st, -, hb, hscan, -, rfl, -⟩ := getNextTask_inv h
  · rfl
  · exact (scanGroups_flags hscan).trans (balanceStage_flags hb)

end Worker

namespace State

variable {E : Env}

theorem runTask_flags {s s' : State} {w : WorkerId} {clock : Nat → TimePoint}
    (h : s.runTask E w clock = .ok s') : s'.runner.flags = s.runner.flags := by
  unfold runTask at h
  split at h
  · obtain ⟨⟨next, runner, worker⟩, hn, h⟩ := bind_eq_ok.mp h
    have hflags := Worker.getNextTask_flags hn
    cases next with
    | immediate task =>
      have him : s'.runner = runner := by
        cases task with
        | takeSpecific r src dst =>
          obtain ⟨_, -, h⟩ := bind_eq_ok.mp h
          dsimp only at h
          split at h <;> cases h <;> rfl
        | installSpecific r dst keys specific =>
          simp only [runImmediate] at h
          split at h <;> cases h <;> rfl
      rw [him]
      exact hflags
    | _ => cases h; exact hflags
  · cases h

theorem post_flags {s s' : State} {r : RunnerId} {queue : TaskRunner → TaskRunner}
    (hq : ∀ x, (queue x).hasSubRunner = x.hasSubRunner) (h : s.post r queue = .ok s') :
    s'.runner.flags = s.runner.flags := by
  obtain ⟨_, -, h⟩ := bind_eq_ok.mp h
  obtain ⟨_, -, h⟩ := bind_eq_ok.mp h
  cases h
  exact Runners.flags_update (hq _)

/-- Posting, taking and finishing tasks leave the flags alone. -/
theorem step_flags {s s' : State} {op : Op} (hop : op.IsTask) (h : step E s op = .ok s') :
    s'.runner.flags = s.runner.flags := by
  cases op with
  | postTask r task =>
    refine post_flags ?_ h
    exact fun _ => rfl
  | postDelayedTask r now task delay =>
    refine post_flags ?_ h
    exact fun _ => rfl
  | postIdleTask r task =>
    refine post_flags ?_ h
    exact fun _ => rfl
  | runTask w clock => exact runTask_flags h
  | finishTask w elapsed =>
    simp only [step, finishTask] at h
    split at h
    · cases h
    · cases h
      exact funext (addTimes_keeps TaskRunner.hasSubRunner (fun _ _ => rfl) _ _ _ _)
  | _ => exact hop.elim

/-! ## The flag over a sequence of calls -/

/-- `c` is in a group of the worker of `f` with `f` in it. -/
def sharesGroup (f c : RunnerId) (s : State) : Bool :=
  match s.lock (s.runner f).worker with
  | none => false
  | some w => (s.held w).any fun g => f ∈ g ∧ c ∈ g

theorem sharesGroup_iff {f c : RunnerId} {w : WorkerId} {s : State}
    (hw : s.lock (s.runner f).worker = some w) :
    s.sharesGroup f c = true ↔ ∃ g ∈ s.held w, f ∈ g ∧ c ∈ g := by
  simp [sharesGroup, hw]

theorem step_samePlaces {s s' : State} {op : Op} (hop : op.IsTask) (h : step E s op = .ok s') :
    SamePlaces s s' := by
  cases step_effect h with
  | tasks _ h _ => exact h
  | _ => exact hop.elim

theorem SameBooks.lock {s s' : State} (h : SameBooks s s') (r : RunnerId) :
    s'.lock (s'.runner r).worker = s.lock (s.runner r).worker := by
  rw [State.lock, h.pointer, h.workers]
  rfl

theorem addSubTaskRunner_stacks {f c : RunnerId} {b ok : Bool} {w : WorkerId} {s s' : State}
    (hw : s.lock (s.runner f).worker = some w) (h : s.addSubTaskRunner f c b = .ok (ok, s')) :
    ok = true ∧ (s'.runner f).hasSubRunner = true ∧ s'.lock (s'.runner f).worker = some w ∧
      Worker.Appends f c (s.held w) (s'.held w) := by
  have hflag : ok = true ∧ (s'.runner f).hasSubRunner = true := by
    simp only [addSubTaskRunner, hw] at h
    obtain ⟨x, -, h⟩ := bind_eq_ok.mp h
    cases h
    exact ⟨rfl, by simp [modifyRunner]⟩
  rcases addSubTaskRunner_cases h with ⟨hnone, -⟩ | ⟨v, gs, hv, hpush, hbooks, -, hheld⟩
  · rw [hw] at hnone
    cases hnone
  · rw [hw] at hv
    cases hv
    refine ⟨hflag.1, hflag.2, (hbooks.lock f).trans hw, ?_⟩
    rw [hheld, Function.update_self]
    exact Worker.appends_of_pushChild hpush

/-- With its flag set, a runner with a worker has `c` erased there and the flag
cleared. -/
theorem removeSubTaskRunner_set {f c : RunnerId} {w : WorkerId} {s : State}
    (hflag : (s.runner f).hasSubRunner = true) (hw : s.lock (s.runner f).worker = some w) :
    (s.removeSubTaskRunner f c).1 = true ∧
      ((s.removeSubTaskRunner f c).2.runner f).hasSubRunner = false ∧
      (s.removeSubTaskRunner f c).2.lock ((s.removeSubTaskRunner f c).2.runner f).worker = some w ∧
      (s.removeSubTaskRunner f c).2.held w = Worker.erased c (s.held w) := by
  rcases removeSubTaskRunner_cases s f c with ⟨hr, -⟩ | ⟨v, -, hv, hbooks, -, hheld⟩
  · simp [hflag, hw] at hr
  · rw [hw] at hv
    cases hv
    refine ⟨?_, ?_, (hbooks.lock f).trans hw, by rw [hheld, Function.update_self]⟩
    · simp [removeSubTaskRunner, hflag, hw]
    · simp [removeSubTaskRunner, hflag, hw, modifyRunner, modifyWorker]

end State

/-- A call made through one runner, or a step of the system that posts, takes or
finishes a task. -/
inductive StackCall where
  | addSubTaskRunner (sub : RunnerId) (isTaskRunning : Bool)
  | removeSubTaskRunner (sub : RunnerId)
  | task (op : Op) (h : op.IsTask)

/-- The state with the books a caller would keep. -/
structure StackState where
  state : State
  /-- The runners added and not removed. -/
  subs : List RunnerId := []
  /-- `RemoveSubTaskRunner` returned true for another one. -/
  stray : Bool := false

namespace StackState

variable (E : Env) (f : RunnerId)

/-- The calls are made on `f`, with distinct sub runners. -/
def step (t : StackState) : StackCall → Except Fault StackState
  | .addSubTaskRunner sub isTaskRunning =>
    if sub = f ∨ sub ∈ t.subs then .error .stranger
    else do
      let (ok, s) ← t.state.addSubTaskRunner f sub isTaskRunning
      return { t with state := s, subs := if ok then sub :: t.subs else t.subs }
  | .removeSubTaskRunner sub =>
    let (ok, s) := t.state.removeSubTaskRunner f sub
    let stacked := t.subs.contains sub && t.state.sharesGroup f sub
    .ok {
      state := s
      subs := if ok then t.subs.erase sub else t.subs
      stray := t.stray || ok && !stacked }
  | .task op _ => do
    let s ← Footstone.step E t.state op
    return { t with state := s }

/-- The flag is set exactly while an added runner is in the group of `f`, and no
other runner was removed. -/
def Counts (t : StackState) : Prop :=
  t.stray = false ∧ (t.state.runner f).hasSubRunner = t.subs.any fun c => t.state.sharesGroup f c

instance (t : StackState) : Decidable (t.Counts f) := inferInstanceAs (Decidable (_ ∧ _))

/-- A runner is removed only when it is the only one, or when there is none. -/
def LastOnly (t : StackState) : StackCall → Prop
  | .removeSubTaskRunner sub => t.subs = [] ∨ t.subs = [sub]
  | _ => True

instance (t : StackState) (c : StackCall) : Decidable (t.LastOnly c) := by
  cases c <;> unfold LastOnly <;> infer_instance

/-- `f` has its worker and one group, with the added runners in it. -/
structure Bound (w : WorkerId) (t : StackState) : Prop where
  lock : t.state.lock (t.state.runner f).worker = some w
  group : ∃ g, (t.state.held w).filter (f ∈ ·) = [g] ∧ ∀ c ∈ t.subs, c ∈ g
  nodup : t.subs.Nodup
  notSelf : f ∉ t.subs

variable {E f} {w : WorkerId} {t t' : StackState}

theorem Bound.shares (h : t.Bound f w) {c : RunnerId} (hc : c ∈ t.subs) :
    t.state.sharesGroup f c = true := by
  obtain ⟨g, hg, hsubs⟩ := h.group
  have hmem : g ∈ (t.state.held w).filter (f ∈ ·) := by simp [hg]
  obtain ⟨hheld, hf⟩ := List.mem_filter.mp hmem
  exact (State.sharesGroup_iff h.lock).mpr ⟨g, hheld, by simpa using hf, hsubs c hc⟩

/-- While `f` is bound, all that is added is in its group. -/
theorem Bound.counts_iff (h : t.Bound f w) :
    t.Counts f ↔ t.stray = false ∧ ((t.state.runner f).hasSubRunner = true ↔ t.subs ≠ []) := by
  have hany : (t.subs.any fun c => t.state.sharesGroup f c) = true ↔ t.subs ≠ [] := by
    rw [List.any_eq_true]
    constructor
    · rintro ⟨c, hc, -⟩
      exact List.ne_nil_of_mem hc
    · intro hne
      obtain ⟨c, hc⟩ := List.exists_mem_of_ne_nil _ hne
      exact ⟨c, hc, h.shares hc⟩
  refine and_congr_right fun _ => ?_
  rw [Bool.eq_iff_iff, hany]

theorem step_add {sub : RunnerId} {b : Bool} (h : t.Bound f w)
    (hs : step E f t (.addSubTaskRunner sub b) = .ok t') :
    t'.Bound f w ∧ t'.stray = t.stray ∧ t'.subs = sub :: t.subs ∧
      (t'.state.runner f).hasSubRunner = true := by
  simp only [step] at hs
  split at hs
  · cases hs
  · rename_i hsub
    obtain ⟨hself, hnew⟩ := not_or.mp hsub
    obtain ⟨⟨ok, s⟩, hadd, hs⟩ := bind_eq_ok.mp hs
    obtain ⟨rfl, hflag, hlock, happ⟩ := State.addSubTaskRunner_stacks h.lock hadd
    cases hs
    obtain ⟨g, hg, hsubs⟩ := h.group
    refine ⟨⟨hlock, ⟨g ++ [sub], happ.filter hg, ?_⟩, ?_, ?_⟩, rfl, rfl, hflag⟩
    · refine List.forall_mem_cons.mpr ⟨by simp, fun c hc => ?_⟩
      exact List.mem_append_left _ (hsubs c hc)
    · exact List.nodup_cons.mpr ⟨hnew, h.nodup⟩
    · exact fun hf => (List.mem_cons.mp hf).elim (fun e => hself e.symm) h.notSelf

theorem step_task {op : Op} {hop : op.IsTask} (h : t.Bound f w)
    (hs : step E f t (.task op hop) = .ok t') :
    t'.Bound f w ∧ t'.stray = t.stray ∧ t'.subs = t.subs ∧
      (t'.state.runner f).hasSubRunner = (t.state.runner f).hasSubRunner := by
  obtain ⟨s, hstep, hs⟩ := bind_eq_ok.mp hs
  cases hs
  have hplaces := State.step_samePlaces hop hstep
  obtain ⟨g, hg, hsubs⟩ := h.group
  refine ⟨⟨(hplaces.lock f).trans h.lock, ⟨g, ?_, hsubs⟩, h.nodup, h.notSelf⟩, rfl, rfl,
    congrFun (State.step_flags hop hstep) f⟩
  have hperm := (hplaces.held w).filter (f ∈ ·)
  rw [hg] at hperm
  exact List.perm_singleton.mp hperm

theorem step_remove_unset {sub : RunnerId} (hflag : (t.state.runner f).hasSubRunner = false)
    (hs : step E f t (.removeSubTaskRunner sub) = .ok t') : t' = t := by
  have hrem : t.state.removeSubTaskRunner f sub = (false, t.state) := by
    simp [State.removeSubTaskRunner, hflag]
  simp only [step, hrem] at hs
  cases hs
  simp

theorem step_remove_set {sub : RunnerId} (h : t.Bound f w)
    (hflag : (t.state.runner f).hasSubRunner = true)
    (hs : step E f t (.removeSubTaskRunner sub) = .ok t') :
    t'.subs = t.subs.erase sub ∧ (t'.state.runner f).hasSubRunner = false ∧
      (sub ∉ t.subs → t'.stray = true) ∧
      (sub ∈ t.subs → t'.stray = t.stray ∧ t'.Bound f w) := by
  obtain ⟨hok, hclear, hlock, hheld⟩ := State.removeSubTaskRunner_set (c := sub) hflag h.lock
  simp only [step, hok] at hs
  cases hs
  refine ⟨rfl, hclear, fun hsub => by simp [hsub], fun hsub => ⟨by simp [hsub, h.shares hsub], ?_⟩⟩
  have hne : f ≠ sub := fun e => h.notSelf (e ▸ hsub)
  obtain ⟨g, hg, hsubs⟩ := h.group
  have hgroups := Worker.erased_filter hne (t.state.held w)
  rw [hg, ← hheld] at hgroups
  -- The one group of `f` is still the only one.
  obtain ⟨g', rest, hkept, hrest, hg'⟩ := List.forall₂_cons_left_iff.mp hgroups
  obtain rfl := List.forall₂_nil_left_iff.mp hrest
  refine ⟨hlock, ⟨g', hg', fun c hc => ?_⟩, h.nodup.erase _, ?_⟩
  · obtain ⟨hcs, hc⟩ := h.nodup.mem_erase_iff.mp hc
    exact (hkept c hcs).mp (hsubs c hc)
  · exact fun hf => h.notSelf (List.mem_of_mem_erase hf)

/-- One call keeps the flag right exactly when it does not remove one of several
runners, or a stranger. -/
theorem step_counts_iff {c : StackCall} (h : t.Bound f w) (hc : t.Counts f)
    (hs : step E f t c = .ok t') : t'.Counts f ↔ t.LastOnly c := by
  obtain ⟨hstray, hflag⟩ := h.counts_iff.mp hc
  cases c with
  | addSubTaskRunner sub b =>
    obtain ⟨h', hstray', hsubs, hflag'⟩ := step_add h hs
    rw [h'.counts_iff, hstray', hsubs, hflag']
    simp [LastOnly, hstray]
  | task op hop =>
    obtain ⟨h', hstray', hsubs, hflag'⟩ := step_task h hs
    rw [h'.counts_iff, hstray', hsubs, hflag']
    simp [LastOnly, hstray, hflag]
  | removeSubTaskRunner sub =>
    by_cases hnone : t.subs = []
    · have hunset : (t.state.runner f).hasSubRunner = false := by simpa [hnone] using hflag
      rw [step_remove_unset hunset hs]
      exact ⟨fun _ => Or.inl hnone, fun _ => hc⟩
    · obtain ⟨hsubs, hclear, hstrange, hmine⟩ := step_remove_set h (hflag.mpr hnone) hs
      by_cases hsub : sub ∈ t.subs
      · obtain ⟨hstray', h'⟩ := hmine hsub
        rw [h'.counts_iff, hstray', hsubs, hclear]
        simp [LastOnly, hstray, hnone, List.erase_eq_nil_iff]
      · have hlast : ¬ t.LastOnly (.removeSubTaskRunner sub) := by
          rintro (he | he)
          · exact hnone he
          · exact hsub (by simp [he])
        refine iff_of_false (fun hc' => ?_) hlast
        have hkept := hc'.1
        rw [hstrange hsub] at hkept
        cases hkept

/-- The runner stays bound while the condition is met. -/
theorem step_bound {c : StackCall} (h : t.Bound f w) (hc : t.Counts f) (hcond : t.LastOnly c)
    (hs : step E f t c = .ok t') : t'.Bound f w := by
  cases c with
  | addSubTaskRunner sub b => exact (step_add h hs).1
  | task op hop => exact (step_task h hs).1
  | removeSubTaskRunner sub =>
    obtain ⟨-, hflag⟩ := h.counts_iff.mp hc
    rcases hcond with hnone | hlast
    · have hunset : (t.state.runner f).hasSubRunner = false := by simpa [hnone] using hflag
      rw [step_remove_unset hunset hs]
      exact h
    · have hset : (t.state.runner f).hasSubRunner = true := hflag.mpr (by simp [hlast])
      obtain ⟨-, -, -, hmine⟩ := step_remove_set h hset hs
      exact (hmine (by simp [hlast])).2

end StackState

/-- **One flag for all sub runners.** Along a sequence of calls made through a
runner in one group of its worker, with distinct sub runners and tasks in between,
the flag is right after every call exactly when a runner is removed only while no
other one is stacked. -/
theorem stack_counts_iff {E : Env} {f : RunnerId} {w : WorkerId} {g : Group} {s : State}
    (hw : s.lock (s.runner f).worker = some w) (hg : (s.held w).filter (f ∈ ·) = [g])
    (hflag : (s.runner f).hasSubRunner = false) (calls : List StackCall) :
    Always (StackState.step E f) (StackState.Counts f) { state := s } calls ↔
      Meets (StackState.step E f) StackState.LastOnly { state := s } calls := by
  have hbound : StackState.Bound f w { state := s } :=
    ⟨hw, ⟨g, hg, by simp⟩, List.nodup_nil, by simp⟩
  refine always_iff_meets_under (A := fun _ => True) (J := StackState.Bound f w) ?_ ?_
    (fun _ _ => trivial) hbound (hbound.counts_iff.mpr (by simp [hflag]))
  · exact fun t c t' _ h hc hcond hs => StackState.step_bound h hc hcond hs
  · exact fun t c t' _ h hc hs => StackState.step_counts_iff h hc hs

/-- Two runners stacked one after the other, with a task in between. -/
theorem stack_counts_one_by_one : Always (StackState.step .debug 0) (StackState.Counts 0)
    { state := last (step .debug) (State.new .debug 1) [.createTaskRunner 0 1 true] }
    [.addSubTaskRunner 1 true, .task (.postTask 0 (some ⟨1⟩)) trivial, .removeSubTaskRunner 1,
      .addSubTaskRunner 2 false, .removeSubTaskRunner 2] :=
  (stack_counts_iff (w := 0) (g := [0]) (by decide) (by decide) (by decide) _).mpr (by decide)

/-- Two runners stacked, and the upper one removed: the flag says that none is
left. -/
theorem stacked_runner_forgotten : ¬ Always (StackState.step .debug 0) (StackState.Counts 0)
    { state := last (step .debug) (State.new .debug 1) [.createTaskRunner 0 1 true] }
    [.addSubTaskRunner 1 false, .addSubTaskRunner 2 false, .removeSubTaskRunner 2] := by
  decide

end Footstone
