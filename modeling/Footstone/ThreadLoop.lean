import Footstone.Lib.Variant
import Footstone.RunLoop
import Footstone.Stacking

/-!
The loops around `RunTask` on the thread of a `ThreadWorker`: `Worker::Run`, `RunLoop` of
either kind, and the loop of `AddSubTaskRunner`, which a task may run inside its body, to any
depth. What goes on inside `RunTask` is that of `Loop`, but for the end of `GetNextTask`, where
`WaitFor` has a test of its own before it waits.
-/

namespace Footstone

open Runs

/-- What the thread is about to do. -/
inductive Place where
  /-- The test of `Worker::Run`. -/
  | run
  /-- The condition of the innermost loop. -/
  | condition
  /-- The next access of `RunTask`, or of the body it is in. -/
  | inside
  /-- The test of `WaitFor`. -/
  | waitTest
  /-- Nothing, until its wait ends. -/
  | asleep
  deriving DecidableEq

/-- A task that was started: whether the worker was terminated by then, and whether it was a loop
inside of another task that started it. -/
structure Start where
  terminated : Bool
  idle : Bool
  nested : Bool
  deriving DecidableEq

/-- The thread of a worker. The last field is not in the source. -/
structure ThreadLoop (τ : Type) where
  loop : Loop τ
  isExitImmediately : Bool := true
  place : Place := .run
  /-- The bodies that are in the loop of an `AddSubTaskRunner`, innermost first, each with the
  runner of that call. -/
  calls : List (Option (RunnerId × Task) × RunnerId) := []
  started : List Start := []

inductive ThreadLoopOp (τ : Type) where
  | run
  | condition
  /-- An access of `RunTask`, or of another thread. -/
  | access (op : LoopOp τ)
  | waitTest
  | wake
  /-- `AddSubTaskRunner(sub, true)` of the runner `r`, up to its loop. -/
  | addSubTaskRunner (r sub : RunnerId)
  | removeSubTaskRunner (r sub : RunnerId)

namespace ThreadLoop

variable {τ : Type} [DecidableEq τ] (E : Env)

/-- A thread that is about to run. -/
def new (loop : Loop τ) (isExitImmediately : Bool) : ThreadLoop τ :=
  { loop := { loop with pc := .atTop }, isExitImmediately := isExitImmediately }

def goTo (place : Place) (pc : LoopPc) (s : ThreadLoop τ) : ThreadLoop τ :=
  { s with place := place, loop := { s.loop with pc := pc } }

/-- What the thread does next after an access of `RunTask`. -/
def placeOf : LoopPc → Place
  | .waiting => .waitTest
  | .atTop => .condition
  | _ => .inside

def after (idle : Bool) (s : ThreadLoop τ) (loop : Loop τ) : ThreadLoop τ :=
  { s with
    loop := loop
    place := placeOf loop.pc
    started := match loop.pc with
      | .inTask _ =>
        { terminated := loop.worker.isTerminated, idle := idle, nested := !s.calls.isEmpty }
          :: s.started
      | _ => s.started }

/-- The tasks that `RunLoop` itself has started. -/
def own (s : ThreadLoop τ) : List Start := s.started.filter fun e => !e.nested

def testCondition (s : ThreadLoop τ) : ThreadLoop τ :=
  match s.calls with
  -- `while (RunTask()) {}` has nothing else to test.
  | [] =>
    if s.isExitImmediately ∧ s.loop.worker.isTerminated then s.goTo .inside .returned
    else { s with place := .inside }
  | (task, r) :: calls =>
    if (s.loop.runner r).hasSubRunner then { s with place := .inside }
    else { s.goTo .inside (.inTask task) with calls := calls }

/-- The end of a `RunTask` without a task. Only one loop looks at what it returns. -/
def testRun (s : ThreadLoop τ) : ThreadLoop τ :=
  if s.loop.worker.isTerminated ∧ !s.isExitImmediately ∧ s.calls.isEmpty then
    s.goTo .inside .returned
  else s.goTo .condition .atTop

def access (s : ThreadLoop τ) (op : LoopOp τ) : Except Fault (ThreadLoop τ) :=
  match op with
  | .push .. | .ret _ | .callTerminate | .setTerminated => do
    let loop ← s.loop.step E op
    return { s with loop := loop }
  | .begin _ | .scan _ | .finish _ =>
    match s.place with
    | .inside => do
      let loop ← s.loop.step E op
      return s.after false loop
    | _ => .error .stranger
  | .testNext =>
    match s.place with
    | .inside => do
      let loop ← s.loop.step E op
      return s.after true loop
    | _ => .error .stranger
  | .testRun =>
    match s.place, s.loop.pc with
    | .inside, .noTask => .ok s.testRun
    | _, _ => .error .stranger
  -- The end of a wait is a step of its own here.
  | .wake => .error .stranger

def step (s : ThreadLoop τ) : ThreadLoopOp τ → Except Fault (ThreadLoop τ)
  | .run =>
    match s.place with
    | .run =>
      .ok (if s.loop.worker.isTerminated then s.goTo .inside .returned
        else { s with place := .condition })
    | _ => .error .stranger
  | .condition =>
    match s.place with
    | .condition => .ok s.testCondition
    | _ => .error .stranger
  | .access op => s.access E op
  | .waitTest =>
    match s.place with
    | .waitTest =>
      .ok (if s.loop.worker.isTerminated then s.goTo .inside .noTask else { s with place := .asleep })
    | _ => .error .stranger
  | .wake =>
    match s.place with
    | .asleep => .ok (s.goTo .inside .noTask)
    | _ => .error .stranger
  | .addSubTaskRunner r sub =>
    match s.place, s.loop.pc with
    | .inside, .inTask task => do
      let worker ← s.loop.worker.bindGroup r sub
      let runner := Function.update s.loop.runner r { s.loop.runner r with hasSubRunner := true }
      return { s with
        loop := { s.loop with
          runner := runner, worker := { worker with isStackingMode := true }, pc := .atTop }
        place := .condition
        calls := (task, r) :: s.calls }
    | _, _ => .error .stranger
  | .removeSubTaskRunner r sub =>
    if (s.loop.runner r).hasSubRunner then .ok { s with loop := { s.loop with
      runner := Function.update s.loop.runner r { s.loop.runner r with hasSubRunner := false }
      worker := s.loop.worker.unBind sub } }
    else .ok s

end ThreadLoop

/-! ## What an access of `RunTask` does -/

/-- What the thread has still to do in a `RunTask`, at most, on a worker with `n` groups. -/
def LoopPc.weight (n : Nat) : LoopPc → Nat
  | .atTop => n + 5
  | .scanning _ rest _ => rest.length + 4
  | .waiting => 3
  | .noTask | .inTask _ => 2
  | .returned => 0

namespace Loop

variable {τ : Type} {E : Env} {s s' : Loop τ}

/-- An access of `GetNextTask`. It comes before the body of a task and before the end of a
`RunTask`, and leaves less to do. -/
structure Looks (s s' : Loop τ) : Prop where
  isTerminated : s'.worker.isTerminated = s.worker.isTerminated
  groups : s'.worker.held.length = s.worker.held.length
  before : (∀ task, s.pc ≠ .inTask task) ∧ s.pc ≠ .returned
  stays : s'.pc ≠ .atTop ∧ s'.pc ≠ .returned
  waits : s'.pc = .waiting → s.worker.isTerminated = true
  weight : s'.pc.weight s.worker.held.length < s.pc.weight s.worker.held.length

theorem beginNext_looks {now : TimePoint} (hpc : s.pc = .atTop) (h : s.beginNext now = .ok s') :
    Looks s s' := by
  have hbefore : (∀ task, s.pc ≠ .inTask task) ∧ s.pc ≠ .returned := by simp [hpc]
  unfold beginNext at h
  split at h
  · cases h
    refine ⟨rfl, rfl, hbefore, by simp [enter], nofun, ?_⟩
    rw [hpc]
    show 2 < s.worker.held.length + 5
    omega
  · obtain ⟨groups, hsort, h⟩ := bind_eq_ok.mp h
    obtain ⟨⟨runner, worker⟩, hb, h⟩ := bind_eq_ok.mp h
    cases h
    have hkeeps := (Worker.sortStage_keeps hsort).trans (Worker.balanceStage_keeps hb)
    have hlength := hkeeps.held.length_eq
    refine ⟨hkeeps.isTerminated, hlength, hbefore, by simp, nofun, ?_⟩
    rw [hpc]
    show worker.runningGroups.length + 4 < s.worker.held.length + 5
    rw [Worker.held, List.length_append] at hlength
    omega

theorem scanNext_looks {clock now : TimePoint} {g : Group} {rest : List Group}
    {idleTask : Option (RunnerId × IdleTask)} (hpc : s.pc = .scanning now (g :: rest) idleTask)
    (h : s.scanNext E clock now g rest idleTask = .ok s') : Looks s s' := by
  have hbefore : (∀ task, s.pc ≠ .inTask task) ∧ s.pc ≠ .returned := by simp [hpc]
  obtain ⟨⟨found, st⟩, hscan, h⟩ := bind_eq_ok.mp h
  obtain ⟨hkeeps, -, -, -⟩ := Worker.scanGroups_keeps hscan
  have hlength := hkeeps.held.length_eq
  cases found with
  | some task =>
    cases h
    refine ⟨hkeeps.isTerminated, hlength, hbefore, by simp [enter], nofun, ?_⟩
    rw [hpc]
    show 2 < (g :: rest).length + 4
    omega
  | none =>
    cases h
    refine ⟨hkeeps.isTerminated, hlength, hbefore, by simp, nofun, ?_⟩
    rw [hpc]
    show rest.length + 4 < (g :: rest).length + 4
    rw [List.length_cons]
    omega

/-- The test at the end of `GetNextTask`: an idle task is only for a worker that is
terminated. -/
theorem leave_looks {now : TimePoint} {idleTask : Option (RunnerId × IdleTask)}
    (hpc : s.pc = .scanning now [] idleTask) :
    let st : Worker.Scan := { runner := s.runner, worker := s.worker, idleTask := idleTask }
    Looks s (s.leave (Worker.outcome none st)) ∧
      ∀ task, (s.leave (Worker.outcome none st)).pc = .inTask task →
        s.worker.isTerminated = true := by
  have hbefore : (∀ task, s.pc ≠ .inTask task) ∧ s.pc ≠ .returned := by simp [hpc]
  intro st
  cases hflag : s.worker.isTerminated with
  | false =>
    have hout : Worker.outcome none st = .nullptr := by simp [Worker.outcome, st, hflag]
    rw [hout]
    refine ⟨⟨rfl, rfl, hbefore, by simp [leave, LoopPc.after], nofun, ?_⟩, nofun⟩
    rw [hpc]
    exact (by decide : 2 < 4)
  | true =>
    refine ⟨?_, fun _ _ => rfl⟩
    cases idleTask with
    | some idle =>
      have hout : Worker.outcome none st = .idle idle.1 idle.2 s.worker.minWaitTime := by
        simp [Worker.outcome, st, hflag]
      rw [hout]
      refine ⟨rfl, rfl, hbefore, by simp [leave, LoopPc.after, enter], fun _ => hflag, ?_⟩
      rw [hpc]
      exact (by decide : 2 < 4)
    | none =>
      have hout : Worker.outcome none st = .waited s.worker.minWaitTime := by
        simp [Worker.outcome, st, hflag]
      rw [hout]
      refine ⟨rfl, rfl, hbefore, by simp [leave, LoopPc.after], fun _ => hflag, ?_⟩
      rw [hpc]
      exact (by decide : 3 < 4)

end Loop

/-- An access of the worker's own thread. -/
def LoopOp.isOwn {τ : Type} : LoopOp τ → Bool
  | .push .. | .ret _ | .callTerminate | .setTerminated => false
  | _ => true

namespace ThreadLoop

variable {τ : Type} {s s' : ThreadLoop τ}

/-- What an access does to the thread. -/
inductive Effect (s : ThreadLoop τ) : LoopOp τ → ThreadLoop τ → Prop where
  | other {op : LoopOp τ} {loop : Loop τ} (hop : op.isOwn = false) (hpc : loop.pc = s.loop.pc)
      (hflag : s.loop.worker.isTerminated = true → loop.worker.isTerminated = true)
      (hgroups : loop.worker.held = s.loop.worker.held) : Effect s op { s with loop := loop }
  | looks {op : LoopOp τ} {loop : Loop τ} {idle : Bool} (hplace : s.place = .inside)
      (hlooks : s.loop.Looks loop)
      (hidle : idle = true → ∀ task, loop.pc = .inTask task → s.loop.worker.isTerminated = true) :
      Effect s op (s.after idle loop)
  | finish {op : LoopOp τ} {loop : Loop τ} {task : Option (RunnerId × Task)}
      (hplace : s.place = .inside) (hpc : s.loop.pc = .inTask task) (hpc' : loop.pc = .atTop)
      (hflag : loop.worker.isTerminated = s.loop.worker.isTerminated)
      (hgroups : loop.worker.held = s.loop.worker.held) : Effect s op (s.after false loop)
  | testRun (hplace : s.place = .inside) (hpc : s.loop.pc = .noTask) : Effect s .testRun s.testRun

variable [DecidableEq τ] {E : Env} {op : LoopOp τ}

omit [DecidableEq τ] in
/-- What the thread does inside of `RunTask` only. -/
theorem inside_eq_ok {x : Except Fault (Loop τ)} {f : Loop τ → ThreadLoop τ}
    (h : (match s.place with
      | .inside => do
        let loop ← x
        return f loop
      | _ => .error .stranger) = .ok s') :
    s.place = .inside ∧ ∃ loop, x = .ok loop ∧ f loop = s' := by
  split at h
  · rename_i hplace
    obtain ⟨loop, hx, h⟩ := bind_eq_ok.mp h
    exact ⟨hplace, loop, hx, Except.ok.inj h⟩
  · cases h

theorem access_effect (h : s.access E op = .ok s') : s.Effect op s' := by
  cases op with
  | push t r task =>
    obtain ⟨loop, hloop, h⟩ := bind_eq_ok.mp h
    cases h
    simp only [Loop.step] at hloop
    split at hloop
    · cases hloop
      exact .other rfl rfl id rfl
    · cases hloop
  | ret t =>
    obtain ⟨loop, hloop, h⟩ := bind_eq_ok.mp h
    cases h
    simp only [Loop.step] at hloop
    split at hloop
    · cases hloop
    · cases hloop
      exact .other rfl rfl id rfl
  | callTerminate =>
    obtain ⟨loop, hloop, h⟩ := bind_eq_ok.mp h
    cases h
    simp only [Loop.step] at hloop
    split at hloop
    · cases hloop
    · cases hloop
      exact .other rfl rfl id rfl
  | setTerminated =>
    obtain ⟨loop, hloop, h⟩ := bind_eq_ok.mp h
    cases h
    simp only [Loop.step] at hloop
    split at hloop
    · cases hloop
      exact .other rfl rfl (fun _ => rfl) rfl
    · cases hloop
  | begin now =>
    obtain ⟨hplace, loop, hloop, rfl⟩ := inside_eq_ok h
    simp only [Loop.step] at hloop
    split at hloop
    · rename_i hpc
      exact .looks hplace (Loop.beginNext_looks hpc hloop) (by simp)
    · cases hloop
  | scan clock =>
    obtain ⟨hplace, loop, hloop, rfl⟩ := inside_eq_ok h
    simp only [Loop.step] at hloop
    split at hloop
    · rename_i hpc
      exact .looks hplace (Loop.scanNext_looks hpc hloop) (by simp)
    · cases hloop
  | testNext =>
    obtain ⟨hplace, loop, hloop, rfl⟩ := inside_eq_ok h
    simp only [Loop.step] at hloop
    split at hloop
    · rename_i hpc
      cases hloop
      obtain ⟨hlooks, hidle⟩ := Loop.leave_looks hpc
      exact .looks hplace hlooks fun _ => hidle
    · cases hloop
  | finish elapsed =>
    obtain ⟨hplace, loop, hloop, rfl⟩ := inside_eq_ok h
    simp only [Loop.step] at hloop
    split at hloop
    · rename_i hpc
      cases hloop
      exact .finish hplace hpc rfl rfl rfl
    · cases hloop
  | testRun =>
    simp only [access] at h
    split at h
    · rename_i hplace hpc
      cases h
      exact .testRun hplace hpc
    · cases h
  | wake => cases h

/-! ## The last task -/

/-- The `RunTask` that `RunLoop` has called is at the body of its task or behind it. -/
def Past (s : ThreadLoop τ) : Prop :=
  s.calls ≠ [] ∨ s.place = .condition ∨ (∃ task, s.loop.pc = .inTask task) ∨ s.loop.pc = .returned

/-- `RunLoop` has started nothing since the flag was set, or one task, and will not start
another. -/
def LastStarted (s : ThreadLoop τ) : Prop :=
  (∀ e ∈ s.own, e.terminated = false) ∨
    s.loop.worker.isTerminated = true ∧ s.Past ∧ ∀ e ∈ s.own.tail, e.terminated = false

/-- What is known of the thread. -/
structure Inv (s : ThreadLoop τ) : Prop where
  waitTest : s.place = .waitTest → s.loop.pc = .waiting ∧ s.loop.worker.isTerminated = true
  awake : s.place ≠ .asleep
  idle : ∀ e ∈ s.started, e.idle = true → e.terminated = true
  last : s.isExitImmediately = true → s.LastStarted

omit [DecidableEq τ] in
/-- A step in which `RunLoop` starts no task. -/
theorem LastStarted.keep (h : s.LastStarted) (hown : s'.own = s.own)
    (hflag : s.loop.worker.isTerminated = true → s'.loop.worker.isTerminated = true)
    (hpast : s.Past → s'.Past) : s'.LastStarted := by
  rw [LastStarted, hown]
  exact h.imp_right fun ⟨hterm, hp, htail⟩ => ⟨hflag hterm, hpast hp, htail⟩

omit [DecidableEq τ] in
theorem placeOf_waitTest {pc : LoopPc} (h : placeOf pc = .waitTest) : pc = .waiting := by
  cases pc <;> first | rfl | cases h

omit [DecidableEq τ] in
theorem placeOf_ne_asleep (pc : LoopPc) : placeOf pc ≠ .asleep := by
  cases pc <;> nofun

omit [DecidableEq τ] in
/-- What an access adds to the tasks that were started. -/
theorem after_started (s : ThreadLoop τ) (idle : Bool) (loop : Loop τ) :
    (∃ task, loop.pc = .inTask task ∧ (s.after idle loop).started =
      { terminated := loop.worker.isTerminated, idle := idle, nested := !s.calls.isEmpty } ::
        s.started) ∨
    ((∀ task, loop.pc ≠ .inTask task) ∧ (s.after idle loop).started = s.started) := by
  simp only [after]
  split
  · rename_i task hpc
    exact Or.inl ⟨task, hpc, rfl⟩
  · rename_i hne
    exact Or.inr ⟨hne, rfl⟩

omit [DecidableEq τ] in
/-- In a loop inside of a task it is not `RunLoop` that starts one. -/
theorem own_nested (hcalls : s.calls ≠ []) (idle : Bool) (loop : Loop τ) :
    (s.after idle loop).own = s.own := by
  rcases s.after_started idle loop with ⟨task, -, heq⟩ | ⟨-, heq⟩
  · rw [own, own, heq, List.filter_cons_of_neg]
    simpa using hcalls
  · rw [own, own, heq]

omit [DecidableEq τ] in
theorem Inv.looks (h : s.Inv) {loop : Loop τ} {idle : Bool} (hplace : s.place = .inside)
    (hlooks : s.loop.Looks loop)
    (hidle : idle = true → ∀ task, loop.pc = .inTask task → s.loop.worker.isTerminated = true) :
    (s.after idle loop).Inv where
  waitTest hw := by
    have hpc := placeOf_waitTest hw
    exact ⟨hpc, hlooks.isTerminated.trans (hlooks.waits hpc)⟩
  awake := placeOf_ne_asleep loop.pc
  idle e he hi := by
    rcases s.after_started idle loop with ⟨task, hpc, heq⟩ | ⟨-, heq⟩
    · rw [heq] at he
      rcases List.mem_cons.mp he with rfl | he
      · exact hlooks.isTerminated.trans (hidle hi task hpc)
      · exact h.idle e he hi
    · rw [heq] at he
      exact h.idle e he hi
  last hexit := by
    have hold := h.last hexit
    by_cases hcalls : s.calls = []
    · -- The `RunTask` of `RunLoop` is not at a body yet.
      have hpast : ¬ s.Past := by
        rintro (hne | hcond | ⟨task, hpc⟩ | hpc)
        · exact hne hcalls
        · rw [hplace] at hcond
          cases hcond
        · exact hlooks.before.1 task hpc
        · exact hlooks.before.2 hpc
      have hnone : ∀ e ∈ s.own, e.terminated = false :=
        hold.resolve_right fun ⟨_, hp, _⟩ => hpast hp
      rcases s.after_started idle loop with ⟨task, hpc, heq⟩ | ⟨-, heq⟩
      · have hown : (s.after idle loop).own =
            { terminated := loop.worker.isTerminated, idle := idle, nested := false } :: s.own := by
          rw [own, heq, hcalls]
          rfl
        rw [LastStarted, hown]
        cases hflag : loop.worker.isTerminated with
        | false =>
          apply Or.inl
          intro e he
          rcases List.mem_cons.mp he with rfl | he
          · rfl
          · exact hnone e he
        | true => exact Or.inr ⟨hflag, Or.inr (Or.inr (Or.inl ⟨task, hpc⟩)), hnone⟩
      · rw [LastStarted, own, heq]
        exact Or.inl hnone
    · exact hold.keep (own_nested hcalls idle loop) (fun hterm => hlooks.isTerminated.trans hterm)
        fun _ => Or.inl hcalls

omit [DecidableEq τ] in
theorem Inv.effect (h : s.Inv) (he : s.Effect op s') : s'.Inv := by
  cases he with
  | other hop hpc hflag hgroups =>
    refine ⟨fun hw => ?_, h.awake, h.idle, fun hexit => ?_⟩
    · exact ⟨hpc.trans (h.waitTest hw).1, hflag (h.waitTest hw).2⟩
    · refine (h.last hexit).keep rfl hflag fun hp => ?_
      simpa only [Past, hpc] using hp
  | looks hplace hlooks hidle => exact h.looks hplace hlooks hidle
  | @finish _ loop task hplace hpc hpc' hflag hgroups =>
    have hstarted : (s.after false loop).started = s.started := by
      simp only [after, hpc']
    have hcond : (s.after false loop).place = .condition := by
      simp only [after, hpc', placeOf]
    refine ⟨by simp [hcond], by simp [hcond], fun e he => h.idle e (hstarted ▸ he), fun hexit => ?_⟩
    exact (h.last hexit).keep (by rw [own, own, hstarted]) (fun hterm => hflag.trans hterm) fun _ =>
      Or.inr (Or.inl hcond)
  | testRun hplace hpc =>
    rw [testRun]
    split
    · rename_i hleaves
      refine ⟨nofun, nofun, h.idle, fun hexit => ?_⟩
      have hgraceful := hleaves.2.1
      rw [show s.isExitImmediately = true from hexit] at hgraceful
      cases hgraceful
    · exact ⟨nofun, nofun, h.idle, fun hexit => (h.last hexit).keep rfl id fun _ =>
        Or.inr (Or.inl rfl)⟩

/-- `AddSubTaskRunner` up to its loop. -/
theorem addSubTaskRunner_inv {r sub : RunnerId}
    (hs : s.step E (.addSubTaskRunner r sub) = .ok s') :
    s'.calls ≠ [] ∧ s'.place = .condition ∧ s'.started = s.started ∧
      s'.isExitImmediately = s.isExitImmediately ∧
      s'.loop.worker.isTerminated = s.loop.worker.isTerminated := by
  simp only [step] at hs
  split at hs
  · obtain ⟨worker, hb, hs⟩ := bind_eq_ok.mp hs
    cases hs
    refine ⟨by simp, rfl, rfl, rfl, ?_⟩
    rcases s.loop.worker.bindGroup_cases r sub with ⟨gs, heq, -⟩ | ⟨-, gs, heq, -⟩ | ⟨-, heq⟩
    · rw [heq] at hb
      cases hb
      rfl
    · rw [heq] at hb
      cases hb
      rfl
    · rw [heq] at hb
      cases hb
  · cases hs

omit [DecidableEq τ] in
theorem testCondition_inv (h : s.Inv) : s.testCondition.Inv := by
  rw [testCondition]
  split
  · split
    · exact ⟨nofun, nofun, h.idle, fun hexit => (h.last hexit).keep rfl id fun _ =>
        Or.inr (Or.inr (Or.inr rfl))⟩
    · rename_i hgoes
      -- The flag was not set when the condition was tested.
      refine ⟨nofun, nofun, h.idle, fun hexit => Or.inl ?_⟩
      exact (h.last hexit).resolve_right fun ⟨hterm, _, _⟩ => hgoes ⟨hexit, hterm⟩
  · rename_i task r calls hcalls
    have hne : s.calls ≠ [] := by simp [hcalls]
    split
    · exact ⟨nofun, nofun, h.idle, fun hexit => (h.last hexit).keep rfl id fun _ => Or.inl hne⟩
    · exact ⟨nofun, nofun, h.idle, fun hexit => (h.last hexit).keep rfl id fun _ =>
        Or.inr (Or.inr (Or.inl ⟨task, rfl⟩))⟩

theorem Inv.step {op : ThreadLoopOp τ} (h : s.Inv) (hs : s.step E op = .ok s') : s'.Inv := by
  cases op with
  | run =>
    simp only [ThreadLoop.step] at hs
    split at hs
    · cases hs
      split
      · exact ⟨nofun, nofun, h.idle, fun hexit => (h.last hexit).keep rfl id fun _ =>
          Or.inr (Or.inr (Or.inr rfl))⟩
      · exact ⟨nofun, nofun, h.idle, fun hexit => (h.last hexit).keep rfl id fun _ =>
          Or.inr (Or.inl rfl)⟩
    · cases hs
  | condition =>
    simp only [ThreadLoop.step] at hs
    split at hs
    · cases hs
      exact testCondition_inv h
    · cases hs
  | access op => exact h.effect (access_effect hs)
  | waitTest =>
    simp only [ThreadLoop.step] at hs
    split at hs
    · rename_i hplace
      obtain ⟨hpc, hflag⟩ := h.waitTest hplace
      rw [if_pos hflag] at hs
      cases hs
      refine ⟨nofun, nofun, h.idle, fun hexit => (h.last hexit).keep rfl id ?_⟩
      rintro (hne | hcond | ⟨task, hpc'⟩ | hpc')
      · exact Or.inl hne
      · rw [hplace] at hcond
        cases hcond
      · rw [hpc] at hpc'
        cases hpc'
      · rw [hpc] at hpc'
        cases hpc'
    · cases hs
  | wake =>
    simp only [ThreadLoop.step] at hs
    split at hs
    · rename_i hplace
      exact absurd hplace h.awake
    · cases hs
  | addSubTaskRunner r sub =>
    obtain ⟨hne, hplace, hstarted, hexit', hflag⟩ := addSubTaskRunner_inv hs
    refine ⟨by simp [hplace], by simp [hplace], fun e he => h.idle e (hstarted ▸ he),
      fun hexit => ?_⟩
    exact (h.last (hexit' ▸ hexit)).keep (by rw [own, own, hstarted])
      (fun hterm => hflag.trans hterm) fun _ => Or.inl hne
  | removeSubTaskRunner r sub =>
    simp only [ThreadLoop.step] at hs
    split at hs
    · cases hs
      have hflag := State.unBind_isTerminated sub s.loop.worker
      refine ⟨fun hw => ⟨(h.waitTest hw).1, hflag.trans (h.waitTest hw).2⟩, h.awake, h.idle,
        fun hexit => ?_⟩
      exact (h.last hexit).keep rfl (fun hterm => hflag.trans hterm) id
    · cases hs
      exact h

omit [DecidableEq τ] in
/-- A thread that is about to run. -/
theorem inv_new (loop : Loop τ) (isExitImmediately : Bool) : (new loop isExitImmediately).Inv :=
  ⟨nofun, nofun, nofun, fun _ => Or.inl nofun⟩

/-- An idle task is run only when the worker is terminated. If it is to exit immediately, no task
but the last one of those that `RunLoop` itself starts is started after that, or is an idle one. -/
structure ExitsImmediately (s : ThreadLoop τ) : Prop where
  idle : ∀ e ∈ s.started, e.idle = true → e.terminated = true
  last : s.isExitImmediately = true → ∀ e ∈ s.own.tail, e.terminated = false ∧ e.idle = false

omit [DecidableEq τ] in
theorem Inv.exitsImmediately (h : s.Inv) : s.ExitsImmediately where
  idle := h.idle
  last hexit e he := by
    have hterm : e.terminated = false := by
      rcases h.last hexit with hnone | ⟨-, -, htail⟩
      · exact hnone e (List.mem_of_mem_tail he)
      · exact htail e he
    refine ⟨hterm, ?_⟩
    cases hi : e.idle with
    | false => rfl
    | true =>
      have hmem : e ∈ s.started := (List.mem_filter.mp (List.mem_of_mem_tail he)).1
      rw [h.idle e hmem hi] at hterm
      cases hterm

/-! ## The way out -/

end ThreadLoop

/-- A step of the worker's own thread. -/
def ThreadLoopOp.isOwn {τ : Type} : ThreadLoopOp τ → Bool
  | .access op => op.isOwn
  | .removeSubTaskRunner .. => false
  | _ => true

/-- A step into the loop of an `AddSubTaskRunner`. -/
def ThreadLoopOp.stacks {τ : Type} : ThreadLoopOp τ → Bool
  | .addSubTaskRunner .. => true
  | _ => false

theorem Worker.erased_length (r : RunnerId) (gs : List Group) :
    (erased r gs).length = gs.length := by
  induction gs with
  | nil => rfl
  | cons g gs ih =>
    rw [erased_cons]
    split
    · rfl
    · rw [List.length_cons, ih, List.length_cons]

namespace ThreadLoop

variable {τ : Type} {s s' : ThreadLoop τ} {E : Env}

/-- What a thread that is to leave has still to do. -/
def weight (s : ThreadLoop τ) : Nat :=
  match s.place with
  | .run | .condition => 1
  | _ => s.loop.pc.weight s.loop.worker.held.length

/-- The thread is terminated, and in no loop but `RunLoop`. -/
structure Leaves (s : ThreadLoop τ) : Prop where
  inv : s.Inv
  exits : s.isExitImmediately = true
  flag : s.loop.worker.isTerminated = true
  calls : s.calls = []

theorem weight_after {loop : Loop τ} (hlooks : s.loop.Looks loop) (hplace : s.place = .inside)
    (idle : Bool) : (s.after idle loop).weight < s.weight := by
  have hs : s.weight = s.loop.pc.weight s.loop.worker.held.length := by rw [weight, hplace]
  -- It is not at the top of a loop, and so the place does not matter.
  have hafter : (s.after idle loop).weight = loop.pc.weight loop.worker.held.length := by
    show (match placeOf loop.pc with
      | .run | .condition => 1
      | _ => loop.pc.weight loop.worker.held.length) = _
    cases hpc : loop.pc with
    | atTop => exact absurd hpc hlooks.stays.1
    | _ => rfl
  rw [hs, hafter, hlooks.groups]
  exact hlooks.weight

/-- The thread goes on, and has as much to do as before or less. -/
theorem Leaves.go (h : s.Leaves) (hinv : s'.Inv)
    (hexits : s'.isExitImmediately = s.isExitImmediately) (hcalls : s'.calls = s.calls)
    (hflag : s'.loop.worker.isTerminated = s.loop.worker.isTerminated) : s'.Leaves :=
  ⟨hinv, hexits.trans h.exits, hflag.trans h.flag, hcalls.trans h.calls⟩

theorem Leaves.effect (h : s.Leaves) {op : LoopOp τ} (he : s.Effect op s') :
    s'.Leaves ∧ s'.weight ≤ s.weight ∧ (op.isOwn = true → s'.weight < s.weight) := by
  have hinv := h.inv.effect he
  cases he with
  | @other _ loop hop hpc hflag hgroups =>
    refine ⟨⟨hinv, h.exits, hflag h.flag, h.calls⟩, ?_, ?_⟩
    · simp only [weight, hpc, hgroups, le_refl]
    · rw [hop]
      nofun
  | @looks _ loop idle hplace hlooks hidle =>
    have hlt := weight_after hlooks hplace idle
    exact ⟨h.go hinv rfl rfl hlooks.isTerminated, hlt.le, fun _ => hlt⟩
  | @finish _ loop task hplace hpc hpc' hflag hgroups =>
    have hlt : (s.after false loop).weight < s.weight := by
      have hs : s.weight = 2 := by simp only [weight, hplace, hpc, LoopPc.weight]
      have hafter : (s.after false loop).weight = 1 := by
        simp only [weight, after, hpc', placeOf]
      omega
    exact ⟨h.go hinv rfl rfl hflag, hlt.le, fun _ => hlt⟩
  | testRun hplace hpc =>
    have heq : s.testRun = s.goTo .condition .atTop := if_neg fun hleaves => by
      have := hleaves.2.1
      rw [h.exits] at this
      cases this
    have hlt : s.testRun.weight < s.weight := by
      have hs : s.weight = 2 := by simp only [weight, hplace, hpc, LoopPc.weight]
      rw [heq, hs]
      exact Nat.lt_succ_self 1
    rw [heq] at hinv hlt ⊢
    exact ⟨h.go hinv rfl rfl rfl, hlt.le, fun _ => hlt⟩

variable [DecidableEq τ]

theorem Leaves.step {op : ThreadLoopOp τ} (h : s.Leaves) (hop : op.stacks = false)
    (hs : s.step E op = .ok s') :
    s'.Leaves ∧ s'.weight ≤ s.weight ∧ (op.isOwn = true → s'.weight < s.weight) := by
  have hinv := h.inv.step hs
  cases op with
  | run =>
    simp only [ThreadLoop.step, h.flag, if_true] at hs
    split at hs
    · rename_i hplace
      cases hs
      have hlt : (s.goTo .inside .returned).weight < s.weight := by
        have hs : s.weight = 1 := by simp only [weight, hplace]
        rw [hs]
        exact Nat.one_pos
      exact ⟨h.go hinv rfl rfl rfl, hlt.le, fun _ => hlt⟩
    · cases hs
  | condition =>
    simp only [ThreadLoop.step] at hs
    split at hs
    · rename_i hplace
      have heq : s.testCondition = s.goTo .inside .returned := by
        simp only [testCondition, h.calls, h.exits, h.flag, and_self, if_true]
      rw [heq] at hs
      cases hs
      have hlt : (s.goTo .inside .returned).weight < s.weight := by
        have hs : s.weight = 1 := by simp only [weight, hplace]
        rw [hs]
        exact Nat.one_pos
      exact ⟨h.go hinv rfl rfl rfl, hlt.le, fun _ => hlt⟩
    · cases hs
  | access op => exact h.effect (access_effect hs)
  | waitTest =>
    simp only [ThreadLoop.step, h.flag, if_true] at hs
    split at hs
    · rename_i hplace
      cases hs
      have hlt : (s.goTo .inside .noTask).weight < s.weight := by
        have hs : s.weight = 3 := by
          simp only [weight, hplace, (h.inv.waitTest hplace).1, LoopPc.weight]
        rw [hs]
        exact Nat.lt_succ_self 2
      exact ⟨h.go hinv rfl rfl rfl, hlt.le, fun _ => hlt⟩
    · cases hs
  | wake =>
    simp only [ThreadLoop.step] at hs
    split at hs
    · rename_i hplace
      exact absurd hplace h.inv.awake
    · cases hs
  | addSubTaskRunner r sub => cases hop
  | removeSubTaskRunner r sub =>
    simp only [ThreadLoop.step] at hs
    split at hs
    · cases hs
      refine ⟨h.go hinv rfl rfl (State.unBind_isTerminated sub s.loop.worker), ?_, nofun⟩
      simp only [weight, Worker.unBind_held, Worker.erased_length, le_refl]
    · cases hs
      exact ⟨h, le_refl _, nofun⟩

/-- No group that the thread is going to look at is empty. -/
def NoEmptyGroup (s : ThreadLoop τ) : Prop :=
  [] ∉ s.loop.worker.runningGroups ∧ ∀ rest ∈ s.loop.pc.rest?, [] ∉ rest

/-- Where the thread is fits what it is going to do. -/
structure Placed (s : ThreadLoop τ) : Prop where
  top : s.place = .run ∨ s.place = .condition → s.loop.pc = .atTop
  inside : s.place = .inside → s.loop.pc ≠ .waiting

omit [DecidableEq τ] in
theorem placed_new (loop : Loop τ) (isExitImmediately : Bool) :
    (new loop isExitImmediately).Placed :=
  ⟨fun _ => rfl, nofun⟩

omit [DecidableEq τ] in
theorem placed_after (s : ThreadLoop τ) (idle : Bool) (loop : Loop τ) :
    (s.after idle loop).Placed := by
  constructor
  · rintro (hrun | hcond)
    · have hplace : placeOf loop.pc = .run := hrun
      cases hpc : loop.pc <;> rw [hpc] at hplace <;> cases hplace
    · have hplace : placeOf loop.pc = .condition := hcond
      show loop.pc = .atTop
      cases hpc : loop.pc <;> rw [hpc] at hplace <;> first | rfl | cases hplace
  · intro hinside hpc
    have hplace : placeOf loop.pc = .inside := hinside
    have hpc' : loop.pc = .waiting := hpc
    rw [hpc'] at hplace
    cases hplace

omit [DecidableEq τ] in
theorem placed_goTo (s : ThreadLoop τ) {place : Place} {pc : LoopPc}
    (h : place = .inside ∧ pc ≠ .waiting ∨ place = .condition ∧ pc = .atTop) :
    (s.goTo place pc).Placed := by
  rcases h with ⟨rfl, hpc⟩ | ⟨rfl, rfl⟩
  · exact ⟨(by rintro (h | h) <;> cases h), fun _ => hpc⟩
  · exact ⟨fun _ => rfl, nofun⟩

omit [DecidableEq τ] in
/-- From the top of a loop into its body. -/
theorem Placed.enter (h : s.Placed) (hplace : s.place = .run ∨ s.place = .condition) :
    Placed { s with place := .inside } :=
  ⟨(by rintro (h | h) <;> cases h), fun _ hpc => by cases (h.top hplace).symm.trans hpc⟩

omit [DecidableEq τ] in
theorem Placed.testCondition (h : s.Placed) (hplace : s.place = .condition) :
    s.testCondition.Placed := by
  unfold ThreadLoop.testCondition
  split
  · split
    · exact s.placed_goTo (Or.inl ⟨rfl, nofun⟩)
    · exact h.enter (Or.inr hplace)
  · split
    · exact h.enter (Or.inr hplace)
    · exact ⟨(by rintro (h | h) <;> cases h), nofun⟩

omit [DecidableEq τ] in
theorem Placed.effect (h : s.Placed) {op : LoopOp τ} (he : s.Effect op s') : s'.Placed := by
  cases he with
  | other hop hpc hflag hgroups =>
    exact ⟨fun hp => hpc.trans (h.top hp), fun hp => hpc ▸ h.inside hp⟩
  | looks => exact s.placed_after _ _
  | finish => exact s.placed_after _ _
  | testRun =>
    rw [testRun]
    split
    · exact s.placed_goTo (Or.inl ⟨rfl, nofun⟩)
    · exact s.placed_goTo (Or.inr ⟨rfl, rfl⟩)

theorem Placed.step {op : ThreadLoopOp τ} (h : s.Placed) (hs : s.step E op = .ok s') :
    s'.Placed := by
  cases op with
  | run =>
    simp only [ThreadLoop.step] at hs
    split at hs
    · rename_i hplace
      cases hs
      split
      · exact s.placed_goTo (Or.inl ⟨rfl, nofun⟩)
      · exact ⟨fun _ => h.top (Or.inl hplace), nofun⟩
    · cases hs
  | condition =>
    simp only [ThreadLoop.step] at hs
    split at hs
    · rename_i hplace
      cases hs
      exact h.testCondition hplace
    · cases hs
  | access op => exact h.effect (access_effect hs)
  | waitTest =>
    simp only [ThreadLoop.step] at hs
    split at hs
    · cases hs
      split
      · exact s.placed_goTo (Or.inl ⟨rfl, nofun⟩)
      · exact ⟨(by rintro (h | h) <;> cases h), nofun⟩
    · cases hs
  | wake =>
    simp only [ThreadLoop.step] at hs
    split at hs
    · cases hs
      exact s.placed_goTo (Or.inl ⟨rfl, nofun⟩)
    · cases hs
  | addSubTaskRunner r sub =>
    simp only [ThreadLoop.step] at hs
    split at hs
    · obtain ⟨worker, -, hs⟩ := bind_eq_ok.mp hs
      cases hs
      exact ⟨fun _ => rfl, nofun⟩
    · cases hs
  | removeSubTaskRunner r sub =>
    simp only [ThreadLoop.step] at hs
    split at hs
    · cases hs
      exact ⟨h.top, h.inside⟩
    · cases hs
      exact h

/-- An access that `RunTask` can make is a step of the thread. -/
theorem goesOn_access {op : LoopOp τ} (hop : op.isOwn = true) {s' : ThreadLoop τ}
    (hs : s.access E op = .ok s') :
    ∃ op : ThreadLoopOp τ, op.isOwn = true ∧ op.stacks = false ∧ ∃ s', s.step E op = .ok s' :=
  ⟨.access op, hop, rfl, s', hs⟩

omit [DecidableEq τ] in
/-- With no empty group, `GetNextTask` gets to its loop. -/
theorem beginNext_ok {s : Loop τ} (h : [] ∉ s.worker.runningGroups) (now : TimePoint) :
    ∃ s', s.beginNext now = .ok s' := by
  unfold Loop.beginNext
  split
  · exact ⟨_, rfl⟩
  · obtain ⟨groups, hsort⟩ := Worker.sortStage_ok s.runner h
    have hgroups : [] ∉ groups := by
      rw [Worker.sortStage_eq hsort]
      simpa using h
    obtain ⟨out, hb⟩ := Worker.balanceStage_ok s.runner
      (w := { s.worker with runningGroups := groups }) hgroups
    exact ⟨_, bind_eq_ok.mpr ⟨_, hsort, bind_eq_ok.mpr ⟨_, hb, rfl⟩⟩⟩

/-- **The thread goes on** from every place but the end. -/
theorem Inv.goesOn (h : s.Inv) (hplaced : s.Placed) (hgroups : s.NoEmptyGroup)
    (hpc : s.loop.pc ≠ .returned) :
    ∃ op : ThreadLoopOp τ, op.isOwn = true ∧ op.stacks = false ∧ ∃ s', s.step E op = .ok s' := by
  cases hplace : s.place with
  | run =>
    exact ⟨.run, rfl, rfl, by simp only [ThreadLoop.step, hplace, Except.ok.injEq, exists_eq']⟩
  | condition =>
    exact ⟨.condition, rfl, rfl,
      by simp only [ThreadLoop.step, hplace, Except.ok.injEq, exists_eq']⟩
  | waitTest =>
    exact ⟨.waitTest, rfl, rfl,
      by simp only [ThreadLoop.step, hplace, Except.ok.injEq, exists_eq']⟩
  | asleep => exact absurd hplace h.awake
  | inside =>
    cases hat : s.loop.pc with
    | atTop =>
      obtain ⟨loop, hloop⟩ := beginNext_ok hgroups.1 0
      have haccess : s.access E (.begin 0) = .ok (s.after false loop) := by
        simp only [access, hplace]
        exact bind_eq_ok.mpr ⟨loop, by simp only [Loop.step, hat, hloop], rfl⟩
      exact goesOn_access rfl haccess
    | scanning now rest idleTask =>
      cases rest with
      | nil =>
        obtain ⟨loop, hloop⟩ : ∃ loop, s.loop.step E .testNext = .ok loop := by
          simp only [Loop.step, hat, Except.ok.injEq, exists_eq']
        have haccess : s.access E .testNext = .ok (s.after true loop) := by
          simp only [access, hplace]
          exact bind_eq_ok.mpr ⟨loop, hloop, rfl⟩
        exact goesOn_access rfl haccess
      | cons g rest =>
        have hg : [] ∉ [g] := by
          have hrest := hgroups.2 (g :: rest) (by rw [hat]; rfl)
          simp only [List.mem_cons, not_or] at hrest
          simpa using hrest.1
        obtain ⟨⟨found, st⟩, hscan⟩ := Worker.scanGroups_ok (E := E) now (fun _ => 0) hg 0
          { runner := s.loop.runner, worker := s.loop.worker, idleTask := idleTask }
        obtain ⟨loop, hloop⟩ : ∃ loop, s.loop.scanNext E 0 now g rest idleTask = .ok loop := by
          cases found with
          | none => exact ⟨_, bind_eq_ok.mpr ⟨_, hscan, rfl⟩⟩
          | some task => exact ⟨_, bind_eq_ok.mpr ⟨_, hscan, rfl⟩⟩
        have haccess : s.access E (.scan 0) = .ok (s.after false loop) := by
          simp only [access, hplace]
          exact bind_eq_ok.mpr ⟨loop, by simp only [Loop.step, hat, hloop], rfl⟩
        exact goesOn_access rfl haccess
    | waiting => exact absurd hat (hplaced.inside hplace)
    | noTask =>
      have haccess : s.access E .testRun = .ok s.testRun := by
        simp only [access, hplace, hat]
      exact goesOn_access rfl haccess
    | inTask task =>
      obtain ⟨loop, hloop⟩ : ∃ loop, s.loop.step E (.finish fun _ => 0) = .ok loop := by
        simp only [Loop.step, hat, Except.ok.injEq, exists_eq']
      have haccess : s.access E (.finish fun _ => 0) = .ok (s.after false loop) := by
        simp only [access, hplace]
        exact bind_eq_ok.mpr ⟨loop, hloop, rfl⟩
      exact goesOn_access rfl haccess
    | returned => exact absurd hat hpc

/-- The thread never waits for a `Notify`, and as long as no group is empty it has a step until it
has returned. Once it is terminated and has to exit immediately, it takes so many more steps of
its own at most, unless it goes into the loop of an `AddSubTaskRunner`. -/
structure GetsOut (E : Env) (s : ThreadLoop τ) : Prop where
  awake : s.place ≠ .asleep
  goesOn : s.NoEmptyGroup → s.loop.pc ≠ .returned →
    ∃ op : ThreadLoopOp τ, op.isOwn = true ∧ op.stacks = false ∧ ∃ s', s.step E op = .ok s'
  bound : s.isExitImmediately = true → s.loop.worker.isTerminated = true → s.calls = [] →
    ∀ ops : List (ThreadLoopOp τ), (∀ op ∈ ops, op.stacks = false) →
      count (step E) (fun _ op => op.isOwn) s ops ≤ s.weight

theorem Inv.getsOut (h : s.Inv) (hplaced : s.Placed) : s.GetsOut E where
  awake := h.awake
  goesOn := h.goesOn hplaced
  bound hexits hflag hcalls ops hops := by
    apply count_le_variant (A := fun op => op.stacks = false) (I := Leaves)
    · exact fun _ _ _ hop hs he => (hs.step hop he).1
    · exact fun _ _ _ hop hs he => (hs.step hop he).2.1
    · exact fun _ _ _ hop hs he => (hs.step hop he).2.2
    · exact hops
    · exact ⟨h, hexits, hflag, hcalls⟩

end ThreadLoop

variable {τ : Type} [DecidableEq τ]

/-- **Nothing runs after the end**: of the tasks that the `RunLoop` of a worker starts which is to
exit immediately, at most the last one is started after it was terminated, and no other is an idle
one. -/
theorem exits_immediately (E : Env) (loop : Loop τ) (isExitImmediately : Bool)
    (ops : List (ThreadLoopOp τ)) : Always (ThreadLoop.step E) ThreadLoop.ExitsImmediately
      (.new loop isExitImmediately) ops :=
  always_of_invariant (fun _ _ _ => ThreadLoop.Inv.step) (fun _ => ThreadLoop.Inv.exitsImmediately)
    (ThreadLoop.inv_new loop isExitImmediately) ops

/-- **The thread gets out**, and it does not sleep before: its only wait is behind a test that it
does not pass. -/
theorem run_loop_gets_out (E : Env) (loop : Loop τ) (isExitImmediately : Bool)
    (ops : List (ThreadLoopOp τ)) : Always (ThreadLoop.step E) (ThreadLoop.GetsOut E)
      (.new loop isExitImmediately) ops :=
  always_of_invariant (I := fun s => s.Inv ∧ s.Placed)
    (fun _ _ _ h hs => ⟨h.1.step hs, h.2.step hs⟩) (fun _ h => h.1.getsOut h.2)
    ⟨ThreadLoop.inv_new loop isExitImmediately, ThreadLoop.placed_new loop isExitImmediately⟩ ops

end Footstone
