import Footstone.Charging
import Footstone.Sorting
import Footstone.Lib.FairShare

/-!
How the groups of a worker share its thread. `GetNextTask` goes through the groups in the order
of their weights, priority times time, and the end of `RunTask` adds what the task took to the
times of its group. So no group gets ahead of one that always has a task by more than a task, and
between two tasks of that group the others get only so many.
-/

namespace Footstone

open Runs StableSort

/-- What the weight of a group is computed from. -/
def TaskRunner.share (r : TaskRunner) : UInt32 × TimeDelta := (r.priority, r.time)

@[simp] theorem TaskRunner.popIdleTask_share (r : TaskRunner) :
    r.popIdleTask.2.share = r.share := by
  unfold popIdleTask
  split <;> rfl

@[simp] theorem TaskRunner.getNext_share (E : Env) (now : TimePoint) (r : TaskRunner) :
    (r.getNext E now).2.share = r.share := by
  obtain ⟨tasks, delayed, h⟩ := getNext_frame E now r
  rw [h]
  rfl

namespace Worker

theorem trueWeight_congr {runner runner' : Runners} {g : Group}
    (h : ∀ r ∈ g.head?, (runner' r).share = (runner r).share) :
    trueWeight runner' g = trueWeight runner g := by
  cases g with
  | nil => rfl
  | cons r rs =>
    obtain ⟨hpriority, htime⟩ := Prod.mk.inj (h r rfl)
    simp only [trueWeight, hpriority, htime]

/-- What a task of `elapsed` adds to the weight of its group. -/
def cost (runner : Runners) (elapsed : TimeDelta) : Group → Int
  | [] => 0
  | r :: _ => (runner r).priority.toNat * elapsed.toInt

theorem cost_nonneg {runner : Runners} {elapsed : TimeDelta} {g : Group}
    (h : 0 ≤ elapsed.toInt) : 0 ≤ cost runner elapsed g := by
  cases g with
  | nil => exact le_rfl
  | cons r rs => exact Int.mul_nonneg (Int.natCast_nonneg _) h

/-! ## Which group the loop takes a task from -/

theorem pollFront_share (now : TimePoint) (front : RunnerId) (st : Scan) (r : RunnerId) :
    ((pollFront now front st).runner r).share = (st.runner r).share := by
  have hpopped := update_keeps TaskRunner.share
    (TaskRunner.popIdleTask_share (st.runner front)) r
  unfold pollFront
  cases st.idleTask <;> dsimp only <;> split <;> first | exact hpopped | rfl

/-- The others are left alone. -/
theorem pollFront_other (now : TimePoint) {front r : RunnerId} (st : Scan) (h : r ≠ front) :
    (pollFront now front st).runner r = st.runner r := by
  unfold pollFront
  cases st.idleTask <;> dsimp only <;> split <;>
    first | rfl | exact Function.update_of_ne h _ _

variable {E : Env}

theorem scanGroups_share {now : TimePoint} {clock : Nat → TimePoint} {i : Nat}
    {groups : List Group} {st st' : Scan} {found : Option (RunnerId × Task)}
    (h : scanGroups E now clock i groups st = .ok (found, st')) (r : RunnerId) :
    (st'.runner r).share = (st.runner r).share := by
  induction groups generalizing i st with
  | nil =>
    cases h
    rfl
  | cons g groups ih =>
    cases g with
    | nil => cases h
    | cons front members =>
      simp only [scanGroups] at h
      generalize members.getLastD front = back at h
      have hback := update_keeps TaskRunner.share
        (TaskRunner.getNext_share E (clock i) (st.runner back)) r
      split at h
      · cases h
        exact hback
      · exact (ih h).trans ((pollFront_share _ _ _ _).trans hback)

/-- The loop takes a task of the first group that has one. If the groups are sorted by `f`, it is
not behind a group `d` whose last runner has a task. -/
theorem scanGroups_takes {f : Group → Int} {d : Group} {now : TimePoint}
    {clock : Nat → TimePoint} {i : Nat} {groups : List Group} {st st' : Scan}
    {found : Option (RunnerId × Task)}
    (h : scanGroups E now clock i groups st = .ok (found, st'))
    (hsorted : groups.Pairwise fun a b => f a ≤ f b) (hnodup : groups.flatten.Nodup)
    (hd : d ∈ groups) (hbusy : ∀ r ∈ d.getLast?, ∀ j < groups.length,
      ((st.runner r).getNext E (clock (i + j))).1 ≠ none) :
    found ≠ none ∧ st'.worker.currGroup ∈ groups ∧ f st'.worker.currGroup ≤ f d := by
  induction groups generalizing i st with
  | nil => cases hd
  | cons g groups ih =>
    cases g with
    | nil => cases h
    | cons front members =>
      obtain ⟨hfirst, hbehind⟩ := List.pairwise_cons.mp hsorted
      have hlast : (front :: members).getLast? = some (members.getLastD front) := by
        rw [List.getLast?_cons, List.getLastD_eq_getLast?]
      have hback : members.getLastD front ∈ front :: members := List.getLastD_mem_cons
      simp only [scanGroups] at h
      generalize members.getLastD front = back at h hlast hback
      split at h
      · cases h
        refine ⟨Option.some_ne_none _, List.mem_cons_self, ?_⟩
        rcases List.mem_cons.mp hd with rfl | hd
        · exact le_rfl
        · exact hfirst d hd
      · rename_i hnone
        have hd' : d ∈ groups := by
          refine (List.mem_cons.mp hd).resolve_left ?_
          rintro rfl
          exact hbusy _ hlast 0 (Nat.succ_pos _) hnone
        rw [List.flatten_cons, List.nodup_append] at hnodup
        obtain ⟨-, hrest, hdisjoint⟩ := hnodup
        refine (ih h hbehind hrest hd' fun r hr j hj => ?_).imp_right
          (And.imp_left (List.mem_cons_of_mem _))
        -- The groups that were passed have no runner in common with `d`.
        have hmem : r ∈ groups.flatten :=
          List.mem_flatten.mpr ⟨d, hd', List.mem_of_getLast? hr⟩
        have hsame : ∀ x ∈ front :: members, r ≠ x := fun x hx he =>
          hdisjoint x hx r hmem he.symm
        rw [pollFront_other _ _ (hsame front List.mem_cons_self)]
        dsimp only
        rw [Function.update_of_ne (hsame _ hback), Nat.add_right_comm, Nat.add_assoc]
        exact hbusy r hr (j + 1) (Nat.succ_lt_succ hj)

/-- `GetNextTask` on sorted groups of which `d` has a task: it takes one, of a group that is not
heavier than `d`. -/
theorem getNextTask_takes {d : Group} {clock : Nat → TimePoint} {runner runner' : Runners}
    {w w' : Worker} {next : NextTask}
    (h : w.getNextTask E clock runner = .ok (next, runner', w'))
    (himmediate : w.immediateTaskQueue = []) (hneed : w.needBalance = false)
    (hne : [] ∉ w.runningGroups) (hnodup : w.runningGroups.flatten.Nodup)
    (hsmall : SmallWeights runner w.runningGroups) (hd : d ∈ w.runningGroups)
    (hbusy : ∀ r ∈ d.getLast?, ∀ i < w.runningGroups.length,
      ((runner r).getNext E (clock (i + 1))).1 ≠ none) :
    (∃ r task, next = .task r task) ∧ w'.runningGroups.Perm w.runningGroups ∧
      w'.currGroup ∈ w.runningGroups ∧
      trueWeight runner w'.currGroup ≤ trueWeight runner d ∧
      ∀ r, (runner' r).share = (runner r).share := by
  obtain ⟨task, queue, -, himm, -⟩ |
    ⟨-, groups, runner₁, w₁, found, st, hs, hb, hscan, rfl, rfl, rfl⟩ := getNextTask_inv h
  · rw [himmediate] at himm
    cases himm
  obtain rfl := Except.ok.inj ((sortStage_byWeight hne).symm.trans hs)
  obtain ⟨rfl, rfl⟩ : runner = runner₁ ∧
      { w with runningGroups := byWeight runner w.runningGroups } = w₁ := by
    rw [balanceStage, if_neg (by simp [hneed])] at hb
    exact Prod.mk.inj (Except.ok.inj hb)
  have hstable := hsmall.isStableSort hne
  have hperm := hstable.perm
  obtain ⟨hfound, hmem, hle⟩ := scanGroups_takes hscan hstable.sorted
    (hperm.flatten.nodup_iff.mpr hnodup) (hperm.mem_iff.mpr hd) fun r hr j hj => by
      rw [Nat.zero_add]
      exact hbusy r hr j (hperm.length_eq ▸ hj)
  obtain ⟨-, hgroups, -, -⟩ := scanGroups_keeps hscan
  refine ⟨?_, hgroups ▸ hperm, hperm.mem_iff.mp hmem, hle, scanGroups_share hscan⟩
  cases found with
  | none => exact absurd rfl hfound
  | some x => exact ⟨x.1, x.2, rfl⟩

end Worker

/-! ## What the end of a task adds -/

namespace State

theorem addTimes_other {elapsed : Nat → TimeDelta} {i : Nat} {g : Group} {r : RunnerId}
    (h : r ∉ g) (runner : Runners) :
    (addTimes elapsed i g runner r).share = (runner r).share := by
  induction g generalizing i runner with
  | nil => rfl
  | cons x g ih =>
    simp only [List.mem_cons, not_or] at h
    rw [addTimes, ih h.2, Function.update_of_ne h.1]

theorem addTimes_front (elapsed : Nat → TimeDelta) {r : RunnerId} {rs : List RunnerId}
    (h : r ∉ rs) (runner : Runners) : (addTimes elapsed 0 (r :: rs) runner r).share =
      ((runner r).priority, (runner r).time + elapsed 0) := by
  rw [addTimes, addTimes_other h, Function.update_self]
  rfl

/-- The front of a group gets the first reading. -/
theorem addTimes_weight {elapsed : Nat → TimeDelta} {r : RunnerId} {rs : List RunnerId}
    (h : r ∉ rs) {runner : Runners} (hpos : 0 ≤ (elapsed 0).toInt)
    (hfits : (runner r).time.toInt + (elapsed 0).toInt < 2 ^ 63) :
    Worker.trueWeight (addTimes elapsed 0 (r :: rs) runner) (r :: rs) =
      Worker.trueWeight runner (r :: rs) + Worker.cost runner (elapsed 0) (r :: rs) := by
  obtain ⟨hpriority, htime⟩ := Prod.mk.inj (addTimes_front elapsed h runner)
  have hsum : ((runner r).time + elapsed 0).toInt = (runner r).time.toInt + (elapsed 0).toInt := by
    have hlow := Int64.le_toInt (runner r).time
    rw [Int64.toInt_add]
    exact Int.bmod_eq_of_le (by omega) (by omega)
  simp only [Worker.trueWeight, Worker.cost, hpriority, htime, hsum, Int.mul_add]

end State

/-! ## The groups as clients of the thread -/

namespace Thread

variable (E : Env)

/-- What `RunTask` comes upon: no other `RunTask`, no immediate task and no pending group; the
weights of the groups are computed right, and the last runner of `d` has a task. -/
structure Ready (d : Group) (clock : Nat → TimePoint) (t : Thread) : Prop where
  outside : t.frames = []
  immediate : t.worker.immediateTaskQueue = []
  balanced : t.worker.needBalance = false
  small : Worker.SmallWeights t.runner t.worker.runningGroups
  busy : ∀ r ∈ d.getLast?, ∀ i < t.worker.runningGroups.length,
    ((t.runner r).getNext E (clock (i + 1))).1 ≠ none

instance (d : Group) (clock : Nat → TimePoint) (t : Thread) : Decidable (t.Ready E d clock) :=
  decidable_of_iff (t.frames = [] ∧ t.worker.immediateTaskQueue = [] ∧
      t.worker.needBalance = false ∧ Worker.SmallWeights t.runner t.worker.runningGroups ∧
      ∀ r ∈ d.getLast?, ∀ i < t.worker.runningGroups.length,
        ((t.runner r).getNext E (clock (i + 1))).1 ≠ none)
    ⟨fun ⟨ho, hi, hb, hs, hd⟩ => ⟨ho, hi, hb, hs, hd⟩,
      fun h => ⟨h.outside, h.immediate, h.balanced, h.small, h.busy⟩⟩

/-- The condition for the groups to share the thread, of which `d` always has a task. Their times
do not overflow, no task makes its group heavier by more than `C`, and nothing else changes the
groups, their priorities and their times. -/
def Steady (d : Group) (C : Int) (t : Thread) : ThreadOp → Prop
  | .runTask clock => t.Ready E d clock
  | .finishTask elapsed => 0 ≤ (elapsed 0).toInt ∧
    (∀ r ∈ t.worker.currGroup.head?, (t.runner r).time.toInt + (elapsed 0).toInt < 2 ^ 63) ∧
    Worker.cost t.runner (elapsed 0) t.worker.currGroup ≤ C
  | .addSubTaskRunner .. => False
  | .other runner worker => worker.runningGroups.Perm t.worker.runningGroups ∧
    ∀ r ∈ t.worker.runningGroups.flatten, (runner r).share = (t.runner r).share

instance (d : Group) (C : Int) (t : Thread) (op : ThreadOp) : Decidable (t.Steady E d C op) :=
  match op with
  | .runTask clock => inferInstanceAs (Decidable (t.Ready E d clock))
  | .finishTask _ => inferInstanceAs (Decidable (_ ∧ (∀ r ∈ t.worker.currGroup.head?, _) ∧ _))
  | .addSubTaskRunner .. => isFalse id
  | .other runner _ => inferInstanceAs (Decidable
      (List.Perm _ _ ∧ ∀ r ∈ t.worker.runningGroups.flatten, (runner r).share = (t.runner r).share))

/-- The step ends a task of `g`. -/
def ends (g : Group) (t : Thread) : ThreadOp → Bool
  | .finishTask _ => t.worker.currGroup = g
  | _ => false

/-- A task of `g` makes it heavier by `c` at least. -/
def Adds (g : Group) (c : Int) (t : Thread) : ThreadOp → Prop
  | .finishTask elapsed => t.worker.currGroup = g → c ≤ Worker.cost t.runner (elapsed 0) g
  | _ => True

instance (g : Group) (c : Int) (t : Thread) : DecidablePred (t.Adds g c)
  | .finishTask _ => inferInstanceAs (Decidable (_ → _))
  | .runTask _ | .addSubTaskRunner .. | .other .. => isTrue trivial

/-- A `RunTask` comes to a task. -/
def Takes (t : Thread) : ThreadOp → Prop
  | .runTask clock => ∀ t', t.runTask E clock = .ok t' → t'.frames ≠ []
  | _ => True

/-- What a step makes `g` heavier by. -/
def gain (g : Group) (t : Thread) : ThreadOp → Int
  | .finishTask elapsed =>
    if t.worker.currGroup = g then Worker.cost t.runner (elapsed 0) g else 0
  | _ => 0

/-- The thread as a server of the groups of its worker. -/
def server : FairShare.Server Thread Group where
  weight t := Worker.trueWeight t.runner
  serving t := match t.frames with
    | [] => none
    | _ :: _ => some t.worker.currGroup

/-- The groups are those of the start, and one `RunTask` is under way at most, for one of them. -/
structure Shared (groups : List Group) (t : Thread) : Prop where
  perm : t.worker.runningGroups.Perm groups
  frames : ∀ frame rest, t.frames = frame :: rest → rest = [] ∧ t.worker.currGroup ∈ groups

/-- Groups that the results are about: none is empty, and no runner is in two places. -/
structure Apart (groups : List Group) : Prop where
  nonempty : [] ∉ groups
  nodup : groups.flatten.Nodup

variable {E} {groups : List Group} {d : Group} {C : Int} {t t' : Thread}

theorem Apart.disjoint (h : Apart groups) {g g' : Group} (hg : g ∈ groups) (hg' : g' ∈ groups)
    (hne : g ≠ g') {r : RunnerId} (hr : r ∈ g) : r ∉ g' := by
  have hsymm : Std.Symm (@List.Disjoint RunnerId) := ⟨fun _ _ hdisjoint => hdisjoint.symm⟩
  have hdisjoint := (List.nodup_flatten.mp h.nodup).2.forall hg hg' hne
  exact fun hr' => hdisjoint hr hr'

theorem shared_new (runner : Runners) (worker : Worker) :
    Shared worker.runningGroups { runner := runner, worker := worker } :=
  ⟨.refl _, nofun⟩

/-- `RunTask` on such a thread. -/
theorem runTask_takes {clock : Nat → TimePoint} (h : t.Shared groups) (hapart : Apart groups)
    (hd : d ∈ groups) (hready : t.Ready E d clock) (hs : t.runTask E clock = .ok t') :
    (∃ frame, t'.frames = [frame]) ∧ t'.worker.runningGroups.Perm groups ∧
      t'.worker.currGroup ∈ groups ∧
      Worker.trueWeight t.runner t'.worker.currGroup ≤ Worker.trueWeight t.runner d ∧
      ∀ r, (t'.runner r).share = (t.runner r).share := by
  obtain ⟨next, runner, worker, hnext, hcase⟩ := runTask_cases hs
  have hmem : ∀ {g}, g ∈ t.worker.runningGroups ↔ g ∈ groups := h.perm.mem_iff
  obtain ⟨⟨r, task, rfl⟩, hperm, hcurr, hle, hshare⟩ := Worker.getNextTask_takes hnext
    hready.immediate hready.balanced (fun hnil => hapart.nonempty (hmem.mp hnil))
    (h.perm.flatten.nodup_iff.mpr hapart.nodup) hready.small (hmem.mpr hd) hready.busy
  rcases hcase with ⟨hsource, -⟩ | ⟨source, -, -, rfl⟩
  · cases hsource
  · exact ⟨⟨_, by rw [hready.outside]⟩, hperm.trans h.perm, hmem.mp hcurr, hle, hshare⟩

/-- The end of a task adds its cost to its own group only. -/
theorem finishTask_weight {elapsed : Nat → TimeDelta} (hapart : Apart groups)
    (hcurr : t.worker.currGroup ∈ groups) (hc : t.Steady E d C (.finishTask elapsed)) {g : Group}
    (hg : g ∈ groups) :
    Worker.trueWeight (State.addTimes elapsed 0 t.worker.currGroup t.runner) g =
      Worker.trueWeight t.runner g + t.gain g (.finishTask elapsed) := by
  obtain ⟨hpos, hfits, -⟩ := hc
  by_cases hcurrent : t.worker.currGroup = g
  · rw [gain, if_pos hcurrent]
    rw [hcurrent] at hfits ⊢
    cases g with
    | nil => exact absurd hg hapart.nonempty
    | cons r rs =>
      have hnodup := (List.nodup_flatten.mp hapart.nodup).1 _ hg
      exact State.addTimes_weight (List.nodup_cons.mp hnodup).1 hpos (hfits r rfl)
  · rw [gain, if_neg hcurrent, Int.add_zero]
    refine Worker.trueWeight_congr fun r hr => State.addTimes_other ?_ t.runner
    exact hapart.disjoint hg hcurr (Ne.symm hcurrent) (List.mem_of_head? hr)

theorem step_weight {op : ThreadOp} (h : t.Shared groups) (hapart : Apart groups)
    (hd : d ∈ groups) (hc : t.Steady E d C op) (hs : t.step E op = .ok t') {g : Group}
    (hg : g ∈ groups) :
    Worker.trueWeight t'.runner g = Worker.trueWeight t.runner g + t.gain g op := by
  cases op with
  | runTask clock =>
    obtain ⟨-, -, -, -, hshare⟩ := runTask_takes h hapart hd hc hs
    exact (Worker.trueWeight_congr fun r _ => hshare r).trans (Int.add_zero _).symm
  | finishTask elapsed =>
    simp only [step, finishTask] at hs
    split at hs
    · cases hs
    · rename_i frame rest hframes
      cases hs
      exact finishTask_weight hapart (h.frames frame rest hframes).2 hc hg
  | addSubTaskRunner r sub => exact hc.elim
  | other runner worker =>
    cases hs
    refine (Worker.trueWeight_congr fun r hr => hc.2 r ?_).trans (Int.add_zero _).symm
    exact List.mem_flatten.mpr ⟨g, h.perm.mem_iff.mpr hg, List.mem_of_head? hr⟩

/-- **The step lemma**: the groups stay, and the step is one of a server that never takes up a
client heavier than `d`. -/
theorem step_change {op : ThreadOp} (h : t.Shared groups) (hapart : Apart groups)
    (hd : d ∈ groups) (hc : t.Steady E d C op) (hs : t.step E op = .ok t') :
    t'.Shared groups ∧ FairShare.Change server {g | g ∈ groups} d C t t' := by
  have hweight : ∀ g ∈ groups,
      Worker.trueWeight t'.runner g = Worker.trueWeight t.runner g + t.gain g op :=
    fun g hg => step_weight h hapart hd hc hs hg
  cases op with
  | runTask clock =>
    obtain ⟨⟨frame, hframes⟩, hperm, hcurr, hle, -⟩ := runTask_takes h hapart hd hc hs
    refine ⟨⟨hperm, fun frame' rest he => ?_⟩, .start t'.worker.currGroup hcurr hle ?_ ?_⟩
    · rw [hframes] at he
      cases he
      exact ⟨rfl, hcurr⟩
    · exact fun g hg => (hweight g hg).trans (Int.add_zero _)
    · simp only [server, hframes]
  | finishTask elapsed =>
    simp only [step, finishTask] at hs
    split at hs
    · cases hs
    · rename_i frame rest hframes
      obtain ⟨rfl, hcurr⟩ := h.frames frame rest hframes
      cases hs
      refine ⟨⟨h.perm, by simp⟩, .stop t.worker.currGroup
        (Worker.cost t.runner (elapsed 0) t.worker.currGroup) ?_ hc.2.2 ?_ ?_ ?_ rfl⟩
      · exact Worker.cost_nonneg hc.1
      · have hgain : t.gain t.worker.currGroup (.finishTask elapsed) =
            Worker.cost t.runner (elapsed 0) t.worker.currGroup := if_pos rfl
        exact (hweight _ hcurr).trans (congrArg _ hgain)
      · intro g hg hne
        have hgain : t.gain g (.finishTask elapsed) = 0 := if_neg (Ne.symm hne)
        exact (hweight g hg).trans (by rw [hgain, Int.add_zero]; rfl)
      · simp only [server, hframes]
  | addSubTaskRunner r sub => exact hc.elim
  | other runner worker =>
    cases hs
    refine ⟨⟨hc.1.trans h.perm, h.frames⟩, .rest ?_ rfl⟩
    exact fun g hg => (hweight g hg).trans (Int.add_zero _)

theorem fair (hapart : Apart groups) (hd : d ∈ groups) :
    FairShare.Fair server (step E) (Steady E d C) (Shared groups) {g | g ∈ groups} d C where
  mem := hd
  step _ _ _ h hc hs := step_change h hapart hd hc hs

theorem takes {op : ThreadOp} (h : t.Shared groups) (hapart : Apart groups) (hd : d ∈ groups)
    (hc : t.Steady E d C op) : t.Takes E op := by
  cases op with
  | runTask clock =>
    intro t' hs hnone
    obtain ⟨⟨frame, hframes⟩, -⟩ := runTask_takes h hapart hd hc hs
    rw [hframes] at hnone
    cases hnone
  | _ => trivial

/-- A task of `g` costs it `c` or more, and a task of `d` costs that group `C` at most. -/
theorem gain_bounds {op : ThreadOp} {g : Group} {c : Int} (hc : t.Steady E d C op)
    (hadds : t.Adds g c op) :
    (if t.ends g op then c else 0) ≤ t.gain g op ∧
      t.gain d op ≤ if t.ends d op then C else 0 := by
  cases op with
  | finishTask elapsed =>
    simp only [gain, ends, decide_eq_true_eq]
    refine ⟨?_, ?_⟩
    · split
      · rename_i hg
        exact hadds hg
      · exact le_rfl
    · split
      · rename_i hcurr
        exact hcurr ▸ hc.2.2
      · exact le_rfl
  | _ => exact ⟨le_rfl, le_rfl⟩

end Thread

/-- **No group gets ahead** of a group that always has a task by more than one task, unless it was
ahead from the start. -/
theorem no_group_gets_ahead {E : Env} {runner : Runners} {worker : Worker} {d : Group} {C : Int}
    {ops : List ThreadOp} (hapart : Thread.Apart worker.runningGroups)
    (hd : d ∈ worker.runningGroups)
    (h : Meets (Thread.step E) (Thread.Steady E d C) { runner := runner, worker := worker } ops) :
    Always (Thread.step E) (fun t => ∀ g ∈ worker.runningGroups, Worker.trueWeight t.runner g ≤
        max (Worker.trueWeight runner g) (Worker.trueWeight t.runner d + C))
      { runner := runner, worker := worker } ops := by
  have hlag := (Thread.fair hapart hd).lag (Thread.shared_new runner worker) rfl h
  exact always_iff_run.mpr fun bs hb t ht => (always_iff_run.mp hlag bs hb t ht).le

/-- The time of the runners behind the first counts twice. -/
def pairRunner : Runners := fun r =>
  { taskQueue := [some ⟨1⟩, some ⟨2⟩, some ⟨3⟩], priority := if r = 0 then 1 else 2, groupId := 0
    isSchedulable := true }

def pairWorker : Worker := { runningGroups := [[0], [1, 2]], groupId := 0 }

/-- A task of 6, two of 2 that count twice, and another one of 6. -/
def pairRun : List ThreadOp := [
  .runTask fun _ => 0, .finishTask fun _ => 6, .runTask fun _ => 6, .finishTask fun _ => 2,
  .runTask fun _ => 8, .finishTask fun _ => 2, .runTask fun _ => 10, .finishTask fun _ => 6]

theorem no_group_gets_ahead_pair :
    Always (Thread.step .debug) (fun t => ∀ g ∈ pairWorker.runningGroups,
        Worker.trueWeight t.runner g ≤
          max (Worker.trueWeight pairRunner g) (Worker.trueWeight t.runner [1, 2] + 6))
      { runner := pairRunner, worker := pairWorker } pairRun :=
  no_group_gets_ahead ⟨by decide, by decide⟩ (by decide) (by decide)

/-- **No group starves**: while `d` always has a task, every `RunTask` comes to a task, and a group
whose tasks cost `c` or more gets so many of them only for those of `d`. -/
theorem no_group_starves {E : Env} {runner : Runners} {worker : Worker} {d g : Group} {c C : Int}
    {ops : List ThreadOp} (hapart : Thread.Apart worker.runningGroups)
    (hd : d ∈ worker.runningGroups) (hg : g ∈ worker.runningGroups)
    (h : Meets (Thread.step E) (Thread.Steady E d C) { runner := runner, worker := worker } ops)
    (hadds : Meets (Thread.step E) (fun t => t.Adds g c) { runner := runner, worker := worker }
      ops) :
    let t : Thread := { runner := runner, worker := worker }
    Meets (Thread.step E) (Thread.Takes E) t ops ∧
      c * count (Thread.step E) (Thread.ends g) t ops ≤
        max 0 (Worker.trueWeight runner d - Worker.trueWeight runner g +
          C * (count (Thread.step E) (Thread.ends d) t ops + 1)) := by
  intro t
  have hshared : t.Shared worker.runningGroups := Thread.shared_new runner worker
  refine ⟨meets_of_meets (I := Thread.Shared worker.runningGroups)
    (fun _ _ _ hI hc hs => (Thread.step_change hI hapart hd hc hs).1)
    (fun _ _ hI hc => Thread.takes hI hapart hd hc) hshared h, ?_⟩
  have hfair : FairShare.Fair Thread.server (Thread.step E)
      (fun t op => t.Steady E d C op ∧ t.Adds g c op) (Thread.Shared worker.runningGroups)
      {g | g ∈ worker.runningGroups} d C :=
    ⟨hd, fun _ _ _ hI hc hs => Thread.step_change hI hapart hd hc.1 hs⟩
  refine hfair.count_le hg (fun s op s' hI hc hs => ?_) (fun s op s' hI hc hs => ?_) hshared rfl
    (meets_and h hadds)
  · have hweight := Thread.step_weight hI hapart hd hc.1 hs hg
    exact (Int.add_le_add_left (Thread.gain_bounds hc.1 hc.2).1 _).trans hweight.ge
  · have hweight := Thread.step_weight hI hapart hd hc.1 hs hd
    exact hweight.le.trans (Int.add_le_add_left (Thread.gain_bounds hc.1 hc.2).2 _)

theorem no_group_starves_pair :
    let t : Thread := { runner := pairRunner, worker := pairWorker }
    Meets (Thread.step .debug) (Thread.Takes .debug) t pairRun ∧
      6 * count (Thread.step .debug) (Thread.ends [0]) t pairRun ≤
        max 0 (Worker.trueWeight pairRunner [1, 2] - Worker.trueWeight pairRunner [0] +
          6 * (count (Thread.step .debug) (Thread.ends [1, 2]) t pairRun + 1)) :=
  no_group_starves ⟨by decide, by decide⟩ (by decide) (by decide) (by decide) (by decide)

end Footstone
