import Footstone.Conservation
import Footstone.Groups
import Footstone.Lib.Handoff
import Mathlib.Tactic.FinCases

/-!
Runner-specific data under a growing pool. `MoveTaskRunnerSpecificNoLock` orders
every move of a runner's data from the worker its back pointer names, and the
growing branch leaves that pointer alone: the data follows the runner on its
first way, and is lost to it on the second.
-/

namespace Footstone

open Runs

abbrev Letter := Handoff.Msg WorkerId (KeyArray × SpecificArray)

/-- An immediate task as a message about the runner `r`. -/
def ImmediateTask.letter (r : RunnerId) : ImmediateTask → Option Letter
  | .takeSpecific x src dst => if x = r then some (.take src dst) else none
  | .installSpecific x dst keys specific => if x = r then some (.install dst (keys, specific)) else none

/-- A missing entry travels as an empty array. -/
def wrapping : Handoff.Wrapping (Option KeyArray × Option SpecificArray)
    (KeyArray × SpecificArray) where
  vacant := (none, none)
  pack p := (p.1.getD KeyArray.empty, p.2.getD SpecificArray.empty)
  unpack p := (some p.1, some p.2)
  pack_unpack _ := rfl

namespace Worker

/-- The entries of the runner `r`. -/
def entry (r : RunnerId) (w : Worker) : Option KeyArray × Option SpecificArray :=
  (w.workerKeyMap[r]?, w.specificMap[r]?)

def letters (r : RunnerId) (w : Worker) : List Letter :=
  w.immediateTaskQueue.filterMap (ImmediateTask.letter r)

/-- A worker after both entries of `r` were moved out. -/
def takenFrom (r : RunnerId) (w : Worker) : Worker :=
  ((w.getMovedSpecificKeys r).2.getMovedSpecific r).2

theorem takenFrom_entry (r x : RunnerId) (w : Worker) :
    (w.takenFrom r).entry x = if x = r then (none, none) else w.entry x := by
  unfold takenFrom getMovedSpecificKeys getMovedSpecific entry
  by_cases hx : x = r
  · subst hx
    cases hk : w.workerKeyMap[x]? <;> cases hs : w.specificMap[x]? <;> simp [hk, hs]
  · cases hk : w.workerKeyMap[r]? <;> cases hs : w.specificMap[r]? <;>
      simp [hx, Std.TreeMap.getElem?_erase, Ne.symm hx]

theorem takenFrom_immediateTaskQueue (r : RunnerId) (w : Worker) :
    (w.takenFrom r).immediateTaskQueue = w.immediateTaskQueue := by
  unfold takenFrom getMovedSpecificKeys getMovedSpecific
  split <;> dsimp only <;> split <;> rfl

/-- What `GetMovedSpecificKeys` and `GetMovedSpecific` hand over. -/
theorem getMoved_pack (r : RunnerId) (w : Worker) :
    ((w.getMovedSpecificKeys r).1, ((w.getMovedSpecificKeys r).2.getMovedSpecific r).1) =
      wrapping.pack (w.entry r) := by
  unfold getMovedSpecificKeys getMovedSpecific entry wrapping
  cases w.workerKeyMap[r]? <;> cases w.specificMap[r]? <;> simp

theorem updateSpecific_entry (r x : RunnerId) (keys : KeyArray) (specific : SpecificArray)
    (w : Worker) : ((w.updateSpecificKeys r keys).updateSpecific r specific).entry x =
      if x = r then (some keys, some specific) else w.entry x := by
  by_cases hx : x = r
  · subst hx
    simp [updateSpecificKeys, updateSpecific, entry]
  · simp [updateSpecificKeys, updateSpecific, entry, hx, Std.TreeMap.getElem?_insert, Ne.symm hx]

theorem addImmediateTask_letters (r : RunnerId) (task : ImmediateTask) (w : Worker) :
    (w.addImmediateTask task).letters r = w.letters r ++ (task.letter r).toList := by
  cases h : task.letter r <;> simp [letters, addImmediateTask, h]

end Worker

namespace State

variable {E : Env} {r : RunnerId}

/-- The data of the runner `r` and the messages about it, in the pool. -/
def net (s : State) (r : RunnerId) :
    Handoff.Net WorkerId (Option KeyArray × Option SpecificArray) (KeyArray × SpecificArray) where
  store w := if w ∈ s.workers then (s.worker w).entry r else (none, none)
  queue w := if w ∈ s.workers then (s.worker w).letters r else []

theorem SameData.net {s s' : State} (h : SameData s s') (hw : s'.workers = s.workers) :
    s'.net r = s.net r := by
  unfold State.net Worker.entry Worker.letters
  simp only [hw, h.workerKeyMap, h.specificMap, h.immediateTaskQueue]

theorem setWorker_net {s : State} {w : WorkerId} (hw : w ∈ s.workers) (x : Worker) :
    (s.setWorker w x).net r = {
      store := Function.update (s.net r).store w (x.entry r)
      queue := Function.update (s.net r).queue w (x.letters r) } := by
  ext1 <;>
  · funext v
    by_cases hv : v = w
    · subst hv; simp [net, setWorker, hw]
    · simp [net, setWorker, hv]

theorem net_store {s : State} {w : WorkerId} (hw : w ∈ s.workers) :
    (s.net r).store w = (s.worker w).entry r := if_pos hw

theorem net_queue {s : State} {w : WorkerId} (hw : w ∈ s.workers) :
    (s.net r).queue w = (s.worker w).letters r := if_pos hw

/-! ## Running an immediate task -/

theorem takenFrom_net {s : State} {x : RunnerId} {src : WorkerId} (hsrc : src ∈ s.workers) :
    (s.setWorker src ((s.worker src).takenFrom x)).net r = if r = x then
      { s.net r with store := Function.update (s.net r).store src wrapping.vacant } else s.net r := by
  rw [setWorker_net hsrc, Worker.takenFrom_entry, Worker.letters, Worker.takenFrom_immediateTaskQueue,
    ← Worker.letters, ← net_queue hsrc, Function.update_eq_self, ← net_store hsrc]
  split
  · rfl
  · rw [Function.update_eq_self]

theorem addImmediateTask_net {s : State} {w : WorkerId} (hw : w ∈ s.workers) (task : ImmediateTask) :
    (s.modifyWorker w (Worker.addImmediateTask task)).net r =
      match task.letter r with
      | some m => (s.net r).send w m
      | none => s.net r := by
  rw [modifyWorker, setWorker_net hw, Worker.addImmediateTask_letters, ← net_queue hw]
  have hentry : ((s.worker w).addImmediateTask task).entry r = (s.net r).store w := (net_store hw).symm
  rw [hentry, Function.update_eq_self]
  cases task.letter r with
  | none => simp
  | some m => simp [Handoff.Net.send]

/-- The outer task takes both entries out of `src` and posts them to `dst`. -/
theorem takeSpecific_net {s s' : State} {x : RunnerId} {src dst : WorkerId}
    (hdst : x = r → dst ∈ s.workers) (h : s.runImmediate (.takeSpecific x src dst) = .ok s') :
    s'.net r = if x = r then (s.net r).handle wrapping (.take src dst) else s.net r := by
  obtain ⟨_, hsrc, h⟩ := Runs.bind_eq_ok.mp h
  have hsrc : src ∈ s.workers := of_decide_eq_true (check_eq_ok.mp hsrc)
  have htaken := takenFrom_net (r := r) (x := x) hsrc
  have hpack := Prod.ext_iff.mp (Worker.getMoved_pack x (s.worker src))
  dsimp only at h hpack
  rw [hpack.1, hpack.2, ← Worker.takenFrom] at h
  by_cases hx : x = r
  · subst hx
    have hmem : dst ∈ (s.setWorker src ((s.worker src).takenFrom x)).workers := hdst rfl
    rw [if_pos hmem] at h
    cases h
    rw [addImmediateTask_net hmem, htaken]
    simp [ImmediateTask.letter, Handoff.Net.handle, net_store hsrc]
  · rw [if_neg (Ne.symm hx)] at htaken
    rw [if_neg hx, ← htaken]
    split at h
    · rename_i hmem
      cases h
      rw [addImmediateTask_net hmem]
      simp [ImmediateTask.letter, hx]
    · cases h
      rfl

theorem updateSpecific_net {s : State} {x : RunnerId} {dst : WorkerId} (hdst : dst ∈ s.workers)
    (keys : KeyArray) (specific : SpecificArray) : (s.modifyWorker dst fun w =>
      (w.updateSpecificKeys x keys).updateSpecific x specific).net r = if x = r then
        (s.net r).handle wrapping (.install dst (keys, specific)) else s.net r := by
  rw [modifyWorker, setWorker_net hdst, Worker.updateSpecific_entry, ← net_store hdst]
  have hletters : (((s.worker dst).updateSpecificKeys x keys).updateSpecific x specific).letters r =
      (s.net r).queue dst := (net_queue hdst).symm
  rw [hletters, Function.update_eq_self]
  by_cases hx : x = r
  · subst hx
    simp [Handoff.Net.handle, wrapping]
  · rw [if_neg (Ne.symm hx), if_neg hx, Function.update_eq_self]

/-- The inner task puts them into `dst`. -/
theorem installSpecific_net {s s' : State} {x : RunnerId} {dst : WorkerId} {keys : KeyArray}
    {specific : SpecificArray} (hdst : x = r → dst ∈ s.workers)
    (h : s.runImmediate (.installSpecific x dst keys specific) = .ok s') : s'.net r =
      if x = r then (s.net r).handle wrapping (.install dst (keys, specific)) else s.net r := by
  simp only [runImmediate] at h
  split at h
  · rename_i hmem
    cases h
    exact updateSpecific_net hmem keys specific
  · rename_i hmem
    cases h
    rw [if_neg fun hx => hmem (hdst hx)]

/-- The body of an immediate task handles its message, when that can be delivered. -/
theorem runImmediate_net {s s' : State} {task : ImmediateTask}
    (hdst : ∀ m, task.letter r = some m → m.dst ∈ s.workers) (h : s.runImmediate task = .ok s') :
    s'.net r = match task.letter r with
      | some m => (s.net r).handle wrapping m
      | none => s.net r := by
  cases task with
  | takeSpecific x src dst =>
    have hmem : x = r → dst ∈ s.workers :=
      fun hx => hdst (.take src dst) (by simp [ImmediateTask.letter, hx])
    rw [takeSpecific_net hmem h]
    by_cases hx : x = r <;> simp [ImmediateTask.letter, hx]
  | installSpecific x dst keys specific =>
    have hmem : x = r → dst ∈ s.workers :=
      fun hx => hdst (.install dst (keys, specific)) (by simp [ImmediateTask.letter, hx])
    rw [installSpecific_net hmem h]
    by_cases hx : x = r <;> simp [ImmediateTask.letter, hx]

/-- A `RunTask` does nothing to the data of `r`, or delivers the next message. -/
theorem runTask_net {s s' : State} {w : WorkerId} {clock : Nat → TimePoint}
    (hdst : ∀ m ∈ (s.net r).queue w, m.dst ∈ s.workers) (h : s.runTask E w clock = .ok s') :
    s'.net r = s.net r ∨ ∃ m ms, (s.net r).queue w = m :: ms ∧
      s'.net r = ((s.net r).pop w).handle wrapping m := by
  obtain ⟨hw, ⟨task, queue, hq, h⟩ | ⟨hplaces, hdata, -⟩⟩ := runTask_cases h
  · set t := (s.modifyWorker w fun x => { x with immediateTaskQueue := queue }).enter w none with ht
    have hnet : t.net r = {
        store := (s.net r).store
        queue := Function.update (s.net r).queue w (queue.filterMap (ImmediateTask.letter r)) } := by
      rw [ht, (enter_sameData _ w none).net rfl, modifyWorker, setWorker_net hw]
      have hentry : ({ s.worker w with immediateTaskQueue := queue } : Worker).entry r =
          (s.net r).store w := (net_store hw).symm
      rw [hentry, Function.update_eq_self]
      rfl
    have hqueue : (s.net r).queue w = (task.letter r).toList ++
        queue.filterMap (ImmediateTask.letter r) := by
      rw [net_queue hw, Worker.letters, hq, List.filterMap_cons]
      cases task.letter r <;> rfl
    have hrun := runImmediate_net (r := r) (fun m hm => by
      refine hdst m ?_
      rw [hqueue, hm]
      exact List.mem_cons_self) h
    cases hl : task.letter r with
    | none =>
      left
      rw [hl] at hrun hqueue
      have hsame : queue.filterMap (ImmediateTask.letter r) = (s.net r).queue w := hqueue.symm
      rw [hrun, hnet, hsame, Function.update_eq_self]
    | some m =>
      right
      rw [hl] at hrun hqueue
      refine ⟨m, _, hqueue, ?_⟩
      have hpop : t.net r = (s.net r).pop w := by
        rw [hnet, Handoff.Net.pop, hqueue]
        rfl
      rw [hrun, hpop]
  · exact Or.inl (hdata.net hplaces.workers)

/-! ## Ordering the moves -/

theorem staged_net {s : State} (hs : s.Wf) (n : Nat) : (s.staged E n).net r = s.net r := by
  have hnew : ∀ w, w ∈ (s.staged E n).workers → w ∉ s.workers →
      (s.staged E n).worker w = { groupId := E.groupId w } := by
    intro w hw hout
    rw [staged_workers, List.mem_append, List.mem_range'_1] at hw
    rw [staged, createWorkers_eq]
    exact if_pos (hw.resolve_left hout)
  have hmem : ∀ w, w ∈ s.workers → w ∈ (s.staged E n).workers := fun w hw => by
    rw [staged_workers]
    exact List.mem_append_left _ hw
  ext1 <;>
  · funext w
    by_cases hw : w ∈ s.workers
    · simp [net, hmem w hw, hw, staged_worker hs hw]
    · by_cases hw' : w ∈ (s.staged E n).workers
      · simp [net, hw, hw', hnew w hw' hw, Worker.entry, Worker.letters]
      · simp [net, hw, hw']

theorem handed_filter_nil {target : Nat → Option WorkerId} {groups : List Group}
    (h : ∀ g ∈ groups, r ∉ g) : (handed target groups).filter (·.1 = r) = [] := by
  rw [List.filter_eq_nil_iff]
  rintro ⟨x, w⟩ hp
  obtain ⟨k, g, hk, hx, -⟩ := mem_handed.mp hp
  simp only [decide_eq_true_eq]
  rintro rfl
  exact h g (List.mem_of_getElem? hk) hx

theorem handed_cons (target : Nat → Option WorkerId) (g : Group) (groups : List Group) :
    handed target (g :: groups) =
      (target 0).toList.flatMap (fun w => g.map (·, w)) ++ handed (fun k => target (k + 1)) groups := by
  cases h : target 0 <;> simp [handed, Deal.dealt, h]

/-- A runner that occurs once is handed over once. -/
theorem handed_filter_single {target : Nat → Option WorkerId} {groups : List Group}
    (hcount : groups.flatten.count r = 1) {k : Nat} {g : Group} {w : WorkerId}
    (hk : groups[k]? = some g) (hr : r ∈ g) (ht : target k = some w) :
    (handed target groups).filter (·.1 = r) = [(r, w)] := by
  induction groups generalizing target k with
  | nil => simp at hk
  | cons x groups ih =>
    rw [List.flatten_cons, List.count_append] at hcount
    rw [handed_cons, List.filter_append]
    cases k with
    | zero =>
      obtain rfl : x = g := by simpa using hk
      have hpos := List.count_pos_iff.mpr hr
      have hrest : ∀ g ∈ groups, r ∉ g := fun g hg hm => by
        have := List.count_pos_iff.mpr (List.mem_flatten.mpr ⟨g, hg, hm⟩)
        omega
      have hfilter : x.filter (· = r) = [r] := by
        have hone : x.count r = 1 := by omega
        rw [List.filter_eq, hone, List.replicate_one]
      rw [handed_filter_nil hrest, ht]
      simpa [List.filter_map, Function.comp_def] using congrArg (List.map (·, w)) hfilter
    | succ k =>
      have hk' : groups[k]? = some g := by simpa using hk
      have hpos := List.count_pos_iff.mpr (List.mem_flatten.mpr ⟨g, List.mem_of_getElem? hk', hr⟩)
      have hx : r ∉ x := fun hm => by
        have := List.count_pos_iff.mpr hm
        omega
      have hnil : ((target 0).toList.flatMap fun w => x.map (·, w)).filter (·.1 = r) = [] := by
        rw [List.filter_eq_nil_iff]
        rintro ⟨y, v⟩ hy
        obtain ⟨_, -, hy⟩ := List.mem_flatMap.mp hy
        obtain ⟨z, hz, he⟩ := List.mem_map.mp hy
        cases he
        simp only [decide_eq_true_eq]
        rintro rfl
        exact hx hz
      rw [hnil, ih (by omega) hk' ht, List.nil_append]

/-- All moves of the data of `r` are ordered from the worker it points to. -/
theorem posted_letters {s : State} {home : WorkerId} (hp : s.lock (s.runner r).worker = some home)
    (hs : List (RunnerId × WorkerId)) (w : WorkerId) :
    (s.posted hs w).filterMap (ImmediateTask.letter r) =
      if w = home then (hs.filter (·.1 = r)).map fun p => .take home p.2 else [] := by
  induction hs with
  | nil => simp [posted]
  | cons p hs ih =>
    obtain ⟨x, dst⟩ := p
    rw [posted_cons, List.filterMap_append, ih]
    by_cases hx : x = r
    · subst hx
      by_cases hw : w = home
      · subst hw
        simp [hp, ImmediateTask.letter]
      · simp [hp, hw, Ne.symm hw]
    · by_cases hl : s.lock (s.runner x).worker = some w <;> simp [hl, hx, ImmediateTask.letter]

theorem grown_net {s : State} (hs : s.Wf) {home : WorkerId} (hp : (s.runner r).worker = some home)
    (n : Nat) : (s.grown n).net r = { s.net r with
      queue := Function.update (s.net r).queue home ((s.net r).queue home ++
        ((handed (Deal.seat (s.rooms n)) s.pendingGroups).filter (·.1 = r)).map
          fun p => .take home p.2) } := by
  have hhome := hs.pointer r home hp
  have hletters := @posted_letters r s.gathered home ((hs.lock r).trans hp)
    (handed (Deal.seat (s.rooms n)) s.pendingGroups)
  have hentry : ∀ w, ((s.grown n).worker w).entry r = (s.worker w).entry r := fun w => by
    by_cases hw : w ∈ s.pool <;>
      simp [Worker.entry, grown, withDealt, gathered, retainedAll, Worker.retained, hw]
  have hqueue : ∀ w, ((s.grown n).worker w).letters r = (s.worker w).letters r ++
      if w = home then ((handed (Deal.seat (s.rooms n)) s.pendingGroups).filter (·.1 = r)).map
        (fun p => .take home p.2) else [] := fun w => by
    rw [← hletters]
    by_cases hw : w ∈ s.pool <;>
      simp [Worker.letters, grown, withDealt, gathered, retainedAll, Worker.retained, hw]
  ext1
  · funext w
    simp only [net, hentry]
    rfl
  · funext w
    dsimp only
    by_cases hw : w = home
    · subst hw
      rw [Function.update_self, net_queue hhome, net_queue (by exact hhome), hqueue, if_pos rfl]
    · rw [Function.update_of_ne hw]
      simp only [net, hqueue, if_neg hw, List.append_nil]
      rfl

/-! ## Following the runner -/

/-- The data of `r` is on its way from the worker that `r` points to, to the one
that holds `r`. -/
structure Carried (r : RunnerId) (home : WorkerId) (x : KeyArray × SpecificArray) (s : State) :
    Prop where
  wf : s.Wf
  pointer : (s.runner r).worker = some home
  once : s.allGroups.flatten.count r = 1
  carried : ∃ dst, s.Holds dst r ∧ Handoff.Phase wrapping home x dst (s.net r)

/-- Growing moves `r`, if at all, from the worker it points to, to another one, and
no move of its data waits there to be started. -/
def HomeMove (s : State) (r : RunnerId) : Prop :=
  (∃ g ∈ s.pendingGroups, r ∈ g) → 0 < s.groupsSize ∧ ∀ w, s.Holds w r →
    (s.runner r).worker = some w ∧
      ∀ src dst, .takeSpecific r src dst ∉ (s.worker w).immediateTaskQueue

variable {home : WorkerId} {x : KeyArray × SpecificArray}

/-- Growing neither copies nor drops `r`, and leaves its pointer alone. -/
theorem grown_keeps {s s' : State} {n : Nat} (hlt : s.size < n)
    (h : (s.growPlan n).Relocates s s') (hc : s.Carried r home x)
    (hdropped : (s.growPlan n).dropped.flatten.count r = 0) :
    (s'.runner r).worker = some home ∧ s'.allGroups.flatten.count r = 1 := by
  have hsum := (h.conserves (growPlan_splits hc.wf.nodup hlt.le) hc.wf.nodup).flatten.count_eq r
  rw [List.flatten_append, List.count_append, hc.once, hdropped] at hsum
  refine ⟨?_, hsum⟩
  rcases h.pointer r with ⟨ha, -⟩ | ⟨-, he⟩
  · cases ha
  · exact he.trans hc.pointer

/-- The group of `r` is not among those that are dealt out. -/
theorem grown_stays {s s' : State} {n : Nat} (hlt : s.size < n)
    (h : (s.growPlan n).Relocates s s') (hnet : s'.net r = (s.grown n).net r) (hwf : s'.Wf)
    (hc : s.Carried r home x) (hno : ∀ g ∈ s.pendingGroups, r ∉ g) : s'.Carried r home x := by
  have hp := growPlan_splits hc.wf.nodup hlt.le
  have hdropped : (s.growPlan n).dropped.flatten.count r = 0 := by
    rw [List.count_eq_zero, List.mem_flatten]
    rintro ⟨g, hg, hr⟩
    obtain ⟨k, hk, -⟩ := Deal.mem_unplaced.mp hg
    exact hno g (List.mem_of_getElem? hk) hr
  obtain ⟨hpointer, honce⟩ := grown_keeps hlt h hc hdropped
  obtain ⟨dst, hdst, hphase⟩ := hc.carried
  rw [grown_net hc.wf hc.pointer, handed_filter_nil hno, List.map_nil, List.append_nil,
    Function.update_eq_self] at hnet
  refine ⟨hwf, hpointer, honce, dst, h.holds.mpr (Or.inl ?_), by rw [hnet]; exact hphase⟩
  refine (hp.holds hc.wf hdst).resolve_right ?_
  rintro ⟨k, g, hk, hr⟩
  exact hno g (List.mem_of_getElem? hk) hr

/-- It is, and goes to a new worker from the one that `r` points to. -/
theorem grown_moves {s s' : State} {n : Nat} (hlt : s.size < n)
    (h : (s.growPlan n).Relocates s s') (hnet : s'.net r = (s.grown n).net r) (hwf : s'.Wf)
    (hc : s.Carried r home x) {g : Group} (hg : g ∈ s.pendingGroups) (hr : r ∈ g)
    (hsize : 0 < s.groupsSize) (hheld : s.Holds home r)
    (hfree : ∀ src dst, .takeSpecific r src dst ∉ (s.worker home).immediateTaskQueue) :
    s'.Carried r home x := by
  have hdropped : (s.growPlan n).dropped = [] := (growPlan_dropped hlt).mpr (Or.inr hsize)
  obtain ⟨hpointer, honce⟩ := grown_keeps hlt h hc (by rw [hdropped]; rfl)
  obtain ⟨dst, hdst, hphase⟩ := hc.carried
  obtain rfl : dst = home := holds_unique hc.wf hc.once.le hdst hheld
  obtain ⟨k, hk⟩ := List.getElem?_of_mem hg
  obtain ⟨d, hd⟩ := Option.ne_none_iff_exists'.mp (Deal.seat_ne_none (rooms_neg hlt hsize) k)
  -- One move is ordered, not two: `r` occurs once among the pending groups.
  have hcount : s.pendingGroups.flatten.count r = 1 := by
    have hpos := List.count_pos_iff.mpr (List.mem_flatten.mpr ⟨g, hg, hr⟩)
    have hperm := (growPlan_splits hc.wf.nodup hlt.le).perm.flatten.count_eq r
    have hmoved : (s.growPlan n).moved = s.pendingGroups := rfl
    rw [List.flatten_append, List.count_append, hc.once, hmoved] at hperm
    omega
  rw [grown_net hc.wf hc.pointer, handed_filter_single hcount hk hr hd] at hnet
  refine ⟨hwf, hpointer, honce, d, h.holds.mpr (Or.inr ⟨k, g, hk, hr, hd⟩), ?_⟩
  rw [hnet]
  refine hphase.order (fun src d hmem => ?_) d
  rw [net_queue (hc.wf.pointer r dst hc.pointer), Worker.letters, List.mem_filterMap] at hmem
  obtain ⟨task, htask, hletter⟩ := hmem
  cases task with
  | takeSpecific y src' dst' =>
    by_cases hy : y = r
    · subst hy
      exact hfree src' dst' htask
    · simp [ImmediateTask.letter, hy] at hletter
  | installSpecific y dst' keys specific =>
    by_cases hy : y = r <;> simp [ImmediateTask.letter, hy] at hletter

theorem grown_carried {s s' : State} {n : Nat} (hlt : s.size < n) (h : (s.growPlan n).Relocates s s')
    (hnet : s'.net r = (s.grown n).net r) (hwf : s'.Wf) (hc : s.Carried r home x)
    (hm : s.HomeMove r) : s'.Carried r home x := by
  by_cases hmoved : ∃ g ∈ s.pendingGroups, r ∈ g
  · obtain ⟨dst, hdst, -⟩ := hc.carried
    obtain ⟨hsize, hhome⟩ := hm hmoved
    obtain ⟨hpointer, hfree⟩ := hhome dst hdst
    obtain rfl : home = dst := Option.some.inj (hc.pointer.symm.trans hpointer)
    obtain ⟨g, hg, hr⟩ := hmoved
    exact grown_moves hlt h hnet hwf hc hg hr hsize hdst hfree
  · exact grown_stays hlt h hnet hwf hc fun g hg hr => hmoved ⟨g, hg, hr⟩

theorem staged_carried {s : State} (hc : s.Carried r home x) (n : Nat) :
    (s.staged E n).Carried r home x := by
  refine ⟨staged_wf hc.wf n, ?_, ?_, ?_⟩
  · rw [staged_runner]
    exact hc.pointer
  · rw [staged_allGroups hc.wf]
    exact hc.once
  · simp only [Holds, staged_held hc.wf, staged_net hc.wf]
    exact hc.carried

theorem staged_homeMove {s : State} (hs : s.Wf) {n : Nat} (hm : s.HomeMove r) :
    (s.staged E n).HomeMove r := by
  unfold HomeMove
  rw [staged_pendingGroups hs, staged_groupsSize hs, staged_runner]
  intro hmoved
  obtain ⟨hsize, hhome⟩ := hm hmoved
  refine ⟨hsize, fun w hw => ?_⟩
  rw [Holds, staged_held hs] at hw
  rw [staged_worker hs (hs.mem_of_holds hw)]
  exact hhome w hw

theorem resize_carried {s s' : State} (hc : s.Carried r home x) {n : Nat} (hn : s.size ≤ n)
    (h : s.resize E n = .ok s') (hm : s.size < n → s.HomeMove r) : s'.Carried r home x := by
  have hwf := resize_wf hc.wf h
  have hre := resize_relocates hc.wf h
  rcases (resize_eq_ok hc.wf).mp h with ⟨rfl, rfl⟩ | ⟨hlt, -, rfl⟩ | ⟨-, hlt, -⟩
  · exact hc
  · rw [resizePlan, if_neg (by omega), if_pos hlt] at hre
    exact grown_carried (by simpa using hlt) hre rfl hwf (staged_carried hc n) (staged_homeMove hc.wf (hm hlt))
  · omega

theorem SamePlaces.carried {s s' : State} (h : SamePlaces s s') (hwf : s'.Wf)
    (hc : s.Carried r home x)
    (hnet : ∀ dst, s.Holds dst r → Handoff.Phase wrapping home x dst (s.net r) →
      Handoff.Phase wrapping home x dst (s'.net r)) : s'.Carried r home x := by
  obtain ⟨dst, hdst, hphase⟩ := hc.carried
  refine ⟨hwf, (h.pointer r).trans hc.pointer, ?_, dst, (h.holds dst r).mpr hdst,
    hnet dst hdst hphase⟩
  rw [h.allGroups_perm.flatten.count_eq]
  exact hc.once

end State

/-- Resizing and running tasks. -/
def Op.NotPlacing : Op → Prop
  | .createTaskRunner .. | .addSubTaskRunner .. | .removeSubTaskRunner .. | .removeTaskRunner _ => False
  | _ => True

namespace State

variable {E : Env} {r : RunnerId} {home : WorkerId} {x : KeyArray × SpecificArray}

/-- A resize does not shrink the pool. -/
def Growing (s : State) : Op → Prop
  | .resize n => s.size ≤ n
  | _ => True

/-- The condition for the data to follow the runner. -/
def MovesHome (r : RunnerId) (s : State) : Op → Prop
  | .resize n => s.size < n → s.HomeMove r
  | .addWorker => s.HomeMove r
  | _ => True

theorem step_carried {s s' : State} {op : Op} (hop : op.NotPlacing) (hc : s.Carried r home x)
    (hg : s.Growing op) (hm : s.MovesHome r op) (h : step E s op = .ok s') :
    s'.Carried r home x := by
  have hwf := (step_effect h).wf hc.wf
  have hpost : ∀ {queue : TaskRunner → TaskRunner} {y : RunnerId},
      (∀ z, (queue z).place = z.place) → s.post y queue = .ok s' → s'.Carried r home x := by
    intro queue y hq h
    obtain ⟨hplaces, hworker, -⟩ := post_samePlaces hq h
    refine hplaces.carried hwf hc fun dst _ hphase => ?_
    rwa [(SameData.of_worker hworker).net hplaces.workers]
  cases op with
  | createTaskRunner groupId priority isSchedulable => exact hop.elim
  | addSubTaskRunner y sub b => exact hop.elim
  | removeSubTaskRunner y sub => exact hop.elim
  | removeTaskRunner y => exact hop.elim
  | resize n => exact resize_carried hc hg h hm
  | addWorker =>
    rw [step, addWorker_eq] at h
    exact resize_carried hc (Nat.le_succ _) h fun _ => hm
  | postTask y task => exact hpost (TaskRunner.postTask_place task) h
  | postDelayedTask y now task delay =>
    exact hpost (TaskRunner.postDelayedTask_place E now task delay) h
  | postIdleTask y task => exact hpost (TaskRunner.postIdleTask_place task) h
  | runTask w clock =>
    refine (runTask_samePlaces h).1.carried hwf hc fun dst hdst hphase => ?_
    have hpool : ∀ m ∈ (s.net r).queue w, m.dst ∈ s.workers := by
      intro m hmem
      rcases hphase.dst_mem hmem with he | he <;> rw [he]
      · exact hc.wf.pointer r home hc.pointer
      · exact hc.wf.mem_of_holds hdst
    rcases runTask_net hpool h with hnet | ⟨m, ms, hq, hnet⟩
    · rwa [hnet]
    · rw [hnet]
      exact hphase.deliver hq
  | finishTask w elapsed =>
    obtain ⟨hplaces, hdata, -⟩ := finishTask_samePlaces h
    refine hplaces.carried hwf hc fun dst _ hphase => ?_
    rwa [hdata.net hplaces.workers]

/-! ## The start and the end of the way -/

/-- The runner `r` is in one place, which is the worker it points to, with its data
there and nowhere else, and no task about it is waiting. -/
structure Settled (s : State) (r : RunnerId) (home : WorkerId) (keys : KeyArray)
    (specific : SpecificArray) : Prop where
  pointer : (s.runner r).worker = some home
  holds : s.Holds home r
  once : s.allGroups.flatten.count r = 1
  entry : (s.worker home).entry r = (some keys, some specific)
  alone : ∀ w ∈ s.workers, w ≠ home → (s.worker w).entry r = (none, none)
  quiet : ∀ w ∈ s.workers, (s.worker w).letters r = []

/-- Once all immediate tasks are done, the worker that holds `r` has its data, and
no other worker has an entry. -/
def Follows (r : RunnerId) (keys : KeyArray) (specific : SpecificArray) (s : State) : Prop :=
  (∀ w ∈ s.workers, (s.worker w).immediateTaskQueue = []) → ∃ w, (∀ v, s.Holds v r ↔ v = w) ∧
    (s.worker w).workerKeyMap[r]? = some keys ∧ (s.worker w).specificMap[r]? = some specific ∧
    ∀ v ∈ s.workers, v ≠ w →
      (s.worker v).workerKeyMap[r]? = none ∧ (s.worker v).specificMap[r]? = none

theorem Settled.carried {s : State} (hs : s.Wf) {keys : KeyArray} {specific : SpecificArray}
    (h : s.Settled r home keys specific) : s.Carried r home (keys, specific) := by
  refine ⟨hs, h.pointer, h.once, home, h.holds, ?_⟩
  have hnet : s.net r = ⟨Handoff.lone home (some keys, some specific) (none, none), fun _ => []⟩ := by
    ext1 <;> funext w <;> dsimp only
    · by_cases hw : w ∈ s.workers
      · rw [net_store hw]
        by_cases he : w = home
        · subst he
          rw [h.entry, Handoff.lone_self]
        · rw [h.alone w hw he, Handoff.lone_of_ne he]
      · have he : w ≠ home := fun e => hw (e ▸ hs.mem_of_holds h.holds)
        rw [Handoff.lone_of_ne he]
        exact if_neg hw
    · by_cases hw : w ∈ s.workers
      · rw [net_queue hw, h.quiet w hw]
      · exact if_neg hw
  rw [hnet]
  exact Handoff.Phase.stored

theorem Carried.follows {s : State} {keys : KeyArray} {specific : SpecificArray}
    (hc : s.Carried r home (keys, specific)) : s.Follows r keys specific := by
  intro hq
  obtain ⟨dst, hdst, hphase⟩ := hc.carried
  have hquiet : ∀ w, (s.net r).queue w = [] := by
    intro w
    by_cases hw : w ∈ s.workers
    · rw [net_queue hw, Worker.letters, hq w hw, List.filterMap_nil]
    · exact if_neg hw
  have hstore := hphase.arrived hquiet
  have hentry : ∀ w ∈ s.workers,
      (s.worker w).entry r = Handoff.lone dst (some keys, some specific) (none, none) w := by
    intro w hw
    rw [← net_store hw, hstore]
    rfl
  have hhere := hentry dst (hc.wf.mem_of_holds hdst)
  rw [Handoff.lone_self, Worker.entry, Prod.mk.injEq] at hhere
  refine ⟨dst, fun v => ⟨fun hv => holds_unique hc.wf hc.once.le hv hdst, ?_⟩, hhere.1, hhere.2, ?_⟩
  · rintro rfl
    exact hdst
  · intro v hv hne
    have hthere := hentry v hv
    rwa [Handoff.lone_of_ne hne, Worker.entry, Prod.mk.injEq] at hthere

end State

/-- **The data follows its runner.** Take a runner of a reachable state that is
settled on its worker. Along every run of resizes that do not shrink the pool and
of the workers' steps, in which the runner is only ever moved from the worker it
points to, and not while an earlier move has not been started, the worker that
holds the runner has its data as soon as all immediate tasks are done, and no other
worker has an entry. -/
theorem data_follows_runner {E : Env} {s : State} (h : Reachable E s) {r : RunnerId}
    {home : WorkerId} {keys : KeyArray} {specific : SpecificArray}
    (hr : s.Settled r home keys specific) (ops : List Op) (hops : ∀ op ∈ ops, op.NotPlacing)
    (hg : Meets (step E) State.Growing s ops) (hm : Meets (step E) (State.MovesHome r) s ops) :
    Always (step E) (State.Follows r keys specific) s ops := by
  refine always_of_meets (I := State.Carried r home (keys, specific)) ?_ (fun _ hc => hc.follows) hops
    (hr.carried h.wf) (meets_and hg hm)
  exact fun s op s' hop hc hcond h => State.step_carried hop hc hcond.1 hcond.2 h

/-- Three runners that have been run, and a fourth one that waits behind them. -/
def fourRunners : State := last (step .debug) (State.new .debug 2)
  [.createTaskRunner 0 1 true, .createTaskRunner 0 1 true, .createTaskRunner 0 1 true,
    .runTask 0 fun _ => 0, .createTaskRunner 0 1 true]

theorem fourRunners_reachable : Reachable .debug fourRunners := ⟨2, _, by decide, run_last (by decide)⟩

theorem fourRunners_settled : fourRunners.Settled 3 0 KeyArray.empty SpecificArray.empty := by
  have hworkers : fourRunners.workers = [0, 1] := by decide
  refine ⟨by decide, ⟨[3], by decide, by decide⟩, by decide, rfl, ?_, ?_⟩
  · intro w hw hne
    rw [hworkers, List.mem_pair] at hw
    rcases hw with rfl | rfl
    · exact absurd rfl hne
    · rfl
  · intro w hw
    rw [hworkers, List.mem_pair] at hw
    rcases hw with rfl | rfl <;> rfl

/-- The fourth runner is moved to a new worker, and its data arrives there. -/
theorem data_follows_first_move : Always (step .debug)
    (State.Follows 3 KeyArray.empty SpecificArray.empty) fourRunners
    [.resize 3, .runTask 0 fun _ => 0, .runTask 2 fun _ => 0] := by
  refine data_follows_runner fourRunners_reachable fourRunners_settled _ ?_
    (meets_of_take fun k op hk => ?_) (meets_of_take fun k op hk => ?_)
  · intro op hop
    fin_cases hop <;> trivial
  · match k, hk with
    | 0, rfl =>
      rw [List.take_zero, last]
      exact (by decide +kernel : fourRunners.size ≤ 3)
    | 1, rfl => trivial
    | 2, rfl => trivial
  · match k, hk with
    | 0, rfl =>
      rw [List.take_zero, last]
      intro _ _
      refine ⟨by decide +kernel, fun w hw => ?_⟩
      obtain rfl : w = 0 := State.holds_unique fourRunners_reachable.wf
        fourRunners_settled.once.le hw fourRunners_settled.holds
      refine ⟨fourRunners_settled.pointer, fun src dst hmem => ?_⟩
      have hempty : (fourRunners.worker 0).immediateTaskQueue = [] := rfl
      rw [hempty] at hmem
      cases hmem
    | 1, rfl => trivial
    | 2, rfl => trivial

/-- The pool grows twice before a worker runs its immediate tasks. -/
def movedTwice : List Op := [.resize 3, .resize 4, .runTask 0 fun _ => 0, .runTask 0 fun _ => 0,
  .runTask 0 fun _ => 0, .runTask 2 fun _ => 0]

/-- Moved twice, the runner leaves an entry behind on the worker in between. -/
theorem second_move_leaves_entry : fourRunners.Settled 3 0 KeyArray.empty SpecificArray.empty ∧
    Meets (step .debug) State.Growing fourRunners movedTwice ∧
    ¬ Always (step .debug) (State.Follows 3 KeyArray.empty SpecificArray.empty) fourRunners
      movedTwice := by
  refine ⟨fourRunners_settled, meets_of_take fun k op hk => ?_, fun h => ?_⟩
  · match k, hk with
    | 0, rfl =>
      rw [List.take_zero, last]
      exact (by decide +kernel : fourRunners.size ≤ 3)
    | 1, rfl => exact (by decide +kernel : (last (step .debug) fourRunners [.resize 3]).size ≤ 4)
    | 2, rfl => trivial
    | 3, rfl => trivial
    | 4, rfl => trivial
    | 5, rfl => trivial
  · have hfollows := always_iff_run.mp h _ List.prefix_rfl _ (run_last (by decide +kernel))
    have hempty : ∀ w ∈ (last (step .debug) fourRunners movedTwice).workers,
        ((last (step .debug) fourRunners movedTwice).worker w).immediateTaskQueue.isEmpty = true := by
      decide +kernel
    have hheld : [3] ∈ State.held (last (step .debug) fourRunners movedTwice) 0 := by decide +kernel
    have hsome : ((last (step .debug) fourRunners movedTwice).worker 2).workerKeyMap[(3 :
        RunnerId)]?.isSome = true := by decide +kernel
    have hmem : 2 ∈ (last (step .debug) fourRunners movedTwice).workers := by decide +kernel
    obtain ⟨w, hholds, -, -, hrest⟩ := hfollows fun w hw => List.isEmpty_iff.mp (hempty w hw)
    have hw : 0 = w := (hholds 0).mp ⟨[3], hheld, List.mem_singleton_self 3⟩
    have hnone := (hrest 2 hmem (by rw [← hw]; decide)).1
    rw [hnone] at hsome
    cases hsome

end Footstone
