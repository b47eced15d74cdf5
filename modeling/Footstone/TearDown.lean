import Footstone.Specific

/-!
How runner-specific data is destroyed: for one runner, and for all runners of a
worker in its destructor. The loop of the destructor advances the iterator it
means to advance a copy of, so that it comes through only when there is nothing
to destroy.
-/

namespace Footstone

/-- A destructor called on the pointer in one slot of a runner. -/
structure DestructCall where
  runnerId : RunnerId
  slot : Fin kWorkerKeysMax
  destruct : Nat
  data : Nat
  deriving DecidableEq

namespace Worker

/-- The body of the loop over the slots. -/
def destructCall (r : RunnerId) (keys : KeyArray) (specific : SpecificArray)
    (i : Fin kWorkerKeysMax) : Option DestructCall :=
  match (keys i).destruct, specific i with
  | some destruct, some data => some ⟨r, i, destruct, data⟩
  | _, _ => none

/-- With the calls it makes. -/
def workerDestroySpecificNoLock (r : RunnerId) (w : Worker) : List DestructCall × Worker :=
  match w.workerKeyMap[r]?, w.specificMap[r]? with
  | some keys, some specific =>
    ((List.finRange kWorkerKeysMax).filterMap (destructCall r keys specific),
      { w with workerKeyMap := w.workerKeyMap.erase r, specificMap := w.specificMap.erase r })
  | _, _ => ([], w)

def workerDestroySpecific (r : RunnerId) (w : Worker) : List DestructCall × Worker :=
  w.workerDestroySpecificNoLock r

/-- The loop of `WorkerDestroySpecifics`, with the ids in `specific_map_` from
`map_it` on. `auto next = ++map_it` moves `map_it` as well: both stand on the
second id, or at the end, and what is destroyed is there. If that erases the
entry, the loop goes on from an erased position. -/
def destroyFrom : List RunnerId → Worker → Except Fault (List DestructCall × Worker)
  | [], w => .ok ([], w)
  | [_], _ => .error .iterator
  | _ :: next :: rest, w =>
    let (calls, w) := w.workerDestroySpecificNoLock next
    if next ∈ w.specificMap then do
      let (more, w) ← destroyFrom (next :: rest) w
      return (calls ++ more, w)
    else .error .iterator

def workerDestroySpecifics (w : Worker) : Except Fault (List DestructCall × Worker) :=
  destroyFrom w.specificMap.keys w

/-- The destructor and the pointer of the call are those in its slot. -/
def Due (w : Worker) (c : DestructCall) : Prop :=
  (w.keys c.runnerId c.slot).destruct = some c.destruct ∧
    w.pointers c.runnerId c.slot = some c.data

/-- The call returns, makes every call that is due once and no other, and both
maps are empty. -/
def TearsDown (w : Worker) : Prop :=
  ∃ calls w', w.workerDestroySpecifics = .ok (calls, w') ∧ calls.Nodup ∧
    (∀ c, c ∈ calls ↔ w.Due c) ∧ w'.workerKeyMap.isEmpty = true ∧ w'.specificMap.isEmpty = true

/-! ## One runner -/

theorem destructCall_eq_some {r : RunnerId} {keys : KeyArray} {specific : SpecificArray}
    {i : Fin kWorkerKeysMax} {c : DestructCall} :
    destructCall r keys specific i = some c ↔
      c.runnerId = r ∧ c.slot = i ∧ (keys i).destruct = some c.destruct ∧
        specific i = some c.data := by
  obtain ⟨runnerId, slot, destruct, data⟩ := c
  unfold destructCall
  split
  · rename_i d p hd hp
    simp only [Option.some.injEq, DestructCall.mk.injEq, hd, hp]
    constructor
    · rintro ⟨rfl, rfl, rfl, rfl⟩
      exact ⟨rfl, rfl, rfl, rfl⟩
    · rintro ⟨rfl, rfl, rfl, rfl⟩
      exact ⟨rfl, rfl, rfl, rfl⟩
  · rename_i hnone
    simp only [reduceCtorEq, false_iff, not_and]
    exact fun _ _ hd hp => hnone _ _ hd hp

/-- Destroying the data of a runner with entries in both maps is right: every call
that is due for it is made once, and its entries are gone. -/
theorem workerDestroySpecific_exact {r : RunnerId} {w : Worker} (h : w.HasEntries r) :
    (w.workerDestroySpecific r).1.Nodup ∧
      (∀ c, c ∈ (w.workerDestroySpecific r).1 ↔ c.runnerId = r ∧ w.Due c) ∧
      r ∉ (w.workerDestroySpecific r).2.workerKeyMap ∧
      r ∉ (w.workerDestroySpecific r).2.specificMap := by
  simp only [workerDestroySpecific, workerDestroySpecificNoLock, h.keyMap, h.specificMap]
  refine ⟨?_, fun c => ?_, by simp, by simp⟩
  · refine (List.nodup_finRange _).filterMap fun i j c hi hj => ?_
    rw [← (destructCall_eq_some.mp hi).2.1, ← (destructCall_eq_some.mp hj).2.1]
  · simp only [List.mem_filterMap, List.mem_finRange, true_and, destructCall_eq_some, Due]
    constructor
    · rintro ⟨i, rfl, rfl, hd, hp⟩
      exact ⟨rfl, hd, hp⟩
    · rintro ⟨rfl, hd, hp⟩
      exact ⟨_, rfl, rfl, hd, hp⟩

/-! ## All runners -/

/-- With anything in the map, the loop leaves it. -/
theorem destroyFrom_eq_ok {ids : List RunnerId} {w w' : Worker} {calls : List DestructCall} :
    destroyFrom ids w = .ok (calls, w') ↔ ids = [] ∧ calls = [] ∧ w' = w := by
  constructor
  · induction ids generalizing w w' calls with
    | nil =>
      intro h
      cases h
      exact ⟨rfl, rfl, rfl⟩
    | cons id rest ih =>
      intro h
      cases rest with
      | nil => cases h
      | cons next rest =>
        unfold destroyFrom at h
        dsimp only at h
        split at h
        · obtain ⟨⟨more, x⟩, hrest, -⟩ := Runs.bind_eq_ok.mp h
          exact absurd (ih hrest).1 (List.cons_ne_nil _ _)
        · cases h
  · rintro ⟨rfl, rfl, rfl⟩
    rfl

/-- **Tear-down.** For a worker whose maps have the same ids,
`WorkerDestroySpecifics` does what it should exactly when the maps are empty. -/
theorem tearsDown_iff (w : Worker) (h : ∀ id, id ∈ w.workerKeyMap ↔ id ∈ w.specificMap) :
    w.TearsDown ↔ w.specificMap.isEmpty = true := by
  constructor
  · rintro ⟨calls, w', hok, -⟩
    obtain ⟨hids, -, -⟩ := destroyFrom_eq_ok.mp hok
    rw [← Std.TreeMap.isEmpty_keys, hids]
    rfl
  · intro hempty
    have hspecific := Std.TreeMap.isEmpty_iff_forall_not_mem.mp hempty
    have hkeys : ∀ id, id ∉ w.workerKeyMap := fun id hid => hspecific id ((h id).mp hid)
    have hids : w.specificMap.keys = [] := by
      rw [← List.isEmpty_iff, Std.TreeMap.isEmpty_keys, hempty]
    refine ⟨[], w, destroyFrom_eq_ok.mpr ⟨hids, rfl, rfl⟩, List.nodup_nil, fun c => ?_,
      Std.TreeMap.isEmpty_iff_forall_not_mem.mpr hkeys, hempty⟩
    have hnull : w.pointers c.runnerId c.slot = none := by
      have hnone := Std.TreeMap.getElem?_eq_none (hspecific c.runnerId)
      simp [pointers, hnone, SpecificArray.empty]
    simp [Due, hnull]

end Worker

/-- A worker with data of the given runners: a pointer and its destructor in the
first slot. -/
def loadedWorker (ids : List RunnerId) : Worker where
  groupId := 0
  workerKeyMap := ids.foldl (fun m id => m.insert id fun i =>
    if i.val = 0 then { isUsed := true, destruct := some 1 } else {}) ∅
  specificMap := ids.foldl (fun m id => m.insert id fun i => if i.val = 0 then some id else none) ∅

/-- Two runners: the second one's entry is erased under the iterator. -/
theorem tearsDown_two_runners : ¬ (loadedWorker [1, 2]).TearsDown := by
  intro h
  have hempty := (Worker.tearsDown_iff _ fun id => by simp [loadedWorker]).mp h
  simp [loadedWorker] at hempty

/-- One runner: its pointer is never destroyed. -/
theorem last_specific_not_destroyed : ¬ (loadedWorker [1]).TearsDown := by
  rintro ⟨calls, w', hok, -⟩
  obtain ⟨hids, -, -⟩ := Worker.destroyFrom_eq_ok.mp hok
  have hmem : 1 ∈ (loadedWorker [1]).specificMap.keys := by simp [loadedWorker]
  rw [hids] at hmem
  cases hmem

end Footstone
