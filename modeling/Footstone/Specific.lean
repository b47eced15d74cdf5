import Footstone.Handout

/-!
Runner-specific storage: the four calls on the keys and the pointers of a runner,
against a keyed storage. Each call of the code finds the array of the runner in a
map and works on a copy of it, so that nothing a call does is there for the next
one.
-/

namespace Footstone

/-- A call on a worker, with the runner it is about. -/
inductive KeyCall where
  | create (id : RunnerId) (destruct : Option Nat)
  | delete (id : RunnerId) (key : Int32)
  | set (id : RunnerId) (key : Int32) (p : Option Nat)
  | get (id : RunnerId) (key : Int32)
  deriving DecidableEq

/-- What a call returns. -/
inductive KeyAnswer where
  | key (k : Int)
  | done (b : Bool)
  | pointer (p : Option Nat)
  deriving DecidableEq

def KeyCall.id : KeyCall → RunnerId
  | create id _ | delete id _ | set id _ _ | get id _ => id

/-! ## The storage -/

/-- What every runner has in use, and the pointers it has set. -/
structure KeyStore where
  used : RunnerId → Int → Bool
  pointer : RunnerId → Int → Option Nat

namespace KeyStore

def setUsed (id : RunnerId) (key : Int) (b : Bool) (s : KeyStore) : KeyStore :=
  { s with used := Function.update s.used id (Function.update (s.used id) key b) }

def setPointer (id : RunnerId) (key : Int) (p : Option Nat) (s : KeyStore) : KeyStore :=
  { s with pointer := Function.update s.pointer id (Function.update (s.pointer id) key p) }

@[simp] theorem used_setUsed (id id' : RunnerId) (key k : Int) (b : Bool) (s : KeyStore) :
    (s.setUsed id key b).used id' k = if id' = id ∧ k = key then b else s.used id' k := by
  by_cases hid : id' = id
  · subst hid
    by_cases hk : k = key <;> simp [setUsed, hk]
  · simp [setUsed, hid]

@[simp] theorem pointer_setUsed (id : RunnerId) (key : Int) (b : Bool) (s : KeyStore) :
    (s.setUsed id key b).pointer = s.pointer := rfl

@[simp] theorem pointer_setPointer (id id' : RunnerId) (key k : Int) (p : Option Nat)
    (s : KeyStore) : (s.setPointer id key p).pointer id' k =
      if id' = id ∧ k = key then p else s.pointer id' k := by
  by_cases hid : id' = id
  · subst hid
    by_cases hk : k = key <;> simp [setPointer, hk]
  · simp [setPointer, hid]

/-- Every key of the runner is in use. -/
def Full (id : RunnerId) (s : KeyStore) : Prop := ∀ i : Fin kWorkerKeysMax, s.used id i = true

instance (id : RunnerId) (s : KeyStore) : Decidable (s.Full id) :=
  inferInstanceAs (Decidable (∀ _ : Fin kWorkerKeysMax, _))

/-- The storage after a call with that answer, if the answer is right. -/
def next (s : KeyStore) : KeyCall → KeyAnswer → Option KeyStore
  | .create id _, .key k =>
    if 0 ≤ k then (if s.used id k then none else some (s.setUsed id k true))
    else if s.Full id then some s else none
  | .delete id key, .done b =>
    if b = s.used id key.toInt then some (s.setUsed id key.toInt false) else none
  | .set id key p, .done b => some (if b then s.setPointer id key.toInt p else s)
  | .get id key, .pointer p => if p = s.pointer id key.toInt then some s else none
  | _, _ => none

/-- The storage after all the calls, if all the answers are right. -/
def replay : KeyStore → List (KeyCall × KeyAnswer) → Option KeyStore
  | s, [] => some s
  | s, (c, a) :: rest => (s.next c a).bind fun s' => replay s' rest

/-- All answers are right, one after the other. -/
def Accepts (s : KeyStore) (trace : List (KeyCall × KeyAnswer)) : Prop :=
  (s.replay trace).isSome = true

instance (s : KeyStore) (trace : List (KeyCall × KeyAnswer)) : Decidable (s.Accepts trace) :=
  inferInstanceAs (Decidable (_ = true))

theorem accepts_cons {s : KeyStore} {c : KeyCall} {a : KeyAnswer}
    {rest : List (KeyCall × KeyAnswer)} :
    s.Accepts ((c, a) :: rest) ↔ ∃ s', s.next c a = some s' ∧ s'.Accepts rest := by
  cases h : s.next c a <;> simp [Accepts, replay, h]

/-- A call on one runner is not seen by another. -/
theorem next_other {s s' : KeyStore} {c : KeyCall} {a : KeyAnswer} (h : s.next c a = some s')
    {id : RunnerId} (hid : id ≠ c.id) : s'.used id = s.used id ∧ s'.pointer id = s.pointer id := by
  have hused : ∀ key b, (s.setUsed c.id key b).used id = s.used id := fun key b =>
    funext fun k => by simp [hid]
  have hpointer : ∀ key p, (s.setPointer c.id key p).pointer id = s.pointer id := fun key p =>
    funext fun k => by simp [hid]
  cases c <;> cases a <;> simp only [next, KeyCall.id, reduceCtorEq] at h hused hpointer
  · split at h
    · split at h <;> cases h
      exact ⟨hused _ _, rfl⟩
    · split at h <;> cases h
      exact ⟨rfl, rfl⟩
  · split at h <;> cases h
    exact ⟨hused _ _, rfl⟩
  · cases h
    split
    · exact ⟨rfl, hpointer _ _⟩
    · exact ⟨rfl, rfl⟩
  · split at h <;> cases h
    exact ⟨rfl, rfl⟩

end KeyStore

/-! ## The code -/

namespace Worker

/-- The place of a key in an array, if it passes `key >= array.size()`: the key is
compared as a `size_t`, and a negative one is too large. -/
def slot (key : Int32) : Option (Fin kWorkerKeysMax) :=
  if h : (key.toInt % 2 ^ 64).toNat < kWorkerKeysMax then some ⟨_, h⟩ else none

/-- With the array, a copy, that the key is marked as free in. -/
def workerKeyDelete (taskRunnerId : RunnerId) (key : Int32) (w : Worker) : Bool × KeyArray :=
  match w.workerKeyMap[taskRunnerId]? with
  | none => (false, KeyArray.empty)
  | some array =>
    match slot key with
    | none => (false, array)
    | some i =>
      if (array i).isUsed then
        (true, Function.update array i { isUsed := false, destruct := none })
      else (false, array)

/-- With the array, a copy, that the pointer is stored in. -/
def workerSetSpecific (taskRunnerId : RunnerId) (key : Int32) (p : Option Nat) (w : Worker) :
    Bool × SpecificArray :=
  match w.specificMap[taskRunnerId]? with
  | none => (false, SpecificArray.empty)
  | some array =>
    match slot key with
    | none => (false, array)
    | some i => (true, Function.update array i p)

def workerGetSpecific (taskRunnerId : RunnerId) (key : Int32) (w : Worker) : Option Nat :=
  match w.specificMap[taskRunnerId]? with
  | none => none
  | some array => (slot key).bind array

/-- A call, with the worker after it: the copies are dropped. -/
def keyCall (c : KeyCall) (w : Worker) : KeyAnswer × Worker :=
  match c with
  | .create id destruct => (.key (w.workerKeyCreate id destruct).1, w)
  | .delete id key => (.done (w.workerKeyDelete id key).1, w)
  | .set id key p => (.done (w.workerSetSpecific id key p).1, w)
  | .get id key => (.pointer (w.workerGetSpecific id key), w)

/-- The calls with their answers. -/
def keyTrace : Worker → List KeyCall → List (KeyCall × KeyAnswer)
  | _, [] => []
  | w, c :: cs => (c, (w.keyCall c).1) :: keyTrace (w.keyCall c).2 cs

/-! ## Which calls get the right answers -/

/-- What the maps hold for a runner; no call changes it. -/
def keys (w : Worker) (id : RunnerId) : KeyArray := w.workerKeyMap[id]?.getD KeyArray.empty

def pointers (w : Worker) (id : RunnerId) : SpecificArray :=
  w.specificMap[id]?.getD SpecificArray.empty

def HasEntries (w : Worker) (id : RunnerId) : Prop := id ∈ w.workerKeyMap ∧ id ∈ w.specificMap

/-- The key that `WorkerKeyCreate` returns, every time. -/
def freeKey (w : Worker) (id : RunnerId) : Option (Fin kWorkerKeysMax) :=
  (List.finRange kWorkerKeysMax).find? fun i => !(w.keys id i).isUsed

/-- The key with this number. -/
def place (k : Int) : Option (Fin kWorkerKeysMax) :=
  if h : 0 ≤ k ∧ k.toNat < kWorkerKeysMax then some ⟨k.toNat, h.2⟩ else none

/-- The storage that the maps stand for. -/
def keyStore (w : Worker) : KeyStore where
  used id k := (place k).any fun i => (w.keys id i).isUsed
  pointer id k := (place k).bind (w.pointers id)

end Worker

/-- Some of the calls was a `WorkerKeyCreate` for `id`. -/
def created (id : RunnerId) (calls : List KeyCall) : Bool :=
  calls.any fun c => match c with
    | .create id' _ => id' = id
    | _ => false

/-- Some of the calls was a `WorkerKeyDelete` of this key of `id`. -/
def deleted (id : RunnerId) (i : Fin kWorkerKeysMax) (calls : List KeyCall) : Bool :=
  calls.any fun c => match c with
    | .delete id' key => id' = id ∧ Worker.slot key = some i
    | _ => false

/-- The pointer that the latest `WorkerSetSpecific` of this key of `id` set. -/
def lastSet (id : RunnerId) (i : Fin kWorkerKeysMax) (calls : List KeyCall) : Option (Option Nat) :=
  calls.reverse.findSome? fun c => match c with
    | .set id' key p => if id' = id ∧ Worker.slot key = some i then some p else none
    | _ => none

namespace Worker

/-- What must be known of the earlier calls for a call to get the right answer.
`WorkerKeyCreate` can hand out its one free key once, or has none and none was freed;
a key that was deleted was neither handed out by it nor deleted already; a pointer
that is read was not set, or set to what it was. -/
def Fine (w : Worker) (before : List KeyCall) : KeyCall → Prop
  | .create id _ =>
    if (w.freeKey id).isSome then created id before = false
    else ∀ i, deleted id i before = false
  | .delete id key => ∀ i ∈ slot key,
    if (w.keys id i).isUsed then deleted id i before = false
    else w.freeKey id = some i → created id before = false
  | .set _ _ _ => True
  | .get id key => ∀ i ∈ slot key, ∀ p ∈ lastSet id i before, p = w.pointers id i

instance (w : Worker) (before : List KeyCall) : DecidablePred (w.Fine before)
  | .create id _ => inferInstanceAs (Decidable (if (w.freeKey id).isSome
      then created id before = false else ∀ i, deleted id i before = false))
  | .delete id key => inferInstanceAs (Decidable (∀ i ∈ slot key, if (w.keys id i).isUsed
      then deleted id i before = false else w.freeKey id = some i → created id before = false))
  | .set .. => isTrue trivial
  | .get id key => inferInstanceAs (Decidable (∀ i ∈ slot key,
      ∀ p ∈ lastSet id i before, p = w.pointers id i))

/-- Every call is fine after the ones before it. -/
def AllFine (w : Worker) : List KeyCall → List KeyCall → Prop
  | _, [] => True
  | before, c :: cs => w.Fine before c ∧ AllFine w (before ++ [c]) cs

instance decidableAllFine (w : Worker) :
    (before cs : List KeyCall) → Decidable (w.AllFine before cs)
  | _, [] => isTrue trivial
  | before, c :: cs =>
    have : Decidable (w.AllFine (before ++ [c]) cs) := decidableAllFine w (before ++ [c]) cs
    inferInstanceAs (Decidable (_ ∧ _))

theorem place_eq_some {k : Int} {i : Fin kWorkerKeysMax} : place k = some i ↔ k = i := by
  have hi : (i : Nat) < 32 := i.2
  unfold place kWorkerKeysMax at *
  split
  · rename_i h
    rw [Option.some.injEq, Fin.ext_iff]
    change k.toNat = (i : Nat) ↔ _
    omega
  · simp only [reduceCtorEq, false_iff]
    omega

@[simp] theorem place_key (i : Fin kWorkerKeysMax) : place i = some i := place_eq_some.mpr rfl

theorem ne_of_place_eq_none {k : Int} (h : place k = none) (i : Fin kWorkerKeysMax) : k ≠ i := by
  rintro rfl
  simp at h

theorem slot_eq_place (key : Int32) : slot key = place key.toInt := by
  have hlt := key.toInt_lt
  have hle := key.le_toInt
  ext i
  rw [place_eq_some]
  have hi : (i : Nat) < 32 := i.2
  unfold slot kWorkerKeysMax at *
  split
  · rename_i h
    rw [Option.some.injEq, Fin.ext_iff]
    change (key.toInt % 2 ^ 64).toNat = (i : Nat) ↔ _
    omega
  · simp only [reduceCtorEq, false_iff]
    omega

theorem slot_eq_some {key : Int32} {i : Fin kWorkerKeysMax} : slot key = some i ↔ key.toInt = i := by
  rw [slot_eq_place, place_eq_some]

/-! ## The answers of the code -/

theorem HasEntries.keyMap {w : Worker} {id : RunnerId} (h : w.HasEntries id) :
    w.workerKeyMap[id]? = some (w.keys id) := by
  rw [keys, Std.TreeMap.getElem?_eq_some_getElem h.1, Option.getD_some]

theorem HasEntries.specificMap {w : Worker} {id : RunnerId} (h : w.HasEntries id) :
    w.specificMap[id]? = some (w.pointers id) := by
  rw [pointers, Std.TreeMap.getElem?_eq_some_getElem h.2, Option.getD_some]

theorem workerKeyCreate_eq {w : Worker} {id : RunnerId} (h : w.HasEntries id)
    (destruct : Option Nat) : (w.workerKeyCreate id destruct).1 =
      match w.freeKey id with
      | some i => (i : Int)
      | none => -1 := by
  simp only [workerKeyCreate, h.keyMap, freeKey]
  cases (List.finRange kWorkerKeysMax).find? fun i => !(w.keys id i).isUsed <;> rfl

theorem workerKeyDelete_eq {w : Worker} {id : RunnerId} (h : w.HasEntries id) (key : Int32) :
    (w.workerKeyDelete id key).1 = (slot key).any fun i => (w.keys id i).isUsed := by
  simp only [workerKeyDelete, h.keyMap]
  cases slot key with
  | none => rfl
  | some i =>
    cases hu : (w.keys id i).isUsed <;> simp [hu]

theorem workerSetSpecific_eq {w : Worker} {id : RunnerId} (h : w.HasEntries id) (key : Int32)
    (p : Option Nat) : (w.workerSetSpecific id key p).1 = (slot key).isSome := by
  simp only [workerSetSpecific, h.specificMap]
  cases slot key <;> rfl

theorem workerGetSpecific_eq {w : Worker} {id : RunnerId} (h : w.HasEntries id) (key : Int32) :
    w.workerGetSpecific id key = (slot key).bind (w.pointers id) := by
  simp only [workerGetSpecific, h.specificMap]

/-! ## The storage against the calls made so far -/

/-- A key is in use after `before`, if all calls of it were fine. -/
def usedAfter (w : Worker) (before : List KeyCall) (id : RunnerId) (i : Fin kWorkerKeysMax) : Bool :=
  if (w.keys id i).isUsed then !deleted id i before
  else decide (w.freeKey id = some i) && created id before

/-- `s` is the storage after the calls `before`, seen from the runner `id`. -/
structure Follows (w : Worker) (before : List KeyCall) (id : RunnerId) (s : KeyStore) : Prop where
  used : ∀ k, s.used id k = (place k).any (w.usedAfter before id)
  pointer : ∀ k, s.pointer id k =
    (place k).bind fun i => (lastSet id i before).getD (w.pointers id i)

theorem follows_keyStore (w : Worker) (id : RunnerId) : w.Follows [] id w.keyStore where
  used k := by
    cases hk : place k with
    | none => simp [keyStore, hk]
    | some i =>
      simp only [keyStore, hk, Option.any_some, usedAfter, deleted, created, List.any_nil]
      cases (w.keys id i).isUsed <;> simp
  pointer k := rfl

theorem Follows.used_key {w : Worker} {before : List KeyCall} {id : RunnerId} {s : KeyStore}
    (h : w.Follows before id s) (i : Fin kWorkerKeysMax) : s.used id i = w.usedAfter before id i := by
  rw [h.used, place_key, Option.any_some]

/-- The runner has a free key, or all are in use in the map. -/
theorem freeKey_eq_none {w : Worker} {id : RunnerId} :
    w.freeKey id = none ↔ ∀ i, (w.keys id i).isUsed = true := by
  simp [freeKey]

theorem freeKey_isUsed {w : Worker} {id : RunnerId} {i : Fin kWorkerKeysMax}
    (h : w.freeKey id = some i) : (w.keys id i).isUsed = false := by
  simpa using List.find?_some h

/-- A call is answered as the storage answers exactly when it is fine. -/
theorem next_iff {w : Worker} {before : List KeyCall} {c : KeyCall} {s : KeyStore}
    (h : w.Follows before c.id s) (he : w.HasEntries c.id) :
    (∃ s', s.next c (w.keyCall c).1 = some s') ↔ w.Fine before c := by
  cases c with
  | create id destruct =>
    simp only [KeyCall.id] at h he
    simp only [keyCall, workerKeyCreate_eq he, KeyStore.next, Fine]
    cases hf : w.freeKey id with
    | some i =>
      have hused : s.used id i = created id before := by
        simp [h.used_key, usedAfter, freeKey_isUsed hf, hf]
      simp [hused]
    | none =>
      have hfull : s.Full id ↔ ∀ i, deleted id i before = false := by
        refine forall_congr' fun i => ?_
        simp [h.used_key, usedAfter, freeKey_eq_none.mp hf i]
      simp [hfull]
  | delete id key =>
    simp only [KeyCall.id] at h he
    simp only [keyCall, workerKeyDelete_eq he, KeyStore.next, Fine, h.used, slot_eq_place]
    cases place key.toInt with
    | none => simp
    | some i => cases hu : (w.keys id i).isUsed <;> simp [usedAfter, hu]
  | set id key p => simp [keyCall, KeyStore.next, Fine]
  | get id key =>
    simp only [KeyCall.id] at h he
    simp only [keyCall, workerGetSpecific_eq he, KeyStore.next, Fine, h.pointer, slot_eq_place]
    cases place key.toInt with
    | none => simp
    | some i => cases hl : lastSet id i before <;> simp [hl, eq_comm]

theorem created_append (id : RunnerId) (before : List KeyCall) (c : KeyCall) :
    created id (before ++ [c]) = (created id before || created id [c]) := List.any_append

theorem deleted_append (id : RunnerId) (i : Fin kWorkerKeysMax) (before : List KeyCall)
    (c : KeyCall) : deleted id i (before ++ [c]) = (deleted id i before || deleted id i [c]) :=
  List.any_append

theorem lastSet_append (id : RunnerId) (i : Fin kWorkerKeysMax) (before : List KeyCall)
    (c : KeyCall) : lastSet id i (before ++ [c]) = (lastSet id i [c]).or (lastSet id i before) := by
  simp only [lastSet, List.reverse_append, List.reverse_singleton, List.findSome?_append]

/-- Only the calls that create and delete keys change what is in use. -/
theorem usedAfter_append {w : Worker} {before : List KeyCall} {c : KeyCall} {id : RunnerId}
    (hcreated : created id [c] = false) (hdeleted : ∀ i, deleted id i [c] = false) :
    w.usedAfter (before ++ [c]) id = w.usedAfter before id := by
  funext i
  simp only [usedAfter, created_append, deleted_append, hcreated, hdeleted, Bool.or_false]

/-- A call leaves the other runners as they are. -/
theorem Follows.other {w : Worker} {before : List KeyCall} {c : KeyCall} {a : KeyAnswer}
    {s s' : KeyStore} {id : RunnerId} (h : w.Follows before id s) (hid : id ≠ c.id)
    (hs : s.next c a = some s') : w.Follows (before ++ [c]) id s' := by
  obtain ⟨hused, hpointer⟩ := KeyStore.next_other hs hid
  have hne : c.id ≠ id := hid.symm
  have hcreated : created id [c] = false := by
    cases c <;> simp_all [created, KeyCall.id]
  have hdeleted : ∀ i, deleted id i [c] = false := by
    intro i
    cases c <;> simp_all [deleted, KeyCall.id]
  have hset : ∀ i, lastSet id i [c] = none := by
    intro i
    cases c <;> simp_all [lastSet, KeyCall.id]
  exact ⟨fun k => by rw [hused, h.used, usedAfter_append hcreated hdeleted],
    fun k => by simp only [hpointer, h.pointer, lastSet_append, hset, Option.none_or]⟩

theorem Follows.create {w : Worker} {before : List KeyCall} {id : RunnerId} {destruct : Option Nat}
    {s s' : KeyStore} (h : w.Follows before id s) (he : w.HasEntries id)
    (hs : s.next (.create id destruct) (w.keyCall (.create id destruct)).1 = some s') :
    w.Follows (before ++ [.create id destruct]) id s' := by
  have hdeleted : ∀ i, deleted id i [.create id destruct] = false := fun _ => rfl
  have hset : ∀ i, lastSet id i [.create id destruct] = none := fun _ => rfl
  have hcreated : created id [.create id destruct] = true := by simp [created]
  simp only [keyCall, workerKeyCreate_eq he, KeyStore.next] at hs
  cases hf : w.freeKey id with
  | some i =>
    simp only [hf, Int.natCast_nonneg, ↓reduceIte, Option.ite_none_left_eq_some,
      Option.some.injEq] at hs
    obtain ⟨-, rfl⟩ := hs
    refine ⟨fun k => ?_, fun k => by simp [h.pointer, lastSet_append, hset]⟩
    simp only [KeyStore.used_setUsed, true_and, h.used]
    cases hk : place k with
    | none => simp [ne_of_place_eq_none hk i]
    | some j =>
      obtain rfl := place_eq_some.mp hk
      by_cases hij : j = i
      · subst hij
        simp [usedAfter, freeKey_isUsed hf, hf, created_append, hcreated]
      · have hne : (j : Int) ≠ i := fun he => hij (Fin.ext (by omega))
        have hfree : w.freeKey id ≠ some j := by
          rw [hf]
          simpa using fun he : i = j => hij he.symm
        simp [hne, usedAfter, deleted_append, hdeleted, hfree]
  | none =>
    have hneg : ¬ (0 : Int) ≤ -1 := by decide
    simp only [hf, hneg, ↓reduceIte, Option.ite_none_right_eq_some, Option.some.injEq] at hs
    obtain ⟨-, rfl⟩ := hs
    refine ⟨fun k => ?_, fun k => by simp [h.pointer, lastSet_append, hset]⟩
    have hafter : w.usedAfter (before ++ [.create id destruct]) id = w.usedAfter before id := by
      funext i
      simp [usedAfter, freeKey_eq_none.mp hf i, deleted_append, hdeleted]
    rw [hafter, h.used]

theorem Follows.delete {w : Worker} {before : List KeyCall} {id : RunnerId} {key : Int32}
    {s s' : KeyStore} (h : w.Follows before id s) (hfine : w.Fine before (.delete id key))
    (hs : s.next (.delete id key) (w.keyCall (.delete id key)).1 = some s') :
    w.Follows (before ++ [.delete id key]) id s' := by
  have hcreated : created id [.delete id key] = false := rfl
  have hset : ∀ i, lastSet id i [.delete id key] = none := fun _ => rfl
  have hdeleted : ∀ i, deleted id i [.delete id key] = decide (slot key = some i) := by
    simp [deleted]
  simp only [keyCall, KeyStore.next, Option.ite_none_right_eq_some, Option.some.injEq] at hs
  obtain ⟨-, rfl⟩ := hs
  refine ⟨fun k => ?_, fun k => by simp [h.pointer, lastSet_append, hset]⟩
  simp only [KeyStore.used_setUsed, true_and, h.used]
  cases hk : place k with
  | none => simp
  | some j =>
    obtain rfl := place_eq_some.mp hk
    simp only [Option.any_some, usedAfter, created_append, hcreated, deleted_append, hdeleted,
      slot_eq_some, Bool.or_false]
    by_cases hj : key.toInt = j
    · -- The key is free now: it was in use in the map, or not in use at all.
      have hfine' := hfine j (slot_eq_some.mpr hj)
      cases hu : (w.keys id j).isUsed
      · simp [hj, hu] at hfine' ⊢
        exact hfine'
      · simp [hj]
    · have hj' : (j : Int) ≠ key.toInt := fun he => hj he.symm
      simp [hj, hj']

theorem Follows.set {w : Worker} {before : List KeyCall} {id : RunnerId} {key : Int32}
    {p : Option Nat} {s s' : KeyStore} (h : w.Follows before id s) (he : w.HasEntries id)
    (hs : s.next (.set id key p) (w.keyCall (.set id key p)).1 = some s') :
    w.Follows (before ++ [.set id key p]) id s' := by
  have hset : ∀ i, lastSet id i [.set id key p] = if slot key = some i then some p else none := by
    simp [lastSet]
  simp only [keyCall, workerSetSpecific_eq he, KeyStore.next, Option.some.injEq] at hs
  subst hs
  refine ⟨fun k => ?_, fun k => ?_⟩
  · rw [usedAfter_append rfl fun _ => rfl, ← h.used]
    split <;> rfl
  · cases hslot : slot key with
    | none => simp [h.pointer, lastSet_append, hset, hslot]
    | some i =>
      have hkey := slot_eq_some.mp hslot
      simp only [Option.isSome_some, ↓reduceIte, KeyStore.pointer_setPointer, true_and, hkey,
        h.pointer, lastSet_append, hset, hslot, Option.some.injEq]
      cases hk : place k with
      | none => simp [ne_of_place_eq_none hk i]
      | some j =>
        obtain rfl := place_eq_some.mp hk
        by_cases hij : i = j
        · simp [hij]
        · have hne : (j : Int) ≠ i := fun he => hij (Fin.ext (by omega))
          simp [hij, hne]

theorem Follows.get {w : Worker} {before : List KeyCall} {id : RunnerId} {key : Int32}
    {s s' : KeyStore} (h : w.Follows before id s)
    (hs : s.next (.get id key) (w.keyCall (.get id key)).1 = some s') :
    w.Follows (before ++ [.get id key]) id s' := by
  have hset : ∀ i, lastSet id i [.get id key] = none := fun _ => rfl
  simp only [keyCall, KeyStore.next, Option.ite_none_right_eq_some, Option.some.injEq] at hs
  obtain ⟨-, rfl⟩ := hs
  exact ⟨fun k => by rw [usedAfter_append rfl fun _ => rfl, h.used],
    fun k => by simp only [h.pointer, lastSet_append, hset, Option.none_or]⟩

/-- A call that is answered leaves a storage that follows the calls again. -/
theorem Follows.next {w : Worker} {before : List KeyCall} {c : KeyCall} {s s' : KeyStore}
    (h : ∀ id, w.Follows before id s) (he : w.HasEntries c.id)
    (hs : s.next c (w.keyCall c).1 = some s') (id : RunnerId) : w.Follows (before ++ [c]) id s' := by
  have hfine : w.Fine before c := (next_iff (h c.id) he).mp ⟨s', hs⟩
  by_cases hid : id = c.id
  · subst hid
    cases c with
    | create id destruct => exact (h id).create he hs
    | delete id key => exact (h id).delete hfine hs
    | set id key p => exact (h id).set he hs
    | get id key => exact (h id).get hs
  · exact (h id).other hid hs

theorem keyCall_snd (c : KeyCall) (w : Worker) : (w.keyCall c).2 = w := by
  cases c <;> rfl

theorem accepts_iff {w : Worker} {before cs : List KeyCall} {s : KeyStore}
    (h : ∀ id, w.Follows before id s) (he : ∀ c ∈ cs, w.HasEntries c.id) :
    s.Accepts (w.keyTrace cs) ↔ w.AllFine before cs := by
  induction cs generalizing before s with
  | nil => exact ⟨fun _ => trivial, fun _ => rfl⟩
  | cons c cs ih =>
    rw [List.forall_mem_cons] at he
    have hfine := next_iff (h c.id) he.1
    simp only [keyTrace, KeyStore.accepts_cons, keyCall_snd, AllFine, ← hfine]
    constructor
    · rintro ⟨s', hs, hrest⟩
      exact ⟨⟨s', hs⟩, (ih (Follows.next h he.1 hs) he.2).mp hrest⟩
    · rintro ⟨⟨s', hs⟩, hrest⟩
      exact ⟨s', hs, (ih (Follows.next h he.1 hs) he.2).mpr hrest⟩

/-- **The calls are answered as by a keyed storage** exactly when each of them is fine
after the ones before it: what the code forgets must not show. -/
theorem keyTrace_accepted_iff {w : Worker} {cs : List KeyCall}
    (he : ∀ c ∈ cs, w.HasEntries c.id) :
    w.keyStore.Accepts (w.keyTrace cs) ↔ w.AllFine [] cs :=
  accepts_iff (follows_keyStore w) he

end Worker

namespace State

/-- `RunnerKeyCreate`, `RunnerKeyDelete`, `RunnerSetSpecific` and `RunnerGetSpecific` of the
runner `r`, called on the thread of the worker `thread`: the call goes to the worker of
`r`, with the id of the runner whose task is running. -/
def runnerKeyCall (r : RunnerId) (call : RunnerId → KeyCall) (thread : WorkerId) (s : State) :
    Except Fault KeyAnswer := do
  check (s.worker thread).isTaskRunning
  match (s.worker thread).localRunner, s.lock (s.runner r).worker with
  | some taskRunnerId, some w => return ((s.worker w).keyCall (call taskRunnerId)).1
  | _, _ => .error .check

theorem runnerKeyCall_create (r : RunnerId) (destruct : Option Nat) (thread : WorkerId) (s : State) :
    s.runnerKeyCall r (.create · destruct) thread =
      (s.runnerKeyCreate r destruct thread).map KeyAnswer.key := by
  unfold runnerKeyCall runnerKeyCreate
  cases check (s.worker thread).isTaskRunning with
  | error e => rfl
  | ok u =>
    cases (s.worker thread).localRunner with
    | none => rfl
    | some id => cases s.lock (s.runner r).worker <;> rfl

end State

/-- A worker with the entries of one runner, as they are made. -/
def keyedWorker : Worker where
  groupId := 0
  workerKeyMap := (∅ : Std.TreeMap RunnerId KeyArray).insert 0 KeyArray.empty
  specificMap := (∅ : Std.TreeMap RunnerId SpecificArray).insert 0 SpecificArray.empty

theorem keyedWorker_hasEntries : keyedWorker.HasEntries 0 :=
  ⟨by simp [keyedWorker], by simp [keyedWorker]⟩

/-- One key is created, an unknown one is deleted, and nothing is read back. -/
theorem keyTrace_accepted_once : keyedWorker.keyStore.Accepts (keyedWorker.keyTrace
    [.create 0 none, .delete 0 (-3), .set 0 40 (some 7), .get 0 40, .set 0 0 (some 7)]) := by
  refine (Worker.keyTrace_accepted_iff ?_).mpr ?_
  · intro c hc
    simp only [List.mem_cons, List.not_mem_nil, or_false] at hc
    rcases hc with rfl | rfl | rfl | rfl | rfl <;> exact keyedWorker_hasEntries
  · decide

/-- The second key is the first one again. -/
theorem second_key_is_first : ¬ keyedWorker.keyStore.Accepts (keyedWorker.keyTrace
    [.create 0 none, .create 0 none]) := by
  decide

end Footstone
