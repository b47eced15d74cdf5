import Footstone.Growing

/-!
The shrinking branch of `Balance`: when it returns, and where the groups are
then. Workers without unschedulable runners are unbound, the others release
their pending groups, and `rebind` puts all of that at the cursor, group by
group. The number of workers does not change.
-/

namespace Footstone

namespace State

/-! ## Unbinding -/

/-- `HasUnschedulableRunner` does not keep the worker. -/
def isFree (s : State) (w : WorkerId) : Bool := !(s.worker w).hasUnschedulableRunner s.runner

/-- A worker after `UnBind` of everything. -/
def emptied (x : Worker) : Worker := { x with runningGroups := [], pendingGroups := [] }

/-- The workers the loop over `xs` and then `z` unbinds: `z` only when there is
still something to reduce. -/
def unboundOf (free : WorkerId → Bool) (reduceSize : Int) (xs : List WorkerId) (z : WorkerId) :
    List WorkerId :=
  xs.filter free ++ if (xs.filter free).length < reduceSize then [z].filter free else []

theorem mem_unboundOf {free : WorkerId → Bool} {reduceSize : Int} {xs : List WorkerId}
    {z w : WorkerId} (h : w ∈ unboundOf free reduceSize xs z) : w ∈ xs ++ [z] ∧ free w = true := by
  rcases List.mem_append.mp h with h | h
  · obtain ⟨hw, hf⟩ := List.mem_filter.mp h
    exact ⟨List.mem_append_left _ hw, hf⟩
  · split at h
    · obtain ⟨hw, hf⟩ := List.mem_filter.mp h
      exact ⟨List.mem_append_right _ hw, hf⟩
    · cases h

/-- What the loop carries after it has unbound `us`. -/
def Unbound.after (acc : Unbound) (us : List WorkerId) : Unbound where
  reduceSize := acc.reduceSize - us.length
  groups := acc.groups ++ us.flatMap fun w => (acc.worker w).held
  worker w := if w ∈ us then emptied (acc.worker w) else acc.worker w

theorem Unbound.after_nil (acc : Unbound) : acc.after [] = acc := by
  simp [Unbound.after]

theorem Unbound.after_cons {acc : Unbound} {x : WorkerId} {us : List WorkerId} (h : x ∉ us) :
    acc.after (x :: us) = (acc.after [x]).after us := by
  have hrest : ∀ w ∈ us, (acc.after [x]).worker w = acc.worker w := by
    intro w hw
    have hne : w ≠ x := fun e => h (e ▸ hw)
    simp [Unbound.after, hne]
  simp only [Unbound.after, Unbound.mk.injEq]
  refine ⟨by simp; omega, ?_, ?_⟩
  · have hheld : (us.flatMap fun w => ((acc.after [x]).worker w).held) =
        us.flatMap fun w => (acc.worker w).held :=
      List.flatMap_congr fun w hw => by rw [hrest w hw]
    simpa [Unbound.after] using hheld.symm
  · funext w
    by_cases hw : w = x
    · subst hw; simp [h]
    · simp [hw]

theorem unbindWorkers_cons {runner : Runners} {x : WorkerId} {ws : List WorkerId} {acc : Unbound}
    (h : ws ≠ [] ∨ 0 < acc.reduceSize) : unbindWorkers runner (x :: ws) acc =
      if (acc.worker x).hasUnschedulableRunner runner then unbindWorkers runner ws acc
      else unbindWorkers runner ws (acc.after [x]) := by
  have hworker : Function.update acc.worker x (emptied (acc.worker x)) = (acc.after [x]).worker := by
    funext w
    by_cases hw : w = x
    · subst hw; simp [Unbound.after]
    · simp [Unbound.after, hw]
  rw [unbindWorkers, if_pos h]
  refine if_congr Iff.rfl rfl ?_
  simp only [Worker.unBindAll]
  congr 1
  simp only [Unbound.after, Unbound.mk.injEq]
  exact ⟨by simp, by simp [Worker.held], hworker⟩

/-- The last worker is looked at only when there is still something to reduce. -/
theorem unbindWorkers_last {runner : Runners} {z : WorkerId} {acc acc' : Unbound} {free : WorkerId → Bool}
    (hz : free z = !(acc.worker z).hasUnschedulableRunner runner) :
    unbindWorkers runner [z] acc = .ok acc' ↔
      acc.reduceSize ≤ (unboundOf free acc.reduceSize [] z).length ∧
        acc' = acc.after (unboundOf free acc.reduceSize [] z) := by
  by_cases hr : 0 < acc.reduceSize
  · rw [unbindWorkers_cons (Or.inr hr)]
    cases hf : free z with
    | false =>
      have hu : (acc.worker z).hasUnschedulableRunner runner = true := by simpa [hf] using hz.symm
      simp [hu, unbindWorkers, unboundOf, hf, hr]
    | true =>
      have hu : (acc.worker z).hasUnschedulableRunner runner = false := by simpa [hf] using hz.symm
      have hlen : (acc.after [z]).reduceSize = acc.reduceSize - 1 := by simp [Unbound.after]
      have hus : unboundOf free acc.reduceSize [] z = [z] := by simp [unboundOf, hf, hr]
      rw [hus, if_neg (by simp [hu]), unbindWorkers, hlen, List.length_singleton]
      split
      · simp only [reduceCtorEq, false_iff, not_and]
        omega
      · simp only [Except.ok.injEq, eq_comm (a := acc')]
        exact ⟨fun h => ⟨by omega, h⟩, fun h => h.2⟩
  · have hnone : unboundOf free acc.reduceSize [] z = [] := by simp [unboundOf, hr]
    rw [hnone, Unbound.after_nil, unbindWorkers, if_neg (by simp [hr])]
    simp [eq_comm]
    omega

theorem unbindWorkers_eq_ok {runner : Runners} {xs : List WorkerId} {z : WorkerId}
    (hn : (xs ++ [z]).Nodup) {acc acc' : Unbound} {free : WorkerId → Bool}
    (hfree : ∀ w ∈ xs ++ [z], free w = !(acc.worker w).hasUnschedulableRunner runner) :
    unbindWorkers runner (xs ++ [z]) acc = .ok acc' ↔
      acc.reduceSize ≤ (unboundOf free acc.reduceSize xs z).length ∧
        acc' = acc.after (unboundOf free acc.reduceSize xs z) := by
  induction xs generalizing acc with
  | nil => exact unbindWorkers_last (hfree z (by simp))
  | cons x xs ih =>
    obtain ⟨hx, hn'⟩ := List.nodup_cons.mp hn
    have hfx := hfree x (by simp)
    rw [List.cons_append, unbindWorkers_cons (Or.inl (by simp))]
    cases hf : free x with
    | false =>
      have hu : (acc.worker x).hasUnschedulableRunner runner = true := by simpa [hf] using hfx.symm
      have hus : unboundOf free acc.reduceSize (x :: xs) z = unboundOf free acc.reduceSize xs z := by
        simp [unboundOf, hf]
      rw [if_pos hu, hus]
      exact ih hn' fun w hw => hfree w (List.mem_cons_of_mem _ hw)
    | true =>
      have hu : (acc.worker x).hasUnschedulableRunner runner = false := by simpa [hf] using hfx.symm
      have hlen : (acc.after [x]).reduceSize = acc.reduceSize - 1 := by simp [Unbound.after]
      have hus : unboundOf free acc.reduceSize (x :: xs) z =
          x :: unboundOf free (acc.after [x]).reduceSize xs z := by
        have hiff : ((xs.filter free).length : Int) + 1 < acc.reduceSize ↔
            ((xs.filter free).length : Int) < acc.reduceSize - 1 := by omega
        simp [unboundOf, hf, hlen, hiff]
      -- The rest of the loop reads its workers as they were: `x` is not among them.
      have hnot : x ∉ unboundOf free (acc.after [x]).reduceSize xs z := by
        exact fun hm => hx (mem_unboundOf hm).1
      have hfree' : ∀ w ∈ xs ++ [z],
          free w = !((acc.after [x]).worker w).hasUnschedulableRunner runner := by
        intro w hw
        have hne : w ≠ x := fun e => hx (e ▸ hw)
        simpa [Unbound.after, hne] using hfree w (List.mem_cons_of_mem _ hw)
      rw [if_neg (by simp [hu]), ih hn' hfree', hus, Unbound.after_cons hnot, List.length_cons, hlen]
      constructor
      · rintro ⟨hle, rfl⟩
        exact ⟨by omega, rfl⟩
      · rintro ⟨hle, rfl⟩
        exact ⟨by omega, rfl⟩

/-! ## Retaining -/

theorem retainWorkers_eq_ok {runner : Runners} {ws : List WorkerId} (hn : ws.Nodup)
    {groups : List Group} {worker : WorkerId → Worker}
    {out : List Group × (WorkerId → Worker)} :
    retainWorkers runner ws groups worker = .ok out ↔
      (∀ w ∈ ws, Worker.RetainSafe runner (worker w)) ∧
        out = (groups ++ ws.flatMap fun w => (worker w).pendingGroups, retainedAll ws worker) := by
  induction ws generalizing groups worker with
  | nil => simp [retainWorkers, eq_comm]
  | cons w ws ih =>
    obtain ⟨hw, hn'⟩ := List.nodup_cons.mp hn
    simp only [retainWorkers, Runs.bind_eq_ok, Prod.exists, Worker.retain_eq_ok]
    constructor
    · rintro ⟨_, _, ⟨hs, rfl, rfl⟩, h⟩
      obtain ⟨hall, rfl⟩ := (ih hn').mp h
      rw [forall_update hw] at hall
      rw [flatMap_update hw _ _ Worker.pendingGroups]
      exact ⟨List.forall_mem_cons.mpr ⟨hs, hall⟩, by simp [retainedAll_cons hw]⟩
    · rintro ⟨hall, rfl⟩
      obtain ⟨hs, hall⟩ := List.forall_mem_cons.mp hall
      refine ⟨_, _, ⟨hs, rfl, rfl⟩, (ih hn').mpr ⟨(forall_update hw _ _ _).mpr hall, ?_⟩⟩
      rw [flatMap_update hw _ _ Worker.pendingGroups]
      simp [retainedAll_cons hw]

/-! ## Adopting a group -/

/-- Only the workers change, and of them neither groups nor life. -/
structure SameGroups (s s' : State) : Prop extends SamePool s s' where
  index : s'.index = s.index
  globalTaskRunnerId : s'.globalTaskRunnerId = s.globalTaskRunnerId
  busy : s'.busy = s.busy
  runner : s'.runner = s.runner
  held : s'.held = s.held

theorem SameGroups.trans {s t u : State} (h : SameGroups s t) (k : SameGroups t u) :
    SameGroups s u where
  workers := k.workers.trans h.workers
  nextWorker := k.nextWorker.trans h.nextWorker
  size := k.size.trans h.size
  isTerminated w := (k.isTerminated w).trans (h.isTerminated w)
  index := k.index.trans h.index
  globalTaskRunnerId := k.globalTaskRunnerId.trans h.globalTaskRunnerId
  busy := k.busy.trans h.busy
  runner := k.runner.trans h.runner
  held := k.held.trans h.held

theorem setWorker_sameGroups {s : State} {w : WorkerId} {x : Worker}
    (hheld : x.held = s.held w) (hterm : x.isTerminated = (s.worker w).isTerminated) :
    SameGroups s (s.setWorker w x) :=
  ⟨⟨rfl, rfl, rfl, update_isTerminated hterm⟩, rfl, rfl, rfl, rfl,
    (update_held hheld).trans (Function.update_eq_self w s.held)⟩

theorem takeOverSpecificKeys_sameGroups (r : RunnerId) (src dst : WorkerId) (s : State) :
    SameGroups s (s.takeOverSpecificKeys r src dst) := by
  have hsrc : SameGroups s (s.setWorker src ((s.worker src).getMovedSpecificKeys r).2) := by
    apply setWorker_sameGroups <;> unfold Worker.getMovedSpecificKeys <;> split <;> rfl
  exact hsrc.trans (setWorker_sameGroups rfl rfl)

theorem takeOverSpecific_sameGroups (r : RunnerId) (src dst : WorkerId) (s : State) :
    SameGroups s (s.takeOverSpecific r src dst) := by
  have hsrc : SameGroups s (s.setWorker src ((s.worker src).getMovedSpecific r).2) := by
    apply setWorker_sameGroups <;> unfold Worker.getMovedSpecific <;> split <;> rfl
  exact hsrc.trans (setWorker_sameGroups rfl rfl)

/-- The runners `rs` now point to `w`. -/
structure Adopted (s s' : State) (w : WorkerId) (rs : List RunnerId) : Prop extends SamePool s s' where
  index : s'.index = s.index
  globalTaskRunnerId : s'.globalTaskRunnerId = s.globalTaskRunnerId
  busy : s'.busy = s.busy
  held : s'.held = s.held
  runner : ∀ r, s'.runner r = if r ∈ rs then { s.runner r with worker := some w } else s.runner r

theorem adopt_adopted (w : WorkerId) (s : State) (r : RunnerId) : Adopted s (adopt w s r) w [r] := by
  have hpoint : ∀ {t : State}, SameGroups s t →
      Adopted s (t.modifyRunner r fun x => { x with worker := some w }) w [r] := by
    intro t h
    refine ⟨⟨h.workers, h.nextWorker, h.size, h.isTerminated⟩, h.index, h.globalTaskRunnerId,
      h.busy, h.held, fun x => ?_⟩
    by_cases hx : x = r
    · subst hx; simp [modifyRunner, h.runner]
    · simp [modifyRunner, hx, h.runner]
  unfold adopt
  cases s.lock (s.runner r).worker with
  | none => exact hpoint ⟨⟨rfl, rfl, rfl, fun _ => rfl⟩, rfl, rfl, rfl, rfl, rfl⟩
  | some orig =>
    exact hpoint ((takeOverSpecificKeys_sameGroups r orig w s).trans
      (takeOverSpecific_sameGroups r orig w _))

theorem foldl_adopt_adopted (w : WorkerId) (group : List RunnerId) (s : State) :
    Adopted s (group.foldl (adopt w) s) w group := by
  induction group generalizing s with
  | nil => exact ⟨⟨rfl, rfl, rfl, fun _ => rfl⟩, rfl, rfl, rfl, rfl, fun _ => rfl⟩
  | cons r group ih =>
    have h := adopt_adopted w s r
    have k := ih (adopt w s r)
    refine ⟨⟨k.workers.trans h.workers, k.nextWorker.trans h.nextWorker, k.size.trans h.size,
      fun v => (k.isTerminated v).trans (h.isTerminated v)⟩, k.index.trans h.index,
      k.globalTaskRunnerId.trans h.globalTaskRunnerId, k.busy.trans h.busy, k.held.trans h.held,
      fun x => ?_⟩
    have hk := k.runner x
    have hh := h.runner x
    rw [List.foldl_cons, hk, hh]
    by_cases hx : x = r <;> by_cases hg : x ∈ group <;> simp [hx, hg]

/-! ## Binding the groups again -/

/-- Group `k` is bound to the worker `target k`, which its runners then point to. -/
structure Rebound (s s' : State) (target : Nat → Option WorkerId) (groups : List Group) : Prop
    extends SamePool s s' where
  globalTaskRunnerId : s'.globalTaskRunnerId = s.globalTaskRunnerId
  busy : s'.busy = s.busy
  held : ∀ w, s'.held w = s.held w ++ Deal.received target groups w
  groupId : ∀ r, (s'.runner r).groupId = (s.runner r).groupId
  isSchedulable : ∀ r, (s'.runner r).isSchedulable = (s.runner r).isSchedulable
  pointer : ∀ r, (∃ k g, groups[k]? = some g ∧ r ∈ g ∧ (s'.runner r).worker = target k) ∨
    ((∀ g ∈ groups, r ∉ g) ∧ (s'.runner r).worker = (s.runner r).worker)

/-- One round of the loop. -/
def rebindRound (size : Nat) (group : Group) (w : WorkerId) (x : Worker) (s : State) : State :=
  { group.foldl (adopt w) (s.setWorker w x) with index := advance size s.index }

theorem rebind_cons {size : Nat} {group : Group} {groups : List Group} {s s' : State} :
    rebind size (group :: groups) s = .ok s' ↔ ∃ w x, s.workers[s.index]? = some w ∧
      (s.worker w).bind s.runner group = .ok x ∧
      rebind size groups (s.rebindRound size group w x) = .ok s' := by
  have hindex : ∀ w x, (group.foldl (adopt w) (s.setWorker w x)).index = s.index :=
    fun w x => (foldl_adopt_adopted w group (s.setWorker w x)).index
  simp only [rebind, Runs.bind_eq_ok, cursor_eq_ok, rebindRound, hindex, exists_and_left]

theorem rebindRound_rebound (size : Nat) {group : Group} {w : WorkerId} {x : Worker} {s : State}
    (hx : (s.worker w).bind s.runner group = .ok x) :
    Rebound s (s.rebindRound size group w x) (fun _ => some w) [group] := by
  obtain ⟨hgroups, hterm⟩ := Worker.bind_keeps hx
  have h := foldl_adopt_adopted w group (s.setWorker w x)
  refine ⟨⟨h.workers, h.nextWorker, h.size, fun v => (h.isTerminated v).trans
    (update_isTerminated hterm v)⟩, h.globalTaskRunnerId, h.busy, fun v => ?_, fun r => ?_,
    fun r => ?_, fun r => ?_⟩
  · have hheld := congrFun (h.held.trans (update_held hgroups)) v
    simp only [rebindRound, Deal.received_cons, Deal.received_nil, Option.some.injEq,
      List.append_nil]
    refine hheld.trans ?_
    by_cases hv : v = w
    · subst hv; simp [State.held]
    · simp [hv, Ne.symm hv]
  · have hr := h.runner r
    simp only [rebindRound]
    rw [hr]
    split <;> rfl
  · have hr := h.runner r
    simp only [rebindRound]
    rw [hr]
    split <;> rfl
  · have hr := h.runner r
    by_cases hg : r ∈ group
    · left
      refine ⟨0, group, rfl, hg, ?_⟩
      simp only [rebindRound]
      rw [hr, if_pos hg]
    · right
      refine ⟨by simpa using hg, ?_⟩
      simp only [rebindRound]
      rw [hr, if_neg hg]
      rfl

theorem rebind_returns {size : Nat} {groups : List Group} {s : State} :
    (∃ s', rebind size groups s = .ok s') ↔
      (∀ k, k < groups.length → s.workers[(advance size)^[k] s.index]? ≠ none) ∧ [] ∉ groups := by
  induction groups generalizing s with
  | nil => simp [rebind]
  | cons g groups ih =>
    simp only [rebind_cons]
    constructor
    · rintro ⟨s', w, x, hw, hx, h⟩
      obtain ⟨hk, hne⟩ := ih.mp ⟨s', h⟩
      have hworkers := (rebindRound_rebound size hx).workers
      have hg := Worker.bind_returns.mp ⟨x, hx⟩
      refine ⟨fun k hlt => ?_, by simpa using ⟨hg, hne⟩⟩
      cases k with
      | zero => simp [hw]
      | succ k =>
        rw [Function.iterate_succ_apply]
        have := hk k (by simpa using hlt)
        rwa [hworkers] at this
    · rintro ⟨hk, hne⟩
      simp only [List.mem_cons, not_or] at hne
      obtain ⟨w, hw⟩ := Option.ne_none_iff_exists'.mp (hk 0 (by simp))
      obtain ⟨x, hx⟩ := (@Worker.bind_returns s.runner (s.worker w) g).mpr (Ne.symm hne.1)
      have hworkers := (rebindRound_rebound size hx).workers
      have hrest : ∀ k, k < groups.length → (s.rebindRound size g w x).workers[(advance size)^[k]
          (s.rebindRound size g w x).index]? ≠ none := by
        intro k hlt
        rw [hworkers]
        exact hk (k + 1) (by simpa using hlt)
      obtain ⟨s', h⟩ := ih.mpr ⟨hrest, hne.2⟩
      exact ⟨s', w, x, hw, hx, h⟩

theorem rebind_rebound {size : Nat} {groups : List Group} {s s' : State}
    (h : rebind size groups s = .ok s') :
    Rebound s s' (fun k => s.workers[(advance size)^[k] s.index]?) groups ∧
      s'.index = (advance size)^[groups.length] s.index := by
  induction groups generalizing s with
  | nil =>
    cases h
    exact ⟨⟨⟨rfl, rfl, rfl, fun _ => rfl⟩, rfl, rfl, by simp, fun _ => rfl, fun _ => rfl,
      fun _ => Or.inr ⟨by simp, rfl⟩⟩, rfl⟩
  | cons g groups ih =>
    obtain ⟨w, x, hw, hx, h⟩ := rebind_cons.mp h
    have h₁ := rebindRound_rebound size hx
    obtain ⟨h₂, hindex⟩ := ih h
    have htarget : (fun k => (s.rebindRound size g w x).workers[(advance size)^[k]
        (s.rebindRound size g w x).index]?) = fun k => s.workers[(advance size)^[k + 1] s.index]? := by
      funext k
      rw [h₁.workers, Function.iterate_succ_apply]
      rfl
    rw [htarget] at h₂
    refine ⟨⟨⟨h₂.workers.trans h₁.workers, h₂.nextWorker.trans h₁.nextWorker, h₂.size.trans h₁.size,
      fun v => (h₂.isTerminated v).trans (h₁.isTerminated v)⟩,
      h₂.globalTaskRunnerId.trans h₁.globalTaskRunnerId, h₂.busy.trans h₁.busy, fun v => ?_,
      fun r => (h₂.groupId r).trans (h₁.groupId r),
      fun r => (h₂.isSchedulable r).trans (h₁.isSchedulable r), fun r => ?_⟩, ?_⟩
    · rw [h₂.held, h₁.held, Deal.received_cons, Deal.received_cons, Deal.received_nil,
        List.append_nil, List.append_assoc]
      simp [hw]
    · rcases h₂.pointer r with ⟨k, g', hk, hr, hp⟩ | ⟨hno, hp⟩
      · exact Or.inl ⟨k + 1, g', by simpa using hk, hr, hp⟩
      · rcases h₁.pointer r with ⟨k, g', hk, hr, hp'⟩ | ⟨hno', hp'⟩
        · left
          obtain ⟨rfl, rfl⟩ : k = 0 ∧ g' = g := by
            cases k with
            | zero => exact ⟨rfl, by simpa using hk.symm⟩
            | succ k => simp at hk
          exact ⟨0, g', rfl, hr, by rw [hp, hp']; simp [hw]⟩
        · right
          refine ⟨?_, hp.trans hp'⟩
          rintro x (_ | ⟨_, hx⟩)
          · exact hno' _ (by simp)
          · exact hno _ ‹_›
    · rw [hindex, List.length_cons, Function.iterate_succ_apply]
      rfl

/-! ## The shrinking branch -/

/-- The workers that the first loop unbinds, in its order. -/
def released (s : State) (n : Nat) : List WorkerId :=
  match s.pool with
  | [] => []
  | z :: xs => unboundOf s.isFree (s.size - n : Int) xs.reverse z

/-- The groups the shrinking branch moves: all of a worker that was unbound, the
pending ones of the others that stay in the pool. -/
def releasedGroups (s : State) (n : Nat) : List Group :=
  (s.released n).flatMap s.held ++
    ((s.workers.take n).filter (· ∉ s.released n)).flatMap fun w => (s.worker w).pendingGroups

/-- The groups that stay with the worker `w`. -/
def shrinkKept (s : State) (n : Nat) (w : WorkerId) : List Group :=
  if w ∈ s.released n then [] else
    if w ∈ s.workers.take n then (s.worker w).runningGroups else s.held w

/-- The cursor the third loop starts from. -/
def landingStart (s : State) (n : Nat) : Nat := if n ≤ s.index then 0 else s.index

/-- Where the third loop puts the group number `k`. -/
def landing (s : State) (n : Nat) (k : Nat) : Option WorkerId :=
  s.workers[(advance n)^[k] (s.landingStart n)]?

/-- The workers after the first loop. -/
def unboundWorker (s : State) (n : Nat) (w : WorkerId) : Worker :=
  if w ∈ s.released n then emptied (s.worker w) else s.worker w

/-- The state before the third loop. -/
def releasedState (s : State) (n : Nat) : State :=
  { s with
    worker := retainedAll (s.workers.take n) (s.unboundWorker n)
    index := s.landingStart n }

theorem unboundWorker_pending (s : State) (n : Nat) (ws : List WorkerId) :
    (ws.flatMap fun w => (s.unboundWorker n w).pendingGroups) =
      (ws.filter (· ∉ s.released n)).flatMap fun w => (s.worker w).pendingGroups := by
  induction ws with
  | nil => rfl
  | cons w ws ih =>
    rw [List.flatMap_cons, ih]
    by_cases h : w ∈ s.released n <;> simp [unboundWorker, h, emptied]

theorem unboundWorker_retainSafe {s : State} {n : Nat} {ws : List WorkerId} :
    (∀ w ∈ ws, Worker.RetainSafe s.runner (s.unboundWorker n w)) ↔
      ∀ w ∈ ws, w ∉ s.released n → Worker.RetainSafe s.runner (s.worker w) := by
  refine forall₂_congr fun w _ => ?_
  by_cases h : w ∈ s.released n <;> simp [unboundWorker, h, emptied, Worker.RetainSafe]

variable {E : Env}

theorem terminateWorkers_self (n : Nat) (s : State) : terminateWorkers n n s = .ok s := by
  cases n with
  | zero => rfl
  | succ n => rw [terminateWorkers, if_neg (by omega)]

theorem unbindWorkers_pool {s : State} {n : Nat} (hn : s.workers.Nodup) (h₀ : 1 ≤ s.size)
    (h₁ : s.size ≤ s.workers.length) {acc : Unbound} :
    unbindWorkers s.runner s.pool.reverse { reduceSize := (s.size - n : Int), worker := s.worker } =
      .ok acc ↔ (s.size : Int) - n ≤ (s.released n).length ∧
        acc = Unbound.after { reduceSize := (s.size - n : Int), worker := s.worker } (s.released n) := by
  have hpool : s.pool.Nodup := hn.sublist (List.take_sublist _ _)
  unfold released
  cases hp : s.pool with
  | nil =>
    have hlen : s.pool.length = s.size := by simp [pool]; omega
    rw [hp, List.length_nil] at hlen
    omega
  | cons z xs =>
    rw [hp] at hpool
    rw [List.reverse_cons]
    exact unbindWorkers_eq_ok (by rwa [← List.reverse_cons, List.nodup_reverse]) fun w _ => rfl

theorem shrink_eq_ok {s s' : State} {n : Nat} (hn : s.workers.Nodup) (h₀ : 1 ≤ s.size)
    (h₁ : s.size ≤ s.workers.length) (h₂ : n < s.size) :
    s.shrink E n (s.size - n) = .ok s' ↔
      (s.size : Int) - n ≤ (s.released n).length ∧
      (E.ndebug = true ∨ ((s.released n).length : Int) = s.size - n) ∧
      (∀ w ∈ s.workers.take n, w ∉ s.released n → Worker.RetainSafe s.runner (s.worker w)) ∧
      ∃ u, rebind n (s.releasedGroups n) (s.releasedState n) = .ok u ∧ s' = { u with size := n } := by
  have hsub : s.subscripts s.size = .ok s.pool := if_pos h₁
  have hsub' : ({ s with worker := s.unboundWorker n } : State).subscripts n =
      .ok (s.workers.take n) := if_pos (by simp only; omega)
  have hretain : ∀ out, retainWorkers s.runner (s.workers.take n) ((s.released n).flatMap s.held)
      (s.unboundWorker n) = .ok out ↔ _ :=
    fun out => retainWorkers_eq_ok (hn.sublist (List.take_sublist n s.workers))
  simp only [unboundWorker_pending, unboundWorker_retainSafe] at hretain
  have hdebug : (E.ndebug || (s.size : Int) - n - (s.released n).length == 0) = true ↔
      E.ndebug = true ∨ ((s.released n).length : Int) = s.size - n := by
    rw [Bool.or_eq_true, beq_iff_eq]
    exact or_congr_right ⟨fun h => by omega, fun h => by omega⟩
  simp only [shrink, Runs.bind_eq_ok, hsub, Except.ok.injEq, exists_eq_left',
    unbindWorkers_pool hn h₀ h₁, check_eq_ok]
  constructor
  · rintro ⟨_, ⟨hle, rfl⟩, -, hd, h⟩
    rw [if_neg (by simp only [Unbound.after]; omega)] at h
    obtain ⟨_, hp, h⟩ := Runs.bind_eq_ok.mp h
    cases hsub'.symm.trans hp
    obtain ⟨_, hr, h⟩ := Runs.bind_eq_ok.mp h
    obtain ⟨hsafe, rfl⟩ := (hretain _).mp hr
    obtain ⟨u, hu, h⟩ := Runs.bind_eq_ok.mp h
    rw [terminateWorkers_self] at h
    cases h
    exact ⟨hle, hdebug.mp hd, hsafe, u, hu, rfl⟩
  · rintro ⟨hle, hd, hsafe, u, hu, rfl⟩
    refine ⟨_, ⟨hle, rfl⟩, (), hdebug.mpr hd, ?_⟩
    rw [if_neg (by simp only [Unbound.after]; omega)]
    refine Runs.bind_eq_ok.mpr ⟨_, hsub', Runs.bind_eq_ok.mpr ⟨_, (hretain _).mpr ⟨hsafe, rfl⟩,
      Runs.bind_eq_ok.mpr ⟨u, hu, terminateWorkers_self _ _⟩⟩⟩

theorem advance_iterate (n index k : Nat) :
    (advance n)^[k] index = if n = 1 then index + k else if k = 0 then index else 0 := by
  induction k generalizing index with
  | zero => simp
  | succ k ih =>
    rw [Function.iterate_succ_apply, ih]
    by_cases h : n = 1
    · simp [h, advance]
      omega
    · have hadv : advance n index = 0 := if_pos (by omega)
      simp [h, hadv]

/-- The cursor runs out of the pool only when it shrinks to one worker. -/
theorem landing_ne_none {s : State} {n : Nat} (h₁ : 1 ≤ n) (h₂ : n ≤ s.workers.length) (m : Nat) :
    (∀ k, k < m → s.landing n k ≠ none) ↔ (n = 1 → m ≤ s.workers.length) := by
  have hstart : s.landingStart n < n := by
    unfold landingStart
    split <;> omega
  simp only [landing, advance_iterate, ne_eq, List.getElem?_eq_none_iff, not_le]
  constructor
  · rintro h rfl
    cases m with
    | zero => omega
    | succ m =>
      have := h m (by omega)
      simp only [↓reduceIte] at this
      omega
  · intro h k hk
    by_cases hn : n = 1
    · have := h hn
      simp only [hn, ↓reduceIte]
      subst hn
      omega
    · simp only [hn, ↓reduceIte]
      split <;> omega

/-- What the shrinking branch needs to return. -/
structure ShrinkSafe (E : Env) (s : State) (n : Nat) : Prop where
  /-- Enough workers are without an unschedulable runner. -/
  enough : (s.size : Int) - n ≤ (s.released n).length
  /-- The assertion of a debug build. -/
  exact : E.ndebug = true ∨ ((s.released n).length : Int) = s.size - n
  /-- No group is spliced out of a running list. -/
  retain : ∀ w ∈ s.workers.take n, w ∉ s.released n → Worker.RetainSafe s.runner (s.worker w)
  /-- `Bind` takes `group[0]`. -/
  nonempty : [] ∉ s.releasedGroups n
  /-- The cursor stays in the pool. -/
  single : n = 1 → (s.releasedGroups n).length ≤ s.workers.length

theorem shrink_returns {s : State} {n : Nat} (hn : s.workers.Nodup) (h₀ : 1 ≤ n)
    (h₁ : s.size ≤ s.workers.length) (h₂ : n < s.size) :
    (∃ s', s.shrink E n (s.size - n) = .ok s') ↔ s.ShrinkSafe E n := by
  have hrebind : (∃ u, rebind n (s.releasedGroups n) (s.releasedState n) = .ok u) ↔ _ :=
    rebind_returns
  have hland := landing_ne_none (s := s) h₀ (h₂.le.trans h₁) (s.releasedGroups n).length
  simp only [shrink_eq_ok hn (h₀.trans h₂.le) h₁ h₂]
  constructor
  · rintro ⟨_, hle, hd, hsafe, u, hu, -⟩
    obtain ⟨h, hne⟩ := hrebind.mp ⟨u, hu⟩
    exact ⟨hle, hd, hsafe, hne, hland.mp h⟩
  · rintro ⟨hle, hd, hsafe, hne, h⟩
    obtain ⟨u, hu⟩ := hrebind.mpr ⟨hland.mpr h, hne⟩
    exact ⟨_, hle, hd, hsafe, u, hu, rfl⟩

theorem releasedState_held (s : State) (n : Nat) (w : WorkerId) :
    (s.releasedState n).held w = s.shrinkKept n w := by
  by_cases hr : w ∈ s.released n <;> by_cases ht : w ∈ s.workers.take n <;>
    simp [State.held, releasedState, retainedAll, unboundWorker, shrinkKept, Worker.retained,
      emptied, Worker.held, hr, ht]

theorem releasedState_isTerminated (s : State) (n : Nat) (w : WorkerId) :
    ((s.releasedState n).worker w).isTerminated = (s.worker w).isTerminated := by
  by_cases hr : w ∈ s.released n <;> by_cases ht : w ∈ s.workers.take n <;>
    simp [releasedState, retainedAll, unboundWorker, Worker.retained, emptied, hr, ht]

/-- The state after the shrinking branch: the pool has its old length, the
released groups are bound again from `landingStart` on. -/
theorem shrink_spec {s s' : State} {n : Nat} (hn : s.workers.Nodup) (h₀ : 1 ≤ s.size)
    (h₁ : s.size ≤ s.workers.length) (h₂ : n < s.size) (h : s.shrink E n (s.size - n) = .ok s') :
    ∃ u, Rebound (s.releasedState n) u (s.landing n) (s.releasedGroups n) ∧
      s' = { u with size := n } ∧
      u.index = (advance n)^[(s.releasedGroups n).length] (s.landingStart n) := by
  obtain ⟨-, -, -, u, hu, rfl⟩ := (shrink_eq_ok hn h₀ h₁ h₂).mp h
  obtain ⟨hre, hindex⟩ := rebind_rebound hu
  exact ⟨u, hre, rfl, hindex⟩

end State

end Footstone
