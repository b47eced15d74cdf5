import Footstone.Shrinking

/-!
`Resize` and `AddWorker` as plans. A plan says which groups stay with which
worker, which ones are moved, and where each of these goes; both branches of
`Balance` carry out a plan, and what holds of all plans holds of both. Every
state that the interface leads to is well formed.
-/

namespace Footstone

open scoped List

/-- A redistribution of groups. Group `k` of `moved` goes to `target k`, or is
dropped; `adopts` says whether its runners then point to that worker. -/
structure Plan where
  kept : WorkerId → List Group
  moved : List Group
  target : Nat → Option WorkerId
  adopts : Bool

namespace Plan

/-- The groups of a worker when the plan is carried out. -/
def settled (p : Plan) (w : WorkerId) : List Group := p.kept w ++ Deal.received p.target p.moved w

/-- The groups that go nowhere. -/
def dropped (p : Plan) : List Group := Deal.unplaced p.target p.moved

/-- The plan splits the groups of `s`: worker `w` gives away `loose w`, and all of
that is moved, within the pool. -/
structure Splits (p : Plan) (s : State) (loose : WorkerId → List Group) : Prop where
  held : ∀ w, s.held w = p.kept w ++ loose w
  moved : p.moved.Perm (s.workers.flatMap loose)
  target : ∀ k w, p.target k = some w → w ∈ s.workers

/-- The plan leads from `s` to `s'`. -/
structure Relocates (p : Plan) (s s' : State) : Prop where
  workers : s'.workers = s.workers
  nextWorker : s'.nextWorker = s.nextWorker
  isTerminated : ∀ w, (s'.worker w).isTerminated = (s.worker w).isTerminated
  globalTaskRunnerId : s'.globalTaskRunnerId = s.globalTaskRunnerId
  busy : s'.busy = s.busy
  groupId : ∀ r, (s'.runner r).groupId = (s.runner r).groupId
  isSchedulable : ∀ r, (s'.runner r).isSchedulable = (s.runner r).isSchedulable
  held : ∀ w, s'.held w = p.settled w
  pointer : ∀ r, (p.adopts = true ∧ ∃ k g, p.moved[k]? = some g ∧ r ∈ g ∧
      (s'.runner r).worker = p.target k) ∨
    ((p.adopts = false ∨ ∀ g ∈ p.moved, r ∉ g) ∧ (s'.runner r).worker = (s.runner r).worker)
  placed : p.adopts = true → ∀ k, k < p.moved.length → p.target k ≠ none

/-! ## What holds of every plan -/

theorem flatMap_append_perm' {α β : Type*} (xs : List α) (f g h : α → List β)
    (e : ∀ x ∈ xs, h x = f x ++ g x) : (xs.flatMap f ++ xs.flatMap g).Perm (xs.flatMap h) := by
  rw [List.flatMap_congr e]
  exact List.flatMap_append_perm xs f g

/-- What is kept and what is moved make up the groups of the pool. -/
theorem Splits.perm {p : Plan} {s : State} {loose : WorkerId → List Group} (hp : p.Splits s loose) :
    (s.workers.flatMap p.kept ++ p.moved).Perm s.allGroups :=
  (hp.moved.append_left _).trans (flatMap_append_perm' _ _ _ _ fun w _ => hp.held w)

/-- **A plan loses exactly what it drops.** -/
theorem Relocates.conserves {p : Plan} {s s' : State} {loose : WorkerId → List Group}
    (h : p.Relocates s s') (hp : p.Splits s loose) (hn : s.workers.Nodup) :
    (s'.allGroups ++ p.dropped).Perm s.allGroups := by
  have hsettled : (s.workers.flatMap p.kept ++ s.workers.flatMap (Deal.received p.target p.moved)).Perm
      s'.allGroups := by
    rw [State.allGroups, h.workers]
    exact flatMap_append_perm' _ _ _ _ fun w _ => h.held w
  have hdealt : (s.workers.flatMap (Deal.received p.target p.moved) ++ p.dropped).Perm p.moved :=
    Deal.received_perm hn fun k _ w hw => hp.target k w hw
  calc s'.allGroups ++ p.dropped
      _ ~ s.workers.flatMap p.kept ++ s.workers.flatMap (Deal.received p.target p.moved) ++
          p.dropped := hsettled.symm.append_right p.dropped
      _ ~ s.workers.flatMap p.kept ++ p.moved := by
        rw [List.append_assoc]
        exact hdealt.append_left _
      _ ~ s.allGroups := hp.perm

theorem Splits.mem_held {p : Plan} {s : State} {loose : WorkerId → List Group}
    (hp : p.Splits s loose) {w : WorkerId} {g : Group} :
    g ∈ s.held w ↔ g ∈ p.kept w ∨ g ∈ loose w := by
  rw [hp.held, List.mem_append]

theorem Splits.mem_moved {p : Plan} {s : State} {loose : WorkerId → List Group}
    (hp : p.Splits s loose) {g : Group} : g ∈ p.moved ↔ ∃ w ∈ s.workers, g ∈ loose w := by
  rw [hp.moved.mem_iff, List.mem_flatMap]

theorem mem_settled {p : Plan} {w : WorkerId} {g : Group} :
    g ∈ p.settled w ↔ g ∈ p.kept w ∨ ∃ k, p.moved[k]? = some g ∧ p.target k = some w := by
  rw [settled, List.mem_append, Deal.mem_received]

/-- Where a runner is after the plan. -/
theorem Relocates.holds {p : Plan} {s s' : State} (h : p.Relocates s s') {w : WorkerId}
    {r : RunnerId} : s'.Holds w r ↔ (∃ g ∈ p.kept w, r ∈ g) ∨
      ∃ k g, p.moved[k]? = some g ∧ r ∈ g ∧ p.target k = some w := by
  simp only [State.Holds, h.held, mem_settled]
  grind

/-- Where it was before: in a group that is kept, or in one that is moved. -/
theorem Splits.holds {p : Plan} {s : State} {loose : WorkerId → List Group} (hp : p.Splits s loose)
    (hs : s.Wf) {w : WorkerId} {r : RunnerId} (h : s.Holds w r) :
    (∃ g ∈ p.kept w, r ∈ g) ∨ ∃ (k : Nat) (g : Group), p.moved[k]? = some g ∧ r ∈ g := by
  obtain ⟨g, hg, hr⟩ := h
  rcases hp.mem_held.mp hg with hg' | hg'
  · exact Or.inl ⟨g, hg', hr⟩
  · have hw := hs.mem_of_holds ⟨g, hg, hr⟩
    obtain ⟨k, hk⟩ := List.getElem?_of_mem (hp.mem_moved.mpr ⟨w, hw, hg'⟩)
    exact Or.inr ⟨k, g, hk, hr⟩

/-- A plan keeps well-formedness, when the new size fits the pool. -/
theorem Relocates.wf {p : Plan} {s s' : State} {loose : WorkerId → List Group}
    (h : p.Relocates s s') (hp : p.Splits s loose) (hs : s.Wf) (h₁ : 1 ≤ s'.size)
    (h₂ : s'.size ≤ s'.workers.length) : s'.Wf where
  nodup := by rw [h.workers]; exact hs.nodup
  lt_next w hw := by rw [h.nextWorker]; rw [h.workers] at hw; exact hs.lt_next w hw
  size_pos := h₁
  size_le := h₂
  isTerminated w hw := by
    rw [h.isTerminated]; rw [h.workers] at hw; exact hs.isTerminated w hw
  outside w hw := by
    rw [h.workers] at hw
    have hkept : p.kept w = [] := by
      have := hs.outside w hw
      rw [hp.held] at this
      exact (List.append_eq_nil_iff.mp this).1
    rw [h.held, List.eq_nil_iff_forall_not_mem]
    intro g hg
    rcases mem_settled.mp hg with hg | ⟨k, -, hk⟩
    · rw [hkept] at hg
      cases hg
    · exact hw (hp.target k w hk)
  pointer r w hr := by
    rw [h.workers]
    rcases h.pointer r with ⟨-, k, g, -, -, hk⟩ | ⟨-, hk⟩
    · exact hp.target k w (hk.symm.trans hr)
    · exact hs.pointer r w (hk.symm.trans hr)
  known w r hr := by
    rw [h.globalTaskRunnerId]
    rcases h.holds.mp hr with ⟨g, hg, hr⟩ | ⟨k, g, hk, hr, -⟩
    · exact hs.known w r ⟨g, hp.mem_held.mpr (Or.inl hg), hr⟩
    · obtain ⟨v, -, hv⟩ := hp.mem_moved.mp (List.mem_of_getElem? hk)
      exact hs.known v r ⟨g, hp.mem_held.mpr (Or.inr hv), hr⟩

end Plan

namespace State

variable {E : Env}

/-! ## The pool before `Balance` -/

/-- `Resize` creates the missing workers first. -/
def staged (E : Env) (s : State) (n : Nat) : State := s.createWorkers E (n - s.size)

@[simp] theorem staged_size (s : State) (n : Nat) : (s.staged E n).size = s.size := by
  rw [staged, createWorkers_eq]

@[simp] theorem staged_runner (s : State) (n : Nat) : (s.staged E n).runner = s.runner := by
  rw [staged, createWorkers_eq]

@[simp] theorem staged_globalTaskRunnerId (s : State) (n : Nat) :
    (s.staged E n).globalTaskRunnerId = s.globalTaskRunnerId := by
  rw [staged, createWorkers_eq]

/-- Nothing is created when the pool is large enough. -/
theorem staged_self {s : State} {n : Nat} (h : n ≤ s.size) : s.staged E n = s := by
  rw [staged, Nat.sub_eq_zero_of_le h, createWorkers]

theorem staged_worker {s : State} (hs : s.Wf) {n : Nat} {w : WorkerId} (hw : w ∈ s.workers) :
    (s.staged E n).worker w = s.worker w := by
  have := hs.lt_next w hw
  rw [staged, createWorkers_eq]
  exact if_neg (by grind)

theorem staged_held {s : State} (hs : s.Wf) (n : Nat) : (s.staged E n).held = s.held := by
  funext w
  by_cases hw : w ∈ s.workers
  · rw [State.held, staged_worker hs hw, State.held]
  · rw [hs.outside w hw, staged, createWorkers_eq]
    simp only [State.held]
    split
    · rfl
    · exact hs.outside w hw

theorem staged_workers (s : State) (n : Nat) :
    (s.staged E n).workers = s.workers ++ List.range' s.nextWorker (n - s.size) := by
  rw [staged, createWorkers_eq]

theorem staged_pool {s : State} (hs : s.Wf) (n : Nat) : (s.staged E n).pool = s.pool := by
  rw [pool, pool, staged_size, staged_workers, List.take_append_of_le_length hs.size_le]

theorem staged_wf {s : State} (hs : s.Wf) (n : Nat) : (s.staged E n).Wf where
  nodup := by
    rw [staged_workers]
    refine hs.nodup.append (List.nodup_range' ..) fun w hw hw' => ?_
    have := hs.lt_next w hw
    have := (List.mem_range'_1.mp hw').1
    grind
  lt_next w hw := by
    rw [staged_workers, List.mem_append, List.mem_range'_1] at hw
    rw [staged, createWorkers_eq]
    rcases hw with hw | ⟨-, hw⟩
    · exact Nat.lt_add_right _ (hs.lt_next w hw)
    · exact hw
  size_pos := by rw [staged_size]; exact hs.size_pos
  size_le := by
    have := hs.size_le
    rw [staged_size, staged_workers, List.length_append]
    exact Nat.le_add_right_of_le this
  isTerminated w hw := by
    rw [staged_workers, List.mem_append, List.mem_range'_1] at hw
    rcases hw with hw | hw
    · rw [staged_worker hs hw]; exact hs.isTerminated w hw
    · rw [staged, createWorkers_eq]
      simp only [hw, and_self, ↓reduceIte]
  outside w hw := by
    rw [staged_workers, List.mem_append, not_or] at hw
    rw [staged_held hs]
    exact hs.outside w hw.1
  pointer r w hr := by
    rw [staged_workers]
    rw [staged_runner] at hr
    exact List.mem_append_left _ (hs.pointer r w hr)
  known w r hr := by
    rw [Holds, staged_held hs] at hr
    rw [staged_globalTaskRunnerId]
    exact hs.known w r hr

theorem staged_allGroups {s : State} (hs : s.Wf) (n : Nat) :
    (s.staged E n).allGroups = s.allGroups := by
  have hnew : (List.range' s.nextWorker (n - s.size)).flatMap s.held = [] := by
    rw [List.flatMap_eq_nil_iff]
    intro w hw
    refine hs.outside w fun hm => ?_
    have := hs.lt_next w hm
    have := (List.mem_range'_1.mp hw).1
    grind
  rw [allGroups, staged_held hs, staged_workers, List.flatMap_append, hnew, List.append_nil,
    allGroups]

/-! ## The growing branch as a plan -/

def growPlan (s : State) (n : Nat) : Plan where
  kept w := if w ∈ s.pool then (s.worker w).runningGroups else s.held w
  moved := s.pendingGroups
  target := Deal.seat (s.rooms n)
  adopts := false

theorem growPlan_splits {s : State} (hn : s.workers.Nodup) {n : Nat} (h : s.size ≤ n) :
    (s.growPlan n).Splits s fun w => if w ∈ s.pool then (s.worker w).pendingGroups else [] where
  held w := by
    by_cases hw : w ∈ s.pool <;> simp [growPlan, hw, State.held, Worker.held]
  moved := by
    have hdrop : ∀ w ∈ s.workers.drop s.size, w ∉ s.pool := fun w hw hp =>
      (List.disjoint_take_drop hn le_rfl) hp hw
    have hpool : (s.pool.flatMap fun w => if w ∈ s.pool then (s.worker w).pendingGroups else []) =
        s.pendingGroups := List.flatMap_congr fun w hw => if_pos hw
    have hrest : ((s.workers.drop s.size).flatMap fun w =>
        if w ∈ s.pool then (s.worker w).pendingGroups else []) = [] :=
      List.flatMap_eq_nil_iff.mpr fun w hw => if_neg (hdrop w hw)
    conv_rhs => rw [← List.take_append_drop s.size s.workers, List.flatMap_append]
    rw [hrest, List.append_nil]
    exact .of_eq hpool.symm
  target k w hw := by
    obtain ⟨room, hroom, rfl⟩ := List.mem_map.mp (Deal.seat_mem hw)
    exact List.take_subset _ _ (rooms_mem h hroom)

theorem grown_relocates (s : State) (n : Nat) : (s.growPlan n).Relocates s (s.grown n) where
  workers := rfl
  nextWorker := rfl
  isTerminated w := by
    by_cases hw : w ∈ s.pool <;>
      simp [grown, withDealt, gathered, retainedAll, Worker.retained, hw]
  globalTaskRunnerId := rfl
  busy := rfl
  groupId _ := rfl
  isSchedulable _ := rfl
  held w := by
    by_cases hw : w ∈ s.pool <;>
      simp [State.held, Worker.held, grown, withDealt, gathered, retainedAll, Worker.retained,
        Plan.settled, growPlan, hw]
  pointer _ := Or.inr ⟨Or.inl rfl, rfl⟩
  placed := nofun

/-! ## The shrinking branch as a plan -/

def shrinkPlan (s : State) (n : Nat) : Plan where
  kept := s.shrinkKept n
  moved := s.releasedGroups n
  target := s.landing n
  adopts := true

theorem released_subset {s : State} {n : Nat} {w : WorkerId} (h : w ∈ s.released n) : w ∈ s.pool := by
  unfold released at h
  split at h
  · cases h
  · rename_i z xs hp
    rw [hp]
    simpa [or_comm] using (mem_unboundOf h).1

theorem released_nodup {s : State} (hn : s.workers.Nodup) (n : Nat) : (s.released n).Nodup := by
  have hpool : s.pool.Nodup := hn.sublist (List.take_sublist _ _)
  unfold released
  split
  · exact .nil
  · rename_i z xs hp
    rw [hp, List.nodup_cons] at hpool
    refine List.Nodup.append ((List.nodup_reverse.mpr hpool.2).filter _) ?_ fun w hw hz => ?_
    · split
      · exact (List.nodup_singleton z).filter _
      · exact .nil
    · have hwx := List.mem_reverse.mp (List.mem_of_mem_filter hw)
      split at hz
      · rw [List.mem_singleton.mp (List.mem_of_mem_filter hz)] at hwx
        exact hpool.1 hwx
      · cases hz

theorem shrinkPlan_splits {s : State} (hn : s.workers.Nodup) (n : Nat) :
    (s.shrinkPlan n).Splits s fun w => if w ∈ s.released n then s.held w else
      if w ∈ s.workers.take n then (s.worker w).pendingGroups else [] where
  held w := by
    by_cases hr : w ∈ s.released n <;> by_cases ht : w ∈ s.workers.take n <;>
      simp [shrinkPlan, shrinkKept, State.held, Worker.held, hr, ht]
  moved := by
    set loose : WorkerId → List Group := fun w => if w ∈ s.released n then s.held w else
      if w ∈ s.workers.take n then (s.worker w).pendingGroups else [] with hloose
    have hreleased : (s.released n).Perm (s.workers.filter (· ∈ s.released n)) := by
      refine (List.perm_ext_iff_of_nodup (released_nodup hn n) (hn.filter _)).mpr fun w => ?_
      simp only [List.mem_filter, decide_eq_true_eq]
      exact ⟨fun h => ⟨List.take_subset _ _ (released_subset h), h⟩, fun h => h.2⟩
    have hgiven : (s.workers.filter (· ∈ s.released n)).flatMap loose =
        (s.workers.filter (· ∈ s.released n)).flatMap s.held :=
      List.flatMap_congr fun w hw => if_pos (by simpa using (List.mem_filter.mp hw).2)
    have hrest : (s.workers.filter (· ∉ s.released n)).flatMap loose =
        ((s.workers.take n).filter (· ∉ s.released n)).flatMap fun w => (s.worker w).pendingGroups := by
      have hdrop : ((s.workers.drop n).filter (· ∉ s.released n)).flatMap loose = [] := by
        rw [List.flatMap_eq_nil_iff]
        intro w hw
        obtain ⟨hw, hr⟩ := List.mem_filter.mp hw
        have ht : w ∉ s.workers.take n := fun ht => (List.disjoint_take_drop hn le_rfl) ht hw
        rw [hloose]
        simp only [if_neg ht, if_neg (of_decide_eq_true hr)]
      have htake : ((s.workers.take n).filter (· ∉ s.released n)).flatMap loose =
          ((s.workers.take n).filter (· ∉ s.released n)).flatMap fun w =>
            (s.worker w).pendingGroups := by
        refine List.flatMap_congr fun w hw => ?_
        obtain ⟨hw, hr⟩ := List.mem_filter.mp hw
        rw [hloose]
        simp only [if_pos hw, if_neg (of_decide_eq_true hr)]
      conv_lhs => rw [← List.take_append_drop n s.workers, List.filter_append, List.flatMap_append]
      rw [hdrop, htake, List.append_nil]
    calc (s.shrinkPlan n).moved
        _ ~ (s.workers.filter (· ∈ s.released n)).flatMap s.held ++
            ((s.workers.take n).filter (· ∉ s.released n)).flatMap fun w =>
              (s.worker w).pendingGroups := (hreleased.flatMap_right _).append_right _
        _ ~ (s.workers.filter (· ∈ s.released n) ++ s.workers.filter (· ∉ s.released n)).flatMap
              loose := by rw [List.flatMap_append, hgiven, hrest]
        _ ~ s.workers.flatMap loose := by
          refine List.Perm.flatMap_right _ ?_
          simpa using List.filter_append_perm (· ∈ s.released n) s.workers
  target k w hw := List.mem_of_getElem? hw

theorem shrink_relocates {s s' : State} {n : Nat} (hs : s.Wf) (h₁ : 1 ≤ n) (h₂ : n < s.size)
    (h : s.shrink E n (s.size - n) = .ok s') : (s.shrinkPlan n).Relocates s s' := by
  have hsafe := (shrink_returns hs.nodup h₁ hs.size_le h₂).mp ⟨s', h⟩
  obtain ⟨u, hre, rfl, -⟩ := shrink_spec hs.nodup hs.size_pos hs.size_le h₂ h
  exact {
    workers := hre.workers
    nextWorker := hre.nextWorker
    isTerminated := fun w => (hre.isTerminated w).trans (releasedState_isTerminated s n w)
    globalTaskRunnerId := hre.globalTaskRunnerId
    busy := hre.busy
    groupId := hre.groupId
    isSchedulable := hre.isSchedulable
    held := fun w => (hre.held w).trans (by rw [releasedState_held]; rfl)
    pointer := fun r => (hre.pointer r).imp (⟨rfl, ·⟩) fun h => ⟨Or.inr h.1, h.2⟩
    placed := fun _ => (landing_ne_none h₁ (h₂.le.trans hs.size_le) _).mpr hsafe.single }

/-! ## `Resize` and `AddWorker` -/

theorem staged_pendingGroups {s : State} (hs : s.Wf) (n : Nat) :
    (s.staged E n).pendingGroups = s.pendingGroups := by
  rw [pendingGroups, staged_pool hs]
  exact List.flatMap_congr fun w hw => by rw [staged_worker hs (List.take_subset _ _ hw)]

theorem staged_groupsSize {s : State} (hs : s.Wf) (n : Nat) :
    (s.staged E n).groupsSize = s.groupsSize := by
  rw [groupsSize, staged_pool hs]
  exact congrArg List.sum
    (List.map_congr_left fun w hw => by rw [staged_worker hs (List.take_subset _ _ hw)])

theorem staged_growSafe {s : State} (hs : s.Wf) (n : Nat) :
    (s.staged E n).GrowSafe ↔ s.GrowSafe := by
  have hlock : ∀ r, (s.staged E n).lock (s.runner r).worker = s.lock (s.runner r).worker := by
    intro r
    have h := (staged_wf (E := E) hs n).lock r
    rw [staged_runner] at h
    rw [h, hs.lock]
  simp only [GrowSafe, Housed, staged_runner, hlock, staged_pool hs, staged_groupsSize hs,
    staged_pendingGroups hs]
  refine and_congr_left' (forall₂_congr fun w hw => ?_)
  rw [staged_worker hs (List.take_subset _ _ hw)]

/-- The branches of a `Resize`, with the sizes worked out. -/
theorem resize_eq (s : State) (n : Nat) : s.resize E n =
    if n = s.size then .ok s else if s.size < n then (s.staged E n).grow n
    else if n = 0 then .error .check else s.shrink E n (s.size - n) := by
  have hcast : ((s.size : Int) + ((n : Int) - s.size)).toNat = n := by omega
  have hpos : (0 : Int) < s.size + ((n : Int) - s.size) ↔ n ≠ 0 := by omega
  unfold resize
  split
  · rfl
  · split
    · have hdiff : (0 : Int) < (n : Int) - s.size := by omega
      rw [← staged, balance, if_pos hdiff, staged_size, hcast]
    · have hdiff : ¬ (0 : Int) < (n : Int) - s.size := by omega
      have hneg : (0 : Int) - ((n : Int) - s.size) = s.size - n := by omega
      simp only [balance, if_neg hdiff, hcast, hneg, hpos]
      by_cases hn : n = 0
      · simp [hn, check, bind, Except.bind]
      · simp [hn, check, bind, Except.bind]

/-- The three ways a `Resize` returns. -/
theorem resize_eq_ok {s s' : State} (hs : s.Wf) {n : Nat} :
    s.resize E n = .ok s' ↔ (n = s.size ∧ s' = s) ∨
      (s.size < n ∧ s.GrowSafe ∧ s' = (s.staged E n).grown n) ∨
      (1 ≤ n ∧ n < s.size ∧ s.shrink E n (s.size - n) = .ok s') := by
  rw [resize_eq]
  rcases Nat.lt_trichotomy n s.size with h | rfl | h
  · rw [if_neg (by omega), if_neg (by omega)]
    by_cases hn : n = 0
    · simp [hn]
      omega
    · rw [if_neg hn]
      constructor
      · exact fun h' => Or.inr (Or.inr ⟨by omega, h, h'⟩)
      · rintro (⟨rfl, -⟩ | ⟨h', -, -⟩ | ⟨-, -, h'⟩)
        · omega
        · omega
        · exact h'
  · simp [eq_comm]
  · have hlen : n ≤ (s.staged E n).workers.length := by
      have := hs.size_le
      rw [staged_workers, List.length_append, List.length_range']
      omega
    rw [if_neg (by omega), if_pos h, grow_eq_ok (staged_wf hs n).nodup (by simpa using h) hlen,
      staged_growSafe hs]
    constructor
    · rintro ⟨hsafe, rfl⟩
      exact Or.inr (Or.inl ⟨h, hsafe, rfl⟩)
    · rintro (⟨rfl, -⟩ | ⟨-, hsafe, rfl⟩ | ⟨-, h', -⟩)
      · omega
      · exact ⟨hsafe, rfl⟩
      · omega

/-- `AddWorker` grows the pool by the worker it was given. -/
theorem addWorker_eq (s : State) : s.addWorker E = s.resize E (s.size + 1) := by
  have hone : s.size + 1 - s.size = 1 := by omega
  have hdiff : ((s.size + 1 : Nat) : Int) - s.size = 1 := by omega
  rw [addWorker, resize, if_neg (by omega), if_pos (by omega), hone, hdiff]
  rfl

/-- What a `Resize` does with the groups. -/
def resizePlan (E : Env) (s : State) (n : Nat) : Plan :=
  if n = s.size then { kept := s.held, moved := [], target := fun _ => none, adopts := false }
  else if s.size < n then (s.staged E n).growPlan n
  else s.shrinkPlan n

/-- The plan splits the groups of the pool, new workers included. -/
theorem resizePlan_splits {s : State} (hs : s.Wf) (n : Nat) :
    ∃ loose, (s.resizePlan E n).Splits (s.staged E n) loose := by
  have hsize : (s.staged E n).size = s.size := staged_size s n
  unfold resizePlan
  split
  · rename_i h
    subst h
    exact ⟨fun _ => [], fun w => by rw [staged_held hs]; simp, by simp, by simp⟩
  · split
    · exact ⟨_, growPlan_splits (staged_wf hs n).nodup (by omega)⟩
    · rename_i h
      rw [staged_self (by omega)]
      exact ⟨_, shrinkPlan_splits hs.nodup n⟩

/-- **`Resize` carries out its plan.** -/
theorem resize_relocates {s s' : State} (hs : s.Wf) {n : Nat} (h : s.resize E n = .ok s') :
    (s.resizePlan E n).Relocates (s.staged E n) s' := by
  unfold resizePlan
  rcases (resize_eq_ok hs).mp h with ⟨rfl, rfl⟩ | ⟨hlt, -, rfl⟩ | ⟨hpos, hlt, h⟩
  · rw [if_pos rfl, staged_self le_rfl]
    exact ⟨rfl, rfl, fun _ => rfl, rfl, rfl, fun _ => rfl, fun _ => rfl,
      fun w => by simp [Plan.settled], fun _ => Or.inr ⟨Or.inl rfl, rfl⟩, nofun⟩
  · rw [if_neg (by omega), if_pos hlt]
    exact grown_relocates _ n
  · rw [if_neg (by omega), if_neg (by omega), staged_self hlt.le]
    exact shrink_relocates hs hpos hlt h

/-- A `Resize` loses what its plan drops, and nothing else. -/
theorem resize_allGroups {s s' : State} (hs : s.Wf) {n : Nat} (h : s.resize E n = .ok s') :
    (s'.allGroups ++ (s.resizePlan E n).dropped).Perm s.allGroups := by
  obtain ⟨loose, hp⟩ := resizePlan_splits (E := E) hs n
  have hcons := (resize_relocates hs h).conserves hp (staged_wf hs n).nodup
  rwa [staged_allGroups hs] at hcons

/-- `size_` after a `Resize` that returns. -/
theorem resize_size {s s' : State} (hs : s.Wf) {n : Nat} (h : s.resize E n = .ok s') :
    s'.size = n ∧ 1 ≤ n := by
  rcases (resize_eq_ok hs).mp h with ⟨rfl, rfl⟩ | ⟨hlt, -, rfl⟩ | ⟨hpos, hlt, h⟩
  · exact ⟨rfl, hs.size_pos⟩
  · exact ⟨rfl, by omega⟩
  · obtain ⟨u, -, rfl, -⟩ := shrink_spec hs.nodup hs.size_pos hs.size_le hlt h
    exact ⟨rfl, hpos⟩

theorem resize_wf {s s' : State} (hs : s.Wf) {n : Nat} (h : s.resize E n = .ok s') : s'.Wf := by
  obtain ⟨loose, hp⟩ := resizePlan_splits (E := E) hs n
  obtain ⟨hsize, hpos⟩ := resize_size hs h
  have hre := resize_relocates hs h
  refine hre.wf hp (staged_wf hs n) (by omega) ?_
  have := hs.size_le
  rw [hsize, hre.workers, staged_workers, List.length_append, List.length_range']
  omega

end State

end Footstone
