import Footstone.Lib.Deal
import Footstone.Placement
import Mathlib.Algebra.Order.BigOperators.Group.List
import Mathlib.Algebra.Order.Ring.Nat

/-!
The growing branch of `Balance` in closed form: when it returns, and the state
it returns. The pending groups of the pool are dealt out to rooms; `rooms` lists
how many groups each worker may still take, a negative number meaning all.
-/

namespace Footstone

namespace State

variable {E : Env}

/-- The workers that `size_` counts. -/
def pool (s : State) : List WorkerId := s.workers.take s.size

/-! ## New workers -/

theorem createWorkers_eq (n : Nat) (s : State) : s.createWorkers E n = { s with
    workers := s.workers ++ List.range' s.nextWorker n
    worker := fun w => if s.nextWorker ≤ w ∧ w < s.nextWorker + n then { groupId := E.groupId w }
      else s.worker w
    nextWorker := s.nextWorker + n } := by
  induction n generalizing s with
  | zero =>
    have h : ∀ w, ¬ (s.nextWorker ≤ w ∧ w < s.nextWorker) := fun w => by grind
    simp [createWorkers, h]
  | succ n ih =>
    rw [createWorkers, ih]
    simp only [pushWorker, State.mk.injEq, List.append_assoc, List.singleton_append,
      ← List.range'_succ, true_and]
    refine ⟨?_, by grind, trivial⟩
    funext w
    simp only [Function.update_apply]
    grind

/-! ## Gathering -/

/-- The workers after all of `ws` went through it. -/
def retainedAll (ws : List WorkerId) (worker : WorkerId → Worker) : WorkerId → Worker :=
  fun w => if w ∈ ws then (worker w).retained else worker w

@[simp] theorem retainedAll_nil (worker : WorkerId → Worker) : retainedAll [] worker = worker := by
  funext w
  simp [retainedAll]

theorem retainedAll_cons {w : WorkerId} {ws : List WorkerId} (h : w ∉ ws)
    (worker : WorkerId → Worker) : retainedAll (w :: ws) worker =
      retainedAll ws (Function.update worker w (worker w).retained) := by
  funext v
  by_cases hv : v = w
  · subst hv; simp [retainedAll, h]
  · simp [retainedAll, hv]

theorem map_update {β : Type*} {w : WorkerId} {ws : List WorkerId} (h : w ∉ ws)
    (worker : WorkerId → Worker) (x : Worker) (f : Worker → β) :
    (ws.map fun v => f (Function.update worker w x v)) = ws.map fun v => f (worker v) :=
  List.map_congr_left fun v hv => by rw [Function.update_of_ne (ne_of_mem_of_not_mem hv h)]

theorem flatMap_update {β : Type*} {w : WorkerId} {ws : List WorkerId} (h : w ∉ ws)
    (worker : WorkerId → Worker) (x : Worker) (f : Worker → List β) :
    (ws.flatMap fun v => f (Function.update worker w x v)) = ws.flatMap fun v => f (worker v) :=
  List.flatMap_congr fun v hv => by rw [Function.update_of_ne (ne_of_mem_of_not_mem hv h)]

theorem forall_update {w : WorkerId} {ws : List WorkerId} (h : w ∉ ws)
    (worker : WorkerId → Worker) (x : Worker) (P : Worker → Prop) :
    (∀ v ∈ ws, P (Function.update worker w x v)) ↔ ∀ v ∈ ws, P (worker v) :=
  forall₂_congr fun v hv => by rw [Function.update_of_ne (ne_of_mem_of_not_mem hv h)]

theorem gather_eq_ok {runner : Runners} {ws : List WorkerId} (hn : ws.Nodup) {acc acc' : Gathered} :
    gather runner ws acc = .ok acc' ↔
      (∀ w ∈ ws, Worker.RetainSafe runner (acc.worker w)) ∧ acc' = {
        groupsSize := acc.groupsSize + (ws.map fun w => (acc.worker w).runningGroups.length).sum
        groups := acc.groups ++ ws.flatMap fun w => (acc.worker w).pendingGroups
        curWorkerGroup := acc.curWorkerGroup ++ ws.map fun w => (acc.worker w).runningGroups.length
        worker := retainedAll ws acc.worker } := by
  induction ws generalizing acc with
  | nil => simp [gather, eq_comm]
  | cons w ws ih =>
    obtain ⟨hw, hn'⟩ := List.nodup_cons.mp hn
    simp only [gather, Runs.bind_eq_ok, Prod.exists, Worker.retain_eq_ok]
    constructor
    · rintro ⟨_, _, ⟨hs, rfl, rfl⟩, h⟩
      obtain ⟨hall, rfl⟩ := (ih hn').mp h
      dsimp only at hall ⊢
      rw [forall_update hw] at hall
      rw [map_update hw _ _ fun x => x.runningGroups.length, flatMap_update hw _ _ Worker.pendingGroups]
      exact ⟨List.forall_mem_cons.mpr ⟨hs, hall⟩,
        by simp [Worker.retained, Nat.add_assoc, retainedAll_cons hw]⟩
    · rintro ⟨hall, rfl⟩
      obtain ⟨hs, hall⟩ := List.forall_mem_cons.mp hall
      refine ⟨_, _, ⟨hs, rfl, rfl⟩, (ih hn').mpr ⟨(forall_update hw _ _ _).mpr hall, ?_⟩⟩
      dsimp only
      rw [map_update hw _ _ fun x => x.runningGroups.length, flatMap_update hw _ _ Worker.pendingGroups]
      simp [Worker.retained, Nat.add_assoc, retainedAll_cons hw]

/-! ## The rooms -/

theorem ring_eq {m n : Nat} (h : m ≤ n) : ring m n = List.range' m (n - m) ++ List.range m := by
  apply List.ext_getElem
  · simp [ring]; omega
  · intro k h₁ h₂
    simp only [ring, List.length_map, List.length_range] at h₁
    simp only [ring, List.getElem_map, List.getElem_range, List.getElem_append, List.length_range',
      List.getElem_range']
    split
    · rename_i hk
      have hmod : (m + k) % n = m + k - n := by
        rw [Nat.mod_eq_sub_mod hk, Nat.mod_eq_of_lt (by omega)]
      rw [dif_neg (by omega), hmod]
      omega
    · rw [dif_pos (by omega)]
      omega

/-! ## Moving runner-specific data -/

/-- The tasks queued on `w` for the runners that are handed over. -/
def posted (s : State) (handed : List (RunnerId × WorkerId)) (w : WorkerId) : List ImmediateTask :=
  (handed.filter fun p => s.lock (s.runner p.1).worker = some w).map fun p =>
    .takeSpecific p.1 w p.2

theorem posted_cons (s : State) (r : RunnerId) (dst : WorkerId) (hs : List (RunnerId × WorkerId))
    (w : WorkerId) : s.posted ((r, dst) :: hs) w =
      (if s.lock (s.runner r).worker = some w then [.takeSpecific r w dst] else []) ++
        s.posted hs w := by
  unfold posted
  by_cases h : s.lock (s.runner r).worker = some w <;> simp [h]

theorem posted_append (s : State) (xs ys : List (RunnerId × WorkerId)) (w : WorkerId) :
    s.posted (xs ++ ys) w = s.posted xs w ++ s.posted ys w := by
  simp [posted]

/-- Every runner of the list has a worker. -/
def Housed (s : State) (rs : List RunnerId) : Prop :=
  ∀ r ∈ rs, ∃ w, s.lock (s.runner r).worker = some w

def withPosted (s : State) (handed : List (RunnerId × WorkerId)) : State :=
  { s with worker := fun w => { s.worker w with
      immediateTaskQueue := (s.worker w).immediateTaskQueue ++ s.posted handed w } }

theorem moveSpecifics_eq_ok {dst : WorkerId} {rs : List RunnerId} {s s' : State} :
    moveSpecifics dst rs s = .ok s' ↔ s.Housed rs ∧ s' = s.withPosted (rs.map (·, dst)) := by
  induction rs generalizing s with
  | nil => simp [moveSpecifics, Housed, withPosted, posted, eq_comm]
  | cons r rs ih =>
    cases hl : s.lock (s.runner r).worker with
    | none => simp [moveSpecifics, Housed, hl]
    | some src =>
      have hhoused : s.Housed (r :: rs) ↔ s.Housed rs := by
        simp only [Housed, List.forall_mem_cons, hl]
        simp
      have hposted : (s.moveTaskRunnerSpecificNoLock r src dst).withPosted (rs.map (·, dst)) =
          s.withPosted ((r :: rs).map (·, dst)) := by
        simp only [withPosted, State.mk.injEq, moveTaskRunnerSpecificNoLock, modifyWorker, setWorker,
          true_and, and_true]
        funext w
        rw [List.map_cons, posted_cons, hl]
        by_cases hw : w = src
        · subst hw
          simp [Worker.addImmediateTask]
          rfl
        · simp [hw, Ne.symm hw]
          rfl
      simp only [moveSpecifics, hl, ih, hhoused, hposted]
      exact Iff.rfl

/-! ## Dealing the groups out -/

/-- The pairs of a runner and the worker its group is dealt to. -/
def handed (target : Nat → Option WorkerId) (groups : List Group) : List (RunnerId × WorkerId) :=
  (Deal.dealt target groups).flatMap fun p => p.1.map (·, p.2)

theorem mem_handed {target : Nat → Option WorkerId} {groups : List Group} {r : RunnerId}
    {w : WorkerId} : (r, w) ∈ handed target groups ↔
      ∃ k g, groups[k]? = some g ∧ r ∈ g ∧ target k = some w := by
  simp only [handed, List.mem_flatMap, List.mem_map, Prod.mk.injEq]
  constructor
  · rintro ⟨⟨g, v⟩, hp, x, hx, rfl, rfl⟩
    obtain ⟨k, hk, ht⟩ := Deal.mem_dealt.mp hp
    exact ⟨k, g, hk, hx, ht⟩
  · rintro ⟨k, g, hk, hr, ht⟩
    exact ⟨(g, w), Deal.mem_dealt.mpr ⟨k, hk, ht⟩, r, hr, rfl, rfl⟩

/-- The groups are dealt out, and the tasks that move the data are queued. -/
def withDealt (s : State) (rooms : List (WorkerId × Int)) (groups : List Group) : State :=
  { s with worker := fun w => { s.worker w with
      pendingGroups := (s.worker w).pendingGroups ++ Deal.received (Deal.seat rooms) groups w
      needBalance := (s.worker w).needBalance || rooms.any fun room => room.1 = w
      immediateTaskQueue := (s.worker w).immediateTaskQueue ++
        s.posted (handed (Deal.seat rooms) groups) w } }

theorem distribute_eq_ok {q : Nat} {cur : List Nat} {rest : List Nat} {rooms : List (WorkerId × Int)}
    {s : State} (hrooms : List.Forall₂ (fun i room => s.workers[i]? = some room.1 ∧
      room.2 = (q : Int) - (cur.getD i 0 : Nat)) rest rooms) {groups : List Group} {s' : State} :
    distribute q cur rest groups s = .ok s' ↔
      s.Housed ((handed (Deal.seat rooms) groups).map Prod.fst) ∧ s' = s.withDealt rooms groups := by
  induction rest generalizing rooms s groups with
  | nil =>
    cases hrooms
    have hnil : Deal.dealt (Deal.seat ([] : List (WorkerId × Int))) groups = [] := Deal.dealt_none _
    simp [distribute, handed, Housed, withDealt, posted, Deal.received, hnil, eq_comm]
  | cons i rest ih =>
    obtain ⟨⟨w, c⟩, rooms, ⟨hw, hc⟩, hrest, rfl⟩ := List.forall₂_cons_left_iff.mp hrooms
    simp only at hw hc
    have hfill : (if lessSize c groups.length then groups.splitAt c.toNat else (groups, [])) =
        Deal.fill c groups := by
      simp [lessSize, Deal.fill]
    have hhanded : handed (Deal.seat ((w, c) :: rooms)) groups =
        (Deal.fill c groups).1.flatten.map (·, w) ++ handed (Deal.seat rooms) (Deal.fill c groups).2 := by
      simp [handed, Deal.dealt_seat_cons, List.map_flatten, List.flatMap_def, Function.comp_def]
    have hreceived := Deal.received_seat_cons w c rooms groups
    simp only [distribute, hw, ← hc, hfill, Runs.bind_eq_ok, moveSpecifics_eq_ok]
    generalize Deal.fill c groups = split at *
    have ih' := @ih rooms ((s.withPosted (split.1.flatten.map (·, w))).modifyWorker w
      (Worker.bindList split.1)) hrest split.2
    have hposted : ((s.withPosted (split.1.flatten.map (·, w))).modifyWorker w
      (Worker.bindList split.1)).posted = s.posted := rfl
    have hstate : ((s.withPosted (split.1.flatten.map (·, w))).modifyWorker w
        (Worker.bindList split.1)).withDealt rooms split.2 = s.withDealt ((w, c) :: rooms) groups := by
      simp only [withDealt, hposted, hhanded, posted_append, hreceived]
      simp only [modifyWorker, setWorker, withPosted, State.mk.injEq, true_and, and_true]
      funext v
      by_cases hv : v = w
      · subst hv
        simp [Worker.bindList]
      · simp [hv, Ne.symm hv]
    have hhoused : s.Housed ((handed (Deal.seat ((w, c) :: rooms)) groups).map Prod.fst) ↔
        s.Housed split.1.flatten ∧ s.Housed ((handed (Deal.seat rooms) split.2).map Prod.fst) := by
      rw [hhanded, List.map_append, List.map_map]
      simp only [Housed, List.forall_mem_append, Function.comp_def, List.map_id']
    rw [hhoused, ← hstate]
    constructor
    · rintro ⟨_, ⟨hlist, rfl⟩, h⟩
      obtain ⟨htail, rfl⟩ := ih'.mp h
      exact ⟨⟨hlist, htail⟩, rfl⟩
    · rintro ⟨⟨hlist, htail⟩, rfl⟩
      exact ⟨_, ⟨hlist, rfl⟩, ih'.mpr ⟨htail, rfl⟩⟩

/-! ## The growing branch -/

/-- `groups_size`: the number of groups in the running lists of the pool. -/
def groupsSize (s : State) : Nat := (s.pool.map fun w => (s.worker w).runningGroups.length).sum

/-- `resize_group_size`. -/
def quota (s : State) (n : Nat) : Nat := s.groupsSize / n

/-- The rooms in the order they are filled: the new workers come first. -/
def rooms (s : State) (n : Nat) : List (WorkerId × Int) :=
  (((s.workers.take n).drop s.size).map fun w => (w, (s.quota n : Int))) ++
    s.pool.map fun w => (w, (s.quota n : Int) - ((s.worker w).runningGroups.length : Nat))

/-- The groups the growing branch moves. -/
def pendingGroups (s : State) : List Group := s.pool.flatMap fun w => (s.worker w).pendingGroups

/-- The state between the two loops. -/
def gathered (s : State) : State :=
  { s with
    worker := retainedAll s.pool s.worker
    index := s.size }

/-- The state after the growing branch. -/
def grown (s : State) (n : Nat) : State :=
  { s.gathered.withDealt (s.rooms n) s.pendingGroups with size := n }

theorem rooms_ring {s : State} {n : Nat} (h₁ : s.size ≤ n) (h₂ : n ≤ s.workers.length) :
    List.Forall₂ (fun i room => s.workers[i]? = some room.1 ∧ room.2 = (s.quota n : Int) -
      ((s.pool.map fun w => (s.worker w).runningGroups.length).getD i 0 : Nat))
      (ring s.size n) (s.rooms n) := by
  have hpool : s.pool.length = s.size := by simp [pool]; omega
  rw [ring_eq h₁]
  refine List.rel_append ?_ ?_
  · refine List.forall₂_iff_get.mpr ⟨by simp; omega, fun k hk₁ hk₂ => ?_⟩
    simp only [List.length_range'] at hk₁
    have hk : s.size + k < s.workers.length := by omega
    simp [hk, hpool]
  · refine List.forall₂_iff_get.mpr ⟨by simp [hpool], fun k hk₁ hk₂ => ?_⟩
    simp only [List.length_range] at hk₁
    have hk : k < s.workers.length := by omega
    simp [pool, hk, hk₁]

/-- A room belongs to one of the first `n` workers. -/
theorem rooms_mem {s : State} {n : Nat} {room : WorkerId × Int} (h₁ : s.size ≤ n)
    (h : room ∈ s.rooms n) : room.1 ∈ s.workers.take n := by
  rcases List.mem_append.mp h with h | h
  · obtain ⟨w, hw, rfl⟩ := List.mem_map.mp h
    exact List.drop_subset _ _ hw
  · obtain ⟨w, hw, rfl⟩ := List.mem_map.mp h
    exact (List.take_subset_take_left _ h₁) hw

/-- With a running group in the pool, some worker of it has more than its quota:
its room takes everything. -/
theorem rooms_neg {s : State} {n : Nat} (h₁ : s.size < n) (hR : 0 < s.groupsSize) :
    ∃ room ∈ s.rooms n, room.2 < 0 := by
  by_contra hno
  push Not at hno
  -- Otherwise the pool has at most `size_` times the quota, less than `n` times it.
  have hle : ∀ x ∈ s.pool.map fun w => (s.worker w).runningGroups.length, x ≤ s.quota n := by
    intro x hx
    obtain ⟨w, hw, rfl⟩ := List.mem_map.mp hx
    have h := hno _ (List.mem_append_right _ (List.mem_map.mpr ⟨w, hw, rfl⟩))
    simp only at h
    omega
  have hsum : s.groupsSize ≤ s.size * s.quota n := by
    have h := List.sum_le_card_nsmul _ _ hle
    rw [List.length_map, nsmul_eq_mul, Nat.cast_id] at h
    exact h.trans (Nat.mul_le_mul_right _ (by simp [pool]))
  have hdiv : n * s.quota n ≤ s.groupsSize := Nat.mul_div_le _ _
  rcases Nat.eq_zero_or_pos (s.quota n) with hq | hq
  · rw [hq, Nat.mul_zero] at hsum
    omega
  · have := Nat.mul_lt_mul_of_pos_right h₁ hq
    omega

/-- With no running group in the pool there is no room at all. -/
theorem rooms_zero {s : State} {n : Nat} (hR : s.groupsSize = 0) :
    ∀ room ∈ s.rooms n, room.2 = 0 := by
  intro room h
  have hq : s.quota n = 0 := by rw [quota, hR, Nat.zero_div]
  rcases List.mem_append.mp h with h | h
  · obtain ⟨w, hw, rfl⟩ := List.mem_map.mp h
    simp [hq]
  · obtain ⟨w, hw, rfl⟩ := List.mem_map.mp h
    have hz := List.sum_eq_zero_iff_forall_eq_nat.mp hR _ (List.mem_map.mpr ⟨w, hw, rfl⟩)
    simp [hq, hz]

/-- The growing branch returns: no group is spliced out of a running list, and
every runner that is dealt out has a worker. -/
def GrowSafe (s : State) : Prop :=
  (∀ w ∈ s.pool, Worker.RetainSafe s.runner (s.worker w)) ∧
    (0 < s.groupsSize → s.Housed s.pendingGroups.flatten)

/-- Everything is dealt out or nothing is. -/
theorem housed_handed {s : State} {n : Nat} (h : s.size < n) :
    s.Housed ((handed (Deal.seat (s.rooms n)) s.pendingGroups).map Prod.fst) ↔
      (0 < s.groupsSize → s.Housed s.pendingGroups.flatten) := by
  simp only [Housed, List.mem_map, Prod.exists, exists_and_right, exists_eq_right, mem_handed]
  constructor
  · intro hh hR r hr
    obtain ⟨g, hg, hr⟩ := List.mem_flatten.mp hr
    obtain ⟨k, hk⟩ := List.getElem?_of_mem hg
    obtain ⟨w, hw⟩ := Option.ne_none_iff_exists'.mp (Deal.seat_ne_none (rooms_neg h hR) k)
    exact hh r ⟨w, k, g, hk, hr, hw⟩
  · rintro hh r ⟨w, k, g, hk, hr, hw⟩
    rcases Nat.eq_zero_or_pos s.groupsSize with hR | hR
    · rw [Deal.seat_eq_none (rooms_zero hR)] at hw
      cases hw
    · exact hh hR r (List.mem_flatten.mpr ⟨g, List.mem_of_getElem? hk, hr⟩)

theorem grow_eq_ok {s s' : State} {n : Nat} (hn : s.workers.Nodup) (h₁ : s.size < n)
    (h₂ : n ≤ s.workers.length) : s.grow n = .ok s' ↔ s.GrowSafe ∧ s' = s.grown n := by
  have hsub : s.subscripts s.size = .ok s.pool := if_pos (h₁.le.trans h₂)
  have hpool : s.pool.Nodup := hn.sublist (List.take_sublist _ _)
  have hdist : ∀ t, distribute (s.quota n) (s.pool.map fun w => (s.worker w).runningGroups.length)
      (ring s.size n) s.pendingGroups s.gathered = .ok t ↔ _ :=
    fun t => distribute_eq_ok (s := s.gathered) (rooms_ring (s := s) h₁.le h₂)
  simp only [grow, Runs.bind_eq_ok, hsub, Except.ok.injEq, exists_eq_left', gather_eq_ok hpool,
    Nat.zero_add, List.nil_append]
  constructor
  · rintro ⟨_, ⟨hsafe, rfl⟩, t, ht, h⟩
    cases h
    obtain ⟨hh, rfl⟩ := (hdist t).mp ht
    exact ⟨⟨hsafe, (housed_handed h₁).mp hh⟩, rfl⟩
  · rintro ⟨⟨hsafe, hh⟩, rfl⟩
    exact ⟨_, ⟨hsafe, rfl⟩, _, (hdist _).mpr ⟨(housed_handed h₁).mpr hh, rfl⟩, rfl⟩

end State

end Footstone
