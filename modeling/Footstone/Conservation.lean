import Footstone.WellFormed

/-!
Whether a `Resize` or an `AddWorker` conserves the groups of the pool. Shrinking
does whenever it returns. Growing counts the running groups only, and with none
of them there is room for nobody: the pending groups then go away with the local
list.
-/

namespace Footstone

open Runs

namespace State

variable {E : Env}

/-- The call returns with the groups the pool had. -/
def Conserves (s : State) (out : Except Fault State) : Prop :=
  ∃ s', out = .ok s' ∧ s'.allGroups.Perm s.allGroups

/-- What a `Resize` needs to conserve the groups. -/
def ConservesAt (E : Env) (s : State) (n : Nat) : Prop :=
  n = s.size ∨
    (s.size < n ∧ (∀ w ∈ s.pool, Worker.RetainSafe s.runner (s.worker w)) ∧
      (s.pendingGroups = [] ∨ 0 < s.groupsSize ∧ s.Housed s.pendingGroups.flatten)) ∨
    (n < s.size ∧ s.ShrinkSafe E n)

/-- The growing branch drops nothing or every pending group. -/
theorem growPlan_dropped {s : State} {n : Nat} (h : s.size < n) :
    (s.growPlan n).dropped = [] ↔ s.pendingGroups = [] ∨ 0 < s.groupsSize := by
  have hnone : (s.growPlan n).dropped = [] ↔
      ∀ k, k < s.pendingGroups.length → Deal.seat (s.rooms n) k ≠ none := Deal.unplaced_eq_nil_iff
  rw [hnone]
  constructor
  · intro hk
    by_contra hno
    push Not at hno
    have hzero := Deal.seat_eq_none (rooms_zero (n := n) (by omega : s.groupsSize = 0)) 0
    exact hk 0 (List.length_pos_iff.mpr hno.1) hzero
  · rintro (he | hR) k hk
    · simp [he] at hk
    · exact Deal.seat_ne_none (rooms_neg h hR) k

theorem perm_append_self_iff {α : Type*} {xs ys zs : List α} (h : (xs ++ ys).Perm zs) :
    xs.Perm zs ↔ ys = [] := by
  constructor
  · intro h'
    have := h.length_eq
    have := h'.length_eq
    simp only [List.length_append] at *
    exact List.length_eq_zero_iff.mp (by omega)
  · rintro rfl
    simpa using h

/-- **A plan conserves the groups exactly when it drops none.** -/
theorem resize_perm_iff {s s' : State} (hs : s.Wf) {n : Nat} (h : s.resize E n = .ok s') :
    s'.allGroups.Perm s.allGroups ↔ (s.resizePlan E n).dropped = [] :=
  perm_append_self_iff (resize_allGroups hs h)

theorem shrinkPlan_dropped {s : State} {n : Nat} (hs : s.Wf) (h₁ : 1 ≤ n) (h₂ : n < s.size)
    (h : s.ShrinkSafe E n) : (s.shrinkPlan n).dropped = [] :=
  Deal.unplaced_eq_nil_iff.mpr ((landing_ne_none h₁ (h₂.le.trans hs.size_le) _).mpr h.single)

theorem resize_conserves {s : State} (hs : s.Wf) {n : Nat} (hn : 1 ≤ n) :
    s.Conserves (s.resize E n) ↔ s.ConservesAt E n := by
  have hsize : (s.staged E n).size = s.size := staged_size s n
  constructor
  · rintro ⟨s', h, hp⟩
    rw [resize_perm_iff hs h, resizePlan] at hp
    rcases (resize_eq_ok hs).mp h with ⟨rfl, -⟩ | ⟨hlt, hsafe, -⟩ | ⟨-, hlt, h⟩
    · exact Or.inl rfl
    · rw [if_neg (by omega), if_pos hlt, growPlan_dropped (by omega), staged_pendingGroups hs,
        staged_groupsSize hs] at hp
      exact Or.inr (Or.inl ⟨hlt, hsafe.1, hp.imp_right fun hR => ⟨hR, hsafe.2 hR⟩⟩)
    · exact Or.inr (Or.inr ⟨hlt, (shrink_returns hs.nodup hn hs.size_le hlt).mp ⟨s', h⟩⟩)
  · rintro (rfl | ⟨hlt, hretain, hpend⟩ | ⟨hlt, hsafe⟩)
    · exact ⟨s, (resize_eq_ok hs).mpr (Or.inl ⟨rfl, rfl⟩), .refl _⟩
    · have hgrow : s.GrowSafe := by
        refine ⟨hretain, fun hR => ?_⟩
        rcases hpend with he | ⟨-, hh⟩
        · simp [he, Housed]
        · exact hh
      have h := (resize_eq_ok (E := E) hs).mpr (Or.inr (Or.inl ⟨hlt, hgrow, rfl⟩))
      refine ⟨_, h, (resize_perm_iff hs h).mpr ?_⟩
      rw [resizePlan, if_neg (by omega), if_pos hlt, growPlan_dropped (by omega),
        staged_pendingGroups hs, staged_groupsSize hs]
      exact hpend.imp_right And.left
    · obtain ⟨s', h'⟩ := (shrink_returns hs.nodup hn hs.size_le hlt).mpr hsafe
      have h := (resize_eq_ok (E := E) hs).mpr (Or.inr (Or.inr ⟨hn, hlt, h'⟩))
      refine ⟨s', h, (resize_perm_iff hs h).mpr ?_⟩
      rw [resizePlan, if_neg (by omega), if_neg (by omega)]
      exact shrinkPlan_dropped hs hn hlt hsafe

end State

/-- **When groups are conserved.** For every reachable state, a `Resize` conserves
the groups of the pool exactly under `ConservesAt`, and so does an `AddWorker`. -/
theorem resize_conserves_iff {E : Env} {s : State} (h : Reachable E s) :
    (∀ n, 1 ≤ n → (s.Conserves (s.resize E n) ↔ s.ConservesAt E n)) ∧
      (s.Conserves (s.addWorker E) ↔ s.ConservesAt E (s.size + 1)) := by
  refine ⟨fun n hn => State.resize_conserves h.wf hn, ?_⟩
  rw [State.addWorker_eq]
  exact State.resize_conserves h.wf (by omega)

/-- A group that has been run once is conserved. -/
theorem resize_conserves_running : ∃ s, run (step .debug) (State.new .debug 2)
    [.createTaskRunner 0 1 true, .runTask 0 fun _ => 0] = .ok s ∧
      s.Conserves (s.resize .debug 3) := by
  have hrun : run (step .debug) (State.new .debug 2)
      [.createTaskRunner 0 1 true, .runTask 0 fun _ => 0] = .ok _ := run_last (by decide)
  refine ⟨_, hrun, ((resize_conserves_iff ⟨2, _, by decide, hrun⟩).1 3 (by decide)).mpr ?_⟩
  exact Or.inr (Or.inl ⟨by decide, by decide, Or.inl (by decide)⟩)

/-- One that has not is lost. -/
theorem resize_drops_pending : ∃ s, run (step .debug) (State.new .debug 2)
    [.createTaskRunner 0 1 true] = .ok s ∧ ¬ s.Conserves (s.resize .debug 3) := by
  refine ⟨_, run_last (by decide), ?_⟩
  rintro ⟨s', hs, hp⟩
  have hlen : (State.resize .debug 3 (last (step .debug) (State.new .debug 2)
      [.createTaskRunner 0 1 true])).toOption.map (fun s' => s'.allGroups.length) = some 0 := by decide
  rw [hs] at hlen
  have hone := hp.length_eq
  simp only [Except.toOption, Option.map_some, Option.some.injEq] at hlen
  rw [hlen] at hone
  revert hone
  decide

end Footstone
