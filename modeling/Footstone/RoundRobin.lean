import Footstone.WellFormed

/-!
Where a new manager puts the runners it creates. The cursor never comes past the
first worker: `size - 1 ? 0 : ++index_` puts it back to 0 in a pool of several
workers, and in a pool of one it runs out of the pool.
-/

namespace Footstone

open Runs

/-- One call of `CreateTaskRunner` for each priority. -/
def placements (priorities : List UInt32) : List Op :=
  priorities.map fun p => .createTaskRunner kDefaultGroupId p true

/-- The calls return, and any two workers have the same number of groups, up to
one. -/
def PlacedEvenly (E : Env) (n : Nat) (priorities : List UInt32) : Prop :=
  ∃ s, run (step E) (State.new E n) (placements priorities) = .ok s ∧
    ∀ w ∈ s.workers, ∀ v ∈ s.workers, (s.held w).length ≤ (s.held v).length + 1

namespace State

variable {E : Env}

/-- A pool of `n` workers with `k` groups placed so far: all of them are on the
first worker, and a pool of one has room for a single one. -/
structure Piled (n k : Nat) (s : State) : Prop where
  workers : s.workers = List.range' 0 n
  size : s.size = n
  index : s.index = if n = 1 then k else 0
  first : (s.held 0).length = k
  rest : ∀ w, w ≠ 0 → s.held w = []
  single : n = 1 → k ≤ 1

theorem new_piled (n : Nat) : (State.new E n).Piled n 0 := by
  refine ⟨by rw [new_eq], by rw [new_eq], ?_, by rw [new_held]; rfl, fun w _ => new_held n w,
    fun _ => Nat.zero_le 1⟩
  rw [new_eq]
  split <;> rfl

theorem spot_default (s : State) : s.spot kDefaultGroupId = s.workers[s.index]? := by
  simp [spot, groupWorker]

/-- One more placement goes to the first worker as well. -/
theorem Piled.step {n k : Nat} {s s' : State} {priority : UInt32} (h : s.Piled n k)
    (hs : s.createTaskRunner kDefaultGroupId priority true = .ok s') : s'.Piled n (k + 1) := by
  rcases createTaskRunner_cases hs with ⟨hf, -⟩ | ⟨-, w, hspot, hc⟩
  · cases hf
  · rw [spot_default, h.workers] at hspot
    obtain ⟨hlt, hw⟩ := List.getElem?_eq_some_iff.mp hspot
    rw [List.length_range'] at hlt
    -- The cursor is at 0: in a pool of one nothing was placed before.
    have hzero : s.index = 0 := by
      rw [h.index] at hlt ⊢
      split <;> simp_all
    have hfirst : w = 0 := by
      rw [List.getElem_range', hzero] at hw
      simpa using hw.symm
    subst hfirst
    have hgroup : s.groupWorker kDefaultGroupId = none := by simp [groupWorker]
    have hsingle : n = 1 → k = 0 := by
      intro hn
      rw [h.index, if_pos hn] at hlt
      omega
    refine ⟨hc.workers.trans h.workers, hc.size.trans h.size, ?_, ?_, fun v hv => ?_, fun hn => ?_⟩
    · rw [hc.index, if_pos hgroup, h.size, hzero, advance]
      by_cases hn : n = 1
      · simp [hn, hsingle hn]
      · rw [if_pos (by omega), if_neg hn]
    · rw [hc.held, Function.update_self, List.length_append, h.first]
      rfl
    · rw [hc.held, Function.update_of_ne hv]
      exact h.rest v hv
    · rw [hsingle hn]

theorem Piled.run {n k : Nat} {s s' : State} (h : s.Piled n k) {priorities : List UInt32}
    (hs : Runs.run (Footstone.step E) s (placements priorities) = .ok s') :
    s'.Piled n (k + priorities.length) := by
  induction priorities generalizing s k with
  | nil =>
    cases hs
    exact h
  | cons p ps ih =>
    obtain ⟨t, hp, hrest⟩ := run_cons_inv hs
    have hfinal := ih (h.step hp) hrest
    rwa [Nat.add_assoc, Nat.add_comm 1] at hfinal

/-- At most one group in all is even. -/
theorem Piled.even {n k : Nat} {s : State} (h : s.Piled n k) (hk : k ≤ 1) (w v : WorkerId) :
    (s.held w).length ≤ (s.held v).length + 1 := by
  by_cases hw : w = 0
  · rw [hw, h.first]
    omega
  · rw [h.rest w hw]
    exact Nat.zero_le _

end State

/-- **Round robin.** `CreateTaskRunner` on a new manager places the runners evenly
exactly when there is at most one. -/
theorem placed_evenly_iff {E : Env} {n : Nat} (hn : 1 ≤ n) (priorities : List UInt32) :
    PlacedEvenly E n priorities ↔ priorities.length ≤ 1 := by
  constructor
  · rintro ⟨s, hrun, heven⟩
    have hpiled := (State.new_piled (E := E) n).run hrun
    rw [Nat.zero_add] at hpiled
    by_cases hone : n = 1
    · exact hpiled.single hone
    · have hle := heven 0 (by rw [hpiled.workers, List.mem_range'_1]; omega)
        1 (by rw [hpiled.workers, List.mem_range'_1]; omega)
      rwa [hpiled.first, hpiled.rest 1 (by decide)] at hle
  · intro hle
    have hreturns : ∃ s, run (step E) (State.new E n) (placements priorities) = .ok s := by
      match priorities, hle with
      | [], _ => exact ⟨_, rfl⟩
      | [p], _ =>
        have hcursor : (State.new E n).workers[(State.new E n).index]? = some 0 := by
          rw [State.new_eq, List.getElem?_range' (by exact hn)]
          rfl
        obtain ⟨s, hs⟩ := State.createTaskRunner_returns p ((State.spot_default _).trans hcursor)
        exact ⟨s, by rw [placements, List.map_cons, run_cons (by exact hs)]; rfl⟩
    obtain ⟨s, hrun⟩ := hreturns
    have hpiled := (State.new_piled (E := E) n).run hrun
    rw [Nat.zero_add] at hpiled
    exact ⟨s, hrun, fun w _ v _ => hpiled.even hle w v⟩

/-- One runner on three workers. -/
theorem placed_evenly_one : PlacedEvenly .debug 3 [1] :=
  (placed_evenly_iff (by decide) [1]).mpr (by decide)

/-- Two runners on two workers: both are on the first one. -/
theorem second_placed_on_first : ¬ PlacedEvenly .debug 2 [1, 1] := by
  rintro ⟨s, hrun, heven⟩
  have hlast := hrun.symm.trans (run_last (by decide))
  cases hlast
  have hle := heven 0 (by decide) 1 (by decide)
  revert hle
  decide

end Footstone
