import Footstone.GetNextTask

/-!
`Bind` against `GetNextTask`, one access at a time. `need_balance_` says that
groups wait in `pending_groups_`, but it is written outside the locks that guard
that list: a `Bind` that falls between the balancing and the clearing of the flag
leaves its group behind with the flag down.
-/

namespace Footstone

open Runs

namespace Worker

/-- The locked part of `Bind` of one group. -/
def insertGroup (runner : Runners) (group : Group) (w : Worker) : Except Fault Worker :=
  match group with
  | [] => .error .emptyGroup
  | r :: _ =>
    let groupId := (runner r).groupId
    .ok { w with
      groupId := if groupId ≠ kDefaultGroupId then groupId else w.groupId
      pendingGroups := w.pendingGroups ++ [group] }

/-- The locked part of `Bind` of a list. -/
def insertList (list : List Group) (w : Worker) : Worker :=
  { w with pendingGroups := w.pendingGroups ++ list }

def setNeedBalance (b : Bool) (w : Worker) : Worker := { w with needBalance := b }

/-- A whole `Bind` is its accesses in a row. -/
theorem bind_eq (runner : Runners) (group : Group) (w : Worker) :
    w.bind runner group = (w.insertGroup runner group).map (setNeedBalance true) := by
  cases group <;> rfl

theorem bindList_eq (list : List Group) (w : Worker) :
    w.bindList list = (w.insertList list).setNeedBalance true := rfl

/-- So is the balancing part of `GetNextTask`. -/
theorem balanceStage_eq_steps (runner : Runners) (w : Worker) :
    balanceStage runner w = if w.needBalance then
      (balanceNoLock runner w).map fun p => (p.1, p.2.setNeedBalance false) else .ok (runner, w) := by
  unfold balanceStage
  split
  · cases balanceNoLock runner w <;> rfl
  · rfl

end Worker

/-- Where a binding thread is. -/
inductive BindPc where
  | idle
  /-- The group is in `pending_groups_`, the flag is not written yet. -/
  | inserted
  /-- The flag is written, `Notify` is not called yet. -/
  | flagged
  deriving DecidableEq

/-- Where the worker's thread is. -/
inductive BalancePc where
  | idle
  /-- The flag was read as true. -/
  | needed
  /-- `BalanceNoLock` has returned, the flag is not cleared yet. -/
  | balanced
  deriving DecidableEq

/-- A worker and the threads that bind to it. -/
structure Binding (τ : Type) where
  runner : Runners
  worker : Worker
  binder : τ → BindPc := fun _ => .idle
  balancer : BalancePc := .idle

/-- One access of a binding thread or of the worker's thread. -/
inductive Access (τ : Type) where
  | insertGroup (t : τ) (group : Group)
  | insertList (t : τ) (list : List Group)
  | setNeedBalance (t : τ)
  | notify (t : τ)
  | readNeedBalance
  | balance
  | clearNeedBalance

namespace Binding

variable {τ : Type} [DecidableEq τ]

/-- The thread `t` goes from `a` to `b`. -/
def move (t : τ) (a b : BindPc) (s : Binding τ) : Except Fault (Binding τ) :=
  if s.binder t = a then .ok { s with binder := Function.update s.binder t b }
  else .error .stranger

def step (s : Binding τ) : Access τ → Except Fault (Binding τ)
  | .insertGroup t group => do
    let s ← s.move t .idle .inserted
    let worker ← s.worker.insertGroup s.runner group
    return { s with worker := worker }
  | .insertList t list => do
    let s ← s.move t .idle .inserted
    return { s with worker := s.worker.insertList list }
  | .setNeedBalance t => do
    let s ← s.move t .inserted .flagged
    return { s with worker := s.worker.setNeedBalance true }
  | .notify t => s.move t .flagged .idle
  | .readNeedBalance =>
    if s.balancer = .idle then
      .ok { s with balancer := if s.worker.needBalance then .needed else .idle }
    else .error .stranger
  | .balance =>
    if s.balancer = .needed then do
      let (runner, worker) ← s.worker.balanceNoLock s.runner
      return { s with runner := runner, worker := worker, balancer := .balanced }
    else .error .stranger
  | .clearNeedBalance =>
    if s.balancer = .balanced then
      .ok { s with worker := s.worker.setNeedBalance false, balancer := .idle }
    else .error .stranger

/-- Groups wait only under the flag, unless a `Bind` is about to raise it. -/
def NotStranded (s : Binding τ) : Prop :=
  s.worker.pendingGroups ≠ [] → (∀ t, s.binder t ≠ .inserted) → s.worker.needBalance = true

/-- The flag is cleared while no group waits that came after the balancing, or
while a `Bind` is still going to raise it again. -/
def ClearsInTime (s : Binding τ) : Access τ → Prop
  | .clearNeedBalance => s.worker.pendingGroups = [] ∨ ∃ t, s.binder t = .inserted
  | _ => True

theorem move_eq_ok {t : τ} {a b : BindPc} {s s' : Binding τ} : s.move t a b = .ok s' ↔
    s.binder t = a ∧ s' = { s with binder := Function.update s.binder t b } := by
  unfold move
  split <;> simp_all [eq_comm]

/-- Only the clearing can strand a group. -/
theorem step_notStranded {s s' : Binding τ} {a : Access τ} (hs : s.NotStranded)
    (h : s.step a = .ok s') : s'.NotStranded ↔ s.ClearsInTime a := by
  cases a with
  | insertGroup t group =>
    obtain ⟨s₁, hm, h⟩ := bind_eq_ok.mp h
    obtain ⟨worker, -, h⟩ := bind_eq_ok.mp h
    obtain ⟨-, rfl⟩ := move_eq_ok.mp hm
    cases h
    exact iff_of_true (fun _ hno => absurd (Function.update_self t _ _) (hno t)) trivial
  | insertList t list =>
    obtain ⟨s₁, hm, h⟩ := bind_eq_ok.mp h
    obtain ⟨-, rfl⟩ := move_eq_ok.mp hm
    cases h
    exact iff_of_true (fun _ hno => absurd (Function.update_self t _ _) (hno t)) trivial
  | setNeedBalance t =>
    obtain ⟨s₁, -, h⟩ := bind_eq_ok.mp h
    cases h
    exact iff_of_true (fun _ _ => rfl) trivial
  | notify t =>
    obtain ⟨ht, rfl⟩ := move_eq_ok.mp h
    refine iff_of_true (fun hp hno => hs hp fun u hu => ?_) trivial
    have hne : u ≠ t := by
      rintro rfl
      rw [ht] at hu
      cases hu
    exact hno u ((Function.update_of_ne hne _ _).trans hu)
  | readNeedBalance =>
    change (if s.balancer = .idle then _ else _) = _ at h
    split at h <;> cases h
    exact iff_of_true hs trivial
  | balance =>
    change (if s.balancer = .needed then _ else _) = _ at h
    split at h
    · obtain ⟨⟨runner, worker⟩, hb, h⟩ := bind_eq_ok.mp h
      obtain ⟨-, rfl⟩ := Worker.balanceNoLock_inv hb
      cases h
      exact iff_of_true (fun hp => absurd rfl hp) trivial
    · cases h
  | clearNeedBalance =>
    change (if s.balancer = .balanced then _ else _) = _ at h
    split at h
    · cases h
      constructor
      · intro hs'
        by_contra hno
        obtain ⟨hp, hb⟩ := not_or.mp hno
        exact Bool.false_ne_true (hs' hp fun t ht => hb ⟨t, ht⟩)
      · rintro (hp | ⟨t, ht⟩)
        · exact fun hne => absurd hp hne
        · exact fun _ hno => absurd ht (hno t)
    · cases h

end Binding

/-- **No bound group is stranded.** For any number of binding threads, along every
interleaving, groups wait under the flag exactly when it is always cleared in time. -/
theorem not_stranded_iff {τ : Type} [DecidableEq τ] {runner : Runners} {worker : Worker}
    (h : worker.pendingGroups = []) (accesses : List (Access τ)) :
    Always Binding.step Binding.NotStranded { runner := runner, worker := worker } accesses ↔
      Meets Binding.step Binding.ClearsInTime { runner := runner, worker := worker } accesses :=
  always_iff_meets (A := fun _ => True) (J := fun _ => True) (fun _ _ _ _ _ _ => trivial)
    (fun _ _ _ _ _ hs => Binding.step_notStranded hs) (fun _ _ => trivial) trivial
    fun hp => absurd h hp

/-- A worker of a fresh group, with schedulable runners. -/
def Binding.fresh : Binding Bool where
  runner := fun _ => { priority := 1, groupId := 0, isSchedulable := true }
  worker := { groupId := 0 }

/-- One `Bind`, and the balancing that follows it. -/
theorem not_stranded_in_turn :
    let accesses : List (Access Bool) := [.insertGroup true [0], .setNeedBalance true, .notify true,
      .readNeedBalance, .balance, .clearNeedBalance]
    Always Binding.step Binding.NotStranded Binding.fresh accesses ↔
      Meets Binding.step Binding.ClearsInTime Binding.fresh accesses :=
  not_stranded_iff rfl _

/-- The second `Bind` runs between the balancing and the clearing: its group waits,
no `Bind` is under way, and the flag is down. -/
theorem second_bind_stranded : ¬ Always Binding.step Binding.NotStranded Binding.fresh
    [.insertGroup true [0], .setNeedBalance true, .notify true, .readNeedBalance, .balance,
      .insertGroup false [1], .setNeedBalance false, .notify false, .clearNeedBalance] := by
  intro h
  have hstranded := always_iff_run.mp h _ List.prefix_rfl _ (run_last (by decide))
  exact Bool.false_ne_true (hstranded (by decide) (by decide))

end Footstone
