import Footstone.MpmcCommit
import Mathlib.Data.List.Nodup

/-!
Slots and indices used round after round. A compare-exchange cannot tell an index
from the same index a round later, and the flag that a pop leaves on the last slot
of the block, `size_limit`, is the index of that slot.
-/

namespace Footstone

open Runs

namespace Mpmc

open Ring

variable {α : Type} {w : Nat}

namespace Queue

/-- Every value that was popped is that of a push, and of a different one each time. -/
def Genuine (q : Queue α w) : Prop :=
  q.popped.Nodup ∧ ∀ e ∈ q.popped, ∃ val k, e = some (val, k) ∧ q.claimed[k]? = some val

theorem Wf.lt_of_popped {q : Queue α w} (hq : q.Wf) {k : Nat} (hk : k < q.popped.length) :
    k < q.claimed.length :=
  hk.trans_le (hq.tail_le.trans hq.head_le)

theorem Wf.genuine {q : Queue α w} (hq : q.Wf) : q.Genuine := by
  have hnodup : ((List.range q.popped.length).map q.entry).Nodup := by
    refine List.Nodup.map_on (fun j hj k hk h => ?_) List.nodup_range
    rw [Wf.entry_some (hq.lt_of_popped (List.mem_range.mp hj)),
      Wf.entry_some (hq.lt_of_popped (List.mem_range.mp hk)), Option.some.injEq, Prod.mk.injEq] at h
    exact h.2
  refine ⟨hq.fifo ▸ hnodup, fun e he => ?_⟩
  rw [hq.fifo] at he
  obtain ⟨k, hk, rfl⟩ := List.mem_map.mp he
  have hlt := hq.lt_of_popped (List.mem_range.mp hk)
  exact ⟨q.claimed[k], k, Wf.entry_some hlt, List.getElem?_eq_getElem hlt⟩

end Queue

instance (q : Queue α w) (ok : Bool) : (p : Pc α w) → Decidable (q.Fresh ok p)
  | .pushClaim .. => inferInstanceAs (Decidable (_ → _ → _ ≠ _))
  | .pushCommit .. => inferInstanceAs (Decidable (_ → _ = _))
  | .popCommit .. => inferInstanceAs (Decidable (_ → _ → _ ∧ _ ≠ _))
  | .popTake .. => inferInstanceAs (Decidable (_ → _ → _ = _))
  | .idle | .pushFlag _ | .pushTail .. | .pushData .. | .pushStore .. | .pushSlot .. | .pushHead ..
  | .pushAdvance .. | .popTail | .popHead _ | .popSlot _ | .popAdvance _ | .popData .. => isTrue trivial

instance {τ : Type} (s : System τ α w) : (op : Op τ α) → Decidable (s.Fresh op)
  | .access t ok => inferInstanceAs (Decidable (s.queue.Fresh ok (s.pc t)))
  | .push .. | .pop _ => isTrue trivial

/-- The accesses of `t` that finish a call or part of one. -/
def accesses {τ : Type} (t : τ) (n : Nat) : List (Op τ α) := List.replicate n (.access t true)

/-! ## Calls that nobody disturbs -/

namespace Queue

/-- The push `n` of `val` in the slot `i`. -/
def stored (i : BitVec w) (val : α) (n : Nat) (q : Queue α w) : Queue α w :=
  ((q.claim val).setData i (val, n)).setFlag i (wide i)

def passed (i : BitVec w) (flag : BitVec 64) (q : Queue α w) : Queue α w :=
  (q.setFlag i flag).advance i

/-- All indices are on the position `k`. -/
structure Level (maxSize k : Nat) (q : Queue α w) : Prop where
  tail : q.tail = pos w k
  head : q.head = pos w k
  flag : q.flag = pos w k
  maxSize : q.maxSize = maxSize

@[simp] theorem block_stored (i : BitVec w) (val : α) (n : Nat) (q : Queue α w) :
    (q.stored i val n).block i = { data := some (val, n), flag := wide i } := by
  simp [stored, setFlag, setData]

theorem block_stored_of_ne {i j : BitVec w} (h : j ≠ i) (val : α) (n : Nat) (q : Queue α w) :
    (q.stored i val n).block j = q.block j := by
  simp [stored, setFlag, setData, claim, h]

@[simp] theorem block_passed (i : BitVec w) (flag : BitVec 64) (q : Queue α w) :
    (q.passed i flag).block i = { q.block i with flag := flag } := by
  simp [passed, setFlag, advance]

theorem block_passed_of_ne {i j : BitVec w} (h : j ≠ i) (flag : BitVec 64) (q : Queue α w) :
    (q.passed i flag).block j = q.block j := by
  simp [passed, setFlag, advance, h]

end Queue

namespace System

variable {τ : Type} [DecidableEq τ] {s : System τ α w} {t : τ} {q : Queue α w}

theorem goOn_goOn (q q' : Queue α w) (p p' : Pc α w) :
    (s.goOn t q p).goOn t q' p' = s.goOn t q' p' := by
  simp [goOn]

theorem run_push (val : α) (ops : List (Op τ α)) :
    run step (s.goOn t q .idle) (.push t val :: ops) = run step (s.goOn t q (.pushFlag val)) ops :=
  run_cons (step_push_eq_ok.mpr ⟨by simp [goOn], (goOn_goOn _ _ _ _).symm⟩) ops

theorem run_pop (ops : List (Op τ α)) :
    run step (s.goOn t q .idle) (.pop t :: ops) = run step (s.goOn t q .popTail) ops :=
  run_cons (step_pop_eq_ok.mpr ⟨by simp [goOn], (goOn_goOn _ _ _ _).symm⟩) ops

theorem run_access {p : Pc α w} (ok : Bool) (ops : List (Op τ α)) (hp : p ≠ .idle) :
    run step (s.goOn t q p) (.access t ok :: ops) =
      run step (s.goOn t (q.access ok p).1 (q.access ok p).2) ops := by
  have hpc : (s.goOn t q p).pc t = p := by simp [goOn]
  refine run_cons (step_access_eq_ok.mpr ⟨by rwa [hpc], ?_⟩) ops
  rw [hpc, goOn_goOn]
  rfl

/-- A push that finds room writes its slot. -/
theorem run_store {k : Nat} {val : α} (hw : 1 < 2 ^ w) (htail : q.tail = pos w k)
    (hflag : q.flag = pos w k) (hmax : 1 < q.maxSize) (ops : List (Op τ α)) :
    run step (s.goOn t q .idle) (.push t val :: accesses t 5 ++ ops) =
      run step (s.goOn t (q.stored (pos w k) val q.claimed.length)
        (.pushSlot (pos w k) q.claimed.length)) ops := by
  have hsucc : pos w k + 1 = pos w (k + 1) := pos_succ k
  have hne : pos w (k + 1) ≠ pos w k := pos_succ_ne hw k
  have hsub : (pos w (k + 1) - pos w k).toNat = 1 := by
    rw [pos_sub_toNat (by omega) (by omega)]
    omega
  have hroom : q.access true (.pushTail val (pos w k)) = (q, .pushClaim val (pos w k)) := by
    rw [Queue.access, htail, hsucc, if_neg hne, hsub, if_neg (Nat.not_le.mpr hmax)]
  have hclaim : q.access true (.pushClaim val (pos w k)) =
      (q.claim val, .pushData val (pos w k) q.claimed.length) := by
    rw [Queue.access, if_pos ⟨rfl, hflag⟩]
  simp only [accesses, List.replicate, List.cons_append, List.nil_append]
  rw [run_push, run_access, Queue.access, hflag, run_access, hroom, run_access,
    hclaim, run_access, Queue.access, run_access, Queue.access]
  · rfl
  all_goals simp

/-- A push commits the slot that `head_` is on, when it says that it is written. -/
theorem run_commit {i : BitVec w} {n : Nat} (hhead : q.head = i) (hflag : (q.block i).flag = wide i)
    (ops : List (Op τ α)) :
    run step (s.goOn t q (.pushSlot i n)) (accesses t 4 ++ ops) =
      run step (s.goOn t (q.passed i invalidIndex) (.pushSlot (i + 1) n)) ops := by
  have hfirst : q.access true (.pushHead i (q.block i).flag n) = (q, .pushCommit i n) := by
    rw [Queue.access, if_neg (not_not.mpr hhead.symm), if_neg (not_not.mpr hflag)]
  have hcommit : q.access true (.pushCommit i n) =
      (q.setFlag i invalidIndex, .pushAdvance i n) := by
    rw [Queue.access, if_pos hflag]
  simp only [accesses, List.replicate, List.cons_append, List.nil_append]
  rw [run_access, Queue.access, run_access, hfirst, run_access, hcommit,
    run_access, Queue.access]
  · rfl
  all_goals simp

/-- It is over when the slot does not, or is not the one that `head_` is on. -/
theorem run_leave {i : BitVec w} {n : Nat} (h : q.head ≠ i ∨ (q.block i).flag ≠ wide i)
    (ops : List (Op τ α)) :
    run step (s.goOn t q (.pushSlot i n)) (accesses t 2 ++ ops) =
      run step (s.goOn t (q.accept n) .idle) ops := by
  have hleave : q.access true (.pushHead i (q.block i).flag n) = (q.accept n, .idle) := by
    rcases h with h | h
    · rw [Queue.access, if_pos h.symm]
    · by_cases hi : i ≠ q.head
      · rw [Queue.access, if_pos hi]
      · rw [Queue.access, if_neg hi, if_pos h]
  simp only [accesses, List.replicate, List.cons_append, List.nil_append]
  rw [run_access, Queue.access, run_access, hleave]
  all_goals simp

/-- A pop takes what is in its slot when `head_` has passed it. -/
theorem run_take {i : BitVec w} (htail : q.tail = i) (hhead : q.head ≠ i) (ops : List (Op τ α)) :
    run step (s.goOn t q .popTail) (accesses t 4 ++ ops) =
      run step (s.goOn t (q.take (q.block i).data) .idle) ops := by
  have hpassed : q.access true (.popHead i) = (q, .popData i q.popped.length) := by
    rw [Queue.access, if_neg hhead.symm]
  have htake : q.access true (.popTake i (q.block i).data q.popped.length) =
      (q.take (q.block i).data, .idle) := by
    rw [Queue.access, if_pos ⟨rfl, htail⟩]
  simp only [accesses, List.replicate, List.cons_append, List.nil_append]
  rw [run_access, Queue.access, htail, run_access, hpassed,
    run_access, Queue.access, run_access, htake]
  all_goals simp

/-- A pop commits the slot that `head_` is on for a push. -/
theorem run_forestall {i : BitVec w} (htail : q.tail = i) (hhead : q.head = i)
    (hflag : (q.block i).flag = wide i) (ops : List (Op τ α)) :
    run step (s.goOn t q .idle) (.pop t :: accesses t 5 ++ ops) =
      run step (s.goOn t (q.passed i (wide (sizeLimit w))) .popTail) ops := by
  have hreached : q.access true (.popHead i) = (q, .popSlot i) := by
    rw [Queue.access, if_pos hhead.symm, hhead]
  have hwritten : q.access true (.popSlot i) = (q, .popCommit i) := by
    rw [Queue.access, if_neg (not_not.mpr hflag)]
  have hcommit : q.access true (.popCommit i) =
      (q.setFlag i (wide (sizeLimit w)), .popAdvance i) := by
    rw [Queue.access, if_pos ⟨rfl, hflag⟩]
  simp only [accesses, List.replicate, List.cons_append, List.nil_append]
  rw [run_pop, run_access, Queue.access, htail, run_access, hreached, run_access, hwritten,
    run_access, hcommit, run_access, Queue.access]
  · rfl
  all_goals simp

/-! ## Rounds -/

/-- A push and a pop that nobody disturbs. -/
def round (t : τ) (val : α) : List (Op τ α) :=
  .push t val :: accesses t 11 ++ .pop t :: accesses t 4

theorem run_round {maxSize k : Nat} (hw : 1 < 2 ^ w) (hmax : 1 < maxSize) (hq : q.Level maxSize k)
    (hnext : (q.block (pos w (k + 1))).flag ≠ wide (pos w (k + 1))) (val : α)
    (ops : List (Op τ α)) :
    ∃ q', run step (s.goOn t q .idle) (round t val ++ ops) = run step (s.goOn t q' .idle) ops ∧
      q'.Level maxSize (k + 1) ∧ (∀ j, j ≠ pos w k → q'.block j = q.block j) ∧
        (q'.block (pos w k)).flag = invalidIndex ∧ q.popped <+: q'.popped := by
  have hsucc : pos w k + 1 = pos w (k + 1) := pos_succ k
  have hne : pos w (k + 1) ≠ pos w k := pos_succ_ne hw k
  have hsplit : round t val ++ ops = .push t val :: accesses t 5 ++ (accesses t 4 ++
      (accesses t 2 ++ .pop t :: (accesses t 4 ++ ops))) := rfl
  let n := q.claimed.length
  let stored := q.stored (pos w k) val n
  let passed := stored.passed (pos w k) invalidIndex
  have hleave : passed.head ≠ pos w k + 1 ∨
      (passed.block (pos w k + 1)).flag ≠ wide (pos w k + 1) := by
    right
    rw [hsucc, Queue.block_passed_of_ne hne, Queue.block_stored_of_ne hne]
    exact hnext
  have hhead : (passed.accept n).head ≠ pos w k := hsucc.trans_ne hne
  refine ⟨(passed.accept n).take ((passed.accept n).block (pos w k)).data, ?_,
    ⟨?_, hsucc, ?_, hq.maxSize⟩, fun j hj => ?_, ?_, ?_⟩
  · rw [hsplit, run_store hw hq.tail hq.flag (hq.maxSize ▸ hmax),
      run_commit (q := stored) hq.head (congrArg Rnode.flag (Queue.block_stored _ _ _ _)),
      run_leave hleave, run_pop, run_take (q := passed.accept n) hq.tail hhead]
  · exact (congrArg (· + 1) hq.tail).trans hsucc
  · exact (congrArg (· + 1) hq.flag).trans hsucc
  · exact (Queue.block_passed_of_ne hj _ _).trans (Queue.block_stored_of_ne hj _ _ _)
  · exact congrArg Rnode.flag (Queue.block_passed _ _ _)
  · rw [Queue.popped_take]
    exact List.prefix_append _ _

/-- `n` rounds of one thread, less than it takes to come round. -/
theorem run_rounds {maxSize k n : Nat} (hw : w < 64) (hround : 1 < 2 ^ w) (hmax : 1 < maxSize) (hn : n < 2 ^ w)
    (hq : q.Level maxSize k)
    (hnext : ∀ j, k < j → j ≤ k + n → (q.block (pos w j)).flag ≠ wide (pos w j)) (val : α)
    (ops : List (Op τ α)) :
    ∃ q', run step (s.goOn t q .idle) ((List.replicate n (round t val)).flatten ++ ops) =
        run step (s.goOn t q' .idle) ops ∧
      q'.Level maxSize (k + n) ∧
        (∀ i, (∀ j, k ≤ j → j < k + n → i ≠ pos w j) → q'.block i = q.block i) ∧
          (∀ i, (q.block i).flag ≠ wide i → (q'.block i).flag ≠ wide i) ∧
            q.popped <+: q'.popped := by
  induction n generalizing q k with
  | zero => exact ⟨q, rfl, hq, fun _ _ => rfl, fun _ => id, List.prefix_rfl⟩
  | succ n ih =>
    rw [List.replicate_succ, List.flatten_cons, List.append_assoc]
    obtain ⟨q₁, hrun₁, hq₁, hsame₁, hflag₁, hpopped₁⟩ :=
      run_round (s := s) (t := t) hround hmax hq (hnext _ (by omega) (by omega)) val
        ((List.replicate n (round t val)).flatten ++ ops)
    have hnext₁ : ∀ j, k + 1 < j → j ≤ k + 1 + n → (q₁.block (pos w j)).flag ≠ wide (pos w j) := by
      intro j hj hj'
      rw [hsame₁ _ (pos_ne (t := k) (by omega) (by omega) le_rfl (by omega) (by omega))]
      exact hnext j (by omega) (by omega)
    obtain ⟨q₂, hrun₂, hq₂, hsame₂, hflag₂, hpopped₂⟩ := ih (by omega) hq₁ hnext₁
    rw [Nat.add_assoc, Nat.add_comm 1] at hq₂
    refine ⟨q₂, hrun₁.trans hrun₂, hq₂, fun i hi => ?_, fun i hi => hflag₂ i ?_,
      hpopped₁.trans hpopped₂⟩
    · rw [hsame₂ i fun j hj hj' => hi j (by omega) (by omega), hsame₁ i (hi k le_rfl (by omega))]
    · by_cases hik : i = pos w k
      · rw [hik, hflag₁]
        exact invalidIndex_ne_wide hw _
      · rwa [hsame₁ i hik]

/-- The other thread has been back where it was. -/
theorem goOn_back {u : τ} {p p' : Pc α w} {q' : Queue α w} (hu : u ≠ t) (h : s.pc u = p') :
    (s.goOn t q p).goOn u q' p' = s.goOn t q' p := by
  simp only [goOn, System.mk.injEq, true_and]
  rw [Function.update_comm hu.symm, ← h, Function.update_eq_self]

/-- One thread writes the last slot of the block, another one commits it and takes its
value. -/
def lap (t u : τ) (val : α) : List (Op τ α) :=
  .push t val :: accesses t 5 ++ (.pop u :: accesses u 5 ++ (accesses u 4 ++ accesses t 2))

theorem run_lap {u : τ} (hu : u ≠ t) (hs : s.pc u = .idle) {maxSize k : Nat} (hw : 1 < 2 ^ w)
    (hmax : 1 < maxSize) (hq : q.Level maxSize k) (hk : pos w k = sizeLimit w) (val : α)
    (ops : List (Op τ α)) :
    ∃ (q' : Queue α w) (e : Option (Entry α)),
      run step (s.goOn t q .idle) (lap t u val ++ ops) = run step (s.goOn t q' .idle) ops ∧
        q'.Level maxSize (k + 1) ∧ (∀ i, i ≠ pos w k → q'.block i = q.block i) ∧
          q'.block (pos w k) = { data := e, flag := wide (pos w k) } ∧ e ∈ q'.popped := by
  have hsucc : pos w k + 1 = pos w (k + 1) := pos_succ k
  have hne : pos w (k + 1) ≠ pos w k := pos_succ_ne hw k
  have hsplit : lap t u val ++ ops = .push t val :: accesses t 5 ++ (.pop u :: accesses u 5 ++
      (accesses u 4 ++ (accesses t 2 ++ ops))) := by
    simp [lap]
  let n := q.claimed.length
  let stored := q.stored (pos w k) val n
  let passed := stored.passed (pos w k) (wide (sizeLimit w))
  let e : Option (Entry α) := some (val, n)
  have hblock : passed.block (pos w k) = { data := e, flag := wide (pos w k) } := by
    simp [passed, stored, e, hk]
  have hhead : passed.head ≠ pos w k := hsucc.trans_ne hne
  have htake := run_take (s := s.goOn t stored (.pushSlot (pos w k) n)) (t := u) (q := passed)
    hq.tail hhead (accesses t 2 ++ ops)
  rw [hblock] at htake
  refine ⟨(passed.take e).accept n, e, ?_, ⟨?_, hsucc, ?_, hq.maxSize⟩, fun i hi => ?_, hblock, ?_⟩
  · have hflag := congrArg Rnode.flag (Queue.block_stored (pos w k) val n q)
    rw [hsplit, run_store hw hq.tail hq.flag (hq.maxSize ▸ hmax), ← goOn_back (q := stored) hu hs,
      run_forestall (q := stored) hq.tail hq.head hflag, htake, goOn_back hu hs,
      run_leave (q := passed.take e) (Or.inl hhead)]
  · exact (congrArg (· + 1) hq.tail).trans hsucc
  · exact (congrArg (· + 1) hq.flag).trans hsucc
  · exact (Queue.block_passed_of_ne hi _ _).trans (Queue.block_stored_of_ne hi _ _ _)
  · simp

/-- A round in which the push goes on to commit the next slot, which it has not written,
and another pop takes what is in it. -/
def overrun (t : τ) (val : α) : List (Op τ α) :=
  .push t val :: accesses t 5 ++ (accesses t 4 ++ (accesses t 4 ++ (accesses t 2 ++
    (.pop t :: accesses t 4 ++ .pop t :: accesses t 4))))

theorem run_overrun {maxSize k : Nat} (hw : 2 < 2 ^ w) (hmax : 1 < maxSize) (hq : q.Level maxSize k)
    {e : Option (Entry α)}
    (hnext : q.block (pos w (k + 1)) = { data := e, flag := wide (pos w (k + 1)) })
    (hafter : (q.block (pos w (k + 2))).flag ≠ wide (pos w (k + 2))) (val : α) :
    ∃ (q' : Queue α w) (e' : Option (Entry α)),
      run step (s.goOn t q .idle) (overrun t val) = .ok (s.goOn t q' .idle) ∧
        q'.popped = q.popped ++ [e', e] := by
  have hsucc : pos w k + 1 = pos w (k + 1) := pos_succ k
  have hw' : 1 < 2 ^ w := by omega
  have hsucc' : pos w (k + 1) + 1 = pos w (k + 2) := pos_succ (k + 1)
  have hne : pos w (k + 1) ≠ pos w k := pos_succ_ne hw' k
  have hne' : pos w (k + 2) ≠ pos w k :=
    pos_ne (t := k) (by omega) (by omega) le_rfl (by omega) (by omega)
  have hne'' : pos w (k + 2) ≠ pos w (k + 1) := pos_succ_ne hw' (k + 1)
  let n := q.claimed.length
  let stored := q.stored (pos w k) val n
  let passed := stored.passed (pos w k) invalidIndex
  let both := passed.passed (pos w (k + 1)) invalidIndex
  have hpassed : passed.block (pos w (k + 1)) = { data := e, flag := wide (pos w (k + 1)) } := by
    rw [Queue.block_passed_of_ne hne, Queue.block_stored_of_ne hne, hnext]
  have hboth : (both.block (pos w (k + 2))).flag ≠ wide (pos w (k + 2)) := by
    rw [Queue.block_passed_of_ne hne'', Queue.block_passed_of_ne hne',
      Queue.block_stored_of_ne hne']
    exact hafter
  have hhead : both.head = pos w (k + 2) := hsucc'
  let taken := (both.accept n).take ((both.accept n).block (pos w k)).data
  have htail : taken.tail = pos w (k + 1) := (congrArg (· + 1) hq.tail).trans hsucc
  have hlast : (both.block (pos w (k + 1))).data = e := by
    rw [Queue.block_passed, hpassed]
  refine ⟨taken.take (taken.block (pos w (k + 1))).data, (both.block (pos w k)).data, ?_, ?_⟩
  · rw [overrun, run_store hw' hq.tail hq.flag (hq.maxSize ▸ hmax),
      run_commit (q := stored) hq.head (congrArg Rnode.flag (Queue.block_stored _ _ _ _)), hsucc,
      run_commit (q := passed) hsucc (congrArg Rnode.flag hpassed), hsucc',
      run_leave (q := both) (Or.inr hboth), List.cons_append, run_pop,
      run_take (q := both.accept n) hq.tail (hhead.trans_ne hne'), run_pop,
      ← List.append_nil (accesses t 4), run_take (q := taken) htail (hhead.trans_ne hne'')]
    rfl
  · have hdata : (taken.block (pos w (k + 1))).data = e := hlast
    rw [hdata, Queue.popped_take, Queue.popped_take, List.append_assoc]
    rfl

theorem new_goOn (maxSize : Nat) (t : τ) :
    System.new τ α w maxSize = (System.new τ α w maxSize).goOn t { maxSize := maxSize } .idle := by
  simp only [goOn, System.new, System.mk.injEq, true_and]
  exact (Function.update_eq_self t _).symm

/-- Twice round the ring: the second time, nobody writes the last slot. -/
def lapped (w : Nat) (t u : τ) (val val' : α) : List (Op τ α) :=
  (List.replicate (2 ^ w - 1) (round t val)).flatten ++ (lap t u val' ++
    ((List.replicate (2 ^ w - 2) (round t val)).flatten ++ overrun t val))

theorem lapped_not_genuine {u : τ} (hu : u ≠ t) {maxSize : Nat} (hw : w < 64) (hround : 2 < 2 ^ w)
    (hmax : 1 < maxSize) (val val' : α) :
    ¬ Always step (fun s => s.queue.Genuine) (.new τ α w maxSize) (lapped w t u val val') := by
  intro h
  have hone : 1 < 2 ^ w := by omega
  have hlimit : pos w (2 ^ w - 1) = sizeLimit w := by
    apply BitVec.eq_of_toNat_eq
    rw [pos_toNat_of_lt (by omega), sizeLimit, BitVec.toNat_allOnes]
  let s := System.new τ α w maxSize
  have hstart : s.queue.Level maxSize 0 := ⟨rfl, rfl, rfl, rfl⟩
  have hinvalid : ∀ i, (s.queue.block i).flag ≠ wide i := fun i => invalidIndex_ne_wide hw i
  obtain ⟨q₁, hrun₁, hq₁, -, hflag₁, -⟩ := run_rounds (s := s) (t := t) (n := 2 ^ w - 1) hw hone hmax
    (by omega) hstart (fun j _ _ => hinvalid _) val
    (lap t u val' ++ ((List.replicate (2 ^ w - 2) (round t val)).flatten ++ overrun t val))
  rw [Nat.zero_add] at hq₁
  obtain ⟨q₂, e, hrun₂, hq₂, hsame₂, hblock₂, he⟩ := run_lap (s := s) (t := t) hu rfl hone hmax
    hq₁ hlimit val' ((List.replicate (2 ^ w - 2) (round t val)).flatten ++ overrun t val)
  rw [Nat.sub_add_cancel (by omega)] at hq₂
  have hinvalid₂ : ∀ i, i ≠ pos w (2 ^ w - 1) → (q₂.block i).flag ≠ wide i := by
    intro i hi
    rw [hsame₂ i hi]
    exact hflag₁ i (hinvalid i)
  -- The second time round, every slot but the last one is written before it is committed.
  have hother : ∀ j, 2 ^ w ≤ j → j < 2 ^ w + (2 ^ w - 1) → pos w j ≠ pos w (2 ^ w - 1) := by
    intro j hj hj'
    exact pos_ne (t := 2 ^ w - 1) (by omega) (by omega) le_rfl (by omega) (by omega)
  obtain ⟨q₃, hrun₃, hq₃, hsame₃, hflag₃, hpopped₃⟩ := run_rounds (s := s) (t := t)
    (n := 2 ^ w - 2) hw hone hmax (by omega) hq₂
    (fun j hj hj' => hinvalid₂ _ (hother j (by omega) (by omega))) val (overrun t val)
  have hlast : pos w (2 ^ w + (2 ^ w - 2) + 1) = pos w (2 ^ w - 1) := by
    rw [show 2 ^ w + (2 ^ w - 2) + 1 = 2 ^ w - 1 + 2 ^ w by omega, pos_add_round]
  have hnext : q₃.block (pos w (2 ^ w - 1)) = { data := e, flag := wide (pos w (2 ^ w - 1)) } := by
    rw [hsame₃ _ fun j hj hj' => (hother j hj (by omega)).symm, hblock₂]
  have hafter : pos w (2 ^ w + (2 ^ w - 2) + 2) ≠ pos w (2 ^ w - 1) := by
    rw [show 2 ^ w + (2 ^ w - 2) + 2 = 2 ^ w + 2 ^ w by omega, pos_add_round]
    exact hother (2 ^ w) le_rfl (by omega)
  obtain ⟨q₄, e', hrun₄, hpopped₄⟩ := run_overrun (s := s) (t := t) hround hmax hq₃
    (hlast ▸ hnext) (hflag₃ _ (hinvalid₂ _ hafter)) val
  have hrun : run step (System.new τ α w maxSize) (lapped w t u val val') =
      .ok (s.goOn t q₄ .idle) := by
    rw [new_goOn _ t]
    exact hrun₁.trans (hrun₂.trans (hrun₃.trans hrun₄))
  have hnodup : q₄.popped.Nodup := (always_iff_run.mp h _ List.prefix_rfl _ hrun).1
  rw [hpopped₄, List.nodup_append] at hnodup
  exact hnodup.2.2 e (hpopped₃.subset he) e (by simp) rfl

end System

end Mpmc

/-- **No element is duplicated or invented** along a run whose compare-exchanges are
fresh, for any number of threads and through any number of rounds. -/
theorem mpmc_genuine_of_meets {τ α : Type} [DecidableEq τ] {w : Nat} (hw : w < 64) (maxSize : Nat)
    {ops : List (Mpmc.Op τ α)}
    (h : Meets Mpmc.System.step Mpmc.System.Fresh (.new τ α w maxSize) ops) :
    Always Mpmc.System.step (fun s => s.queue.Genuine) (.new τ α w maxSize) ops :=
  always_of_meets (A := fun _ => True) (fun _ _ _ _ hs hc => Mpmc.System.step_inv hw hs hc)
    (fun _ hs => hs.wf.genuine) (fun _ _ => trivial) (Mpmc.System.new_inv w maxSize hw) h

open Mpmc (accesses)

/-- Two threads take turns, before the last slot of the block. -/
theorem mpmc_genuine_in_turn : Always Mpmc.System.step (fun s => s.queue.Genuine)
    (.new Bool Nat 8 255) ([.push true 10] ++ accesses true 11 ++ [.push false 11] ++
      accesses false 11 ++ [.pop true] ++ accesses true 4 ++ [.pop false] ++ accesses false 4) :=
  mpmc_genuine_of_meets (by decide) 255 (by decide)

/-- The last slot of the block keeps its index as its flag when a pop commits it. In
the next round it is committed without having been written. -/
theorem mpmc_value_popped_twice : ¬ Always Mpmc.System.step (fun s => s.queue.Genuine)
    (.new Bool Nat 8 255) (Mpmc.System.lapped 8 true false 10 11) :=
  Mpmc.System.lapped_not_genuine (by decide) (by decide) (by decide) (by decide) 10 11

end Footstone
