import Footstone.Lib.LockFree
import Footstone.MpmcHandshake

/-!
`mpmc_queue` is lock-free, as `mpmc_queue.h` says of it: whatever the threads do, and whichever of
them stop, the others bring their calls to an end.
-/

namespace Footstone

open Runs

namespace Mpmc

variable {α : Type} {w : Nat}

/-! ## How far a call has come -/

namespace Pc

/-- The events that are still to come of this call, other than the commit of a slot that it has
written. A push claims a slot and writes it, and somebody commits it and stores `head_`. -/
def owes : Pc α w → Nat
  | .pushFlag _ | .pushTail .. | .pushClaim .. => 4
  | .pushData .. | .pushStore .. => 1
  | .popTail | .popHead _ | .popSlot _ | .popCommit _ | .popAdvance _ | .popData .. | .popTake .. => 1
  | _ => 0

/-- The thread has committed a slot and is to store `head_`. -/
def passes : Pc α w → Nat
  | .pushAdvance .. | .popAdvance _ => 1
  | _ => 0

theorem passes_of_not {p : Pc α w} (h : ¬ p.Advances) : p.passes = 0 := by
  cases p with
  | pushAdvance | popAdvance => exact absurd trivial h
  | _ => rfl

theorem passes_le (p : Pc α w) : p.passes ≤ 1 := by
  cases p <;> simp [passes]

end Pc

namespace Queue

/-- The accesses a thread has to its next event or to the end of its call, when the others do
nothing. A compare-exchange that is bound to fail costs another turn of the loop. -/
def ahead (q : Queue α w) : Pc α w → Nat
  | .idle => 0
  | .pushFlag _ => 3
  | .pushTail _ curFlag => if q.flag = curFlag then 2 else 4
  | .pushClaim _ curFlag => if q.flag = curFlag then 1 else 3
  | .pushData .. => 2
  | .pushStore .. => 1
  | .pushSlot .. => 3
  | .pushHead .. => 2
  | .pushCommit .. => 1
  | .pushAdvance .. => 1
  | .popTail => 4
  | .popHead curTail => if q.tail = curTail then 3 else 6
  | .popSlot _ => 2
  | .popCommit curHead => if (q.block curHead).flag = wide curHead then 1 else 5
  | .popAdvance _ => 1
  | .popData curTail _ => if q.tail = curTail then 2 else 5
  | .popTake curTail _ _ => if q.tail = curTail then 1 else 4

theorem ahead_le (q : Queue α w) (p : Pc α w) : q.ahead p ≤ 6 := by
  cases p <;> simp only [ahead] <;> first | omega | split <;> omega

/-- The compare-exchange that comes next, one of those that may fail for no reason, finds what it
expects. -/
def Expected (q : Queue α w) : Pc α w → Prop
  | .pushClaim _ curFlag => q.flag = curFlag
  | .popCommit curHead => (q.block curHead).flag = wide curHead
  | .popTake curTail _ _ => q.tail = curTail
  | _ => False

instance (q : Queue α w) : DecidablePred q.Expected
  | .pushClaim .. | .popCommit _ | .popTake .. => inferInstanceAs (Decidable (_ = _))
  | .idle | .pushFlag _ | .pushTail .. | .pushData .. | .pushStore .. | .pushSlot .. | .pushHead ..
  | .pushCommit .. | .pushAdvance .. | .popTail | .popHead _ | .popSlot _ | .popAdvance _
  | .popData .. => isFalse id

/-- An access that fails for no reason. -/
def spurious (q : Queue α w) (ok : Bool) (p : Pc α w) : Bool := !ok && decide (q.Expected p)

/-! ## What an access is good for -/

/-- The others have not seen the access. -/
structure Unseen (q q' : Queue α w) : Prop where
  flag : q'.flag = q.flag
  tail : q'.tail = q.tail
  slot : ∀ i, (q'.block i).flag = (q.block i).flag
  claimed : q'.claimed.length = q.claimed.length
  committed : q'.committed = q.committed

theorem Unseen.refl (q : Queue α w) : Unseen q q := ⟨rfl, rfl, fun _ => rfl, rfl, rfl⟩

theorem Unseen.ahead {q q' : Queue α w} (h : Unseen q q') (p : Pc α w) : q'.ahead p = q.ahead p := by
  cases p <;> simp only [Queue.ahead, h.flag, h.tail, h.slot]

/-- What an access does. An event makes what is owed for less by one: a slot that is claimed
stands for two events more until `head_` has passed it. -/
inductive Effect (q q' : Queue α w) (p p' : Pc α w) (failed : Bool) : Prop
  | event (h : p'.owes + 2 * q'.claimed.length + 2 * q.committed + p.passes + 1 =
      p.owes + 2 * q.claimed.length + 2 * q'.committed + p'.passes)
  | quiet (unseen : Unseen q q') (owes : p'.owes ≤ p.owes) (passes : p'.passes = p.passes)
      (ahead : q.ahead p' + 1 ≤ q.ahead p + if failed then 4 else 0)

theorem Effect.look {q : Queue α w} {p p' : Pc α w} {failed : Bool} (howes : p'.owes ≤ p.owes)
    (hahead : q.ahead p' < q.ahead p) (hpasses : p'.passes = p.passes := by rfl) :
    Effect q q p p' failed :=
  .quiet (.refl q) howes hpasses (Nat.le_add_right_of_le hahead)

theorem Effect.leave {q q' : Queue α w} {p : Pc α w} {failed : Bool} (h : Unseen q q')
    (hpos : 0 < q.ahead p) (hpasses : p.passes = 0 := by rfl) : Effect q q' p .idle failed :=
  .quiet h (Nat.zero_le _) hpasses.symm (Nat.le_add_right_of_le hpos)

/-- A compare-exchange that fails, which costs a turn of the loop unless that was certain. -/
theorem Effect.retry {ok : Bool} {q : Queue α w} {p p' : Pc α w} (h : ¬ (ok = true ∧ q.Expected p))
    (howes : p'.owes ≤ p.owes) (hpasses : p'.passes = p.passes) (hle : q.ahead p' < q.ahead p + 4)
    (hlt : ¬ q.Expected p → q.ahead p' < q.ahead p) : Effect q q p p' (q.spurious ok p) := by
  refine .quiet (.refl q) howes hpasses ?_
  by_cases hexp : q.Expected p
  · have hok : ok = false := by simpa [hexp] using h
    simp only [spurious, hok, hexp]
    exact hle
  · exact Nat.le_add_right_of_le (hlt hexp)

/-- **What one access is good for**: its thread comes nearer to the end of the call, or an event
happens. -/
theorem access_effect (ok : Bool) (q : Queue α w) {p : Pc α w} (hp : p ≠ .idle) :
    Effect q (q.access ok p).1 p (q.access ok p).2 (q.spurious ok p) := by
  cases p with
  | idle => exact absurd rfl hp
  | pushFlag val => exact .look le_rfl (by simp [access, ahead])
  | pushTail val curFlag =>
    have hpos : 0 < q.ahead (.pushTail val curFlag) := by
      simp only [ahead]
      split <;> omega
    simp only [access]
    split
    · exact .leave (.refl q) hpos
    · split
      · exact .leave (.refl q) hpos
      · refine .look le_rfl ?_
        simp only [ahead]
        split <;> omega
  | pushClaim val curFlag =>
    simp only [access]
    split
    · refine .event ?_
      simp only [Pc.owes, Pc.passes, length_claim]
      simp only [claim]
      omega
    · rename_i h
      refine .retry h le_rfl rfl (by simp [ahead]) fun hne => ?_
      simp [ahead, show q.flag ≠ curFlag from hne]
  | pushData val curFlag own =>
    exact .quiet ⟨rfl, rfl, fun i => flag_setData _ i _ q, rfl, rfl⟩ (Nat.le_refl 1) rfl (Nat.le_add_right 2 _)
  | pushStore curFlag own => exact .event (by simp [access, Pc.owes, Pc.passes, setFlag]; omega)
  | pushSlot curFlag own => exact .look le_rfl (by simp [access, ahead])
  | pushHead curFlag cacFlag own =>
    simp only [access]
    split
    · exact .leave ⟨rfl, rfl, fun _ => rfl, rfl, rfl⟩ (Nat.zero_lt_succ _)
    · split
      · exact .leave ⟨rfl, rfl, fun _ => rfl, rfl, rfl⟩ (Nat.zero_lt_succ _)
      · exact .look le_rfl (by simp [ahead])
  | pushCommit curFlag own =>
    simp only [access]
    split
    · exact .event (by simp [Pc.owes, Pc.passes, setFlag])
    · exact .leave ⟨rfl, rfl, fun _ => rfl, rfl, rfl⟩ (Nat.zero_lt_succ _)
  | pushAdvance curFlag own => exact .event (by simp [access, Pc.owes, Pc.passes, advance]; omega)
  | popTail => exact .look le_rfl (by simp [access, ahead])
  | popHead curTail =>
    simp only [access]
    split
    · refine .look le_rfl ?_
      simp only [ahead]
      split <;> omega
    · refine .look le_rfl ?_
      simp only [ahead]
      split <;> omega
  | popSlot curHead =>
    simp only [access]
    split
    · exact .leave ⟨rfl, rfl, fun _ => rfl, rfl, rfl⟩ (Nat.zero_lt_succ _)
    · rename_i h
      exact .look le_rfl (by simp [ahead, not_not.mp h])
  | popCommit curHead =>
    simp only [access]
    split
    · exact .event (by simp [Pc.owes, Pc.passes, setFlag])
    · rename_i h
      refine .retry h le_rfl rfl (by simp only [ahead]; split <;> omega) fun hne => ?_
      simp [ahead, show (q.block curHead).flag ≠ wide curHead from hne]
  | popAdvance curHead => exact .event (by simp [access, Pc.owes, Pc.passes, advance]; omega)
  | popData curTail seen =>
    refine .look le_rfl ?_
    simp only [access, ahead]
    split <;> omega
  | popTake curTail val seen =>
    simp only [access]
    split
    · exact .event (by simp only [Pc.owes, Pc.passes, take]; omega)
    · rename_i h
      have hnew : q.ahead (.popHead q.tail : Pc α w) = 3 := if_pos rfl
      refine .retry h le_rfl rfl (hnew.trans_lt (by omega)) fun hne => hnew.trans_lt ?_
      simp [ahead, show q.tail ≠ curTail from hne]

end Queue

/-! ## In every run -/

def Op.isPush {τ : Type} : Op τ α → Bool
  | .push .. => true
  | _ => false

def Op.isAccess {τ : Type} : Op τ α → Bool
  | .access .. => true
  | _ => false

namespace System

variable {τ : Type}

/-- The step is a compare-exchange that fails for no reason. -/
def spurious (s : System τ α w) : Op τ α → Bool
  | .access t ok => s.queue.spurious ok (s.pc t)
  | _ => false

/-- What a call pays for, and how far its own accesses go. -/
def lockFree (τ α : Type) (w : Nat) : LockFree (System τ α w) τ (Op τ α) where
  ahead s t := s.queue.ahead (s.pc t)
  most := 6
  events
    | .push .. => 4
    | .pop _ => 1
    | .access .. => 0
  more s
    | .push .. => 3
    | .pop _ => 4
    | .access t ok => if s.queue.spurious ok (s.pc t) then 4 else 0

section

variable [Fintype τ] {s s' : System τ α w}

/-- The events that are paid for: what the calls owe, and for every slot that `head_` has not passed
its commit and the store of `head_`. -/
def Paid (s : System τ α w) (c : Nat) : Prop :=
  c + 2 * s.queue.committed + ∑ t, (s.pc t).passes =
    ∑ t, (s.pc t).owes + 2 * s.queue.claimed.length

/-- Only one thread at a time has committed a slot and not stored `head_`. -/
theorem Inv.passes_le (hs : s.Inv) :
    s.queue.committed + ∑ t, (s.pc t).passes ≤ s.queue.claimed.length := by
  by_cases hadv : ∃ t, (s.pc t).Advances
  · obtain ⟨t, ht⟩ := hadv
    have hlt := ((hs.fits t).opened ht).lt
    have hsum : ∑ u, (s.pc u).passes = (s.pc t).passes :=
      Finset.sum_eq_single t (fun u _ hu => Pc.passes_of_not fun h => hu (hs.handed.inj u t h ht))
        fun h => absurd (Finset.mem_univ t) h
    have hone := (s.pc t).passes_le
    omega
  · have hsum : ∑ u, (s.pc u).passes = 0 :=
      Finset.sum_eq_zero fun u _ => Pc.passes_of_not fun h => hadv ⟨u, h⟩
    have hle := hs.wf.head_le
    omega

theorem Inv.paid (hs : s.Inv) : ∃ c, s.Paid c := by
  have hle := hs.passes_le
  refine ⟨∑ t, (s.pc t).owes + 2 * s.queue.claimed.length -
    (2 * s.queue.committed + ∑ t, (s.pc t).passes), ?_⟩
  rw [Paid]
  omega

variable [DecidableEq τ]

theorem goOn_owes (t : τ) (q : Queue α w) (p : Pc α w) :
    ∑ u, ((s.goOn t q p).pc u).owes + (s.pc t).owes = ∑ u, (s.pc u).owes + p.owes :=
  Variant.sum_update Pc.owes s.pc t p

theorem goOn_passes (t : τ) (q : Queue α w) (p : Pc α w) :
    ∑ u, ((s.goOn t q p).pc u).passes + (s.pc t).passes = ∑ u, (s.pc u).passes + p.passes :=
  Variant.sum_update Pc.passes s.pc t p

omit [Fintype τ] in
theorem goOn_quiet {op : Op τ α} {t : τ} {q : Queue α w} {p : Pc α w}
    (hunseen : Queue.Unseen s.queue q) (hown : s.queue.ahead p + (if op.isAccess then 1 else 0) ≤
      s.queue.ahead (s.pc t) + (lockFree τ α w).more s op) :
    (lockFree τ α w).Quiet Op.isAccess s (s.goOn t q p) op t where
  others u hu := by
    show q.ahead (Function.update s.pc t p u) = s.queue.ahead (s.pc u)
    rw [Function.update_of_ne hu, hunseen.ahead]
  own := by
    show q.ahead (Function.update s.pc t p t) + _ ≤ _
    rw [Function.update_self, hunseen.ahead]
    exact hown

/-- What a step of one thread does to what is paid for. -/
theorem Paid.goOn {c : Nat} (hpaid : s.Paid c) {t : τ} {q : Queue α w} {p : Pc α w}
    (hinv : (s.goOn t q p).Inv) (less more : Nat)
    (h : p.owes + 2 * q.claimed.length + 2 * s.queue.committed + (s.pc t).passes + less ≤
      (s.pc t).owes + 2 * s.queue.claimed.length + 2 * q.committed + p.passes + more) :
    ∃ c', (s.goOn t q p).Paid c' ∧ c' + less ≤ c + more := by
  obtain ⟨c', hpaid'⟩ := hinv.paid
  refine ⟨c', hpaid', ?_⟩
  have howes := s.goOn_owes t q p
  have hpasses := s.goOn_passes t q p
  rw [Paid] at hpaid hpaid'
  change c' + 2 * q.committed + _ = _ + 2 * q.claimed.length at hpaid'
  omega

theorem kept (hw : w < 64) : (lockFree τ α w).Kept step Fresh Op.isAccess
    (fun s c => s.Inv ∧ s.Paid c) where
  ahead_le s t := s.queue.ahead_le (s.pc t)
  step {s op s' c} hs hc h := by
    obtain ⟨hinv, hpaid⟩ := hs
    have hinv' := step_inv hw hinv hc h
    cases op with
    | push t val =>
      obtain ⟨hpc, rfl⟩ := step_push_eq_ok.mp h
      obtain ⟨c', hpaid', hle⟩ := hpaid.goOn hinv' 0 4
        (by simp [hpc, Pc.owes, Pc.passes]; omega)
      refine ⟨c', ⟨hinv', hpaid'⟩, Or.inr ⟨hle, t, goOn_quiet (.refl _) ?_⟩⟩
      rw [hpc]
      exact Nat.le_refl 3
    | pop t =>
      obtain ⟨hpc, rfl⟩ := step_pop_eq_ok.mp h
      obtain ⟨c', hpaid', hle⟩ := hpaid.goOn hinv' 0 1
        (by simp [hpc, Pc.owes, Pc.passes]; omega)
      refine ⟨c', ⟨hinv', hpaid'⟩, Or.inr ⟨hle, t, goOn_quiet (.refl _) ?_⟩⟩
      rw [hpc]
      exact Nat.le_refl 4
    | access t ok =>
      obtain ⟨hpc, rfl⟩ := step_access_eq_ok.mp h
      cases Queue.access_effect ok s.queue hpc with
      | event hevent =>
        obtain ⟨c', hpaid', hlt⟩ := hpaid.goOn hinv' 1 0 hevent.le
        exact ⟨c', ⟨hinv', hpaid'⟩, Or.inl hlt⟩
      | quiet hunseen howes hpasses hahead =>
        obtain ⟨c', hpaid', hle⟩ := hpaid.goOn hinv' 0 0 (by
          rw [hunseen.claimed, hunseen.committed, hpasses]
          omega)
        exact ⟨c', ⟨hinv', hpaid'⟩, Or.inr ⟨hle, t, goOn_quiet hunseen hahead⟩⟩

omit [DecidableEq τ] in
/-- What the calls pay. -/
theorem pay_le (s : System τ α w) (op : Op τ α) :
    (lockFree τ α w).price * (lockFree τ α w).events op + (lockFree τ α w).more s op ≤
      (if op.isPush then 24 * Fintype.card τ + 7 else 0) +
      (if op.isPop then 6 * Fintype.card τ + 5 else 0) + if s.spurious op then 4 else 0 := by
  have hprice : (lockFree τ α w).price = Fintype.card τ * 6 + 1 := rfl
  cases op with
  | push t val =>
    rw [hprice]
    simp [lockFree, Op.isPush, Op.isPop, spurious]
    omega
  | pop t =>
    rw [hprice]
    simp [lockFree, Op.isPush, Op.isPop, spurious]
    omega
  | access t ok =>
    show _ * 0 + (if s.queue.spurious ok (s.pc t) then 4 else 0) ≤
      0 + 0 + if s.queue.spurious ok (s.pc t) then 4 else 0
    simp only [Nat.mul_zero, Nat.zero_add, Nat.le_refl]

end

end System

/-- Two threads push, and the one whose compare-exchange comes too late goes round its loop. The
other one fails once for no reason. -/
def race : List (Op Bool Nat) :=
  [.push true 5, .push false 6, .access true true, .access true true, .access false true,
    .access false true, .access true false, .access true true] ++ accesses true 7 ++ accesses false 9

end Mpmc

end Footstone
