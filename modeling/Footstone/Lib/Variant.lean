import Footstone.Lib.Runs
import Mathlib.Algebra.BigOperators.Group.Finset.Basic
import Mathlib.Algebra.Order.BigOperators.Group.Finset
import Mathlib.Logic.Function.Basic

/-!
How often a run can take a step of a certain kind. A variant is a number that no step
raises and that those steps lower; what it is at first bounds their number. A variant of
several places is the sum of what each place weighs.
-/

namespace Runs

variable {σ α ε : Type*} (step : σ → α → Except ε σ)

/-- How many steps of the run that return are of kind `P`. -/
def count (P : σ → α → Bool) : σ → List α → Nat
  | _, [] => 0
  | s, a :: as =>
    match step s a with
    | .ok s' => (if P s a then 1 else 0) + count P s' as
    | .error _ => 0

variable {step}

theorem count_cons {P : σ → α → Bool} {s s' : σ} {a : α} (h : step s a = .ok s') (as : List α) :
    count step P s (a :: as) = (if P s a then 1 else 0) + count step P s' as := by
  simp [count, h]

/-- What goes up by `k` at most in a step of kind `P`, and in no other step. -/
theorem last_le_count {I : σ → Prop} {cond : σ → α → Prop} {P : σ → α → Bool} {f : σ → Int}
    {k : Int} (hI : ∀ s a s', I s → cond s a → step s a = .ok s' → I s')
    (hle : ∀ s a s', I s → cond s a → step s a = .ok s' → f s' ≤ f s + if P s a then k else 0)
    {s : σ} {as : List α} (hs : I s) (hc : Meets step cond s as) :
    f (last step s as) ≤ f s + k * count step P s as := by
  induction as generalizing s with
  | nil => simp [last, count]
  | cons a as ih =>
    cases ha : step s a with
    | error e => simp [last, count, ha]
    | ok s' =>
      rw [meets_cons ha] at hc
      have hrest := ih (hI s a s' hs hc.1 ha) hc.2
      have hfirst := hle s a s' hs hc.1 ha
      rw [count_cons ha]
      simp only [last, ha]
      cases hP : P s a with
      | false => simpa [hP] using hrest.trans (by simpa [hP] using hfirst)
      | true =>
        simp only [hP, if_true] at hfirst
        simp only [if_true, Int.natCast_add, Int.natCast_one, Int.mul_add, Int.mul_one]
        omega

/-- **A variant bounds the number of steps that lower it.** `I` is what is known of the
states that the run goes through, `A` singles out the steps it is made of. -/
theorem count_le_variant {A : α → Prop} {P : σ → α → Bool} {I : σ → Prop} {variant : σ → Nat}
    (hI : ∀ s a s', A a → I s → step s a = .ok s' → I s')
    (hle : ∀ s a s', A a → I s → step s a = .ok s' → variant s' ≤ variant s)
    (hlt : ∀ s a s', A a → I s → step s a = .ok s' → P s a = true → variant s' < variant s)
    {s : σ} {as : List α} (hA : ∀ a ∈ as, A a) (hs : I s) : count step P s as ≤ variant s := by
  induction as generalizing s with
  | nil => exact Nat.zero_le _
  | cons a as ih =>
    cases ha : step s a with
    | error e => simp [count, ha]
    | ok s' =>
      have hfirst := hA a List.mem_cons_self
      have hrest := ih (fun b hb => hA b (List.mem_cons_of_mem _ hb)) (hI s a s' hfirst hs ha)
      rw [count_cons ha]
      cases hP : P s a with
      | false =>
        have := hle s a s' hfirst hs ha
        simp only [Bool.false_eq_true, if_false]
        omega
      | true =>
        have := hlt s a s' hfirst hs ha hP
        simp only [if_true]
        omega

end Runs

namespace Variant

variable {ι β : Type*} [Fintype ι] [DecidableEq ι]

/-- One place changes what it weighs, the others do not. -/
theorem sum_update (weight : β → Nat) (f : ι → β) (i : ι) (b : β) :
    ∑ j, weight (Function.update f i b j) + weight (f i) = ∑ j, weight (f j) + weight b := by
  have hothers : ∑ j ∈ Finset.univ.erase i, weight (Function.update f i b j) =
      ∑ j ∈ Finset.univ.erase i, weight (f j) := by
    apply Finset.sum_congr rfl
    intro j hj
    rw [Function.update_of_ne (Finset.ne_of_mem_erase hj)]
  rw [← Finset.sum_erase_add _ _ (Finset.mem_univ i),
    ← Finset.sum_erase_add _ (fun j => weight (f j)) (Finset.mem_univ i), hothers,
    Function.update_self]
  omega

end Variant
