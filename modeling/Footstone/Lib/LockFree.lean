import Footstone.Lib.Variant

/-!
Threads that share some state and do not wait for each other. An access of a thread brings it
nearer to the end of its call and does not trouble the others, or it is an event, after which they
may all have to start again. Every event is paid for by some call. Then all the threads together
need so many accesses for each call that is made, in whatever order they go.
-/

namespace Runs

variable {σ α ε : Type*} (step : σ → α → Except ε σ)

/-- What the steps of the run that return cost together. -/
def total (cost : σ → α → Nat) : σ → List α → Nat
  | _, [] => 0
  | s, a :: as =>
    match step s a with
    | .ok s' => cost s a + total cost s' as
    | .error _ => 0

variable {step}

theorem total_cons {cost : σ → α → Nat} {s s' : σ} {a : α} (h : step s a = .ok s')
    (as : List α) : total step cost s (a :: as) = cost s a + total step cost s' as := by
  simp [total, h]

theorem total_le {cost cost' : σ → α → Nat} (hle : ∀ s a, cost s a ≤ cost' s a) (s : σ)
    (as : List α) : total step cost s as ≤ total step cost' s as := by
  induction as generalizing s with
  | nil => exact Nat.le_refl _
  | cons a as ih =>
    cases ha : step s a with
    | error e => simp [total, ha]
    | ok s' =>
      rw [total_cons ha, total_cons ha]
      exact Nat.add_le_add (hle s a) (ih s')

theorem total_add (cost cost' : σ → α → Nat) (s : σ) (as : List α) :
    total step (fun s a => cost s a + cost' s a) s as =
      total step cost s as + total step cost' s as := by
  induction as generalizing s with
  | nil => rfl
  | cons a as ih =>
    cases ha : step s a with
    | error e => simp [total, ha]
    | ok s' =>
      rw [total_cons ha, total_cons ha, total_cons ha, ih s']
      omega

/-- The same cost for all steps of a kind. -/
theorem total_ite (k : Nat) (P : σ → α → Bool) (s : σ) (as : List α) :
    total step (fun s a => if P s a then k else 0) s as = k * count step P s as := by
  induction as generalizing s with
  | nil => rfl
  | cons a as ih =>
    cases ha : step s a with
    | error e => simp [total, count, ha]
    | ok s' =>
      rw [total_cons ha, count_cons ha, ih s', Nat.mul_add]
      split <;> simp

/-- **Amortized costs.** What steps of a kind need beyond what all steps pay comes out of the
potential. `c` is a ghost that the invariant `I` knows. -/
theorem count_le_total {cond : σ → α → Prop} {P : σ → α → Bool} {pay : σ → α → Nat}
    {I : σ → Nat → Prop} {potential : σ → Nat → Nat}
    (hstep : ∀ s a s' c, I s c → cond s a → step s a = .ok s' →
      ∃ c', I s' c' ∧ potential s' c' + (if P s a then 1 else 0) ≤ potential s c + pay s a)
    {s : σ} {c : Nat} {as : List α} (hs : I s c) (hc : Meets step cond s as) :
    count step P s as ≤ potential s c + total step pay s as := by
  induction as generalizing s c with
  | nil => exact Nat.zero_le _
  | cons a as ih =>
    cases ha : step s a with
    | error e => simp [count, ha]
    | ok s' =>
      rw [meets_cons ha] at hc
      obtain ⟨c', hs', hpaid⟩ := hstep s a s' c hs hc.1 ha
      have hrest := ih hs' hc.2
      rw [count_cons ha, total_cons ha]
      omega

end Runs

open Runs

/-- `ahead` is how many accesses a thread has to its next event, or to the end of its call, when the
others do nothing. It is never more than `most`. A step may pay for `events` later events, and
its own thread may have `more` accesses to do after it. -/
structure LockFree (σ ι α : Type*) where
  ahead : σ → ι → Nat
  most : Nat
  events : α → Nat
  more : σ → α → Nat

namespace LockFree

variable {σ ι α ε : Type*} (m : LockFree σ ι α)

/-- A step that only its own thread notices. -/
structure Quiet (access : α → Bool) (s s' : σ) (a : α) (t : ι) : Prop where
  others : ∀ u, u ≠ t → m.ahead s' u = m.ahead s u
  own : m.ahead s' t + (if access a then 1 else 0) ≤ m.ahead s t + m.more s a

/-- What there is to show. `I s c` says that `c` more events are paid for. -/
structure Kept (step : σ → α → Except ε σ) (cond : σ → α → Prop) (access : α → Bool)
    (I : σ → Nat → Prop) : Prop where
  ahead_le : ∀ s t, m.ahead s t ≤ m.most
  step : ∀ {s a s' c}, I s c → cond s a → step s a = .ok s' → ∃ c', I s' c' ∧
    (c' < c ∨ c' ≤ c + m.events a ∧ ∃ t, m.Quiet access s s' a t)

variable [Fintype ι]

/-- What an event costs: all threads start again. -/
def price : Nat := Fintype.card ι * m.most + 1

def potential (s : σ) (c : Nat) : Nat := ∑ t, m.ahead s t + m.price * c

variable {m}

theorem sum_ahead_le (hle : ∀ s t, m.ahead s t ≤ m.most) (s : σ) :
    ∑ t, m.ahead s t ≤ Fintype.card ι * m.most := by
  have hsum : ∑ t, m.ahead s t ≤ ∑ _t : ι, m.most := Finset.sum_le_sum fun t _ => hle s t
  simpa using hsum

theorem potential_event (hle : ∀ s t, m.ahead s t ≤ m.most) {s s' : σ} {c c' : Nat} (hlt : c' < c) :
    m.potential s' c' + 1 ≤ m.potential s c := by
  have hmul : m.price * (c' + 1) ≤ m.price * c := Nat.mul_le_mul_left _ hlt
  have hsum := sum_ahead_le hle s'
  rw [Nat.mul_succ] at hmul
  rw [potential, potential]
  simp only [price] at hmul ⊢
  omega

variable [DecidableEq ι]

theorem Quiet.sum_ahead {access : α → Bool} {s s' : σ} {a : α} {t : ι} (h : m.Quiet access s s' a t) :
    ∑ u, m.ahead s' u + (if access a then 1 else 0) ≤ ∑ u, m.ahead s u + m.more s a := by
  have hothers : ∑ u ∈ Finset.univ.erase t, m.ahead s' u = ∑ u ∈ Finset.univ.erase t, m.ahead s u :=
    Finset.sum_congr rfl fun u hu => h.others u (Finset.ne_of_mem_erase hu)
  have hown := h.own
  rw [← Finset.sum_erase_add _ (fun u => m.ahead s' u) (Finset.mem_univ t),
    ← Finset.sum_erase_add _ (fun u => m.ahead s u) (Finset.mem_univ t), hothers]
  omega

/-- **The accesses of all threads**, in a run from a state where `c` events are paid for. -/
theorem Kept.count_le {step : σ → α → Except ε σ} {cond : σ → α → Prop} {access : α → Bool}
    {I : σ → Nat → Prop} (h : m.Kept step cond access I) {s : σ} {c : Nat} {as : List α} (hs : I s c)
    (hc : Meets step cond s as) : count step (fun _ a => access a) s as ≤
      m.potential s c + total step (fun s a => m.price * m.events a + m.more s a) s as := by
  refine count_le_total (fun s a s' c hs hc ha => ?_) hs hc
  obtain ⟨c', hs', hlt | ⟨hle, t, hquiet⟩⟩ := h.step hs hc ha
  · have hevent : m.potential s' c' + 1 ≤ m.potential s c := potential_event h.ahead_le hlt
    refine ⟨c', hs', ?_⟩
    split <;> omega
  · have hsum := hquiet.sum_ahead
    have hmul : m.price * c' ≤ m.price * c + m.price * m.events a := by
      rw [← Nat.mul_add]
      exact Nat.mul_le_mul_left _ hle
    refine ⟨c', hs', ?_⟩
    rw [potential, potential]
    omega

/-- **So many accesses for each call**, for two kinds of calls and one of failures. -/
theorem Kept.lock_free {step : σ → α → Except ε σ} {cond : σ → α → Prop} {access : α → Bool}
    {I : σ → Nat → Prop} (h : m.Kept step cond access I) {s : σ} {as : List α} (hs : I s 0)
    (hidle : ∀ t, m.ahead s t = 0) (hc : Meets step cond s as) {P Q R : σ → α → Bool} {k l n : Nat}
    (hpay : ∀ s a, m.price * m.events a + m.more s a ≤
      (if P s a then k else 0) + (if Q s a then l else 0) + if R s a then n else 0) :
    count step (fun _ a => access a) s as ≤
      k * count step P s as + l * count step Q s as + n * count step R s as := by
  have hstart : m.potential s 0 = 0 := by simp [potential, hidle]
  calc count step (fun _ a => access a) s as
      ≤ total step (fun s a => m.price * m.events a + m.more s a) s as := by
        simpa [hstart] using h.count_le hs hc
    _ ≤ total step (fun s a => (if P s a then k else 0) + (if Q s a then l else 0) +
          if R s a then n else 0) s as := total_le hpay s as
    _ = k * count step P s as + l * count step Q s as + n * count step R s as := by
        rw [total_add, total_add, total_ite, total_ite, total_ite]

end LockFree
