import Footstone.Lib.Variant

/-!
One server for several clients. It serves a client for a while, adds what that took to the
weight of the client, and never takes up one that is heavier than a client which always wants to
be served. Then nobody gets ahead of that client by more than one service, and between two
services of that client the others are served only so often.
-/

namespace FairShare

open Runs

/-- A server in a state of type `σ`, with clients of type `ι`. -/
structure Server (σ ι : Type*) where
  weight : σ → ι → Int
  serving : σ → Option ι

variable {σ α ε ι : Type*} (m : Server σ ι)

/-- What a step makes of the clients in `M`, of which `d` always wants to be served. A service
takes at most `C`. -/
inductive Change (M : Set ι) (d : ι) (C : Int) (s s' : σ) : Prop
  | rest (hweight : ∀ i ∈ M, m.weight s' i = m.weight s i) (hserving : m.serving s' = m.serving s)
  | start (i : ι) (hi : i ∈ M) (hle : m.weight s i ≤ m.weight s d)
      (hweight : ∀ j ∈ M, m.weight s' j = m.weight s j) (hserving : m.serving s' = some i)
  | stop (i : ι) (c : Int) (hc : 0 ≤ c) (hC : c ≤ C) (hi : m.weight s' i = m.weight s i + c)
      (hweight : ∀ j ∈ M, j ≠ i → m.weight s' j = m.weight s j)
      (hbefore : m.serving s = some i) (hserving : m.serving s' = none)

/-- The clients are as heavy as at first, or ahead of `d` by one service at most, and the one
that is being served was not heavier than `d`. -/
structure Lag (M : Set ι) (d : ι) (C : Int) (weight₀ : ι → Int) (s : σ) : Prop where
  le : ∀ i ∈ M, m.weight s i ≤ max (weight₀ i) (m.weight s d + C)
  serving : ∀ i, m.serving s = some i → i ∈ M ∧ m.weight s i ≤ m.weight s d

variable {m} {M : Set ι} {d : ι} {C : Int} {weight₀ : ι → Int}

theorem Change.weight_le {s s' : σ} (h : Change m M d C s s') {i : ι} (hi : i ∈ M) :
    m.weight s i ≤ m.weight s' i := by
  cases h with
  | rest hweight => exact (hweight i hi).ge
  | start j hj hle hweight => exact (hweight i hi).ge
  | stop j c hc hC hj hweight =>
    by_cases hij : i = j
    · subst hij
      omega
    · exact (hweight i hi hij).ge

/-- The step lemma. -/
theorem Lag.step {s s' : σ} (hd : d ∈ M) (h : Lag m M d C weight₀ s) (hc : Change m M d C s s') :
    Lag m M d C weight₀ s' := by
  have hmono := hc.weight_le hd
  cases hc with
  | rest hweight hserving =>
    refine ⟨fun i hi => ?_, fun i hi => ?_⟩
    · have hle := h.le i hi
      rw [hweight i hi, hweight d hd]
      exact hle
    · obtain ⟨hM, hle⟩ := h.serving i (hserving ▸ hi)
      rw [hweight i hM, hweight d hd]
      exact ⟨hM, hle⟩
  | start j hj hle hweight hserving =>
    refine ⟨fun i hi => ?_, fun i hi => ?_⟩
    · rw [hweight i hi, hweight d hd]
      exact h.le i hi
    · obtain rfl := Option.some.inj (hserving.symm.trans hi)
      rw [hweight j hj, hweight d hd]
      exact ⟨hj, hle⟩
  | stop j c hc hC hj hweight hbefore hserving =>
    refine ⟨fun i hi => ?_, fun i hi => by simp [hserving] at hi⟩
    by_cases hij : i = j
    · -- It was no heavier than `d`, and has got at most `C` more.
      subst hij
      have hle := (h.serving i hbefore).2
      omega
    · have hle := h.le i hi
      rw [hweight i hi hij]
      omega

/-- A server whose steps are such changes, as long as they are taken under `cond`. `I` is what
is known of its states. -/
structure Fair (m : Server σ ι) (step : σ → α → Except ε σ) (cond : σ → α → Prop)
    (I : σ → Prop) (M : Set ι) (d : ι) (C : Int) : Prop where
  mem : d ∈ M
  step : ∀ s a s', I s → cond s a → step s a = .ok s' → I s' ∧ Change m M d C s s'

variable {step : σ → α → Except ε σ} {cond : σ → α → Prop} {I : σ → Prop}

theorem lag_start {s : σ} (hidle : m.serving s = none) : Lag m M d C (m.weight s) s where
  le i _ := le_max_left _ _
  serving i hi := by simp [hidle] at hi

/-- **Nobody gets ahead** of a client that always wants to be served by more than one service,
unless it was ahead from the start. -/
theorem Fair.lag (h : Fair m step cond I M d C) {s : σ} {as : List α} (hs : I s)
    (hidle : m.serving s = none) (hc : Meets step cond s as) :
    Always step (Lag m M d C (m.weight s)) s as := by
  refine always_of_meets (A := fun _ => True) (I := fun s' => I s' ∧ Lag m M d C (m.weight s) s')
    (fun s₁ a s₂ _ hs₁ hc ha => ?_) (fun _ hs => hs.2) (fun _ _ => trivial)
    ⟨hs, lag_start hidle⟩ hc
  obtain ⟨hI, hchange⟩ := h.step s₁ a s₂ hs₁.1 hc ha
  exact ⟨hI, hs₁.2.step h.mem hchange⟩

/-- **So many services of `g` for those of `d`**, when a service of `g` adds `c` to its weight at
least. -/
theorem Fair.count_le (h : Fair m step cond I M d C) {g : ι} (hg : g ∈ M) {c : Int}
    {P Q : σ → α → Bool}
    (hP : ∀ s a s', I s → cond s a → step s a = .ok s' →
      m.weight s g + (if P s a then c else 0) ≤ m.weight s' g)
    (hQ : ∀ s a s', I s → cond s a → step s a = .ok s' →
      m.weight s' d ≤ m.weight s d + if Q s a then C else 0)
    {s : σ} {as : List α} (hs : I s) (hidle : m.serving s = none) (hc : Meets step cond s as) :
    c * count step P s as ≤ max 0 (m.weight s d - m.weight s g + C * (count step Q s as + 1)) := by
  have hkeeps : ∀ s a s', I s → cond s a → step s a = .ok s' → I s' :=
    fun s a s' hs hc ha => (h.step s a s' hs hc ha).1
  have hgain : -m.weight (last step s as) g ≤ -m.weight s g + -c * count step P s as := by
    refine last_le_count hkeeps (f := fun s => -m.weight s g) (fun s a s' hs hc ha => ?_) hs hc
    have hadds := hP s a s' hs hc ha
    cases hserved : P s a with
    | false =>
      simp only [hserved, Bool.false_eq_true, if_false] at hadds ⊢
      omega
    | true =>
      simp only [hserved, if_true] at hadds ⊢
      omega
  have hspent : m.weight (last step s as) d ≤ m.weight s d + C * count step Q s as :=
    last_le_count hkeeps (f := fun s => m.weight s d) hQ hs hc
  have hlag := (always_last (h.lag hs hidle hc)).le g hg
  rw [Int.neg_mul] at hgain
  rw [Int.mul_add, Int.mul_one]
  omega

end FairShare
