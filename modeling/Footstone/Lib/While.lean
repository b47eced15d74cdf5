import Mathlib.Logic.Basic

/-!
`while` loops whose body may fail. A bound on the rounds makes a loop a function
that can be evaluated. An invariant tells what a loop that returns leaves behind,
a measure that each round lowers that it returns.
-/

namespace While

variable {σ τ ε : Type*}

/-- `while (test) body` for at most `rounds` rounds; `none` is a loop that runs on. -/
def loop (test : σ → Bool) (body : σ → Except ε σ) : Nat → σ → Option (Except ε σ)
  | 0, s => if test s then none else some (.ok s)
  | rounds + 1, s =>
    if test s then
      match body s with
      | .ok s' => loop test body rounds s'
      | .error e => some (.error e)
    else some (.ok s)

/-- What follows a loop. -/
def andThen (x : Option (Except ε σ)) (next : σ → Option (Except ε τ)) : Option (Except ε τ) :=
  match x with
  | none => none
  | some (.error e) => some (.error e)
  | some (.ok s) => next s

theorem andThen_eq_ok {x : Option (Except ε σ)} {next : σ → Option (Except ε τ)} {t : τ} :
    andThen x next = some (.ok t) ↔ ∃ s, x = some (.ok s) ∧ next s = some (.ok t) := by
  rcases x with _ | e | s <;> simp [andThen]

variable {test : σ → Bool} {body : σ → Except ε σ}

/-- A loop whose test fails at once. -/
theorem loop_of_not {s : σ} (h : test s = false) (rounds : Nat) :
    loop test body rounds s = some (.ok s) := by
  cases rounds <;> simp [loop, h]

theorem loop_round {s s' : σ} (h : test s = true) (hs : body s = .ok s') (rounds : Nat) :
    loop test body (rounds + 1) s = loop test body rounds s' := by
  simp [loop, h, hs]

/-- What each round keeps holds at the end, and there the test fails. -/
theorem loop_invariant {I : σ → Prop}
    (hI : ∀ s s', I s → test s = true → body s = .ok s' → I s') {rounds : Nat} {s s' : σ}
    (hs : I s) (h : loop test body rounds s = some (.ok s')) : I s' ∧ test s' = false := by
  induction rounds generalizing s with
  | zero =>
    cases ht : test s with
    | true => simp [loop, ht] at h
    | false =>
      rw [loop_of_not ht] at h
      cases h
      exact ⟨hs, ht⟩
  | succ rounds ih =>
    cases ht : test s with
    | false =>
      rw [loop_of_not ht] at h
      cases h
      exact ⟨hs, ht⟩
    | true =>
      cases hb : body s with
      | error e => simp [loop, ht, hb] at h
      | ok t =>
        rw [loop_round ht hb] at h
        exact ih (hI s t hs ht hb) h

/-- A loop whose rounds succeed and lower a measure returns within that many rounds. -/
theorem loop_returns {I : σ → Prop} {measure : σ → Nat}
    (hI : ∀ s, I s → test s = true → ∃ s', body s = .ok s' ∧ I s' ∧ measure s' < measure s)
    {s : σ} (hs : I s) {rounds : Nat} (hn : measure s ≤ rounds) :
    ∃ s', loop test body rounds s = some (.ok s') ∧ I s' ∧ test s' = false := by
  induction rounds generalizing s with
  | zero =>
    cases ht : test s with
    | false => exact ⟨s, loop_of_not ht 0, hs, ht⟩
    | true =>
      obtain ⟨s', -, -, hlt⟩ := hI s hs ht
      omega
  | succ rounds ih =>
    cases ht : test s with
    | false => exact ⟨s, loop_of_not ht _, hs, ht⟩
    | true =>
      obtain ⟨s', hb, hs', hlt⟩ := hI s hs ht
      rw [loop_round ht hb]
      exact ih hs' (by omega)

end While
