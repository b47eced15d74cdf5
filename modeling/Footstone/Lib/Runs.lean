import Mathlib.Data.List.Infix

/-!
Runs of a partial step function. A step either returns the next state or fails,
and a run stops at the first step that fails. `Always` speaks about every state
a run reaches, `Meets` about every step of it that returns; the rules below turn
a fact about one step into a fact about every run.
-/

namespace Runs

theorem bind_eq_ok.{u, v} {ε : Type v} {α β : Type u} {x : Except ε α} {f : α → Except ε β} {b : β} :
    (x >>= f) = .ok b ↔ ∃ a, x = .ok a ∧ f a = .ok b := by
  cases x with
  | error e => simp [bind, Except.bind]
  | ok a => simp [bind, Except.bind]

theorem bind_ne_error.{u, v} {ε : Type v} {α β : Type u} {x : Except ε α} {f : α → Except ε β} {e : ε}
    (hx : x ≠ .error e) (hf : ∀ a, x = .ok a → f a ≠ .error e) : (x >>= f) ≠ .error e := by
  cases x with
  | error e' => simpa [bind, Except.bind] using hx
  | ok a => exact hf a rfl

variable {σ α ε : Type*} (step : σ → α → Except ε σ)

/-- Replay `as` from `s`; the first failing step ends the run. -/
def run : σ → List α → Except ε σ
  | s, [] => .ok s
  | s, a :: as =>
    match step s a with
    | .ok s' => run s' as
    | .error e => .error e

/-- The last state that the run of `as` from `s` reaches. -/
def last : σ → List α → σ
  | s, [] => s
  | s, a :: as =>
    match step s a with
    | .ok s' => last s' as
    | .error _ => s

/-- `P` holds of `s` and of every state reached from it by replaying `as`. -/
def Always (P : σ → Prop) : σ → List α → Prop
  | s, [] => P s
  | s, a :: as =>
    P s ∧ match step s a with
      | .ok s' => Always P s' as
      | .error _ => True

/-- Every step of the run of `as` from `s` that returns is taken under `cond`. -/
def Meets (cond : σ → α → Prop) : σ → List α → Prop
  | _, [] => True
  | s, a :: as =>
    match step s a with
    | .ok s' => cond s a ∧ Meets cond s' as
    | .error _ => True

variable {step}

theorem run_cons {s s' : σ} {a : α} (h : step s a = .ok s') (as : List α) :
    run step s (a :: as) = run step s' as := by
  simp [run, h]

theorem run_cons_inv {s t : σ} {a : α} {as : List α} (h : run step s (a :: as) = .ok t) :
    ∃ s', step s a = .ok s' ∧ run step s' as = .ok t := by
  cases hs : step s a with
  | error e => simp [run, hs] at h
  | ok s' => exact ⟨s', rfl, by simpa [run, hs] using h⟩

theorem run_append {s t : σ} {as bs : List α} (h : run step s as = .ok t) :
    run step s (as ++ bs) = run step t bs := by
  induction as generalizing s with
  | nil => cases h; rfl
  | cons a as ih =>
    obtain ⟨s', hs, hr⟩ := run_cons_inv h
    rw [List.cons_append, run_cons hs]
    exact ih hr

theorem run_last {s : σ} {as : List α} (h : (run step s as).isOk = true) :
    run step s as = .ok (last step s as) := by
  induction as generalizing s with
  | nil => rfl
  | cons a as ih =>
    cases hs : step s a with
    | error e => simp [run, hs, Except.isOk, Except.toBool] at h
    | ok s' =>
      simp only [run, last, hs] at h ⊢
      exact ih h

theorem meets_cons {cond : σ → α → Prop} {s s' : σ} {a : α} {as : List α}
    (h : step s a = .ok s') : Meets step cond s (a :: as) ↔ cond s a ∧ Meets step cond s' as := by
  simp [Meets, h]

theorem meets_and {c d : σ → α → Prop} {s : σ} {as : List α} (hc : Meets step c s as)
    (hd : Meets step d s as) : Meets step (fun s a => c s a ∧ d s a) s as := by
  induction as generalizing s with
  | nil => trivial
  | cons a as ih =>
    cases hs : step s a with
    | error e => simp [Meets, hs]
    | ok s' =>
      rw [meets_cons hs] at hc hd ⊢
      exact ⟨⟨hc.1, hd.1⟩, ih hc.2 hd.2⟩

/-- `Meets`, by the position of the step. -/
theorem meets_of_take {cond : σ → α → Prop} {s : σ} {as : List α}
    (h : ∀ k a, as[k]? = some a → cond (last step s (as.take k)) a) : Meets step cond s as := by
  induction as generalizing s with
  | nil => trivial
  | cons a as ih =>
    cases hs : step s a with
    | error e => simp [Meets, hs]
    | ok s' =>
      rw [meets_cons hs]
      refine ⟨h 0 a rfl, ih fun k b hb => ?_⟩
      have := h (k + 1) b (by simpa using hb)
      simpa only [List.take_succ_cons, last, hs] using this

instance decidableMeets {cond : σ → α → Prop} [∀ s a, Decidable (cond s a)] :
    (s : σ) → (as : List α) → Decidable (Meets step cond s as)
  | _, [] => isTrue trivial
  | s, a :: as =>
    match h : step s a with
    | .ok s' =>
      have : Decidable (Meets step cond s' as) := decidableMeets s' as
      decidable_of_iff (cond s a ∧ Meets step cond s' as) (meets_cons h).symm
    | .error _ => isTrue (by simp [Meets, h])

theorem always_cons {P : σ → Prop} {s s' : σ} {a : α} {as : List α} (h : step s a = .ok s') :
    Always step P s (a :: as) ↔ P s ∧ Always step P s' as := by
  simp [Always, h]

instance decidableAlways {P : σ → Prop} [∀ s, Decidable (P s)] :
    (s : σ) → (as : List α) → Decidable (Always step P s as)
  | s, [] => inferInstanceAs (Decidable (P s))
  | s, a :: as =>
    match h : step s a with
    | .ok s' =>
      have : Decidable (Always step P s' as) := decidableAlways s' as
      decidable_of_iff (P s ∧ Always step P s' as) (always_cons h).symm
    | .error _ => decidable_of_iff (P s) (by simp [Always, h])

theorem always_last {P : σ → Prop} {s : σ} {as : List α} (h : Always step P s as) :
    P (last step s as) := by
  induction as generalizing s with
  | nil => exact h
  | cons a as ih =>
    cases ha : step s a with
    | error e => simpa [last, ha] using h.1
    | ok s' =>
      rw [always_cons ha] at h
      simpa [last, ha] using ih h.2

/-- A property that one step keeps holds at the end of every run. -/
theorem run_invariant {I : σ → Prop} (hI : ∀ s a s', I s → step s a = .ok s' → I s')
    {s t : σ} {as : List α} (hs : I s) (h : run step s as = .ok t) : I t := by
  induction as generalizing s with
  | nil => cases h; exact hs
  | cons a as ih =>
    obtain ⟨s', ha, hr⟩ := run_cons_inv h
    exact ih (hI s a s' hs ha) hr

/-- A property that a step keeps under `cond`, and what follows from it, holds all
along a run whose steps are taken under `cond`. `A` singles out the steps the run
is made of. -/
theorem always_of_meets {A : α → Prop} {I P : σ → Prop} {cond : σ → α → Prop}
    (hI : ∀ s a s', A a → I s → cond s a → step s a = .ok s' → I s') (hP : ∀ s, I s → P s)
    {s : σ} {as : List α} (hA : ∀ a ∈ as, A a) (hs : I s) (hc : Meets step cond s as) :
    Always step P s as := by
  induction as generalizing s with
  | nil => exact hP s hs
  | cons a as ih =>
    refine ⟨hP s hs, ?_⟩
    cases ha : step s a with
    | error e => trivial
    | ok s' =>
      rw [meets_cons ha] at hc
      exact ih (fun b hb => hA b (List.mem_cons_of_mem _ hb))
        (hI s a s' (hA a List.mem_cons_self) hs hc.1 ha) hc.2

/-- Under the same condition, what each step owes to the invariant it owes all
along the run. -/
theorem meets_of_meets {I : σ → Prop} {cond d : σ → α → Prop}
    (hI : ∀ s a s', I s → cond s a → step s a = .ok s' → I s') (hd : ∀ s a, I s → cond s a → d s a)
    {s : σ} {as : List α} (hs : I s) (hc : Meets step cond s as) : Meets step d s as := by
  induction as generalizing s with
  | nil => trivial
  | cons a as ih =>
    cases ha : step s a with
    | error e => simp [Meets, ha]
    | ok s' =>
      rw [meets_cons ha] at hc ⊢
      exact ⟨hd s a hs hc.1, ih (hI s a s' hs hc.1 ha) hc.2⟩

/-- A property that a step keeps when it leads to a state with `B`, along a run that
has `B` in every state. -/
theorem always_of_always {I B P : σ → Prop} (hI : ∀ s a s', I s → B s' → step s a = .ok s' → I s')
    (hP : ∀ s, I s → B s → P s) {s : σ} {as : List α} (hs : I s) (hB : Always step B s as) :
    Always step P s as := by
  induction as generalizing s with
  | nil => exact hP s hs hB
  | cons a as ih =>
    obtain ⟨hb, hrest⟩ := hB
    refine ⟨hP s hs hb, ?_⟩
    cases ha : step s a with
    | error e => trivial
    | ok s' =>
      simp only [ha] at hrest
      have hb' : B s' := by
        cases as with
        | nil => exact hrest
        | cons => exact hrest.1
      exact ih (hI s a s' hs hb' ha) hrest

/-- What follows from a property in every state. -/
theorem Always.mono {P Q : σ → Prop} (hPQ : ∀ s, P s → Q s) {s : σ} {as : List α}
    (h : Always step P s as) : Always step Q s as :=
  always_of_always (I := fun _ => True) (fun _ _ _ _ _ _ => trivial) (fun s _ => hPQ s) trivial h

/-- `Always` is about the end of every prefix of the run. -/
theorem always_iff_run {P : σ → Prop} {s : σ} {as : List α} :
    Always step P s as ↔ ∀ bs, bs <+: as → ∀ t, run step s bs = .ok t → P t := by
  induction as generalizing s with
  | nil =>
    constructor
    · intro h bs hb t ht
      rw [List.prefix_nil.mp hb] at ht
      cases ht
      exact h
    · intro h
      exact h [] List.prefix_rfl s rfl
  | cons a as ih =>
    constructor
    · intro h bs hb t ht
      obtain ⟨hP, hrest⟩ := h
      cases bs with
      | nil => cases ht; exact hP
      | cons b bs =>
        obtain ⟨rfl, hb'⟩ := List.cons_prefix_cons.mp hb
        obtain ⟨s', hs, hr⟩ := run_cons_inv ht
        simp only [hs] at hrest
        exact ih.mp hrest bs hb' t hr
    · intro h
      refine ⟨h [] (List.nil_prefix) s rfl, ?_⟩
      cases hs : step s a with
      | error e => trivial
      | ok s' =>
        refine ih.mpr fun bs hb t ht => ?_
        exact h (a :: bs) (List.cons_prefix_cons.mpr ⟨rfl, hb⟩) t (by rwa [run_cons hs])

/-- A property that every step keeps, and what follows from it, holds all along every run. -/
theorem always_of_invariant {I P : σ → Prop} (hI : ∀ s a s', I s → step s a = .ok s' → I s')
    (hP : ∀ s, I s → P s) {s : σ} (hs : I s) (as : List α) : Always step P s as :=
  always_iff_run.mpr fun _ _ t ht => hP t (run_invariant hI hs ht)

/-- What each step owes to such a property it owes all along every run. -/
theorem meets_of_invariant {I : σ → Prop} {d : σ → α → Prop}
    (hI : ∀ s a s', I s → step s a = .ok s' → I s') (hd : ∀ s a, I s → d s a) {s : σ} (hs : I s)
    (as : List α) : Meets step d s as := by
  induction as generalizing s with
  | nil => trivial
  | cons a as ih =>
    cases ha : step s a with
    | error e => simp [Meets, ha]
    | ok s' => exact (meets_cons ha).mpr ⟨hd s a hs, ih (hI s a s' hs ha)⟩

/-- **Exact conditions lift to runs.** If a step from a state with `J` and `P`
leads to one with `P` exactly under `cond`, and then to one with `J` as well, `P`
holds all along a run exactly when every step of it is taken under `cond`. `A`
singles out the steps the run is made of. -/
theorem always_iff_meets_under {A : α → Prop} {J P : σ → Prop} {cond : σ → α → Prop}
    (hJ : ∀ s a s', A a → J s → P s → cond s a → step s a = .ok s' → J s')
    (hP : ∀ s a s', A a → J s → P s → step s a = .ok s' → (P s' ↔ cond s a))
    {s : σ} {as : List α} (hA : ∀ a ∈ as, A a) (hj : J s) (hp : P s) :
    Always step P s as ↔ Meets step cond s as := by
  induction as generalizing s with
  | nil => exact ⟨fun _ => trivial, fun _ => hp⟩
  | cons a as ih =>
    have ha := hA a List.mem_cons_self
    have hA' : ∀ b ∈ as, A b := fun b hb => hA b (List.mem_cons_of_mem _ hb)
    cases hs : step s a with
    | error e => simp [Always, Meets, hs, hp]
    | ok s' =>
      have hstep := hP s a s' ha hj hp hs
      simp only [Always, Meets, hs]
      constructor
      · rintro ⟨-, hrest⟩
        -- The rest of the run starts from a state with `P`, and that is the condition here.
        have hp' : P s' := by
          have := always_iff_run.mp hrest [] List.nil_prefix s' rfl
          exact this
        have hc := hstep.mp hp'
        exact ⟨hc, (ih hA' (hJ s a s' ha hj hp hc hs) hp').mp hrest⟩
      · rintro ⟨hc, hrest⟩
        have hj' := hJ s a s' ha hj hp hc hs
        exact ⟨hp, (ih hA' hj' (hstep.mpr hc)).mpr hrest⟩

/-- The rule for a `J` that every step keeps. -/
theorem always_iff_meets {A : α → Prop} {J P : σ → Prop} {cond : σ → α → Prop}
    (hJ : ∀ s a s', A a → J s → step s a = .ok s' → J s')
    (hP : ∀ s a s', A a → J s → P s → step s a = .ok s' → (P s' ↔ cond s a))
    {s : σ} {as : List α} (hA : ∀ a ∈ as, A a) (hj : J s) (hp : P s) :
    Always step P s as ↔ Meets step cond s as :=
  always_iff_meets_under (fun s a s' ha hj _ _ hs => hJ s a s' ha hj hs) hP hA hj hp

end Runs
