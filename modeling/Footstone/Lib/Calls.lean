import Mathlib.Data.List.Basic

/-!
Calls that are made of single accesses to an object. An access is told what it cannot
find in the object, and leads on to another place of the call or out of it, with a
result. A call that has the object for itself is its accesses, one after another.
-/

namespace Calls

variable {ι σ π π' β γ : Type*}

/-- An access, by what it is told, the object and the place of the call. -/
abbrev Access (ι σ π β : Type*) := ι → σ → π → σ × (π ⊕ β)

/-- The accesses of a call from a place on, which are told the members of a list in turn.
`none` is a call that is not over when the list is, else the rest of it is left. -/
def finish (access : Access ι σ π β) : List ι → σ → π → Option (σ × β × List ι)
  | [], _, _ => none
  | i :: is, s, p =>
    match access i s p with
    | (s', .inl p') => finish access is s' p'
    | (s', .inr b) => some (s', b, is)

/-- What the accesses of a call were told does not bring it to its end. -/
inductive Unfinished where
  | unfinished
  deriving DecidableEq

/-- The whole call, as a step. -/
def call (access : Access ι σ π β) (is : List ι) (s : σ) (p : π) : Except Unfinished (σ × β) :=
  match finish access is s p with
  | some (s', b, _) => .ok (s', b)
  | none => .error .unfinished

variable {access : Access ι σ π β} {s s' : σ} {p p' : π} {b : β} {i : ι} {is rest : List ι}

theorem call_eq_ok : call access is s p = .ok (s', b) ↔
    ∃ rest, finish access is s p = some (s', b, rest) := by
  rw [call]
  rcases finish access is s p with _ | ⟨t, c, rest⟩
  · simp
  · simp

/-- A step that forgets what the call returns. -/
theorem map_fst_eq_ok {ε : Type*} {x : Except ε (σ × β)} :
    x.map Prod.fst = .ok s' ↔ ∃ b, x = .ok (s', b) := by
  rcases x with e | ⟨t, b⟩ <;> simp [Except.map]

theorem finish_goOn (h : access i s p = (s', .inl p')) :
    finish access (i :: is) s p = finish access is s' p' := by
  simp only [finish, h]

theorem finish_return (h : access i s p = (s', .inr b)) :
    finish access (i :: is) s p = some (s', b, is) := by
  simp only [finish, h]

/-- More than a call needs is left. -/
theorem finish_append (h : finish access is s p = some (s', b, rest)) (more : List ι) :
    finish access (is ++ more) s p = some (s', b, rest ++ more) := by
  induction is generalizing s p with
  | nil => cases h
  | cons i is ih =>
    rcases ha : access i s p with ⟨t, p' | b'⟩
    · rw [finish_goOn ha] at h
      rw [List.cons_append, finish_goOn ha]
      exact ih h
    · rw [finish_return ha] at h
      cases h
      rw [List.cons_append, finish_return ha]

/-- A call makes at least one access. -/
theorem finish_length (h : finish access is s p = some (s', b, rest)) :
    rest.length < is.length := by
  induction is generalizing s p with
  | nil => cases h
  | cons i is ih =>
    rcases ha : access i s p with ⟨t, p' | b'⟩
    · rw [finish_goOn ha] at h
      exact Nat.lt_succ_of_lt (ih h)
    · rw [finish_return ha] at h
      cases h
      exact Nat.lt_succ_self _

/-! ## What a call leads to -/

/-- The call is over after `n` accesses that are told something good, however many were
told anything before. -/
def EndsIn (access : Access ι σ π β) (good : ι → Prop) (n : Nat) (s : σ) (p : π) : Prop :=
  ∀ is js, (∀ j ∈ js, good j) → n ≤ js.length → (finish access (is ++ js) s p).isSome

/-- The access leads to `I` again, and closer to the end if it is told something good, or out
of the call with `Q`. -/
def Leads (access : Access ι σ π β) (good : ι → Prop) (I : Nat → σ → π → Prop)
    (Q : σ → β → Prop) (k : Nat) (s : σ) (p : π) (i : ι) : Prop :=
  (∀ s' p', access i s p = (s', .inl p') → ∃ k', I k' s' p' ∧ (good i → k' < k)) ∧
    ∀ s' b, access i s p = (s', .inr b) → Q s' b

/-- Each access from `I` does. -/
def Keeps (access : Access ι σ π β) (good : ι → Prop) (I : Nat → σ → π → Prop)
    (Q : σ → β → Prop) : Prop :=
  ∀ k s p i, I k s p → Leads access good I Q k s p i

variable {good : ι → Prop} {I : Nat → σ → π → Prop} {Q : σ → β → Prop} {k k' m n : Nat}

theorem leads_goOn (h : access i s p = (s', .inl p')) (hI : I k' s' p') (hk : good i → k' < k) :
    Leads access good I Q k s p i := by
  constructor
  · intro t p'' ht
    rw [h] at ht
    cases ht
    exact ⟨k', hI, hk⟩
  · intro t b ht
    rw [h] at ht
    cases ht

theorem leads_return (h : access i s p = (s', .inr b)) (hQ : Q s' b) :
    Leads access good I Q k s p i := by
  constructor
  · intro t p' ht
    rw [h] at ht
    cases ht
  · intro t b' ht
    rw [h] at ht
    cases ht
    exact hQ

/-- What a call leads to. -/
theorem Keeps.sound (h : Keeps access good I Q) (hI : I k s p)
    (hf : finish access is s p = some (s', b, rest)) : Q s' b := by
  induction is generalizing s p k with
  | nil => cases hf
  | cons i is ih =>
    rcases ha : access i s p with ⟨t, p' | b'⟩
    · obtain ⟨k', hI', -⟩ := (h k s p i hI).1 t p' ha
      rw [finish_goOn ha] at hf
      exact ih hI' hf
    · rw [finish_return ha] at hf
      cases hf
      exact (h k s p i hI).2 _ _ ha

/-- It ends. -/
theorem Keeps.endsIn (h : Keeps access good I Q) (hm : ∀ k s p, I k s p → k < m)
    (hI : I k s p) : EndsIn access good m s p := by
  intro is js hjs hlen
  induction is generalizing s p k with
  | cons i is ih =>
    rcases ha : access i s p with ⟨t, p' | b'⟩
    · obtain ⟨k', hI', -⟩ := (h k s p i hI).1 t p' ha
      rw [List.cons_append, finish_goOn ha]
      exact ih hI'
    · rw [List.cons_append, finish_return ha]
      rfl
  | nil =>
    have hk : k < js.length := Nat.lt_of_lt_of_le (hm k s p hI) hlen
    clear hlen
    rw [List.nil_append]
    induction js generalizing s p k with
    | nil => simp at hk
    | cons j js ih =>
      rcases ha : access j s p with ⟨t, p' | b'⟩
      · obtain ⟨k', hI', hlt⟩ := (h k s p j hI).1 t p' ha
        have := hlt (hjs j List.mem_cons_self)
        rw [List.length_cons] at hk
        rw [finish_goOn ha]
        exact ih (fun i hi => hjs i (List.mem_cons_of_mem _ hi)) hI' (by omega)
      · rw [finish_return ha]
        rfl

/-! ## Calls that are told nothing -/

section Unit

variable {access : Access Unit σ π β} {is js rest rest' : List Unit} {t : σ} {c : β}

/-- There is one thing that such a call does. -/
theorem finish_unique (h : finish access is s p = some (s', b, rest))
    (h' : finish access js s p = some (t, c, rest')) : (s', b) = (t, c) := by
  have hcomm : is ++ js = js ++ is := List.ext_getElem (by simp [Nat.add_comm]) fun _ _ _ => rfl
  have hmore := finish_append h js
  rw [hcomm, finish_append h' is] at hmore
  simp only [Option.some.injEq, Prod.mk.injEq] at hmore
  exact Prod.ext hmore.1.symm hmore.2.1.symm

/-- It ends in as many accesses as it has ever taken. -/
theorem endsIn_length (h : finish access is s p = some (s', b, rest)) :
    EndsIn access (fun _ => True) is.length s p := by
  intro us js _ hlen
  obtain ⟨more, hmore⟩ : ∃ more, us ++ js = is ++ more := by
    refine ⟨List.replicate (us.length + js.length - is.length) (), ?_⟩
    refine List.ext_getElem ?_ fun _ _ _ => rfl
    rw [List.length_append, List.length_append, List.length_replicate]
    omega
  rw [hmore, finish_append h more]
  rfl

end Unit

/-! ## A loop of two calls -/

/-- `while (!attempt()) makeRoom();`, by the accesses of the two calls, which start at
`p₁` and `p₂`. -/
def untilTrue (attempt : Access ι σ π Bool) (makeRoom : Access ι σ π' γ) (p₁ : π) (p₂ : π') :
    Access ι σ (π ⊕ π') Unit
  | i, s, .inl p =>
    match attempt i s p with
    | (s', .inl p') => (s', .inl (.inl p'))
    | (s', .inr true) => (s', .inr ())
    | (s', .inr false) => (s', .inl (.inr p₂))
  | i, s, .inr p =>
    match makeRoom i s p with
    | (s', .inl p') => (s', .inl (.inr p'))
    | (s', .inr _) => (s', .inl (.inl p₁))

variable {attempt : Access ι σ π Bool} {makeRoom : Access ι σ π' γ} {p₁ : π} {p₂ : π'}

theorem finish_makeRoom (is : List ι) (s : σ) (p : π') :
    finish (untilTrue attempt makeRoom p₁ p₂) is s (.inr p) =
      (finish makeRoom is s p).bind fun x =>
        finish (untilTrue attempt makeRoom p₁ p₂) x.2.2 x.1 (.inl p₁) := by
  induction is generalizing s p with
  | nil => rfl
  | cons i is ih =>
    rcases ha : makeRoom i s p with ⟨t, p' | c⟩
    · rw [finish_goOn ha, ← ih]
      exact finish_goOn (by simp only [untilTrue, ha])
    · rw [finish_return ha]
      exact finish_goOn (by simp only [untilTrue, ha])

/-- The loop, call by call. -/
theorem finish_untilTrue (is : List ι) (s : σ) (p : π) :
    finish (untilTrue attempt makeRoom p₁ p₂) is s (.inl p) =
      (finish attempt is s p).bind fun x =>
        if x.2.1 then some (x.1, (), x.2.2)
        else (finish makeRoom x.2.2 x.1 p₂).bind fun y =>
          finish (untilTrue attempt makeRoom p₁ p₂) y.2.2 y.1 (.inl p₁) := by
  induction is generalizing s p with
  | nil => rfl
  | cons i is ih =>
    rcases ha : attempt i s p with ⟨t, p' | _ | _⟩
    · rw [finish_goOn ha, ← ih]
      exact finish_goOn (by simp only [untilTrue, ha])
    · rw [finish_return ha]
      exact (finish_goOn (by simp only [untilTrue, ha])).trans (finish_makeRoom _ _ _)
    · rw [finish_return ha]
      exact finish_return (by simp only [untilTrue, ha])

/-- A loop whose first attempt returns true. -/
theorem EndsIn.untilTrue_of_true (h : EndsIn attempt good n s p)
    (htrue : ∀ is s' b rest, finish attempt is s p = some (s', b, rest) → b = true) :
    EndsIn (untilTrue attempt makeRoom p₁ p₂) good n s (.inl p) := by
  intro is js hjs hlen
  obtain ⟨⟨s', b, rest⟩, hf⟩ := Option.isSome_iff_exists.mp (h is js hjs hlen)
  obtain rfl := htrue _ _ _ _ hf
  rw [finish_untilTrue, hf]
  rfl

/-- A loop whose first attempt does not, when it ends from there. -/
theorem EndsIn.untilTrue (h₁ : EndsIn attempt good n s p)
    (h₂ : ∀ is s' rest, finish attempt is s p = some (s', false, rest) →
      EndsIn makeRoom good m s' p₂ ∧
      ∀ is s'' c rest, finish makeRoom is s' p₂ = some (s'', c, rest) →
        EndsIn (untilTrue attempt makeRoom p₁ p₂) good k s'' (.inl p₁)) :
    EndsIn (Calls.untilTrue attempt makeRoom p₁ p₂) good (n + m + k) s (.inl p) := by
  intro is js hjs hlen
  obtain ⟨js₁, js₂, js₃, rfl, hlen₁, hlen₂, hlen₃⟩ : ∃ js₁ js₂ js₃, js = js₁ ++ (js₂ ++ js₃) ∧
      n ≤ js₁.length ∧ m ≤ js₂.length ∧ k ≤ js₃.length := by
    refine ⟨js.take n, (js.drop n).take m, (js.drop n).drop m, ?_, ?_, ?_, ?_⟩
    · rw [List.take_append_drop, List.take_append_drop]
    all_goals
      simp only [List.length_take, List.length_drop]
      omega
  simp only [List.mem_append] at hjs
  obtain ⟨⟨s', b, rest⟩, hf⟩ := Option.isSome_iff_exists.mp
    (h₁ is js₁ (fun j hj => hjs j (Or.inl hj)) hlen₁)
  have hf' := finish_append hf (js₂ ++ js₃)
  rw [List.append_assoc] at hf'
  cases b with
  | true =>
    rw [finish_untilTrue, hf']
    rfl
  | false =>
    obtain ⟨hroom, hend⟩ := h₂ _ _ _ hf
    obtain ⟨⟨s'', c, rest'⟩, hg⟩ := Option.isSome_iff_exists.mp
      (hroom rest js₂ (fun j hj => hjs j (Or.inr (Or.inl hj))) hlen₂)
    have hg' := finish_append hg js₃
    rw [List.append_assoc] at hg'
    rw [finish_untilTrue, hf']
    simp only [Option.bind_some, Bool.false_eq_true, ↓reduceIte, hg']
    exact hend _ _ _ _ hg rest' js₃ (fun j hj => hjs j (Or.inr (Or.inr hj))) hlen₃

/-- A loop that makes no progress never ends. -/
theorem untilTrue_never {J : σ → Prop}
    (h₁ : ∀ is s s' b rest, J s → finish attempt is s p₁ = some (s', b, rest) → b = false ∧ J s')
    (h₂ : ∀ is s s' c rest, J s → finish makeRoom is s p₂ = some (s', c, rest) → J s')
    (hs : J s) (is : List ι) :
    finish (untilTrue attempt makeRoom p₁ p₂) is s (.inl p₁) = none := by
  induction hlen : is.length using Nat.strongRecOn generalizing is s with
  | ind len ih =>
    subst hlen
    rw [finish_untilTrue]
    rcases hf : finish attempt is s p₁ with _ | ⟨s', b, rest⟩
    · rfl
    obtain ⟨rfl, hs'⟩ := h₁ _ _ _ _ _ hs hf
    rcases hg : finish makeRoom rest s' p₂ with _ | ⟨s'', c, rest'⟩
    · simp [hg]
    have hlt := Nat.lt_trans (finish_length hg) (finish_length hf)
    simpa [hg] using ih _ hlt (h₂ _ _ _ _ _ hs' hg) rest' rfl

end Calls
