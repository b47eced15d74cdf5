import Footstone.Lib.Calls

/-!
A queue that holds a bounded number of elements, by its two calls: one that adds an
element if there is room, and one that takes the oldest. A loop that takes elements until
its own fits in drops one at most, if the queue can hold any.
-/

namespace BoundedFifo

open Calls

variable {ι σ π π' α : Type*}

/-- In the states with `I`, the calls are those of a queue of at most `cap` elements. -/
structure Behaves (good : ι → Prop) (push : Access ι σ π Bool) (start : α → π)
    (pop : Access ι σ π' Bool) (start' : π') (cap : Nat) (I : σ → Prop) (items : σ → List α) :
    Prop where
  le : ∀ s, I s → (items s).length ≤ cap
  pushEnds : ∃ n, ∀ s val, I s → EndsIn push good n s (start val)
  push : ∀ is s s' b rest val, I s → finish push is s (start val) = some (s', b, rest) → I s' ∧
    (b = true ∧ (items s).length < cap ∧ items s' = items s ++ [val] ∨
      b = false ∧ (items s).length = cap ∧ items s' = items s)
  popEnds : ∃ n, ∀ s, I s → EndsIn pop good n s start'
  pop : ∀ is s s' b rest, I s → finish pop is s start' = some (s', b, rest) →
    I s' ∧ items s' = (items s).tail

variable {good : ι → Prop} {push : Access ι σ π Bool} {start : α → π} {pop : Access ι σ π' Bool}
  {start' : π'} {cap : Nat} {I : σ → Prop} {items : σ → List α}
  {s s' : σ} {is rest : List ι} {val : α}

/-- A push ends the loop when there is room. -/
theorem Behaves.evict_of_lt (h : Behaves good push start pop start' cap I items) (hs : I s)
    (hlt : (items s).length < cap)
    (hf : finish (untilTrue push pop (start val) start') is s (.inl (start val)) =
      some (s', (), rest)) : I s' ∧ items s' = items s ++ [val] := by
  rw [finish_untilTrue] at hf
  rcases hp : finish push is s (start val) with _ | ⟨t, b, rest'⟩
  · rw [hp] at hf
    cases hf
  · obtain ⟨ht, ⟨rfl, -, hitems⟩ | ⟨-, hfull, -⟩⟩ := h.push _ _ _ _ _ _ hs hp
    · rw [hp] at hf
      cases hf
      exact ⟨ht, hitems⟩
    · omega

/-- **The loop keeps the newest.** It drops the oldest element when there is no room. -/
theorem Behaves.evict (h : Behaves good push start pop start' cap I items) (hcap : 0 < cap)
    (hs : I s)
    (hf : finish (untilTrue push pop (start val) start') is s (.inl (start val)) =
      some (s', (), rest)) :
    I s' ∧ items s' = (if (items s).length < cap then items s else (items s).tail) ++ [val] := by
  by_cases hlt : (items s).length < cap
  · rw [if_pos hlt]
    exact h.evict_of_lt hs hlt hf
  rw [if_neg hlt]
  rw [finish_untilTrue] at hf
  rcases hp : finish push is s (start val) with _ | ⟨t, b, rest'⟩
  · rw [hp] at hf
    cases hf
  obtain ⟨ht, ⟨-, hlt', -⟩ | ⟨rfl, hfull, hitems⟩⟩ := h.push _ _ _ _ _ _ hs hp
  · exact absurd hlt' hlt
  rcases hq : finish pop rest' t start' with _ | ⟨t', c, rest''⟩
  · rw [hp, Option.bind_some, hq] at hf
    cases hf
  obtain ⟨ht', htail⟩ := h.pop _ _ _ _ _ ht hq
  rw [hp, Option.bind_some, hq] at hf
  have hroom : (items t').length < cap := by
    rw [htail, hitems, List.length_tail]
    omega
  obtain ⟨hs', hnew⟩ := h.evict_of_lt ht' hroom hf
  exact ⟨hs', by rw [hnew, htail, hitems]⟩

/-- It ends. -/
theorem Behaves.evict_ends (h : Behaves good push start pop start' cap I items) (hcap : 0 < cap) :
    ∃ n, ∀ s val, I s →
      EndsIn (untilTrue push pop (start val) start') good n s (.inl (start val)) := by
  obtain ⟨n, hn⟩ := h.pushEnds
  obtain ⟨m, hm⟩ := h.popEnds
  refine ⟨n + m + n, fun s val hs => (hn s val hs).untilTrue fun is t rest hp => ?_⟩
  obtain ⟨ht, ⟨hb, -⟩ | ⟨-, hfull, hitems⟩⟩ := h.push _ _ _ _ _ _ hs hp
  · cases hb
  refine ⟨hm t ht, fun is t' c rest' hq => ?_⟩
  obtain ⟨ht', htail⟩ := h.pop _ _ _ _ _ ht hq
  refine (hn t' val ht').untilTrue_of_true fun is t'' b rest'' hp' => ?_
  obtain ⟨-, ⟨rfl, -⟩ | ⟨-, hfull', -⟩⟩ := h.push _ _ _ _ _ _ ht' hp'
  · rfl
  · rw [htail, hitems, List.length_tail] at hfull'
    omega

/-- A queue that cannot hold any element keeps it going. -/
theorem Behaves.evict_never (h : Behaves good push start pop start' 0 I items) (hs : I s)
    (is : List ι) :
    finish (untilTrue push pop (start val) start') is s (.inl (start val)) = none := by
  refine untilTrue_never (J := I) (fun is s s' b rest hs hp => ?_)
    (fun is s s' c rest hs hq => (h.pop _ _ _ _ _ hs hq).1) hs is
  obtain ⟨hs', ⟨-, hlt, -⟩ | ⟨rfl, -⟩⟩ := h.push _ _ _ _ _ _ hs hp
  · exact absurd hlt (Nat.not_lt_zero _)
  · exact ⟨rfl, hs'⟩

end BoundedFifo
