import Mathlib.Data.List.Nodup
import Mathlib.Data.List.Infix

/-!
Singly linked lists: the elements that are met from a pointer on, up to a null pointer.
They are determined by the pointer, and so none of them is met twice.
-/

namespace LinkedList

variable {β : Type*} {next next' : β → Option β} {p : Option β} {l : List β} {a b : β}

/-- `l` is what is met from `p` on. -/
def Path (next : β → Option β) : Option β → List β → Prop
  | p, [] => p = none
  | p, a :: l => p = some a ∧ Path next (next a) l

namespace Path

/-- The pointer to an element points to the first one. -/
theorem eq_cons (h : Path next (some a) l) : ∃ l', l = a :: l' ∧ Path next (next a) l' := by
  cases l with
  | nil => cases h
  | cons b l =>
    obtain ⟨hb, h⟩ := h
    obtain rfl := Option.some.inj hb
    exact ⟨l, rfl, h⟩

theorem eq_nil (h : Path next none l) : l = [] := by
  cases l with
  | nil => rfl
  | cons b l => cases h.1

theorem congr (h : Path next p l) (hnext : ∀ a ∈ l, next' a = next a) : Path next' p l := by
  induction l generalizing p with
  | nil => exact h
  | cons a l ih =>
    refine ⟨h.1, ?_⟩
    rw [hnext a List.mem_cons_self]
    exact ih h.2 fun b hb => hnext b (List.mem_cons_of_mem _ hb)

theorem unique {l' : List β} (h : Path next p l) (h' : Path next p l') : l = l' := by
  induction l generalizing p l' with
  | nil =>
    obtain rfl : p = none := h
    exact h'.eq_nil.symm
  | cons a l ih =>
    obtain ⟨rfl, h⟩ := h
    obtain ⟨l', rfl, hrest⟩ := h'.eq_cons
    rw [ih h hrest]

theorem suffix {l₁ l₂ : List β} (h : Path next p (l₁ ++ a :: l₂)) :
    Path next (some a) (a :: l₂) := by
  induction l₁ generalizing p with
  | nil => exact ⟨rfl, h.2⟩
  | cons b l₁ ih => exact ih h.2

theorem nodup (h : Path next p l) : l.Nodup := by
  induction l generalizing p with
  | nil => exact List.nodup_nil
  | cons a l ih =>
    refine List.nodup_cons.mpr ⟨fun ha => ?_, ih h.2⟩
    -- From `a` on, both all of the list and a proper part of it would be met.
    obtain ⟨l₁, l₂, rfl⟩ := List.append_of_mem ha
    have hall : Path next (some a) (a :: (l₁ ++ a :: l₂)) := ⟨rfl, h.2⟩
    have hlen := congrArg List.length (hall.unique h.2.suffix)
    simp only [List.length_cons, List.length_append] at hlen
    omega

/-- The successor of an element is behind the first one. -/
theorem next_mem (h : Path next p (a :: l)) {c : β} (hc : c ∈ a :: l) (hb : next c = some b) :
    b ∈ l := by
  induction l generalizing p a with
  | nil =>
    rw [List.mem_singleton.mp hc, h.2] at hb
    cases hb
  | cons d l ih =>
    rcases List.mem_cons.mp hc with rfl | hc
    · rw [h.2.1] at hb
      cases hb
      exact List.mem_cons_self
    · exact List.mem_cons_of_mem _ (ih h.2 hc)

/-- The element without a successor is the last one. -/
theorem eq_concat (h : Path next p l) (ha : a ∈ l) (hnone : next a = none) :
    ∃ l', l = l' ++ [a] := by
  obtain ⟨l₁, l₂, rfl⟩ := List.append_of_mem ha
  have hrest := h.suffix.2
  rw [hnone] at hrest
  obtain rfl := hrest.eq_nil
  exact ⟨l₁, rfl⟩

/-- A new element behind the last one. -/
theorem concat [DecidableEq β] (h : Path next p (l ++ [a])) (hb : next b = none)
    (hnew : b ∉ l ++ [a]) : Path (Function.update next a (some b)) p (l ++ [a, b]) := by
  have hba : b ≠ a := fun hba => hnew (by simp [hba])
  induction l generalizing p with
  | nil =>
    refine ⟨h.1, ?_, ?_⟩
    · rw [Function.update_self]
    · rw [Function.update_of_ne hba]
      exact hb
  | cons c l ih =>
    refine ⟨h.1, ?_⟩
    have hca : c ≠ a := by
      rintro rfl
      exact (List.nodup_cons.mp h.nodup).1 (by simp)
    rw [Function.update_of_ne hca]
    exact ih h.2 fun hm => hnew (List.mem_cons_of_mem _ hm)

end Path

end LinkedList
