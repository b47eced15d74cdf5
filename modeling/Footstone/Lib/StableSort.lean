import Mathlib.Data.List.MinMax
import Mathlib.Data.List.Sort
import Mathlib.Data.List.Pairwise

/-!
Stable sorting by a key. A list sorted by one key is sorted by another one exactly
when the two keys agree, for any two elements, on whether the later one goes
before the earlier one.
-/

namespace StableSort

variable {α κ τ : Type*} [LinearOrder κ] [LinearOrder τ]

/-- `l'` is `l` sorted by `f`, with elements of one key in their old order. -/
structure IsStableSort (f : α → κ) (l l' : List α) : Prop where
  perm : l'.Perm l
  sorted : l'.Pairwise fun a b => f a ≤ f b
  stable : ∀ v, l'.filter (f · = v) = l.filter (f · = v)

theorem orderedInsert_congr {r s : α → α → Prop} [DecidableRel r] [DecidableRel s] {a : α}
    {l : List α} (h : ∀ b ∈ l, r a b ↔ s a b) : l.orderedInsert r a = l.orderedInsert s a := by
  induction l with
  | nil => rfl
  | cons b l ih =>
    rw [List.forall_mem_cons] at h
    simp only [List.orderedInsert_cons, h.1, ih h.2]

/-- Only the comparisons of an element with later ones matter. -/
theorem insertionSort_congr {r s : α → α → Prop} [DecidableRel r] [DecidableRel s] {l : List α}
    (h : l.Pairwise fun a b => r a b ↔ s a b) : l.insertionSort r = l.insertionSort s := by
  induction l with
  | nil => rfl
  | cons a l ih =>
    obtain ⟨ha, hl⟩ := List.pairwise_cons.mp h
    rw [List.insertionSort_cons, List.insertionSort_cons, ih hl]
    exact orderedInsert_congr fun b hb => ha b ((List.mem_insertionSort s).mp hb)

theorem filter_orderedInsert (f : α → κ) (v : κ) (a : α) (l : List α) :
    (l.orderedInsert (fun a b => f a ≤ f b) a).filter (f · = v) = (a :: l).filter (f · = v) := by
  induction l with
  | nil => rfl
  | cons b l ih =>
    rw [List.orderedInsert_cons]
    split
    · rfl
    · rename_i hlt
      rw [List.filter_cons, ih, List.filter_cons, List.filter_cons, List.filter_cons]
      by_cases hb : f b = v
      · -- `b` goes before `a` only with a smaller key.
        have ha : f a ≠ v := fun ha => hlt (by rw [ha, hb])
        simp [ha, hb]
      · simp [hb]

theorem isStableSort_insertionSort (f : α → κ) (l : List α) :
    IsStableSort f l (l.insertionSort fun a b => f a ≤ f b) where
  perm := List.perm_insertionSort _ l
  sorted := by
    have htotal : Std.Total fun a b => f a ≤ f b := ⟨fun a b => le_total (f a) (f b)⟩
    have htrans : IsTrans α fun a b => f a ≤ f b := ⟨fun _ _ _ => le_trans⟩
    exact List.pairwise_insertionSort _ l
  stable v := by
    induction l with
    | nil => rfl
    | cons a l ih => rw [List.insertionSort_cons, filter_orderedInsert, List.filter_cons, ih,
        List.filter_cons]

theorem pair_sublist {l : List α} {a b : α} (ha : a ∈ l) (hb : b ∈ l) (hne : a ≠ b) :
    [a, b].Sublist l ∨ [b, a].Sublist l := by
  induction l with
  | nil => cases ha
  | cons c l ih =>
    rcases List.mem_cons.mp ha with rfl | ha'
    · have hb' := (List.mem_cons.mp hb).resolve_left hne.symm
      exact Or.inl ((List.singleton_sublist.mpr hb').cons_cons a)
    · rcases List.mem_cons.mp hb with rfl | hb'
      · exact Or.inr ((List.singleton_sublist.mpr ha').cons_cons b)
      · exact (ih ha' hb').imp (·.cons c) (·.cons c)

theorem IsStableSort.le {f : α → κ} {l l' : List α} (h : IsStableSort f l l') {a b : α}
    (hab : [a, b].Sublist l') : f a ≤ f b := by
  have hpair := h.sorted.sublist hab
  rwa [List.pairwise_pair] at hpair

/-- Sorted by both keys, the keys agree on which pairs are turned round. -/
theorem IsStableSort.lt_of_lt {f : α → κ} {g : α → τ} {l l' : List α} (hf : IsStableSort f l l')
    (hg : IsStableSort g l l') {a b : α} (hab : [a, b].Sublist l) (h : f b < f a) : g b < g a := by
  have hne : a ≠ b := by
    rintro rfl
    exact lt_irrefl _ h
  have hnot : ¬ [a, b].Sublist l' := fun hs => absurd (hf.le hs) (not_le.mpr h)
  have ha : a ∈ l' := hf.perm.mem_iff.mpr (hab.subset (by simp))
  have hb : b ∈ l' := hf.perm.mem_iff.mpr (hab.subset (by simp))
  have hba : [b, a].Sublist l' := (pair_sublist ha hb hne).resolve_left hnot
  refine lt_of_le_of_ne (hg.le hba) fun he => hnot ?_
  -- With equal keys the two would have kept their order.
  have hkept := hab.filter (g · = g a)
  rw [← hg.stable (g a)] at hkept
  simp only [he, decide_true, List.filter_cons_of_pos, List.filter_nil] at hkept
  exact hkept.trans List.filter_sublist

/-- **Sorting by one key sorts by another** exactly when the keys agree on every pair. -/
theorem isStableSort_iff (f : α → κ) (g : α → τ) (l : List α) :
    IsStableSort g l (l.insertionSort fun a b => f a ≤ f b) ↔
      l.Pairwise fun a b => f b < f a ↔ g b < g a := by
  constructor
  · intro h
    have hf := isStableSort_insertionSort f l
    rw [List.pairwise_iff_forall_sublist]
    exact fun {a b} hab => ⟨hf.lt_of_lt h hab, h.lt_of_lt hf hab⟩
  · intro h
    have hle : l.Pairwise fun a b => f a ≤ f b ↔ g a ≤ g b :=
      h.imp fun {a b} hab => by rw [← not_lt, ← not_lt, hab]
    rw [insertionSort_congr hle]
    exact isStableSort_insertionSort g l

/-- The first of the least goes to the front. -/
theorem head?_insertionSort (f : α → κ) (l : List α) :
    (l.insertionSort fun a b => f a ≤ f b).head? = l.argmin f := by
  induction l with
  | nil => rfl
  | cons a l ih =>
    rw [List.insertionSort_cons, List.argmin_cons, ← ih]
    cases l.insertionSort fun a b => f a ≤ f b with
    | nil => rfl
    | cons b l' =>
      rw [List.orderedInsert_cons]
      by_cases h : f a ≤ f b
      · simp [h, not_lt.mpr h]
      · simp [h, not_le.mp h]

end StableSort
