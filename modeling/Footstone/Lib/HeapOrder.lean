import Mathlib.Data.List.Sort
import Mathlib.Order.Defs.LinearOrder

/-!
The contract of a priority queue kept as a heap in a vector, smallest key on top:
the top is the front of the vector, `push` appends and sifts, `pop` removes the
front. How the rest is arranged, and which of several smallest entries is on
top, is left to the implementation.
-/

namespace HeapOrder

/-- A heap discipline on vectors. `IsHeap` says which arrangements it produces. -/
structure Discipline (α : Type*) {κ : Type*} [LE κ] (key : α → κ) where
  push : List α → α → List α
  pop : List α → List α
  IsHeap : List α → Prop
  isHeap_nil : IsHeap []
  isHeap_push : ∀ {c : List α} (a : α), IsHeap c → IsHeap (push c a)
  isHeap_pop : ∀ {c : List α}, IsHeap c → IsHeap (pop c)
  push_perm : ∀ {c : List α} (a : α), IsHeap c → (push c a).Perm (a :: c)
  pop_perm : ∀ {a : α} {c : List α}, IsHeap (a :: c) → (pop (a :: c)).Perm c
  front_le : ∀ {a : α} {c : List α}, IsHeap (a :: c) → ∀ b ∈ c, key a ≤ key b

/-- Whether a vector is a heap is a matter of the keys: the front may be replaced by another entry
with its key. -/
def Discipline.ByKey {α κ : Type*} [LE κ] {key : α → κ} (D : Discipline α key) : Prop :=
  ∀ ⦃a b : α⦄ ⦃c : List α⦄, key a = key b → D.IsHeap (a :: c) → D.IsHeap (b :: c)

/-- The simplest discipline: a vector sorted by key. -/
def sorted (α : Type*) {κ : Type*} [LinearOrder κ] (key : α → κ) : Discipline α key where
  push c a := c.orderedInsert (fun x y => key x ≤ key y) a
  pop := List.tail
  IsHeap c := c.Pairwise fun x y => key x ≤ key y
  isHeap_nil := .nil
  isHeap_push a h :=
    haveI : Std.Total fun x y : α => key x ≤ key y := ⟨fun _ _ => le_total _ _⟩
    haveI : IsTrans α fun x y => key x ≤ key y := ⟨fun _ _ _ => le_trans⟩
    List.Pairwise.orderedInsert a _ h
  isHeap_pop h := h.tail
  push_perm a _ := List.perm_orderedInsert _ a _
  pop_perm _ := .refl _
  front_le h _ hb := List.rel_of_pairwise_cons h hb

theorem sorted_byKey {α κ : Type*} [LinearOrder κ] {key : α → κ} : (sorted α key).ByKey := by
  intro a b c hkey h
  obtain ⟨ha, hc⟩ := List.pairwise_cons.mp h
  exact List.pairwise_cons.mpr ⟨fun x hx => hkey ▸ ha x hx, hc⟩

end HeapOrder
