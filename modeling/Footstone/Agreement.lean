import Footstone.MpmcCalls
import Footstone.SpscCalls

/-!
The same calls of `spsc_queue` and `mpmc_queue`. The latter compares the index behind the
one that it would write, and so holds one element less than `max_size`.
-/

namespace Footstone

open Runs Calls

/-- Both queues and what they have returned. -/
structure RingPair (α : Type) (w : Nat) where
  spsc : Spsc.Queue α w
  mpmc : Mpmc.Queue α w
  spscAnswers : List Bool := []
  mpmcAnswers : List Bool := []

/-- The call, where nothing fails for no reason. -/
def Mpmc.Call.toSpsc {α : Type} : Mpmc.Call α → Spsc.Call α
  | .push val _ => .push val
  | .pop _ => .pop

namespace RingPair

variable {α : Type} {w : Nat}

/-- The same call of both. -/
def step (s : RingPair α w) (c : Mpmc.Call α) : Except Unfinished (RingPair α w) := do
  let (spsc, a) ← s.spsc.call c.toSpsc
  let (mpmc, b) ← s.mpmc.call c
  return { spsc, mpmc, spscAnswers := s.spscAnswers ++ [a], mpmcAnswers := s.mpmcAnswers ++ [b] }

/-- They have returned the same and popped the same values. -/
structure Agree (s : RingPair α w) : Prop where
  answers : s.spscAnswers = s.mpmcAnswers
  popped : s.spsc.popped = s.mpmc.popped.map (Option.map Prod.fst)

/-- No push when only one more element fits. -/
def BelowLast (s : RingPair α w) : Mpmc.Call α → Prop
  | .push .. => s.spsc.held + 1 < s.spsc.maxSize
  | .pop _ => True

instance (s : RingPair α w) : (c : Mpmc.Call α) → Decidable (s.BelowLast c)
  | .push .. => inferInstanceAs (Decidable (s.spsc.held + 1 < s.spsc.maxSize))
  | .pop _ => isTrue trivial

/-- Two queues with the same values. -/
structure Level (maxSize : Nat) (s : RingPair α w) : Prop where
  spsc : s.spsc.Rest
  mpmc : s.mpmc.Rest
  spscSize : s.spsc.maxSize = maxSize
  mpmcSize : s.mpmc.maxSize = maxSize
  items : s.spsc.items = s.mpmc.items

variable {s s' : RingPair α w} {maxSize : Nat}

theorem Level.held_eq (h : s.Level maxSize) : s.spsc.held = s.mpmc.held := by
  rw [Spsc.Queue.held_eq, h.items, ← Mpmc.Queue.held_eq]

/-- There is room for one more than `mpmc_queue` takes. -/
theorem Level.held_lt (h : s.Level maxSize) (hpos : 1 ≤ maxSize) : s.spsc.held < maxSize := by
  have hbound := h.mpmc.bound
  rw [h.mpmcSize, ← h.held_eq] at hbound
  omega

theorem Level.not_refuses (h : s.Level maxSize) (hpos : 1 ≤ maxSize)
    (hmax : maxSize ≤ (sizeLimit w).toNat) : ¬ s.spsc.Refuses := by
  have hlt := h.held_lt hpos
  have hover : ¬ s.spsc.Overrun := fun ho => absurd ho.2.1 (by rw [h.spscSize]; omega)
  rw [h.spsc.refuses_iff hover, Spsc.Queue.capacity, h.spscSize]
  omega

theorem Level.room_iff (h : s.Level maxSize) (hmax : maxSize ≤ (sizeLimit w).toNat) :
    s.mpmc.Room ↔ s.spsc.held + 1 < maxSize := by
  rw [h.mpmc.room_iff, h.mpmcSize, ← h.held_eq]
  rw [Spsc.Queue.sizeLimit_toNat] at hmax
  omega

theorem step_inv {c : Mpmc.Call α} (h : s.step c = .ok s') :
    ∃ spsc a mpmc b, s.spsc.call c.toSpsc = .ok (spsc, a) ∧ s.mpmc.call c = .ok (mpmc, b) ∧
      s' = { spsc, mpmc, spscAnswers := s.spscAnswers ++ [a],
             mpmcAnswers := s.mpmcAnswers ++ [b] } := by
  obtain ⟨⟨spsc, a⟩, ha, h⟩ := bind_eq_ok.mp h
  obtain ⟨⟨mpmc, b⟩, hb, h⟩ := bind_eq_ok.mp h
  cases h
  exact ⟨spsc, a, mpmc, b, ha, hb, rfl⟩

/-- The same push agrees when there is room in both, and goes on from the same values. -/
theorem Level.push (hw : w < 64) (h : s.Level maxSize) (hpos : 1 ≤ maxSize)
    (hmax : maxSize ≤ (sizeLimit w).toNat) {val : α} {oks : List Bool} (hagree : s.Agree)
    (hs : s.step (.push val oks) = .ok s') :
    (s'.Agree ↔ s.spsc.held + 1 < maxSize) ∧ (s.spsc.held + 1 < maxSize → s'.Level maxSize) := by
  obtain ⟨spsc, a, mpmc, b, ha, hb, rfl⟩ := step_inv hs
  have hrefuses := h.not_refuses hpos hmax
  have hover : ¬ s.spsc.Overrun := fun ho => absurd ho.2.1 (by rw [h.spscSize]; omega)
  have hspsc := h.spsc.pushed hover val
  have hmpmc := h.mpmc.pushed hw val
  rw [Mpmc.Call.toSpsc, Spsc.Queue.call_push, Spsc.Queue.pushed, if_neg hrefuses] at ha
  have hpush := h.mpmc.call_push hw hb
  rw [Spsc.Queue.pushed, if_neg hrefuses] at hspsc
  cases ha
  by_cases hroom : s.spsc.held + 1 < maxSize
  · rw [Mpmc.Queue.pushed, if_pos ((h.room_iff hmax).mpr hroom)] at hpush hmpmc
    cases hpush
    refine ⟨iff_of_true ⟨by simp [hagree.answers], hagree.popped⟩ hroom, fun _ => ?_⟩
    refine ⟨hspsc, hmpmc, h.spscSize, h.mpmcSize, ?_⟩
    rw [h.mpmc.items_filled, ← h.items]
    exact Spsc.Queue.items_publish h.spsc.le _ _
  · rw [Mpmc.Queue.pushed, if_neg (mt (h.room_iff hmax).mp hroom)] at hpush
    cases hpush
    refine ⟨iff_of_false (fun hagree' => ?_) hroom, fun hroom' => absurd hroom' hroom⟩
    have hanswers := hagree'.answers
    rw [hagree.answers] at hanswers
    simp at hanswers

/-- The same pop agrees, and goes on from the same values. -/
theorem Level.pop (hw : w < 64) (h : s.Level maxSize) {oks : List Bool} (hagree : s.Agree)
    (hs : s.step (.pop oks) = .ok s') : s'.Agree ∧ s'.Level maxSize := by
  obtain ⟨spsc, a, mpmc, b, ha, hb, rfl⟩ := step_inv hs
  have hspsc := h.spsc.drained
  have hmpmc := h.mpmc.drained
  have hpop := h.mpmc.call_pop hw hb
  rw [Mpmc.Call.toSpsc, Spsc.Queue.call_pop] at ha
  rcases hitems : s.spsc.items with _ | ⟨x, xs⟩
  · rw [h.spsc.drained_nil hitems] at ha hspsc
    rw [h.mpmc.drained_nil (h.items.symm.trans hitems)] at hpop hmpmc
    cases ha
    cases hpop
    refine ⟨⟨by simp [hagree.answers], ?_⟩, hspsc, hmpmc, h.spscSize, h.mpmcSize, ?_⟩
    · rw [Mpmc.Queue.popped_refuse]
      exact hagree.popped
    · rw [Mpmc.Queue.items_refuse]
      exact h.items
  · have hitems' := h.items.symm.trans hitems
    rw [h.spsc.drained_cons hitems] at ha hspsc
    rw [h.mpmc.drained_cons hitems'] at hpop hmpmc
    cases ha
    cases hpop
    refine ⟨⟨by simp [hagree.answers], ?_⟩, hspsc, hmpmc, h.spscSize, h.mpmcSize, ?_⟩
    · rw [Mpmc.Queue.popped_take, List.map_append, ← hagree.popped]
      rfl
    · rw [Spsc.Queue.items_take hitems, Mpmc.Queue.items_take hitems']

end RingPair

end Footstone
