import Footstone.Lib.Onlooker
import Footstone.Lib.Ring

/-!
Calls that compare the two ends of a ring. The ends are indices of `w` bits, each behind a
counter that never wraps, and they are read one after the other, in either order.
-/

namespace RingEnds

open Onlooker Ring

variable {σ α ε : Type*} {w : Nat}

/-- The ends of the ring, `back` and `front` being the counters. -/
structure Ends (σ : Type*) (w : Nat) where
  tail : σ → BitVec w
  head : σ → BitVec w
  back : σ → Nat
  front : σ → Nat

/-- Which end is read first. -/
inductive Order where
  | tailFirst
  | headFirst
  deriving DecidableEq

/-- The places in a comparison. The counter behind the index that was read stands next to it. -/
inductive Pc (w : Nat) where
  | first
  | second (id : BitVec w) (count : Nat)

namespace Ends

variable (E : Ends σ w)

/-- The counters are equal. -/
def level (s : σ) : Bool := E.back s = E.front s

/-- The comparison. -/
def compare : Order → Reader σ (Pc w)
  | .tailFirst => {
      start := .first
      access s pc :=
        match pc with
        | .first => some (.inl (.second (E.tail s) (E.back s)))
        | .second id _ => some (.inr (id == E.head s)) }
  | .headFirst => {
      start := .first
      access s pc :=
        match pc with
        | .first => some (.inl (.second (E.head s) (E.front s)))
        | .second id _ => some (.inr (E.tail s == id)) }

/-- What has been read first is less than a round behind the other end. Where that is the head,
it moves on only when all has been taken that was there. -/
def Apart : Order → Nat → σ → σ → Prop
  | .tailFirst, n, _, s' => E.front s' < n + 2 ^ w
  | .headFirst, n, s, s' =>
    E.back s' < n + 2 ^ w ∧ (E.front s' = E.front s ∨ n ≤ E.back s)

instance (o : Order) (n : Nat) (s s' : σ) : Decidable (E.Apart o n s s') :=
  match o with
  | .tailFirst => inferInstanceAs (Decidable (E.front s' < n + 2 ^ w))
  | .headFirst => inferInstanceAs (Decidable (_ ∧ _))

/-- The condition on a step next to a comparison. -/
def Calm (f : σ → α → Except ε σ) (o : Order) : Pc w → σ → α → Prop
  | .second _ n, s, a =>
    match f s a with
    | .ok s' => E.Apart o n s s'
    | .error _ => True
  | .first, _, _ => True

instance (f : σ → α → Except ε σ) (o : Order) (pc : Pc w) (s : σ) (a : α) :
    Decidable (E.Calm f o pc s a) := by
  unfold Calm
  split
  · split <;> infer_instance
  · infer_instance

/-- What the system owes: the indices are those of the counters, which are less than a round
apart, and a step moves one of them on by one at most. -/
structure Kept (f : σ → α → Except ε σ) (cond : σ → α → Prop) (I : σ → Prop) : Prop where
  inner : ∀ {s a s'}, I s → cond s a → f s a = .ok s' → I s'
  tail : ∀ {s}, I s → E.tail s = pos w (E.back s)
  head : ∀ {s}, I s → E.head s = pos w (E.front s)
  le : ∀ {s}, I s → E.back s ≤ E.front s
  lt : ∀ {s}, I s → E.front s < E.back s + 2 ^ w
  step : ∀ {s a s'}, I s → cond s a → f s a = .ok s' →
    (E.back s' = E.back s ∧ (E.front s' = E.front s ∨ E.front s' = E.front s + 1)) ∨
      (E.back s' = E.back s + 1 ∧ E.front s' = E.front s)

/-- What a comparison knows after its first read. -/
def Knows : Order → σ → Pc w → Seen → Prop
  | _, _, .first, _ => True
  | .tailFirst, s, .second id n, v => id = pos w n ∧ n ≤ E.back s ∧ E.front s < n + 2 ^ w ∧
      (n < E.front s → v.no = true)
  | .headFirst, s, .second id n, v => id = pos w n ∧ n ≤ E.front s ∧ E.back s < n + 2 ^ w ∧
      (E.front s = n ∨ n ≤ E.back s) ∧ (E.back s = n → v.yes = true) ∧
      (n < E.back s → v.no = true)

variable {E} {f : σ → α → Except ε σ} {cond : σ → α → Prop} {I : σ → Prop} {s s' : σ} {a : α}
  {id : BitVec w} {n : Nat} {v : Seen}

theorem yes_of_level (hup : v.Up (E.level s)) (h : E.back s = E.front s) : v.yes = true := by
  have hlevel : E.level s = true := decide_eq_true h
  rw [hlevel] at hup
  exact hup

theorem no_of_lt (hup : v.Up (E.level s)) (h : E.back s < E.front s) : v.no = true := by
  have hlevel : E.level s = false := decide_eq_false h.ne
  rw [hlevel] at hup
  exact hup

/-- What was so at an earlier moment was so. -/
theorem yes_more (b : Bool) (h : v.yes = true) : (v.more b).yes = true := by
  rw [Seen.yes_more, h, Bool.true_or]

theorem no_more (b : Bool) (h : v.no = true) : (v.more b).no = true := by
  rw [Seen.no_more, h, Bool.true_or]

/-- **A step next to a comparison** that has read the tail. -/
theorem Kept.tailFirst (h : E.Kept f cond I) (hs : I s) (hc : cond s a)
    (hapart : E.Apart .tailFirst n s s') (hstep : f s a = .ok s')
    (hk : E.Knows .tailFirst s (.second id n) v) :
    E.Knows .tailFirst s' (.second id n) (v.more (E.level s')) := by
  obtain ⟨hid, hback, hfront, hno⟩ := hk
  have hle := h.le hs
  have hmove := h.step hs hc hstep
  have hup : (v.more (E.level s')).Up (E.level s') := Seen.up_more
  refine ⟨hid, by omega, hapart, fun hlt => ?_⟩
  by_cases hold : n < E.front s
  · exact no_more _ (hno hold)
  · -- The ends were level, and the head is the one that has moved.
    exact no_of_lt hup (by omega)

/-- **A step next to a comparison** that has read the head. -/
theorem Kept.headFirst (h : E.Kept f cond I) (hs : I s) (hc : cond s a)
    (hapart : E.Apart .headFirst n s s') (hstep : f s a = .ok s') (hup : v.Up (E.level s))
    (hk : E.Knows .headFirst s (.second id n) v) :
    E.Knows .headFirst s' (.second id n) (v.more (E.level s')) := by
  obtain ⟨hid, hfront, hback, hsame, hyes, hno⟩ := hk
  obtain ⟨hround, hmoves⟩ := hapart
  have hle := h.le hs
  have hle' := h.le (h.inner hs hc hstep)
  have hmove := h.step hs hc hstep
  have hup' : (v.more (E.level s')).Up (E.level s') := Seen.up_more
  refine ⟨hid, by omega, hround, by omega, fun heq => ?_, fun hlt => ?_⟩
  · by_cases hold : E.back s = n
    · exact yes_more _ (hyes hold)
    · exact yes_of_level hup' (by omega)
  · by_cases hold : n < E.back s
    · exact no_more _ (hno hold)
    · -- The tail passes what was read, so there was something to take.
      exact no_more _ (no_of_lt hup (by omega))

/-- **What a comparison knows**, in either order. -/
theorem Kept.knows (h : E.Kept f cond I) (o : Order) :
    Onlooker.Knows f (E.compare o) E.level cond (E.Calm f o) I (E.Knows o) where
  inner := h.inner
  start _ _ := by cases o <;> trivial
  step := by
    intro s a s' pc v hs hc hcalm hstep hup hk
    cases pc with
    | first => cases o <;> trivial
    | second id n =>
      have hapart : E.Apart o n s s' := by
        simpa only [Calm, hstep] using hcalm
      cases o with
      | tailFirst => exact h.tailFirst hs hc hapart hstep hk
      | headFirst => exact h.headFirst hs hc hapart hstep hup hk
  access := by
    intro s pc v _ _ _
    cases o <;> cases pc <;> exact nofun
  go := by
    intro s pc pc' v hs hup _ hacc
    have hle := h.le hs
    have hlt := h.lt hs
    cases pc with
    | second id n => cases o <;> cases hacc
    | first =>
      cases o with
      | tailFirst =>
        cases hacc
        exact ⟨h.tail hs, le_rfl, hlt, no_of_lt hup⟩
      | headFirst =>
        cases hacc
        exact ⟨h.head hs, le_rfl, by omega, Or.inl rfl, yes_of_level hup, by omega⟩
  ret := by
    intro s pc ret v hs hup hk hacc
    have hle := h.le hs
    have hlt := h.lt hs
    cases pc with
    | first => cases o <;> cases hacc
    | second id n =>
      cases o with
      | tailFirst =>
        obtain ⟨rfl, hback, hfront, hno⟩ := hk
        have hret : (pos w n == E.head s) = ret := Sum.inr.inj (Option.some.inj hacc)
        have hiff : pos w n = pos w (E.front s) ↔ n = E.front s :=
          pos_inj (t := n) le_rfl (by omega) (by omega) hfront
        rw [h.head hs] at hret
        cases ret with
        | true => exact yes_of_level hup (by have := hiff.mp (eq_of_beq hret); omega)
        | false =>
          have hne := mt hiff.mpr (ne_of_beq_false hret)
          exact hno (by omega)
      | headFirst =>
        obtain ⟨rfl, hfront, hback, hsame, hyes, hno⟩ := hk
        have hret : (E.tail s == pos w n) = ret := Sum.inr.inj (Option.some.inj hacc)
        rw [h.tail hs] at hret
        have hiff : pos w (E.back s) = pos w n ↔ E.back s = n := by
          rcases Nat.le_total (E.back s) n with hbn | hnb
          · exact pos_inj (t := E.back s) le_rfl (by omega) hbn (by omega)
          · exact pos_inj (t := n) hnb hback le_rfl (by omega)
        cases ret with
        | true => exact hyes (hiff.mp (eq_of_beq hret))
        | false =>
          have hne := mt hiff.mpr (ne_of_beq_false hret)
          rcases Nat.lt_or_gt_of_ne hne with hbn | hnb
          · exact no_of_lt hup (by omega)
          · exact hno hnb

end Ends

end RingEnds
