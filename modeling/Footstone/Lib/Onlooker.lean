import Footstone.Lib.Runs
import Mathlib.Data.Fintype.Basic
import Mathlib.Logic.Function.Basic

/-!
Calls that only look. A system takes its steps, and next to it any number of onlookers make calls
that read its state by several accesses and change nothing. What such a call returns is about
a property of the state; it is honest when the property was so at some moment of the call.
-/

namespace Onlooker

variable {ι σ α ε π : Type*}

/-- A call that looks: where it starts, and the accesses it makes. An access through a null
pointer is none. -/
structure Reader (σ π : Type*) where
  start : π
  access : σ → π → Option (π ⊕ Bool)

/-- Whether a property was true at some moment, and whether it was false at some moment. -/
structure Seen where
  yes : Bool
  no : Bool
  deriving DecidableEq

namespace Seen

/-- At the first moment. -/
def first (b : Bool) : Seen := ⟨b, !b⟩

/-- One moment more. -/
def more (b : Bool) (v : Seen) : Seen := ⟨v.yes || b, v.no || !b⟩

/-- It was what the call has returned. -/
def Honest (ret : Bool) (v : Seen) : Prop := if ret then v.yes = true else v.no = true

instance (ret : Bool) (v : Seen) : Decidable (v.Honest ret) :=
  inferInstanceAs (Decidable (if ret then _ else _))

variable {b : Bool} {v : Seen}

@[simp] theorem yes_first : (first b).yes = b := rfl

@[simp] theorem no_first : (first b).no = !b := rfl

@[simp] theorem yes_more : (v.more b).yes = (v.yes || b) := rfl

@[simp] theorem no_more : (v.more b).no = (v.no || !b) := rfl

/-- The property is `b` now, and that is one of the moments. -/
def Up (b : Bool) (v : Seen) : Prop := if b then v.yes = true else v.no = true

theorem up_first : (first b).Up b := by
  cases b <;> rfl

theorem up_more : (v.more b).Up b := by
  cases b <;> simp [Up]

end Seen

/-- A call under way. -/
structure Look (π : Type*) where
  pc : π
  seen : Seen

/-- The system and its onlookers, with the answers they have got. -/
structure System (ι σ π : Type*) where
  inner : σ
  look : ι → Option (Look π) := fun _ => none
  answers : List (Bool × Seen) := []

inductive Op (ι α : Type*) where
  | step (a : α)
  | make (i : ι)
  | access (i : ι)

inductive Fault (ε : Type*) where
  | inner (e : ε)
  | busy
  | idle
  | null
  deriving DecidableEq

namespace System

variable [DecidableEq ι] (f : σ → α → Except ε σ) (C : Reader σ π) (P : σ → Bool)

/-- The system is in the state `s'`, and everybody sees that. -/
def move (s' : σ) (s : System ι σ π) : System ι σ π :=
  { s with
    inner := s'
    look := fun i => (s.look i).map fun l => { l with seen := l.seen.more (P s') } }

def put (i : ι) (l : Option (Look π)) (s : System ι σ π) : System ι σ π :=
  { s with look := Function.update s.look i l }

def answer (ret : Bool) (v : Seen) (s : System ι σ π) : System ι σ π :=
  { s with answers := s.answers ++ [(ret, v)] }

def step (s : System ι σ π) : Op ι α → Except (Fault ε) (System ι σ π)
  | .step a =>
    match f s.inner a with
    | .ok s' => .ok (s.move P s')
    | .error e => .error (.inner e)
  | .make i =>
    match s.look i with
    | some _ => .error .busy
    | none => .ok (s.put i (some ⟨C.start, .first (P s.inner)⟩))
  | .access i =>
    match s.look i with
    | none => .error .idle
    | some l =>
      match C.access s.inner l.pc with
      | none => .error .null
      | some (.inl pc) => .ok (s.put i (some { l with pc := pc }))
      | some (.inr ret) => .ok ((s.put i none).answer ret l.seen)

/-- The steps of the system are under `cond`, and those next to a call at the place `pc` are
also under `calm`. -/
def Calm (cond : σ → α → Prop) (calm : π → σ → α → Prop) (s : System ι σ π) : Op ι α → Prop
  | .step a => cond s.inner a ∧ ∀ i, ∀ l ∈ s.look i, calm l.pc s.inner a
  | _ => True

instance [Fintype ι] (cond : σ → α → Prop) (calm : π → σ → α → Prop)
    [∀ (s : σ) (a : α), Decidable (cond s a)]
    [∀ (p : π) (s : σ) (a : α), Decidable (calm p s a)] (s : System ι σ π)
    (op : Op ι α) : Decidable (s.Calm cond calm op) :=
  match op with
  | .step a =>
    inferInstanceAs (Decidable (cond s.inner a ∧ ∀ i, ∀ l ∈ s.look i, calm l.pc s.inner a))
  | .make _ => isTrue trivial
  | .access _ => isTrue trivial

end System

/-- What there is to show of a call that looks: `I` is kept by the system, and `K` is what the
call knows at its places. -/
structure Knows (f : σ → α → Except ε σ) (C : Reader σ π) (P : σ → Bool)
    (cond : σ → α → Prop) (calm : π → σ → α → Prop) (I : σ → Prop)
    (K : σ → π → Seen → Prop) : Prop where
  inner : ∀ {s a s'}, I s → cond s a → f s a = .ok s' → I s'
  start : ∀ {s v}, I s → v.Up (P s) → K s C.start v
  step : ∀ {s a s' pc v}, I s → cond s a → calm pc s a → f s a = .ok s' → v.Up (P s) →
    K s pc v → K s' pc (v.more (P s'))
  access : ∀ {s pc v}, I s → v.Up (P s) → K s pc v → C.access s pc ≠ none
  go : ∀ {s pc pc' v}, I s → v.Up (P s) → K s pc v → C.access s pc = some (.inl pc') → K s pc' v
  ret : ∀ {s pc ret v}, I s → v.Up (P s) → K s pc v → C.access s pc = some (.inr ret) →
    v.Honest ret

namespace System

variable {f : σ → α → Except ε σ} {C : Reader σ π} {P : σ → Bool} {cond : σ → α → Prop}
  {calm : π → σ → α → Prop} {I : σ → Prop} {K : σ → π → Seen → Prop} {s s' : System ι σ π}

/-- What all calls know, and the answers there were. -/
structure Inv (P : σ → Bool) (I : σ → Prop) (K : σ → π → Seen → Prop) (s : System ι σ π) :
    Prop where
  inner : I s.inner
  look : ∀ i, ∀ l ∈ s.look i, l.seen.Up (P s.inner) ∧ K s.inner l.pc l.seen
  answers : ∀ a ∈ s.answers, a.2.Honest a.1

theorem Inv.answer (h : s.Inv P I K) {ret : Bool} {v : Seen} (hv : v.Honest ret) :
    (s.answer ret v).Inv P I K := by
  refine ⟨h.inner, h.look, fun a ha => ?_⟩
  rcases List.mem_append.mp ha with ha | ha
  · exact h.answers a ha
  · obtain rfl := List.mem_singleton.mp ha
    exact hv

theorem Inv.move (hk : Knows f C P cond calm I K) (h : s.Inv P I K) {a : α} {t : σ}
    (hc : cond s.inner a) (hcalm : ∀ i, ∀ l ∈ s.look i, calm l.pc s.inner a)
    (hs : f s.inner a = .ok t) : (s.move P t).Inv P I K := by
  refine ⟨hk.inner h.inner hc hs, fun i l hl => ?_, h.answers⟩
  obtain ⟨l', hl', rfl⟩ := Option.map_eq_some_iff.mp (show (s.look i).map _ = some l from hl)
  obtain ⟨hup, hknow⟩ := h.look i l' hl'
  exact ⟨Seen.up_more, hk.step h.inner hc (hcalm i l' hl') hs hup hknow⟩

variable [DecidableEq ι]

theorem Inv.put (h : s.Inv P I K) (i : ι) {l? : Option (Look π)}
    (hl : ∀ l ∈ l?, l.seen.Up (P s.inner) ∧ K s.inner l.pc l.seen) : (s.put i l?).Inv P I K := by
  refine ⟨h.inner, fun j l hj => ?_, h.answers⟩
  have hj : Function.update s.look i l? j = some l := hj
  by_cases hji : j = i
  · subst hji
    rw [Function.update_self] at hj
    exact hl l hj
  · rw [Function.update_of_ne hji] at hj
    exact h.look j l hj

/-- **One step**, of the system or of a call. -/
theorem Inv.step (hk : Knows f C P cond calm I K) (h : s.Inv P I K) {op : Op ι α}
    (hc : s.Calm cond calm op) (hs : s.step f C P op = .ok s') : s'.Inv P I K := by
  cases op with
  | step a =>
    simp only [System.step] at hs
    split at hs
    · rename_i t ht
      cases hs
      exact h.move hk hc.1 hc.2 ht
    · cases hs
  | make i =>
    simp only [System.step] at hs
    split at hs
    · cases hs
    · cases hs
      apply h.put i
      rintro _ ⟨⟩
      exact ⟨Seen.up_first, hk.start h.inner Seen.up_first⟩
  | access i =>
    simp only [System.step] at hs
    split at hs
    · cases hs
    · rename_i l hl
      obtain ⟨hup, hknow⟩ := h.look i l hl
      split at hs
      · cases hs
      · rename_i pc hacc
        cases hs
        apply h.put i
        rintro _ ⟨⟩
        exact ⟨hup, hk.go h.inner hup hknow hacc⟩
      · rename_i ret hacc
        cases hs
        have hput : (s.put i none).Inv P I K := h.put i fun _ hnone =>
          absurd hnone (Option.not_mem_none _)
        exact hput.answer (hk.ret h.inner hup hknow hacc)

/-- A call that knows where it goes goes through no null pointer. -/
theorem Inv.not_null (hk : Knows f C P cond calm I K) (h : s.Inv P I K) (op : Op ι α) :
    s.step f C P op ≠ .error .null := by
  cases op with
  | step a =>
    simp only [System.step]
    split <;> simp
  | make i =>
    simp only [System.step]
    split <;> simp
  | access i =>
    simp only [System.step]
    split
    · simp
    · rename_i l hl
      obtain ⟨hup, hknow⟩ := h.look i l hl
      split
      · rename_i hnone
        exact absurd hnone (hk.access h.inner hup hknow)
      · simp
      · simp

/-- Every answer was so at some moment of its call, and no call goes through a null pointer. -/
structure Truthful (f : σ → α → Except ε σ) (C : Reader σ π) (P : σ → Bool)
    (s : System ι σ π) : Prop where
  honest : ∀ a ∈ s.answers, a.2.Honest a.1
  not_null : ∀ i, s.step f C P (.access i) ≠ .error .null

/-- The system, which nobody watches yet. -/
def new (ι π : Type*) (s : σ) : System ι σ π := { inner := s }

/-- **The rule for calls that look.** -/
theorem always_truthful (hk : Knows f C P cond calm I K) {s : σ} (hs : I s) {ops : List (Op ι α)}
    (hc : Runs.Meets (step f C P) (Calm cond calm) (new ι π s) ops) :
    Runs.Always (step f C P) (fun t => t.Truthful f C P ∧ I t.inner) (new ι π s) ops := by
  have hstep : ∀ (s : System ι σ π) (op : Op ι α) s', True → s.Inv P I K → s.Calm cond calm op →
      s.step f C P op = .ok s' → s'.Inv P I K := fun s op s' _ h hc hs => h.step hk hc hs
  have hnew : (new ι π s).Inv P I K := ⟨hs, nofun, nofun⟩
  exact Runs.always_of_meets (A := fun _ => True) hstep
    (fun s h => ⟨⟨h.answers, fun i => h.not_null hk (.access i)⟩, h.inner⟩) (fun _ _ => trivial)
    hnew hc

end System

end Onlooker
