import Mathlib.Data.List.Nodup
import Mathlib.Data.List.Range
import Mathlib.Logic.Function.Basic

/-!
Jobs that are queued and handed out. They are numbered as they come in; a place takes the
first one of the queue, begins it and ends it, and has one at a time. Nothing more is needed
for each to be begun once at most, and for all of them to be ended, once each, when the queue
is empty and so are all hands.
-/

namespace Jobs

variable {ω : Type*}

/-- What a place has. -/
inductive Hand where
  | empty
  | held (k : Nat)
  | begun (k : Nat)

def Hand.job? : Hand → Option Nat
  | .empty => none
  | .held k | .begun k => some k

structure Ledger (ω : Type*) where
  queue : List Nat := []
  /-- How many jobs came in. -/
  size : Nat := 0
  taken : List Nat := []
  begun : List Nat := []
  ended : List Nat := []
  hand : ω → Hand := fun _ => .empty

/-- What can be done with the jobs. -/
inductive Step [DecidableEq ω] (l : Ledger ω) : Ledger ω → Prop where
  | add : Step l { l with queue := l.queue ++ [l.size], size := l.size + 1 }
  | take {w : ω} {k : Nat} {rest : List Nat} (hq : l.queue = k :: rest) (hw : l.hand w = .empty) :
      Step l { l with
        queue := rest, taken := l.taken ++ [k], hand := Function.update l.hand w (.held k) }
  | begin {w : ω} {k : Nat} (hw : l.hand w = .held k) :
      Step l { l with begun := l.begun ++ [k], hand := Function.update l.hand w (.begun k) }
  | finish {w : ω} {k : Nat} (hw : l.hand w = .begun k) :
      Step l { l with ended := l.ended ++ [k], hand := Function.update l.hand w .empty }

/-- The jobs are where they should be. -/
structure Sound (l : Ledger ω) : Prop where
  order : l.taken ++ l.queue = List.range l.size
  begun_nodup : l.begun.Nodup
  ended_nodup : l.ended.Nodup
  begun_taken : ∀ k ∈ l.begun, k ∈ l.taken
  ended_begun : ∀ k ∈ l.ended, k ∈ l.begun
  held_hand : ∀ w k, l.hand w = .held k → k ∈ l.taken ∧ k ∉ l.begun
  begun_hand : ∀ w k, l.hand w = .begun k → k ∈ l.begun ∧ k ∉ l.ended
  unique : ∀ w w' k, (l.hand w).job? = some k → (l.hand w').job? = some k → w = w'
  found : ∀ k ∈ l.taken, k ∈ l.ended ∨ ∃ w, (l.hand w).job? = some k

theorem sound_empty : Sound ({} : Ledger ω) where
  order := rfl
  begun_nodup := List.nodup_nil
  ended_nodup := List.nodup_nil
  begun_taken := nofun
  ended_begun := nofun
  held_hand := nofun
  begun_hand := nofun
  unique := nofun
  found := nofun

namespace Sound

variable {l l' : Ledger ω} {w : ω} {k : Nat}

theorem job_taken (h : Sound l) (hw : (l.hand w).job? = some k) : k ∈ l.taken ∧ k ∉ l.ended := by
  rcases hhand : l.hand w with _ | j | j
  · rw [hhand] at hw
    cases hw
  · rw [hhand] at hw
    cases hw
    obtain ⟨htaken, hbegun⟩ := h.held_hand w k hhand
    exact ⟨htaken, fun hended => hbegun (h.ended_begun k hended)⟩
  · rw [hhand] at hw
    cases hw
    obtain ⟨hbegun, hended⟩ := h.begun_hand w k hhand
    exact ⟨h.begun_taken k hbegun, hended⟩

/-- The first job of the queue has not been taken. -/
theorem first_not_taken {rest : List Nat} (h : Sound l) (hq : l.queue = k :: rest) :
    k ∉ l.taken := by
  have hnodup : (l.taken ++ l.queue).Nodup := h.order ▸ List.nodup_range
  rw [hq] at hnodup
  intro hk
  exact (List.nodup_append.mp hnodup).2.2 k hk k List.mem_cons_self rfl

/-- Jobs are taken in the order in which they came in. -/
theorem taken_prefix (h : Sound l) : l.taken <+: List.range l.size := ⟨l.queue, h.order⟩

/-- A job is only in the hand of the place that has it. -/
theorem ne_of_hand {v : ω} {j : Nat} (h : Sound l) (hw : (l.hand w).job? = some k) (hne : v ≠ w)
    (hv : (l.hand v).job? = some j) : j ≠ k := by
  rintro rfl
  exact hne (h.unique v w j hv hw)

/-- **With nothing left to do**, every job was done once. -/
theorem ended_perm (h : Sound l) (hq : l.queue = []) (hhand : ∀ w, l.hand w = .empty) :
    l.ended.Perm (List.range l.size) := by
  have htaken : l.taken = List.range l.size := by
    rw [← h.order, hq, List.append_nil]
  apply (List.perm_ext_iff_of_nodup h.ended_nodup List.nodup_range).mpr
  intro k
  rw [← htaken]
  constructor
  · intro hk
    exact h.begun_taken k (h.ended_begun k hk)
  · intro hk
    refine (h.found k hk).resolve_right ?_
    rintro ⟨w, hw⟩
    rw [hhand w] at hw
    cases hw

theorem add (h : Sound l) : Sound { l with queue := l.queue ++ [l.size], size := l.size + 1 } where
  order := by
    show l.taken ++ (l.queue ++ [l.size]) = _
    rw [← List.append_assoc, h.order, List.range_succ]
  begun_nodup := h.begun_nodup
  ended_nodup := h.ended_nodup
  begun_taken := h.begun_taken
  ended_begun := h.ended_begun
  held_hand := h.held_hand
  begun_hand := h.begun_hand
  unique := h.unique
  found := h.found

variable [DecidableEq ω]

/-- What the other places have is in no hand twice, if the new one is in none of theirs. -/
theorem unique_update {hand : Hand} (h : Sound l)
    (hnew : ∀ w' j, hand.job? = some j → (l.hand w').job? = some j → w' = w) (v v' : ω) (j : Nat)
    (hv : (Function.update l.hand w hand v).job? = some j)
    (hv' : (Function.update l.hand w hand v').job? = some j) : v = v' := by
  rcases eq_or_ne v w with rfl | hne <;> rcases eq_or_ne v' v with rfl | hne'
  · rfl
  · rw [Function.update_self] at hv
    rw [Function.update_of_ne hne'] at hv'
    exact (hnew v' j hv hv').symm
  · rfl
  · rw [Function.update_of_ne hne] at hv
    rcases eq_or_ne v' w with rfl | hne''
    · rw [Function.update_self] at hv'
      exact hnew v j hv' hv
    · rw [Function.update_of_ne hne''] at hv'
      exact h.unique v v' j hv hv'

theorem take {rest : List Nat} (h : Sound l) (hq : l.queue = k :: rest)
    (hw : l.hand w = .empty) : Sound { l with
      queue := rest, taken := l.taken ++ [k], hand := Function.update l.hand w (.held k) } := by
  have hk := h.first_not_taken hq
  refine {
    order := ?_
    begun_nodup := h.begun_nodup
    ended_nodup := h.ended_nodup
    begun_taken := fun j hj => List.mem_append_left _ (h.begun_taken j hj)
    ended_begun := h.ended_begun
    held_hand := fun v j hv => ?_
    begun_hand := fun v j hv => ?_
    unique := h.unique_update ?_
    found := fun j hj => ?_ }
  · show l.taken ++ [k] ++ rest = _
    rw [List.append_assoc, ← h.order, hq]
    rfl
  · rcases eq_or_ne v w with rfl | hne
    · simp only [Function.update_self, Hand.held.injEq] at hv
      subst hv
      exact ⟨by simp, fun hbegun => hk (h.begun_taken _ hbegun)⟩
    · simp only [Function.update_of_ne hne] at hv
      obtain ⟨htaken, hbegun⟩ := h.held_hand v j hv
      exact ⟨List.mem_append_left _ htaken, hbegun⟩
  · rcases eq_or_ne v w with rfl | hne
    · simp at hv
    · simp only [Function.update_of_ne hne] at hv
      exact h.begun_hand v j hv
  · rintro v _ ⟨⟩ hv
    exact absurd (h.job_taken hv).1 hk
  · rcases List.mem_append.mp hj with hj | hj
    · refine (h.found j hj).imp_right fun ⟨v, hv⟩ => ⟨v, ?_⟩
      have hne : v ≠ w := by
        rintro rfl
        rw [hw] at hv
        cases hv
      simpa only [Function.update_of_ne hne] using hv
    · refine Or.inr ⟨w, ?_⟩
      rw [List.mem_singleton.mp hj]
      simp [Hand.job?]

theorem begin (h : Sound l) (hw : l.hand w = .held k) : Sound { l with
    begun := l.begun ++ [k], hand := Function.update l.hand w (.begun k) } := by
  have hjob : (l.hand w).job? = some k := by rw [hw]; rfl
  obtain ⟨hk, hnew⟩ := h.held_hand w k hw
  refine {
    order := h.order
    begun_nodup := by simpa using h.begun_nodup.concat hnew
    ended_nodup := h.ended_nodup
    begun_taken := fun j hj => ?_
    ended_begun := fun j hj => List.mem_append_left _ (h.ended_begun j hj)
    held_hand := fun v j hv => ?_
    begun_hand := fun v j hv => ?_
    unique := h.unique_update ?_
    found := fun j hj => (h.found j hj).imp_right fun ⟨v, hv⟩ => ⟨v, ?_⟩ }
  · rcases List.mem_append.mp hj with hj | hj
    · exact h.begun_taken j hj
    · exact List.mem_singleton.mp hj ▸ hk
  · rcases eq_or_ne v w with rfl | hne
    · simp at hv
    · simp only [Function.update_of_ne hne] at hv
      obtain ⟨htaken, hbegun⟩ := h.held_hand v j hv
      have hjk : j ≠ k := h.ne_of_hand hjob hne (by rw [hv]; rfl)
      exact ⟨htaken, by simp [hbegun, hjk]⟩
  · rcases eq_or_ne v w with rfl | hne
    · simp only [Function.update_self, Hand.begun.injEq] at hv
      subst hv
      exact ⟨by simp, (h.job_taken hjob).2⟩
    · simp only [Function.update_of_ne hne] at hv
      exact (h.begun_hand v j hv).imp_left (List.mem_append_left _)
  · rintro v _ ⟨⟩ hv
    exact h.unique v w k hv hjob
  · rcases eq_or_ne v w with rfl | hne
    · rw [hjob] at hv
      simpa [Hand.job?] using hv
    · simpa only [Function.update_of_ne hne] using hv

theorem finish (h : Sound l) (hw : l.hand w = .begun k) : Sound { l with
    ended := l.ended ++ [k], hand := Function.update l.hand w .empty } := by
  have hjob : (l.hand w).job? = some k := by rw [hw]; rfl
  obtain ⟨hk, hnew⟩ := h.begun_hand w k hw
  refine {
    order := h.order
    begun_nodup := h.begun_nodup
    ended_nodup := by simpa using h.ended_nodup.concat hnew
    begun_taken := h.begun_taken
    ended_begun := fun j hj => ?_
    held_hand := fun v j hv => ?_
    begun_hand := fun v j hv => ?_
    unique := h.unique_update nofun
    found := fun j hj => ?_ }
  · rcases List.mem_append.mp hj with hj | hj
    · exact h.ended_begun j hj
    · exact List.mem_singleton.mp hj ▸ hk
  · rcases eq_or_ne v w with rfl | hne
    · simp at hv
    · simp only [Function.update_of_ne hne] at hv
      exact h.held_hand v j hv
  · rcases eq_or_ne v w with rfl | hne
    · simp at hv
    · simp only [Function.update_of_ne hne] at hv
      obtain ⟨hbegun, hended⟩ := h.begun_hand v j hv
      have hjk : j ≠ k := h.ne_of_hand hjob hne (by rw [hv]; rfl)
      exact ⟨hbegun, by simp [hended, hjk]⟩
  · rcases h.found j hj with hj | ⟨v, hv⟩
    · exact Or.inl (List.mem_append_left _ hj)
    · rcases eq_or_ne v w with rfl | hne
      · rw [hjob] at hv
        exact Or.inl (by simp [Option.some.inj hv])
      · exact Or.inr ⟨v, by simpa only [Function.update_of_ne hne] using hv⟩

/-- **Every step** leaves them where they should be. -/
theorem step (h : Sound l) (hs : Step l l') : Sound l' := by
  cases hs with
  | add => exact h.add
  | take hq hw => exact h.take hq hw
  | begin hw => exact h.begin hw
  | finish hw => exact h.finish hw

end Sound

end Jobs
