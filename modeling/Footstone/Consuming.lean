import Footstone.Lib.Jobs
import Footstone.Lib.Variant

/-!
`consume_one` and `consume_all` of `thread_safe_queue` (`thread_safe_queue.h`) on any number of
threads. What a `push` or a `pop` does with the mutex is one step here, and so are the start and
the end of what the functor does, for which no mutex is held. Elements are numbered as they are
accepted.
-/

namespace Footstone

namespace Consuming

/-- Where a thread is; `all` is a `consume_all`, with the `element_count` it has got to. -/
inductive ConsumerPc where
  | idle
  | popping (all : Bool) (count : Nat)
  /-- With an element that it has popped. -/
  | holding (all : Bool) (count : Nat) (element : Nat)
  | consuming (all : Bool) (count : Nat) (element : Nat)

/-- The queue and the threads that consume from it. The last four fields are not in the source. -/
structure System (τ : Type) where
  maxCount : Nat
  queue : List Nat := []
  consumer : τ → ConsumerPc := fun _ => .idle
  /-- How many elements were accepted. -/
  size : Nat := 0
  taken : List Nat := []
  begun : List Nat := []
  ended : List Nat := []
  /-- How many elements the calls that have returned say they have consumed. -/
  counted : Nat := 0

inductive Op (τ : Type) where
  | push
  | call (t : τ) (all : Bool)
  | pop (t : τ)
  | begin (t : τ)
  | finish (t : τ)

/-- Why a step is none: the thread is not there. -/
inductive Fault where
  | elsewhere

/-- What a thread has of the job that an element is. -/
def ConsumerPc.hand : ConsumerPc → Jobs.Hand
  | .idle | .popping .. => .empty
  | .holding _ _ k => .held k
  | .consuming _ _ k => .begun k

/-- What a thread has counted in a call that is not over. -/
def ConsumerPc.count : ConsumerPc → Nat
  | .idle => 0
  | .popping _ n | .holding _ n _ | .consuming _ n _ => n

/-- How many steps a thread has to the end of its call or to its next `pop`. -/
def ConsumerPc.weight : ConsumerPc → Nat
  | .idle => 0
  | .popping .. => 1
  | .consuming .. => 2
  | .holding .. => 3

namespace System

variable {τ : Type} [DecidableEq τ]

def goTo (t : τ) (pc : ConsumerPc) (s : System τ) : System τ :=
  { s with consumer := Function.update s.consumer t pc }

def step (s : System τ) : Op τ → Except Fault (System τ)
  | .push =>
    if s.maxCount ≤ s.queue.length then .ok s
    else .ok { s with queue := s.queue ++ [s.size], size := s.size + 1 }
  | .call t all =>
    match s.consumer t with
    | .idle => .ok (s.goTo t (.popping all 0))
    | _ => .error .elsewhere
  | .pop t =>
    match s.consumer t with
    | .popping all n =>
      match s.queue with
      -- The call returns what it has counted; for `consume_one` that is nothing.
      | [] => .ok { s.goTo t .idle with counted := s.counted + n }
      | k :: rest => .ok { s.goTo t (.holding all n k) with queue := rest, taken := s.taken ++ [k] }
    | _ => .error .elsewhere
  | .begin t =>
    match s.consumer t with
    | .holding all n k => .ok { s.goTo t (.consuming all n k) with begun := s.begun ++ [k] }
    | _ => .error .elsewhere
  | .finish t =>
    match s.consumer t with
    | .consuming true n k => .ok { s.goTo t (.popping true (n + 1)) with ended := s.ended ++ [k] }
    | .consuming false n k =>
      .ok { s.goTo t .idle with ended := s.ended ++ [k], counted := s.counted + n + 1 }
    | _ => .error .elsewhere

/-! ## What a step does -/

variable {s s' : System τ} {op : Op τ} {t : τ}

inductive Effect (s : System τ) : Op τ → System τ → Prop where
  | refused (h : s.maxCount ≤ s.queue.length) : Effect s .push s
  | accepted (h : s.queue.length < s.maxCount) :
      Effect s .push { s with queue := s.queue ++ [s.size], size := s.size + 1 }
  | called {t : τ} {all : Bool} (ht : s.consumer t = .idle) :
      Effect s (.call t all) (s.goTo t (.popping all 0))
  | left {t : τ} {all : Bool} {n : Nat} (ht : s.consumer t = .popping all n) (hq : s.queue = []) :
      Effect s (.pop t) { s.goTo t .idle with counted := s.counted + n }
  | popped {t : τ} {all : Bool} {n k : Nat} {rest : List Nat}
      (ht : s.consumer t = .popping all n) (hq : s.queue = k :: rest) :
      Effect s (.pop t) { s.goTo t (.holding all n k) with
        queue := rest, taken := s.taken ++ [k] }
  | began {t : τ} {all : Bool} {n k : Nat} (ht : s.consumer t = .holding all n k) :
      Effect s (.begin t) { s.goTo t (.consuming all n k) with begun := s.begun ++ [k] }
  | goesOn {t : τ} {n k : Nat} (ht : s.consumer t = .consuming true n k) :
      Effect s (.finish t) { s.goTo t (.popping true (n + 1)) with ended := s.ended ++ [k] }
  | returned {t : τ} {n k : Nat} (ht : s.consumer t = .consuming false n k) :
      Effect s (.finish t) { s.goTo t .idle with
        ended := s.ended ++ [k], counted := s.counted + n + 1 }

theorem step_effect (hs : s.step op = .ok s') : s.Effect op s' := by
  cases op with
  | push =>
    simp only [step] at hs
    split at hs
    · rename_i hfull
      cases hs
      exact .refused hfull
    · rename_i hlt
      cases hs
      exact .accepted (Nat.lt_of_not_le hlt)
  | call t all =>
    simp only [step] at hs
    split at hs
    · rename_i ht
      cases hs
      exact .called ht
    · cases hs
  | pop t =>
    simp only [step] at hs
    split at hs
    · rename_i all n ht
      split at hs
      · rename_i hq
        cases hs
        exact .left ht hq
      · rename_i k rest hq
        cases hs
        exact .popped ht hq
    · cases hs
  | begin t =>
    simp only [step] at hs
    split at hs
    · rename_i all n k ht
      cases hs
      exact .began ht
    · cases hs
  | finish t =>
    simp only [step] at hs
    split at hs
    · rename_i n k ht
      cases hs
      exact .goesOn ht
    · rename_i n k ht
      cases hs
      exact .returned ht
    · cases hs

/-! ## Every element is consumed once -/

/-- The elements as jobs that the threads hand out to themselves. -/
def ledger (s : System τ) : Jobs.Ledger τ where
  queue := s.queue
  size := s.size
  taken := s.taken
  begun := s.begun
  ended := s.ended
  hand t := (s.consumer t).hand

theorem hand_update (s : System τ) (t : τ) (pc : ConsumerPc) :
    (fun u => (Function.update s.consumer t pc u).hand) =
      Function.update s.ledger.hand t pc.hand :=
  Function.comp_update ConsumerPc.hand s.consumer t pc

/-- A thread that has no element goes on without one. -/
theorem hand_goTo {pc : ConsumerPc} (ht : (s.consumer t).hand = .empty) (hpc : pc.hand = .empty) :
    (s.goTo t pc).ledger = s.ledger := by
  have hhand : (fun u => ((s.goTo t pc).consumer u).hand) = s.ledger.hand := by
    rw [goTo, hand_update, hpc, ← ht]
    exact Function.update_eq_self t s.ledger.hand
  simp only [ledger, hhand]
  rfl

/-- **The threads do with the elements what can be done with jobs**, or leave them alone. -/
theorem Effect.refines (h : s.Effect op s') :
    s'.ledger = s.ledger ∨ Jobs.Step s.ledger s'.ledger := by
  cases h with
  | refused _ => exact Or.inl rfl
  | accepted _ => exact Or.inr .add
  | called ht => exact Or.inl (hand_goTo (congrArg ConsumerPc.hand ht) rfl)
  | left ht hq => exact Or.inl (hand_goTo (congrArg ConsumerPc.hand ht) rfl)
  | @popped t all n k rest ht hq =>
    have hstep := Jobs.Step.take (l := s.ledger) hq (congrArg ConsumerPc.hand ht)
    rw [show Jobs.Hand.held k = (ConsumerPc.holding all n k).hand from rfl, ← hand_update] at hstep
    exact Or.inr hstep
  | @began t all n k ht =>
    have hstep := Jobs.Step.begin (l := s.ledger) (congrArg ConsumerPc.hand ht)
    rw [show Jobs.Hand.begun k = (ConsumerPc.consuming all n k).hand from rfl, ← hand_update]
      at hstep
    exact Or.inr hstep
  | @goesOn t n k ht =>
    have hstep := Jobs.Step.finish (l := s.ledger) (congrArg ConsumerPc.hand ht)
    rw [show Jobs.Hand.empty = (ConsumerPc.popping true (n + 1)).hand from rfl, ← hand_update]
      at hstep
    exact Or.inr hstep
  | @returned t n k ht =>
    have hstep := Jobs.Step.finish (l := s.ledger) (congrArg ConsumerPc.hand ht)
    rw [show Jobs.Hand.empty = ConsumerPc.idle.hand from rfl, ← hand_update] at hstep
    exact Or.inr hstep

/-! ## Counting -/

variable [Fintype τ]

/-- What the calls that go on have counted. -/
def counting (s : System τ) : Nat := ∑ t, (s.consumer t).count

theorem counting_goTo (s : System τ) (t : τ) (pc : ConsumerPc) :
    (s.goTo t pc).counting + (s.consumer t).count = s.counting + pc.count :=
  Variant.sum_update ConsumerPc.count s.consumer t pc

/-- Where the elements are, and what was counted. -/
structure Inv (s : System τ) : Prop where
  sound : Jobs.Sound s.ledger
  bounded : s.queue.length ≤ s.maxCount
  counted : s.counted + s.counting = s.ended.length

omit [DecidableEq τ] in
theorem inv_new (maxCount : Nat) : ({ maxCount := maxCount } : System τ).Inv where
  sound := Jobs.sound_empty
  bounded := Nat.zero_le _
  counted := by simp [counting, ConsumerPc.count]

theorem Effect.counted (h : s.Effect op s') (hs : s.counted + s.counting = s.ended.length) :
    s'.counted + s'.counting = s'.ended.length := by
  cases h with
  | refused _ | accepted _ => exact hs
  | @called t all ht =>
    have hsum := s.counting_goTo t (.popping all 0)
    simp only [ht, ConsumerPc.count] at hsum
    show s.counted + (s.goTo t (.popping all 0)).counting = s.ended.length
    omega
  | @left t all n ht hq =>
    have hsum := s.counting_goTo t .idle
    simp only [ht, ConsumerPc.count] at hsum
    show s.counted + n + (s.goTo t .idle).counting = s.ended.length
    omega
  | @popped t all n k rest ht hq =>
    have hsum := s.counting_goTo t (.holding all n k)
    simp only [ht, ConsumerPc.count] at hsum
    show s.counted + (s.goTo t (.holding all n k)).counting = s.ended.length
    omega
  | @began t all n k ht =>
    have hsum := s.counting_goTo t (.consuming all n k)
    simp only [ht, ConsumerPc.count] at hsum
    show s.counted + (s.goTo t (.consuming all n k)).counting = s.ended.length
    omega
  | @goesOn t n k ht =>
    have hsum := s.counting_goTo t (.popping true (n + 1))
    simp only [ht, ConsumerPc.count] at hsum
    show s.counted + (s.goTo t (.popping true (n + 1))).counting = (s.ended ++ [k]).length
    rw [List.length_append, List.length_singleton]
    omega
  | @returned t n k ht =>
    have hsum := s.counting_goTo t .idle
    simp only [ht, ConsumerPc.count] at hsum
    show s.counted + n + 1 + (s.goTo t .idle).counting = (s.ended ++ [k]).length
    rw [List.length_append, List.length_singleton]
    omega

theorem Inv.step (h : s.Inv) (hs : s.step op = .ok s') : s'.Inv where
  sound := by
    rcases (step_effect hs).refines with heq | hstep
    · exact heq ▸ h.sound
    · exact h.sound.step hstep
  bounded := by
    have hbounded := h.bounded
    cases step_effect hs with
    | accepted hlt =>
      show (s.queue ++ [s.size]).length ≤ s.maxCount
      rw [List.length_append, List.length_singleton]
      omega
    | @popped t all n k rest ht hq =>
      show rest.length ≤ s.maxCount
      rw [hq, List.length_cons] at hbounded
      omega
    | _ => exact hbounded
  counted := (step_effect hs).counted h.counted

/-- The functors get every element once at most, and the queue hands them out in the order in
which it accepted them. Once all calls have returned, they have counted what was consumed; if the
queue is empty then, that is everything. -/
structure ConsumesOnce (s : System τ) : Prop where
  bounded : s.queue.length ≤ s.maxCount
  once : ∀ k, s.begun.count k ≤ 1
  inOrder : s.taken ++ s.queue = List.range s.size
  counted : (∀ t, s.consumer t = .idle) → s.counted = s.ended.length
  complete : (∀ t, s.consumer t = .idle) → s.queue = [] →
    s.ended.Perm (List.range s.size) ∧ s.counted = s.size

omit [DecidableEq τ] in
theorem Inv.consumesOnce (h : s.Inv) : s.ConsumesOnce := by
  have hcounted : (∀ t, s.consumer t = .idle) → s.counted = s.ended.length := by
    intro hidle
    have hzero : s.counting = 0 := by simp [counting, hidle, ConsumerPc.count]
    rw [← h.counted, hzero, Nat.add_zero]
  refine ⟨h.bounded, List.nodup_iff_count_le_one.mp h.sound.begun_nodup, h.sound.order, hcounted,
    fun hidle hq => ?_⟩
  have hperm : s.ended.Perm (List.range s.size) := h.sound.ended_perm hq fun t => by
    show (s.consumer t).hand = .empty
    rw [hidle t]
    rfl
  refine ⟨hperm, ?_⟩
  rw [hcounted hidle, hperm.length_eq, List.length_range]

/-! ## The loops end -/

def weight (s : System τ) : Nat := 3 * s.queue.length + ∑ t, (s.consumer t).weight

/-- A thread that goes on from one place to another leaves less to do. -/
theorem weight_goTo (t : τ) (pc : ConsumerPc) (hconsumer : s'.consumer = (s.goTo t pc).consumer)
    (hlt : 3 * s'.queue.length + pc.weight < 3 * s.queue.length + (s.consumer t).weight) :
    s'.weight < s.weight := by
  have hsum := Variant.sum_update ConsumerPc.weight s.consumer t pc
  rw [weight, weight, hconsumer]
  show 3 * s'.queue.length + ∑ u, (Function.update s.consumer t pc u).weight < _
  omega

end System

/-- A step that brings in an element or starts a call. -/
def Op.adds {τ : Type} : Op τ → Bool
  | .push | .call .. => true
  | _ => false

/-- The thread that goes on in its call. -/
def Op.goer {τ : Type} : Op τ → Option τ
  | .pop t | .begin t | .finish t => some t
  | _ => none

namespace System

variable {τ : Type} [DecidableEq τ] [Fintype τ] {s s' : System τ} {op : Op τ}

/-- Every other step leaves less to do. -/
theorem Effect.weight_lt (h : s.Effect op s') (hop : op.adds = false) : s'.weight < s.weight := by
  cases h with
  | refused | accepted | called => cases hop
  | @left t all n ht hq =>
    apply weight_goTo t .idle
    · rfl
    · simp [goTo, ht, ConsumerPc.weight]
  | @popped t all n k rest ht hq =>
    apply weight_goTo t (.holding all n k)
    · rfl
    · simp only [ht, hq, ConsumerPc.weight, List.length_cons]
      omega
  | @began t all n k ht =>
    apply weight_goTo t (.consuming all n k)
    · rfl
    · simp [goTo, ht, ConsumerPc.weight]
  | @goesOn t n k ht =>
    apply weight_goTo t (.popping true (n + 1))
    · rfl
    · simp [goTo, ht, ConsumerPc.weight]
  | @returned t n k ht =>
    apply weight_goTo t .idle
    · rfl
    · simp [goTo, ht, ConsumerPc.weight]

omit [DecidableEq τ] in
theorem weight_le (s : System τ) : s.weight ≤ 3 * (s.queue.length + Fintype.card τ) := by
  have hle : ∑ t, (s.consumer t).weight ≤ ∑ _t : τ, 3 := by
    apply Finset.sum_le_sum
    intro t _
    cases s.consumer t <;> simp [ConsumerPc.weight]
  have hsum : ∑ t, (s.consumer t).weight ≤ 3 * Fintype.card τ := by
    simpa [Nat.mul_comm] using hle
  rw [weight]
  omega

/-- **The calls end** when nothing is pushed any more. -/
theorem ends (s : System τ) {ops : List (Op τ)} (hops : ∀ op ∈ ops, op.adds = false) :
    Runs.count step (fun _ _ => true) s ops ≤ 3 * (s.queue.length + Fintype.card τ) := by
  apply Nat.le_trans _ s.weight_le
  apply Runs.count_le_variant (A := fun op => op.adds = false) (I := fun _ => True)
  · exact fun _ _ _ _ _ _ => trivial
  · exact fun _ _ _ hop _ hs => ((step_effect hs).weight_lt hop).le
  · exact fun _ _ _ hop _ hs _ => (step_effect hs).weight_lt hop
  · exact hops
  · trivial

omit [Fintype τ] in
/-- A thread in a call can go on. -/
theorem goes_on (s : System τ) {t : τ} (ht : s.consumer t ≠ .idle) :
    ∃ op : Op τ, op.goer = some t ∧ ∃ s', s.step op = .ok s' := by
  cases hpc : s.consumer t with
  | idle => exact absurd hpc ht
  | popping all n =>
    cases hq : s.queue with
    | nil => exact ⟨.pop t, rfl, by simp only [step, hpc, hq, Except.ok.injEq, exists_eq']⟩
    | cons k rest => exact ⟨.pop t, rfl, by simp only [step, hpc, hq, Except.ok.injEq, exists_eq']⟩
  | holding all n k => exact ⟨.begin t, rfl, by simp only [step, hpc, Except.ok.injEq, exists_eq']⟩
  | consuming all n k =>
    cases all with
    | true => exact ⟨.finish t, rfl, by simp only [step, hpc, Except.ok.injEq, exists_eq']⟩
    | false => exact ⟨.finish t, rfl, by simp only [step, hpc, Except.ok.injEq, exists_eq']⟩

end System

/-- **Every element is consumed once**, in every run of the threads. A thread in a call can always
go on, and the calls come to an end when nothing is pushed any more and no call is made. -/
theorem consumes_every_element {τ : Type} [DecidableEq τ] [Fintype τ] (maxCount : Nat)
    (ops : List (Op τ)) : Runs.Always System.step
      (fun s => s.ConsumesOnce ∧
        (∀ t, s.consumer t ≠ .idle → ∃ op : Op τ, op.goer = some t ∧ ∃ s', s.step op = .ok s') ∧
        ∀ ops : List (Op τ), (∀ op ∈ ops, op.adds = false) →
          Runs.count System.step (fun _ _ => true) s ops ≤ 3 * (s.queue.length + Fintype.card τ))
      { maxCount := maxCount } ops :=
  Runs.always_of_invariant (fun _ _ _ => System.Inv.step)
    (fun s h => ⟨h.consumesOnce, fun _ => s.goes_on, fun _ => s.ends⟩) (System.inv_new maxCount) ops

end Consuming

end Footstone
