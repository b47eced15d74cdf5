import Footstone.SpscCalls

/-!
`push_until_success` next to a thread that pops. The thread that pushes then runs `pop`
as well, and a pop moves `tail_` on by a `fetch_add`, whether or not the other thread
has moved it since it was loaded.
-/

namespace Footstone

namespace Spsc

open Runs Ring Calls

variable {α : Type} {w : Nat}

namespace Queue

/-- An access of `push_until_success`. -/
def evictAccess (val : α) : Access Unit (Queue α w) (Producer α w ⊕ Consumer α w) Unit :=
  untilTrue pushAccess popAccess (.head val) .tail

/-- The pops that had moved `tail_` on when it was loaded last, after this access of `pop`. -/
def seen (q : Queue α w) : Consumer α w → Nat → Nat
  | .tail, _ => q.popped.length
  | _, n => n

/-- If the access moves `tail_` on, nobody has since it was loaded. -/
def Alone (q : Queue α w) (n : Nat) : Consumer α w → Prop
  | .add _ => n = q.popped.length
  | _ => True

instance (q : Queue α w) (n : Nat) : (c : Consumer α w) → Decidable (q.Alone n c)
  | .add _ => inferInstanceAs (Decidable (n = q.popped.length))
  | .idle | .tail | .head _ | .data _ => isTrue trivial

end Queue

/-- What the access takes. -/
def Consumer.taken : Consumer α w → List (Option α)
  | .add val => [val]
  | _ => []

/-- The queue and the two threads. The last three fields are not in the source. -/
structure Eviction (α : Type) (w : Nat) where
  queue : Queue α w
  /-- The value that `push_until_success` was called with, and the place of the call. -/
  producer : Option (α × (Producer α w ⊕ Consumer α w)) := none
  consumer : Consumer α w := .idle
  producerSeen : Nat := 0
  consumerSeen : Nat := 0
  /-- What the thread that pops has popped. -/
  consumed : List (Option α) := []

namespace Eviction

/-- `push` is a call of `push_until_success`. -/
def step (s : Eviction α w) : Op α → Except Stray (Eviction α w)
  | .push val =>
    match s.producer with
    | none => .ok { s with producer := some (val, .inl (.head val)) }
    | some _ => .error .busy
  | .pop =>
    match s.consumer with
    | .idle => .ok { s with consumer := .tail }
    | _ => .error .busy
  | .produce =>
    match s.producer with
    | none => .error .idle
    | some (val, p) =>
      .ok { s with
        queue := (Queue.evictAccess val () s.queue p).1
        producer :=
          match (Queue.evictAccess val () s.queue p).2 with
          | .inl p' => some (val, p')
          | .inr () => none
        producerSeen :=
          match p with
          | .inl _ => s.producerSeen
          | .inr c => s.queue.seen c s.producerSeen }
  | .consume =>
    match s.consumer with
    | .idle => .error .idle
    | c =>
      .ok { s with
        queue := (s.queue.pop c).1
        consumer := (s.queue.pop c).2.1
        consumerSeen := s.queue.seen c s.consumerSeen
        consumed := s.consumed ++ c.taken }

/-- `tail_` has not passed `head_`, each value that was pushed was taken once or is still in
the queue, and the thread that pops has popped some of them in their order. -/
structure Protocol (s : Eviction α w) : Prop where
  le : s.queue.popped.length ≤ s.queue.published.length
  once : s.queue.popped ++ s.queue.elements = s.queue.published.map some
  inOrder : s.consumed.Sublist (s.queue.published.map some)

/-- The place of the thread that pushes, when it is in `pop`. -/
def evictor (s : Eviction α w) : Consumer α w :=
  match s.producer with
  | some (_, .inr c) => c
  | _ => .idle

/-- No pop moves `tail_` on when the other thread has since it was loaded. -/
def Apart (s : Eviction α w) : Op α → Prop
  | .produce => s.queue.Alone s.producerSeen s.evictor
  | .consume => s.queue.Alone s.consumerSeen s.consumer
  | _ => True

instance (s : Eviction α w) : (op : Op α) → Decidable (s.Apart op)
  | .produce => inferInstanceAs (Decidable (s.queue.Alone s.producerSeen s.evictor))
  | .consume => inferInstanceAs (Decidable (s.queue.Alone s.consumerSeen s.consumer))
  | .push _ | .pop => isTrue trivial

end Eviction

namespace Queue

variable {q : Queue α w} {p : Producer α w} {c : Consumer α w} {n : Nat}

/-- What a thread knows of the queue that loaded `tail_` after `n` pops, by its place. -/
def Knows (q : Queue α w) (n : Nat) : Producer α w ⊕ Consumer α w → Prop
  | .inl p => q.Feeds p
  | .inr c => n = q.popped.length → q.Drains c

theorem popped_push (q : Queue α w) (p : Producer α w) : (q.push p).1.popped = q.popped := by
  cases p with
  | tail val idHead =>
    simp only [push]
    split
    · rfl
    · split <;> rfl
  | _ => rfl

theorem popped_pop (q : Queue α w) (c : Consumer α w) :
    (q.pop c).1.popped = q.popped ++ c.taken := by
  cases c with
  | head idTail =>
    simp only [pop, Consumer.taken, List.append_nil]
    split <;> rfl
  | add val => rfl
  | _ => simp [pop, Consumer.taken]

theorem length_popped_pop (q : Queue α w) (c : Consumer α w) :
    q.popped.length ≤ (q.pop c).1.popped.length := by
  rw [popped_pop, List.length_append]
  exact Nat.le_add_right _ _

/-- Only the last access of a pop changes the queue. -/
theorem pop_of_taken (h : c.taken = []) : (q.pop c).1 = q := by
  cases c with
  | head idTail =>
    simp only [pop]
    split <;> rfl
  | add val => cases h
  | _ => rfl

theorem Feeds.pop (h : q.Feeds p) : (q.pop c).1.Feeds p := by
  cases c with
  | add val =>
    cases p with
    | data val' idHead =>
      refine ⟨h.1, h.2.trans_le ?_⟩
      simp [Queue.pop, take]
    | add val' =>
      refine ⟨h.1, h.2.trans_le ?_⟩
      simp [Queue.pop, take]
    | _ => exact h
  | _ => rwa [pop_of_taken rfl]

theorem seen_le (h : n ≤ q.popped.length) : q.seen c n ≤ (q.pop c).1.popped.length := by
  have hgrow := length_popped_pop q c
  cases c with
  | tail => exact hgrow
  | _ => exact h.trans hgrow

/-- A thread that pops, alone when it moves `tail_` on. -/
theorem Wf.pop (hq : q.Wf) (hc : q.Knows n (.inr c)) (halone : q.Alone n c) :
    (q.pop c).1.Wf ∧ (q.pop c).1.Knows (q.seen c n) (.inr (q.pop c).2.1) := by
  by_cases hn : n = q.popped.length
  · have hinv := System.pop_inv (p := .idle) hq trivial (hc hn)
    exact ⟨hinv.wf, fun _ => hinv.drains⟩
  · cases c with
    | tail => exact ⟨hq, fun _ => rfl⟩
    | add val => exact absurd halone hn
    | idle => exact ⟨hq, fun _ => trivial⟩
    | head idTail =>
      have hsame : (q.pop (.head idTail)).1 = q := pop_of_taken rfl
      rw [hsame]
      exact ⟨hq, fun h => absurd h hn⟩
    | data idTail => exact ⟨hq, fun h => absurd h hn⟩

/-- What the other thread knows when a pop takes a step. -/
theorem Knows.pop {x : Producer α w ⊕ Consumer α w} (hle : n ≤ q.popped.length)
    (h : q.Knows n x) : (q.pop c).1.Knows n x := by
  cases x with
  | inl p => exact Feeds.pop h
  | inr c' =>
    intro hn
    have hsame : c.taken = [] := by
      rw [popped_pop, List.length_append] at hn
      exact List.eq_nil_of_length_eq_zero (by omega)
    rw [pop_of_taken hsame] at hn ⊢
    exact h hn

theorem Knows.push {c : Consumer α w} (hq : q.Wf) (hp : q.Feeds p) (h : q.Knows n (.inr c)) :
    (q.push p).1.Knows n (.inr c) := by
  intro hn
  rw [popped_push] at hn
  exact (System.push_inv hq hp (h hn)).drains

/-- An access of `push_until_success` is one of `push` or one of `pop`. -/
theorem evictAccess_inl (val : α) (p : Producer α w) :
    evictAccess val () q (.inl p) = ((q.push p).1,
      match (q.push p).2 with
      | (p', none) => .inl (.inl p')
      | (_, some true) => .inr ()
      | (_, some false) => .inl (.inr .tail)) := by
  simp only [evictAccess, untilTrue, pushAccess]
  rcases q.push p with ⟨q', p', _ | _ | _⟩ <;> rfl

theorem evictAccess_inr (val : α) (c : Consumer α w) :
    evictAccess val () q (.inr c) = ((q.pop c).1,
      match (q.pop c).2 with
      | (c', none) => .inl (.inr c')
      | (_, some _) => .inl (.inl (.head val))) := by
  simp only [evictAccess, untilTrue, popAccess]
  rcases q.pop c with ⟨q', c', _ | _⟩ <;> rfl

end Queue

namespace Eviction

structure Inv (s : Eviction α w) : Prop where
  wf : s.queue.Wf
  producer : ∀ val p, s.producer = some (val, p) → s.queue.Knows s.producerSeen p
  consumer : s.queue.Knows s.consumerSeen (.inr s.consumer)
  producerLe : s.producerSeen ≤ s.queue.popped.length
  consumerLe : s.consumerSeen ≤ s.queue.popped.length
  consumed : s.consumed.Sublist s.queue.popped

variable {s s' : Eviction α w}

/-- An access of `push`, which may be the last of the call. -/
theorem Inv.push (hs : s.Inv) {val : α} {p : Producer α w} (hp : s.producer = some (val, .inl p)) :
    Inv { s with
      queue := (s.queue.push p).1
      producer :=
        match (Queue.evictAccess val () s.queue (.inl p)).2 with
        | .inl p' => some (val, p')
        | .inr () => none } := by
  have hfeeds : s.queue.Feeds p := hs.producer _ _ hp
  have hinv := System.push_inv (c := .idle) hs.wf hfeeds trivial
  have hpopped := Queue.popped_push s.queue p
  refine ⟨hinv.wf, fun val' x hx => ?_, hs.consumer.push hs.wf hfeeds, ?_, ?_, ?_⟩
  · rw [Queue.evictAccess_inl] at hx
    have hfeeds' := hinv.feeds
    rcases h : (s.queue.push p).2 with ⟨p', _ | _ | _⟩
    · simp only [h, Option.some.injEq, Prod.mk.injEq] at hx hfeeds'
      obtain ⟨-, rfl⟩ := hx
      exact hfeeds'
    · simp only [h, Option.some.injEq, Prod.mk.injEq] at hx
      obtain ⟨-, rfl⟩ := hx
      exact fun _ => trivial
    · simp only [h, reduceCtorEq] at hx
  · exact hs.producerLe.trans_eq (congrArg List.length hpopped).symm
  · exact hs.consumerLe.trans_eq (congrArg List.length hpopped).symm
  · change s.consumed.Sublist (s.queue.push p).1.popped
    rw [hpopped]
    exact hs.consumed

/-- An access of `pop` by the thread that pushes. -/
theorem Inv.evict (hs : s.Inv) {val : α} {c : Consumer α w} (hp : s.producer = some (val, .inr c))
    (halone : s.queue.Alone s.producerSeen c) :
    Inv { s with
      queue := (s.queue.pop c).1
      producer :=
        match (Queue.evictAccess val () s.queue (.inr c)).2 with
        | .inl p' => some (val, p')
        | .inr () => none
      producerSeen := s.queue.seen c s.producerSeen } := by
  obtain ⟨hwf, hknows⟩ := hs.wf.pop (hs.producer _ _ hp) halone
  have hpopped := Queue.popped_pop s.queue c
  refine ⟨hwf, fun val' x hx => ?_, hs.consumer.pop hs.consumerLe, ?_, ?_, ?_⟩
  · rw [Queue.evictAccess_inr] at hx
    rcases h : (s.queue.pop c).2 with ⟨c', _ | _⟩
    · simp only [h, Option.some.injEq, Prod.mk.injEq] at hx hknows
      obtain ⟨-, rfl⟩ := hx
      exact hknows
    · simp only [h, Option.some.injEq, Prod.mk.injEq] at hx
      obtain ⟨-, rfl⟩ := hx
      trivial
  · exact Queue.seen_le hs.producerLe
  · exact hs.consumerLe.trans (Queue.length_popped_pop _ _)
  · change s.consumed.Sublist (s.queue.pop c).1.popped
    rw [hpopped]
    exact hs.consumed.trans (List.sublist_append_left _ _)

/-- An access of the thread that pops. -/
theorem Inv.consume (hs : s.Inv) (halone : s.queue.Alone s.consumerSeen s.consumer) :
    Inv { s with
      queue := (s.queue.pop s.consumer).1
      consumer := (s.queue.pop s.consumer).2.1
      consumerSeen := s.queue.seen s.consumer s.consumerSeen
      consumed := s.consumed ++ s.consumer.taken } := by
  obtain ⟨hwf, hknows⟩ := hs.wf.pop hs.consumer halone
  have hpopped := Queue.popped_pop s.queue s.consumer
  refine ⟨hwf, fun val p hp => (hs.producer val p hp).pop hs.producerLe, hknows, ?_, ?_, ?_⟩
  · exact hs.producerLe.trans (Queue.length_popped_pop _ _)
  · exact Queue.seen_le hs.consumerLe
  · change (s.consumed ++ s.consumer.taken).Sublist (s.queue.pop s.consumer).1.popped
    rw [hpopped]
    exact hs.consumed.append_right _

theorem step_inv {op : Op α} (hs : s.Inv) (hc : s.Apart op) (h : s.step op = .ok s') : s'.Inv := by
  cases op with
  | push val =>
    simp only [step] at h
    split at h <;> cases h
    refine ⟨hs.wf, ?_, hs.consumer, hs.producerLe, hs.consumerLe, hs.consumed⟩
    rintro val' p ⟨⟩
    trivial
  | pop =>
    simp only [step] at h
    split at h <;> cases h
    exact ⟨hs.wf, hs.producer, fun _ => trivial, hs.producerLe, hs.consumerLe, hs.consumed⟩
  | produce =>
    simp only [step] at h
    split at h
    · cases h
    · rename_i val p hp
      cases h
      rcases p with p | c
      · have hqueue := congrArg Prod.fst (Queue.evictAccess_inl (q := s.queue) val p)
        have hpush := hs.push hp
        rw [← hqueue] at hpush
        exact hpush
      · have hqueue := congrArg Prod.fst (Queue.evictAccess_inr (q := s.queue) val c)
        have hevict := hs.evict hp (by simpa only [Apart, evictor, hp] using hc)
        rw [← hqueue] at hevict
        exact hevict
  | consume =>
    simp only [step] at h
    split at h <;> cases h
    exact hs.consume hc

theorem Inv.protocol (hs : s.Inv) : s.Protocol := by
  have hle := hs.wf.le
  have hfifo := hs.wf.fifo
  have hlimit := hs.wf.limit
  have hcapacity : s.queue.capacity = s.queue.maxSize := by
    rw [Queue.capacity, Queue.sizeLimit_toNat]
    omega
  have hrest : s.queue.Rest := by
    rw [Queue.Rest, Queue.clamped, hcapacity]
    exact hs.wf
  refine ⟨hle, ?_, ?_⟩
  · rw [hrest.elements_eq, Queue.items]
    refine (congrArg (· ++ _) hfifo).trans ?_
    rw [← List.map_append, List.take_append_drop]
  · refine hs.consumed.trans ?_
    rw [hfifo]
    exact (List.take_sublist _ _).map some

end Eviction

end Spsc

open Runs

end Footstone
