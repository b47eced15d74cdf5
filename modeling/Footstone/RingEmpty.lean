import Footstone.Lib.RingEnds
import Footstone.MpmcReuse

/-!
`empty` of `spsc_queue` (`spsc_queue.h`), which `mpmc_queue` inherits, called next to the threads
that push and pop. It loads `tail_` and `head_`, and which of them first is left to the compiler.
-/

namespace Footstone

open Runs Ring RingEnds Onlooker

namespace Spsc

variable {α : Type} {w : Nat}

/-- `tail_` and `head_`, behind the pops and the pushes that have moved them on. -/
def ends (α : Type) (w : Nat) : Ends (System α w) w where
  tail s := s.queue.tail
  head s := s.queue.head
  back s := s.queue.popped.length
  front s := s.queue.published.length

theorem push_published (q : Queue α w) (p : Producer α w) : (q.push p).1.popped = q.popped ∧
    ((q.push p).1.published = q.published ∨
      ∃ val, (q.push p).1.published = q.published ++ [val]) := by
  cases p with
  | add val => exact ⟨rfl, Or.inr ⟨val, rfl⟩⟩
  | tail val idHead =>
    simp only [Queue.push]
    split
    · exact ⟨rfl, Or.inl rfl⟩
    · split <;> exact ⟨rfl, Or.inl rfl⟩
  | _ => exact ⟨rfl, Or.inl rfl⟩

theorem pop_popped (q : Queue α w) (c : Consumer α w) : (q.pop c).1.published = q.published ∧
    ((q.pop c).1.popped = q.popped ∨ ∃ val, (q.pop c).1.popped = q.popped ++ [val]) := by
  cases c with
  | add val => exact ⟨rfl, Or.inr ⟨val, rfl⟩⟩
  | head idTail =>
    simp only [Queue.pop]
    split <;> exact ⟨rfl, Or.inl rfl⟩
  | _ => exact ⟨rfl, Or.inl rfl⟩

/-- **The ends of the ring**, whoever looks at them. -/
theorem ends_kept : (ends α w).Kept System.step (fun _ _ => True) System.Inv where
  inner hs _ h := System.step_inv hs h
  tail hs := hs.wf.tail
  head hs := hs.wf.head
  le hs := hs.wf.le
  lt {s} hs := by
    have hbound := hs.wf.bound
    have hlimit := hs.wf.limit
    show s.queue.published.length < s.queue.popped.length + 2 ^ w
    omega
  step := by
    intro s op s' _ _ h
    cases op with
    | push val =>
      simp only [System.step] at h
      split at h <;> cases h
      exact Or.inl ⟨rfl, Or.inl rfl⟩
    | pop =>
      simp only [System.step] at h
      split at h <;> cases h
      exact Or.inl ⟨rfl, Or.inl rfl⟩
    | produce =>
      simp only [System.step] at h
      obtain ⟨hpopped, hpublished⟩ := push_published s.queue s.producer
      split at h <;> cases h
      left
      refine ⟨congrArg List.length hpopped, ?_⟩
      rcases hpublished with heq | ⟨val, heq⟩
      · exact Or.inl (congrArg List.length heq)
      · exact Or.inr ((congrArg List.length heq).trans List.length_append)
    | consume =>
      simp only [System.step] at h
      obtain ⟨hpublished, hpopped⟩ := pop_popped s.queue s.consumer
      have hsame : (s.queue.pop s.consumer).1.published.length = s.queue.published.length :=
        congrArg List.length hpublished
      split at h <;> cases h
      rcases hpopped with heq | ⟨val, heq⟩
      · exact Or.inl ⟨congrArg List.length heq, Or.inl hsame⟩
      · exact Or.inr ⟨(congrArg List.length heq).trans List.length_append, hsame⟩

end Spsc

namespace Mpmc

variable {τ α : Type} {w : Nat}

/-- `tail_` and `head_`, behind the pops and the commits that have moved them on. -/
def ends (τ α : Type) (w : Nat) : Ends (System τ α w) w where
  tail s := s.queue.tail
  head s := s.queue.head
  back s := s.queue.popped.length
  front s := s.queue.committed

/-- What an access does to the ends. -/
theorem access_ends (ok : Bool) (q : Queue α w) (p : Pc α w) :
    ((q.access ok p).1.popped = q.popped ∧ ((q.access ok p).1.committed = q.committed ∨
      (q.access ok p).1.committed = q.committed + 1)) ∨
    ((∃ val, (q.access ok p).1.popped = q.popped ++ [val]) ∧
      (q.access ok p).1.committed = q.committed) := by
  cases p with
  | pushAdvance curFlag own => exact Or.inl ⟨rfl, Or.inr rfl⟩
  | popAdvance curHead => exact Or.inl ⟨rfl, Or.inr rfl⟩
  | popTake curTail val seen =>
    simp only [Queue.access]
    split
    · exact Or.inr ⟨⟨val, Queue.popped_take val q⟩, rfl⟩
    · exact Or.inl ⟨rfl, Or.inl rfl⟩
  | popSlot curHead =>
    simp only [Queue.access]
    split
    · exact Or.inl ⟨Queue.popped_refuse q, Or.inl rfl⟩
    · exact Or.inl ⟨rfl, Or.inl rfl⟩
  | pushTail val curFlag | pushHead curFlag cacFlag own =>
    simp only [Queue.access]
    split
    · exact Or.inl ⟨rfl, Or.inl rfl⟩
    · split <;> exact Or.inl ⟨rfl, Or.inl rfl⟩
  | pushClaim val curFlag | pushCommit curFlag own | popHead curTail | popCommit curHead =>
    simp only [Queue.access]
    split <;> exact Or.inl ⟨rfl, Or.inl rfl⟩
  | _ => exact Or.inl ⟨rfl, Or.inl rfl⟩

/-- **The ends of the ring**, whoever looks at them. -/
theorem ends_kept [DecidableEq τ] (hw : w < 64) :
    (ends τ α w).Kept System.step System.Fresh System.Inv where
  inner hs hc h := System.step_inv hw hs hc h
  tail hs := hs.wf.tail
  head hs := hs.wf.head
  le hs := hs.wf.tail_le
  lt {s} hs := Nat.lt_of_le_of_lt hs.wf.head_le hs.wf.room
  step := by
    intro s op s' _ _ h
    cases op with
    | push t val =>
      obtain ⟨-, rfl⟩ := System.step_push_eq_ok.mp h
      exact Or.inl ⟨rfl, Or.inl rfl⟩
    | pop t =>
      obtain ⟨-, rfl⟩ := System.step_pop_eq_ok.mp h
      exact Or.inl ⟨rfl, Or.inl rfl⟩
    | access t ok =>
      obtain ⟨-, rfl⟩ := System.step_access_eq_ok.mp h
      rcases access_ends ok s.queue (s.pc t) with ⟨hpopped, hcommitted⟩ | ⟨⟨val, hpopped⟩, hcommitted⟩
      · exact Or.inl ⟨congrArg List.length hpopped, hcommitted⟩
      · exact Or.inr ⟨(congrArg List.length hpopped).trans List.length_append, hcommitted⟩

end Mpmc

/-- The other way round the call finds the queue empty, which it never was. -/
example : (last (Onlooker.System.step Spsc.System.step ((Spsc.ends Nat 2).compare .headFirst)
      (Spsc.ends Nat 2).level) (.new Unit _ (.new Nat 2 3))
    ([.push 10, .produce, .produce, .produce, .produce].map .step ++ [.make (), .access ()] ++
      [.push 11, .produce, .produce, .produce, .produce, .pop, .consume, .consume, .consume,
        .consume].map .step ++ [.access ()])).answers = [(true, ⟨false, true⟩)] := by
  decide

open Mpmc (accesses)

/-- A pop commits the slot of a push, and another push leaves its own slot to that one. -/
def leaving : List (Mpmc.Op (Fin 3) Nat) :=
  .push 0 10 :: accesses 0 5 ++ .pop 2 :: accesses 2 4 ++ .push 1 11 :: accesses 1 7 ++
    accesses 2 5 ++ accesses 0 2

/-- Nobody is in a call then, both pushes have returned true and one value has been popped. The
call finds the queue empty, and the next pop returns the other value. -/
example :
    (last (Onlooker.System.step Mpmc.System.step ((Mpmc.ends (Fin 3) Nat 2).compare .tailFirst)
        (Mpmc.ends (Fin 3) Nat 2).level) (.new Unit _ (.new (Fin 3) Nat 2 3))
      (leaving.map .step ++ [.make (), .access (), .access ()])).answers = [(true, ⟨true, false⟩)] ∧
    (last Mpmc.System.step (.new (Fin 3) Nat 2 3) leaving).queue.accepted = [0, 1] ∧
    (last Mpmc.System.step (.new (Fin 3) Nat 2 3) (leaving ++ .pop 2 :: accesses 2 9)).queue.popped =
      [some (10, 0), some (11, 1)] := by
  decide

end Footstone
