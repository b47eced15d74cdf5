import Footstone.MpmcListOrder
import Footstone.Lib.Onlooker

/-!
`empty` of `mpmc_list` (`mpmc_list.h`), called next to any number of threads that push and pop.
It reads `head_`, and then `next_` of the node that it has found there, which may be the first
one no longer.
-/

namespace Footstone

namespace MpmcList

open Linear

variable {α τ : Type} {L : Layout α} {q q' : Queue α} {place : Nat → Place τ}
  {chain stack : List Nat} {items : List α}

/-- The places in `empty`. -/
inductive EmptyPc where
  | head
  | next (node : Nat)
  deriving DecidableEq

namespace Queue

/-- `empty` goes on, or has returned. There is no step through a null pointer. -/
def empty (q : Queue α) : EmptyPc → Option (EmptyPc ⊕ Bool)
  | .head => q.head.ptr.map fun node => .inl (.next node)
  | .next node => some (.inr (q.next node).ptr.isNone)

/-- No node comes after the first one. -/
def bare (q : Queue α) : Bool := q.head.ptr.all fun node => (q.next node).ptr.isNone

theorem bare_of_head {a : Nat} (ha : q.head.ptr = some a) : q.bare = (q.next a).ptr.isNone := by
  rw [bare, ha, Option.all_some]

end Queue

/-- Then the list holds no value. -/
theorem Shape.bare_iff (h : Shape L q place chain stack items) : q.bare = true ↔ items = [] := by
  obtain ⟨a, rest, rfl, ha, hrest⟩ := h.first
  rw [Queue.bare_of_head ha, Option.isNone_iff_eq_none]
  constructor
  · exact h.items_nil ha
  · rintro rfl
    have hdata : rest.map q.pool.slot = [] := h.data
    rw [List.map_eq_nil_iff.mp hdata] at hrest
    exact hrest

/-- The node whose `next_` the access constructs. -/
def Pc.makes? : Pc α → Option Nat
  | .push _ (.next p) => some p
  | _ => none

/-- What an access does to `head_` and to the nodes' `next_`. -/
inductive Writes (q : Queue α) (pc : Pc α) (q' : Queue α) : Prop where
  | neither (hhead : q'.head = q.head) (hnext : q'.next = q.next)
  | makes (val : α) (p : Nat) (hpc : pc = .push val (.next p)) (hq : q' = q.setNext p {})
  | links (a p : Nat) (hq : q' = q.setNext a ((q.next a).swap (some p)))
  | takes (head : Tagged) (n : Nat) (val : α) (hpc : pc = .pop (.take head n val))
    (hsame : q.head.Same head) (hnext : q'.next = q.next)

theorem push_writes {val : α} {pc : PushPc} {pc? : Option PushPc} {ok : Bool}
    (hacc : q.push L ok val pc = some (q', pc?)) : Writes q (.push val pc) q' := by
  cases pc with
  | alloc pc =>
    simp only [Queue.push] at hacc
    split at hacc <;> cases hacc <;> exact .neither rfl rfl
  | data p | tail p =>
    cases hacc
    exact .neither rfl rfl
  | next p =>
    cases hacc
    exact .makes val p rfl rfl
  | load p tail =>
    obtain ⟨node, -, heq⟩ := Option.map_eq_some_iff.mp hacc
    cases heq
    exact .neither rfl rfl
  | check p tail next =>
    simp only [Queue.push] at hacc
    split at hacc
    · split at hacc <;> cases hacc <;> exact .neither rfl rfl
    · cases hacc
      exact .neither rfl rfl
  | link p tail next =>
    obtain ⟨node, -, heq⟩ := Option.map_eq_some_iff.mp hacc
    split at heq
    · cases heq
      exact .links node p rfl
    · cases heq
      exact .neither rfl rfl
  | swing p tail | help p tail next =>
    simp only [Queue.push] at hacc
    split at hacc <;> cases hacc <;> exact .neither rfl rfl

theorem pop_writes {pc : PopPc α} {next : PopPc α ⊕ FifoRet α} {ok : Bool}
    (hacc : q.pop L ok pc = some (q', next)) : Writes q (.pop pc) q' := by
  cases pc with
  | head | tail head =>
    cases hacc
    exact .neither rfl rfl
  | load head tail | data head next =>
    obtain ⟨node, -, heq⟩ := Option.map_eq_some_iff.mp hacc
    cases heq
    exact .neither rfl rfl
  | check head tail next =>
    simp only [Queue.pop] at hacc
    split at hacc
    · split at hacc
      · split at hacc <;> cases hacc <;> exact .neither rfl rfl
      · cases hacc
        exact .neither rfl rfl
    · cases hacc
      exact .neither rfl rfl
  | take head n val =>
    simp only [Queue.pop] at hacc
    split at hacc
    · rename_i hsame
      apply Writes.takes head n val rfl hsame.2
      split at hacc <;> cases hacc <;> rfl
    · cases hacc
      exact .neither rfl rfl
  | help tail next | free val pc =>
    simp only [Queue.pop] at hacc
    split at hacc <;> cases hacc <;> exact .neither rfl rfl

theorem access_writes {pc : Pc α} {next : Pc α ⊕ FifoRet α} {ok : Bool}
    (hacc : q.access L ok pc = some (q', next)) : Writes q pc q' := by
  cases pc with
  | push val pc =>
    obtain ⟨⟨q'', pc?⟩, hpush, heq⟩ := Option.map_eq_some_iff.mp hacc
    cases heq
    exact push_writes hpush
  | pop pc =>
    obtain ⟨⟨q'', next'⟩, hpop, heq⟩ := Option.map_eq_some_iff.mp hacc
    cases heq
    exact pop_writes hpop

/-- **`head_` leaves a node only for the one that comes after it.** -/
theorem Writes.head {pc : Pc α} (h : Writes q pc q') (hfits : Fits L q pc) (hnear : q.Near pc)
    (hbare : ∀ n, ¬ q.Follows q.head n) : q'.head = q.head := by
  cases h with
  | neither hhead hnext => exact hhead
  | makes val p hpc hq =>
    subst hq
    rfl
  | links a p hq =>
    subst hq
    rfl
  | takes head n val hpc hsame hnext =>
    subst hpc
    have hhead := (hfits.1.same_iff (hnear.1 _ rfl)).mp hsame
    have hfollows := (hfits.2 hhead).2.1
    rw [← hhead] at hfollows
    exact absurd hfollows (hbare n)

/-- A node that is not made anew keeps its `next_`, or has a successor. -/
theorem Writes.next {pc : Pc α} (h : Writes q pc q') {a : Nat} (ha : pc.makes? ≠ some a) :
    q'.next a = q.next a ∨ (q'.next a).ptr ≠ none := by
  cases h with
  | neither hhead hnext => exact Or.inl (congrFun hnext a)
  | takes head n val hpc hsame hnext => exact Or.inl (congrFun hnext a)
  | makes val p hpc hq =>
    subst hpc hq
    have hap : a ≠ p := fun hap => ha (congrArg some hap.symm)
    exact Or.inl (Function.update_of_ne hap _ _)
  | links b p hq =>
    subst hq
    by_cases hab : a = b
    · subst hab
      right
      rw [next_setNext]
      exact nofun
    · exact Or.inl (Function.update_of_ne hab _ _)

namespace System

variable [DecidableEq τ]

/-- `empty`, next to the system. -/
def empty (τ α : Type) : Onlooker.Reader (System τ α) EmptyPc where
  start := .head
  access s pc := s.queue.empty pc

/-- No other access constructs the node that the call reads next. -/
def NotRemade : EmptyPc → System τ α → Op τ α → Prop
  | .next a, s, .access t _ => ∀ pc ∈ s.pc t, pc.makes? ≠ some a
  | _, _, _ => True

/-- No tag wraps, and no push links its node behind one that is not linked. -/
def Sound (s : System τ α) (op : Op τ α) : Prop := s.NoWrap op ∧ s.LinksLinked op

instance [Fintype τ] (s : System τ α) (op : Op τ α) : Decidable (s.Sound op) :=
  inferInstanceAs (Decidable (_ ∧ _))

instance (pc : EmptyPc) (s : System τ α) (op : Op τ α) : Decidable (NotRemade pc s op) :=
  match pc, op with
  | .next a, .access t _ => inferInstanceAs (Decidable (∀ pc ∈ s.pc t, pc.makes? ≠ some a))
  | .next _, .push _ _ => isTrue trivial
  | .next _, .pop _ => isTrue trivial
  | .head, _ => isTrue trivial

/-- What a call of `empty` knows. The node that it reads is the first and the only one, or it
has a successor and the list has not been bare all along. -/
def Watches (s : System τ α) : EmptyPc → Onlooker.Seen → Prop
  | .head, _ => True
  | .next a, v => (s.queue.head.ptr = some a ∧ (s.queue.next a).ptr = none) ∨
    ((s.queue.next a).ptr ≠ none ∧ v.no = true)

/-- Everything is in its place. -/
def Ordered (L : Layout α) (s : System τ α) : Prop :=
  ∃ place chain stack items log, s.Inv L place chain stack items log

variable {s s' : System τ α} {op : Op τ α} {v : Onlooker.Seen}

/-- **A step next to a call** that has read `head_`. -/
theorem Ordered.watches (h : s.Ordered L) (hc : s.Sound op) {pc : EmptyPc}
    (hcalm : NotRemade pc s op) (hs : s.step L op = .ok s') (hw : s.Watches pc v) :
    s'.Watches pc (v.more s'.queue.bare) := by
  cases pc with
  | head => trivial
  | next a =>
    cases op with
    | push t val =>
      obtain ⟨-, rfl⟩ := step_push_eq_ok.mp hs
      exact hw.imp_right fun hw => ⟨hw.1, by simp [hw.2]⟩
    | pop t =>
      obtain ⟨-, rfl⟩ := step_pop_eq_ok.mp hs
      exact hw.imp_right fun hw => ⟨hw.1, by simp [hw.2]⟩
    | access t ok =>
      obtain ⟨place, chain, stack, items, log, hinv⟩ := h
      obtain ⟨pc, q, next, hpc, hacc, hnext⟩ := step_access hs
      have hqueue : s'.queue = q := by
        rcases hnext with ⟨pc', -, rfl⟩ | ⟨ret, -, rfl⟩ <;> rfl
      have hwrites := access_writes hacc
      have hkeeps := hwrites.next (hcalm pc hpc)
      rw [← hqueue] at hwrites hkeeps
      rcases hw with ⟨hhead, hnone⟩ | ⟨hsome, hno⟩
      · have hhead' : s'.queue.head = s.queue.head := by
          apply hwrites.head (hinv.fits t pc hpc) (hc.1 pc hpc)
          rintro n ⟨b, hb, hn⟩
          rw [hhead] at hb
          cases hb
          rw [hnone] at hn
          cases hn
        rw [← hhead'] at hhead
        rcases hkeeps with heq | hne
        · left
          exact ⟨hhead, by rw [heq]; exact hnone⟩
        · -- A push has linked its node: the list is not bare now.
          right
          refine ⟨hne, ?_⟩
          have hsome : (s'.queue.next a).ptr.isNone = false :=
            Option.isNone_eq_false_iff.mpr (Option.isSome_iff_ne_none.mpr hne)
          rw [Onlooker.Seen.no_more, Queue.bare_of_head hhead, hsome]
          exact Bool.or_true _
      · right
        refine ⟨?_, by simp [hno]⟩
        rcases hkeeps with heq | hne
        · rw [heq]
          exact hsome
        · exact hne

/-- **What a call of `empty` knows at its places.** -/
theorem knows (L : Layout α) : Onlooker.Knows (step L) (empty τ α) (fun s => s.queue.bare) Sound
    NotRemade (Ordered L) Watches where
  inner := by
    rintro s op s' ⟨place, chain, stack, items, log, h⟩ hc hs
    exact h.step hc.1 hc.2 hs
  start _ _ := trivial
  step h hc hcalm hs _ hw := h.watches hc hcalm hs hw
  access := by
    rintro s pc v ⟨place, chain, stack, items, log, h⟩ - - hacc
    cases pc with
    | head =>
      obtain ⟨a, ha, -⟩ := h.shape.head_made
      have hnone : s.queue.head.ptr.map _ = none := hacc
      rw [ha] at hnone
      cases hnone
    | next a => cases hacc
  go := by
    intro s pc pc' v h hup _ hacc
    cases pc with
    | head =>
      obtain ⟨a, ha, heq⟩ := Option.map_eq_some_iff.mp hacc
      cases heq
      have hup : v.Up s.queue.bare := hup
      rw [Queue.bare_of_head ha] at hup
      cases hnone : (s.queue.next a).ptr with
      | none => exact Or.inl ⟨ha, hnone⟩
      | some n =>
        rw [hnone] at hup
        right
        exact ⟨by rw [hnone]; exact nofun, hup⟩
    | next a => cases hacc
  ret := by
    intro s pc ret v h hup hw hacc
    cases pc with
    | head =>
      obtain ⟨a, ha, heq⟩ := Option.map_eq_some_iff.mp hacc
      cases heq
    | next a =>
      have hret : (s.queue.next a).ptr.isNone = ret := by
        cases hacc
        rfl
      rcases hw with ⟨hhead, hnone⟩ | ⟨hsome, hno⟩
      · have hup : v.Up s.queue.bare := hup
        rw [Queue.bare_of_head hhead, hret] at hup
        exact hup
      · rw [← hret, Option.isNone_eq_false_iff.mpr (Option.isSome_iff_ne_none.mpr hsome)]
        exact hno

end System

/-- The list and the calls of `empty` take a step. -/
abbrev watched {ι : Type} [DecidableEq ι] [DecidableEq τ] (L : Layout α) :=
  Onlooker.System.step (ι := ι) (System.step (τ := τ) L) (System.empty τ α) fun s => s.queue.bare

/-- **`empty` tells the truth** about some moment of the call, in every run under the two
conditions in which the node that it has read in `head_` is not made anew before it reads
that node's `next_`. The list is bare when the pops have taken what the pushes have put in. -/
theorem mpmcList_empty_truthful {ι : Type} [DecidableEq ι] [DecidableEq τ] [Inhabited α]
    (L : Layout α) {ops : List (Onlooker.Op ι (Op τ α))}
    (hc : Runs.Meets (watched L) (Onlooker.System.Calm System.Sound System.NotRemade)
      (Onlooker.System.new ι EmptyPc (System.new τ α)) ops) :
    Runs.Always (watched L) (fun s =>
        s.Truthful (System.step L) (System.empty τ α) (fun s => s.queue.bare) ∧
          ∃ log items, Logged Fifo [] s.inner.calls s.inner.clock log items ∧
            (s.inner.queue.bare = true ↔ items = []))
      (Onlooker.System.new ι EmptyPc (System.new τ α)) ops := by
  have hnew : (System.new τ α).Ordered L := ⟨_, _, _, _, _, System.inv_new L⟩
  refine (Onlooker.System.always_truthful (System.knows L) hnew hc).mono ?_
  rintro s ⟨htruth, place, chain, stack, items, log, hinv⟩
  exact ⟨htruth, log, items, hinv.logged, hinv.shape.bare_iff⟩

/-- The only value is popped between the two reads. -/
theorem mpmcList_empty_truthful_pop :
    Runs.Always (watched numbers) (fun s =>
        s.Truthful (System.step numbers) (System.empty Bool Nat) (fun s => s.queue.bare) ∧
          ∃ log items, Logged Fifo [] s.inner.calls s.inner.clock log items ∧
            (s.inner.queue.bare = true ↔ items = []))
      (Onlooker.System.new Unit EmptyPc (System.new Bool Nat))
      ((.push false 10 :: goes false 10).map .step ++ [.make (), .access ()] ++
        (.pop true :: goes true 7).map .step ++ [.access ()]) :=
  mpmcList_empty_truthful numbers (by decide)

/-- Of two values one is popped, and a push makes its node of the one that was the first: the
call finds the list empty, which it never was. -/
example : (Runs.last (watched numbers) (Onlooker.System.new Unit EmptyPc (System.new Bool Nat))
    ((.push false 10 :: goes false 10 ++ .push false 20 :: goes false 10).map .step ++
      [.make (), .access ()] ++
      (.pop true :: goes true 7 ++ .push false 30 :: goes false 3).map .step ++
      [.access ()])).answers = [(true, ⟨false, true⟩)] := by
  decide

end MpmcList

end Footstone
