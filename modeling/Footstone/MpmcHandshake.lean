import Footstone.MpmcReuse

/-!
The commit handshake before any slot is used again. A push that finds that it is
not the first leaves its slot to others; when all calls are over, every slot that
`head_` has not passed says that it is written, and a pop that comes to it commits
it and takes its value.
-/

namespace Footstone

open Runs

namespace Mpmc

open Ring

variable {α : Type} {w : Nat}

/-- Fewer slots were claimed than there are. -/
def Queue.FirstRound (q : Queue α w) : Prop := q.claimed.length < 2 ^ w

instance (q : Queue α w) : Decidable q.FirstRound := inferInstanceAs (Decidable (_ < _))

/-- In the first round a stale index is a small one. -/
def Queue.Tame (q : Queue α w) : Pc α w → Prop
  | .pushCommit i _ | .popSlot i | .popCommit i => i.toNat ≤ q.committed
  | .popHead curTail => curTail.toNat ≤ q.popped.length
  | .popData curTail seen | .popTake curTail _ seen => curTail.toNat ≤ seen
  | _ => True

namespace Queue

theorem Wf.flag_toNat {q : Queue α w} (hq : q.Wf) (h : q.FirstRound) :
    q.flag.toNat = q.claimed.length := by
  rw [hq.flag, pos_toNat_of_lt h]

theorem Wf.head_toNat {q : Queue α w} (hq : q.Wf) (h : q.FirstRound) :
    q.head.toNat = q.committed := by
  rw [hq.head, pos_toNat_of_lt (hq.head_le.trans_lt h)]

theorem Wf.tail_toNat {q : Queue α w} (hq : q.Wf) (h : q.FirstRound) :
    q.tail.toNat = q.popped.length := by
  rw [hq.tail, pos_toNat_of_lt ((hq.tail_le.trans hq.head_le).trans_lt h)]

/-- In the first round a slot that says that it is written is not one that was
committed. -/
theorem Wf.written_toNat {q : Queue α w} (hq : q.Wf) (h : q.FirstRound) {i : BitVec w}
    (hi : (q.block i).flag = wide i) : q.committed ≤ i.toNat ∧ i.toNat < q.claimed.length := by
  obtain ⟨k, hk, hk', rfl, -⟩ := hq.written i hi
  rw [pos_toNat_of_lt (hk'.trans h)]
  exact ⟨hk, hk'⟩

/-- The numbers of the values that were popped are the first ones. -/
theorem Wf.numbers {q : Queue α w} (hq : q.Wf) :
    q.popped.map (Option.map Prod.snd) = (List.range q.popped.length).map some := by
  rw [hq.fifo]
  simp only [List.length_map, List.length_range, List.map_map]
  refine List.map_congr_left fun j hj => ?_
  have hlt := hq.lt_of_popped (List.mem_range.mp hj)
  simp [Wf.entry_some hlt]

theorem Tame.mono {q q' : Queue α w} {p : Pc α w} (h : q.Tame p) (hc : q.committed ≤ q'.committed)
    (hp : q.popped.length ≤ q'.popped.length) : q'.Tame p := by
  cases p with
  | pushCommit | popSlot | popCommit => exact Nat.le_trans h hc
  | popHead => exact Nat.le_trans h hp
  | _ => exact h

/-- The counters do not go back. -/
theorem access_mono (ok : Bool) (q : Queue α w) (p : Pc α w) :
    q.committed ≤ (q.access ok p).1.committed ∧ q.popped.length ≤ (q.access ok p).1.popped.length := by
  cases p <;> simp only [access]
  case pushAdvance | popAdvance => exact ⟨Nat.le_succ _, le_rfl⟩
  case popTake => split <;> exact ⟨le_rfl, by simp⟩
  all_goals
    repeat' split
    all_goals exact ⟨le_rfl, by simp⟩

/-- The thread goes on with a small index. -/
theorem Tame.access {q : Queue α w} {p : Pc α w} (h : q.Tame p) (hq : q.Wf) (hr : q.FirstRound)
    (ok : Bool) : (q.access ok p).1.Tame (q.access ok p).2 := by
  have hhead := hq.head_toNat hr
  have htail := hq.tail_toNat hr
  cases p with
  | pushHead curFlag cacFlag own =>
    simp only [Queue.access]
    split
    · trivial
    · rename_i he
      split
      · trivial
      · rw [not_not] at he
        exact (congrArg BitVec.toNat he).trans hhead |>.le
  | popTail => exact htail.le
  | popHead curTail =>
    simp only [Queue.access]
    split
    · exact hhead.le
    · exact h
  | popSlot curHead =>
    simp only [Queue.access]
    split
    · trivial
    · exact h
  | popData curTail seen => exact h
  | popTake curTail val seen =>
    simp only [Queue.access]
    split
    · trivial
    · exact htail.le
  | idle | pushFlag | pushData | pushStore | pushSlot | pushAdvance | popAdvance => trivial
  | pushTail | pushClaim | pushCommit | popCommit =>
    simp only [Queue.access]
    repeat' split
    all_goals trivial

/-- **The first round is fresh.** -/
theorem Tame.fresh {q : Queue α w} {p : Pc α w} (h : q.Tame p) (hq : q.Wf) {ok : Bool}
    (hr : q.FirstRound) (hr' : (q.access ok p).1.FirstRound) (hp : q.Fits p) : q.Fresh ok p := by
  have hcommit : ∀ i : BitVec w, (q.block i).flag = wide i → i.toNat ≤ q.committed →
      i = q.head ∧ i ≠ sizeLimit w := by
    intro i hi hle
    obtain ⟨hge, hlt⟩ := hq.written_toNat hr hi
    constructor
    · apply BitVec.eq_of_toNat_eq
      rw [hq.head_toNat hr]
      omega
    · rintro rfl
      rw [sizeLimit, BitVec.toNat_allOnes] at hlt
      have : q.claimed.length < 2 ^ w := hr
      omega
  cases p with
  | pushClaim val curFlag =>
    intro hok hflag he
    rw [Queue.access, if_pos ⟨hok, hflag⟩, FirstRound, length_claim] at hr'
    have hnat := congrArg BitVec.toNat he
    have hle := hq.tail_le.trans hq.head_le
    rw [hq.flag, hq.tail_toNat hr] at hnat
    change (pos w _ + 1#w).toNat = _ at hnat
    rw [pos_succ, pos_toNat_of_lt hr'] at hnat
    omega
  | pushCommit curFlag own => exact fun hi => (hcommit curFlag hi h).1
  | popCommit curHead => exact fun _ hi => hcommit curHead hi h
  | popTake curTail val seen =>
    intro _ htail
    have hseen : seen ≤ q.popped.length := hp.1
    have hcur : curTail.toNat ≤ seen := h
    rw [← htail, hq.tail_toNat hr] at hcur
    exact le_antisymm hseen hcur
  | _ => trivial

/-- Where a thread is that pops, with nobody else about. -/
def Alone (q : Queue α w) : Pc α w → Prop
  | .idle | .popTail => True
  | .popHead curTail => curTail = q.tail
  | .popSlot i => i = q.head ∧ q.popped.length = q.committed
  | .popCommit i => i = q.head ∧ q.popped.length = q.committed ∧ (q.block i).flag = wide i
  | .popAdvance _ => q.popped.length = q.committed
  | .popData curTail seen | .popTake curTail _ seen => curTail = q.tail ∧ seen = q.popped.length
  | _ => False

/-- How many accesses are left of a pop, when none fails for no reason. -/
def left (q : Queue α w) : Pc α w → Nat
  | .popTake .. => 1
  | .popData .. => 2
  | .popHead _ => if q.popped.length = q.committed then 8 else 3
  | .popTail => if q.popped.length = q.committed then 9 else 4
  | .popAdvance _ => 5
  | .popCommit _ => 6
  | .popSlot _ => 7
  | _ => 0

end Queue

theorem Queue.left_le (q : Queue α w) (p : Pc α w) : q.left p ≤ 9 := by
  cases p <;> simp only [left]
  case popTail | popHead => split <;> omega
  all_goals omega

theorem Queue.left_popHead (q : Queue α w) (curTail : BitVec w) :
    q.left (.popHead curTail) < q.left .popTail := by
  by_cases h : q.popped.length = q.committed
  · simp [left, h]
  · simp [left, h]

/-- A call that is not over. -/
def Pc.calls : Pc α w → Nat
  | .idle => 0
  | _ => 1

def Op.isPop {τ : Type} : Op τ α → Bool
  | .pop _ => true
  | _ => false

namespace System

variable {τ : Type}

/-- The invariant of the first round. -/
structure Early (s : System τ α w) : Prop where
  inv : s.Inv
  tame : ∀ t, s.queue.Tame (s.pc t)

/-- No call is in progress. -/
def Quiet (s : System τ α w) : Prop := ∀ t, s.pc t = .idle

/-- What was accepted and not popped yet, in the order of the slots. -/
def owed (s : System τ α w) : List (Option (Entry α)) :=
  ((List.range s.queue.claimed.length).filter fun k =>
    k ∈ s.queue.accepted ∧ some k ∉ s.queue.popped.map (Option.map Prod.snd)).map s.queue.entry

/-- What was claimed and not popped yet. -/
def rest (s : System τ α w) : List (Option (Entry α)) :=
  (List.range' s.queue.popped.length (s.queue.claimed.length - s.queue.popped.length)).map
    s.queue.entry

/-- `t` does nothing but pop. -/
def Pops (t : τ) (op : Op τ α) : Prop := op = .pop t ∨ ∃ ok, op = .access t ok

/-- The pops have returned the first `n` values of what was left in `s`, and nothing
`m` times, the latter only when there was no value left. -/
structure Delivered (s : System τ α w) (n m : Nat) (q : Queue α w) : Prop where
  returned : q.returned = s.queue.returned ++ (s.rest.take n).map some ++ List.replicate m none
  count : q.popped.length = s.queue.popped.length + n
  all : m ≠ 0 → q.popped.length = q.claimed.length

/-- `s'` is reached from `s` by `k` pops of `t`, the last of which may not be over. -/
structure Popping (s : System τ α w) (t : τ) (k : Nat) (s' : System τ α w) : Prop where
  inv : s'.Inv
  first : s'.queue.FirstRound
  claimed : s'.queue.claimed = s.queue.claimed
  others : ∀ u, u ≠ t → s'.pc u = .idle
  alone : s'.queue.Alone (s'.pc t)
  delivered : ∃ n m, s.Delivered n m s'.queue ∧ n + m + (s'.pc t).calls = k

variable {s s' : System τ α w} {t : τ} {k : Nat}

/-- When all calls are over, every push that has claimed a slot has been accepted. -/
theorem Inv.mem_accepted (hs : s.Inv) (hq : s.Quiet) {j : Nat} (hj : j < s.queue.claimed.length) :
    j ∈ s.queue.accepted := by
  rcases (hs.numbered.all j).mp hj with h | ⟨t, ht⟩
  · exact h
  · rw [hq t] at ht
    cases ht

theorem Inv.owed_eq_rest (hs : s.Inv) (hq : s.Quiet) : s.owed = s.rest := by
  have hle : s.queue.popped.length ≤ s.queue.claimed.length := hs.wf.tail_le.trans hs.wf.head_le
  rw [owed, rest, hs.wf.numbers]
  congr 1
  have hrange : List.range s.queue.claimed.length = List.range s.queue.popped.length ++
      List.range' s.queue.popped.length (s.queue.claimed.length - s.queue.popped.length) := by
    conv_lhs => rw [List.range_eq_range', ← Nat.add_sub_cancel' hle, ← List.range'_append_1]
    rw [Nat.zero_add, ← List.range_eq_range']
  rw [hrange, List.filter_append, List.filter_eq_nil_iff.mpr, List.filter_eq_self.mpr, List.nil_append]
  · intro j hj
    obtain ⟨hge, hlt⟩ := List.mem_range'_1.mp hj
    have hacc := hs.mem_accepted hq (j := j) (by omega)
    simp [hacc, hge]
  · intro j hj
    simp [List.mem_range.mp hj]

theorem Delivered.same {n m : Nat} {q q' : Queue α w} (h : s.Delivered n m q)
    (hreturned : q'.returned = q.returned) (hclaimed : q'.claimed = q.claimed) :
    s.Delivered n m q' := by
  have hpopped : q'.popped = q.popped := by rw [Queue.popped, hreturned, Queue.popped]
  exact ⟨hreturned.trans h.returned, hpopped ▸ h.count, by rw [hpopped, hclaimed]; exact h.all⟩

theorem Delivered.refuse {n m : Nat} {q : Queue α w} (h : s.Delivered n m q)
    (hall : q.popped.length = q.claimed.length) : s.Delivered n (m + 1) q.refuse := by
  refine ⟨?_, by rw [Queue.popped_refuse]; exact h.count, fun _ => by rw [Queue.popped_refuse]; exact hall⟩
  rw [Queue.refuse, h.returned, List.replicate_succ', List.append_assoc _ (List.replicate m none)]

theorem Delivered.take {n m : Nat} {q : Queue α w} (h : s.Delivered n m q)
    (hclaimed : q.claimed = s.queue.claimed) (hlt : q.popped.length < q.claimed.length) :
    m = 0 ∧ s.Delivered (n + 1) 0 (q.take (q.entry q.popped.length)) := by
  have hm : m = 0 := by
    by_contra hm
    exact hlt.ne (h.all hm)
  subst hm
  have hlen : n < s.rest.length := by
    have := h.count
    rw [hclaimed] at hlt
    simp only [rest, List.length_map, List.length_range']
    omega
  have hentry : s.rest[n] = q.entry q.popped.length := by
    simp [rest, h.count, Queue.entry, hclaimed]
  refine ⟨rfl, ?_, ?_, fun h => absurd rfl h⟩
  · rw [Queue.take, h.returned, List.take_succ_eq_append_getElem hlen, hentry]
    simp
  · rw [Queue.popped_take, List.length_append, List.length_singleton, h.count, Nat.add_assoc]

/-- How many values were returned is how many pops there were, up to what was left. -/
theorem Delivered.returned_eq {n m : Nat} {q : Queue α w} (h : s.Delivered n m q)
    (hclaimed : q.claimed = s.queue.claimed) (hle : q.popped.length ≤ q.claimed.length) :
    q.returned = s.queue.returned ++ (s.rest.take (n + m)).map some ++
      List.replicate (n + m - s.rest.length) none := by
  have hlen : s.rest.length = s.queue.claimed.length - s.queue.popped.length := by
    simp [rest]
  have hcount := h.count
  rw [hclaimed] at hle
  rw [h.returned]
  by_cases hm : m = 0
  · subst hm
    rw [Nat.add_zero, Nat.sub_eq_zero_of_le (by omega)]
  · have hall := h.all hm
    rw [hclaimed] at hall
    have hn : s.rest.length = n := by omega
    rw [List.take_of_length_le hn.le, List.take_of_length_le (by omega), hn, Nat.add_sub_cancel_left]

theorem Popping.fresh (h : Popping s t k s') (ok : Bool) : s'.queue.Fresh ok (s'.pc t) := by
  have halone := h.alone
  cases hpc : s'.pc t with
  | popCommit i =>
    rw [hpc] at halone
    intro _ hi
    refine ⟨halone.1, ?_⟩
    rintro rfl
    have hlt := (h.inv.wf.written_toNat h.first hi).2
    have hfirst : s'.queue.claimed.length < 2 ^ w := h.first
    rw [sizeLimit, BitVec.toNat_allOnes] at hlt
    omega
  | popTake curTail val seen =>
    rw [hpc] at halone
    exact fun _ _ => halone.2
  | pushClaim | pushCommit =>
    rw [hpc] at halone
    exact halone.elim
  | _ => trivial

/-- A slot that does not say that it is written is not claimed. -/
theorem Popping.empty (h : Popping s t k s') {i : BitVec w} (hpc : s'.pc t = .popSlot i)
    (hi : (s'.queue.block i).flag ≠ wide i) : s'.queue.popped.length = s'.queue.claimed.length := by
  have halone := h.alone
  rw [hpc] at halone
  obtain ⟨rfl, hcount⟩ := halone
  rw [hcount]
  refine Nat.le_antisymm h.inv.wf.head_le (Nat.le_of_not_lt fun hlt => ?_)
  have hrole : ∀ u, (s'.pc u).unwritten? = none ∧ ¬ (s'.pc u).Advances := by
    intro u
    by_cases hu : u = t
    · subst hu
      rw [hpc]
      exact ⟨rfl, id⟩
    · rw [h.others u hu]
      exact ⟨rfl, id⟩
  rw [h.inv.wf.head] at hi
  rcases h.inv.handed.complete _ le_rfl hlt with ⟨u, hu⟩ | hf | ⟨-, u, hu⟩
  · rw [(hrole u).1] at hu
    cases hu
  · exact hi hf
  · exact (hrole u).2 hu

variable [DecidableEq τ]

theorem update_tame {q : Queue α w} {pc : τ → Pc α w} {p : Pc α w} (hp : q.Tame p)
    (hothers : ∀ u, u ≠ t → q.Tame (pc u)) (u : τ) : q.Tame (Function.update pc t p u) :=
  (Function.forall_update_iff pc fun _ p => q.Tame p).mpr ⟨hp, hothers⟩ u

theorem step_early (hw : w < 64) {op : Op τ α} (hs : s.Early) (hr : s.queue.FirstRound)
    (hr' : s'.queue.FirstRound) (h : s.step op = .ok s') : s'.Early := by
  cases op with
  | push t val =>
    refine ⟨step_inv hw hs.inv (show s.Fresh (.push t val) from trivial) h, ?_⟩
    obtain ⟨-, rfl⟩ := step_push_eq_ok.mp h
    exact update_tame trivial fun u _ => hs.tame u
  | pop t =>
    refine ⟨step_inv hw hs.inv (show s.Fresh (.pop t) from trivial) h, ?_⟩
    obtain ⟨-, rfl⟩ := step_pop_eq_ok.mp h
    exact update_tame trivial fun u _ => hs.tame u
  | access t ok =>
    obtain ⟨-, rfl⟩ := step_access_eq_ok.mp h
    have hfresh := (hs.tame t).fresh hs.inv.wf hr hr' (hs.inv.fits t)
    obtain ⟨hc, hp⟩ := Queue.access_mono ok s.queue (s.pc t)
    exact ⟨access_inv hw hs.inv hfresh, update_tame ((hs.tame t).access hs.inv.wf hr ok)
      fun u _ => (hs.tame u).mono hc hp⟩

/-! ## Popping what is left -/

/-- The thread goes on. -/
theorem Popping.goOn {q : Queue α w} {p : Pc α w} {k' : Nat} (h : Popping s t k s')
    (hinv : (s'.goOn t q p).Inv) (hclaimed : q.claimed = s'.queue.claimed) (halone : q.Alone p)
    (hdelivered : ∃ n m, s.Delivered n m q ∧ n + m + p.calls = k') :
    Popping s t k' (s'.goOn t q p) where
  inv := hinv
  first := by
    have := h.first
    rw [Queue.FirstRound, ← hclaimed] at this
    exact this
  claimed := hclaimed.trans h.claimed
  others u hu := by simpa [System.goOn, hu] using h.others u hu
  alone := by simpa [System.goOn] using halone
  delivered := by simpa [System.goOn] using hdelivered

/-- **One access of a thread that pops alone**, which brings it nearer to the end of
its call. -/
theorem Popping.access (hw : w < 64) (h : Popping s t k s') (hbusy : s'.pc t ≠ .idle) (ok : Bool) :
    Popping s t k (s'.goOn t (s'.queue.access ok (s'.pc t)).1 (s'.queue.access ok (s'.pc t)).2) ∧
      (ok = true → (s'.queue.access ok (s'.pc t)).1.left (s'.queue.access ok (s'.pc t)).2 <
        s'.queue.left (s'.pc t)) := by
  have hinv := access_inv hw h.inv (h.fresh ok)
  have halone := h.alone
  have hwf := h.inv.wf
  obtain ⟨n, m, hd, hk⟩ := h.delivered
  have hround : s'.queue.tail = s'.queue.head ↔ s'.queue.popped.length = s'.queue.committed := by
    have hroom := hwf.room
    have hle := hwf.head_le
    have hpos : 0 < 2 ^ w := Nat.two_pow_pos w
    rw [hwf.tail, hwf.head]
    exact pos_inj le_rfl (by omega) hwf.tail_le (by omega)
  cases hpc : s'.pc t with
  | popTail =>
    rw [hpc] at hinv hk
    exact ⟨h.goOn hinv rfl rfl ⟨n, m, hd, hk⟩, fun _ => Queue.left_popHead _ _⟩
  | popHead curTail =>
    rw [hpc] at hinv halone hk
    obtain rfl : curTail = s'.queue.tail := halone
    by_cases he : s'.queue.tail = s'.queue.head
    · have hsame := hround.mp he
      simp only [Queue.access, if_pos he, Queue.left, if_pos hsame] at hinv ⊢
      exact ⟨h.goOn hinv rfl (And.intro rfl hsame) ⟨n, m, hd, hk⟩, fun _ => by omega⟩
    · simp only [Queue.access, if_neg he, Queue.left, if_neg (mt hround.mpr he)] at hinv ⊢
      exact ⟨h.goOn hinv rfl (And.intro rfl rfl) ⟨n, m, hd, hk⟩, fun _ => by omega⟩
  | popSlot i =>
    rw [hpc] at hinv halone hk
    by_cases he : (s'.queue.block i).flag = wide i
    · simp only [Queue.access, not_not.mpr he, ↓reduceIte, Queue.left] at hinv ⊢
      exact ⟨h.goOn hinv rfl (And.intro halone.1 ⟨halone.2, he⟩) ⟨n, m, hd, hk⟩, fun _ => by omega⟩
    · have hrefuse := hd.refuse (h.empty hpc he)
      simp only [Queue.access, ne_eq, he, not_false_eq_true, ↓reduceIte, Queue.left] at hinv ⊢
      exact ⟨h.goOn hinv rfl trivial ⟨n, m + 1, hrefuse, hk⟩, fun _ => by omega⟩
  | popCommit i =>
    rw [hpc] at hinv halone hk
    cases ok with
    | true =>
      simp only [Queue.access, halone.2.2, and_self, ↓reduceIte, Queue.left] at hinv ⊢
      exact ⟨h.goOn hinv rfl halone.2.1 ⟨n, m, hd.same rfl rfl, hk⟩, fun _ => by omega⟩
    | false =>
      simp only [Queue.access, Bool.false_eq_true, false_and, ↓reduceIte] at hinv ⊢
      exact ⟨h.goOn hinv rfl trivial ⟨n, m, hd, hk⟩, False.elim⟩
  | popAdvance i =>
    rw [hpc] at hinv halone hk
    have hcount : s'.queue.popped.length = s'.queue.committed := halone
    have hne : (s'.queue.advance i).popped.length ≠ (s'.queue.advance i).committed := by
      rw [Queue.popped_advance, hcount]
      exact (Nat.lt_succ_self _).ne
    refine ⟨h.goOn hinv rfl trivial ⟨n, m, hd.same rfl rfl, hk⟩, fun _ => ?_⟩
    exact (if_neg hne).trans_lt (Nat.lt_succ_self 4)
  | popData curTail seen =>
    rw [hpc] at hinv halone hk
    exact ⟨h.goOn hinv rfl halone ⟨n, m, hd, hk⟩, fun _ => Nat.lt_succ_self 1⟩
  | popTake curTail val seen =>
    rw [hpc] at hinv halone hk
    obtain ⟨rfl, hseen⟩ := halone
    cases ok with
    | true =>
      obtain ⟨-, hfits⟩ := hpc ▸ h.inv.fits t
      obtain ⟨hlt, rfl⟩ := hfits hseen rfl
      obtain ⟨rfl, htake⟩ := hd.take h.claimed (hlt.trans_le hwf.head_le)
      simp only [Queue.access, and_self, ↓reduceIte, Queue.left] at hinv ⊢
      exact ⟨h.goOn hinv rfl trivial ⟨n + 1, 0, htake, hk⟩, fun _ => by omega⟩
    | false =>
      simp only [Queue.access, Bool.false_eq_true, false_and, ↓reduceIte] at hinv ⊢
      exact ⟨h.goOn hinv rfl rfl ⟨n, m, hd, hk⟩, False.elim⟩
  | idle => exact absurd hpc hbusy
  | _ =>
    rw [hpc] at halone
    exact halone.elim

theorem Popping.start (h : Popping s t k s') (hidle : s'.pc t = .idle) :
    Popping s t (k + 1) (s'.goOn t s'.queue .popTail) := by
  obtain ⟨n, m, hd, hk⟩ := h.delivered
  rw [hidle] at hk
  exact h.goOn (h.inv.look hidle trivial) rfl trivial ⟨n, m, hd, congrArg Nat.succ hk⟩

theorem Popping.step (hw : w < 64) {s'' : System τ α w} {op : Op τ α} (h : Popping s t k s')
    (hop : Pops t op) (hs : s'.step op = .ok s'') :
    Popping s t (k + if op.isPop then 1 else 0) s'' := by
  rcases hop with rfl | ⟨ok, rfl⟩
  · obtain ⟨hidle, rfl⟩ := step_pop_eq_ok.mp hs
    exact h.start hidle
  · obtain ⟨hbusy, rfl⟩ := step_access_eq_ok.mp hs
    exact (h.access hw hbusy ok).1

/-- A run of pops. -/
theorem Popping.run (hw : w < 64) {ops : List (Op τ α)} {s'' : System τ α w} (h : Popping s t k s')
    (hops : ∀ op ∈ ops, Pops t op) (hr : Runs.run System.step s' ops = .ok s'') :
    Popping s t (k + ops.countP Op.isPop) s'' := by
  induction ops generalizing s' k with
  | nil =>
    cases hr
    exact h
  | cons op ops ih =>
    obtain ⟨s₁, hs, hr⟩ := run_cons_inv hr
    have h₁ := ih (h.step hw (hops op List.mem_cons_self) hs)
      (fun op' hop' => hops op' (List.mem_cons_of_mem _ hop')) hr
    rwa [Nat.add_assoc, Nat.add_comm (ite _ _ _), ← List.countP_cons] at h₁

/-- A pop ends, by the number of accesses that are left of it. -/
theorem Popping.ends (hw : w < 64) (h : Popping s t k s') :
    ∃ j ≤ s'.queue.left (s'.pc t), ∃ s'', Runs.run System.step s' (accesses t j) = .ok s'' ∧
      s''.pc t = .idle := by
  induction hl : s'.queue.left (s'.pc t) using Nat.strong_induction_on generalizing s' with
  | _ l ih =>
    by_cases hidle : s'.pc t = .idle
    · exact ⟨0, Nat.zero_le _, s', rfl, hidle⟩
    · obtain ⟨h₁, hlt⟩ := h.access hw hidle true
      have hs : s'.step (.access t true) = .ok (s'.goOn t (s'.queue.access true (s'.pc t)).1
          (s'.queue.access true (s'.pc t)).2) := step_access_eq_ok.mpr ⟨hidle, rfl⟩
      have hlt' : (s'.queue.access true (s'.pc t)).1.left (s'.queue.access true (s'.pc t)).2 < l :=
        hl ▸ hlt rfl
      obtain ⟨j, hj, s'', hr, hidle'⟩ := ih _ hlt' h₁ (by simp [System.goOn])
      exact ⟨j + 1, hj.trans_lt hlt', s'', (run_cons hs _).trans hr, hidle'⟩

/-- Pops of `t` return what is owed, in the order of the slots, and then nothing; and
they return: nine accesses end a pop, when no compare-exchange fails for no reason. -/
structure Drains (s : System τ α w) (t : τ) : Prop where
  returns : ∀ ops s', (∀ op ∈ ops, Pops t op) → run System.step s ops = .ok s' → s'.pc t = .idle →
    s'.queue.returned = s.queue.returned ++ (s.owed.take (ops.countP Op.isPop)).map some ++
      List.replicate (ops.countP Op.isPop - s.owed.length) none
  ends : ∀ ops s', (∀ op ∈ ops, Pops t op) → run System.step s ops = .ok s' →
    ∃ j ≤ 9, ∃ s'', run System.step s' (accesses t j) = .ok s'' ∧ s''.pc t = .idle

theorem Inv.drains (hw : w < 64) (hs : s.Inv) (hr : s.queue.FirstRound) (hq : s.Quiet) (t : τ) :
    s.Drains t := by
  have hstart : Popping s t 0 s := by
    refine ⟨hs, hr, rfl, fun u _ => hq u, ?_, 0, 0, ⟨by simp, rfl, fun h => absurd rfl h⟩, ?_⟩
    · rw [hq t]
      trivial
    · rw [hq t]
      rfl
  constructor
  · intro ops s' hops hrun hidle
    have h := hstart.run hw hops hrun
    obtain ⟨n, m, hd, hk⟩ := h.delivered
    rw [hidle, Nat.zero_add] at hk
    rw [hs.owed_eq_rest hq, ← hk]
    exact hd.returned_eq h.claimed (h.inv.wf.tail_le.trans h.inv.wf.head_le)
  · intro ops s' hops hrun
    obtain ⟨j, hj, hend⟩ := (hstart.run hw hops hrun).ends hw
    exact ⟨j, hj.trans (Queue.left_le _ _), hend⟩

/-- The indices are in order, values have been popped in the order of their slots, and
when no call is in progress, what is left can be popped. -/
structure Handshake (s : System τ α w) : Prop where
  tail_le : s.queue.tail.toNat ≤ s.queue.head.toNat
  head_le : s.queue.head.toNat ≤ s.queue.flag.toNat
  flag_le : s.queue.flag.toNat ≤ s.queue.tail.toNat + (sizeLimit w).toNat
  fifo : s.queue.popped = (List.range s.queue.popped.length).map s.queue.entry
  drains : s.Quiet → ∀ t, s.Drains t

theorem Early.handshake (hw : w < 64) (hs : s.Early) (hr : s.queue.FirstRound) : s.Handshake where
  tail_le := by
    rw [hs.inv.wf.tail_toNat hr, hs.inv.wf.head_toNat hr]
    exact hs.inv.wf.tail_le
  head_le := by
    rw [hs.inv.wf.head_toNat hr, hs.inv.wf.flag_toNat hr]
    exact hs.inv.wf.head_le
  flag_le := by
    have hlt : s.queue.claimed.length < 2 ^ w := hr
    rw [hs.inv.wf.flag_toNat hr, sizeLimit, BitVec.toNat_allOnes]
    omega
  fifo := hs.inv.wf.fifo
  drains hq t := hs.inv.drains hw hr hq t

end System

end Mpmc

open Mpmc (accesses)

end Footstone
