import Footstone.Lib.Calls
import Footstone.MpmcReuse

/-!
Calls of `mpmc_queue`, one after another. A push that nobody disturbs commits its own
slot, finds the flag of the next one invalid, and returns.
-/

namespace Footstone

namespace Mpmc

open Runs Ring Calls

variable {α : Type} {w : Nat}

/-- A call, with what its weak compare-exchanges are told, access by access. -/
inductive Call (α : Type) where
  | push (val : α) (oks : List Bool)
  | pop (oks : List Bool)

/-- What a call returns that is over with this access. -/
def Pc.result : Pc α w → Bool
  | .pushTail .. | .popSlot _ => false
  | _ => true

namespace Queue

/-- An access of `push` or `pop`. -/
def callAccess : Access Bool (Queue α w) (Pc α w) Bool := fun ok q p =>
  match q.access ok p with
  | (q', .idle) => (q', .inr p.result)
  | (q', p') => (q', .inl p')

def call (q : Queue α w) : Call α → Except Unfinished (Queue α w × Bool)
  | .push val oks => Calls.call callAccess oks q (.pushFlag val)
  | .pop oks => Calls.call callAccess oks q .popTail

def step (q : Queue α w) (c : Call α) : Except Unfinished (Queue α w) := (q.call c).map Prod.fst

/-- The tests of `push`. -/
def Room (q : Queue α w) : Prop :=
  q.flag + 1 ≠ q.tail ∧ (q.flag + 1 - q.tail).toNat < q.maxSize

instance (q : Queue α w) : Decidable q.Room :=
  inferInstanceAs (Decidable (_ ∧ _))

/-- The next slot is claimed and written. -/
def written (val : α) (q : Queue α w) : Queue α w := q.stored q.flag val q.claimed.length

/-- It is committed as well. -/
def passedOn (val : α) (q : Queue α w) : Queue α w := (q.written val).passed q.flag invalidIndex

/-- And the push has returned. -/
def filled (val : α) (q : Queue α w) : Queue α w := (q.passedOn val).accept q.claimed.length

/-- What `push` does when nothing comes in between. -/
def pushed (val : α) (q : Queue α w) : Queue α w × Bool :=
  if q.Room then (q.filled val, true) else (q, false)

/-- The same for `pop`. -/
def drained (q : Queue α w) : Queue α w × Bool :=
  if q.tail = q.head then (q.refuse, false) else (q.take (q.block q.tail).data, true)

/-- How many elements are held. -/
def held (q : Queue α w) : Nat := q.claimed.length - q.popped.length

/-- What holds of the queue when no call is on. -/
structure Rest (q : Queue α w) : Prop where
  wf : q.Wf
  committed : q.committed = q.claimed.length
  accepted : q.accepted = (List.range q.claimed.length).reverse
  flags : ∀ i, (q.block i).flag = invalidIndex
  bound : q.held ≤ q.maxSize - 1

/-! ## A push -/

/-- A push that has claimed its slot, with the accesses that are left. -/
inductive Claimed (val : α) (q : Queue α w) : Nat → Queue α w → Pc α w → Prop where
  | data : Claimed val q 7 (q.claim val) (.pushData val q.flag q.claimed.length)
  | store : Claimed val q 6 ((q.claim val).setData q.flag (val, q.claimed.length))
      (.pushStore q.flag q.claimed.length)
  | slot : Claimed val q 5 (q.written val) (.pushSlot q.flag q.claimed.length)
  | head : Claimed val q 4 (q.written val) (.pushHead q.flag (wide q.flag) q.claimed.length)
  | commit : Claimed val q 3 (q.written val) (.pushCommit q.flag q.claimed.length)
  | advance : Claimed val q 2 ((q.written val).setFlag q.flag invalidIndex)
      (.pushAdvance q.flag q.claimed.length)
  | next : Claimed val q 1 (q.passedOn val) (.pushSlot (q.flag + 1) q.claimed.length)
  | leave : Claimed val q 0 (q.passedOn val)
      (.pushHead (q.flag + 1) invalidIndex q.claimed.length)

/-- A push, with the accesses that are left when none fails for no reason. -/
inductive Pushing (val : α) (q : Queue α w) : Nat → Queue α w → Pc α w → Prop where
  | flag : Pushing val q 10 q (.pushFlag val)
  | tail : Pushing val q 9 q (.pushTail val q.flag)
  | claim : q.Room → Pushing val q 8 q (.pushClaim val q.flag)
  | claimed {k : Nat} {q' : Queue α w} {p : Pc α w} :
      q.Room → Claimed val q k q' p → Pushing val q k q' p

variable {q : Queue α w}

theorem goesOn {ok : Bool} {q' : Queue α w} {p p' : Pc α w} (h : q.access ok p = (q', p'))
    (hp : p' ≠ .idle) : callAccess ok q p = (q', .inl p') := by
  rw [callAccess, h]
  cases p' with
  | idle => exact absurd rfl hp
  | _ => rfl

theorem returns {ok : Bool} {q' : Queue α w} {p : Pc α w} (h : q.access ok p = (q', .idle)) :
    callAccess ok q p = (q', .inr p.result) := by
  rw [callAccess, h]

@[simp] theorem head_written (val : α) (q : Queue α w) : (q.written val).head = q.head := rfl

@[simp] theorem head_passedOn (val : α) (q : Queue α w) : (q.passedOn val).head = q.flag + 1 := rfl

theorem block_written (val : α) (q : Queue α w) :
    (q.written val).block q.flag = { data := some (val, q.claimed.length), flag := wide q.flag } :=
  block_stored _ _ _ _

theorem block_passedOn (val : α) (q : Queue α w) : (q.passedOn val).block q.flag =
    { data := some (val, q.claimed.length), flag := invalidIndex } := by
  rw [passedOn, block_passed, block_written]

theorem block_passedOn_of_ne {i : BitVec w} (h : i ≠ q.flag) (val : α) :
    (q.passedOn val).block i = q.block i :=
  (block_passed_of_ne h _ _).trans (block_stored_of_ne h _ _ _)

/-- All flags are invalid again, that of the slot behind among them. -/
theorem Rest.flags_passedOn (hq : q.Rest) (val : α) (i : BitVec w) :
    ((q.passedOn val).block i).flag = invalidIndex := by
  by_cases h : i = q.flag
  · rw [h, block_passedOn]
  · rw [block_passedOn_of_ne h]
    exact hq.flags i

/-- Once the slot is claimed, whatever the accesses are told. -/
theorem Rest.claimed_keeps (hw : w < 64) (hq : q.Rest) (val : α) :
    Keeps callAccess (fun _ => True) (Claimed val q) fun q' b => b = true ∧ q' = q.filled val := by
  have hhead : q.flag = q.head := by rw [hq.wf.head, hq.wf.flag, hq.committed]
  intro k s p ok hI
  cases hI with
  | data => exact leads_goOn (goesOn rfl (by simp)) .store fun _ => by omega
  | store => exact leads_goOn (goesOn rfl (by simp)) .slot fun _ => by omega
  | slot =>
    have h : (q.written val).access ok (.pushSlot q.flag q.claimed.length) =
        (q.written val, .pushHead q.flag (wide q.flag) q.claimed.length) := by
      rw [access, block_written]
    exact leads_goOn (goesOn h (by simp)) .head fun _ => by omega
  | head =>
    have h : (q.written val).access ok (.pushHead q.flag (wide q.flag) q.claimed.length) =
        (q.written val, .pushCommit q.flag q.claimed.length) := by
      rw [access, head_written, if_neg (not_not.mpr hhead), if_neg (not_not.mpr rfl)]
    exact leads_goOn (goesOn h (by simp)) .commit fun _ => by omega
  | commit =>
    have h : (q.written val).access ok (.pushCommit q.flag q.claimed.length) =
        ((q.written val).setFlag q.flag invalidIndex, .pushAdvance q.flag q.claimed.length) := by
      rw [access, block_written, if_pos rfl]
    exact leads_goOn (goesOn h (by simp)) .advance fun _ => by omega
  | advance => exact leads_goOn (goesOn rfl (by simp)) .next fun _ => by omega
  | next =>
    have h : (q.passedOn val).access ok (.pushSlot (q.flag + 1) q.claimed.length) =
        (q.passedOn val, .pushHead (q.flag + 1) invalidIndex q.claimed.length) := by
      rw [access, hq.flags_passedOn]
    exact leads_goOn (goesOn h (by simp)) .leave fun _ => by omega
  | leave =>
    have h : (q.passedOn val).access ok (.pushHead (q.flag + 1) invalidIndex q.claimed.length) =
        (q.filled val, .idle) := by
      rw [access, head_passedOn, if_neg (not_not.mpr rfl), if_pos (invalidIndex_ne_wide hw _)]
      rfl
    exact leads_return (returns h) ⟨rfl, rfl⟩

theorem Rest.pushing_keeps (hw : w < 64) (hq : q.Rest) (val : α) :
    Keeps callAccess (· = true) (Pushing val q) fun q' b => q.pushed val = (q', b) := by
  intro k s p ok hI
  cases hI with
  | flag => exact leads_goOn (goesOn rfl (by simp)) .tail fun _ => by omega
  | tail =>
    by_cases hroom : q.Room
    · have h : q.access ok (.pushTail val q.flag) = (q, .pushClaim val q.flag) := by
        rw [access, if_neg hroom.1, if_neg (Nat.not_le.mpr hroom.2)]
      exact leads_goOn (goesOn h (by simp)) (.claim hroom) fun _ => by omega
    · have h : q.access ok (.pushTail val q.flag) = (q, .idle) := by
        rw [access]
        split
        · rfl
        · rename_i hne
          rw [if_pos (Nat.not_lt.mp fun hlt => hroom ⟨hne, hlt⟩)]
      exact leads_return (returns h) (if_neg hroom)
  | claim hroom =>
    cases ok with
    | true =>
      have h : q.access true (.pushClaim val q.flag) =
          (q.claim val, .pushData val q.flag q.claimed.length) := by
        rw [access, if_pos ⟨rfl, rfl⟩]
      exact leads_goOn (goesOn h (by simp)) (.claimed hroom .data) fun _ => by omega
    | false =>
      have h : q.access false (.pushClaim val q.flag) = (q, .pushTail val q.flag) := by
        rw [access, if_neg (by simp)]
      exact leads_goOn (goesOn h (by simp)) .tail (by simp)
  | claimed hroom hI =>
    obtain ⟨hgo, hret⟩ := hq.claimed_keeps hw val k s p ok hI
    refine ⟨fun s' p' h => ?_, fun s' b h => ?_⟩
    · obtain ⟨k', hI', hlt⟩ := hgo s' p' h
      exact ⟨k', .claimed hroom hI', fun _ => hlt trivial⟩
    · obtain ⟨rfl, rfl⟩ := hret s' b h
      exact if_pos hroom

/-! ## A pop -/

/-- A pop, with the accesses that are left when none fails for no reason. -/
inductive Popping (q : Queue α w) : Nat → Queue α w → Pc α w → Prop where
  | tail : Popping q 3 q .popTail
  | head : Popping q 2 q (.popHead q.tail)
  | slot : q.tail = q.head → Popping q 0 q (.popSlot q.head)
  | data : q.tail ≠ q.head → Popping q 1 q (.popData q.tail q.popped.length)
  | take : q.tail ≠ q.head → Popping q 0 q (.popTake q.tail (q.block q.tail).data q.popped.length)

theorem Rest.popping_keeps (hw : w < 64) (hq : q.Rest) :
    Keeps callAccess (· = true) (Popping q) fun q' b => q.drained = (q', b) := by
  intro k s p ok hI
  cases hI with
  | tail => exact leads_goOn (goesOn rfl (by simp)) .head fun _ => by omega
  | head =>
    by_cases hempty : q.tail = q.head
    · have h : q.access ok (.popHead q.tail) = (q, .popSlot q.head) := by
        rw [access, if_pos hempty]
      exact leads_goOn (goesOn h (by simp)) (.slot hempty) fun _ => by omega
    · have h : q.access ok (.popHead q.tail) = (q, .popData q.tail q.popped.length) := by
        rw [access, if_neg hempty]
      exact leads_goOn (goesOn h (by simp)) (.data hempty) fun _ => by omega
  | slot hempty =>
    have h : q.access ok (.popSlot q.head) = (q.refuse, .idle) := by
      rw [access, hq.flags, if_pos (invalidIndex_ne_wide hw _)]
    exact leads_return (returns h) (if_pos hempty)
  | data hne => exact leads_goOn (goesOn rfl (by simp)) (.take hne) fun _ => by omega
  | take hne =>
    cases ok with
    | true =>
      have h : q.access true (.popTake q.tail (q.block q.tail).data q.popped.length) =
          (q.take (q.block q.tail).data, .idle) := by
        rw [access, if_pos ⟨rfl, rfl⟩]
      exact leads_return (returns h) (if_neg hne)
    | false =>
      have h : q.access false (.popTake q.tail (q.block q.tail).data q.popped.length) =
          (q, .popHead q.tail) := by
        rw [access, if_neg (by simp)]
      exact leads_goOn (goesOn h (by simp)) .head (by simp)

/-! ## What a call does -/

/-- Neither push nor pop is delayed by more than the failures for no reason. -/
theorem Rest.push_ends (hw : w < 64) (hq : q.Rest) (val : α) :
    EndsIn callAccess (· = true) 11 q (.pushFlag val) := by
  refine (hq.pushing_keeps hw val).endsIn (fun k s p hI => ?_) .flag
  cases hI with
  | claimed hroom hI => cases hI <;> omega
  | _ => omega

theorem Rest.pop_ends (hw : w < 64) (hq : q.Rest) : EndsIn callAccess (· = true) 4 q .popTail := by
  refine (hq.popping_keeps hw).endsIn (fun k s p hI => ?_) .tail
  cases hI <;> omega

theorem Rest.pushed_eq (hw : w < 64) (hq : q.Rest) {val : α} {oks rest : List Bool}
    {q' : Queue α w} {b : Bool} (h : finish callAccess oks q (.pushFlag val) = some (q', b, rest)) :
    q.pushed val = (q', b) :=
  (hq.pushing_keeps hw val).sound .flag h

theorem Rest.drained_eq (hw : w < 64) (hq : q.Rest) {oks rest : List Bool}
    {q' : Queue α w} {b : Bool} (h : finish callAccess oks q .popTail = some (q', b, rest)) :
    q.drained = (q', b) :=
  (hq.popping_keeps hw).sound .tail h

theorem Rest.held_lt (hq : q.Rest) : q.held < 2 ^ w := by
  have hround := Nat.two_pow_pos w
  have hroom := hq.wf.room
  rw [held]
  omega

theorem Rest.popped_le (hq : q.Rest) : q.popped.length ≤ q.claimed.length :=
  hq.wf.tail_le.trans hq.wf.head_le

/-- There is room for one element less than `max_size`, and than there are slots. -/
theorem Rest.room_iff (hq : q.Rest) : q.Room ↔ q.held + 1 < 2 ^ w ∧ q.held + 1 < q.maxSize := by
  have hle := hq.popped_le
  have hlt := hq.held_lt
  rw [Room, hq.wf.flag, hq.wf.tail]
  rw [held] at hlt ⊢
  have hsucc : pos w q.claimed.length + 1 = pos w (q.claimed.length + 1) := pos_succ _
  rw [hsucc]
  by_cases hfull : q.claimed.length + 1 = q.popped.length + 2 ^ w
  · rw [hfull, pos_add_round]
    constructor
    · rintro ⟨h, -⟩
      exact absurd rfl h
    · rintro ⟨h, -⟩
      omega
  · have hne : pos w (q.claimed.length + 1) ≠ pos w q.popped.length :=
      pos_ne (t := q.popped.length) (by omega) (by omega) le_rfl (by omega) (by omega)
    have hsub : (pos w (q.claimed.length + 1) - pos w q.popped.length).toNat =
        q.claimed.length + 1 - q.popped.length := pos_sub_toNat (by omega) (by omega)
    rw [hsub]
    refine ⟨fun h => ⟨by omega, by omega⟩, fun h => ⟨hne, by omega⟩⟩

/-- The indices are equal when nothing is held. -/
theorem Rest.empty_iff (hq : q.Rest) : q.tail = q.head ↔ q.held = 0 := by
  have hle := hq.popped_le
  have hlt := hq.held_lt
  rw [held] at hlt ⊢
  rw [hq.wf.tail, hq.wf.head, hq.committed, pos_inj le_rfl (by omega) hle (by omega)]
  omega

@[simp] theorem claimed_filled (val : α) (q : Queue α w) :
    (q.filled val).claimed = q.claimed ++ [val] := rfl

@[simp] theorem popped_filled (val : α) (q : Queue α w) : (q.filled val).popped = q.popped := rfl

theorem Rest.wf_filled (hw : w < 64) (hq : q.Rest) (hroom : q.held + 1 < 2 ^ w) (val : α) :
    (q.filled val).Wf := by
  let n := q.claimed.length
  have hle := hq.popped_le
  rw [held] at hroom
  have hslot : q.flag = pos w n := hq.wf.flag
  have hclaim : (q.claim val).Wf := hq.wf.claim val (by omega)
  have hlen : n < (q.claim val).claimed.length := by
    rw [length_claim]
    exact Nat.lt_succ_self n
  have hentry : (q.claim val).entry n = some (val, n) := by
    simp [entry, claim, n]
  have hdata : ((q.claim val).setData q.flag (val, n)).Wf := by
    rw [hslot]
    refine hclaim.setData hq.committed.le hlen ?_ _
    change (q.block _).flag ≠ _
    rw [hq.flags]
    exact invalidIndex_ne_wide hw _
  have hwritten : (q.written val).Wf := by
    refine hdata.setFlag fun _ => ⟨n, hq.committed.le, hlen, hslot.symm, ?_⟩
    exact (data_setData_self _ _ _).trans hentry.symm
  have hinvalid : ((q.written val).setFlag q.flag invalidIndex).Wf :=
    hwritten.setFlag fun h => absurd h (invalidIndex_ne_wide hw _)
  have hopened : ((q.written val).setFlag q.flag invalidIndex).Opened q.flag := by
    refine ⟨?_, ?_, ?_, ?_⟩
    · exact hslot.trans (congrArg (pos w) hq.committed.symm)
    · exact hq.committed.trans_lt hlen
    · rw [data_setFlag, block_written]
      exact (hentry.symm.trans (congrArg _ hq.committed.symm))
    · rw [flag_setFlag_self]
      exact invalidIndex_ne_wide hw _
  have hview : SameView (q.passedOn val) (q.filled val) := ⟨rfl, rfl, rfl, rfl, rfl, rfl, rfl⟩
  exact hview.wf (hinvalid.advance hopened)

theorem Rest.filled (hw : w < 64) (hq : q.Rest) (hroom : q.Room) (val : α) :
    (q.filled val).Rest where
  wf := hq.wf_filled hw (hq.room_iff.mp hroom).1 val
  committed := by
    rw [claimed_filled, List.length_append]
    exact congrArg (· + 1) hq.committed
  accepted := by
    rw [claimed_filled, List.length_append, List.length_singleton, List.range_succ,
      List.reverse_append, ← hq.accepted]
    rfl
  flags := hq.flags_passedOn val
  bound := by
    have hlt := (hq.room_iff.mp hroom).2
    have hle := hq.popped_le
    rw [held] at hlt ⊢
    change (q.claimed ++ [val]).length - q.popped.length ≤ q.maxSize - 1
    rw [List.length_append, List.length_singleton]
    omega

theorem Rest.pushed (hw : w < 64) (hq : q.Rest) (val : α) : (q.pushed val).1.Rest := by
  rw [Queue.pushed]
  split
  · rename_i hroom
    exact hq.filled hw hroom val
  · exact hq

theorem Rest.data_tail (hq : q.Rest) (h : q.tail ≠ q.head) :
    q.popped.length < q.committed ∧ (q.block q.tail).data = q.entry q.popped.length := by
  have hne := mt hq.empty_iff.mpr h
  have hlt : q.popped.length < q.committed := by
    rw [hq.committed]
    rw [held] at hne
    omega
  refine ⟨hlt, ?_⟩
  rw [hq.wf.tail]
  exact hq.wf.data _ le_rfl hlt

theorem Rest.drained (hq : q.Rest) : q.drained.1.Rest := by
  rw [Queue.drained]
  split
  · have hview : SameView q q.refuse := ⟨rfl, rfl, rfl, rfl, rfl, rfl, popped_refuse q⟩
    refine ⟨hview.wf hq.wf, hq.committed, hq.accepted, hq.flags, ?_⟩
    rw [held, popped_refuse]
    exact hq.bound
  · rename_i hne
    obtain ⟨hlt, hdata⟩ := hq.data_tail hne
    rw [hdata]
    refine ⟨hq.wf.take hlt, hq.committed, hq.accepted, hq.flags, ?_⟩
    have hbound := hq.bound
    rw [held] at hbound ⊢
    rw [popped_take, List.length_append, List.length_singleton]
    change q.claimed.length - (q.popped.length + 1) ≤ q.maxSize - 1
    omega

/-! ## What is held -/

/-- The values that are held, the oldest first. -/
def items (q : Queue α w) : List α := q.claimed.drop q.popped.length

/-- What stands in the block between `tail_` and `head_`. -/
def elements (q : Queue α w) : List (Option α) :=
  (List.range (q.head - q.tail).toNat).map fun k =>
    (q.block (q.tail + BitVec.ofNat w k)).data.map Prod.fst

theorem held_eq (q : Queue α w) : q.held = q.items.length := by
  rw [items, List.length_drop, held]

theorem Rest.elements_eq (hq : q.Rest) : q.elements = q.items.map some := by
  have hlt := hq.held_lt
  have hround : q.claimed.length < q.popped.length + 2 ^ w := by
    rw [held] at hlt
    omega
  have hread : ∀ k, q.popped.length ≤ k → k < q.claimed.length →
      (q.block (pos w k)).data.map Prod.fst = q.claimed[k]? := by
    intro k hk hk'
    rw [hq.wf.data k hk (hk'.trans_eq hq.committed.symm), Wf.entry_some hk',
      List.getElem?_eq_getElem hk']
    rfl
  rw [elements, hq.wf.head, hq.wf.tail, hq.committed]
  exact Ring.elements_eq (fun i => (q.block i).data.map Prod.fst) hq.popped_le hround hread

theorem Rest.items_filled (hq : q.Rest) (val : α) : (q.filled val).items = q.items ++ [val] :=
  List.drop_append_of_le_length hq.popped_le

theorem items_refuse (q : Queue α w) : q.refuse.items = q.items := by
  rw [items, popped_refuse]
  rfl

theorem items_take {x : α} {xs : List α} (h : q.items = x :: xs) (val : Option (Entry α)) :
    (q.take val).items = xs := by
  have hdrop : (q.take val).items = q.items.drop 1 := by
    rw [items, items, List.drop_drop, popped_take, List.length_append]
    rfl
  rw [hdrop, h]
  rfl

theorem Rest.drained_nil (hq : q.Rest) (h : q.items = []) : q.drained = (q.refuse, false) := by
  rw [Queue.drained, if_pos (hq.empty_iff.mpr (by rw [held_eq, h]; rfl))]

/-- A pop takes the oldest value. -/
theorem Rest.drained_cons (hq : q.Rest) {x : α} {xs : List α} (h : q.items = x :: xs) :
    q.drained = (q.take (some (x, q.popped.length)), true) := by
  have hne : q.tail ≠ q.head := by
    intro he
    have hzero := hq.empty_iff.mp he
    rw [held_eq, h] at hzero
    cases hzero
  have hfirst : q.claimed[q.popped.length]? = some x := by
    have := congrArg (fun l : List α => l[0]?) h
    simpa [items] using this
  rw [Queue.drained, if_neg hne, (hq.data_tail hne).2, entry, hfirst]
  rfl

theorem new_rest (hw : w < 64) (maxSize : Nat) : ({ maxSize := maxSize } : Queue α w).Rest where
  wf := (System.new_inv (τ := Unit) (α := α) w maxSize hw).wf
  committed := rfl
  accepted := rfl
  flags _ := rfl
  bound := Nat.zero_le _

/-! ## Calls in a row -/

/-- The commit loop of a push that has claimed its slot, and is to write it, ends whatever
its accesses are told, and has committed one slot. -/
def CommitsOne (val : α) (q : Queue α w) : Prop :=
  EndsIn callAccess (fun _ => True) 8 (q.claim val) (.pushData val q.flag q.claimed.length) ∧
    ∀ oks q' b rest, finish callAccess oks (q.claim val)
      (.pushData val q.flag q.claimed.length) = some (q', b, rest) →
        b = true ∧ q'.committed = q.committed + 1

/-- All is committed, and the values were popped in the order in which they were accepted. -/
structure Settled (q : Queue α w) : Prop where
  level : q.head = q.flag
  flags : ∀ i, (q.block i).flag = invalidIndex
  inOrder : q.popped <+: q.accepted.reverse.map q.entry
  commits : ∀ val, q.Room → q.CommitsOne val
  pushEnds : ∀ val, EndsIn callAccess (· = true) 11 q (.pushFlag val)
  popEnds : EndsIn callAccess (· = true) 4 q .popTail

/-- A push that returns true has committed one slot, and a pop returns false exactly when
all that was accepted has been popped. -/
def Tells (q : Queue α w) : Call α → Prop
  | .push val oks => ∀ q' b, q.call (.push val oks) = .ok (q', b) →
      b = true → q'.committed = q.committed + 1
  | .pop oks => ∀ q' b, q.call (.pop oks) = .ok (q', b) →
      (b = false ↔ q.popped.length = q.accepted.length)

theorem Rest.commitsOne (hw : w < 64) (hq : q.Rest) (val : α) : q.CommitsOne val := by
  refine ⟨(hq.claimed_keeps hw val).endsIn (fun k s p hI => ?_) .data, fun oks q' b rest h => ?_⟩
  · cases hI <;> omega
  · obtain ⟨rfl, rfl⟩ := (hq.claimed_keeps hw val).sound .data h
    exact ⟨rfl, rfl⟩

theorem Rest.settled (hw : w < 64) (hq : q.Rest) : q.Settled where
  level := by rw [hq.wf.head, hq.wf.flag, hq.committed]
  flags := hq.flags
  inOrder := by
    rw [hq.accepted, List.reverse_reverse, hq.wf.fifo]
    obtain ⟨k, hk⟩ := Nat.exists_eq_add_of_le hq.popped_le
    rw [hk, List.range_add, List.map_append]
    exact List.prefix_append _ _
  commits val _ := hq.commitsOne hw val
  pushEnds := hq.push_ends hw
  popEnds := hq.pop_ends hw

theorem Rest.call_push (hw : w < 64) (hq : q.Rest) {val : α} {oks : List Bool} {q' : Queue α w}
    {b : Bool} (h : q.call (.push val oks) = .ok (q', b)) : q.pushed val = (q', b) := by
  obtain ⟨rest, hf⟩ := call_eq_ok.mp h
  exact hq.pushed_eq hw hf

theorem Rest.call_pop (hw : w < 64) (hq : q.Rest) {oks : List Bool} {q' : Queue α w} {b : Bool}
    (h : q.call (.pop oks) = .ok (q', b)) : q.drained = (q', b) := by
  obtain ⟨rest, hf⟩ := call_eq_ok.mp h
  exact hq.drained_eq hw hf

theorem Rest.tells (hw : w < 64) (hq : q.Rest) (c : Call α) : q.Tells c := by
  cases c with
  | push val oks =>
    rintro q' b h rfl
    have hpush := hq.call_push hw h
    rw [Queue.pushed] at hpush
    split at hpush <;> cases hpush
    rfl
  | pop oks =>
    intro q' b h
    have hpop := hq.call_pop hw h
    have hlen : q.accepted.length = q.claimed.length := by simp [hq.accepted]
    have hle := hq.popped_le
    have hempty := hq.empty_iff
    rw [held] at hempty
    rw [Queue.drained] at hpop
    rw [hlen]
    split at hpop <;> cases hpop
    · rename_i he
      have := hempty.mp he
      exact iff_of_true rfl (by omega)
    · rename_i hne
      have := mt hempty.mpr hne
      exact iff_of_false nofun (by omega)

theorem Rest.step (hw : w < 64) (hq : q.Rest) {c : Call α} {q' : Queue α w}
    (h : q.step c = .ok q') : q'.Rest := by
  obtain ⟨b, hcall⟩ := map_fst_eq_ok.mp h
  cases c with
  | push val oks =>
    have := hq.pushed hw val
    rwa [hq.call_push hw hcall] at this
  | pop oks =>
    have := hq.drained
    rwa [hq.call_pop hw hcall] at this

end Queue

end Mpmc

open Runs

end Footstone
