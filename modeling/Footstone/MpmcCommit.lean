import Footstone.MpmcQueue

/-!
Who commits a slot, and when. Behind the indices stand counters that do not wrap:
`tail_` has been moved on by every pop that returned true, `head_` by every commit
and `flag_` by every claim. Slots are claimed by one push each, and committed in
turn by whoever finds `head_` on a slot that says that it is written.
-/

namespace Footstone

namespace Mpmc

open Runs Ring

variable {α : Type} {w : Nat}

namespace Pc

/-- The number of the push that the thread is in, once it has claimed its slot. -/
def own? : Pc α w → Option Nat
  | .pushData _ _ own | .pushStore _ own | .pushSlot _ own | .pushHead _ _ own
  | .pushCommit _ own | .pushAdvance _ own => some own
  | _ => none

/-- The same, as long as the slot does not say that it is written. -/
def unwritten? : Pc α w → Option Nat
  | .pushData _ _ own | .pushStore _ own => some own
  | _ => none

/-- The thread has committed a slot and not stored `head_` yet. -/
def Advances : Pc α w → Prop
  | .pushAdvance .. | .popAdvance _ => True
  | _ => False

end Pc

namespace Queue

/-- What the push with the number `k` writes. -/
def entry (q : Queue α w) (k : Nat) : Option (Entry α) := q.claimed[k]?.map (·, k)

@[simp] theorem popped_take (val : Option (Entry α)) (q : Queue α w) :
    (q.take val).popped = q.popped ++ [val] := by
  simp [popped, take]

@[simp] theorem popped_refuse (q : Queue α w) : q.refuse.popped = q.popped := by
  simp [popped, refuse]

@[simp] theorem popped_claim (val : α) (q : Queue α w) : (q.claim val).popped = q.popped := rfl

@[simp] theorem popped_setData (i : BitVec w) (e : Entry α) (q : Queue α w) :
    (q.setData i e).popped = q.popped := rfl

@[simp] theorem popped_setFlag (i : BitVec w) (flag : BitVec 64) (q : Queue α w) :
    (q.setFlag i flag).popped = q.popped := rfl

@[simp] theorem popped_advance (i : BitVec w) (q : Queue α w) :
    (q.advance i).popped = q.popped := rfl

@[simp] theorem popped_accept (own : Nat) (q : Queue α w) : (q.accept own).popped = q.popped := rfl

@[simp] theorem length_claim (val : α) (q : Queue α w) :
    (q.claim val).claimed.length = q.claimed.length + 1 := by
  simp [claim]

@[simp] theorem data_setFlag (i j : BitVec w) (flag : BitVec 64) (q : Queue α w) :
    ((q.setFlag i flag).block j).data = (q.block j).data := by
  by_cases h : j = i
  · subst h; simp [setFlag]
  · simp [setFlag, h]

@[simp] theorem flag_setData (i j : BitVec w) (e : Entry α) (q : Queue α w) :
    ((q.setData i e).block j).flag = (q.block j).flag := by
  by_cases h : j = i
  · subst h; simp [setData]
  · simp [setData, h]

@[simp] theorem data_setData_self (i : BitVec w) (e : Entry α) (q : Queue α w) :
    ((q.setData i e).block i).data = some e := by
  simp [setData]

@[simp] theorem flag_setFlag_self (i : BitVec w) (flag : BitVec 64) (q : Queue α w) :
    ((q.setFlag i flag).block i).flag = flag := by
  simp [setFlag]

theorem flag_setFlag_of_ne {i j : BitVec w} (h : j ≠ i) (flag : BitVec 64) (q : Queue α w) :
    ((q.setFlag i flag).block j).flag = (q.block j).flag := by
  simp [setFlag, h]

theorem entry_claim {q : Queue α w} {k : Nat} (hk : k < q.claimed.length) (val : α) :
    (q.claim val).entry k = q.entry k := by
  simp [entry, claim, List.getElem?_append_left hk]

/-- What holds of the queue. -/
structure Wf (q : Queue α w) : Prop where
  flag : q.flag = pos w q.claimed.length
  head : q.head = pos w q.committed
  tail : q.tail = pos w q.popped.length
  tail_le : q.popped.length ≤ q.committed
  head_le : q.committed ≤ q.claimed.length
  room : q.claimed.length < q.popped.length + 2 ^ w
  /-- Values leave in the order of their numbers. -/
  fifo : q.popped = (List.range q.popped.length).map q.entry
  /-- Committed slots are written. -/
  data : ∀ k, q.popped.length ≤ k → k < q.committed → (q.block (pos w k)).data = q.entry k
  /-- So are those that say so. -/
  written : ∀ i, (q.block i).flag = wide i → ∃ k, q.committed ≤ k ∧ k < q.claimed.length ∧
    pos w k = i ∧ (q.block i).data = q.entry k

/-- The slot `i` is the next one, it is written, and nobody else can commit it. -/
structure Opened (q : Queue α w) (i : BitVec w) : Prop where
  eq : i = pos w q.committed
  lt : q.committed < q.claimed.length
  data : (q.block i).data = q.entry q.committed
  flag : (q.block i).flag ≠ wide i

/-- What a thread knows of the queue, by its place. -/
def Fits (q : Queue α w) : Pc α w → Prop
  | .pushData val curFlag own => q.committed ≤ own ∧ own < q.claimed.length ∧
      curFlag = pos w own ∧ q.entry own = some (val, own) ∧ (q.block curFlag).flag ≠ wide curFlag
  | .pushStore curFlag own => q.committed ≤ own ∧ own < q.claimed.length ∧ curFlag = pos w own ∧
      (q.block curFlag).data = q.entry own ∧ (q.block curFlag).flag ≠ wide curFlag
  | .pushSlot _ own | .pushHead _ _ own | .pushCommit _ own => own < q.claimed.length
  | .pushAdvance curFlag own => own < q.claimed.length ∧ q.Opened curFlag
  | .popAdvance curHead => q.Opened curHead
  | .popData curTail seen => seen ≤ q.popped.length ∧
      (seen = q.popped.length → curTail = q.tail → q.popped.length < q.committed)
  | .popTake curTail val seen => seen ≤ q.popped.length ∧
      (seen = q.popped.length → curTail = q.tail →
        q.popped.length < q.committed ∧ val = q.entry q.popped.length)
  | _ => True

/-- The number of the slot that the thread is still to write. -/
theorem Fits.unwritten {q : Queue α w} {p : Pc α w} (h : q.Fits p) {own : Nat}
    (hp : p.unwritten? = some own) : q.committed ≤ own ∧ own < q.claimed.length ∧
      (q.block (pos w own)).flag ≠ wide (pos w own) := by
  cases p <;> cases hp
  · obtain ⟨hle, hlt, rfl, -, hflag⟩ := h
    exact ⟨hle, hlt, hflag⟩
  · obtain ⟨hle, hlt, rfl, -, hflag⟩ := h
    exact ⟨hle, hlt, hflag⟩

theorem Fits.opened {q : Queue α w} {p : Pc α w} (h : q.Fits p) (hp : p.Advances) :
    q.Opened (pos w q.committed) := by
  have key : ∀ {i}, q.Opened i → q.Opened (pos w q.committed) := fun hi => hi.eq ▸ hi
  cases p with
  | pushAdvance curFlag own => exact key h.2
  | popAdvance curHead => exact key h
  | _ => exact hp.elim

/-! ## What one access does to the others -/

theorem Fits.claim {q : Queue α w} {p : Pc α w} (h : q.Fits p) (hq : q.Wf) (val : α) :
    (q.claim val).Fits p := by
  have hlt : ∀ {k}, k < q.claimed.length → k < (q.claim val).claimed.length := by
    intro k hk
    rw [length_claim]
    exact Nat.lt_succ_of_lt hk
  have hopened : ∀ {i}, q.Opened i → (q.claim val).Opened i := fun ho =>
    ⟨ho.eq, hlt ho.lt, ho.data.trans (entry_claim ho.lt val).symm, ho.flag⟩
  cases p with
  | pushData val' curFlag own =>
    obtain ⟨hle, hown, hi, he, hflag⟩ := h
    exact ⟨hle, hlt hown, hi, (entry_claim hown val).trans he, hflag⟩
  | pushStore curFlag own =>
    obtain ⟨hle, hown, hi, he, hflag⟩ := h
    exact ⟨hle, hlt hown, hi, he.trans (entry_claim hown val).symm, hflag⟩
  | pushSlot | pushHead | pushCommit => exact hlt h
  | pushAdvance curFlag own => exact ⟨hlt h.1, hopened h.2⟩
  | popAdvance curHead => exact hopened h
  | popTake curTail val' seen =>
    refine ⟨h.1, fun hseen htail => ?_⟩
    obtain ⟨hlt, hval⟩ := h.2 hseen htail
    exact ⟨hlt, hval.trans (entry_claim (hlt.trans_le hq.head_le) val).symm⟩
  | _ => exact h

/-- Writing the slot of the push `own`. -/
theorem Fits.setData {q : Queue α w} {p : Pc α w} (h : q.Fits p) (hq : q.Wf) {own : Nat}
    (hle : q.committed ≤ own) (hlt : own < q.claimed.length) (hp : p.unwritten? ≠ some own)
    (hadv : p.Advances → own ≠ q.committed) (e : Entry α) : (q.setData (pos w own) e).Fits p := by
  have hround := hq.room
  have htail := hq.tail_le
  have hother : ∀ {k}, q.committed ≤ k → k < q.claimed.length → k ≠ own →
      Function.update q.block (pos w own) { q.block (pos w own) with data := some e } (pos w k) =
        q.block (pos w k) := by
    intro k hk hk' hne
    refine Function.update_of_ne (pos_ne (t := q.committed) hk (by omega) hle (by omega) hne) _ _
  have hflag : ∀ i, ((q.setData (pos w own) e).block i).flag = (q.block i).flag :=
    fun i => flag_setData _ i e q
  have hopened : ∀ {i}, p.Advances → q.Opened i → (q.setData (pos w own) e).Opened i := by
    intro i hp ho
    refine ⟨ho.eq, ho.lt, ?_, (hflag i).trans_ne ho.flag⟩
    have hdata := ho.data
    rw [ho.eq] at hdata ⊢
    exact (congrArg Rnode.data (hother le_rfl ho.lt (hadv hp).symm)).trans hdata
  cases p with
  | pushData val' curFlag own' =>
    obtain ⟨hle', hlt', hi, he, hf⟩ := h
    exact ⟨hle', hlt', hi, he, (hflag _).trans_ne hf⟩
  | pushStore curFlag own' =>
    obtain ⟨hle', hlt', rfl, hdata, hf⟩ := h
    have hne : own' ≠ own := fun he => hp (congrArg some he)
    exact ⟨hle', hlt', rfl, (congrArg Rnode.data (hother hle' hlt' hne)).trans hdata,
      (hflag _).trans_ne hf⟩
  | pushAdvance curFlag own' => exact ⟨h.1, hopened trivial h.2⟩
  | popAdvance curHead => exact hopened trivial h
  | _ => exact h

/-- Setting the flag of a slot, which other threads care about only when it is
theirs. -/
theorem Fits.setFlag {q : Queue α w} {p : Pc α w} (h : q.Fits p) {i : BitVec w} {flag : BitVec 64}
    (hp : flag = wide i → (∀ own, p.unwritten? = some own → pos w own ≠ i) ∧
      (p.Advances → pos w q.committed ≠ i)) : (q.setFlag i flag).Fits p := by
  have hdata : ∀ j, ((q.setFlag i flag).block j).data = (q.block j).data :=
    fun j => data_setFlag i j flag q
  have hflag : ∀ j, (flag = wide i → j ≠ i) → (q.block j).flag ≠ wide j →
      ((q.setFlag i flag).block j).flag ≠ wide j := by
    intro j hne hf
    by_cases hj : j = i
    · subst hj
      rw [flag_setFlag_self]
      exact fun he => hne he rfl
    · rwa [flag_setFlag_of_ne hj]
  have hopened : ∀ {j}, p.Advances → q.Opened j → (q.setFlag i flag).Opened j := by
    intro j hadv ho
    refine ⟨ho.eq, ho.lt, (hdata j).trans ho.data, hflag j (fun he => ?_) ho.flag⟩
    rw [ho.eq]
    exact (hp he).2 hadv
  cases p with
  | pushData val' curFlag own =>
    obtain ⟨hle, hlt, rfl, he, hf⟩ := h
    exact ⟨hle, hlt, rfl, he, hflag _ (fun hw => (hp hw).1 own rfl) hf⟩
  | pushStore curFlag own =>
    obtain ⟨hle, hlt, rfl, he, hf⟩ := h
    exact ⟨hle, hlt, rfl, (hdata _).trans he, hflag _ (fun hw => (hp hw).1 own rfl) hf⟩
  | pushAdvance curFlag own => exact ⟨h.1, hopened trivial h.2⟩
  | popAdvance curHead => exact hopened trivial h
  | _ => exact h

/-- Storing `head_`. -/
theorem Fits.advance {q : Queue α w} {p : Pc α w} (h : q.Fits p)
    (hp : p.unwritten? ≠ some q.committed) (hadv : ¬ p.Advances) (i : BitVec w) :
    (q.advance i).Fits p := by
  cases p with
  | pushData val' curFlag own =>
    obtain ⟨hle, hrest⟩ := h
    have hne : own ≠ q.committed := fun he => hp (congrArg some he)
    exact ⟨by simp only [Queue.advance]; omega, hrest⟩
  | pushStore curFlag own =>
    obtain ⟨hle, hrest⟩ := h
    have hne : own ≠ q.committed := fun he => hp (congrArg some he)
    exact ⟨by simp only [Queue.advance]; omega, hrest⟩
  | pushAdvance | popAdvance => exact absurd trivial hadv
  | popData curTail seen =>
    exact ⟨h.1, fun hseen htail => Nat.lt_succ_of_lt (h.2 hseen htail)⟩
  | popTake curTail val seen =>
    refine ⟨h.1, fun hseen htail => ?_⟩
    obtain ⟨hlt, hval⟩ := h.2 hseen htail
    exact ⟨Nat.lt_succ_of_lt hlt, hval⟩
  | _ => exact h

/-- A pop that returns true. -/
theorem Fits.take {q : Queue α w} {p : Pc α w} (h : q.Fits p) (val : Option (Entry α)) :
    (q.take val).Fits p := by
  have hlen : (q.take val).popped.length = q.popped.length + 1 := by simp
  have hopened : ∀ {i}, q.Opened i → (q.take val).Opened i := fun ho =>
    ⟨ho.eq, ho.lt, ho.data, ho.flag⟩
  cases p with
  | popData curTail seen =>
    have hle : seen ≤ q.popped.length := h.1
    exact ⟨by omega, fun hseen => by omega⟩
  | popTake curTail val' seen =>
    have hle : seen ≤ q.popped.length := h.1
    exact ⟨by omega, fun hseen => by omega⟩
  | pushAdvance curFlag own => exact ⟨h.1, hopened h.2⟩
  | popAdvance curHead => exact hopened h
  | _ => exact h

/-! ## What one access does to the queue -/

theorem Wf.entry_some {q : Queue α w} {k : Nat} (hk : k < q.claimed.length) :
    q.entry k = some (q.claimed[k], k) := by
  simp [entry, List.getElem?_eq_getElem hk]

theorem Wf.claim {q : Queue α w} (hq : q.Wf) (val : α)
    (hroom : q.claimed.length + 1 < q.popped.length + 2 ^ w) : (q.claim val).Wf where
  flag := by
    rw [length_claim, ← pos_succ, ← hq.flag]
    rfl
  head := hq.head
  tail := hq.tail
  tail_le := hq.tail_le
  head_le := by
    rw [length_claim]
    exact Nat.le_succ_of_le hq.head_le
  room := by rwa [length_claim, popped_claim]
  fifo := by
    refine hq.fifo.trans (List.map_congr_left fun k hk => (entry_claim ?_ val).symm)
    exact (List.mem_range.mp hk).trans_le (hq.tail_le.trans hq.head_le)
  data k hk hk' := (hq.data k hk hk').trans (entry_claim (hk'.trans_le hq.head_le) val).symm
  written i hi := by
    obtain ⟨k, hk, hk', hpos, hdata⟩ := hq.written i hi
    refine ⟨k, hk, ?_, hpos, hdata.trans (entry_claim hk' val).symm⟩
    rw [length_claim]
    exact Nat.lt_succ_of_lt hk'

theorem Wf.setData {q : Queue α w} (hq : q.Wf) {own : Nat} (hle : q.committed ≤ own)
    (hlt : own < q.claimed.length) (hflag : (q.block (pos w own)).flag ≠ wide (pos w own))
    (e : Entry α) : (q.setData (pos w own) e).Wf where
  flag := hq.flag
  head := hq.head
  tail := hq.tail
  tail_le := hq.tail_le
  head_le := hq.head_le
  room := hq.room
  fifo := hq.fifo
  data k hk hk' := by
    have hround := hq.room
    rw [popped_setData] at hk
    change k < q.committed at hk'
    have hne : pos w k ≠ pos w own := pos_ne hk (by omega) (hq.tail_le.trans hle) (by omega) (by omega)
    exact (congrArg Rnode.data (Function.update_of_ne hne _ _)).trans (hq.data k hk hk')
  written i hi := by
    by_cases he : i = pos w own
    · subst he
      rw [flag_setData] at hi
      exact absurd hi hflag
    · have hsame : (q.setData (pos w own) e).block i = q.block i := Function.update_of_ne he _ _
      rw [hsame] at hi ⊢
      exact hq.written i hi

/-- Setting the flag of a slot to its index, when it is written, or to something
else. -/
theorem Wf.setFlag {q : Queue α w} (hq : q.Wf) {i : BitVec w} {flag : BitVec 64}
    (h : flag = wide i → ∃ k, q.committed ≤ k ∧ k < q.claimed.length ∧ pos w k = i ∧
      (q.block i).data = q.entry k) : (q.setFlag i flag).Wf where
  flag := hq.flag
  head := hq.head
  tail := hq.tail
  tail_le := hq.tail_le
  head_le := hq.head_le
  room := hq.room
  fifo := hq.fifo
  data k hk hk' := (data_setFlag i _ flag q).trans (hq.data k hk hk')
  written j hj := by
    rw [data_setFlag]
    by_cases he : j = i
    · subst he
      rw [flag_setFlag_self] at hj
      exact h hj
    · rw [flag_setFlag_of_ne he] at hj
      exact hq.written j hj

theorem Wf.advance {q : Queue α w} (hq : q.Wf) {i : BitVec w} (ho : q.Opened i) :
    (q.advance i).Wf where
  flag := hq.flag
  head := by rw [ho.eq]; exact pos_succ _
  tail := hq.tail
  tail_le := Nat.le_succ_of_le hq.tail_le
  head_le := ho.lt
  room := hq.room
  fifo := hq.fifo
  data k hk hk' := by
    rcases Nat.lt_succ_iff_lt_or_eq.mp hk' with hk' | rfl
    · exact hq.data k hk hk'
    · exact ho.eq ▸ ho.data
  written j hj := by
    obtain ⟨k, hk, hk', hpos, hdata⟩ := hq.written j hj
    refine ⟨k, Nat.lt_of_le_of_ne hk ?_, hk', hpos, hdata⟩
    -- The slot that was committed does not say so any more.
    rintro rfl
    rw [← ho.eq] at hpos
    exact ho.flag (hpos ▸ hj)

theorem Wf.take {q : Queue α w} (hq : q.Wf) (hlt : q.popped.length < q.committed) :
    (q.take (q.entry q.popped.length)).Wf where
  flag := hq.flag
  head := hq.head
  tail := by
    rw [popped_take, List.length_append, List.length_singleton, ← pos_succ, ← hq.tail]
    rfl
  tail_le := by
    rw [popped_take, List.length_append, List.length_singleton]
    exact hlt
  head_le := hq.head_le
  room := by
    have := hq.room
    simp only [popped_take, List.length_append, List.length_singleton]
    exact this.trans (by omega)
  fifo := by
    rw [popped_take, List.length_append, List.length_singleton, List.range_succ, List.map_append,
      List.map_singleton]
    exact congrArg (· ++ [_]) hq.fifo
  data k hk hk' := by
    simp only [popped_take, List.length_append, List.length_singleton] at hk
    exact hq.data k (Nat.le_of_succ_le hk) hk'
  written := hq.written

/-- What neither the invariant nor the other threads see. -/
structure SameView (q q' : Queue α w) : Prop where
  block : q'.block = q.block
  tail : q'.tail = q.tail
  head : q'.head = q.head
  flag : q'.flag = q.flag
  claimed : q'.claimed = q.claimed
  committed : q'.committed = q.committed
  popped : q'.popped = q.popped

theorem SameView.refl (q : Queue α w) : SameView q q := ⟨rfl, rfl, rfl, rfl, rfl, rfl, rfl⟩

theorem SameView.entry {q q' : Queue α w} (h : SameView q q') : q'.entry = q.entry := by
  funext k
  rw [Queue.entry, h.claimed, Queue.entry]

theorem SameView.wf {q q' : Queue α w} (h : SameView q q') (hq : q.Wf) : q'.Wf := by
  constructor <;> simp only [h.block, h.tail, h.head, h.flag, h.claimed, h.committed, h.popped, h.entry]
  · exact hq.flag
  · exact hq.head
  · exact hq.tail
  · exact hq.tail_le
  · exact hq.head_le
  · exact hq.room
  · exact hq.fifo
  · exact hq.data
  · exact hq.written

theorem SameView.opened {q q' : Queue α w} (h : SameView q q') {i : BitVec w} (ho : q.Opened i) :
    q'.Opened i := by
  constructor <;> simp only [h.block, h.claimed, h.committed, h.entry]
  · exact ho.eq
  · exact ho.lt
  · exact ho.data
  · exact ho.flag

theorem SameView.fits {q q' : Queue α w} (h : SameView q q') {p : Pc α w} (hp : q.Fits p) :
    q'.Fits p := by
  cases p with
  | pushAdvance curFlag own => exact ⟨h.claimed ▸ hp.1, h.opened hp.2⟩
  | popAdvance curHead => exact h.opened hp
  | pushData | pushStore | pushSlot | pushHead | pushCommit | popData | popTake =>
    simpa only [Fits, h.block, h.tail, h.claimed, h.committed, h.popped, h.entry] using hp
  | _ => trivial

end Queue

/-! ## The threads among each other -/

theorem Pc.own_of_unwritten {p : Pc α w} {k : Nat} (h : p.unwritten? = some k) : p.own? = some k := by
  cases p <;> cases h <;> rfl

variable {τ : Type}

/-- Every number belongs to one push, which has returned true or goes on. -/
structure Numbered (q : Queue α w) (pc : τ → Pc α w) : Prop where
  inj : ∀ t u k, (pc t).own? = some k → (pc u).own? = some k → t = u
  nodup : q.accepted.Nodup
  apart : ∀ t k, (pc t).own? = some k → k ∉ q.accepted
  all : ∀ k, k < q.claimed.length ↔ k ∈ q.accepted ∨ ∃ t, (pc t).own? = some k

/-- Every claimed slot that `head_` has not passed is being written, or says that it
is written, or is just being passed by the one thread that does so. -/
structure Handed (q : Queue α w) (pc : τ → Pc α w) : Prop where
  inj : ∀ t u, (pc t).Advances → (pc u).Advances → t = u
  unwritten : ∀ t u, (pc t).Advances → (pc u).unwritten? ≠ some q.committed
  complete : ∀ k, q.committed ≤ k → k < q.claimed.length → (∃ t, (pc t).unwritten? = some k) ∨
    (q.block (pos w k)).flag = wide (pos w k) ∨ k = q.committed ∧ ∃ t, (pc t).Advances

variable [DecidableEq τ]

section

variable {q q' : Queue α w} {pc : τ → Pc α w} {t : τ} {p : Pc α w}

theorem update_own (hp : p.own? = (pc t).own?) (u : τ) :
    (Function.update pc t p u).own? = (pc u).own? := by
  by_cases hu : u = t
  · subst hu; simpa using hp
  · simp [hu]

theorem update_unwritten (hp : p.unwritten? = (pc t).unwritten?) (u : τ) :
    (Function.update pc t p u).unwritten? = (pc u).unwritten? := by
  by_cases hu : u = t
  · subst hu; simpa using hp
  · simp [hu]

theorem update_advances (hp : p.Advances ↔ (pc t).Advances) (u : τ) :
    (Function.update pc t p u).Advances ↔ (pc u).Advances := by
  by_cases hu : u = t
  · subst hu; simpa using hp
  · simp [hu]

theorem Numbered.same (h : Numbered q pc) (hclaimed : q'.claimed = q.claimed)
    (haccepted : q'.accepted = q.accepted) (hp : p.own? = (pc t).own?) :
    Numbered q' (Function.update pc t p) := by
  constructor <;> simp only [update_own hp, hclaimed, haccepted]
  · exact h.inj
  · exact h.nodup
  · exact h.apart
  · exact h.all

/-- A new number for a thread that has none. -/
theorem Numbered.claim (h : Numbered q pc) (val : α) (ht : (pc t).own? = none)
    (hp : p.own? = some q.claimed.length) : Numbered (q.claim val) (Function.update pc t p) := by
  have hold : ∀ u k, (pc u).own? = some k → k < q.claimed.length := fun u k hu =>
    (h.all k).mpr (Or.inr ⟨u, hu⟩)
  have hself : (Function.update pc t p t).own? = some q.claimed.length := by simpa using hp
  have hother : ∀ u, u ≠ t → (Function.update pc t p u).own? = (pc u).own? := by
    intro u hu
    simp [hu]
  constructor
  · intro u v k hu hv
    by_cases hut : u = t <;> by_cases hvt : v = t
    · rw [hut, hvt]
    · subst hut
      rw [hself] at hu
      rw [hother v hvt] at hv
      cases hu
      exact absurd (hold v _ hv) (Nat.lt_irrefl _)
    · subst hvt
      rw [hself] at hv
      rw [hother u hut] at hu
      cases hv
      exact absurd (hold u _ hu) (Nat.lt_irrefl _)
    · rw [hother u hut] at hu
      rw [hother v hvt] at hv
      exact h.inj u v k hu hv
  · exact h.nodup
  · intro u k hu hk
    by_cases hut : u = t
    · subst hut
      rw [hself] at hu
      cases hu
      exact absurd ((h.all _).mpr (Or.inl hk)) (Nat.lt_irrefl _)
    · rw [hother u hut] at hu
      exact h.apart u k hu hk
  · intro k
    rw [Queue.length_claim]
    constructor
    · intro hk
      rcases Nat.lt_succ_iff_lt_or_eq.mp hk with hk | rfl
      · refine ((h.all k).mp hk).imp_right fun ⟨u, hu⟩ => ⟨u, ?_⟩
        rwa [hother u (by rintro rfl; rw [ht] at hu; cases hu)]
      · exact Or.inr ⟨t, hself⟩
    · rintro (hk | ⟨u, hu⟩)
      · exact Nat.lt_succ_of_lt ((h.all k).mpr (Or.inl hk))
      · by_cases hut : u = t
        · subst hut
          rw [hself] at hu
          cases hu
          exact Nat.lt_succ_self _
        · rw [hother u hut] at hu
          exact Nat.lt_succ_of_lt (hold u k hu)

/-- The push returns true. -/
theorem Numbered.accept (h : Numbered q pc) {own : Nat} (ht : (pc t).own? = some own)
    (hp : p.own? = none) : Numbered (q.accept own) (Function.update pc t p) := by
  have hself : (Function.update pc t p t).own? = none := by simpa using hp
  have hother : ∀ u, u ≠ t → (Function.update pc t p u).own? = (pc u).own? := by
    intro u hu
    simp [hu]
  have hne : ∀ {u k}, (Function.update pc t p u).own? = some k → u ≠ t := by
    rintro u k hu rfl
    rw [hself] at hu
    cases hu
  constructor
  · intro u v k hu hv
    rw [hother u (hne hu)] at hu
    rw [hother v (hne hv)] at hv
    exact h.inj u v k hu hv
  · exact List.nodup_cons.mpr ⟨h.apart t own ht, h.nodup⟩
  · intro u k hu hk
    have hut := hne hu
    rw [hother u hut] at hu
    rcases List.mem_cons.mp hk with rfl | hk
    · exact hut (h.inj u t _ hu ht)
    · exact h.apart u k hu hk
  · intro k
    refine (h.all k).trans ⟨?_, ?_⟩
    · rintro (hk | ⟨u, hu⟩)
      · exact Or.inl (List.mem_cons_of_mem _ hk)
      · by_cases hut : u = t
        · subst hut
          cases ht.symm.trans hu
          exact Or.inl List.mem_cons_self
        · exact Or.inr ⟨u, by rwa [hother u hut]⟩
    · rintro (hk | ⟨u, hu⟩)
      · rcases List.mem_cons.mp hk with rfl | hk
        · exact Or.inr ⟨t, ht⟩
        · exact Or.inl hk
      · exact Or.inr ⟨u, by rwa [hother u (hne hu)] at hu⟩

theorem Handed.same (h : Handed q pc) (hclaimed : q'.claimed = q.claimed)
    (hcommitted : q'.committed = q.committed) (hblock : ∀ i, (q'.block i).flag = (q.block i).flag)
    (hun : p.unwritten? = (pc t).unwritten?) (hadv : p.Advances ↔ (pc t).Advances) :
    Handed q' (Function.update pc t p) := by
  constructor <;> simp only [update_unwritten hun, update_advances hadv, hclaimed, hcommitted, hblock]
  · exact h.inj
  · exact h.unwritten
  · exact h.complete

theorem Handed.claim (h : Handed q pc) (val : α)
    (hadv : p.Advances ↔ (pc t).Advances) (ht : (pc t).unwritten? = none) (ht' : ¬ (pc t).Advances)
    (hp : p.unwritten? = some q.claimed.length)
    (hlast : ∀ u, (pc u).Advances → q.committed < q.claimed.length) :
    Handed (q.claim val) (Function.update pc t p) := by
  have hother : ∀ u k, (pc u).unwritten? = some k →
      (Function.update pc t p u).unwritten? = some k := by
    intro u k hu
    have hut : u ≠ t := by
      rintro rfl
      rw [ht] at hu
      cases hu
    simpa [hut] using hu
  constructor <;> simp only [update_advances hadv]
  · exact h.inj
  · intro u v hu hv
    by_cases hvt : v = t
    · subst hvt
      rw [Function.update_self, hp] at hv
      have := hlast u hu
      change some q.claimed.length = some q.committed at hv
      have := Option.some.inj hv
      omega
    · rw [Function.update_of_ne hvt] at hv
      exact h.unwritten u v hu hv
  · intro k hk hk'
    rw [Queue.length_claim] at hk'
    rcases Nat.lt_succ_iff_lt_or_eq.mp hk' with hk' | rfl
    · exact (h.complete k hk hk').imp_left fun ⟨u, hu⟩ => ⟨u, hother u k hu⟩
    · exact Or.inl ⟨t, by rw [Function.update_self, hp]⟩

/-- The slot says that it is written. -/
theorem Handed.store (h : Handed q pc) {own : Nat} (hadv : p.Advances ↔ (pc t).Advances)
    (ht : (pc t).unwritten? = some own) (hp : p.unwritten? = none) :
    Handed (q.setFlag (pos w own) (wide (pos w own))) (Function.update pc t p) := by
  constructor <;> simp only [update_advances hadv]
  · exact h.inj
  · intro u v hu hv
    by_cases hvt : v = t
    · subst hvt
      rw [Function.update_self, hp] at hv
      cases hv
    · rw [Function.update_of_ne hvt] at hv
      exact h.unwritten u v hu hv
  · intro k hk hk'
    by_cases he : pos w k = pos w own
    · rw [he]
      exact Or.inr (Or.inl (Queue.flag_setFlag_self _ _ q))
    · rw [Queue.flag_setFlag_of_ne he]
      refine (h.complete k hk hk').imp_left fun ⟨u, hu⟩ => ⟨u, ?_⟩
      have hut : u ≠ t := by
        rintro rfl
        cases ht.symm.trans hu
        exact he rfl
      simpa [hut] using hu

/-- The next slot is committed. -/
theorem Handed.commit (h : Handed q pc) (hround : q.claimed.length ≤ q.committed + 2 ^ w)
    {flag : BitVec 64} (hun : p.unwritten? = (pc t).unwritten?) (hp : p.Advances)
    (hnone : ∀ u, ¬ (pc u).Advances) (hwritten : ∀ u, (pc u).unwritten? ≠ some q.committed) :
    Handed (q.setFlag (pos w q.committed) flag) (Function.update pc t p) := by
  have hadv : ∀ u, (Function.update pc t p u).Advances → u = t := by
    intro u hu
    by_contra hut
    rw [Function.update_of_ne hut] at hu
    exact hnone u hu
  constructor
  · intro u v hu hv
    rw [hadv u hu, hadv v hv]
  · intro u v _
    rw [update_unwritten hun]
    exact hwritten v
  · intro k hk hk'
    simp only [update_unwritten hun]
    rcases hk.eq_or_lt with rfl | hlt
    · exact Or.inr (Or.inr ⟨rfl, t, by simpa using hp⟩)
    · change k < q.claimed.length at hk'
      change q.committed < k at hlt
      have hne : pos w k ≠ pos w q.committed :=
        pos_ne (t := q.committed) hlt.le (by omega) le_rfl (by omega) hlt.ne'
      rw [Queue.flag_setFlag_of_ne hne]
      rcases h.complete k hlt.le hk' with hu | hf | ⟨rfl, -⟩
      · exact Or.inl hu
      · exact Or.inr (Or.inl hf)
      · exact absurd hlt (Nat.lt_irrefl _)

/-- `head_` is stored. -/
theorem Handed.advance (h : Handed q pc) (i : BitVec w) (hun : p.unwritten? = (pc t).unwritten?)
    (ht : (pc t).Advances) (hp : ¬ p.Advances) : Handed (q.advance i) (Function.update pc t p) := by
  have hnone : ∀ u, ¬ (Function.update pc t p u).Advances := by
    intro u hu
    by_cases hut : u = t
    · subst hut
      rw [Function.update_self] at hu
      exact hp hu
    · rw [Function.update_of_ne hut] at hu
      exact hut (h.inj u t hu ht)
  refine ⟨fun u _ hu => absurd hu (hnone u), fun u _ hu => absurd hu (hnone u), fun k hk hk' => ?_⟩
  simp only [update_unwritten hun]
  change q.committed + 1 ≤ k at hk
  rcases h.complete k (Nat.le_of_succ_le hk) hk' with hu | hf | ⟨rfl, -⟩
  · exact Or.inl hu
  · exact Or.inr (Or.inl hf)
  · exact absurd hk (Nat.lt_irrefl _)

end

/-! ## The invariant -/

theorem wide_toNat (hw : w < 64) (i : BitVec w) : (wide i).toNat = i.toNat := by
  have hlt : i.toNat < 2 ^ 64 := i.isLt.trans (Nat.pow_lt_pow_right (by omega) hw)
  rw [wide, BitVec.toNat_setWidth, Nat.mod_eq_of_lt hlt]

theorem wide_inj (hw : w < 64) {i j : BitVec w} (h : wide i = wide j) : i = j := by
  apply BitVec.eq_of_toNat_eq
  rw [← wide_toNat hw, h, wide_toNat hw]

theorem invalidIndex_ne_wide (hw : w < 64) (i : BitVec w) : invalidIndex ≠ wide i := by
  intro h
  have hnat := congrArg BitVec.toNat h
  have hlt : i.toNat < 2 ^ 63 := i.isLt.trans_le (Nat.pow_le_pow_right (by omega) (by omega))
  rw [wide_toNat hw, invalidIndex, BitVec.toNat_allOnes] at hnat
  omega

/-- A compare-exchange that succeeds does so on what its thread has seen: the ring is
not full when `flag_` moves on, the slot that is committed is the one `head_` is on,
and `tail_` has not gone round since `head_` was loaded. A pop does not commit the
last slot of the block. -/
def Queue.Fresh (q : Queue α w) (ok : Bool) : Pc α w → Prop
  | .pushClaim _ curFlag => ok = true → q.flag = curFlag → q.flag + 1 ≠ q.tail
  | .pushCommit curFlag _ => (q.block curFlag).flag = wide curFlag → curFlag = q.head
  | .popCommit curHead => ok = true → (q.block curHead).flag = wide curHead →
      curHead = q.head ∧ curHead ≠ sizeLimit w
  | .popTake curTail _ seen => ok = true → q.tail = curTail → seen = q.popped.length
  | _ => True

namespace System

def Fresh (s : System τ α w) : Op τ α → Prop
  | .access t ok => s.queue.Fresh ok (s.pc t)
  | _ => True

structure Inv (s : System τ α w) : Prop where
  wf : s.queue.Wf
  fits : ∀ t, s.queue.Fits (s.pc t)
  numbered : Numbered s.queue s.pc
  handed : Handed s.queue s.pc

variable {s : System τ α w} {t : τ}

theorem update_fits {q : Queue α w} {pc : τ → Pc α w} {p : Pc α w} (hp : q.Fits p)
    (hothers : ∀ u, u ≠ t → q.Fits (pc u)) (u : τ) : q.Fits (Function.update pc t p u) :=
  (Function.forall_update_iff pc fun _ p => q.Fits p).mpr ⟨hp, hothers⟩ u

/-- What the thread does is not seen by the others. -/
theorem Inv.same (hs : s.Inv) {q : Queue α w} {p₀ p : Pc α w} (hpc : s.pc t = p₀)
    (hview : Queue.SameView s.queue q) (haccepted : q.accepted = s.queue.accepted) (hp : q.Fits p)
    (hown : p.own? = p₀.own? := by rfl) (hun : p.unwritten? = p₀.unwritten? := by rfl)
    (hadv : (p.Advances ↔ p₀.Advances) := by rfl) : (s.goOn t q p).Inv := by
  subst hpc
  exact {
    wf := hview.wf hs.wf
    fits := update_fits hp fun u _ => hview.fits (hs.fits u)
    numbered := hs.numbered.same hview.claimed haccepted hown
    handed := hs.handed.same hview.claimed hview.committed (fun _ => congrArg _ (congrFun hview.block _))
      hun hadv }

/-- The thread only looks. -/
theorem Inv.look (hs : s.Inv) {p₀ p : Pc α w} (hpc : s.pc t = p₀) (hp : s.queue.Fits p)
    (hown : p.own? = p₀.own? := by rfl) (hun : p.unwritten? = p₀.unwritten? := by rfl)
    (hadv : (p.Advances ↔ p₀.Advances) := by rfl) : (s.goOn t s.queue p).Inv :=
  hs.same hpc (.refl _) rfl hp hown hun hadv

/-- The pop returns false. -/
theorem Inv.refuse (hs : s.Inv) {curHead : BitVec w} (hpc : s.pc t = .popSlot curHead) :
    (s.goOn t s.queue.refuse .idle).Inv :=
  hs.same hpc ⟨rfl, rfl, rfl, rfl, rfl, rfl, Queue.popped_refuse _⟩ rfl trivial

/-- The push returns true. -/
theorem Inv.accept (hs : s.Inv) {p₀ : Pc α w} (hpc : s.pc t = p₀) {own : Nat}
    (hown : p₀.own? = some own := by rfl) (hun : p₀.unwritten? = none := by rfl)
    (hadv : ¬ p₀.Advances := by exact id) : (s.goOn t (s.queue.accept own) .idle).Inv := by
  have hview : Queue.SameView s.queue (s.queue.accept own) := ⟨rfl, rfl, rfl, rfl, rfl, rfl, rfl⟩
  subst hpc
  exact {
    wf := hview.wf hs.wf
    fits := update_fits trivial fun u _ => hview.fits (hs.fits u)
    numbered := hs.numbered.accept hown rfl
    handed := hs.handed.same rfl rfl (fun _ => rfl) hun.symm (iff_of_false id hadv) }

theorem Inv.claim (hs : s.Inv) {val : α} {curFlag : BitVec w} (hpc : s.pc t = .pushClaim val curFlag)
    (hflag : s.queue.flag = curFlag) (hfull : s.queue.flag + 1 ≠ s.queue.tail) :
    (s.goOn t (s.queue.claim val) (.pushData val curFlag s.queue.claimed.length)).Inv := by
  have hround := hs.wf.room
  have hle := hs.wf.tail_le.trans hs.wf.head_le
  have hroom : s.queue.claimed.length + 1 < s.queue.popped.length + 2 ^ w := by
    refine Nat.lt_of_le_of_ne hround fun he => hfull ?_
    rw [hs.wf.flag, hs.wf.tail]
    exact (pos_succ _).trans (he ▸ pos_add_round _)
  have hcur : curFlag = pos w s.queue.claimed.length := hflag.symm.trans hs.wf.flag
  have hp : (s.queue.claim val).Fits (.pushData val curFlag s.queue.claimed.length) := by
    refine ⟨hs.wf.head_le, ?_, hcur, ?_, fun he => ?_⟩
    · rw [Queue.length_claim]
      exact Nat.lt_succ_self _
    · simp [Queue.entry, Queue.claim]
    · -- A slot that says that it is written is one of the round that is not over.
      obtain ⟨k, hk, hk', hpos, -⟩ := hs.wf.written curFlag he
      have hne : pos w k ≠ pos w s.queue.claimed.length :=
        pos_ne (t := s.queue.popped.length) (hs.wf.tail_le.trans hk) (by omega) hle (by omega) hk'.ne
      exact hne (hpos.trans hcur)
  exact {
    wf := hs.wf.claim val hroom
    fits := update_fits hp fun u _ => (hs.fits u).claim hs.wf val
    numbered := hs.numbered.claim val (by rw [hpc]; rfl) rfl
    handed := hs.handed.claim val (by rw [hpc]; rfl) (by rw [hpc]; rfl) (by rw [hpc]; exact id) rfl
      fun u hu => ((hs.fits u).opened hu).lt }

theorem Inv.data (hs : s.Inv) {val : α} {curFlag : BitVec w} {own : Nat}
    (hpc : s.pc t = .pushData val curFlag own) :
    (s.goOn t (s.queue.setData curFlag (val, own)) (.pushStore curFlag own)).Inv := by
  obtain ⟨hle, hlt, rfl, he, hflag⟩ := hpc ▸ hs.fits t
  have hown : (s.pc t).own? = some own := by rw [hpc]; rfl
  have hun : (s.pc t).unwritten? = some own := by rw [hpc]; rfl
  have hp : (s.queue.setData (pos w own) (val, own)).Fits (.pushStore (pos w own) own) :=
    ⟨hle, hlt, rfl, (Queue.data_setData_self _ _ _).trans he.symm,
      (Queue.flag_setData _ _ _ _).trans_ne hflag⟩
  refine ⟨hs.wf.setData hle hlt hflag _, update_fits hp fun u hu => ?_,
    hs.numbered.same rfl rfl hown.symm,
    hs.handed.same rfl rfl (fun i => Queue.flag_setData _ i _ _) hun.symm (by rw [hpc]; rfl)⟩
  refine (hs.fits u).setData hs.wf hle hlt (fun hu' => hu ?_) (fun hadv he => ?_) _
  · exact hs.numbered.inj u t own (Pc.own_of_unwritten hu') hown
  · exact hs.handed.unwritten u t hadv (he ▸ hun)

theorem Inv.store (hs : s.Inv) {curFlag : BitVec w} {own : Nat}
    (hpc : s.pc t = .pushStore curFlag own) :
    (s.goOn t (s.queue.setFlag curFlag (wide curFlag)) (.pushSlot curFlag own)).Inv := by
  obtain ⟨hle, hlt, rfl, hdata, hflag⟩ := hpc ▸ hs.fits t
  have hround := hs.wf.room
  have htail := hs.wf.tail_le
  have hown : (s.pc t).own? = some own := by rw [hpc]; rfl
  have hun : (s.pc t).unwritten? = some own := by rw [hpc]; rfl
  refine ⟨hs.wf.setFlag fun _ => ⟨own, hle, hlt, rfl, hdata⟩, update_fits hlt fun u hu => ?_,
    hs.numbered.same rfl rfl hown.symm, hs.handed.store (by rw [hpc]; rfl) hun rfl⟩
  refine (hs.fits u).setFlag fun _ => ⟨fun own' hu' he => hu ?_, fun hadv he => ?_⟩
  · obtain ⟨hle', hlt', -⟩ := (hs.fits u).unwritten hu'
    have : own' = own :=
      (pos_inj (t := s.queue.committed) hle' (by omega) hle (by omega)).mp he
    exact hs.numbered.inj u t own (this ▸ Pc.own_of_unwritten hu') hown
  · have hcommitted : s.queue.committed = own :=
      (pos_inj (t := s.queue.committed) le_rfl (by omega) hle (by omega)).mp he
    exact hs.handed.unwritten u t hadv (hcommitted ▸ hun)

omit [DecidableEq τ] in
/-- A slot that says that it is written, and that `head_` is on. -/
theorem Inv.next (hs : s.Inv) {i : BitVec w} (hi : i = s.queue.head)
    (hflag : (s.queue.block i).flag = wide i) : i = pos w s.queue.committed ∧
      s.queue.committed < s.queue.claimed.length ∧
      (s.queue.block i).data = s.queue.entry s.queue.committed := by
  have hround := hs.wf.room
  have htail := hs.wf.tail_le
  obtain ⟨k, hk, hk', hpos, hdata⟩ := hs.wf.written i hflag
  have hpos' : i = pos w s.queue.committed := hi.trans hs.wf.head
  have hkc : k = s.queue.committed :=
    (pos_inj (t := s.queue.committed) hk (by omega) le_rfl (by omega)).mp (hpos.trans hpos')
  subst hkc
  exact ⟨hpos', hk', hdata⟩

theorem Inv.commit (hs : s.Inv) {p₀ p : Pc α w} (hpc : s.pc t = p₀) {i : BitVec w}
    {flag : BitVec 64} (hi : i = s.queue.head) (hwritten : (s.queue.block i).flag = wide i)
    (hflag : flag ≠ wide i) (hp : (s.queue.setFlag i flag).Opened i → (s.queue.setFlag i flag).Fits p)
    (hown : p.own? = p₀.own? := by rfl) (hun : p.unwritten? = p₀.unwritten? := by rfl)
    (hadv : p.Advances := by trivial) : (s.goOn t (s.queue.setFlag i flag) p).Inv := by
  subst hpc
  obtain ⟨rfl, hlt, hdata⟩ := hs.next hi hwritten
  have hround := hs.wf.room
  have htail := hs.wf.tail_le
  refine ⟨hs.wf.setFlag fun he => absurd he hflag, update_fits (hp ⟨rfl, hlt, ?_, ?_⟩) fun u _ => ?_,
    hs.numbered.same rfl rfl hown, hs.handed.commit (by omega) hun hadv (fun u hu => ?_)
      fun u hu => ?_⟩
  · exact (Queue.data_setFlag _ _ _ _).trans hdata
  · rwa [Queue.flag_setFlag_self]
  · exact (hs.fits u).setFlag fun he => absurd he hflag
  · exact ((hs.fits u).opened hu).flag hwritten
  · exact ((hs.fits u).unwritten hu).2.2 hwritten

theorem Inv.advance (hs : s.Inv) {p₀ p : Pc α w} (hpc : s.pc t = p₀) {i : BitVec w}
    (ho : s.queue.Opened i) (hp : (s.queue.advance i).Fits p)
    (hown : p.own? = p₀.own? := by rfl) (hun : p.unwritten? = p₀.unwritten? := by rfl)
    (hadv : p₀.Advances := by trivial) (hadv' : ¬ p.Advances := by exact id) :
    (s.goOn t (s.queue.advance i) p).Inv := by
  subst hpc
  exact {
    wf := hs.wf.advance ho
    fits := update_fits hp fun u hu => (hs.fits u).advance (hs.handed.unwritten t u hadv)
      (fun hu' => hu (hs.handed.inj u t hu' hadv)) i
    numbered := hs.numbered.same rfl rfl hown
    handed := hs.handed.advance i hun hadv hadv' }

theorem Inv.take (hs : s.Inv) {curTail : BitVec w} {val : Option (Entry α)} {seen : Nat}
    (hpc : s.pc t = .popTake curTail val seen) (htail : s.queue.tail = curTail)
    (hseen : seen = s.queue.popped.length) : (s.goOn t (s.queue.take val) .idle).Inv := by
  obtain ⟨-, hfits⟩ := hpc ▸ hs.fits t
  obtain ⟨hlt, rfl⟩ := hfits hseen htail.symm
  exact {
    wf := hs.wf.take hlt
    fits := update_fits trivial fun u _ => (hs.fits u).take _
    numbered := hs.numbered.same rfl rfl (by rw [hpc]; rfl)
    handed := hs.handed.same rfl rfl (fun _ => rfl) (by rw [hpc]; rfl) (by rw [hpc]; rfl) }

/-- **One access keeps the invariant.** -/
theorem access_inv (hw : w < 64) (hs : s.Inv) {ok : Bool} (hc : s.queue.Fresh ok (s.pc t)) :
    (s.goOn t (s.queue.access ok (s.pc t)).1 (s.queue.access ok (s.pc t)).2).Inv := by
  have hfits := hs.fits t
  cases hpc : s.pc t with
  | idle | pushFlag | popTail => exact hs.look hpc trivial
  | pushTail val curFlag =>
    simp only [Queue.access]
    split
    · exact hs.look hpc trivial
    · split <;> exact hs.look hpc trivial
  | pushClaim val curFlag =>
    rw [hpc] at hc
    simp only [Queue.access]
    split
    · rename_i h
      exact hs.claim hpc h.2 (hc h.1 h.2)
    · exact hs.look hpc trivial
  | pushData val curFlag own => exact hs.data hpc
  | pushStore curFlag own => exact hs.store hpc
  | pushSlot curFlag own =>
    rw [hpc] at hfits
    exact hs.look hpc hfits
  | pushHead curFlag cacFlag own =>
    rw [hpc] at hfits
    simp only [Queue.access]
    split
    · exact hs.accept hpc
    · split
      · exact hs.accept hpc
      · exact hs.look hpc hfits
  | pushCommit curFlag own =>
    rw [hpc] at hc hfits
    simp only [Queue.access]
    split
    · rename_i h
      exact hs.commit hpc (hc h) h (invalidIndex_ne_wide hw _) fun ho => ⟨hfits, ho⟩
    · exact hs.accept hpc
  | pushAdvance curFlag own =>
    rw [hpc] at hfits
    exact hs.advance hpc hfits.2 hfits.1
  | popHead curTail =>
    simp only [Queue.access]
    split
    · exact hs.look hpc trivial
    · rename_i hne
      refine hs.look hpc ⟨le_rfl, fun _ htail => ?_⟩
      refine Nat.lt_of_le_of_ne hs.wf.tail_le fun he => hne ?_
      rw [htail, hs.wf.tail, hs.wf.head, he]
  | popSlot curHead =>
    simp only [Queue.access]
    split
    · exact hs.refuse hpc
    · exact hs.look hpc trivial
  | popCommit curHead =>
    rw [hpc] at hc
    simp only [Queue.access]
    split
    · rename_i h
      obtain ⟨hhead, hlimit⟩ := hc h.1 h.2
      exact hs.commit hpc hhead h.2 (fun he => hlimit (wide_inj hw he).symm) id
    · exact hs.look hpc trivial
  | popAdvance curHead =>
    rw [hpc] at hfits
    exact hs.advance hpc hfits trivial
  | popData curTail seen =>
    rw [hpc] at hfits
    have hp : s.queue.Fits (.popTake curTail (s.queue.block curTail).data seen) := by
      refine ⟨hfits.1, fun hseen htail => ?_⟩
      have hlt := hfits.2 hseen htail
      rw [htail, hs.wf.tail]
      exact ⟨hlt, hs.wf.data _ le_rfl hlt⟩
    exact hs.look hpc hp
  | popTake curTail val seen =>
    rw [hpc] at hc
    simp only [Queue.access]
    split
    · rename_i h
      exact hs.take hpc h.2 (hc h.1 h.2)
    · exact hs.look hpc trivial

theorem step_inv (hw : w < 64) {s' : System τ α w} {op : Op τ α} (hs : s.Inv) (hc : s.Fresh op)
    (h : s.step op = .ok s') : s'.Inv := by
  cases op with
  | push t val =>
    obtain ⟨hpc, rfl⟩ := step_push_eq_ok.mp h
    exact hs.look hpc trivial
  | pop t =>
    obtain ⟨hpc, rfl⟩ := step_pop_eq_ok.mp h
    exact hs.look hpc trivial
  | access t ok =>
    obtain ⟨-, rfl⟩ := step_access_eq_ok.mp h
    exact access_inv hw hs hc

omit [DecidableEq τ] in
theorem new_inv (w maxSize : Nat) (hw : w < 64) : (System.new τ α w maxSize).Inv where
  wf := {
    flag := rfl
    head := rfl
    tail := rfl
    tail_le := le_rfl
    head_le := le_rfl
    room := Nat.lt_add_of_pos_right (Nat.two_pow_pos w)
    fifo := rfl
    data := fun k _ hk => absurd hk (Nat.not_lt_zero k)
    written := fun i hi => absurd hi (invalidIndex_ne_wide hw i) }
  fits _ := trivial
  numbered := ⟨nofun, .nil, nofun, fun k => by simp [System.new, Pc.own?]⟩
  handed := ⟨nofun, nofun, fun k _ hk => absurd hk (Nat.not_lt_zero k)⟩

end System

end Mpmc

end Footstone
