import Footstone.Lib.BoundedFifo
import Footstone.MpmcCalls
import Footstone.SpscEviction

/-!
`push_until_success` of both ring queues, when nobody else uses them. As a queue,
`spsc_queue` holds `max_size` elements and `mpmc_queue` one less, which may be none.
-/

namespace Footstone

open Runs Calls BoundedFifo

/-- The call ends, whatever fails for no reason at first. The value is then the newest
element, and of the others the oldest may be missing if the queue was full. -/
structure KeepsNewest {ι σ π α : Type} (access : Access ι σ π Unit) (good : ι → Prop) (start : π)
    (elements : σ → List (Option α)) (Full : σ → Prop) (s : σ) (val : α) : Prop where
  ends : ∃ n, EndsIn access good n s start
  newest : ∀ is s' rest, finish access is s start = some (s', (), rest) →
    ∃ kept, elements s' = kept ++ [some val] ∧
      (kept = elements s ∨ Full s ∧ kept = (elements s).tail)

/-- So it is when the other two calls are those of a queue. -/
theorem KeepsNewest.of_behaves {ι σ π π' α : Type} {good : ι → Prop} {push : Access ι σ π Bool}
    {start : α → π} {pop : Access ι σ π' Bool} {start' : π'} {cap : Nat} {I : σ → Prop}
    {items : σ → List α} (h : Behaves good push start pop start' cap I items) (hcap : 0 < cap)
    {elements : σ → List (Option α)} (helements : ∀ s, I s → elements s = (items s).map some)
    {Full : σ → Prop} {s : σ} (hs : I s) (hfull : (items s).length = cap → Full s) (val : α) :
    KeepsNewest (untilTrue push pop (start val) start') good (.inl (start val)) elements Full s
      val where
  ends := by
    obtain ⟨n, hn⟩ := h.evict_ends hcap
    exact ⟨n, hn s val hs⟩
  newest is s' rest hf := by
    obtain ⟨hs', hitems⟩ := h.evict hcap hs hf
    have hle := h.le s hs
    rw [helements s hs, helements s' hs', hitems, List.map_append]
    split
    · exact ⟨_, rfl, Or.inl rfl⟩
    · exact ⟨_, rfl, Or.inr ⟨hfull (by omega), List.map_tail⟩⟩

/-! ## `spsc_queue` -/

namespace Spsc

variable {α : Type} {w : Nat}

/-- A call of any of the three. -/
inductive Use (α : Type) where
  | call (c : Call α)
  | evict (val : α) (accesses : List Unit)

namespace Queue

def use (q : Queue α w) : Use α → Except Unfinished (Queue α w)
  | .call c => q.step c
  | .evict val accesses =>
    (Calls.call (evictAccess val) accesses q (.inl (.head val))).map Prod.fst

/-- `push_until_success(val)`, with "full" as given. -/
def Newest (Full : Queue α w → Prop) (q : Queue α w) (val : α) : Prop :=
  KeepsNewest (evictAccess val) (fun _ => True) (.inl (.head val)) elements Full q val

/-- What holds of a queue of `maxSize` elements when no call is on. -/
def Sized (maxSize : Nat) (q : Queue α w) : Prop := q.Rest ∧ q.maxSize = maxSize

variable {q q' : Queue α w} {maxSize : Nat}

theorem eq_pushed {val : α} {is rest : List Unit} {b : Bool}
    (h : finish pushAccess is q (.head val) = some (q', b, rest)) : q.pushed val = (q', b) := by
  obtain ⟨rest', hpush⟩ := finish_push q val
  exact finish_unique hpush h

theorem eq_drained {is rest : List Unit} {b : Bool}
    (h : finish popAccess is q .tail = some (q', b, rest)) : q.drained = (q', b) := by
  obtain ⟨rest', hpop⟩ := finish_pop q
  exact finish_unique hpop h

theorem Sized.capacity (hq : q.Sized maxSize) (hmax : maxSize ≤ (sizeLimit w).toNat) :
    q.capacity = maxSize := by
  rw [Queue.capacity, hq.2, Nat.min_eq_left hmax]

theorem Sized.not_overrun (hq : q.Sized maxSize) (hmax : maxSize ≤ (sizeLimit w).toNat) :
    ¬ q.Overrun := fun ho => absurd ho.2.1 (by rw [hq.2]; omega)

theorem Sized.refuses_iff (hq : q.Sized maxSize) (hmax : maxSize ≤ (sizeLimit w).toNat) :
    q.Refuses ↔ q.items.length = maxSize := by
  rw [hq.1.refuses_iff (hq.not_overrun hmax), hq.capacity hmax, held_eq]

theorem Sized.drained (hq : q.Sized maxSize) :
    q.drained.1.Sized maxSize ∧ q.drained.1.items = q.items.tail := by
  have hrest := hq.1.drained
  rcases hitems : q.items with _ | ⟨x, xs⟩
  · rw [hq.1.drained_nil hitems]
    exact ⟨hq, hitems⟩
  · rw [hq.1.drained_cons hitems] at hrest ⊢
    exact ⟨⟨hrest, hq.2⟩, items_take hitems _⟩

/-- `spsc_queue` is a queue of `max_size` elements. -/
theorem behaves (hmax : maxSize ≤ (sizeLimit w).toNat) :
    Behaves (fun _ => True) pushAccess Producer.head popAccess Consumer.tail maxSize
      (Sized maxSize) (items (α := α) (w := w)) where
  le q hq := by
    rw [← held_eq, ← hq.capacity hmax]
    exact hq.1.held_le
  pushEnds := by
    refine ⟨4, fun q val _ => ?_⟩
    obtain ⟨rest, hpush⟩ := finish_push q val
    exact endsIn_length hpush
  push is q q' b rest val hq h := by
    have hpush := eq_pushed h
    have hrest := hq.1.pushed (hq.not_overrun hmax) val
    have hle : q.items.length ≤ maxSize := by
      rw [← held_eq, ← hq.capacity hmax]
      exact hq.1.held_le
    by_cases hr : q.Refuses
    · rw [Queue.pushed, if_pos hr] at hpush
      cases hpush
      exact ⟨hq, Or.inr ⟨rfl, (hq.refuses_iff hmax).mp hr, rfl⟩⟩
    · rw [Queue.pushed, if_neg hr] at hpush hrest
      cases hpush
      have hne := mt (hq.refuses_iff hmax).mpr hr
      exact ⟨⟨hrest, hq.2⟩, Or.inl ⟨rfl, by omega, items_publish hq.1.le _ _⟩⟩
  popEnds := by
    refine ⟨4, fun q _ => ?_⟩
    obtain ⟨rest, hpop⟩ := finish_pop q
    exact endsIn_length hpop
  pop is q q' b rest hq h := by
    have hpop := hq.drained
    rwa [eq_drained h] at hpop

theorem Sized.use (hpos : 0 < maxSize) (hmax : maxSize ≤ (sizeLimit w).toNat)
    (hq : q.Sized maxSize) {u : Use α} (h : q.use u = .ok q') : q'.Sized maxSize := by
  cases u with
  | call c =>
    obtain ⟨b, hcall⟩ := map_fst_eq_ok.mp h
    cases c with
    | push val =>
      obtain ⟨rest, hf⟩ := call_eq_ok.mp hcall
      exact ((behaves hmax).push _ _ _ _ _ _ hq hf).1
    | pop =>
      obtain ⟨rest, hf⟩ := call_eq_ok.mp hcall
      exact ((behaves hmax).pop _ _ _ _ _ hq hf).1
  | evict val accesses =>
    obtain ⟨b, hcall⟩ := map_fst_eq_ok.mp h
    obtain ⟨rest, hf⟩ := call_eq_ok.mp hcall
    exact ((behaves hmax).evict hpos hq hf).1

theorem Sized.newest (hpos : 0 < maxSize) (hmax : maxSize ≤ (sizeLimit w).toNat)
    (hq : q.Sized maxSize) {Full : Queue α w → Prop} (hfull : q.items.length = maxSize → Full q)
    (val : α) : q.Newest Full val :=
  KeepsNewest.of_behaves (behaves hmax) hpos (fun _ hq => hq.1.elements_eq) hq hfull val

end Queue

end Spsc

/-! ## `mpmc_queue` -/

namespace Mpmc

variable {α : Type} {w : Nat}

/-- A call of any of the three. -/
inductive Use (α : Type) where
  | call (c : Call α)
  | evict (val : α) (oks : List Bool)

namespace Queue

/-- An access of `push_until_success`. -/
def evictAccess (val : α) : Access Bool (Queue α w) (Pc α w ⊕ Pc α w) Unit :=
  untilTrue callAccess callAccess (.pushFlag val) .popTail

def use (q : Queue α w) : Use α → Except Unfinished (Queue α w)
  | .call c => q.step c
  | .evict val oks => (Calls.call (evictAccess val) oks q (.inl (.pushFlag val))).map Prod.fst

/-- `push_until_success(val)`, with "full" as given. -/
def Newest (Full : Queue α w → Prop) (q : Queue α w) (val : α) : Prop :=
  KeepsNewest (evictAccess val) (· = true) (.inl (.pushFlag val)) elements Full q val

/-- What holds of a queue with this `max_size` when no call is on. -/
def Sized (maxSize : Nat) (q : Queue α w) : Prop := q.Rest ∧ q.maxSize = maxSize

variable {q q' : Queue α w} {maxSize : Nat}

theorem Sized.room_iff (hq : q.Sized maxSize) (hmax : maxSize ≤ (sizeLimit w).toNat) :
    q.Room ↔ q.items.length < maxSize - 1 := by
  rw [Spsc.Queue.sizeLimit_toNat] at hmax
  rw [hq.1.room_iff, hq.2, held_eq]
  omega

theorem Sized.drained (hq : q.Sized maxSize) :
    q.drained.1.Sized maxSize ∧ q.drained.1.items = q.items.tail := by
  have hrest := hq.1.drained
  rcases hitems : q.items with _ | ⟨x, xs⟩
  · rw [hq.1.drained_nil hitems] at hrest ⊢
    exact ⟨⟨hrest, hq.2⟩, (items_refuse q).trans hitems⟩
  · rw [hq.1.drained_cons hitems] at hrest ⊢
    exact ⟨⟨hrest, hq.2⟩, items_take hitems _⟩

/-- `mpmc_queue` is a queue of one element less than `max_size`. -/
theorem behaves (hw : w < 64) (hmax : maxSize ≤ (sizeLimit w).toNat) :
    Behaves (· = true) callAccess Pc.pushFlag callAccess Pc.popTail (maxSize - 1)
      (Sized maxSize) (items (α := α) (w := w)) where
  le q hq := by
    have hbound := hq.1.bound
    rwa [held_eq, hq.2] at hbound
  pushEnds := ⟨11, fun q val hq => hq.1.push_ends hw val⟩
  push is q q' b rest val hq h := by
    have hpush := hq.1.pushed_eq hw h
    have hrest := hq.1.pushed hw val
    have hbound := hq.1.bound
    rw [held_eq, hq.2] at hbound
    by_cases hr : q.Room
    · rw [Queue.pushed, if_pos hr] at hpush hrest
      cases hpush
      exact ⟨⟨hrest, hq.2⟩, Or.inl ⟨rfl, (hq.room_iff hmax).mp hr, hq.1.items_filled val⟩⟩
    · rw [Queue.pushed, if_neg hr] at hpush
      cases hpush
      have hne := mt (hq.room_iff hmax).mpr hr
      exact ⟨hq, Or.inr ⟨rfl, by omega, rfl⟩⟩
  popEnds := ⟨4, fun q hq => hq.1.pop_ends hw⟩
  pop is q q' b rest hq h := by
    have hpop := hq.drained
    rwa [hq.1.drained_eq hw h] at hpop

/-- With no room for any element the call never ends. -/
theorem Sized.evict_never (hw : w < 64) (hmax : maxSize ≤ (sizeLimit w).toNat)
    (hzero : maxSize - 1 = 0) (hq : q.Sized maxSize) (val : α) (oks : List Bool) :
    finish (evictAccess val) oks q (.inl (.pushFlag val)) = none := by
  have hbehaves := behaves (α := α) hw hmax
  rw [hzero] at hbehaves
  exact hbehaves.evict_never hq oks

theorem Sized.use (hw : w < 64) (hmax : maxSize ≤ (sizeLimit w).toNat) (hq : q.Sized maxSize)
    {u : Use α} (h : q.use u = .ok q') : q'.Sized maxSize := by
  cases u with
  | call c =>
    obtain ⟨b, hcall⟩ := map_fst_eq_ok.mp h
    cases c with
    | push val oks =>
      obtain ⟨rest, hf⟩ := call_eq_ok.mp hcall
      exact ((behaves hw hmax).push _ _ _ _ _ _ hq hf).1
    | pop oks =>
      obtain ⟨rest, hf⟩ := call_eq_ok.mp hcall
      exact ((behaves hw hmax).pop _ _ _ _ _ hq hf).1
  | evict val oks =>
    obtain ⟨b, hcall⟩ := map_fst_eq_ok.mp h
    obtain ⟨rest, hf⟩ := call_eq_ok.mp hcall
    rcases Nat.eq_zero_or_pos (maxSize - 1) with hzero | hpos
    · exact absurd (hf.symm.trans (hq.evict_never hw hmax hzero val oks)) nofun
    · exact ((behaves hw hmax).evict hpos hq hf).1

theorem Sized.not_newest (hw : w < 64) (hmax : maxSize ≤ (sizeLimit w).toNat)
    (hzero : maxSize - 1 = 0) (hq : q.Sized maxSize) (Full : Queue α w → Prop) (val : α) :
    ¬ q.Newest Full val := by
  intro h
  obtain ⟨n, hn⟩ := h.ends
  have hsome := hn [] (List.replicate n true) (fun _ hj => List.eq_of_mem_replicate hj) (by simp)
  rw [hq.evict_never hw hmax hzero] at hsome
  cases hsome

theorem Sized.newest (hw : w < 64) (hmax : maxSize ≤ (sizeLimit w).toNat) (hpos : 0 < maxSize - 1)
    (hq : q.Sized maxSize) {Full : Queue α w → Prop}
    (hfull : q.items.length = maxSize - 1 → Full q) (val : α) : q.Newest Full val :=
  KeepsNewest.of_behaves (behaves hw hmax) hpos (fun _ hq => hq.1.elements_eq) hq hfull val

theorem Sized.newest_refused_iff (hw : w < 64) (hmax : maxSize ≤ (sizeLimit w).toNat)
    (hq : q.Sized maxSize) (val : α) : q.Newest (fun q => ¬ q.Room) val ↔ 2 ≤ maxSize := by
  rcases Nat.eq_zero_or_pos (maxSize - 1) with hzero | hpos
  · exact iff_of_false (hq.not_newest hw hmax hzero _ val) (by omega)
  · refine iff_of_true (hq.newest hw hmax hpos (fun hlen => ?_) val) (by omega)
    rw [hq.room_iff hmax]
    omega

theorem Sized.newest_full_iff (hw : w < 64) (hmax : maxSize ≤ (sizeLimit w).toNat)
    (hq : q.Sized maxSize) (val : α) :
    q.Newest (fun q => q.held = q.maxSize) val ↔ q.held + 1 < q.maxSize := by
  have hle := (behaves hw hmax).le q hq
  rw [held_eq, hq.2]
  constructor
  · intro h
    by_contra hlt
    rcases Nat.eq_zero_or_pos (maxSize - 1) with hzero | hpos
    · exact hq.not_newest hw hmax hzero _ val h
    obtain ⟨n, hn⟩ := h.ends
    have hsome := hn [] (List.replicate n true) (fun _ hj => List.eq_of_mem_replicate hj) (by simp)
    obtain ⟨⟨q', u, rest⟩, hf⟩ := Option.isSome_iff_exists.mp hsome
    obtain ⟨kept, helements, hkept⟩ := h.newest _ _ _ hf
    obtain ⟨hq', hitems⟩ := (behaves hw hmax).evict hpos hq hf
    rw [hq'.1.elements_eq, hitems, if_neg (by omega), List.map_append] at helements
    have hlen := congrArg List.length helements
    simp only [List.length_append, List.length_map, List.length_tail, List.length_singleton] at hlen
    -- The oldest element is missing, but the queue is not full.
    rcases hkept with rfl | ⟨hfull, -⟩
    · rw [hq.1.elements_eq, List.length_map] at hlen
      omega
    · rw [held_eq, hq.2] at hfull
      omega
  · intro hlt
    exact hq.newest hw hmax (by omega) (fun hlen => by omega) val

end Queue

end Mpmc

end Footstone
