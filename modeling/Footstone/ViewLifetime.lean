import Footstone.UnicodeStringView
import Mathlib.Logic.Function.Basic

/-!
The members of `unicode_string_view` objects over their lives. They are constructed and
destroyed by the tags, and go astray when a tag is set to `Unkown` over a member that is
alive: the copy assignment does that.
-/

namespace Footstone

open Runs

namespace UnicodeStringView

/-- What the constructors for one encoding take. -/
inductive Text (κ : Type) where
  | chars (chars : List κ)
  | sized (chars : List κ) (length : Nat)
  | string (s : List κ)
  /-- A string that is moved from. -/
  | moved (s : List κ)

def Text.value {κ : Type} [DecidableEq κ] [OfNat κ 0] : Text κ → List κ
  | .chars s => cString s
  | .sized s length => s.take length
  | .string s => s
  | .moved s => s

/-- The constructors, the copy constructor apart. -/
inductive Ctor where
  | default
  | latin1 (text : Text UInt8)
  | u8 (text : Text UInt8)
  | u16 (text : Text UInt16)
  | u32 (text : Text UInt32)

def Ctor.make : Ctor → UnicodeStringView
  | .default => {}
  | .latin1 text => ofMember (.latin1 text.value)
  | .u8 text => ofMember (.u8 text.value)
  | .u16 text => ofMember (.u16 text.value)
  | .u32 text => ofMember (.u32 text.value)

/-- Objects by their addresses. The last two fields are not in the source. -/
structure Store where
  object : Nat → Option UnicodeStringView := fun _ => none
  /-- How many members of objects that are gone were not destroyed. -/
  lost : Nat := 0
  /-- A member was used, or destroyed, that was not alive. -/
  faulted : Bool := false

inductive Op where
  | create (i : Nat) (c : Ctor)
  | copy (i j : Nat)
  /-- An operator for an object outside of the store, or for a string. -/
  | assign (i : Nat) (rhs : Rhs)
  /-- The copy assignment from an object of the store. -/
  | assignFrom (i j : Nat)
  | destroy (i : Nat)

/-- There is an object where there should not be, or none where there should be. -/
inductive Misplaced where
  | taken
  | missing
  deriving DecidableEq

namespace Store

/-- An object is left behind at `i`. -/
def leave (i : Nat) (result : Except Dead UnicodeStringView) (s : Store) : Store :=
  match result with
  | .ok v => { s with object := Function.update s.object i (some v) }
  | .error _ => { s with faulted := true }

/-- The object at `i` is gone. -/
def remove (i : Nat) (result : Except Dead UnicodeStringView) (s : Store) : Store :=
  match result with
  | .ok v =>
    { s with
      object := Function.update s.object i none
      lost := s.lost + v.lost + if v.member.isSome then 1 else 0 }
  | .error _ => { s with faulted := true }

def step (s : Store) : Op → Except Misplaced Store
  | .create i c =>
    match s.object i with
    | none => .ok (s.leave i (.ok c.make))
    | some _ => .error .taken
  | .copy i j =>
    match s.object i, s.object j with
    | none, some source => .ok (s.leave i (UnicodeStringView.copy source))
    | some _, _ => .error .taken
    | none, none => .error .missing
  | .assign i rhs =>
    match s.object i with
    | some v => .ok (s.leave i (v.assign rhs))
    | none => .error .missing
  | .assignFrom i j =>
    match s.object i, s.object j with
    | some v, some rhs => if i = j then .ok s else .ok (s.leave i (v.assignView rhs))
    | _, _ => .error .missing
  | .destroy i =>
    match s.object i with
    | some v => .ok (s.remove i v.deallocate)
    | none => .error .missing

end Store

/-- Exactly the member that the tag names is alive, and none is lost. -/
structure Tidy (v : UnicodeStringView) : Prop where
  valid : v.Valid
  unnamed : v.encoding = .Unkown → v.member = none
  kept : v.lost = 0

namespace Store

/-- So in all objects, and none was lost with an object, or used without being alive. -/
structure Tidy (s : Store) : Prop where
  objects : ∀ i v, s.object i = some v → v.Tidy
  kept : s.lost = 0
  sound : s.faulted = false

/-- No object that has a member gets the tag of one that has none. -/
def KeepsName (s : Store) : Op → Prop
  | .assign i rhs => ∀ v ∈ s.object i, rhs.target = none → v.encoding = .Unkown
  | .assignFrom i j => ∀ v ∈ s.object i, ∀ rhs ∈ s.object j, i ≠ j → rhs.encoding = .Unkown →
      v.encoding = .Unkown
  | _ => True

end Store

variable {v rhs : UnicodeStringView}

theorem Tidy.ofMember (m : Member) : (ofMember m).Tidy :=
  ⟨Valid.ofMember m, fun h => absurd h m.encoding_ne, rfl⟩

theorem Ctor.make_tidy (c : Ctor) : c.make.Tidy := by
  cases c with
  | default => exact ⟨nofun, fun _ => rfl, rfl⟩
  | _ => exact Tidy.ofMember _

theorem Tidy.put (h : v.Tidy) (m : Member) : (v.put m).Tidy := by
  refine ⟨Valid.put m v, fun he => absurd he m.encoding_ne, ?_⟩
  have hne : ¬ (v.encoding = .Unkown ∧ v.member.isSome) := by
    rintro ⟨he, hm⟩
    rw [h.unnamed he] at hm
    cases hm
  rw [UnicodeStringView.put, if_neg hne, h.kept]

/-- A tag that is taken away names nothing only where there is nothing. -/
theorem Tidy.unkown_iff (h : v.Tidy) :
    ({ v with encoding := .Unkown } : UnicodeStringView).Tidy ↔ v.encoding = .Unkown := by
  constructor
  · intro hu
    by_contra he
    obtain ⟨m, hm, -⟩ := h.valid.exists_member he
    exact absurd (hm.symm.trans (hu.unnamed rfl)) nofun
  · intro he
    exact ⟨nofun, fun _ => h.unnamed he, h.kept⟩

/-- A copy assignment leaves the object tidy unless it takes its tag away. -/
theorem Tidy.assignView (h : v.Tidy) (hr : rhs.Valid) : ∃ v', v.assignView rhs = .ok v' ∧
    (v'.Tidy ↔ (rhs.encoding = .Unkown → v.encoding = .Unkown)) := by
  by_cases he : rhs.encoding = .Unkown
  · refine ⟨_, assignView_unkown he v, h.unkown_iff.trans ?_⟩
    exact ⟨fun hv _ => hv, fun hv => hv he⟩
  · obtain ⟨m, -, hm, hme⟩ := hr.stored_of_ne he
    exact ⟨_, h.valid.assignView hm hme, iff_of_true (h.put m) fun hu => absurd hu he⟩

/-- Only the copy assignment can take it away. -/
theorem Tidy.assign (h : v.Tidy) (rhs : Rhs) : ∃ v', v.assign rhs = .ok v' ∧
    (v'.Tidy ↔ (rhs.target = none → v.encoding = .Unkown)) := by
  by_cases hr : rhs.OnlyConstructs
  · obtain ⟨m, v', htarget, hassign, rfl⟩ := h.valid.assign_of_onlyConstructs hr
    refine ⟨_, hassign, iff_of_true ?_ fun hnone => ?_⟩
    · split
      · exact h.put m
      · exact h
    · rw [htarget] at hnone
      cases hnone
  cases rhs with
  | view rhs =>
    obtain ⟨v', hassign, hiff⟩ := h.assignView rhs.2
    refine ⟨v', hassign, hiff.trans ?_⟩
    have hnone : (Rhs.view rhs).target = none ↔ rhs.val.encoding = .Unkown := by
      constructor
      · intro hs
        by_contra he
        obtain ⟨m, hm, -⟩ := rhs.2.stored_of_ne he
        exact absurd (hm.symm.trans hs) nofun
      · exact fun he => if_pos he
    rw [hnone]
  | chars chars => exact ⟨_, h.valid.assignLatin1 _, iff_of_true (h.put _) nofun⟩
  | string s => exact ⟨_, h.valid.assignLatin1 _, iff_of_true (h.put _) nofun⟩
  | _ => exact absurd trivial hr

theorem Tidy.copy (h : v.Tidy) : ∃ f, copy v = .ok f ∧ f.Tidy := by
  obtain ⟨f, hf, hvalid, -, hunnamed, hlost⟩ := h.valid.copy
  exact ⟨f, hf, hvalid, hunnamed, hlost⟩

/-- The destructor leaves no member alive. -/
theorem Tidy.deallocate (h : v.Tidy) : ∃ v', v.deallocate = .ok v' ∧ v'.member = none ∧
    v'.lost = 0 := by
  refine ⟨_, h.valid.deallocate, ?_, h.kept⟩
  by_cases he : v.encoding = .Unkown
  · exact (if_pos he).trans (h.unnamed he)
  · exact if_neg he

namespace Store

variable {s s' : Store} {i : Nat}

/-- All objects are tidy when that at `i` is replaced by a tidy one, or by none. -/
theorem Tidy.objects_update (hs : s.Tidy) {x : Option UnicodeStringView}
    (hx : ∀ v, x = some v → v.Tidy) :
    ∀ k v, Function.update s.object i x k = some v → v.Tidy :=
  (Function.forall_update_iff s.object fun _ o => ∀ v, o = some v → v.Tidy).mpr
    ⟨hx, fun k _ => hs.objects k⟩

/-- The object that is left behind decides. -/
theorem Tidy.leave_iff (hs : s.Tidy) (v : UnicodeStringView) :
    (s.leave i (.ok v)).Tidy ↔ v.Tidy := by
  constructor
  · exact fun h => h.objects i v (Function.update_self _ _ _)
  · intro hv
    refine ⟨hs.objects_update ?_, hs.kept, hs.sound⟩
    rintro _ ⟨⟩
    exact hv

theorem Tidy.remove (hs : s.Tidy) {v : UnicodeStringView} (hm : v.member = none)
    (hl : v.lost = 0) : (s.remove i (.ok v)).Tidy := by
  refine ⟨hs.objects_update nofun, ?_, hs.sound⟩
  simp [Store.remove, hs.kept, hm, hl]

/-- A step keeps the store tidy exactly when it takes no tag away. -/
theorem Tidy.step_iff (hs : s.Tidy) {op : Op} (h : s.step op = .ok s') :
    s'.Tidy ↔ s.KeepsName op := by
  cases op with
  | create i c =>
    simp only [step] at h
    split at h <;> cases h
    exact iff_of_true ((hs.leave_iff _).mpr c.make_tidy) trivial
  | copy i j =>
    simp only [step] at h
    split at h <;> cases h
    rename_i source hi hj
    obtain ⟨f, hf, htidy⟩ := (hs.objects j source hj).copy
    rw [hf]
    exact iff_of_true ((hs.leave_iff f).mpr htidy) trivial
  | assign i rhs =>
    simp only [step] at h
    split at h <;> cases h
    rename_i v hi
    obtain ⟨v', hv', hiff⟩ := (hs.objects i v hi).assign rhs
    rw [hv', hs.leave_iff, hiff, KeepsName, hi]
    simp
  | assignFrom i j =>
    simp only [step] at h
    split at h
    · rename_i v rhs hi hj
      rw [KeepsName, hi, hj]
      split at h <;> cases h
      · rename_i hij
        exact iff_of_true hs (by simp [hij])
      · rename_i hij
        obtain ⟨v', hv', hiff⟩ := (hs.objects i v hi).assignView (hs.objects j rhs hj).valid
        rw [hv', hs.leave_iff, hiff]
        simp [hij]
    · cases h
  | destroy i =>
    simp only [step] at h
    split at h <;> cases h
    rename_i v hi
    obtain ⟨v', hv', hm, hl⟩ := (hs.objects i v hi).deallocate
    rw [hv']
    exact iff_of_true (hs.remove hm hl) trivial

end Store

end UnicodeStringView

open UnicodeStringView

/-- **Lifetimes.** All along a run, exactly the members that the tags name are alive, none is
constructed over or left alive, and none is used or destroyed when it is not, exactly as long as
no other object without a name is assigned to one that has a member. -/
theorem view_lifetime_iff (ops : List Op) :
    Always Store.step Store.Tidy {} ops ↔ Meets Store.step Store.KeepsName {} ops :=
  always_iff_meets (A := fun _ => True) (J := fun _ => True) (fun _ _ _ _ _ _ => trivial)
    (fun _ _ _ _ _ hs h => hs.step_iff h) (fun _ _ => trivial) trivial ⟨nofun, rfl, rfl⟩

/-- A default-constructed object is assigned to `"a"`, and the string is not destroyed. -/
theorem view_lifetime_lost : ¬ Always Store.step Store.Tidy {}
    [.create 0 (.latin1 (.string [97])), .create 1 .default, .assignFrom 0 1] := by
  intro h
  have htidy := always_iff_run.mp h _ List.prefix_rfl _ rfl
  exact absurd ((htidy.objects 0 _ rfl).unnamed rfl) (by decide)

end Footstone
