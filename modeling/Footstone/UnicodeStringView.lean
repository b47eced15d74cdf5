import Footstone.Lib.Runs

/-!
`unicode_string_view` (`unicode_string_view.h`, `unicode_string_view.cc`). A tag names the
member of a union of four strings that is in use, and members are constructed and
destroyed by hand. Strings are lists of code units. A string behind a pointer is what
comes before the first zero. A right-hand side is its value: an object's own string is
one of its encoding, and then nothing is destroyed before it is read.
-/

namespace Footstone

open Runs

inductive Encoding where
  | Unkown
  | Latin1
  | Utf8
  | Utf16
  | Utf32
  deriving DecidableEq

/-- A member of the union, with its string. -/
inductive Member where
  | latin1 (s : List UInt8)
  | u8 (s : List UInt8)
  | u16 (s : List UInt16)
  | u32 (s : List UInt32)
  deriving DecidableEq

def Member.encoding : Member → Encoding
  | .latin1 _ => .Latin1
  | .u8 _ => .Utf8
  | .u16 _ => .Utf16
  | .u32 _ => .Utf32

theorem Member.encoding_ne (m : Member) : m.encoding ≠ .Unkown := by
  cases m <;> nofun

/-- A member is used that is not alive. -/
inductive Dead where
  | dead
  deriving DecidableEq

/-- An object. -/
structure UnicodeStringView where
  encoding : Encoding := .Unkown
  /-- The member that is alive. -/
  member : Option Member := none
  /-- How many members were constructed over while they were alive. It is not in the source. -/
  lost : Nat := 0
  deriving DecidableEq

namespace UnicodeStringView

/-! ## The code -/

/-- Placement `new`. -/
def construct (m : Member) (v : UnicodeStringView) : UnicodeStringView :=
  { v with member := some m, lost := v.lost + if v.member.isSome then 1 else 0 }

/-- The member for `e`. -/
def read (e : Encoding) (v : UnicodeStringView) : Except Dead Member :=
  match v.member with
  | some m => if m.encoding = e then .ok m else .error .dead
  | none => .error .dead

/-- The destructor of the member for `e`. -/
def destroy (e : Encoding) (v : UnicodeStringView) : Except Dead UnicodeStringView := do
  let _ ← v.read e
  return { v with member := none }

/-- The assignment of a string to a member. -/
def store (m : Member) (v : UnicodeStringView) : Except Dead UnicodeStringView := do
  let _ ← v.read m.encoding
  return { v with member := some m }

def deallocate (v : UnicodeStringView) : Except Dead UnicodeStringView := do
  let v ←
    match v.encoding with
    | .Unkown => pure v
    | e => v.destroy e
  return { v with encoding := .Unkown }

/-- The string behind a pointer. -/
def cString {κ : Type} [DecidableEq κ] [OfNat κ 0] (chars : List κ) : List κ :=
  chars.takeWhile (· ≠ 0)

/-- A constructor from a string. -/
def ofMember (m : Member) : UnicodeStringView := { encoding := m.encoding, member := some m }

def ofChars (chars : List UInt8) : UnicodeStringView := ofMember (.latin1 (cString chars))
def ofString (s : List UInt8) : UnicodeStringView := ofMember (.latin1 s)
def ofU8chars (chars : List UInt8) : UnicodeStringView := ofMember (.u8 (cString chars))
def ofU8string (s : List UInt8) : UnicodeStringView := ofMember (.u8 s)
def ofU16chars (chars : List UInt16) : UnicodeStringView := ofMember (.u16 (cString chars))
def ofU16string (s : List UInt16) : UnicodeStringView := ofMember (.u16 s)
def ofU32chars (chars : List UInt32) : UnicodeStringView := ofMember (.u32 (cString chars))
def ofU32string (s : List UInt32) : UnicodeStringView := ofMember (.u32 s)

/-- The copy constructor. -/
def copy (source : UnicodeStringView) : Except Dead UnicodeStringView :=
  match source.encoding with
  | .Unkown => .ok {}
  | e => do
    let m ← source.read e
    return construct m { encoding := e }

/-- `operator=(const unicode_string_view&)`. An object is returned as it is when it is assigned
to itself, which comes to the same. -/
def assignView (v rhs : UnicodeStringView) : Except Dead UnicodeStringView := do
  let v ←
    match rhs.encoding with
    | .Unkown => pure v
    | e =>
      if v.encoding ≠ e then do
        let v ← v.deallocate
        let m ← rhs.read e
        pure (v.construct m)
      else do
        let m ← rhs.read e
        v.store m
  return { v with encoding := rhs.encoding }

/-- The two operators for Latin-1. -/
def assignLatin1 (s : List UInt8) (v : UnicodeStringView) : Except Dead UnicodeStringView := do
  let v ←
    if v.encoding ≠ .Latin1 then do
      let v ← v.deallocate
      pure { v.construct (.latin1 []) with encoding := .Latin1 }
    else pure v
  v.store (.latin1 s)

/-- The six operators for the other encodings. -/
def assignMember (m : Member) (v : UnicodeStringView) : Except Dead UnicodeStringView :=
  if v.encoding ≠ m.encoding then do
    let v ← v.deallocate
    return { v.construct m with encoding := m.encoding }
  else return v

def assignChars (chars : List UInt8) := assignLatin1 (cString chars)
def assignString (s : List UInt8) := assignLatin1 s
def assignU8chars (chars : List UInt8) := assignMember (.u8 (cString chars))
def assignU8string (s : List UInt8) := assignMember (.u8 s)
def assignU16chars (chars : List UInt16) := assignMember (.u16 (cString chars))
def assignU16string (s : List UInt16) := assignMember (.u16 s)
def assignU32chars (chars : List UInt32) := assignMember (.u32 (cString chars))
def assignU32string (s : List UInt32) := assignMember (.u32 s)

/-! ## Objects whose tag does not lie -/

/-- The member that the tag names is alive. Without a name, any may be. -/
def Valid (v : UnicodeStringView) : Prop :=
  v.encoding ≠ .Unkown → v.member.map Member.encoding = some v.encoding

/-- The string that the tag names. -/
def stored (v : UnicodeStringView) : Option Member :=
  if v.encoding = .Unkown then none else v.member

/-- An object with `m` in place of what it had. What was alive without a name is lost. -/
def put (m : Member) (v : UnicodeStringView) : UnicodeStringView where
  encoding := m.encoding
  member := some m
  lost := v.lost + if v.encoding = .Unkown ∧ v.member.isSome then 1 else 0

variable {v rhs : UnicodeStringView}

theorem Valid.exists_member (h : v.Valid) (he : v.encoding ≠ .Unkown) :
    ∃ m, v.member = some m ∧ m.encoding = v.encoding :=
  Option.map_eq_some_iff.mp (h he)

theorem read_of_eq {m : Member} (h : v.member = some m) : v.read m.encoding = .ok m := by
  rw [read, h]
  exact if_pos rfl

theorem Valid.deallocate (h : v.Valid) : v.deallocate = .ok { v with
    encoding := .Unkown
    member := if v.encoding = .Unkown then v.member else none } := by
  by_cases he : v.encoding = .Unkown
  · rw [UnicodeStringView.deallocate, he, if_pos rfl]
    rfl
  · obtain ⟨m, hm, hme⟩ := h.exists_member he
    have hread : v.read v.encoding = .ok m := hme ▸ read_of_eq hm
    rw [UnicodeStringView.deallocate, if_neg he]
    split
    · contradiction
    · rw [destroy, hread]
      rfl

theorem Valid.put (m : Member) (v : UnicodeStringView) : (v.put m).Valid := fun _ => rfl

theorem Valid.ofMember (m : Member) : (ofMember m).Valid := fun _ => rfl

@[simp] theorem stored_put (m : Member) (v : UnicodeStringView) : (v.put m).stored = some m :=
  if_neg m.encoding_ne

@[simp] theorem stored_ofMember (m : Member) : (ofMember m).stored = some m :=
  if_neg m.encoding_ne

/-- Deallocating and constructing. -/
theorem Valid.deallocate_construct (h : v.Valid) (m : Member) : ∃ v', v.deallocate = .ok v' ∧
    ({ v'.construct m with encoding := m.encoding } : UnicodeStringView) = v.put m := by
  refine ⟨_, h.deallocate, ?_⟩
  by_cases he : v.encoding = .Unkown <;> simp [construct, UnicodeStringView.put, he]

/-- Storing in the member that the tag names. -/
theorem Valid.store (h : v.Valid) {m : Member} (he : v.encoding = m.encoding) :
    v.store m = .ok (v.put m) := by
  have hne : v.encoding ≠ .Unkown := he ▸ m.encoding_ne
  obtain ⟨n, hn, hne'⟩ := h.exists_member hne
  have hread : v.read m.encoding = .ok n := by
    rw [← he, ← hne']
    exact read_of_eq hn
  rw [UnicodeStringView.store, hread]
  simp [UnicodeStringView.put, hne, ← he, bind, Except.bind, pure, Except.pure]

theorem Valid.assignLatin1 (h : v.Valid) (s : List UInt8) :
    v.assignLatin1 s = .ok (v.put (.latin1 s)) := by
  by_cases he : v.encoding = .Latin1
  · rw [UnicodeStringView.assignLatin1, if_neg (not_not.mpr he)]
    exact h.store he
  · obtain ⟨v', hv', hput⟩ := h.deallocate_construct (.latin1 [])
    rw [UnicodeStringView.assignLatin1, if_pos he, hv']
    change (({ v'.construct (.latin1 []) with encoding := .Latin1 } :
      UnicodeStringView).store (.latin1 s)) = _
    have hput' : ({ v'.construct (.latin1 []) with encoding := .Latin1 } : UnicodeStringView) =
      v.put (.latin1 []) := hput
    rw [hput', (Valid.put (.latin1 []) v).store (m := .latin1 s) rfl]
    simp [UnicodeStringView.put, Member.encoding]

theorem Valid.assignMember (h : v.Valid) (m : Member) :
    v.assignMember m = .ok (if v.encoding ≠ m.encoding then v.put m else v) := by
  rw [UnicodeStringView.assignMember]
  split
  · obtain ⟨v', hv', hput⟩ := h.deallocate_construct m
    rw [hv', ← hput]
    rfl
  · rfl

/-- From an object without a name nothing is copied but that. -/
theorem assignView_unkown (h : rhs.encoding = .Unkown) (v : UnicodeStringView) :
    v.assignView rhs = .ok { v with encoding := .Unkown } := by
  rw [assignView, h]
  rfl

theorem Valid.assignView (h : v.Valid) {m : Member} (hm : rhs.member = some m)
    (he : rhs.encoding = m.encoding) : v.assignView rhs = .ok (v.put m) := by
  have hread : rhs.read m.encoding = .ok m := read_of_eq hm
  have hne := m.encoding_ne
  rw [UnicodeStringView.assignView, he]
  split
  · contradiction
  · by_cases hsame : v.encoding = m.encoding
    · rw [if_neg (not_not.mpr hsame), hread]
      change (do
        let v ← v.store m
        pure { v with encoding := m.encoding }) = _
      rw [h.store hsame]
      rfl
    · obtain ⟨v', hv', hput⟩ := h.deallocate_construct m
      rw [if_pos hsame, hv']
      change (do
        let m' ← rhs.read m.encoding
        pure { v'.construct m' with encoding := m.encoding }) = _
      rw [hread, ← hput]
      rfl

/-! ## Assignments in a row -/

/-- The right-hand sides of the nine operators. -/
inductive Rhs where
  | view (rhs : { rhs : UnicodeStringView // rhs.Valid })
  | chars (chars : List UInt8)
  | string (s : List UInt8)
  | u8chars (chars : List UInt8)
  | u8string (s : List UInt8)
  | u16chars (chars : List UInt16)
  | u16string (s : List UInt16)
  | u32chars (chars : List UInt32)
  | u32string (s : List UInt32)

/-- `operator=` -/
def assign (v : UnicodeStringView) : Rhs → Except Dead UnicodeStringView
  | .view rhs => v.assignView rhs
  | .chars chars => v.assignChars chars
  | .string s => v.assignString s
  | .u8chars chars => v.assignU8chars chars
  | .u8string s => v.assignU8string s
  | .u16chars chars => v.assignU16chars chars
  | .u16string s => v.assignU16string s
  | .u32chars chars => v.assignU32chars chars
  | .u32string s => v.assignU32string s

/-- The constructor for the same right-hand side. -/
def fresh : Rhs → Except Dead UnicodeStringView
  | .view rhs => copy rhs
  | .chars chars => .ok (ofChars chars)
  | .string s => .ok (ofString s)
  | .u8chars chars => .ok (ofU8chars chars)
  | .u8string s => .ok (ofU8string s)
  | .u16chars chars => .ok (ofU16chars chars)
  | .u16string s => .ok (ofU16string s)
  | .u32chars chars => .ok (ofU32chars chars)
  | .u32string s => .ok (ofU32string s)

/-- What is to be stored. -/
def Rhs.target : Rhs → Option Member
  | .view rhs => rhs.val.stored
  | .chars s => some (.latin1 (cString s))
  | .string s => some (.latin1 s)
  | .u8chars s => some (.u8 (cString s))
  | .u8string s => some (.u8 s)
  | .u16chars s => some (.u16 (cString s))
  | .u16string s => some (.u16 s)
  | .u32chars s => some (.u32 (cString s))
  | .u32string s => some (.u32 s)

/-- The operators that only construct. -/
def Rhs.OnlyConstructs : Rhs → Prop
  | .view _ | .chars _ | .string _ => False
  | .u8chars _ | .u8string _ | .u16chars _ | .u16string _ | .u32chars _ | .u32string _ => True

/-- An object in a row of assignments, and the right-hand side of the last. -/
structure Assigned where
  view : UnicodeStringView
  last : Option Rhs := none

def Assigned.step (s : Assigned) (rhs : Rhs) : Except Dead Assigned :=
  (s.view.assign rhs).map ({ view := ·, last := some rhs })

/-- The object is what a fresh one would be, and can be assigned to. -/
structure Assigned.StoresLast (s : Assigned) : Prop where
  fresh : ∀ rhs ∈ s.last, ∃ f, UnicodeStringView.fresh rhs = .ok f ∧
    s.view.encoding = f.encoding ∧ s.view.stored = f.stored
  assigns : ∀ rhs, ∃ v, s.view.assign rhs = .ok v

/-- The operators that only construct have something to construct, or nothing to change. -/
def Assigned.Replaces (s : Assigned) (rhs : Rhs) : Prop :=
  rhs.OnlyConstructs → (∃ m ∈ rhs.target, s.view.encoding ≠ m.encoding) ∨ s.view.stored = rhs.target

theorem Valid.stored_of_ne (h : v.Valid) (he : v.encoding ≠ .Unkown) :
    ∃ m, v.stored = some m ∧ v.member = some m ∧ v.encoding = m.encoding := by
  obtain ⟨m, hm, hme⟩ := h.exists_member he
  exact ⟨m, (if_neg he).trans hm, hm, hme.symm⟩

/-- The tag is that of the string it names. -/
theorem Valid.encoding_eq (h : v.Valid) : v.encoding = v.stored.elim .Unkown Member.encoding := by
  by_cases he : v.encoding = .Unkown
  · rw [stored, if_pos he, he]
    rfl
  · obtain ⟨m, hm, -, hme⟩ := h.stored_of_ne he
    rw [hm, hme]
    rfl

theorem Valid.same_iff (h : v.Valid) (hr : rhs.Valid) :
    v.encoding = rhs.encoding ∧ v.stored = rhs.stored ↔ v.stored = rhs.stored :=
  ⟨And.right, fun hs => ⟨by rw [h.encoding_eq, hr.encoding_eq, hs], hs⟩⟩

theorem Valid.copy (h : rhs.Valid) :
    ∃ f, copy rhs = .ok f ∧ f.Valid ∧ f.stored = rhs.stored ∧
      (f.encoding = .Unkown → f.member = none) ∧ f.lost = 0 := by
  by_cases he : rhs.encoding = .Unkown
  · refine ⟨{}, by rw [UnicodeStringView.copy, he], nofun, ?_, fun _ => rfl, rfl⟩
    rw [stored, stored, if_pos rfl, if_pos he]
  · obtain ⟨m, hm, hmember, hme⟩ := h.stored_of_ne he
    have hread : rhs.read m.encoding = .ok m := read_of_eq hmember
    have hne := m.encoding_ne
    refine ⟨construct m { encoding := m.encoding }, ?_, fun _ => rfl, ?_,
      fun hu => absurd hu hne, rfl⟩
    · rw [UnicodeStringView.copy, hme]
      split
      · contradiction
      · rw [hread]
        rfl
    · rw [hm]
      exact if_neg hne

/-- A fresh object has what is to be stored. -/
theorem fresh_eq (rhs : Rhs) : ∃ f, fresh rhs = .ok f ∧ f.Valid ∧ f.stored = rhs.target := by
  cases rhs with
  | view rhs =>
    obtain ⟨f, hf, hvalid, hstored, -⟩ := Valid.copy rhs.2
    exact ⟨f, hf, hvalid, hstored⟩
  | _ => exact ⟨_, rfl, Valid.ofMember _, by rfl⟩

/-- Those operators that store what they are given. -/
theorem Valid.assign_of_not (h : v.Valid) {rhs : Rhs} (hr : ¬ rhs.OnlyConstructs) :
    ∃ v', v.assign rhs = .ok v' ∧ v'.Valid ∧ v'.stored = rhs.target := by
  cases rhs with
  | view rhs =>
    by_cases he : rhs.val.encoding = .Unkown
    · refine ⟨_, assignView_unkown he v, nofun, ?_⟩
      rw [Rhs.target, stored, stored, if_pos rfl, if_pos he]
    · obtain ⟨m, hm, hmember, hme⟩ := rhs.2.stored_of_ne he
      exact ⟨_, h.assignView hmember hme, Valid.put _ _, (stored_put _ _).trans hm.symm⟩
  | chars chars => exact ⟨_, h.assignLatin1 _, Valid.put _ _, stored_put _ _⟩
  | string s => exact ⟨_, h.assignLatin1 _, Valid.put _ _, stored_put _ _⟩
  | _ => exact absurd trivial hr

/-- The others do not when they only construct. -/
theorem Valid.assign_of_onlyConstructs (h : v.Valid) {rhs : Rhs} (hr : rhs.OnlyConstructs) :
    ∃ m v', rhs.target = some m ∧ v.assign rhs = .ok v' ∧
      v' = if v.encoding ≠ m.encoding then v.put m else v := by
  cases rhs with
  | view | chars | string => exact hr.elim
  | _ => exact ⟨_, _, rfl, h.assignMember _, rfl⟩

/-- An assignment stores what it should exactly when it replaces what was there. -/
theorem Valid.assign (h : v.Valid) (rhs : Rhs) : ∃ v', v.assign rhs = .ok v' ∧ v'.Valid ∧
    (v'.stored = rhs.target ↔ Assigned.Replaces { view := v } rhs) := by
  by_cases hr : rhs.OnlyConstructs
  · obtain ⟨m, v', htarget, hassign, rfl⟩ := h.assign_of_onlyConstructs hr
    refine ⟨_, hassign, ?_, ?_⟩
    · split
      · exact Valid.put _ _
      · exact h
    · rw [Assigned.Replaces, htarget]
      split
      · rename_i hne
        exact iff_of_true (stored_put _ _) fun _ => Or.inl ⟨m, rfl, hne⟩
      · rename_i he
        simp [hr, not_not.mp he]
  · obtain ⟨v', hassign, hvalid, hstored⟩ := h.assign_of_not hr
    exact ⟨v', hassign, hvalid, iff_of_true hstored fun hr' => absurd hr' hr⟩

end UnicodeStringView

open UnicodeStringView

/-- **Assignment.** All along a row of assignments the object is what a fresh one would be,
exactly as long as no UTF-8, UTF-16 or UTF-32 string is assigned to an object that holds another
string in this encoding. -/
theorem assigned_iff (v : { v : UnicodeStringView // v.Valid }) (rhss : List Rhs) :
    Always Assigned.step Assigned.StoresLast { view := v } rhss ↔
      Meets Assigned.step Assigned.Replaces { view := v } rhss := by
  have hassigns : ∀ {v : UnicodeStringView}, v.Valid → ∀ rhs, ∃ v', v.assign rhs = .ok v' :=
    fun h rhs => (h.assign rhs).imp fun _ => And.left
  refine always_iff_meets (A := fun _ => True) (J := fun s : Assigned => s.view.Valid) ?_ ?_
    (fun _ _ => trivial) v.2 ⟨nofun, hassigns v.2⟩
  · intro s rhs s' _ hs h
    obtain ⟨v', hv', hvalid, -⟩ := hs.assign rhs
    rw [Assigned.step, hv'] at h
    cases h
    exact hvalid
  · intro s rhs s' _ hs _ h
    obtain ⟨v', hv', hvalid, hiff⟩ := hs.assign rhs
    rw [Assigned.step, hv'] at h
    cases h
    obtain ⟨f, hf, hfvalid, htarget⟩ := fresh_eq rhs
    refine Iff.trans ?_ hiff
    rw [← htarget, ← hvalid.same_iff hfvalid]
    constructor
    · intro hstores
      obtain ⟨f', hf', hsame⟩ := hstores.fresh rhs rfl
      rw [hf] at hf'
      cases hf'
      exact hsame
    · intro hsame
      refine ⟨?_, hassigns hvalid⟩
      rintro _ ⟨⟩
      exact ⟨f, hf, hsame⟩

/-- The second UTF-8 string is not stored. -/
theorem assigned_stale : ¬ Always Assigned.step Assigned.StoresLast
    { view := {} } [.u8string [97], .u8string [98]] := by
  intro h
  have hlast := always_iff_run.mp h _ List.prefix_rfl _ rfl
  obtain ⟨f, hf, -, hstored⟩ := hlast.fresh _ rfl
  cases hf
  exact absurd hstored (by decide)

end Footstone
