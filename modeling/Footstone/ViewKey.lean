import Footstone.ViewOrder

/-!
`unicode_string_view` as the key of a hash map. An object that names no string hashes to
zero, like every other one that does not; but it is not equal to itself, and neither is it
to what is copied from it.
-/

namespace Footstone

/-! ## The code -/

/-- `std::hash` of the four strings. -/
structure StringHash where
  string : List UInt8 → UInt64
  u8string : List UInt8 → UInt64
  u16string : List UInt16 → UInt64
  u32string : List UInt32 → UInt64

def StringHash.member (std : StringHash) : Member → UInt64
  | .latin1 s => std.string s
  | .u8 s => std.u8string s
  | .u16 s => std.u16string s
  | .u32 s => std.u32string s

namespace UnicodeStringView

/-- `std::hash<unicode_string_view>` -/
def hash (std : StringHash) (value : UnicodeStringView) : UInt64 :=
  match value.stored with
  | some m => std.member m
  | none => 0

/-- `operator!=` -/
def notEqual (v rhs : UnicodeStringView) : Bool := !v.equal rhs

/-! ## What a key has to do -/

/-- Equality is one as far as `v` goes, and what is copied from `v` finds it again. -/
structure WorksAsKey (std : StringHash) (v : UnicodeStringView) : Prop where
  refl : v.equal v = true
  symm : ∀ u, v.equal u = u.equal v
  trans : ∀ u x : UnicodeStringView, u.equal v = true → v.equal x = true → u.equal x = true
  notEqual : ∀ u, v.notEqual u = !v.equal u
  copied : ∃ f, v.copy = .ok f ∧ f.Valid ∧ f.equal v = true
  assigned : ∀ u : UnicodeStringView, u.Valid →
    ∃ f, u.assignView v = .ok f ∧ f.Valid ∧ f.equal v = true
  hash : ∀ u, v.equal u = true → v.hash std = u.hash std

variable {std : StringHash} {u v x : UnicodeStringView}

/-- Two objects are equal when both have a string, and it is the same. -/
theorem equal_iff : u.equal v = true ↔ u.encoding = v.encoding ∧ ∃ m ∈ u.stored, m ∈ v.stored := by
  rw [equal, compareBy_eq_true]
  constructor
  · rintro ⟨he, m, hm, n, hn, hmn⟩
    rw [Member.equal_iff] at hmn
    subst hmn
    exact ⟨he, m, hm, hn⟩
  · rintro ⟨he, m, hm, hn⟩
    exact ⟨he, m, hm, m, hn, Member.equal_iff.mpr rfl⟩

theorem stored_eq_of_equal (h : u.equal v = true) : u.stored = v.stored := by
  obtain ⟨-, m, hm, hn⟩ := equal_iff.mp h
  exact (Option.mem_def.mp hm).trans (Option.mem_def.mp hn).symm

theorem equal_symm (u v : UnicodeStringView) : u.equal v = v.equal u := by
  rw [Bool.eq_iff_iff, equal_iff, equal_iff]
  constructor
  · rintro ⟨he, m, hm, hn⟩
    exact ⟨he.symm, m, hn, hm⟩
  · rintro ⟨he, m, hm, hn⟩
    exact ⟨he.symm, m, hn, hm⟩

theorem equal_trans (h : u.equal v = true) (h' : v.equal x = true) : u.equal x = true := by
  have hstored := stored_eq_of_equal h'
  obtain ⟨he, m, hm, hn⟩ := equal_iff.mp h
  obtain ⟨he', -⟩ := equal_iff.mp h'
  exact equal_iff.mpr ⟨he.trans he', m, hm, hstored ▸ hn⟩

theorem hash_eq_of_equal (h : u.equal v = true) : u.hash std = v.hash std := by
  rw [hash, hash, stored_eq_of_equal h]

/-- What has the string of `v` is equal to `v`, if there is one. -/
theorem Valid.equal_iff_ne (hu : u.Valid) (hv : v.Valid) (h : u.stored = v.stored) :
    u.equal v = true ↔ v.encoding ≠ .Unkown := by
  rw [equal_iff]
  constructor
  · rintro ⟨-, m, -, hm⟩ he
    rw [stored, if_pos he] at hm
    cases hm
  · intro he
    obtain ⟨m, hm, -⟩ := hv.stored_of_ne he
    have hsame := (hu.same_iff hv).mpr h
    exact ⟨hsame.1, m, h ▸ hm, hm⟩

/-- A copy has the string, or has none either. -/
theorem Valid.copy_stored (h : v.Valid) : ∃ f, v.copy = .ok f ∧ f.Valid ∧ f.stored = v.stored := by
  obtain ⟨f, hf, hvalid, hstored, -⟩ := h.copy
  exact ⟨f, hf, hvalid, hstored⟩

theorem Valid.assignView_stored (hu : u.Valid) (hv : v.Valid) :
    ∃ f, u.assignView v = .ok f ∧ f.Valid ∧ f.stored = v.stored := by
  have hview : ¬ (Rhs.view ⟨v, hv⟩).OnlyConstructs := id
  exact hu.assign_of_not hview

end UnicodeStringView

open UnicodeStringView

/-- **A value works as a key exactly when it names a string.** -/
theorem worksAsKey_iff (std : StringHash) (v : { v : UnicodeStringView // v.Valid }) :
    WorksAsKey std v.val ↔ v.val.encoding ≠ .Unkown := by
  obtain ⟨v, hv⟩ := v
  constructor
  · intro h
    exact (hv.equal_iff_ne hv rfl).mp h.refl
  · intro he
    have hfinds : ∀ {f : UnicodeStringView}, f.Valid → f.stored = v.stored → f.equal v = true :=
      fun hf hstored => (hf.equal_iff_ne hv hstored).mpr he
    exact {
      refl := hfinds hv rfl
      symm := equal_symm v
      trans := fun u x => equal_trans
      notEqual := fun u => rfl
      copied := by
        obtain ⟨f, hf, hvalid, hstored⟩ := hv.copy_stored
        exact ⟨f, hf, hvalid, hfinds hvalid hstored⟩
      assigned := fun u hu => by
        obtain ⟨f, hf, hvalid, hstored⟩ := hu.assignView_stored hv
        exact ⟨f, hf, hvalid, hfinds hvalid hstored⟩
      hash := fun u => hash_eq_of_equal }

/-- A default-constructed value does not. -/
theorem default_not_key : ¬ ∀ std : StringHash, WorksAsKey std {} := by
  intro h
  have hrefl := (h ⟨fun _ => 0, fun _ => 0, fun _ => 0, fun _ => 0⟩).refl
  exact absurd hrefl (by decide)

end Footstone
