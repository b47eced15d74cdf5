import Footstone.UnicodeStringView
import Mathlib.Order.Defs.Unbundled

/-!
The comparisons of `unicode_string_view`. All six answer `false` for different encodings,
and then there is no order: nothing is known of the strings. Within an encoding they are
those of the strings, by their code units.
-/

namespace Footstone

/-! ## The code -/

def Member.equal : Member → Member → Bool
  | .latin1 s, .latin1 t => s = t
  | .u8 s, .u8 t => s = t
  | .u16 s, .u16 t => s = t
  | .u32 s, .u32 t => s = t
  | _, _ => false

def Member.less : Member → Member → Bool
  | .latin1 s, .latin1 t => s < t
  | .u8 s, .u8 t => s < t
  | .u16 s, .u16 t => s < t
  | .u32 s, .u32 t => s < t
  | _, _ => false

def Member.greater (m n : Member) : Bool := n.less m

namespace UnicodeStringView

/-- The tags are compared first, and then the strings that they name, if they do. -/
def compareBy (test : Member → Member → Bool) (v rhs : UnicodeStringView) : Bool :=
  if v.encoding ≠ rhs.encoding then false
  else
    match v.stored, rhs.stored with
    | some m, some n => test m n
    | _, _ => false

/-- `operator==` -/
def equal (v rhs : UnicodeStringView) : Bool := compareBy Member.equal v rhs

/-- `operator<` -/
def less (v rhs : UnicodeStringView) : Bool := compareBy Member.less v rhs

/-- `operator>` -/
def greater (v rhs : UnicodeStringView) : Bool := compareBy Member.greater v rhs

/-- `operator<=` -/
def lessEq (v rhs : UnicodeStringView) : Bool :=
  if v.encoding ≠ rhs.encoding then false else !v.greater rhs

/-- `operator>=` -/
def greaterEq (v rhs : UnicodeStringView) : Bool :=
  if v.encoding ≠ rhs.encoding then false else !v.less rhs

end UnicodeStringView

/-! ## Strings -/

namespace Member

variable {m n o : Member}

theorem less_irrefl (m : Member) : m.less m = false := by
  cases m <;> exact decide_eq_false (List.lt_irrefl _)

/-- Only strings of one encoding are in order. -/
theorem encoding_of_less (h : m.less n = true) : m.encoding = n.encoding := by
  cases m <;> cases n <;> first | rfl | cases h

theorem less_trans (h : m.less n = true) (h' : n.less o = true) : m.less o = true := by
  have he := encoding_of_less h
  have he' := encoding_of_less h'
  cases m <;> cases n <;> cases he <;> cases o <;> cases he' <;>
    exact decide_eq_true (List.lt_trans (of_decide_eq_true h) (of_decide_eq_true h'))

theorem equal_iff : m.equal n = true ↔ m = n := by
  cases m <;> cases n <;> simp [equal]

/-- Of two strings of one encoding one is less, or they are the same. -/
theorem eq_of_not_less (he : m.encoding = n.encoding) (h : m.less n = false)
    (h' : n.less m = false) : m = n := by
  cases m <;> cases n <;> cases he <;> congr 1 <;>
    exact List.le_antisymm (of_decide_eq_false h') (of_decide_eq_false h)

end Member

/-! ## Objects -/

namespace UnicodeStringView

variable {u v x : UnicodeStringView} {test : Member → Member → Bool}

/-- A comparison that holds is one of two strings of the same encoding. -/
theorem compareBy_eq_true : compareBy test u v = true ↔ u.encoding = v.encoding ∧
    ∃ m ∈ u.stored, ∃ n ∈ v.stored, test m n = true := by
  rw [compareBy]
  by_cases he : u.encoding = v.encoding
  · rcases u.stored with _ | m <;> rcases v.stored with _ | n <;> simp [he]
  · simp [he]

theorem compareBy_of_ne (he : u.encoding ≠ v.encoding) : compareBy test u v = false := if_pos he

theorem less_irrefl (v : UnicodeStringView) : v.less v = false := by
  rw [Bool.eq_false_iff]
  intro h
  obtain ⟨-, m, hm, n, hn, hmn⟩ := compareBy_eq_true.mp h
  rw [Option.mem_unique hn hm, Member.less_irrefl] at hmn
  cases hmn

theorem less_trans (h : u.less v = true) (h' : v.less x = true) : u.less x = true := by
  obtain ⟨he, m, hm, n, hn, hmn⟩ := compareBy_eq_true.mp h
  obtain ⟨he', n', hn', o, ho, hno⟩ := compareBy_eq_true.mp h'
  rw [Option.mem_unique hn' hn] at hno
  exact compareBy_eq_true.mpr ⟨he.trans he', m, hm, o, ho, Member.less_trans hmn hno⟩

theorem greater_eq_less (u v : UnicodeStringView) : u.greater v = v.less u := by
  rw [Bool.eq_iff_iff, greater, less, compareBy_eq_true, compareBy_eq_true]
  constructor
  · rintro ⟨he, m, hm, n, hn, h⟩
    exact ⟨he.symm, n, hn, m, hm, h⟩
  · rintro ⟨he, m, hm, n, hn, h⟩
    exact ⟨he.symm, n, hn, m, hm, h⟩

/-- What an order of the values with `P` should be. -/
structure Ordered (P : UnicodeStringView → Prop) : Prop where
  strictWeak : IsStrictWeakOrder { v // P v } fun u v => u.val.less v = true
  greater : ∀ u v, P u → P v → u.greater v = v.less u
  lessEq : ∀ u v, P u → P v → u.lessEq v = !v.less u
  greaterEq : ∀ u v, P u → P v → u.greaterEq v = !u.less v

/-- Two values are the same when neither is less. -/
def Separated (P : UnicodeStringView → Prop) : Prop :=
  ∀ u v, P u → P v → (u.less v = false ∧ v.less u = false ↔ u.equal v = true)

/-- Values whose tag does not lie, of one encoding. -/
def Of (e : Encoding) (v : UnicodeStringView) : Prop := v.Valid ∧ v.encoding = e

theorem less_eq_false_of_eq (h : u.stored = v.stored) : u.less v = false := by
  rw [Bool.eq_false_iff]
  intro hless
  obtain ⟨-, m, hm, n, hn, hmn⟩ := compareBy_eq_true.mp hless
  rw [h] at hm
  rw [Option.mem_unique hn hm, Member.less_irrefl] at hmn
  cases hmn

/-- Neither of two values of one encoding is less when they have the same string, or none. -/
theorem Valid.incomparable_iff (hu : u.Valid) (hv : v.Valid) (he : u.encoding = v.encoding) :
    u.less v = false ∧ v.less u = false ↔ u.stored = v.stored := by
  refine ⟨fun ⟨h, h'⟩ => ?_, fun h => ⟨less_eq_false_of_eq h, less_eq_false_of_eq h.symm⟩⟩
  by_cases hunkown : u.encoding = .Unkown
  · rw [stored, stored, if_pos hunkown, if_pos (he ▸ hunkown)]
  obtain ⟨m, hm, -, hme⟩ := hu.stored_of_ne hunkown
  obtain ⟨n, hn, -, hne⟩ := hv.stored_of_ne (he ▸ hunkown)
  have hmn : m.less n = false := by
    simpa [less, compareBy, he, hm, hn] using h
  have hnm : n.less m = false := by
    simpa [less, compareBy, he, hm, hn] using h'
  rw [hm, hn, Member.eq_of_not_less (hme.symm.trans (he.trans hne)) hmn hnm]

theorem ordered_of (e : Encoding) : Ordered (Of e) where
  strictWeak := {
    irrefl := fun v => Bool.eq_false_iff.mp (less_irrefl v.val)
    trans := fun _ _ _ => less_trans
    incomp_trans := fun u v x h h' => by
      have huv := u.2.2.trans v.2.2.symm
      have hvx := v.2.2.trans x.2.2.symm
      simp only [Bool.not_eq_true] at h h' ⊢
      rw [u.2.1.incomparable_iff v.2.1 huv] at h
      rw [v.2.1.incomparable_iff x.2.1 hvx] at h'
      rw [u.2.1.incomparable_iff x.2.1 (huv.trans hvx)]
      exact h.trans h' }
  greater u v _ _ := greater_eq_less u v
  lessEq u v hu hv := by
    rw [lessEq, if_neg (not_not.mpr (hu.2.trans hv.2.symm)), greater_eq_less]
  greaterEq u v hu hv := by
    rw [greaterEq, if_neg (not_not.mpr (hu.2.trans hv.2.symm))]

theorem separated_of {e : Encoding} (he : e ≠ .Unkown) : Separated (Of e) := by
  intro u v hu hv
  have hsame := hu.2.trans hv.2.symm
  rw [hu.1.incomparable_iff hv.1 hsame]
  obtain ⟨m, hm, -⟩ := hu.1.stored_of_ne (hu.2.trans_ne he)
  obtain ⟨n, hn, -⟩ := hv.1.stored_of_ne (hv.2.trans_ne he)
  simp [equal, compareBy, hsame, hm, hn, Member.equal_iff]

end UnicodeStringView

open UnicodeStringView

/-- **Comparing objects.** Over all of them, `<` is a strict order and `>` its converse, and
those of different encodings are neither less nor greater nor equal. Within an encoding the order
is a strict weak one that `<=` and `>=` fit, and two strings are equal when neither is less. -/
theorem view_order :
    IsStrictOrder { v : UnicodeStringView // v.Valid } (fun u v => u.val.less v = true) ∧
    (∀ u v : UnicodeStringView, u.greater v = v.less u) ∧
    (∀ u v : UnicodeStringView, u.encoding ≠ v.encoding → u.less v = false ∧ u.greater v = false ∧
      u.lessEq v = false ∧ u.greaterEq v = false ∧ u.equal v = false) ∧
    (∀ e, Ordered (Of e)) ∧ ∀ e, e ≠ .Unkown → Separated (Of e) := by
  refine ⟨?_, greater_eq_less, fun u v he => ?_, ordered_of, fun e => separated_of⟩
  · exact {
      irrefl := fun v => Bool.eq_false_iff.mp (UnicodeStringView.less_irrefl v.val)
      trans := fun _ _ _ => UnicodeStringView.less_trans }
  · exact ⟨compareBy_of_ne he, compareBy_of_ne he, if_pos he, if_pos he, compareBy_of_ne he⟩

/-- A UTF-8 string is neither less nor greater than the Latin-1 strings `"a"` and `"b"`, and
`<=` does not say otherwise. -/
theorem view_not_ordered : ¬ (Ordered Valid ∧ Separated Valid) := by
  rintro ⟨h, -⟩
  have hlessEq := h.lessEq (ofString [97]) (ofU8string [97]) (Valid.ofMember _) (Valid.ofMember _)
  exact absurd hlessEq (by decide)

end Footstone
