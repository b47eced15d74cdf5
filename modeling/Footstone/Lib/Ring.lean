import Mathlib.Data.Nat.ModEq
import Mathlib.Tactic.Common

/-!
Positions on a ring of `2 ^ w` places. A counter that never wraps stands behind
an index of `w` bits; two counters that are less than a round apart are equal
when their indices are, and the difference of their indices is their distance.
-/

namespace Ring

variable {w : Nat}

/-- The index of the position `k`. -/
def pos (w k : Nat) : BitVec w := BitVec.ofNat w k

theorem pos_toNat (k : Nat) : (pos w k).toNat = k % 2 ^ w := BitVec.toNat_ofNat k w

theorem pos_toNat_of_lt {k : Nat} (h : k < 2 ^ w) : (pos w k).toNat = k := by
  rw [pos_toNat, Nat.mod_eq_of_lt h]

@[simp] theorem pos_succ (k : Nat) : pos w k + 1#w = pos w (k + 1) := by
  apply BitVec.eq_of_toNat_eq
  simp [pos]

/-- A whole round is no move. -/
theorem pos_add_round (k : Nat) : pos w (k + 2 ^ w) = pos w k := by
  apply BitVec.eq_of_toNat_eq
  simp [pos]

theorem pos_inj_of_le {j k : Nat} (hjk : j ≤ k) (hk : k < j + 2 ^ w) (h : pos w j = pos w k) :
    j = k := by
  have hmod : j % 2 ^ w = k % 2 ^ w := by
    rw [← pos_toNat, ← pos_toNat, h]
  have hdvd : 2 ^ w ∣ k - j := (Nat.modEq_iff_dvd' hjk).mp hmod
  have := Nat.eq_zero_of_dvd_of_lt hdvd (by omega)
  omega

/-- Positions of one round are told apart by their indices. -/
theorem pos_inj {t j k : Nat} (hj : t ≤ j) (hj' : j < t + 2 ^ w) (hk : t ≤ k) (hk' : k < t + 2 ^ w) :
    pos w j = pos w k ↔ j = k := by
  refine ⟨fun h => ?_, fun h => h ▸ rfl⟩
  rcases Nat.le_total j k with hjk | hjk
  · exact pos_inj_of_le hjk (by omega) h
  · exact (pos_inj_of_le hjk (by omega) h.symm).symm

theorem pos_ne {t j k : Nat} (hj : t ≤ j) (hj' : j < t + 2 ^ w) (hk : t ≤ k) (hk' : k < t + 2 ^ w)
    (h : j ≠ k) : pos w j ≠ pos w k :=
  fun he => h ((pos_inj hj hj' hk hk').mp he)

theorem pos_succ_ne (hw : 1 < 2 ^ w) (k : Nat) : pos w (k + 1) ≠ pos w k :=
  pos_ne (t := k) (by omega) (by omega) le_rfl (by omega) (by omega)

/-- The distance of two positions, short of a round. -/
theorem pos_sub_toNat {j k : Nat} (hjk : j ≤ k) (hk : k < j + 2 ^ w) :
    (pos w k - pos w j).toNat = k - j := by
  have hadd : pos w k = pos w j + pos w (k - j) := by
    apply BitVec.eq_of_toNat_eq
    simp only [pos, BitVec.toNat_add, BitVec.toNat_ofNat, Nat.add_mod_mod, Nat.mod_add_mod]
    congr 1
    omega
  rw [hadd, BitVec.add_comm, BitVec.add_sub_cancel]
  exact pos_toNat_of_lt (by omega)

/-- What stands from the position `m` to the end of a list on a ring that has its elements
there, each at its own position. -/
theorem elements_eq {α : Type*} (read : BitVec w → Option α) {l : List α} {m : Nat}
    (hle : m ≤ l.length) (hlt : l.length < m + 2 ^ w)
    (hread : ∀ k, m ≤ k → k < l.length → read (pos w k) = l[k]?) :
    ((List.range (pos w l.length - pos w m).toNat).map fun k =>
      read (pos w m + BitVec.ofNat w k)) = (l.drop m).map some := by
  rw [pos_sub_toNat hle hlt]
  refine List.ext_getElem (by simp) fun k hk hk' => ?_
  have hlast : m + k < l.length := by
    simp only [List.length_map, List.length_range] at hk
    omega
  have hpos : pos w m + BitVec.ofNat w k = pos w (m + k) := (BitVec.ofNat_add _ _).symm
  simp only [List.getElem_map, List.getElem_range, hpos, hread _ (Nat.le_add_right _ _) hlast,
    List.getElem_drop, List.getElem?_eq_getElem hlast]

end Ring
