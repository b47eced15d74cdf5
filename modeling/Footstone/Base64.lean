import Mathlib.Data.List.Basic
import Mathlib.Data.Nat.Bitwise

/-!
`Base64` (`base64.h`, `base64.cc`). Strings are lists of bytes. A loop runs down
the list from where its index stands, and a string that is resized first and
then written from the front is what was written, cut or filled up with zeros.
A call that reads outside its input or a table has no result.
-/

namespace Footstone

namespace Base64

def kEncodingTable : List UInt8 := [
  'A', 'B', 'C', 'D', 'E', 'F', 'G', 'H',
  'I', 'J', 'K', 'L', 'M', 'N', 'O', 'P',
  'Q', 'R', 'S', 'T', 'U', 'V', 'W', 'X',
  'Y', 'Z', 'a', 'b', 'c', 'd', 'e', 'f',
  'g', 'h', 'i', 'j', 'k', 'l', 'm', 'n',
  'o', 'p', 'q', 'r', 's', 't', 'u', 'v',
  'w', 'x', 'y', 'z', '0', '1', '2', '3',
  '4', '5', '6', '7', '8', '9', '+', '/'].map Char.toUInt8

def kDecodingTable : List UInt8 := [
  64, 64, 64, 64, 64, 64, 64, 64, 64, 64, 64, 64, 64, 64, 64, 64,
  64, 64, 64, 64, 64, 64, 64, 64, 64, 64, 64, 64, 64, 64, 64, 64,
  64, 64, 64, 64, 64, 64, 64, 64, 64, 64, 64, 62, 64, 64, 64, 63,
  52, 53, 54, 55, 56, 57, 58, 59, 60, 61, 64, 64, 64, 64, 64, 64,
  64, 0, 1, 2, 3, 4, 5, 6, 7, 8, 9, 10, 11, 12, 13, 14,
  15, 16, 17, 18, 19, 20, 21, 22, 23, 24, 25, 64, 64, 64, 64, 64,
  64, 26, 27, 28, 29, 30, 31, 32, 33, 34, 35, 36, 37, 38, 39, 40,
  41, 42, 43, 44, 45, 46, 47, 48, 49, 50, 51, 64, 64, 64, 64, 64,
  64, 64, 64, 64, 64, 64, 64, 64, 64, 64, 64, 64, 64, 64, 64, 64,
  64, 64, 64, 64, 64, 64, 64, 64, 64, 64, 64, 64, 64, 64, 64, 64,
  64, 64, 64, 64, 64, 64, 64, 64, 64, 64, 64, 64, 64, 64, 64, 64,
  64, 64, 64, 64, 64, 64, 64, 64, 64, 64, 64, 64, 64, 64, 64, 64,
  64, 64, 64, 64, 64, 64, 64, 64, 64, 64, 64, 64, 64, 64, 64, 64,
  64, 64, 64, 64, 64, 64, 64, 64, 64, 64, 64, 64, 64, 64, 64, 64,
  64, 64, 64, 64, 64, 64, 64, 64, 64, 64, 64, 64, 64, 64, 64, 64,
  64, 64, 64, 64, 64, 64, 64, 64, 64, 64, 64, 64, 64, 64, 64, 64]

/-- `'='` -/
def padding : UInt8 := Char.toUInt8 '='

/-- A string resized to `n` zeros, after `written` was stored from its front on. -/
def resized (n : Nat) (written : List UInt8) : List UInt8 :=
  written.take n ++ List.replicate (n - written.length) 0

/-! ## The code -/

/-- `kEncodingTable[i]`; the masks keep `i` below 64. -/
def character (i : UInt8) : UInt8 := kEncodingTable.getD i.toNat 0

/-- The loop of `Encode` and its tail. `i < len - 2` says that three bytes are left. -/
def encodeFrom : List UInt8 → List UInt8
  | b₀ :: b₁ :: b₂ :: bin =>
    character ((b₀ >>> 2) &&& 0x3F) ::
    character (((b₀ &&& 0x3) <<< 4) ||| ((b₁ &&& 0xF0) >>> 4)) ::
    character (((b₁ &&& 0xF) <<< 2) ||| ((b₂ &&& 0xC0) >>> 6)) ::
    character (b₂ &&& 0x3F) :: encodeFrom bin
  | [b₀, b₁] =>
    [character ((b₀ >>> 2) &&& 0x3F),
      character (((b₀ &&& 0x3) <<< 4) ||| ((b₁ &&& 0xF0) >>> 4)),
      character ((b₁ &&& 0xF) <<< 2), padding]
  | [b₀] => [character ((b₀ >>> 2) &&& 0x3F), character ((b₀ &&& 0x3) <<< 4), padding, padding]
  | [] => []

/-- Below two bytes `len - 2` wraps, and the loop reads past the end. -/
def encode (bin : List UInt8) : Option (List UInt8) :=
  if bin.length < 2 then none
  else some (resized (4 * ((bin.length + 2) / 3)) (encodeFrom bin))

/-- What one character adds to a block. As a signed `char`, a byte from 0x80 on is an
index before the table. -/
def sextet (c : UInt8) : Option UInt32 :=
  if c = padding then some 0
  else if 0x80 ≤ c then none
  else kDecodingTable[c.toNat]?.map UInt8.toUInt32

/-- The three bytes of a block. -/
def decodeBlock (a b c d : UInt32) : List UInt8 :=
  let triple := (a <<< 18) + (b <<< 12) + (c <<< 6) + d
  [((triple >>> 16) &&& 0xFF).toUInt8, ((triple >>> 8) &&& 0xFF).toUInt8, (triple &&& 0xFF).toUInt8]

/-- The loop of `Decode`, with what it drops behind `out_len` left in. -/
def decodeFrom : List UInt8 → Option (List UInt8)
  | a :: b :: c :: d :: input => do
    let a ← sextet a
    let b ← sextet b
    let c ← sextet c
    let d ← sextet d
    let out ← decodeFrom input
    return decodeBlock a b c d ++ out
  | _ => some []

/-- `out_len` -/
def outLen (input : List UInt8) : Nat :=
  input.length / 4 * 3 - (if input[input.length - 1]? = some padding then 1 else 0) -
    (if input[input.length - 2]? = some padding then 1 else 0)

/-- On the empty string `input[in_len - 1]` lies outside. -/
def decode (input : List UInt8) : Option (List UInt8) :=
  if input.length % 4 ≠ 0 then some []
  else if input = [] then none
  else (decodeFrom input).map (resized (outLen input))

/-! ## Canonical strings -/

/-- The place of a character in the alphabet. -/
def digit (c : UInt8) : Nat := kEncodingTable.idxOf c

/-- Whole blocks of the alphabet, of which the last may end in padding; the bits of
its last character that reach into the padding are zero. -/
def Canonical (s : List UInt8) : Prop :=
  s.length % 4 = 0 ∧ ∃ body, (∀ c ∈ body, c ∈ kEncodingTable) ∧
    (s = body ∨
      (s = body ++ [padding] ∧ ∀ c ∈ body.getLast?, digit c % 4 = 0) ∨
      (s = body ++ [padding, padding] ∧ ∀ c ∈ body.getLast?, digit c % 16 = 0))

def decodedLength (s : List UInt8) : Nat := s.length / 4 * 3 - s.count padding

/-! ## One block -/

/-- The character for a value below 64. -/
def letter (k : Nat) : UInt8 := kEncodingTable.getD k 0

theorem character_eq {i : UInt8} {k : Nat} (h : i.toNat = k) : character i = letter k := by
  rw [character, letter, h]

theorem high_six (b : UInt8) : ((b >>> 2) &&& 0x3F).toNat = b.toNat / 4 := by
  have h := b.toNat_lt
  simp only [UInt8.toNat_and, UInt8.toNat_shiftRight, UInt8.reduceToNat, Nat.shiftRight_eq_div_pow,
    Nat.reduceMod, Nat.reducePow]
  rw [Nat.and_two_pow_sub_one_eq_mod _ 6]
  omega

theorem low_six (b : UInt8) : (b &&& 0x3F).toNat = b.toNat % 64 := by
  simp only [UInt8.toNat_and, UInt8.reduceToNat]
  rw [Nat.and_two_pow_sub_one_eq_mod _ 6]

theorem low_two (b : UInt8) : ((b &&& 0x3) <<< 4).toNat = b.toNat % 4 * 16 := by
  simp only [UInt8.toNat_and, UInt8.toNat_shiftLeft, UInt8.reduceToNat, Nat.shiftLeft_eq,
    Nat.reduceMod]
  rw [Nat.and_two_pow_sub_one_eq_mod _ 2]
  omega

theorem high_four (b : UInt8) : ((b &&& 0xF0) >>> 4).toNat = b.toNat / 16 := by
  have h := b.toNat_lt
  simp only [UInt8.toNat_and, UInt8.toNat_shiftRight, UInt8.reduceToNat, Nat.shiftRight_and_distrib,
    Nat.reduceMod, Nat.reduceShiftRight]
  rw [Nat.and_two_pow_sub_one_eq_mod _ 4, Nat.shiftRight_eq_div_pow]
  omega

theorem low_four (b : UInt8) : ((b &&& 0xF) <<< 2).toNat = b.toNat % 16 * 4 := by
  simp only [UInt8.toNat_and, UInt8.toNat_shiftLeft, UInt8.reduceToNat, Nat.shiftLeft_eq,
    Nat.reduceMod]
  rw [Nat.and_two_pow_sub_one_eq_mod _ 4]
  omega

theorem high_two (b : UInt8) : ((b &&& 0xC0) >>> 6).toNat = b.toNat / 64 := by
  have h := b.toNat_lt
  simp only [UInt8.toNat_and, UInt8.toNat_shiftRight, UInt8.reduceToNat, Nat.shiftRight_and_distrib,
    Nat.reduceMod, Nat.reduceShiftRight]
  rw [Nat.and_two_pow_sub_one_eq_mod _ 2, Nat.shiftRight_eq_div_pow]
  omega

theorem second_six (a b : UInt8) :
    (((a &&& 0x3) <<< 4) ||| ((b &&& 0xF0) >>> 4)).toNat = a.toNat % 4 * 16 + b.toNat / 16 := by
  have h := b.toNat_lt
  rw [UInt8.toNat_or, low_two, high_four, Nat.mul_comm]
  exact (Nat.two_pow_add_eq_or_of_lt (i := 4) (by omega) _).symm

theorem third_six (a b : UInt8) :
    (((a &&& 0xF) <<< 2) ||| ((b &&& 0xC0) >>> 6)).toNat = a.toNat % 16 * 4 + b.toNat / 64 := by
  have h := b.toNat_lt
  rw [UInt8.toNat_or, low_four, high_two, Nat.mul_comm]
  exact (Nat.two_pow_add_eq_or_of_lt (i := 2) (by omega) _).symm

/-- Three bytes are four digits of base 64. -/
theorem encodeFrom_cons (b₀ b₁ b₂ : UInt8) (bin : List UInt8) :
    encodeFrom (b₀ :: b₁ :: b₂ :: bin) =
      letter (b₀.toNat / 4) :: letter (b₀.toNat % 4 * 16 + b₁.toNat / 16) ::
      letter (b₁.toNat % 16 * 4 + b₂.toNat / 64) :: letter (b₂.toNat % 64) :: encodeFrom bin := by
  simp only [encodeFrom, character_eq (high_six b₀), character_eq (second_six b₀ b₁),
    character_eq (third_six b₁ b₂), character_eq (low_six b₂)]

theorem encodeFrom_two (b₀ b₁ : UInt8) :
    encodeFrom [b₀, b₁] = [letter (b₀.toNat / 4), letter (b₀.toNat % 4 * 16 + b₁.toNat / 16),
      letter (b₁.toNat % 16 * 4), padding] := by
  simp only [encodeFrom, character_eq (high_six b₀), character_eq (second_six b₀ b₁),
    character_eq (low_four b₁)]

theorem encodeFrom_one (b₀ : UInt8) :
    encodeFrom [b₀] = [letter (b₀.toNat / 4), letter (b₀.toNat % 4 * 16), padding, padding] := by
  simp only [encodeFrom, character_eq (high_six b₀), character_eq (low_two b₀)]

/-- The two tables are inverse, and the padding is no letter. -/
theorem sextet_letter {k : Nat} (h : k < 64) : sextet (letter k) = some (UInt32.ofNat k) := by
  revert k
  decide

theorem letter_ne_padding {k : Nat} (h : k < 64) : letter k ≠ padding := by
  revert k
  decide

theorem sextet_padding : sextet padding = some (UInt32.ofNat 0) := rfl

/-- Four digits of base 64 are three bytes. -/
theorem decodeBlock_eq (b₀ b₁ b₂ : UInt8) {a b c d : UInt32} {x y z w : Nat}
    (ha : a.toNat = x) (hb : b.toNat = y) (hc : c.toNat = z) (hd : d.toNat = w)
    (hx : x < 64) (hy : y < 64) (hz : z < 64) (hw : w < 64)
    (h₀ : b₀.toNat = x * 4 + y / 16) (h₁ : b₁.toNat = y % 16 * 16 + z / 4)
    (h₂ : b₂.toNat = z % 4 * 64 + w) : decodeBlock a b c d = [b₀, b₁, b₂] := by
  have htriple : ((a <<< 18) + (b <<< 12) + (c <<< 6) + d).toNat =
      x * 262144 + y * 4096 + z * 64 + w := by
    simp only [UInt32.toNat_add, UInt32.toNat_shiftLeft, UInt32.reduceToNat, Nat.shiftLeft_eq,
      Nat.reduceMod, ha, hb, hc, hd]
    omega
  have hbyte : ∀ t : UInt32, ((t &&& 0xFF).toUInt8).toNat = t.toNat % 256 := by
    intro t
    simp only [UInt32.toNat_toUInt8, UInt32.toNat_and, UInt32.reduceToNat]
    rw [Nat.and_two_pow_sub_one_eq_mod _ 8]
    omega
  simp only [decodeBlock, List.cons.injEq, and_true, ← UInt8.toNat_inj, hbyte,
    UInt32.toNat_shiftRight, UInt32.reduceToNat, Nat.reduceMod, Nat.shiftRight_eq_div_pow, htriple]
  omega

/-- A block of characters with these digits puts its bytes in front. -/
theorem decodeFrom_cons (b₀ b₁ b₂ : UInt8) {a b c d : UInt8} {x y z w : Nat}
    (ha : sextet a = some (UInt32.ofNat x)) (hb : sextet b = some (UInt32.ofNat y))
    (hc : sextet c = some (UInt32.ofNat z)) (hd : sextet d = some (UInt32.ofNat w))
    (hx : x < 64) (hy : y < 64) (hz : z < 64) (hw : w < 64)
    (h₀ : b₀.toNat = x * 4 + y / 16) (h₁ : b₁.toNat = y % 16 * 16 + z / 4)
    (h₂ : b₂.toNat = z % 4 * 64 + w) (input : List UInt8) :
    decodeFrom (a :: b :: c :: d :: input) = (decodeFrom input).map ([b₀, b₁, b₂] ++ ·) := by
  have hnat : ∀ {k : Nat}, k < 64 → (UInt32.ofNat k).toNat = k :=
    fun h => UInt32.toNat_ofNat_of_lt' (Nat.lt_trans h (by decide))
  have hblock := decodeBlock_eq b₀ b₁ b₂ (hnat hx) (hnat hy) (hnat hz) (hnat hw) hx hy hz hw h₀ h₁ h₂
  simp only [decodeFrom, ha, hb, hc, hd, Option.bind_eq_bind, Option.bind_some, hblock]
  cases decodeFrom input <;> rfl

/-! ## Decoding what was encoded -/

theorem resized_append (bin zeros : List UInt8) : resized bin.length (bin ++ zeros) = bin := by
  simp [resized]

theorem encodeFrom_length (bin : List UInt8) :
    (encodeFrom bin).length = 4 * ((bin.length + 2) / 3) := by
  fun_induction encodeFrom bin with
  | case1 b₀ b₁ b₂ bin ih =>
    simp only [List.length_cons, ih]
    omega
  | case2 => simp
  | case3 => simp
  | case4 => rfl

theorem encode_eq {bin : List UInt8} (h : 2 ≤ bin.length) : encode bin = some (encodeFrom bin) := by
  rw [encode, if_neg (by omega), ← encodeFrom_length]
  simp [resized]

/-- The loop of `Decode` gives back the bytes, and zeros for the padding. -/
theorem decodeFrom_encodeFrom (bin : List UInt8) :
    ∃ zeros, decodeFrom (encodeFrom bin) = some (bin ++ zeros) := by
  fun_induction encodeFrom bin with
  | case1 b₀ b₁ b₂ bin ih =>
    obtain ⟨zeros, ih⟩ := ih
    have h₀ := b₀.toNat_lt
    have h₁ := b₁.toNat_lt
    have h₂ := b₂.toNat_lt
    refine ⟨zeros, ?_⟩
    rw [← encodeFrom, encodeFrom_cons, decodeFrom_cons b₀ b₁ b₂ (sextet_letter (by omega))
      (sextet_letter (by omega)) (sextet_letter (by omega)) (sextet_letter (by omega)) (by omega)
      (by omega) (by omega) (by omega) (by omega) (by omega) (by omega), ih]
    rfl
  | case2 b₀ b₁ =>
    have h₀ := b₀.toNat_lt
    have h₁ := b₁.toNat_lt
    refine ⟨[0], ?_⟩
    rw [← encodeFrom, encodeFrom_two, decodeFrom_cons b₀ b₁ 0 (sextet_letter (by omega))
      (sextet_letter (by omega)) (sextet_letter (by omega)) sextet_padding (by omega) (by omega)
      (by omega) (by omega) (by omega) (by omega) (by simp)]
    rfl
  | case3 b₀ =>
    have h₀ := b₀.toNat_lt
    refine ⟨[0, 0], ?_⟩
    rw [← encodeFrom, encodeFrom_one, decodeFrom_cons b₀ 0 0 (sextet_letter (by omega))
      (sextet_letter (by omega)) sextet_padding sextet_padding (by omega) (by omega) (by omega)
      (by omega) (by omega) (by simp) (by simp)]
    rfl
  | case4 => exact ⟨[], rfl⟩

/-- A block in front adds three bytes. -/
theorem outLen_cons (a b c d : UInt8) {s : List UInt8} (h : 4 ≤ s.length) (hmod : s.length % 4 = 0) :
    outLen (a :: b :: c :: d :: s) = outLen s + 3 := by
  obtain ⟨k, hk⟩ : ∃ k, s.length = k + 4 := ⟨s.length - 4, by omega⟩
  have hlast : (a :: b :: c :: d :: s)[k + 7]? = s[k + 3]? := rfl
  have hprev : (a :: b :: c :: d :: s)[k + 6]? = s[k + 2]? := rfl
  have hpad : (if s[k + 3]? = some padding then 1 else 0) +
      (if s[k + 2]? = some padding then 1 else 0) ≤ 2 := by
    split <;> split <;> omega
  simp only [outLen, List.length_cons, hk, hlast, hprev,
    show k + 4 + 1 + 1 + 1 + 1 - 1 = k + 7 by omega, show k + 4 + 1 + 1 + 1 + 1 - 2 = k + 6 by omega,
    show k + 4 - 1 = k + 3 by omega, show k + 4 - 2 = k + 2 by omega]
  omega

theorem outLen_letters {a b c d : Nat} (hc : c < 64) (hd : d < 64) :
    outLen [letter a, letter b, letter c, letter d] = 3 := by
  simp [outLen, letter_ne_padding hc, letter_ne_padding hd]

theorem outLen_encodeFrom {bin : List UInt8} (h : bin ≠ []) : outLen (encodeFrom bin) = bin.length := by
  fun_induction encodeFrom bin with
  | case1 b₀ b₁ b₂ bin ih =>
    rw [← encodeFrom, encodeFrom_cons]
    have h₂ := b₂.toNat_lt
    cases bin with
    | nil => exact outLen_letters (by omega) (by omega)
    | cons b bin =>
      have hlen := encodeFrom_length (b :: bin)
      rw [List.length_cons] at hlen
      rw [outLen_cons _ _ _ _ (by omega) (by omega), ih (by simp)]
      rfl
  | case2 b₀ b₁ =>
    rw [← encodeFrom, encodeFrom_two]
    simp [outLen, letter_ne_padding (k := b₁.toNat % 16 * 4) (by omega)]
  | case3 b₀ =>
    rw [← encodeFrom, encodeFrom_one]
    simp [outLen]
  | case4 => exact absurd rfl h

theorem decode_encodeFrom {bin : List UInt8} (h : bin ≠ []) :
    decode (encodeFrom bin) = some bin := by
  have hlen := encodeFrom_length bin
  have hpos := List.length_pos_of_ne_nil h
  have hne : encodeFrom bin ≠ [] := by
    intro he
    rw [he] at hlen
    simp only [List.length_nil] at hlen
    omega
  obtain ⟨zeros, hz⟩ := decodeFrom_encodeFrom bin
  rw [decode, if_neg (by omega), if_neg hne, outLen_encodeFrom h, hz, Option.map_some,
    resized_append]

/-! ## Encoding what was decoded -/

theorem letter_digit {c : UInt8} (h : c ∈ kEncodingTable) : letter (digit c) = c := by
  rw [letter, digit, List.getD_eq_getElem _ _ (List.idxOf_lt_length_of_mem h)]
  exact List.getElem_idxOf _

theorem digit_lt {c : UInt8} (h : c ∈ kEncodingTable) : digit c < 64 :=
  List.idxOf_lt_length_of_mem h

theorem padding_notMem : padding ∉ kEncodingTable := by
  decide

theorem exists_byte {n : Nat} (h : n < 256) : ∃ b : UInt8, b.toNat = n :=
  ⟨UInt8.ofNat n, UInt8.toNat_ofNat_of_lt' h⟩

/-- Every block of letters is the encoding of three bytes. -/
theorem exists_block {a b c d : UInt8} (ha : a ∈ kEncodingTable) (hb : b ∈ kEncodingTable)
    (hc : c ∈ kEncodingTable) (hd : d ∈ kEncodingTable) : ∃ b₀ b₁ b₂ : UInt8, ∀ bin,
      encodeFrom (b₀ :: b₁ :: b₂ :: bin) = a :: b :: c :: d :: encodeFrom bin := by
  have halt := digit_lt ha
  have hblt := digit_lt hb
  have hclt := digit_lt hc
  have hdlt := digit_lt hd
  obtain ⟨b₀, h₀⟩ := exists_byte (n := digit a * 4 + digit b / 16) (by omega)
  obtain ⟨b₁, h₁⟩ := exists_byte (n := digit b % 16 * 16 + digit c / 4) (by omega)
  obtain ⟨b₂, h₂⟩ := exists_byte (n := digit c % 4 * 64 + digit d) (by omega)
  have hx : b₀.toNat / 4 = digit a := by omega
  have hy : b₀.toNat % 4 * 16 + b₁.toNat / 16 = digit b := by omega
  have hz : b₁.toNat % 16 * 4 + b₂.toNat / 64 = digit c := by omega
  have hw : b₂.toNat % 64 = digit d := by omega
  refine ⟨b₀, b₁, b₂, fun bin => ?_⟩
  rw [encodeFrom_cons, hx, hy, hz, hw, letter_digit ha, letter_digit hb, letter_digit hc,
    letter_digit hd]

/-- Of three letters, the last of which has no bits in the padding, two bytes. -/
theorem exists_block_two {a b c : UInt8} (ha : a ∈ kEncodingTable) (hb : b ∈ kEncodingTable)
    (hc : c ∈ kEncodingTable) (hzero : digit c % 4 = 0) :
    ∃ b₀ b₁ : UInt8, encodeFrom [b₀, b₁] = [a, b, c, padding] := by
  have halt := digit_lt ha
  have hblt := digit_lt hb
  have hclt := digit_lt hc
  obtain ⟨b₀, h₀⟩ := exists_byte (n := digit a * 4 + digit b / 16) (by omega)
  obtain ⟨b₁, h₁⟩ := exists_byte (n := digit b % 16 * 16 + digit c / 4) (by omega)
  have hx : b₀.toNat / 4 = digit a := by omega
  have hy : b₀.toNat % 4 * 16 + b₁.toNat / 16 = digit b := by omega
  have hz : b₁.toNat % 16 * 4 = digit c := by omega
  refine ⟨b₀, b₁, ?_⟩
  rw [encodeFrom_two, hx, hy, hz, letter_digit ha, letter_digit hb, letter_digit hc]

theorem exists_block_one {a b : UInt8} (ha : a ∈ kEncodingTable) (hb : b ∈ kEncodingTable)
    (hzero : digit b % 16 = 0) : ∃ b₀ : UInt8, encodeFrom [b₀] = [a, b, padding, padding] := by
  have halt := digit_lt ha
  have hblt := digit_lt hb
  obtain ⟨b₀, h₀⟩ := exists_byte (n := digit a * 4 + digit b / 16) (by omega)
  have hx : b₀.toNat / 4 = digit a := by omega
  have hy : b₀.toNat % 4 * 16 = digit b := by omega
  refine ⟨b₀, ?_⟩
  rw [encodeFrom_one, hx, hy, letter_digit ha, letter_digit hb]

/-- Every canonical string is the encoding of some bytes. -/
theorem exists_encodeFrom : ∀ {body pad : List UInt8}, (body ++ pad).length % 4 = 0 →
    (∀ c ∈ body, c ∈ kEncodingTable) →
    (pad = [] ∨ (pad = [padding] ∧ ∀ c ∈ body.getLast?, digit c % 4 = 0) ∨
      (pad = [padding, padding] ∧ ∀ c ∈ body.getLast?, digit c % 16 = 0)) →
    ∃ bin, encodeFrom bin = body ++ pad ∧ bin.length + pad.length = (body ++ pad).length / 4 * 3
  | [], pad, hlen, _, hpad => by
    rcases hpad with rfl | ⟨rfl, -⟩ | ⟨rfl, -⟩
    · exact ⟨[], rfl, rfl⟩
    · simp at hlen
    · simp at hlen
  | [a], pad, hlen, _, hpad => by
    rcases hpad with rfl | ⟨rfl, -⟩ | ⟨rfl, -⟩ <;> simp at hlen
  | [a, b], pad, hlen, hbody, hpad => by
    rcases hpad with rfl | ⟨rfl, -⟩ | ⟨rfl, hzero⟩
    · simp at hlen
    · simp at hlen
    · obtain ⟨b₀, h⟩ := exists_block_one (hbody a (by simp)) (hbody b (by simp)) (hzero b rfl)
      exact ⟨[b₀], h, by simp⟩
  | [a, b, c], pad, hlen, hbody, hpad => by
    rcases hpad with rfl | ⟨rfl, hzero⟩ | ⟨rfl, -⟩
    · simp at hlen
    · obtain ⟨b₀, b₁, h⟩ := exists_block_two (hbody a (by simp)) (hbody b (by simp))
        (hbody c (by simp)) (hzero c rfl)
      exact ⟨[b₀, b₁], h, by simp⟩
    · simp at hlen
  | a :: b :: c :: d :: body, pad, hlen, hbody, hpad => by
    have hlen' : (body ++ pad).length % 4 = 0 := by
      simp only [List.cons_append, List.length_cons] at hlen
      omega
    obtain ⟨bin, hbin, hbinlen⟩ := exists_encodeFrom hlen'
      (fun c hc => hbody c (by simp [hc])) (by
        -- The last character of the body is behind the block, unless the block is all of it.
        cases body with
        | nil => rcases hpad with rfl | ⟨rfl, -⟩ | ⟨rfl, -⟩ <;> simp at hlen' ⊢
        | cons e body => simpa only [List.getLast?_cons_cons] using hpad)
    obtain ⟨b₀, b₁, b₂, h⟩ := exists_block (hbody a (by simp)) (hbody b (by simp))
      (hbody c (by simp)) (hbody d (by simp))
    refine ⟨b₀ :: b₁ :: b₂ :: bin, ?_, ?_⟩
    · rw [h, hbin]
      rfl
    · simp only [List.length_cons, List.cons_append]
      omega

theorem Canonical.exists_bytes {s : List UInt8} (h : Canonical s) :
    ∃ bin, encodeFrom bin = s ∧ bin.length = decodedLength s := by
  obtain ⟨hlen, body, hbody, hs⟩ := h
  have hcount : body.count padding = 0 :=
    List.count_eq_zero.mpr fun hm => padding_notMem (hbody _ hm)
  have key : ∀ pad, s = body ++ pad → pad.count padding = pad.length →
      (pad = [] ∨ (pad = [padding] ∧ ∀ c ∈ body.getLast?, digit c % 4 = 0) ∨
        (pad = [padding, padding] ∧ ∀ c ∈ body.getLast?, digit c % 16 = 0)) →
      ∃ bin, encodeFrom bin = s ∧ bin.length = decodedLength s := by
    rintro pad rfl hpadcount hpad
    obtain ⟨bin, hbin, hbinlen⟩ := exists_encodeFrom hlen hbody hpad
    refine ⟨bin, hbin, ?_⟩
    rw [decodedLength, List.count_append, hcount, hpadcount]
    omega
  rcases hs with hs | ⟨hs, hzero⟩ | ⟨hs, hzero⟩
  · exact key [] (by rw [hs, List.append_nil]) rfl (Or.inl rfl)
  · exact key [padding] hs rfl (Or.inr (Or.inl ⟨rfl, hzero⟩))
  · exact key [padding, padding] hs rfl (Or.inr (Or.inr ⟨rfl, hzero⟩))

/-- **`Encode` and `Decode` are inverse**, on bytes from two bytes on, and on canonical
strings that decode to two bytes or more. -/
theorem encode_decode_inverse :
    (∀ bin : List UInt8, 2 ≤ bin.length → ∃ s, encode bin = some s ∧ decode s = some bin) ∧
    (∀ s : List UInt8, Canonical s → 2 ≤ decodedLength s →
      ∃ bin, decode s = some bin ∧ encode bin = some s) := by
  have hne : ∀ bin : List UInt8, 2 ≤ bin.length → bin ≠ [] := by
    rintro bin h rfl
    simp at h
  refine ⟨fun bin h => ⟨_, encode_eq h, decode_encodeFrom (hne bin h)⟩, fun s hs hlen => ?_⟩
  obtain ⟨bin, rfl, hbinlen⟩ := hs.exists_bytes
  rw [← hbinlen] at hlen
  exact ⟨bin, decode_encodeFrom (hne bin hlen), encode_eq hlen⟩

/-- `"Man"` and a block with padding, `"TWE="`. -/
theorem encode_decode_text :
    (∃ s, encode [77, 97, 110] = some s ∧ decode s = some [77, 97, 110]) ∧
    (∃ bin, decode [84, 87, 69, 61] = some bin ∧ encode bin = some [84, 87, 69, 61]) := by
  have hs : Canonical [84, 87, 69, 61] := by
    refine ⟨rfl, [84, 87, 69], by decide +kernel, Or.inr (Or.inl ⟨rfl, ?_⟩)⟩
    rintro c ⟨⟩
    decide
  exact ⟨encode_decode_inverse.1 _ (by decide), encode_decode_inverse.2 _ hs (by decide)⟩

end Base64

end Footstone
