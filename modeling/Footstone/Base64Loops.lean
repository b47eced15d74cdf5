import Footstone.Base64
import Footstone.Lib.While

/-!
The loops of `Encode` and `Decode` with their indices. A load or a store outside of
its array is a fault. What the loops compute is what the recursion down the list
computes, as long as they stay inside: `Encode` does from two bytes on, since
`len - 2` is a `size_t`, and `Decode` on everything but the empty string and bytes
that are negative as a `char`. Arrays are so short that nothing else wraps around.
-/

namespace Footstone

namespace Base64

open While

inductive OutOfRange where
  | load
  | store
  | table
  deriving DecidableEq

/-- `s[i]` as a value. -/
def load (s : List UInt8) (i : Nat) : Except OutOfRange UInt8 :=
  match s[i]? with
  | some b => .ok b
  | none => .error .load

/-- `len - k` in a `size_t`. -/
def less (len k : Nat) : Nat := if len < k then 2 ^ 64 + len - k else len - k

/-! ## `Encode` -/

structure EncodeState where
  i : Nat := 0
  outIdx : Nat := 0
  ret : List UInt8

/-- `ret[out_idx++] = c` -/
def EncodeState.put (c : UInt8) (s : EncodeState) : Except OutOfRange EncodeState :=
  if s.outIdx < s.ret.length then
    .ok { s with outIdx := s.outIdx + 1, ret := s.ret.set s.outIdx c }
  else .error .store

/-- The body of the loop. -/
def encodeRound (bin : List UInt8) (s : EncodeState) : Except OutOfRange EncodeState := do
  let b₀ ← load bin s.i
  let s ← s.put (character ((b₀ >>> 2) &&& 0x3F))
  let b₁ ← load bin (s.i + 1)
  let s ← s.put (character (((b₀ &&& 0x3) <<< 4) ||| ((b₁ &&& 0xF0) >>> 4)))
  let b₂ ← load bin (s.i + 2)
  let s ← s.put (character (((b₁ &&& 0xF) <<< 2) ||| ((b₂ &&& 0xC0) >>> 6)))
  let s ← s.put (character (b₂ &&& 0x3F))
  return { s with i := s.i + 3 }

/-- What follows the loop. In the source the last store does not count. -/
def encodeTail (bin : List UInt8) (s : EncodeState) : Except OutOfRange EncodeState :=
  if s.i < bin.length then do
    let b₀ ← load bin s.i
    let s ← s.put (character ((b₀ >>> 2) &&& 0x3F))
    let s ←
      if s.i = bin.length - 1 then do
        let s ← s.put (character ((b₀ &&& 0x3) <<< 4))
        s.put padding
      else do
        let b₁ ← load bin (s.i + 1)
        let s ← s.put (character (((b₀ &&& 0x3) <<< 4) ||| ((b₁ &&& 0xF0) >>> 4)))
        s.put (character ((b₁ &&& 0xF) <<< 2))
    s.put padding
  else .ok s

/-- `Encode`, with at most `rounds` rounds of its loop. -/
def encodeLoop (rounds : Nat) (bin : List UInt8) : Option (Except OutOfRange EncodeState) :=
  andThen (loop (fun s => s.i < less bin.length 2) (encodeRound bin) rounds
      { ret := List.replicate (4 * ((bin.length + 2) / 3)) 0 }) fun s =>
    some (encodeTail bin s)

/-- Three bytes, as a number, in four digits of base 64. -/
def digits (n : Nat) : List UInt8 :=
  [letter (n / 64 ^ 3 % 64), letter (n / 64 ^ 2 % 64), letter (n / 64 % 64), letter (n % 64)]

/-- The standard text. One or two bytes at the end are filled up with zeros, and padding
stands for the digits of the zeros. -/
def text : List UInt8 → List UInt8
  | b₀ :: b₁ :: b₂ :: bin =>
    digits (b₀.toNat * 256 ^ 2 + b₁.toNat * 256 + b₂.toNat) ++ text bin
  | [b₀, b₁] => (digits (b₀.toNat * 256 ^ 2 + b₁.toNat * 256)).take 3 ++ [padding]
  | [b₀] => (digits (b₀.toNat * 256 ^ 2)).take 2 ++ [padding, padding]
  | [] => []

/-- `Encode` comes to its end inside of both arrays, with the standard text. -/
def EncodesText (bin : List UInt8) : Prop :=
  ∃ rounds s, encodeLoop rounds bin = some (.ok s) ∧ s.ret = text bin

theorem encodeFrom_eq_text (bin : List UInt8) : encodeFrom bin = text bin := by
  fun_induction text bin with
  | case1 b₀ b₁ b₂ bin ih =>
    have h₀ := b₀.toNat_lt
    have h₁ := b₁.toNat_lt
    have h₂ := b₂.toNat_lt
    rw [encodeFrom_cons, ih, digits]
    simp only [List.cons_append, List.nil_append, List.cons.injEq, and_true]
    refine ⟨?_, ?_, ?_, ?_⟩ <;> congr 1 <;> omega
  | case2 b₀ b₁ =>
    have h₀ := b₀.toNat_lt
    have h₁ := b₁.toNat_lt
    rw [encodeFrom_two, digits]
    simp only [List.take_succ_cons, List.take_zero, List.cons_append, List.nil_append,
      List.cons.injEq, and_true]
    refine ⟨?_, ?_, ?_⟩ <;> congr 1 <;> omega
  | case3 b₀ =>
    have h₀ := b₀.toNat_lt
    rw [encodeFrom_one, digits]
    simp only [List.take_succ_cons, List.take_zero, List.cons_append, List.nil_append,
      List.cons.injEq, and_true]
    refine ⟨?_, ?_⟩ <;> congr 1 <;> omega
  | case4 => rfl

theorem load_drop {s rest : List UInt8} {i : Nat} (h : s.drop i = rest) (k : Nat) {b : UInt8}
    (hb : rest[k]? = some b) : load s (i + k) = .ok b := by
  rw [load, ← List.getElem?_drop, h, hb]

/-- The state at `i`, when `w` is stored and room is left for `m` more. -/
def filled (i : Nat) (w : List UInt8) (m : Nat) : EncodeState where
  i := i
  outIdx := w.length
  ret := w ++ List.replicate m 0

@[simp] theorem filled_i (i : Nat) (w : List UInt8) (m : Nat) : (filled i w m).i = i := rfl

@[simp] theorem put_filled (c : UInt8) (i : Nat) (w : List UInt8) (m : Nat) :
    (filled i w (m + 1)).put c = .ok (filled i (w ++ [c]) m) := by
  have hlt : w.length < (w ++ List.replicate (m + 1) (0 : UInt8)).length := by simp
  simp [EncodeState.put, filled, List.replicate_succ]

/-- One round of the loop stores one block. -/
theorem encodeRound_filled {bin rest : List UInt8} {i : Nat} {b₀ b₁ b₂ : UInt8}
    (h : bin.drop i = b₀ :: b₁ :: b₂ :: rest) (w : List UInt8) (m : Nat) :
    encodeRound bin (filled i w (m + 4)) =
      .ok (filled (i + 3) (w ++ encodeFrom [b₀, b₁, b₂]) m) := by
  have h₀ : load bin i = .ok b₀ := load_drop h 0 rfl
  have h₁ : load bin (i + 1) = .ok b₁ := load_drop h 1 rfl
  have h₂ : load bin (i + 2) = .ok b₂ := load_drop h 2 rfl
  simp [encodeRound, h₀, h₁, h₂, encodeFrom, bind, Except.bind, pure, Except.pure]
  rfl

/-- The tail stores what is left. -/
theorem encodeTail_filled {bin : List UInt8} {i : Nat} (hlen : bin.length ≤ i + 2)
    (w : List UInt8) : ∃ s, encodeTail bin (filled i w (encodeFrom (bin.drop i)).length) = .ok s ∧
      s.ret = w ++ encodeFrom (bin.drop i) := by
  have hdrop : (bin.drop i).length = bin.length - i := List.length_drop
  match hrest : bin.drop i with
  | [] =>
    have hi : ¬ i < bin.length := by
      rw [hrest, List.length_nil] at hdrop
      omega
    exact ⟨filled i w 0, by simp only [encodeTail, filled_i, if_neg hi]; rfl,
      by simp [filled, encodeFrom]⟩
  | [b₀] =>
    have h₀ : load bin i = .ok b₀ := load_drop hrest 0 rfl
    rw [hrest, List.length_singleton] at hdrop
    have hi : i < bin.length := by omega
    have hlast : i = bin.length - 1 := by omega
    exact ⟨_, by simp [encodeTail, hi, ← hlast, h₀, encodeFrom, bind, Except.bind]; rfl,
      by simp [filled, encodeFrom]⟩
  | [b₀, b₁] =>
    have h₀ : load bin i = .ok b₀ := load_drop hrest 0 rfl
    have h₁ : load bin (i + 1) = .ok b₁ := load_drop hrest 1 rfl
    rw [hrest, List.length_cons, List.length_singleton] at hdrop
    have hi : i < bin.length := by omega
    have hlast : ¬ i = bin.length - 1 := by omega
    exact ⟨_, by simp [encodeTail, hi, hlast, h₀, h₁, encodeFrom, bind, Except.bind]; rfl,
      by simp [filled, encodeFrom]⟩
  | _ :: _ :: _ :: _ =>
    rw [hrest] at hdrop
    simp only [List.length_cons] at hdrop
    omega

/-- The loop of `Encode` on the way: what is stored, and what the rest will give, is the
whole text. -/
def Encoding (bin : List UInt8) (s : EncodeState) : Prop :=
  ∃ w, s = filled s.i w (encodeFrom (bin.drop s.i)).length ∧
    w ++ encodeFrom (bin.drop s.i) = encodeFrom bin

theorem Encoding.round {bin : List UInt8} {s : EncodeState} (h : Encoding bin s)
    (hi : s.i + 2 < bin.length) :
    ∃ s', encodeRound bin s = .ok s' ∧ Encoding bin s' ∧ s'.i = s.i + 3 := by
  obtain ⟨w, hs, hw⟩ := h
  have hdrop : (bin.drop s.i).length = bin.length - s.i := List.length_drop
  match hrest : bin.drop s.i with
  | [] | [_] | [_, _] =>
    rw [hrest] at hdrop
    simp only [List.length_cons, List.length_nil] at hdrop
    omega
  | b₀ :: b₁ :: b₂ :: rest =>
    have hnext : bin.drop (s.i + 3) = rest := by
      rw [← List.drop_drop, hrest]
      rfl
    have hsplit : encodeFrom (b₀ :: b₁ :: b₂ :: rest) =
        encodeFrom [b₀, b₁, b₂] ++ encodeFrom rest := rfl
    rw [hrest] at hs hw
    have hround := encodeRound_filled hrest w (encodeFrom rest).length
    rw [hs]
    refine ⟨_, hround, ⟨w ++ encodeFrom [b₀, b₁, b₂], ?_, ?_⟩, rfl⟩
    · rw [filled_i, hnext]
    · rw [filled_i, hnext, List.append_assoc, ← hsplit, hw]

/-- Below two bytes the loop starts, and reads past the end. -/
theorem encodeLoop_short {bin : List UInt8} (h : bin.length < 2) (rounds : Nat)
    (s : EncodeState) : encodeLoop rounds bin ≠ some (.ok s) := by
  have htest : decide (0 < less bin.length 2) = true := by
    rw [less, if_pos h]
    exact decide_eq_true (by omega)
  intro hs
  obtain ⟨s', hloop, -⟩ := andThen_eq_ok.mp hs
  cases rounds with
  | zero => simp [loop, htest] at hloop
  | succ rounds =>
    rcases bin with _ | ⟨b₀, _ | ⟨b₁, rest⟩⟩
    · simp [loop, less, encodeRound, load, bind, Except.bind] at hloop
    · simp [loop, less, encodeRound, load, EncodeState.put, bind, Except.bind] at hloop
    · simp only [List.length_cons] at h
      omega

/-- **Encoding.** `Encode` returns the standard text exactly from two bytes on. -/
theorem encodesText_iff (bin : List UInt8) : EncodesText bin ↔ 2 ≤ bin.length := by
  constructor
  · rintro ⟨rounds, s, hs, -⟩
    by_contra hshort
    exact encodeLoop_short (by omega) rounds s hs
  · intro hlen
    have hbound : less bin.length 2 = bin.length - 2 := if_neg (by omega)
    have hstart : Encoding bin { ret := List.replicate (4 * ((bin.length + 2) / 3)) 0 } := by
      refine ⟨[], ?_, rfl⟩
      simp [filled, encodeFrom_length]
    have hround : ∀ s : EncodeState, Encoding bin s → decide (s.i < less bin.length 2) = true →
        ∃ s', encodeRound bin s = .ok s' ∧ Encoding bin s' ∧
          bin.length - s'.i < bin.length - s.i := by
      intro s hs ht
      rw [decide_eq_true_eq, hbound] at ht
      obtain ⟨s', hround, hs', hnext⟩ := hs.round (by omega)
      exact ⟨s', hround, hs', by omega⟩
    obtain ⟨s, hloop, ⟨w, hs, hw⟩, htest⟩ := loop_returns hround hstart le_rfl
    rw [decide_eq_false_iff_not, hbound] at htest
    have hlast : bin.length ≤ s.i + 2 := by omega
    obtain ⟨t, ht, hret⟩ := encodeTail_filled hlast w
    rw [← hs] at ht
    exact ⟨bin.length, t, andThen_eq_ok.mpr ⟨s, hloop, by rw [ht]⟩,
      by rw [hret, hw, encodeFrom_eq_text]⟩

/-- Neither nothing nor a single byte is encoded. -/
theorem not_encodesText : ¬ EncodesText [] ∧ ¬ EncodesText [77] :=
  ⟨fun ⟨rounds, s, hs, _⟩ => encodeLoop_short (by decide) rounds s hs,
    fun ⟨rounds, s, hs, _⟩ => encodeLoop_short (by decide) rounds s hs⟩

/-! ## `Decode` -/

structure DecodeState where
  i : Nat := 0
  j : Nat := 0
  out : List UInt8

/-- `input[i] == '=' ? 0 & i++ : kDecodingTable[static_cast<int>(input[i++])]` -/
def DecodeState.take (input : List UInt8) (s : DecodeState) :
    Except OutOfRange (UInt32 × DecodeState) := do
  let c ← load input s.i
  match sextet c with
  | some a => return (a, { s with i := s.i + 1 })
  | none => .error .table

/-- `if (j < out_len) out[j++] = c` -/
def DecodeState.put (outLen : Nat) (c : UInt8) (s : DecodeState) :
    Except OutOfRange DecodeState :=
  if s.j < outLen then
    if s.j < s.out.length then .ok { s with j := s.j + 1, out := s.out.set s.j c }
    else .error .store
  else .ok s

/-- The body of the loop. -/
def decodeRound (input : List UInt8) (outLen : Nat) (s : DecodeState) :
    Except OutOfRange DecodeState := do
  let (a, s) ← s.take input
  let (b, s) ← s.take input
  let (c, s) ← s.take input
  let (d, s) ← s.take input
  let triple := (a <<< 18) + (b <<< 12) + (c <<< 6) + d
  let s ← s.put outLen ((triple >>> 16) &&& 0xFF).toUInt8
  let s ← s.put outLen ((triple >>> 8) &&& 0xFF).toUInt8
  s.put outLen (triple &&& 0xFF).toUInt8

/-- `out_len`, with the two reads it takes. -/
def readOutLen (input : List UInt8) : Except OutOfRange Nat := do
  let last ← load input (less input.length 1)
  let previous ← load input (less input.length 2)
  return input.length / 4 * 3 - (if last = padding then 1 else 0) -
    (if previous = padding then 1 else 0)

/-- `Decode`, with at most `rounds` rounds of its loop. -/
def decodeLoop (rounds : Nat) (input : List UInt8) : Option (Except OutOfRange (List UInt8)) :=
  if input.length % 4 ≠ 0 then some (.ok [])
  else
    match readOutLen input with
    | .error e => some (.error e)
    | .ok outLen =>
      andThen (loop (fun s => s.i < input.length) (decodeRound input outLen) rounds
          { out := List.replicate outLen 0 }) fun s =>
        some (.ok s.out)

/-- Letters, and at most two paddings behind them. -/
def IsText (s : List UInt8) : Prop :=
  s ≠ [] ∧ s.length % 4 = 0 ∧ ∃ body pads, s = body ++ List.replicate pads padding ∧ pads ≤ 2 ∧
    ∀ c ∈ body, c ∈ kEncodingTable

/-- `Decode` comes to its end inside of its arrays, and with a non-empty result exactly on
base64 text. -/
def AcceptsText (s : List UInt8) : Prop :=
  ∃ rounds out, decodeLoop rounds s = some (.ok out) ∧ (out ≠ [] ↔ IsText s)

theorem resized_length (n : Nat) (w : List UInt8) : (resized n w).length = n := by
  simp only [resized, List.length_append, List.length_take, List.length_replicate]
  omega

/-- The state at `i`, when `w` is all that was computed. -/
def decoded (i outLen : Nat) (w : List UInt8) : DecodeState where
  i := i
  j := min outLen w.length
  out := resized outLen w

theorem put_decoded (c : UInt8) (i outLen : Nat) (w : List UInt8) :
    (decoded i outLen w).put outLen c = .ok (decoded i outLen (w ++ [c])) := by
  by_cases h : w.length < outLen
  · obtain ⟨k, rfl⟩ : ∃ k, outLen = w.length + (k + 1) := ⟨outLen - w.length - 1, by omega⟩
    have hk : w.length + (k + 1) - (w.length + 1) = k := by omega
    simp [DecodeState.put, decoded, resized, List.replicate_succ, List.take_of_length_le, hk]
  · have hle : outLen ≤ w.length := by omega
    have hle' : outLen ≤ w.length + 1 := by omega
    simp [DecodeState.put, decoded, resized, hle, hle', List.take_append_of_le_length]

theorem take_decoded {input rest : List UInt8} {i : Nat} {c : UInt8} {a : UInt32}
    (h : input.drop i = c :: rest) (hc : sextet c = some a) (outLen : Nat) (w : List UInt8) :
    (decoded i outLen w).take input = .ok (a, decoded (i + 1) outLen w) := by
  have hload : load input i = .ok c := load_drop h 0 rfl
  simp [DecodeState.take, decoded, hload, hc, bind, Except.bind, pure, Except.pure]

theorem take_error {input rest : List UInt8} {i : Nat} {c : UInt8}
    (h : input.drop i = c :: rest) (hc : sextet c = none) (outLen : Nat) (w : List UInt8) :
    (decoded i outLen w).take input = .error .table := by
  have hload : load input i = .ok c := load_drop h 0 rfl
  simp [DecodeState.take, decoded, hload, hc, bind, Except.bind]

theorem drop_succ {input rest : List UInt8} {i : Nat} {c : UInt8}
    (h : input.drop i = c :: rest) : input.drop (i + 1) = rest := by
  rw [← List.drop_drop, h]
  rfl

/-- One round of the loop decodes one block. -/
theorem decodeRound_decoded {input rest : List UInt8} {i : Nat} {a b c d : UInt8}
    (h : input.drop i = a :: b :: c :: d :: rest) (outLen : Nat) (w : List UInt8) :
    decodeRound input outLen (decoded i outLen w) =
      match decodeFrom [a, b, c, d] with
      | some block => .ok (decoded (i + 4) outLen (w ++ block))
      | none => .error .table := by
  have hb : input.drop (i + 1) = b :: c :: d :: rest := drop_succ h
  have hc : input.drop (i + 2) = c :: d :: rest := drop_succ hb
  have hd : input.drop (i + 3) = d :: rest := drop_succ hc
  rw [decodeRound]
  rcases ha : sextet a with _ | x
  · simp [take_error h ha, decodeFrom, ha, bind, Except.bind]
  rw [take_decoded h ha]
  rcases hb' : sextet b with _ | y
  · simp [take_error hb hb', decodeFrom, ha, hb', bind, Except.bind]
  rcases hc' : sextet c with _ | z
  · simp [take_decoded hb hb', take_error hc hc', decodeFrom, ha, hb', hc', bind, Except.bind]
  rcases hd' : sextet d with _ | t
  · simp [take_decoded hb hb', take_decoded hc hc', take_error hd hd', decodeFrom, ha, hb', hc',
      hd', bind, Except.bind]
  simp [take_decoded hb hb', take_decoded hc hc', take_decoded hd hd', decodeFrom, ha, hb', hc',
    hd', put_decoded, decodeBlock, bind, Except.bind]

theorem decodeFrom_block (a b c d : UInt8) (rest : List UInt8) :
    decodeFrom (a :: b :: c :: d :: rest) =
      (decodeFrom [a, b, c, d]).bind fun block => (decodeFrom rest).map (block ++ ·) := by
  simp only [decodeFrom]
  rcases sextet a with _ | x
  · rfl
  rcases sextet b with _ | y
  · rfl
  rcases sextet c with _ | z
  · rfl
  rcases sextet d with _ | t
  · rfl
  simp [Option.map_eq_bind]

/-- The loop of `Decode` on the way: what is computed, and what the rest will give, is the
whole of what the recursion gives. -/
def Decoding (input : List UInt8) (outLen : Nat) (s : DecodeState) : Prop :=
  s.i % 4 = 0 ∧ ∃ w, s = decoded s.i outLen w ∧
    decodeFrom input = (decodeFrom (input.drop s.i)).map (w ++ ·)

theorem exists_four {input : List UInt8} {i : Nat} (h : i + 4 ≤ input.length) :
    ∃ a b c d, input.drop i = a :: b :: c :: d :: input.drop (i + 4) := by
  have hdrop : (input.drop i).length = input.length - i := List.length_drop
  rw [← List.drop_drop]
  match hrest : input.drop i with
  | [] | [_] | [_, _] | [_, _, _] =>
    rw [hrest] at hdrop
    simp only [List.length_cons, List.length_nil] at hdrop
    omega
  | a :: b :: c :: d :: rest => exact ⟨a, b, c, d, rfl⟩

/-- A round fails exactly when the recursion does at this block, and else goes on. -/
theorem Decoding.round {input : List UInt8} {outLen : Nat} {s : DecodeState}
    (h : Decoding input outLen s) (hmod : input.length % 4 = 0) (hi : s.i < input.length) :
    (decodeFrom input = none ∧ ∃ e, decodeRound input outLen s = .error e) ∨
      ∃ s', decodeRound input outLen s = .ok s' ∧ Decoding input outLen s' ∧ s'.i = s.i + 4 := by
  obtain ⟨hi4, w, hs, hw⟩ := h
  have hfour : s.i + 4 ≤ input.length := by omega
  obtain ⟨a, b, c, d, hrest⟩ := exists_four hfour
  have hround := decodeRound_decoded hrest outLen w
  rw [← hs] at hround
  rw [hrest, decodeFrom_block] at hw
  rcases hblock : decodeFrom [a, b, c, d] with _ | block
  · rw [hblock] at hround hw
    exact Or.inl ⟨hw, _, hround⟩
  · rw [hblock] at hround hw
    refine Or.inr ⟨_, hround, ⟨by simp only [decoded]; omega, w ++ block, rfl, ?_⟩, rfl⟩
    rw [hw]
    simp [decoded, Function.comp_def]

theorem readOutLen_eq {input : List UInt8} (h : 2 ≤ input.length) :
    readOutLen input = .ok (outLen input) := by
  have hone : less input.length 1 = input.length - 1 := if_neg (by omega)
  have htwo : less input.length 2 = input.length - 2 := if_neg (by omega)
  have hlast : input.length - 1 < input.length := by omega
  have hprevious : input.length - 2 < input.length := by omega
  simp [readOutLen, load, hone, htwo, outLen, List.getElem?_eq_getElem hlast,
    List.getElem?_eq_getElem hprevious, bind, Except.bind, pure, Except.pure]

/-- On the empty string there is nothing at `in_len - 1`. -/
theorem decodeLoop_nil (rounds : Nat) : decodeLoop rounds [] = some (.error .load) := by
  simp [decodeLoop, readOutLen, load, bind, Except.bind]

theorem Decoding.start (input : List UInt8) (outLen : Nat) :
    Decoding input outLen { out := List.replicate outLen 0 } :=
  ⟨rfl, [], by simp [decoded, resized], by simp⟩

/-- Behind the last block, what is computed is the whole of it. -/
theorem Decoding.done {input : List UInt8} {outLen : Nat} {s : DecodeState}
    (h : Decoding input outLen s) (hend : input.length ≤ s.i) :
    ∃ w, decodeFrom input = some w ∧ s.out = resized outLen w := by
  obtain ⟨-, w, hs, hw⟩ := h
  rw [List.drop_of_length_le hend] at hw
  refine ⟨w, by simpa [decodeFrom] using hw, ?_⟩
  rw [hs]
  rfl

/-- What a loop that returns has computed. -/
theorem decodeFrom_of_loop {input : List UInt8} {outLen rounds : Nat} {s : DecodeState}
    (hmod : input.length % 4 = 0)
    (h : loop (fun s => s.i < input.length) (decodeRound input outLen) rounds
      { out := List.replicate outLen 0 } = some (.ok s)) :
    ∃ w, decodeFrom input = some w ∧ s.out = resized outLen w := by
  have hround : ∀ s s' : DecodeState, Decoding input outLen s →
      decide (s.i < input.length) = true → decodeRound input outLen s = .ok s' →
      Decoding input outLen s' := by
    intro s s' hs ht hround
    obtain ⟨-, e, he⟩ | ⟨t, ht', hnext, -⟩ := hs.round hmod (of_decide_eq_true ht)
    · rw [he] at hround
      cases hround
    · rw [ht'] at hround
      cases hround
      exact hnext
  obtain ⟨hs, htest⟩ := loop_invariant hround (Decoding.start input outLen) h
  exact hs.done (by simpa using htest)

/-- The loop returns where the recursion has a result. -/
theorem exists_loop {input w : List UInt8} (outLen : Nat) (hmod : input.length % 4 = 0)
    (hw : decodeFrom input = some w) :
    ∃ rounds s, loop (fun s => s.i < input.length) (decodeRound input outLen) rounds
      { out := List.replicate outLen 0 } = some (.ok s) := by
  have hround : ∀ s : DecodeState, Decoding input outLen s →
      decide (s.i < input.length) = true →
      ∃ s', decodeRound input outLen s = .ok s' ∧ Decoding input outLen s' ∧
        input.length - s'.i < input.length - s.i := by
    intro s hs ht
    have hi := of_decide_eq_true ht
    obtain ⟨hnone, -⟩ | ⟨t, ht', hnext, hti⟩ := hs.round hmod hi
    · rw [hw] at hnone
      cases hnone
    · exact ⟨t, ht', hnext, by omega⟩
  obtain ⟨s, hloop, -⟩ := loop_returns hround (Decoding.start input outLen) le_rfl
  exact ⟨_, s, hloop⟩

/-- The loops compute what the recursion does, and fault where it has no result. -/
theorem decodeLoop_iff (input out : List UInt8) :
    (∃ rounds, decodeLoop rounds input = some (.ok out)) ↔ decode input = some out := by
  by_cases hmod : input.length % 4 = 0
  · rcases hnil : input with _ | ⟨c, rest⟩
    · simp [decodeLoop_nil, decode]
    have hpos : 0 < input.length := by simp [hnil]
    rw [← hnil]
    have hlen : 2 ≤ input.length := by omega
    have hne : input ≠ [] := List.ne_nil_of_length_pos hpos
    simp only [decodeLoop, decode, hmod, not_true_eq_false, ne_eq, ↓reduceIte, hne,
      readOutLen_eq hlen]
    constructor
    · rintro ⟨rounds, hs⟩
      obtain ⟨s, hloop, hout⟩ := andThen_eq_ok.mp hs
      obtain ⟨w, hw, hres⟩ := decodeFrom_of_loop hmod hloop
      cases hout
      rw [hw, hres]
      rfl
    · intro h
      obtain ⟨w, hw, rfl⟩ := Option.map_eq_some_iff.mp h
      obtain ⟨rounds, s, hloop⟩ := exists_loop (outLen input) hmod hw
      obtain ⟨w', hw', hres⟩ := decodeFrom_of_loop hmod hloop
      obtain rfl := Option.some.inj (hw.symm.trans hw')
      exact ⟨rounds, andThen_eq_ok.mpr ⟨s, hloop, by rw [hres]⟩⟩
  · simp [decodeLoop, decode, hmod]

theorem sextet_ne_none_of_mem {c : UInt8} (h : c ∈ kEncodingTable ∨ c = padding) :
    sextet c ≠ none := by
  rcases h with h | rfl
  · rw [← letter_digit h, sextet_letter (digit_lt h)]
    simp
  · decide

theorem decodeFrom_ne_none {input : List UInt8}
    (h : ∀ c ∈ input, c ∈ kEncodingTable ∨ c = padding) : decodeFrom input ≠ none := by
  fun_induction decodeFrom input with
  | case1 a b c d input ih =>
    obtain ⟨x, hx⟩ := Option.ne_none_iff_exists'.mp (sextet_ne_none_of_mem (h a (by simp)))
    obtain ⟨y, hy⟩ := Option.ne_none_iff_exists'.mp (sextet_ne_none_of_mem (h b (by simp)))
    obtain ⟨z, hz⟩ := Option.ne_none_iff_exists'.mp (sextet_ne_none_of_mem (h c (by simp)))
    obtain ⟨t, ht⟩ := Option.ne_none_iff_exists'.mp (sextet_ne_none_of_mem (h d (by simp)))
    obtain ⟨out, hout⟩ := Option.ne_none_iff_exists'.mp (ih fun e he => h e (by simp [he]))
    simp [hx, hy, hz, ht, hout]
  | case2 => simp

/-- A string of whole blocks has at least one byte in its result. -/
theorem decode_ne_nil {s out : List UInt8} (hmod : s.length % 4 = 0) (h : decode s = some out) :
    out ≠ [] := by
  have hs : s ≠ [] := by
    rintro rfl
    cases h
  have hpos := List.length_pos_of_ne_nil hs
  have hlen : 1 ≤ outLen s := by
    rw [outLen]
    split <;> split <;> omega
  rw [decode, if_neg (not_not.mpr hmod), if_neg hs] at h
  obtain ⟨w, -, rfl⟩ := Option.map_eq_some_iff.mp h
  exact List.ne_nil_of_length_pos (by rw [resized_length]; exact hlen)

theorem IsText.decode {s : List UInt8} (h : IsText s) : ∃ out, decode s = some out := by
  obtain ⟨hne, hmod, body, pads, hs, -, hbody⟩ := h
  have hmem : ∀ c ∈ s, c ∈ kEncodingTable ∨ c = padding := by
    intro c hc
    rw [hs] at hc
    exact (List.mem_append.mp hc).imp (hbody c) List.eq_of_mem_replicate
  obtain ⟨w, hw⟩ := Option.ne_none_iff_exists'.mp (decodeFrom_ne_none hmem)
  exact ⟨_, by rw [Base64.decode, if_neg (not_not.mpr hmod), if_neg hne, hw]; rfl⟩

theorem acceptsText_iff_decode (s : List UInt8) :
    AcceptsText s ↔ ∃ out, decode s = some out ∧ (out ≠ [] ↔ IsText s) := by
  simp only [AcceptsText, ← decodeLoop_iff]
  constructor
  · rintro ⟨rounds, out, h, hiff⟩
    exact ⟨out, ⟨rounds, h⟩, hiff⟩
  · rintro ⟨out, ⟨rounds, h⟩, hiff⟩
    exact ⟨rounds, out, h, hiff⟩

/-- **Decoding.** `Decode` accepts exactly base64 text, on the strings that are such text and
on those that do not come in blocks. -/
theorem acceptsText_iff (s : List UInt8) : AcceptsText s ↔ s.length % 4 ≠ 0 ∨ IsText s := by
  rw [acceptsText_iff_decode]
  by_cases hmod : s.length % 4 = 0
  · constructor
    · rintro ⟨out, hout, hiff⟩
      exact Or.inr (hiff.mp (decode_ne_nil hmod hout))
    · rintro (h | h)
      · exact absurd hmod h
      · obtain ⟨out, hout⟩ := h.decode
        exact ⟨out, hout, iff_of_true (decode_ne_nil hmod hout) h⟩
  · refine iff_of_true ⟨[], by simp [decode, hmod], ?_⟩ (Or.inl hmod)
    exact iff_of_false (not_not.mpr rfl) fun h => hmod h.2.1

/-- On the empty string `Decode` reads before its start, and from `"TW!u"` it makes three
bytes. -/
theorem not_acceptsText : ¬ AcceptsText [] ∧ ¬ AcceptsText [84, 87, 33, 117] := by
  refine ⟨?_, fun h => ?_⟩
  · rintro ⟨rounds, out, hout, -⟩
    rw [decodeLoop_nil] at hout
    cases hout
  · obtain ⟨out, hout, hiff⟩ := (acceptsText_iff_decode _).mp h
    obtain ⟨-, -, body, pads, hs, -, hbody⟩ := hiff.mp (decode_ne_nil rfl hout)
    have hmem : (33 : UInt8) ∈ body ++ List.replicate pads padding := by
      rw [← hs]
      decide
    rcases List.mem_append.mp hmem with hm | hm
    · exact absurd (hbody _ hm) (by decide)
    · exact absurd (List.eq_of_mem_replicate hm) (by decide)

end Base64

end Footstone
