import Mathlib.Data.List.Basic

set_option autoImplicit false

/-! # `ISXBase64`

`Base64Encode` and `Base64Decode` are thin wrappers: each sizes a `std::string` buffer with
Boost.Beast's `encoded_size`/`decoded_size`, lets `boost::beast::detail::base64::encode`/`decode`
write into it from the start, and (for decoding) cuts the buffer to the length written.

Boost.Beast is a dependency and not under src/; its four functions are modelled as its
`base64.ipp` writes them. A `std::string` is modelled as its bytes (`List UInt8`). Its `data()`
has one more slot, holding the terminator: writing `'\0'` there is allowed, while any other value
there, or any write past it, is undefined behaviour, modelled as `none`.

The main result is the round trip `base64Decode_base64Encode`: for every byte string, decoding
the encoding gives the string back, and neither call writes past its buffer. It is proved one
group of three bytes at a time (`decodeLoop_encode`), from what the masks of the encoder
and the decoder compute on a byte (`Masks`). On inputs that are not encodings, `decoded_size`
rounds the length down to whole groups. On a string of symbols, `Base64Decode` writes past its
buffer when the length is 3 modulo 4, and when it is 2 modulo 4 and the trailing byte is not
`'\0'` (`base64Decode_overflows`). A trailing `'\0'` lands on the terminator
(`base64Decode_terminator`). On every input of length 0 or 1 modulo 4, whatever its bytes, it
stays within its buffer (`base64Decode_fits`). -/

namespace SsLogger.Base64

/-! ## Boost.Beast's tables and sizes -/

/-- `get_alphabet()`: the 64 symbols, as bytes. -/
def getAlphabet : List UInt8 :=
  "ABCDEFGHIJKLMNOPQRSTUVWXYZabcdefghijklmnopqrstuvwxyz0123456789+/".toList.map
    fun c => c.toNat.toUInt8

/-- `tab[k]`: the symbol for a 6-bit value. -/
def tab (k : Nat) : UInt8 := getAlphabet.getD k 0

/-- The padding symbol `'='`. -/
def pad : UInt8 := '='.toNat.toUInt8

/-- `get_inverse()[c]`, written by the ranges of the table: the value of a symbol, or `none`
where the table holds `-1`. -/
def getInverse (c : UInt8) : Option Nat :=
  let n := c.toNat
  if 65 ≤ n ∧ n ≤ 90 then some (n - 65)
  else if 97 ≤ n ∧ n ≤ 122 then some (n - 71)
  else if 48 ≤ n ∧ n ≤ 57 then some (n + 4)
  else if n = 43 then some 62
  else if n = 47 then some 63
  else none

/-- `encoded_size(n)`. -/
def encodedSize (n : Nat) : Nat := 4 * ((n + 2) / 3)

/-- `decoded_size(n)`; Boost documents it for `n` a multiple of 4. -/
def decodedSize (n : Nat) : Nat := n / 4 * 3

/-- Every symbol decodes to its own value; this is what ties the two tables together. -/
theorem getInverse_tab : ∀ k, k < 64 → getInverse (tab k) = some k := by decide

@[simp] theorem getInverse_pad : getInverse pad = none := by decide

theorem tab_ne_pad {k : Nat} (hk : k < 64) : tab k ≠ pad := fun h => by
  simpa [h] using getInverse_tab k hk

/-! ## `encode`

The loop over `len / 3` full groups followed by the `switch (len % 3)` on the rest, written as
one recursion over the input. `in` is a `char const*`: every mask is below 256, so each masked
value is the same for a signed `char` as for its byte. -/

def encode : List UInt8 → List UInt8
  | a :: b :: c :: rest =>
    [tab ((a.toNat &&& 0xfc) >>> 2),
     tab (((a.toNat &&& 0x03) <<< 4) + ((b.toNat &&& 0xf0) >>> 4)),
     tab (((c.toNat &&& 0xc0) >>> 6) + ((b.toNat &&& 0x0f) <<< 2)),
     tab (c.toNat &&& 0x3f)] ++ encode rest
  | [a, b] =>
    [tab ((a.toNat &&& 0xfc) >>> 2),
     tab (((a.toNat &&& 0x03) <<< 4) + ((b.toNat &&& 0xf0) >>> 4)),
     tab ((b.toNat &&& 0x0f) <<< 2),
     pad]
  | [a] => [tab ((a.toNat &&& 0xfc) >>> 2), tab ((a.toNat &&& 0x03) <<< 4), pad, pad]
  | [] => []

theorem length_encode (s : List UInt8) : (encode s).length = encodedSize s.length := by
  induction s using encode.induct with
  | case1 a b c rest ih => simp only [encode, List.length_append, ih, encodedSize]; simp; omega
  | _ => simp [encode, encodedSize]

/-! ## `decode` -/

/-- The decoder's locals: the bytes written through `out`, `i`, `c4` (an `unsigned char[4]`,
holding 6-bit values) and the number of symbols consumed. -/
structure DecodeState where
  out : List UInt8
  i : Nat
  c4 : List Nat
  consumed : Nat
  deriving DecidableEq, Repr

/-- `c3` as the loop and the tail both compute it from `c4`. -/
def c3Of (c4 : List Nat) : List UInt8 :=
  [((c4.getD 0 0 <<< 2) + ((c4.getD 1 0 &&& 0x30) >>> 4)).toUInt8,
   (((c4.getD 1 0 &&& 0xf) <<< 4) + ((c4.getD 2 0 &&& 0x3c) >>> 2)).toUInt8,
   (((c4.getD 2 0 &&& 0x3) <<< 6) + c4.getD 3 0).toUInt8]

/-- The `while (len-- && *in != '=')` loop: it stops at the end, at `'='`, or at a byte that is
not a symbol, and writes three bytes for every four symbols. -/
def decodeLoop : List UInt8 → DecodeState → DecodeState
  | [], st => st
  | c :: rest, st =>
    if c = pad then st
    else match getInverse c with
      | none => st
      | some v =>
        let c4 := st.c4.set st.i v
        if st.i + 1 = 4 then
          decodeLoop rest ⟨st.out ++ c3Of c4, 0, c4, st.consumed + 1⟩
        else decodeLoop rest ⟨st.out, st.i + 1, c4, st.consumed + 1⟩

/-- The `if (i)` tail: the first `i - 1` bytes of `c3`, from a `c4` whose last entries may be
left from the previous group. -/
def flushTail (st : DecodeState) : List UInt8 :=
  if st.i ≠ 0 then st.out ++ (c3Of st.c4).take (st.i - 1) else st.out

/-- `decode(dest, src, len)`: the bytes written, and the number of symbols consumed. -/
def decode (src : List UInt8) : List UInt8 × Nat :=
  let st := decodeLoop src ⟨[], 0, [0, 0, 0, 0], 0⟩
  (flushTail st, st.consumed)

/-! ## The wrappers -/

/-- Writing `out` from `buf.data()`: the bytes of the string after it, or `none` where the write
is undefined behaviour. The slot at `buf.size()` holds the terminator and may be written with
`'\0'` only. -/
def writeBuffer (buf out : List UInt8) : Option (List UInt8) :=
  if out.length ≤ buf.length then some (out ++ buf.drop out.length)
  else if out.length = buf.length + 1 ∧ out.getLast? = some 0 then some (out.take buf.length)
  else none

/-- `std::string::resize(n)`: cut to `n` bytes, or pad with `'\0'` up to `n`. -/
def resize (s : List UInt8) (n : Nat) : List UInt8 := s.take n ++ List.replicate (n - s.length) 0

/-- `ISXBase64::Base64Encode`. -/
def base64Encode (decoded : List UInt8) : Option (List UInt8) :=
  writeBuffer (List.replicate (encodedSize decoded.length) 0) (encode decoded)

/-- `ISXBase64::Base64Decode`: the buffer is resized to `decoded_length`. -/
def base64Decode (encoded : List UInt8) : Option (List UInt8) :=
  let (out, _) := decode encoded
  (writeBuffer (List.replicate (decodedSize encoded.length) 0) out).map (resize · out.length)

theorem writeBuffer_of_le {buf out : List UInt8} (h : out.length ≤ buf.length) :
    writeBuffer buf out = some (out ++ buf.drop out.length) := if_pos h

/-- Cutting what was written back to its own length gives the bytes written. -/
@[simp] theorem resize_append (out rest : List UInt8) : resize (out ++ rest) out.length = out := by
  simp [resize]

/-- A write one byte longer than the buffer whose last byte is `'\0'` only rewrites the
terminator; resizing the string to the length written gives every byte back. -/
theorem writeBuffer_terminator {buf out : List UInt8} (hlen : out.length = buf.length + 1)
    (hz : out.getLast? = some 0) : (writeBuffer buf out).map (resize · out.length) = some out := by
  have htake : out.take buf.length = out.dropLast := by
    rw [List.dropLast_eq_take, hlen, Nat.add_sub_cancel]
  rw [writeBuffer, if_neg (by omega), if_pos ⟨hlen, hz⟩, Option.map_some', htake, resize,
    List.take_of_length_le (by simp), show out.length - out.dropLast.length = 1 by simp; omega,
    List.replicate_one, List.dropLast_append_getLast? 0 (Option.mem_def.2 hz)]

/-! ## Masks

What each mask and shift computes: on a byte for the encoder, on a 6-bit value for the decoder. -/

/-- The masks that keep the high bits of a byte, checked on every byte. -/
theorem byte_high_masks : ∀ x, x < 256 →
    (x &&& 0xfc) >>> 2 = x / 4 ∧ (x &&& 0xf0) >>> 4 = x / 16 ∧ (x &&& 0xc0) >>> 6 = x / 64 := by
  set_option maxRecDepth 4000 in decide

theorem sextet_high_masks : ∀ v, v < 64 →
    (v &&& 0x30) >>> 4 = v / 16 ∧ (v &&& 0x3c) >>> 2 = v / 4 := by
  decide

theorem and_three (x : Nat) : x &&& 0x03 = x % 4 := Nat.and_pow_two_sub_one_eq_mod x 2

theorem and_fifteen (x : Nat) : x &&& 0x0f = x % 16 := Nat.and_pow_two_sub_one_eq_mod x 4

theorem and_sixtyThree (x : Nat) : x &&& 0x3f = x % 64 := Nat.and_pow_two_sub_one_eq_mod x 6

theorem toUInt8_toNat (a : UInt8) : a.toNat.toUInt8 = a :=
  UInt8.toNat.inj (UInt8.toNat_ofNat_of_lt a.toNat_lt_size)

/-! ## One group -/

/-- The four symbols of a full group, by the values they stand for. -/
theorem encode_cons_cons_cons (a b c : UInt8) (rest : List UInt8) :
    encode (a :: b :: c :: rest) =
      [tab (a.toNat / 4), tab (a.toNat % 4 * 16 + b.toNat / 16),
       tab (c.toNat / 64 + b.toNat % 16 * 4), tab (c.toNat % 64)] ++ encode rest := by
  have ha := (byte_high_masks a.toNat a.toNat_lt_size).1
  obtain ⟨-, hb, -⟩ := byte_high_masks b.toNat b.toNat_lt_size
  obtain ⟨-, -, hc⟩ := byte_high_masks c.toNat c.toNat_lt_size
  simp only [encode, ha, hb, hc, and_three, and_fifteen, and_sixtyThree, Nat.shiftLeft_eq,
    Nat.reducePow]

theorem encode_pair (a b : UInt8) :
    encode [a, b] =
      [tab (a.toNat / 4), tab (a.toNat % 4 * 16 + b.toNat / 16), tab (b.toNat % 16 * 4), pad] := by
  have ha := (byte_high_masks a.toNat a.toNat_lt_size).1
  obtain ⟨-, hb, -⟩ := byte_high_masks b.toNat b.toNat_lt_size
  simp only [encode, ha, hb, and_three, and_fifteen, Nat.shiftLeft_eq, Nat.reducePow]

theorem encode_singleton (a : UInt8) :
    encode [a] = [tab (a.toNat / 4), tab (a.toNat % 4 * 16), pad, pad] := by
  simp only [encode, (byte_high_masks a.toNat a.toNat_lt_size).1, and_three, Nat.shiftLeft_eq,
    Nat.reducePow]

/-- `c3Of` undoes the encoder's split of three bytes into four 6-bit values. -/
theorem c3Of_sextets (a : Nat) {b c : Nat} (hb : b < 256) (hc : c < 256) :
    c3Of [a / 4, a % 4 * 16 + b / 16, c / 64 + b % 16 * 4, c % 64] =
      [a.toUInt8, b.toUInt8, c.toUInt8] := by
  obtain ⟨h₁, -⟩ := sextet_high_masks (a % 4 * 16 + b / 16) (by omega)
  obtain ⟨-, h₂⟩ := sextet_high_masks (c / 64 + b % 16 * 4) (by omega)
  -- each byte is its high part put back in front of its low part
  have e₁ : a / 4 * 4 + (a % 4 * 16 + b / 16) / 16 = a := by
    rw [Nat.add_comm (a % 4 * 16), Nat.add_mul_div_right _ _ (by decide), Nat.div_div_eq_div_mul,
      Nat.div_eq_of_lt hb, Nat.zero_add, Nat.div_add_mod' a 4]
  have e₂ : (a % 4 * 16 + b / 16) % 16 * 16 + (c / 64 + b % 16 * 4) / 4 = b := by
    rw [Nat.add_comm (a % 4 * 16), Nat.add_mul_mod_self_right,
      Nat.mod_eq_of_lt (Nat.div_lt_of_lt_mul hb), Nat.add_mul_div_right _ _ (by decide),
      Nat.div_div_eq_div_mul, Nat.div_eq_of_lt hc, Nat.zero_add, Nat.div_add_mod' b 16]
  have e₃ : (c / 64 + b % 16 * 4) % 4 * 64 + c % 64 = c := by
    rw [Nat.add_mul_mod_self_right, Nat.mod_eq_of_lt (Nat.div_lt_of_lt_mul hc),
      Nat.div_add_mod' c 64]
  simp only [c3Of, List.getD_cons_zero, List.getD_cons_succ, h₁, h₂, and_three, and_fifteen,
    Nat.shiftLeft_eq, Nat.reducePow, e₁, e₂, e₃]

@[simp] theorem length_c3Of (c4 : List Nat) : (c3Of c4).length = 3 := rfl

/-- The tail's first byte does not read `c4[2]` or `c4[3]`, which may be left from the previous
group. -/
theorem c3Of_take_one (v₁ v₂ x₂ x₃ y₂ y₃ : Nat) :
    (c3Of [v₁, v₂, x₂, x₃]).take 1 = (c3Of [v₁, v₂, y₂, y₃]).take 1 := rfl

/-- The tail's first two bytes do not read `c4[3]`. -/
theorem c3Of_take_two (v₁ v₂ v₃ x₃ y₃ : Nat) :
    (c3Of [v₁, v₂, v₃, x₃]).take 2 = (c3Of [v₁, v₂, v₃, y₃]).take 2 := rfl

/-! ## The decoding loop on symbols -/

@[simp] theorem decodeLoop_pad (rest : List UInt8) (st : DecodeState) :
    decodeLoop (pad :: rest) st = st := by
  simp [decodeLoop]

/-- One symbol is stored at `c4[i]`; the fourth of a group writes `c3`. -/
theorem decodeLoop_tab {k : Nat} (hk : k < 64) (rest : List UInt8) (st : DecodeState) :
    decodeLoop (tab k :: rest) st =
      if st.i + 1 = 4 then
        decodeLoop rest ⟨st.out ++ c3Of (st.c4.set st.i k), 0, st.c4.set st.i k, st.consumed + 1⟩
      else decodeLoop rest ⟨st.out, st.i + 1, st.c4.set st.i k, st.consumed + 1⟩ := by
  simp [decodeLoop, tab_ne_pad hk, getInverse_tab k hk]

/-- A group of four symbols from `i = 0` fills `c4` and writes the three bytes made of it. -/
theorem decodeLoop_group {v₁ v₂ v₃ v₄ : Nat} (h₁ : v₁ < 64) (h₂ : v₂ < 64) (h₃ : v₃ < 64)
    (h₄ : v₄ < 64) (rest out : List UInt8) (x₀ x₁ x₂ x₃ n : Nat) :
    decodeLoop (tab v₁ :: tab v₂ :: tab v₃ :: tab v₄ :: rest) ⟨out, 0, [x₀, x₁, x₂, x₃], n⟩ =
      decodeLoop rest ⟨out ++ c3Of [v₁, v₂, v₃, v₄], 0, [v₁, v₂, v₃, v₄], n + 4⟩ := by
  simp only [decodeLoop_tab h₁, decodeLoop_tab h₂, decodeLoop_tab h₃, decodeLoop_tab h₄,
    Nat.reduceAdd, Nat.reduceEqDiff, ↓reduceIte, List.set_cons_zero, List.set_cons_succ]

/-- Three symbols and `'='` stop the loop with `i = 3`; `c4[3]` is left from before. -/
theorem decodeLoop_three_pad {v₁ v₂ v₃ : Nat} (h₁ : v₁ < 64) (h₂ : v₂ < 64) (h₃ : v₃ < 64)
    (rest out : List UInt8) (x₀ x₁ x₂ x₃ n : Nat) :
    decodeLoop (tab v₁ :: tab v₂ :: tab v₃ :: pad :: rest) ⟨out, 0, [x₀, x₁, x₂, x₃], n⟩ =
      ⟨out, 3, [v₁, v₂, v₃, x₃], n + 3⟩ := by
  simp only [decodeLoop_tab h₁, decodeLoop_tab h₂, decodeLoop_tab h₃, decodeLoop_pad,
    Nat.reduceAdd, Nat.reduceEqDiff, ↓reduceIte, List.set_cons_zero, List.set_cons_succ]

/-- Two symbols and `'='` stop the loop with `i = 2`. -/
theorem decodeLoop_two_pad {v₁ v₂ : Nat} (h₁ : v₁ < 64) (h₂ : v₂ < 64)
    (rest out : List UInt8) (x₀ x₁ x₂ x₃ n : Nat) :
    decodeLoop (tab v₁ :: tab v₂ :: pad :: rest) ⟨out, 0, [x₀, x₁, x₂, x₃], n⟩ =
      ⟨out, 2, [v₁, v₂, x₂, x₃], n + 2⟩ := by
  simp only [decodeLoop_tab h₁, decodeLoop_tab h₂, decodeLoop_pad,
    Nat.reduceAdd, Nat.reduceEqDiff, ↓reduceIte, List.set_cons_zero, List.set_cons_succ]

/-- Decoding the encoding of `s` from the start of a group writes `s` and consumes every symbol
before the padding, whatever `c4` holds. -/
theorem decodeLoop_encode (s out : List UInt8) (x₀ x₁ x₂ x₃ n : Nat) :
    flushTail (decodeLoop (encode s) ⟨out, 0, [x₀, x₁, x₂, x₃], n⟩) = out ++ s ∧
      (decodeLoop (encode s) ⟨out, 0, [x₀, x₁, x₂, x₃], n⟩).consumed =
        n + (4 * s.length + 2) / 3 := by
  have hb (a : UInt8) : a.toNat < 256 := a.toNat_lt_size
  induction s using encode.induct generalizing out x₀ x₁ x₂ x₃ n with
  | case1 a b c rest ih =>
    have := hb a; have := hb b; have := hb c
    obtain ⟨h₁, h₂⟩ := ih (out ++ [a, b, c]) (a.toNat / 4) (a.toNat % 4 * 16 + b.toNat / 16)
      (c.toNat / 64 + b.toNat % 16 * 4) (c.toNat % 64) (n + 4)
    rw [encode_cons_cons_cons, List.cons_append, List.cons_append, List.cons_append,
      List.cons_append, List.nil_append, decodeLoop_group (by omega) (by omega) (by omega)
        (by omega), c3Of_sextets a.toNat (hb b) (hb c), toUInt8_toNat, toUInt8_toNat,
      toUInt8_toNat, h₁, h₂]
    simp only [List.append_assoc, List.cons_append, List.nil_append, List.length_cons, true_and]
    omega
  | case2 a b =>
    have := hb a; have := hb b
    have hc3 := c3Of_sextets a.toNat (hb b) (Nat.zero_lt_succ 255)
    simp only [Nat.zero_div, Nat.zero_add, Nat.zero_mod] at hc3
    rw [encode_pair, decodeLoop_three_pad (by omega) (by omega) (by omega)]
    simp [flushTail, c3Of_take_two _ _ _ x₃ 0, hc3, toUInt8_toNat]
  | case3 a =>
    have := hb a
    have hc3 := c3Of_sextets a.toNat (Nat.zero_lt_succ 255) (Nat.zero_lt_succ 255)
    simp only [Nat.zero_div, Nat.zero_add, Nat.zero_mod, Nat.add_zero] at hc3
    rw [encode_singleton, decodeLoop_two_pad (by omega) (by omega)]
    simp [flushTail, c3Of_take_one _ _ x₂ x₃ 0 0, hc3, toUInt8_toNat]
  | case4 => simp [encode, decodeLoop, flushTail]

theorem decode_encode (s : List UInt8) : decode (encode s) = (s, (4 * s.length + 2) / 3) := by
  obtain ⟨h₁, h₂⟩ := decodeLoop_encode s [] 0 0 0 0 0
  simp only [decode, h₁, h₂, List.nil_append, Nat.zero_add]

/-! ## The round trip -/

/-- `encode` fills the buffer `Base64Encode` sizes for it exactly. -/
theorem base64Encode_eq (s : List UInt8) : base64Encode s = some (encode s) := by
  simp [base64Encode, writeBuffer_of_le, length_encode]

/-- `"Ma"` encodes to `"TWE="`. -/
example : base64Encode [77, 97] = some [84, 87, 69, 61] := by decide

/-- `Base64Decode(Base64Encode(s)) = s` for every byte string, and neither call writes past its
buffer: the decoded bytes fit in `decoded_size` of the encoding's length. -/
theorem base64Decode_base64Encode (s : List UInt8) :
    (base64Encode s).bind base64Decode = some s := by
  have hfit : s.length ≤ decodedSize (encode s).length := by
    rw [length_encode]; simp only [encodedSize, decodedSize]; omega
  simp [base64Encode_eq, base64Decode, decode_encode, writeBuffer_of_le, hfit]

/-! ## Inputs whose length is not a multiple of 4

`decoded_size` rounds the input length down to whole groups, while `decode` also writes the
bytes of a trailing group of two or three symbols. -/

/-- Over symbols only, the loop writes three bytes per completed group and counts the rest in
`i`. -/
theorem decodeLoop_tabs (ks : List Nat) (hks : ∀ k ∈ ks, k < 64) (st : DecodeState)
    (hi : st.i < 4) :
    (decodeLoop (ks.map tab) st).out.length = st.out.length + 3 * ((st.i + ks.length) / 4) ∧
      (decodeLoop (ks.map tab) st).i = (st.i + ks.length) % 4 := by
  induction ks generalizing st with
  | nil => simp [decodeLoop, Nat.div_eq_of_lt hi, Nat.mod_eq_of_lt hi]
  | cons k ks ih =>
    have hk := hks k (List.mem_cons_self k ks)
    have hks' := fun k' hk' => hks k' (List.mem_cons_of_mem k hk')
    rw [List.map_cons, decodeLoop_tab hk]
    split
    · obtain ⟨h₁, h₂⟩ := ih hks' ⟨st.out ++ c3Of (st.c4.set st.i k), 0, st.c4.set st.i k,
        st.consumed + 1⟩ (Nat.zero_lt_succ 3)
      simp only [List.length_append, length_c3Of] at h₁ h₂
      simp only [h₁, h₂, List.length_cons]
      omega
    · obtain ⟨h₁, h₂⟩ := ih hks' ⟨st.out, st.i + 1, st.c4.set st.i k, st.consumed + 1⟩
        (show st.i + 1 < 4 by omega)
      simp only at h₁ h₂
      simp only [h₁, h₂, List.length_cons]
      omega

/-- On a string of symbols, `decode` writes `len % 4 - 1` bytes more than `decoded_size` gives. -/
theorem length_decode_tabs (ks : List Nat) (hks : ∀ k ∈ ks, k < 64) (hlen : 2 ≤ ks.length % 4) :
    (decode (ks.map tab)).1.length = decodedSize (ks.map tab).length + (ks.length % 4 - 1) := by
  obtain ⟨h₁, h₂⟩ := decodeLoop_tabs ks hks ⟨[], 0, [0, 0, 0, 0], 0⟩ (Nat.zero_lt_succ 3)
  simp only [Nat.zero_add, List.length_nil] at h₁ h₂
  simp only [decode, flushTail, h₂, List.length_map, decodedSize]
  split <;> simp [h₁] <;> omega

/-- `Base64Decode` writes past its buffer and its terminator, which is undefined behaviour, on
every string of symbols of length 3 modulo 4, and on every one of length 2 modulo 4 whose
trailing byte is not `'\0'`. -/
theorem base64Decode_overflows (ks : List Nat) (hks : ∀ k ∈ ks, k < 64)
    (hlen : ks.length % 4 = 3 ∨ ks.length % 4 = 2 ∧ (decode (ks.map tab)).1.getLast? ≠ some 0) :
    base64Decode (ks.map tab) = none := by
  have hout := length_decode_tabs ks hks (by omega)
  simp only [base64Decode, writeBuffer, List.length_replicate]
  rw [if_neg (by omega), if_neg fun h => hlen.elim (fun h3 => by omega) fun h2 => h2.2 h.2,
    Option.map_none']

/-- `"QUJ"`, the three symbols of `"AB"` without their padding, and `"QU"`, whose trailing byte is
`'A'`. -/
theorem base64Decode_QUJ_overflows :
    ((∀ k ∈ [16, 20, 9], k < 64) ∧ [16, 20, 9].length % 4 = 3 ∧
      base64Decode ([16, 20, 9].map tab) = none) ∧
    ((∀ k ∈ [16, 20], k < 64) ∧ [16, 20].length % 4 = 2 ∧
      (decode ([16, 20].map tab)).1.getLast? ≠ some 0 ∧ base64Decode ([16, 20].map tab) = none) :=
  ⟨⟨by decide, by decide, base64Decode_overflows _ (by decide) (.inl (by decide))⟩,
    ⟨by decide, by decide, by decide, base64Decode_overflows _ (by decide) (.inr ⟨by decide, by decide⟩)⟩⟩

/-- On a string of symbols of length 2 modulo 4 whose trailing byte is `'\0'` (the last two
symbols are `'A'` and one of `'A'`–`'P'`), that byte lands on the terminator, which already holds
`'\0'`, and `Base64Decode` returns every byte `decode` wrote. -/
theorem base64Decode_terminator (ks : List Nat) (hks : ∀ k ∈ ks, k < 64) (hlen : ks.length % 4 = 2)
    (hz : (decode (ks.map tab)).1.getLast? = some 0) :
    base64Decode (ks.map tab) = some (decode (ks.map tab)).1 := by
  have hout := length_decode_tabs ks hks (by omega)
  rw [hlen] at hout
  exact writeBuffer_terminator (by simpa using hout) hz

/-- `"AA"` decodes to the one byte `'\0'`. -/
theorem base64Decode_AA :
    (∀ k ∈ [0, 0], k < 64) ∧ [0, 0].length % 4 = 2 ∧ (decode ([0, 0].map tab)).1.getLast? = some 0 ∧
      base64Decode ([0, 0].map tab) = some [0] :=
  ⟨by decide, by decide, by decide, (base64Decode_terminator _ (by decide) (by decide) (by decide)).trans
    (by decide)⟩

/-! ## Inputs whose length is a multiple of 4, or one more

Whatever the bytes (symbols, `'='` or others), the loop stops after some `d` of them, having
written three bytes per completed group, and the tail writes `i - 1` more. A trailing single
symbol writes nothing, so on every input of length `4q` or `4q + 1` the bytes written fit in
the `3q` that `decoded_size` gives. -/

/-- Over any bytes, the loop consumes `d` of them, writes three bytes per completed group and
counts the rest in `i`. -/
theorem decodeLoop_consumes (src : List UInt8) (st : DecodeState) (hi : st.i < 4) :
    ∃ d ≤ src.length,
      (decodeLoop src st).out.length = st.out.length + 3 * ((st.i + d) / 4) ∧
        (decodeLoop src st).i = (st.i + d) % 4 := by
  induction src generalizing st with
  | nil =>
    exact ⟨0, le_rfl, by simp [decodeLoop, Nat.div_eq_of_lt hi],
      by simp [decodeLoop, Nat.mod_eq_of_lt hi]⟩
  | cons c rest ih =>
    -- where the loop stops, nothing more is consumed
    have stop : ∃ d ≤ (c :: rest).length,
        st.out.length = st.out.length + 3 * ((st.i + d) / 4) ∧ st.i = (st.i + d) % 4 :=
      ⟨0, Nat.zero_le _, by simp [Nat.div_eq_of_lt hi], by simp [Nat.mod_eq_of_lt hi]⟩
    simp only [decodeLoop]
    split
    · exact stop
    · split
      · exact stop
      · rename_i v _
        split
        · obtain ⟨d, hd, h₁, h₂⟩ := ih ⟨st.out ++ c3Of (st.c4.set st.i v), 0, st.c4.set st.i v,
            st.consumed + 1⟩ (Nat.zero_lt_succ 3)
          refine ⟨d + 1, by simp only [List.length_cons]; omega, ?_, ?_⟩ <;>
            simp only [List.length_append, length_c3Of] at h₁ h₂ ⊢ <;> omega
        · obtain ⟨d, hd, h₁, h₂⟩ := ih ⟨st.out, st.i + 1, st.c4.set st.i v, st.consumed + 1⟩
            (show st.i + 1 < 4 by omega)
          refine ⟨d + 1, by simp only [List.length_cons]; omega, ?_, ?_⟩ <;>
            simp only at h₁ h₂ ⊢ <;> omega

/-- On every input whose length is a multiple of 4, or one more, `Base64Decode` writes within its
buffer and returns exactly the bytes `decode` wrote, whatever the input holds. -/
theorem base64Decode_fits (src : List UInt8) (h : src.length % 4 ≤ 1) :
    base64Decode src = some (decode src).1 := by
  obtain ⟨d, hd, h₁, h₂⟩ := decodeLoop_consumes src ⟨[], 0, [0, 0, 0, 0], 0⟩ (Nat.zero_lt_succ 3)
  simp only [Nat.zero_add, List.length_nil] at h₁ h₂
  have hfit : (decode src).1.length ≤ decodedSize src.length := by
    simp only [decode, flushTail, decodedSize]
    split <;> simp [h₁, h₂] <;> omega
  have hw := writeBuffer_of_le
    (show (decode src).1.length ≤ (List.replicate (decodedSize src.length) (0 : UInt8)).length by
      simpa using hfit)
  simp [base64Decode, hw]

/-- `"QU*J"`: the loop stops at `'*'`, and the two bytes the tail writes fit in the three
`decoded_size` gives. -/
theorem base64Decode_fits_at_invalid_byte :
    [81, 85, 42, 74].length % 4 ≤ 1 ∧
      base64Decode [81, 85, 42, 74] = some (decode [81, 85, 42, 74]).1 :=
  ⟨by decide, base64Decode_fits _ (by decide)⟩

end SsLogger.Base64
