/-
# Encoded items keep their order and are read back

A string diverges from a larger one at the first byte where they differ, or at the
separator of the shorter one. Of two unsigned numbers the longer one is larger. A signed
number `m ≥ 0` of `len` bytes is written as the number `m` under `len` header bits that
are all set, and `-m - 1` with all of these bytes inverted, so that in each sign a longer
number lies beyond all shorter ones.
-/

import ContainerScheduler.Math.ByteOrder
import ContainerScheduler.Strings.OrderedCode
import Mathlib.Data.Nat.ModEq
import Mathlib.Tactic.IntervalCases

namespace ContainerScheduler.Analysis

open Math Strings

/-! ## Strings -/

/-- How one byte of a string is written. -/
def escape (c : UInt8) : List UInt8 :=
  if c = 0 then [0, 255] else if c = 255 then [255, 0] else [c]

theorem isSpecialByte_iff (c : UInt8) : isSpecialByte c = true ↔ c = 0 ∨ c = 255 := by
  rw [isSpecialByte, decide_eq_true_iff, UInt8.lt_iff_toNat_lt, UInt8.toNat_add,
    ← UInt8.toNat_inj, ← UInt8.toNat_inj]
  have := UInt8.toNat_lt c
  show (c.toNat + 1) % 256 < 2 ↔ c.toNat = 0 ∨ c.toNat = 255
  omega

theorem encodeStringFragment_eq (copied s : List UInt8) :
    encodeStringFragment copied s = copied ++ s.flatMap escape := by
  induction s generalizing copied with
  | nil => simp [encodeStringFragment]
  | cons c s ih =>
      rw [encodeStringFragment, ih, ih, List.flatMap_cons, escape]
      by_cases hzero : c = 0
      · simp [hzero, isSpecialByte, kEscape1, kNullCharacter]
      by_cases hlast : c = 255
      · simp [hlast, isSpecialByte, kEscape1, kEscape2, kFFCharacter]
      have hordinary : isSpecialByte c ≠ true := by simp [isSpecialByte_iff, hzero, hlast]
      simp [hordinary, hzero, hlast]

theorem writeString_eq (s : List UInt8) : writeString s = s.flatMap escape ++ [0, 1] :=
  congrArg (· ++ _) (encodeStringFragment_eq [] s)

/-- The separator comes before every byte as it is written. -/
theorem diverges_separator (c : UInt8) (rest : List UInt8) :
    Diverges [0, 1] (escape c ++ rest) := by
  rw [escape]
  split_ifs with hzero hlast
  · exact (Diverges.of_lt (by decide) [] rest).cons 0
  · exact .of_lt (by decide) [1] (0 :: rest)
  · exact .of_lt (UInt8.pos_iff_ne_zero.mpr hzero) [1] rest

/-- Different bytes are written differently. -/
theorem diverges_escape {c d : UInt8} (hlt : c < d) (rest rest' : List UInt8) :
    Diverges (escape c ++ rest) (escape d ++ rest') := by
  have hd : d ≠ 0 := by
    rintro rfl
    exact absurd hlt (by simp [UInt8.lt_iff_toNat_lt])
  have hc : c ≠ 255 := fun heq => absurd hlt (by
    rw [heq, UInt8.lt_iff_toNat_lt]
    exact not_lt.mpr (Nat.le_of_lt_succ (UInt8.toNat_lt d)))
  simp only [escape, if_neg hd, if_neg hc]
  split_ifs with hzero hlast hlast
  · exact .of_lt (by decide) (255 :: rest) (0 :: rest')
  · exact .of_lt (UInt8.pos_iff_ne_zero.mpr hd) (255 :: rest) rest'
  · exact .of_lt (hlast ▸ hlt) rest (0 :: rest')
  · exact .of_lt hlt rest rest'

theorem diverges_writeString {s t : List UInt8} (hlt : s < t) :
    Diverges (writeString s) (writeString t) := by
  rw [writeString_eq, writeString_eq]
  induction hlt with
  | @nil c t =>
      rw [List.flatMap_cons, List.append_assoc]
      exact diverges_separator c _
  | @cons c s t _ ih =>
      rw [List.flatMap_cons, List.flatMap_cons, List.append_assoc, List.append_assoc]
      exact ih.append_left (escape c)
  | @rel c s d t hlt =>
      rw [List.flatMap_cons, List.flatMap_cons, List.append_assoc, List.append_assoc]
      exact diverges_escape hlt _ _

/-- One byte is read back. -/
theorem readStringInternal_escape (result : List UInt8) (c d : UInt8) (src : List UInt8) :
    readStringInternal result (escape c ++ d :: src) =
      readStringInternal (result ++ [c]) (d :: src) := by
  rw [escape]
  split_ifs with hzero hlast
  · simp [hzero, readStringInternal, isSpecialByte, kEscape1, kSeparator, kNullCharacter]
  · simp [hlast, readStringInternal, isSpecialByte, kEscape1, kFFCharacter]
  · have hordinary : isSpecialByte c ≠ true := by simp [isSpecialByte_iff, hzero, hlast]
    rw [List.singleton_append, readStringInternal, if_neg hordinary]

theorem readString_writeString (s rest : List UInt8) :
    readString (writeString s ++ rest) = some (s, rest) := by
  have hread : ∀ result, readStringInternal result (s.flatMap escape ++ 0 :: 1 :: rest) =
      some (result ++ s, rest) := by
    induction s with
    | nil =>
        intro result
        simp [readStringInternal, isSpecialByte, kEscape1, kSeparator]
    | cons c s ih =>
        intro result
        obtain ⟨d, src, hsrc⟩ : ∃ d src, s.flatMap escape ++ 0 :: 1 :: rest = d :: src :=
          List.exists_cons_of_ne_nil (by simp)
        rw [List.flatMap_cons, List.append_assoc, hsrc, readStringInternal_escape, ← hsrc, ih]
        simp
  rw [readString, writeString_eq, List.append_assoc]
  exact hread []

/-! ## Unsigned numbers -/

/-- The bytes of a number without leading zeros. -/
theorem exists_numPayload (val : ℕ) (buf : List UInt8) :
    ∃ len, numPayload val buf = bigEndian len val ++ buf ∧ val < 256 ^ len ∧
      (len ≠ 0 → 256 ^ (len - 1) ≤ val) := by
  induction val using Nat.strong_induction_on generalizing buf with
  | _ val ih =>
      rw [numPayload]
      by_cases hpos : 0 < val
      · have hshift : val >>> 8 = val / 256 := Nat.shiftRight_eq_div_pow val 8
        have hlow : val &&& 0xff = val % 256 := Nat.and_two_pow_sub_one_eq_mod val 8
        obtain ⟨len, hpayload, hlt, hle⟩ :=
          ih (val / 256) (by omega) (UInt8.ofNat (val % 256) :: buf)
        refine ⟨len + 1, ?_, ?_, fun _ => ?_⟩
        · rw [if_pos hpos, hshift, hlow, hpayload, bigEndian, List.append_assoc,
            List.singleton_append, ofNat_mod]
        · rw [pow_succ]
          omega
        · rw [Nat.add_sub_cancel]
          cases len with
          | zero => exact hpos
          | succ len =>
              have := hle (by simp)
              rw [Nat.add_sub_cancel] at this
              rw [pow_succ]
              omega
      · refine ⟨0, by rw [if_neg hpos]; rfl, ?_, by simp⟩
        rw [pow_zero]
        omega

/-- The length of a 64-bit number. -/
theorem len_le_eight {len val : ℕ} (hval : val < 2 ^ 64) (hle : len ≠ 0 → 256 ^ (len - 1) ≤ val) :
    len ≤ 8 := by
  by_contra hlong
  have hpow : 256 ^ 8 ≤ 256 ^ (len - 1) := Nat.pow_le_pow_right (by decide) (by omega)
  have := hpow.trans (hle (by omega))
  omega

theorem diverges_writeNumIncreasing {val val' : ℕ} (hval' : val' < 2 ^ 64) (hlt : val < val') :
    Diverges (writeNumIncreasing val) (writeNumIncreasing val') := by
  obtain ⟨len, hpayload, -, hle⟩ := exists_numPayload val []
  obtain ⟨len', hpayload', hbelow', hle'⟩ := exists_numPayload val' []
  have hlong := len_le_eight (hlt.trans hval') hle
  have hlong' := len_le_eight hval' hle'
  simp only [writeNumIncreasing, hpayload, hpayload', List.append_nil, length_bigEndian]
  obtain hshorter | rfl | hlonger := Nat.lt_trichotomy len len'
  · refine .of_lt ?_ _ _
    rw [UInt8.lt_iff_toNat_lt, UInt8.toNat_ofNat', UInt8.toNat_ofNat']
    omega
  · exact (diverges_bigEndian hbelow' hlt).cons _
  · have hpow : 256 ^ len' ≤ 256 ^ (len - 1) := Nat.pow_le_pow_right (by decide) (by omega)
    have := hpow.trans (hle (by omega))
    omega

theorem shiftByte_eq {x : ℕ} (byte : UInt8) :
    shiftByte x byte = (x * 256 + byte.toNat) % 2 ^ 64 := by
  have hbyte := UInt8.toNat_lt byte
  have hshift : (x <<< 8) % 2 ^ 64 = 2 ^ 8 * (x % 2 ^ 56) := by
    rw [Nat.shiftLeft_eq]
    omega
  rw [shiftByte, hshift, ← Nat.two_pow_add_eq_or_of_lt hbyte]
  omega

/-- Bytes that are shifted in are the number they stand for, after what was there. -/
theorem foldl_shiftByte {bytes : List UInt8} {x : ℕ} (hx : x < 2 ^ 64) :
    bytes.foldl shiftByte x = (x * 256 ^ bytes.length + ofBigEndian bytes) % 2 ^ 64 := by
  induction bytes generalizing x with
  | nil =>
      rw [List.foldl_nil, List.length_nil, pow_zero, mul_one]
      exact (Nat.mod_eq_of_lt hx).symm
  | cons byte bytes ih =>
      have hcons := ofBigEndian_append [byte] bytes
      have hbyte : ofBigEndian [byte] = byte.toNat := by simp [ofBigEndian]
      rw [List.singleton_append, hbyte] at hcons
      have hmod := ((Nat.mod_modEq (x * 256 + byte.toNat) (2 ^ 64)).mul_right
        (256 ^ bytes.length)).add_right (ofBigEndian bytes)
      have hregroup : (x * 256 + byte.toNat) * 256 ^ bytes.length + ofBigEndian bytes =
          x * 256 ^ (bytes.length + 1) + (byte.toNat * 256 ^ bytes.length + ofBigEndian bytes) := by
        ring
      rw [List.foldl_cons, shiftByte_eq, ih (Nat.mod_lt _ (by decide)), hcons, List.length_cons,
        ← hregroup]
      exact hmod

theorem readNumIncreasing_write (debug : Bool) {val : ℕ} (hval : val < 2 ^ 64)
    (rest : List UInt8) :
    readNumIncreasing debug (writeNumIncreasing val ++ rest) = some (val, rest) := by
  obtain ⟨len, hpayload, hbelow, hle⟩ := exists_numPayload val []
  have hlong := len_le_eight hval hle
  have hfirst : (UInt8.ofNat len).toNat = len := by
    rw [UInt8.toNat_ofNat']
    omega
  have hminimal : len = 0 ∨ bigEndian len val ++ rest = [] ∨
      (bigEndian len val ++ rest).head? ≠ some 0 := by
    cases len with
    | zero => exact .inl rfl
    | succ len =>
        have hpow := hle (by simp)
        rw [Nat.add_sub_cancel] at hpow
        have hpos : 0 < val / 256 ^ len := Nat.div_pos hpow (Nat.pow_pos (by decide))
        have hbyte : val / 256 ^ len < 256 := by
          rw [Nat.div_lt_iff_lt_mul (Nat.pow_pos (by decide)), ← pow_succ']
          exact hbelow
        refine .inr (.inr ?_)
        rw [add_comm len 1, bigEndian_add]
        simp only [bigEndian, List.nil_append, List.cons_append,
          List.head?_cons, ne_eq, Option.some.injEq]
        rw [← UInt8.toNat_inj, UInt8.toNat_ofNat']
        show ¬ _ % 256 = 0
        omega
  simp only [writeNumIncreasing, hpayload, List.append_nil, length_bigEndian, List.cons_append,
    readNumIncreasing, hfirst]
  rw [if_neg (by tauto), if_neg (by simp; omega)]
  have hfold : (bigEndian len val).foldl shiftByte 0 = val := by
    rw [foldl_shiftByte (by decide), zero_mul, zero_add, ofBigEndian_bigEndian,
      Nat.mod_eq_of_lt hbelow, Nat.mod_eq_of_lt hval]
  rw [List.take_left' (length_bigEndian len val), List.drop_left' (length_bigEndian len val), hfold]

/-! ## Signed numbers: the bytes -/

/-- Exclusive or with ones is subtraction from them. -/
theorem ones_xor {k m : ℕ} (hm : m < 2 ^ k) : (2 ^ k - 1) ^^^ m = 2 ^ k - 1 - m := by
  refine Nat.eq_of_testBit_eq fun i => ?_
  rw [Nat.testBit_xor, Nat.testBit_two_pow_sub_one, Nat.sub_sub, Nat.add_comm 1 m,
    Nat.testBit_two_pow_sub_succ hm]
  by_cases hi : i < k
  · simp [hi]
  · have hhigh : m < 2 ^ i := hm.trans_le (Nat.pow_le_pow_right (by decide) (not_lt.mp hi))
    simp [hi, Nat.testBit_lt_two_pow hhigh]

/-- Exclusive or of bits at different places is a sum. -/
theorem shifted_xor {k m : ℕ} (hm : m < 2 ^ k) (a : ℕ) : (2 ^ k * a) ^^^ m = 2 ^ k * a + m := by
  have hpos := Nat.two_pow_pos k
  have hhigh : ((2 ^ k * a) ^^^ m) / 2 ^ k = a := by
    rw [Nat.xor_div_two_pow, Nat.mul_div_cancel_left a hpos, Nat.div_eq_of_lt hm, Nat.xor_zero]
  have hlow : ((2 ^ k * a) ^^^ m) % 2 ^ k = m := by
    rw [Nat.xor_mod_two_pow, Nat.mul_mod_right, Nat.mod_eq_of_lt hm, Nat.zero_xor]
  calc (2 ^ k * a) ^^^ m
      = 2 ^ k * (((2 ^ k * a) ^^^ m) / 2 ^ k) + ((2 ^ k * a) ^^^ m) % 2 ^ k :=
        (Nat.div_add_mod _ _).symm
    _ = 2 ^ k * a + m := by rw [hhigh, hlow]

/-- The bits that are set before a number that is not negative. -/
def header (len : ℕ) : ℕ := 2 ^ (7 * len) * (2 ^ len - 1)

/-- Ones for a negative number. -/
def signBits (negative : Bool) (bits : ℕ) : ℕ := if negative then 2 ^ bits - 1 else 0

/-- What is known of the length of a number. -/
structure EncodingLength (m len : ℕ) : Prop where
  one_le : 1 ≤ len
  le_ten : len ≤ 10
  lt : m < 2 ^ (7 * len - 1)
  le : 2 ≤ len → 2 ^ (7 * (len - 1) - 1) ≤ m

theorem encodingLength {n : ℤ} (hn : magnitude n < 2 ^ 63) :
    EncodingLength (magnitude n) (signedEncodingLength n) := by
  rw [signedEncodingLength]
  generalize magnitude n = m at hn ⊢
  have htable : ∀ bits < 64, kBitsToLength.getD bits 0 = bits / 7 + 1 := by decide
  by_cases hzero : m = 0
  · subst hzero
    exact ⟨by decide, by decide, by decide, by decide⟩
  have hlog : Nat.log2 m < 63 := (Nat.log2_lt hzero).mpr hn
  have hbits : (log2Floor64 m + 1).toNat = Nat.log2 m + 1 := by
    rw [log2Floor64, if_neg hzero]
    omega
  rw [hbits, htable _ (by omega)]
  refine ⟨by omega, by omega, ?_, fun _ => ?_⟩
  · exact Nat.lt_log2_self.trans_le (Nat.pow_le_pow_right (by decide) (by omega))
  · exact (Nat.pow_le_pow_right (by decide) (by omega)).trans (Nat.log2_self_le hzero)

theorem complement_eq (n : ℤ) : ~~~n = -n - 1 := by
  cases n with
  | ofNat n =>
      show Int.negSucc n = -(n : ℤ) - 1
      omega
  | negSucc n =>
      show (n : ℤ) = -Int.negSucc n - 1
      omega

theorem magnitude_of_neg {n : ℤ} (hneg : n < 0) : (magnitude n : ℤ) = -n - 1 := by
  rw [magnitude, if_pos hneg, complement_eq]
  omega

theorem magnitude_of_nonneg {n : ℤ} (hneg : ¬ n < 0) : (magnitude n : ℤ) = n := by
  rw [magnitude, if_neg hneg]
  omega

theorem toUint64_eq {n : ℤ} (hn : magnitude n < 2 ^ 63) :
    toUint64 n = signBits (n < 0) 64 ^^^ magnitude n := by
  rw [toUint64, signBits]
  by_cases hneg : n < 0
  · have hm := magnitude_of_neg hneg
    rw [decide_eq_true hneg, if_pos rfl, ones_xor (by omega)]
    omega
  · have hm := magnitude_of_nonneg hneg
    rw [decide_eq_false hneg, if_neg Bool.false_ne_true, Nat.zero_xor]
    omega

/-- The number whose bytes are written. -/
def signedNumber (negative : Bool) (len m : ℕ) : ℕ :=
  signBits negative (8 * len) ^^^ (header len + m)

theorem pow_eight_mul (len : ℕ) : 2 ^ (8 * len) = 256 ^ len := pow_mul 2 8 len

/-- The header bits are the ones that are missing from the other bits. -/
theorem header_add_pow (len : ℕ) : header len + 2 ^ (7 * len) = 256 ^ len := by
  rw [header, ← Nat.mul_succ, Nat.succ_eq_add_one, Nat.sub_add_cancel Nat.one_le_two_pow, ← pow_add,
    ← pow_eight_mul]
  congr 1
  omega

theorem header_add_lt {len m : ℕ} (hm : m < 2 ^ (7 * len)) : header len + m < 256 ^ len := by
  have := header_add_pow len
  omega

theorem signBits_mod (negative : Bool) (bits more : ℕ) :
    signBits negative (bits + more) % 2 ^ bits = signBits negative bits := by
  cases negative with
  | false => rfl
  | true =>
      have hpos := Nat.two_pow_pos bits
      have hsplit : 2 ^ (bits + more) - 1 = (2 ^ bits - 1) + 2 ^ bits * (2 ^ more - 1) := by
        rw [pow_add, Nat.mul_sub_one]
        have : 2 ^ bits ≤ 2 ^ bits * 2 ^ more := Nat.le_mul_of_pos_right _ (Nat.two_pow_pos more)
        omega
      rw [signBits, if_pos rfl, hsplit, Nat.add_mul_mod_self_left, Nat.mod_eq_of_lt (by omega)]
      rfl

theorem zipWith_xor_zero (bytes : List UInt8) :
    List.zipWith (· ^^^ ·) bytes (.replicate bytes.length 0) = bytes := by
  induction bytes with
  | nil => rfl
  | cons byte bytes ih => simp [List.replicate_succ, ih]

theorem storeBigEndian64_eq (v : ℕ) : storeBigEndian64 v = bigEndian 8 v := by
  have hbyte : ∀ i, UInt8.ofNat (v >>> i &&& 0xff) = UInt8.ofNat (v / 2 ^ i) := by
    intro i
    rw [Nat.and_two_pow_sub_one_eq_mod _ 8, Nat.shiftRight_eq_div_pow]
    exact ofNat_mod _
  simp only [storeBigEndian64, hbyte]
  simp [bigEndian, List.range_succ, Nat.div_div_eq_div_mul]

/-- The ten bytes of the buffer are those of the sign-extended number. -/
theorem buffer_eq {val : ℤ} (hval : magnitude val < 2 ^ 63) {signByte : UInt8}
    (hsign : signByte = if val < 0 then 0xff else 0) :
    [signByte, signByte] ++ storeBigEndian64 (toUint64 val) =
      bigEndian 10 (signBits (val < 0) 80 ^^^ magnitude val) := by
  have hlow : bigEndian 8 (signBits (val < 0) 80 ^^^ magnitude val) =
      bigEndian 8 (signBits (val < 0) 64 ^^^ magnitude val) := by
    rw [← bigEndian_mod 8 (_ ^^^ _), show 256 ^ 8 = 2 ^ 64 from rfl, Nat.xor_mod_two_pow,
      signBits_mod _ 64 16, Nat.mod_eq_of_lt (a := magnitude val) (by omega)]
  have hhigh : (signBits (val < 0) 80 ^^^ magnitude val) / 256 ^ 8 =
      signBits (val < 0) 80 / 2 ^ 64 := by
    rw [show 256 ^ 8 = 2 ^ 64 from rfl, Nat.xor_div_two_pow,
      Nat.div_eq_of_lt (a := magnitude val) (by omega), Nat.xor_zero]
  rw [bigEndian_add 2 8, hlow, hhigh, storeBigEndian64_eq, toUint64_eq hval, hsign]
  congr 1
  by_cases hneg : val < 0 <;> simp [hneg, signBits, bigEndian]

/-- The header bits are put over the first two bytes. -/
theorem modify_header {len : ℕ} (hlen : 2 ≤ len) (hle : len ≤ 10) (n : ℕ) :
    ((bigEndian len n).modify 0 (· ^^^ (kLengthToHeaderBits.getD len (0, 0)).1)).modify 1
        (· ^^^ (kLengthToHeaderBits.getD len (0, 0)).2) =
      bigEndian len (n ^^^ header len) := by
  have hheader : bigEndian len (header len) = (kLengthToHeaderBits.getD len (0, 0)).1 ::
      (kLengthToHeaderBits.getD len (0, 0)).2 :: List.replicate (len - 2) 0 := by
    interval_cases len <;> decide
  obtain ⟨first, second, rest, hbytes⟩ :
      ∃ first second rest, bigEndian len n = first :: second :: rest := by
    match hbytes : bigEndian len n with
    | [] | [_] =>
        have := hbytes ▸ length_bigEndian len n
        simp at this
        omega
    | first :: second :: rest => exact ⟨first, second, rest, rfl⟩
  have hrest : rest.length = len - 2 := by
    have := hbytes ▸ length_bigEndian len n
    simp at this
    omega
  rw [bigEndian_xor, hheader, hbytes, ← hrest]
  simp [zipWith_xor_zero]

/-- **The bytes of a signed number.** -/
theorem writeSignedNumIncreasing_eq {val : ℤ} (hval : magnitude val < 2 ^ 63) :
    writeSignedNumIncreasing val = bigEndian (signedEncodingLength val)
      (signedNumber (val < 0) (signedEncodingLength val) (magnitude val)) := by
  obtain ⟨hone, hten, hlt, hle⟩ := encodingLength hval
  have hsame : signedEncodingLength (magnitude val : ℤ) = signedEncodingLength val := by
    rw [signedEncodingLength, signedEncodingLength, magnitude, if_neg (by omega), Int.toNat_natCast]
  have hpow : magnitude val < 2 ^ (7 * signedEncodingLength val) :=
    hlt.trans_le (Nat.pow_le_pow_right (by decide) (Nat.sub_le _ _))
  have hnumber : signedNumber (val < 0) (signedEncodingLength val) (magnitude val) =
      (signBits (val < 0) (8 * signedEncodingLength val) ^^^ magnitude val) ^^^
        header (signedEncodingLength val) := by
    rw [signedNumber, header, ← shifted_xor hpow, Nat.xor_assoc, Nat.xor_comm (magnitude val)]
  have hlow : ∀ more, 8 * signedEncodingLength val + more = 80 →
      bigEndian (signedEncodingLength val) (signBits (val < 0) 80 ^^^ magnitude val) =
      bigEndian (signedEncodingLength val)
        (signBits (val < 0) (8 * signedEncodingLength val) ^^^ magnitude val) := by
    intro more hmore
    rw [← bigEndian_mod _ (_ ^^^ _), show (256 : ℕ) = 2 ^ 8 from rfl, ← pow_mul,
      Nat.xor_mod_two_pow, ← hmore, signBits_mod, Nat.mod_eq_of_lt (a := magnitude val)]
    exact hpow.trans_le (Nat.pow_le_pow_right (by decide) (by omega))
  rw [writeSignedNumIncreasing, hnumber]
  by_cases hsmall : magnitude val < 64
  · have hlen : signedEncodingLength val = 1 := by
      by_contra hlong
      have hpow : 2 ^ 6 ≤ 2 ^ (7 * (signedEncodingLength val - 1) - 1) :=
        Nat.pow_le_pow_right (by decide) (by omega)
      have := hpow.trans (hle (by omega))
      omega
    have hsign : UInt8.ofNat (signBits (val < 0) 64) = UInt8.ofNat (signBits (val < 0) 8) := by
      cases decide (val < 0) <;> rfl
    simp only [if_pos hsmall]
    rw [hlen, toUint64_eq hval, UInt8.ofNat_xor, hsign, ← UInt8.ofNat_xor, UInt8.xor_comm]
    show [_ ^^^ UInt8.ofNat (header 1)] = [UInt8.ofNat (_ ^^^ header 1)]
    rw [UInt8.ofNat_xor _ (header 1)]
  · simp only [if_neg hsmall, hsame]
    have hlen : 2 ≤ signedEncodingLength val := by
      by_contra hshort
      rw [show signedEncodingLength val = 1 by omega] at hlt
      omega
    have hdrop := drop_bigEndian (10 - signedEncodingLength val) (signedEncodingLength val)
      (signBits (val < 0) 80 ^^^ magnitude val)
    rw [Nat.sub_add_cancel hten] at hdrop
    rw [buffer_eq hval rfl, hdrop, hlow (80 - 8 * signedEncodingLength val) (by omega),
      modify_header hlen hten]

/-! ## Signed numbers: the order -/

namespace EncodingLength

variable {m m' len len' : ℕ}

theorem lt_pow (hlen : EncodingLength m len) : m < 2 ^ (7 * len) :=
  hlen.lt.trans_le (Nat.pow_le_pow_right (by decide) (Nat.sub_le _ _))

/-- Larger magnitudes are not shorter. -/
theorem mono (hlen : EncodingLength m len) (hlen' : EncodingLength m' len') (hle : m ≤ m') :
    len ≤ len' := by
  by_contra hlonger
  have := hlen'.one_le
  have hpow : 2 ^ (7 * len' - 1) ≤ 2 ^ (7 * (len - 1) - 1) :=
    Nat.pow_le_pow_right (by decide) (by omega)
  have := hlen.le (by omega)
  have := hlen'.lt
  omega

end EncodingLength

theorem signedNumber_false (len m : ℕ) : signedNumber false len m = header len + m :=
  Nat.zero_xor _

theorem signedNumber_true {len m : ℕ} (hm : m < 2 ^ (7 * len)) :
    signedNumber true len m = 2 ^ (7 * len) - 1 - m := by
  have hbelow := header_add_lt hm
  have hsplit := header_add_pow len
  rw [← pow_eight_mul] at hbelow hsplit
  rw [signedNumber, signBits, if_pos rfl, ones_xor hbelow]
  omega

theorem signedNumber_lt (negative : Bool) {len m : ℕ} (hm : m < 2 ^ (7 * len)) :
    signedNumber negative len m < 256 ^ len := by
  have hbelow := header_add_lt hm
  cases negative with
  | false => rwa [signedNumber_false]
  | true =>
      have := header_add_pow len
      have := Nat.two_pow_pos (7 * len)
      rw [signedNumber_true hm]
      omega

/-- One more byte makes up for one more header bit. -/
theorem half_mul_le {len rest : ℕ} (hlen : 1 ≤ len) (hrest : 1 ≤ rest) :
    2 ^ (7 * (len + rest)) ≤ 2 ^ (7 * len - 1) * 256 ^ rest := by
  rw [← pow_eight_mul, ← pow_add]
  exact Nat.pow_le_pow_right (by decide) (by omega)

/-- Of two numbers that are not negative the longer one lies beyond the shorter one. -/
theorem header_gap {len rest m m' : ℕ} (hlen : EncodingLength m len) (hrest : 1 ≤ rest) :
    (header len + m + 1) * 256 ^ rest ≤ header (len + rest) + m' := by
  have hhalf := half_mul_le hlen.one_le hrest
  have htwice : 2 ^ (7 * len) = 2 * 2 ^ (7 * len - 1) := by
    rw [← pow_succ']
    congr 1
    have := hlen.one_le
    omega
  have hsplit := header_add_pow len
  have hsplit' := header_add_pow (len + rest)
  rw [pow_add 256] at hsplit'
  have hless : header len + m + 1 + 2 ^ (7 * len - 1) ≤ 256 ^ len := by
    have := hlen.lt
    omega
  have hscaled := Nat.mul_le_mul_right (256 ^ rest) hless
  rw [Nat.add_mul] at hscaled
  omega

/-- Of two negative numbers the longer one lies before the shorter one. -/
theorem negative_gap {len rest m m' : ℕ} (hlen' : EncodingLength m' len) (hrest : 1 ≤ rest)
    (hm : m < 2 ^ (7 * (len + rest))) :
    signedNumber true (len + rest) m < signedNumber true len m' * 256 ^ rest := by
  have hhalf := half_mul_le hlen'.one_le hrest
  have htwice : 2 ^ (7 * len) = 2 * 2 ^ (7 * len - 1) := by
    rw [← pow_succ']
    congr 1
    have := hlen'.one_le
    omega
  have hless : 2 ^ (7 * len - 1) ≤ 2 ^ (7 * len) - 1 - m' := by
    have := hlen'.lt
    omega
  have hscaled := Nat.mul_le_mul_right (256 ^ rest) hless
  rw [signedNumber_true hm, signedNumber_true hlen'.lt_pow]
  have := Nat.two_pow_pos (7 * (len + rest))
  omega

/-- The first byte tells the sign. -/
theorem diverges_of_sign {len len' m m' : ℕ} (hlen : EncodingLength m len)
    (hlen' : EncodingLength m' len') :
    Diverges (bigEndian len (signedNumber true len m))
      (bigEndian len' (signedNumber false len' m')) := by
  obtain ⟨rest, rfl⟩ := Nat.exists_eq_add_of_le hlen.one_le
  obtain ⟨rest', rfl⟩ := Nat.exists_eq_add_of_le hlen'.one_le
  have hpos : ∀ rest, 0 < 256 ^ rest := fun rest => Nat.pow_pos (by decide)
  have hfirst : signedNumber true (1 + rest) m / 256 ^ rest < 128 := by
    rw [Nat.div_lt_iff_lt_mul (hpos rest), signedNumber_true hlen.lt_pow]
    have hpow : 2 ^ (7 * (1 + rest)) ≤ 128 * 256 ^ rest := by
      rw [show 256 = 2 ^ 8 from rfl, show 128 = 2 ^ 7 from rfl, ← pow_mul, ← pow_add]
      exact Nat.pow_le_pow_right (by decide) (by omega)
    have := Nat.two_pow_pos (7 * (1 + rest))
    omega
  have hfirst' : 128 ≤ signedNumber false (1 + rest') m' / 256 ^ rest' := by
    rw [Nat.le_div_iff_mul_le (hpos rest'), signedNumber_false]
    have hpow : 128 * 256 ^ rest' ≤ header (1 + rest') := by
      rw [header, show 256 = 2 ^ 8 from rfl, show 128 = 2 ^ 7 from rfl, ← pow_mul, ← pow_add,
        show 7 + 8 * rest' = 7 * (1 + rest') + rest' by ring, pow_add (2 : ℕ) (7 * (1 + rest'))]
      refine Nat.mul_le_mul_left _ ?_
      have := Nat.two_pow_pos rest'
      rw [pow_add]
      omega
    omega
  have hbound : signedNumber false (1 + rest') m' / 256 ^ rest' < 256 ^ 1 := by
    rw [Nat.div_lt_iff_lt_mul (hpos rest'), ← pow_add]
    exact signedNumber_lt false hlen'.lt_pow
  rw [bigEndian_add, bigEndian_add]
  exact (diverges_bigEndian hbound (by omega)).append _ _

/-- **The order of signed numbers.** -/
theorem diverges_writeSignedNumIncreasing {val val' : ℤ} (hval : magnitude val < 2 ^ 63)
    (hval' : magnitude val' < 2 ^ 63) (hlt : val < val') :
    Diverges (writeSignedNumIncreasing val) (writeSignedNumIncreasing val') := by
  have hlen := encodingLength hval
  have hlen' := encodingLength hval'
  rw [writeSignedNumIncreasing_eq hval, writeSignedNumIncreasing_eq hval']
  generalize signedEncodingLength val = len at hlen ⊢
  generalize signedEncodingLength val' = len' at hlen' ⊢
  by_cases hneg : val < 0
  · have hm := magnitude_of_neg hneg
    rw [decide_eq_true hneg]
    by_cases hneg' : val' < 0
    · have hm' := magnitude_of_neg hneg'
      rw [decide_eq_true hneg']
      obtain ⟨rest, rfl⟩ := Nat.exists_eq_add_of_le (hlen'.mono hlen (by omega))
      obtain rfl | hrest := Nat.eq_zero_or_pos rest
      · refine diverges_bigEndian (signedNumber_lt true hlen'.lt_pow) ?_
        have := hlen.lt_pow
        rw [signedNumber_true hlen.lt_pow, signedNumber_true hlen'.lt_pow, Nat.add_zero]
        rw [Nat.add_zero] at this
        omega
      · exact diverges_bigEndian_of_longer (signedNumber_lt true hlen'.lt_pow)
          (negative_gap hlen' hrest hlen.lt_pow)
    · rw [decide_eq_false hneg']
      exact diverges_of_sign hlen hlen'
  · have hm := magnitude_of_nonneg hneg
    have hneg' : ¬ val' < 0 := by omega
    have hm' := magnitude_of_nonneg hneg'
    rw [decide_eq_false hneg, decide_eq_false hneg']
    obtain ⟨rest, rfl⟩ := Nat.exists_eq_add_of_le (hlen.mono hlen' (by omega))
    obtain rfl | hrest := Nat.eq_zero_or_pos rest
    · refine diverges_bigEndian (signedNumber_lt false hlen'.lt_pow) ?_
      rw [signedNumber_false, signedNumber_false, Nat.add_zero]
      omega
    · refine diverges_bigEndian_of_shorter (signedNumber_lt false hlen'.lt_pow) ?_
      rw [signedNumber_false, signedNumber_false]
      exact header_gap hlen hrest

/-! ## Signed numbers: reading -/

/-- What inverts the bytes of a negative number. -/
def signMask (negative : Bool) : UInt8 := if negative then 0xff else 0

theorem bigEndian_signBits (negative : Bool) (len : ℕ) :
    bigEndian len (signBits negative (8 * len)) = .replicate len (signMask negative) := by
  induction len with
  | zero => rfl
  | succ len ih =>
      have hhigh : signBits negative (8 * (len + 1)) / 256 = signBits negative (8 * len) := by
        cases negative with
        | false => exact Nat.zero_div 256
        | true =>
            have := Nat.two_pow_pos (8 * len)
            rw [signBits, signBits, if_pos rfl, if_pos rfl, Nat.mul_succ, pow_add]
            omega
      have hlow : UInt8.ofNat (signBits negative (8 * (len + 1))) = signMask negative := by
        rw [← ofNat_mod, show 256 = 2 ^ 8 from rfl, Nat.mul_succ, Nat.add_comm, signBits_mod]
        cases negative <;> rfl
      rw [bigEndian, hhigh, ih, hlow, List.replicate_succ']

theorem getD_signedNumber {len i : ℕ} (hi : i < len) (negative : Bool) (m : ℕ)
    (rest : List UInt8) :
    (bigEndian len (signedNumber negative len m) ++ rest).getD i 0 ^^^ signMask negative =
      UInt8.ofNat ((header len + m) / 256 ^ (len - 1 - i)) := by
  have hsign : UInt8.ofNat (signBits negative (8 * len) / 256 ^ (len - 1 - i)) =
      signMask negative := by
    rw [← getD_bigEndian hi _ [] 0, List.append_nil, bigEndian_signBits]
    simp [hi]
  rw [getD_bigEndian hi, signedNumber, ← pow_eight_mul, Nat.xor_div_two_pow, pow_eight_mul,
    UInt8.ofNat_xor, hsign, UInt8.xor_comm, ← UInt8.xor_assoc, UInt8.xor_self, UInt8.zero_xor]

/-- A byte is put below the bytes that are there. -/
theorem or_shifted_byte (w bits : ℕ) :
    2 ^ (bits + 8) * (w / 2 ^ (bits + 8)) ||| (w / 2 ^ bits % 2 ^ 8) <<< bits =
      2 ^ bits * (w / 2 ^ bits) := by
  have hbyte : (w / 2 ^ bits % 2 ^ 8) * 2 ^ bits < 2 ^ (bits + 8) := by
    rw [pow_add, Nat.mul_comm (2 ^ bits)]
    exact Nat.mul_lt_mul_of_pos_right (Nat.mod_lt _ (by decide)) (Nat.two_pow_pos bits)
  rw [Nat.shiftLeft_eq, ← Nat.two_pow_add_eq_or_of_lt hbyte]
  calc 2 ^ (bits + 8) * (w / 2 ^ (bits + 8)) + w / 2 ^ bits % 2 ^ 8 * 2 ^ bits
      = 2 ^ bits * (2 ^ 8 * (w / 2 ^ bits / 2 ^ 8) + w / 2 ^ bits % 2 ^ 8) := by
        rw [Nat.div_div_eq_div_mul, ← pow_add]
        ring
    _ = 2 ^ bits * (w / 2 ^ bits) := by rw [Nat.div_add_mod]

theorem loadBigEndian64_eq (v : ℕ) (rest : List UInt8) :
    loadBigEndian64 (bigEndian 8 v ++ rest) = v % 2 ^ 64 := by
  rw [← bigEndian_mod 8 v, show 256 ^ 8 = 2 ^ 64 from rfl]
  have hw := Nat.mod_lt v (Nat.two_pow_pos 64)
  generalize v % 2 ^ 64 = w at hw
  have hfold : ∀ count ≤ 8, (List.range count).foldl (fun result i =>
      result ||| ((bigEndian 8 w ++ rest).getD i 0).toNat <<< (56 - 8 * i)) 0 =
        2 ^ (64 - 8 * count) * (w / 2 ^ (64 - 8 * count)) := by
    intro count
    induction count with
    | zero =>
        intro _
        rw [Nat.div_eq_of_lt hw]
        rfl
    | succ count ih =>
        intro hcount
        have hbyte : ((bigEndian 8 w ++ rest).getD count 0).toNat =
            w / 2 ^ (56 - 8 * count) % 2 ^ 8 := by
          rw [getD_bigEndian (by omega), UInt8.toNat_ofNat', ← pow_eight_mul]
          congr 3
          omega
        rw [List.range_succ, List.foldl_append, ih (by omega), List.foldl_cons, List.foldl_nil,
          hbyte, show 64 - 8 * count = (56 - 8 * count) + 8 by omega, or_shifted_byte,
          show 64 - 8 * (count + 1) = 56 - 8 * count by omega]
  exact (hfold 8 le_rfl).trans (by simp)

/-- The first byte of a signed number tells its sign. -/
theorem sign_test {t : ℕ} (hlow : 128 ≤ t) (hhigh : t < 256) {first : UInt8} {negative : Bool}
    (hfirst : first ^^^ signMask negative = UInt8.ofNat t) :
    decide (first &&& 0x80 = 0) = negative := by
  have htable : ∀ t < 256, 128 ≤ t → ∀ negative,
      decide ((UInt8.ofNat t ^^^ signMask negative) &&& 0x80 = 0) = negative := by
    decide +kernel
  rw [← htable t hhigh hlow negative, ← hfirst, UInt8.xor_assoc, UInt8.xor_self, UInt8.xor_zero]

/-- A first byte with a bit that is not set tells the length. -/
theorem short_length {len t : ℕ} (hone : 1 ≤ len) (hlen : len ≤ 7) (hlow : 256 - 2 ^ (8 - len) ≤ t)
    (hhigh : t < 256 - 2 ^ (7 - len)) :
    UInt8.ofNat t ≠ 0xff ∧ (7 - log2Floor64 (UInt8.ofNat t ^^^ 0xff).toNat).toNat = len := by
  have htable : ∀ len < 8, 1 ≤ len → ∀ t < 256 - 2 ^ (7 - len), 256 - 2 ^ (8 - len) ≤ t →
      UInt8.ofNat t ≠ 0xff ∧ (7 - log2Floor64 (UInt8.ofNat t ^^^ 0xff).toNat).toNat = len := by
    decide +kernel
  exact htable len (by omega) hone t hhigh hlow

section Reading

variable {m len : ℕ} {negative : Bool}

section

variable (hlen : EncodingLength m len)

include hlen

theorem first_byte :
    128 ≤ (header len + m) / 256 ^ (len - 1) ∧ (header len + m) / 256 ^ (len - 1) < 256 := by
  obtain ⟨hone, hten, hlt, -⟩ := hlen
  have hsplit := header_add_pow len
  interval_cases len <;> simp only [Nat.reduceMul, Nat.reducePow, Nat.reduceSub] at * <;> omega

theorem first_byte_short (hshort : len ≤ 7) :
    256 - 2 ^ (8 - len) ≤ (header len + m) / 256 ^ (len - 1) ∧
      (header len + m) / 256 ^ (len - 1) < 256 - 2 ^ (7 - len) := by
  obtain ⟨hone, hten, hlt, -⟩ := hlen
  have hsplit := header_add_pow len
  interval_cases len <;> simp only [Nat.reduceMul, Nat.reducePow, Nat.reduceSub] at * <;> omega

theorem first_byte_long (hlong : 8 ≤ len) : (header len + m) / 256 ^ (len - 1) = 255 := by
  obtain ⟨hone, hten, hlt, -⟩ := hlen
  have hsplit := header_add_pow len
  interval_cases len <;> simp only [Nat.reduceMul, Nat.reducePow, Nat.reduceSub] at * <;> omega

/-- The bytes after a first byte of ones tell the length. -/
theorem longLength_eq (hm : m < 2 ^ 63) (hlong : 8 ≤ len) (rest : List UInt8) :
    longLength (bigEndian len (signedNumber negative len m) ++ rest) (signMask negative) =
      some len := by
  obtain ⟨hone, hten, hlt, -⟩ := hlen
  have hsecond := getD_signedNumber (show 1 < len by omega) negative m rest
  have hthird := getD_signedNumber (show 2 < len by omega) negative m rest
  have hsplit := header_add_pow len
  have hmiddle : UInt8.toNat 0x80 = 128 := rfl
  have hupper : UInt8.toNat 0xc0 = 192 := rfl
  simp only [longLength, hsecond, hthird, UInt8.le_iff_toNat_le, UInt8.lt_iff_toNat_lt,
    ← UInt8.toNat_inj, UInt8.toNat_ofNat', hmiddle, hupper]
  clear hsecond hthird
  interval_cases len <;> simp only [Nat.reduceMul, Nat.reducePow, Nat.reduceSub] at * <;>
    split_ifs <;> first | rfl | exact absurd hsplit (by omega)

/-- Shifting in all bytes extends the sign. -/
theorem foldl_signedNumber (hshort : len ≤ 7) :
    (bigEndian len (signedNumber negative len m)).foldl shiftByte (signBits negative 64) =
      signBits negative 64 ^^^ ((header len + m) % 2 ^ 64) := by
  have hbelow := header_add_lt hlen.lt_pow
  have hsmall : 256 ^ len ≤ 2 ^ 56 := by
    rw [← pow_eight_mul]
    exact Nat.pow_le_pow_right (by decide) (by omega)
  have hsign : signBits negative 64 < 2 ^ 64 := by cases negative <;> decide
  rw [foldl_shiftByte hsign, length_bigEndian, ofBigEndian_bigEndian,
    Nat.mod_eq_of_lt (signedNumber_lt negative hlen.lt_pow),
    Nat.mod_eq_of_lt (a := header len + m) (by omega)]
  cases negative with
  | false =>
      rw [signedNumber_false, signBits, if_neg Bool.false_ne_true, Nat.zero_mul, Nat.zero_add,
        Nat.zero_xor, Nat.mod_eq_of_lt (by omega)]
  | true =>
      have hones := ones_xor (k := 64) (m := header len + m) (by omega)
      have hones' := ones_xor (k := 8 * len) (m := header len + m) (by rwa [pow_eight_mul])
      rw [pow_eight_mul] at hones'
      rw [signedNumber, signBits, signBits, if_pos rfl, if_pos rfl, pow_eight_mul, hones, hones']
      generalize header len + m = y at hbelow
      generalize 256 ^ len = k at hbelow hsmall
      rw [show (2 ^ 64 - 1) * k + (k - 1 - y) = 2 ^ 64 * (k - 1) + (2 ^ 64 - 1 - y) by omega,
        Nat.mul_add_mod, Nat.mod_eq_of_lt (by omega)]

theorem readRaw_eq (hm : m < 2 ^ 63) (rest : List UInt8) {first : UInt8}
    (hfirst : first = (bigEndian len (signedNumber negative len m) ++ rest).getD 0 0) :
    readRaw (bigEndian len (signedNumber negative len m) ++ rest) first =
      some (len, signBits negative 64 ^^^ ((header len + m) % 2 ^ 64)) := by
  have hfirst := hfirst ▸ getD_signedNumber hlen.one_le negative m rest
  obtain ⟨hlow, hhigh⟩ := first_byte hlen
  have hsign := sign_test hlow hhigh hfirst
  have hmask : (if negative = true then 0xff else 0) = signMask negative := rfl
  have hbits : (if negative = true then 2 ^ 64 - 1 else 0) = signBits negative 64 := rfl
  simp only [readRaw, hsign, hmask, hbits, hfirst, Nat.sub_zero]
  by_cases hshort : len ≤ 7
  · obtain ⟨hlow, hhigh⟩ := first_byte_short hlen hshort
    obtain ⟨hne, hlength⟩ := short_length hlen.one_le hshort hlow hhigh
    rw [if_pos hne, hlength, if_neg (by simp), List.take_left' (length_bigEndian _ _),
      foldl_signedNumber hlen hshort]
  · have hlong : 8 ≤ len := by omega
    rw [first_byte_long hlen hlong, if_neg (by decide), if_neg (by simp; omega),
      longLength_eq hlen hm hlong]
    obtain ⟨more, rfl⟩ := Nat.exists_eq_add_of_le hlong
    have hdrop : (bigEndian (8 + more) (signedNumber negative (8 + more) m) ++ rest).drop
        (8 + more - 8) = bigEndian 8 (signedNumber negative (8 + more) m) ++ rest := by
      rw [Nat.add_sub_cancel_left, List.drop_append_of_le_length (by simp), Nat.add_comm 8 more,
        drop_bigEndian]
    show (if _ then none else _) = _
    rw [if_neg (by simp), hdrop, loadBigEndian64_eq, signedNumber, Nat.xor_mod_two_pow, Nat.mul_add,
      signBits_mod]

end

end Reading

/-- Taking the header bits away leaves the number. -/
theorem mask_header {val : ℤ} (hval : magnitude val < 2 ^ 63) :
    (signBits (val < 0) 64 ^^^
        ((header (signedEncodingLength val) + magnitude val) % 2 ^ 64)) ^^^
      kLengthToMask.getD (signedEncodingLength val) 0 = toUint64 val := by
  have hlen := encodingLength hval
  have htable : ∀ len < 11, 1 ≤ len → kLengthToMask.getD len 0 = header len % 2 ^ 64 := by
    decide
  rw [htable _ (Nat.lt_succ_of_le hlen.le_ten) hlen.one_le, toUint64_eq hval, header,
    ← shifted_xor hlen.lt_pow, ← header, Nat.xor_mod_two_pow, Nat.xor_comm (header _ % _),
    Nat.xor_assoc, Nat.xor_assoc, Nat.xor_self, Nat.xor_zero,
    Nat.mod_eq_of_lt (a := magnitude val) (by omega)]

theorem toInt64_toUint64 {val : ℤ} (hval : magnitude val < 2 ^ 63) :
    toInt64 (toUint64 val) = val := by
  rw [toInt64, toUint64]
  by_cases hneg : val < 0
  · have := magnitude_of_neg hneg
    rw [if_neg (by omega)]
    omega
  · have := magnitude_of_nonneg hneg
    rw [if_pos (by omega)]
    omega

/-- **Signed numbers are read back.** -/
theorem readSignedNumIncreasing_write (debug : Bool) {val : ℤ} (hval : magnitude val < 2 ^ 63)
    (rest : List UInt8) :
    readSignedNumIncreasing debug (writeSignedNumIncreasing val ++ rest) = some (val, rest) := by
  have hlen := encodingLength hval
  have hsource := writeSignedNumIncreasing_eq hval
  obtain ⟨first, src, hsrc⟩ : ∃ first src, writeSignedNumIncreasing val ++ rest = first :: src := by
    refine List.exists_cons_of_ne_nil fun hempty => ?_
    have hlength := congrArg List.length hempty
    rw [hsource, List.length_append, length_bigEndian, List.length_nil] at hlength
    have := hlen.one_le
    omega
  have hfirst : first = (bigEndian (signedEncodingLength val) (signedNumber (val < 0)
      (signedEncodingLength val) (magnitude val)) ++ rest).getD 0 0 := by
    rw [← hsource, hsrc]
    rfl
  have hraw := readRaw_eq hlen hval rest hfirst
  rw [← hsource, hsrc] at hraw
  have hdrop : (first :: src).drop (signedEncodingLength val) = rest := by
    rw [← hsrc, hsource, List.drop_left' (length_bigEndian _ _)]
  rw [hsrc, readSignedNumIncreasing, hraw]
  show (if _ then none else _) = _
  rw [mask_header hval, toInt64_toUint64 hval, hdrop, if_neg (fun hcheck => hcheck.2 rfl)]

/-! ## Items -/

theorem magnitude_lt (val : Int64) : magnitude val.toInt < 2 ^ 63 := by
  have hlt := val.toInt_lt
  have hle := val.le_toInt
  by_cases hneg : val.toInt < 0
  · have := magnitude_of_neg hneg
    omega
  · have := magnitude_of_nonneg hneg
    omega

theorem diverges_write (item item' : Item) (hless : item.Less item') :
    Diverges item.write item'.write := by
  cases item <;> cases item' <;> try exact absurd hless id
  case string.string s t => exact diverges_writeString hless
  case num.num val val' =>
      exact diverges_writeNumIncreasing val'.toNat_lt (UInt64.lt_iff_toNat_lt.mp hless)
  case signedNum.signedNum val val' =>
      exact diverges_writeSignedNumIncreasing (magnitude_lt val) (magnitude_lt val')
        (Int64.lt_iff_toInt_lt.mp hless)

theorem less_total (item item' : Item) (hkind : item.kind = item'.kind) :
    item.Less item' ∨ item = item' ∨ item'.Less item := by
  cases item <;> cases item' <;> try cases hkind
  case string.string s t =>
      exact (Std.lt_trichotomy s t).imp id (Or.imp (congrArg _) id)
  case num.num val val' =>
      obtain hlt | heq | hlt := Nat.lt_trichotomy val.toNat val'.toNat
      · exact .inl (UInt64.lt_iff_toNat_lt.mpr hlt)
      · exact .inr (.inl (congrArg _ (UInt64.toNat_inj.mp heq)))
      · exact .inr (.inr (UInt64.lt_iff_toNat_lt.mpr hlt))
  case signedNum.signedNum val val' =>
      obtain hlt | heq | hlt := Int.lt_trichotomy val.toInt val'.toInt
      · exact .inl (Int64.lt_iff_toInt_lt.mpr hlt)
      · exact .inr (.inl (congrArg _ (Int64.toInt_inj.mp heq)))
      · exact .inr (.inr (Int64.lt_iff_toInt_lt.mpr hlt))

theorem read_write (debug : Bool) (item : Item) (rest : List UInt8) :
    item.kind.read debug (item.write ++ rest) = some (item, rest) := by
  cases item with
  | string s => simp [Item.kind, Item.write, Kind.read, readString_writeString]
  | num val =>
      simp [Item.kind, Item.write, Kind.read, readNumIncreasing_write debug val.toNat_lt]
  | signedNum val =>
      simp [Item.kind, Item.write, Kind.read,
        readSignedNumIncreasing_write debug (magnitude_lt val)]

theorem readItems_writeItems (debug : Bool) (items : List Item) (rest : List UInt8) :
    readItems debug (items.map Item.kind) (writeItems items ++ rest) = some (items, rest) := by
  induction items with
  | nil => rfl
  | cons item items ih =>
      rw [writeItems, List.flatMap_cons, List.append_assoc, ← writeItems, List.map_cons, readItems,
        read_write]
      show (readItems _ _ _).bind _ = _
      rw [ih]
      rfl

/-- **Ordered encodings.** The encodings of two sequences of items of the same kinds
compare as the sequences do, neither is a prefix of the other one unless the sequences
are equal, and what is read from an encoding, whatever follows it, is the sequence and
what follows. -/
theorem ordered_items (debug : Bool) (items items' : List Item)
    (hkinds : items.map Item.kind = items'.map Item.kind) :
    (writeItems items < writeItems items' ↔ List.Lex Item.Less items items') ∧
      (writeItems items <+: writeItems items' → items = items') ∧
      ∀ rest, readItems debug (items.map Item.kind) (writeItems items ++ rest) =
        some (items, rest) := by
  obtain ⟨horder, hinitial⟩ := order_flatMap diverges_write less_total hkinds
  exact ⟨horder, hinitial, readItems_writeItems debug items⟩

/-- Two sequences of three items that differ in the last one. -/
theorem ordered_triples :
    [Item.string [0, 255], .num 256, .signedNum (-65)].map Item.kind =
        [Item.string [0, 255], .num 256, .signedNum 64].map Item.kind ∧
      writeItems [.string [0, 255], .num 256, .signedNum (-65)] <
        writeItems [.string [0, 255], .num 256, .signedNum 64] := by
  have hless : Item.Less (.signedNum (-65)) (.signedNum 64) := by
    show (-65 : Int64) < 64
    decide
  have hordered := ordered_items true [.string [0, 255], .num 256, .signedNum (-65)]
    [.string [0, 255], .num 256, .signedNum 64] rfl
  exact ⟨rfl, hordered.1.mpr (.cons (.cons (.rel hless)))⟩

end ContainerScheduler.Analysis
