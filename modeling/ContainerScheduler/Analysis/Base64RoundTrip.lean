/-
# Base64 is read back

A group of four characters is decoded exactly when all of them belong to the alphabet: the value of
any other character has its upper bits set, and they end up above the 24 bits of the group. The
buffers are never overrun.
-/

import ContainerScheduler.Strings.Base64
import Mathlib.Data.FinEnum
import Mathlib.Data.Nat.Bitwise

namespace ContainerScheduler.Analysis

open Strings

/-! ## Characters -/

/-- The letters, the digits, the hyphen and the underscore. -/
def WebSafe (c : UInt8) : Prop :=
  65 ≤ c.toNat ∧ c.toNat ≤ 90 ∨ 97 ≤ c.toNat ∧ c.toNat ≤ 122 ∨ 48 ≤ c.toNat ∧ c.toNat ≤ 57 ∨
    c.toNat = 45 ∨ c.toNat = 95

instance (c : UInt8) : Decidable (WebSafe c) := inferInstanceAs (Decidable (_ ∨ _))

/-- A fact about bytes is decided by looking at all of them. -/
theorem forall_byte {P : UInt8 → Prop} (hall : ∀ n < 256, P (UInt8.ofNat n)) (c : UInt8) : P c := by
  have hc := hall c.toNat c.toNat_lt
  rwa [UInt8.ofNat_toNat] at hc

theorem convert_of_webSafe (c : UInt8) : WebSafe c → (convert c).toNat < 64 :=
  forall_byte (P := fun c => WebSafe c → (convert c).toNat < 64) (by decide +kernel) c

/-- At least the upper 25 bits are set. -/
theorem convert_of_not_webSafe (c : UInt8) : ¬ WebSafe c → 2 ^ 32 - 128 ≤ (convert c).toNat :=
  forall_byte (P := fun c => ¬ WebSafe c → 2 ^ 32 - 128 ≤ (convert c).toNat) (by decide +kernel) c

theorem webSafe_base64Char {index : UInt8} (hindex : index.toNat < 64) :
    WebSafe (base64Char index) ∧ (convert (base64Char index)).toNat = index.toNat := by
  have hall : ∀ n < 64, WebSafe (base64Char (UInt8.ofNat n)) ∧
      (convert (base64Char (UInt8.ofNat n))).toNat = n := by decide +kernel
  have hchar := hall index.toNat hindex
  rwa [UInt8.ofNat_toNat] at hchar

theorem not_webSafe_kPadChar : ¬ WebSafe kPadChar := by decide

/-! ## Groups -/

/-- The 24 bits of a group. -/
def packed (c₀ c₁ c₂ c₃ : UInt8) : ℕ :=
  (convert c₀).toNat * 2 ^ 18 + (convert c₁).toNat * 2 ^ 12 + (convert c₂).toNat * 2 ^ 6 +
    (convert c₃).toNat

/-- The three bytes of 24 bits. -/
def threeBytes (bits : ℕ) : List UInt8 :=
  [UInt8.ofNat (bits / 2 ^ 16), UInt8.ofNat (bits / 2 ^ 8), UInt8.ofNat bits]

theorem and_upper {x : ℕ} (hx : x < 2 ^ 32) : x &&& 0xFF000000 = x / 2 ^ 24 * 2 ^ 24 := by
  have hhigh : (x &&& 0xFF000000) / 2 ^ 24 = x / 2 ^ 24 := by
    rw [Nat.and_div_two_pow]
    have hmod := Nat.and_two_pow_sub_one_eq_mod (x / 2 ^ 24) 8
    exact hmod.trans (Nat.mod_eq_of_lt (by omega))
  have hlow : (x &&& 0xFF000000) % 2 ^ 24 = 0 := by
    rw [Nat.and_mod_two_pow]
    exact Nat.and_zero _
  omega

/-- The word that `DecodeThreeChars` computes. -/
def packedWord (c₀ c₁ c₂ c₃ : UInt8) : UInt32 :=
  (convert c₀ <<< 18) ||| (convert c₁ <<< 12) ||| (convert c₂ <<< 6) ||| convert c₃

theorem toNat_packedWord (c₀ c₁ c₂ c₃ : UInt8) : (packedWord c₀ c₁ c₂ c₃).toNat =
    (convert c₀).toNat * 2 ^ 18 % 2 ^ 32 ||| (convert c₁).toNat * 2 ^ 12 % 2 ^ 32 |||
      (convert c₂).toNat * 2 ^ 6 % 2 ^ 32 ||| (convert c₃).toNat := by
  rw [← Nat.shiftLeft_eq, ← Nat.shiftLeft_eq, ← Nat.shiftLeft_eq]
  rfl

/-- The test of the upper byte. -/
theorem upper_eq_zero_iff (word : UInt32) : word &&& 0xFF000000 = 0 ↔ word.toNat < 2 ^ 24 := by
  have hupper : (word &&& 0xFF000000).toNat = word.toNat / 2 ^ 24 * 2 ^ 24 :=
    and_upper word.toNat_lt
  rw [← UInt32.toNat_inj, hupper]
  change word.toNat / 2 ^ 24 * 2 ^ 24 = 0 ↔ _
  omega

theorem shifted_or {low shift : ℕ} (hlow : low < 2 ^ shift) (high : ℕ) :
    high * 2 ^ shift ||| low = high * 2 ^ shift + low := by
  rw [Nat.mul_comm, ← Nat.two_pow_add_eq_or_of_lt hlow]

/-- Groups of six bits do not overlap. -/
theorem or_sextets {a b c d : ℕ} (ha : a < 64) (hb : b < 64) (hc : c < 64) (hd : d < 64) :
    a * 2 ^ 18 % 2 ^ 32 ||| b * 2 ^ 12 % 2 ^ 32 ||| c * 2 ^ 6 % 2 ^ 32 ||| d =
      a * 2 ^ 18 + b * 2 ^ 12 + c * 2 ^ 6 + d := by
  have hmoda : a * 2 ^ 18 % 2 ^ 32 = a * 2 ^ 18 := Nat.mod_eq_of_lt (by omega)
  have hmodb : b * 2 ^ 12 % 2 ^ 32 = b * 2 ^ 12 := Nat.mod_eq_of_lt (by omega)
  have hmodc : c * 2 ^ 6 % 2 ^ 32 = c * 2 ^ 6 := Nat.mod_eq_of_lt (by omega)
  have hab : a * 2 ^ 18 ||| b * 2 ^ 12 = (a * 2 ^ 6 + b) * 2 ^ 12 := by
    rw [shifted_or (show b * 2 ^ 12 < 2 ^ 18 by omega)]
    omega
  have habc : (a * 2 ^ 6 + b) * 2 ^ 12 ||| c * 2 ^ 6 =
      ((a * 2 ^ 6 + b) * 2 ^ 6 + c) * 2 ^ 6 := by
    rw [shifted_or (show c * 2 ^ 6 < 2 ^ 12 by omega)]
    omega
  rw [hmoda, hmodb, hmodc, hab, habc, shifted_or (show d < 2 ^ 6 by omega)]
  omega

theorem toNat_packedWord_of_webSafe {c₀ c₁ c₂ c₃ : UInt8} (h₀ : WebSafe c₀) (h₁ : WebSafe c₁)
    (h₂ : WebSafe c₂) (h₃ : WebSafe c₃) :
    (packedWord c₀ c₁ c₂ c₃).toNat = packed c₀ c₁ c₂ c₃ := by
  rw [toNat_packedWord]
  exact or_sextets (convert_of_webSafe c₀ h₀) (convert_of_webSafe c₁ h₁)
    (convert_of_webSafe c₂ h₂) (convert_of_webSafe c₃ h₃)

theorem packed_block_lt {c₀ c₁ c₂ c₃ : UInt8} (h₀ : WebSafe c₀) (h₁ : WebSafe c₁) (h₂ : WebSafe c₂)
    (h₃ : WebSafe c₃) : packed c₀ c₁ c₂ c₃ < 2 ^ 24 := by
  have hv₀ := convert_of_webSafe c₀ h₀
  have hv₁ := convert_of_webSafe c₁ h₁
  have hv₂ := convert_of_webSafe c₂ h₂
  have hv₃ := convert_of_webSafe c₃ h₃
  rw [packed]
  omega

theorem decodeThreeChars_of_webSafe {c₀ c₁ c₂ c₃ : UInt8} (h₀ : WebSafe c₀) (h₁ : WebSafe c₁)
    (h₂ : WebSafe c₂) (h₃ : WebSafe c₃) :
    decodeThreeChars c₀ c₁ c₂ c₃ = .ok (threeBytes (packed c₀ c₁ c₂ c₃)) := by
  have hword := toNat_packedWord_of_webSafe h₀ h₁ h₂ h₃
  have hupper := (upper_eq_zero_iff _).mpr (hword ▸ packed_block_lt h₀ h₁ h₂ h₃)
  have hbyte : ∀ shift : ℕ, shift < 32 → (packedWord c₀ c₁ c₂ c₃ >>> UInt32.ofNat shift).toUInt8 =
      UInt8.ofNat (packed c₀ c₁ c₂ c₃ / 2 ^ shift) := by
    intro shift hshift
    apply UInt8.toNat_inj.mp
    rw [UInt32.toNat_toUInt8, UInt32.toNat_shiftRight,
      UInt32.toNat_ofNat_of_lt' (hshift.trans (by decide)), Nat.mod_eq_of_lt hshift,
      Nat.shiftRight_eq_div_pow, hword, UInt8.toNat_ofNat']
  have hlast : (packedWord c₀ c₁ c₂ c₃).toUInt8 = UInt8.ofNat (packed c₀ c₁ c₂ c₃) := by
    apply UInt8.toNat_inj.mp
    rw [UInt32.toNat_toUInt8, hword, UInt8.toNat_ofNat']
  rw [threeBytes, ← hbyte 16 (by decide), ← hbyte 8 (by decide), ← hlast, decodeThreeChars]
  exact if_neg (not_not.mpr hupper)

/-- One other character is enough to set a bit of the upper byte. -/
theorem decodeThreeChars_of_not_webSafe {c₀ c₁ c₂ c₃ : UInt8}
    (h : ¬ (WebSafe c₀ ∧ WebSafe c₁ ∧ WebSafe c₂ ∧ WebSafe c₃)) :
    decodeThreeChars c₀ c₁ c₂ c₃ =
      .error (.invalidArgument "Invalid character found in base64.") := by
  have hupper : ¬ packedWord c₀ c₁ c₂ c₃ &&& 0xFF000000 = 0 := by
    rw [upper_eq_zero_iff, toNat_packedWord, not_lt]
    have hlt₀ := (convert c₀).toNat_lt
    have hlt₁ := (convert c₁).toNat_lt
    have hlt₂ := (convert c₂).toNat_lt
    rw [not_and_or, not_and_or, not_and_or] at h
    rcases h with h | h | h | h
    · have hset := convert_of_not_webSafe c₀ h
      refine le_trans ?_ (Nat.left_le_or.trans (Nat.left_le_or.trans Nat.left_le_or))
      omega
    · have hset := convert_of_not_webSafe c₁ h
      refine le_trans ?_ (Nat.right_le_or.trans (Nat.left_le_or.trans Nat.left_le_or))
      omega
    · have hset := convert_of_not_webSafe c₂ h
      refine le_trans ?_ (Nat.right_le_or.trans Nat.left_le_or)
      omega
    · have hset := convert_of_not_webSafe c₃ h
      refine le_trans ?_ Nat.right_le_or
      omega
  rw [decodeThreeChars]
  exact if_pos hupper

/-! ## The loop of the decoder -/

def invalidCharacter : Base64Error := .invalidArgument "Invalid character found in base64."

section Loop

variable {size : ℕ} {written rest last : List UInt8} {c₀ c₁ c₂ c₃ : UInt8}

theorem writeBytes_of_le {bytes : List UInt8} (hsize : written.length + bytes.length ≤ size) :
    writeBytes size written bytes = .ok (written ++ bytes) :=
  if_pos hsize

/-- A group that is followed by more. -/
theorem decodeLoop_group (hrest : rest ≠ []) (h₀ : WebSafe c₀) (h₁ : WebSafe c₁) (h₂ : WebSafe c₂)
    (h₃ : WebSafe c₃) (hsize : written.length + 3 ≤ size) :
    decodeLoop size (c₀ :: c₁ :: c₂ :: c₃ :: rest) written =
      decodeLoop size rest (written ++ threeBytes (packed c₀ c₁ c₂ c₃)) := by
  obtain ⟨c₄, rest, rfl⟩ := List.exists_cons_of_ne_nil hrest
  rw [decodeLoop, decodeThreeChars_of_webSafe h₀ h₁ h₂ h₃]
  change (writeBytes size written _ >>= _) = _
  rw [writeBytes_of_le hsize]
  rfl

theorem decodeLoop_bad_group (hrest : rest ≠ [])
    (h : ¬ (WebSafe c₀ ∧ WebSafe c₁ ∧ WebSafe c₂ ∧ WebSafe c₃)) :
    decodeLoop size (c₀ :: c₁ :: c₂ :: c₃ :: rest) written = .error invalidCharacter := by
  obtain ⟨c₄, rest, rfl⟩ := List.exists_cons_of_ne_nil hrest
  rw [decodeLoop, decodeThreeChars_of_not_webSafe h]
  rfl

theorem decodeLoop_last (hlast : last.length ≤ 4) :
    decodeLoop size last written = .ok (last, written) := by
  match last with
  | [] | [_] | [_, _] | [_, _, _] | [_, _, _, _] => rfl
  | _ :: _ :: _ :: _ :: _ :: _ =>
      simp only [List.length_cons] at hlast
      omega

theorem decodeLoop_groups (hne : last ≠ []) (hlast : last.length ≤ 4) {groups : ℕ}
    {front : List UInt8} (hfront : front.length = 4 * groups)
    (hsize : written.length + 3 * groups ≤ size) :
    if ∀ c ∈ front, WebSafe c then
      ∃ bytes, bytes.length = 3 * groups ∧
        decodeLoop size (front ++ last) written = .ok (last, written ++ bytes)
    else decodeLoop size (front ++ last) written = .error invalidCharacter := by
  induction groups generalizing front written with
  | zero =>
      obtain rfl := List.length_eq_zero_iff.mp hfront
      rw [if_pos (by simp)]
      exact ⟨[], rfl, by rw [List.append_nil]; exact decodeLoop_last hlast⟩
  | succ groups ih =>
      match front, hfront with
      | c₀ :: c₁ :: c₂ :: c₃ :: front, hfront =>
        have hrest : front ++ last ≠ [] := by simp [hne]
        by_cases hgroup : WebSafe c₀ ∧ WebSafe c₁ ∧ WebSafe c₂ ∧ WebSafe c₃
        · have hwritten : (written ++ threeBytes (packed c₀ c₁ c₂ c₃)).length =
            written.length + 3 := by
            simp [threeBytes]
          have hlength : front.length = 4 * groups := by
            simp only [List.length_cons] at hfront
            omega
          have hnext := @ih (written ++ threeBytes (packed c₀ c₁ c₂ c₃)) front hlength (by omega)
          have hsafe : (∀ c ∈ c₀ :: c₁ :: c₂ :: c₃ :: front, WebSafe c) ↔
              ∀ c ∈ front, WebSafe c := by
            simp [hgroup.1, hgroup.2.1, hgroup.2.2.1, hgroup.2.2.2]
          rw [List.cons_append, List.cons_append, List.cons_append, List.cons_append,
            decodeLoop_group hrest hgroup.1 hgroup.2.1 hgroup.2.2.1 hgroup.2.2.2 (by omega)]
          by_cases hall : ∀ c ∈ front, WebSafe c
          · rw [if_pos hall] at hnext
            obtain ⟨bytes, hbytes, hdecoded⟩ := hnext
            rw [if_pos (hsafe.mpr hall)]
            refine ⟨threeBytes (packed c₀ c₁ c₂ c₃) ++ bytes, ?_, ?_⟩
            · rw [List.length_append, hbytes]
              simp only [threeBytes, List.length_cons, List.length_nil]
              omega
            · rw [hdecoded, List.append_assoc]
          · rw [if_neg hall] at hnext
            rw [if_neg (hsafe.not.mpr hall)]
            exact hnext
        · rw [if_neg]
          · exact decodeLoop_bad_group hrest hgroup
          · intro hsafe
            exact hgroup ⟨hsafe c₀ (by simp), hsafe c₁ (by simp), hsafe c₂ (by simp),
              hsafe c₃ (by simp)⟩

end Loop

/-! ## The last group -/

/-- The input without its padding. -/
def unpadded (data : List UInt8) : List UInt8 :=
  if 0 < data.length ∧ data.length % 4 = 0 then
    if [kPadChar, kPadChar] <:+ data then data.take (data.length - 2)
    else if [kPadChar] <:+ data then data.take (data.length - 1)
    else data
  else data

theorem suffix_append_iff {short front last : List UInt8} (hle : short.length ≤ last.length) :
    short <:+ front ++ last ↔ short <:+ last := by
  constructor
  · intro hsuffix
    exact List.suffix_of_suffix_length_le hsuffix (List.suffix_append front last) hle
  · exact fun hsuffix => hsuffix.trans (List.suffix_append front last)

theorem unpadded_append {front last : List UInt8} {groups : ℕ} (hfront : front.length = 4 * groups)
    (hne : last ≠ []) (hlast : last.length ≤ 4) :
    unpadded (front ++ last) = front ++ withoutPadding last := by
  match last with
  | [_] | [_, _] | [_, _, _] =>
      rw [unpadded, if_neg, withoutPadding]
      · simp
      · rw [List.length_append, hfront]
        simp only [List.length_cons, List.length_nil]
        omega
  | [c₀, c₁, c₂, c₃] =>
      have hmultiple : 0 < (front ++ [c₀, c₁, c₂, c₃]).length ∧
          (front ++ [c₀, c₁, c₂, c₃]).length % 4 = 0 := by
        rw [List.length_append, hfront]
        simp only [List.length_cons, List.length_nil]
        omega
      have htwo : [kPadChar, kPadChar] <:+ front ++ [c₀, c₁, c₂, c₃] ↔
          c₂ = kPadChar ∧ c₃ = kPadChar := by
        rw [suffix_append_iff (by simp)]
        simp [List.suffix_cons_iff, eq_comm (a := kPadChar)]
      have hone : [kPadChar] <:+ front ++ [c₀, c₁, c₂, c₃] ↔ c₃ = kPadChar := by
        rw [suffix_append_iff (by simp)]
        simp [List.suffix_cons_iff, eq_comm (a := kPadChar)]
      rw [unpadded, if_pos hmultiple, withoutPadding]
      by_cases hlast : c₃ = kPadChar
      · by_cases hthird : c₂ = kPadChar
        · rw [if_pos (htwo.mpr ⟨hthird, hlast⟩), if_pos ⟨hthird, hlast⟩]
          rw [List.length_append]
          exact List.take_length_add_append 2
        · rw [if_neg fun h => hthird (htwo.mp h).1, if_pos (hone.mpr hlast),
            if_neg fun h => hthird h.1, if_pos ⟨hthird, hlast⟩]
          rw [List.length_append]
          exact List.take_length_add_append 3
      · rw [if_neg fun h => hlast (htwo.mp h).2, if_neg fun h => hlast (hone.mp h),
          if_neg fun h => hlast h.2, if_neg fun h => hlast h.2]
  | _ :: _ :: _ :: _ :: _ :: _ =>
      simp only [List.length_cons] at hlast
      omega

theorem length_withoutPadding {last : List UInt8} (hne : last ≠ []) (hlast : last.length ≤ 4) :
    0 < (withoutPadding last).length ∧ (withoutPadding last).length ≤ 4 := by
  match last with
  | [_] | [_, _] | [_, _, _] => exact ⟨by simp [withoutPadding], by simp [withoutPadding]⟩
  | [c₀, c₁, c₂, c₃] =>
      rw [withoutPadding]
      split_ifs <;> simp
  | _ :: _ :: _ :: _ :: _ :: _ =>
      simp only [List.length_cons] at hlast
      omega

/-- The bytes that the last group stands for. -/
def tailBytes (b64 : List UInt8) : List UInt8 :=
  let tail := fun i => b64.getD i (base64Char 0)
  (threeBytes (packed (tail 0) (tail 1) (tail 2) (tail 3))).take (b64.length - 1)

/-- The array of four characters has only characters of the alphabet if the group has. -/
theorem forall_getD_iff {b64 : List UInt8} (hlength : b64.length ≤ 4) :
    (WebSafe (b64.getD 0 (base64Char 0)) ∧ WebSafe (b64.getD 1 (base64Char 0)) ∧
      WebSafe (b64.getD 2 (base64Char 0)) ∧ WebSafe (b64.getD 3 (base64Char 0))) ↔
        ∀ c ∈ b64, WebSafe c := by
  have hzero : WebSafe (base64Char 0) := by decide
  match b64 with
  | [] | [_] | [_, _] | [_, _, _] | [_, _, _, _] => simp [hzero]
  | _ :: _ :: _ :: _ :: _ :: _ =>
      simp only [List.length_cons] at hlength
      omega

/-- The last group is decoded if it has at least two characters, all of the alphabet. -/
theorem decodeTail_eq {size : ℕ} {written last : List UInt8} (hne : last ≠ [])
    (hlast : last.length ≤ 4) (hsize : written.length + 3 ≤ size) :
    decodeTail size last written =
      if (withoutPadding last).length = 1 then
        .error (.invalidArgument "Base64 string length cannot be 1 modulo 4.")
      else if ∀ c ∈ withoutPadding last, WebSafe c then
        .ok (written ++ tailBytes (withoutPadding last))
      else .error invalidCharacter := by
  obtain ⟨-, hlength⟩ := length_withoutPadding hne hlast
  rw [decodeTail]
  split_ifs with hone hsafe
  · rfl
  · obtain ⟨h₀, h₁, h₂, h₃⟩ := (forall_getD_iff hlength).mpr hsafe
    simp only [decodeThreeChars_of_webSafe h₀ h₁ h₂ h₃]
    change (writeBytes size written _ >>= _) = _
    rw [writeBytes_of_le hsize]
    change Except.ok _ = Except.ok _
    rw [List.take_append, List.take_of_length_le (Nat.le_add_right _ _), Nat.add_sub_cancel_left]
    rfl
  · rw [← forall_getD_iff hlength] at hsafe
    simp only [decodeThreeChars_of_not_webSafe hsafe]
    rfl

/-! ## Whole inputs -/

/-- The groups before the last one. -/
theorem exists_groups {data : List UInt8} (hne : data ≠ []) :
    ∃ front last groups, data = front ++ last ∧ front.length = 4 * groups ∧ last ≠ [] ∧
      last.length ≤ 4 ∧ 3 * groups + 3 ≤ 3 * (data.length / 4) + 3 := by
  have hpos := List.length_pos_iff.mpr hne
  refine ⟨data.take (4 * ((data.length - 1) / 4)), data.drop (4 * ((data.length - 1) / 4)),
    (data.length - 1) / 4, (List.take_append_drop _ _).symm, ?_, ?_, ?_, ?_⟩
  · rw [List.length_take]
    omega
  · rw [Ne, List.drop_eq_nil_iff]
    omega
  · rw [List.length_drop]
    omega
  · omega

theorem unpadded_length_mod {front last : List UInt8} {groups : ℕ}
    (hfront : front.length = 4 * groups) (hne : last ≠ []) (hlast : last.length ≤ 4) :
    (unpadded (front ++ last)).length % 4 = 1 ↔ (withoutPadding last).length = 1 := by
  obtain ⟨hpos, hle⟩ := length_withoutPadding hne hlast
  rw [unpadded_append hfront hne hlast, List.length_append, hfront]
  omega

/-- What `Base64Decode` returns when the groups before the last are split off. -/
theorem base64Decode_append {front last : List UInt8} {groups : ℕ}
    (hfront : front.length = 4 * groups) (hne : last ≠ []) (hlast : last.length ≤ 4) :
    if (∀ c ∈ unpadded (front ++ last), WebSafe c) ∧ (unpadded (front ++ last)).length % 4 ≠ 1 then
      ∃ bytes, decodeLoop (3 * ((front ++ last).length / 4) + 3) (front ++ last) [] =
          .ok (last, bytes) ∧
        base64Decode (front ++ last) = .ok (bytes ++ tailBytes (withoutPadding last))
    else ∃ message, base64Decode (front ++ last) = .error (.invalidArgument message) := by
  have hsize : 3 * groups + 3 ≤ 3 * ((front ++ last).length / 4) + 3 := by
    have hpos := List.length_pos_iff.mpr hne
    rw [List.length_append, hfront]
    omega
  have hnonempty : front ++ last ≠ [] := by simp [hne]
  have hloop := @decodeLoop_groups (3 * ((front ++ last).length / 4) + 3) [] last hne hlast groups
    front hfront (by rw [List.length_nil]; omega)
  have hsafe : (∀ c ∈ unpadded (front ++ last), WebSafe c) ↔
      (∀ c ∈ front, WebSafe c) ∧ ∀ c ∈ withoutPadding last, WebSafe c := by
    rw [unpadded_append hfront hne hlast]
    exact List.forall_mem_append
  have hmod := unpadded_length_mod hfront hne hlast
  rw [base64Decode, if_neg hnonempty]
  by_cases hall : ∀ c ∈ front, WebSafe c
  · rw [if_pos hall] at hloop
    obtain ⟨bytes, hbytes, hdecoded⟩ := hloop
    rw [List.nil_append] at hdecoded
    have hfit : bytes.length + 3 ≤ 3 * ((front ++ last).length / 4) + 3 := by
      rw [hbytes]
      exact hsize
    split_ifs with hgood
    · refine ⟨bytes, hdecoded, ?_⟩
      simp only [hdecoded]
      change decodeTail _ last bytes = _
      rw [decodeTail_eq hne hlast hfit, if_neg fun h =>
        hgood.2 (hmod.mpr h), if_pos (hsafe.mp hgood.1).2]
    · simp only [hdecoded]
      change ∃ message, decodeTail _ last bytes = _
      rw [decodeTail_eq hne hlast hfit]
      split_ifs with hone hlastSafe
      · exact ⟨_, rfl⟩
      · exact absurd ⟨hsafe.mpr ⟨hall, hlastSafe⟩, fun h => hone (hmod.mp h)⟩ hgood
      · exact ⟨_, rfl⟩
  · rw [if_neg hall] at hloop
    rw [if_neg fun h => hall (hsafe.mp h.1).1]
    simp only [hloop]
    exact ⟨_, rfl⟩

/-- **Decoding succeeds exactly** on the characters of the alphabet in a possible number. -/
theorem base64Decode_ok_iff (data : List UInt8) :
    (∃ decoded, base64Decode data = .ok decoded) ↔
      (∀ c ∈ unpadded data, WebSafe c) ∧ (unpadded data).length % 4 ≠ 1 := by
  by_cases hne : data = []
  · subst hne
    exact iff_of_true ⟨[], rfl⟩ (by simp [unpadded])
  · obtain ⟨front, last, groups, rfl, hfront, hlast, hle, -⟩ := exists_groups hne
    have hdecode := base64Decode_append hfront hlast hle
    split_ifs at hdecode with hgood
    · obtain ⟨bytes, -, hok⟩ := hdecode
      exact iff_of_true ⟨_, hok⟩ hgood
    · obtain ⟨message, herror⟩ := hdecode
      refine iff_of_false ?_ hgood
      rintro ⟨decoded, hok⟩
      cases hok.symm.trans herror

/-- No input makes the decoder write behind its buffer. -/
theorem base64Decode_ne_overrun (data : List UInt8) : base64Decode data ≠ .error .overrun := by
  by_cases hne : data = []
  · subst hne
    exact fun h => by cases h
  · obtain ⟨front, last, groups, rfl, hfront, hlast, hle, -⟩ := exists_groups hne
    have hdecode := base64Decode_append hfront hlast hle
    split_ifs at hdecode with hgood
    · obtain ⟨bytes, -, hok⟩ := hdecode
      rw [hok]
      exact fun h => by cases h
    · obtain ⟨message, herror⟩ := hdecode
      rw [herror]
      exact fun h => by cases h

/-! ## Encoding -/

/-- The characters of a string, without the buffer. -/
def encodeChars (withPadding : Bool) : List UInt8 → List UInt8
  | d₀ :: d₁ :: d₂ :: data => encodeBlock d₀ d₁ d₂ ++ encodeChars withPadding data
  | data => encodeTail withPadding data

theorem length_encodeTail_le (withPadding : Bool) (data : List UInt8) :
    (encodeTail withPadding data).length ≤ 4 := by
  match data with
  | [] | [_] | [_, _] | _ :: _ :: _ :: _ => cases withPadding <;> simp [encodeTail]

theorem encodeLoop_eq (size : ℕ) (withPadding : Bool) (data written : List UInt8)
    (hsize : written.length + 4 * (data.length / 3) + 4 ≤ size) :
    encodeLoop size withPadding data written = .ok (written ++ encodeChars withPadding data) := by
  induction data using encodeChars.induct generalizing written with
  | case1 d₀ d₁ d₂ data ih =>
      have hblock : (encodeBlock d₀ d₁ d₂).length = 4 := rfl
      simp only [List.length_cons] at hsize
      rw [encodeLoop, writeBytes_of_le (by omega)]
      change encodeLoop size withPadding data _ = _
      rw [ih _ (by rw [List.length_append, hblock]; omega), encodeChars, List.append_assoc]
  | case2 data hshort =>
      have htail := length_encodeTail_le withPadding data
      rw [encodeLoop, encodeChars, writeBytes_of_le (by omega)]
      · exact hshort
      · exact hshort

/-- The encoder never writes behind its buffer. -/
theorem base64Encode_eq (source : List UInt8) (withPadding : Bool) :
    base64Encode source withPadding = .ok (encodeChars withPadding source) :=
  encodeLoop_eq _ withPadding source [] (by rw [List.length_nil]; omega)

/-! ## What is encoded is decoded -/

/-- The first six bits of a byte, and the last ones with zeros behind. -/
theorem sextets_of_byte (d : UInt8) : ((d >>> 2) &&& 0x3F).toNat = d.toNat / 4 ∧
    ((d &&& 0x03) <<< 4).toNat = d.toNat % 4 * 16 ∧ ((d >>> 4) &&& 0x0F).toNat = d.toNat / 16 ∧
    ((d &&& 0x0F) <<< 2).toNat = d.toNat % 16 * 4 ∧ ((d >>> 6) &&& 0x03).toNat = d.toNat / 64 ∧
    (d &&& 0x3F).toNat = d.toNat % 64 := by
  have hall : ∀ n < 256, ((UInt8.ofNat n >>> 2) &&& 0x3F).toNat = n / 4 ∧
      ((UInt8.ofNat n &&& 0x03) <<< 4).toNat = n % 4 * 16 ∧
      ((UInt8.ofNat n >>> 4) &&& 0x0F).toNat = n / 16 ∧
      ((UInt8.ofNat n &&& 0x0F) <<< 2).toNat = n % 16 * 4 ∧
      ((UInt8.ofNat n >>> 6) &&& 0x03).toNat = n / 64 ∧
      (UInt8.ofNat n &&& 0x3F).toNat = n % 64 := by decide +kernel
  have hd := hall d.toNat d.toNat_lt
  rwa [UInt8.ofNat_toNat] at hd

theorem sextet_of_two (d₀ d₁ : UInt8) :
    (((d₀ &&& 0x03) <<< 4) ||| ((d₁ >>> 4) &&& 0x0F)).toNat =
    d₀.toNat % 4 * 16 + d₁.toNat / 16 := by
  have hlt := d₁.toNat_lt
  rw [UInt8.toNat_or, (sextets_of_byte d₀).2.1, (sextets_of_byte d₁).2.2.1]
  exact shifted_or (show d₁.toNat / 16 < 2 ^ 4 by omega) (d₀.toNat % 4)

theorem sextet_of_next (d₁ d₂ : UInt8) :
    (((d₁ &&& 0x0F) <<< 2) ||| ((d₂ >>> 6) &&& 0x03)).toNat =
    d₁.toNat % 16 * 4 + d₂.toNat / 64 := by
  have hlt := d₂.toNat_lt
  rw [UInt8.toNat_or, (sextets_of_byte d₁).2.2.2.1, (sextets_of_byte d₂).2.2.2.2.1]
  exact shifted_or (show d₂.toNat / 64 < 2 ^ 2 by omega) (d₁.toNat % 16)

theorem threeBytes_eq (d₀ d₁ d₂ : UInt8) :
    threeBytes (d₀.toNat * 2 ^ 16 + d₁.toNat * 2 ^ 8 + d₂.toNat) = [d₀, d₁, d₂] := by
  have h₀ := d₀.toNat_lt
  have h₁ := d₁.toNat_lt
  have h₂ := d₂.toNat_lt
  have hbyte : ∀ (x : ℕ) (d : UInt8), x % 256 = d.toNat → UInt8.ofNat x = d := by
    intro x d hx
    apply UInt8.toNat_inj.mp
    rw [UInt8.toNat_ofNat']
    exact hx
  rw [threeBytes, hbyte _ d₀ (by omega), hbyte _ d₁ (by omega), hbyte _ d₂ (by omega)]

/-- A block of characters that is decoded to three given bytes. -/
structure DecodesTo (c₀ c₁ c₂ c₃ d₀ d₁ d₂ : UInt8) : Prop where
  first : WebSafe c₀
  second : WebSafe c₁
  third : WebSafe c₂
  fourth : WebSafe c₃
  bytes : threeBytes (packed c₀ c₁ c₂ c₃) = [d₀, d₁, d₂]

theorem encodeBlock_decodes (d₀ d₁ d₂ : UInt8) : ∃ c₀ c₁ c₂ c₃,
    encodeBlock d₀ d₁ d₂ = [c₀, c₁, c₂, c₃] ∧ DecodesTo c₀ c₁ c₂ c₃ d₀ d₁ d₂ := by
  have h₀ := d₀.toNat_lt
  have h₁ := d₁.toNat_lt
  have h₂ := d₂.toNat_lt
  have hone := (sextets_of_byte d₀).1
  have htwo := sextet_of_two d₀ d₁
  have hthree := sextet_of_next d₁ d₂
  have hfour := (sextets_of_byte d₂).2.2.2.2.2
  obtain ⟨hsafe₀, hvalue₀⟩ := webSafe_base64Char (by omega : ((d₀ >>> 2) &&& 0x3F).toNat < 64)
  obtain ⟨hsafe₁, hvalue₁⟩ := webSafe_base64Char
    (by omega : (((d₀ &&& 0x03) <<< 4) ||| ((d₁ >>> 4) &&& 0x0F)).toNat < 64)
  obtain ⟨hsafe₂, hvalue₂⟩ := webSafe_base64Char
    (by omega : (((d₁ &&& 0x0F) <<< 2) ||| ((d₂ >>> 6) &&& 0x03)).toNat < 64)
  obtain ⟨hsafe₃, hvalue₃⟩ := webSafe_base64Char (by omega : (d₂ &&& 0x3F).toNat < 64)
  refine ⟨_, _, _, _, rfl, hsafe₀, hsafe₁, hsafe₂, hsafe₃, ?_⟩
  refine Eq.trans (congrArg threeBytes ?_) (threeBytes_eq d₀ d₁ d₂)
  rw [packed, hvalue₀, hvalue₁, hvalue₂, hvalue₃, hone, htwo, hthree, hfour]
  omega

/-- The characters of the last bytes begin a block whose other bytes are zero. -/
theorem encodeTail_two (withPadding : Bool) (d₀ d₁ : UInt8) : ∃ c₀ c₁ c₂,
    encodeTail withPadding [d₀, d₁] = [c₀, c₁, c₂] ++ (if withPadding then [kPadChar] else []) ∧
      DecodesTo c₀ c₁ c₂ (base64Char 0) d₀ d₁ 0 := by
  obtain ⟨c₀, c₁, c₂, c₃, hblock, hdecodes⟩ := encodeBlock_decodes d₀ d₁ 0
  rw [encodeBlock] at hblock
  simp only [List.cons.injEq, and_true] at hblock
  obtain ⟨rfl, rfl, rfl, rfl⟩ := hblock
  refine ⟨_, _, _, ?_, hdecodes⟩
  rw [encodeTail]
  simp

theorem encodeTail_one (withPadding : Bool) (d₀ : UInt8) : ∃ c₀ c₁,
    encodeTail withPadding [d₀] =
        [c₀, c₁] ++ (if withPadding then [kPadChar, kPadChar] else []) ∧
      DecodesTo c₀ c₁ (base64Char 0) (base64Char 0) d₀ 0 0 := by
  obtain ⟨c₀, c₁, c₂, c₃, hblock, hdecodes⟩ := encodeBlock_decodes d₀ 0 0
  rw [encodeBlock] at hblock
  simp only [List.cons.injEq, and_true] at hblock
  obtain ⟨rfl, rfl, rfl, rfl⟩ := hblock
  refine ⟨_, _, ?_, hdecodes⟩
  rw [encodeTail]
  simp

theorem ne_kPadChar {c : UInt8} (hsafe : WebSafe c) : c ≠ kPadChar :=
  fun heq => not_webSafe_kPadChar (heq ▸ hsafe)

/-- A group of characters of the alphabet without padding is decoded. -/
theorem decodeTail_of_decodes {c₀ c₁ c₂ c₃ d₀ d₁ d₂ : UInt8}
    (hdecodes : DecodesTo c₀ c₁ c₂ c₃ d₀ d₁ d₂) {b64 last : List UInt8} (hne : b64 ≠ [])
    (hle : b64.length ≤ 4) {k : ℕ} (hk : k < 3)
    (hb64 : withoutPadding b64 = [c₀, c₁, c₂, c₃].take (k + 2))
    (htail : ∀ c ∈ [c₀, c₁, c₂, c₃].drop (k + 2), c = base64Char 0)
    (hlast : last = [d₀, d₁, d₂].take (k + 1)) {size : ℕ} {written : List UInt8}
    (hsize : written.length + 3 ≤ size) :
    decodeTail size b64 written = .ok (written ++ last) := by
  have hsafe : ∀ c ∈ [c₀, c₁, c₂, c₃].take (k + 2), WebSafe c := by
    intro c hmem
    have hmem := List.mem_of_mem_take hmem
    simp only [List.mem_cons, List.not_mem_nil, or_false] at hmem
    rcases hmem with rfl | rfl | rfl | rfl
    exacts [hdecodes.first, hdecodes.second, hdecodes.third, hdecodes.fourth]
  -- Behind its end the array has the character of the value zero, as the group has.
  have hbytes : tailBytes ([c₀, c₁, c₂, c₃].take (k + 2)) = [d₀, d₁, d₂].take (k + 1) := by
    rw [← hdecodes.bytes]
    match k with
    | 0 =>
        rw [show c₂ = base64Char 0 from htail c₂ (by simp),
          show c₃ = base64Char 0 from htail c₃ (by simp)]
        rfl
    | 1 =>
        rw [show c₃ = base64Char 0 from htail c₃ (by simp)]
        rfl
    | 2 => rfl
  have hlength : ([c₀, c₁, c₂, c₃].take (k + 2)).length ≠ 1 := by
    rw [List.length_take]
    simp only [List.length_cons, List.length_nil]
    omega
  rw [decodeTail_eq hne hle hsize, hb64, if_neg hlength, if_pos hsafe, hbytes, hlast]

/-- The last one to three bytes are decoded from their characters. -/
theorem decodeTail_encodeChars (withPadding : Bool) {last : List UInt8} (hne : last ≠ [])
    (hlast : last.length ≤ 3) {size : ℕ} {written : List UInt8}
    (hsize : written.length + 3 ≤ size) :
    (encodeChars withPadding last).length ≤ 4 ∧
      decodeTail size (encodeChars withPadding last) written = .ok (written ++ last) := by
  match last with
  | [d₀, d₁, d₂] =>
      obtain ⟨c₀, c₁, c₂, c₃, hblock, hdecodes⟩ := encodeBlock_decodes d₀ d₁ d₂
      have hchars : encodeChars withPadding [d₀, d₁, d₂] = [c₀, c₁, c₂, c₃] := by
        rw [encodeChars, hblock]
        cases withPadding <;> rfl
      have hpad := ne_kPadChar hdecodes.fourth
      rw [hchars]
      refine ⟨le_refl 4, decodeTail_of_decodes (k := 2) hdecodes (by simp) (by simp) (by decide)
        ?_ (by simp) rfl hsize⟩
      simp [withoutPadding, hpad]
  | [d₀, d₁] =>
      obtain ⟨c₀, c₁, c₂, htail, hdecodes⟩ := encodeTail_two withPadding d₀ d₁
      have hchars : encodeChars withPadding [d₀, d₁] =
          [c₀, c₁, c₂] ++ (if withPadding then [kPadChar] else []) := htail
      have hpad := ne_kPadChar hdecodes.third
      rw [hchars]
      constructor
      · cases withPadding <;> simp
      · refine decodeTail_of_decodes (k :=
          1) hdecodes (by simp) ?_ (by decide) ?_ (by simp) rfl hsize
        · cases withPadding <;> simp
        · cases withPadding <;> simp [withoutPadding, hpad]
  | [d₀] =>
      obtain ⟨c₀, c₁, htail, hdecodes⟩ := encodeTail_one withPadding d₀
      have hchars : encodeChars withPadding [d₀] =
          [c₀, c₁] ++ (if withPadding then [kPadChar, kPadChar] else []) := htail
      rw [hchars]
      constructor
      · cases withPadding <;> simp
      · refine decodeTail_of_decodes (k := 0) hdecodes (by simp) ?_ (by decide) ?_ (by simp) rfl
          hsize
        · cases withPadding <;> simp
        · cases withPadding <;> simp [withoutPadding]
  | _ :: _ :: _ :: _ :: _ =>
      simp only [List.length_cons] at hlast
      omega

theorem encodeChars_ne_nil (withPadding : Bool) {data : List UInt8} (hne : data ≠ []) :
    encodeChars withPadding data ≠ [] := by
  match data with
  | [_] | [_, _] | _ :: _ :: _ :: _ => simp [encodeChars, encodeTail, encodeBlock]

/-- **The loop decodes** all blocks but the last. -/
theorem decodeLoop_encodeChars (withPadding : Bool) {data written : List UInt8} {size : ℕ}
    (hne : data ≠ []) (hsize : written.length + 3 * (data.length / 3) + 3 ≤ size) :
    ∃ front last, data = front ++ last ∧ last ≠ [] ∧ last.length ≤ 3 ∧
      front.length ≤ 3 * (data.length / 3) ∧
      decodeLoop size (encodeChars withPadding data) written =
        .ok (encodeChars withPadding last, written ++ front) := by
  -- What is at most one block is left for the last group.
  have hshort : ∀ (last written : List UInt8), last ≠ [] → last.length ≤ 3 →
      decodeLoop size (encodeChars withPadding last) written =
        .ok (encodeChars withPadding last, written ++ []) := by
    intro last written hne hle
    have hchars := (decodeTail_encodeChars withPadding hne hle
      (show ([] : List UInt8).length + 3 ≤ 3 from le_refl 3)).1
    rw [List.append_nil]
    exact decodeLoop_last hchars
  induction data using encodeChars.induct generalizing written with
  | case1 d₀ d₁ d₂ data ih =>
      by_cases hdata : data = []
      · subst hdata
        exact ⟨[], [d₀, d₁, d₂], rfl, by simp, by simp, Nat.zero_le _,
          hshort [d₀, d₁, d₂] written (by simp) (by simp)⟩
      · have hblock := encodeBlock_decodes d₀ d₁ d₂
        obtain ⟨c₀, c₁, c₂, c₃, hblock, hdecodes⟩ := hblock
        have hrest := encodeChars_ne_nil withPadding hdata
        simp only [List.length_cons] at hsize
        obtain ⟨front, last, rfl, hlast, hle, hfront, hloop⟩ :=
          @ih (written ++ [d₀, d₁, d₂]) hdata (by
            simp only [List.length_append, List.length_cons, List.length_nil]
            omega)
        refine ⟨d₀ :: d₁ :: d₂ :: front, last, rfl, hlast, hle, ?_, ?_⟩
        · simp only [List.length_cons]
          omega
        · rw [encodeChars, hblock]
          change decodeLoop size (c₀ :: c₁ :: c₂ :: c₃ :: encodeChars withPadding (front ++ last))
            written = _
          rw [decodeLoop_group hrest hdecodes.first hdecodes.second hdecodes.third
            hdecodes.fourth (by omega), hdecodes.bytes, hloop, List.append_assoc]
          rfl
  | case2 data hfew =>
      match data with
      | [] => exact absurd rfl hne
      | [d₀] => exact ⟨[], [d₀], rfl, hne, by simp, Nat.zero_le _, hshort _ written hne (by simp)⟩
      | [d₀, d₁] =>
          exact ⟨[], [d₀, d₁], rfl, hne, by simp, Nat.zero_le _, hshort _ written hne (by simp)⟩
      | d₀ :: d₁ :: d₂ :: data => exact absurd rfl (hfew d₀ d₁ d₂ data)

theorem le_length_encodeChars (withPadding : Bool) (data : List UInt8) :
    4 * (data.length / 3) ≤ (encodeChars withPadding data).length := by
  induction data using encodeChars.induct with
  | case1 d₀ d₁ d₂ data ih =>
      have hblock : (encodeBlock d₀ d₁ d₂).length = 4 := rfl
      rw [encodeChars, List.length_append, hblock]
      simp only [List.length_cons]
      omega
  | case2 data hshort =>
      match data with
      | [] | [_] | [_, _] => simp
      | d₀ :: d₁ :: d₂ :: data => exact absurd rfl (hshort d₀ d₁ d₂ data)

/-- **What is encoded is decoded.** -/
theorem base64Decode_encodeChars (withPadding : Bool) (data : List UInt8) :
    base64Decode (encodeChars withPadding data) = .ok data := by
  by_cases hne : data = []
  · subst hne
    cases withPadding <;> rfl
  · have hchars := le_length_encodeChars withPadding data
    obtain ⟨front, last, hdata, hlast, hle, hfront, hloop⟩ :=
      @decodeLoop_encodeChars withPadding data []
        (3 * ((encodeChars withPadding data).length / 4) + 3) hne (by rw [List.length_nil]; omega)
    have htail := (decodeTail_encodeChars withPadding hlast hle
      (show front.length + 3 ≤ 3 * ((encodeChars withPadding data).length / 4) + 3 by omega)).2
    rw [base64Decode, if_neg (encodeChars_ne_nil withPadding hne)]
    simp only [hloop]
    change decodeTail _ (encodeChars withPadding last) ([] ++ front) = _
    rw [List.nil_append, htail, hdata]

/-- **Web-safe base64**, with and without padding: what is encoded is decoded; the inputs that are
decoded are those whose characters without the padding are in the alphabet and can be the characters
of a string; and neither direction writes behind its buffer. -/
theorem base64_reads_back (source : List UInt8) (withPadding : Bool) :
    (∃ encoded, base64Encode source withPadding = .ok encoded ∧
      base64Decode encoded = .ok source) ∧
    (∀ data, (∃ decoded, base64Decode data = .ok decoded) ↔
      (∀ c ∈ unpadded data, WebSafe c) ∧ (unpadded data).length % 4 ≠ 1) ∧
    ∀ data, base64Decode data ≠ .error .overrun :=
  ⟨⟨_, base64Encode_eq source withPadding, base64Decode_encodeChars withPadding source⟩,
    base64Decode_ok_iff, base64Decode_ne_overrun⟩

end ContainerScheduler.Analysis
