/-
# Varints are read back

Both encoders write the groups of seven bits of a number. The decoders read them back from the start
of any string, refuse every string in which the number does not end, read nothing behind the limit,
and accept at most five or ten bytes.
-/

import ContainerScheduler.Math.Septets
import ContainerScheduler.Table.Coding

namespace ContainerScheduler.Analysis

open Math
open Table

/-! ## What is written -/

/-- The groups of a number as bytes. -/
def septetBytes (v : ℕ) : List UInt8 := (septets v).map UInt8.ofNat

theorem or_continuation (w : ℕ) : (w ||| 128) % 256 = w % 128 + 128 := by
  have hlow : ∀ x < 256, x ||| 128 = x % 128 + 128 := by decide +kernel
  have hmod : (w ||| 128) % 2 ^ 8 = w % 2 ^ 8 ||| 128 := Nat.or_mod_two_pow
  have hsmall := hlow (w % 2 ^ 8) (Nat.mod_lt w (by decide))
  exact hmod.trans (hsmall.trans (by rw [Nat.mod_mod_of_dvd w (by decide)]))

theorem septetBytes_of_lt {v : ℕ} (hlt : v < 128) : septetBytes v = [UInt8.ofNat v] := by
  rw [septetBytes, septets_of_lt hlt]
  rfl

theorem septetBytes_of_le {v : ℕ} (hle : 128 ≤ v) :
    septetBytes v = UInt8.ofNat (v % 128 + 128) :: septetBytes (v / 128) := by
  rw [septetBytes, septets_of_le hle]
  rfl

/-- A byte that `EncodeVarint32` writes before the last one. -/
theorem septetBytes_continued (v : UInt32) (shift : ℕ) (hshift : shift < 32)
    (hle : 2 ^ (shift + 7) ≤ v.toNat) : septetBytes (v.toNat / 2 ^ shift) =
      ((v >>> UInt32.ofNat shift) ||| 128).toUInt8 :: septetBytes (v.toNat / 2 ^ (shift + 7)) := by
  have hquotient : v.toNat / 2 ^ (shift + 7) = v.toNat / 2 ^ shift / 128 := by
    rw [pow_add, Nat.div_div_eq_div_mul]
    rfl
  rw [septetBytes_of_le, hquotient]
  · congr 1
    apply UInt8.toNat_inj.mp
    rw [UInt32.toNat_toUInt8, UInt32.toNat_or, UInt32.toNat_shiftRight,
      UInt32.toNat_ofNat_of_lt' (hshift.trans (by decide)), Nat.mod_eq_of_lt hshift,
      Nat.shiftRight_eq_div_pow, UInt8.toNat_ofNat']
    have hor := or_continuation (v.toNat / 2 ^ shift)
    exact (hor.trans (Nat.mod_eq_of_lt (by omega)).symm).symm
  · rw [Nat.le_div_iff_mul_le (Nat.two_pow_pos shift), ← Nat.pow_add 2 7, Nat.add_comm 7]
    exact hle

/-- Its last byte. -/
theorem septetBytes_last (v : UInt32) (shift : ℕ) (hshift : shift < 32)
    (hlt : v.toNat < 2 ^ (shift + 7)) :
    septetBytes (v.toNat / 2 ^ shift) = [(v >>> UInt32.ofNat shift).toUInt8] := by
  rw [septetBytes_of_lt]
  · congr 1
    apply UInt8.toNat_inj.mp
    rw [UInt32.toNat_toUInt8, UInt32.toNat_shiftRight,
      UInt32.toNat_ofNat_of_lt' (hshift.trans (by decide)), Nat.mod_eq_of_lt hshift,
      Nat.shiftRight_eq_div_pow, UInt8.toNat_ofNat']
  · exact Nat.div_lt_of_lt_mul (by rwa [← Nat.pow_add 2 shift 7])

/-- The five branches write the groups. -/
theorem encodeVarint32_eq (v : UInt32) : encodeVarint32 v = septetBytes v.toNat := by
  have hstart : septetBytes v.toNat = septetBytes (v.toNat / 2 ^ 0) := by
    rw [pow_zero, Nat.div_one]
  have hzero : v >>> UInt32.ofNat 0 = v := by simp
  rw [encodeVarint32, hstart]
  split_ifs with hone htwo hthree hfour
  · rw [septetBytes_last v 0 (by decide) hone, hzero]
  · rw [septetBytes_continued v 0 (by decide) (not_lt.mp hone),
      septetBytes_last v 7 (by decide) htwo, hzero]
    rfl
  · rw [septetBytes_continued v 0 (by decide) (not_lt.mp hone),
      septetBytes_continued v 7 (by decide) (not_lt.mp htwo),
      septetBytes_last v 14 (by decide) hthree, hzero]
    rfl
  · rw [septetBytes_continued v 0 (by decide) (not_lt.mp hone),
      septetBytes_continued v 7 (by decide) (not_lt.mp htwo),
      septetBytes_continued v 14 (by decide) (not_lt.mp hthree),
      septetBytes_last v 21 (by decide) hfour, hzero]
    rfl
  · rw [septetBytes_continued v 0 (by decide) (not_lt.mp hone),
      septetBytes_continued v 7 (by decide) (not_lt.mp htwo),
      septetBytes_continued v 14 (by decide) (not_lt.mp hthree),
      septetBytes_continued v 21 (by decide) (not_lt.mp hfour),
      septetBytes_last v 28 (by decide) (v.toNat_lt.trans (by decide)), hzero]
    rfl

theorem encodeVarint64_eq (v : UInt64) : encodeVarint64 v = septetBytes v.toNat := by
  induction v using encodeVarint64.induct with
  | case1 v hsmall =>
      rw [encodeVarint64, if_pos hsmall, septetBytes_of_lt (UInt64.lt_iff_toNat_lt.mp hsmall)]
      apply congrArg (· :: [])
      exact UInt8.toNat_inj.mp (UInt64.toNat_toUInt8 v)
  | case2 v hlarge ih =>
      have hle : 128 ≤ v.toNat := not_lt.mp fun hlt => hlarge (UInt64.lt_iff_toNat_lt.mpr hlt)
      rw [encodeVarint64, if_neg hlarge, ih, shiftRight_seven, septetBytes_of_le hle]
      · congr 1
        apply UInt8.toNat_inj.mp
        rw [UInt64.toNat_toUInt8, UInt64.toNat_or, UInt64.toNat_and, UInt8.toNat_ofNat']
        have hand : v.toNat &&& (127 : UInt64).toNat = v.toNat % 128 :=
          Nat.and_two_pow_sub_one_eq_mod v.toNat 7
        have hor := or_continuation (v.toNat % 128)
        rw [Nat.mod_mod] at hor
        rw [hand]
        exact hor.trans (Nat.mod_eq_of_lt (by omega)).symm

/-- The encoders agree on the numbers that both can write. -/
theorem encodeVarint32_eq_encodeVarint64 (v : UInt32) :
    encodeVarint32 v = encodeVarint64 v.toUInt64 := by
  rw [encodeVarint32_eq, encodeVarint64_eq, UInt32.toNat_toUInt64]

theorem varintLengthLoop_eq (v : UInt64) (len : ℕ) :
    varintLengthLoop v len + 1 = len + (septetBytes v.toNat).length := by
  induction v, len using varintLengthLoop.induct with
  | case1 v len hsmall =>
      rw [varintLengthLoop, if_pos hsmall, septetBytes_of_lt (UInt64.lt_iff_toNat_lt.mp hsmall)]
      rfl
  | case2 v len hlarge ih =>
      have hle : 128 ≤ v.toNat := not_lt.mp fun hlt => hlarge (UInt64.lt_iff_toNat_lt.mpr hlt)
      rw [varintLengthLoop, if_neg hlarge, ih, shiftRight_seven, septetBytes_of_le hle,
        List.length_cons]
      omega

/-- `VarintLength` is the number of bytes. -/
theorem varintLength_eq (v : UInt64) : varintLength v = (encodeVarint64 v).length := by
  have hloop := varintLengthLoop_eq v 1
  rw [varintLength, encodeVarint64_eq]
  omega

/-! ## What is read -/

theorem and_continuation {byte : ℕ} (hbyte : byte < 256) : byte &&& 128 = byte / 128 * 128 := by
  have hall : ∀ x < 256, x &&& 128 = x / 128 * 128 := by decide +kernel
  exact hall byte hbyte

theorem or_shifted {result shift : ℕ} (hresult : result < 2 ^ shift) (x : ℕ) :
    result ||| x * 2 ^ shift = result + x * 2 ^ shift := by
  rw [Nat.or_comm, Nat.mul_comm, ← Nat.two_pow_add_eq_or_of_lt hresult, Nat.add_comm]

theorem byteAt_front (front rest : List UInt8) (byte : UInt8) :
    byteAt (front ++ byte :: rest) front.length = .ok byte.toNat := by
  rw [byteAt, List.getElem?_append_right (le_refl _), Nat.sub_self]
  rfl

section Loop

variable {wrap : ℕ → ℕ} {bits rounds shift result v : ℕ} {bytes data : List UInt8}

/-- One round of the loop. -/
theorem getVarintLoop_cons (front rest : List UInt8) (byte : UInt8) :
    getVarintLoop wrap (front ++ byte :: rest) (front ++ byte :: rest).length (rounds + 1) shift
      front.length result =
      if 128 ≤ byte.toNat then
        getVarintLoop wrap ((front ++ [byte]) ++ rest) ((front ++ [byte]) ++ rest).length rounds
          (shift + 7) (front ++ [byte]).length (result ||| wrap (byte.toNat % 128 * 2 ^ shift))
      else .ok (some (front.length + 1, result ||| wrap (byte.toNat * 2 ^ shift))) := by
  have hlt : front.length < (front ++ byte :: rest).length := by simp
  have hand : byte.toNat &&& 127 = byte.toNat % 128 :=
    Nat.and_two_pow_sub_one_eq_mod byte.toNat 7
  have hcontinues : byte.toNat &&& 128 ≠ 0 ↔ 128 ≤ byte.toNat := by
    rw [and_continuation byte.toNat_lt]
    omega
  rw [getVarintLoop, if_pos hlt, byteAt_front, ok_bind, hand, List.append_cons,
    Nat.shiftLeft_eq, Nat.shiftLeft_eq]
  simp only [hcontinues, List.length_append, List.length_singleton]
  rfl

theorem getVarintLoop_last (hwrap : ∀ x < 2 ^ bits, wrap x = x) (front suffix : List UInt8)
    (hsmall : v < 128) (hbits : v * 2 ^ shift < 2 ^ bits) (hresult : result < 2 ^ shift) :
    getVarintLoop wrap (front ++ (septetBytes v ++ suffix))
      (front ++ (septetBytes v ++ suffix)).length (rounds + 1) shift front.length result =
        .ok (some (front.length + (septetBytes v).length, result + v * 2 ^ shift)) := by
  have hbyte : (UInt8.ofNat v).toNat = v := by
    rw [UInt8.toNat_ofNat']
    exact Nat.mod_eq_of_lt (by omega)
  rw [septetBytes_of_lt hsmall, List.singleton_append, getVarintLoop_cons, hbyte,
    if_neg (Nat.not_le.mpr hsmall), hwrap _ hbits, or_shifted hresult]
  rfl

/-- **The loop reads a number back.** The groups read so far are below the shift. -/
theorem getVarintLoop_septets (hwrap : ∀ x < 2 ^ bits, wrap x = x) (front suffix : List UInt8)
    (hrounds : v < 128 ^ (rounds + 1)) (hbits : v * 2 ^ shift < 2 ^ bits)
    (hresult : result < 2 ^ shift) :
    getVarintLoop wrap (front ++ (septetBytes v ++ suffix))
      (front ++ (septetBytes v ++ suffix)).length (rounds + 1) shift front.length result =
        .ok (some (front.length + (septetBytes v).length, result + v * 2 ^ shift)) := by
  induction rounds generalizing v shift result front with
  | zero => exact getVarintLoop_last hwrap front suffix (by simpa using hrounds) hbits hresult
  | succ rounds ih =>
      by_cases hsmall : v < 128
      · exact getVarintLoop_last hwrap front suffix hsmall hbits hresult
      · rw [not_lt] at hsmall
        have hbyte : (UInt8.ofNat (v % 128 + 128)).toNat = v % 128 + 128 := by
          rw [UInt8.toNat_ofNat']
          exact Nat.mod_eq_of_lt (by omega)
        have hgroup : v % 128 * 2 ^ shift < 2 ^ bits :=
          (Nat.mul_le_mul_right _ (Nat.mod_le v 128)).trans_lt hbits
        have hpow : 2 ^ (shift + 7) = 128 * 2 ^ shift := by
          rw [pow_add, Nat.mul_comm]
          rfl
        have hsplit : v % 128 * 2 ^ shift + v / 128 * 2 ^ (shift + 7) = v * 2 ^ shift := by
          rw [hpow, ← Nat.mul_assoc, ← Nat.add_mul, Nat.mod_add_div' v 128]
        have hgroups : v / 128 < 128 ^ (rounds + 1) := by
          rw [pow_succ] at hrounds
          exact Nat.div_lt_of_lt_mul (by rwa [Nat.mul_comm])
        have hnext : result + v % 128 * 2 ^ shift < 2 ^ (shift + 7) := by
          have hmod : v % 128 * 2 ^ shift ≤ 127 * 2 ^ shift :=
            Nat.mul_le_mul_right _ (Nat.le_of_lt_succ (Nat.mod_lt v (by decide)))
          omega
        rw [septetBytes_of_le hsmall, List.cons_append, getVarintLoop_cons, hbyte,
          if_pos (Nat.le_add_left 128 _), Nat.add_mod_right, Nat.mod_mod, hwrap _ hgroup,
          or_shifted hresult, ih _ hgroups (by omega) hnext, Nat.add_assoc result, hsplit,
          List.length_append, List.length_singleton, List.length_cons, Nat.add_assoc,
            Nat.add_comm 1]

/-- Bytes that all continue a number end inside it. -/
theorem getVarintLoop_continued (front : List UInt8) (hbytes : ∀ byte ∈ bytes, 128 ≤ byte.toNat) :
    getVarintLoop wrap (front ++ bytes) (front ++ bytes).length rounds shift front.length result =
      .ok none := by
  induction rounds generalizing bytes shift result front with
  | zero => rfl
  | succ rounds ih =>
      cases bytes with
      | nil => simp [getVarintLoop]
      | cons byte bytes =>
          rw [getVarintLoop_cons, if_pos (hbytes byte List.mem_cons_self)]
          exact ih _ fun byte hmem => hbytes byte (List.mem_cons_of_mem _ hmem)

/-- At most as many bytes are read as there are rounds. -/
theorem getVarintLoop_le {p q value limit : ℕ}
    (hread : getVarintLoop wrap data limit rounds shift p result = .ok (some (q, value))) :
    q ≤ p + rounds := by
  induction rounds generalizing shift p result with
  | zero => cases hread
  | succ rounds ih =>
      rw [getVarintLoop] at hread
      split_ifs at hread with hlt
      · cases hbyte : byteAt data p with
        | error fault =>
            rw [hbyte, error_bind] at hread
            cases hread
        | ok byte =>
            rw [hbyte, ok_bind] at hread
            split_ifs at hread with hcontinues
            · have hle := ih hread
              omega
            · simp only [pure, Except.pure, Except.ok.injEq, Option.some.injEq,
                Prod.mk.injEq] at hread
              omega
      · cases hread

/-- Nothing behind the limit matters. -/
theorem getVarintLoop_take {p limit : ℕ} :
    getVarintLoop wrap data limit rounds shift p result =
      getVarintLoop wrap (data.take limit) limit rounds shift p result := by
  induction rounds generalizing shift p result with
  | zero => rfl
  | succ rounds ih =>
      have hread : p < limit → byteAt data p = byteAt (data.take limit) p := by
        intro hlt
        rw [byteAt, byteAt, List.getElem?_take_of_lt hlt]
      rw [getVarintLoop, getVarintLoop]
      split_ifs with hlt
      · rw [hread hlt]
        apply bind_congr
        intro byte
        rw [ih]
      · rfl

end Loop

/-! ## The decoders -/

/-- The fast path for one byte agrees with the loop. -/
theorem getVarint32Ptr_eq (data : List UInt8) (p limit : ℕ) :
    getVarint32Ptr data p limit = getVarint32PtrFallback data p limit := by
  rw [getVarint32Ptr]
  split_ifs with hlt
  · cases hread : byteAt data p with
    | error fault => rw [getVarint32PtrFallback, getVarintLoop, if_pos hlt, hread]; rfl
    | ok byte =>
        rw [ok_bind]
        split_ifs with hlast
        · have hbyte : uint32 byte = byte := by
            rw [byteAt] at hread
            split at hread
            · obtain rfl := Except.ok.inj hread
              exact Nat.mod_eq_of_lt ((UInt8.toNat_lt _).trans (by decide))
            · cases hread
          rw [getVarint32PtrFallback, getVarintLoop, if_pos hlt, hread, ok_bind,
            if_neg (not_not.mpr hlast), Nat.shiftLeft_zero, hbyte, Nat.zero_or]
        · rfl
  · rfl

theorem getVarint32_eq (input : List UInt8) : getVarint32 input = (do
    let found ← getVarintLoop uint32 input input.length 5 0 0 0
    return found.map fun (q, value) => (value, input.drop q)) := by
  rw [getVarint32, getVarint32Ptr_eq]
  rfl

/-- A decoder that looks only at the bytes before the limit, and at no more than `most`. -/
def ReadsWithin (decode : List UInt8 → ℕ → ℕ → Except Fault (Option (ℕ × ℕ))) (most : ℕ) : Prop :=
  ∀ data p limit, limit ≤ data.length →
    decode data p limit = decode (data.take limit) p limit ∧
      ∃ found, decode data p limit = .ok found ∧
        ∀ q value, found = some (q, value) → p < q ∧ q ≤ limit ∧ q ≤ p + most

theorem readsWithin_loop (wrap : ℕ → ℕ) {bits : ℕ} (hwrap : ∀ value, wrap value < 2 ^ bits)
    (rounds : ℕ) :
    ReadsWithin (fun data p limit => getVarintLoop wrap data limit rounds 0 p 0) rounds := by
  intro data p limit hlimit
  obtain ⟨found, hread, hfound⟩ :=
    getVarintLoop_spec hlimit hwrap rounds 0 p 0 (Nat.two_pow_pos bits)
  refine ⟨getVarintLoop_take, found, hread, fun q value hsome => ?_⟩
  subst hsome
  obtain ⟨hlt, hle, -⟩ := hfound q value rfl
  exact ⟨hlt, hle, getVarintLoop_le hread⟩

theorem readsWithin_getVarint32Ptr : ReadsWithin getVarint32Ptr 5 := by
  intro data p limit hlimit
  rw [getVarint32Ptr_eq, getVarint32Ptr_eq]
  exact readsWithin_loop uint32 (fun value => Nat.mod_lt value (Nat.two_pow_pos 32)) 5
    data p limit hlimit

theorem readsWithin_getVarint64Ptr : ReadsWithin getVarint64Ptr 10 :=
  readsWithin_loop uint64 (fun value => Nat.mod_lt value (Nat.two_pow_pos 64)) 10

/-- A decoder of pieces, which accepts at most `most` bytes of its input, and never faults. -/
def AcceptsAtMost (decode : List UInt8 → Except Fault (Option (ℕ × List UInt8)))
    (most : ℕ) : Prop :=
  ∀ input, ∃ found, decode input = .ok found ∧
    ∀ value rest, found = some (value, rest) →
      ∃ bytes, input = bytes ++ rest ∧ 0 < bytes.length ∧ bytes.length ≤ most

theorem ReadsWithin.acceptsAtMost {decode : List UInt8 → ℕ → ℕ → Except Fault (Option (ℕ × ℕ))}
    {most : ℕ} (hwithin : ReadsWithin decode most) :
    AcceptsAtMost (fun input => do
      let found ← decode input 0 input.length
      return found.map fun (q, value) => (value, input.drop q)) most := by
  intro input
  obtain ⟨-, found, hread, hfound⟩ := hwithin input 0 input.length (le_refl _)
  refine ⟨found.map fun (q, value) => (value, input.drop q), ?_, fun value rest hsome => ?_⟩
  · simp only [hread]
    rfl
  · obtain ⟨⟨q, value'⟩, rfl, heq⟩ := Option.map_eq_some_iff.mp hsome
    obtain ⟨hlt, hle, hmost⟩ := hfound q value' rfl
    obtain ⟨rfl, rfl⟩ := Prod.mk.inj heq
    refine ⟨input.take q, (List.take_append_drop q input).symm, ?_, ?_⟩
    · rw [List.length_take]
      omega
    · rw [List.length_take]
      omega

/-- What `GetVarint32` and `GetVarint64` make of the bytes of a number, and of a part of them. -/
structure DecodesBack (decode : List UInt8 → Except Fault (Option (ℕ × List UInt8))) (v : ℕ)
    (bytes : List UInt8) : Prop where
  whole : ∀ suffix, decode (bytes ++ suffix) = .ok (some (v, suffix))
  part : ∀ front, front <+: bytes → front ≠ bytes → decode front = .ok none

theorem readsBack_loop {wrap : ℕ → ℕ} {bits rounds v : ℕ} (hwrap : ∀ x < 2 ^ bits, wrap x = x)
    (hrounds : v < 128 ^ (rounds + 1)) (hbits : v < 2 ^ bits) :
    DecodesBack (fun input => do
      let found ← getVarintLoop wrap input input.length (rounds + 1) 0 0 0
      return found.map fun (q, value) => (value, input.drop q)) v (septetBytes v) := by
  constructor
  · intro suffix
    have hread : getVarintLoop wrap (septetBytes v ++ suffix) (septetBytes v ++ suffix).length
        (rounds + 1) 0 0 0 = .ok (some ((septetBytes v).length, v)) := by
      have hloop := getVarintLoop_septets hwrap [] suffix hrounds (by simpa using hbits)
        (Nat.two_pow_pos 0)
      simpa using hloop
    simp only [hread, ok_bind, Option.map_some, List.drop_left]
    rfl
  · intro front hfront hproper
    have hfront : ∀ byte ∈ front, 128 ≤ byte.toNat := by
      obtain ⟨groups, hgroups, rfl⟩ := List.prefix_map_iff.mp hfront
      intro byte hmem
      obtain ⟨group, hgroup, rfl⟩ := List.mem_map.mp hmem
      have hle := le_of_mem_prefix hgroups (fun heq => hproper (congrArg _ heq)) hgroup
      have hlt := lt_of_mem_septets (hgroups.subset hgroup)
      rw [UInt8.toNat_ofNat', Nat.mod_eq_of_lt hlt]
      exact hle
    have hread : getVarintLoop wrap front front.length (rounds + 1) 0 0 0 = .ok none := by
      simpa using getVarintLoop_continued [] hfront
    simp only [hread, ok_bind, Option.map_none]
    rfl

/-- **Varints are read back.** -/
theorem varints_read_back :
    (∀ (v : UInt32) (dst : List UInt8), ∃ bytes, putVarint32 dst v = dst ++ bytes ∧
      DecodesBack getVarint32 v.toNat bytes ∧ bytes.length = varintLength v.toUInt64 ∧
      putVarint64 dst v.toUInt64 = dst ++ bytes) ∧
    (∀ (v : UInt64) (dst : List UInt8), ∃ bytes, putVarint64 dst v = dst ++ bytes ∧
      DecodesBack getVarint64 v.toNat bytes ∧ bytes.length = varintLength v) ∧
    (ReadsWithin getVarint32Ptr 5 ∧ AcceptsAtMost getVarint32 5) ∧
    (ReadsWithin getVarint64Ptr 10 ∧ AcceptsAtMost getVarint64 10) := by
  refine ⟨fun v dst => ?_, fun v dst => ?_, ?_, ?_⟩
  · refine ⟨encodeVarint32 v, rfl, ?_, ?_, ?_⟩
    · have hbits : v.toNat < 2 ^ 32 := v.toNat_lt
      rw [encodeVarint32_eq]
      have hback : DecodesBack (fun input => do
          let found ← getVarintLoop uint32 input input.length 5 0 0 0
          return found.map fun (q, value) => (value, input.drop q)) v.toNat (septetBytes v.toNat) :=
        readsBack_loop (fun x hx => Nat.mod_eq_of_lt hx) (hbits.trans (by decide)) hbits
      exact ⟨fun suffix => (getVarint32_eq _).trans (hback.whole suffix),
        fun front hfront hproper =>
          (getVarint32_eq _).trans (hback.part front hfront hproper)⟩
    · rw [varintLength_eq, encodeVarint32_eq_encodeVarint64]
    · rw [putVarint64, encodeVarint32_eq_encodeVarint64]
  · refine ⟨encodeVarint64 v, rfl, ?_, (varintLength_eq v).symm⟩
    have hbits : v.toNat < 2 ^ 64 := v.toNat_lt
    rw [encodeVarint64_eq]
    exact readsBack_loop (fun x hx => Nat.mod_eq_of_lt hx) (hbits.trans (by decide)) hbits
  · exact ⟨readsWithin_getVarint32Ptr, readsWithin_getVarint32Ptr.acceptsAtMost⟩
  · exact ⟨readsWithin_getVarint64Ptr, readsWithin_getVarint64Ptr.acceptsAtMost⟩

end ContainerScheduler.Analysis
