/-
# Numbers in bytes

Fixed-width numbers are stored with the least significant byte first. A varint has
seven bits of the number in each byte, the lowest first, and the top bit set in every
byte but the last.

Pointers into a buffer are offsets from its start. A read outside the buffer is a
fault, so that the absence of faults says that every byte read lies inside.
-/

import Mathlib.Data.Nat.Bitwise

namespace ContainerScheduler.Table

/-! ## Reading -/

inductive Fault
  /-- A byte outside the buffer is read. -/
  | outside
  /-- A pointer is computed from a piece that has none. -/
  | nullPiece
  deriving DecidableEq, Repr

@[simp]
theorem ok_bind {α β : Type} (value : α) (next : α → Except Fault β) :
    (Except.ok value >>= next) = next value := rfl

@[simp]
theorem error_bind {α β : Type} (fault : Fault) (next : α → Except Fault β) :
    (Except.error fault >>= next) = .error fault := rfl

/-- A byte of the buffer. -/
def byteAt (data : List UInt8) (p : ℕ) : Except Fault ℕ :=
  match data[p]? with
  | some byte => .ok byte.toNat
  | none => .error .outside

/-- A range of bytes of the buffer. -/
def bytesAt (data : List UInt8) (p size : ℕ) : Except Fault (List UInt8) :=
  if p + size ≤ data.length then .ok ((data.drop p).take size) else .error .outside

theorem byteAt_of_lt {data : List UInt8} {p : ℕ} (hlt : p < data.length) :
    byteAt data p = .ok (data[p].toNat) := by
  rw [byteAt, List.getElem?_eq_getElem hlt]

theorem exists_byteAt {data : List UInt8} {p : ℕ} (hlt : p < data.length) :
    ∃ byte < 256, byteAt data p = .ok byte :=
  ⟨data[p].toNat, UInt8.toNat_lt _, byteAt_of_lt hlt⟩

theorem bytesAt_of_le {data : List UInt8} {p size : ℕ} (hle : p + size ≤ data.length) :
    bytesAt data p size = .ok ((data.drop p).take size) :=
  if_pos hle

theorem bytesAt_of_lt {data : List UInt8} {p size : ℕ} (hlt : data.length < p + size) :
    bytesAt data p size = .error .outside :=
  if_neg hlt.not_ge

/-! ## Fixed-width numbers -/

/-- `EncodeFixed32` and `EncodeFixed64`, with the number of bytes. -/
def encodeFixed : ℕ → ℕ → List UInt8
  | 0, _ => []
  | width + 1, value => UInt8.ofNat value :: encodeFixed width (value / 256)

/-- `DecodeFixed32` and `DecodeFixed64`, with the number of bytes. -/
def decodeFixed (data : List UInt8) : ℕ → ℕ → Except Fault ℕ
  | 0, _ => .ok 0
  | width + 1, p => do
      let low ← byteAt data p
      let high ← decodeFixed data width (p + 1)
      return low + 256 * high

def decodeFixed32 (data : List UInt8) (p : ℕ) : Except Fault ℕ := decodeFixed data 4 p

theorem exists_decodeFixed {data : List UInt8} {width p : ℕ} (hle : p + width ≤ data.length) :
    ∃ value < 256 ^ width, decodeFixed data width p = .ok value := by
  induction width generalizing p with
  | zero => exact ⟨0, by simp, rfl⟩
  | succ width ih =>
      obtain ⟨low, hlow, hread⟩ := exists_byteAt (show p < data.length by omega)
      obtain ⟨high, hhigh, hrest⟩ := ih (show p + 1 + width ≤ data.length by omega)
      refine ⟨low + 256 * high, ?_, ?_⟩
      · rw [pow_succ]
        omega
      · rw [decodeFixed, hread, hrest]
        rfl

theorem exists_decodeFixed32 {data : List UInt8} {p : ℕ} (hle : p + 4 ≤ data.length) :
    ∃ value < 2 ^ 32, decodeFixed32 data p = .ok value :=
  exists_decodeFixed hle

/-! ## Varints -/

/-- The value of an expression of type `uint32`. -/
def uint32 (value : ℕ) : ℕ := value % 2 ^ 32

/-- The value of an expression of type `uint64`. -/
def uint64 (value : ℕ) : ℕ := value % 2 ^ 64

/-- The loop of `GetVarint32PtrFallback` and `GetVarint64Ptr`: the number of rounds is
the number of shifts that are allowed, and `wrap` the type of the result. -/
def getVarintLoop (wrap : ℕ → ℕ) (data : List UInt8) (limit : ℕ) :
    (rounds shift p result : ℕ) → Except Fault (Option (ℕ × ℕ))
  | 0, _, _, _ => .ok none
  | rounds + 1, shift, p, result =>
      if p < limit then do
        let byte ← byteAt data p
        if byte &&& 128 ≠ 0 then
          getVarintLoop wrap data limit rounds (shift + 7) (p + 1)
            (result ||| wrap ((byte &&& 127) <<< shift))
        else
          return some (p + 1, result ||| wrap (byte <<< shift))
      else .ok none

/-- `GetVarint32PtrFallback`: the pointer past the number and the number. -/
def getVarint32PtrFallback (data : List UInt8) (p limit : ℕ) : Except Fault (Option (ℕ × ℕ)) :=
  getVarintLoop uint32 data limit 5 0 p 0

def getVarint32Ptr (data : List UInt8) (p limit : ℕ) : Except Fault (Option (ℕ × ℕ)) :=
  if p < limit then do
    let result ← byteAt data p
    if result &&& 128 = 0 then
      return some (p + 1, result)
    else
      getVarint32PtrFallback data p limit
  else getVarint32PtrFallback data p limit

def getVarint64Ptr (data : List UInt8) (p limit : ℕ) : Except Fault (Option (ℕ × ℕ)) :=
  getVarintLoop uint64 data limit 10 0 p 0

/-- What is read before the limit lies inside the buffer, and the pointer moves on to
at most the limit. -/
theorem getVarintLoop_spec {data : List UInt8} {limit : ℕ} (hlimit : limit ≤ data.length)
    {wrap : ℕ → ℕ} {bits : ℕ} (hwrap : ∀ value, wrap value < 2 ^ bits)
    (rounds shift p result : ℕ) (hresult : result < 2 ^ bits) :
    ∃ found, getVarintLoop wrap data limit rounds shift p result = .ok found ∧
      ∀ q value, found = some (q, value) → p < q ∧ q ≤ limit ∧ value < 2 ^ bits := by
  induction rounds generalizing shift p result with
  | zero => exact ⟨none, rfl, by simp⟩
  | succ rounds ih =>
      rw [getVarintLoop]
      by_cases hlt : p < limit
      · obtain ⟨byte, -, hread⟩ := exists_byteAt (hlt.trans_le hlimit)
        simp only [if_pos hlt, hread, bind, Except.bind]
        split
        · obtain ⟨found, hfound, hspec⟩ := ih (shift + 7) (p + 1) _
            (Nat.or_lt_two_pow hresult (hwrap ((byte &&& 127) <<< shift)))
          refine ⟨found, hfound, ?_⟩
          intro q value hsome
          obtain ⟨hq, hle, hvalue⟩ := hspec q value hsome
          exact ⟨by omega, hle, hvalue⟩
        · refine ⟨_, rfl, ?_⟩
          intro q value hsome
          simp only [Option.some.injEq, Prod.mk.injEq] at hsome
          obtain ⟨rfl, rfl⟩ := hsome
          exact ⟨by omega, hlt, Nat.or_lt_two_pow hresult (hwrap _)⟩
      · exact ⟨none, if_neg hlt, by simp⟩

theorem getVarint32Ptr_spec {data : List UInt8} {limit : ℕ} (hlimit : limit ≤ data.length) (p : ℕ) :
    ∃ found, getVarint32Ptr data p limit = .ok found ∧
      ∀ q value, found = some (q, value) → p < q ∧ q ≤ limit ∧ value < 2 ^ 32 := by
  have hfallback := getVarintLoop_spec hlimit (fun value => Nat.mod_lt value (Nat.two_pow_pos 32))
    5 0 p 0 (Nat.two_pow_pos 32)
  rw [getVarint32Ptr]
  by_cases hlt : p < limit
  · obtain ⟨byte, hbyte, hread⟩ := exists_byteAt (hlt.trans_le hlimit)
    simp only [if_pos hlt, hread, bind, Except.bind]
    split
    · refine ⟨_, rfl, ?_⟩
      intro q value hsome
      simp only [Option.some.injEq, Prod.mk.injEq] at hsome
      obtain ⟨rfl, rfl⟩ := hsome
      exact ⟨by omega, hlt, by omega⟩
    · exact hfallback
  · rw [if_neg hlt]
    exact hfallback

/-! ## Varints in strings -/

/-- `EncodeVarint32`: the bytes from `dst` up to the returned pointer. Every byte is stored in an
`unsigned char`. -/
def encodeVarint32 (v : UInt32) : List UInt8 :=
  if v.toNat < 1 <<< 7 then
    [v.toUInt8]
  else if v.toNat < 1 <<< 14 then
    [(v ||| 128).toUInt8, (v >>> 7).toUInt8]
  else if v.toNat < 1 <<< 21 then
    [(v ||| 128).toUInt8, ((v >>> 7) ||| 128).toUInt8, (v >>> 14).toUInt8]
  else if v.toNat < 1 <<< 28 then
    [(v ||| 128).toUInt8, ((v >>> 7) ||| 128).toUInt8, ((v >>> 14) ||| 128).toUInt8,
      (v >>> 21).toUInt8]
  else
    [(v ||| 128).toUInt8, ((v >>> 7) ||| 128).toUInt8, ((v >>> 14) ||| 128).toUInt8,
      ((v >>> 21) ||| 128).toUInt8, (v >>> 28).toUInt8]

theorem shiftRight_seven (v : UInt64) : (v >>> 7).toNat = v.toNat / 128 := by
  rw [UInt64.toNat_shiftRight]
  exact Nat.shiftRight_eq_div_pow v.toNat 7

theorem toNat_shiftRight_lt {v : UInt64} (hlarge : ¬ v < 128) : (v >>> 7).toNat < v.toNat := by
  rw [UInt64.lt_iff_toNat_lt, not_lt] at hlarge
  rw [shiftRight_seven]
  exact Nat.div_lt_self (lt_of_lt_of_le (by decide) hlarge) (by decide)

/-- `EncodeVarint64`. -/
def encodeVarint64 (v : UInt64) : List UInt8 :=
  if v < 128 then [v.toUInt8]
  else ((v &&& 127) ||| 128).toUInt8 :: encodeVarint64 (v >>> 7)
termination_by v.toNat
decreasing_by exact toNat_shiftRight_lt ‹_›

/-- `PutVarint32`: the buffer has five bytes. -/
def putVarint32 (dst : List UInt8) (v : UInt32) : List UInt8 := dst ++ encodeVarint32 v

/-- `PutVarint64`: the buffer has ten bytes. -/
def putVarint64 (dst : List UInt8) (v : UInt64) : List UInt8 := dst ++ encodeVarint64 v

/-- The loop of `VarintLength`. -/
def varintLengthLoop (v : UInt64) (len : ℕ) : ℕ :=
  if v < 128 then len else varintLengthLoop (v >>> 7) (len + 1)
termination_by v.toNat
decreasing_by exact toNat_shiftRight_lt ‹_›

def varintLength (v : UInt64) : ℕ := varintLengthLoop v 1

/-! ## Reading from a piece -/

/-- `GetVarint32`: the number and what is left of the input. -/
def getVarint32 (input : List UInt8) : Except Fault (Option (ℕ × List UInt8)) := do
  let found ← getVarint32Ptr input 0 input.length
  return found.map fun (q, value) => (value, input.drop q)

/-- `GetVarint64`. -/
def getVarint64 (input : List UInt8) : Except Fault (Option (ℕ × List UInt8)) := do
  let found ← getVarint64Ptr input 0 input.length
  return found.map fun (q, value) => (value, input.drop q)

end ContainerScheduler.Table
