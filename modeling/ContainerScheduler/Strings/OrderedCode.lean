/-
# Ordered encodings

Strings, unsigned numbers and signed numbers are written so that the bytes compare as
the values do. A string has its bytes 0 and 255 escaped and ends with a separator. An
unsigned number is its length followed by its bytes without leading zeros. A signed
number has its length in unary in up to nine bits after the sign bit.

A writer gives the bytes it appends. A reader gives the value and the bytes it leaves;
`none` is a failure. The tests of `DCHECK` in the readers are made when `debug` is set,
and end the program when they fail, which is `none` as well. Signed numbers are
integers in the range of `int64`.
-/

import Mathlib.Algebra.Order.Ring.Int
import Mathlib.Data.Nat.Log

namespace ContainerScheduler.Strings

/-! ## Strings -/

def kEscape1 : UInt8 := 0

/-- Combined with `kEscape1`. -/
def kNullCharacter : UInt8 := 255

/-- Combined with `kEscape1`. -/
def kSeparator : UInt8 := 1

def kEscape2 : UInt8 := 255

/-- Combined with `kEscape2`. -/
def kFFCharacter : UInt8 := 0

def isSpecialByte (c : UInt8) : Bool := c + 1 < 2

/-- `EncodeStringFragment`; the first argument is what lies between `copy_start` and the
current byte. -/
def encodeStringFragment (copied : List UInt8) : List UInt8 → List UInt8
  | [] => copied
  | c :: s =>
      if isSpecialByte c then
        if c = kEscape1 then
          copied ++ [kEscape1, kNullCharacter] ++ encodeStringFragment [] s
        else
          copied ++ [kEscape2, kFFCharacter] ++ encodeStringFragment [] s
      else
        encodeStringFragment (copied ++ [c]) s

def writeString (s : List UInt8) : List UInt8 :=
  encodeStringFragment [] s ++ [kEscape1, kSeparator]

/-- `ReadStringInternal`, which scans up to the last byte but one. -/
def readStringInternal (result : List UInt8) : List UInt8 → Option (List UInt8 × List UInt8)
  | c :: next :: src =>
      if isSpecialByte c then
        if c = kEscape1 then
          if next = kSeparator then some (result, src)
          else if next = kNullCharacter then readStringInternal (result ++ [0]) src
          else none
        else if next = kFFCharacter then readStringInternal (result ++ [255]) src
        else none
      else
        readStringInternal (result ++ [c]) (next :: src)
  | _ => none

def readString (src : List UInt8) : Option (List UInt8 × List UInt8) := readStringInternal [] src

/-! ## Unsigned numbers -/

/-- The loop of `WriteNumIncreasing`, with the part of the buffer that is filled. -/
def numPayload (val : ℕ) (buf : List UInt8) : List UInt8 :=
  if 0 < val then numPayload (val >>> 8) (UInt8.ofNat (val &&& 0xff) :: buf) else buf
termination_by val
decreasing_by
  rw [Nat.shiftRight_eq_div_pow]
  omega

def writeNumIncreasing (val : ℕ) : List UInt8 :=
  let buf := numPayload val []
  UInt8.ofNat buf.length :: buf

/-- Shift a byte into a `uint64`. -/
def shiftByte (x : ℕ) (byte : UInt8) : ℕ := (x <<< 8) % 2 ^ 64 ||| byte.toNat

def readNumIncreasing (debug : Bool) : List UInt8 → Option (ℕ × List UInt8)
  | [] => none
  | first :: payload =>
      let len := first.toNat
      if debug ∧ ¬ (len = 0 ∨ payload = [] ∨ payload.head? ≠ some 0) then none
      else if payload.length < len ∨ 8 < len then none
      else some ((payload.take len).foldl shiftByte 0, payload.drop len)

/-! ## Signed numbers -/

def kLengthToHeaderBits : List (UInt8 × UInt8) :=
  [(0, 0), (0x80, 0), (0xc0, 0), (0xe0, 0), (0xf0, 0), (0xf8, 0), (0xfc, 0), (0xfe, 0),
    (0xff, 0), (0xff, 0x80), (0xff, 0xc0)]

def kLengthToMask : List ℕ :=
  [0, 0x80, 0xc000, 0xe00000, 0xf0000000, 0xf800000000, 0xfc0000000000, 0xfe000000000000,
    0xff00000000000000, 0x8000000000000000, 0]

def kBitsToLength : List ℕ :=
  [1, 1, 1, 1, 1, 1, 1, 2, 2, 2, 2, 2, 2, 2, 3, 3, 3, 3, 3, 3, 3, 4,
    4, 4, 4, 4, 4, 4, 5, 5, 5, 5, 5, 5, 5, 6, 6, 6, 6, 6, 6, 6, 7, 7,
    7, 7, 7, 7, 7, 8, 8, 8, 8, 8, 8, 8, 9, 9, 9, 9, 9, 9, 9, 10]

def log2Floor64 (n : ℕ) : ℤ := if n = 0 then -1 else Nat.log2 n

/-- `n < 0 ? ~n : n`. -/
def magnitude (n : ℤ) : ℕ := (if n < 0 then ~~~n else n).toNat

def signedEncodingLength (n : ℤ) : ℕ :=
  kBitsToLength.getD (log2Floor64 (magnitude n) + 1).toNat 0

/-- An `int64` as a `uint64`. -/
def toUint64 (n : ℤ) : ℕ := (n % 2 ^ 64).toNat

/-- A `uint64` as an `int64`. -/
def toInt64 (x : ℕ) : ℤ := if x < 2 ^ 63 then x else x - 2 ^ 64

def storeBigEndian64 (v : ℕ) : List UInt8 :=
  (List.range 8).map fun i => UInt8.ofNat (v >>> (56 - 8 * i) &&& 0xff)

def loadBigEndian64 (src : List UInt8) : ℕ :=
  (List.range 8).foldl (fun result i => result ||| (src.getD i 0).toNat <<< (56 - 8 * i)) 0

def writeSignedNumIncreasing (val : ℤ) : List UInt8 :=
  let x := magnitude val
  if x < 64 then
    [(kLengthToHeaderBits.getD 1 (0, 0)).1 ^^^ UInt8.ofNat (toUint64 val)]
  else
    let signByte : UInt8 := if val < 0 then 0xff else 0
    let buf := [signByte, signByte] ++ storeBigEndian64 (toUint64 val)
    let len := signedEncodingLength x
    let bits := kLengthToHeaderBits.getD len (0, 0)
    ((buf.drop (10 - len)).modify 0 (· ^^^ bits.1)).modify 1 (· ^^^ bits.2)

/-- The length that `ReadSignedNumIncreasing` finds when the first byte is all header. -/
def longLength (src : List UInt8) (mask : UInt8) : Option ℕ :=
  let secondByte := src.getD 1 0 ^^^ mask
  if 0x80 ≤ secondByte then
    if secondByte < 0xc0 then some 9
    else
      let thirdByte := src.getD 2 0 ^^^ mask
      if secondByte = 0xc0 ∧ thirdByte < 0x80 then some 10 else none
  else some 8

/-- The length and the number before its header bits are removed. -/
def readRaw (src : List UInt8) (first : UInt8) : Option (ℕ × ℕ) :=
  let negative : Bool := first &&& 0x80 = 0
  let xorMask : ℕ := if negative then 2 ^ 64 - 1 else 0
  let mask : UInt8 := if negative then 0xff else 0
  let firstByte := first ^^^ mask
  if firstByte ≠ 0xff then
    let len := (7 - log2Floor64 (firstByte ^^^ 0xff).toNat).toNat
    if src.length < len then none else some (len, (src.take len).foldl shiftByte xorMask)
  else if src.length < 8 then none
  else do
    let len ← longLength src mask
    if src.length < len then none else some (len, loadBigEndian64 (src.drop (len - 8)))

def readSignedNumIncreasing (debug : Bool) : List UInt8 → Option (ℤ × List UInt8)
  | [] => none
  | first :: src => do
      let (len, x) ← readRaw (first :: src) first
      let x := x ^^^ kLengthToMask.getD len 0
      if debug ∧ len ≠ signedEncodingLength (toInt64 x) then none
      else some (toInt64 x, (first :: src).drop len)

/-! ## Sequences of items -/

inductive Kind
  | string
  | num
  | signedNum
  deriving DecidableEq, Repr

inductive Item
  | string (s : List UInt8)
  | num (val : UInt64)
  | signedNum (val : Int64)
  deriving DecidableEq

namespace Item

def kind : Item → Kind
  | string _ => .string
  | num _ => .num
  | signedNum _ => .signedNum

def write : Item → List UInt8
  | string s => writeString s
  | num val => writeNumIncreasing val.toNat
  | signedNum val => writeSignedNumIncreasing val.toInt

/-- The order of items of one kind. -/
def Less : Item → Item → Prop
  | string s, string t => s < t
  | num val, num val' => val < val'
  | signedNum val, signedNum val' => val < val'
  | _, _ => False

end Item

def Kind.read (debug : Bool) : Kind → List UInt8 → Option (Item × List UInt8)
  | .string, src => (readString src).map fun (s, rest) => (.string s, rest)
  | .num, src => (readNumIncreasing debug src).map fun (val, rest) => (.num (.ofNat val), rest)
  | .signedNum, src =>
      (readSignedNumIncreasing debug src).map fun (val, rest) => (.signedNum (.ofInt val), rest)

/-- Write one item after the other. -/
def writeItems (items : List Item) : List UInt8 := items.flatMap Item.write

/-- Read an item of each of the kinds. -/
def readItems (debug : Bool) : List Kind → List UInt8 → Option (List Item × List UInt8)
  | [], src => some ([], src)
  | kind :: kinds, src => do
      let (item, src) ← kind.read debug src
      let (items, src) ← readItems debug kinds src
      return (item :: items, src)

end ContainerScheduler.Strings
