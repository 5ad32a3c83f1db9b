/-
# Web-safe base64

Three bytes become four characters of an alphabet of 64; one or two bytes at the end become two or
three characters, which padding may fill up. The decoder works on groups of four characters and
treats the last group apart.

Both write into a buffer whose size is computed beforehand. It is kept as the bytes that are written
from its start on; to write behind its end is an overrun. Characters are bytes; where the code
shifts a signed one, its masks take away what the sign would add.
-/

import Mathlib.Data.Nat.Notation

namespace ContainerScheduler.Strings

inductive Base64Error
  | invalidArgument (message : String)
  /-- A byte is written behind the end of the buffer. -/
  | overrun
  deriving DecidableEq

def charBytes (text : String) : List UInt8 := text.toList.map fun c => UInt8.ofNat c.toNat

/-- `kBase64Bytes`, with `-1` as the byte whose bits are all set. -/
def kBase64Bytes : List UInt8 :=
  List.replicate 45 0xFF ++ [0x3E, 0xFF, 0xFF] ++
  [0x34, 0x35, 0x36, 0x37, 0x38, 0x39, 0x3A, 0x3B, 0x3C, 0x3D] ++ List.replicate 7 0xFF ++
  [0x00, 0x01, 0x02, 0x03, 0x04, 0x05, 0x06, 0x07, 0x08, 0x09, 0x0A, 0x0B, 0x0C, 0x0D, 0x0E, 0x0F,
    0x10, 0x11, 0x12, 0x13, 0x14, 0x15, 0x16, 0x17, 0x18, 0x19] ++
  [0xFF, 0xFF, 0xFF, 0xFF, 0x3F, 0xFF] ++
  [0x1A, 0x1B, 0x1C, 0x1D, 0x1E, 0x1F, 0x20, 0x21, 0x22, 0x23, 0x24, 0x25, 0x26, 0x27, 0x28, 0x29,
    0x2A, 0x2B, 0x2C, 0x2D, 0x2E, 0x2F, 0x30, 0x31, 0x32, 0x33] ++ List.replicate 5 0xFF

def kBase64UrlSafeChars : List UInt8 :=
  charBytes "ABCDEFGHIJKLMNOPQRSTUVWXYZabcdefghijklmnopqrstuvwxyz0123456789-_"

def kPadChar : UInt8 := 61

/-- The character for six bits. -/
def base64Char (index : UInt8) : UInt8 := kBase64UrlSafeChars.getD index.toNat 0

/-- Write into a buffer of the given size, behind what is written. -/
def writeBytes (size : ℕ) (written bytes : List UInt8) : Except Base64Error (List UInt8) :=
  if written.length + bytes.length ≤ size then .ok (written ++ bytes) else .error .overrun

/-! ## Decoding -/

/-- `Convert`: an `int8` of the table and the top bit, which is extended to 32 bits by its sign. -/
def convert (x : UInt8) : UInt32 :=
  let y := kBase64Bytes.getD (x &&& 0x7F).toNat 0 ||| (x &&& 0x80)
  y.toInt8.toInt32.toUInt32

def decodeThreeChars (c₀ c₁ c₂ c₃ : UInt8) : Except Base64Error (List UInt8) :=
  let packed := (convert c₀ <<< 18) ||| (convert c₁ <<< 12) ||| (convert c₂ <<< 6) ||| convert c₃
  if packed &&& 0xFF000000 ≠ 0 then
    .error (.invalidArgument "Invalid character found in base64.")
  else .ok [(packed >>> 16).toUInt8, (packed >>> 8).toUInt8, packed.toUInt8]

/-- The loop while more than four characters are left: what is left, and what is written. -/
def decodeLoop (size : ℕ) :
    (b64 written : List UInt8) → Except Base64Error (List UInt8 × List UInt8)
  | c₀ :: c₁ :: c₂ :: c₃ :: c₄ :: rest, written => do
      let bytes ← decodeThreeChars c₀ c₁ c₂ c₃
      let written ← writeBytes size written bytes
      decodeLoop size (c₄ :: rest) written
  | b64, written => .ok (b64, written)

/-- Up to two paddings are left out of a last group of four. -/
def withoutPadding : List UInt8 → List UInt8
  | [c₀, c₁, c₂, c₃] =>
      if c₂ = kPadChar ∧ c₃ = kPadChar then [c₀, c₁]
      else if c₂ ≠ kPadChar ∧ c₃ = kPadChar then [c₀, c₁, c₂]
      else [c₀, c₁, c₂, c₃]
  | b64 => b64

/-- What `Base64Decode` does with the last group. -/
def decodeTail (size : ℕ) (b64 written : List UInt8) : Except Base64Error (List UInt8) :=
  let b64 := withoutPadding b64
  let remain := b64.length
  if remain = 1 then
    .error (.invalidArgument "Base64 string length cannot be 1 modulo 4.")
  else do
    -- the array of four characters that the group is copied into has the value zero elsewhere
    let tail := fun i => b64.getD i (base64Char 0)
    let bytes ← decodeThreeChars (tail 0) (tail 1) (tail 2) (tail 3)
    let filled ← writeBytes size written bytes
    return filled.take (written.length + (remain - 1))

/-- `Base64Decode`. -/
def base64Decode (data : List UInt8) : Except Base64Error (List UInt8) :=
  if data = [] then .ok []
  else do
    let size := 3 * (data.length / 4) + 3
    let (b64, written) ← decodeLoop size data []
    decodeTail size b64 written

/-! ## Encoding -/

/-- The characters of a block of three bytes. -/
def encodeBlock (d₀ d₁ d₂ : UInt8) : List UInt8 :=
  [base64Char ((d₀ >>> 2) &&& 0x3F),
    base64Char (((d₀ &&& 0x03) <<< 4) ||| ((d₁ >>> 4) &&& 0x0F)),
    base64Char (((d₁ &&& 0x0F) <<< 2) ||| ((d₂ >>> 6) &&& 0x03)),
    base64Char (d₂ &&& 0x3F)]

/-- The characters of the one or two bytes at the end. -/
def encodeTail (withPadding : Bool) : List UInt8 → List UInt8
  | [d₀, d₁] =>
      [base64Char ((d₀ >>> 2) &&& 0x3F),
        base64Char (((d₀ &&& 0x03) <<< 4) ||| ((d₁ >>> 4) &&& 0x0F)),
        base64Char ((d₁ &&& 0x0F) <<< 2)] ++ if withPadding then [kPadChar] else []
  | [d₀] =>
      [base64Char ((d₀ >>> 2) &&& 0x3F), base64Char ((d₀ &&& 0x03) <<< 4)] ++
        if withPadding then [kPadChar, kPadChar] else []
  | _ => []

/-- The loop over the blocks, and the tail. -/
def encodeLoop (size : ℕ) (withPadding : Bool) :
    (data written : List UInt8) → Except Base64Error (List UInt8)
  | d₀ :: d₁ :: d₂ :: data, written => do
      let written ← writeBytes size written (encodeBlock d₀ d₁ d₂)
      encodeLoop size withPadding data written
  | data, written => writeBytes size written (encodeTail withPadding data)

/-- `Base64Encode`. -/
def base64Encode (source : List UInt8) (withPadding : Bool) : Except Base64Error (List UInt8) :=
  encodeLoop (4 * (source.length / 3) + 4) withPadding source []

end ContainerScheduler.Strings
