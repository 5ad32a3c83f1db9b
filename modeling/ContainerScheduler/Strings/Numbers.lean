/-
# Integers as text

Integers of 32 and 64 bits are printed in decimal, and read between spaces. Characters are bytes,
classified as in the `C` locale.

Reading stops with an overflow where the result of an operation is not of its type, also for
unsigned types, where it would be defined.
-/

import Mathlib.Algebra.Order.Ring.Int

namespace ContainerScheduler.Strings

/-! ## Printing -/

/-- The digits in the order of the loop, the last one first. -/
def writeDigits (i : ℕ) : List UInt8 :=
  UInt8.ofNat (i % 10 + 48) :: if i / 10 > 0 then writeDigits (i / 10) else []
termination_by i

/-- What is in the buffer, with the byte that ends it, and its length without this byte. -/
abbrev Printed := List UInt8 × ℕ

def fastUIntToBufferLeft (i : ℕ) : Printed :=
  let digits := writeDigits i
  (digits.reverse ++ [0], digits.length)

def fastUInt32ToBufferLeft (i : UInt32) : Printed := fastUIntToBufferLeft i.toNat

def fastUInt64ToBufferLeft (i : UInt64) : Printed := fastUIntToBufferLeft i.toNat

/-- `*buffer++ = '-'; ++length;` before the rest. -/
def afterMinus (printed : Printed) : Printed := (45 :: printed.1, printed.2 + 1)

def fastInt32ToBufferLeft (i : Int32) : Printed :=
  let u := i.toUInt32
  if i < 0 then afterMinus (fastUInt32ToBufferLeft (0 - u)) else fastUInt32ToBufferLeft u

def fastInt64ToBufferLeft (i : Int64) : Printed :=
  let u := i.toUInt64
  if i < 0 then afterMinus (fastUInt64ToBufferLeft (0 - u)) else fastUInt64ToBufferLeft u

/-! ## Reading -/

inductive ParseFailure
  /-- `return false`. -/
  | refused
  /-- The result of an operation is not of its type. -/
  | overflow
  deriving DecidableEq

def isDigit (c : UInt8) : Bool := 48 ≤ c && c ≤ 57

def isSpace (c : UInt8) : Bool := c == 32 || (9 ≤ c && c ≤ 13)

def safeFirstChar : List UInt8 → UInt8
  | [] => 0
  | c :: _ => c

/-- Neither `'\0'`, the first character of no text, nor a digit is a space. -/
def skipSpaces (str : List UInt8) : List UInt8 := str.dropWhile isSpace

/-- `ConsumePrefix(&str, "-")`. -/
def consumeMinus : List UInt8 → Bool × List UInt8
  | [] => (false, [])
  | c :: str => if c = 45 then (true, str) else (false, c :: str)

def kint32max : ℤ := 2 ^ 31 - 1
def kuint32max : ℤ := 2 ^ 32 - 1
def kint64min : ℤ := -2 ^ 63
def kint64max : ℤ := 2 ^ 63 - 1
def kuint64max : ℤ := 2 ^ 64 - 1

def inType (low high result : ℤ) : Except ParseFailure ℤ :=
  if low ≤ result ∧ result ≤ high then .ok result else .error .overflow

def asInt64 (result : ℤ) : Except ParseFailure ℤ := inType kint64min kint64max result

def asUint64 (result : ℤ) : Except ParseFailure ℤ := inType 0 kuint64max result

/-- `SafeFirstChar(str) - '0'`. -/
def digitOf (c : UInt8) : ℤ := c.toNat - 48

/-- The next digit, of a number that is not negative. -/
def addDigit (asType : ℤ → Except ParseFailure ℤ) (vlimit result : ℤ) (c : UInt8) :
    Except ParseFailure ℤ :=
  (asType (vlimit - digitOf c)).bind fun rest =>
    if rest.tdiv 10 < result then .error .refused
    else (asType (result * 10)).bind fun result => asType (result + digitOf c)

/-- The next digit, of a number that is not positive. -/
def subDigit (vlimit result : ℤ) (c : UInt8) : Except ParseFailure ℤ :=
  (asInt64 (vlimit + digitOf c)).bind fun rest =>
    if rest.tdiv 10 > result then .error .refused
    else (asInt64 (result * 10)).bind fun result => asInt64 (result - digitOf c)

/-- The next digit of a 32-bit number, whose result has 64 bits. -/
def widenedDigit (vmax result : ℤ) (c : UInt8) : Except ParseFailure ℤ :=
  (asInt64 (result * 10)).bind fun result =>
    (asInt64 (result + c.toNat)).bind fun result =>
      (asInt64 (result - 48)).bind fun result =>
        if result > vmax then .error .refused else .ok result

/-- The loop over the digits, which the caller enters only at a digit: the result, and what is
left. -/
def readDigits (step : ℤ → UInt8 → Except ParseFailure ℤ) (result : ℤ) :
    List UInt8 → Except ParseFailure (ℤ × List UInt8)
  | [] => .ok (result, [])
  | c :: str =>
      if isDigit c then (step result c).bind fun result => readDigits step result str
      else .ok (result, c :: str)

/-- What the functions have in common behind the sign. -/
def readNumber (step : ℤ → UInt8 → Except ParseFailure ℤ) (str : List UInt8) :
    Except ParseFailure ℤ :=
  if isDigit (safeFirstChar str) = false then .error .refused
  else
    (readDigits step 0 str).bind fun result =>
      if skipSpaces result.2 ≠ [] then .error .refused else .ok result.1

/-- The value that is returned, and what the target holds then; nothing after an overflow. -/
def store (value : ℤ) : Except ParseFailure ℤ → Option (Bool × ℤ)
  | .ok result => some (true, result)
  | .error .refused => some (false, value)
  | .error .overflow => none

def safeStrto64 (str : List UInt8) (value : ℤ) : Option (Bool × ℤ) :=
  let str := consumeMinus (skipSpaces str)
  store value <|
    if str.1 then readNumber (subDigit kint64min) str.2
    else readNumber (addDigit asInt64 kint64max) str.2

def safeStrtou64 (str : List UInt8) (value : ℤ) : Option (Bool × ℤ) :=
  store value (readNumber (addDigit asUint64 kuint64max) (skipSpaces str))

def safeStrto32 (str : List UInt8) (value : ℤ) : Option (Bool × ℤ) :=
  let str := consumeMinus (skipSpaces str)
  let vmax := if str.1 then kint32max + 1 else kint32max
  let sign := if str.1 then -1 else 1
  store value <|
    (readNumber (widenedDigit vmax) str.2).bind fun result =>
      (asInt64 (result * sign)).map fun result => result.bmod (2 ^ 32)

def safeStrtou32 (str : List UInt8) (value : ℤ) : Option (Bool × ℤ) :=
  store value <|
    (readNumber (widenedDigit kuint32max) (skipSpaces str)).map fun result => result % 2 ^ 32

/-! ## Leading digits -/

namespace StrUtil

/-- The loop over the string from `p` on: nothing for `return false`, else the number of characters
in front of the `break`, and `v`. -/
def consumeLoop : (v : UInt64) → (p : List UInt8) → Option (ℕ × UInt64)
  | v, [] => some (0, v)
  | v, c :: p =>
      if c < 48 || 57 < c then some (0, v)
      else
        let newV := v * 10 + (c - 48).toUInt64
        if newV / 8 < v then none
        else (consumeLoop newV p).map fun result => (result.1 + 1, result.2)

/-- What is returned, and what is then in `*s` and in `*val`. -/
def consumeLeadingDigits (s : List UInt8) (val : UInt64) : Bool × List UInt8 × UInt64 :=
  match consumeLoop 0 s with
  | none => (false, s, val)
  | some (p, v) => if p > 0 then (true, s.drop p, v) else (false, s, val)


end StrUtil

end ContainerScheduler.Strings
