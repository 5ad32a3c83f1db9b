/-
# Philox

A generator of random blocks of four words, from a counter of four limbs (the least one first) and a
key.
-/

import ContainerScheduler.Math.CounterMode

namespace ContainerScheduler.Random

open Math

/-- `Array<uint32, 4>`. -/
structure ResultType where
  w0 : UInt32
  w1 : UInt32
  w2 : UInt32
  w3 : UInt32
  deriving DecidableEq

/-- `Array<uint32, 2>`. -/
structure Key where
  k0 : UInt32
  k1 : UInt32
  deriving DecidableEq

structure PhiloxRandom where
  counter : ResultType
  key : Key
  deriving DecidableEq

def kPhiloxW32A : UInt32 := 0x9E3779B9

def kPhiloxW32B : UInt32 := 0xBB67AE85

def kPhiloxM4x32A : UInt32 := 0xD2511F53

def kPhiloxM4x32B : UInt32 := 0xCD9E8D57

/-- The lower and the higher half of a product. -/
def multiplyHighLow (a b : UInt32) : UInt32 × UInt32 :=
  let product := a.toUInt64 * b.toUInt64
  (product.toUInt32, (product >>> 32).toUInt32)

def computeSingleRound (counter : ResultType) (key : Key) : ResultType :=
  let (lo0, hi0) := multiplyHighLow kPhiloxM4x32A counter.w0
  let (lo1, hi1) := multiplyHighLow kPhiloxM4x32B counter.w2
  { w0 := hi1 ^^^ counter.w1 ^^^ key.k0
    w1 := lo1
    w2 := hi0 ^^^ counter.w3 ^^^ key.k1
    w3 := lo0 }

def raiseKey (key : Key) : Key := ⟨key.k0 + kPhiloxW32A, key.k1 + kPhiloxW32B⟩

/-- The unrolled rounds, with the key raised between them. -/
def computeRounds (rounds : ℕ) (counter : ResultType) (key : Key) : ResultType :=
  ((keyedRound (fun key counter => computeSingleRound counter key) raiseKey)^[rounds]
    (counter, key)).1

def skipOne (counter : ResultType) : ResultType :=
  let w0 := counter.w0 + 1
  if w0 = 0 then
    let w1 := counter.w1 + 1
    if w1 = 0 then
      let w2 := counter.w2 + 1
      if w2 = 0 then ⟨w0, w1, w2, counter.w3 + 1⟩ else ⟨w0, w1, w2, counter.w3⟩
    else ⟨w0, w1, counter.w2, counter.w3⟩
  else ⟨w0, counter.w1, counter.w2, counter.w3⟩

namespace PhiloxRandom

variable (gen : PhiloxRandom)

def skip (count : UInt64) : PhiloxRandom :=
  let countLo := count.toUInt32
  let countHi := (count >>> 32).toUInt32
  let w0 := gen.counter.w0 + countLo
  let countHi := if w0 < countLo then countHi + 1 else countHi
  let w1 := gen.counter.w1 + countHi
  if w1 < countHi then
    let w2 := gen.counter.w2 + 1
    if w2 = 0 then { gen with counter := ⟨w0, w1, w2, gen.counter.w3 + 1⟩ }
    else { gen with counter := ⟨w0, w1, w2, gen.counter.w3⟩ }
  else { gen with counter := ⟨w0, w1, gen.counter.w2, gen.counter.w3⟩ }

/-- `operator()`: the block, and the generator after the call. -/
def call : ResultType × PhiloxRandom :=
  (computeRounds 10 gen.counter gen.key, { gen with counter := skipOne gen.counter })

/-- The generator after some calls. -/
def afterCalls (n : ℕ) : PhiloxRandom := (fun gen => gen.call.2)^[n] gen

/-- The blocks of some calls. -/
def blocks (n : ℕ) : List ResultType := (List.range n).map fun i => (gen.afterCalls i).call.1

end PhiloxRandom

end ContainerScheduler.Random
