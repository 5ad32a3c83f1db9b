/-
# The weighted picker

A complete binary tree of sums over the weights, one array for each level with the root in level 0.
Leaves that no element uses have weight 0. Weights are `int32`, and what an array holds before it
is written is given.

An access behind the end of an array and a shift by 31 are failures, as is an assertion. A number
that is uniform below a bound is drawn from words of 32 bits.
-/

import Mathlib.Algebra.Order.Ring.Int

namespace ContainerScheduler.Random

structure WeightedPicker where
  n : ℕ
  numLevels : ℕ
  level : ℕ → ℕ → Int32

namespace WeightedPicker

inductive Failure
  | checkFailed
  | outOfRange
  /-- `1 << 31`. -/
  | overflow
  deriving DecidableEq

def levelSize (level : ℕ) : ℕ := 2 ^ level

variable (p : WeightedPicker)

def read (l i : ℕ) : Except Failure Int32 :=
  if l < p.numLevels ∧ i < levelSize l then .ok (p.level l i) else .error .outOfRange

def write (l i : ℕ) (weight : Int32) : Except Failure WeightedPicker :=
  if l < p.numLevels ∧ i < levelSize l then
    .ok { p with level := Function.update p.level l (Function.update (p.level l) i weight) }
  else .error .outOfRange

/-- `for (int i = first; i < first + turns; i++)`. -/
def forLoop (body : ℕ → WeightedPicker → Except Failure WeightedPicker) :
    (i turns : ℕ) → WeightedPicker → Except Failure WeightedPicker
  | _, 0, p => .ok p
  | i, turns + 1, p => (body i p).bind (forLoop body (i + 1) turns)

/-- The levels in front of the `l`-th one, upwards. -/
def rebuildLevels : (l : ℕ) → WeightedPicker → Except Failure WeightedPicker
  | 0, p => .ok p
  | l + 1, p =>
      (forLoop (fun i p =>
        (p.read (l + 1) (2 * i)).bind fun left =>
          (p.read (l + 1) (2 * i + 1)).bind fun right => p.write l i (left + right))
        0 (levelSize l) p).bind (rebuildLevels l)

def rebuildTreeWeights : Except Failure WeightedPicker := rebuildLevels (p.numLevels - 1) p

def setLeaf (weight : Int32) (i : ℕ) (p : WeightedPicker) : Except Failure WeightedPicker :=
  p.write (p.numLevels - 1) i weight

def setAllWeights (weight : Int32) : Except Failure WeightedPicker :=
  (forLoop (setLeaf weight) 0 p.n p).bind fun p =>
    (forLoop (setLeaf 0) p.n (levelSize (p.numLevels - 1) - p.n) p).bind rebuildTreeWeights

/-- The number of levels, from `numLevels` on; `31 - numLevels` shifts are left. -/
def findLevels (n : ℕ) : (left numLevels : ℕ) → Except Failure ℕ
  | 0, _ => .error .overflow
  | left + 1, numLevels =>
      if levelSize (numLevels - 1) < n then findLevels n left (numLevels + 1) else .ok numLevels

/-- The constructor. -/
def create (n : ℤ) (memory : ℕ → ℕ → Int32) : Except Failure WeightedPicker :=
  if n < 0 then .error .checkFailed
  else
    (findLevels n.toNat 31 1).bind fun numLevels =>
      setAllWeights { n := n.toNat, numLevels, level := memory } 1

def getWeight (index : ℕ) : Except Failure Int32 :=
  if index < p.n then p.read (p.numLevels - 1) index else .error .checkFailed

def totalWeight : Except Failure Int32 := p.read 0 0

/-- The last `l` levels of the loop of `set_weight`, down to the root. -/
def addPath (delta : Int32) : (l index : ℕ) → WeightedPicker → Except Failure WeightedPicker
  | 0, _, p => .ok p
  | l + 1, index, p =>
      (p.read l index).bind fun weight =>
        (p.write l index (weight + delta)).bind (addPath delta l (index / 2))

def setWeight (index : ℕ) (weight : Int32) : Except Failure WeightedPicker :=
  (p.getWeight index).bind fun old => addPath (weight - old) p.numLevels index p

def resize (newSize : ℤ) (memory : ℕ → ℕ → Int32) : Except Failure WeightedPicker :=
  if newSize < 0 then .error .checkFailed
  else if newSize ≤ levelSize (p.numLevels - 1) then
    (forLoop (fun i p => p.setWeight i 0) newSize.toNat (p.n - newSize.toNat) p).map fun p =>
      { p with n := newSize.toNat }
  else
    (create newSize memory).bind fun newPicker =>
      (forLoop (fun i q => (p.read (p.numLevels - 1) i).bind fun weight => setLeaf weight i q)
        0 p.n newPicker).bind fun newPicker =>
          (forLoop (setLeaf 0) p.n (newSize.toNat - p.n) newPicker).bind rebuildTreeWeights

def setWeightsFromArray (n : ℤ) (weights : List Int32) (memory : ℕ → ℕ → Int32) :
    Except Failure WeightedPicker :=
  (p.resize n memory).bind fun p =>
    (forLoop (fun i p =>
      match weights[i]? with
      | some weight => setLeaf weight i p
      | none => .error .outOfRange) 0 p.n p).bind fun p =>
        (forLoop (setLeaf 0) p.n (levelSize (p.numLevels - 1) - p.n) p).bind rebuildTreeWeights

def append (weight : Int32) (memory : ℕ → ℕ → Int32) : Except Failure WeightedPicker :=
  (p.resize (p.n + 1) memory).bind fun p => p.setWeight (p.n - 1) weight

/-! ## Picking -/

/-- The loop over the levels from the `l`-th one on. -/
def descend : (turns l index : ℕ) → (position : Int32) → Except Failure (ℕ × Int32)
  | 0, _, index, position => .ok (index, position)
  | turns + 1, l, index, position =>
      (p.read l (2 * index)).bind fun leftWeight =>
        if position < leftWeight then descend turns (l + 1) (2 * index) position
        else descend turns (l + 1) (2 * index + 1) (position - leftWeight)

def pickAt (weightIndex : Int32) : Except Failure ℤ :=
  p.totalWeight.bind fun total =>
    if weightIndex < 0 ∨ total ≤ weightIndex then .ok (-1)
    else
      (p.descend (p.numLevels - 1) 1 0 weightIndex).bind fun found =>
        if found.1 < p.n then
          (p.read (p.numLevels - 1) found.1).bind fun weight =>
            if found.2 ≤ weight then .ok found.1 else .error .checkFailed
        else .error .checkFailed

/-- What one word gives, for a positive `n`: nothing if it is rejected. -/
def uniformOfWord (n : Int32) (rnd : UInt32) : Option Int32 :=
  if n &&& (n - 1) = 0 then some (rnd &&& (n - 1).toUInt32).toInt32
  else
    let range : UInt32 := ~~~0
    let rem := range % n.toUInt32 + 1
    if rnd < rem then none else some (rnd % n.toUInt32).toInt32

/-- The number that is drawn from a sequence of words, and the words that are left. Nothing if the
sequence ends before a word is accepted. -/
def drawWord (n : Int32) : List UInt32 → Option (Int32 × List UInt32)
  | [] => none
  | rnd :: words =>
      match uniformOfWord n rnd with
      | some value => some (value, words)
      | none => drawWord n words

def unbiasedUniform (n : Int32) (words : List UInt32) :
    Except Failure (Option (Int32 × List UInt32)) :=
  if n < 0 then .error .checkFailed
  else if n = 0 then .ok (words.head?.map fun rnd => ((rnd * n.toUInt32).toInt32, words.tail))
  else .ok (drawWord n words)

def pick (words : List UInt32) : Except Failure (Option (ℤ × List UInt32)) :=
  p.totalWeight.bind fun total =>
    if total = 0 then .ok (some (-1, words))
    else
      (unbiasedUniform total words).bind fun
        | none => .ok none
        | some (value, words) => (p.pickAt value).map fun index => some (index, words)

/-! ## Calls -/

/-- A call, with what the memory holds that it allocates. -/
inductive Call
  | setWeight (index : ℕ) (weight : Int32)
  | setAllWeights (weight : Int32)
  | setWeightsFromArray (n : ℕ) (weights : List Int32) (memory : ℕ → ℕ → Int32)
  | append (weight : Int32) (memory : ℕ → ℕ → Int32)
  | resize (newSize : ℕ) (memory : ℕ → ℕ → Int32)

def call : Call → Except Failure WeightedPicker
  | .setWeight index weight => p.setWeight index weight
  | .setAllWeights weight => p.setAllWeights weight
  | .setWeightsFromArray n weights memory => p.setWeightsFromArray n weights memory
  | .append weight memory => p.append weight memory
  | .resize newSize memory => p.resize newSize memory

def run (p : WeightedPicker) : List Call → Except Failure WeightedPicker
  | [] => .ok p
  | next :: calls => (p.call next).bind fun p => run p calls

end WeightedPicker

end ContainerScheduler.Random
