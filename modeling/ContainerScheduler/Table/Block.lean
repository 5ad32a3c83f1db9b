/-
# Blocks of a sorted table

A block is a sequence of entries, an array of restart points and the number of these.
An entry has the length of the prefix its key shares with the key before it, the
lengths of the rest of the key and of the value, these two, and nothing else. Lengths
and restart points come from the bytes as they are, and are combined in `uint32`
arithmetic.

The iterator works on offsets into the bytes, where the code has pointers. What the
code asserts is not checked here. One round of each of the two loops of `Seek` is a
definition of its own.
-/

import ContainerScheduler.Table.Coding
import Mathlib.Order.Lattice

namespace ContainerScheduler.Table

/-! ## Entries -/

/-- A `StringPiece` into the bytes of a block. -/
structure Piece where
  data : ℕ
  size : ℕ
  deriving DecidableEq, Repr

/-- The three lengths of an entry and where its key delta starts. -/
structure Entry where
  shared : ℕ
  nonShared : ℕ
  valueLength : ℕ
  keyDelta : ℕ
  deriving DecidableEq, Repr

namespace Entry

/-- The sum of the lengths as the numbers they are. -/
def room (entry : Entry) : ℕ := entry.nonShared + entry.valueLength

end Entry

/-- The lengths of the entry at `p`, before they are compared with what is left. -/
def decodeLengths (data : List UInt8) (p limit : ℕ) : Except Fault (Option Entry) :=
  if (limit : ℤ) - p < 3 then return none
  else do
    let shared ← byteAt data p
    let nonShared ← byteAt data (p + 1)
    let valueLength ← byteAt data (p + 2)
    if shared ||| nonShared ||| valueLength < 128 then
      -- all three values are in one byte each
      return some ⟨shared, nonShared, valueLength, p + 3⟩
    else
      let some (p, shared) ← getVarint32Ptr data p limit | return none
      let some (p, nonShared) ← getVarint32Ptr data p limit | return none
      let some (p, valueLength) ← getVarint32Ptr data p limit | return none
      return some ⟨shared, nonShared, valueLength, p⟩

/-- `DecodeEntry`: `none` when an error is detected. -/
def decodeEntry (data : List UInt8) (p limit : ℕ) : Except Fault (Option Entry) := do
  let some entry ← decodeLengths data p limit | return none
  if uint32 (limit - entry.keyDelta) < uint32 (entry.nonShared + entry.valueLength) then
    return none
  else
    return some entry

/-! ## Blocks -/

/-- A block as its constructor leaves it; a size of zero marks an error. -/
structure Block where
  data : List UInt8
  size : ℕ
  restartOffset : ℕ
  deriving DecidableEq, Repr

namespace Block

def numRestarts (data : List UInt8) (size : ℕ) : Except Fault ℕ := decodeFixed32 data (size - 4)

/-- The constructor. -/
def ofContents (contents : List UInt8) : Except Fault Block :=
  if contents.length < 4 then return ⟨contents, 0, 0⟩
  else do
    let maxRestartsAllowed := (contents.length - 4) / 4
    let count ← numRestarts contents contents.length
    if maxRestartsAllowed < count then
      return ⟨contents, 0, 0⟩
    else
      return ⟨contents, contents.length, uint32 (contents.length - uint32 (1 + count) * 4)⟩

end Block

/-! ## The iterator -/

/-- What an iterator over a block never changes. -/
structure Entries where
  data : List UInt8
  restarts : ℕ
  numRestarts : ℕ
  deriving DecidableEq, Repr

namespace Entries

def getRestartPoint (block : Entries) (index : ℕ) : Except Fault ℕ :=
  decodeFixed32 block.data (block.restarts + index * 4)

/-- The loop at the end of `ParseNextKey`, with the number of restart points after
`index`. -/
def advanceRestart (block : Entries) (current : ℕ) : ℕ → ℕ → Except Fault ℕ
  | 0, index => .ok index
  | left + 1, index => do
      let next ← block.getRestartPoint (index + 1)
      if next < current then
        advanceRestart block current left (index + 1)
      else
        return index

end Entries

/-- The fields of `Block::Iter` that change; a piece that points nowhere is `none`. -/
structure Iter where
  current : ℕ
  restartIndex : ℕ
  key : List UInt8
  value : Option Piece
  /-- The status is OK. -/
  ok : Bool
  deriving DecidableEq, Repr

namespace Iter

/-- The iterator as its constructor leaves it. -/
def new (block : Entries) : Iter := ⟨block.restarts, block.numRestarts, [], none, true⟩

def Valid (block : Entries) (iter : Iter) : Prop := iter.current < block.restarts

instance (block : Entries) (iter : Iter) : Decidable (iter.Valid block) :=
  inferInstanceAs (Decidable (_ < _))

def nextEntryOffset (iter : Iter) : Except Fault ℕ :=
  match iter.value with
  | some piece => .ok (uint32 (piece.data + piece.size))
  | none => .error .nullPiece

def seekToRestartPoint (block : Entries) (iter : Iter) (index : ℕ) : Except Fault Iter := do
  let offset ← block.getRestartPoint index
  return { iter with key := [], restartIndex := index, value := some ⟨offset, 0⟩ }

def corruptionError (block : Entries) (iter : Iter) : Iter :=
  { iter with
    current := block.restarts, restartIndex := block.numRestarts, ok := false, key := [],
    value := none }

/-- `ParseNextKey`; the Boolean is its result. -/
def parseNextKey (block : Entries) (iter : Iter) : Except Fault (Bool × Iter) := do
  let current ← iter.nextEntryOffset
  if block.restarts ≤ current then
    return (false, { iter with current := block.restarts, restartIndex := block.numRestarts })
  else
    match ← decodeEntry block.data current block.restarts with
    | none => return (false, iter.corruptionError block)
    | some entry =>
        if iter.key.length < entry.shared then
          return (false, iter.corruptionError block)
        else
          let delta ← bytesAt block.data entry.keyDelta entry.nonShared
          let restartIndex ← block.advanceRestart current
            (block.numRestarts - (iter.restartIndex + 1)) iter.restartIndex
          return (true, { iter with
            current := current
            key := iter.key.take entry.shared ++ delta
            value := some ⟨entry.keyDelta + entry.nonShared, entry.valueLength⟩
            restartIndex := restartIndex })

def seekToFirst (block : Entries) (iter : Iter) : Except Fault Iter := do
  let iter ← iter.seekToRestartPoint block 0
  let (_, iter) ← iter.parseNextKey block
  return iter

/-- Whether the key at a piece is smaller than the target. `memcmp` reads as many bytes
as the shorter of the two has. -/
def keyLess (block : Entries) (piece : Piece) (target : List UInt8) : Except Fault Bool := do
  let common := min piece.size target.length
  let bytes ← bytesAt block.data piece.data common
  return decide (bytes < target.take common ∨
    bytes = target.take common ∧ piece.size < target.length)

/-- One round of the binary search of `Seek`; `none` when the entry at the middle is
corrupt. -/
def searchRound (block : Entries) (target : List UInt8) (left right : ℕ) :
    Except Fault (Option (ℕ × ℕ)) := do
  let mid := uint32 (left + right + 1) / 2
  let regionOffset ← block.getRestartPoint mid
  match ← decodeEntry block.data regionOffset block.restarts with
  | none => return none
  | some entry =>
      if entry.shared ≠ 0 then
        return none
      else if ← keyLess block ⟨entry.keyDelta, entry.nonShared⟩ target then
        return some (mid, right)
      else
        return some (left, mid - 1)

/-- One round of the linear search of `Seek`; the Boolean tells whether it goes on. -/
def scanRound (block : Entries) (target : List UInt8) (iter : Iter) :
    Except Fault (Bool × Iter) := do
  let (parsed, iter) ← iter.parseNextKey block
  return (parsed && decide (iter.key < target), iter)

end Iter

/-! ## Calls on an iterator -/

/-- Where a call of `Seek` is. -/
inductive Activity
  | idle
  | searching (target : List UInt8) (left right : ℕ)
  | scanning (target : List UInt8)
  deriving DecidableEq, Repr

/-- What `NewIterator` returned, between two calls or inside one. -/
inductive IterState
  /-- The error iterator or the empty one. -/
  | empty (ok : Bool)
  | reading (block : Entries) (iter : Iter) (activity : Activity)
  | faulted (fault : Fault)
  deriving DecidableEq, Repr

inductive Call
  | seekToFirst
  | seek (target : List UInt8)
  | next
  /-- A call of `Seek` runs the next round of the loop it is in. -/
  | round
  deriving DecidableEq, Repr

/-- `NewIterator`. -/
def newIterator (block : Block) : Except Fault IterState :=
  if block.size < 4 then return .empty false
  else do
    let count ← Block.numRestarts block.data block.size
    if count = 0 then
      return .empty true
    else
      let block : Entries := ⟨block.data, block.restartOffset, count⟩
      return .reading block (.new block) .idle

/-- Keep a fault as the state. -/
def IterState.ofExcept : Except Fault IterState → IterState
  | .ok state => state
  | .error fault => .faulted fault

/-- The iterator over the bytes of a block. -/
def openBlock (contents : List UInt8) : IterState :=
  .ofExcept do newIterator (← Block.ofContents contents)

/-- What a round of the linear search leaves. -/
def scanned (block : Entries) (target : List UInt8) (iter : Iter) : Except Fault IterState := do
  let (more, iter) ← iter.scanRound block target
  return .reading block iter (if more then .scanning target else .idle)

/-- What a round of the binary search leaves. Once the range has one restart point,
the linear search starts there. -/
def searched (block : Entries) (target : List UInt8) (left right : ℕ) (iter : Iter) :
    Except Fault IterState :=
  if left < right then do
    match ← Iter.searchRound block target left right with
    | none => return .reading block (iter.corruptionError block) .idle
    | some (left, right) => return .reading block iter (.searching target left right)
  else do
    let iter ← iter.seekToRestartPoint block left
    scanned block target iter

/-- One call, or one round of the call under way. `Next` needs a valid iterator. -/
def iterStep : IterState → Call → Option IterState
  | .empty ok, .seekToFirst => some (.empty ok)
  | .empty ok, .seek _ => some (.empty ok)
  | .reading block iter .idle, .seekToFirst => some (.ofExcept do
      return .reading block (← iter.seekToFirst block) .idle)
  | .reading block iter .idle, .seek target =>
      some (.reading block iter (.searching target 0 (block.numRestarts - 1)))
  | .reading block iter .idle, .next =>
      if iter.Valid block then
        some (.ofExcept do return .reading block (← iter.parseNextKey block).2 .idle)
      else none
  | .reading block iter (.searching target left right), .round =>
      some (.ofExcept (searched block target left right iter))
  | .reading block iter (.scanning target), .round =>
      some (.ofExcept (scanned block target iter))
  | _, _ => none

end ContainerScheduler.Table
