/-
# Union-find

Cells point to parents, and the root of a cluster holds its size and its value. The root with the
higher rank stays the root, whatever cell the merge was called on, and takes the value of the
receiver's cluster. Looking for a root lets every cell on the way point to it.

A rank is a natural number, for it needs a cluster of `2 ^ rank` cells. A size is an `int`.
-/

import Mathlib.Data.Nat.Notation
import Mathlib.Logic.Function.Basic

namespace ContainerScheduler.Compiler

universe u v

namespace UnionFind

structure Cell (ι : Type u) (α : Type v) where
  rank : ℕ
  size : Int32
  parent : Option ι
  value : α

variable {ι : Type u} {α : Type v}

/-- The cells by their addresses. -/
abbrev Cells (ι : Type u) (α : Type v) := ι → Cell ι α

def start (initial : ι → α) : Cells ι α := fun x => ⟨0, 1, none, initial x⟩

section Operations

variable [DecidableEq ι]

/-- The recursion runs with fuel. -/
def findRoot : (fuel : ℕ) → Cells ι α → (x : ι) → Option (ι × Cells ι α)
  | 0, _, _ => none
  | fuel + 1, cells, x =>
      match (cells x).parent with
      | none => some (x, cells)
      | some p =>
          (findRoot fuel cells p).map fun result =>
            (result.1, Function.update result.2 x { result.2 x with parent := some result.1 })

def mergeRoots (cells : Cells ι α) (a b : ι) : Cells ι α :=
  if a = b then cells
  else if (cells a).rank > (cells b).rank then
    let cells := Function.update cells b { cells b with parent := some a }
    Function.update cells a { cells a with size := (cells a).size + (cells b).size }
  else
    let cells := Function.update cells a { cells a with parent := some b }
    Function.update cells b { cells b with
      rank := if (cells a).rank = (cells b).rank then (cells b).rank + 1 else (cells b).rank
      value := (cells a).value
      size := (cells b).size + (cells a).size }

/-- `x.Merge(&other)`. -/
def merge (fuel : ℕ) (cells : Cells ι α) (x other : ι) : Option (Cells ι α) :=
  (findRoot fuel cells x).bind fun a =>
    (findRoot fuel a.2 other).map fun b => mergeRoots b.2 a.1 b.1

def size (fuel : ℕ) (cells : Cells ι α) (x : ι) : Option (Int32 × Cells ι α) :=
  (findRoot fuel cells x).map fun root => ((root.2 root.1).size, root.2)

def get (fuel : ℕ) (cells : Cells ι α) (x : ι) : Option (α × Cells ι α) :=
  (findRoot fuel cells x).map fun root => ((root.2 root.1).value, root.2)

/-- `x.Get() = value`. -/
def assign (fuel : ℕ) (cells : Cells ι α) (x : ι) (value : α) : Option (Cells ι α) :=
  (findRoot fuel cells x).map fun root =>
    Function.update root.2 root.1 { root.2 root.1 with value }

end Operations

/-! ## Calls -/

inductive Call (ι : Type u) (α : Type v)
  | merge (x other : ι)
  | get (x : ι)
  | assign (x : ι) (value : α)
  | size (x : ι)

variable [DecidableEq ι]

def call (fuel : ℕ) (cells : Cells ι α) : Call ι α → Option (Cells ι α)
  | .merge x other => merge fuel cells x other
  | .get x => (get fuel cells x).map (·.2)
  | .assign x value => assign fuel cells x value
  | .size x => (size fuel cells x).map (·.2)

/-- The cells behind calls, of which the last one is in front. -/
def after (fuel : ℕ) (cells : Cells ι α) : List (Call ι α) → Option (Cells ι α)
  | [] => some cells
  | next :: earlier => (after fuel cells earlier).bind fun cells => call fuel cells next

end UnionFind

end ContainerScheduler.Compiler
