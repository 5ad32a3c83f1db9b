/-
# Clean paths

`CleanPath` reads a path and writes the result to the same string. A path has no NUL byte other than
the one behind its end.
-/

import Mathlib.Data.List.GetD
import Mathlib.Order.Lattice

namespace ContainerScheduler.Strings

namespace Path

def sep : UInt8 := 47

def dot : UInt8 := 46

/-- The string with the positions in it. -/
structure Cleaning where
  path : List UInt8
  src : ℕ := 0
  dst : ℕ := 0
  backtrackLimit : ℕ := 0
  /-- The positions `dst` and `src` of each byte that was copied, which the code does not keep. -/
  copies : List (ℕ × ℕ) := []

namespace Cleaning

variable (s : Cleaning)

/-- The byte `src[i]`. -/
def peek (i : ℕ) : UInt8 := s.path.getD (s.src + i) 0

def advance (count : ℕ) : Cleaning := { s with src := s.src + count }

/-- The statement `*dst++ = *src`. -/
def put : Cleaning :=
  { s with
    path := s.path.set s.dst (s.peek 0)
    dst := s.dst + 1
    copies := s.copies ++ [(s.dst, s.src)] }

/-- The statement `*dst++ = *src++`. -/
def copy : Cleaning := s.put.advance 1

theorem peek_ne_zero {s : Cleaning} (hne : s.peek 0 ≠ 0) : s.src < s.path.length := by
  by_contra hge
  exact hne (List.getD_eq_default _ _ (by omega))

/-- Skip consecutive SEP occurrences. -/
def skipSeparators (s : Cleaning) : Cleaning :=
  if s.peek 0 = sep then skipSeparators (s.advance 1) else s
termination_by s.path.length - s.src
decreasing_by
  rename_i hsep
  have hlt := peek_ne_zero (s := s) (by rw [hsep]; decide)
  simp only [advance]
  omega

/-- Copy entire part until the next SEP or EOS. -/
def copyPart (s : Cleaning) : Cleaning :=
  if s.peek 0 ≠ 0 ∧ s.peek 0 ≠ sep then copyPart s.copy else s
termination_by s.path.length - s.src
decreasing_by
  rename_i hpart
  have hlt := peek_ne_zero hpart.1
  simp only [copy, put, advance, List.length_set]
  omega

/-- The loop that walks back to the previous part. -/
def backtrack (path : List UInt8) (backtrackLimit : ℕ) : (dst : ℕ) → ℕ
  | 0 => 0
  | dst + 1 =>
      if dst + 1 ≠ backtrackLimit ∧ path.getD dst 0 ≠ sep then backtrack path backtrackLimit dst
      else dst + 1

def skipIfAny : Cleaning := if s.peek 0 ≠ 0 then s.advance 1 else s

/-- A part `.` is skipped. -/
def visitOneDot : Cleaning := (s.advance 1).skipIfAny

/-- Copy a part `..`, over which we can never backtrack. -/
def copyTwoDots : Cleaning :=
  let s := s.copy.copy
  let s := if s.peek 0 ≠ 0 then s.put else s
  { s with backtrackLimit := s.dst }

/-- A part `..` removes the previous part, or is copied. -/
def visitTwoDots (isAbsolutePath : Bool) : Cleaning :=
  let s := s.advance 2
  let s :=
    if s.dst ≠ s.backtrackLimit then
      { s with dst := backtrack s.path s.backtrackLimit (s.dst - 1) }
    else if !isAbsolutePath then
      -- Failed to backtrack and we can't skip it either. Rewind and copy.
      { s with src := s.src - 2 }.copyTwoDots
    else s
  s.skipIfAny

def visitName : Cleaning :=
  let s := s.copyPart
  if s.peek 0 ≠ 0 then s.copy else s

def visitPart (isAbsolutePath : Bool) : Cleaning :=
  let s :=
    if s.peek 0 = dot ∧ (s.peek 1 = sep ∨ s.peek 1 = 0) then s.visitOneDot
    else if s.peek 0 = dot ∧ s.peek 1 = dot ∧ (s.peek 2 = sep ∨ s.peek 2 = 0) then
      s.visitTwoDots isAbsolutePath
    else s.visitName
  s.skipSeparators

/-! ### Progress -/

/-- A position that goes on, in a string that keeps its length. -/
structure GoesOn (s t : Cleaning) : Prop where
  length_eq : t.path.length = s.path.length
  src_le : s.src ≤ t.src

theorem GoesOn.trans {s t u : Cleaning} (hfirst : GoesOn s t) (hsecond : GoesOn t u) :
    GoesOn s u :=
  ⟨hsecond.length_eq.trans hfirst.length_eq, hfirst.src_le.trans hsecond.src_le⟩

theorem goesOn_refl : GoesOn s s := ⟨rfl, le_rfl⟩

theorem goesOn_advance (count : ℕ) : GoesOn s (s.advance count) := ⟨rfl, Nat.le_add_right _ _⟩

theorem goesOn_put : GoesOn s s.put := ⟨List.length_set, le_rfl⟩

theorem goesOn_copy : GoesOn s s.copy := s.goesOn_put.trans (s.put.goesOn_advance 1)

theorem goesOn_skipIfAny : GoesOn s s.skipIfAny := by
  rw [skipIfAny]
  split_ifs
  · exact s.goesOn_advance 1
  · exact s.goesOn_refl

theorem goesOn_skipSeparators : GoesOn s s.skipSeparators := by
  fun_induction skipSeparators s with
  | case1 s _ ih => exact (s.goesOn_advance 1).trans ih
  | case2 s _ => exact s.goesOn_refl

theorem goesOn_copyPart : GoesOn s s.copyPart := by
  fun_induction copyPart s with
  | case1 s _ ih => exact s.goesOn_copy.trans ih
  | case2 s _ => exact s.goesOn_refl

theorem goesOn_copyTwoDots : GoesOn (s.advance 2) s.copyTwoDots := by
  have hcopies := s.goesOn_copy.trans s.copy.goesOn_copy
  rw [copyTwoDots]
  split_ifs
  · exact ⟨s.copy.copy.goesOn_put.length_eq.trans hcopies.length_eq, le_rfl⟩
  · exact ⟨hcopies.length_eq, le_rfl⟩

theorem goesOn_visitTwoDots (isAbsolutePath : Bool) :
    GoesOn (s.advance 2) (s.visitTwoDots isAbsolutePath) := by
  rw [visitTwoDots]
  refine GoesOn.trans ?_ (goesOn_skipIfAny _)
  split_ifs
  · exact ⟨rfl, le_rfl⟩
  · exact s.goesOn_copyTwoDots
  · exact goesOn_refl _

/-- A name has a byte at least, or is a separator that is copied. -/
theorem goesOn_visitName (hne : s.peek 0 ≠ 0) : GoesOn (s.advance 1) s.visitName := by
  rw [visitName, copyPart]
  split_ifs
  · have hcopies := (s.copy.goesOn_copyPart).trans (goesOn_copy _)
    exact ⟨hcopies.length_eq.trans s.goesOn_copy.length_eq, hcopies.src_le⟩
  · have hcopies := s.copy.goesOn_copyPart
    exact ⟨hcopies.length_eq.trans s.goesOn_copy.length_eq, hcopies.src_le⟩
  · exact ⟨s.goesOn_copy.length_eq, le_rfl⟩

theorem goesOn_visitPart (isAbsolutePath : Bool) (hne : s.peek 0 ≠ 0) :
    GoesOn (s.advance 1) (s.visitPart isAbsolutePath) := by
  rw [visitPart]
  refine GoesOn.trans ?_ (goesOn_skipSeparators _)
  split_ifs
  · exact goesOn_skipIfAny _
  · exact ((s.advance 1).goesOn_advance 1).trans (s.goesOn_visitTwoDots isAbsolutePath)
  · exact s.goesOn_visitName hne

end Cleaning

open Cleaning

/-- Process all parts. -/
def visitParts (isAbsolutePath : Bool) (s : Cleaning) : Cleaning :=
  if s.peek 0 ≠ 0 then visitParts isAbsolutePath (s.visitPart isAbsolutePath) else s
termination_by s.path.length - s.src
decreasing_by
  rename_i hmore
  obtain ⟨hlength, hsrc⟩ := s.goesOn_visitPart isAbsolutePath hmore
  have hlt := peek_ne_zero hmore
  simp only [advance] at hlength hsrc
  omega

/-- Check for absolute path and determine initial backtrack limit. -/
def start (isAbsolutePath : Bool) (uncleanPath : List UInt8) : Cleaning :=
  let s : Cleaning := { path := uncleanPath }
  let s := if isAbsolutePath then s.copy.skipSeparators else s
  { s with backtrackLimit := s.dst }

/-- All parts of a path, from its first byte on. -/
def cleaned (uncleanPath : List UInt8) : Cleaning :=
  let isAbsolutePath : Bool := uncleanPath.getD 0 0 = sep
  visitParts isAbsolutePath (start isAbsolutePath uncleanPath)

def cleanPath (uncleanPath : List UInt8) : List UInt8 :=
  let s := cleaned uncleanPath
  let pathLength := s.dst
  if pathLength ≠ 0 then
    -- Remove trailing '/' except if it is root path
    s.path.take (if pathLength > 1 ∧ s.path.getD (pathLength - 1) 0 = sep then pathLength - 1
      else pathLength)
  else [dot]

end Path

end ContainerScheduler.Strings
