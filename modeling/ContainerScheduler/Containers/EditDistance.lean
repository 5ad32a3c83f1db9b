/-
# Levenshtein distance

A dynamic program over one row of costs. The last entry of the first row is never written and is
zero, as the vector is.
-/

import Mathlib.Algebra.Order.Ring.Int

namespace ContainerScheduler.Containers

namespace EditDistance

universe u

variable {α : Type u} (cmp : α → α → Bool)

/-- The value that is stored in an `int`. -/
def asInt (cost : ℤ) : ℤ := cost.bmod (2 ^ 32)

/-- The loop over the columns. Entries of `scratch` are replaced in place. -/
def visitColumns (a : α) : (substitutionBaseCost insertionCost : ℤ) → (t : List α) →
    (scratch : List ℤ) → List ℤ
  | substitutionBaseCost, insertionCost, b :: t, entry :: scratch =>
      let replacementCost : ℤ := if cmp a b then 0 else 1
      let substitutionCost := asInt (substitutionBaseCost + replacementCost)
      let deletionCost := asInt (entry + 1)
      let cheapest := min deletionCost (min insertionCost substitutionCost)
      cheapest :: visitColumns a (asInt entry) (asInt (cheapest + 1)) t scratch
  | _, _, _, scratch => scratch

/-- The loop over the rows, of which `rows` were visited. -/
def visitRows (t : List α) : (rows : ℕ) → (s : List α) → (scratch : List ℤ) → List ℤ
  | _, [], scratch => scratch
  | rows, a :: s, scratch =>
      visitRows t (rows + 1) s (visitColumns cmp a (asInt rows) (asInt (rows + 2)) t scratch)

/-- Distance between empty string and string of length j is just j. -/
def firstRow (tSize : ℕ) : List ℤ :=
  (List.range tSize).map fun j => if j + 1 < tSize then (j + 1 : ℕ) else 0

/-- The distance to a sequence that is not longer. -/
def distanceToShorter [BEq α] (s t : List α) : ℤ :=
  if t.length = 0 then s.length
  else if s == t then 0
  else (visitRows cmp t 0 s (firstRow t.length)).getD (t.length - 1) 0

def levenshteinDistance [BEq α] (s t : List α) : ℤ :=
  if t.length > s.length then distanceToShorter cmp t s else distanceToShorter cmp s t

end EditDistance

end ContainerScheduler.Containers
