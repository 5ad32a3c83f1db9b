/-
# Edit distance

The least number of insertions, deletions and substitutions that turn a list into another, where
elements that are the same need no substitution. The recursion at the front of both lists computes
it, since no edit anywhere in a list changes the recursion by more than one.
-/

import Mathlib.Data.List.Forall2
import Mathlib.Order.Bounds.Defs
import Mathlib.Order.MinMax

namespace ContainerScheduler.Math

universe u

variable {α : Type u} (same : α → α → Prop)

/-- A list turns into another by a number of edits, each of one element at any place. -/
inductive Edits : ℕ → List α → List α → Prop
  | done {s t : List α} (hsame : List.Forall₂ same s t) : Edits 0 s t
  | insert {n : ℕ} {front back t : List α} (a : α) (hrest : Edits n (front ++ a :: back) t) :
      Edits (n + 1) (front ++ back) t
  | delete {n : ℕ} {front back t : List α} {a : α} (hrest : Edits n (front ++ back) t) :
      Edits (n + 1) (front ++ a :: back) t
  | substitute {n : ℕ} {front back t : List α} {a b : α} (hne : ¬ same a b)
      (hrest : Edits n (front ++ b :: back) t) : Edits (n + 1) (front ++ a :: back) t

def editDistance [DecidableRel same] : List α → List α → ℕ
  | [], t => t.length
  | a :: s, [] => (a :: s).length
  | a :: s, b :: t =>
      min (editDistance s (b :: t) + 1)
        (min (editDistance (a :: s) t + 1) (editDistance s t + if same a b then 0 else 1))
termination_by s t => s.length + t.length

section Scripts

variable {same} {n : ℕ} {s t : List α} {a b : α}

theorem Edits.cons (hsame : same a b) (hedits : Edits same n s t) :
    Edits same n (a :: s) (b :: t) := by
  induction hedits with
  | done hrest => exact .done (.cons hsame hrest)
  | @insert n front back t c _ ih => exact @Edits.insert _ _ _ (a :: front) _ _ c ih
  | @delete n front back t c _ ih => exact @Edits.delete _ _ _ (a :: front) _ _ _ ih
  | @substitute n front back t c d hne _ ih => exact @Edits.substitute _ _ _ (a :: front) _ _ _ _ hne ih

theorem Edits.reverse (hedits : Edits same n s t) : Edits same n s.reverse t.reverse := by
  induction hedits with
  | done hsame => exact .done (List.rel_reverse hsame)
  | @insert n front back t a _ ih =>
      rw [List.reverse_append] at ih ⊢
      rw [List.reverse_cons, List.append_assoc] at ih
      exact .insert a ih
  | @delete n front back t a _ ih =>
      rw [List.reverse_append] at ih ⊢
      rw [List.reverse_cons, List.append_assoc]
      exact .delete ih
  | @substitute n front back t a b hne _ ih =>
      rw [List.reverse_append, List.reverse_cons, List.append_assoc] at ih ⊢
      exact .substitute hne ih

theorem edits_reverse : Edits same n s.reverse t.reverse ↔ Edits same n s t := by
  refine ⟨fun hedits => ?_, Edits.reverse⟩
  have hback := hedits.reverse
  rwa [List.reverse_reverse, List.reverse_reverse] at hback

end Scripts

section Distance

variable {same} [DecidableRel same] {s t u v : List α} {a b : α}

@[simp] theorem editDistance_nil_left (t : List α) : editDistance same [] t = t.length := by
  rw [editDistance]

@[simp] theorem editDistance_nil_right (s : List α) : editDistance same s [] = s.length := by
  cases s with
  | nil => exact editDistance_nil_left []
  | cons a s => rw [editDistance]

theorem editDistance_cons (a b : α) (s t : List α) :
    editDistance same (a :: s) (b :: t) =
      min (editDistance same s (b :: t) + 1)
        (min (editDistance same (a :: s) t + 1)
          (editDistance same s t + if same a b then 0 else 1)) := by
  rw [editDistance]

/-- The edits of the distance. -/
theorem edits_editDistance (hrefl : ∀ a, same a a) (s t : List α) :
    Edits same (editDistance same s t) s t := by
  induction s, t using editDistance.induct with
  | case1 t =>
      rw [editDistance_nil_left]
      induction t with
      | nil => exact .done .nil
      | cons b t ih => exact @Edits.insert _ _ _ [] _ _ b (ih.cons (hrefl b))
  | case2 a s =>
      rw [editDistance_nil_right]
      induction s generalizing a with
      | nil => exact @Edits.delete _ _ _ [] _ _ _ (.done .nil)
      | cons a' s ih => exact @Edits.delete _ _ _ [] _ _ _ (ih a')
  | case3 a s b t ihDelete ihInsert ihBoth =>
      rw [editDistance_cons]
      rcases min_choice (editDistance same s (b :: t) + 1)
        (min (editDistance same (a :: s) t + 1)
          (editDistance same s t + if same a b then 0 else 1)) with heq | heq
      · rw [heq]
        exact @Edits.delete _ _ _ [] _ _ _ ihDelete
      rw [heq]
      rcases min_choice (editDistance same (a :: s) t + 1)
        (editDistance same s t + if same a b then 0 else 1) with heq | heq
      · rw [heq]
        exact @Edits.insert _ _ _ [] _ _ b (ihInsert.cons (hrefl b))
      · rw [heq]
        split_ifs with hsame
        · exact ihBoth.cons hsame
        · exact @Edits.substitute _ _ _ [] _ _ _ _ hsame (ihBoth.cons (hrefl b))

/-- Lists that are one edit apart stay so behind a common element. -/
theorem editDistance_cons_le (hle : ∀ t, editDistance same u t ≤ editDistance same v t + 1)
    (a : α) (t : List α) : editDistance same (a :: u) t ≤ editDistance same (a :: v) t + 1 := by
  induction t with
  | nil =>
      have hnil := hle []
      simp only [editDistance_nil_right, List.length_cons] at hnil ⊢
      omega
  | cons b t ih =>
      have hdelete := hle (b :: t)
      have hboth := hle t
      simp only [editDistance_cons]
      omega

theorem editDistance_append_le (hle : ∀ t, editDistance same u t ≤ editDistance same v t + 1)
    (front t : List α) :
    editDistance same (front ++ u) t ≤ editDistance same (front ++ v) t + 1 := by
  induction front generalizing t with
  | nil => exact hle t
  | cons a front ih => exact editDistance_cons_le ih a t

theorem editDistance_deleted (a : α) (s t : List α) :
    editDistance same (a :: s) t ≤ editDistance same s t + 1 := by
  cases t with
  | nil => simp
  | cons b t =>
      rw [editDistance_cons]
      exact min_le_left _ _

theorem editDistance_inserted (a : α) (s t : List α) :
    editDistance same s t ≤ editDistance same (a :: s) t + 1 := by
  induction t with
  | nil =>
      simp only [editDistance_nil_right, List.length_cons]
      omega
  | cons b t ih =>
      -- the element `b` is the last that is inserted
      have hinsert : editDistance same s (b :: t) ≤ editDistance same s t + 1 := by
        cases s with
        | nil => simp
        | cons a' s =>
            rw [editDistance_cons]
            exact (min_le_right _ _).trans (min_le_left _ _)
      rw [editDistance_cons]
      omega

theorem editDistance_substituted (a b : α) (s t : List α) :
    editDistance same (a :: s) t ≤ editDistance same (b :: s) t + 1 := by
  induction t with
  | nil => simp
  | cons c t ih =>
      simp only [editDistance_cons]
      split_ifs <;> omega

theorem editDistance_eq_zero (hsame : List.Forall₂ same s t) : editDistance same s t = 0 := by
  induction hsame with
  | nil => simp
  | cons hab _ ih =>
      rw [editDistance_cons, ih, if_pos hab]
      simp

theorem editDistance_le_of_edits {n : ℕ} (hedits : Edits same n s t) :
    editDistance same s t ≤ n := by
  induction hedits with
  | done hsame => exact (editDistance_eq_zero hsame).le
  | @insert n front back t a _ ih =>
      exact (editDistance_append_le (editDistance_inserted a back) front t).trans (by omega)
  | @delete n front back t a _ ih =>
      exact (editDistance_append_le (editDistance_deleted a back) front t).trans (by omega)
  | @substitute n front back t a b _ _ ih =>
      exact (editDistance_append_le (editDistance_substituted a b back) front t).trans (by omega)

theorem isLeast_editDistance (hrefl : ∀ a, same a a) (s t : List α) :
    IsLeast {n | Edits same n s t} (editDistance same s t) :=
  ⟨edits_editDistance hrefl s t, fun _ hedits => editDistance_le_of_edits hedits⟩

theorem editDistance_comm (hsymm : ∀ a b, same a b → same b a) (s t : List α) :
    editDistance same s t = editDistance same t s := by
  induction s, t using editDistance.induct with
  | case1 t => simp
  | case2 a s => simp
  | case3 a s b t ihDelete ihInsert ihBoth =>
      rw [editDistance_cons, editDistance_cons, ihDelete, ihInsert, ihBoth, min_left_comm]
      simp only [show same a b ↔ same b a from ⟨hsymm a b, hsymm b a⟩]

theorem editDistance_le_max (s t : List α) :
    editDistance same s t ≤ max s.length t.length := by
  induction s, t using editDistance.induct with
  | case1 t => simp
  | case2 a s => simp
  | case3 a s b t _ _ ihBoth =>
      rw [editDistance_cons, List.length_cons, List.length_cons]
      split_ifs <;> omega

end Distance

end ContainerScheduler.Math
