/-
# Displacing values along a path

A new value is put at the end of a path of places, whose values each move to the place before
them, the first one to a free place. Up to a permutation of the places, the new value is then in
the free place and everything else where it was.

If a path leads from place to place through buckets, does not step straight back, and ends in a
bucket that it has not met before, then its first four places differ.
-/

import Mathlib.GroupTheory.Perm.List

namespace ContainerScheduler.Math

universe u v w

namespace Displacement

variable {P : Type u}

section Displace

variable {α : Type v} [DecidableEq P]

/-- Moves each value of the path to the place before it. -/
def displace (f : P → α) (free : P) (new : α) : List P → P → α
  | [] => Function.update f free new
  | p :: path => displace (Function.update f free (f p)) p new path

variable {f : P → α} {free : P} {new : α} {path : List P}

/-- Nothing is lost, even if the path meets a place twice. -/
theorem displace_eq (f : P → α) (free : P) (new : α) (path : List P) :
    displace f free new path = Function.update f free new ∘ (free :: path).formPerm := by
  induction path generalizing f free with
  | nil => rfl
  | cons p path ih =>
      have hswap : Function.update (Function.update f free (f p)) p new =
          Function.update f free new ∘ Equiv.swap free p := by
        funext q
        by_cases hp : q = p
        · rw [hp, Function.update_self, Function.comp_apply, Equiv.swap_apply_right,
            Function.update_self]
        · rw [Function.update_of_ne hp, Function.comp_apply]
          by_cases hfree : q = free
          · rw [hfree, Function.update_self, Equiv.swap_apply_left,
              Function.update_of_ne (fun heq => hp (hfree.trans heq.symm))]
          · rw [Equiv.swap_apply_of_ne_of_ne hfree hp, Function.update_of_ne hfree,
              Function.update_of_ne hfree]
      rw [displace, ih, hswap, List.formPerm_cons_cons, Function.comp_assoc, Equiv.Perm.coe_mul]

/-- Every value is good at the place to which it moves, so all are good afterwards. -/
theorem displace_good {Good : P → α → Prop} (hnodup : (free :: path).Nodup)
    (hrest : ∀ q, q ∉ free :: path → Good q (f q))
    (hmove : List.IsChain (fun q p => Good q (f p)) (free :: path))
    (hnew : ∀ q ∈ (free :: path).getLast?, Good q new) (q : P) :
    Good q (displace f free new path q) := by
  induction path generalizing f free with
  | nil =>
      rw [displace]
      by_cases hq : q = free
      · rw [hq, Function.update_self]
        exact hnew free rfl
      · rw [Function.update_of_ne hq]
        exact hrest q fun hmem => hq (List.mem_singleton.mp hmem)
  | cons p path ih =>
      obtain ⟨hfree, hpath⟩ := List.nodup_cons.mp hnodup
      obtain ⟨hfirst, hmore⟩ := List.isChain_cons_cons.mp hmove
      have hsame : ∀ r ∈ p :: path, Function.update f free (f p) r = f r := by
        rintro r hr
        refine Function.update_of_ne ?_ _ _
        rintro rfl
        exact hfree hr
      rw [displace]
      refine ih hpath (fun r hr => ?_) ?_ fun r hr => hnew r ?_
      · by_cases hrfree : r = free
        · rw [hrfree, Function.update_self]
          exact hfirst
        · rw [Function.update_of_ne hrfree]
          exact hrest r fun hmem => (List.mem_cons.mp hmem).elim hrfree hr
      · refine List.IsChain.imp_of_mem_imp (fun r s _ hs hgood => ?_) hmore
        rwa [hsame s hs]
      · rw [List.getLast?_cons_cons]
        exact hr

end Displace

/-! ## Paths -/

section Paths

variable {B : Type w} (bucketOf next : P → B)

/-- A path to a bucket, from its end: each place leads to the bucket of the one before it, and
none lies in the bucket to which the next but one leads. -/
inductive Walk : B → List P → Prop
  | nil (b : B) : Walk b []
  | cons {b : B} {p : P} {path : List P} (hnext : next p = b) (hwalk : Walk (bucketOf p) path)
      (hback : ∀ q ∈ path.head?, bucketOf q ≠ b) : Walk b (p :: path)

variable {bucketOf next} {b : B} {p : P} {path : List P}

namespace Walk

theorem of_cons (hwalk : Walk bucketOf next b (p :: path)) :
    next p = b ∧ Walk bucketOf next (bucketOf p) path ∧ ∀ q ∈ path.head?, bucketOf q ≠ b := by
  cases hwalk with
  | cons hnext hwalk hback => exact ⟨hnext, hwalk, hback⟩

theorem next_mem (hwalk : Walk bucketOf next b path) {q : P} (hq : q ∈ path) :
    next q = b ∨ ∃ r ∈ path, next q = bucketOf r := by
  induction hwalk with
  | nil => cases hq
  | @cons b p path hnext hwalk hback ih =>
      rcases List.mem_cons.mp hq with rfl | hpath
      · exact .inl hnext
      · rcases ih hpath with heq | ⟨r, hr, heq⟩
        · exact .inr ⟨p, List.mem_cons_self, heq⟩
        · exact .inr ⟨r, List.mem_cons_of_mem p hr, heq⟩

/-- Two places after each other that are the same would lie in the bucket they lead to. -/
theorem ne_of_cons {q : P} (hwalk : Walk bucketOf next b (p :: q :: path)) : p ≠ q := by
  obtain ⟨hp, hwalk, hback⟩ := hwalk.of_cons
  obtain ⟨hq, -, -⟩ := hwalk.of_cons
  rintro rfl
  exact hback p rfl (hq.symm.trans hp)

theorem nodup_of_le_three (hwalk : Walk bucketOf next b path) (hlength : path.length ≤ 3) :
    path.Nodup := by
  match path with
  | [] => exact List.nodup_nil
  | [p] => exact List.nodup_singleton p
  | [p, q] => simpa using hwalk.ne_of_cons
  | [p, q, r] =>
      obtain ⟨-, hrest, -⟩ := hwalk.of_cons
      obtain ⟨-, -, hback⟩ := hrest.of_cons
      have hpr : p ≠ r := by
        rintro rfl
        exact hback p rfl rfl
      simpa using ⟨⟨hwalk.ne_of_cons, hpr⟩, hrest.ne_of_cons⟩

/-- If the first place came again, the bucket to which it leads would have been met before. -/
theorem nodup (hwalk : Walk bucketOf next b path) (hlength : path.length ≤ 4)
    (hfresh : ∀ p ∈ path, bucketOf p ≠ b) : path.Nodup := by
  cases path with
  | nil => exact List.nodup_nil
  | cons p path =>
      obtain ⟨hnext, hrest, -⟩ := hwalk.of_cons
      refine List.nodup_cons.mpr ⟨fun hmem => ?_, hrest.nodup_of_le_three ?_⟩
      · rcases hrest.next_mem hmem with heq | ⟨r, hr, heq⟩
        · exact hfresh p List.mem_cons_self (heq.symm.trans hnext)
        · exact hfresh r (List.mem_cons_of_mem p hr) (heq.symm.trans hnext)
      · exact Nat.le_of_succ_le_succ hlength

end Walk

end Paths

end Displacement

end ContainerScheduler.Math
