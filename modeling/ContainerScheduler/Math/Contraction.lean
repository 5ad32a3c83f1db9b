/-
# Adding a pair to a relation without cycles, and contracting two of its points

A pair closes a cycle exactly when its target reaches its source. Two points none of
which reaches the other can be contracted into one without closing a cycle: a cycle in
the contracted relation would pass through the point, and lead from one of the two to
one of the two before. The contracted relation is the quotient in which the two points
are one: its ways are the ways that may change between them.
-/

import Mathlib.Logic.Relation
import Mathlib.Tactic.SplitIfs

namespace ContainerScheduler.Math

open Relation (ReflTransGen TransGen)

universe u

variable {α : Type u} {r s : α → α → Prop} {a b x y : α}

/-- No point leads back to itself. -/
def Acyclic (r : α → α → Prop) : Prop := ∀ v, ¬ TransGen r v v

theorem Acyclic.mono (hs : Acyclic s) (hle : ∀ u v, r u v → s u v) : Acyclic r := fun v hcycle =>
  hs v (TransGen.mono hle v v hcycle)

/-- The target of a pair does not reach its source. -/
theorem Acyclic.not_reaches (hr : Acyclic r) (hpair : r x y) :
    ¬ (x = y ∨ ReflTransGen r y x) := by
  rintro (rfl | hpath)
  · exact hr x (.single hpair)
  · exact hr x (.head' hpair hpath)

/-- The second point is taken away and its pairs are given to the first one. -/
def contract (r : α → α → Prop) (a b : α) : α → α → Prop := fun u v =>
  (r u v ∧ u ≠ b ∧ v ≠ b) ∨ (u = a ∧ r b v) ∨ (v = a ∧ r u b)

/-- A way that leaves one of the two points after it has entered one of them. -/
def Through (r : α → α → Prop) (a b u v : α) : Prop :=
  ∃ p q, (p = a ∨ p = b) ∧ (q = a ∨ q = b) ∧ ReflTransGen r u p ∧ ReflTransGen r q v ∧
    (TransGen r u p ∨ TransGen r q v)

/-- Neither of the two points leads to one of them. -/
def Apart (r : α → α → Prop) (a b : α) : Prop :=
  ∀ p q, (p = a ∨ p = b) → (q = a ∨ q = b) → ¬ TransGen r p q

/-- One step. -/
theorem through_single {v w : α} (hstep : contract r a b v w) :
    TransGen r v w ∨ Through r a b v w := by
  obtain ⟨hr, -, -⟩ | ⟨rfl, hr⟩ | ⟨rfl, hr⟩ := hstep
  · exact .inl (.single hr)
  · exact .inr ⟨v, b, .inl rfl, .inr rfl, .refl, .single hr, .inr (.single hr)⟩
  · exact .inr ⟨b, w, .inr rfl, .inl rfl, .single hr, .refl, .inl (.single hr)⟩

/-- One more step. -/
theorem through_step (hapart : Apart r a b) {u v w : α}
    (hway : TransGen r u v ∨ Through r a b u v) (hstep : contract r a b v w) :
    TransGen r u w ∨ Through r a b u w := by
  have hone := through_single hstep
  obtain hway | ⟨p, q, hp, hq, hup, hqv, hstrict⟩ := hway <;>
    obtain hone | ⟨p', q', hp', hq', hvp', hq'w, hstrict'⟩ := hone
  · exact .inl (hway.trans hone)
  · exact .inr ⟨p', q', hp', hq', (hway.trans_left hvp').to_reflTransGen, hq'w,
      .inl (hway.trans_left hvp')⟩
  · exact .inr ⟨p, q, hp, hq, hup, (hone.trans_right hqv).to_reflTransGen,
      .inr (hone.trans_right hqv)⟩
  · refine .inr ⟨p, q', hp, hq', hup, hq'w, ?_⟩
    -- the way between the two visits is empty
    have hempty : ¬ TransGen r q p' := hapart q p' hq hp'
    obtain hup | hqv := hstrict
    · exact .inl hup
    · exact absurd (hqv.trans_left hvp') hempty

/-- **Contraction.** -/
theorem acyclic_contract (hr : Acyclic r) (hapart : Apart r a b) : Acyclic (contract r a b) := by
  intro v hcycle
  have hway : ∀ w, TransGen (contract r a b) v w → TransGen r v w ∨ Through r a b v w := by
    intro w hw
    induction hw with
    | single hstep => exact through_single hstep
    | tail _ hstep ih => exact through_step hapart ih hstep
  obtain hloop | ⟨p, q, hp, hq, hvp, hqv, hstrict⟩ := hway v hcycle
  · exact hr v hloop
  · obtain hvp | hqv := hstrict
    · exact hapart q p hq hp (hvp.trans_right hqv)
    · exact hapart q p hq hp (hqv.trans_left hvp)

/-- The ends of a pair are apart once the pair is gone, if there is no other way from the
first one to the second one. -/
theorem apart_of_pair (hr : Acyclic r) (hpair : r a b)
    (hother : ¬ ReflTransGen (fun u v => r u v ∧ ¬ (u = a ∧ v = b)) a b) :
    Apart (fun u v => r u v ∧ ¬ (u = a ∧ v = b)) a b := by
  have hold : ∀ {p q}, TransGen (fun u v => r u v ∧ ¬ (u = a ∧ v = b)) p q → TransGen r p q :=
    fun hway => TransGen.mono (fun _ _ h => h.1) _ _ hway
  rintro p q (rfl | rfl) (rfl | rfl) hway
  · exact hr _ (hold hway)
  · exact hother hway.to_reflTransGen
  · exact hr _ ((hold hway).tail hpair)
  · exact hr _ (hold hway)

/-- There is another way than the pair from its source to its target exactly when a way
leads from a second successor of the source to the target. -/
theorem other_way_iff (hr : Acyclic r) (hpair : r a b) :
    ReflTransGen (fun u v => r u v ∧ ¬ (u = a ∧ v = b)) a b ↔ ∃ c, r a c ∧ TransGen r c b := by
  constructor
  · intro hway
    rcases hway.cases_head with rfl | ⟨c, ⟨hac, hnot⟩, hcb⟩
    · exact absurd (.single hpair) (hr a)
    · refine ⟨c, hac, ?_⟩
      rcases Relation.reflTransGen_iff_eq_or_transGen.mp hcb with rfl | hcb
      · exact absurd ⟨rfl, rfl⟩ hnot
      · exact TransGen.mono (fun _ _ h => h.1) _ _ hcb
  · rintro ⟨c, hac, hcb⟩
    -- the way does not come back to the source of the pair
    have hkeeps : ∀ w, ReflTransGen r c w →
        ReflTransGen (fun u v => r u v ∧ ¬ (u = a ∧ v = b)) c w := by
      intro w hcw
      induction hcw with
      | refl => exact .refl
      | tail hcw hstep ih =>
          refine ih.tail ⟨hstep, ?_⟩
          rintro ⟨rfl, -⟩
          exact hr _ (.head' hac hcw)
    refine .head ⟨hac, ?_⟩ (hkeeps b hcb.to_reflTransGen)
    rintro ⟨-, rfl⟩
    exact hr _ hcb

section Quotient

variable [DecidableEq α]

/-- The second point becomes the first one. -/
def merge (a b w : α) : α := if w = b then a else w

theorem merge_of_ne {w : α} (hne : w ≠ b) : merge a b w = w := if_neg hne

/-- The relation between the merged points, without pairs of a point and itself. -/
def Merged (r : α → α → Prop) (a b : α) : α → α → Prop := fun u v =>
  Relation.Map r (merge a b) (merge a b) u v ∧ u ≠ v

/-- The relation with steps between the two points in both directions. -/
def Identified (r : α → α → Prop) (a b : α) : α → α → Prop := fun u v =>
  r u v ∨ (u = a ∧ v = b) ∨ (u = b ∧ v = a)

/-- **The contracted relation is the quotient.** -/
theorem contract_iff_merged (hr : Acyclic r) (hpair : r a b) {u v : α} :
    contract (fun u v => r u v ∧ ¬ (u = a ∧ v = b)) a b u v ↔ Merged r a b u v := by
  have hirrefl : ∀ w, ¬ r w w := fun w hw => hr w (.single hw)
  have hne : a ≠ b := fun heq => hirrefl b (heq ▸ hpair)
  constructor
  · rintro (⟨⟨huv, hnot⟩, hu, hv⟩ | ⟨rfl, hbv, -⟩ | ⟨rfl, hub, hnot⟩)
    · exact ⟨⟨u, v, huv, merge_of_ne hu, merge_of_ne hv⟩, fun heq => hirrefl v (heq ▸ huv)⟩
    · have hv : v ≠ b := fun heq => hirrefl b (heq ▸ hbv)
      refine ⟨⟨b, v, hbv, if_pos rfl, merge_of_ne hv⟩, ?_⟩
      rintro rfl
      exact hr _ (.tail (.single hpair) hbv)
    · have hu : u ≠ b := fun heq => hirrefl b (heq ▸ hub)
      exact ⟨⟨u, b, hub, merge_of_ne hu, if_pos rfl⟩, fun heq => hnot ⟨heq, rfl⟩⟩
  · rintro ⟨⟨s, t, hst, rfl, rfl⟩, hdiffer⟩
    by_cases hs : s = b
    · subst hs
      have ht : t ≠ s := fun heq => hirrefl s (heq ▸ hst)
      exact .inr (.inl ⟨if_pos rfl, by rw [merge_of_ne ht]; exact ⟨hst, fun h => hne h.1.symm⟩⟩)
    · rw [merge_of_ne hs] at hdiffer ⊢
      by_cases ht : t = b
      · subst ht
        rw [merge, if_pos rfl] at hdiffer ⊢
        exact .inr (.inr ⟨rfl, hst, fun h => hdiffer h.1⟩)
      · rw [merge_of_ne ht] at hdiffer ⊢
        exact .inl ⟨⟨hst, fun h => ht h.2⟩, hs, ht⟩

/-- Points that are merged lead to each other. -/
theorem identified_of_merge_eq {u v : α} (hequal : merge a b u = merge a b v) :
    ReflTransGen (Identified r a b) u v := by
  unfold merge at hequal
  split_ifs at hequal with hu hv hv
  · rw [hu, hv]
  · exact .single (.inr (.inr ⟨hu, hequal.symm⟩))
  · exact .single (.inr (.inl ⟨hequal, hv⟩))
  · rw [hequal]

/-- **Ways in the quotient.** -/
theorem reaches_merged_iff {u v : α} :
    ReflTransGen (Merged r a b) (merge a b u) (merge a b v) ↔
      ReflTransGen (Identified r a b) u v := by
  constructor
  · intro hway
    have hlift : ∀ w, ReflTransGen (Merged r a b) (merge a b u) w →
        ∀ t, merge a b t = w → ReflTransGen (Identified r a b) u t := by
      intro w hw
      induction hw with
      | refl => exact fun t ht => identified_of_merge_eq ht.symm
      | tail _ hstep ih =>
          intro t ht
          rcases hstep with ⟨⟨s, s', hs, hsource, htarget⟩, -⟩
          exact ((ih s hsource).tail (.inl hs)).trans
            (identified_of_merge_eq (htarget.trans ht.symm))
    exact hlift _ hway v rfl
  · intro hway
    have hboth : merge a b a = merge a b b := by
      rw [merge, merge, if_pos rfl]
      split_ifs <;> rfl
    induction hway with
    | refl => exact .refl
    | @tail s t _ hstep ih =>
        rcases hstep with hst | ⟨rfl, rfl⟩ | ⟨rfl, rfl⟩
        · by_cases hsame : merge a b s = merge a b t
          · exact hsame ▸ ih
          · exact ih.tail ⟨⟨s, t, hst, rfl, rfl⟩, hsame⟩
        · exact hboth ▸ ih
        · exact hboth ▸ ih

end Quotient

end ContainerScheduler.Math
