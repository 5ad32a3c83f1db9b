/-
# Doubly linked lists

The elements of a list have pointers to the next and to the previous one, and whoever owns the list
has a pointer to the first. An element is put in front, and taken out wherever it is, by changing
the pointers of its neighbours only.
-/

import Mathlib.Data.List.Nodup

namespace ContainerScheduler.Math

universe u

variable {α : Type u}

/-- The pointers lead through a list: it comes after `before` and starts with `start`, and after it
`last` is the element before `stop`. -/
def Linked (next prev : α → Option α) (before start : Option α) :
    List α → Option α → Option α → Prop
  | [], last, stop => last = before ∧ start = stop
  | a :: rest, last, stop =>
      start = some a ∧ prev a = before ∧ Linked next prev (some a) (next a) rest last stop

/-- A whole list, with nothing before it and nothing after it. -/
def WholeList (next prev : α → Option α) (first : Option α) (list : List α) : Prop :=
  ∃ last, Linked next prev none first list last none

namespace Linked

variable {next prev next' prev' : α → Option α} {before start last stop : Option α}
  {list front back : List α} {a : α}

/-- A list depends on the pointers of its elements only. -/
theorem congr (hlinked : Linked next prev before start list last stop)
    (hnext : ∀ b ∈ list, next' b = next b) (hprev : ∀ b ∈ list, prev' b = prev b) :
    Linked next' prev' before start list last stop := by
  induction list generalizing before start with
  | nil => exact hlinked
  | cons b rest ih =>
      rcases hlinked with ⟨hstart, hbefore, hrest⟩
      refine ⟨hstart, (hprev b List.mem_cons_self).trans hbefore, ?_⟩
      rw [hnext b List.mem_cons_self]
      apply ih hrest
      · intro c hmem
        exact hnext c (List.mem_cons_of_mem b hmem)
      · intro c hmem
        exact hprev c (List.mem_cons_of_mem b hmem)

/-- A list is linked when its two parts are. -/
theorem append_iff : Linked next prev before start (front ++ back) last stop ↔
    ∃ last' start', Linked next prev before start front last' start' ∧
      Linked next prev last' start' back last stop := by
  induction front generalizing before start with
  | nil =>
      constructor
      · intro hback
        exact ⟨before, start, ⟨rfl, rfl⟩, hback⟩
      · rintro ⟨_, _, ⟨rfl, rfl⟩, hback⟩
        exact hback
  | cons b front ih =>
      constructor
      · rintro ⟨hstart, hbefore, hrest⟩
        rcases ih.mp hrest with ⟨last', start', hfront, hback⟩
        exact ⟨last', start', ⟨hstart, hbefore, hfront⟩, hback⟩
      · rintro ⟨last', start', ⟨hstart, hbefore, hfront⟩, hback⟩
        exact ⟨hstart, hbefore, ih.mpr ⟨last', start', hfront, hback⟩⟩

/-- A list that ends nowhere starts with one of its elements. -/
theorem mem_of_start (hlinked : Linked next prev before start list last none)
    (hstart : start = some a) : a ∈ list := by
  cases list with
  | nil => cases hstart.symm.trans hlinked.2
  | cons b list =>
      rcases hlinked with ⟨hfirst, -⟩
      obtain rfl : a = b := Option.some.inj (hstart.symm.trans hfirst)
      exact List.mem_cons_self

section

variable (hlinked : Linked next prev before start list last stop)

include hlinked

/-- The last element is one of the list, or what came before it. -/
theorem mem_of_last (hlast : last = some a) : before = some a ∨ a ∈ list := by
  induction list generalizing before start with
  | nil => exact .inl (hlinked.1.symm.trans hlast)
  | cons b list ih =>
      rcases hlinked with ⟨-, -, hrest⟩
      apply Or.inr
      rcases ih hrest with hfirst | hmem
      · obtain rfl := Option.some.inj hfirst
        exact List.mem_cons_self
      · exact List.mem_cons_of_mem b hmem

/-- A list with elements has a last one. -/
theorem exists_last (hne : list ≠ []) : ∃ b ∈ list, last = some b := by
  induction list generalizing before start with
  | nil => exact (hne rfl).elim
  | cons b list ih =>
      cases list with
      | nil => exact ⟨b, List.mem_cons_self, hlinked.2.2.1⟩
      | cons c list =>
          obtain ⟨d, hmem, hlast⟩ := ih hlinked.2.2 (List.cons_ne_nil c list)
          exact ⟨d, List.mem_cons_of_mem b hmem, hlast⟩

/-- The stop of a list is changed at the last element, or at the owner. -/
theorem set_stop [DecidableEq α] (hnodup : list.Nodup) (stop' : Option α) :
    (list = [] ∧ Linked next prev before stop' list last stop') ∨
      ∃ b ∈ list, last = some b ∧
        Linked (Function.update next b stop') prev before start list last stop' := by
  induction list generalizing before start with
  | nil =>
      rcases hlinked with ⟨hlast, -⟩
      exact .inl ⟨rfl, hlast, rfl⟩
  | cons b list ih =>
      rcases hlinked with ⟨hstart, hbefore, hrest⟩
      rcases List.nodup_cons.mp hnodup with ⟨hfresh, hnodup⟩
      apply Or.inr
      rcases ih hrest hnodup with ⟨rfl, hempty⟩ | ⟨c, hmem, hlast, hlist⟩
      · refine ⟨b, List.mem_cons_self, hempty.1, hstart, hbefore, hempty.1, ?_⟩
        exact Function.update_self ..
      · refine ⟨c, List.mem_cons_of_mem b hmem, hlast, hstart, hbefore, ?_⟩
        have hne : b ≠ c := fun heq => hfresh (heq.symm ▸ hmem)
        rw [Function.update_of_ne hne]
        exact hlist

/-- What comes before a list is changed at its first element. -/
theorem set_before [DecidableEq α] (hnodup : list.Nodup) (before' : Option α) :
    (list = [] ∧ start = stop) ∨ ∃ b ∈ list, start = some b ∧
      Linked next (Function.update prev b before') before' start list last stop := by
  cases list with
  | nil => exact .inl ⟨rfl, hlinked.2⟩
  | cons b list =>
      rcases hlinked with ⟨hstart, -, hrest⟩
      refine .inr ⟨b, List.mem_cons_self, hstart, hstart, Function.update_self .., ?_⟩
      apply hrest.congr
      · intro c _
        rfl
      · intro c hmem
        have hne : c ≠ b := fun heq => (List.nodup_cons.mp hnodup).1 (heq ▸ hmem)
        exact Function.update_of_ne hne ..

end

/-- An element is put in front of a list. -/
theorem cons [DecidableEq α] (hlinked : Linked next prev none start list last none)
    (hnodup : (a :: list).Nodup) (hnext : next' a = start) (hprev : prev' a = none)
    (hnext_other : ∀ b ∈ list, next' b = next b)
    (hprev_other : ∀ b ∈ list, prev' b = if start = some b then some a else prev b) :
    Linked next' prev' none (some a) (a :: list) (if start = none then some a else last) none := by
  cases list with
  | nil =>
      obtain rfl := hlinked.2
      exact ⟨rfl, hprev, rfl, hnext⟩
  | cons b list =>
      rcases hlinked with ⟨hstart, -, hrest⟩
      rw [if_neg (hstart ▸ Option.some_ne_none b)]
      refine ⟨rfl, hprev, hnext.trans hstart, ?_, ?_⟩
      · rw [hprev_other b List.mem_cons_self, if_pos hstart]
      · rw [hnext_other b List.mem_cons_self]
        apply hrest.congr
        · intro c hmem
          exact hnext_other c (List.mem_cons_of_mem b hmem)
        · intro c hmem
          have hne : b ≠ c := by
            rintro rfl
            exact (List.nodup_cons.mp (List.nodup_cons.mp hnodup).2).1 hmem
          rw [hprev_other c (List.mem_cons_of_mem b hmem), if_neg]
          intro heq
          exact hne (Option.some.inj (hstart.symm.trans heq))

/-- The elements at the ends are known by their pointers. -/
theorem ends (hlinked : Linked next prev none start list last none) (hmem : a ∈ list) :
    (prev a = none → start = some a) ∧ (next a = none → last = some a) := by
  rcases List.append_of_mem hmem with ⟨front, back, rfl⟩
  rcases append_iff.mp hlinked with ⟨last', start', hfront, hstart, hlast, hback⟩
  constructor
  · intro hnone
    rcases List.eq_nil_or_concat front with rfl | ⟨front, b, rfl⟩
    · exact hfront.2.trans hstart
    · rw [List.concat_eq_append] at hfront
      rcases append_iff.mp hfront with ⟨_, _, -, -, -, hlast', -⟩
      cases hlast'.symm.trans (hlast.symm.trans hnone)
  · intro hnone
    cases back with
    | nil => exact hback.1
    | cons b back => cases hnone.symm.trans hback.1

/-- **An element is taken out** by changing the pointers of its neighbours, or of the owner. -/
theorem erase [DecidableEq α] {start' last' : Option α}
    (hlinked : Linked next prev none start list last none) (hnodup : list.Nodup)
    (hmem : a ∈ list) (hstart : start' = if prev a = none then next a else start)
    (hlast : last' = if next a = none then prev a else last)
    (hnext : ∀ b ∈ list, b ≠ a → next' b = if prev a = some b then next a else next b)
    (hprev : ∀ b ∈ list, b ≠ a → prev' b = if next a = some b then prev a else prev b) :
    Linked next' prev' none start' (list.erase a) last' none := by
  rcases List.append_of_mem hmem with ⟨front, back, rfl⟩
  rcases append_iff.mp hlinked with ⟨_, next₁, hfront, hfirst, hmiddle, hback⟩
  subst hmiddle
  rcases List.nodup_append.mp hnodup with ⟨hnodupFront, hnodupRest, hdisjoint⟩
  rcases List.nodup_cons.mp hnodupRest with ⟨hfreshBack, hnodupBack⟩
  have hfreshFront : a ∉ front := fun hin => hdisjoint a hin a List.mem_cons_self rfl
  rw [List.erase_append_right _ hfreshFront, List.erase_cons_head]
  -- No element has its neighbours in both parts.
  have hnextFront : ∀ d ∈ front, next a ≠ some d := by
    intro d hd heq
    exact hdisjoint d hd d (List.mem_cons_of_mem a (hback.mem_of_start heq)) rfl
  have hfrontAfter : Linked next' prev' none start' front (prev a) (next a) := by
    rcases hfront.set_stop hnodupFront (next a) with ⟨rfl, hempty⟩ | ⟨b, hb, hend, hset⟩
    · rw [if_pos hempty.1] at hstart
      exact ⟨hempty.1, hstart⟩
    · rw [if_neg (hend ▸ Option.some_ne_none b)] at hstart
      subst hstart
      apply hset.congr
      · intro d hd
        rw [hnext d (List.mem_append_left _ hd) fun heq => hfreshFront (heq ▸ hd), hend]
        by_cases heq : d = b
        · rw [heq, if_pos rfl, Function.update_self]
        · rw [if_neg fun h => heq (Option.some.inj h).symm, Function.update_of_ne heq]
      · intro d hd
        rw [hprev d (List.mem_append_left _ hd) fun heq => hfreshFront (heq ▸ hd),
          if_neg (hnextFront d hd)]
  have hprevBack : ∀ d ∈ back, prev a ≠ some d := by
    intro d hd heq
    rcases hfront.mem_of_last heq with hnone | hmem
    · cases hnone
    · exact hdisjoint d hmem d (List.mem_cons_of_mem a hd) rfl
  have hmemBack : ∀ d ∈ back, d ∈ front ++ a :: back :=
    fun d hd => List.mem_append_right _ (List.mem_cons_of_mem a hd)
  rcases hback.set_before hnodupBack (prev a) with ⟨rfl, hstop⟩ | ⟨c, hc, hfirstBack, hset⟩
  · rw [if_pos hstop] at hlast
    exact append_iff.mpr ⟨prev a, next a, hfrontAfter, hlast, hstop⟩
  · rw [if_neg (hfirstBack ▸ Option.some_ne_none c)] at hlast
    subst hlast
    refine append_iff.mpr ⟨prev a, next a, hfrontAfter, ?_⟩
    apply hset.congr
    · intro d hd
      rw [hnext d (hmemBack d hd) fun heq => hfreshBack (heq ▸ hd), if_neg (hprevBack d hd)]
    · intro d hd
      rw [hprev d (hmemBack d hd) fun heq => hfreshBack (heq ▸ hd), hfirstBack]
      by_cases heq : d = c
      · rw [heq, if_pos rfl, Function.update_self]
      · rw [if_neg fun h => heq (Option.some.inj h).symm, Function.update_of_ne heq]

end Linked

namespace WholeList

variable {next prev next' prev' : α → Option α} {first first' : Option α} {list : List α} {a : α}

theorem nil (next prev : α → Option α) : WholeList next prev none [] := ⟨none, rfl, rfl⟩

theorem congr (hlist : WholeList next prev first list) (hnext : ∀ b ∈ list, next' b = next b)
    (hprev : ∀ b ∈ list, prev' b = prev b) : WholeList next' prev' first list := by
  rcases hlist with ⟨last, hlinked⟩
  exact ⟨last, hlinked.congr hnext hprev⟩

theorem eq_nil_of_none (hlist : WholeList next prev none list) : list = [] := by
  rcases hlist with ⟨last, hlinked⟩
  cases list with
  | nil => rfl
  | cons b list => cases hlinked.1

variable [DecidableEq α]

/-- An element is put in front. -/
theorem cons (hlist : WholeList next prev first list) (hnodup : (a :: list).Nodup)
    (hnext : next' a = first) (hprev : prev' a = none)
    (hnext_other : ∀ b ∈ list, next' b = next b)
    (hprev_other : ∀ b ∈ list, prev' b = if first = some b then some a else prev b) :
    WholeList next' prev' (some a) (a :: list) := by
  rcases hlist with ⟨last, hlinked⟩
  exact ⟨_, hlinked.cons hnodup hnext hprev hnext_other hprev_other⟩

omit [DecidableEq α] in
/-- The neighbours of an element are in the list. -/
theorem mem_of_neighbour (hlist : WholeList next prev first list) (hmem : a ∈ list) {b : α}
    (hneighbour : prev a = some b ∨ next a = some b) : b ∈ list := by
  rcases hlist with ⟨last, hlinked⟩
  rcases List.append_of_mem hmem with ⟨front, back, rfl⟩
  rcases Linked.append_iff.mp hlinked with ⟨last', start', hfront, hstart, hlast, hback⟩
  rcases hneighbour with hprev | hnext
  · rcases hfront.mem_of_last (hlast.symm.trans hprev) with hnone | hin
    · cases hnone
    · exact List.mem_append_left _ hin
  · exact List.mem_append_right _ (List.mem_cons_of_mem a (hback.mem_of_start hnext))

/-- **An element is taken out** by changing the pointers of its neighbours, or of the owner. -/
theorem erase (hlist : WholeList next prev first list) (hnodup : list.Nodup)
    (hmem : a ∈ list) (hfirst : first' = if prev a = none then next a else first)
    (hnext : ∀ b ∈ list, b ≠ a → next' b = if prev a = some b then next a else next b)
    (hprev : ∀ b ∈ list, b ≠ a → prev' b = if next a = some b then prev a else prev b) :
    WholeList next' prev' first' (list.erase a) := by
  rcases hlist with ⟨last, hlinked⟩
  exact ⟨_, hlinked.erase hnodup hmem hfirst rfl hnext hprev⟩

end WholeList

end ContainerScheduler.Math
