/-
# The list of children of a cancellation manager

In every reachable state the children of a manager that are not removed form a doubly linked list.
The state of a manager is created by a successful registration only, and a cancellation is announced
with or without it. A child that is made and destroyed while a cancellation goes on that has found
no state follows a null pointer; nothing else does.
-/

import ContainerScheduler.Cancellation.CancellationManager
import Mathlib.Data.List.Perm.Subperm

namespace ContainerScheduler.Analysis

open Math
open Cancellation

/-! ## The invariant -/

def nextSiblings (all : Managers) (m : ℕ) : Option ℕ := (all.managers m).nextSibling

def prevSiblings (all : Managers) (m : ℕ) : Option ℕ := (all.managers m).prevSibling

/-- A child that was not removed from its parent. -/
structure IsChild (all : Managers) (p c : ℕ) : Prop where
  made : c < all.count
  parent : (all.managers c).parent = some p
  kept : (all.managers c).isRemovedFromParent = false

/-- The children of a manager that were not removed are its list. -/
def ListsChildren (all : Managers) (p : ℕ) (list : List ℕ) : Prop :=
  WholeList (nextSiblings all) (prevSiblings all) (all.managers p).firstChild list ∧
    list.Nodup ∧ ∀ c, c ∈ list ↔ IsChild all p c

structure ListInv (all : Managers) : Prop where
  lists : ∀ p, ∃ list, ListsChildren all p list
  older : ∀ c < all.count, ∀ p, (all.managers c).parent = some p → p < c
  alive : ∀ p c, IsChild all p c → (all.managers c).life = .alive

/-- Two records of a manager with the same place in the tree. -/
structure SamePlace (old new : CancellationManager) : Prop where
  parent : new.parent = old.parent
  removed : new.isRemovedFromParent = old.isRemovedFromParent
  prev : new.prevSibling = old.prevSibling
  next : new.nextSibling = old.nextSibling
  firstChild : new.firstChild = old.firstChild
  life : old.parent ≠ none → old.isRemovedFromParent = false → old.life = .alive →
    new.life = .alive

section Invariant

variable {all after : Managers} {m p c : ℕ} {manager : CancellationManager} {list : List ℕ}

/-- Steps that change no place keep the lists. -/
theorem ListInv.congr (inv : ListInv all) (hcount : after.count = all.count)
    (hsame : ∀ m, SamePlace (all.managers m) (after.managers m)) : ListInv after := by
  have hchild : ∀ p c, IsChild after p c ↔ IsChild all p c := by
    intro p c
    constructor
    · rintro ⟨hmade, hparent, hkept⟩
      exact ⟨hcount ▸ hmade, (hsame c).parent ▸ hparent, (hsame c).removed ▸ hkept⟩
    · rintro ⟨hmade, hparent, hkept⟩
      exact ⟨hcount.symm ▸ hmade, (hsame c).parent.trans hparent, (hsame c).removed.trans hkept⟩
  constructor
  · intro p
    rcases inv.lists p with ⟨list, hwhole, hnodup, hmem⟩
    refine ⟨list, ?_, hnodup, fun c => (hmem c).trans (hchild p c).symm⟩
    rw [(hsame p).firstChild]
    exact hwhole.congr (fun c _ => (hsame c).next) fun c _ => (hsame c).prev
  · intro c hc p hparent
    exact inv.older c (hcount ▸ hc) p ((hsame c).parent ▸ hparent)
  · intro p c hc
    have hold := (hchild p c).mp hc
    exact (hsame c).life (hold.parent ▸ Option.some_ne_none p) hold.kept (inv.alive p c hold)

theorem SamePlace.refl (manager : CancellationManager) : SamePlace manager manager :=
  ⟨rfl, rfl, rfl, rfl, rfl, fun _ _ => id⟩

/-- One manager is changed, but not its place. -/
theorem ListInv.set (inv : ListInv all) (hsame : SamePlace (all.managers m) manager) :
    ListInv (all.set m manager) := by
  refine inv.congr Managers.set_count fun other => ?_
  by_cases heq : other = m
  · subst heq
    rw [Managers.set_self]
    exact hsame
  · rw [Managers.set_of_ne heq]
    exact .refl _

theorem ListInv.setLife (inv : ListInv all) (life : Life)
    (hnone : (all.managers m).parent = none ∨ (all.managers m).isRemovedFromParent = true ∨
      (all.managers m).life ≠ .alive) :
    ListInv (all.set m { all.managers m with life := life }) := by
  refine inv.set ⟨rfl, rfl, rfl, rfl, rfl, fun hparent hkept halive => ?_⟩
  rcases hnone with hroot | hremoved | hlife
  · exact absurd hroot hparent
  · cases hremoved.symm.trans hkept
  · exact absurd halive hlife

theorem ListsChildren.length_le (hlist : ListsChildren all p list) : list.length ≤ all.count := by
  have hsubset : list ⊆ List.range all.count := by
    intro c hc
    exact List.mem_range.mpr ((hlist.2.2 c).mp hc).made
  simpa using (List.subperm_of_subset hlist.2.1 hsubset).length_le

theorem ListsChildren.mem_of_first (hlist : ListsChildren all p list)
    (hfirst : (all.managers p).firstChild = some c) : c ∈ list := by
  rcases hlist.1 with ⟨last, hlinked⟩
  exact hlinked.mem_of_start hfirst

/-- The loop over the children finds the list. -/
theorem siblings_eq {before start : Option ℕ} {last : Option ℕ} {rounds : ℕ}
    (hlinked : Linked (nextSiblings all) (prevSiblings all) before start list last none)
    (hrounds : list.length ≤ rounds) : all.siblings rounds start = some list := by
  induction list generalizing before start rounds with
  | nil =>
      rcases hlinked with ⟨-, rfl⟩
      cases rounds <;> rfl
  | cons c list ih =>
      rcases hlinked with ⟨rfl, -, hrest⟩
      cases rounds with
      | zero => cases hrounds
      | succ rounds =>
          have hnext := ih hrest (Nat.le_of_succ_le_succ hrounds)
          rw [Managers.siblings]
          exact congrArg (Option.map (c :: ·)) hnext

/-- The first critical section takes exactly the children. -/
theorem ListsChildren.beginCancel_eq (hlist : ListsChildren all m list) :
    all.beginCancel m = some ((all.removeChildren list).set m
      (((all.removeChildren list).managers m).beginCancel list)) := by
  rcases hlist.1 with ⟨last, hlinked⟩
  rw [Managers.beginCancel, siblings_eq hlinked hlist.length_le]
  rfl

/-- What the first critical section changes of the place of each manager. -/
structure TakesChildren (all after : Managers) (m : ℕ) (list : List ℕ) : Prop where
  count : after.count = all.count
  firstChild : ∀ p, (after.managers p).firstChild =
    if p = m then none else (all.managers p).firstChild
  removed : ∀ c, (after.managers c).isRemovedFromParent = true ↔
    c ∈ list ∨ (all.managers c).isRemovedFromParent = true
  parent : ∀ c, (after.managers c).parent = (all.managers c).parent
  next : ∀ c, (after.managers c).nextSibling = (all.managers c).nextSibling
  prev : ∀ c, (after.managers c).prevSibling = (all.managers c).prevSibling
  life : ∀ c, (after.managers c).life = (all.managers c).life

theorem takesChildren (all : Managers) (m : ℕ) (list : List ℕ) :
    TakesChildren all ((all.removeChildren list).set m
      (((all.removeChildren list).managers m).beginCancel list)) m list := by
  constructor
  · rfl
  · intro p
    by_cases heq : p = m
    · subst heq
      rw [Managers.set_self, if_pos rfl]
      cases hstate : ((all.removeChildren list).managers p).state <;>
        simp [CancellationManager.firstChild, CancellationManager.beginCancel, hstate]
    · rw [Managers.set_of_ne heq, if_neg heq, Managers.removeChildren_managers]
      split_ifs <;> rfl
  all_goals
    intro c
    by_cases heq : c = m
    · subst heq
      rw [Managers.set_self, CancellationManager.beginCancel, Managers.removeChildren_managers]
      split_ifs with hmem <;> simp [hmem]
    · rw [Managers.set_of_ne heq, Managers.removeChildren_managers]
      split_ifs with hmem <;> simp [hmem]

/-- The list of one manager becomes empty, and the others stay as they are. -/
theorem TakesChildren.listInv (htakes : TakesChildren all after m list) (inv : ListInv all)
    (hlist : ListsChildren all m list) : ListInv after := by
  have hchild : ∀ p c, IsChild after p c ↔ IsChild all p c ∧ p ≠ m := by
    intro p c
    constructor
    · rintro ⟨hmade, hparent, hkept⟩
      rw [htakes.count] at hmade
      rw [htakes.parent] at hparent
      have hremoved := (htakes.removed c).not.mp (Bool.eq_false_iff.mp hkept)
      rw [not_or, Bool.not_eq_true] at hremoved
      refine ⟨⟨hmade, hparent, hremoved.2⟩, ?_⟩
      rintro rfl
      exact hremoved.1 ((hlist.2.2 c).mpr ⟨hmade, hparent, hremoved.2⟩)
    · rintro ⟨⟨hmade, hparent, hkept⟩, hne⟩
      refine ⟨htakes.count.symm ▸ hmade, (htakes.parent c).trans hparent, ?_⟩
      rw [Bool.eq_false_iff, Ne, htakes.removed, not_or, Bool.not_eq_true]
      refine ⟨fun hmem => hne ?_, hkept⟩
      exact Option.some.inj (hparent.symm.trans ((hlist.2.2 c).mp hmem).parent)
  constructor
  · intro p
    by_cases heq : p = m
    · subst heq
      refine ⟨[], ?_, List.nodup_nil, fun c => ?_⟩
      · rw [htakes.firstChild, if_pos rfl]
        exact .nil _ _
      · rw [hchild]
        simp
    · rcases inv.lists p with ⟨others, hwhole, hnodup, hmem⟩
      refine ⟨others, ?_, hnodup, fun c => ?_⟩
      · rw [htakes.firstChild, if_neg heq]
        exact hwhole.congr (fun c _ => htakes.next c) fun c _ => htakes.prev c
      · rw [hmem, hchild, and_iff_left heq]
  · intro c hc p hparent
    rw [htakes.count] at hc
    rw [htakes.parent] at hparent
    exact inv.older c hc p hparent
  · intro p c hc
    rw [htakes.life]
    exact inv.alive p c ((hchild p c).mp hc).1

theorem ListInv.beginCancel (inv : ListInv all) (htaken : all.beginCancel m = some after) :
    ListInv after := by
  rcases inv.lists m with ⟨list, hlist⟩
  rw [hlist.beginCancel_eq, Option.some.injEq] at htaken
  subst htaken
  exact (takesChildren all m list).listInv inv hlist

/-- A manager without children is made, which is in no list. -/
theorem ListInv.add (inv : ListInv all) (hparent : ∀ p, manager.parent = some p → p < all.count)
    (hfirst : manager.firstChild = none)
    (hnone : manager.parent = none ∨ manager.isRemovedFromParent = true)
    (hcount : after.count = all.count + 1)
    (hmanagers : after.managers = Function.update all.managers all.count manager) :
    ListInv after := by
  have hself : after.managers all.count = manager := by rw [hmanagers, Function.update_self]
  have hother : ∀ c, c ≠ all.count → after.managers c = all.managers c := by
    intro c hne
    rw [hmanagers, Function.update_of_ne hne]
  have hchild : ∀ p c, IsChild after p c ↔ IsChild all p c := by
    intro p c
    by_cases heq : c = all.count
    · subst heq
      constructor
      · rintro ⟨-, hp, hkept⟩
        rw [hself] at hp hkept
        rcases hnone with hroot | hremoved
        · cases hroot.symm.trans hp
        · cases hremoved.symm.trans hkept
      · rintro ⟨hmade, -, -⟩
        exact absurd hmade (Nat.lt_irrefl _)
    · constructor
      · rintro ⟨hmade, hp, hkept⟩
        rw [hother c heq] at hp hkept
        exact ⟨by omega, hp, hkept⟩
      · rintro ⟨hmade, hp, hkept⟩
        rw [← hother c heq] at hp hkept
        exact ⟨by omega, hp, hkept⟩
  constructor
  · intro p
    by_cases heq : p = all.count
    · subst heq
      refine ⟨[], ?_, List.nodup_nil, fun c => ?_⟩
      · rw [hself, hfirst]
        exact .nil _ _
      · rw [hchild, iff_false_left List.not_mem_nil]
        intro hc
        exact absurd (inv.older c hc.made _ hc.parent) (Nat.lt_asymm hc.made)
    · rcases inv.lists p with ⟨list, hwhole, hnodup, hmem⟩
      refine ⟨list, ?_, hnodup, fun c => (hmem c).trans (hchild p c).symm⟩
      rw [hother p heq]
      have hne : ∀ c ∈ list, c ≠ all.count := fun c hc => Nat.ne_of_lt ((hmem c).mp hc).made
      apply hwhole.congr
      · intro c hc
        exact congrArg CancellationManager.nextSibling (hother c (hne c hc))
      · intro c hc
        exact congrArg CancellationManager.prevSibling (hother c (hne c hc))
  · intro c hc p hp
    by_cases heq : c = all.count
    · subst heq
      rw [hself] at hp
      exact hparent p hp
    · rw [hother c heq] at hp
      exact inv.older c (by omega) p hp
  · intro p c hc
    have hold := (hchild p c).mp hc
    rw [hother c (Nat.ne_of_lt hold.made)]
    exact inv.alive p c hold

/-- What a registration in front changes of the place of each manager. -/
structure PutsInFront (all after : Managers) (p : ℕ) : Prop where
  count : after.count = all.count + 1
  child : (after.managers all.count).parent = some p ∧
    (after.managers all.count).isRemovedFromParent = false ∧
    (after.managers all.count).life = .alive ∧
    (after.managers all.count).firstChild = none ∧
    (after.managers all.count).prevSibling = none ∧
    (after.managers all.count).nextSibling = (all.managers p).firstChild
  firstChild : ∀ q ≠ all.count, (after.managers q).firstChild =
    if q = p then some all.count else (all.managers q).firstChild
  prev : ∀ c ≠ all.count, (after.managers c).prevSibling =
    if (all.managers p).firstChild = some c then some all.count else (all.managers c).prevSibling
  next : ∀ c ≠ all.count, (after.managers c).nextSibling = (all.managers c).nextSibling
  parent : ∀ c ≠ all.count, (after.managers c).parent = (all.managers c).parent
  removed : ∀ c ≠ all.count,
    (after.managers c).isRemovedFromParent = (all.managers c).isRemovedFromParent
  life : ∀ c ≠ all.count, (after.managers c).life = (all.managers c).life

theorem putsInFront (all : Managers) (hopen : (all.managers p).isClosed = false) :
    PutsInFront all (all.registerChild p) p := by
  have hother := Managers.registerChild_of_ne hopen
  constructor
  · simp [Managers.registerChild, hopen]
  · simp [Managers.registerChild, hopen, CancellationManager.construct,
      CancellationManager.firstChild]
  · intro q hq
    rw [hother q hq, CancellationManager.firstChild]
    split_ifs <;> rfl
  all_goals
    intro c hc
    rw [hother c hc]

theorem PutsInFront.listInv (hputs : PutsInFront all after p) (inv : ListInv all)
    (hp : p < all.count) : ListInv after := by
  rcases hputs.child with ⟨hparent, hkept, halive, hfirst, hprev, hnext⟩
  have hchild : ∀ q c, IsChild after q c ↔ (c = all.count ∧ q = p) ∨ IsChild all q c := by
    intro q c
    rcases eq_or_ne c all.count with rfl | hne
    · constructor
      · rintro ⟨-, hq, -⟩
        exact .inl ⟨rfl, Option.some.inj (hq.symm.trans hparent)⟩
      · rintro (⟨-, rfl⟩ | hc)
        · exact ⟨hputs.count ▸ Nat.lt_succ_self _, hparent, hkept⟩
        · exact absurd hc.made (Nat.lt_irrefl _)
    · constructor
      · rintro ⟨hmade, hq, hc⟩
        rw [hputs.count] at hmade
        rw [hputs.parent c hne] at hq
        rw [hputs.removed c hne] at hc
        exact .inr ⟨by omega, hq, hc⟩
      · rintro (⟨rfl, -⟩ | ⟨hmade, hq, hc⟩)
        · exact absurd rfl hne
        · rw [← hputs.parent c hne] at hq
          rw [← hputs.removed c hne] at hc
          exact ⟨hputs.count ▸ Nat.lt_succ_of_lt hmade, hq, hc⟩
  rcases inv.lists p with ⟨old, hold⟩
  have hfresh : ∀ {q : ℕ} {list : List ℕ}, ListsChildren all q list → ∀ c ∈ list, c ≠ all.count :=
    fun hlist c hc => Nat.ne_of_lt ((hlist.2.2 c).mp hc).made
  constructor
  · intro q
    rcases inv.lists q with ⟨list, hlist⟩
    rcases eq_or_ne q all.count with rfl | hq
    · refine ⟨[], ?_, List.nodup_nil, fun c => ?_⟩
      · rw [hfirst]
        exact .nil _ _
      · rw [hchild, iff_false_left List.not_mem_nil]
        rintro (⟨-, heq⟩ | hc)
        · exact absurd hp (heq ▸ Nat.lt_irrefl _)
        · exact absurd (inv.older c hc.made _ hc.parent) (Nat.lt_asymm hc.made)
    · rcases eq_or_ne q p with rfl | hne
      · have hnodup : (all.count :: list).Nodup :=
          List.nodup_cons.mpr ⟨fun hmem => hfresh hlist _ hmem rfl, hlist.2.1⟩
        refine ⟨all.count :: list, ?_, hnodup, fun c => ?_⟩
        · rw [hputs.firstChild q hq, if_pos rfl]
          apply hlist.1.cons hnodup hnext hprev
          · intro c hc
            exact hputs.next c (hfresh hlist c hc)
          · intro c hc
            exact hputs.prev c (hfresh hlist c hc)
        · rw [List.mem_cons, hlist.2.2, hchild, and_iff_left rfl]
      · refine ⟨list, ?_, hlist.2.1, fun c => ?_⟩
        · rw [hputs.firstChild q hq, if_neg hne]
          apply hlist.1.congr
          · intro c hc
            exact hputs.next c (hfresh hlist c hc)
          · intro c hc
            refine (hputs.prev c (hfresh hlist c hc)).trans (if_neg fun hhead => hne ?_)
            have hmem := (hold.2.2 c).mp (hold.mem_of_first hhead)
            exact Option.some.inj (((hlist.2.2 c).mp hc).parent.symm.trans hmem.parent)
        · rw [hlist.2.2, hchild, or_iff_right fun h => hne h.2]
  · intro c hc q hq
    rcases eq_or_ne c all.count with rfl | hne
    · obtain rfl := Option.some.inj (hq.symm.trans hparent)
      exact hp
    · rw [hputs.parent c hne] at hq
      rw [hputs.count] at hc
      exact inv.older c (by omega) q hq
  · intro q c hc
    rcases eq_or_ne c all.count with rfl | hne
    · exact halive
    · rw [hputs.life c hne]
      rcases (hchild q c).mp hc with ⟨rfl, -⟩ | hc
      · exact absurd rfl hne
      · exact inv.alive q c hc

theorem ListInv.registerChild (inv : ListInv all) (hp : p < all.count) :
    ListInv (all.registerChild p) := by
  cases hclosed : (all.managers p).isClosed with
  | true =>
      have hmanagers : (all.registerChild p).managers = Function.update all.managers all.count
          { CancellationManager.construct (some p) with
            isCancelled := true, isRemovedFromParent := true } := by
        simp [Managers.registerChild, hclosed]
      refine inv.add ?_ rfl (.inr rfl) ?_ hmanagers
      · rintro q hq
        obtain rfl := Option.some.inj hq
        exact hp
      · simp [Managers.registerChild, hclosed]
  | false => exact (putsInFront all hclosed).listInv inv hp

/-- What taking a child out changes of the place of each manager. -/
structure TakesOut (all after : Managers) (p m : ℕ) : Prop where
  count : after.count = all.count
  firstChild : ∀ q, (after.managers q).firstChild =
    if q = p ∧ (all.managers m).prevSibling = none then (all.managers m).nextSibling
    else (all.managers q).firstChild
  next : ∀ c ≠ m, (after.managers c).nextSibling =
    if (all.managers m).prevSibling = some c then (all.managers m).nextSibling
    else (all.managers c).nextSibling
  prev : ∀ c ≠ m, (after.managers c).prevSibling =
    if (all.managers m).nextSibling = some c then (all.managers m).prevSibling
    else (all.managers c).prevSibling
  parent : ∀ c, (after.managers c).parent = (all.managers c).parent
  removed : (after.managers m).isRemovedFromParent = true
  kept : ∀ c ≠ m, (after.managers c).isRemovedFromParent = (all.managers c).isRemovedFromParent
  life : ∀ c ≠ m, (after.managers c).life = (all.managers c).life

theorem takesOut (all : Managers) (hstate : (all.managers p).state ≠ none) (life : Life) :
    TakesOut all ((all.unlink p m).set m { (all.unlink p m).managers m with life :=
      life }) p m := by
  constructor
  · rfl
  · intro q
    have hfirst : ((all.unlink p m).managers q).firstChild =
        if q = p ∧ (all.managers m).prevSibling = none then (all.managers m).nextSibling
        else (all.managers q).firstChild := by
      have hq : ((all.unlink p m).managers q).state =
          if q = p ∧ (all.managers m).prevSibling = none then
            (all.managers q).state.map fun state =>
              { state with firstChild := (all.managers m).nextSibling }
          else (all.managers q).state := by rw [Managers.unlink_managers]
      rw [CancellationManager.firstChild, hq]
      split_ifs with hhead
      · rcases hhead with ⟨rfl, -⟩
        rcases Option.ne_none_iff_exists'.mp hstate with ⟨state, hstate⟩
        simp [hstate]
      · rfl
    rw [← hfirst]
    rcases eq_or_ne q m with rfl | hne
    · rw [Managers.set_self]
      rfl
    · rw [Managers.set_of_ne hne]
  · intro c hc
    rw [Managers.set_of_ne hc, Managers.unlink_managers]
  · intro c hc
    rw [Managers.set_of_ne hc, Managers.unlink_managers]
  · intro c
    rcases eq_or_ne c m with rfl | hne
    · rw [Managers.set_self, Managers.unlink_managers]
    · rw [Managers.set_of_ne hne, Managers.unlink_managers]
  · rw [Managers.set_self, Managers.unlink_managers, if_pos rfl]
  · intro c hc
    rw [Managers.set_of_ne hc, Managers.unlink_managers, if_neg hc]
  · intro c hc
    rw [Managers.set_of_ne hc, Managers.unlink_managers]

theorem TakesOut.listInv (htakes : TakesOut all after p m) (inv : ListInv all)
    (hm : IsChild all p m) : ListInv after := by
  have hchild : ∀ q c, IsChild after q c ↔ c ≠ m ∧ IsChild all q c := by
    intro q c
    rcases eq_or_ne c m with rfl | hne
    · refine iff_of_false (fun hc => ?_) fun hc => hc.1 rfl
      cases hc.kept.symm.trans htakes.removed
    · rw [and_iff_right hne]
      constructor
      · rintro ⟨hmade, hq, hc⟩
        rw [htakes.count] at hmade
        rw [htakes.parent] at hq
        rw [htakes.kept c hne] at hc
        exact ⟨hmade, hq, hc⟩
      · rintro ⟨hmade, hq, hc⟩
        rw [← htakes.count] at hmade
        rw [← htakes.parent] at hq
        rw [← htakes.kept c hne] at hc
        exact ⟨hmade, hq, hc⟩
  rcases inv.lists p with ⟨old, hold⟩
  have hmem : m ∈ old := (hold.2.2 m).mpr hm
  constructor
  · intro q
    rcases eq_or_ne q p with rfl | hne
    · refine ⟨old.erase m, ?_, hold.2.1.erase m, fun c => ?_⟩
      · refine hold.1.erase hold.2.1 hmem ?_ ?_ ?_
        · rw [htakes.firstChild]
          exact if_congr (and_iff_right rfl) rfl rfl
        · intro c _ hc
          exact htakes.next c hc
        · intro c _ hc
          exact htakes.prev c hc
      · rw [hold.2.1.mem_erase_iff, hold.2.2, hchild]
    · rcases inv.lists q with ⟨list, hlist⟩
      -- No child of another manager is a neighbour.
      have hfar : ∀ c ∈ list, c ∉ old := by
        intro c hc hc'
        have hq := ((hlist.2.2 c).mp hc).parent
        exact hne (Option.some.inj (hq.symm.trans ((hold.2.2 c).mp hc').parent))
      have hother : ∀ c ∈ list, c ≠ m := fun c hc heq => hfar c hc (heq ▸ hmem)
      refine ⟨list, ?_, hlist.2.1, fun c => ?_⟩
      · rw [htakes.firstChild, if_neg fun h => hne h.1]
        apply hlist.1.congr
        · intro c hc
          refine (htakes.next c (hother c hc)).trans (if_neg fun hprev => hfar c hc ?_)
          exact hold.1.mem_of_neighbour hmem (.inl hprev)
        · intro c hc
          refine (htakes.prev c (hother c hc)).trans (if_neg fun hnext => hfar c hc ?_)
          exact hold.1.mem_of_neighbour hmem (.inr hnext)
      · rw [hchild, ← hlist.2.2]
        exact ⟨fun hc => ⟨hother c hc, hc⟩, fun hc => hc.2⟩
  · intro c hc q hq
    rw [htakes.count] at hc
    rw [htakes.parent] at hq
    exact inv.older c hc q hq
  · intro q c hc
    rcases (hchild q c).mp hc with ⟨hne, hc⟩
    rw [htakes.life c hne]
    exact inv.alive q c hc

theorem ListInv.deregisterChild (inv : ListInv all) (hm : m < all.count)
    (hparent : (all.managers m).parent = some p) : ListInv (all.deregisterChild p m) := by
  rw [Managers.deregisterChild]
  by_cases hnull : all.ReadsState p m ∧ (all.managers p).state = none
  · rw [if_pos hnull]
    exact inv.congr rfl fun m => .refl _
  · rw [if_neg hnull]
    cases hkept : (all.managers m).isRemovedFromParent with
    | true => exact inv.setLife _ (.inr (.inl hkept))
    | false =>
        have hstate : (all.managers p).state ≠ none := fun hnone => hnull ⟨.inl hkept, hnone⟩
        exact (takesOut all hstate _).listInv inv ⟨hm, hparent, hkept⟩

theorem ListInv.state_of_readsState (inv : ListInv all) (hm : m < all.count)
    (hparent : (all.managers m).parent = some p)
    (hfinds : (all.managers p).isCancelling = true → (all.managers p).state.isSome = true) :
    all.ReadsState p m → (all.managers p).state ≠ none := by
  rintro (hkept | hcancelling) hnone
  · rcases inv.lists p with ⟨list, hlist⟩
    have hmem := (hlist.2.2 m).mpr ⟨hm, hparent, hkept⟩
    have hfirst : (all.managers p).firstChild = none := by
      rw [CancellationManager.firstChild, hnone]
      rfl
    have hempty := hfirst ▸ hlist.1
    rw [hempty.eq_nil_of_none] at hmem
    cases hmem
  · rw [hnone] at hfinds
    cases hfinds hcancelling

/-! ## The places that the other operations keep -/

theorem samePlace_registerCallback (token : ℕ) :
    SamePlace manager (manager.registerCallback token) := by
  rw [CancellationManager.registerCallback]
  split_ifs
  · exact ⟨rfl, rfl, rfl, rfl, rfl, fun _ _ => id⟩
  · refine ⟨rfl, rfl, rfl, rfl, ?_, fun _ _ => id⟩
    cases hstate : manager.state <;>
      simp [CancellationManager.firstChild, CancellationManager.createState, hstate]

theorem samePlace_eraseCallback (token : ℕ) :
    SamePlace manager (manager.eraseCallback token) := by
  refine ⟨rfl, rfl, rfl, rfl, ?_, fun _ _ => id⟩
  cases hstate : manager.state <;>
    simp [CancellationManager.firstChild, CancellationManager.eraseCallback, hstate]

theorem samePlace_notify (cancel : Cancel) : SamePlace manager (manager.notify cancel) := by
  refine ⟨rfl, rfl, rfl, rfl, ?_, fun _ _ => id⟩
  cases hstate : manager.state <;> cases hnotifies : cancel.notifies <;>
    simp [CancellationManager.firstChild, CancellationManager.notify, hstate, hnotifies]

/-! ## The steps -/

/-- No child is destroyed while a cancellation of its parent goes on that has found no state. -/
def FindsState (all : Managers) : Action → Prop
  | .destroy m => ∀ p ∈ (all.managers m).parent,
      (all.managers p).isCancelling = true → (all.managers p).state.isSome = true
  | _ => True

instance (all : Managers) : ∀ action, Decidable (FindsState all action)
  | .destroy m => inferInstanceAs (Decidable (∀ p ∈ (all.managers m).parent, _ → _))
  | .newRoot | .newChild _ | .getCancellationToken _ | .registerCallback _ _
  | .deregisterCallback _ _ | .tryDeregisterCallback _ _ | .wake _ | .startCancel _
  | .startCallback _ _ | .finishCallback _ | .nextChild _ | .childReturned _ | .complete _
  | .notify _ | .leave _ | .lastCancel _ | .free _ => inferInstanceAs (Decidable True)

/-- What a step keeps: the lists, and that there was no fault. -/
structure Kept (all after : Managers) : Prop where
  inv : ListInv all → ListInv after
  fault : after.fault = all.fault

theorem Kept.set (hsame : SamePlace (all.managers m) manager) : Kept all (all.set m manager) :=
  ⟨fun inv => inv.set hsame, rfl⟩

theorem kept_beginCancel (htaken : all.beginCancel m = some after) : Kept all after := by
  refine ⟨fun inv => inv.beginCancel htaken, ?_⟩
  rcases Option.map_eq_some_iff.mp htaken with ⟨children, -, rfl⟩
  rfl

theorem kept_startCancel (htaken : all.startCancel m = some after) : Kept all after := by
  rw [Managers.startCancel] at htaken
  split_ifs at htaken
  · obtain rfl := Option.some.inj htaken
    exact ⟨id, rfl⟩
  · exact kept_beginCancel htaken

variable {cancel : Cancel} {action : Action}

theorem kept_stepCancel (htaken : all.stepCancel m cancel action = some after) :
    Kept all after := by
  cases action with
  | startCallback _ token =>
      rcases Option.ite_none_right_eq_some.mp htaken with ⟨-, ⟨⟩⟩
      exact .set ⟨rfl, rfl, rfl, rfl, rfl, fun _ _ => id⟩
  | finishCallback _ =>
      rcases Option.map_eq_some_iff.mp htaken with ⟨token, -, rfl⟩
      exact .set ⟨rfl, rfl, rfl, rfl, rfl, fun _ _ => id⟩
  | nextChild _ =>
      rcases Option.ite_none_right_eq_some.mp htaken with ⟨-, htaken⟩
      cases hchildren : cancel.childrenToCancel with
      | nil =>
          rw [hchildren] at htaken
          cases htaken
      | cons child children =>
          rw [hchildren] at htaken
          rcases Option.ite_none_left_eq_some.mp htaken with ⟨-, htaken⟩
          by_cases hclosed : (all.managers child).isClosed = true
          · rw [if_pos hclosed] at htaken
            obtain rfl := Option.some.inj htaken
            exact .set ⟨rfl, rfl, rfl, rfl, rfl, fun _ _ => id⟩
          · rw [if_neg hclosed] at htaken
            have hbegin := kept_beginCancel htaken
            exact ⟨fun inv => hbegin.inv (inv.set ⟨rfl, rfl, rfl, rfl, rfl, fun _ _ => id⟩),
              hbegin.fault⟩
  | childReturned _ =>
      rcases Option.bind_eq_some_iff.mp htaken with ⟨child, -, htaken⟩
      rcases Option.ite_none_right_eq_some.mp htaken with ⟨-, ⟨⟩⟩
      exact .set ⟨rfl, rfl, rfl, rfl, rfl, fun _ _ => id⟩
  | complete _ =>
      rcases Option.ite_none_right_eq_some.mp htaken with ⟨-, ⟨⟩⟩
      exact .set ⟨rfl, rfl, rfl, rfl, rfl, fun _ _ => id⟩
  | notify _ =>
      rcases Option.ite_none_right_eq_some.mp htaken with ⟨-, ⟨⟩⟩
      exact .set (samePlace_notify cancel)
  | _ => cases htaken

/-- A manager that is being destroyed is in no list. -/
theorem Kept.setLife (hlife : (all.managers m).life ≠ .alive) (life : Life) :
    Kept all (all.set m { all.managers m with life := life }) :=
  ⟨fun inv => inv.setLife life (.inr (.inr hlife)), rfl⟩

theorem kept_stepDestructor (htaken : all.stepDestructor m action = some after) :
    Kept all after := by
  cases action with
  | leave _ =>
      rcases Option.ite_none_right_eq_some.mp htaken with ⟨hlife, ⟨⟩⟩
      exact .setLife (by simp [hlife.1]) .left
  | lastCancel _ =>
      rcases Option.ite_none_right_eq_some.mp htaken with ⟨hlife, htaken⟩
      have hlife : (all.managers m).life ≠ .alive := by simp [hlife]
      split_ifs at htaken
      · obtain rfl := Option.some.inj htaken
        exact .setLife hlife .freed
      · have hset := Kept.setLife hlife .cancelling
        have hbegin := kept_beginCancel htaken
        exact ⟨fun inv => hbegin.inv (hset.inv inv), hbegin.fault⟩
  | free _ =>
      rcases Option.ite_none_right_eq_some.mp htaken with ⟨hlife, ⟨⟩⟩
      exact .setLife (by simp [hlife.1]) .freed
  | _ => cases htaken

/-- **One step.** The lists stay in order, and no null pointer is followed but by the destructor of
a child whose parent is being cancelled without a state. -/
theorem ListInv.step (inv : ListInv all) (htaken : all.step action = some after) :
    ListInv after ∧ (FindsState all action → after.fault = all.fault) := by
  have hkept : Kept all after → ListInv after ∧ (FindsState all action → after.fault = all.fault) :=
    fun h => ⟨h.inv inv, fun _ => h.fault⟩
  cases action with
  | newRoot =>
      obtain rfl := Option.some.inj htaken
      refine ⟨inv.add (fun p hp => ?_) rfl (.inl rfl) rfl rfl, fun _ => rfl⟩
      cases hp
  | newChild p =>
      rcases Option.ite_none_right_eq_some.mp htaken with ⟨husable, ⟨⟩⟩
      refine ⟨inv.registerChild husable.1, fun _ => ?_⟩
      rw [Managers.registerChild]
      split_ifs <;> rfl
  | getCancellationToken m =>
      rcases Option.ite_none_right_eq_some.mp htaken with ⟨-, ⟨⟩⟩
      exact hkept (.set ⟨rfl, rfl, rfl, rfl, rfl, fun _ _ => id⟩)
  | registerCallback m token =>
      rcases Option.ite_none_right_eq_some.mp htaken with ⟨-, ⟨⟩⟩
      exact hkept (.set (samePlace_registerCallback token))
  | deregisterCallback m token =>
      rcases Option.ite_none_right_eq_some.mp htaken with ⟨-, ⟨⟩⟩
      apply hkept
      rw [Managers.deregisterCallback]
      have hrefl : ∀ m, SamePlace (all.managers m) (all.managers m) := fun m => .refl _
      split_ifs
      · exact ⟨fun inv => inv.congr rfl hrefl, rfl⟩
      · exact ⟨fun inv => inv.congr rfl hrefl, rfl⟩
      · exact ⟨fun inv => inv.congr rfl hrefl, rfl⟩
      · exact .set (samePlace_eraseCallback token)
  | tryDeregisterCallback m token =>
      rcases Option.ite_none_right_eq_some.mp htaken with ⟨-, ⟨⟩⟩
      apply hkept
      rw [Managers.tryDeregisterCallback]
      split_ifs
      · exact ⟨id, rfl⟩
      · exact .set (samePlace_eraseCallback token)
  | wake index =>
      rcases Option.bind_eq_some_iff.mp htaken with ⟨waiter, -, htaken⟩
      rcases Option.ite_none_right_eq_some.mp htaken with ⟨-, ⟨⟩⟩
      exact ⟨inv.congr rfl fun m => .refl _, fun _ => rfl⟩
  | startCancel m =>
      rcases Option.ite_none_right_eq_some.mp htaken with ⟨-, htaken⟩
      exact hkept (kept_startCancel htaken)
  | destroy m =>
      rcases Option.ite_none_right_eq_some.mp htaken with ⟨husable, htaken⟩
      cases hparent : (all.managers m).parent with
      | none =>
          rw [hparent] at htaken
          obtain rfl := Option.some.inj htaken
          exact ⟨inv.setLife _ (.inl hparent), fun _ => rfl⟩
      | some p =>
          rw [hparent] at htaken
          obtain rfl := Option.some.inj htaken
          refine ⟨inv.deregisterChild husable.1.1 hparent, fun hfinds => ?_⟩
          have hstate := inv.state_of_readsState husable.1.1 hparent (hfinds p hparent)
          rw [Managers.deregisterChild, if_neg fun h => hstate h.1 h.2]
          split_ifs <;> rfl
  | leave m =>
      rcases Option.ite_none_right_eq_some.mp htaken with ⟨-, htaken⟩
      exact hkept (kept_stepDestructor htaken)
  | lastCancel m =>
      rcases Option.ite_none_right_eq_some.mp htaken with ⟨-, htaken⟩
      exact hkept (kept_stepDestructor htaken)
  | free m =>
      rcases Option.ite_none_right_eq_some.mp htaken with ⟨-, htaken⟩
      exact hkept (kept_stepDestructor htaken)
  | startCallback m token =>
      rcases Option.bind_eq_some_iff.mp htaken with ⟨cancel, -, htaken⟩
      exact hkept (kept_stepCancel htaken)
  | finishCallback m =>
      rcases Option.bind_eq_some_iff.mp htaken with ⟨cancel, -, htaken⟩
      exact hkept (kept_stepCancel htaken)
  | nextChild m =>
      rcases Option.bind_eq_some_iff.mp htaken with ⟨cancel, -, htaken⟩
      exact hkept (kept_stepCancel htaken)
  | childReturned m =>
      rcases Option.bind_eq_some_iff.mp htaken with ⟨cancel, -, htaken⟩
      exact hkept (kept_stepCancel htaken)
  | complete m =>
      rcases Option.bind_eq_some_iff.mp htaken with ⟨cancel, -, htaken⟩
      exact hkept (kept_stepCancel htaken)
  | notify m =>
      rcases Option.bind_eq_some_iff.mp htaken with ⟨cancel, -, htaken⟩
      exact hkept (kept_stepCancel htaken)

theorem listInv_init : ListInv cancellation.init := by
  have hnone : ∀ p c, ¬ IsChild cancellation.init p c := by
    rintro p c ⟨hmade, -, -⟩
    exact absurd hmade (Nat.not_lt_zero c)
  constructor
  · intro p
    refine ⟨[], .nil _ _, List.nodup_nil, fun c => iff_of_false ?_ (hnone p c)⟩
    exact List.not_mem_nil
  · intro c hc
    exact absurd hc (Nat.not_lt_zero c)
  · intro p c hc
    exact absurd hc (hnone p c)

theorem listInv_of_reaches {guard : Managers → Action → Prop}
    (hreached : cancellation.Reaches guard all) : ListInv all := by
  refine hreached.invariant (P := ListInv) listInv_init ?_
  intro source action target _ inv _ htaken
  exact (inv.step (Option.ite_none_left_eq_some.mp htaken).2).1

theorem fault_of_reaches (hreached : cancellation.Reaches FindsState all) : all.fault = false := by
  refine hreached.invariant (P := fun all => all.fault = false) rfl ?_
  intro source action target hsource hfault hfinds htaken
  have hstep := (listInv_of_reaches hsource).step (Option.ite_none_left_eq_some.mp htaken).2
  exact (hstep.2 hfinds).trans hfault

end Invariant

/-! ## What `DeregisterChild` finds -/

/-- The list of a manager consists of its live children that were not removed. -/
def ListsLiveChildren (all : Managers) (p : ℕ) : Prop :=
  ∃ list, WholeList (nextSiblings all) (prevSiblings all) (all.managers p).firstChild list ∧
    list.Nodup ∧ ∀ c, c ∈ list ↔ IsChild all p c ∧ (all.managers c).life ≠ .freed

/-- **The state of the parent is there when it is read**, in every run in which no child is
destroyed while a cancellation goes on that has found no state. In each state this is the only
destruction that follows a null pointer. -/
theorem state_there_when_read {all : Managers} (hreached : cancellation.Reaches FindsState all) :
    all.fault = false ∧ (∀ p < all.count, ListsLiveChildren all p) ∧
      ∀ m p, all.Usable m → (all.managers m).parent = some p →
        (FindsState all (.destroy m) ↔ (all.ReadsState p m → (all.managers p).state ≠ none)) := by
  have inv := listInv_of_reaches hreached
  refine ⟨fault_of_reaches hreached, fun p _ => ?_, fun m p husable hparent => ?_⟩
  · rcases inv.lists p with ⟨list, hwhole, hnodup, hmem⟩
    refine ⟨list, hwhole, hnodup, fun c => ?_⟩
    rw [hmem, iff_self_and]
    intro hc
    simp [inv.alive p c hc]
  · constructor
    · intro hfinds
      exact inv.state_of_readsState husable.1 hparent (hfinds p hparent)
    · intro hread q hq hcancelling
      obtain rfl := Option.some.inj (hparent.symm.trans hq)
      exact Option.isSome_iff_ne_none.mpr (hread (.inr hcancelling))

/-- Two children, one of which is destroyed, and a cancellation of the parent. -/
theorem state_there_when_read_of_two : ∃ all, all.count = 3 ∧ all.fault = false ∧
    (∀ p < all.count, ListsLiveChildren all p) ∧
      ∀ m p, all.Usable m → (all.managers m).parent = some p →
        (FindsState all (.destroy m) ↔ (all.ReadsState p m → (all.managers p).state ≠ none)) := by
  have hrun : ∃ all, cancellation.Reaches FindsState all ∧ decide (all.count = 3) = true :=
    Machine.exists_reaches [.newRoot, .newChild 0, .newChild 0, .destroy 1, .startCancel 0]
      (by decide) (by decide)
  rcases hrun with ⟨all, hreached, hcount⟩
  exact ⟨all, of_decide_eq_true hcount, state_there_when_read hreached⟩

/-- A child that is made while a cancellation goes on that has found no state: its destructor reads
the state, and there is none. -/
theorem null_state_is_read : ∃ all, cancellation.Reaches Machine.Unguarded all ∧
    all.Usable 1 ∧ all.Outlives 1 ∧ (all.managers 1).parent = some 0 ∧ all.ReadsState 0 1 ∧
      (all.managers 0).state.isNone = true := by
  have hrun : ∃ all, cancellation.Reaches Machine.Unguarded all ∧
      decide (all.Usable 1 ∧ all.Outlives 1 ∧ (all.managers 1).parent = some 0 ∧
        all.ReadsState 0 1 ∧ (all.managers 0).state.isNone = true) = true :=
    Machine.exists_reaches_unguarded [.newRoot, .startCancel 0, .newChild 0] (by decide)
  rcases hrun with ⟨all, hreached, hread⟩
  exact ⟨all, hreached, of_decide_eq_true hread⟩

end ContainerScheduler.Analysis
