/-
# Every party of a buffer rendezvous is completed once

Each hook is in one place: in the table, with a consumer, or in a call that will hand it over
or delete it; or it is deleted. Likewise each callback has been called, or is owed in one place: by
a hook in the table or with a consumer, or by a statement that a call has not come to.
-/

import ContainerScheduler.Rendezvous.BufRendezvous
import Mathlib.Data.List.Nodup

namespace ContainerScheduler.Analysis

open Math
open Rendezvous

variable {κ ν ε : Type} {state : BufState κ ν ε}

/-! ## What a statement owes -/

/-- The hook that a statement hands over or deletes. -/
def ownedHooks : Action κ ε → List ℕ
  | .handOver hook => [hook]
  | .delete hook => [hook]
  | _ => []

/-- The hook that a statement hands over. -/
def offeredHooks : Action κ ε → List ℕ
  | .handOver hook => [hook]
  | _ => []

/-- The producer callback that a statement calls, or that is called after it hands over. -/
def owedProducers (hooks : ℕ → Hook ν) : Action κ ε → List ℕ
  | .handOver hook => (hooks hook).prodCb.toList
  | .failProducer producer _ => [producer]
  | .abortProducer hook _ => (hooks hook).prodCb.toList
  | .tellProducer hook => (hooks hook).prodCb.toList
  | _ => []

/-- The consumer callback that a statement calls. -/
def owedConsumers (hooks : ℕ → Hook ν) : Action κ ε → List ℕ
  | .handOver hook => (hooks hook).consCb.toList
  | .failConsumer consumer _ => [consumer]
  | .abortConsumer hook _ => (hooks hook).consCb.toList
  | _ => []

/-- The hook that a statement looks at and leaves for a later one to delete. -/
def readHooks : Action κ ε → List ℕ
  | .abortConsumer hook _ => [hook]
  | .abortProducer hook _ => [hook]
  | .tellProducer hook => [hook]
  | _ => []

/-- What a call looks at it will delete. -/
def ReadsOwned : List (Action κ ε) → Prop
  | [] => True
  | action :: rest => (∀ hook ∈ readHooks action, hook ∈ rest.flatMap ownedHooks) ∧ ReadsOwned rest

theorem readsOwned_append {first second : List (Action κ ε)} (hfirst : ReadsOwned first)
    (hsecond : ReadsOwned second) : ReadsOwned (first ++ second) := by
  induction first with
  | nil => exact hsecond
  | cons action first ih =>
      refine ⟨fun hook hhook => ?_, ih hfirst.2⟩
      change hook ∈ (first ++ second).flatMap ownedHooks
      rw [List.flatMap_append]
      exact List.mem_append_left _ (hfirst.1 hook hhook)

theorem readsOwned_purge (status : ε) (order : List ℕ) :
    ReadsOwned (κ := κ) (order.flatMap (BufState.purge status)) := by
  induction order with
  | nil => trivial
  | cons hook order ih =>
      refine readsOwned_append ?_ ih
      simp [BufState.purge, ReadsOwned, readHooks, ownedHooks]

theorem readsOwned_handOver (hook : ℕ) : ReadsOwned [(.handOver hook : Action κ ε)] :=
  ⟨fun _ hread => absurd hread List.not_mem_nil, trivial⟩

/-- What is read is owned. -/
theorem mem_owned_of_mem_read {activity : List (Action κ ε)} (hcovered : ReadsOwned activity)
    {action : Action κ ε} (haction : action ∈ activity) {hook : ℕ}
    (hhook : hook ∈ readHooks action) :
    hook ∈ activity.flatMap ownedHooks := by
  induction activity with
  | nil => cases haction
  | cons first rest ih =>
      rw [List.flatMap_cons]
      obtain rfl | hrest := List.mem_cons.mp haction
      · exact List.mem_append_right _ (hcovered.1 hook hhook)
      · exact List.mem_append_right _ (ih hcovered.2 hrest)

/-- A hook that a statement neither owns nor reads may change. -/
theorem owedProducers_update {hooks : ℕ → Hook ν} {action : Action κ ε} {index : ℕ} (hook : Hook ν)
    (howned : index ∉ ownedHooks action) (hread : index ∉ readHooks action) :
    owedProducers (Function.update hooks index hook) action = owedProducers hooks action := by
  cases action <;>
    simp_all [owedProducers, ownedHooks, readHooks, Function.update_of_ne, Ne.symm]

theorem owedConsumers_update {hooks : ℕ → Hook ν} {action : Action κ ε} {index : ℕ} (hook : Hook ν)
    (howned : index ∉ ownedHooks action) (hread : index ∉ readHooks action) :
    owedConsumers (Function.update hooks index hook) action = owedConsumers hooks action := by
  cases action <;>
    simp_all [owedConsumers, ownedHooks, readHooks, Function.update_of_ne, Ne.symm]

/-! ## What the calls owe together -/

def owed (activities : List (List (Action κ ε))) (f : Action κ ε → List ℕ) : List ℕ :=
  activities.flatten.flatMap f

theorem count_owed_concat (activities : List (List (Action κ ε))) (activity : List (Action κ ε))
    (f : Action κ ε → List ℕ) (x : ℕ) :
    (owed (activities ++ [activity]) f).count x =
      (owed activities f).count x + (activity.flatMap f).count x := by
  simp [owed, List.count_append]

/-- A statement that is taken off a call takes with it what it owes. -/
theorem count_owed_set {activities : List (List (Action κ ε))} {index : ℕ} {action : Action κ ε}
    {rest : List (Action κ ε)} (hget : activities[index]? = some (action :: rest))
    (f : Action κ ε → List ℕ) (x : ℕ) :
    (owed activities f).count x =
      (owed (activities.set index rest) f).count x + (f action).count x := by
  obtain ⟨hindex, hget⟩ := List.getElem?_eq_some_iff.mp hget
  have hsplit : activities =
      activities.take index ++ (action :: rest) :: activities.drop (index + 1) := by
    rw [← hget, ← List.drop_eq_getElem_cons hindex, List.take_append_drop]
  have hbefore : owed activities f = (activities.take index).flatten.flatMap f ++
      (f action ++ (rest.flatMap f ++ (activities.drop (index + 1)).flatten.flatMap f)) := by
    rw [owed]
    conv_lhs => rw [hsplit]
    simp
  have hafter : owed (activities.set index rest) f = (activities.take index).flatten.flatMap f ++
      (rest.flatMap f ++ (activities.drop (index + 1)).flatten.flatMap f) := by
    rw [owed, List.set_eq_take_append_cons_drop, if_pos hindex]
    simp
  rw [hbefore, hafter]
  simp only [List.count_append]
  omega

theorem owed_congr {activities : List (List (Action κ ε))} {f g : Action κ ε → List ℕ}
    (heq : ∀ activity ∈ activities, ∀ action ∈ activity, f action = g action) :
    owed activities f = owed activities g := by
  rw [owed, owed, List.flatMap_def, List.flatMap_def]
  refine congrArg List.flatten (List.map_congr_left fun action haction => ?_)
  obtain ⟨activity, hactivity, haction⟩ := List.mem_flatten.mp haction
  exact heq activity hactivity action haction

theorem count_offered_le (activities : List (List (Action κ ε))) (h : ℕ) :
    (owed activities offeredHooks).count h ≤ (owed activities ownedHooks).count h := by
  rw [owed, owed]
  induction activities.flatten with
  | nil => exact le_rfl
  | cons action rest ih =>
      rw [List.flatMap_cons, List.flatMap_cons, List.count_append, List.count_append]
      refine Nat.add_le_add ?_ ih
      cases action <;> simp [offeredHooks, ownedHooks]

theorem mem_owed {activities : List (List (Action κ ε))} {f : Action κ ε → List ℕ}
    {activity : List (Action κ ε)} {action : Action κ ε} {x : ℕ} (hactivity : activity ∈ activities)
    (haction : action ∈ activity) (hx : x ∈ f action) : x ∈ owed activities f :=
  List.mem_flatMap.mpr ⟨action, List.mem_flatten.mpr ⟨activity, hactivity, haction⟩, hx⟩

/-! ## The invariant -/

/-- The hooks in the table. -/
def tableHooks (state : BufState κ ν ε) : List ℕ := state.hookTable.map Prod.snd

/-- The producer callbacks of some hooks. -/
def producersOf (state : BufState κ ν ε) (list : List ℕ) : List ℕ :=
  list.flatMap fun hook => (state.hooks hook).prodCb.toList

def consumersOf (state : BufState κ ν ε) (list : List ℕ) : List ℕ :=
  list.flatMap fun hook => (state.hooks hook).consCb.toList

@[simp]
theorem producersOf_append (first second : List ℕ) :
    producersOf state (first ++ second) = producersOf state first ++ producersOf state second :=
  List.flatMap_append

@[simp]
theorem consumersOf_append (first second : List ℕ) :
    consumersOf state (first ++ second) = consumersOf state first ++ consumersOf state second :=
  List.flatMap_append

/-- The producers that have been called. -/
def calledProducers (state : BufState κ ν ε) : List ℕ := state.producerCalls.map Prod.fst

def calledConsumers (state : BufState κ ν ε) : List ℕ := state.consumerCalls.map Prod.fst

/-- The hooks that consumers have been called with. -/
def givenHooks (state : BufState κ ν ε) : List ℕ :=
  state.consumerCalls.filterMap fun call =>
    match call.2 with
    | .ok hook _ => some hook
    | .failed _ => none

/-- What a hook says of the calls that it stands for. -/
structure HookOk (provided : List (κ × ν)) (requested : List κ) (key : κ) (hook : Hook ν) :
    Prop where
  producer : ∀ p, hook.prodCb = some p →
    ∃ value, provided[p]? = some (key, value) ∧ hook.prodValue = some value
  consumer : ∀ c, hook.consCb = some c → requested[c]? = some key

/-- Both sides of a hook are there, with one key. -/
def BothSides (state : BufState κ ν ε) (hook : ℕ) : Prop :=
  (state.hooks hook).prodCb.isSome ∧ (state.hooks hook).consCb.isSome ∧
    ∃ key, HookOk state.provided state.requested key (state.hooks hook)

/-- A consumer was called with the value of a producer of its key. -/
def ValueProvided (state : BufState κ ν ε) (consumer : ℕ) (value : Option ν) : Prop :=
  ∃ (producer : ℕ) (key : κ) (v : ν), state.provided[producer]? = some (key, v) ∧
    state.requested[consumer]? = some key ∧ value = some v

/-- What holds while a critical section has the hooks `hs` and the callbacks `ps` and `cs` in hand,
and may hand the hooks `os` over. -/
structure BufInv (hs os ps cs : List ℕ) (state : BufState κ ν ε) : Prop where
  hooksOnce : ∀ h, (tableHooks state).count h + state.handed.count h +
    (owed state.activities ownedHooks).count h + state.deleted.count h + hs.count h =
      if h < state.hookCount then 1 else 0
  producersOnce : ∀ p, (producersOf state (tableHooks state)).count p +
    (producersOf state state.handed).count p +
    (owed state.activities (owedProducers state.hooks)).count p +
    (calledProducers state).count p + ps.count p = if p < state.provided.length then 1 else 0
  consumersOnce : ∀ c, (consumersOf state (tableHooks state)).count c +
    (owed state.activities (owedConsumers state.hooks)).count c +
    (calledConsumers state).count c + cs.count c = if c < state.requested.length then 1 else 0
  offeredOnce : ∀ h, (tableHooks state).count h + (owed state.activities offeredHooks).count h +
    (givenHooks state).count h + os.count h ≤ 1
  given_lt : ∀ h ∈ givenHooks state, h < state.hookCount
  keys : (state.hookTable.map Prod.fst).Nodup
  waiting : ∀ entry ∈ state.hookTable, (state.hooks entry.2).prodCb.isSome =
    (state.hooks entry.2).consCb.isNone
  table : ∀ entry ∈ state.hookTable,
    HookOk state.provided state.requested entry.1 (state.hooks entry.2)
  ready : ∀ activity ∈ state.activities, ∀ h, Action.handOver h ∈ activity → BothSides state h
  held : ∀ h ∈ state.handed, (state.hooks h).prodCb.isSome
  telling : ∀ activity ∈ state.activities, ∀ h, Action.tellProducer h ∈ activity →
    (state.hooks h).prodCb.isSome
  answered : ∀ c h value, (c, Answer.ok h value) ∈ state.consumerCalls → ValueProvided state c value
  covered : ∀ activity ∈ state.activities, ReadsOwned activity

namespace BufInv

variable {hs os ps cs : List ℕ}

theorem init [DecidableEq κ] : BufInv [] [] [] [] (bufRendezvous κ ν ε).init := by
  constructor <;>
    simp [bufRendezvous, tableHooks, producersOf, consumersOf, calledProducers, calledConsumers,
      givenHooks, owed]

/-! ### A call begins -/

theorem getElem?_concat {α : Type} {list : List α} {i : ℕ} {a b : α} (hget : list[i]? = some a) :
    (list ++ [b])[i]? = some a := by
  rw [List.getElem?_append_left (List.getElem?_eq_some_iff.mp hget).1, hget]

theorem count_singleton_length (n x : ℕ) :
    (if x < n then 1 else 0) + List.count x [n] = if x < n + 1 then 1 else 0 := by
  rw [List.count_singleton]
  grind

/-- A new producer is in the hands of `ProvideBuf`. -/
theorem provide (inv : BufInv [] [] [] [] state) (key : κ) (value : ν) :
    BufInv [] [] [state.provided.length] []
      { state with provided := state.provided ++ [(key, value)] } := by
  have hok : ∀ {key' hook}, HookOk state.provided state.requested key' hook →
      HookOk (state.provided ++ [(key, value)]) state.requested key' hook := by
    intro key' hook hook_ok
    refine ⟨fun p hp => ?_, hook_ok.consumer⟩
    obtain ⟨v, hget, hv⟩ := hook_ok.producer p hp
    exact ⟨v, getElem?_concat hget, hv⟩
  refine { inv with
    producersOnce := fun p => ?_
    table := fun entry hentry => hok (inv.table entry hentry)
    ready := fun activity hactivity h hh => ?_
    answered := fun c h v hcall => ?_ }
  · have hone := inv.producersOnce p
    rw [List.length_append, List.length_singleton, ← count_singleton_length, ← hone]
    rfl
  · obtain ⟨hprod, hcons, key', hook_ok⟩ := inv.ready activity hactivity h hh
    exact ⟨hprod, hcons, key', hok hook_ok⟩
  · obtain ⟨p, key', v', hp, hc, hv⟩ := inv.answered c h v hcall
    exact ⟨p, key', v', getElem?_concat hp, hc, hv⟩

/-- A new consumer is in the hands of `ConsumeBuf`. -/
theorem request (inv : BufInv [] [] [] [] state) (key : κ) :
    BufInv [] [] [] [state.requested.length]
      { state with requested := state.requested ++ [key] } := by
  have hok : ∀ {key' hook}, HookOk state.provided state.requested key' hook →
      HookOk state.provided (state.requested ++ [key]) key' hook := by
    intro key' hook hook_ok
    exact ⟨hook_ok.producer, fun c hc => getElem?_concat (hook_ok.consumer c hc)⟩
  refine { inv with
    consumersOnce := fun c => ?_
    table := fun entry hentry => hok (inv.table entry hentry)
    ready := fun activity hactivity h hh => ?_
    answered := fun c h v hcall => ?_ }
  · have hone := inv.consumersOnce c
    rw [List.length_append, List.length_singleton, ← count_singleton_length, ← hone]
    rfl
  · obtain ⟨hprod, hcons, key', hook_ok⟩ := inv.ready activity hactivity h hh
    exact ⟨hprod, hcons, key', hok hook_ok⟩
  · obtain ⟨p, key', v', hp, hc, hv⟩ := inv.answered c h v hcall
    exact ⟨p, key', v', hp, getElem?_concat hc, hv⟩

/-- A critical section leaves what it has in hand to the rest of its call. -/
theorem start (inv : BufInv hs os ps cs state) {activity : List (Action κ ε)}
    (hhooks : ∀ h, (activity.flatMap ownedHooks).count h = hs.count h)
    (hoffered : ∀ h, (activity.flatMap offeredHooks).count h ≤ os.count h)
    (hproducers : ∀ p, (activity.flatMap (owedProducers state.hooks)).count p = ps.count p)
    (hconsumers : ∀ c, (activity.flatMap (owedConsumers state.hooks)).count c = cs.count c)
    (hready : ∀ h, Action.handOver h ∈ activity → BothSides state h)
    (htelling : ∀ h, Action.tellProducer h ∈ activity → (state.hooks h).prodCb.isSome)
    (hcovered : ReadsOwned activity) : BufInv [] [] [] [] (state.start activity) := by
  have hmem : ∀ {other : List (Action κ ε)}, other ∈ state.activities ++ [activity] →
      other ∈ state.activities ∨ other = activity := fun hother => by
    simpa only [List.mem_append, List.mem_singleton] using hother
  refine
    { hooksOnce := fun h => ?_
      producersOnce := fun p => ?_
      consumersOnce := fun c => ?_
      offeredOnce := fun h => ?_
      given_lt := inv.given_lt
      keys := inv.keys
      waiting := inv.waiting
      table := inv.table
      ready := fun other hother h hh => ?_
      held := inv.held
      telling := fun other hother h hh => ?_
      answered := inv.answered
      covered := fun other hother => ?_ }
  · refine Eq.trans ?_ (inv.hooksOnce h)
    simp only [BufState.start, tableHooks, count_owed_concat, hhooks, List.count_nil]
    omega
  · refine Eq.trans ?_ (inv.producersOnce p)
    simp only [BufState.start, tableHooks, producersOf, calledProducers, count_owed_concat,
      hproducers, List.count_nil]
    omega
  · refine Eq.trans ?_ (inv.consumersOnce c)
    simp only [BufState.start, tableHooks, consumersOf, calledConsumers, count_owed_concat,
      hconsumers, List.count_nil]
    omega
  · have hone := inv.offeredOnce h
    have hle := hoffered h
    simp only [BufState.start, tableHooks, givenHooks, count_owed_concat, List.count_nil] at hone ⊢
    omega
  · obtain hother | rfl := hmem hother
    · exact inv.ready other hother h hh
    · exact hready h hh
  · obtain hother | rfl := hmem hother
    · exact inv.telling other hother h hh
    · exact htelling h hh
  · obtain hother | rfl := hmem hother
    · exact inv.covered other hother
    · exact hcovered

/-! ### Hooks -/

/-- The rest of the state does not look at a hook that no call owns. -/
theorem owed_update (inv : BufInv hs os ps cs state) {index : ℕ} (hook : Hook ν)
    (hfree : index ∉ owed state.activities ownedHooks) :
    owed state.activities (owedProducers (Function.update state.hooks index hook)) =
        owed state.activities (owedProducers state.hooks) ∧
      owed state.activities (owedConsumers (Function.update state.hooks index hook)) =
        owed state.activities (owedConsumers state.hooks) := by
  have howned : ∀ activity ∈ state.activities, ∀ action ∈ activity, index ∉ ownedHooks action :=
    fun activity hactivity action haction hindex =>
      hfree (mem_owed hactivity haction hindex)
  have hread : ∀ activity ∈ state.activities, ∀ action ∈ activity, index ∉ readHooks action := by
    intro activity hactivity action haction hindex
    have hmem := mem_owned_of_mem_read (inv.covered activity hactivity) haction hindex
    obtain ⟨deleter, hdeleter, hindex⟩ := List.mem_flatMap.mp hmem
    exact howned activity hactivity deleter hdeleter hindex
  constructor
  · exact owed_congr fun activity hactivity action haction => owedProducers_update hook
      (howned activity hactivity action haction) (hread activity hactivity action haction)
  · exact owed_congr fun activity hactivity action haction => owedConsumers_update hook
      (howned activity hactivity action haction) (hread activity hactivity action haction)

theorem hooksOf_setHook {index : ℕ} (hook : Hook ν) {list : List ℕ} (hnot : index ∉ list) :
    producersOf (state.setHook index hook) list = producersOf state list ∧
      consumersOf (state.setHook index hook) list = consumersOf state list := by
  have hsame : ∀ h ∈ list, (state.setHook index hook).hooks h = state.hooks h := fun h hh =>
    Function.update_of_ne (ne_of_mem_of_not_mem hh hnot) ..
  constructor
  · rw [producersOf, producersOf, List.flatMap_def, List.flatMap_def]
    exact congrArg List.flatten (List.map_congr_left fun h hh => by rw [hsame h hh])
  · rw [consumersOf, consumersOf, List.flatMap_def, List.flatMap_def]
    exact congrArg List.flatten (List.map_congr_left fun h hh => by rw [hsame h hh])

theorem setHook (inv : BufInv hs os ps cs state) (index : ℕ) (hook : Hook ν)
    (htable : index ∉ tableHooks state) (hhanded : index ∉ state.handed)
    (hfree : index ∉ owed state.activities ownedHooks) :
    BufInv hs os ps cs (state.setHook index hook) := by
  obtain ⟨hproducers, hconsumers⟩ := inv.owed_update hook hfree
  have hentry : ∀ entry ∈ state.hookTable,
      (state.setHook index hook).hooks entry.2 = state.hooks entry.2 := fun entry hmem =>
    Function.update_of_ne (ne_of_mem_of_not_mem (List.mem_map_of_mem hmem) htable) ..
  have hof : ∀ {activity}, activity ∈ state.activities → ∀ {action}, action ∈ activity →
      ∀ {h}, h ∈ ownedHooks action ++ readHooks action →
        (state.setHook index hook).hooks h = state.hooks h := by
    intro activity hactivity action haction h hh
    refine Function.update_of_ne
      (ne_of_mem_of_not_mem (s := owed state.activities ownedHooks) ?_ hfree) ..
    obtain hh | hh := List.mem_append.mp hh
    · exact mem_owed hactivity haction hh
    · have hmem := mem_owned_of_mem_read (inv.covered activity hactivity) haction hh
      obtain ⟨deleter, hdeleter, hh⟩ := List.mem_flatMap.mp hmem
      exact mem_owed hactivity hdeleter hh
  refine
    { inv with
      producersOnce := fun p => ?_
      consumersOnce := fun c => ?_
      waiting := fun entry hmem => ?_
      table := fun entry hmem => ?_
      ready := fun activity hactivity h hh => ?_
      held := fun h hh => ?_
      telling := fun activity hactivity h hh => ?_ }
  · have hone := inv.producersOnce p
    rw [← (hooksOf_setHook hook htable).1, ← (hooksOf_setHook hook hhanded).1, ← hproducers] at hone
    exact hone
  · have hone := inv.consumersOnce c
    rw [← (hooksOf_setHook hook htable).2, ← hconsumers] at hone
    exact hone
  · rw [hentry entry hmem]
    exact inv.waiting entry hmem
  · rw [hentry entry hmem]
    exact inv.table entry hmem
  · rw [BothSides, hof hactivity hh (List.mem_append_left _ (List.mem_singleton_self h))]
    exact inv.ready activity hactivity h hh
  · have hsame : (state.setHook index hook).hooks h = state.hooks h :=
      Function.update_of_ne (ne_of_mem_of_not_mem hh hhanded) ..
    rw [hsame]
    exact inv.held h hh
  · rw [hof hactivity hh (List.mem_append_right _ (List.mem_singleton_self h))]
    exact inv.telling activity hactivity h hh

/-- A hook in hand is in no other place. -/
theorem free_of_mem (inv : BufInv hs os ps cs state) {h : ℕ} (hmem : h ∈ hs) :
    h ∉ tableHooks state ∧ h ∉ state.handed ∧ h ∉ owed state.activities ownedHooks ∧
      h ∉ state.deleted := by
  have hone := inv.hooksOnce h
  have hpos : 0 < hs.count h := List.count_pos_iff.mpr hmem
  have hle : (if h < state.hookCount then 1 else 0) ≤ 1 := by split <;> decide
  simp only [← List.count_eq_zero]
  omega

/-- A new hook takes the callbacks in hand. -/
theorem insertHook {key : κ} (hook : Hook ν)
    (inv : BufInv [] [] hook.prodCb.toList hook.consCb.toList state)
    (hkey : key ∉ state.hookTable.map Prod.fst) (hone : hook.prodCb.isSome = hook.consCb.isNone)
    (hok : HookOk state.provided state.requested key hook) :
    BufInv [] [] [] [] (state.insertHook key hook) := by
  have hfresh := inv.hooksOnce state.hookCount
  rw [if_neg (lt_irrefl _)] at hfresh
  have inv' := inv.setHook state.hookCount hook (List.count_eq_zero.mp (by omega))
    (List.count_eq_zero.mp (by omega)) (List.count_eq_zero.mp (by omega))
  have hnew : (state.setHook state.hookCount hook).hooks state.hookCount = hook :=
    Function.update_self ..
  have hnewProducers : producersOf (state.insertHook key hook) [state.hookCount] =
      hook.prodCb.toList := by
    simp [producersOf, BufState.insertHook]
  have hnewConsumers : consumersOf (state.insertHook key hook) [state.hookCount] =
      hook.consCb.toList := by
    simp [consumersOf, BufState.insertHook]
  have htableHooks : tableHooks (state.insertHook key hook) =
      tableHooks state ++ [state.hookCount] := by
    simp [tableHooks, BufState.insertHook]
  have hmem : ∀ {entry}, entry ∈ state.hookTable ++ [(key, state.hookCount)] →
      entry ∈ state.hookTable ∨ entry = (key, state.hookCount) := fun hentry => by
    simpa only [List.mem_append, List.mem_singleton] using hentry
  refine
    { inv' with
      hooksOnce := fun h => ?_
      producersOnce := fun p => ?_
      consumersOnce := fun c => ?_
      offeredOnce := fun h => ?_
      given_lt := fun h hh => (inv.given_lt h hh).trans (Nat.lt_succ_self _)
      keys := ?_
      waiting := fun entry hentry => ?_
      table := fun entry hentry => ?_ }
  · have hcount := inv.hooksOnce h
    rw [htableHooks, List.count_append, List.count_nil]
    rw [List.count_nil] at hcount
    refine Eq.trans ?_ (count_singleton_length state.hookCount h)
    rw [← hcount]
    simp only [BufState.insertHook]
    omega
  · refine Eq.trans ?_ (inv'.producersOnce p)
    rw [htableHooks, producersOf_append, List.count_append, List.count_nil, hnewProducers]
    simp only [producersOf, calledProducers, tableHooks, BufState.insertHook, BufState.setHook]
    omega
  · refine Eq.trans ?_ (inv'.consumersOnce c)
    rw [htableHooks, consumersOf_append, List.count_append, List.count_nil, hnewConsumers]
    simp only [consumersOf, calledConsumers, tableHooks, BufState.insertHook, BufState.setHook]
    omega
  · have hcount := inv.offeredOnce h
    rw [htableHooks, List.count_append]
    have hgiven : (givenHooks state).count state.hookCount = 0 :=
      List.count_eq_zero.mpr fun hmem => lt_irrefl _ (inv.given_lt _ hmem)
    have hoffered := count_offered_le state.activities state.hookCount
    have hsame : (owed (state.insertHook key hook).activities offeredHooks).count h =
        (owed state.activities offeredHooks).count h := rfl
    have hsame' : (givenHooks (state.insertHook key hook)).count h =
        (givenHooks state).count h := rfl
    rw [hsame, hsame', List.count_singleton]
    by_cases hh : h = state.hookCount
    · subst hh
      simp only [beq_self_eq_true, if_true]
      omega
    · rw [if_neg (by simpa using Ne.symm hh)]
      exact hcount
  · rw [BufState.insertHook, List.map_append]
    refine List.nodup_append.mpr ⟨inv.keys, List.pairwise_singleton _ _, fun a ha b hb => ?_⟩
    obtain rfl := List.mem_singleton.mp hb
    exact ne_of_mem_of_not_mem ha hkey
  · obtain hentry | rfl := hmem hentry
    · exact inv'.waiting entry hentry
    · exact (congrArg (fun hook => hook.prodCb.isSome) hnew).trans
        (hone.trans (congrArg (fun hook => hook.consCb.isNone) hnew.symm))
  · obtain hentry | rfl := hmem hentry
    · exact inv'.table entry hentry
    · exact hnew.symm ▸ hok

theorem table_perm {key : κ} {index : ℕ} [DecidableEq κ] (inv : BufInv hs os ps cs state)
    (hentry : (key, index) ∈ state.hookTable) :
    state.hookTable.Perm ((key, index) :: state.erase key) := by
  have hkeys := inv.keys
  rw [BufState.erase]
  revert hkeys hentry
  generalize state.hookTable = table
  intro hentry hkeys
  induction table with
  | nil => cases hentry
  | cons first rest ih =>
      obtain ⟨hfirst, hrest⟩ := List.nodup_cons.mp hkeys
      obtain rfl | hentry := List.mem_cons.mp hentry
      · refine List.Perm.cons _ (List.Perm.of_eq ?_)
        rw [List.filter_cons_of_neg (by simp), List.filter_eq_self.mpr]
        intro entry hmem
        exact decide_eq_true (ne_of_mem_of_not_mem (List.mem_map_of_mem hmem) hfirst)
      · have hne : first.1 ≠ key := fun heq =>
          hfirst (heq ▸ List.mem_map_of_mem (f := Prod.fst) hentry)
        rw [List.filter_cons_of_pos (by simpa using hne)]
        exact ((ih hentry hrest).cons first).trans (List.Perm.swap _ _ _)

/-- Entries are taken out of the table. -/
theorem take (inv : BufInv [] [] ps cs state) (taken rest : List (κ × ℕ))
    (hperm : state.hookTable.Perm (taken ++ rest)) :
    BufInv (taken.map Prod.snd) (taken.map Prod.snd)
      (producersOf state (taken.map Prod.snd) ++ ps) (consumersOf state (taken.map Prod.snd) ++ cs)
      { state with hookTable := rest } := by
  have hhooks : (tableHooks state).Perm (taken.map Prod.snd ++ rest.map Prod.snd) := by
    rw [← List.map_append]
    exact hperm.map Prod.snd
  have hmem : ∀ {entry}, entry ∈ rest → entry ∈ state.hookTable := fun hentry =>
    hperm.mem_iff.mpr (List.mem_append_right _ hentry)
  have hproducers := (hhooks.flatMap_right fun h => (state.hooks h).prodCb.toList)
  have hconsumers := (hhooks.flatMap_right fun h => (state.hooks h).consCb.toList)
  rw [List.flatMap_append] at hproducers hconsumers
  refine
    { hooksOnce := fun h => ?_
      producersOnce := fun p => ?_
      consumersOnce := fun c => ?_
      offeredOnce := fun h => ?_
      given_lt := inv.given_lt
      keys := ?_
      waiting := fun entry hentry => inv.waiting entry (hmem hentry)
      table := fun entry hentry => inv.table entry (hmem hentry)
      ready := inv.ready
      held := inv.held
      telling := inv.telling
      answered := inv.answered
      covered := inv.covered }
  · have hone := inv.hooksOnce h
    rw [hhooks.count_eq, List.count_append, List.count_nil] at hone
    simp only [tableHooks]
    omega
  · have hone := inv.producersOnce p
    rw [producersOf, hproducers.count_eq, List.count_append] at hone
    rw [List.count_append]
    simp only [tableHooks, producersOf, calledProducers] at hone ⊢
    omega
  · have hone := inv.consumersOnce c
    rw [consumersOf, hconsumers.count_eq, List.count_append] at hone
    rw [List.count_append]
    simp only [tableHooks, consumersOf, calledConsumers] at hone ⊢
    omega
  · have hone := inv.offeredOnce h
    rw [hhooks.count_eq, List.count_append, List.count_nil] at hone
    simp only [tableHooks, givenHooks] at hone ⊢
    omega
  · have hkeys := (hperm.map Prod.fst).nodup_iff.mp inv.keys
    rw [List.map_append] at hkeys
    exact (List.nodup_append.mp hkeys).2.1

/-- The side that comes second completes the hook and hands it over. -/
theorem complete [DecidableEq κ] (inv : BufInv [] [] ps cs state) {key : κ} {index : ℕ}
    (hentry : (key, index) ∈ state.hookTable) {hook : Hook ν}
    (hps : (state.hooks index).prodCb.toList ++ ps = hook.prodCb.toList)
    (hcs : (state.hooks index).consCb.toList ++ cs = hook.consCb.toList)
    (hprod : hook.prodCb.isSome) (hcons : hook.consCb.isSome)
    (hok : HookOk state.provided state.requested key hook) :
    BufInv [] [] [] []
      ({ state.setHook index hook with hookTable := state.erase key }.start [.handOver index]) := by
  have hperm := inv.table_perm hentry
  have taken := inv.take [(key, index)] _ hperm
  obtain ⟨htable, hhanded, howed, -⟩ := taken.free_of_mem (List.mem_singleton_self index)
  have inv' := taken.setHook index hook htable hhanded howed
  have hhook : (state.setHook index hook).hooks index = hook := Function.update_self ..
  refine inv'.start (fun h => rfl) (fun h => le_rfl) (fun p => ?_) (fun c => ?_) (fun h hh => ?_)
    (fun h hh => ?_) (readsOwned_handOver index)
  · refine congrArg (List.count p) (Eq.trans ?_ (hps.symm.trans ?_))
    · simp [owedProducers, BufState.setHook]
    · simp [producersOf]
  · refine congrArg (List.count c) (Eq.trans ?_ (hcs.symm.trans ?_))
    · simp [owedConsumers, BufState.setHook]
    · simp [consumersOf]
  · obtain ⟨rfl⟩ : h = index := by simpa using hh
    refine ⟨?_, ?_, key, ?_⟩
    · exact hhook.symm ▸ hprod
    · exact hhook.symm ▸ hcons
    · exact hhook.symm ▸ hok
  · cases hh with
    | tail _ hh => cases hh

/-! ### The critical sections -/

variable [DecidableEq κ]

theorem mem_of_find {key : κ} {index : ℕ} (hfind : state.find key = some index) :
    (key, index) ∈ state.hookTable := by
  obtain ⟨⟨key', index'⟩, hfound, rfl⟩ := Option.map_eq_some_iff.mp hfind
  obtain rfl : key' = key := by simpa using List.find?_some hfound
  exact List.mem_of_find?_eq_some hfound

theorem not_mem_of_find {key : κ} (hfind : state.find key = none) :
    key ∉ state.hookTable.map Prod.fst := by
  intro hmem
  obtain ⟨entry, hentry, rfl⟩ := List.mem_map.mp hmem
  have hnone := List.find?_eq_none.mp (Option.map_eq_none_iff.mp hfind) entry hentry
  simp at hnone

omit [DecidableEq κ] in
/-- A call that is refused calls its own callback. -/
theorem failProducer {p : ℕ} (inv : BufInv [] [] [p] [] state) (error : BufError κ ε) :
    BufInv [] [] [] [] (state.start [.failProducer p error]) :=
  inv.start (fun _ => rfl) (fun _ => le_rfl) (fun _ => rfl) (fun _ => rfl)
    (fun h hh => by simp at hh) (fun h hh => by simp at hh)
    ⟨fun _ hread => absurd hread List.not_mem_nil, trivial⟩

omit [DecidableEq κ] in
theorem failConsumer {c : ℕ} (inv : BufInv [] [] [] [c] state) (error : BufError κ ε) :
    BufInv [] [] [] [] (state.start [.failConsumer c error]) :=
  inv.start (fun _ => rfl) (fun _ => le_rfl) (fun _ => rfl) (fun _ => rfl)
    (fun h hh => by simp at hh) (fun h hh => by simp at hh)
    ⟨fun _ hread => absurd hread List.not_mem_nil, trivial⟩

theorem provideBuf {key : κ} {value : ν} {done : ℕ} (inv : BufInv [] [] [done] [] state)
    (hdone : state.provided[done]? = some (key, value)) :
    BufInv [] [] [] [] (state.provideBuf key value done) := by
  rw [BufState.provideBuf]
  cases state.status with
  | some error => exact inv.failProducer error
  | none =>
      cases hfind : state.find key with
      | none =>
          refine insertHook ⟨some value, some done, none⟩ inv (not_mem_of_find hfind) rfl
            ⟨fun p hp => ?_, fun c hc => ?_⟩
          · obtain rfl := Option.some.inj hp
            exact ⟨value, hdone, rfl⟩
          · cases hc
      | some index =>
          have hentry := mem_of_find hfind
          have hwaiting := inv.waiting _ hentry
          have hok := inv.table _ hentry
          cases hprod : (state.hooks index).prodCb with
          | some p =>
              simp only [hprod, Option.isSome_some, if_true]
              exact inv.failProducer _
          | none =>
              have hcons : (state.hooks index).consCb.isSome := by
                simpa [hprod] using hwaiting
              simp only [hprod, Option.isSome_none, Bool.false_eq_true, if_false, hcons, if_true]
              refine inv.complete hentry ?_ ?_ rfl hcons ⟨fun p hp => ?_, hok.consumer⟩
              · rw [hprod]
                rfl
              · exact List.append_nil _
              · obtain rfl := Option.some.inj hp
                exact ⟨value, hdone, rfl⟩

theorem consumeBuf {key : κ} {done : ℕ} (inv : BufInv [] [] [] [done] state)
    (hdone : state.requested[done]? = some key) :
    BufInv [] [] [] [] (state.consumeBuf key done) := by
  rw [BufState.consumeBuf]
  cases state.status with
  | some error => exact inv.failConsumer error
  | none =>
      cases hfind : state.find key with
      | none =>
          refine insertHook ⟨none, none, some done⟩ inv (not_mem_of_find hfind) rfl
            ⟨fun p hp => ?_, fun c hc => ?_⟩
          · cases hp
          · obtain rfl := Option.some.inj hc
            exact hdone
      | some index =>
          have hentry := mem_of_find hfind
          have hwaiting := inv.waiting _ hentry
          have hok := inv.table _ hentry
          cases hcons : (state.hooks index).consCb with
          | some c =>
              simp only [hcons, Option.isSome_some, if_true]
              exact inv.failConsumer _
          | none =>
              have hprod : (state.hooks index).prodCb.isSome := by
                simpa [hcons] using hwaiting
              simp only [hcons, Option.isSome_none, Bool.false_eq_true, if_false]
              refine inv.complete hentry ?_ ?_ hprod rfl ⟨hok.producer, fun c hc => ?_⟩
              · exact List.append_nil _
              · rw [hcons]
                rfl
              · obtain rfl := Option.some.inj hc
                exact hdone

omit [DecidableEq κ] in
theorem startAbort {status : ε} {order : List ℕ} {next : BufState κ ν ε}
    (inv : BufInv [] [] [] [] state) (hstep : state.startAbort status order = some next) :
    BufInv [] [] [] [] next := by
  rw [BufState.startAbort, Option.ite_none_right_eq_some] at hstep
  obtain ⟨horder, hnext⟩ := hstep
  obtain rfl := Option.some.inj hnext
  have taken := inv.take state.hookTable [] (by rw [List.append_nil])
  have haborted : BufInv (tableHooks state) (tableHooks state)
      (producersOf state (tableHooks state) ++ []) (consumersOf state (tableHooks state) ++ [])
      { state with status := some (state.status.getD (.derived status)), hookTable := [] } :=
    { taken with }
  refine haborted.start (fun h => ?_) (fun h => ?_) (fun p => ?_) (fun c => ?_) (fun h hh => ?_)
    (fun h hh => ?_) (readsOwned_purge status order)
  · have howned : (order.flatMap (BufState.purge status) : List (Action κ ε)).flatMap ownedHooks =
      order := by
      simp [List.flatMap_assoc, BufState.purge, ownedHooks]
    rw [howned]
    exact horder.count_eq h
  · have hoffered :
      (order.flatMap (BufState.purge status) : List (Action κ ε)).flatMap offeredHooks = [] := by
      simp [List.flatMap_assoc, BufState.purge, offeredHooks]
    rw [hoffered]
    exact Nat.zero_le _
  · have hproducers : (order.flatMap (BufState.purge status) : List (Action κ ε)).flatMap
        (owedProducers state.hooks) = producersOf state order := by
      simp [List.flatMap_assoc, BufState.purge, owedProducers, producersOf]
    rw [List.append_nil, hproducers]
    exact (horder.flatMap_right _).count_eq p
  · have hconsumers : (order.flatMap (BufState.purge status) : List (Action κ ε)).flatMap
        (owedConsumers state.hooks) = consumersOf state order := by
      simp [List.flatMap_assoc, BufState.purge, owedConsumers, consumersOf]
    rw [List.append_nil, hconsumers]
    exact (horder.flatMap_right _).count_eq c
  · simp [BufState.purge] at hh
  · simp [BufState.purge] at hh

omit [DecidableEq κ] in
theorem doneWithHook {hook : ℕ} {next : BufState κ ν ε} (inv : BufInv [] [] [] [] state)
    (hstep : state.doneWithHook hook = some next) : BufInv [] [] [] [] next := by
  rw [BufState.doneWithHook, Option.ite_none_right_eq_some] at hstep
  obtain ⟨hhook, hnext⟩ := hstep
  obtain rfl := Option.some.inj hnext
  have hperm := List.perm_cons_erase hhook
  have taken : BufInv [hook] [] (state.hooks hook).prodCb.toList []
      { state with handed := state.handed.erase hook } := by
    refine
      { inv with
        hooksOnce := fun h => ?_
        producersOnce := fun p => ?_
        held := fun h hh => inv.held h (List.mem_of_mem_erase hh) }
    · have hone := inv.hooksOnce h
      rw [hperm.count_eq, List.count_cons, List.count_nil] at hone
      rw [List.count_singleton]
      simp only [tableHooks] at hone ⊢
      omega
    · have hone := inv.producersOnce p
      have hproducers := (hperm.flatMap_right fun h => (state.hooks h).prodCb.toList).count_eq p
      rw [List.flatMap_cons, List.count_append] at hproducers
      rw [List.count_nil] at hone
      simp only [tableHooks, producersOf, calledProducers] at hone ⊢
      omega
  refine taken.start (fun h => rfl) (fun h => le_rfl) (fun p => ?_) (fun c => rfl)
    (fun h hh => by simp at hh) (fun h hh => ?_) ?_
  · simp [owedProducers]
  · obtain rfl : h = hook := by simpa using hh
    exact inv.held h hhook
  · simp [ReadsOwned, readHooks, ownedHooks]

/-! ### What follows a critical section -/

omit [DecidableEq κ] in
theorem callProducer {p : ℕ} (inv : BufInv hs os [p] cs state) (error : Option (BufError κ ε)) :
    BufInv hs os [] cs (state.callProducer p error) := by
  refine { inv with producersOnce := fun q => ?_ }
  refine Eq.trans ?_ (inv.producersOnce q)
  simp only [producersOf, tableHooks, calledProducers, BufState.callProducer, List.map_append,
    List.map_cons, List.map_nil, List.count_append, List.count_nil]
  omega

omit [DecidableEq κ] in
theorem failCall {c : ℕ} (inv : BufInv hs os ps [c] state) (error : BufError κ ε) :
    BufInv hs os ps [] (state.callConsumer c (.failed error)) := by
  have hgiven : givenHooks (state.callConsumer c (.failed error)) = givenHooks state := by
    simp [givenHooks, BufState.callConsumer]
  refine { inv with
    consumersOnce := fun d => ?_
    offeredOnce := fun h => ?_
    given_lt := fun h hh => inv.given_lt h (hgiven ▸ hh)
    answered := fun d h value hmem => ?_ }
  · refine Eq.trans ?_ (inv.consumersOnce d)
    simp only [consumersOf, tableHooks, calledConsumers, BufState.callConsumer, List.map_append,
      List.map_cons, List.map_nil, List.count_append, List.count_nil]
    omega
  · rw [hgiven]
    exact inv.offeredOnce h
  · obtain hmem | hmem := List.mem_append.mp hmem
    · exact inv.answered d h value hmem
    · simp at hmem

omit [DecidableEq κ] in
/-- An abort calls what is there. -/
theorem failIfThere (cb : Option ℕ) (inv : BufInv hs os ps cb.toList state)
    (error : BufError κ ε) : BufInv hs os ps []
      (cb.elim state fun c => state.callConsumer c (.failed error)) := by
  cases cb with
  | none => exact inv
  | some c => exact inv.failCall error

omit [DecidableEq κ] in
theorem callIfThere (cb : Option ℕ) (inv : BufInv hs os cb.toList cs state)
    (error : Option (BufError κ ε)) : BufInv hs os [] cs
      (cb.elim state fun p => state.callProducer p error) := by
  cases cb with
  | none => exact inv
  | some p => exact inv.callProducer error

omit [DecidableEq κ] in
theorem handOver (hook : ℕ) {c : ℕ}
    (inv : BufInv [hook] [hook] (state.hooks hook).prodCb.toList [c] state)
    (hready : BothSides state hook) (hcons : (state.hooks hook).consCb = some c) :
    BufInv [] [] [] []
      { state.callConsumer c (.ok hook (state.hooks hook).prodValue) with
        handed := state.handed ++ [hook] } := by
  have hgiven : givenHooks (state.callConsumer c (.ok hook (state.hooks hook).prodValue)) =
      givenHooks state ++ [hook] := by
    simp [givenHooks, BufState.callConsumer]
  have hlt : hook < state.hookCount := by
    by_contra hge
    have hone := inv.hooksOnce hook
    rw [if_neg hge, List.count_singleton_self] at hone
    omega
  obtain ⟨hprod, -, key, hok⟩ := hready
  refine
    { inv with
      hooksOnce := fun h => ?_
      producersOnce := fun p => ?_
      consumersOnce := fun d => ?_
      offeredOnce := fun h => ?_
      given_lt := fun h hh => ?_
      held := fun h hh => ?_
      answered := fun d h value hmem => ?_ }
  · refine Eq.trans ?_ (inv.hooksOnce h)
    simp only [tableHooks, BufState.callConsumer, List.count_append, List.count_nil]
    omega
  · refine Eq.trans ?_ (inv.producersOnce p)
    simp only [producersOf, tableHooks, calledProducers, BufState.callConsumer, List.flatMap_append,
      List.flatMap_cons, List.flatMap_nil, List.count_append, List.count_nil]
    omega
  · refine Eq.trans ?_ (inv.consumersOnce d)
    simp only [consumersOf, tableHooks, calledConsumers, BufState.callConsumer, List.map_append,
      List.map_cons, List.map_nil, List.count_append, List.count_nil]
    omega
  · refine le_trans (le_of_eq ?_) (inv.offeredOnce h)
    refine Eq.trans (congrArg (_ + List.count h · + _) hgiven) ?_
    simp only [tableHooks, BufState.callConsumer, List.count_append, List.count_nil]
    omega
  · obtain hh | hh := List.mem_append.mp (hgiven ▸ hh : h ∈ givenHooks state ++ [hook])
    · exact inv.given_lt h hh
    · obtain rfl := List.mem_singleton.mp hh
      exact hlt
  · obtain hh | hh := List.mem_append.mp hh
    · exact inv.held h hh
    · obtain rfl := List.mem_singleton.mp hh
      exact hprod
  · obtain hmem | hmem := List.mem_append.mp hmem
    · exact inv.answered d h value hmem
    · obtain ⟨rfl, rfl, rfl⟩ : d = c ∧ h = hook ∧ value = (state.hooks hook).prodValue := by
        simpa using hmem
      obtain ⟨p, hp⟩ := Option.isSome_iff_exists.mp hprod
      obtain ⟨v, hget, hv⟩ := hok.producer p hp
      exact ⟨p, key, v, hget, hok.consumer d hcons, hv⟩

omit [DecidableEq κ] in
theorem delete {hook : ℕ} (inv : BufInv [hook] os ps cs state) :
    BufInv [] os ps cs { state with deleted := state.deleted ++ [hook] } := by
  refine { inv with hooksOnce := fun h => ?_ }
  refine Eq.trans ?_ (inv.hooksOnce h)
  simp only [tableHooks, List.count_append, List.count_nil]
  omega

omit [DecidableEq κ] in
/-- The next statement of a call is in hand. -/
theorem pop {index : ℕ} {action : Action κ ε} {rest : List (Action κ ε)}
    (inv : BufInv [] [] [] [] state) (hget : state.activities[index]? = some (action :: rest)) :
    BufInv (ownedHooks action) (offeredHooks action) (owedProducers state.hooks action)
      (owedConsumers state.hooks action)
      { state with activities := state.activities.set index rest } := by
  have hcall : action :: rest ∈ state.activities := List.mem_of_getElem? hget
  have hmem : ∀ {activity}, activity ∈ state.activities.set index rest →
      activity ∈ state.activities ∨ activity = rest := fun hmem => List.mem_or_eq_of_mem_set hmem
  refine
    { inv with
      hooksOnce := fun h => ?_
      producersOnce := fun p => ?_
      consumersOnce := fun c => ?_
      offeredOnce := fun h => ?_
      ready := fun activity hactivity h hh => ?_
      telling := fun activity hactivity h hh => ?_
      covered := fun activity hactivity => ?_ }
  · refine Eq.trans ?_ (inv.hooksOnce h)
    rw [count_owed_set hget, List.count_nil]
    simp only [tableHooks]
    omega
  · refine Eq.trans ?_ (inv.producersOnce p)
    rw [count_owed_set hget, List.count_nil]
    simp only [producersOf, tableHooks, calledProducers]
    omega
  · refine Eq.trans ?_ (inv.consumersOnce c)
    rw [count_owed_set hget, List.count_nil]
    simp only [consumersOf, tableHooks, calledConsumers]
    omega
  · refine le_trans (le_of_eq ?_) (inv.offeredOnce h)
    rw [count_owed_set hget, List.count_nil]
    simp only [tableHooks, givenHooks]
    omega
  · obtain hactivity | rfl := hmem hactivity
    · exact inv.ready activity hactivity h hh
    · exact inv.ready _ hcall h (List.mem_cons_of_mem _ hh)
  · obtain hactivity | rfl := hmem hactivity
    · exact inv.telling activity hactivity h hh
    · exact inv.telling _ hcall h (List.mem_cons_of_mem _ hh)
  · obtain hactivity | rfl := hmem hactivity
    · exact inv.covered activity hactivity
    · exact (inv.covered _ hcall).2

omit [DecidableEq κ] in
/-- A call can always go on, and keeps the invariant. -/
theorem resume {index : ℕ} {action : Action κ ε} {rest : List (Action κ ε)}
    (inv : BufInv [] [] [] [] state) (hget : state.activities[index]? = some (action :: rest)) :
    ∃ next, state.resume index = some next ∧ BufInv [] [] [] [] next := by
  have hcall : action :: rest ∈ state.activities := List.mem_of_getElem? hget
  have popped := inv.pop hget
  rw [BufState.resume, hget]
  cases action with
  | handOver hook =>
      have hready := inv.ready _ hcall hook (List.mem_cons_self ..)
      obtain ⟨c, hcons⟩ := Option.isSome_iff_exists.mp hready.2.1
      have hone : owedConsumers state.hooks (.handOver hook : Action κ ε) = [c] := by
        simp [owedConsumers, hcons]
      rw [hone] at popped
      exact ⟨_, Option.map_eq_some_iff.mpr ⟨c, hcons, rfl⟩,
        handOver hook popped hready hcons⟩
  | failProducer producer error => exact ⟨_, rfl, popped.callProducer _⟩
  | failConsumer consumer error => exact ⟨_, rfl, popped.failCall _⟩
  | abortConsumer hook status => exact ⟨_, rfl, failIfThere (state.hooks hook).consCb popped _⟩
  | abortProducer hook status =>
      exact ⟨_, rfl, callIfThere (state.hooks hook).prodCb popped _⟩
  | tellProducer hook =>
      obtain ⟨p, hprod⟩ := Option.isSome_iff_exists.mp
        (inv.telling _ hcall hook (List.mem_cons_self ..))
      have hone : owedProducers state.hooks (.tellProducer hook : Action κ ε) = [p] := by
        simp [owedProducers, hprod]
      rw [hone] at popped
      exact ⟨_, Option.map_eq_some_iff.mpr ⟨p, hprod, rfl⟩, popped.callProducer _⟩
  | delete hook => exact ⟨_, rfl, popped.delete⟩

/-- **Every reached state meets the invariant.** -/
theorem of_reaches (hreached : (bufRendezvous κ ν ε).Reaches Machine.Unguarded state) :
    BufInv [] [] [] [] state := by
  refine hreached.invariant init fun source event target _ inv _ hstep => ?_
  cases event with
  | provideBuf key value =>
      obtain rfl := Option.some.inj hstep
      exact (inv.provide key value).provideBuf List.getElem?_concat_length
  | consumeBuf key =>
      obtain rfl := Option.some.inj hstep
      exact (inv.request key).consumeBuf List.getElem?_concat_length
  | startAbort status order => exact inv.startAbort hstep
  | doneWithHook hook => exact inv.doneWithHook hstep
  | resume index =>
      cases hget : source.activities[index]? with
      | none => simp [bufRendezvous, BufState.resume, hget] at hstep
      | some activity =>
          cases activity with
          | nil => simp [bufRendezvous, BufState.resume, hget] at hstep
          | cons action rest =>
              obtain ⟨next, hnext, hinv⟩ := inv.resume hget
              obtain rfl := Option.some.inj (hnext.symm.trans hstep)
              exact hinv

end BufInv

/-! ## Every party is completed once -/

/-- What is counted in one of two places is in the second if and only if it is not in the first. -/
theorem count_eq_one_iff {first second : List ℕ} {x : ℕ}
    (hone : first.count x + second.count x = 1) : second.count x = 1 ↔ x ∉ first := by
  rw [← List.count_eq_zero]
  omega

variable [DecidableEq κ]

/-- **Every party is completed once.** Each callback is called at most once. A producer that came
has been called once if and only if its hook is neither in the table nor with a consumer, and no
call has still to call it or to hand its hook over. A consumer that came has been called once if and
only if its hook is not in the table and no call has still to call it. Calls always go on. A
consumer that is called with OK gets the value of a producer of its key. No hook is given twice or
deleted twice, and a hook is deleted if and only if it is in no other place. -/
theorem every_party_completed_once
    (hreached : (bufRendezvous κ ν ε).Reaches Machine.Unguarded state) :
    ((calledProducers state).Nodup ∧ (calledConsumers state).Nodup) ∧
      (∀ p < state.provided.length, (calledProducers state).count p = 1 ↔
        p ∉ producersOf state (tableHooks state ++ state.handed) ++
          owed state.activities (owedProducers state.hooks)) ∧
      (∀ c < state.requested.length, (calledConsumers state).count c = 1 ↔
        c ∉ consumersOf state (tableHooks state) ++
          owed state.activities (owedConsumers state.hooks)) ∧
      (∀ index action rest, state.activities[index]? = some (action :: rest) →
        (state.resume index).isSome) ∧
      (∀ c h value, (c, Answer.ok h value) ∈ state.consumerCalls → ValueProvided state c value) ∧
      ((givenHooks state).Nodup ∧ state.deleted.Nodup) ∧
      ∀ h < state.hookCount, state.deleted.count h = 1 ↔
        h ∉ tableHooks state ++ state.handed ++ owed state.activities ownedHooks := by
  have inv := BufInv.of_reaches hreached
  have hle : ∀ {n x : ℕ}, (if x < n then 1 else 0) ≤ 1 := fun {n x} => by split <;> decide
  refine ⟨⟨?_, ?_⟩, fun p hp => ?_, fun c hc => ?_, fun index action rest hget => ?_, inv.answered,
    ⟨?_, ?_⟩, fun h hh => ?_⟩
  · refine List.nodup_iff_count_le_one.mpr fun p => le_trans ?_ (inv.producersOnce p ▸ hle)
    omega
  · refine List.nodup_iff_count_le_one.mpr fun c => le_trans ?_ (inv.consumersOnce c ▸ hle)
    omega
  · refine count_eq_one_iff ?_
    have hone := inv.producersOnce p
    rw [if_pos hp, List.count_nil] at hone
    rw [producersOf_append, List.count_append, List.count_append]
    omega
  · refine count_eq_one_iff ?_
    have hone := inv.consumersOnce c
    rw [if_pos hc, List.count_nil] at hone
    rw [List.count_append]
    omega
  · obtain ⟨next, hnext, -⟩ := inv.resume hget
    rw [hnext]
    rfl
  · refine List.nodup_iff_count_le_one.mpr fun h => le_trans ?_ (inv.offeredOnce h)
    omega
  · refine List.nodup_iff_count_le_one.mpr fun h => le_trans ?_ (inv.hooksOnce h ▸ hle)
    omega
  · refine count_eq_one_iff ?_
    have hone := inv.hooksOnce h
    rw [if_pos hh, List.count_nil] at hone
    rw [List.count_append, List.count_append]
    omega

/-- A consumer waits for its producer and gives the hook back; an abort meets a producer that waits,
and one that comes later. -/
theorem three_producers_completed :
    ∃ state : BufState ℕ Bool ℕ, (bufRendezvous ℕ Bool ℕ).Reaches Machine.Unguarded state ∧
      (state.producerCalls = [(0, none), (1, some (.given 5)), (2, some (.derived 5))] ∧
        state.consumerCalls = [(0, .ok 0 (some true))] ∧ state.deleted = [1, 0]) ∧
      (calledProducers state).Nodup ∧
      ∀ c h value, (c, Answer.ok h value) ∈ state.consumerCalls → ValueProvided state c value := by
  have hrun : ∃ state : BufState ℕ Bool ℕ,
      (bufRendezvous ℕ Bool ℕ).Reaches Machine.Unguarded state ∧
      decide (state.producerCalls = [(0, none), (1, some (.given 5)), (2, some (.derived 5))] ∧
        state.consumerCalls = [(0, .ok 0 (some true))] ∧ state.deleted = [1, 0]) = true :=
    Machine.exists_reaches_unguarded
      [.consumeBuf 7, .provideBuf 7 true, .resume 0, .doneWithHook 0, .provideBuf 8 false,
        .resume 1, .startAbort 5 [1], .provideBuf 9 true, .resume 2, .resume 2, .resume 2,
        .resume 3, .resume 1]
      (by decide +kernel)
  obtain ⟨state, hreached, hstate⟩ := hrun
  have hcompleted := every_party_completed_once hreached
  exact ⟨state, hreached, of_decide_eq_true hstate, hcompleted.1.1, hcompleted.2.2.2.2.1⟩

end ContainerScheduler.Analysis
