/-
# A search that keeps its path

A depth-first search with an explicit stack descends from a node to those of its successors that
are not seen yet. When it enters a node it pushes a marker, and leaves the node when the marker is
popped; the nodes that are entered and not left are a path. The first nodes of the path are stored
in an array.
-/

import Mathlib.Algebra.Order.Ring.Int
import Mathlib.Data.Finset.Card
import Mathlib.Data.List.Chain

namespace ContainerScheduler.Math

universe u

variable {α : Type u}

section Search

variable [DecidableEq α]

/-- The nodes that are not seen yet are pushed, and are seen then. -/
def pushUnseen : List α → List α → List (Option α) → List α × List (Option α)
  | [], seen, stack => (seen, stack)
  | w :: ws, seen, stack =>
      if w ∈ seen then pushUnseen ws seen stack else pushUnseen ws (w :: seen) (some w :: stack)

/-- The loop of the search, with the length of the path, or 0. A marker is `none`. -/
def pathSearch (next : α → List α) (goal : α) (maxLen : ℤ) :
    ℕ → List α → List (Option α) → ℤ → (ℤ → α) → Option (ℤ × (ℤ → α))
  | 0, _, _, _, _ => none
  | _ + 1, _, [], _, path => some (0, path)
  | fuel + 1, seen, none :: stack, len, path =>
      pathSearch next goal maxLen fuel seen stack (len - 1) path
  | fuel + 1, seen, some n :: stack, len, path =>
      let path := if len < maxLen then Function.update path len n else path
      if n = goal then some (len + 1, path)
      else
        let pushed := pushUnseen (next n) seen (none :: stack)
        pathSearch next goal maxLen fuel pushed.1 pushed.2 (len + 1) path

/-- What is pushed is new, and nothing is left out. -/
theorem pushUnseen_spec (ws seen : List α) (stack : List (Option α)) :
    ∃ pushed, pushUnseen ws seen stack = (pushed ++ seen, pushed.map some ++ stack) ∧
      (∀ w ∈ pushed, w ∈ ws) ∧ (∀ w ∈ ws, w ∈ pushed ++ seen) ∧
      (seen.Nodup → (pushed ++ seen).Nodup) := by
  induction ws generalizing seen stack with
  | nil => exact ⟨[], rfl, nofun, nofun, id⟩
  | cons w ws ih =>
      rw [pushUnseen]
      split_ifs with hseen
      · obtain ⟨pushed, hpushed, hsub, hall, hnodup⟩ := ih seen stack
        refine ⟨pushed, hpushed, fun v hv => List.mem_cons_of_mem w (hsub v hv), ?_, hnodup⟩
        exact List.forall_mem_cons.mpr ⟨List.mem_append_right _ hseen, hall⟩
      · obtain ⟨pushed, hpushed, hsub, hall, hnodup⟩ := ih (w :: seen) (some w :: stack)
        refine ⟨pushed ++ [w], ?_, ?_, ?_, ?_⟩
        · rw [hpushed, List.map_append, List.append_assoc, List.append_assoc]
          rfl
        · intro v hv
          rcases List.mem_append.mp hv with hold | hnew
          · exact List.mem_cons_of_mem w (hsub v hold)
          · exact List.mem_singleton.mp hnew ▸ List.mem_cons_self
        · rw [List.append_assoc, List.singleton_append]
          refine List.forall_mem_cons.mpr ⟨?_, hall⟩
          exact List.mem_append_right _ List.mem_cons_self
        · intro hfresh
          rw [List.append_assoc, List.singleton_append]
          exact hnodup (List.nodup_cons.mpr ⟨hseen, hfresh⟩)

end Search

section Path

variable (next : α → List α) (start goal : α)

/-- The stack has, from the top, the successors of the nodes on the path that are still to be
entered, and behind those of each node its marker. -/
inductive PathStack : List α → List (Option α) → Prop
  | start : PathStack [] [some start]
  | done : PathStack [] []
  | leave {n : α} {way : List α} {stack : List (Option α)} (hrest : PathStack way stack) :
      PathStack (n :: way) (none :: stack)
  | enter {w n : α} {way : List α} {stack : List (Option α)} (hnext : w ∈ next n)
      (hrest : PathStack (n :: way) stack) : PathStack (n :: way) (some w :: stack)

/-- The nodes that are entered and not left, the last one first. -/
structure PathWay (maxLen : ℤ) (path : ℤ → α) (way : List α) : Prop where
  chain : way.IsChain fun w n => w ∈ next n
  first : ∀ n, way.getLast? = some n → n = start
  stored : ∀ i : ℕ, i < way.length → (i : ℤ) < maxLen → way.reverse[i]? = some (path i)

/-- What the search keeps of the nodes that it has entered before. -/
structure PathEntered (entered seen : List α) (stack : List (Option α)) : Prop where
  started : start ∈ entered ∨ some start ∈ stack
  handled : ∀ w ∈ seen, w ∈ entered ∨ some w ∈ stack
  closed : ∀ u ∈ entered, ∀ w ∈ next u, w ∈ seen
  missed : goal ∉ entered

/-- A path from the start to the goal, with the nodes that are stored. -/
structure StoredPath (maxLen : ℤ) (path : ℤ → α) (nodes : List α) : Prop where
  head : nodes.head? = some start
  last : nodes.getLast? = some goal
  chain : nodes.IsChain fun u w => w ∈ next u
  stored : ∀ i : ℕ, i < nodes.length → (i : ℤ) < maxLen → nodes[i]? = some (path i)

/-- What a search has found: no path, or one that is stored as far as there is room. -/
structure PathOutcome (maxLen : ℤ) (before : ℤ → α) (len : ℤ) (path : ℤ → α) : Prop where
  found : (len = 0 ∧ ¬Relation.ReflTransGen (fun u w => w ∈ next u) start goal) ∨
    ∃ nodes : List α, len = nodes.length ∧ StoredPath next start goal maxLen path nodes
  outside : ∀ i, i < 0 ∨ maxLen ≤ i → path i = before i

variable {next : α → List α} {start goal : α} {maxLen : ℤ} {path before : ℤ → α}
  {way entered seen : List α} {stack : List (Option α)} {n : α}

/-! ## The path -/

namespace PathWay

theorem nil : PathWay next start maxLen path [] := ⟨.nil, nofun, nofun⟩

/-- The last node is left. -/
theorem leave (hway : PathWay next start maxLen path (n :: way)) : PathWay next start maxLen path way where
  chain := hway.chain.tail
  first := by
    intro m hm
    apply hway.first
    rw [List.getLast?_cons, hm]
    rfl
  stored := by
    intro i hi hroom
    have hold := hway.stored i (Nat.lt_succ_of_lt hi) hroom
    rw [List.reverse_cons, List.getElem?_append_left (by rwa [List.length_reverse])] at hold
    exact hold

/-- A node is entered, and stored if there is room. -/
theorem enter (hway : PathWay next start maxLen path way)
    (hnext : ∀ m, way.head? = some m → n ∈ next m) (hstart : way = [] → n = start) :
    PathWay next start maxLen
      (if (way.length : ℤ) < maxLen then Function.update path way.length n else path)
      (n :: way) where
  chain := List.isChain_cons.mpr ⟨hnext, hway.chain⟩
  first := by
    intro m hm
    cases hlast : way.getLast? with
    | none =>
        rw [List.getLast?_cons, hlast] at hm
        exact (Option.some.inj hm).symm.trans (hstart (List.getLast?_eq_none_iff.mp hlast))
    | some last =>
        rw [List.getLast?_cons, hlast] at hm
        exact hway.first m (hlast.trans hm)
  stored := by
    intro i hi hroom
    rw [List.reverse_cons]
    rcases Nat.lt_succ_iff_lt_or_eq.mp hi with hlt | rfl
    · rw [List.getElem?_append_left (by rwa [List.length_reverse]), hway.stored i hlt hroom]
      split_ifs
      · rw [Function.update_of_ne (by omega)]
      · rfl
    · rw [if_pos hroom, Function.update_self, List.getElem?_append_right (by simp)]
      simp

/-- The path is there when the goal is entered. -/
theorem storedPath (hway : PathWay next start maxLen path (goal :: way)) :
    StoredPath next start goal maxLen path (goal :: way).reverse where
  head := by
    rw [List.head?_reverse]
    obtain ⟨last, hlast⟩ : ∃ last, (goal :: way).getLast? = some last :=
      ⟨_, List.getLast?_eq_some_getLast (List.cons_ne_nil goal way)⟩
    rw [hlast, hway.first last hlast]
  last := by
    rw [List.getLast?_reverse]
    rfl
  chain := List.isChain_reverse.mpr hway.chain
  stored := by
    intro i hi hroom
    exact hway.stored i (by rwa [List.length_reverse] at hi) hroom

end PathWay

theorem PathStack.push (hstack : PathStack next (α := α) start (n :: way) stack) {pushed : List α}
    (hpushed : ∀ w ∈ pushed, w ∈ next n) :
    PathStack next start (n :: way) (pushed.map some ++ stack) := by
  induction pushed with
  | nil => exact hstack
  | cons w pushed ih =>
      obtain ⟨hw, hrest⟩ := List.forall_mem_cons.mp hpushed
      exact .enter hw (ih hrest)

/-! ## What is found -/

/-- When nothing is left on the stack, the goal is not reached. -/
theorem PathEntered.not_reaches (hentered : PathEntered next start goal entered seen []) :
    ¬Relation.ReflTransGen (fun u w => w ∈ next u) start goal := by
  have hstart : start ∈ entered := hentered.started.resolve_right nofun
  have hall : ∀ v, Relation.ReflTransGen (fun u w => w ∈ next u) start v → v ∈ entered := by
    intro v hpath
    induction hpath with
    | refl => exact hstart
    | tail _ hedge ih =>
        exact (hentered.handled _ (hentered.closed _ ih _ hedge)).resolve_right nofun
  exact fun hpath => hentered.missed (hall goal hpath)

/-- How many pops the stack takes without pushing. -/
def stackWeight : List (Option α) → ℕ
  | [] => 0
  | none :: stack => stackWeight stack + 1
  | some _ :: stack => stackWeight stack + 2

theorem stackWeight_push (pushed : List α) (stack : List (Option α)) :
    stackWeight (pushed.map some ++ stack) = 2 * pushed.length + stackWeight stack := by
  induction pushed with
  | nil => rw [List.map_nil, List.nil_append, List.length_nil, Nat.mul_zero, Nat.zero_add]
  | cons w pushed ih =>
      rw [List.map_cons, List.cons_append, stackWeight, ih, List.length_cons]
      omega

/-- A marker is popped. -/
theorem PathStack.of_marker (hstack : PathStack next start way (none :: stack)) :
    ∃ n rest, way = n :: rest ∧ PathStack next start rest stack := by
  cases hstack with
  | leave hrest => exact ⟨_, _, rfl, hrest⟩

/-- A node is popped that comes after the path. -/
theorem PathStack.of_node (hstack : PathStack next start way (some n :: stack)) :
    PathStack next start way stack ∧ (∀ m, way.head? = some m → n ∈ next m) ∧
      (way = [] → n = start) := by
  cases hstack with
  | start => exact ⟨.done, nofun, fun _ => rfl⟩
  | enter hnext hrest =>
      refine ⟨hrest, ?_, nofun⟩
      intro m hm
      exact Option.some.inj hm ▸ hnext

theorem PathEntered.of_marker (hentered : PathEntered next start goal entered seen (none :: stack)) :
    PathEntered next start goal entered seen stack where
  started := hentered.started.imp_right fun hmem =>
    (List.mem_cons.mp hmem).resolve_left (Option.some_ne_none start)
  handled w hw := (hentered.handled w hw).imp_right fun hmem =>
    (List.mem_cons.mp hmem).resolve_left (Option.some_ne_none w)
  closed := hentered.closed
  missed := hentered.missed

/-- A node is entered that is not the goal. -/
theorem PathEntered.enter
    (hentered : PathEntered next start goal entered seen (some n :: stack)) (hne : n ≠ goal)
    {pushed : List α} (hpushed : ∀ w ∈ next n, w ∈ pushed ++ seen) :
    PathEntered next start goal (n :: entered) (pushed ++ seen)
      (pushed.map some ++ none :: stack) := by
  have hkept : ∀ w, w ∈ entered ∨ some w ∈ some n :: stack →
      w ∈ n :: entered ∨ some w ∈ pushed.map some ++ none :: stack := by
    rintro w (hold | hmem)
    · exact .inl (List.mem_cons_of_mem n hold)
    · rcases List.mem_cons.mp hmem with heq | hrest
      · exact .inl (Option.some.inj heq ▸ List.mem_cons_self)
      · exact .inr (List.mem_append_right _ (List.mem_cons_of_mem none hrest))
  refine ⟨hkept start hentered.started, ?_, ?_, ?_⟩
  · intro w hw
    rcases List.mem_append.mp hw with hnew | hold
    · exact .inr (List.mem_append_left _ (List.mem_map_of_mem hnew))
    · exact hkept w (hentered.handled w hold)
  · intro u hu w hw
    rcases List.mem_cons.mp hu with rfl | hold
    · exact hpushed w hw
    · exact List.mem_append_right _ (hentered.closed u hold w hw)
  · intro hmem
    rcases List.mem_cons.mp hmem with heq | hold
    · exact hne heq.symm
    · exact hentered.missed hold

variable [DecidableEq α]

/-- **The search is exact.** Each node is pushed once, with a marker, so that the fuel is enough;
the way is a path at every time, and what is entered has its successors among the seen. -/
theorem pathSearch_spec {all : Finset α} (hall : ∀ u, ∀ w ∈ next u, w ∈ all) (fuel : ℕ)
    (hseen : ∀ w ∈ seen, w ∈ all) (hnodup : seen.Nodup)
    (hfuel : 2 * (all.card - seen.length) + stackWeight stack < fuel)
    (hstack : PathStack next start way stack) (hway : PathWay next start maxLen path way)
    (hentered : PathEntered next start goal entered seen stack) :
    ∃ len path', pathSearch next goal maxLen fuel seen stack way.length path = some (len, path') ∧
      PathOutcome next start goal maxLen path len path' := by
  induction fuel generalizing seen stack way path entered with
  | zero => cases hfuel
  | succ fuel ih =>
      match stack with
      | [] => exact ⟨0, path, rfl, .inl ⟨rfl, hentered.not_reaches⟩, fun _ _ => rfl⟩
      | none :: stack =>
          obtain ⟨n, rest, rfl, hrest⟩ := hstack.of_marker
          rw [stackWeight] at hfuel
          obtain ⟨len, path', hsearch, houtcome⟩ :=
            ih hseen hnodup (by omega) hrest hway.leave hentered.of_marker
          refine ⟨len, path', ?_, houtcome⟩
          rw [pathSearch, List.length_cons, Nat.cast_succ, add_sub_cancel_right]
          exact hsearch
      | some n :: stack =>
          obtain ⟨hrest, hnext, hstart⟩ := hstack.of_node
          have hwayNew := hway.enter hnext hstart
          have houtside : ∀ i, i < 0 ∨ maxLen ≤ i →
              (if (way.length : ℤ) < maxLen then Function.update path way.length n else path) i =
                path i := by
            intro i hi
            split_ifs
            · rw [Function.update_of_ne (by omega)]
            · rfl
          rw [pathSearch]
          generalize (if (way.length : ℤ) < maxLen then Function.update path way.length n else path) =
            path₁ at hwayNew houtside ⊢
          by_cases hgoal : n = goal
          · subst hgoal
            refine ⟨_, _, if_pos rfl, .inr ⟨_, ?_, hwayNew.storedPath⟩, houtside⟩
            rw [List.length_reverse, List.length_cons, Nat.cast_succ]
          · obtain ⟨pushed, hpushed, hsub, hcover, hfresh⟩ :=
              pushUnseen_spec (next n) seen (none :: stack)
            have hseenNew : ∀ w ∈ pushed ++ seen, w ∈ all :=
              List.forall_mem_append.mpr ⟨fun w hw => hall n w (hsub w hw), hseen⟩
            have hcard : (pushed ++ seen).length ≤ all.card := by
              rw [← List.toFinset_card_of_nodup (hfresh hnodup)]
              exact Finset.card_le_card fun w hw => hseenNew w (List.mem_toFinset.mp hw)
            rw [List.length_append] at hcard
            rw [stackWeight] at hfuel
            have hfuelNew : 2 * (all.card - (pushed ++ seen).length) +
                stackWeight (pushed.map some ++ none :: stack) < fuel := by
              rw [stackWeight_push, stackWeight, List.length_append]
              omega
            obtain ⟨len, path', hsearch, houtcome⟩ :=
              ih hseenNew (hfresh hnodup) hfuelNew (hrest.leave.push hsub) hwayNew
                (hentered.enter hgoal hcover)
            refine ⟨len, path', ?_, houtcome.found, ?_⟩
            · simp only [if_neg hgoal, hpushed]
              rw [List.length_cons, Nat.cast_succ] at hsearch
              exact hsearch
            · intro i hi
              rw [houtcome.outside i hi, houtside i hi]

/-- The whole search, from the start. -/
theorem pathSearch_start {all : Finset α} (hall : ∀ u, ∀ w ∈ next u, w ∈ all) (start goal : α)
    (maxLen : ℤ) (path : ℤ → α) :
    ∃ len path',
      pathSearch next goal maxLen (2 * all.card + 3) [] [some start] 0 path = some (len, path') ∧
      PathOutcome next start goal maxLen path len path' :=
  pathSearch_spec hall _ (List.forall_mem_nil _) .nil
    (by rw [stackWeight, stackWeight, List.length_nil]; omega) .start .nil
    ⟨.inr List.mem_cons_self, List.forall_mem_nil _, List.forall_mem_nil _, List.not_mem_nil⟩

end Path

end ContainerScheduler.Math
