/-
# Contraction of an edge is the quotient

`ContractEdge` is refused when there is a second way along the edge, and otherwise
gives every edge of the second node to the first one. None of the insertions that it
makes is refused: a cycle after them would be a cycle before them, or a second way.
-/

import ContainerScheduler.Analysis.CycleDetection

namespace ContainerScheduler.Analysis

open Math
open Compiler

/-- A call that has a result has met no undefined behaviour. -/
theorem represents_of_exec {rep rep' : Rep} {call : GraphCall} (hrep : Represents rep rep.Edge)
    (hallowed : call.Allowed rep) (hexec : call.exec rep = some rep') :
    Represents rep' rep'.Edge := by
  by_cases hfinds : RemovesExisting (some rep) call
  · obtain ⟨next, hnext, hrep'⟩ := exec_spec hrep hallowed hfinds
    obtain rfl : next = rep' := Option.some.inj (hnext.symm.trans hexec)
    exact hrep'.edge_eq ▸ hrep'
  · -- an edge that is not there cannot be removed
    cases call with
    | removeEdge x y =>
        have hedge : ¬ rep.Edge x y := Rep.hasEdge_iff.not.mp hfinds
        rw [GraphCall.exec, removeEdge_eq_none hrep hedge] at hexec
        cases hexec
    | _ => exact absurd trivial hfinds

theorem represents_of_reaches {rep : Rep}
    (hreached : graphMachine.Reaches Machine.Unguarded (some rep)) :
    Represents rep rep.Edge := by
  have hall : ∀ state, graphMachine.Reaches Machine.Unguarded state →
      ∀ rep : Rep, state = some rep → Represents rep rep.Edge := by
    intro state hstate
    induction hstate with
    | init =>
        rintro rep hrep
        obtain rfl := Option.some.inj hrep
        exact represents_new.edge_eq ▸ represents_new
    | @step source target call _ _ htaken ih =>
        rintro rep' rfl
        cases source with
        | none => cases htaken
        | some rep =>
            simp only [graphMachine, Option.ite_none_right_eq_some, Option.some.injEq] at htaken
            obtain ⟨hallowed, hexec⟩ := htaken
            exact represents_of_exec (ih rep rfl) hallowed hexec
  exact hall _ hreached rep rfl

/-- There is a path from the first node to the second one other than the edge itself. -/
def OtherPath (rep : Rep) (a b : ℕ) : Prop :=
  ∃ c, rep.Edge a c ∧ Relation.TransGen rep.Edge c b

/-- What a contraction of an edge should do. -/
structure ContractsExactly (rep : Rep) (a b : ℕ) (result : Bool) (answers : List Bool)
    (rep' : Rep) : Prop where
  refused_iff : result = false ↔ OtherPath rep a b
  /-- A refused contraction keeps the edges and the nodes. -/
  unchanged : result = false → rep'.Edge = rep.Edge ∧ ∀ v, rep'.Live v ↔ rep.Live v
  /-- The edges are those between the merged nodes, without loops. -/
  quotient : result = true → ∀ u v, rep'.Edge u v ↔ Merged rep.Edge a b u v
  freed : result = true → rep'.freeNodes = b :: rep.freeNodes ∧
    ∀ v, rep'.Live v ↔ rep.Live v ∧ v ≠ b
  /-- Between the other nodes there is a path exactly if there is one that may change
  between the two contracted nodes. -/
  reaches : result = true → ∀ u v, u ≠ b → v ≠ b →
    (Relation.ReflTransGen rep'.Edge u v ↔
      Relation.ReflTransGen (Identified rep.Edge a b) u v)
  /-- Every insertion made on the way succeeds. -/
  inserted : ∀ answer ∈ answers, answer = true

theorem Contracted.contractsExactly {rep rep' : Rep} {a b : ℕ} {result : Bool}
    {answers : List Bool} (hrep : Represents rep rep.Edge) (hedge : rep.Edge a b)
    (hcontracted : Contracted rep rep.Edge a b result answers rep') :
    ContractsExactly rep a b result answers rep' := by
  have hother : result = false ↔ OtherPath rep a b :=
    hcontracted.refused_iff.trans (other_way_iff hrep.acyclic hedge)
  have hquotient : result = true → ∀ u v, rep'.Edge u v ↔ Merged rep.Edge a b u v := by
    rintro rfl u v
    have hnone := hcontracted.refused_iff.not.mp (by decide)
    rw [hcontracted.represents.edge_eq]
    refine Iff.trans ?_ (contract_iff_merged hrep.acyclic hedge)
    exact (or_iff_right fun h => hnone h.1).trans (and_iff_right hnone)
  refine ⟨hother, ?_, hquotient, ?_, ?_, hcontracted.inserted⟩
  · rintro rfl
    have hway := hcontracted.refused_iff.mp rfl
    constructor
    · rw [hcontracted.represents.edge_eq]
      funext u v
      exact propext ⟨fun h => h.elim And.right fun h => absurd hway h.1, fun h => .inl ⟨hway, h⟩⟩
    · intro v
      rw [Rep.Live, Rep.Live, hcontracted.size_eq, hcontracted.free_eq]
      rfl
  · rintro rfl
    refine ⟨hcontracted.free_eq, fun v => ?_⟩
    rw [Rep.Live, Rep.Live, hcontracted.size_eq, hcontracted.free_eq, if_pos rfl, List.mem_cons,
      not_or]
    constructor
    · rintro ⟨hsize, hne, hfree⟩
      exact ⟨⟨hsize, hfree⟩, hne⟩
    · rintro ⟨⟨hsize, hfree⟩, hne⟩
      exact ⟨hsize, hne, hfree⟩
  · intro hresult u v hu hv
    have hsame : rep'.Edge = Merged rep.Edge a b := by
      funext s t
      exact propext (hquotient hresult s t)
    rw [hsame, ← reaches_merged_iff, merge_of_ne hu, merge_of_ne hv]

/-- **Contraction of an edge.** In every graph that is reached, the contraction of an edge
has a result, and it is the one above. -/
theorem contraction_is_quotient {rep : Rep}
    (hreached : graphMachine.Reaches Machine.Unguarded (some rep)) {a b : ℕ}
    (hedge : rep.hasEdge a b = true) :
    ∃ result answers rep', contractEdgeAnswers rep a b = some (result, answers, rep') ∧
      rep.contractEdge a b = some (result, rep') ∧
      ContractsExactly rep a b result answers rep' := by
  have hrep := represents_of_reaches hreached
  have hE : rep.Edge a b := Rep.hasEdge_iff.mp hedge
  obtain ⟨ha, hb⟩ := hrep.live a b hE
  obtain ⟨result, answers, rep', hresult, hcontracted⟩ := contractEdge_spec hrep ha hb hE
  refine ⟨result, answers, rep', hresult, ?_, hcontracted.contractsExactly hrep hE⟩
  rw [contractEdge_eq, hresult]
  rfl

/-- A triangle, whose long side cannot be contracted. -/
theorem contraction_of_triangle :
    ∃ rep, graphMachine.Reaches Machine.Unguarded (some rep) ∧ rep.hasEdge 0 2 = true ∧
      ∃ result answers rep', contractEdgeAnswers rep 0 2 = some (result, answers, rep') ∧
        rep.contractEdge 0 2 = some (result, rep') ∧
        ContractsExactly rep 0 2 result answers rep' := by
  obtain ⟨state, hreached, hstate⟩ := graphMachine.exists_reaches_unguarded
    [.newNode, .newNode, .newNode, .insertEdge 0 1, .insertEdge 1 2, .insertEdge 0 2]
    (Q := fun state => state.any fun (rep : Rep) => rep.hasEdge 0 2) (by decide +kernel)
  obtain ⟨rep, rfl, hedge⟩ := (Option.any_eq_true _ _).mp hstate
  exact ⟨rep, hreached, hedge, contraction_is_quotient hreached hedge⟩

/-! ## Lists of insertions -/

/-- What the answers to a list of insertions say about the graph behind it. -/
structure InsertsGreedily (rep : Rep) (edges : List (ℕ × ℕ)) (answers : List Bool)
    (rep' : Rep) : Prop where
  length : answers.length = edges.length
  acyclic : Math.Acyclic rep'.Edge
  edge_iff : ∀ u v, rep'.Edge u v ↔ rep.Edge u v ∨ ((u, v), true) ∈ edges.zip answers
  /-- An edge that is refused closes a cycle in the end, and no other one does. -/
  refused_iff : ∀ x y answer, ((x, y), answer) ∈ edges.zip answers →
    (answer = false ↔ x = y ∨ Relation.ReflTransGen rep'.Edge y x)

section Insertions

variable {rep : Rep} {edges : List (ℕ × ℕ)}

theorem insertEdges_greedily (hrep : Represents rep rep.Edge)
    (hlive : ∀ edge ∈ edges, rep.Live edge.1 ∧ rep.Live edge.2) :
    ∃ answers rep', insertEdgesAnswers edges rep = some (answers, rep') ∧
      InsertsGreedily rep edges answers rep' := by
  induction edges generalizing rep with
  | nil => exact ⟨[], rep, rfl, rfl, hrep.acyclic, by simp, by simp⟩
  | cons edge edges ih =>
      obtain ⟨x, y⟩ := edge
      obtain ⟨hhead, htail⟩ := List.forall_mem_cons.mp hlive
      obtain ⟨result, middle, hresult, hinserted⟩ := insertEdge_spec hrep hhead.1 hhead.2
      have hmiddle : Represents middle middle.Edge ∧
          ∀ u v, middle.Edge u v ↔ rep.Edge u v ∨ u = x ∧ v = y ∧ result = true := by
        cases result with
        | false =>
            rw [hinserted.unchanged rfl]
            exact ⟨hrep, fun u v => by simp⟩
        | true =>
            have hadded := hinserted.added rfl
            rw [hadded.edge_eq]
            exact ⟨hadded, fun u v => by simp⟩
      obtain ⟨answers, rep', hrest, hgreedy⟩ := ih hmiddle.1 fun other hother => by
        simpa [Rep.Live, hinserted.size_eq, hinserted.free_eq] using htail other hother
      have hedge : ∀ u v, rep'.Edge u v ↔
          rep.Edge u v ∨ ((u, v), true) ∈ ((x, y) :: edges).zip (result :: answers) := by
        intro u v
        rw [hgreedy.edge_iff, hmiddle.2, List.zip_cons_cons, List.mem_cons]
        simp only [Prod.mk.injEq, or_assoc, and_assoc, eq_comm]
      refine ⟨result :: answers, rep', by simp [insertEdgesAnswers, hresult, hrest],
        congrArg Nat.succ hgreedy.length, hgreedy.acyclic, hedge, fun u v answer hanswer => ?_⟩
      rcases List.mem_cons.mp hanswer with hfirst | hlater
      · simp only [Prod.mk.injEq] at hfirst
        obtain ⟨⟨rfl, rfl⟩, rfl⟩ := hfirst
        constructor
        · intro hrefused
          exact (hinserted.refused_iff.mp hrefused).imp id
            (Relation.ReflTransGen.mono (fun s t hE => (hedge s t).mpr (.inl hE)) v u)
        · -- an edge that is added stays
          intro hcloses
          by_contra haccepted
          have hthere : rep'.Edge u v := (hedge u v).mpr (.inr (by simp_all))
          exact hgreedy.acyclic.not_reaches hthere hcloses
      · exact hgreedy.refused_iff u v answer hlater

end Insertions

end ContainerScheduler.Analysis
