/-
# Shapes are lists of dimensions

A shape stands for a list of dimensions and a data type. The operations of a program act on such
lists in the obvious way, as long as the lists stay valid. The shapes of the program always read as
its lists: whatever their layouts, and whichever addresses their vectors have been given.
-/

import ContainerScheduler.Analysis.PackedOperations

namespace ContainerScheduler.Analysis

open Math
open Shapes
open Shapes.TensorShapeRep

/-! ## The lists of a program -/

/-- What a shape stands for. An unknown dimension is negative. -/
structure DimList where
  isPartial : Bool
  dims : List ℤ
  dataType : ℕ
  deriving DecidableEq, Repr

/-- The shapes that a program has. -/
abbrev DimLists := ℕ → Option DimList

namespace DimLists

variable (lists : DimLists)

/-- Replace the list of a shape, if it has one and the new one is valid. -/
def modify (target : ℕ) (change : DimList → Option DimList) : Option DimLists :=
  (lists target).bind fun list =>
    (change list).map fun list' => Function.update lists target (some list')

/-- The list with other dimensions, if they are valid. -/
def withDims (list : DimList) (dims : List ℤ) : Option DimList :=
  if ValidDims list.isPartial dims then some { list with dims := dims } else none

/-- The list of a shape that is used as one of the given type. -/
def listAs (isPartial : Bool) (source : ℕ) : Option DimList :=
  (lists source).filter fun list => !list.isPartial || isPartial

/-- What an operation does to the lists; `none` if a `CHECK` refuses it or a shape is missing. -/
def call : ShapeOp → Option DimLists
  | .construct target isPartial _ dimSizes =>
      if (lists target).isNone then
        (withDims ⟨isPartial, [], 0⟩ (dimSizes.map Int64.toInt)).map fun list =>
          Function.update lists target (some list)
      else none
  | .copyConstruct target isPartial _ source =>
      (lists.listAs isPartial source).bind fun other =>
        if (lists target).isNone then
          some (Function.update lists target (some { other with isPartial := isPartial }))
        else none
  | .assign target source =>
      lists.modify target fun list =>
        (lists.listAs list.isPartial source).map fun other =>
          { other with isPartial := list.isPartial }
  | .addDim target size => lists.modify target fun list => withDims list (list.dims ++ [size.toInt])
  | .insertDim target d size =>
      lists.modify target fun list =>
        if 0 ≤ d ∧ d ≤ list.dims.length then withDims list (list.dims.insertIdx d.toNat size.toInt)
        else none
  | .setDim target d size =>
      lists.modify target fun list =>
        if 0 ≤ d ∧ d < list.dims.length ∧ 0 ≤ size.toInt then
          withDims list (list.dims.set d.toNat size.toInt)
        else none
  | .removeDimRange target begin' end' =>
      lists.modify target fun list =>
        let first := rangeBound list.dims begin'
        let last := rangeBound list.dims end'
        if 0 ≤ first ∧ first ≤ list.dims.length ∧ 0 ≤ last ∧ last ≤ list.dims.length then
          withDims list (if last ≤ first then list.dims
            else list.dims.take first.toNat ++ list.dims.drop last.toNat)
        else none
  | .appendShape target source =>
      lists.modify target fun list =>
        (lists.listAs list.isPartial source).bind fun other =>
          withDims list (list.dims ++ other.dims)
  | .clear target => lists.modify target fun list => some ⟨list.isPartial, [], 0⟩
  | .setDataType target dataType =>
      lists.modify target fun list => some { list with dataType := dataType.toNat }
  | .destroy target => (lists target).map fun _ => Function.update lists target none

def calls : List ShapeCall → DimLists → Option DimLists
  | [], lists => some lists
  | call :: rest, lists => (lists.call call.op).bind (calls rest)

end DimLists

/-! ## The shapes read as the lists -/

/-- A shape holds the dimensions of a list. -/
structure HoldsList (heap : Heap) (shape : Shape) (list : DimList) : Prop where
  isPartial_eq : shape.isPartial = list.isPartial
  holds : Holds heap shape.rep list.dims
  dataType_eq : shape.rep.dataType = list.dataType
  valid : ValidDims list.isPartial list.dims

/-- Two shapes have no vector in common. -/
def ApartShapes (shape shape' : Shape) : Prop :=
  shape.rep.tag = .repOutOfLine → shape'.rep.tag = .repOutOfLine →
    shape.rep.dims64 ≠ shape'.rep.dims64

/-- Each shape holds its list, in a vector of its own if it is out of line. -/
structure HoldsLists (state : ShapeState) (lists : DimLists) : Prop where
  each : ∀ target, Option.Rel (HoldsList state.heap) (state.shapes target) (lists target)
  apart : ∀ target other shape shape', target ≠ other → state.shapes target = some shape →
    state.shapes other = some shape' → ApartShapes shape shape'

/-- No shape but the target has its vector at the address. -/
def FreeFor (state : ShapeState) (target address : ℕ) : Prop :=
  ∀ other shape, other ≠ target → state.shapes other = some shape →
    shape.rep.tag = .repOutOfLine → shape.rep.dims64 ≠ address

theorem HoldsList.heap_congr {heap heap' : Heap} {shape : Shape} {list : DimList}
    (hholds : HoldsList heap shape list)
    (hsame : shape.rep.tag = .repOutOfLine → heap' shape.rep.dims64 = heap shape.rep.dims64) :
    HoldsList heap' shape list :=
  { hholds with
    holds := { hholds.holds with laidOut := hholds.holds.laidOut.heap_congr hsame } }

theorem HoldsList.isSome {heap : Heap} {shape : Shape} {list : DimList}
    (hholds : HoldsList heap shape list) (htag : shape.rep.tag = .repOutOfLine) :
    (heap shape.rep.dims64).isSome = true := by
  have hlaid := hholds.holds.laidOut
  rw [LaidOut, htag] at hlaid
  rcases hlaid with ⟨vals, hvals, -⟩
  rw [hvals]
  rfl

namespace HoldsLists

variable {state : ShapeState} {lists : DimLists} {target address : ℕ}

theorem init : HoldsLists .init fun _ => none :=
  ⟨fun _ => .none, fun _ _ _ _ _ hshape => nomatch hshape⟩

section

variable (hholds : HoldsLists state lists)

include hholds

theorem exists_shape {list : DimList} (hlist : lists target = some list) :
    ∃ shape, state.shapes target = some shape ∧ HoldsList state.heap shape list := by
  have hrel := hholds.each target
  rw [hlist] at hrel
  rcases hshape : state.shapes target with _ | shape <;> rw [hshape] at hrel
  · exact nomatch hrel
  · rcases hrel with hrel | _
    exact ⟨shape, rfl, hrel⟩

theorem exists_list {shape : Shape} (hshape : state.shapes target = some shape) :
    ∃ list, lists target = some list ∧ HoldsList state.heap shape list := by
  have hrel := hholds.each target
  rw [hshape] at hrel
  rcases hlist : lists target with _ | list <;> rw [hlist] at hrel
  · exact nomatch hrel
  · rcases hrel with hrel | _
    exact ⟨list, rfl, hrel⟩

theorem shape_eq_none (hlist : lists target = none) : state.shapes target = none := by
  rcases hshape : state.shapes target with _ | shape
  · rfl
  · rcases hholds.exists_list hshape with ⟨list, hsome, -⟩
    exact absurd (hlist.symm.trans hsome) nofun

theorem freeFor (hfree : state.heap address = none) : FreeFor state target address := by
  intro other shape _ hshape htag heq
  rcases hholds.exists_list hshape with ⟨list, -, hlist⟩
  have hsome := hlist.isSome htag
  rw [heq, hfree] at hsome
  exact absurd hsome nofun

/-- The vector of a shape is not that of another. -/
theorem freeFor_own {shape : Shape} (hshape : state.shapes target = some shape)
    (htag : shape.rep.tag = .repOutOfLine) :
    FreeFor state target shape.rep.dims64 := by
  intro other shape' hne hshape' htag'
  exact hholds.apart other target shape' shape hne hshape' hshape htag' htag

/-- A shape that keeps its vector holds its list in another heap. -/
theorem rel_of_same {heap : Heap}
    (hsame : ∀ shape, state.shapes target = some shape → shape.rep.tag = .repOutOfLine →
      heap shape.rep.dims64 = state.heap shape.rep.dims64) :
    Option.Rel (HoldsList heap) (state.shapes target) (lists target) := by
  rcases hlist : lists target with _ | list
  · rw [hholds.shape_eq_none hlist]
    exact .none
  · rcases hholds.exists_shape hlist with ⟨shape, hshape, hholdsList⟩
    rw [hshape]
    exact .some (hholdsList.heap_congr (hsame shape hshape))

/-- A shape is given or replaced by an operation that keeps all others. -/
theorem replace (hfree : FreeFor state target address) {rep : TensorShapeRep}
    (hown : rep.tag = .repOutOfLine → FreeFor state target rep.dims64) {next : Memory}
    (hkeeps : KeepsOthers address (rep, state.heap) next) {isPartial : Bool} {list : DimList}
    (hlist : HoldsList next.2 ⟨isPartial, next.1⟩ list) :
    HoldsLists ⟨Function.update state.shapes target (some ⟨isPartial, next.1⟩), next.2⟩
      (Function.update lists target (some list)) := by
  have hnext : next.1.tag = .repOutOfLine → FreeFor state target next.1.dims64 := by
    intro htag
    rcases hkeeps.pointer htag with heq | ⟨hrep, heq⟩
    · rwa [heq]
    · rw [heq]
      exact hown hrep
  constructor
  · intro other
    by_cases heq : other = target
    · simp only [heq, Function.update_self]
      exact .some hlist
    · simp only [Function.update_of_ne heq]
      apply hholds.rel_of_same
      intro shape hshape htag
      apply hkeeps.elsewhere _ (hfree other shape heq hshape htag)
      intro hrep
      exact hown hrep other shape heq hshape htag
  · intro first second shape shape' hne hfirst hsecond htag htag'
    by_cases heq : first = target
    · have hother : second ≠ target := fun heq' => hne (heq.trans heq'.symm)
      simp only [heq, Function.update_self, Option.some.injEq] at hfirst
      simp only [Function.update_of_ne hother] at hsecond
      subst hfirst
      exact (hnext htag second shape' hother hsecond htag').symm
    · simp only [Function.update_of_ne heq] at hfirst
      by_cases heq' : second = target
      · simp only [heq', Function.update_self, Option.some.injEq] at hsecond
        subst hsecond
        exact hnext htag' first shape heq hfirst htag
      · simp only [Function.update_of_ne heq'] at hsecond
        exact hholds.apart first second shape shape' hne hfirst hsecond htag htag'

/-- A shape is destroyed. -/
theorem remove {shape : Shape} (hshape : state.shapes target = some shape) {heap : Heap}
    (hheap : ∀ other, (shape.rep.tag = .repOutOfLine → other ≠ shape.rep.dims64) →
      heap other = state.heap other) :
    HoldsLists ⟨Function.update state.shapes target none, heap⟩
      (Function.update lists target none) := by
  constructor
  · intro other
    by_cases heq : other = target
    · simp only [heq, Function.update_self]
      exact .none
    · simp only [Function.update_of_ne heq]
      apply hholds.rel_of_same
      intro shape' hother htag'
      apply hheap
      intro htag
      exact hholds.freeFor_own hshape htag other shape' heq hother htag'
  · intro first second shape' shape'' hne hfirst hsecond
    by_cases heq : first = target
    · simp [heq] at hfirst
    · by_cases heq' : second = target
      · simp [heq'] at hsecond
      · simp only [Function.update_of_ne heq] at hfirst
        simp only [Function.update_of_ne heq'] at hsecond
        exact hholds.apart first second shape' shape'' hne hfirst hsecond

end

end HoldsLists

/-! ## One operation -/

/-- The shapes and the lists end alike: the shapes hold the lists, or a `CHECK` failed or a shape
was missing. -/
def EndsAlike (result : Except Fault ShapeState) : Option DimLists → Prop
  | some lists => ∃ state, result = .ok state ∧ HoldsLists state lists
  | none => result = .error .checkFailed ∨ result = .error .noShape

/-- An operation on the memory of a shape does to its list what it should. -/
def Performs (address : ℕ) (memory : Memory) (list : DimList) (result : Except Fault Memory) :
    Option DimList → Prop
  | some list' => list'.isPartial = list.isPartial ∧ ValidDims list'.isPartial list'.dims ∧
      ∃ next, result = .ok next ∧ Starts address memory list'.dims list'.dataType next
  | none => result = .error .checkFailed

/-- An operation that keeps the data type. -/
theorem performs_of_givesIf {address : ℕ} {memory : Memory} {list : DimList} {dims : List ℤ}
    {result : Except Fault Memory} {needed : Prop} {change : Option DimList}
    (hgives : GivesIf needed (Becomes address memory dims) result)
    (hdata : memory.1.dataType = list.dataType)
    (hsome : needed → ValidDims list.isPartial dims ∧ change = some { list with dims := dims })
    (hnone : ¬needed → change = none) : Performs address memory list result change := by
  by_cases hneeded : needed
  · rcases hsome hneeded with ⟨hvalid, rfl⟩
    rcases hgives.1 hneeded with ⟨next, hnext, hbecomes⟩
    exact ⟨rfl, hvalid, next, hnext, hbecomes.holds, hbecomes.dataType_eq.trans hdata,
      hbecomes.keeps⟩
  · rw [hnone hneeded]
    exact hgives.2 hneeded

theorem performs_withDims {address : ℕ} {memory : Memory} {list : DimList} {dims : List ℤ}
    {result : Except Fault Memory}
    (hgives : GivesIf (ValidDims list.isPartial dims) (Becomes address memory dims) result)
    (hdata : memory.1.dataType = list.dataType) :
    Performs address memory list result (DimLists.withDims list dims) := by
  apply performs_of_givesIf hgives hdata
  · intro hvalid
    exact ⟨hvalid, if_pos hvalid⟩
  · intro hvalid
    exact if_neg hvalid

/-- The same for an operation that checks more. -/
theorem performs_ite_withDims {address : ℕ} {memory : Memory} {list : DimList} {dims : List ℤ}
    {result : Except Fault Memory} {checks : Prop} [Decidable checks]
    (hgives : GivesIf (checks ∧ ValidDims list.isPartial dims) (Becomes address memory dims) result)
    (hdata : memory.1.dataType = list.dataType) :
    Performs address memory list result
      (if checks then DimLists.withDims list dims else none) := by
  apply performs_of_givesIf hgives hdata
  · rintro ⟨hchecks, hvalid⟩
    exact ⟨hvalid, (if_pos hchecks).trans (if_pos hvalid)⟩
  · intro hnot
    by_cases hchecks : checks
    · rw [if_pos hchecks]
      exact if_neg fun hvalid => hnot ⟨hchecks, hvalid⟩
    · exact if_neg hchecks

section Operation

variable {state : ShapeState} {lists : DimLists} {address : ℕ} (hholds : HoldsLists state lists)

include hholds

theorem shape_of_none {target : ℕ} (hlist : lists target = none) :
    state.shape target = .error .noShape := by
  rw [ShapeState.shape, hholds.shape_eq_none hlist]

theorem shape_of_some {target : ℕ} {list : DimList} (hlist : lists target = some list) :
    ∃ shape, state.shapes target = some shape ∧ state.shape target = .ok shape ∧
      HoldsList state.heap shape list := by
  rcases hholds.exists_shape hlist with ⟨shape, hshape, hholdsList⟩
  refine ⟨shape, hshape, ?_, hholdsList⟩
  rw [ShapeState.shape, hshape]

/-- A shape that is used as one of a type is there exactly if its list is. -/
theorem shapeAs_spec (isPartial : Bool) (source : ℕ) :
    match lists.listAs isPartial source with
    | some list => ∃ shape, state.shapeAs isPartial source = .ok shape ∧
        state.shapes source = some shape ∧ HoldsList state.heap shape list ∧
        (isPartial = false → list.isPartial = false)
    | none => state.shapeAs isPartial source = .error .noShape := by
  rw [DimLists.listAs, ShapeState.shapeAs]
  rcases hlist : lists source with _ | list
  · rw [shape_of_none hholds hlist]
    rfl
  · rcases shape_of_some hholds hlist with ⟨shape, hshape, hok, hholdsList⟩
    rw [hok, Except.bind, hholdsList.isPartial_eq, Option.filter]
    rcases hpart : list.isPartial with _ | _ <;> rcases isPartial with _ | _ <;>
      simp_all

/-- An operation on one shape ends as its change of the list does. -/
theorem modify_endsAlike {target : ℕ} (hfree : FreeFor state target address)
    {operation : Shape → Memory → Except Fault Memory} {change : DimList → Option DimList}
    (hoperation : ∀ shape list, lists target = some list → HoldsList state.heap shape list →
      Performs address (shape.rep, state.heap) list (operation shape (shape.rep, state.heap))
        (change list)) :
    EndsAlike (state.modify target operation) (lists.modify target change) := by
  rw [ShapeState.modify, DimLists.modify]
  rcases hlist : lists target with _ | list
  · rw [shape_of_none hholds hlist]
    exact .inr rfl
  · rcases shape_of_some hholds hlist with ⟨shape, hshape, hok, hholdsList⟩
    have hperforms := hoperation shape list hlist hholdsList
    rw [hok, Except.bind, Option.bind_some]
    rcases hchange : change list with _ | list' <;> rw [hchange] at hperforms
    · have hfailed : operation shape (shape.rep, state.heap) = .error .checkFailed := hperforms
      rw [hfailed]
      exact .inl rfl
    · rcases hperforms with ⟨hpart, hvalid, next, hnext, hstarts⟩
      rw [hnext]
      refine ⟨_, rfl, hholds.replace hfree (hholds.freeFor_own hshape) hstarts.keeps ?_⟩
      exact ⟨hholdsList.isPartial_eq.trans hpart.symm, hstarts.holds, hstarts.dataType_eq,
        hvalid⟩

/-- A constructor gives the shape of a list. -/
theorem create_endsAlike {target : ℕ} (hfree : state.heap address = none) {isPartial : Bool}
    {buf : Bytes} {operation : Memory → Except Fault Memory} (result : Option DimList)
    (hoperation : match result with
      | some list => list.isPartial = isPartial ∧ ValidDims isPartial list.dims ∧
          ∃ next, operation (⟨buf, 0⟩, state.heap) = .ok next ∧
            Starts address ((TensorShapeRep.mk buf 0).setTag .rep16, state.heap) list.dims
              list.dataType next
      | none => operation (⟨buf, 0⟩, state.heap) = .error .checkFailed) :
    EndsAlike (state.create target isPartial buf operation)
      (if (lists target).isNone then
        result.map fun list => Function.update lists target (some list)
      else none) := by
  rw [ShapeState.create]
  rcases hlist : lists target with _ | list
  · rw [hholds.shape_eq_none hlist]
    rcases result with _ | list
    · have hfailed : operation (⟨buf, 0⟩, state.heap) = .error .checkFailed := hoperation
      simp only [hfailed]
      exact .inl rfl
    · rcases hoperation with ⟨rfl, hvalid, next, hnext, hstarts⟩
      simp only [hnext]
      refine ⟨_, rfl, hholds.replace (hholds.freeFor hfree) ?_ hstarts.keeps
        ⟨rfl, hstarts.holds, hstarts.dataType_eq, hvalid⟩⟩
      intro htag
      exact absurd (tag_setTag.symm.trans htag) nofun
  · rcases hholds.exists_shape hlist with ⟨shape, hshape, -⟩
    rw [hshape]
    exact .inr rfl

/-! ## `AppendShape` -/

/-- The address is free for a vector of the target, or the target has one already. -/
def UsableFor (state : ShapeState) (target address : ℕ) : Prop :=
  ∀ shape, state.shapes target = some shape →
    shape.rep.tag = .repOutOfLine ∨ state.heap address = none

/-- One dimension that was read is added. -/
theorem addDim_step {target : ℕ} {list : DimList} {size read : ℤ} (hlist : lists target = some list)
    (hfree : FreeFor state target address) (husable : UsableFor state target address)
    (haddress : address < 2 ^ 64) (hsize : size < 2 ^ 63) (hreads : ReadsAs size read) :
    GivesIf (ValidDims list.isPartial (list.dims ++ [size]))
      (fun next => HoldsLists next
          (Function.update lists target (some { list with dims := list.dims ++ [size] })) ∧
        FreeFor next target address ∧ UsableFor next target address)
      (state.modify target fun shape => addDim shape.isPartial address read) := by
  rcases shape_of_some hholds hlist with ⟨shape, hshape, hok, hone⟩
  have hall : List.Forall₂ ReadsAs (list.dims ++ [size]) (list.dims ++ [read]) :=
    forall₂_readsAs_append (forall₂_readsAs_refl list.dims) (.cons hreads .nil)
  have hlt : ∀ size' ∈ list.dims ++ [size], size' < 2 ^ 63 :=
    List.forall_mem_append.mpr ⟨hone.holds.lt_of_mem, List.forall_mem_singleton.mpr hsize⟩
  have hadd : GivesIf (ValidDims list.isPartial (list.dims ++ [read]))
      (Becomes address (shape.rep, state.heap) (list.dims ++ [read]))
      (addDim list.isPartial address read (shape.rep, state.heap)) :=
    addDim_spec hone.holds hone.valid (hreads.lt hsize (by decide)) (husable shape hshape) haddress
  rw [ShapeState.modify, hok, Except.bind, hone.isPartial_eq]
  apply GivesIf.congr _ (validDims_iff_of_readsAs hall)
  by_cases hvalid : ValidDims list.isPartial (list.dims ++ [read])
  · rcases hadd.1 hvalid with ⟨next, hnext, hbecomes⟩
    rw [hnext]
    refine .ok hvalid ⟨?_, ?_, ?_⟩
    · apply hholds.replace hfree (hholds.freeFor_own hshape) hbecomes.keeps
      exact ⟨rfl, hbecomes.holds.of_readsAs hall hlt, hbecomes.dataType_eq.trans hone.dataType_eq,
        (validDims_iff_of_readsAs hall).mp hvalid⟩
    · intro other shape' hne hshape'
      simp only [Function.update_of_ne hne] at hshape'
      exact hfree other shape' hne hshape'
    · intro shape' hshape'
      simp only [Function.update_self, Option.some.injEq] at hshape'
      subst hshape'
      exact hbecomes.keeps.usable
  · rw [hadd.2 hvalid]
    exact .checkFailed hvalid

omit hholds in
/-- The loop adds the dimensions of the source that are left. A source that is the target keeps
those it had at first. -/
theorem appendShapeFrom_endsAlike {target source : ℕ} {isPartial : Bool} {base given : List ℤ}
    {dataType : ℕ} (haddress : address < 2 ^ 64) (count d : ℕ) (hcount : d + count = given.length)
    {state : ShapeState} {lists : DimLists} (hholds : HoldsLists state lists)
    (hlist : lists target = some ⟨isPartial, base ++ given.take d, dataType⟩)
    (hsource : source = target ∧ given = base ∨ source ≠ target ∧
      ∃ other, lists.listAs isPartial source = some other ∧ other.dims = given)
    (hfree : FreeFor state target address) (husable : UsableFor state target address) :
    EndsAlike (ShapeState.appendShapeFrom address target source count d state)
      ((DimLists.withDims ⟨isPartial, base ++ given.take d, dataType⟩ (base ++ given)).map
        fun list => Function.update lists target (some list)) := by
  induction count generalizing d state lists with
  | zero =>
      rw [List.take_of_length_le (Nat.add_zero d ▸ hcount.ge)] at hlist ⊢
      rcases hholds.exists_shape hlist with ⟨shape, -, hone⟩
      rw [DimLists.withDims, if_pos hone.valid]
      have hsame : Function.update lists target (some ⟨isPartial, base ++ given, dataType⟩) =
          lists := by
        rw [← hlist, Function.update_eq_self]
      refine ⟨state, rfl, ?_⟩
      simp only [hsame]
      exact hholds
  | succ count ih =>
      have hlt : d < given.length := by omega
      have htake : given.take (d + 1) = given.take d ++ [given[d]] :=
        List.take_succ_eq_append_getElem hlt
      rcases shape_of_some hholds hlist with ⟨shape, hshape, hok, hone⟩
      -- The list that the source has now still begins with the given one.
      have hother : ∃ other, lists.listAs isPartial source = some other ∧
          other.dims[d]? = some given[d] := by
        rcases hsource with ⟨rfl, rfl⟩ | ⟨-, other, hother, rfl⟩
        · refine ⟨⟨isPartial, given ++ given.take d, dataType⟩, ?_, ?_⟩
          · rw [DimLists.listAs, hlist]
            cases isPartial <;> rfl
          · rw [List.getElem?_append_left hlt]
            exact List.getElem?_eq_getElem hlt
        · exact ⟨other, hother, List.getElem?_eq_getElem hlt⟩
      rcases hother with ⟨other, hother, hd⟩
      have hspec := shapeAs_spec hholds isPartial source
      rw [hother] at hspec
      rcases hspec with ⟨shape', hok', -, hone', hkind⟩
      have hknown : isPartial = false → ∀ size ∈ other.dims, 0 ≤ size := fun hfull =>
        hone'.valid.2.1 (hkind hfull)
      rcases dimSize_spec hone'.holds.toHasDims hknown hd with ⟨read, hread, hreads⟩
      have hsize : given[d] < 2 ^ 63 :=
        hone'.holds.lt_of_mem _ (List.mem_of_getElem? hd)
      have hstep := addDim_step hholds hlist hfree husable haddress hsize hreads
      rw [ShapeState.appendShapeFrom, hok, Except.bind, hone.isPartial_eq, hok', Except.bind, hread,
        Except.bind]
      by_cases hvalid : ValidDims isPartial (base ++ given.take d ++ [given[d]])
      · rcases hstep.1 hvalid with ⟨next, hnext, hholds', hfree', husable'⟩
        rw [hnext, Except.bind]
        simp only at hholds'
        rw [List.append_assoc, ← htake] at hholds'
        have hrest := ih (d + 1) (by omega) hholds' (Function.update_self _ _ _) ?_ hfree' husable'
        · simp only [Function.update_idem] at hrest
          exact hrest
        · rcases hsource with hsame | ⟨hne, other', hother', hdims⟩
          · exact .inl hsame
          · refine .inr ⟨hne, other', ?_, hdims⟩
            rw [DimLists.listAs, Function.update_of_ne hne]
            exact hother'
      · rw [hstep.2 hvalid, Except.bind]
        have hlong : ¬ValidDims isPartial (base ++ given) := by
          intro hall
          apply hvalid
          apply hall.of_prefix
          rw [List.append_assoc, ← htake]
          exact List.prefix_append_right_inj _ |>.mpr (List.take_prefix _ _)
        rw [DimLists.withDims, if_neg hlong]
        exact .inl rfl

theorem appendShape_endsAlike {target source : ℕ} (haddress : address < 2 ^ 64)
    (hfree : state.heap address = none) :
    EndsAlike (state.appendShape address target source)
      (lists.call (.appendShape target source)) := by
  rw [ShapeState.appendShape, DimLists.call, DimLists.modify]
  rcases hlist : lists target with _ | list
  · rw [shape_of_none hholds hlist]
    exact .inr rfl
  · rcases shape_of_some hholds hlist with ⟨shape, -, hok, hone⟩
    have hspec := shapeAs_spec hholds list.isPartial source
    rw [hok, Except.bind, hone.isPartial_eq, Option.bind_some]
    rcases hother : lists.listAs list.isPartial source with _ | other <;> rw [hother] at hspec
    · rw [hspec]
      exact .inr rfl
    · rcases hspec with ⟨shape', hok', -, hone', -⟩
      rw [hok', Except.bind, hone'.holds.not_unknownRank, if_neg Bool.false_ne_true,
        hone'.holds.ndims_eq]
      have hlist' : lists target =
          some ⟨list.isPartial, list.dims ++ other.dims.take 0, list.dataType⟩ := by
        rw [List.take_zero, List.append_nil]
        exact hlist
      have hsource : source = target ∧ other.dims = list.dims ∨ source ≠ target ∧
          ∃ other', lists.listAs list.isPartial source = some other' ∧
            other'.dims = other.dims := by
        by_cases hsame : source = target
        · subst hsame
          rw [DimLists.listAs, hlist, Option.filter_eq_some_iff] at hother
          exact .inl ⟨rfl, congrArg DimList.dims (Option.some.inj hother.1).symm⟩
        · exact .inr ⟨hsame, other, hother, rfl⟩
      have hloop := appendShapeFrom_endsAlike haddress other.dims.length 0 (Nat.zero_add _) hholds
        hlist' hsource (hholds.freeFor hfree) fun _ _ => .inr hfree
      simp only [List.take_zero, List.append_nil] at hloop
      exact hloop

/-! ## All operations -/

/-- **One operation.** -/
theorem call_endsAlike {call : ShapeCall} (haddress : call.address < 2 ^ 64)
    (hfree : state.heap call.address = none) :
    EndsAlike (state.call call) (lists.call call.op) := by
  rcases call with ⟨op, address⟩
  simp only at haddress hfree
  have hothers : ∀ target, FreeFor state target address := fun _ => hholds.freeFor hfree
  rw [ShapeState.call]
  rcases op with ⟨target, isPartial, buf, dimSizes⟩ | ⟨target, isPartial, buf, source⟩ |
    ⟨target, source⟩ | ⟨target, size⟩ | ⟨target, d, size⟩ | ⟨target, d, size⟩ |
    ⟨target, begin', end'⟩ | ⟨target, source⟩ | target | ⟨target, dataType⟩ | target <;>
    simp only [DimLists.call]
  -- construction from a list
  · apply create_endsAlike hholds hfree
    have hint : ∀ size ∈ dimSizes.map Int64.toInt, -2 ^ 63 ≤ size ∧ size < 2 ^ 63 := by
      intro size hmem
      rcases List.mem_map.mp hmem with ⟨size', -, rfl⟩
      exact ⟨size'.le_toInt, size'.toInt_lt⟩
    have hspec : GivesIf (ValidDims isPartial (dimSizes.map Int64.toInt)) _
        (construct isPartial address (dimSizes.map Int64.toInt) (⟨buf, 0⟩, state.heap)) :=
      construct_spec hint hfree haddress
    by_cases hvalid : ValidDims isPartial (dimSizes.map Int64.toInt)
    · rw [DimLists.withDims, if_pos hvalid]
      exact ⟨rfl, hvalid, hspec.1 hvalid⟩
    · rw [DimLists.withDims, if_neg hvalid]
      exact hspec.2 hvalid
  -- copy construction
  · have hother := shapeAs_spec hholds isPartial source
    rcases hlist : lists.listAs isPartial source with _ | other <;> rw [hlist] at hother
    · rw [hother]
      exact .inr rfl
    · rcases hother with ⟨shape, hok, -, hone, hkind⟩
      rw [hok, Except.bind, Option.bind_some]
      apply create_endsAlike hholds hfree (some { other with isPartial := isPartial })
      rcases copyConstruct_spec (⟨buf, 0⟩, state.heap) hone.holds hfree haddress with
        ⟨next, hnext, hstarts⟩
      rw [hone.dataType_eq] at hstarts
      exact ⟨rfl, hone.valid.of_imp hkind, next, hnext, hstarts⟩
  -- copy assignment
  · rcases hlist : lists target with _ | list
    · rw [shape_of_none hholds hlist, DimLists.modify, hlist]
      exact .inr rfl
    · rcases shape_of_some hholds hlist with ⟨shape, -, hok, hone⟩
      have hother := shapeAs_spec hholds list.isPartial source
      rw [hok, Except.bind, hone.isPartial_eq]
      rcases hsource : lists.listAs list.isPartial source with _ | other <;> rw [hsource] at hother
      · rw [hother, DimLists.modify, hlist, Option.bind_some, hsource]
        exact .inr rfl
      · rcases hother with ⟨shape', hok', -, hone', hkind⟩
        rw [hok', Except.bind]
        apply modify_endsAlike hholds (hothers target)
        intro shape'' list' hlist' hone''
        rw [hlist, Option.some.injEq] at hlist'
        subst hlist'
        rcases assign_spec (shape''.rep, state.heap) hone'.holds hone''.holds.laidOut hfree
          haddress with ⟨next, hnext, hstarts⟩
        rw [hone'.dataType_eq] at hstarts
        rw [hsource]
        exact ⟨rfl, hone'.valid.of_imp hkind, next, hnext, hstarts⟩
  -- the operations that change the dimensions
  · apply modify_endsAlike hholds (hothers target)
    intro shape list _ hone
    rw [hone.isPartial_eq]
    exact performs_withDims (addDim_spec hone.holds hone.valid size.toInt_lt (.inr hfree) haddress)
      hone.dataType_eq
  · apply modify_endsAlike hholds (hothers target)
    intro shape list _ hone
    rw [hone.isPartial_eq]
    exact performs_ite_withDims ((insertDim_spec hone.holds hone.valid size.toInt_lt hfree
      haddress).congr and_assoc.symm) hone.dataType_eq
  · apply modify_endsAlike hholds (hothers target)
    intro shape list _ hone
    rw [hone.isPartial_eq]
    apply performs_ite_withDims _ hone.dataType_eq
    apply (setDim_spec hone.holds hone.valid size.toInt_lt hfree haddress).congr
    simp only [and_assoc]
  · apply modify_endsAlike hholds (hothers target)
    intro shape list _ hone
    rw [hone.isPartial_eq]
    apply performs_ite_withDims _ hone.dataType_eq
    apply (removeDimRange_spec hone.holds hone.valid hfree haddress rfl rfl rfl).congr
    simp only [and_assoc]
  · exact appendShape_endsAlike hholds haddress hfree
  -- clearing, the data type and destruction
  · apply modify_endsAlike hholds (hothers target)
    intro shape list _ hone
    exact ⟨rfl, validDims_nil, clear_spec hone.holds.laidOut hfree⟩
  · apply modify_endsAlike hholds (hothers target)
    intro shape list _ hone
    exact ⟨rfl, hone.valid, _, rfl, setDataType_spec hone.holds hfree dataType.toNat_lt⟩
  · rcases hlist : lists target with _ | list
    · rw [shape_of_none hholds hlist]
      exact .inr rfl
    · rcases shape_of_some hholds hlist with ⟨shape, hshape, hok, hone⟩
      rcases destroy_spec hone.holds.laidOut with ⟨heap, hheap, helse, -⟩
      rw [hok, Except.bind, hheap]
      exact ⟨_, rfl, hholds.remove hshape helse⟩

end Operation

/-! ## Every run -/

/-- Whenever an operation may allocate, `new` gives it a free address. -/
def NewGivesFree : List ShapeCall → ShapeState → Prop
  | [], _ => True
  | call :: rest, state => call.address < 2 ^ 64 ∧ state.heap call.address = none ∧
      match state.call call with
      | .ok next => NewGivesFree rest next
      | .error _ => True

instance decidableNewGivesFree :
    ∀ calls state, Decidable (NewGivesFree calls state)
  | [], _ => inferInstanceAs (Decidable True)
  | call :: rest, state =>
      have : Decidable (match state.call call with
          | .ok next => NewGivesFree rest next
          | .error _ => True) :=
        match state.call call with
        | .ok next => decidableNewGivesFree rest next
        | .error _ => inferInstanceAs (Decidable True)
      inferInstanceAs (Decidable (_ ∧ _ ∧ _))

theorem calls_endsAlike {calls : List ShapeCall} {state : ShapeState} {lists : DimLists}
    (hholds : HoldsLists state lists) (hnew : NewGivesFree calls state) :
    EndsAlike (ShapeState.calls calls state) (DimLists.calls calls lists) := by
  induction calls generalizing state lists with
  | nil => exact ⟨state, rfl, hholds⟩
  | cons call rest ih =>
      rcases hnew with ⟨haddress, hfree, hrest⟩
      have hcall := call_endsAlike hholds haddress hfree
      rw [ShapeState.calls, DimLists.calls]
      rcases hlists : lists.call call.op with _ | lists' <;> rw [hlists] at hcall
      · rcases hcall with hcall | hcall <;> rw [hcall]
        · exact .inl rfl
        · exact .inr rfl
      · rcases hcall with ⟨next, hnext, hholds'⟩
        rw [hnext] at hrest ⊢
        exact ih hholds' hrest

/-- **Shapes are lists of dimensions.** If the operations of a program keep its lists valid, no
`CHECK` fails, and each shape reads as its list: the number of dimensions, every dimension, the
number of elements and the data type, whatever its layout is. A vector belongs to one shape and is
allocated. If they do not, a `CHECK` fails; a vector is never used after it was deleted. -/
theorem shapes_are_lists {calls : List ShapeCall} (hnew : NewGivesFree calls .init) :
    match DimLists.calls calls fun _ => none with
    | some lists => ∃ state, ShapeState.calls calls .init = .ok state ∧
        (∀ target list, lists target = some list → ∃ shape, state.shapes target = some shape ∧
          shape.isPartial = list.isPartial ∧
          dims shape.isPartial shape.rep = list.dims.length ∧
          (∀ d size, list.dims[d]? = some size → ∃ read,
            dimSize shape.isPartial state.heap shape.rep d = .ok read ∧
              (read = size ∨ size < -1 ∧ read = -1)) ∧
          shape.rep.numElements = (if ∀ size ∈ list.dims, 0 ≤ size then list.dims.prod else -1) ∧
          shape.rep.dataType = list.dataType) ∧
        (∀ target, lists target = none → state.shapes target = none) ∧
        (∀ target shape, state.shapes target = some shape → shape.rep.tag = .repOutOfLine →
          (state.heap shape.rep.dims64).isSome = true ∧
            ∀ other shape', other ≠ target → state.shapes other = some shape' →
              shape'.rep.tag = .repOutOfLine → shape'.rep.dims64 ≠ shape.rep.dims64)
    | none => ShapeState.calls calls .init = .error .checkFailed ∨
        ShapeState.calls calls .init = .error .noShape := by
  have hends := calls_endsAlike HoldsLists.init hnew
  rcases hlists : DimLists.calls calls fun _ => none with _ | lists <;> rw [hlists] at hends
  · exact hends
  · rcases hends with ⟨state, hstate, hholds⟩
    refine ⟨state, hstate, ?_, ?_, ?_⟩
    · intro target list hlist
      rcases hholds.exists_shape hlist with ⟨shape, hshape, hone⟩
      refine ⟨shape, hshape, hone.isPartial_eq, hone.holds.dims_eq, ?_, hone.holds.numElements_eq,
        hone.dataType_eq⟩
      intro d size hd
      apply dimSize_spec hone.holds.toHasDims _ hd
      rw [hone.isPartial_eq]
      exact hone.valid.2.1
    · intro target hlist
      exact hholds.shape_eq_none hlist
    · intro target shape hshape htag
      rcases hholds.exists_list hshape with ⟨list, -, hone⟩
      exact ⟨hone.isSome htag, hholds.freeFor_own hshape htag⟩

/-- A partial shape is copied from two sizes, gets an unknown one and another, is appended to itself
and loses a range, which takes it through all layouts. -/
theorem shapes_are_lists_all_layouts : ∃ calls state shape,
    ShapeState.calls calls .init = .ok state ∧ state.shapes 1 = some shape ∧
      dims shape.isPartial shape.rep = 3 ∧ shape.rep.numElements = -1 ∧ shape.rep.dataType = 9 := by
  have hnew : NewGivesFree [⟨.construct 0 false (fun _ => 255) [2, 65534], 0⟩,
      ⟨.copyConstruct 1 true (fun _ => 255) 0, 0⟩, ⟨.addDim 1 (-1), 0⟩, ⟨.setDataType 1 9, 0⟩,
      ⟨.insertDim 1 1 7, 0⟩, ⟨.appendShape 1 1, 1⟩, ⟨.removeDimRange 1 1 (-3), 1⟩,
      ⟨.destroy 0, 0⟩] .init := by decide +kernel
  have hlist : (DimLists.calls [⟨.construct 0 false (fun _ => 255) [2, 65534], 0⟩,
      ⟨.copyConstruct 1 true (fun _ => 255) 0, 0⟩, ⟨.addDim 1 (-1), 0⟩, ⟨.setDataType 1 9, 0⟩,
      ⟨.insertDim 1 1 7, 0⟩, ⟨.appendShape 1 1, 1⟩, ⟨.removeDimRange 1 1 (-3), 1⟩,
      ⟨.destroy 0, 0⟩] fun _ => none).bind (fun lists => lists 1) =
        some ⟨true, [2, 65534, -1], 9⟩ := by decide +kernel
  have hshapes := shapes_are_lists hnew
  rcases Option.bind_eq_some_iff.mp hlist with ⟨lists, hlists, htarget⟩
  rw [hlists] at hshapes
  rcases hshapes with ⟨state, hstate, heach, -⟩
  rcases heach 1 _ htarget with ⟨shape, hshape, -, hdims, -, helements, hdata⟩
  exact ⟨_, state, shape, hstate, hshape, hdims, helements, hdata⟩

end ContainerScheduler.Analysis
