/-
# The most general common shape

Merging keeps what one of two shapes knows of its rank and sizes. Two valid shapes
that match may know too much together: where each of them hides a size, the
elements of the merged shape can be too many, and a `CHECK` fails.
-/

import ContainerScheduler.Analysis.PackedOperations
import ContainerScheduler.Shapes.MergeWith

namespace ContainerScheduler.Analysis

open Shapes
open Shapes.TensorShapeRep

/-! ## What two shapes know -/

/-- Two sizes are equal, or one is unknown. -/
def MatchingSizes (dim0 dim1 : ℤ) : Prop := ¬(dim0 ≥ 0 ∧ dim1 ≥ 0 ∧ dim0 ≠ dim1)

instance (dim0 dim1 : ℤ) : Decidable (MatchingSizes dim0 dim1) :=
  inferInstanceAs (Decidable (¬_))

def mergeSizes (dim0 dim1 : ℤ) : ℤ := if dim0 ≥ 0 then dim0 else dim1

/-- The merged sizes up to the first two that do not match. -/
def commonDims : List ℤ → List ℤ → List ℤ
  | dim0 :: dims, dim1 :: dims' =>
      if MatchingSizes dim0 dim1 then mergeSizes dim0 dim1 :: commonDims dims dims' else []
  | _, _ => []

/-- What is known of a shape whose rank may be unknown. -/
abbrev KnownDims := Option (List ℤ)

def mergedDims : KnownDims → KnownDims → KnownDims
  | none, shape => shape
  | shape, none => shape
  | some dims, some dims' => some (List.zipWith mergeSizes dims dims')

def CompatibleDims : KnownDims → KnownDims → Prop
  | some dims, some dims' => List.Forall₂ MatchingSizes dims dims'
  | _, _ => True

/-- The first shape knows all that the second one knows. -/
def RefinesDims : KnownDims → KnownDims → Prop
  | _, none => True
  | none, some _ => False
  | some dims, some dims' => List.Forall₂ (fun size size' => size' < 0 ∨ size = size') dims dims'

/-- The shape refines both, and any other that does refines it. -/
def MostGeneral (shape first second : KnownDims) : Prop :=
  RefinesDims shape first ∧ RefinesDims shape second ∧
    ∀ other, RefinesDims other first → RefinesDims other second → RefinesDims other shape

theorem refinesDims_refl (shape : KnownDims) : RefinesDims shape shape := by
  cases shape with
  | none => trivial
  | some dims => exact List.forall₂_same.mpr fun _ _ => .inr rfl

theorem mergeSizes_spec {dim0 dim1 : ℤ} (hmatch : MatchingSizes dim0 dim1) :
    (dim0 < 0 ∨ mergeSizes dim0 dim1 = dim0) ∧ (dim1 < 0 ∨ mergeSizes dim0 dim1 = dim1) ∧
      ∀ size, (dim0 < 0 ∨ size = dim0) → (dim1 < 0 ∨ size = dim1) →
        mergeSizes dim0 dim1 < 0 ∨ size = mergeSizes dim0 dim1 := by
  rw [MatchingSizes] at hmatch
  rw [mergeSizes]
  split_ifs with hknown
  · exact ⟨.inr rfl, by omega, fun size hsize _ => by omega⟩
  · exact ⟨.inl (not_le.mp hknown), .inr rfl, fun size _ hsize => hsize⟩

theorem mostGeneral_zipWith {dims dims' : List ℤ} (hmatch : List.Forall₂ MatchingSizes dims dims') :
    MostGeneral (some (List.zipWith mergeSizes dims dims')) (some dims) (some dims') := by
  induction hmatch with
  | nil => exact ⟨.nil, .nil, fun _ hother _ => hother⟩
  | cons hhead _ ih =>
      obtain ⟨hfirst, hsecond, hother⟩ := ih
      obtain ⟨hleft, hright, hsize⟩ := mergeSizes_spec hhead
      refine ⟨.cons hleft hfirst, .cons hright hsecond, fun other hleft' hright' => ?_⟩
      cases other with
      | none => exact hleft'
      | some sizes =>
          cases hleft' with
          | cons hsizeLeft hrestLeft =>
              cases hright' with
              | cons hsizeRight hrestRight =>
                  exact .cons (hsize _ hsizeLeft hsizeRight)
                    (hother (some _) hrestLeft hrestRight)

theorem mostGeneral_mergedDims {first second : KnownDims}
    (hcompatible : CompatibleDims first second) :
    MostGeneral (mergedDims first second) first second := by
  cases first with
  | none =>
      cases second with
      | none => exact ⟨trivial, trivial, fun _ _ _ => trivial⟩
      | some dims' => exact ⟨trivial, refinesDims_refl _, fun _ _ hsecond => hsecond⟩
  | some dims =>
      cases second with
      | none => exact ⟨refinesDims_refl _, trivial, fun _ hfirst _ => hfirst⟩
      | some dims' => exact mostGeneral_zipWith hcompatible

theorem matchingSizes_comm {dim0 dim1 : ℤ} : MatchingSizes dim0 dim1 ↔ MatchingSizes dim1 dim0 := by
  rw [MatchingSizes, MatchingSizes]
  omega

theorem mergeSizes_comm {dim0 dim1 : ℤ} (h0 : -1 ≤ dim0) (h1 : -1 ≤ dim1)
    (hmatch : MatchingSizes dim0 dim1) : mergeSizes dim0 dim1 = mergeSizes dim1 dim0 := by
  rw [MatchingSizes] at hmatch
  rw [mergeSizes, mergeSizes]
  split_ifs <;> omega

/-- The order of the two shapes does not matter. -/
theorem commonDims_comm {dims dims' : List ℤ} (hdims : ∀ size ∈ dims, -1 ≤ size)
    (hdims' : ∀ size ∈ dims', -1 ≤ size) : commonDims dims dims' = commonDims dims' dims := by
  induction dims generalizing dims' with
  | nil => cases dims' <;> rfl
  | cons dim0 dims ih =>
      cases dims' with
      | nil => rfl
      | cons dim1 dims' =>
          obtain ⟨h0, hrest⟩ := List.forall_mem_cons.mp hdims
          obtain ⟨h1, hrest'⟩ := List.forall_mem_cons.mp hdims'
          rw [commonDims, commonDims]
          by_cases hmatch : MatchingSizes dim0 dim1
          · rw [if_pos hmatch, if_pos (matchingSizes_comm.mp hmatch),
              mergeSizes_comm h0 h1 hmatch, ih hrest hrest']
          · rw [if_neg hmatch, if_neg (mt matchingSizes_comm.mpr hmatch)]

/-- Where all sizes match, they are merged up to the end. -/
theorem commonDims_of_matching {dims dims' : List ℤ}
    (hmatch : List.Forall₂ MatchingSizes dims dims') :
    commonDims dims dims' = List.zipWith mergeSizes dims dims' := by
  induction hmatch with
  | nil => rfl
  | cons hhead _ ih => rw [commonDims, if_pos hhead, ih, List.zipWith_cons_cons]

/-! ## Validity -/

/-- A dimension that is known, or -1, is read as it is. -/
theorem eq_of_readsAs_of_ge {given read : List ℤ} (hreads : List.Forall₂ ReadsAs given read)
    (hgiven : ∀ size ∈ given, -1 ≤ size) : read = given := by
  induction hreads with
  | nil => rfl
  | cons hhead _ ih =>
      obtain ⟨hfirst, hrest⟩ := List.forall_mem_cons.mp hgiven
      rw [ih hrest]
      rcases hhead with rfl | ⟨hlt, -⟩
      · rfl
      · exact absurd hlt (not_lt.mpr hfirst)

/-- The loop of `IsValid`, behind some dimensions that are valid. -/
theorem validSizes_spec {dims rest : List ℤ} (hvalid : ValidDims true dims)
    (hrest : ∀ size ∈ rest, -1 ≤ size ∧ size < 2 ^ 63)
    (hlength : dims.length + rest.length ≤ maxDimensions) :
    validSizes true rest (elementsOf dims) = .ok true ↔ ValidDims true (dims ++ rest) := by
  induction rest generalizing dims with
  | nil => simp [validSizes, hvalid]
  | cons size rest ih =>
      obtain ⟨⟨hge, hlt⟩, hrest'⟩ := List.forall_mem_cons.mp hrest
      rw [List.length_cons] at hlength
      have hassoc : dims ++ size :: rest = (dims ++ [size]) ++ rest := by simp
      have hnext := hvalid.concat_iff size
      have hmore : ValidDims true (dims ++ [size]) →
          (validSizes true rest (elementsOf (dims ++ [size])) = .ok true ↔
            ValidDims true (dims ++ size :: rest)) := by
        intro hvalid'
        rw [hassoc]
        exact ih hvalid' hrest' (by rw [List.length_append, List.length_singleton]; omega)
      have hroom : dims.length < maxDimensions := by omega
      rw [validSizes, if_neg (by simpa using hge)]
      by_cases hunknown : size = -1
      · have helements : elementsOf (dims ++ [size]) = -1 := by
          rw [elementsOf_concat, if_neg (by omega)]
        rw [if_pos hunknown, ← helements]
        exact hmore (hnext.mpr ⟨hroom, by simp, fun _ hnonneg => by omega⟩)
      · have hnonneg : 0 ≤ size := by omega
        rw [if_neg hunknown]
        by_cases hknown : ∀ size ∈ dims, 0 ≤ size
        · have helements : elementsOf dims = dims.prod := if_pos hknown
          have hprod := List.prod_nonneg hknown
          obtain ⟨n, hn, hexact, hover⟩ :=
            multiplyWithoutOverflow_spec hprod (hvalid.prod_lt hknown) hnonneg hlt
          rw [if_pos (.inr (by rw [helements]; exact hprod)), helements, hn, Except.bind]
          rcases lt_or_ge (dims.prod * size) (2 ^ 63) with hsmall | hlarge
          · have hsame : elementsOf (dims ++ [size]) = n := by
              rw [elementsOf_concat, if_pos ⟨hknown, hnonneg⟩, hexact hsmall]
            have hn' : ¬ n < 0 := by
              rw [hexact hsmall]
              exact not_lt.mpr (mul_nonneg hprod hnonneg)
            rw [if_neg hn', ← hsame]
            exact hmore (hnext.mpr ⟨hroom, by simp, fun _ _ => hsmall⟩)
          · rw [if_pos (hover hlarge)]
            refine iff_of_false (by simp) fun hall => ?_
            rw [hassoc] at hall
            have hvalid' := hall.of_prefix (List.prefix_append _ _)
            exact absurd ((hnext.mp hvalid').2.2 hknown hnonneg) (not_lt.mpr hlarge)
        · have helements : elementsOf dims = -1 := if_neg hknown
          have hsame : elementsOf (dims ++ [size]) = -1 := by
            rw [elementsOf_concat, if_neg fun hboth => hknown hboth.1]
          rw [helements, if_neg (by decide), ← hsame]
          exact hmore (hnext.mpr ⟨hroom, by simp, fun hall => absurd hall hknown⟩)

/-- `IsValid` accepts exactly the shapes that the `CHECK`s let through. -/
theorem isValid_iff {heap : Heap} {rep : TensorShapeRep} {dims : List ℤ}
    (hholds : Holds heap rep dims) (hdims : ∀ size ∈ dims, -1 ≤ size) :
    isValid true heap rep = .ok true ↔ ValidDims true dims := by
  obtain ⟨vals, hvals, hreads⟩ := @appendTo_spec true _ _ _ hholds.toHasDims (by simp)
  have hsame := eq_of_readsAs_of_ge hreads hdims
  have hlength := hholds.length_le
  have hspec := @validSizes_spec [] dims validDims_nil
    (fun size hmem => ⟨hdims size hmem, hholds.lt_of_mem size hmem⟩) (by simpa using hlength)
  rw [isValid, hholds.not_unknownRank, if_neg Bool.false_ne_true, hholds.dims_eq,
    if_neg (by omega), hvals, hsame]
  exact hspec

/-! ## Two shapes and a third one -/

/-- A shape that is partial: its rank is unknown, or these are its dimensions. -/
def HoldsKnown (heap : Heap) (rep : TensorShapeRep) : KnownDims → Prop
  | none => rep.ndimsByte = kUnknownRank ∧ rep.tag = .rep16 ∧ rep.numElements = -1
  | some dims => Holds heap rep dims

/-- A partial shape with these dimensions, as they are read, which is valid or of unknown rank. -/
structure AcceptedShape (heap : Heap) (rep : TensorShapeRep) (shape : KnownDims) : Prop where
  holds : HoldsKnown heap rep shape
  sizes : ∀ dims ∈ shape, ∀ size ∈ dims, -1 ≤ size
  valid : shape ≠ none → isValid true heap rep = .ok true

/-- A shape that is not the result: it does not use its vector, or the address of a new one. -/
def ApartFrom (address : ℕ) (rep : TensorShapeRep) (result : Memory) : Prop :=
  rep.tag = .repOutOfLine → rep.dims64 ≠ address ∧
    (result.1.tag = .repOutOfLine → rep.dims64 ≠ result.1.dims64)

section Merging

variable {address : ℕ} {rep shape : TensorShapeRep} {result next : Memory} {dims dims' : List ℤ}

theorem ApartFrom.keeps (hapart : ApartFrom address rep result)
    (hkeeps : KeepsOthers address result next) : ApartFrom address rep next := by
  intro htag
  obtain ⟨haddress, hown⟩ := hapart htag
  refine ⟨haddress, fun hnext => ?_⟩
  rcases hkeeps.pointer hnext with heq | ⟨hresult, heq⟩
  · rwa [heq]
  · rw [heq]
    exact hown hresult

/-- What is done to the result does not change the shape. -/
theorem ApartFrom.holds (hapart : ApartFrom address rep result)
    (hkeeps : KeepsOthers address result next) (hholds : Holds result.2 rep dims) :
    Holds next.2 rep dims :=
  { hholds with
    laidOut := hholds.laidOut.heap_congr fun htag =>
      hkeeps.elsewhere _ (hapart htag).1 fun hresult => (hapart htag).2 hresult }

theorem dimSize_eq {heap : Heap} (hholds : Holds heap rep dims) (hdims : ∀ size ∈ dims, -1 ≤ size)
    {i : ℕ} (hi : i < dims.length) : dimSize true heap rep i = .ok dims[i] := by
  obtain ⟨read, hread, hreads⟩ := @dimSize_spec true _ _ _ hholds.toHasDims (by simp) i _
    (List.getElem?_eq_getElem hi)
  rcases hreads with rfl | ⟨hlt, -⟩
  · exact hread
  · exact absurd hlt (not_lt.mpr (hdims _ (List.getElem_mem hi)))

theorem matchFrom_spec {heap : Heap} (hrep : Holds heap rep dims)
    (hshape : Holds heap shape dims') (hdims : ∀ size ∈ dims, -1 ≤ size)
    (hdims' : ∀ size ∈ dims', -1 ≤ size) (hrank : dims.length = dims'.length) {count i : ℕ}
    (hcount : i + count = dims.length) :
    matchFrom heap rep shape count i = .ok true ↔
      List.Forall₂ MatchingSizes (dims.drop i) (dims'.drop i) := by
  induction count generalizing i with
  | zero =>
      rw [List.drop_of_length_le (by omega), List.drop_of_length_le (by omega)]
      simp [matchFrom]
  | succ count ih =>
      have hi : i < dims.length := by omega
      have hi' : i < dims'.length := by omega
      rw [List.drop_eq_getElem_cons hi, List.drop_eq_getElem_cons hi', List.forall₂_cons, matchFrom,
        dimSize_eq hrep hdims hi, dimSize_eq hshape hdims' hi']
      simp only [Except.bind]
      by_cases hmatch : MatchingSizes dims[i] dims'[i]
      · rw [if_neg hmatch, ih (by omega)]
        exact (and_iff_right hmatch).symm
      · rw [if_pos (not_not.mp hmatch)]
        exact iff_of_false (by simp) fun hboth => hmatch hboth.1

/-- The dimensions from the `i`-th on are merged, up to the first two that do not match. -/
theorem mergeFrom_spec {front : List ℤ} (hrep : Holds result.2 rep dims)
    (hshape : Holds result.2 shape dims') (hdims : ∀ size ∈ dims, -1 ≤ size)
    (hdims' : ∀ size ∈ dims', -1 ≤ size) (hrank : dims.length = dims'.length)
    (hapart : ApartFrom address rep result) (hapart' : ApartFrom address shape result)
    (hfront : Holds result.2 result.1 front) (hvalid : ValidDims true front)
    (husable : result.1.tag = .repOutOfLine ∨ result.2 address = none)
    (haddress : address < 2 ^ 64) {count i : ℕ} (hcount : i + count = dims.length) :
    GivesIf (ValidDims true (front ++ commonDims (dims.drop i) (dims'.drop i)))
      (fun out => (out.1 = .ok ↔ List.Forall₂ MatchingSizes (dims.drop i) (dims'.drop i)) ∧
        (out.1 = .ok → Holds out.2.2 out.2.1 (front ++ commonDims (dims.drop i) (dims'.drop i))))
      (mergeFrom address rep shape count i result) := by
  induction count generalizing i result front with
  | zero =>
      rw [List.drop_of_length_le (by omega), List.drop_of_length_le (by omega), commonDims,
        List.append_nil]
      · exact .ok hvalid ⟨iff_of_true rfl .nil, fun _ => hfront⟩
      · simp
  | succ count ih =>
      have hi : i < dims.length := by omega
      have hi' : i < dims'.length := by omega
      rw [List.drop_eq_getElem_cons hi, List.drop_eq_getElem_cons hi', List.forall₂_cons,
        commonDims, mergeFrom, dimSize_eq hrep hdims hi, dimSize_eq hshape hdims' hi']
      simp only [Except.bind]
      by_cases hmatch : MatchingSizes dims[i] dims'[i]
      · have hlt : mergeSizes dims[i] dims'[i] < 2 ^ 63 := by
          rw [mergeSizes]
          split_ifs
          · exact hrep.lt_of_mem _ (List.getElem_mem hi)
          · exact hshape.lt_of_mem _ (List.getElem_mem hi')
        have hassoc : front ++ mergeSizes dims[i] dims'[i] ::
            commonDims (dims.drop (i + 1)) (dims'.drop (i + 1)) =
              (front ++ [mergeSizes dims[i] dims'[i]]) ++
                commonDims (dims.drop (i + 1)) (dims'.drop (i + 1)) := by simp
        rw [if_neg hmatch, if_pos hmatch, hassoc]
        have hadd := addDim_spec hfront hvalid hlt husable haddress
        by_cases hvalid' : ValidDims true (front ++ [mergeSizes dims[i] dims'[i]])
        · obtain ⟨next, hok, hnext⟩ := hadd.1 hvalid'
          have hsame : addDim true address (if dims[i] ≥ 0 then dims[i] else dims'[i]) result =
              .ok next := hok
          rw [hsame]
          refine (ih (hapart.holds hnext.keeps hrep) (hapart'.holds hnext.keeps hshape)
            (hapart.keeps hnext.keeps) (hapart'.keeps hnext.keeps) hnext.holds hvalid'
            hnext.keeps.usable (by omega)).imp fun out hout => ?_
          exact ⟨hout.1.trans (and_iff_right hmatch).symm, hout.2⟩
        · have hsame : addDim true address (if dims[i] ≥ 0 then dims[i] else dims'[i]) result =
              .error .checkFailed := hadd.2 hvalid'
          rw [hsame]
          exact .checkFailed fun hall => hvalid' (hall.of_prefix (List.prefix_append _ _))
      · rw [if_pos (not_not.mp hmatch), if_neg hmatch, List.append_nil]
        exact .ok hvalid ⟨iff_of_false (by simp) fun hboth => hmatch hboth.1,
          fun hok => by cases hok⟩

end Merging

/-! ## Every pair of shapes -/

section Pairs

variable (address : ℕ) (rep shape : TensorShapeRep) (result : Memory) (first second : KnownDims)

/-- The two shapes do not know too much together: up to the first sizes that do not match, the
merged dimensions are valid. -/
def MergeFits : KnownDims → KnownDims → Prop
  | some dims, some dims' => dims.length = dims'.length → ValidDims true (commonDims dims dims')
  | _, _ => True

/-- Merging ends without a failed `CHECK`, with `OK` exactly if the shapes match and the merged
dimensions are valid. Then the result has the merged dimensions. -/
def MergesTo : Prop :=
  ∃ status next, mergeWith address rep shape result = .ok (status, next) ∧
    (status = .ok ↔ isCompatibleWith result.2 rep shape = .ok true ∧
      ∀ dims ∈ mergedDims first second, ValidDims true dims) ∧
    (status = .ok → AcceptedShape next.2 next.1 (mergedDims first second))

/-- The three shapes before the merge. -/
structure Mergeable : Prop where
  first : AcceptedShape result.2 rep first
  second : AcceptedShape result.2 shape second
  old : ∃ dims, LaidOut result.2 result.1 dims
  free : result.2 address = none
  address_lt : address < 2 ^ 64
  apart : ApartFrom address rep result
  apart' : ApartFrom address shape result

variable {address rep shape result first second}

theorem HoldsKnown.unknownRank_eq {heap : Heap} (hholds : HoldsKnown heap rep first) :
    unknownRank true rep = true ↔ first = none := by
  cases first with
  | none => simp [unknownRank, hholds.1]
  | some dims =>
      have hknown : Holds heap rep dims := hholds
      simp [hknown.not_unknownRank]

/-- The result is a copy, if the other shape knows nothing. -/
theorem assign_accepted {old : List ℤ} (hshape : AcceptedShape result.2 shape second)
    (hold : LaidOut result.2 result.1 old) (hfree : result.2 address = none)
    (haddress : address < 2 ^ 64) :
    ∃ next, assign address shape result = .ok next ∧ AcceptedShape next.2 next.1 second := by
  cases second with
  | none =>
      -- all bytes of the representation are copied
      obtain ⟨hrank, htag, helements⟩ := hshape.holds
      have hinline : shape.tag ≠ .repOutOfLine := by
        rw [htag]
        exact fun heq => by cases heq
      have hcopy : ∀ heap, AcceptedShape heap shape none := fun heap =>
        ⟨⟨hrank, htag, helements⟩, fun _ hdims => absurd hdims (Option.not_mem_none _),
          fun hne => absurd rfl hne⟩
      have hkept : LaidOut result.2 (result.1.setNumElements shape.numElements) old :=
        hold.congr rfl .setNumElements
      obtain ⟨heap, hheap, -, -⟩ := destroy_spec hkept
      rw [assign]
      split_ifs
      · exact ⟨_, rfl, hcopy _⟩
      · rw [slowCopyFrom, if_pos hinline, hheap]
        exact ⟨_, rfl, hcopy _⟩
  | some dims =>
      have hdims := hshape.sizes dims rfl
      have hvalid := (isValid_iff hshape.holds hdims).mp (hshape.valid (Option.some_ne_none _))
      obtain ⟨next, hnext, hstarts⟩ := assign_spec result hshape.holds hold hfree haddress
      exact ⟨next, hnext, hstarts.holds, hshape.sizes,
        fun _ => (isValid_iff hstarts.holds hdims).mpr hvalid⟩

theorem isCompatibleWith_iff (hmerge : Mergeable address rep shape result first second) :
    isCompatibleWith result.2 rep shape = .ok true ↔ CompatibleDims first second := by
  have hfirst := hmerge.first.holds.unknownRank_eq
  have hsecond := hmerge.second.holds.unknownRank_eq
  cases first with
  | none => simp [isCompatibleWith, hfirst, CompatibleDims]
  | some dims =>
      cases second with
      | none => simp [isCompatibleWith, hsecond, CompatibleDims]
      | some dims' =>
          have hrep : Holds result.2 rep dims := hmerge.first.holds
          have hshape : Holds result.2 shape dims' := hmerge.second.holds
          have hknown : ¬ (unknownRank true rep = true ∨ unknownRank true shape = true) := by
            simp [hfirst, hsecond]
          rw [isCompatibleWith, if_neg hknown, hrep.dims_eq, hshape.dims_eq]
          by_cases hrank : dims.length = dims'.length
          · rw [if_neg (by simpa using hrank)]
            exact matchFrom_spec hrep hshape (hmerge.first.sizes dims rfl)
              (hmerge.second.sizes dims' rfl) hrank (by simp)
          · rw [if_pos (by simpa using hrank)]
            exact iff_of_false (by simp) fun hmatch =>
              hrank (List.Forall₂.length_eq (show List.Forall₂ _ dims dims' from hmatch))

theorem AcceptedShape.validDims (haccepted : AcceptedShape result.2 rep first) :
    ∀ dims ∈ first, ValidDims true dims := by
  intro dims hdims
  obtain rfl : first = some dims := hdims
  exact (isValid_iff haccepted.holds (haccepted.sizes dims rfl)).mp
    (haccepted.valid (Option.some_ne_none _))

theorem le_mergeSizes {dims dims' : List ℤ} (hdims : ∀ size ∈ dims, -1 ≤ size)
    (hdims' : ∀ size ∈ dims', -1 ≤ size) :
    ∀ size ∈ List.zipWith mergeSizes dims dims', -1 ≤ size := by
  induction dims generalizing dims' with
  | nil => simp
  | cons dim0 dims ih =>
      cases dims' with
      | nil => simp
      | cons dim1 dims' =>
          obtain ⟨h0, hrest⟩ := List.forall_mem_cons.mp hdims
          obtain ⟨h1, hrest'⟩ := List.forall_mem_cons.mp hdims'
          refine List.forall_mem_cons.mpr ⟨?_, ih hrest hrest'⟩
          rw [mergeSizes]
          split_ifs
          · exact h0
          · exact h1

/-- Two shapes of the same rank. -/
theorem mergesTo_iff_of_rank {dims dims' : List ℤ}
    (hmerge : Mergeable address rep shape result (some dims) (some dims'))
    (hrank : dims.length = dims'.length) :
    MergesTo address rep shape result (some dims) (some dims') ↔
      ValidDims true (commonDims dims dims') := by
  have hrep : Holds result.2 rep dims := hmerge.first.holds
  have hshape : Holds result.2 shape dims' := hmerge.second.holds
  have hdims := hmerge.first.sizes dims rfl
  have hdims' := hmerge.second.sizes dims' rfl
  obtain ⟨old, hold⟩ := hmerge.old
  obtain ⟨cleared, hclear, hstarts⟩ := clear_spec hold hmerge.free
  have hspec := mergeFrom_spec (hmerge.apart.holds hstarts.keeps hrep)
    (hmerge.apart'.holds hstarts.keeps hshape) hdims hdims' hrank
    (hmerge.apart.keeps hstarts.keeps) (hmerge.apart'.keeps hstarts.keeps) hstarts.holds
    validDims_nil hstarts.keeps.usable hmerge.address_lt (Nat.zero_add dims.length)
  rw [List.nil_append, List.drop_zero, List.drop_zero] at hspec
  have hrun : mergeWith address rep shape result =
      mergeFrom address rep shape dims.length 0 cleared := by
    have hrepKnown : ¬ unknownRank true rep = true := by simp [hrep.not_unknownRank]
    have hshapeKnown : ¬ unknownRank true shape = true := by simp [hshape.not_unknownRank]
    rw [mergeWith, if_neg hrepKnown, if_neg hshapeKnown, hrep.dims_eq, hshape.dims_eq,
      if_neg (by simpa using hrank), hclear]
    rfl
  rw [MergesTo, isCompatibleWith_iff hmerge, hrun]
  constructor
  · rintro ⟨status, next, hok, -⟩
    by_contra hnot
    rw [hspec.2 hnot] at hok
    cases hok
  · intro hvalid
    obtain ⟨⟨status, next⟩, hok, hstatus, hresult⟩ := hspec.1 hvalid
    have hmerged : List.Forall₂ MatchingSizes dims dims' →
        commonDims dims dims' = List.zipWith mergeSizes dims dims' := commonDims_of_matching
    refine ⟨status, next, hok, ?_, ?_⟩
    · rw [hstatus]
      refine ⟨fun hmatch => ⟨hmatch, ?_⟩, fun hboth => hboth.1⟩
      intro merged hmem
      obtain rfl := Option.some.inj hmem
      exact hmerged hmatch ▸ hvalid
    · intro hstatusOk
      have hmatch := hstatus.mp hstatusOk
      have hholds := hresult hstatusOk
      rw [hmerged hmatch] at hholds hvalid
      have hsizes := le_mergeSizes hdims hdims'
      refine ⟨hholds, fun merged hmem => ?_, fun _ => (isValid_iff hholds hsizes).mpr hvalid⟩
      obtain rfl := Option.some.inj hmem
      exact hsizes

/-- Merging does what it should exactly if the two shapes do not know too much together, and fails a
`CHECK` otherwise. -/
theorem mergesTo_iff (hmerge : Mergeable address rep shape result first second) :
    MergesTo address rep shape result first second ↔ MergeFits first second := by
  have hfirst := hmerge.first.holds.unknownRank_eq
  have hsecond := hmerge.second.holds.unknownRank_eq
  have hcompatible := isCompatibleWith_iff hmerge
  obtain ⟨old, hold⟩ := hmerge.old
  cases first with
  | none =>
      obtain ⟨next, hnext, haccepted⟩ :=
        assign_accepted hmerge.second hold hmerge.free hmerge.address_lt
      have hmerged : mergedDims none second = second := by cases second <;> rfl
      refine iff_of_true ⟨.ok, next, ?_, ?_, ?_⟩ (by cases second <;> trivial)
      · rw [mergeWith, if_pos (hfirst.mpr rfl), hnext]
        rfl
      · rw [hcompatible, hmerged]
        exact iff_of_true rfl ⟨trivial, hmerge.second.validDims⟩
      · rw [hmerged]
        exact fun _ => haccepted
  | some dims =>
      have hknown : ¬ unknownRank true rep = true := by simp [hfirst]
      cases second with
      | none =>
          obtain ⟨next, hnext, haccepted⟩ :=
            assign_accepted hmerge.first hold hmerge.free hmerge.address_lt
          refine iff_of_true ⟨.ok, next, ?_, ?_, fun _ => haccepted⟩ trivial
          · rw [mergeWith, if_neg hknown, if_pos (hsecond.mpr rfl), hnext]
            rfl
          · rw [hcompatible]
            exact iff_of_true rfl ⟨trivial, hmerge.first.validDims⟩
      | some dims' =>
          by_cases hrank : dims.length = dims'.length
          · rw [mergesTo_iff_of_rank hmerge hrank]
            exact (imp_iff_right hrank).symm
          · have hrep : Holds result.2 rep dims := hmerge.first.holds
            have hshape : Holds result.2 shape dims' := hmerge.second.holds
            have hknown' : ¬ unknownRank true shape = true := by simp [hsecond]
            refine iff_of_true ⟨.incompatibleRanks dims.length dims'.length, result, ?_, ?_, ?_⟩
              fun heq => absurd heq hrank
            · rw [mergeWith, if_neg hknown, if_neg hknown', hrep.dims_eq, hshape.dims_eq,
                if_pos (by simpa using hrank)]
            · rw [hcompatible]
              refine iff_of_false (by simp) fun hboth => hrank ?_
              exact List.Forall₂.length_eq (show List.Forall₂ _ dims dims' from hboth.1)
            · exact fun hok => by cases hok

theorem Mergeable.swap (hmerge : Mergeable address rep shape result first second) :
    Mergeable address shape rep result second first :=
  ⟨hmerge.second, hmerge.first, hmerge.old, hmerge.free, hmerge.address_lt, hmerge.apart',
    hmerge.apart⟩

theorem mergedDims_comm (hmerge : Mergeable address rep shape result first second)
    (hcompatible : CompatibleDims first second) :
    mergedDims second first = mergedDims first second := by
  cases first with
  | none => cases second <;> rfl
  | some dims =>
      cases second with
      | none => rfl
      | some dims' =>
          have hmatch : List.Forall₂ MatchingSizes dims dims' := hcompatible
          have hmatch' : List.Forall₂ MatchingSizes dims' dims :=
            hmatch.flip.imp fun _ _ => matchingSizes_comm.mp
          rw [mergedDims, mergedDims, ← commonDims_of_matching hmatch,
            ← commonDims_of_matching hmatch', commonDims_comm (hmerge.second.sizes dims' rfl)
              (hmerge.first.sizes dims rfl)]

/-- **Merging partial shapes.** In both orders, the merge does what it should exactly if the two
shapes do not know too much together. What they are merged to is the most general shape that refines
both, the same one in both orders. -/
theorem merging_is_safe_iff (hmerge : Mergeable address rep shape result first second) :
    (MergesTo address rep shape result first second ∧
        MergesTo address shape rep result second first ↔ MergeFits first second) ∧
      (CompatibleDims first second →
        MostGeneral (mergedDims first second) first second ∧
          mergedDims second first = mergedDims first second) := by
  refine ⟨?_, fun hcompatible =>
    ⟨mostGeneral_mergedDims hcompatible, mergedDims_comm hmerge hcompatible⟩⟩
  have hswap : MergeFits second first ↔ MergeFits first second := by
    cases first with
    | none => cases second <;> exact Iff.rfl
    | some dims =>
        cases second with
        | none => exact Iff.rfl
        | some dims' =>
            rw [MergeFits, MergeFits, commonDims_comm (hmerge.second.sizes dims' rfl)
              (hmerge.first.sizes dims rfl), eq_comm]
  rw [mergesTo_iff hmerge, mergesTo_iff hmerge.swap, hswap, and_self]

end Pairs

/-! ## Two shapes that know too much together -/

/-- A partial shape of these sizes, in a vector at the address. -/
def outOfLine (address : ℕ) (dims : List ℤ) : TensorShapeRep :=
  ((⟨fun _ => 0, elementsOf dims⟩ : TensorShapeRep).setNdimsByte dims.length).setTag .repOutOfLine
    |>.setDims64 address

/-- Two vectors, at the addresses 1 and 2. -/
def twoVectors (dims dims' : List ℤ) : Heap := fun address =>
  if address = 1 then some dims else if address = 2 then some dims' else none

theorem outOfLine_accepted {heap : Heap} {address : ℕ} {dims : List ℤ} (haddress : address < 2 ^ 64)
    (hheap : heap address = some dims) (hvalid : ValidDims true dims)
    (hsizes : ∀ size ∈ dims, -1 ≤ size ∧ size < 2 ^ 63) :
    AcceptedShape heap (outOfLine address dims) (some dims) := by
  have htag : (outOfLine address dims).tag = .repOutOfLine := by simp [outOfLine]
  have hlength : dims.length < 256 := hvalid.1.trans_lt (by decide)
  have hrank : (outOfLine address dims).ndimsByte = dims.length := by
    rw [outOfLine, ndimsByte_setDims64, ndimsByte_setTag, ndimsByte_setNdimsByte hlength]
  have hlaid : LaidOut heap (outOfLine address dims) dims := by
    rw [LaidOut, htag]
    exact ⟨dims, by rw [outOfLine, dims64_setDims64 haddress, hheap],
      List.forall₂_same.mpr fun _ _ => .inl rfl⟩
  have hholds : Holds heap (outOfLine address dims) dims :=
    ⟨⟨hrank, hvalid.1, fun size hmem => (hsizes size hmem).2, hlaid⟩, rfl⟩
  have hge : ∀ size ∈ dims, -1 ≤ size := fun size hmem => (hsizes size hmem).1
  refine ⟨hholds, fun dims' hmem => ?_, fun _ => (isValid_iff hholds hge).mpr hvalid⟩
  obtain rfl := Option.some.inj hmem
  exact hge

theorem twoVectors_mergeable {dims dims' : List ℤ}
    (hvalid : ValidDims true dims ∧ ∀ size ∈ dims, -1 ≤ size ∧ size < 2 ^ 63)
    (hvalid' : ValidDims true dims' ∧ ∀ size ∈ dims', -1 ≤ size ∧ size < 2 ^ 63) :
    Mergeable 3 (outOfLine 1 dims) (outOfLine 2 dims') (⟨fun _ => 0, 1⟩, twoVectors dims dims')
      (some dims) (some dims') := by
  have hfirst : (outOfLine 1 dims).dims64 = 1 := dims64_setDims64 (by decide)
  have hsecond : (outOfLine 2 dims').dims64 = 2 := dims64_setDims64 (by decide)
  have hempty : LaidOut (twoVectors dims dims') ⟨fun _ => 0, 1⟩ [] :=
    ⟨by decide, fun d size hd => by cases hd⟩
  exact ⟨outOfLine_accepted (by decide) rfl hvalid.1 hvalid.2,
    outOfLine_accepted (by decide) rfl hvalid'.1 hvalid'.2, ⟨[], hempty⟩, rfl, by decide,
    fun _ => ⟨by rw [hfirst]; decide, fun htag => by cases htag⟩,
    fun _ => ⟨by rw [hsecond]; decide, fun htag => by cases htag⟩⟩

theorem merging_is_safe_iff_two :
    MergesTo 3 (outOfLine 1 [2, -1]) (outOfLine 2 [-1, 3])
        (⟨fun _ => 0, 1⟩, twoVectors [2, -1] [-1, 3]) (some [2, -1]) (some [-1, 3]) ∧
      MostGeneral (some [2, 3]) (some [2, -1]) (some [-1, 3]) := by
  have hmerge := merging_is_safe_iff (@twoVectors_mergeable [2, -1] [-1, 3] (by decide) (by decide))
  have hfits : MergeFits (some [2, -1]) (some [-1, 3]) := fun _ => by decide
  exact ⟨(hmerge.1.mpr hfits).1, (hmerge.2 (.cons (by decide) (.cons (by decide) .nil))).1⟩

/-- Both shapes are accepted and match, but merging them fails a `CHECK`. -/
theorem merged_elements_overflow :
    Mergeable 3 (outOfLine 1 [2 ^ 40, -1]) (outOfLine 2 [-1, 2 ^ 40])
        (⟨fun _ => 0, 1⟩, twoVectors [2 ^ 40, -1] [-1, 2 ^ 40]) (some [2 ^ 40, -1])
        (some [-1, 2 ^ 40]) ∧
      mergeWith 3 (outOfLine 1 [2 ^ 40, -1]) (outOfLine 2 [-1, 2 ^ 40])
        (⟨fun _ => 0, 1⟩, twoVectors [2 ^ 40, -1] [-1, 2 ^ 40]) = .error .checkFailed := by
  exact ⟨twoVectors_mergeable (by decide) (by decide), rfl⟩

end ContainerScheduler.Analysis
