/-
# A set of slices answers by what is registered

The texts of slices are different, so the hash map holds exactly the slices whose registration
succeeded. They lie within the shape, are disjoint and are inside of the hull.
-/

import ContainerScheduler.Analysis.SliceCoverage

namespace ContainerScheduler.Analysis

open Math
open Checkpoint

/-! ## Texts -/

/-- Two texts that end at the same mark are equal up to it. -/
theorem split_at_mark {mark : Char} {first second rest rest' : List Char}
    (hfirst : mark ∉ first) (hsecond : mark ∉ second)
    (heq : first ++ mark :: rest = second ++ mark :: rest') : first = second ∧ rest = rest' := by
  induction first generalizing second with
  | nil =>
      cases second with
      | nil => exact ⟨rfl, (List.cons.inj heq).2⟩
      | cons c second => exact absurd ((List.cons.inj heq).1 ▸ List.mem_cons_self) hsecond
  | cons c first ih =>
      cases second with
      | nil => exact absurd ((List.cons.inj heq).1 ▸ List.mem_cons_self) hfirst
      | cons c' second =>
          rcases List.cons.inj heq with ⟨rfl, htail⟩
          rcases ih (fun hmem => hfirst (List.mem_cons_of_mem _ hmem))
            (fun hmem => hsecond (List.mem_cons_of_mem _ hmem)) htail with ⟨rfl, hrest⟩
          exact ⟨rfl, hrest⟩

theorem toDigits_injective {m n : ℕ} (heq : Nat.toDigits 10 m = Nat.toDigits 10 n) : m = n := by
  rw [← Nat.ofDigitChars_ten_toDigits (n := m), heq, Nat.ofDigitChars_ten_toDigits]

theorem isDigit_of_mem_strInt {value : ℤ} (hpos : 0 ≤ value) {c : Char}
    (hc : c ∈ Extent.strInt value) : c.isDigit = true := by
  rw [Extent.strInt, if_neg (not_lt.mpr hpos)] at hc
  exact Nat.isDigit_of_mem_toDigits (by decide) (by decide) hc

theorem strInt_injective {value value' : ℤ} (hpos : 0 ≤ value) (hpos' : 0 ≤ value')
    (heq : Extent.strInt value = Extent.strInt value') : value = value' := by
  rw [Extent.strInt, Extent.strInt, if_neg (not_lt.mpr hpos), if_neg (not_lt.mpr hpos')] at heq
  have habs := toDigits_injective heq
  omega

variable {extent extent' : Extent} {slice other : TensorSlice}

/-- An extent is a dash, or digits, a comma and digits. -/
theorem text_of_extent (hok : ExtentOk extent) (hfull : ¬extent.isFull) :
    extent.debugString = Extent.strInt extent.start ++ ',' :: Extent.strInt extent.length ∧
      0 ≤ extent.start ∧ 0 ≤ extent.length := by
  rcases hok with hfull' | hext
  · exact absurd hfull' hfull
  · exact ⟨if_neg hfull, hext.1.1, zero_le_one.trans hext.2.1⟩

theorem colon_not_mem (hok : ExtentOk extent) : ':' ∉ extent.debugString := by
  by_cases hfull : extent.isFull
  · rw [Extent.debugString, if_pos hfull]
    decide
  · rcases text_of_extent hok hfull with ⟨htext, hstart, hlength⟩
    rw [htext]
    intro hmem
    rcases List.mem_append.mp hmem with hmem | hmem
    · exact absurd (isDigit_of_mem_strInt hstart hmem) (by decide)
    · rcases List.mem_cons.mp hmem with hmem | hmem
      · exact absurd hmem (by decide)
      · exact absurd (isDigit_of_mem_strInt hlength hmem) (by decide)

theorem comma_mem (hok : ExtentOk extent) (hfull : ¬extent.isFull) : ',' ∈ extent.debugString := by
  rw [(text_of_extent hok hfull).1]
  exact List.mem_append_right _ List.mem_cons_self

theorem extentText_injective (hok : ExtentOk extent) (hok' : ExtentOk extent')
    (heq : extent.debugString = extent'.debugString) : extent = extent' := by
  have hdash : ∀ {extent : Extent}, extent.isFull → ',' ∉ extent.debugString := fun hfull => by
    rw [Extent.debugString, if_pos hfull]
    decide
  by_cases hfull : extent.isFull
  · by_cases hfull' : extent'.isFull
    · cases extent
      cases extent'
      rcases hfull with ⟨rfl, rfl⟩
      rcases hfull' with ⟨rfl, rfl⟩
      rfl
    · exact absurd (heq ▸ comma_mem hok' hfull') (hdash hfull)
  · by_cases hfull' : extent'.isFull
    · exact absurd (heq ▸ comma_mem hok hfull) (hdash hfull')
    · rcases text_of_extent hok hfull with ⟨htext, hstart, hlength⟩
      rcases text_of_extent hok' hfull' with ⟨htext', hstart', hlength'⟩
      rw [htext, htext'] at heq
      have hcomma : ∀ {value : ℤ}, 0 ≤ value → ',' ∉ Extent.strInt value := fun hpos hmem =>
        absurd (isDigit_of_mem_strInt hpos hmem) (by decide)
      rcases split_at_mark (hcomma hstart) (hcomma hstart') heq with ⟨hstarts, hlengths⟩
      cases extent
      cases extent'
      obtain rfl := strInt_injective hstart hstart' hstarts
      obtain rfl := strInt_injective hlength hlength' hlengths
      rfl

/-- The texts of the extents, each followed by a colon. -/
def closedText (slice : TensorSlice) : List Char :=
  slice.flatMap fun extent => extent.debugString ++ [':']

theorem restString_colon (slice : TensorSlice) :
    TensorSlice.restString slice ++ [':'] = ':' :: closedText slice := by
  induction slice with
  | nil => rfl
  | cons extent slice ih =>
      have hcons : closedText (extent :: slice) =
          extent.debugString ++ ':' :: closedText slice := by
        rw [closedText, List.flatMap_cons, List.append_assoc]
        rfl
      rw [TensorSlice.restString, List.append_assoc, ih, hcons]
      rfl

theorem closedText_injective (hok : ∀ extent ∈ slice, ExtentOk extent)
    (hok' : ∀ extent ∈ other, ExtentOk extent) (heq : closedText slice = closedText other) :
    slice = other := by
  have hnonempty : ∀ {extent : Extent} {rest : TensorSlice}, closedText (extent :: rest) ≠ [] := by
    intro extent rest hnil
    simp [closedText] at hnil
  induction slice generalizing other with
  | nil =>
      cases other with
      | nil => rfl
      | cons extent' other => exact absurd heq.symm hnonempty
  | cons extent slice ih =>
      cases other with
      | nil => exact absurd heq hnonempty
      | cons extent' other =>
          rw [closedText, closedText, List.flatMap_cons, List.flatMap_cons, List.append_assoc,
            List.append_assoc] at heq
          have hfirst := hok extent List.mem_cons_self
          have hfirst' := hok' extent' List.mem_cons_self
          rcases split_at_mark (colon_not_mem hfirst) (colon_not_mem hfirst') heq
            with ⟨htext, hrest⟩
          obtain rfl := extentText_injective hfirst hfirst' htext
          obtain rfl := ih (fun extent hmem => hok extent (List.mem_cons_of_mem _ hmem))
            (fun extent hmem => hok' extent (List.mem_cons_of_mem _ hmem)) hrest
          rfl

theorem debugString_colon (extent : Extent) (slice : TensorSlice) :
    TensorSlice.debugString (extent :: slice) ++ [':'] = closedText (extent :: slice) := by
  rw [TensorSlice.debugString, List.append_assoc, restString_colon, closedText, closedText,
    List.flatMap_cons, List.append_assoc]
  rfl

theorem debugString_ne_nil {slice : TensorSlice} (hok : ExtentOk extent) :
    TensorSlice.debugString (extent :: slice) ≠ [] := by
  intro hnil
  rw [TensorSlice.debugString, List.append_eq_nil_iff] at hnil
  by_cases hfull : extent.isFull
  · rw [Extent.debugString, if_pos hfull] at hnil
    cases hnil.1
  · exact absurd (hnil.1 ▸ comma_mem hok hfull) List.not_mem_nil

/-- **Different slices have different texts.** -/
theorem debugString_injective (hok : ∀ extent ∈ slice, ExtentOk extent)
    (hok' : ∀ extent ∈ other, ExtentOk extent)
    (heq : TensorSlice.debugString slice = TensorSlice.debugString other) : slice = other := by
  cases slice with
  | nil =>
      cases other with
      | nil => rfl
      | cons extent' other =>
          exact absurd heq.symm (debugString_ne_nil (hok' extent' List.mem_cons_self))
  | cons extent slice =>
      cases other with
      | nil => exact absurd heq (debugString_ne_nil (hok extent List.mem_cons_self))
      | cons extent' other =>
          apply closedText_injective hok hok'
          rw [← debugString_colon, ← debugString_colon, heq]

/-! ## The invariant -/

variable {τ : Type} {shape : List ℤ}
  {order : List (List Char × SliceInfo τ) → List (List Char × SliceInfo τ)}
  {state : RegisteredSlices τ}

/-- The entry of a registered slice. -/
def entryOf (shape : List ℤ) (call : TensorSlice × τ) : List Char × SliceInfo τ :=
  (TensorSlice.debugString call.1, ⟨call.1, call.2, (sizesOf shape call.1).prod⟩)

/-- What holds of a set between two calls. -/
structure SetInv (shape : List ℤ) (state : RegisteredSlices τ) : Prop where
  shape_eq : state.set.shape = shape
  slices_eq : state.set.slices = state.registered.map (entryOf shape)
  within : ∀ call ∈ state.registered, Within shape call.1
  disjoint : state.registered.Pairwise fun call call' =>
    Disjoint (elements shape call.1) (elements shape call'.1)
  hull : state.registered ≠ [] → Within shape state.set.slicesHull ∧
    ∀ call ∈ state.registered, elements shape call.1 ⊆ elements shape state.set.slicesHull

theorem extentOk_of_within (hshape : ShapeOk shape) (hwithin : Within shape slice) :
    ∀ extent ∈ slice, ExtentOk extent := by
  have hsizes := size_lt hshape
  clear hshape
  induction hwithin with
  | nil => exact fun _ hmem => absurd hmem List.not_mem_nil
  | @cons size extent sizes extents hfits _ ih =>
      intro extent' hmem
      rcases List.mem_cons.mp hmem with rfl | hmem
      · have hsize := hsizes size List.mem_cons_self
        rcases hfits with hfull | hfits
        · exact .inl hfull
        · right
          omega
      · exact ih (fun size hsize => hsizes size (List.mem_cons_of_mem _ hsize)) extent' hmem

/-- The search for an overlap is right, whether or not the hull rules it out. -/
theorem findOverlap_eq_none_iff (hshape : ShapeOk shape)
    (horder : ∀ entries, (order entries).Perm entries) (inv : SetInv shape state)
    (hne : state.registered ≠ []) (hwithin : Within shape slice) :
    state.set.findOverlap order slice = none ↔
      ∀ call ∈ state.registered, Disjoint (elements shape slice) (elements shape call.1) := by
  have hmeets : ∀ {other}, Within shape other → (TensorSlice.overlaps slice other = false ↔
      Disjoint (elements shape slice) (elements shape other)) := fun hother => by
    rw [← Bool.not_eq_true, overlaps_iff hshape hwithin hother, Finset.not_nonempty_iff_eq_empty,
      Finset.disjoint_iff_inter_eq_empty]
  have hfind : ((order state.set.slices).find? fun entry =>
      TensorSlice.overlaps slice entry.2.slice) = none ↔
      ∀ call ∈ state.registered, Disjoint (elements shape slice) (elements shape call.1) := by
    rw [List.find?_eq_none]
    constructor
    · intro hnone call hcall
      have hentry : entryOf shape call ∈ order state.set.slices := by
        rw [(horder _).mem_iff, inv.slices_eq]
        exact List.mem_map_of_mem hcall
      exact (hmeets (inv.within call hcall)).mp (Bool.eq_false_iff.mpr (hnone _ hentry))
    · intro hdisjoint entry hentry
      rw [(horder _).mem_iff, inv.slices_eq] at hentry
      rcases List.mem_map.mp hentry with ⟨call, hcall, rfl⟩
      exact Bool.eq_false_iff.mp ((hmeets (inv.within call hcall)).mpr (hdisjoint call hcall))
  rcases inv.hull hne with ⟨hhull, hcover⟩
  rw [TensorSliceSet.findOverlap]
  split_ifs with hover
  · exact hfind
  · simp only [true_iff]
    intro call hcall
    have hapart : ¬(elements shape state.set.slicesHull ∩ elements shape slice).Nonempty := fun h =>
      hover ((overlaps_iff hshape hhull hwithin).mpr h)
    rw [Finset.not_nonempty_iff_eq_empty, ← Finset.disjoint_iff_inter_eq_empty] at hapart
    exact (hapart.mono_left (hcover call hcall)).symm

/-! ## `Register` -/

/-- A slice that shares no element with the registered ones has a new text. -/
theorem insert_new (hshape : ShapeOk shape) (inv : SetInv shape state)
    (hwithin : Within shape slice)
    (hdisjoint : ∀ call ∈ state.registered, Disjoint (elements shape slice) (elements shape call.1))
    (info : SliceInfo τ) :
    TensorSliceSet.insert state.set.slices (TensorSlice.debugString slice, info) =
      state.set.slices ++ [(TensorSlice.debugString slice, info)] := by
  rw [TensorSliceSet.insert, if_neg]
  rw [inv.slices_eq, List.any_map, Bool.not_eq_true, List.any_eq_false]
  intro call hcall htext
  have hsame := debugString_injective (extentOk_of_within hshape (inv.within call hcall))
    (extentOk_of_within hshape hwithin) (of_decide_eq_true htext)
  have hapart := hdisjoint call hcall
  rw [hsame, disjoint_self, Finset.bot_eq_empty] at hapart
  exact (elements_nonempty hshape.one_le hwithin).ne_empty hapart

/-- A slice is registered. -/
theorem SetInv.registered {tag : τ} {hull : TensorSlice} (inv : SetInv shape state)
    (hwithin : Within shape slice)
    (hdisjoint : ∀ call ∈ state.registered, Disjoint (elements shape slice) (elements shape call.1))
    (hhull : Within shape hull ∧ elements shape slice ⊆ elements shape hull ∧
      ∀ call ∈ state.registered, elements shape call.1 ⊆ elements shape hull) :
    SetInv shape
      ⟨⟨shape, state.set.slices ++ [entryOf shape (slice, tag)], hull⟩,
        state.registered ++ [(slice, tag)]⟩ := by
  have hmem : ∀ {call}, call ∈ state.registered ++ [(slice, tag)] →
      call ∈ state.registered ∨ call = (slice, tag) := fun hcall => by
    simpa only [List.mem_append, List.mem_singleton] using hcall
  constructor
  · rfl
  · rw [inv.slices_eq, List.map_append]
    rfl
  · intro call hcall
    rcases hmem hcall with hcall | rfl
    · exact inv.within call hcall
    · exact hwithin
  · rw [List.pairwise_append]
    refine ⟨inv.disjoint, List.pairwise_singleton _ _, ?_⟩
    intro call hcall new hnew
    rcases List.mem_singleton.mp hnew with rfl
    exact (hdisjoint call hcall).symm
  · intro _
    refine ⟨hhull.1, ?_⟩
    intro call hcall
    rcases hmem hcall with hcall | rfl
    · exact hhull.2.2 call hcall
    · exact hhull.2.1

/-- What a call of `Register` does: it refuses the slice and changes nothing, or the slice lies
within the shape, shares no element with the registered ones and is registered. -/
theorem register_spec (hshape : ShapeOk shape)
    (horder : ∀ entries, (order entries).Perm entries) (inv : SetInv shape state)
    (hok : ∀ extent ∈ slice, ExtentOk extent)
    (hwraps : shape.length = slice.length → ¬SumWraps shape slice) (tag : τ) :
    ∃ status next, state.set.register order slice tag = some (status, next) ∧
      (status = none ↔ Within shape slice ∧
        ∀ call ∈ state.registered, Disjoint (elements shape slice) (elements shape call.1)) ∧
      (status ≠ none → next = state.set) ∧
      (status = none → SetInv shape ⟨next, state.registered ++ [(slice, tag)]⟩) := by
  by_cases hwithin : Within shape slice
  · have hslice := sliceTensorShape_within hshape hwithin
    rw [TensorSliceSet.register, inv.shape_eq, hslice]
    by_cases hempty : state.registered = []
    · have hslices : state.set.slices = [] := by
        rw [inv.slices_eq, hempty, List.map_nil]
      have hdisjoint : ∀ call ∈ state.registered,
          Disjoint (elements shape slice) (elements shape call.1) := by
        rw [hempty]
        exact fun _ hcall => absurd hcall List.not_mem_nil
      refine ⟨_, _, if_pos (by rw [hslices]; rfl), ?_, fun hne => absurd rfl hne, fun _ => ?_⟩
      · exact ⟨fun _ => ⟨hwithin, hdisjoint⟩, fun _ => rfl⟩
      · rw [insert_new hshape inv hwithin hdisjoint]
        apply inv.registered hwithin hdisjoint
        refine ⟨hwithin, subset_rfl, ?_⟩
        rw [hempty]
        exact fun _ hcall => absurd hcall List.not_mem_nil
    · have hslices : ¬state.set.slices.isEmpty = true := by
        rw [inv.slices_eq, List.isEmpty_iff, List.map_eq_nil_iff]
        exact hempty
      have hfind := findOverlap_eq_none_iff hshape horder inv hempty hwithin
      simp only [if_neg hslices]
      cases hover : state.set.findOverlap order slice with
      | some entry =>
          refine ⟨_, _, rfl, ?_, fun _ => rfl, nofun⟩
          refine ⟨nofun, fun h => ?_⟩
          exact absurd (hfind.mpr h.2) (by rw [hover]; exact nofun)
      | none =>
          have hdisjoint := hfind.mp hover
          rcases inv.hull hempty with ⟨hhull, hcover⟩
          rcases updateToCover_spec (size_lt hshape) hhull hwithin with ⟨hnew, hold, hslice'⟩
          refine ⟨_, _, rfl, ?_, fun hne => absurd rfl hne, fun _ => ?_⟩
          · exact ⟨fun _ => ⟨hwithin, hdisjoint⟩, fun _ => rfl⟩
          · rw [insert_new hshape inv hwithin hdisjoint]
            apply inv.registered hwithin hdisjoint
            exact ⟨hnew, hslice', fun call hcall => (hcover call hcall).trans hold⟩
  · rcases sliceTensorShape_outside hshape hwithin hok hwraps with ⟨error, herror, hcheck⟩
    have hregister : state.set.register order slice tag =
        some (some (.notApplicable error), state.set) := by
      rw [TensorSliceSet.register, inv.shape_eq, herror]
      cases error <;> first | rfl | exact absurd rfl hcheck
    refine ⟨_, _, hregister, ?_, fun _ => rfl, nofun⟩
    exact ⟨nofun, fun h => absurd h.1 hwithin⟩

/-! ## `QueryMeta` -/

/-- The number of elements that a slice shares with the one of an entry. -/
noncomputable def share (shape : List ℤ) (slice : TensorSlice)
    (entry : List Char × SliceInfo τ) : ℕ :=
  (elements shape slice ∩ elements shape entry.2.slice).card

/-- The registered slices that share an element with a slice. -/
noncomputable def sharing (shape : List ℤ) (slice : TensorSlice) (calls : List (TensorSlice × τ)) :
    List (TensorSlice × τ) :=
  calls.filter fun call => (elements shape slice ∩ elements shape call.1).Nonempty

theorem queryLoop_spec {set : TensorSliceSet τ} (hset : set.shape = shape) (hshape : ShapeOk shape)
    (hwithin : Within shape slice) {entries : List (List Char × SliceInfo τ)}
    (hentries : ∀ entry ∈ entries, Within shape entry.2.slice) {overlapSize : ℕ}
    (hlt : overlapSize + (entries.map (share shape slice)).sum < 2 ^ 63)
    (results : List (TensorSlice × τ)) :
    set.queryLoop slice entries overlapSize results =
      (.ok (overlapSize + (entries.map (share shape slice)).sum : ℕ), results ++
        sharing shape slice (entries.map fun entry => (entry.2.slice, entry.2.tag))) := by
  induction entries generalizing overlapSize results with
  | nil => simp [TensorSliceSet.queryLoop, sharing]
  | cons entry entries ih =>
      have hentry := hentries entry List.mem_cons_self
      have hrest : ∀ entry ∈ entries, Within shape entry.2.slice := fun entry' hmem =>
        hentries entry' (List.mem_cons_of_mem _ hmem)
      rw [List.map_cons, List.sum_cons] at hlt ⊢
      rw [List.map_cons, sharing, TensorSliceSet.queryLoop]
      cases hcommon : TensorSlice.intersect slice entry.2.slice with
      | none =>
          have hdisjoint := intersect_none (size_lt hshape) hwithin hentry hcommon
          have hempty := Finset.disjoint_iff_inter_eq_empty.mp hdisjoint
          have hshare : share shape slice entry = 0 := by
            rw [share, hempty, Finset.card_empty]
          rw [hshare, Nat.zero_add] at hlt ⊢
          rw [List.filter_cons_of_neg (by simp [hempty])]
          exact ih hrest hlt results
      | some common =>
          rcases intersect_some (size_lt hshape) hwithin hentry hcommon with ⟨hin, hcells⟩
          have hnonempty := elements_nonempty hshape.one_le hin
          have hprod : (sizesOf shape common).prod = share shape slice entry := by
            rw [share, ← hcells, card_elements hin hshape.one_le]
          rw [hcells] at hnonempty
          rw [List.filter_cons_of_pos (by simpa using hnonempty)]
          simp only [hset, sliceTensorShape_within hshape hin, hprod]
          rw [int64_eq (by omega) (by omega), ← Nat.cast_add,
            ih hrest (by omega), List.append_assoc, Nat.add_assoc]
          rfl

/-- A registered slice is found by its text, and shares elements with itself only. -/
theorem sharing_registered (hshape : ShapeOk shape) (inv : SetInv shape state)
    {call : TensorSlice × τ} (hcall : call ∈ state.registered) :
    sharing shape call.1 state.registered = [call] := by
  have hdisjoint := inv.disjoint
  have hwithin := inv.within
  rw [sharing]
  generalize state.registered = calls at hcall hdisjoint hwithin
  induction calls with
  | nil => cases hcall
  | cons first rest ih =>
      rcases List.pairwise_cons.mp hdisjoint with ⟨hfirst, hrest⟩
      have hnone : ∀ {call}, call ∈ first :: rest → (elements shape call.1 ∩
          elements shape call.1).Nonempty := fun hmem => by
        rw [Finset.inter_self]
        exact elements_nonempty hshape.one_le (hwithin _ hmem)
      rcases List.mem_cons.mp hcall with rfl | hcall
      · rw [List.filter_cons_of_pos (by simpa using hnone List.mem_cons_self),
          List.filter_eq_nil_iff.mpr]
        intro other hother
        rw [Finset.disjoint_iff_inter_eq_empty.mp (hfirst other hother)]
        simp
      · have hapart : elements shape call.1 ∩ elements shape first.1 = ∅ :=
          Finset.disjoint_iff_inter_eq_empty.mp (hfirst call hcall).symm
        rw [List.filter_cons_of_neg (by simp [hapart])]
        exact ih hcall hrest fun call hmem => hwithin call (List.mem_cons_of_mem _ hmem)

theorem prod_sizesOf_le (hone : ∀ size ∈ shape, 1 ≤ size) (hwithin : Within shape slice) :
    (sizesOf shape slice).prod ≤ shape.prod := by
  induction hwithin with
  | nil => exact le_rfl
  | @cons size extent sizes extents hfits hrest ih =>
      have hmore : ∀ size ∈ sizes, 1 ≤ size := fun size hsize =>
        hone size (List.mem_cons_of_mem _ hsize)
      have hfirst : (if extent.isFull then size else extent.length) ≤ size := by
        split_ifs with hfull
        · exact le_rfl
        · rcases hfits with hfull' | hfits
          · exact absurd hfull' hfull
          · omega
      rw [sizesOf, List.zipWith_cons_cons, List.prod_cons, List.prod_cons]
      have hsize := hone size List.mem_cons_self
      have hnonneg : 0 ≤ (sizesOf sizes extents).prod := by
        rw [← card_elements hrest hmore]
        exact Int.natCast_nonneg _
      exact mul_le_mul hfirst (ih hmore) hnonneg (by omega)

/-- A slice is patched together if and only if its elements are registered. -/
theorem queryPatched_spec (hshape : ShapeOk shape)
    (horder : ∀ entries, (order entries).Perm entries) (inv : SetInv shape state)
    (hwithin : Within shape slice) :
    ∃ found results, state.set.queryPatched order slice = some (found, results) ∧
      (found = true ↔ ∀ cell ∈ elements shape slice,
        ∃ call ∈ state.registered, cell ∈ elements shape call.1) ∧
      (found = true → results.Perm (sharing shape slice state.registered)) := by
  have hperm := horder state.set.slices
  have hentries : ∀ entry ∈ order state.set.slices, Within shape entry.2.slice := by
    intro entry hentry
    rw [hperm.mem_iff, inv.slices_eq] at hentry
    rcases List.mem_map.mp hentry with ⟨call, hcall, rfl⟩
    exact inv.within call hcall
  -- the shares are those of disjoint parts
  have hparts : (state.registered.map fun call => elements shape call.1).Pairwise Disjoint :=
    List.pairwise_map.mpr inv.disjoint
  have hsum : ((order state.set.slices).map (share shape slice)).sum =
      ((state.registered.map fun call => elements shape call.1).map fun part =>
        (elements shape slice ∩ part).card).sum := by
    rw [(hperm.map _).sum_eq, inv.slices_eq, List.map_map, List.map_map]
    rfl
  have hcovered := sum_card_inter_eq_card_iff (elements shape slice) hparts
  have hle :
      ((order state.set.slices).map (share shape slice)).sum ≤ (elements shape slice).card := by
    rw [hsum, sum_card_inter_eq _ hparts]
    exact Finset.card_filter_le _ _
  have hcard := card_elements hwithin hshape.one_le
  have hlt : (sizesOf shape slice).prod < 2 ^ 63 :=
    lt_of_le_of_lt (prod_sizesOf_le hshape.one_le hwithin) hshape.prod_lt
  have hloop : state.set.queryLoop slice (order state.set.slices) (0 : ℕ) [] = _ :=
    queryLoop_spec inv.shape_eq hshape hwithin hentries (by omega) []
  have hlist : (sharing shape slice ((order state.set.slices).map fun entry =>
      (entry.2.slice, entry.2.tag))).Perm (sharing shape slice state.registered) := by
    refine List.Perm.filter _ ((hperm.map _).trans (List.Perm.of_eq ?_))
    rw [inv.slices_eq, List.map_map]
    exact List.map_id _
  have hequal : (sizesOf shape slice).prod =
      ((0 + ((order state.set.slices).map (share shape slice)).sum : ℕ) : ℤ) ↔
      ∀ cell ∈ elements shape slice, ∃ call ∈ state.registered, cell ∈ elements shape call.1 := by
    rw [← hcard, Nat.zero_add, Nat.cast_inj, hsum, eq_comm, hcovered]
    simp only [List.mem_map, exists_exists_and_eq_and]
  rw [TensorSliceSet.queryPatched, inv.shape_eq, sliceTensorShape_within hshape hwithin]
  simp only [Nat.cast_zero] at hloop
  simp only [hloop]
  split_ifs with heq
  · exact ⟨_, _, rfl, ⟨fun _ => hequal.mp heq, fun _ => rfl⟩, fun _ => hlist⟩
  · exact ⟨_, _, rfl, ⟨nofun, fun h => absurd (hequal.mpr h) heq⟩, nofun⟩

/-- What a call of `QueryMeta` answers. -/
theorem queryMeta_spec (hshape : ShapeOk shape)
    (horder : ∀ entries, (order entries).Perm entries) (inv : SetInv shape state)
    (hok : ∀ extent ∈ slice, ExtentOk extent)
    (hwraps : shape.length = slice.length → ¬SumWraps shape slice) :
    ∃ found results, state.set.queryMeta order slice = some (found, results) ∧
      (found = true ↔ Within shape slice ∧ ∀ cell ∈ elements shape slice,
        ∃ call ∈ state.registered, cell ∈ elements shape call.1) ∧
      (found = true → results.Perm (sharing shape slice state.registered)) := by
  rw [TensorSliceSet.queryMeta]
  cases hfind : state.set.slices.find? (·.1 = TensorSlice.debugString slice) with
  | some entry =>
      have htext : entry.1 = TensorSlice.debugString slice := by
        simpa using List.find?_some hfind
      have hentry := List.mem_of_find?_eq_some hfind
      rw [inv.slices_eq] at hentry
      rcases List.mem_map.mp hentry with ⟨call, hcall, rfl⟩
      have hwithin := inv.within call hcall
      obtain rfl := debugString_injective (extentOk_of_within hshape hwithin) hok htext
      refine ⟨_, _, rfl, ⟨fun _ => ⟨hwithin, fun cell hcell => ⟨call, hcall, hcell⟩⟩, fun _ => rfl⟩,
        fun _ => ?_⟩
      rw [sharing_registered hshape inv hcall]
      exact List.Perm.refl _
  | none =>
      by_cases hwithin : Within shape slice
      · rcases queryPatched_spec hshape horder inv hwithin
          with ⟨found, results, hquery, hfound, hlist⟩
        exact ⟨found, results, hquery, hfound.trans (and_iff_right hwithin).symm, hlist⟩
      · rcases sliceTensorShape_outside hshape hwithin hok hwraps with ⟨error, herror, hcheck⟩
        have hanswer : state.set.queryPatched order slice = some (false, []) := by
          rw [TensorSliceSet.queryPatched, inv.shape_eq, herror]
          cases error <;> first | rfl | exact absurd rfl hcheck
        refine ⟨_, _, hanswer, ?_, nofun⟩
        exact ⟨nofun, fun h => absurd h.1 hwithin⟩

/-! ## Every run -/

/-- The slices that callers give, without a sum that wraps. -/
def SliceOk (shape : List ℤ) (slice : TensorSlice) : Prop :=
  (∀ extent ∈ slice, ExtentOk extent) ∧ (shape.length = slice.length → ¬SumWraps shape slice)

instance (shape : List ℤ) (slice : TensorSlice) : Decidable (SliceOk shape slice) :=
  inferInstanceAs (Decidable (_ ∧ _))

theorem setInv_of_reaches (hshape : ShapeOk shape)
    (horder : ∀ entries, (order entries).Perm entries)
    (hreached : (sliceSet shape order).Reaches (fun _ call => SliceOk shape call.1) state) :
    SetInv shape state := by
  refine hreached.invariant ?_ fun source call target _ inv hcall hstep => ?_
  · refine ⟨rfl, rfl, fun _ hmem => absurd hmem List.not_mem_nil, List.Pairwise.nil, fun hne => ?_⟩
    exact absurd rfl hne
  · rcases register_spec hshape horder inv hcall.1 hcall.2 call.2 with
      ⟨status, next, hregister, -, hsame, hinv⟩
    rcases Option.map_eq_some_iff.mp hstep with ⟨result, hresult, rfl⟩
    obtain rfl := Option.some.inj (hregister.symm.trans hresult)
    by_cases hstatus : status = none
    · rw [if_pos hstatus]
      exact hinv hstatus
    · rw [if_neg hstatus, hsame hstatus]
      exact inv

/-- **Registered slices are disjoint and found.** In every run without a sum that wraps, a call of
`Register` succeeds if and only if its slice lies within the shape and shares no element with one
that was registered, and changes nothing if it fails; and `QueryMeta` succeeds if and only if its
slice lies within the shape and each of its elements is registered, with the registered slices that
share an element with it. -/
theorem registered_slices_found (hshape : ShapeOk shape)
    (horder : ∀ entries, (order entries).Perm entries)
    (hreached : (sliceSet shape order).Reaches (fun _ call => SliceOk shape call.1) state) :
    (∀ slice tag, SliceOk shape slice → ∃ status next,
      state.set.register order slice tag = some (status, next) ∧
        (status = none ↔ Within shape slice ∧
          ∀ call ∈ state.registered, Disjoint (elements shape slice) (elements shape call.1)) ∧
        (status ≠ none → next = state.set)) ∧
      ∀ slice, SliceOk shape slice → ∃ found results,
        state.set.queryMeta order slice = some (found, results) ∧
          (found = true ↔ Within shape slice ∧ ∀ cell ∈ elements shape slice,
            ∃ call ∈ state.registered, cell ∈ elements shape call.1) ∧
          (found = true → results.Perm (sharing shape slice state.registered)) := by
  have inv := setInv_of_reaches hshape horder hreached
  constructor
  · intro slice tag hok
    rcases register_spec hshape horder inv hok.1 hok.2 tag with
      ⟨status, next, hregister, hstatus, hsame, -⟩
    exact ⟨status, next, hregister, hstatus, hsame⟩
  · intro slice hok
    exact queryMeta_spec hshape horder inv hok.1 hok.2

/-- Two halves of a matrix make it up; an overlapping slice is refused. -/
theorem two_halves_found :
    ∃ state : RegisteredSlices ℕ, (sliceSet [4, 3] id).Reaches
        (fun _ call => SliceOk [4, 3] call.1) state ∧
      state.registered = [([⟨0, 2⟩, ⟨0, -1⟩], 0), ([⟨2, 2⟩, ⟨0, 3⟩], 2)] ∧
        ∃ found results, state.set.queryMeta id [⟨0, -1⟩, ⟨0, -1⟩] = some (found, results) ∧
          (found = true ↔ Within [4, 3] [⟨0, -1⟩, ⟨0, -1⟩] ∧
            ∀ cell ∈ elements [4, 3] [⟨0, -1⟩, ⟨0, -1⟩],
              ∃ call ∈ state.registered, cell ∈ elements [4, 3] call.1) ∧
          (found = true → results.Perm (sharing [4, 3] [⟨0, -1⟩, ⟨0, -1⟩] state.registered)) := by
  have hshape : ShapeOk [4, 3] := ⟨by decide, by decide, by decide⟩
  have hrun : ∃ state : RegisteredSlices ℕ, (sliceSet [4, 3] id).Reaches
      (fun _ call => SliceOk [4, 3] call.1) state ∧
      decide (state.registered = [([⟨0, 2⟩, ⟨0, -1⟩], 0), ([⟨2, 2⟩, ⟨0, 3⟩], 2)]) = true := by
    have hmeets : (sliceSet [4, 3] id).RunMeets (fun _ call => SliceOk [4, 3] call.1)
        [([⟨0, 2⟩, ⟨0, -1⟩], 0), ([⟨1, 1⟩, ⟨0, 3⟩], 1), ([⟨2, 2⟩, ⟨0, 3⟩], 2)]
        (sliceSet [4, 3] id).init := by decide +kernel
    exact Machine.exists_reaches _ hmeets (by decide +kernel)
  rcases hrun with ⟨state, hreached, hstate⟩
  refine ⟨state, hreached, of_decide_eq_true hstate, ?_⟩
  exact (registered_slices_found hshape (fun _ => List.Perm.refl _) hreached).2 _
    (by decide +kernel)

/-- A slice whose start and length do not fit together in 64 bits is registered outside of the
shape. -/
theorem wrapped_slice_registered :
    ∃ state : RegisteredSlices ℕ, (sliceSet [4] id).Reaches Machine.Unguarded state ∧
      ∃ (slice : TensorSlice) (next : TensorSliceSet ℕ), ShapeOk [4] ∧
        (∀ extent ∈ slice, ExtentOk extent) ∧ ¬Within [4] slice ∧
        state.set.register id slice 0 = some (none, next) := by
  refine ⟨_, .init, [⟨2 ^ 63 - 1, 1⟩], _, ⟨by decide, by decide, by decide⟩, by decide, ?_, rfl⟩
  intro hwithin
  rcases hwithin with _ | ⟨hfits, -⟩
  rcases hfits with hfull | hfits
  · exact absurd hfull (by decide)
  · exact absurd hfits.2.2 (by decide)

end ContainerScheduler.Analysis
