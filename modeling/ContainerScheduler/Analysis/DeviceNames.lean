/-
# Device names

A name that is accepted is a list of fields. What is stored for a field is what was written last,
up to the conversion of numbers to `int`.
-/

import ContainerScheduler.Analysis.DeviceFields

namespace ContainerScheduler.Analysis

open Devices.DeviceNameUtils
open Devices.DeviceNameUtils.Parse
open Strings

/-! ## What is read -/

section Reading

variable {s t : Parse} {rest fieldPrefix : List UInt8}

theorem consumeDigits_sound {v : ℕ} {str : List UInt8} {result : ℕ × List UInt8}
    (hresult : consumeDigits v str = some result) :
    ∃ digits, (∀ c ∈ digits, isDigit c = true) ∧ str = digits ++ result.2 := by
  induction str generalizing v with
  | nil =>
      obtain rfl := Option.some.inj hresult
      exact ⟨[], List.forall_mem_nil _, rfl⟩
  | cons c str ih =>
      rw [consumeDigits] at hresult
      by_cases hdigit : isDigit c = true
      · simp only [if_pos hdigit] at hresult
        split_ifs at hresult
        obtain ⟨digits, hdigits, hstr⟩ := ih hresult
        exact ⟨c :: digits, List.forall_mem_cons.mpr ⟨hdigit, hdigits⟩, congrArg (c :: ·) hstr⟩
      · rw [if_neg hdigit] at hresult
        obtain rfl := Option.some.inj hresult
        exact ⟨[], List.forall_mem_nil _, rfl⟩

theorem consumeNumber_sound {str : List UInt8} {result : Int32 × List UInt8}
    (hresult : consumeNumber str = some result) :
    ∃ digits, IsNumber digits ∧ str = digits ++ result.2 := by
  obtain ⟨number, hnumber, rfl⟩ := Option.map_eq_some_iff.mp hresult
  obtain ⟨hnumber, hlt⟩ := Option.filter_eq_some_iff.mp hnumber
  obtain ⟨digits, hdigits, hstr⟩ := consumeDigits_sound hnumber
  refine ⟨digits, ⟨?_, hdigits⟩, hstr⟩
  rintro rfl
  rw [hstr] at hlt
  exact absurd (of_decide_eq_true hlt) (Nat.lt_irrefl _)

theorem consumeName_sound {terminators str : List UInt8} {result : List UInt8 × List UInt8}
    (hresult : consumeName terminators str = some result)
    (hterminators : ∀ c ∈ terminators, isAlpha c = false) :
    isJobName result.1 = true ∧ str = result.1 ++ result.2 := by
  rw [consumeName] at hresult
  split_ifs at hresult with hhead hall
  obtain rfl := Option.some.inj hresult
  rw [Bool.not_eq_true', Bool.not_eq_false] at hhead hall
  refine ⟨?_, (List.takeWhile_append_dropWhile ..).symm⟩
  rw [isJobName, hall, Bool.and_true]
  cases str with
  | nil => cases hhead
  | cons c str =>
      have halpha : isAlpha c = true := hhead
      have hstays : (!terminators.contains c) = true := by
        rw [Bool.not_eq_true', ← Bool.not_eq_true, List.contains_iff_mem]
        exact fun hmem => Bool.false_ne_true ((hterminators c hmem).symm.trans halpha)
      rw [List.takeWhile_cons_of_pos (p := fun c => !terminators.contains c) hstays]
      exact halpha

theorem parseValue_sound {β : Type} {consume : List UInt8 → Option (β × List UInt8)}
    {store : Option β → ParsedName → ParsedName} {Good : List UInt8 → Prop}
    (hconsume : ∀ str result, consume str = some result →
      ∃ value, Good value ∧ str = value ++ result.2)
    (hlead : consumeText fieldPrefix s.fullname = some rest)
    (ht : s.parseValue consume fieldPrefix store = some t) :
    ∃ value : Option (List UInt8), (∀ v ∈ value, Good v) ∧
      s.fullname = fieldPrefix ++ orStar value ++ t.fullname := by
  rw [parseValue] at ht
  simp only [hlead] at ht
  have hs := length_consumeText hlead
  cases hstar : consumeText (ascii "*") rest with
  | some after =>
      rw [hstar] at ht
      obtain rfl := Option.some.inj ht
      refine ⟨none, (fun _ hv => by cases hv), ?_⟩
      rw [hs, length_consumeText hstar, List.append_assoc]
      rfl
  | none =>
      rw [hstar] at ht
      obtain ⟨result, hresult, rfl⟩ := Option.map_eq_some_iff.mp ht
      obtain ⟨value, hgood, hrest⟩ := hconsume rest result hresult
      refine ⟨some value, fun v hv => Option.some.inj hv ▸ hgood, ?_⟩
      rw [hs, hrest, List.append_assoc]
      rfl

/-- Fields are read between two states. -/
def ReadsFields (s t : Parse) : Prop :=
  ∃ fields, (∀ f ∈ fields, f.Valid) ∧ s.fullname = spellAll fields ++ t.fullname

theorem ReadsFields.refl (s : Parse) : ReadsFields s s := ⟨[], List.forall_mem_nil _, rfl⟩

theorem ReadsFields.trans {u : Parse} (hfirst : ReadsFields s t) (hsecond : ReadsFields t u) :
    ReadsFields s u := by
  obtain ⟨before, hbefore, hs⟩ := hfirst
  obtain ⟨after, hafter, ht⟩ := hsecond
  refine ⟨before ++ after, List.forall_mem_append.mpr ⟨hbefore, hafter⟩, ?_⟩
  rw [hs, ht, spellAll, spellAll, spellAll, List.flatMap_append, List.append_assoc]

theorem DeviceField.Valid.readsFields {f : DeviceField} (hvalid : f.Valid)
    (hs : s.fullname = f.spell ++ t.fullname) : ReadsFields s t := by
  refine ⟨[f], List.forall_mem_singleton.mpr hvalid, ?_⟩
  rw [hs, spellAll, List.flatMap_singleton]

theorem DeviceField.Valid.ofDigits {f : DeviceField} (hname : f.nameWritten = none)
    (hdigits : ∀ d, f.digitsWritten = some d → IsNumber d) : f.Valid := by
  refine ⟨fun name hwritten => ?_, hdigits⟩
  rw [hname] at hwritten
  cases hwritten

theorem readsFields_parseValue {β : Type} {consume : List UInt8 → Option (β × List UInt8)}
    {store : Option β → ParsedName → ParsedName} {Good : List UInt8 → Prop}
    (f : Option (List UInt8) → DeviceField)
    (hconsume : ∀ str result, consume str = some result →
      ∃ value, Good value ∧ str = value ++ result.2)
    (hvalid : ∀ value, (∀ v ∈ value, Good v) → (f value).Valid)
    (hspell : ∀ value, (f value).spell = fieldPrefix ++ orStar value)
    (ht : s.parseValue consume fieldPrefix store = some t) : ReadsFields s t := by
  cases hlead : consumeText fieldPrefix s.fullname with
  | none =>
      rw [parseValue, hlead] at ht
      obtain rfl := Option.some.inj ht
      exact .refl s
  | some rest =>
      obtain ⟨value, hgood, hs⟩ := parseValue_sound hconsume hlead ht
      exact (hvalid value hgood).readsFields (hs.trans (hspell value ▸ rfl))

theorem consumeName_value {terminators str : List UInt8} {result : List UInt8 × List UInt8}
    (hterminators : ∀ c ∈ terminators, isAlpha c = false)
    (hresult : consumeName terminators str = some result) :
    ∃ name, isJobName name = true ∧ str = name ++ result.2 :=
  ⟨result.1, consumeName_sound hresult hterminators⟩

theorem readsFields_parseDevice (ht : s.parseDevice = some t) : ReadsFields s t := by
  rw [parseDevice] at ht
  cases hlead : consumeText (ascii "/device:") s.fullname with
  | none =>
      rw [hlead] at ht
      obtain rfl := Option.some.inj ht
      exact .refl s
  | some rest =>
      rw [hlead] at ht
      obtain ⟨middle, hmiddle, hid⟩ := Option.bind_eq_some_iff.mp ht
      obtain ⟨type, htype, hs⟩ := parseValue_sound
        (fun _ _ => consumeName_value (by simp [ascii, isAlpha])) hlead hmiddle
      rw [parseDeviceId] at hid
      cases hcolon : consumeText (ascii ":") middle.fullname with
      | none =>
          rw [hcolon] at hid
          obtain rfl := Option.some.inj hid
          refine @DeviceField.Valid.readsFields _ _ (.device type none)
            ⟨htype, fun _ hd => by cases hd⟩ (hs.trans ?_)
          rw [DeviceField.spell, Option.map_none, Option.getD_none, List.append_nil]
      | some after =>
          rw [hcolon] at hid
          obtain ⟨id, hnumber, hmiddle⟩ := parseValue_sound
            (fun _ _ => consumeNumber_sound) hcolon hid
          refine @DeviceField.Valid.readsFields _ _ (.device type (some id)) ⟨htype, hnumber⟩
            (hs.trans ?_)
          rw [hmiddle, DeviceField.spell, Option.map_some, Option.getD_some]
          simp only [List.append_assoc]

theorem readsFields_parseLegacy {lower upper type : List UInt8}
    (f : Bool → Option (List UInt8) → DeviceField)
    (hvalid : ∀ upper id, (∀ d ∈ id, IsNumber d) → (f upper id).Valid)
    (hlower : ∀ id, (f false id).spell = lower ++ orStar id)
    (hupper : ∀ id, (f true id).spell = upper ++ orStar id)
    (ht : s.parseLegacy lower upper type = some t) : ReadsFields s t := by
  rw [parseLegacy] at ht
  cases hlead : consumeText lower s.fullname with
  | none =>
      rw [hlead] at ht
      exact readsFields_parseValue (f true) (fun _ _ => consumeNumber_sound) (hvalid true) hupper ht
  | some rest =>
      rw [hlead] at ht
      exact readsFields_parseValue (f false) (fun _ _ => consumeNumber_sound) (hvalid false) hlower
        ht

theorem readsFields_parseFields (ht : s.parseFields = some t) : ReadsFields s t := by
  obtain ⟨afterJob, hjob, ht⟩ := Option.bind_eq_some_iff.mp ht
  obtain ⟨afterReplica, hreplica, ht⟩ := Option.bind_eq_some_iff.mp ht
  obtain ⟨afterTask, htask, ht⟩ := Option.bind_eq_some_iff.mp ht
  obtain ⟨afterDevice, hdevice, ht⟩ := Option.bind_eq_some_iff.mp ht
  obtain ⟨afterCpu, hcpu, hgpu⟩ := Option.bind_eq_some_iff.mp ht
  have hconsume : ∀ str result, consumeJobName str = some result →
      ∃ name, isJobName name = true ∧ str = name ++ result.2 :=
    fun _ _ => consumeName_value (by simp [ascii, isAlpha])
  have hname : ReadsFields { s with progress := false } afterJob :=
    readsFields_parseValue .job hconsume (fun _ hname => ⟨hname, fun _ hd => by cases hd⟩)
      (fun _ => rfl) hjob
  have hnumbers : ReadsFields afterJob afterTask :=
    (readsFields_parseValue .replica (fun _ _ => consumeNumber_sound)
      (fun _ hdigits => .ofDigits rfl hdigits) (fun _ => rfl) hreplica).trans
      (readsFields_parseValue .task (fun _ _ => consumeNumber_sound)
        (fun _ hdigits => .ofDigits rfl hdigits) (fun _ => rfl) htask)
  have hlegacy : ReadsFields afterDevice t :=
    (readsFields_parseLegacy .cpu (fun _ _ hdigits => .ofDigits rfl hdigits)
      (fun _ => rfl) (fun _ => rfl) hcpu).trans
      (readsFields_parseLegacy .gpu (fun _ _ hdigits => .ofDigits rfl hdigits)
        (fun _ => rfl) (fun _ => rfl) hgpu)
  exact hname.trans (hnumbers.trans ((readsFields_parseDevice hdevice).trans hlegacy))

theorem parseLoop_sound {p : ParsedName} (hp : parseLoop s = some p) :
    ∃ fields, (∀ f ∈ fields, f.Valid) ∧ s.fullname = spellAll fields := by
  induction s using parseLoop.induct with
  | case1 s hnil => exact ⟨[], List.forall_mem_nil _, hnil⟩
  | case2 s hne hnone =>
      rw [parseLoop_eq, if_neg hne, hnone] at hp
      cases hp
  | case3 s hne t hsome hprogress ih =>
      rw [parseLoop_eq, if_neg hne, hsome, Option.bind_some, if_pos hprogress] at hp
      obtain ⟨before, hbefore, hs⟩ := readsFields_parseFields hsome
      obtain ⟨after, hafter, ht⟩ := ih hp
      refine ⟨before ++ after, List.forall_mem_append.mpr ⟨hbefore, hafter⟩, ?_⟩
      rw [hs, ht, spellAll, spellAll, spellAll, List.flatMap_append]
  | case4 s hne t hsome hprogress =>
      rw [parseLoop_eq, if_neg hne, hsome, Option.bind_some, if_neg hprogress] at hp
      cases hp

/-- What is accepted is a list of fields, or the name of no field. -/
theorem parseFullName_sound {fullname : List UInt8} {p : ParsedName}
    (hp : parseFullName fullname = some p) :
    fullname = ascii "/" ∨ ∃ fields, (∀ f ∈ fields, f.Valid) ∧ fullname = spellAll fields := by
  rw [parseFullName] at hp
  split_ifs at hp with hroot
  · exact .inl hroot
  · exact .inr (parseLoop_sound hp)

end Reading

/-! ## Numbers that are stored -/

theorem toInt_numberOf_iff {digits : List UInt8} :
    (numberOf digits).toInt = decimal digits ↔ decimal digits < 2 ^ 31 := by
  rw [numberOf, Int32.toInt_ofNat', Int32.size, Int.bmod_def]
  split_ifs <;> omega

inductive NumberField
  | replica
  | task
  | id

namespace NumberField

/-- What a field writes for the number, if it writes this number. -/
def written : NumberField → DeviceField → Option (Option (List UInt8))
  | replica, .replica digits => some digits
  | task, .task digits => some digits
  | id, .device _ digits => some digits.join
  | id, .cpu _ digits => some digits
  | id, .gpu _ digits => some digits
  | _, _ => none

def lastWritten (number : NumberField) (fields : List DeviceField) : Option (List UInt8) :=
  (fields.filterMap number.written).getLast?.join

def stored : NumberField → ParsedName → Option Int32
  | replica, p => if p.hasReplica then some p.replica else none
  | task, p => if p.hasTask then some p.task else none
  | id, p => if p.hasId then some p.id else none

variable (number : NumberField)

theorem stored_store (f : DeviceField) (p : ParsedName) :
    number.stored (f.store p) =
      ((number.written f).map (Option.map numberOf)).getD (number.stored p) := by
  cases number with
  | replica => cases f with
    | replica digits => cases digits <;> rfl
    | job | task | device | cpu | gpu => rfl
  | task => cases f with
    | task digits => cases digits <;> rfl
    | job | replica | device | cpu | gpu => rfl
  | id => cases f with
    | device type digits => rcases digits with _ | (_ | _) <;> rfl
    | cpu upper digits | gpu upper digits => cases digits <;> rfl
    | job | replica | task => rfl

/-- The number that is stored is the one that was written last, if it was written. -/
theorem stored_foldl (fields : List DeviceField) :
    number.stored (fields.foldl (fun p f => f.store p) {}) =
      (number.lastWritten fields).map numberOf := by
  induction fields using List.reverseRecOn with
  | nil => cases number <;> rfl
  | append_singleton fields f ih =>
      rw [List.foldl_append, List.foldl_cons, List.foldl_nil, stored_store, ih, lastWritten,
        lastWritten, List.filterMap_append]
      cases hwritten : number.written f with
      | none => rw [List.filterMap_cons_none hwritten, List.filterMap_nil, List.append_nil]; rfl
      | some digits =>
          rw [List.filterMap_cons_some hwritten, List.filterMap_nil, List.getLast?_concat]
          rfl

end NumberField

/-- The numbers are those that were written last. -/
def StoresLast (fields : List DeviceField) (p : ParsedName) : Prop :=
  ∀ (number : NumberField) (i : Int32), number.stored p = some i →
    ∃ digits ∈ number.lastWritten fields, i.toInt = decimal digits

/-- The numbers that were written last are not greater than an `int`. -/
def LastFits (fields : List DeviceField) : Prop :=
  ∀ number : NumberField, ∀ digits ∈ number.lastWritten fields, decimal digits < 2 ^ 31

theorem storesLast_iff {fields : List DeviceField} {p : ParsedName}
    (hvalid : ∀ f ∈ fields, f.Valid) (hp : parseFullName (spellAll fields) = some p) :
    StoresLast fields p ↔ LastFits fields := by
  rw [parseFullName_spellAll hvalid, storeAll] at hp
  split_ifs at hp
  obtain rfl := Option.some.inj hp
  refine forall_congr' fun number => ?_
  rw [number.stored_foldl]
  cases number.lastWritten fields with
  | none => simp
  | some digits =>
      simp only [Option.map_some, Option.some.injEq, forall_eq', Option.mem_def, exists_eq_left',
        toInt_numberOf_iff]

theorem stored_eq_of_same {p q : ParsedName} (hsame : p.same q = true) (number : NumberField) :
    number.stored p = number.stored q := by
  rw [ParsedName.same] at hsame
  simp only [Bool.and_eq_true] at hsame
  obtain ⟨⟨⟨⟨-, hreplica⟩, htask⟩, -⟩, hid⟩ := hsame
  have hvalue : ∀ {has other : Bool} {i j : Int32},
      (if has then other && i == j else !other) = true →
      (if has then some i else none) = if other then some j else none := by
    intro has other i j heq
    cases has <;> cases other <;> simp_all
  cases number with
  | replica => exact hvalue hreplica
  | task => exact hvalue htask
  | id => exact hvalue hid

/-- Names with other numbers are other devices. -/
theorem lastWritten_of_same {fields others : List DeviceField} {p q : ParsedName}
    (hvalid : ∀ f ∈ fields, f.Valid) (hothers : ∀ f ∈ others, f.Valid)
    (hp : parseFullName (spellAll fields) = some p) (hq : parseFullName (spellAll others) = some q)
    (hfits : LastFits fields) (hothersFit : LastFits others) (hsame : p.same q = true)
    (number : NumberField) :
    (number.lastWritten fields).map decimal = (number.lastWritten others).map decimal := by
  rw [parseFullName_spellAll hvalid, storeAll] at hp
  rw [parseFullName_spellAll hothers, storeAll] at hq
  split_ifs at hp hq
  obtain rfl := Option.some.inj hp
  obtain rfl := Option.some.inj hq
  have hstored := stored_eq_of_same hsame number
  rw [number.stored_foldl, number.stored_foldl] at hstored
  have hnumbers := congrArg (Option.map fun i : Int32 => i.toInt) hstored
  rw [Option.map_map, Option.map_map] at hnumbers
  cases hfirst : number.lastWritten fields with
  | none =>
      rw [hfirst] at hnumbers
      cases hsecond : number.lastWritten others with
      | none => rfl
      | some digits => rw [hsecond] at hnumbers; cases hnumbers
  | some digits =>
      rw [hfirst] at hnumbers
      cases hsecond : number.lastWritten others with
      | none => rw [hsecond] at hnumbers; cases hnumbers
      | some more =>
          rw [hsecond] at hnumbers
          have heq : (numberOf digits).toInt = (numberOf more).toInt := Option.some.inj hnumbers
          rw [toInt_numberOf_iff.mpr (hfits number digits hfirst),
            toInt_numberOf_iff.mpr (hothersFit number more hsecond)] at heq
          exact congrArg some (Int.ofNat.inj heq)

/-! ## Names that are printed -/

theorem alphaNum_spec {i : Int32} (hi : 0 ≤ i) :
    IsNumber (alphaNum i) ∧ (decimal (alphaNum i) : ℤ) = i.toInt := by
  have hnonneg : 0 ≤ i.toInt := Int32.le_iff_toInt_le.mp hi
  have hunsigned := toNat_toUInt32 i
  have hhigh := i.toInt_lt
  have htext : alphaNum i = (writeDigits i.toUInt32.toNat).reverse := by
    have hnot : ¬ i < 0 := fun hneg => absurd (Int32.lt_iff_toInt_lt.mp hneg) (not_lt.mpr hnonneg)
    rw [alphaNum, fastInt32ToBufferLeft, if_neg hnot]
    change List.take (writeDigits _).length ((writeDigits _).reverse ++ [0]) = _
    rw [← List.length_reverse, List.take_left]
  obtain ⟨hdigits, hvalue⟩ := writeDigits_spec i.toUInt32.toNat
  rw [htext, hvalue, hunsigned, Int.emod_eq_of_lt hnonneg (by omega)]
  refine ⟨⟨?_, fun c hc => hdigits c (List.mem_reverse.mp hc)⟩, rfl⟩
  rw [writeDigits]
  exact fun hnil => List.cons_ne_nil _ _ (List.reverse_eq_nil_iff.mp hnil)

theorem decimal_alphaNum_lt {i : Int32} (hi : 0 ≤ i) : decimal (alphaNum i) < 2 ^ 31 := by
  have hvalue := (alphaNum_spec hi).2
  have hhigh := i.toInt_lt
  omega

theorem numberOf_alphaNum {i : Int32} (hi : 0 ≤ i) : numberOf (alphaNum i) = i :=
  Int32.toInt_inj.mp
    ((toInt_numberOf_iff.mpr (decimal_alphaNum_lt hi)).trans (alphaNum_spec hi).2)

/-- What is there has valid names and numbers that are not negative, and an id has a type. -/
structure Spellable (pn : ParsedName) : Prop where
  job : pn.hasJob = true → isJobName pn.job = true
  replica : pn.hasReplica = true → 0 ≤ pn.replica
  task : pn.hasTask = true → 0 ≤ pn.task
  type : pn.hasType = true → isJobName pn.type = true
  id : pn.hasId = true → pn.hasType = true ∧ 0 ≤ pn.id

def fieldIf (has : Bool) (f : DeviceField) : List DeviceField := if has then [f] else []

def printedFields (pn : ParsedName) : List DeviceField :=
  fieldIf pn.hasJob (.job (some pn.job)) ++
    fieldIf pn.hasReplica (.replica (some (alphaNum pn.replica))) ++
    fieldIf pn.hasTask (.task (some (alphaNum pn.task))) ++
    fieldIf pn.hasType
      (.device (some pn.type) (some (if pn.hasId then some (alphaNum pn.id) else none)))

section Printing

variable {pn : ParsedName}

theorem forall_mem_fieldIf {P : DeviceField → Prop} {has : Bool} {f : DeviceField} :
    (∀ g ∈ fieldIf has f, P g) ↔ (has = true → P f) := by
  cases has <;> simp [fieldIf]

theorem forall_mem_printedFields {P : DeviceField → Prop} : (∀ f ∈ printedFields pn, P f) ↔
    (pn.hasJob = true → P (.job (some pn.job))) ∧
      (pn.hasReplica = true → P (.replica (some (alphaNum pn.replica)))) ∧
      (pn.hasTask = true → P (.task (some (alphaNum pn.task)))) ∧
      (pn.hasType = true → P (.device (some pn.type)
        (some (if pn.hasId then some (alphaNum pn.id) else none)))) := by
  simp only [printedFields, List.forall_mem_append, forall_mem_fieldIf, and_assoc]

theorem spellAll_printedFields (pn : ParsedName) :
    spellAll (printedFields pn) = parsedNameToString pn := by
  have hspell : ∀ has f, (fieldIf has f).flatMap DeviceField.spell =
      if has then f.spell else [] := by
    intro has f
    cases has
    · rfl
    · exact List.flatMap_singleton _ _
  have hid : orStar (if pn.hasId then some (alphaNum pn.id) else none) =
      if pn.hasId then alphaNum pn.id else ascii "*" := by
    cases pn.hasId <;> rfl
  simp only [spellAll, printedFields, List.flatMap_append, hspell, DeviceField.spell,
    Option.map_some, Option.getD_some, hid, parsedNameToString, List.append_assoc]
  rfl

theorem valid_number {f : DeviceField} {i : Int32} (hi : 0 ≤ i)
    (hname : f.nameWritten = none) (hdigits : f.digitsWritten = some (alphaNum i)) : f.Valid := by
  refine .ofDigits hname fun d hd => ?_
  obtain rfl := Option.some.inj (hdigits.symm.trans hd)
  exact (alphaNum_spec hi).1

theorem Spellable.valid (hpn : Spellable pn) : ∀ f ∈ printedFields pn, f.Valid := by
  refine forall_mem_printedFields.mpr ⟨fun hjob => ⟨fun name hname => ?_, fun d hd => by cases hd⟩,
    fun hreplica => valid_number (hpn.replica hreplica) rfl rfl,
    fun htask => valid_number (hpn.task htask) rfl rfl,
    fun htype => ⟨fun name hname => ?_, fun d hd => ?_⟩⟩
  · exact Option.some.inj hname ▸ hpn.job hjob
  · exact Option.some.inj hname ▸ hpn.type htype
  · cases hid : pn.hasId with
    | false =>
        rw [hid] at hd
        cases hd
    | true =>
        rw [hid] at hd
        exact Option.some.inj hd ▸ (alphaNum_spec (hpn.id hid).2).1

theorem fits_number {f : DeviceField} {i : Int32} (hi : 0 ≤ i)
    (hdigits : f.digitsWritten = some (alphaNum i)) : f.Fits := by
  intro d hd
  obtain rfl := Option.some.inj (hdigits.symm.trans hd)
  have hlt := decimal_alphaNum_lt hi
  omega

theorem Spellable.fits (hpn : Spellable pn) : ∀ f ∈ printedFields pn, f.Fits := by
  refine forall_mem_printedFields.mpr ⟨fun _ => (fun d hd => by cases hd),
    fun hreplica => fits_number (hpn.replica hreplica) rfl,
    fun htask => fits_number (hpn.task htask) rfl, fun _ => ?_⟩
  cases hid : pn.hasId with
  | false => exact fun d hd => by cases hd
  | true => exact fits_number (hpn.id hid).2 rfl

/-- The fields of a name that are there. -/
def onlyFields (pn : ParsedName) : ParsedName where
  hasJob := pn.hasJob
  job := if pn.hasJob then pn.job else []
  hasReplica := pn.hasReplica
  replica := if pn.hasReplica then pn.replica else 0
  hasTask := pn.hasTask
  task := if pn.hasTask then pn.task else 0
  hasType := pn.hasType
  type := if pn.hasType then pn.type else []
  hasId := pn.hasId
  id := if pn.hasId then pn.id else 0

theorem same_onlyFields (pn : ParsedName) : (onlyFields pn).same pn = true := by
  have hvalue : ∀ {β : Type} [BEq β] [ReflBEq β] (has : Bool) (value other : β),
      (if has then has && (if has then value else other) == value else !has) = true := by
    intro β _ _ has value other
    cases has <;> simp
  rw [ParsedName.same]
  simp only [Bool.and_eq_true]
  exact ⟨⟨⟨⟨hvalue _ _ _, hvalue _ _ _⟩, hvalue _ _ _⟩, hvalue _ _ _⟩, hvalue _ _ _⟩

theorem foldl_fieldIf (has : Bool) (f : DeviceField) (p : ParsedName) :
    (fieldIf has f).foldl (fun p f => f.store p) p = if has then f.store p else p := by
  cases has <;> rfl

theorem Spellable.foldl_printedFields (hpn : Spellable pn) :
    (printedFields pn).foldl (fun p f => f.store p) {} = onlyFields pn := by
  obtain ⟨-, hreplica, htask, -, hid⟩ := hpn
  obtain ⟨hasJob, job, hasReplica, replica, hasTask, task, hasType, type, hasId, id⟩ := pn
  have hnumber : ∀ {has : Bool} {i : Int32}, (has = true → 0 ≤ i) →
      (if has then i else 0) = if has then numberOf (alphaNum i) else 0 := by
    intro has i hi
    cases has with
    | false => rfl
    | true => rw [numberOf_alphaNum (hi rfl)]
  simp only [printedFields, List.foldl_append, foldl_fieldIf, onlyFields, hnumber hreplica,
    hnumber htask, hnumber fun hhas => (hid hhas).2]
  cases hasId with
  | false => cases hasJob <;> cases hasReplica <;> cases hasTask <;> cases hasType <;> rfl
  | true =>
      obtain rfl := (hid rfl).1
      cases hasJob <;> cases hasReplica <;> cases hasTask <;> rfl

theorem Spellable.parseFullName (hpn : Spellable pn) :
    parseFullName (parsedNameToString pn) = some (onlyFields pn) := by
  rw [← spellAll_printedFields, parseFullName_spellAll hpn.valid, storeAll, if_pos hpn.fits,
    hpn.foldl_printedFields]

end Printing

end ContainerScheduler.Analysis
