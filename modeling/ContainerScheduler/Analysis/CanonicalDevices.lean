/-
# Canonical device names

What is printed is parsed back, and every spelling of a device is completed to its full name.
-/

import ContainerScheduler.Analysis.DeviceNames

namespace ContainerScheduler.Analysis

open Devices.DeviceNameUtils
open Devices.DeviceNameUtils.Parse
open Strings

/-! ## Local names -/

theorem parseLocalName_append {type digits : List UInt8} (htype : isJobName type = true)
    (hdigits : IsNumber digits) :
    parseLocalName (type ++ (ascii ":" ++ digits)) = if decimal digits < 2 ^ 64 then
      some { hasType := true, type, hasId := true, id := numberOf digits } else none := by
  have hname : consumeDeviceType (type ++ (ascii ":" ++ digits)) =
      some (type, ascii ":" ++ digits) :=
    consumeName_append htype (by simp [ascii]) fun c hc => by
      obtain rfl : 58 = c := Option.some.inj hc
      decide
  have hnumber := @consumeNumber_append digits [] hdigits (fun c hc => by cases hc)
  rw [List.append_nil] at hnumber
  rw [parseLocalName, hname, Option.bind_some, consumeText_append, Option.bind_some, hnumber]
  split_ifs
  · rfl
  · rfl

theorem parseLocalName_sound {name : List UInt8} {p : ParsedName}
    (hp : parseLocalName name = some p) : ∃ type digits, isJobName type = true ∧ IsNumber digits ∧
      name = type ++ (ascii ":" ++ digits) := by
  obtain ⟨type, htype, hp⟩ := Option.bind_eq_some_iff.mp hp
  obtain ⟨rest, hrest, hp⟩ := Option.bind_eq_some_iff.mp hp
  obtain ⟨id, hid, hp⟩ := Option.bind_eq_some_iff.mp hp
  obtain ⟨hvalid, hname⟩ := consumeName_sound htype (by simp [ascii, isAlpha])
  obtain ⟨digits, hdigits, hafter⟩ := consumeNumber_sound hid
  split_ifs at hp with hend
  refine ⟨type.1, digits, hvalid, hdigits, ?_⟩
  rw [hname, length_consumeText hrest, hafter, hend, List.append_nil]

/-- A list of fields is no local name. -/
theorem parseLocalName_spellAll (fields : List DeviceField) :
    parseLocalName (spellAll fields) = none := by
  have hhead : (spellAll fields).head?.any isAlpha = false := by
    cases hfirst : (spellAll fields).head? with
    | none => rfl
    | some c =>
        obtain rfl := behindField_spellAll fields c hfirst
        decide
  rw [parseLocalName, consumeDeviceType, consumeName, hhead]
  rfl

/-! ## Canonical names -/

def FullySpecified (p : ParsedName) : Prop :=
  (p.hasJob && p.hasReplica && p.hasTask && p.hasType && p.hasId) = true

theorem onlyFields_of_fullySpecified {p : ParsedName} (hp : FullySpecified p) :
    onlyFields p = p := by
  obtain ⟨hasJob, job, hasReplica, replica, hasTask, task, hasType, type, hasId, id⟩ := p
  simp only [FullySpecified, Bool.and_eq_true] at hp
  obtain ⟨⟨⟨⟨rfl, rfl⟩, rfl⟩, rfl⟩, rfl⟩ := hp
  rfl

theorem fullySpecified_completeName (base p : ParsedName) : FullySpecified (completeName base p) :=
  rfl

theorem completeName_of_fullySpecified {base p : ParsedName} (hp : FullySpecified p) :
    completeName base p = p := by
  obtain ⟨hasJob, job, hasReplica, replica, hasTask, task, hasType, type, hasId, id⟩ := p
  simp only [FullySpecified, Bool.and_eq_true] at hp
  obtain ⟨⟨⟨⟨rfl, rfl⟩, rfl⟩, rfl⟩, rfl⟩ := hp
  rfl

section Canonical

variable {fullname basename : List UInt8} {base p : ParsedName}

theorem canonicalizeDeviceName_eq (hbase : parseFullName basename = some base)
    (hfull : FullySpecified base) :
    canonicalizeDeviceName fullname basename =
      match (parseLocalName fullname).or (parseFullName fullname) with
      | some p => .ok (parsedNameToString (completeName base p))
      | none => .error (.fullname fullname) := by
  rw [canonicalizeDeviceName, hbase]
  simp only [show (base.hasJob && base.hasReplica && base.hasTask && base.hasType && base.hasId) =
    true from hfull]
  cases parseLocalName fullname with
  | some p => rfl
  | none => cases parseFullName fullname <;> rfl

/-- A full name is canonical. -/
theorem canonicalizeDeviceName_printed (hbase : parseFullName basename = some base)
    (hfull : FullySpecified base) (hp : Spellable p) :
    canonicalizeDeviceName (parsedNameToString p) basename =
      .ok (parsedNameToString (completeName base (onlyFields p))) := by
  have hlocal : parseLocalName (parsedNameToString p) = none := by
    rw [← spellAll_printedFields]
    exact parseLocalName_spellAll _
  rw [canonicalizeDeviceName_eq hbase hfull, hlocal, hp.parseFullName]
  rfl

/-- Names that are valid and numbers that are not negative, where they are there. -/
structure Proper (p : ParsedName) : Prop where
  job : p.hasJob = true → isJobName p.job = true
  type : p.hasType = true → isJobName p.type = true
  numbers : ∀ (number : NumberField) (i : Int32), number.stored p = some i → 0 ≤ i

theorem Spellable.completeName (hbase : Proper base) (hfull : FullySpecified base)
    (hp : Proper p) : Spellable (completeName base p) := by
  simp only [FullySpecified, Bool.and_eq_true] at hfull
  obtain ⟨⟨⟨⟨hjob, hreplica⟩, htask⟩, htype⟩, hid⟩ := hfull
  have hname : ∀ {has : Bool} {name other : List UInt8}, (has = true → isJobName name = true) →
      isJobName other = true → isJobName (if has then name else other) = true := by
    intro has name other hgood hother
    cases has
    · exact hother
    · exact hgood rfl
  have hnumber : ∀ {has : Bool} {i j : Int32},
      (∀ k, (if has then some i else none) = some k → 0 ≤ k) → 0 ≤ j →
      0 ≤ if has then i else j := by
    intro has i j hgood hj
    cases has
    · exact hj
    · exact hgood i rfl
  exact {
    job := fun _ => hname hp.job (hbase.job hjob)
    replica := fun _ => hnumber (hp.numbers .replica) (hbase.numbers .replica _ (if_pos hreplica))
    task := fun _ => hnumber (hp.numbers .task) (hbase.numbers .task _ (if_pos htask))
    type := fun _ => hname hp.type (hbase.type htype)
    id := fun _ => ⟨rfl, hnumber (hp.numbers .id) (hbase.numbers .id _ (if_pos hid))⟩ }

theorem canonicalizeDeviceName_idempotent {name : List UInt8}
    (hbase : parseFullName basename = some base) (hfull : FullySpecified base)
    (hproper : Proper base)
    (hread : ∀ p, (parseLocalName fullname).or (parseFullName fullname) = some p → Proper p)
    (hname : canonicalizeDeviceName fullname basename = .ok name) :
    canonicalizeDeviceName name basename = .ok name := by
  rw [canonicalizeDeviceName_eq hbase hfull] at hname
  cases hp : (parseLocalName fullname).or (parseFullName fullname) with
  | none =>
      rw [hp] at hname
      cases hname
  | some p =>
      rw [hp] at hname
      obtain rfl := Except.ok.inj hname
      have hcomplete := fullySpecified_completeName base p
      rw [canonicalizeDeviceName_printed hbase hfull (.completeName hproper hfull (hread p hp)),
        onlyFields_of_fullySpecified hcomplete, completeName_of_fullySpecified hcomplete]

theorem numberOf_nonneg {digits : List UInt8} (hfits : decimal digits < 2 ^ 31) :
    0 ≤ numberOf digits := by
  refine Int32.le_iff_toInt_le.mpr ?_
  rw [toInt_numberOf_iff.mpr hfits]
  exact Int.natCast_nonneg _

/-- The names that a field stores are valid. -/
def ProperNames (p : ParsedName) : Prop :=
  (p.hasJob = true → isJobName p.job = true) ∧ (p.hasType = true → isJobName p.type = true)

theorem ProperNames.store {f : DeviceField} (hp : ProperNames p) (hvalid : f.Valid) :
    ProperNames (f.store p) := by
  obtain ⟨hjob, htype⟩ := hp
  cases f with
  | job name =>
      refine ⟨fun hhas => ?_, htype⟩
      obtain ⟨name, rfl⟩ := Option.isSome_iff_exists.mp hhas
      exact hvalid.name name rfl
  | replica | task => exact ⟨hjob, htype⟩
  | device type id =>
      refine ⟨hjob, fun hhas => ?_⟩
      obtain ⟨type, rfl⟩ := Option.isSome_iff_exists.mp hhas
      exact hvalid.name type rfl
  | cpu upper id | gpu upper id =>
      exact ⟨hjob, fun _ => show isJobName (ascii _) = true by decide⟩

theorem ProperNames.foldl {fields : List DeviceField} (hp : ProperNames p)
    (hvalid : ∀ f ∈ fields, f.Valid) :
    ProperNames (fields.foldl (fun p f => f.store p) p) := by
  induction fields generalizing p with
  | nil => exact hp
  | cons f fields ih =>
      obtain ⟨hf, hfields⟩ := List.forall_mem_cons.mp hvalid
      exact ih (hp.store hf) hfields

/-- The numbers in a name are not greater than an `int`, however it is read. -/
structure NumbersFit (fullname : List UInt8) : Prop where
  fields : ∀ fields, (∀ f ∈ fields, f.Valid) → fullname = spellAll fields → LastFits fields
  localName : ∀ type digits, isJobName type = true → IsNumber digits →
    fullname = type ++ (ascii ":" ++ digits) → decimal digits < 2 ^ 31

theorem NumbersFit.proper (hfits : NumbersFit fullname) (hp : parseFullName fullname = some p) :
    Proper p := by
  have hnames : ProperNames {} := ⟨nofun, nofun⟩
  rcases parseFullName_sound hp with rfl | ⟨fields, hvalid, rfl⟩
  · obtain rfl := Option.some.inj hp
    exact ⟨hnames.1, hnames.2, fun number i hi => by cases number <;> cases hi⟩
  · rw [parseFullName_spellAll hvalid, storeAll] at hp
    split_ifs at hp
    obtain rfl := Option.some.inj hp
    obtain ⟨hjob, htype⟩ := hnames.foldl hvalid
    refine ⟨hjob, htype, fun number i hi => ?_⟩
    rw [number.stored_foldl] at hi
    obtain ⟨digits, hdigits, rfl⟩ := Option.map_eq_some_iff.mp hi
    exact numberOf_nonneg (hfits.fields fields hvalid rfl number digits hdigits)

theorem NumbersFit.proper_local (hfits : NumbersFit fullname)
    (hp : parseLocalName fullname = some p) : Proper p := by
  obtain ⟨type, digits, htype, hdigits, rfl⟩ := parseLocalName_sound hp
  rw [parseLocalName_append htype hdigits] at hp
  split_ifs at hp
  obtain rfl := Option.some.inj hp
  refine ⟨nofun, fun _ => htype, fun number i hi => ?_⟩
  cases number with
  | replica | task => cases hi
  | id =>
      obtain rfl : numberOf digits = i := Option.some.inj hi
      exact numberOf_nonneg (hfits.localName type digits htype hdigits rfl)

theorem NumbersFit.proper_either (hfits : NumbersFit fullname)
    (hp : (parseLocalName fullname).or (parseFullName fullname) = some p) : Proper p := by
  rcases Option.or_eq_some_iff.mp hp with hlocal | ⟨-, hname⟩
  · exact hfits.proper_local hlocal
  · exact hfits.proper hname

end Canonical

/-! ## Devices -/

structure NamedDevice where
  job : List UInt8
  replica : Int32
  task : Int32
  type : List UInt8
  id : Int32
  job_valid : isJobName job = true
  replica_nonneg : 0 ≤ replica
  task_nonneg : 0 ≤ task
  type_valid : isJobName type = true
  id_nonneg : 0 ≤ id

namespace NamedDevice

variable (d : NamedDevice)

def parsed : ParsedName where
  hasJob := true
  job := d.job
  hasReplica := true
  replica := d.replica
  hasTask := true
  task := d.task
  hasType := true
  type := d.type
  hasId := true
  id := d.id

def name : Option (List UInt8) := fullName d.job d.replica d.task d.type d.id

theorem spellable : Spellable d.parsed :=
  ⟨fun _ => d.job_valid, fun _ => d.replica_nonneg, fun _ => d.task_nonneg, fun _ => d.type_valid,
    fun _ => ⟨rfl, d.id_nonneg⟩⟩

theorem name_eq : d.name = some (parsedNameToString d.parsed) := by
  have htype : d.type ≠ [] := by
    intro hnil
    have hvalid := d.type_valid
    rw [hnil] at hvalid
    cases hvalid
  rw [name, fullName, deviceName,
    if_pos ⟨d.job_valid, d.replica_nonneg, d.task_nonneg, htype, d.id_nonneg⟩]
  simp only [parsedNameToString, parsed, if_true, List.append_assoc]

/-- A name with the type and the id of the device, and with no other field than its own. -/
structure Names (pn : ParsedName) : Prop where
  job : pn.hasJob = true → pn.job = d.job
  replica : pn.hasReplica = true → pn.replica = d.replica
  task : pn.hasTask = true → pn.task = d.task
  hasType : pn.hasType = true
  type : pn.type = d.type
  hasId : pn.hasId = true
  id : pn.id = d.id

inductive Spelling : List UInt8 → Prop
  | full {name : List UInt8} (hname : d.name = some name) : Spelling name
  | printed (pn : ParsedName) (hpn : d.Names pn) : Spelling (parsedNameToString pn)
  | legacy : Spelling (legacyLocalName d.type d.id)

variable {d}

theorem Names.spellable {pn : ParsedName} (hpn : d.Names pn) : Spellable pn where
  job hhas := hpn.job hhas ▸ d.job_valid
  replica hhas := hpn.replica hhas ▸ d.replica_nonneg
  task hhas := hpn.task hhas ▸ d.task_nonneg
  type _ := hpn.type ▸ d.type_valid
  id _ := ⟨hpn.hasType, hpn.id ▸ d.id_nonneg⟩

theorem Names.completeName {base pn : ParsedName} (hpn : d.Names pn) (hjob : base.job = d.job)
    (hreplica : base.replica = d.replica) (htask : base.task = d.task) :
    completeName base pn = d.parsed := by
  have hvalue : ∀ {β : Type} {has : Bool} {value other own : β}, (has = true → value = own) →
      other = own → (if has then value else other) = own := by
    intro β has value other own hown hother
    cases has
    · exact hother
    · exact hown rfl
  rw [Devices.DeviceNameUtils.completeName, parsed, hvalue hpn.job hjob,
    hvalue hpn.replica hreplica, hvalue hpn.task htask, if_pos hpn.hasType, hpn.type,
    if_pos hpn.hasId, hpn.id]

theorem Names.onlyFields {pn : ParsedName} (hpn : d.Names pn) : d.Names (onlyFields pn) where
  job hhas := (if_pos hhas).trans (hpn.job hhas)
  replica hhas := (if_pos hhas).trans (hpn.replica hhas)
  task hhas := (if_pos hhas).trans (hpn.task hhas)
  hasType := hpn.hasType
  type := (if_pos hpn.hasType).trans hpn.type
  hasId := hpn.hasId
  id := (if_pos hpn.hasId).trans hpn.id

variable (d)

theorem names_parsed : d.Names d.parsed :=
  ⟨fun _ => rfl, fun _ => rfl, fun _ => rfl, rfl, rfl, rfl, rfl⟩

theorem parseLocalName_legacy : parseLocalName (legacyLocalName d.type d.id) =
    some { hasType := true, type := d.type, hasId := true, id := d.id } := by
  have hlt := decimal_alphaNum_lt d.id_nonneg
  rw [legacyLocalName, List.append_assoc,
    parseLocalName_append d.type_valid (alphaNum_spec d.id_nonneg).1, if_pos (by omega),
    numberOf_alphaNum d.id_nonneg]

/-- Every spelling is completed to the full name. -/
theorem canonicalize_spelling {basename spelling : List UInt8} {base : ParsedName}
    (hbase : parseFullName basename = some base) (hfull : FullySpecified base)
    (hjob : base.job = d.job) (hreplica : base.replica = d.replica) (htask : base.task = d.task)
    (hspelling : d.Spelling spelling) :
    canonicalizeDeviceName spelling basename = .ok (parsedNameToString d.parsed) := by
  have hprinted : ∀ pn, d.Names pn → canonicalizeDeviceName (parsedNameToString pn) basename =
      .ok (parsedNameToString d.parsed) := by
    intro pn hpn
    rw [canonicalizeDeviceName_printed hbase hfull hpn.spellable,
      hpn.onlyFields.completeName hjob hreplica htask]
  cases hspelling with
  | full hname =>
      obtain rfl := Option.some.inj (d.name_eq.symm.trans hname)
      exact hprinted d.parsed d.names_parsed
  | printed pn hpn => exact hprinted pn hpn
  | legacy =>
      have hnames : d.Names { hasType := true, type := d.type, hasId := true, id := d.id } :=
        ⟨nofun, nofun, nofun, rfl, rfl, rfl, rfl⟩
      rw [canonicalizeDeviceName_eq hbase hfull, d.parseLocalName_legacy]
      exact congrArg (fun pn => Except.ok (parsedNameToString pn))
        (hnames.completeName hjob hreplica htask)

/-- The name that is printed is parsed back, and every spelling is completed to it. -/
structure Denoted : Prop where
  full : ∃ name, d.name = some name ∧ name = parsedNameToString d.parsed ∧
    parseFullName name = some d.parsed
  legacy : parseLocalName (legacyLocalName d.type d.id) =
    some { hasType := true, type := d.type, hasId := true, id := d.id }
  canonical : ∀ basename base, parseFullName basename = some base → FullySpecified base →
    base.job = d.job → base.replica = d.replica → base.task = d.task →
      ∃ name, d.name = some name ∧ canonicalizeDeviceName name basename = .ok name ∧
        ∀ spelling, d.Spelling spelling → canonicalizeDeviceName spelling basename = .ok name

theorem denoted : d.Denoted := by
  refine ⟨⟨_, d.name_eq, rfl, ?_⟩, d.parseLocalName_legacy, ?_⟩
  · rw [d.spellable.parseFullName, onlyFields_of_fullySpecified (show FullySpecified d.parsed from rfl)]
  · intro basename base hbase hfull hjob hreplica htask
    have hcanonical : ∀ spelling, d.Spelling spelling → canonicalizeDeviceName spelling basename =
        .ok (parsedNameToString d.parsed) :=
      fun _ => d.canonicalize_spelling hbase hfull hjob hreplica htask
    exact ⟨_, d.name_eq, hcanonical _ (.full d.name_eq), hcanonical⟩

end NamedDevice

/-- What is printed is parsed back and made canonical. The numbers that are stored are those that
were written last if and only if these are at most the greatest `int`, and then names with other
numbers are other devices. -/
theorem device_names_denote (d : NamedDevice) :
    d.Denoted ∧
    (∀ pn, Spellable pn →
      ∃ p, parseFullName (parsedNameToString pn) = some p ∧ p.same pn = true) ∧
    (∀ basename base fullname name, parseFullName basename = some base → FullySpecified base →
      NumbersFit basename → NumbersFit fullname →
      canonicalizeDeviceName fullname basename = .ok name →
      canonicalizeDeviceName name basename = .ok name) ∧
    (∀ fullname p, parseFullName fullname = some p → (fullname = ascii "/" ∧ p = {}) ∨
      ∃ fields, (∀ f ∈ fields, f.Valid) ∧ fullname = spellAll fields) ∧
    (∀ fields p, (∀ f ∈ fields, f.Valid) → parseFullName (spellAll fields) = some p →
      (StoresLast fields p ↔ LastFits fields)) ∧
    ∀ fields others p q, (∀ f ∈ fields, f.Valid) → (∀ f ∈ others, f.Valid) →
      parseFullName (spellAll fields) = some p → parseFullName (spellAll others) = some q →
      LastFits fields → LastFits others → p.same q = true → ∀ number : NumberField,
        (number.lastWritten fields).map decimal = (number.lastWritten others).map decimal := by
  refine ⟨d.denoted, fun pn hpn => ⟨_, hpn.parseFullName, same_onlyFields pn⟩, ?_, ?_,
    fun fields p hvalid hp => storesLast_iff hvalid hp,
    fun fields others p q hvalid hothers hp hq => lastWritten_of_same hvalid hothers hp hq⟩
  · intro basename base fullname name hbase hfull hbasename hfullname hname
    exact canonicalizeDeviceName_idempotent hbase hfull (hbasename.proper hbase)
      (fun p hp => hfullname.proper_either hp) hname
  · intro fullname p hp
    rcases parseFullName_sound hp with rfl | hfields
    · exact .inl ⟨rfl, (Option.some.inj hp).symm⟩
    · exact .inr hfields

/-- Two numbers that are taken for the same replica. -/
theorem replica_wraps :
    let fields := [DeviceField.replica (some (ascii "4294967296"))]
    let others := [DeviceField.replica (some (ascii "0"))]
    spellAll fields = ascii "/replica:4294967296" ∧ spellAll others = ascii "/replica:0" ∧
      ∃ p, parseFullName (ascii "/replica:4294967296") = some p ∧
        parseFullName (ascii "/replica:0") = some p ∧ NumberField.replica.stored p = some 0 ∧
        (NumberField.replica.lastWritten fields).map decimal = some (2 ^ 32) ∧
        (NumberField.replica.lastWritten others).map decimal = some 0 := by
  intro fields others
  have hvalid : ∀ digits, IsNumber digits →
      ∀ f ∈ [DeviceField.replica (some digits)], f.Valid := by
    intro digits hdigits f hf
    obtain rfl := List.mem_singleton.mp hf
    exact .ofDigits rfl fun d hd => Option.some.inj hd ▸ hdigits
  have hfields := parseFullName_spellAll
    (hvalid (ascii "4294967296") ⟨by decide, by simp [ascii, isDigit]⟩)
  have hothers := parseFullName_spellAll (hvalid (ascii "0") ⟨by decide, by simp [ascii, isDigit]⟩)
  refine ⟨rfl, rfl, { hasReplica := true }, hfields.trans ?_, hothers.trans ?_, rfl, ?_, ?_⟩
  · decide
  · decide
  · decide
  · decide

end ContainerScheduler.Analysis
