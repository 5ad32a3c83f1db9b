/-
# Device names

A name is a string of fields in any order, each of which may be written more than once. A number is
read as a `uint64` and stored in an `int`. What a failed call leaves in its output is not kept.
-/

import ContainerScheduler.Strings.Numbers

namespace ContainerScheduler.Devices

open Strings

namespace DeviceNameUtils

/-! ## Parts of strings -/

def ascii (text : String) : List UInt8 := text.toList.map fun c => UInt8.ofNat c.toNat

def isAlpha (c : UInt8) : Bool := (97 ≤ c && c ≤ 122) || (65 ≤ c && c ≤ 90)

def isAlphaNumOrUnderscore (c : UInt8) : Bool := isAlpha c || (48 ≤ c && c ≤ 57) || c == 95

def isJobName (str : List UInt8) : Bool :=
  str.head?.any isAlpha && str.all isAlphaNumOrUnderscore

/-- `absl::ConsumePrefix`: what is left behind the prefix. -/
def consumeText : (expected str : List UInt8) → Option (List UInt8)
  | [], str => some str
  | c :: expected, d :: str => if c = d then consumeText expected str else none
  | _ :: _, [] => none

/-- `ConsumePrefix`: a name up to a terminator, and what is left. -/
def consumeName (prefixTerminators str : List UInt8) : Option (List UInt8 × List UInt8) :=
  if !str.head?.any isAlpha then none
  else if !(str.takeWhile (!prefixTerminators.contains ·)).all isAlphaNumOrUnderscore then none
  else
    some (str.takeWhile (!prefixTerminators.contains ·),
      str.dropWhile (!prefixTerminators.contains ·))

def consumeJobName : List UInt8 → Option (List UInt8 × List UInt8) := consumeName (ascii "/")

def consumeDeviceType : List UInt8 → Option (List UInt8 × List UInt8) := consumeName (ascii "/:")

/-- The loop over the digits, behind the value `v` of those that were read. -/
def consumeDigits : (v : ℕ) → (str : List UInt8) → Option (ℕ × List UInt8)
  | v, [] => some (v, [])
  | v, c :: str =>
      if isDigit c then
        let newV := (v * 10 + (c.toNat - 48)) % 2 ^ 64
        if newV / 8 < v then none else consumeDigits newV str
      else some (v, c :: str)

def consumeLeadingDigits (str : List UInt8) : Option (ℕ × List UInt8) :=
  (consumeDigits 0 str).filter fun result => result.2.length < str.length

/-- A number that is stored in an `int`. -/
def consumeNumber (str : List UInt8) : Option (Int32 × List UInt8) :=
  (consumeLeadingDigits str).map fun result => (Int32.ofNat result.1, result.2)

/-- The text of a number as `StrCat` writes it. -/
def alphaNum (number : Int32) : List UInt8 :=
  (fastInt32ToBufferLeft number).1.take (fastInt32ToBufferLeft number).2

/-! ## Names -/

structure ParsedName where
  hasJob : Bool := false
  job : List UInt8 := []
  hasReplica : Bool := false
  replica : Int32 := 0
  hasTask : Bool := false
  task : Int32 := 0
  hasType : Bool := false
  type : List UInt8 := []
  hasId : Bool := false
  id : Int32 := 0
  deriving DecidableEq

/-- `operator==`, for which the value of a field that is not there does not matter. -/
def ParsedName.same (p other : ParsedName) : Bool :=
  (if p.hasJob then other.hasJob && p.job == other.job else !other.hasJob) &&
    (if p.hasReplica then other.hasReplica && p.replica == other.replica else !other.hasReplica) &&
    (if p.hasTask then other.hasTask && p.task == other.task else !other.hasTask) &&
    (if p.hasType then other.hasType && p.type == other.type else !other.hasType) &&
    (if p.hasId then other.hasId && p.id == other.id else !other.hasId)

/-- No name if a check fails. -/
def deviceName (job : List UInt8) (replica task : Int32) (devicePrefix deviceType : List UInt8)
    (id : Int32) : Option (List UInt8) :=
  if isJobName job ∧ 0 ≤ replica ∧ 0 ≤ task ∧ deviceType ≠ [] ∧ 0 ≤ id then
    some (ascii "/job:" ++ job ++ ascii "/replica:" ++ alphaNum replica ++ ascii "/task:" ++
      alphaNum task ++ devicePrefix ++ deviceType ++ ascii ":" ++ alphaNum id)
  else none

def fullName (job : List UInt8) (replica task : Int32) (type : List UInt8) (id : Int32) :
    Option (List UInt8) := deviceName job replica task (ascii "/device:") type id

def legacyLocalName (type : List UInt8) (id : Int32) : List UInt8 := type ++ ascii ":" ++ alphaNum id

def parsedNameToString (pn : ParsedName) : List UInt8 :=
  (if pn.hasJob then ascii "/job:" ++ pn.job else []) ++
    (if pn.hasReplica then ascii "/replica:" ++ alphaNum pn.replica else []) ++
    (if pn.hasTask then ascii "/task:" ++ alphaNum pn.task else []) ++
    if pn.hasType then
      ascii "/device:" ++ pn.type ++ ascii ":" ++ if pn.hasId then alphaNum pn.id else ascii "*"
    else []

/-! ## Parsing -/

/-- The variables of the loop. -/
structure Parse where
  fullname : List UInt8
  p : ParsedName := {}
  progress : Bool := false

namespace Parse

variable (s : Parse)

/-- A field with a name: a value, or `*` for none. -/
def parseValue {β : Type} (consume : List UInt8 → Option (β × List UInt8))
    (fieldPrefix : List UInt8) (store : Option β → ParsedName → ParsedName) : Option Parse :=
  match consumeText fieldPrefix s.fullname with
  | none => some s
  | some rest =>
      match consumeText (ascii "*") rest with
      | some rest => some ⟨rest, store none s.p, true⟩
      | none => (consume rest).map fun result => ⟨result.2, store (some result.1) s.p, true⟩

def storeJob (job : Option (List UInt8)) (p : ParsedName) : ParsedName :=
  { p with hasJob := job.isSome, job := job.getD p.job }

def storeReplica (replica : Option Int32) (p : ParsedName) : ParsedName :=
  { p with hasReplica := replica.isSome, replica := replica.getD p.replica }

def storeTask (task : Option Int32) (p : ParsedName) : ParsedName :=
  { p with hasTask := task.isSome, task := task.getD p.task }

def storeType (type : Option (List UInt8)) (p : ParsedName) : ParsedName :=
  { p with hasType := type.isSome, type := type.getD p.type }

def storeId (id : Option Int32) (p : ParsedName) : ParsedName :=
  { p with hasId := id.isSome, id := id.getD p.id }

def parseJob : Option Parse := s.parseValue consumeJobName (ascii "/job:") storeJob

def parseReplica : Option Parse := s.parseValue consumeNumber (ascii "/replica:") storeReplica

def parseTask : Option Parse := s.parseValue consumeNumber (ascii "/task:") storeTask

/-- The id of a device, or that there is none. -/
def parseDeviceId : Option Parse :=
  match consumeText (ascii ":") s.fullname with
  | none => some { s with p := storeId none s.p }
  | some _ => s.parseValue consumeNumber (ascii ":") storeId

def parseDevice : Option Parse :=
  match consumeText (ascii "/device:") s.fullname with
  | none => some s
  | some _ => (s.parseValue consumeDeviceType (ascii "/device:") storeType).bind parseDeviceId

/-- Handle legacy naming convention for cpu and gpu. -/
def parseLegacy (lower upper type : List UInt8) : Option Parse :=
  let store := fun id p => storeId id (storeType (some type) p)
  match consumeText lower s.fullname with
  | some _ => s.parseValue consumeNumber lower store
  | none => s.parseValue consumeNumber upper store

def parseCpu : Option Parse := s.parseLegacy (ascii "/cpu:") (ascii "/CPU:") (ascii "CPU")

def parseGpu : Option Parse := s.parseLegacy (ascii "/gpu:") (ascii "/GPU:") (ascii "GPU")

/-- One round of the loop. -/
def parseFields : Option Parse :=
  ({ s with progress := false }.parseJob).bind fun s =>
    s.parseReplica.bind fun s => s.parseTask.bind fun s => s.parseDevice.bind fun s =>
      s.parseCpu.bind parseGpu

/-! ### Progress -/

/-- What is left is not longer, and shorter after progress. -/
structure Shrinks (s t : Parse) : Prop where
  length_le : t.fullname.length ≤ s.fullname.length
  progress : t.progress = true → s.progress = true ∨ t.fullname.length < s.fullname.length

theorem shrinks_refl : Shrinks s s := ⟨Nat.le_refl _, .inl⟩

theorem Shrinks.trans {s t u : Parse} (hfirst : Shrinks s t) (hsecond : Shrinks t u) :
    Shrinks s u := by
  refine ⟨hsecond.length_le.trans hfirst.length_le, fun hprogress => ?_⟩
  rcases hsecond.progress hprogress with hbefore | hlt
  · exact (hfirst.progress hbefore).imp_right fun hlt => hsecond.length_le.trans_lt hlt
  · exact .inr (hlt.trans_le hfirst.length_le)

theorem length_consumeText {expected str rest : List UInt8}
    (hrest : consumeText expected str = some rest) : str = expected ++ rest := by
  induction expected generalizing str with
  | nil =>
      rw [consumeText.eq_def] at hrest
      exact Option.some.inj hrest
  | cons c expected ih =>
      cases str with
      | nil => cases hrest
      | cons d str =>
          rw [consumeText] at hrest
          split_ifs at hrest with heq
          rw [heq, ih hrest, List.cons_append]

theorem shrinks_parseValue {β : Type} {consume : List UInt8 → Option (β × List UInt8)}
    {c : UInt8} {fieldPrefix : List UInt8} {store : Option β → ParsedName → ParsedName} {t : Parse}
    (hconsume : ∀ str result, consume str = some result → result.2.length ≤ str.length)
    (ht : s.parseValue consume (c :: fieldPrefix) store = some t) : Shrinks s t := by
  rw [parseValue] at ht
  cases hlead : consumeText (c :: fieldPrefix) s.fullname with
  | none =>
      rw [hlead] at ht
      obtain rfl := Option.some.inj ht
      exact s.shrinks_refl
  | some rest =>
      have hlength := congrArg List.length (length_consumeText hlead)
      rw [List.length_append, List.length_cons] at hlength
      simp only [hlead] at ht
      have hlt : t.fullname.length < s.fullname.length := by
        cases hstar : consumeText (ascii "*") rest with
        | some after =>
            have hafter := congrArg List.length (length_consumeText hstar)
            rw [List.length_append] at hafter
            rw [hstar] at ht
            obtain rfl := Option.some.inj ht
            change after.length < _
            omega
        | none =>
            rw [hstar] at ht
            obtain ⟨result, hresult, rfl⟩ := Option.map_eq_some_iff.mp ht
            have hle := hconsume rest result hresult
            change result.2.length < _
            omega
      exact ⟨hlt.le, fun _ => .inr hlt⟩

theorem length_consumeName {prefixTerminators str : List UInt8} {result : List UInt8 × List UInt8}
    (hresult : consumeName prefixTerminators str = some result) :
    result.2.length ≤ str.length := by
  rw [consumeName] at hresult
  split_ifs at hresult
  obtain rfl := Option.some.inj hresult
  exact (List.dropWhile_sublist _).length_le

theorem length_consumeNumber {str : List UInt8} {result : Int32 × List UInt8}
    (hresult : consumeNumber str = some result) : result.2.length ≤ str.length := by
  obtain ⟨digits, hdigits, rfl⟩ := Option.map_eq_some_iff.mp hresult
  obtain ⟨-, hlt⟩ := Option.filter_eq_some_iff.mp hdigits
  exact (of_decide_eq_true hlt).le

theorem shrinks_parseDevice {t : Parse} (ht : s.parseDevice = some t) : Shrinks s t := by
  rw [parseDevice] at ht
  cases hlead : consumeText (ascii "/device:") s.fullname with
  | none =>
      rw [hlead] at ht
      obtain rfl := Option.some.inj ht
      exact s.shrinks_refl
  | some rest =>
      rw [hlead] at ht
      obtain ⟨middle, hmiddle, hid⟩ := Option.bind_eq_some_iff.mp ht
      refine (s.shrinks_parseValue (fun _ _ => length_consumeName) hmiddle).trans ?_
      rw [parseDeviceId] at hid
      cases hcolon : consumeText (ascii ":") middle.fullname with
      | none =>
          rw [hcolon] at hid
          obtain rfl := Option.some.inj hid
          exact ⟨Nat.le_refl _, .inl⟩
      | some after =>
          rw [hcolon] at hid
          exact middle.shrinks_parseValue (fun _ _ => length_consumeNumber) hid

theorem shrinks_parseLegacy {c d : UInt8} {lower upper type : List UInt8} {t : Parse}
    (ht : s.parseLegacy (c :: lower) (d :: upper) type = some t) : Shrinks s t := by
  rw [parseLegacy] at ht
  cases hlower : consumeText (c :: lower) s.fullname with
  | none =>
      rw [hlower] at ht
      exact s.shrinks_parseValue (fun _ _ => length_consumeNumber) ht
  | some rest =>
      rw [hlower] at ht
      exact s.shrinks_parseValue (fun _ _ => length_consumeNumber) ht

theorem shrinks_parseFields {t : Parse} (ht : s.parseFields = some t) :
    Shrinks { s with progress := false } t := by
  obtain ⟨afterJob, hjob, ht⟩ := Option.bind_eq_some_iff.mp ht
  obtain ⟨afterReplica, hreplica, ht⟩ := Option.bind_eq_some_iff.mp ht
  obtain ⟨afterTask, htask, ht⟩ := Option.bind_eq_some_iff.mp ht
  obtain ⟨afterDevice, hdevice, ht⟩ := Option.bind_eq_some_iff.mp ht
  obtain ⟨afterCpu, hcpu, hgpu⟩ := Option.bind_eq_some_iff.mp ht
  have hname : Shrinks { s with progress := false } afterJob :=
    shrinks_parseValue _ (fun _ _ => length_consumeName) hjob
  have hnumbers : Shrinks afterJob afterTask :=
    (shrinks_parseValue _ (fun _ _ => length_consumeNumber) hreplica).trans
      (shrinks_parseValue _ (fun _ _ => length_consumeNumber) htask)
  exact hname.trans (hnumbers.trans ((shrinks_parseDevice _ hdevice).trans
    ((shrinks_parseLegacy _ hcpu).trans (shrinks_parseLegacy _ hgpu))))

end Parse

open Parse

/-- A round without progress fails. -/
def parseLoop (s : Parse) : Option ParsedName :=
  if s.fullname = [] then some s.p
  else
    match _hfields : s.parseFields with
    | none => none
    | some t => if t.progress then parseLoop t else none
termination_by s.fullname.length
decreasing_by
  rename_i hprogress
  exact ((s.shrinks_parseFields _hfields).progress hprogress).resolve_left Bool.false_ne_true

def parseFullName (fullname : List UInt8) : Option ParsedName :=
  if fullname = ascii "/" then some {} else parseLoop { fullname }

def parseLocalName (name : List UInt8) : Option ParsedName :=
  (consumeDeviceType name).bind fun type =>
    (consumeText (ascii ":") type.2).bind fun rest =>
      (consumeNumber rest).bind fun id =>
        if id.2 = [] then some { hasType := true, type := type.1, hasId := true, id := id.1 }
        else none

def completeName (parsedBasename parsedName : ParsedName) : ParsedName where
  hasJob := true
  job := if parsedName.hasJob then parsedName.job else parsedBasename.job
  hasReplica := true
  replica := if parsedName.hasReplica then parsedName.replica else parsedBasename.replica
  hasTask := true
  task := if parsedName.hasTask then parsedName.task else parsedBasename.task
  hasType := true
  type := if parsedName.hasType then parsedName.type else parsedBasename.type
  hasId := true
  id := if parsedName.hasId then parsedName.id else parsedBasename.id

inductive InvalidArgument
  /-- Could not parse basename into a device specification. -/
  | basename (basename : List UInt8)
  /-- Basename should be fully specified. -/
  | unspecified (basename : List UInt8)
  /-- Could not parse into a device specification. -/
  | fullname (fullname : List UInt8)
  deriving DecidableEq

def canonicalizeDeviceName (fullname basename : List UInt8) : Except InvalidArgument (List UInt8) :=
  match parseFullName basename with
  | none => .error (.basename basename)
  | some parsedBasename =>
      if !(parsedBasename.hasJob && parsedBasename.hasReplica && parsedBasename.hasTask &&
          parsedBasename.hasType && parsedBasename.hasId) then .error (.unspecified basename)
      else
        match parseLocalName fullname, parseFullName fullname with
        | some parsedName, _ => .ok (parsedNameToString (completeName parsedBasename parsedName))
        | none, some parsedName =>
            .ok (parsedNameToString (completeName parsedBasename parsedName))
        | none, none => .error (.fullname fullname)

end DeviceNameUtils

end ContainerScheduler.Devices
