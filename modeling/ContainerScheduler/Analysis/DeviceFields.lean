/-
# The fields of device names

A name is a list of fields as they are written. Parsing it stores one field after the other, and
fails if one of its numbers is not a `uint64`.
-/

import ContainerScheduler.Analysis.IntegerParsing
import ContainerScheduler.Devices.DeviceNameUtils

namespace ContainerScheduler.Analysis

open Devices.DeviceNameUtils
open Devices.DeviceNameUtils.Parse
open Strings

/-- A field as it is written, with `none` for a `*`. -/
inductive DeviceField
  | job (name : Option (List UInt8))
  | replica (digits : Option (List UInt8))
  | task (digits : Option (List UInt8))
  /-- The id may be missing. -/
  | device (type : Option (List UInt8)) (id : Option (Option (List UInt8)))
  | cpu (upper : Bool) (id : Option (List UInt8))
  | gpu (upper : Bool) (id : Option (List UInt8))

/-- Digits of any length. -/
def IsNumber (digits : List UInt8) : Prop := digits ≠ [] ∧ ∀ c ∈ digits, isDigit c = true

/-- The number that is stored. -/
def numberOf (digits : List UInt8) : Int32 := Int32.ofNat (decimal digits)

def orStar (value : Option (List UInt8)) : List UInt8 := value.getD (ascii "*")

namespace DeviceField

def spell : DeviceField → List UInt8
  | job name => ascii "/job:" ++ orStar name
  | replica digits => ascii "/replica:" ++ orStar digits
  | task digits => ascii "/task:" ++ orStar digits
  | device type id =>
      ascii "/device:" ++ (orStar type ++ (id.map fun id => ascii ":" ++ orStar id).getD [])
  | cpu upper id => (if upper then ascii "/CPU:" else ascii "/cpu:") ++ orStar id
  | gpu upper id => (if upper then ascii "/GPU:" else ascii "/gpu:") ++ orStar id

/-- The places of the fields in a round of the loop. -/
def place : DeviceField → ℕ
  | job _ => 0
  | replica _ => 1
  | task _ => 2
  | device _ _ => 3
  | cpu _ _ => 4
  | gpu _ _ => 5

/-- The name and the number that are written. -/
def nameWritten : DeviceField → Option (List UInt8)
  | job name => name
  | device type _ => type
  | _ => none

def digitsWritten : DeviceField → Option (List UInt8)
  | job _ => none
  | replica digits => digits
  | task digits => digits
  | device _ id => id.join
  | cpu _ id => id
  | gpu _ id => id

structure Valid (field : DeviceField) : Prop where
  name : ∀ name, field.nameWritten = some name → isJobName name = true
  digits : ∀ digits, field.digitsWritten = some digits → IsNumber digits

/-- The number is a `uint64`. -/
def Fits (field : DeviceField) : Prop :=
  ∀ digits ∈ field.digitsWritten, decimal digits < 2 ^ 64

instance (field : DeviceField) : Decidable field.Fits :=
  inferInstanceAs (Decidable (∀ digits ∈ field.digitsWritten, _))

def store : DeviceField → ParsedName → ParsedName
  | job name => storeJob name
  | replica digits => storeReplica (digits.map numberOf)
  | task digits => storeTask (digits.map numberOf)
  | device type id => fun p => storeId (id.join.map numberOf) (storeType type p)
  | cpu _ id => fun p => storeId (id.map numberOf) (storeType (some (ascii "CPU")) p)
  | gpu _ id => fun p => storeId (id.map numberOf) (storeType (some (ascii "GPU")) p)

end DeviceField

/-! ## Numbers and names -/

/-- What is behind a field. -/
def BehindField (rest : List UInt8) : Prop := ∀ c ∈ rest.head?, c = 47

section Parts

variable {digits rest : List UInt8}

theorem consumeDigits_append {front : List UInt8} (hfront : decimal front < 2 ^ 64)
    (hdigits : ∀ c ∈ digits, isDigit c = true) (hrest : BehindField rest) :
    consumeDigits (decimal front) (digits ++ rest) =
      if decimal (front ++ digits) < 2 ^ 64 then some (decimal (front ++ digits), rest)
      else none := by
  induction digits generalizing front with
  | nil =>
      rw [List.append_nil, if_pos hfront, List.nil_append]
      cases rest with
      | nil => rfl
      | cons c rest =>
          obtain rfl : c = 47 := hrest c rfl
          rw [consumeDigits, if_neg (by decide)]
  | cons c digits ih =>
      obtain ⟨hdigit, hdigits⟩ := List.forall_mem_cons.mp hdigits
      obtain ⟨hlow, hhigh⟩ := isDigit_iff.mp hdigit
      have hcons : front ++ c :: digits = (front ++ [c]) ++ digits := by
        rw [List.append_assoc]
        rfl
      have hconcat := decimal_concat front c
      rw [List.cons_append, consumeDigits, if_pos hdigit, hcons]
      by_cases hfits : decimal (front ++ [c]) < 2 ^ 64
      · have hnew : (decimal front * 10 + (c.toNat - 48)) % 2 ^ 64 = decimal (front ++ [c]) := by
          rw [hconcat] at hfits ⊢
          rw [Nat.mod_eq_of_lt (by omega), Nat.mul_comm]
        rw [hnew, if_neg (by omega)]
        exact ih hfits hdigits
      · have hle := le_decimal_append (front ++ [c]) digits
        rw [if_pos (by omega), if_neg (by omega)]

theorem consumeNumber_append (hdigits : IsNumber digits) (hrest : BehindField rest) :
    consumeNumber (digits ++ rest) =
      if decimal digits < 2 ^ 64 then some (numberOf digits, rest) else none := by
  have hread := @consumeDigits_append digits rest [] (by decide) hdigits.2 hrest
  have hlt : rest.length < (digits ++ rest).length := by
    have hpositive := List.length_pos_iff.mpr hdigits.1
    rw [List.length_append]
    omega
  rw [consumeNumber, consumeLeadingDigits, show 0 = decimal [] from rfl, hread, List.nil_append]
  split_ifs
  · rw [Option.filter_some, if_pos (decide_eq_true hlt)]
    rfl
  · rfl

theorem isAlpha_ne {c : UInt8} (halpha : isAlpha c = true) : c ≠ 42 ∧ c ≠ 47 := by
  refine ⟨?_, ?_⟩ <;> rintro rfl <;> exact absurd halpha (by decide)

theorem ne_of_isAlphaNumOrUnderscore {c : UInt8} (hname : isAlphaNumOrUnderscore c = true) :
    c ≠ 47 ∧ c ≠ 58 := by
  refine ⟨?_, ?_⟩ <;> rintro rfl <;> exact absurd hname (by decide)

theorem isJobName_iff {name : List UInt8} : isJobName name = true ↔
    (∃ c ∈ name.head?, isAlpha c = true) ∧ ∀ c ∈ name, isAlphaNumOrUnderscore c = true := by
  rw [isJobName, Bool.and_eq_true, List.all_eq_true]
  cases name <;> simp

theorem consumeName_append {terminators name : List UInt8} (hname : isJobName name = true)
    (hterminators : ∀ c ∈ terminators, c = 47 ∨ c = 58)
    (hrest : ∀ c ∈ rest.head?, c ∈ terminators) :
    consumeName terminators (name ++ rest) = some (name, rest) := by
  obtain ⟨⟨c, hc, halpha⟩, hall⟩ := isJobName_iff.mp hname
  have hin : ∀ c ∈ name, (!terminators.contains c) = true := by
    intro c hc
    obtain ⟨hslash, hcolon⟩ := ne_of_isAlphaNumOrUnderscore (hall c hc)
    rw [Bool.not_eq_true', ← Bool.not_eq_true, List.contains_iff_mem]
    exact fun hmem => (hterminators c hmem).elim hslash hcolon
  have hout : rest.takeWhile (!terminators.contains ·) = [] ∧
      rest.dropWhile (!terminators.contains ·) = rest := by
    cases rest with
    | nil => exact ⟨rfl, rfl⟩
    | cons d rest =>
        have hmem := List.contains_iff_mem.mpr (hrest d rfl)
        exact ⟨List.takeWhile_cons_of_neg (by simpa using hrest d rfl),
          List.dropWhile_cons_of_neg (by simpa using hrest d rfl)⟩
  have hhead : (name ++ rest).head?.any isAlpha = true := by
    cases name with
    | nil => cases hc
    | cons d name =>
        obtain rfl : d = c := Option.some.inj hc
        exact halpha
  have htake : (name ++ rest).takeWhile (!terminators.contains ·) = name := by
    rw [List.takeWhile_append_of_pos hin, hout.1, List.append_nil]
  have hdrop : (name ++ rest).dropWhile (!terminators.contains ·) = rest := by
    rw [List.dropWhile_append_of_pos hin, hout.2]
  rw [consumeName, hhead, htake, hdrop, List.all_eq_true.mpr hall]
  rfl

theorem consumeText_star {c : UInt8} {str : List UInt8} (hne : c ≠ 42) :
    consumeText (ascii "*") (c :: str) = none := if_neg (Ne.symm hne)

theorem consumeText_star_name {name : List UInt8} (hname : isJobName name = true) :
    consumeText (ascii "*") (name ++ rest) = none := by
  obtain ⟨⟨c, hc, halpha⟩, -⟩ := isJobName_iff.mp hname
  cases name with
  | nil => cases hc
  | cons d name =>
      obtain rfl : d = c := Option.some.inj hc
      exact consumeText_star (isAlpha_ne halpha).1

theorem consumeText_star_digits (hdigits : IsNumber digits) :
    consumeText (ascii "*") (digits ++ rest) = none := by
  cases digits with
  | nil => exact absurd rfl hdigits.1
  | cons d digits =>
      refine consumeText_star ?_
      rintro rfl
      exact absurd (hdigits.2 42 List.mem_cons_self) (by decide)

end Parts

/-! ## Blocks -/

section Blocks

variable {s t : Parse} {rest fieldPrefix : List UInt8} {f : DeviceField}

theorem consumeText_append (expected rest : List UInt8) :
    consumeText expected (expected ++ rest) = some rest := by
  induction expected with
  | nil => rw [consumeText.eq_def, List.nil_append]
  | cons c expected ih => rw [List.cons_append, consumeText, if_pos rfl, ih]

theorem parseValue_number {digits : Option (List UInt8)}
    {store : Option Int32 → ParsedName → ParsedName}
    (hs : s.fullname = fieldPrefix ++ (orStar digits ++ rest))
    (hdigits : ∀ d ∈ digits, IsNumber d) (hrest : BehindField rest) :
    s.parseValue consumeNumber fieldPrefix store =
      if ∀ d ∈ digits, decimal d < 2 ^ 64 then some ⟨rest, store (digits.map numberOf) s.p, true⟩
      else none := by
  have hlead := consumeText_append fieldPrefix (orStar digits ++ rest)
  rw [← hs] at hlead
  rw [parseValue]
  simp only [hlead]
  cases digits with
  | none =>
      rw [if_pos (fun _ hd => by cases hd), orStar, Option.getD_none, consumeText_append]
      rfl
  | some d =>
      have hnumber := hdigits d rfl
      rw [orStar, Option.getD_some, consumeText_star_digits hnumber]
      simp only [consumeNumber_append hnumber hrest]
      by_cases hfits : decimal d < 2 ^ 64
      · rw [if_pos hfits, if_pos fun _ hd => Option.some.inj hd ▸ hfits]
        rfl
      · rw [if_neg hfits, if_neg fun hall => hfits (hall d rfl)]
        rfl

theorem parseValue_name {name : Option (List UInt8)} {terminators : List UInt8}
    {store : Option (List UInt8) → ParsedName → ParsedName}
    (hs : s.fullname = fieldPrefix ++ (orStar name ++ rest))
    (hname : ∀ n ∈ name, isJobName n = true) (hterminators : ∀ c ∈ terminators, c = 47 ∨ c = 58)
    (hrest : ∀ c ∈ rest.head?, c ∈ terminators) :
    s.parseValue (consumeName terminators) fieldPrefix store =
      some ⟨rest, store name s.p, true⟩ := by
  have hlead := consumeText_append fieldPrefix (orStar name ++ rest)
  rw [← hs] at hlead
  rw [parseValue]
  simp only [hlead]
  cases name with
  | none =>
      rw [orStar, Option.getD_none, consumeText_append]
  | some n =>
      have hvalid := hname n rfl
      rw [orStar, Option.getD_some, consumeText_star_name hvalid]
      simp only [consumeName_append hvalid hterminators hrest]
      rfl

/-- The blocks of a round. -/
def fieldBlock : ℕ → Parse → Option Parse
  | 0 => parseJob
  | 1 => parseReplica
  | 2 => parseTask
  | 3 => parseDevice
  | 4 => parseCpu
  | 5 => parseGpu
  | _ => some

theorem block_nil (k : ℕ) (hs : s.fullname = []) : fieldBlock k s = some s := by
  obtain ⟨fullname, p, progress⟩ := s
  obtain rfl : fullname = [] := hs
  match k with
  | 0 | 1 | 2 | 3 | 4 | 5 => rfl
  | _ + 6 => rfl

theorem block_other {k : ℕ} (hplace : f.place ≠ k) (hs : s.fullname = f.spell ++ rest) :
    fieldBlock k s = some s := by
  obtain ⟨fullname, p, progress⟩ := s
  obtain rfl : fullname = f.spell ++ rest := hs
  match k with
  | _ + 6 => rfl
  | 0 | 1 | 2 | 3 | 4 | 5 =>
      first
      | exact absurd rfl hplace
      | cases f with
        | job => first | exact absurd rfl hplace | rfl
        | replica => first | exact absurd rfl hplace | rfl
        | task => first | exact absurd rfl hplace | rfl
        | device => first | exact absurd rfl hplace | rfl
        | cpu upper => first | exact absurd rfl hplace | (cases upper <;> rfl)
        | gpu upper => first | exact absurd rfl hplace | (cases upper <;> rfl)

/-- The id behind the type of a device. -/
theorem parseDeviceId_spell {id : Option (Option (List UInt8))}
    (hs : s.fullname = (id.map fun id => ascii ":" ++ orStar id).getD [] ++ rest)
    (hdigits : ∀ d ∈ id.join, IsNumber d) (hrest : BehindField rest) :
    s.parseDeviceId = if ∀ d ∈ id.join, decimal d < 2 ^ 64 then
      some ⟨rest, storeId (id.join.map numberOf) s.p, s.progress || id.isSome⟩ else none := by
  cases id with
  | none =>
      obtain ⟨fullname, p, progress⟩ := s
      obtain rfl : fullname = rest := hs
      have hcolon : consumeText (ascii ":") fullname = none := by
        cases fullname with
        | nil => rfl
        | cons c fullname =>
            obtain rfl : c = 47 := hrest c rfl
            rfl
      rw [parseDeviceId, if_pos (fun _ hd => by cases hd), Option.isSome_none, Bool.or_false]
      simp only [hcolon]
      rfl
  | some id =>
      replace hs : s.fullname = ascii ":" ++ (orStar id ++ rest) := by
        rw [hs, Option.map_some, Option.getD_some, List.append_assoc]
      have hcolon := consumeText_append (ascii ":") (orStar id ++ rest)
      rw [← hs] at hcolon
      rw [parseDeviceId, Option.isSome_some, Bool.or_true]
      simp only [hcolon]
      exact parseValue_number hs hdigits hrest

theorem parseDevice_spell {type : Option (List UInt8)} {id : Option (Option (List UInt8))}
    (hs : s.fullname = (DeviceField.device type id).spell ++ rest)
    (hvalid : (DeviceField.device type id).Valid) (hrest : BehindField rest) :
    s.parseDevice = if (DeviceField.device type id).Fits then
      some ⟨rest, (DeviceField.device type id).store s.p, true⟩ else none := by
  have happend : s.fullname = ascii "/device:" ++
      (orStar type ++ ((id.map fun id => ascii ":" ++ orStar id).getD [] ++ rest)) := by
    rw [hs, DeviceField.spell, List.append_assoc, List.append_assoc]
  have hlead := happend ▸ consumeText_append (ascii "/device:") _
  have hbehind : ∀ c ∈ ((id.map fun id => ascii ":" ++ orStar id).getD [] ++ rest).head?,
      c ∈ ascii "/:" := by
    intro c hc
    cases id with
    | none => exact List.mem_cons.mpr (.inl (hrest c hc))
    | some id =>
        obtain rfl : 58 = c := Option.some.inj hc
        decide
  have htype := @parseValue_name s _ (ascii "/device:") type (ascii "/:") storeType happend
    hvalid.name (by simp [ascii]) hbehind
  rw [parseDevice]
  simp only [hlead]
  rw [show consumeDeviceType = consumeName (ascii "/:") from rfl, htype, Option.bind_some,
    parseDeviceId_spell rfl hvalid.digits hrest]
  rfl

theorem parseLegacy_spell {upper : Bool} {id : Option (List UInt8)}
    {lowerText upperText type : List UInt8}
    (hs : s.fullname = (if upper then upperText else lowerText) ++ (orStar id ++ rest))
    (hother : ∀ more, consumeText lowerText (upperText ++ more) = none)
    (hdigits : ∀ d ∈ id, IsNumber d) (hrest : BehindField rest) :
    s.parseLegacy lowerText upperText type = if ∀ d ∈ id, decimal d < 2 ^ 64 then
      some ⟨rest, storeId (id.map numberOf) (storeType (some type) s.p), true⟩ else none := by
  rw [parseLegacy]
  cases upper with
  | true =>
      have hlower : consumeText lowerText s.fullname = none := by
        rw [hs, if_pos rfl]
        exact hother _
      simp only [hlower]
      exact parseValue_number hs hdigits hrest
  | false =>
      have hlower := consumeText_append lowerText (orStar id ++ rest)
      rw [if_neg Bool.false_ne_true] at hs
      rw [← hs] at hlower
      simp only [hlower]
      exact parseValue_number hs hdigits hrest

theorem block_own (hs : s.fullname = f.spell ++ rest) (hvalid : f.Valid)
    (hrest : BehindField rest) :
    fieldBlock f.place s = if f.Fits then some ⟨rest, f.store s.p, true⟩ else none := by
  cases f with
  | job name =>
      have hfits : (DeviceField.job name).Fits := fun _ hd => by cases hd
      rw [if_pos hfits]
      exact parseValue_name (hs.trans (List.append_assoc _ _ _)) hvalid.name (by simp [ascii])
        (fun c hc => List.mem_cons.mpr (.inl (hrest c hc)))
  | replica digits =>
      exact parseValue_number (hs.trans (List.append_assoc _ _ _)) hvalid.digits hrest
  | task digits =>
      exact parseValue_number (hs.trans (List.append_assoc _ _ _)) hvalid.digits hrest
  | device type id => exact parseDevice_spell hs hvalid hrest
  | cpu upper id =>
      exact parseLegacy_spell (hs.trans (List.append_assoc _ _ _)) (fun _ => rfl) hvalid.digits hrest
  | gpu upper id =>
      exact parseLegacy_spell (hs.trans (List.append_assoc _ _ _)) (fun _ => rfl) hvalid.digits hrest

end Blocks

/-! ## Lists of fields -/

def spellAll (fields : List DeviceField) : List UInt8 := fields.flatMap DeviceField.spell

/-- What parsing a list of fields behind `p` returns. -/
def storeAll (fields : List DeviceField) (p : ParsedName) : Option ParsedName :=
  if ∀ f ∈ fields, f.Fits then some (fields.foldl (fun p f => f.store p) p) else none

/-- Before block `k` of a round that is to return `result` in the end. -/
structure ParsesFields (result : Option ParsedName) (k : ℕ) (s : Parse) (fields : List DeviceField) :
    Prop where
  valid : ∀ f ∈ fields, f.Valid
  fullname : s.fullname = spellAll fields
  result : storeAll fields s.p = result
  progress : s.progress = true ∨ ∃ f ∈ fields.head?, k ≤ f.place

/-- After a block, which fails if the whole call does. -/
def ParsesAfter (result : Option ParsedName) (k : ℕ) : Option Parse → Prop
  | none => result = none
  | some t => ∃ fields, ParsesFields result k t fields

section Rounds

variable {result : Option ParsedName} {k : ℕ} {s : Parse} {fields : List DeviceField}

theorem spell_cons (f : DeviceField) : ∃ text, f.spell = 47 :: text := by
  cases f with
  | job | replica | task | device => exact ⟨_, rfl⟩
  | cpu upper | gpu upper => cases upper <;> exact ⟨_, rfl⟩

theorem behindField_spellAll (fields : List DeviceField) : BehindField (spellAll fields) := by
  cases fields with
  | nil => exact fun c hc => by cases hc
  | cons f fields =>
      obtain ⟨text, htext⟩ := spell_cons f
      intro c hc
      rw [spellAll, List.flatMap_cons, htext] at hc
      exact (Option.some.inj hc).symm

theorem spellAll_eq_nil (hnil : spellAll fields = []) : fields = [] := by
  cases fields with
  | nil => rfl
  | cons f fields =>
      obtain ⟨text, htext⟩ := spell_cons f
      rw [spellAll, List.flatMap_cons, htext] at hnil
      cases hnil

theorem ne_nil_of_spellAll (hne : spellAll fields ≠ []) : fields ≠ [] := by
  rintro rfl
  exact hne rfl

theorem storeAll_cons (f : DeviceField) (p : ParsedName) : storeAll (f :: fields) p =
    if f.Fits then storeAll fields (f.store p) else none := by
  simp only [storeAll, List.forall_mem_cons, ite_and, List.foldl_cons]

theorem parsesAfter_block (hs : ParsesFields result k s fields) :
    ParsesAfter result (k + 1) (fieldBlock k s) := by
  cases fields with
  | nil =>
      rw [block_nil k hs.fullname]
      refine ⟨[], hs.valid, hs.fullname, hs.result, .inl (hs.progress.resolve_right ?_)⟩
      rintro ⟨f, hf, -⟩
      cases hf
  | cons f fields =>
      obtain ⟨hvalid, hrest⟩ := List.forall_mem_cons.mp hs.valid
      have hfullname : s.fullname = f.spell ++ spellAll fields := hs.fullname
      by_cases hplace : f.place = k
      · subst hplace
        rw [block_own hfullname hvalid (behindField_spellAll fields)]
        have hresult := hs.result
        rw [storeAll_cons] at hresult
        by_cases hfits : f.Fits
        · rw [if_pos hfits] at hresult ⊢
          exact ⟨fields, hrest, rfl, hresult, .inl rfl⟩
        · rw [if_neg hfits] at hresult ⊢
          exact hresult.symm
      · rw [block_other hplace hfullname]
        refine ⟨f :: fields, hs.valid, hs.fullname, hs.result, hs.progress.imp_right ?_⟩
        rintro ⟨g, hg, hle⟩
        obtain rfl : f = g := Option.some.inj hg
        exact ⟨f, rfl, by omega⟩

theorem ParsesAfter.bind {before : Option Parse} (hbefore : ParsesAfter result k before) :
    ParsesAfter result (k + 1) (before.bind (fieldBlock k)) := by
  cases before with
  | none => exact hbefore
  | some s =>
      obtain ⟨fields, hs⟩ := hbefore
      exact parsesAfter_block hs

theorem place_lt (f : DeviceField) : f.place < 6 := by
  cases f <;> simp [DeviceField.place]

/-- A round over fields that are not empty fails if the call does, and else makes progress. -/
theorem parseFields_spellAll (hvalid : ∀ f ∈ fields, f.Valid) (hfields : fields ≠ [])
    (hs : s.fullname = spellAll fields) :
    ParsesAfter (storeAll fields s.p) 6 s.parseFields := by
  have hstart : ParsesAfter (storeAll fields s.p) 0 (some { s with progress := false }) := by
    refine ⟨fields, hvalid, hs, rfl, .inr ?_⟩
    obtain ⟨f, rest, rfl⟩ := List.exists_cons_of_ne_nil hfields
    exact ⟨f, rfl, Nat.zero_le _⟩
  have hround := hstart.bind.bind.bind.bind.bind.bind
  simp only [Option.bind_some, Option.bind_assoc] at hround
  exact hround

theorem parseLoop_eq (s : Parse) : parseLoop s = if s.fullname = [] then some s.p
    else s.parseFields.bind fun t => if t.progress then parseLoop t else none := by
  rw [parseLoop.eq_def]
  by_cases hnil : s.fullname = []
  · rw [if_pos hnil, if_pos hnil]
  · rw [if_neg hnil, if_neg hnil]
    split
    · rename_i hnone
      rw [hnone, Option.bind_none]
    · rename_i t hsome
      rw [hsome, Option.bind_some]

theorem parseLoop_spellAll (hvalid : ∀ f ∈ fields, f.Valid) (hs : s.fullname = spellAll fields) :
    parseLoop s = storeAll fields s.p := by
  induction s using parseLoop.induct generalizing fields with
  | case1 s hnil =>
      obtain rfl := spellAll_eq_nil (hs.symm.trans hnil)
      rw [parseLoop_eq, if_pos hnil]
      exact (if_pos (List.forall_mem_nil _)).symm
  | case2 s hne hnone =>
      have hround := parseFields_spellAll hvalid (ne_nil_of_spellAll (hs ▸ hne)) hs
      rw [hnone] at hround
      rw [parseLoop_eq, if_neg hne, hnone]
      exact hround.symm
  | case3 s hne t hsome hprogress ih =>
      have hround := parseFields_spellAll hvalid (ne_nil_of_spellAll (hs ▸ hne)) hs
      rw [hsome] at hround
      obtain ⟨rest, ht⟩ := hround
      rw [parseLoop_eq, if_neg hne, hsome, Option.bind_some, if_pos hprogress,
        ih ht.valid ht.fullname, ht.result]
  | case4 s hne t hsome hprogress =>
      have hround := parseFields_spellAll hvalid (ne_nil_of_spellAll (hs ▸ hne)) hs
      rw [hsome] at hround
      obtain ⟨rest, ht⟩ := hround
      rcases ht.progress with hdone | ⟨f, -, hle⟩
      · exact absurd hdone hprogress
      · exact absurd (place_lt f) (by omega)

theorem parseFullName_spellAll (hvalid : ∀ f ∈ fields, f.Valid) :
    parseFullName (spellAll fields) = storeAll fields {} := by
  have hne : spellAll fields ≠ ascii "/" := by
    cases fields with
    | nil => exact fun heq => by cases heq
    | cons f fields =>
        intro heq
        have htail : f.spell = 47 :: [] := by
          obtain ⟨text, htext⟩ := spell_cons f
          rw [spellAll, List.flatMap_cons, htext, List.cons_append] at heq
          rw [htext, (List.append_eq_nil_iff.mp (List.cons.inj heq).2).1]
        cases f with
        | job | replica | task | device => cases htail
        | cpu upper | gpu upper => cases upper <;> cases htail
  rw [parseFullName, if_neg hne]
  exact parseLoop_spellAll hvalid rfl

end Rounds

end ContainerScheduler.Analysis
