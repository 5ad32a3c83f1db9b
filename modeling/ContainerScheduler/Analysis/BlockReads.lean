/-
# What a corrupt block can make the iterator read

The two lengths of an entry are added as `uint32` numbers before the sum is compared
with the bytes that are left. A sum that wraps around passes the comparison, and the
key delta or the value then leaves the entries. Otherwise every read lies inside the
block, whatever the bytes are, and every call ends.
-/

import ContainerScheduler.Math.Transition
import ContainerScheduler.Table.Block

namespace ContainerScheduler.Analysis

open Math Table

/-! ## Decoding an entry -/

theorem decodeLengths_spec {data : List UInt8} {limit : ℕ} (hlimit : limit ≤ data.length) (p : ℕ) :
    ∃ found, decodeLengths data p limit = .ok found ∧
      ∀ entry, found = some entry → p + 3 ≤ entry.keyDelta ∧ entry.keyDelta ≤ limit ∧
        entry.nonShared < 2 ^ 32 ∧ entry.valueLength < 2 ^ 32 := by
  rw [decodeLengths]
  by_cases hshort : (limit : ℤ) - p < 3
  · exact ⟨none, if_pos hshort, by simp⟩
  obtain ⟨shared, hshared, hread⟩ := exists_byteAt (show p < data.length by omega)
  obtain ⟨nonShared, hnonShared, hread'⟩ := exists_byteAt (show p + 1 < data.length by omega)
  obtain ⟨valueLength, hvalue, hread''⟩ := exists_byteAt (show p + 2 < data.length by omega)
  simp only [if_neg hshort, hread, hread', hread'', bind, Except.bind]
  split
  · refine ⟨_, rfl, ?_⟩
    intro entry hentry
    obtain rfl := Option.some.inj hentry
    exact ⟨le_rfl, by show p + 3 ≤ limit; omega, by show nonShared < _; omega,
      by show valueLength < _; omega⟩
  · obtain ⟨first, hfirst, hfirst'⟩ := getVarint32Ptr_spec hlimit p
    rw [hfirst]
    cases first with
    | none => exact ⟨none, rfl, by simp⟩
    | some first =>
        obtain ⟨q, shared⟩ := first
        obtain ⟨second, hsecond, hsecond'⟩ := getVarint32Ptr_spec hlimit q
        simp only [hsecond]
        cases second with
        | none => exact ⟨none, rfl, by simp⟩
        | some second =>
            obtain ⟨r, nonShared⟩ := second
            obtain ⟨third, hthird, hthird'⟩ := getVarint32Ptr_spec hlimit r
            simp only [hthird]
            cases third with
            | none => exact ⟨none, rfl, by simp⟩
            | some third =>
                obtain ⟨s, valueLength⟩ := third
                obtain ⟨hq, -, -⟩ := hfirst' q shared rfl
                obtain ⟨hr, -, hnonShared⟩ := hsecond' r nonShared rfl
                obtain ⟨hs, hle, hvalueLength⟩ := hthird' s valueLength rfl
                refine ⟨_, rfl, ?_⟩
                intro entry hentry
                obtain rfl := Option.some.inj hentry
                exact ⟨by show p + 3 ≤ s; omega, hle, hnonShared, hvalueLength⟩

/-- An entry that passes the comparison. -/
structure Accepted (limit p : ℕ) (entry : Entry) : Prop where
  start : p + 3 ≤ entry.keyDelta
  delta_le : entry.keyDelta ≤ limit
  passed : entry.room % 2 ^ 32 ≤ limit - entry.keyDelta

theorem decodeEntry_spec {data : List UInt8} {limit : ℕ} (hlimit : limit ≤ data.length)
    (hsize : data.length < 2 ^ 32) (p : ℕ) :
    ∃ found, decodeEntry data p limit = .ok found ∧
      ∀ entry, found = some entry → Accepted limit p entry := by
  obtain ⟨lengths, hlengths, hspec⟩ := decodeLengths_spec hlimit p
  rw [decodeEntry, hlengths]
  cases lengths with
  | none => exact ⟨none, rfl, by simp⟩
  | some entry =>
      obtain ⟨hstart, hdelta, -, -⟩ := hspec entry rfl
      simp only [bind, Except.bind]
      split
      · exact ⟨none, rfl, by simp⟩
      next hpassed =>
          refine ⟨some entry, rfl, ?_⟩
          intro other hother
          obtain rfl := Option.some.inj hother
          rw [uint32, uint32, Nat.mod_eq_of_lt (by omega), not_lt] at hpassed
          exact ⟨hstart, hdelta, hpassed⟩

namespace Accepted

variable {limit p : ℕ} {entry : Entry}

/-- The sum does not wrap exactly when the entry ends before the limit. -/
theorem room_lt_iff (haccepted : Accepted limit p entry) (hlimit : limit < 2 ^ 32) :
    entry.room < 2 ^ 32 ↔ entry.keyDelta + entry.room ≤ limit := by
  obtain ⟨-, hdelta, hpassed⟩ := haccepted
  constructor
  · intro hroom
    rw [Nat.mod_eq_of_lt hroom] at hpassed
    omega
  · intro hends
    omega

end Accepted

/-! ## What a step decodes -/

/-- A place where a step decodes an entry. -/
inductive Decoding
  /-- The next entry, with the length of the key so far. -/
  | parse (offset keyLength : ℕ)
  /-- The entry in the middle of a binary search. -/
  | probe (offset : ℕ) (target : List UInt8)
  deriving DecidableEq, Repr

/-- The place in the block where a step is going to decode an entry. -/
def decoding : IterState → Call → Option (Entries × Decoding)
  | .reading block _ .idle, .seekToFirst =>
      (block.getRestartPoint 0).toOption.map fun offset => (block, .parse offset 0)
  | .reading block iter .idle, .next =>
      iter.nextEntryOffset.toOption.map fun offset => (block, .parse offset iter.key.length)
  | .reading block _ (.searching target left right), .round =>
      if left < right then
        (block.getRestartPoint (uint32 (left + right + 1) / 2)).toOption.map
          fun offset => (block, .probe offset target)
      else
        (block.getRestartPoint left).toOption.map fun offset => (block, .parse offset 0)
  | .reading block iter (.scanning _), .round =>
      iter.nextEntryOffset.toOption.map fun offset => (block, .parse offset iter.key.length)
  | _, _ => none

/-- The entry that is used, when one is. A probe uses no entry that shares a prefix,
and a key must be as long as the prefix that is shared. -/
def usedEntry (block : Entries) : Decoding → Option Entry
  | .parse offset keyLength =>
      match decodeEntry block.data offset block.restarts with
      | .ok (some entry) => if keyLength < entry.shared then none else some entry
      | _ => none
  | .probe offset _ =>
      match decodeEntry block.data offset block.restarts with
      | .ok (some entry) => if entry.shared ≠ 0 then none else some entry
      | _ => none

/-- The lengths of the entry do not wrap around; for a probe it is enough that the
bytes that are compared lie inside the block. -/
def LengthsFit (block : Entries) (entry : Entry) : Decoding → Prop
  | .parse _ _ => entry.room < 2 ^ 32
  | .probe _ target => entry.room < 2 ^ 32 ∨
      entry.keyDelta + min entry.nonShared target.length ≤ block.data.length

/-- The entry that the step is going to use fits. -/
def EntryFits (state : IterState) (call : Call) : Prop :=
  ∀ place ∈ decoding state call,
    ∀ entry ∈ usedEntry place.1 place.2, LengthsFit place.1 entry place.2

instance decidableLengthsFit (block : Entries) (entry : Entry) :
    ∀ place, Decidable (LengthsFit block entry place)
  | .parse _ _ => inferInstanceAs (Decidable (_ < _))
  | .probe _ _ => inferInstanceAs (Decidable (_ ∨ _))

instance decidableEntryFits (state : IterState) (call : Call) : Decidable (EntryFits state call) :=
  inferInstanceAs (Decidable (∀ place ∈ decoding state call,
    ∀ entry ∈ usedEntry place.1 place.2, LengthsFit place.1 entry place.2))

/-- The step finds no entry that it can use. -/
def Malformed (state : IterState) (call : Call) : Prop :=
  ∃ place ∈ decoding state call, usedEntry place.1 place.2 = none

/-! ## Reads inside the block -/

/-- The value lies before the restart points, and so does the key delta before it,
which is the end of the key. -/
def ValueInside (block : Entries) (iter : Iter) : Prop :=
  ∃ value delta : Piece, iter.value = some value ∧ delta.data + delta.size = value.data ∧
    (block.data.drop delta.data).take delta.size <:+ iter.key ∧
    value.data + value.size ≤ block.restarts

/-- No byte outside the block has been read, and what a valid iterator returns comes
from the entries. -/
def ReadsInside : IterState → Prop
  | .empty _ => True
  | .reading block iter _ => iter.Valid block → ValueInside block iter
  | .faulted _ => False

/-- The call under way has ended. -/
def CallEnded : IterState → Prop
  | .reading _ _ activity => activity = .idle
  | _ => True

/-- The iterator is not valid. -/
def Invalid : IterState → Prop
  | .reading block iter _ => ¬ iter.Valid block
  | _ => True

/-- The parts of a block add up. -/
structure Laid (block : Entries) : Prop where
  size_lt : block.data.length < 2 ^ 32
  layout : block.restarts + block.numRestarts * 4 + 4 = block.data.length
  pos : 0 < block.numRestarts

namespace Laid

variable {block : Entries}

theorem restarts_le (hlaid : Laid block) : block.restarts ≤ block.data.length := by
  have := hlaid.layout
  omega

theorem exists_restartPoint (hlaid : Laid block) {index : ℕ} (hlt : index < block.numRestarts) :
    ∃ offset < 2 ^ 32, block.getRestartPoint index = .ok offset := by
  have := hlaid.layout
  exact exists_decodeFixed32 (by omega)

theorem exists_advanceRestart (hlaid : Laid block) (current left index : ℕ)
    (hlt : left ≠ 0 → index + left < block.numRestarts) :
    ∃ final, block.advanceRestart current left index = .ok final := by
  induction left generalizing index with
  | zero => exact ⟨index, rfl⟩
  | succ left ih =>
      have hbound := hlt (by simp)
      obtain ⟨next, -, hnext⟩ := hlaid.exists_restartPoint (show index + 1 < _ by omega)
      simp only [Entries.advanceRestart, hnext, bind, Except.bind]
      split
      · exact ih (index + 1) fun _ => by omega
      · exact ⟨index, rfl⟩

end Laid

/-- What `ParseNextKey` can do at an offset. -/
inductive Parsed (block : Entries) (iter : Iter) (offset : ℕ) :
    Except Fault (Bool × Iter) → Prop
  | atEnd (hend : block.restarts ≤ offset) : Parsed block iter offset (.ok (false,
      { iter with current := block.restarts, restartIndex := block.numRestarts }))
  | corrupt (hunused : usedEntry block (.parse offset iter.key.length) = none) :
      Parsed block iter offset (.ok (false, iter.corruptionError block))
  | parsed (entry : Entry) (restartIndex : ℕ) (hbefore : offset < block.restarts)
      (hused : usedEntry block (.parse offset iter.key.length) = some entry)
      (haccepted : Accepted block.restarts offset entry)
      (hdelta : entry.keyDelta + entry.nonShared ≤ block.data.length) :
      Parsed block iter offset (.ok (true, { iter with
        current := offset
        key := iter.key.take entry.shared ++
          (block.data.drop entry.keyDelta).take entry.nonShared
        value := some ⟨entry.keyDelta + entry.nonShared, entry.valueLength⟩
        restartIndex := restartIndex }))
  | outside (entry : Entry)
      (hused : usedEntry block (.parse offset iter.key.length) = some entry)
      (haccepted : Accepted block.restarts offset entry)
      (hdelta : block.data.length < entry.keyDelta + entry.nonShared) :
      Parsed block iter offset (.error .outside)

theorem parsed_of_offset {block : Entries} (hlaid : Laid block) {iter : Iter} {offset : ℕ}
    (hoffset : iter.nextEntryOffset = .ok offset) :
    Parsed block iter offset (iter.parseNextKey block) := by
  simp only [Iter.parseNextKey, hoffset, bind, Except.bind]
  split
  next hend => exact .atEnd hend
  next hbefore =>
      obtain ⟨found, hfound, haccepted⟩ :=
        decodeEntry_spec hlaid.restarts_le hlaid.size_lt offset
      rw [hfound]
      cases found with
      | none => exact .corrupt (by rw [usedEntry, hfound])
      | some entry =>
          have hused : usedEntry block (.parse offset iter.key.length) =
              if iter.key.length < entry.shared then none else some entry := by
            rw [usedEntry, hfound]
          dsimp only
          split
          next hlong => exact .corrupt (by rw [hused, if_pos hlong])
          next hlong =>
              rw [if_neg hlong] at hused
              by_cases hdelta : entry.keyDelta + entry.nonShared ≤ block.data.length
              · obtain ⟨final, hfinal⟩ := hlaid.exists_advanceRestart offset
                  (block.numRestarts - (iter.restartIndex + 1)) iter.restartIndex
                  (fun _ => by omega)
                simp only [bytesAt_of_le hdelta, hfinal]
                exact .parsed entry final (not_le.mp hbefore) hused (haccepted entry rfl) hdelta
              · simp only [bytesAt_of_lt (not_le.mp hdelta)]
                exact .outside entry hused (haccepted entry rfl) (not_le.mp hdelta)

/-- The result of parsing lies inside. -/
def ParsedInside (block : Entries) : Except Fault (Bool × Iter) → Prop
  | .ok (_, iter) => iter.Valid block → ValueInside block iter
  | .error _ => False

namespace Parsed

variable {block : Entries} {iter : Iter} {offset : ℕ} {result : Except Fault (Bool × Iter)}

section

variable (hparsed : Parsed block iter offset result)

include hparsed

/-- **Parsing stays inside exactly when the entry fits.** -/
theorem inside_iff (hlaid : Laid block) :
    ParsedInside block result ↔ ∀ entry ∈ usedEntry block (.parse offset iter.key.length),
      LengthsFit block entry (.parse offset iter.key.length) := by
  have hlimit : block.restarts < 2 ^ 32 := hlaid.restarts_le.trans_lt hlaid.size_lt
  have hinvalid : ¬ block.restarts < block.restarts := lt_irrefl _
  cases hparsed with
  | atEnd hend =>
      refine iff_of_true (fun hvalid => absurd hvalid hinvalid) ?_
      intro entry hentry
      obtain ⟨found, hfound, haccepted⟩ :=
        decodeEntry_spec hlaid.restarts_le hlaid.size_lt offset
      cases found with
      | none => simp [usedEntry, hfound] at hentry
      | some other =>
          obtain ⟨hstart, hdelta, -⟩ := haccepted other rfl
          omega
  | corrupt hunused =>
      exact iff_of_true (fun hvalid => absurd hvalid hinvalid) (by simp [hunused])
  | parsed entry restartIndex hbefore hused haccepted hdelta =>
      simp only [hused, Option.mem_def, Option.some.injEq, forall_eq']
      rw [LengthsFit, haccepted.room_lt_iff hlimit, Entry.room, ← add_assoc]
      constructor
      · intro hinside
        obtain ⟨value, -, hvalue, -, -, hends⟩ := hinside hbefore
        obtain rfl := Option.some.inj hvalue
        exact hends
      · intro hends _
        exact ⟨_, ⟨entry.keyDelta, entry.nonShared⟩, rfl, rfl, List.suffix_append _ _, hends⟩
  | outside entry hused haccepted hdelta =>
      simp only [hused, Option.mem_def, Option.some.injEq, forall_eq']
      rw [LengthsFit, haccepted.room_lt_iff hlimit, Entry.room]
      have := hlaid.restarts_le
      exact iff_of_false id (by omega)

/-- The result tells whether the iterator is valid. -/
theorem valid_iff {parsed : Bool} {next : Iter} (hresult : result = .ok (parsed, next)) :
    next.Valid block ↔ parsed = true := by
  cases hparsed with
  | atEnd | corrupt =>
      cases hresult
      exact iff_of_false (lt_irrefl _) Bool.false_ne_true
  | parsed entry restartIndex hbefore =>
      cases hresult
      exact iff_of_true hbefore rfl
  | outside => cases hresult

/-- When no entry can be used, nothing is parsed. -/
theorem not_parsed (hunused : usedEntry block (.parse offset iter.key.length) = none) :
    ∃ next, result = .ok (false, next) := by
  cases hparsed with
  | atEnd => exact ⟨_, rfl⟩
  | corrupt => exact ⟨_, rfl⟩
  | parsed entry _ _ hused | outside entry hused =>
      exact absurd (hused.symm.trans hunused) (Option.some_ne_none entry)

/-- What is parsed starts past the offset. -/
theorem offset_lt {next : Iter} (hresult : result = .ok (true, next)) :
    offset < block.restarts ∧ ∃ value, next.value = some value ∧ offset < value.data := by
  cases hparsed with
  | parsed entry restartIndex hbefore hused haccepted hdelta =>
      cases hresult
      have := haccepted.start
      exact ⟨hbefore, _, rfl, by show offset < entry.keyDelta + entry.nonShared; omega⟩
  | atEnd | corrupt | outside => cases hresult

end

end Parsed

/-! ## What a step leaves -/

/-- What every step keeps as long as the entries fit. -/
def Ready : IterState → Prop
  | .empty _ => True
  | .reading block iter activity => Laid block ∧ (iter.Valid block → ValueInside block iter) ∧
      match activity with
      | .idle => True
      | .searching _ left right => left ≤ right ∧ right < block.numRestarts
      | .scanning _ => iter.Valid block
  | .faulted _ => False

theorem Ready.readsInside {state : IterState} (hready : Ready state) : ReadsInside state := by
  cases state with
  | empty ok => exact trivial
  | reading block iter activity => exact hready.2.1
  | faulted fault => exact hready

/-- The rounds that a call can still take. -/
def roundsLeft : IterState → ℕ
  | .reading block _ (.searching _ left right) => (right - left) + block.restarts + 2
  | .reading block iter (.scanning _) =>
      match iter.nextEntryOffset with
      | .ok offset => (block.restarts - offset) + 1
      | .error _ => 0
  | _ => 0

section Step

variable {block : Entries} {iter : Iter} {offset : ℕ}

/-- Parsing at a restart point. -/
theorem seekToRestartPoint_spec (hlaid : Laid block) (iter : Iter) {index : ℕ}
    (hlt : index < block.numRestarts) :
    ∃ offset start, block.getRestartPoint index = .ok offset ∧
      iter.seekToRestartPoint block index = .ok start ∧ start.nextEntryOffset = .ok offset ∧
      start.key = [] := by
  obtain ⟨offset, hoffset, hread⟩ := hlaid.exists_restartPoint hlt
  refine ⟨offset, _, hread, by rw [Iter.seekToRestartPoint, hread]; rfl, ?_, rfl⟩
  show Except.ok (uint32 (offset + 0)) = _
  rw [uint32, add_zero, Nat.mod_eq_of_lt hoffset]

/-- What a valid iterator inside the block parses next. -/
theorem exists_nextEntryOffset (hlaid : Laid block) (hinside : ValueInside block iter) :
    ∃ offset value, iter.value = some value ∧ iter.nextEntryOffset = .ok offset ∧
      value.data ≤ offset := by
  obtain ⟨value, delta, hvalue, -, -, hends⟩ := hinside
  have := hlaid.restarts_le
  have := hlaid.size_lt
  refine ⟨value.data + value.size, value, hvalue, ?_, Nat.le_add_right _ _⟩
  simp only [Iter.nextEntryOffset, hvalue, uint32]
  rw [Nat.mod_eq_of_lt (by omega)]

section

variable (hlaid : Laid block) (hoffset : iter.nextEntryOffset = .ok offset)

include hlaid hoffset

/-- A round of the linear search stays inside exactly when the entry it parses fits. -/
theorem scanned_inside (target : List UInt8) :
    (ReadsInside (.ofExcept (scanned block target iter)) ↔
      ∀ entry ∈ usedEntry block (.parse offset iter.key.length),
        LengthsFit block entry (.parse offset iter.key.length)) ∧
    (ReadsInside (.ofExcept (scanned block target iter)) →
      Ready (.ofExcept (scanned block target iter))) := by
  have hparsed := parsed_of_offset hlaid hoffset
  rw [← hparsed.inside_iff hlaid, scanned, Iter.scanRound]
  cases hresult : iter.parseNextKey block with
  | error fault => exact ⟨Iff.rfl, id⟩
  | ok result =>
      obtain ⟨parsed, next⟩ := result
      rw [hresult] at hparsed
      refine ⟨Iff.rfl, fun hinside => ⟨hlaid, hinside, ?_⟩⟩
      split
      · exact trivial
      next hactivity =>
          split at hactivity <;> cases hactivity
      next hactivity =>
          split at hactivity
          next hmore => exact (hparsed.valid_iff rfl).mpr (Bool.and_eq_true_iff.mp hmore).1
          · cases hactivity

/-- A call that parses once. -/
theorem parsed_inside :
    (ReadsInside (.ofExcept do return .reading block (← iter.parseNextKey block).2 .idle) ↔
      ∀ entry ∈ usedEntry block (.parse offset iter.key.length),
        LengthsFit block entry (.parse offset iter.key.length)) ∧
    (ReadsInside (.ofExcept do return .reading block (← iter.parseNextKey block).2 .idle) →
      Ready (.ofExcept do return .reading block (← iter.parseNextKey block).2 .idle)) := by
  rw [← (parsed_of_offset hlaid hoffset).inside_iff hlaid]
  cases hresult : iter.parseNextKey block with
  | error fault => exact ⟨Iff.rfl, id⟩
  | ok result => exact ⟨Iff.rfl, fun hinside => ⟨hlaid, hinside, trivial⟩⟩

/-- The linear search moves on in the block. -/
theorem roundsLeft_scanned_lt (target : List UInt8)
    (hready : Ready (.ofExcept (scanned block target iter))) :
    roundsLeft (.ofExcept (scanned block target iter)) < block.restarts - offset + 1 := by
  have hparsed := parsed_of_offset hlaid hoffset
  rw [scanned, Iter.scanRound] at hready ⊢
  cases hresult : iter.parseNextKey block with
  | error fault => exact Nat.succ_pos _
  | ok result =>
      obtain ⟨parsed, next⟩ := result
      rw [hresult] at hparsed hready
      simp only [ok_bind, pure, Except.pure, IterState.ofExcept] at hready ⊢
      split
      next hmore =>
          obtain rfl : parsed = true := (Bool.and_eq_true_iff.mp hmore).1
          obtain ⟨hbefore, value, hvalue, hlt⟩ := hparsed.offset_lt rfl
          obtain ⟨after, other, hother, hafter, hle⟩ :=
            exists_nextEntryOffset hlaid (hready.2.1 ((hparsed.valid_iff rfl).mpr rfl))
          obtain rfl := Option.some.inj (hvalue.symm.trans hother)
          simp only [roundsLeft, hafter]
          omega
      next => exact Nat.succ_pos _

end

/-- What a round of the binary search can do. -/
inductive Probed (block : Entries) (target : List UInt8) (left right mid offset : ℕ) :
    Except Fault (Option (ℕ × ℕ)) → Prop
  | corrupt (hunused : usedEntry block (.probe offset target) = none) :
      Probed block target left right mid offset (.ok none)
  | narrowed (entry : Entry) (hused : usedEntry block (.probe offset target) = some entry)
      (hread : entry.keyDelta + min entry.nonShared target.length ≤ block.data.length)
      {left' right' : ℕ}
      (hrange : (left', right') = (mid, right) ∨ (left', right') = (left, mid - 1)) :
      Probed block target left right mid offset (.ok (some (left', right')))
  | outside (entry : Entry) (hused : usedEntry block (.probe offset target) = some entry)
      (haccepted : Accepted block.restarts offset entry)
      (hread : block.data.length < entry.keyDelta + min entry.nonShared target.length) :
      Probed block target left right mid offset (.error .outside)

theorem probed_of_offset (hlaid : Laid block) {left right mid : ℕ}
    (hmid : mid = uint32 (left + right + 1) / 2) (hoffset : block.getRestartPoint mid = .ok offset)
    (target : List UInt8) :
    Probed block target left right mid offset (Iter.searchRound block target left right) := by
  obtain ⟨found, hfound, haccepted⟩ := decodeEntry_spec hlaid.restarts_le hlaid.size_lt offset
  simp only [Iter.searchRound, ← hmid, hoffset, hfound, ok_bind]
  cases found with
  | none => exact .corrupt (by rw [usedEntry, hfound])
  | some entry =>
      have hused : usedEntry block (.probe offset target) =
          if entry.shared ≠ 0 then none else some entry := by
        rw [usedEntry, hfound]
      by_cases hshared : entry.shared ≠ 0
      · simp only [if_pos hshared]
        exact .corrupt (by rw [hused, if_pos hshared])
      rw [if_neg hshared] at hused
      simp only [if_neg hshared, Iter.keyLess]
      by_cases hread : entry.keyDelta + min entry.nonShared target.length ≤ block.data.length
      · simp only [bytesAt_of_le hread, ok_bind, pure, Except.pure]
        split
        · exact .narrowed entry hused hread (.inl rfl)
        · exact .narrowed entry hused hread (.inr rfl)
      · simp only [bytesAt_of_lt (not_le.mp hread), error_bind]
        exact .outside entry hused (haccepted entry rfl) (not_le.mp hread)

/-- The middle of a range of restart points lies inside the range. -/
theorem mid_between (hlaid : Laid block) {left right : ℕ} (hlt : left < right)
    (hright : right < block.numRestarts) :
    left < uint32 (left + right + 1) / 2 ∧ uint32 (left + right + 1) / 2 ≤ right := by
  have hlayout := hlaid.layout
  have hsize := hlaid.size_lt
  rw [uint32, Nat.mod_eq_of_lt (by omega)]
  omega

/-- **A round of the binary search** stays inside exactly when the bytes it compares
do, and narrows the range. -/
theorem searched_inside (hlaid : Laid block) (hkept : iter.Valid block → ValueInside block iter)
    {left right : ℕ} (hlt : left < right) (hright : right < block.numRestarts)
    (hoffset : block.getRestartPoint (uint32 (left + right + 1) / 2) = .ok offset)
    (target : List UInt8) :
    (ReadsInside (.ofExcept (searched block target left right iter)) ↔
      ∀ entry ∈ usedEntry block (.probe offset target),
        LengthsFit block entry (.probe offset target)) ∧
    (ReadsInside (.ofExcept (searched block target left right iter)) →
      Ready (.ofExcept (searched block target left right iter))) ∧
    roundsLeft (.ofExcept (searched block target left right iter)) <
      (right - left) + block.restarts + 2 := by
  obtain ⟨hleft, hle⟩ := mid_between hlaid hlt hright
  have hprobed := probed_of_offset hlaid rfl hoffset target
  rw [searched, if_pos hlt]
  generalize Iter.searchRound block target left right = result at hprobed ⊢
  cases hprobed with
  | corrupt hunused =>
      have hinvalid : (iter.corruptionError block).Valid block →
          ValueInside block (iter.corruptionError block) :=
        fun hvalid => absurd hvalid (lt_irrefl _)
      exact ⟨iff_of_true hinvalid (by simp [hunused]), fun _ => ⟨hlaid, hinvalid, trivial⟩,
        Nat.succ_pos _⟩
  | narrowed entry hused hread hrange =>
      simp only [hused, Option.mem_def, Option.some.injEq, forall_eq']
      obtain ⟨hsame, hsame'⟩ | ⟨hsame, hsame'⟩ := hrange.imp Prod.mk.inj Prod.mk.inj
      all_goals
        subst hsame hsame'
        refine ⟨iff_of_true hkept (.inr hread), fun _ => ⟨hlaid, hkept, by omega, by omega⟩, ?_⟩
        simp only [ok_bind, pure, Except.pure, IterState.ofExcept, roundsLeft]
        omega
  | outside entry hused haccepted hread =>
      simp only [hused, Option.mem_def, Option.some.injEq, forall_eq']
      have hroom := haccepted.room_lt_iff (hlaid.restarts_le.trans_lt hlaid.size_lt)
      have hrestarts := hlaid.restarts_le
      refine ⟨iff_of_false id ?_, id, Nat.succ_pos _⟩
      rw [LengthsFit, hroom, Entry.room]
      omega

end Step

/-- **One step.** What was inside stays inside exactly when the entry that the step
uses fits. -/
theorem step_inside {source target : IterState} {call : Call} (hready : Ready source)
    (hstep : iterStep source call = some target) :
    (ReadsInside target ↔ EntryFits source call) ∧ (ReadsInside target → Ready target) := by
  unfold iterStep at hstep
  split at hstep <;> try cases hstep
  next => exact ⟨iff_of_true trivial (by simp [EntryFits, decoding]), id⟩
  next => exact ⟨iff_of_true trivial (by simp [EntryFits, decoding]), id⟩
  next block iter =>
      obtain ⟨hlaid, -, -⟩ := hready
      obtain ⟨offset, start, hoffset, hstart, hnext, hkey⟩ :=
        seekToRestartPoint_spec hlaid iter hlaid.pos
      have hparse := parsed_inside hlaid hnext
      rw [hkey] at hparse
      simpa [EntryFits, decoding, Iter.seekToFirst, hoffset, hstart, Except.toOption] using hparse
  next block iter key =>
      obtain ⟨hlaid, hinside, -⟩ := hready
      exact ⟨iff_of_true hinside (by simp [EntryFits, decoding]),
        fun _ => ⟨hlaid, hinside, Nat.zero_le _, Nat.sub_one_lt hlaid.pos.ne'⟩⟩
  next block iter =>
      split at hstep
      next hvalid =>
          cases hstep
          obtain ⟨hlaid, hinside, -⟩ := hready
          obtain ⟨offset, -, -, hoffset, -⟩ := exists_nextEntryOffset hlaid (hinside hvalid)
          simpa [EntryFits, decoding, hoffset, Except.toOption] using parsed_inside hlaid hoffset
      next => cases hstep
  next block iter key left right =>
      obtain ⟨hlaid, hinside, hle, hright⟩ := hready
      by_cases hlt : left < right
      · obtain ⟨offset, -, hoffset⟩ :=
          hlaid.exists_restartPoint ((mid_between hlaid hlt hright).2.trans_lt hright)
        obtain ⟨hiff, hkept, -⟩ := searched_inside hlaid hinside hlt hright hoffset key
        simpa [EntryFits, decoding, hlt, hoffset, Except.toOption] using And.intro hiff hkept
      · obtain ⟨offset, start, hoffset, hstart, hnext, hkey⟩ :=
          seekToRestartPoint_spec hlaid iter (hle.trans_lt hright)
        have hscan := scanned_inside hlaid hnext key
        rw [hkey] at hscan
        simpa [EntryFits, decoding, searched, hlt, hoffset, hstart, Except.toOption] using hscan
  next block iter key =>
      obtain ⟨hlaid, hinside, hvalid⟩ := hready
      obtain ⟨offset, -, -, hoffset, -⟩ := exists_nextEntryOffset hlaid (hinside hvalid)
      simpa [EntryFits, decoding, hoffset, Except.toOption] using scanned_inside hlaid hoffset key

/-- A step that finds no entry it can use leaves an invalid iterator and ends the call. -/
theorem invalid_of_malformed {source target : IterState} {call : Call} (hready : Ready source)
    (hmalformed : Malformed source call) (hstep : iterStep source call = some target) :
    Invalid target ∧ CallEnded target := by
  obtain ⟨place, hplace, hunused⟩ := hmalformed
  unfold iterStep at hstep
  split at hstep <;> try cases hstep
  next => cases hplace
  next => cases hplace
  next block iter =>
      obtain ⟨hlaid, -, -⟩ := hready
      obtain ⟨offset, start, hoffset, hstart, hnext, hkey⟩ :=
        seekToRestartPoint_spec hlaid iter hlaid.pos
      obtain rfl : (block, .parse offset 0) = place := by
        simpa [decoding, hoffset, Except.toOption] using hplace
      have hparsed := parsed_of_offset hlaid hnext
      obtain ⟨next, hresult⟩ := hparsed.not_parsed (by rw [hkey]; exact hunused)
      have hinvalid := (hparsed.valid_iff hresult).not.mpr Bool.false_ne_true
      simp only [Iter.seekToFirst, hstart, hresult, ok_bind]
      exact ⟨hinvalid, rfl⟩
  next => cases hplace
  next block iter =>
      split at hstep
      next hvalid =>
          cases hstep
          obtain ⟨hlaid, hinside, -⟩ := hready
          obtain ⟨offset, -, -, hoffset, -⟩ := exists_nextEntryOffset hlaid (hinside hvalid)
          obtain rfl : (block, .parse offset iter.key.length) = place := by
            simpa [decoding, hoffset, Except.toOption] using hplace
          have hparsed := parsed_of_offset hlaid hoffset
          obtain ⟨next, hresult⟩ := hparsed.not_parsed hunused
          have hinvalid := (hparsed.valid_iff hresult).not.mpr Bool.false_ne_true
          simp only [hresult, ok_bind]
          exact ⟨hinvalid, rfl⟩
      next => cases hstep
  next block iter key left right =>
      obtain ⟨hlaid, hinside, hle, hright⟩ := hready
      by_cases hlt : left < right
      · obtain ⟨offset, -, hoffset⟩ :=
          hlaid.exists_restartPoint ((mid_between hlaid hlt hright).2.trans_lt hright)
        obtain rfl : (block, .probe offset key) = place := by
          simpa [decoding, hlt, hoffset, Except.toOption] using hplace
        have hprobed := probed_of_offset hlaid rfl hoffset key
        rw [searched, if_pos hlt]
        generalize Iter.searchRound block key left right = result at hprobed ⊢
        cases hprobed with
        | corrupt => exact ⟨lt_irrefl _, rfl⟩
        | narrowed entry hused | outside entry hused =>
            exact absurd (hused.symm.trans hunused) (Option.some_ne_none entry)
      · obtain ⟨offset, start, hoffset, hstart, hnext, hkey⟩ :=
          seekToRestartPoint_spec hlaid iter (hle.trans_lt hright)
        obtain rfl : (block, .parse offset 0) = place := by
          simpa [decoding, hlt, hoffset, Except.toOption] using hplace
        have hparsed := parsed_of_offset hlaid hnext
        obtain ⟨next, hresult⟩ := hparsed.not_parsed (by rw [hkey]; exact hunused)
        have hinvalid := (hparsed.valid_iff hresult).not.mpr Bool.false_ne_true
        simp only [searched, if_neg hlt, hstart, scanned, Iter.scanRound, hresult, ok_bind, pure,
          Except.pure]
        exact ⟨hinvalid, rfl⟩
  next block iter key =>
      obtain ⟨hlaid, hinside, hvalid⟩ := hready
      obtain ⟨offset, -, -, hoffset, -⟩ := exists_nextEntryOffset hlaid (hinside hvalid)
      obtain rfl : (block, .parse offset iter.key.length) = place := by
        simpa [decoding, hoffset, Except.toOption] using hplace
      have hparsed := parsed_of_offset hlaid hoffset
      obtain ⟨next, hresult⟩ := hparsed.not_parsed hunused
      have hinvalid := (hparsed.valid_iff hresult).not.mpr Bool.false_ne_true
      simp only [scanned, Iter.scanRound, hresult, ok_bind, pure, Except.pure]
      exact ⟨hinvalid, rfl⟩

/-- A call that has not ended takes another round, and has fewer left. -/
theorem exists_round {source : IterState} (hready : Ready source) (hrunning : ¬ CallEnded source) :
    ∃ target, iterStep source .round = some target ∧
      (Ready target → roundsLeft target < roundsLeft source) := by
  obtain _ | ⟨block, iter, activity⟩ | _ := source
  · exact absurd trivial hrunning
  · obtain ⟨hlaid, hinside, hactivity⟩ := hready
    cases activity with
    | idle => exact absurd rfl hrunning
    | searching key left right =>
        refine ⟨_, rfl, ?_⟩
        obtain ⟨hle, hright⟩ := hactivity
        by_cases hlt : left < right
        · obtain ⟨offset, -, hoffset⟩ :=
            hlaid.exists_restartPoint ((mid_between hlaid hlt hright).2.trans_lt hright)
          exact fun _ => (searched_inside hlaid hinside hlt hright hoffset key).2.2
        · obtain ⟨offset, start, -, hstart, hnext, -⟩ :=
            seekToRestartPoint_spec hlaid iter (hle.trans_lt hright)
          simp only [searched, if_neg hlt, hstart, ok_bind]
          intro hscanned
          have hless := roundsLeft_scanned_lt hlaid hnext key hscanned
          simp only [roundsLeft] at hless ⊢
          omega
    | scanning key =>
        obtain ⟨offset, -, -, hoffset, -⟩ := exists_nextEntryOffset hlaid (hinside hactivity)
        refine ⟨_, rfl, fun hscanned => ?_⟩
        have hless := roundsLeft_scanned_lt hlaid hoffset key hscanned
        simpa only [roundsLeft, hoffset] using hless
  · exact absurd trivial hrunning

/-! ## Runs -/

/-- The iterator over the given bytes. -/
def iterMachine (contents : List UInt8) : Machine IterState Call where
  init := openBlock contents
  step := iterStep

theorem ready_openBlock {contents : List UInt8} (hsize : contents.length < 2 ^ 32) :
    Ready (openBlock contents) := by
  rw [openBlock, Block.ofContents]
  by_cases hshort : contents.length < 4
  · rw [if_pos hshort]
    exact trivial
  have hlast : contents.length - 4 + 4 ≤ contents.length := by omega
  obtain ⟨count, hcount, hread⟩ := exists_decodeFixed32 hlast
  simp only [if_neg hshort, Block.numRestarts, hread, ok_bind]
  by_cases hmany : (contents.length - 4) / 4 < count
  · simp only [if_pos hmany]
    exact trivial
  have hwrap : uint32 (contents.length - uint32 (1 + count) * 4) =
      contents.length - (1 + count) * 4 := by
    rw [uint32, uint32, Nat.mod_eq_of_lt (b := 2 ^ 32) (a := 1 + count) (by omega),
      Nat.mod_eq_of_lt (by omega)]
  simp only [if_neg hmany, hwrap, ok_bind, newIterator, pure, Except.pure, if_neg hshort,
    Block.numRestarts, hread]
  by_cases hnone : count = 0
  · rw [if_pos hnone]
    exact trivial
  · rw [if_neg hnone]
    refine ⟨⟨hsize, ?_, Nat.pos_of_ne_zero hnone⟩, fun hvalid => absurd hvalid (lt_irrefl _),
      trivial⟩
    show contents.length - (1 + count) * 4 + count * 4 + 4 = contents.length
    omega

variable {contents : List UInt8}

theorem ready_of_reaches (hsize : contents.length < 2 ^ 32) {state : IterState}
    (hreached : (iterMachine contents).Reaches EntryFits state) : Ready state :=
  hreached.invariant (P := Ready) (ready_openBlock hsize) fun _ _ _ _ hready hfits hstep =>
    (step_inside hready hstep).2 ((step_inside hready hstep).1.mpr hfits)

/-- The call under way ends after some more rounds, if these use only entries that fit. -/
def CallEnds (contents : List UInt8) (state : IterState) : Prop :=
  ∃ rounds target, (iterMachine contents).run (.replicate rounds .round) state = some target ∧
    ((iterMachine contents).RunMeets EntryFits (.replicate rounds .round) state → CallEnded target)

theorem callEnds_of_ready {state : IterState} (hready : Ready state) : CallEnds contents state := by
  induction hleft : roundsLeft state using Nat.strong_induction_on generalizing state with
  | _ left ih =>
      by_cases hended : CallEnded state
      · exact ⟨0, state, rfl, fun _ => hended⟩
      obtain ⟨next, hstep, hless⟩ := exists_round hready hended
      by_cases hfits : EntryFits state .round
      · obtain ⟨hiff, hkept⟩ := step_inside hready hstep
        have hnext := hkept (hiff.mpr hfits)
        obtain ⟨rounds, target, hrun, hends⟩ := ih _ (hleft ▸ hless hnext) hnext rfl
        refine ⟨rounds + 1, target, ?_, fun hmeets => hends (hmeets.2 next hstep)⟩
        exact Option.bind_eq_some_iff.mpr ⟨next, hstep, hrun⟩
      · exact ⟨1, next, Option.bind_eq_some_iff.mpr ⟨next, hstep, rfl⟩,
          fun hmeets => absurd hmeets.1 hfits⟩

/-- **Reads of a block.** In a run whose steps use only entries whose lengths do not
wrap around, nothing is read outside the block, keys and values come from the entries,
every call ends, and a malformed entry leaves the iterator invalid. A step that uses
an entry whose lengths wrap around reads outside or leaves a value outside. -/
theorem block_reads_inside (contents : List UInt8) (hsize : contents.length < 2 ^ 32) :
    (∀ state, (iterMachine contents).Reaches EntryFits state →
      ReadsInside state ∧ CallEnds contents state) ∧
    ∀ source call target, (iterMachine contents).Reaches EntryFits source →
      iterStep source call = some target →
        (ReadsInside target ↔ EntryFits source call) ∧
        (Malformed source call → Invalid target ∧ CallEnded target) := by
  refine ⟨?_, ?_⟩
  · intro state hreached
    have hready := ready_of_reaches hsize hreached
    exact ⟨hready.readsInside, callEnds_of_ready hready⟩
  · intro source call target hreached hstep
    have hready := ready_of_reaches hsize hreached
    exact ⟨(step_inside hready hstep).1,
      fun hmalformed => invalid_of_malformed hready hmalformed hstep⟩

/-- Two entries, each at a restart point. -/
def twoEntries : List UInt8 :=
  [0, 1, 1, 97, 120, 0, 1, 1, 98, 121, 0, 0, 0, 0, 5, 0, 0, 0, 2, 0, 0, 0]

/-- A search finds the second of two entries inside the block, and ends. -/
theorem second_entry_inside :
    ∃ state, (iterMachine twoEntries).Reaches EntryFits state ∧
      decide (state = .reading ⟨twoEntries, 10, 2⟩ ⟨5, 0, [98], some ⟨9, 1⟩, true⟩ .idle) = true ∧
      ReadsInside state ∧ CallEnds twoEntries state := by
  have hmeets : (iterMachine twoEntries).RunMeets EntryFits
      [.seekToFirst, .seek [98], .round, .round, .round] (iterMachine twoEntries).init := by
    decide +kernel
  obtain ⟨state, hreached, hstate⟩ := Machine.exists_reaches (M := iterMachine twoEntries) _
    (Q := fun state => decide
      (state = .reading ⟨twoEntries, 10, 2⟩ ⟨5, 0, [98], some ⟨9, 1⟩, true⟩ .idle))
    hmeets (by decide +kernel)
  exact ⟨state, hreached, hstate, (block_reads_inside twoEntries (by decide)).1 state hreached⟩

/-- An entry whose key delta has 2³² - 1 bytes and whose value has one. -/
def wrappingEntry : List UInt8 := [0, 255, 255, 255, 255, 15, 1, 0, 0, 0, 0, 1, 0, 0, 0]

/-- Lengths whose sum wraps around to zero pass the comparison, and the key delta is
read beyond the block. -/
theorem wrapped_lengths_read_outside :
    wrappingEntry.length < 2 ^ 32 ∧
      ∃ state, (iterMachine wrappingEntry).Reaches Machine.Unguarded state ∧
        decide (state = .faulted .outside) = true :=
  ⟨by decide, Machine.exists_reaches_unguarded (M := iterMachine wrappingEntry) [.seekToFirst]
    (Q := fun state => decide (state = .faulted .outside)) (by decide +kernel)⟩

end ContainerScheduler.Analysis
