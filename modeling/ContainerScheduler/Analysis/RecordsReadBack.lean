/-
# Records are read back

Wherever the stream of a reader stands, it can be brought to the start of a record, and the record
is read from there. So the order of the calls does not matter: random reads, reads at the end of the
file and scans for the metadata leave a reader that reads every record.
-/

import ContainerScheduler.Analysis.StreamPositions
import ContainerScheduler.Records.RecordFile

namespace ContainerScheduler.Analysis

open Math
open Records
open Table (encodeFixed)

/-! ## The format -/

/-- `Unmask` inverts `Mask`. -/
theorem unmask_mask (crc : BitVec 32) : unmask (mask crc) = crc := by
  rw [unmask, mask, BitVec.add_sub_cancel]
  apply BitVec.eq_of_getLsbD_eq
  intro i hi
  simp only [BitVec.getLsbD_or, BitVec.getLsbD_ushiftRight, BitVec.getLsbD_shiftLeft]
  rcases Nat.lt_or_ge i 15 with hlow | hhigh
  · have hout : crc.getLsbD (15 + (17 + i)) = false := BitVec.getLsbD_of_ge _ _ (by omega)
    simp [hlow, hout]
    omega
  · have hsame : 15 + (i - 15) = i := by omega
    have hout : crc.getLsbD (15 + (17 + i)) = false := BitVec.getLsbD_of_ge _ _ (by omega)
    have hlow : ¬17 + i < 32 := by omega
    have hshort : i - 15 < 17 := by omega
    simp [hsame, hout, hlow, hshort, hi, Nat.not_lt.mpr hhigh]

theorem length_encodeFixed (width number : ℕ) : (encodeFixed width number).length = width := by
  induction width generalizing number with
  | zero => rfl
  | succ width ih => rw [encodeFixed, List.length_cons, ih]

theorem decodeFixed_encodeFixed {width number : ℕ} (hlt : number < 256 ^ width) :
    decodeFixed (encodeFixed width number) = number := by
  induction width generalizing number with
  | zero =>
      rw [pow_zero, Nat.lt_one_iff] at hlt
      exact hlt.symm
  | succ width ih =>
      rw [pow_succ, Nat.mul_comm] at hlt
      have hrest := ih (Nat.div_lt_of_lt_mul hlt)
      have hlow : (UInt8.ofNat number).toNat = number % 256 := rfl
      rw [encodeFixed, decodeFixed, List.foldr_cons, ← decodeFixed, hrest, hlow]
      omega

variable (value : List UInt8 → BitVec 32)

/-- The bytes of one record. -/
def recordBytes (data : List UInt8) : List UInt8 :=
  populateHeader value data ++ data ++ populateFooter value data

theorem length_populateHeader (data : List UInt8) :
    (populateHeader value data).length = kHeaderSize := by
  rw [populateHeader, List.length_append, maskedCrc, length_encodeFixed, length_encodeFixed]
  rfl

theorem length_recordBytes (data : List UInt8) :
    (recordBytes value data).length = kHeaderSize + data.length + kFooterSize := by
  simp only [recordBytes, populateHeader, populateFooter, maskedCrc, List.length_append,
    length_encodeFixed, kHeaderSize, kFooterSize]

theorem writtenFile_eq (records : List (List UInt8)) :
    writtenFile value records = records.flatMap (recordBytes value) := by
  have hfold : ∀ contents : List UInt8, records.foldl (writeRecord value) contents =
      contents ++ records.flatMap (recordBytes value) := by
    induction records with
    | nil => exact fun contents => (List.append_nil contents).symm
    | cons data records ih =>
        intro contents
        rw [List.foldl_cons, ih, writeRecord, List.flatMap_cons, recordBytes]
        simp only [List.append_assoc]
  exact hfold []

/-- Where a record starts. -/
def startOf (records : List (List UInt8)) (i : ℕ) : ℕ :=
  ((records.take i).flatMap (recordBytes value)).length

variable {value} {records : List (List UInt8)}

theorem startOf_length : startOf value records records.length =
    (writtenFile value records).length := by
  rw [startOf, List.take_length, writtenFile_eq]

variable (value) in
theorem startOf_succ {i : ℕ} (hi : i < records.length) :
    startOf value records (i + 1) =
      startOf value records i + kHeaderSize + records[i].length + kFooterSize := by
  rw [startOf, List.take_add_one, List.getElem?_eq_getElem hi, Option.toList_some,
    List.flatMap_append, List.length_append, List.flatMap_cons, List.flatMap_nil, List.append_nil,
    length_recordBytes, ← startOf]
  omega

theorem writtenFile_split (i : ℕ) : writtenFile value records =
    (records.take i).flatMap (recordBytes value) ++
      (records.drop i).flatMap (recordBytes value) := by
  rw [writtenFile_eq, ← List.flatMap_append, List.take_append_drop]

/-- What the file holds from the start of a record on. -/
theorem drop_startOf (i : ℕ) :
    (writtenFile value records).drop (startOf value records i) =
      (records.drop i).flatMap (recordBytes value) := by
  rw [writtenFile_split i, startOf, List.drop_left]

variable (value records) in
theorem startOf_le (i : ℕ) : startOf value records i ≤ (writtenFile value records).length := by
  rw [writtenFile_split i, startOf, List.length_append]
  exact Nat.le_add_right _ _

/-! ## Reading -/

section Reader

variable {σ : Type} {stream : InputStream σ} {contents : List UInt8} {stands : σ → ℕ → Prop}

theorem readChecksummed_spec (hreads : ReadsFile stream contents stands) {inputStream : σ} {p : ℕ}
    (hstands : stands inputStream p) {data rest : List UInt8} (offset : ℕ)
    (hdata : contents.drop p = data ++ maskedCrc value data ++ rest) (hlt : data.length < 2 ^ 63) :
    ∃ next, readChecksummed value stream offset data.length inputStream = (.ok data, next) ∧
      stands next (p + data.length + 4) := by
  have hcrc : (maskedCrc value data).length = 4 := length_encodeFixed 4 _
  have hle := hreads.position_le hstands
  have hlength := congrArg List.length hdata
  rw [List.length_drop, List.length_append, List.length_append, hcrc] at hlength
  rcases hreads.read_spec hstands (show 0 < data.length + 4 by omega) with ⟨next, hread, hnext⟩
  have htake : (contents.drop p).take (data.length + 4) = data ++ maskedCrc value data := by
    rw [hdata, List.take_left' (by rw [List.length_append, hcrc])]
  rw [if_pos (by omega), htake] at hread
  refine ⟨next, ?_, ?_⟩
  · have hfirst : (data ++ maskedCrc value data).take data.length = data := List.take_left
    have hsecond : ((data ++ maskedCrc value data).drop data.length).take 4 =
        maskedCrc value data := by
      rw [List.drop_left, ← hcrc, List.take_length]
    have hvalue : unmask (BitVec.ofNat 32 (decodeFixed (maskedCrc value data))) = value data := by
      rw [maskedCrc, decodeFixed_encodeFixed (mask (value data)).isLt, BitVec.ofNat_toNat,
        BitVec.setWidth_eq, unmask_mask]
    rw [readChecksummed, if_neg (by omega)]
    simp only [hread]
    rw [if_neg (by rw [List.length_append, hcrc]; simp), hfirst, hsecond, hvalue, if_neg (by simp)]
  · rw [min_eq_left (by omega), ← Nat.add_assoc] at hnext
    exact hnext

variable (value) in
/-- Bytes that the file does not hold are not read. -/
theorem readChecksummed_short (hreads : ReadsFile stream contents stands) {inputStream : σ} {p : ℕ}
    (hstands : stands inputStream p) (offset : ℕ) {n : ℕ} (hn : n < 2 ^ 63)
    (hshort : contents.length < p + (n + 4)) :
    ∃ next, readChecksummed value stream offset n inputStream =
        (.error (.stream .outOfRange), next) ∧ stands next contents.length := by
  rcases hreads.read_spec hstands (show 0 < n + 4 by omega) with ⟨next, hread, hnext⟩
  rw [if_neg (by omega)] at hread
  refine ⟨next, ?_, ?_⟩
  · rw [readChecksummed, if_neg (by omega)]
    simp only [hread]
  · rw [min_eq_right (by omega)] at hnext
    exact hnext

variable (value) in
theorem readChecksummed_end (hreads : ReadsFile stream contents stands) {inputStream : σ}
    (hstands : stands inputStream contents.length) (offset n : ℕ) (hn : n < 2 ^ 63) :
    ∃ next, readChecksummed value stream offset n inputStream =
        (.error (.stream .outOfRange), next) ∧ stands next contents.length :=
  readChecksummed_short value hreads hstands offset hn (by omega)

/-- A reader is brought to a position of the file from wherever it stands. -/
theorem position_spec (hreads : ReadsFile stream contents stands) {reader : RecordReader σ}
    {p q : ℕ}
    (hstands : stands reader.inputStream p) (hq : q ≤ contents.length) :
    ∃ next, position stream q reader = (none, next) ∧ stands next.inputStream q ∧
      next.cachedMetadata = reader.cachedMetadata := by
  have htell := hreads.tell_eq hstands
  rw [position, htell]
  simp only
  split_ifs with hback hforward
  · rcases hreads.reset_spec hstands with ⟨fresh, hreset, hfresh⟩
    rcases hreads.skip_spec hfresh (show 0 + q ≤ contents.length by omega) with ⟨next, hskip, hnext⟩
    rw [Nat.zero_add] at hnext
    exact ⟨⟨next, false, reader.cachedMetadata⟩, by simp only [hreset, hskip], hnext, rfl⟩
  · have hcast : (q : ℤ) - p = (q - p : ℕ) := by omega
    rcases hreads.skip_spec hstands (show p + (q - p) ≤ contents.length by omega) with
      ⟨next, hskip, hnext⟩
    have hsum : p + (q - p) = q := by omega
    rw [hsum] at hnext
    exact ⟨⟨next, reader.lastReadFailed, reader.cachedMetadata⟩, by simp only [hcast, hskip], hnext,
      rfl⟩
  · have heq : p = q := by omega
    exact ⟨reader, rfl, heq ▸ hstands, rfl⟩

theorem readHeader_at (hreads : ReadsFile stream contents stands) {inputStream : σ} {p : ℕ}
    (hstands : stands inputStream p) {data rest : List UInt8} (offset : ℕ)
    (hdata : contents.drop p = populateHeader value data ++ rest) (hlt : data.length < 2 ^ 63) :
    ∃ header next, readChecksummed value stream offset 8 inputStream = (.ok header, next) ∧
      decodeFixed (header.take 8) = data.length ∧ stands next (p + kHeaderSize) := by
  have hlength := length_encodeFixed 8 data.length
  rcases readChecksummed_spec hreads hstands offset hdata (by rw [hlength]; decide) with
    ⟨next, hread, hnext⟩
  rw [hlength] at hread hnext
  refine ⟨_, next, hread, ?_, hnext⟩
  have htake := List.take_length (l := encodeFixed 8 data.length)
  rw [hlength] at htake
  rw [htake, decodeFixed_encodeFixed]
  exact lt_of_lt_of_le hlt (by decide)

theorem readRecord_at (hreads : ReadsFile stream contents stands)
    (hsize : contents.length < 2 ^ 63) {reader : RecordReader σ} {p : ℕ}
    (hstands : stands reader.inputStream p) {offset : ℕ} {data rest : List UInt8}
    (hle : offset ≤ contents.length)
    (hdata : contents.drop offset = recordBytes value data ++ rest) :
    ∃ next, readRecord value stream offset reader =
        (.ok data, offset + kHeaderSize + data.length + kFooterSize, next) ∧
      stands next.inputStream (offset + kHeaderSize + data.length + kFooterSize) ∧
      next.cachedMetadata = reader.cachedMetadata := by
  have hlength := congrArg List.length hdata
  rw [List.length_drop, List.length_append, length_recordBytes] at hlength
  have hheader := length_populateHeader value data
  have hbmod : Int.bmod offset (2 ^ 64) = offset := Int.bmod_eq_of_le (by omega) (by omega)
  rw [recordBytes, List.append_assoc, List.append_assoc] at hdata
  rcases position_spec hreads hstands hle with ⟨placed, hposition, hplaced, hsame⟩
  rcases readHeader_at hreads hplaced offset hdata (by omega) with
    ⟨header, next, hread, hdecode, hnext⟩
  have hrest : contents.drop (offset + kHeaderSize) = data ++ maskedCrc value data ++ rest := by
    rw [← List.drop_drop, hdata, List.drop_left' hheader, List.append_assoc]
    rfl
  rcases readChecksummed_spec hreads hnext (offset + kHeaderSize) hrest (by omega) with
    ⟨last, hlast, hstands'⟩
  refine ⟨{ placed with inputStream := last }, ?_, hstands', hsame⟩
  rw [readRecord, hbmod]
  simp only [hposition, hread, hdecode, hlast]

end Reader

/-! ## The calls of a reader -/

section Calls

variable {σ : Type} {stream : InputStream σ} {stands : σ → ℕ → Prop}

/-- The metadata of a file. -/
def statsOf (records : List (List UInt8)) : Stats :=
  let dataSize := (records.map List.length).sum
  ⟨dataSize + (kHeaderSize + kFooterSize) * records.length, dataSize, records.length⟩

/-- What holds of a reader between two calls: its stream stands somewhere in the file, and cached
metadata are those of the file. -/
def ReaderOk (stands : σ → ℕ → Prop) (records : List (List UInt8))
    (reader : RecordReader σ) : Prop :=
  (∃ p, stands reader.inputStream p) ∧
    ∀ stats, reader.cachedMetadata = some stats → stats = statsOf records

variable (value) in
theorem drop_record {i : ℕ} (hi : i < records.length) :
    (writtenFile value records).drop (startOf value records i) =
      recordBytes value records[i] ++ (records.drop (i + 1)).flatMap (recordBytes value) := by
  rw [drop_startOf, List.drop_eq_getElem_cons hi, List.flatMap_cons]

theorem length_record_lt (hsize : (writtenFile value records).length < 2 ^ 63) {i : ℕ}
    (hi : i < records.length) :
    startOf value records i + kHeaderSize + records[i].length + kFooterSize < 2 ^ 63 :=
  startOf_succ _ hi ▸ lt_of_le_of_lt (startOf_le _ _ (i + 1)) hsize

theorem readHeader (hreads : ReadsFile stream (writtenFile value records) stands)
    (hsize : (writtenFile value records).length < 2 ^ 63) {i : ℕ} (hi : i < records.length)
    {inputStream : σ} (hstands : stands inputStream (startOf value records i)) (offset : ℕ) :
    ∃ header next, readChecksummed value stream offset 8 inputStream = (.ok header, next) ∧
      decodeFixed (header.take 8) = records[i].length ∧
      stands next (startOf value records i + kHeaderSize) := by
  have hlt := length_record_lt hsize hi
  have hdrop := drop_record value hi
  rw [recordBytes, List.append_assoc, List.append_assoc] at hdrop
  exact readHeader_at hreads hstands offset hdrop (by omega)

/-- **A record is read at its start.** -/
theorem readRecord_spec (hreads : ReadsFile stream (writtenFile value records) stands)
    (hsize : (writtenFile value records).length < 2 ^ 63) {reader : RecordReader σ}
    (hok : ReaderOk stands records reader) {i : ℕ} (hi : i < records.length) :
    ∃ next, readRecord value stream (startOf value records i) reader =
        (.ok records[i], startOf value records (i + 1), next) ∧ ReaderOk stands records next := by
  rcases hok with ⟨⟨p, hstands⟩, hcached⟩
  rcases readRecord_at hreads hsize hstands (startOf_le _ _ i) (drop_record value hi) with
    ⟨next, hread, hnext, hsame⟩
  rw [← startOf_succ _ hi] at hread hnext
  exact ⟨next, hread, ⟨_, hnext⟩, fun stats hstats => hcached stats (hsame ▸ hstats)⟩

/-- **At the end of the file no record is read.** -/
theorem readRecord_end (hreads : ReadsFile stream (writtenFile value records) stands)
    (hsize : (writtenFile value records).length < 2 ^ 63) {reader : RecordReader σ}
    (hok : ReaderOk stands records reader) :
    ∃ next, readRecord value stream (writtenFile value records).length reader =
        (.error (.stream .outOfRange), (writtenFile value records).length, next) ∧
      ReaderOk stands records next := by
  rcases hok with ⟨⟨p, hstands⟩, hcached⟩
  have hbmod : Int.bmod (writtenFile value records).length (2 ^ 64) =
      (writtenFile value records).length := Int.bmod_eq_of_le (by omega) (by omega)
  rcases position_spec hreads hstands le_rfl with ⟨placed, hposition, hplaced, hsame⟩
  rcases readChecksummed_end value hreads hplaced (writtenFile value records).length 8
      (by decide) with
    ⟨last, hread, hlast⟩
  refine ⟨{ placed with inputStream := last, lastReadFailed := true }, ?_, ⟨_, hlast⟩, ?_⟩
  · rw [readRecord, hbmod]
    simp only [hposition, hread]
  · intro stats hstats
    exact hcached stats (hsame ▸ hstats)

/-- The scan goes from record to record. -/
theorem metadataLoop_spec (hreads : ReadsFile stream (writtenFile value records) stands)
    (hsize : (writtenFile value records).length < 2 ^ 63) {headers i : ℕ} (hi : i ≤ records.length)
    (hheaders : records.length < headers + i) {inputStream : σ}
    (hstands : stands inputStream (startOf value records i)) (dataSize entries : ℕ) :
    ∃ next, metadataLoop value stream headers (startOf value records i) dataSize entries
        inputStream = some (.ok (dataSize + ((records.drop i).map List.length).sum,
          entries + (records.length - i)), next) ∧
      stands next (writtenFile value records).length := by
  induction headers generalizing i dataSize entries inputStream with
  | zero => omega
  | succ headers ih =>
      rcases Nat.lt_or_eq_of_le hi with hlt | rfl
      · have hbound := length_record_lt hsize hlt
        rcases readHeader hreads hsize hlt hstands (startOf value records i) with
          ⟨header, next, hheader, hdecode, hnext⟩
        have hskipped : startOf value records i + kHeaderSize + (records[i].length + kFooterSize) ≤
            (writtenFile value records).length := by
          have hle := startOf_le value records (i + 1)
          rw [startOf_succ _ hlt] at hle
          omega
        rcases hreads.skip_spec hnext hskipped with ⟨last, hskip, hlast⟩
        have hbmod : Int.bmod (records[i].length + kFooterSize) (2 ^ 64) =
            ((records[i].length + kFooterSize : ℕ) : ℤ) := by
          rw [← Nat.cast_add]
          exact Int.bmod_eq_of_le (by omega) (by omega)
        rw [← Nat.add_assoc, ← startOf_succ _ hlt] at hlast
        rcases ih hlt (by omega) hlast (dataSize + records[i].length) (entries + 1) with
          ⟨final, hloop, hfinal⟩
        refine ⟨final, ?_, hfinal⟩
        rw [metadataLoop]
        simp only [hheader, hdecode, hbmod, hskip]
        have hcount : entries + 1 + (records.length - (i + 1)) =
            entries + (records.length - i) := by
          omega
        rw [← startOf_succ _ hlt, hloop, List.drop_eq_getElem_cons hlt, List.map_cons,
          List.sum_cons,
          hcount, Nat.add_assoc]
      · rw [startOf_length] at hstands ⊢
        rcases readChecksummed_end value hreads hstands (writtenFile value records).length 8
            (by decide) with ⟨last, hread, hlast⟩
        refine ⟨last, ?_, hlast⟩
        rw [metadataLoop]
        simp only [hread, RecordError.isOutOfRange, if_true, List.drop_length, List.map_nil,
          List.sum_nil, Nat.sub_self, Nat.add_zero]

/-- **The metadata are those of the file.** -/
theorem getMetadata_spec (hreads : ReadsFile stream (writtenFile value records) stands)
    (hsize : (writtenFile value records).length < 2 ^ 63) {reader : RecordReader σ}
    (hok : ReaderOk stands records reader) {headers : ℕ} (hheaders : records.length < headers) :
    ∃ next, getMetadata value stream headers reader = some (.ok (statsOf records), next) ∧
      ReaderOk stands records next := by
  rcases hok with ⟨⟨p, hstands⟩, hcached⟩
  rw [getMetadata]
  cases hmetadata : reader.cachedMetadata with
  | some stats =>
      refine ⟨reader, ?_, ⟨p, hstands⟩, hcached⟩
      rw [hcached stats hmetadata]
  | none =>
      rcases hreads.reset_spec hstands with ⟨fresh, hreset, hfresh⟩
      rcases metadataLoop_spec hreads hsize (Nat.zero_le _) hheaders hfresh 0 0 with
        ⟨last, hloop, hlast⟩
      have hzero : startOf value records 0 = 0 := rfl
      rw [hzero, List.drop_zero, Nat.zero_add, Nat.zero_add, Nat.sub_zero] at hloop
      refine ⟨⟨last, reader.lastReadFailed, some (statsOf records)⟩, ?_, ⟨_, hlast⟩, ?_⟩
      · simp only [hreset, hloop, Option.map_some]
        rfl
      · intro stats hstats
        exact (Option.some.inj hstats).symm

end Calls

/-! ## Every order of calls -/

section Runs

variable {σ : Type} (value : List UInt8 → BitVec 32) (records : List (List UInt8))

/-- Records are read at the starts of records or at the end of the file. -/
def AtRecord : RecordReader σ → ReaderCall → Prop
  | _, .readRecord offset => ∃ i ∈ List.range (records.length + 1), offset = startOf value records i
  | _, .getMetadata => True

instance (reader : RecordReader σ) : ∀ call, Decidable (AtRecord value records reader call)
  | .readRecord _ => inferInstanceAs (Decidable (∃ i ∈ List.range _, _))
  | .getMetadata => inferInstanceAs (Decidable True)

/-- A reader reads each record at its start and moves on to the next one, finds the end of the file
at its end and stays there, and reports the number and the size of the records. -/
def ReadsBack (stream : InputStream σ) (headers : ℕ) (reader : RecordReader σ) : Prop :=
  (∀ i (hi : i < records.length), ∃ next, readRecord value stream (startOf value records i) reader =
    (.ok records[i], startOf value records (i + 1), next)) ∧
  (∃ error next, readRecord value stream (writtenFile value records).length reader =
    (.error error, (writtenFile value records).length, next) ∧ error.isOutOfRange = true) ∧
  ∃ next, getMetadata value stream headers reader = some (.ok (statsOf records), next)

variable {value records}

theorem readsBack_of_reaches {stream : InputStream σ} {stands : σ → ℕ → Prop}
    (hreads : ReadsFile stream (writtenFile value records) stands)
    (hsize : (writtenFile value records).length < 2 ^ 63) {headers : ℕ}
    (hheaders : records.length < headers) {opened : σ} (hopened : stands opened 0)
    {reader : RecordReader σ}
    (hreached :
      (recordReader value stream headers opened).Reaches (AtRecord value records) reader) :
    ReadsBack value records stream headers reader := by
  have hok : ReaderOk stands records reader := by
    refine hreached.invariant ⟨⟨0, hopened⟩, nofun⟩ fun source call target _ hok hcall hstep => ?_
    cases call with
    | readRecord offset =>
        obtain rfl := Option.some.inj hstep
        rcases hcall with ⟨i, hi, rfl⟩
        rcases Nat.lt_or_eq_of_le (Nat.lt_succ_iff.mp (List.mem_range.mp hi)) with hlt | rfl
        · rcases readRecord_spec hreads hsize hok hlt with ⟨next, hread, hnext⟩
          rw [hread]
          exact hnext
        · rcases readRecord_end hreads hsize hok with ⟨next, hread, hnext⟩
          rw [startOf_length, hread]
          exact hnext
    | getMetadata =>
        rcases getMetadata_spec hreads hsize hok hheaders with ⟨next, hmetadata, hnext⟩
        rcases Option.map_eq_some_iff.mp hstep with ⟨result, hresult, rfl⟩
        obtain rfl := Option.some.inj (hmetadata.symm.trans hresult)
        exact hnext
  refine ⟨fun i hi => ?_, ?_, ?_⟩
  · rcases readRecord_spec hreads hsize hok hi with ⟨next, hread, -⟩
    exact ⟨next, hread⟩
  · rcases readRecord_end hreads hsize hok with ⟨next, hread, -⟩
    exact ⟨_, next, hread, rfl⟩
  · rcases getMetadata_spec hreads hsize hok hheaders with ⟨next, hmetadata, -⟩
    exact ⟨next, hmetadata⟩

/-- **Records are read back, in every order of calls and with every buffer size.** Positions in a
file are signed 64-bit numbers, and a scan has headers enough to come to the end. -/
theorem records_read_back (hsize : (writtenFile value records).length < 2 ^ 63) {headers : ℕ}
    (hheaders : records.length < headers) :
    (∀ reader,
      (recordReader value (randomAccessInputStream (writtenFile value records)) headers 0).Reaches
        (AtRecord value records) reader →
      ReadsBack value records (randomAccessInputStream (writtenFile value records)) headers
        reader) ∧
      ∀ size, 0 < size → ∀ reader,
        (recordReader value
            (bufferedInputStream (randomAccessInputStream (writtenFile value records)) size) headers
            ⟨0, [], 0, 0, none⟩).Reaches (AtRecord value records) reader →
          ReadsBack value records
            (bufferedInputStream (randomAccessInputStream (writtenFile value records)) size) headers
            reader := by
  have hreads := randomAccess_readsFile (writtenFile value records)
  constructor
  · intro reader hreached
    exact readsBack_of_reaches hreads hsize hheaders ⟨rfl, Nat.zero_le _⟩ hreached
  · intro size hpos reader hreached
    apply readsBack_of_reaches (buffered_readsFile hreads hpos) hsize hheaders _ hreached
    exact ⟨le_rfl, ⟨rfl, Nat.zero_le _⟩, rfl, nofun⟩

/-- A read at the end, a scan and a read further back. -/
theorem three_records_read_back :
    ∃ reader, (recordReader crc32c (bufferedInputStream
        (randomAccessInputStream (writtenFile crc32c [[7, 8], [], [9]])) 5) 4
        ⟨0, [], 0, 0, none⟩).Reaches (AtRecord crc32c [[7, 8], [], [9]]) reader ∧
      (reader.lastReadFailed = false ∧ reader.cachedMetadata = some ⟨51, 3, 3⟩) ∧
      ReadsBack crc32c [[7, 8], [], [9]] (bufferedInputStream
        (randomAccessInputStream (writtenFile crc32c [[7, 8], [], [9]])) 5) 4 reader := by
  have hrun : ∃ reader, (recordReader crc32c (bufferedInputStream
      (randomAccessInputStream (writtenFile crc32c [[7, 8], [], [9]])) 5) 4
      ⟨0, [], 0, 0, none⟩).Reaches (AtRecord crc32c [[7, 8], [], [9]]) reader ∧
      decide (reader.lastReadFailed = false ∧ reader.cachedMetadata = some ⟨51, 3, 3⟩) = true := by
    have hmeets : (recordReader crc32c (bufferedInputStream
        (randomAccessInputStream (writtenFile crc32c [[7, 8], [], [9]])) 5) 4
        ⟨0, [], 0, 0, none⟩).RunMeets (AtRecord crc32c [[7, 8], [], [9]])
        [.readRecord 51, .getMetadata, .readRecord 18]
        (recordReader crc32c (bufferedInputStream
          (randomAccessInputStream (writtenFile crc32c [[7, 8], [], [9]])) 5) 4
          ⟨0, [], 0, 0, none⟩).init := by decide +kernel
    exact Machine.exists_reaches _ hmeets (by decide +kernel)
  rcases hrun with ⟨reader, hreached, hreader⟩
  refine ⟨reader, hreached, of_decide_eq_true hreader, ?_⟩
  exact (records_read_back (by decide +kernel) (by decide)).2 5 (by decide) reader hreached

end Runs

end ContainerScheduler.Analysis
