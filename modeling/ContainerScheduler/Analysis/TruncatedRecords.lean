/-
# Which truncated files are detected

A file that is cut off behind the header of a record is found to be truncated: the
data, or what follows them, cannot be read, and the reader reports a loss of data. A
file that is cut off inside of a header looks like a complete one: the read of the
header meets the end of the file, which is what the reader expects at its end.
-/

import ContainerScheduler.Analysis.RecordsReadBack

namespace ContainerScheduler.Analysis

open Math
open Records
open Table (encodeFixed)

variable {value : List UInt8 → BitVec 32} {records : List (List UInt8)}

/-- Sequential reads of a cut file give its complete records and lose data after them, and the
metadata of the file cannot be had at any time. -/
def TruncationFound {σ : Type} (value : List UInt8 → BitVec 32) (stream : InputStream σ)
    (opened : σ) (headers : ℕ) (complete : List (List UInt8)) : Prop :=
  ∀ calls, let reads := sequentialReads value stream calls 0 ⟨opened, false, none⟩
    reads.1.take complete.length = (complete.map Except.ok).take calls ∧
      (∀ result ∈ reads.1.drop complete.length,
        ∃ error : RecordError, result = .error error ∧ error.isDataLoss = true) ∧
      ∃ error next, getMetadata value stream headers reads.2 = some (.error error, next)

/-- The file is cut off inside of the header of a record. -/
def InHeader (value : List UInt8 → BitVec 32) (records : List (List UInt8)) (cut : ℕ) : Prop :=
  ∃ i ∈ List.range records.length,
    startOf value records i < cut ∧ cut < startOf value records i + kHeaderSize

/-! ## The bytes of a cut file -/

section Bytes

variable {cut k : ℕ}

/-- A position in the file that is not the start of a record is in one of them. -/
theorem exists_record (hcut : cut < (writtenFile value records).length)
    (hboundary : ∀ i ≤ records.length, cut ≠ startOf value records i) :
    ∃ k < records.length, startOf value records k < cut ∧ cut < startOf value records (k + 1) := by
  have hall : ∀ n ≤ records.length, startOf value records n < cut ∨
      ∃ k < n, startOf value records k < cut ∧ cut < startOf value records (k + 1) := by
    intro n hn
    induction n with
    | zero =>
        have hne := hboundary 0 (Nat.zero_le _)
        have hzero : startOf value records 0 = 0 := rfl
        omega
    | succ n ih =>
        have hne := hboundary (n + 1) hn
        rcases ih (by omega) with hlt | ⟨k, hk, hin⟩
        · rcases Nat.lt_or_ge cut (startOf value records (n + 1)) with hless | hge
          · exact .inr ⟨n, by omega, hlt, hless⟩
          · exact .inl (by omega)
        · exact .inr ⟨k, by omega, hin⟩
  rcases hall records.length le_rfl with hlt | hfound
  · rw [startOf_length] at hlt
    omega
  · exact hfound

variable (value) in
theorem startOf_mono {i j : ℕ} (hle : i ≤ j) (hj : j ≤ records.length) :
    startOf value records i ≤ startOf value records j := by
  induction j with
  | zero => rw [Nat.le_zero.mp hle]
  | succ j ih =>
      rcases Nat.lt_or_eq_of_le hle with hlt | rfl
      · have hstep := startOf_succ value (show j < records.length by omega)
        have hrest := ih (by omega) (by omega)
        omega
      · exact le_rfl

/-- A header with the cut is the one of the record with the cut. -/
theorem inHeader_iff (hk : k < records.length) (hlow : startOf value records k < cut)
    (hhigh : cut < startOf value records (k + 1)) :
    InHeader value records cut ↔ cut < startOf value records k + kHeaderSize := by
  constructor
  · rintro ⟨i, hi, hbefore, hinside⟩
    rw [List.mem_range] at hi
    have hstep := startOf_succ value hi
    rcases Nat.lt_trichotomy i k with hlt | rfl | hgt
    · have hmono := startOf_mono value (show i + 1 ≤ k by omega) hk.le
      omega
    · exact hinside
    · have hmono := startOf_mono value (show k + 1 ≤ i by omega) hi.le
      omega
  · exact fun hinside => ⟨k, List.mem_range.mpr hk, hlow, hinside⟩

variable (value) in
/-- A record before the cut is whole. -/
theorem drop_whole_record {i : ℕ} (hi : i < records.length)
    (hwhole : startOf value records (i + 1) ≤ cut) :
    ∃ rest, ((writtenFile value records).take cut).drop (startOf value records i) =
      recordBytes value records[i] ++ rest := by
  have hlength := length_recordBytes value records[i]
  have hstep := startOf_succ value hi
  rw [List.drop_take, drop_record value hi, List.take_append, List.take_of_length_le (by omega)]
  exact ⟨_, rfl⟩

variable (value) in
theorem drop_whole_header (hk : k < records.length)
    (hhigh : startOf value records k + kHeaderSize ≤ cut) :
    ∃ rest, ((writtenFile value records).take cut).drop (startOf value records k) =
      populateHeader value records[k] ++ rest := by
  have hheader := length_populateHeader value records[k]
  rw [List.drop_take, drop_record value hk, recordBytes, List.append_assoc, List.append_assoc,
    List.take_append, List.take_of_length_le (by omega)]
  exact ⟨_, rfl⟩

end Bytes

/-! ## Reading a cut file -/

section Reading

variable {σ : Type} {stream : InputStream σ} {stands : σ → ℕ → Prop} {cut k : ℕ}

theorem length_cut (hcut : cut < (writtenFile value records).length) :
    ((writtenFile value records).take cut).length = cut := by
  rw [List.length_take, min_eq_left hcut.le]

section

variable (hreads : ReadsFile stream ((writtenFile value records).take cut) stands)
  (hsize : (writtenFile value records).length < 2 ^ 63)
  (hcut : cut < (writtenFile value records).length)

include hreads hsize hcut

theorem readRecord_inHeader {reader : RecordReader σ} {p : ℕ}
    (hstands : stands reader.inputStream p) (hlow : startOf value records k < cut)
    (hinside : cut < startOf value records k + kHeaderSize) :
    ∃ next, readRecord value stream (startOf value records k) reader =
      (.error (.stream .outOfRange), startOf value records k, next) := by
  have hlength := length_cut hcut
  have hbmod : Int.bmod (startOf value records k) (2 ^ 64) = startOf value records k :=
    Int.bmod_eq_of_le (by omega) (by omega)
  rcases position_spec hreads hstands (show startOf value records k ≤ _ by omega) with
    ⟨placed, hposition, hplaced, -⟩
  rcases readChecksummed_short value hreads hplaced (startOf value records k)
    (show 8 < 2 ^ 63 by decide) (by rw [hlength]; exact hinside) with ⟨last, hread, -⟩
  rw [readRecord, hbmod]
  simp only [hposition, hread]
  exact ⟨_, rfl⟩

/-- A read that meets the end of the file behind the header loses data, and the offset
stays. -/
theorem readRecord_cut (hk : k < records.length) {reader : RecordReader σ} {p : ℕ}
    (hstands : stands reader.inputStream p)
    (hbehind : startOf value records k + kHeaderSize ≤ cut)
    (hhigh : cut < startOf value records (k + 1)) :
    ∃ next, readRecord value stream (startOf value records k) reader =
        (.error (.truncated (startOf value records k)), startOf value records k, next) ∧
      stands next.inputStream cut ∧ next.cachedMetadata = reader.cachedMetadata := by
  have hlength := length_cut hcut
  have hstep := startOf_succ value hk
  have hdata : records[k].length < 2 ^ 63 := by
    have hbound := length_record_lt hsize hk
    omega
  have hbmod : Int.bmod (startOf value records k) (2 ^ 64) = startOf value records k :=
    Int.bmod_eq_of_le (by omega) (by omega)
  have hstart : startOf value records k ≤ ((writtenFile value records).take cut).length :=
    hlength.symm ▸ (Nat.le_add_right _ _).trans hbehind
  rcases position_spec hreads hstands hstart with ⟨placed, hposition, hplaced, hsame⟩
  rcases drop_whole_header value hk hbehind with ⟨rest, hrest⟩
  rcases readHeader_at hreads hplaced (startOf value records k) hrest hdata with
    ⟨header, next, hheader, hdecode, hnext⟩
  rcases readChecksummed_short value hreads hnext (startOf value records k + kHeaderSize) hdata
    (by rw [hlength]; simp only [kFooterSize] at hstep; omega) with ⟨last, hread, hlast⟩
  rw [hlength] at hlast
  refine ⟨{ placed with inputStream := last, lastReadFailed := true }, ?_, hlast, hsame⟩
  rw [readRecord, hbmod]
  simp only [hposition, hheader, hdecode, hread]
  rfl

/-- Sequential reads from a whole record on: the whole records, and then a loss of data. -/
theorem sequentialReads_spec (hk : k < records.length)
    (hbehind : startOf value records k + kHeaderSize ≤ cut)
    (hhigh : cut < startOf value records (k + 1)) (calls : ℕ) {i : ℕ} (hi : i ≤ k)
    (reader : RecordReader σ) {p : ℕ} (hstands : stands reader.inputStream p) :
    (sequentialReads value stream calls (startOf value records i) reader).1 =
        (((records.take k).drop i).map Except.ok).take calls ++
          List.replicate (calls - (k - i)) (.error (.truncated (startOf value records k))) ∧
      (∃ q, stands
        (sequentialReads value stream calls (startOf value records i) reader).2.inputStream q) ∧
      (sequentialReads value stream calls (startOf value records i) reader).2.cachedMetadata =
        reader.cachedMetadata := by
  have hlength := length_cut hcut
  induction calls generalizing i reader p with
  | zero => exact ⟨by simp [sequentialReads], ⟨p, hstands⟩, rfl⟩
  | succ calls ih =>
      rcases Nat.lt_or_eq_of_le hi with hlt | rfl
      · have hmono := startOf_mono value (show i + 1 ≤ k by omega) hk.le
        have hstep := startOf_succ value (show i < records.length by omega)
        rcases drop_whole_record value (show i < records.length by omega)
          (show startOf value records (i + 1) ≤ cut by omega) with ⟨rest, hrest⟩
        rcases readRecord_at hreads (by omega) hstands
          (show startOf value records i ≤ _ by omega) hrest with ⟨next, hread, hnext, hsame⟩
        rw [← hstep] at hread hnext
        rcases ih (show i + 1 ≤ k by omega) _ hnext with ⟨hresults, hplace, hcached⟩
        simp only [sequentialReads, hread]
        refine ⟨?_, hplace, hcached.trans hsame⟩
        have hcons : (records.take k).drop i = records[i] :: (records.take k).drop (i + 1) := by
          rw [List.drop_eq_getElem_cons (by rw [List.length_take]; omega), List.getElem_take]
        rw [hresults, hcons, List.map_cons, List.take_succ_cons, List.cons_append,
          show calls + 1 - (k - i) = calls - (k - (i + 1)) by omega]
      · rcases readRecord_cut hreads hsize hcut hk hstands hbehind hhigh with
          ⟨next, hread, hnext, hsame⟩
        rcases ih hi _ hnext with ⟨hresults, hplace, hcached⟩
        simp only [sequentialReads, hread]
        refine ⟨?_, hplace, hcached.trans hsame⟩
        have hnone : (records.take i).drop i = [] :=
          List.drop_eq_nil_of_le (by rw [List.length_take]; omega)
        rw [hresults, hnone]
        simp [List.replicate_succ]

end

theorem metadataLoop_cut (hreads : StopsAtEnd stream ((writtenFile value records).take cut) stands)
    (hsize : (writtenFile value records).length < 2 ^ 63)
    (hcut : cut < (writtenFile value records).length) (hk : k < records.length)
    (hbehind : startOf value records k + kHeaderSize ≤ cut)
    (hhigh : cut < startOf value records (k + 1)) {headers i : ℕ} (hi : i ≤ k)
    (hheaders : k < headers + i) {inputStream : σ}
    (hstands : stands inputStream (startOf value records i)) (dataSize entries : ℕ) :
    ∃ next, metadataLoop value stream headers (startOf value records i) dataSize entries
      inputStream = some (.error (.stream .outOfRange), next) := by
  have hlength := length_cut hcut
  induction headers generalizing i dataSize entries inputStream with
  | zero => omega
  | succ headers ih =>
      have hirec : i < records.length := by omega
      have hstep := startOf_succ value hirec
      have hbound := length_record_lt hsize hirec
      have hmono := startOf_mono value hi hk.le
      have hwhole : startOf value records i + kHeaderSize ≤ cut := by omega
      rcases drop_whole_header value hirec hwhole with ⟨rest, hrest⟩
      rcases readHeader_at hreads.toReadsFile hstands (startOf value records i) hrest (by omega)
        with ⟨header, next, hheader, hdecode, hnext⟩
      have hbmod : Int.bmod (records[i].length + kFooterSize) (2 ^ 64) =
          ((records[i].length + kFooterSize : ℕ) : ℤ) := by
        rw [← Nat.cast_add]
        exact Int.bmod_eq_of_le (by omega) (by omega)
      rw [metadataLoop]
      simp only [hheader, hdecode, hbmod]
      rcases Nat.lt_or_eq_of_le hi with hlt | rfl
      · have hmono' := startOf_mono value (show i + 1 ≤ k by omega) hk.le
        have hinside : startOf value records i + kHeaderSize + (records[i].length + kFooterSize) ≤
            ((writtenFile value records).take cut).length := by
          rw [hlength, ← Nat.add_assoc, ← hstep]
          exact hmono'.trans ((Nat.le_add_right _ _).trans hbehind)
        rcases hreads.skip_spec hnext hinside with ⟨last, hskip, hlast⟩
        rw [← Nat.add_assoc, ← hstep] at hlast
        simp only [hskip, ← hstep]
        exact ih (show i + 1 ≤ k by omega) (by omega) hlast _ _
      · have hpast : ((writtenFile value records).take cut).length <
            startOf value records i + kHeaderSize + (records[i].length + kFooterSize) := by
          rw [hlength, ← Nat.add_assoc, ← hstep]
          exact hhigh
        rcases hreads.skip_past hnext hpast with ⟨last, hskip, -⟩
        simp only [hskip]
        exact ⟨_, rfl⟩

/-- With the cut in a header, the read after the whole records is out of range. -/
theorem sequentialReads_inHeader
    (hreads : ReadsFile stream ((writtenFile value records).take cut) stands)
    (hsize : (writtenFile value records).length < 2 ^ 63)
    (hcut : cut < (writtenFile value records).length) (hk : k < records.length)
    (hlow : startOf value records k < cut) (hinside : cut < startOf value records k + kHeaderSize)
    {n i : ℕ} (hi : i + n = k) (reader : RecordReader σ) {p : ℕ}
    (hstands : stands reader.inputStream p) :
    (sequentialReads value stream (n + 1) (startOf value records i) reader).1.drop n =
      [.error (.stream .outOfRange)] := by
  have hlength := length_cut hcut
  induction n generalizing i reader p with
  | zero =>
      obtain rfl : i = k := hi
      rcases readRecord_inHeader hreads hsize hcut hstands hlow hinside with ⟨next, hread⟩
      simp only [sequentialReads, hread, List.drop_zero]
  | succ n ih =>
      have hirec : i < records.length := by omega
      have hmono := startOf_mono value (show i + 1 ≤ k by omega) hk.le
      rcases drop_whole_record value hirec (hmono.trans hlow.le) with ⟨rest, hrest⟩
      have hstart : startOf value records i ≤ ((writtenFile value records).take cut).length := by
        have hstep := startOf_succ value hirec
        omega
      rcases readRecord_at hreads (by omega) hstands hstart hrest with ⟨next, hread, hnext, -⟩
      rw [← startOf_succ _ hirec] at hread hnext
      rw [sequentialReads, hread]
      exact ih (show i + 1 + n = k by omega) _ hnext

/-- The front of a list that goes on with copies of one element. -/
theorem front_of_padded {α : Type} (front : List α) (last : α) (n : ℕ) :
    (front.take n ++ List.replicate (n - front.length) last).take front.length = front.take n ∧
      (front.take n ++ List.replicate (n - front.length) last).drop front.length =
        List.replicate (n - front.length) last := by
  rcases Nat.le_total n front.length with hshort | hlong
  · rw [Nat.sub_eq_zero_of_le hshort, List.replicate_zero, List.append_nil, List.take_take,
      min_eq_right hshort]
    exact ⟨rfl, List.drop_eq_nil_of_le (by rw [List.length_take]; omega)⟩
  · rw [List.take_of_length_le hlong]
    exact ⟨List.take_left, List.drop_left⟩

/-- **A cut is found exactly behind a header.** -/
theorem truncationFound_iff
    (hreads : StopsAtEnd stream ((writtenFile value records).take cut) stands)
    (hsize : (writtenFile value records).length < 2 ^ 63)
    (hcut : cut < (writtenFile value records).length) (hk : k < records.length)
    (hlow : startOf value records k < cut) (hhigh : cut < startOf value records (k + 1))
    {headers : ℕ} (hheaders : records.length < headers) {opened : σ} (hopened : stands opened 0) :
    TruncationFound value stream opened headers (records.take k) ↔
      ¬ InHeader value records cut := by
  have hcomplete : (records.take k).length = k := by rw [List.length_take, min_eq_left hk.le]
  have hzero : startOf value records 0 = 0 := rfl
  rw [inHeader_iff hk hlow hhigh]
  constructor
  · intro hfound hinside
    have hlast := sequentialReads_inHeader hreads.toReadsFile hsize hcut hk hlow hinside
      (Nat.zero_add k) ⟨opened, false, none⟩ hopened
    have hloss := (hfound (k + 1)).2.1
    rw [hzero] at hlast
    rw [hcomplete, hlast] at hloss
    rcases hloss _ (List.mem_singleton_self _) with ⟨error, herror, hdata⟩
    obtain rfl := Except.error.inj herror
    cases hdata
  · intro hbehind calls
    have hbehind' := Nat.le_of_not_lt hbehind
    rcases sequentialReads_spec hreads.toReadsFile hsize hcut hk hbehind' hhigh
      calls (Nat.zero_le k) ⟨opened, false, none⟩ hopened with
      ⟨hresults, ⟨q, hplace⟩, hcached⟩
    rw [hzero, List.drop_zero, Nat.sub_zero] at hresults
    rw [hzero] at hplace hcached
    have hfront := front_of_padded ((records.take k).map Except.ok)
      (.error (RecordError.truncated (startOf value records k))) calls
    rw [List.length_map, hcomplete] at hfront
    dsimp only
    rw [hresults, hcomplete, hfront.1, hfront.2]
    refine ⟨rfl, ?_, ?_⟩
    · intro result hresult
      exact ⟨_, List.eq_of_mem_replicate hresult, rfl⟩
    · rw [getMetadata, hcached]
      rcases hreads.reset_spec hplace with ⟨fresh, hreset, hfresh⟩
      rcases metadataLoop_cut hreads hsize hcut hk hbehind' hhigh (Nat.zero_le k)
        (show k < headers + 0 by omega) hfresh 0 0 with ⟨next, hloop⟩
      rw [hzero] at hloop
      simp only [hreset, hloop, Option.map_some]
      exact ⟨_, _, rfl⟩

end Reading

/-- **Truncated files.** For every proper prefix of a file of records that does not end between two
records, read directly or through a buffer: sequential reads give the complete records and then a
loss of data, and the metadata cannot be had, exactly if the prefix does not end inside of a
header. -/
theorem truncation_found_iff (value : List UInt8 → BitVec 32) (records : List (List UInt8))
    (hsize : (writtenFile value records).length < 2 ^ 63) {cut : ℕ}
    (hcut : cut < (writtenFile value records).length)
    (hboundary : ∀ i ≤ records.length, cut ≠ startOf value records i)
    {headers : ℕ} (hheaders : records.length < headers) :
    ∃ complete < records.length,
      startOf value records complete < cut ∧ cut < startOf value records (complete + 1) ∧
      (TruncationFound value (randomAccessInputStream ((writtenFile value records).take cut)) 0
        headers (records.take complete) ↔ ¬ InHeader value records cut) ∧
      ∀ size, 0 < size →
        (TruncationFound value
          (bufferedInputStream (randomAccessInputStream ((writtenFile value records).take cut))
            size)
          ⟨0, [], 0, 0, none⟩ headers (records.take complete) ↔
            ¬ InHeader value records cut) := by
  rcases exists_record hcut hboundary with ⟨k, hk, hlow, hhigh⟩
  have hstops := randomAccess_stopsAtEnd ((writtenFile value records).take cut)
  refine ⟨k, hk, hlow, hhigh, ?_, fun size hpositive => ?_⟩
  · exact truncationFound_iff hstops hsize hcut hk hlow hhigh hheaders ⟨rfl, Nat.zero_le _⟩
  · refine truncationFound_iff (buffered_stopsAtEnd hstops hpositive) hsize hcut hk hlow hhigh
      hheaders ⟨le_rfl, ⟨rfl, Nat.zero_le _⟩, rfl, fun error herror => ?_⟩
    cases herror

/-- The file of two records, cut off in the data of the second one. -/
theorem truncation_found_iff_two :
    (writtenFile crc32c [[7], [8, 9]]).length < 2 ^ 63 ∧
      30 < (writtenFile crc32c [[7], [8, 9]]).length ∧
      (∀ i ≤ 2, 30 ≠ startOf crc32c [[7], [8, 9]] i) ∧
      ∃ complete < 2, startOf crc32c [[7], [8, 9]] complete < 30 ∧
        30 < startOf crc32c [[7], [8, 9]] (complete + 1) ∧
        (TruncationFound crc32c
          (randomAccessInputStream ((writtenFile crc32c [[7], [8, 9]]).take 30)) 0 3
          ([[7], [8, 9]].take complete) ↔ ¬ InHeader crc32c [[7], [8, 9]] 30) ∧
        ∀ size, 0 < size →
          (TruncationFound crc32c (bufferedInputStream
            (randomAccessInputStream ((writtenFile crc32c [[7], [8, 9]]).take 30)) size)
            ⟨0, [], 0, 0, none⟩ 3 ([[7], [8, 9]].take complete) ↔
              ¬ InHeader crc32c [[7], [8, 9]] 30) :=
  ⟨by decide +kernel, by decide +kernel, by decide +kernel,
    truncation_found_iff crc32c [[7], [8, 9]] (by decide +kernel) (by decide +kernel)
      (by decide +kernel) (by decide)⟩

/-- The file of one record, cut off after five bytes of its header, is taken for an empty one. -/
theorem truncation_in_header_missed :
    ¬ TruncationFound crc32c (randomAccessInputStream ((writtenFile crc32c [[7]]).take 5)) 0 2 [] ∧
      (getMetadata crc32c (randomAccessInputStream ((writtenFile crc32c [[7]]).take 5)) 2
        ⟨0, false, none⟩).map Prod.fst = some (.ok ⟨0, 0, 0⟩) := by
  constructor
  · intro hfound
    have hloss := (hfound 1).2.1 (.error (.stream .outOfRange)) (by decide +kernel)
    rcases hloss with ⟨error, herror, hdata⟩
    obtain rfl := Except.error.inj herror
    cases hdata
  · decide +kernel

end ContainerScheduler.Analysis
