/-
# Files of records

A record is its length, a masked checksum of the length, its data and a masked checksum of the data.
The writer appends one record after the other. The reader reads the record at an offset: it keeps
its stream where it is when it can, skips forward, or starts again from the beginning.

The checksum itself is `value`, a function of the bytes.
-/

import ContainerScheduler.Math.Transition
import ContainerScheduler.Records.InputStreams
import ContainerScheduler.Table.Coding

namespace ContainerScheduler.Records

open Math
open Table (encodeFixed)

/-! ## Checksums -/

def kMaskDelta : BitVec 32 := 0xa282ead8

/-- One bit of a checksum, with the reflected Castagnoli polynomial. -/
def crcBit (crc : BitVec 32) : BitVec 32 :=
  if crc.getLsbD 0 then crc >>> 1 ^^^ 0x82f63b78 else crc >>> 1

/-- `crc32c::Value`, bit by bit. -/
def crc32c (data : List UInt8) : BitVec 32 :=
  ~~~data.foldl (fun crc byte => crcBit^[8] (crc ^^^ BitVec.ofNat 32 byte.toNat)) (~~~0)

/-- `crc32c::Mask`: rotate right by 15 bits and add a constant. -/
def mask (crc : BitVec 32) : BitVec 32 := (crc >>> 15 ||| crc <<< 17) + kMaskDelta

/-- `crc32c::Unmask`. -/
def unmask (maskedCrc : BitVec 32) : BitVec 32 :=
  let rot := maskedCrc - kMaskDelta
  rot >>> 17 ||| rot <<< 15

/-- `DecodeFixed32` and `DecodeFixed64`, of that many bytes. -/
def decodeFixed (bytes : List UInt8) : ℕ := bytes.foldr (fun byte high => byte.toNat + 256 * high) 0

/-! ## Writing -/

section Writer

variable (value : List UInt8 → BitVec 32)

def maskedCrc (data : List UInt8) : List UInt8 := encodeFixed 4 (mask (value data)).toNat

def populateHeader (data : List UInt8) : List UInt8 :=
  encodeFixed 8 data.length ++ maskedCrc value (encodeFixed 8 data.length)

def populateFooter (data : List UInt8) : List UInt8 := maskedCrc value data

/-- `WriteRecord`: what the file holds after the three appends. -/
def writeRecord (contents data : List UInt8) : List UInt8 :=
  contents ++ populateHeader value data ++ data ++ populateFooter value data

/-- The file after the records are written. -/
def writtenFile (records : List (List UInt8)) : List UInt8 := records.foldl (writeRecord value) []

end Writer

/-! ## Reading -/

def kHeaderSize : ℕ := 12

def kFooterSize : ℕ := 4

inductive RecordError
  | stream (error : StreamError)
  /-- `eof`, which is out of range. -/
  | eof
  /-- `record size too large`. -/
  | tooLarge
  /-- `truncated record at `. -/
  | truncated (offset : ℕ)
  /-- `corrupted record at `. -/
  | corrupted (offset : ℕ)
  deriving DecidableEq, Repr

/-- `errors::IsOutOfRange`. -/
def RecordError.isOutOfRange : RecordError → Bool
  | .stream .outOfRange => true
  | .eof => true
  | _ => false

/-- `errors::IsDataLoss`. -/
def RecordError.isDataLoss : RecordError → Bool
  | .tooLarge | .truncated _ | .corrupted _ => true
  | _ => false

/-- `RecordReader::Stats`. -/
structure Stats where
  fileSize : ℤ
  dataSize : ℤ
  entries : ℤ
  deriving DecidableEq, Repr

/-- The members of `RecordReader`. -/
structure RecordReader (σ : Type) where
  inputStream : σ
  lastReadFailed : Bool
  cachedMetadata : Option Stats
  deriving Repr

section Reader

variable {σ : Type} (value : List UInt8 → BitVec 32) (stream : InputStream σ)

/-- `ReadChecksummed`: `n` bytes and their checksum. -/
def readChecksummed (offset n : ℕ) (inputStream : σ) : Except RecordError (List UInt8) × σ :=
  if 2 ^ 64 - 1 - 4 ≤ n then (.error .tooLarge, inputStream)
  else
    let expected := n + 4
    match stream.readNBytes expected inputStream with
    | (some error, _, inputStream) => (.error (.stream error), inputStream)
    | (none, result, inputStream) =>
        if result.length ≠ expected then
          if result.isEmpty then (.error .eof, inputStream)
          else (.error (.truncated offset), inputStream)
        else
          let maskedCrc := BitVec.ofNat 32 (decodeFixed ((result.drop n).take 4))
          if unmask maskedCrc ≠ value (result.take n) then (.error (.corrupted offset), inputStream)
          else (.ok (result.take n), inputStream)

/-- The first lines of `ReadRecord`, which position the stream. -/
def position (desiredPos : ℤ) (reader : RecordReader σ) : Option StreamError × RecordReader σ :=
  let currPos := stream.tell reader.inputStream
  if desiredPos < currPos ∨ currPos < 0 ∨ (currPos = desiredPos ∧ reader.lastReadFailed) then
    let reader := { reader with lastReadFailed := false }
    match stream.reset reader.inputStream with
    | (some error, inputStream) => (some error, { reader with inputStream := inputStream })
    | (none, inputStream) =>
        let (status, inputStream) := stream.skipNBytes desiredPos inputStream
        (status, { reader with inputStream := inputStream })
  else if currPos < desiredPos then
    let (status, inputStream) := stream.skipNBytes (desiredPos - currPos) reader.inputStream
    (status, { reader with inputStream := inputStream })
  else (none, reader)

/-- `ReadRecord`: the record or the error, the offset after the call and the reader. -/
def readRecord (offset : ℕ) (reader : RecordReader σ) :
    Except RecordError (List UInt8) × ℕ × RecordReader σ :=
  match position stream (Int.bmod offset (2 ^ 64)) reader with
  | (some error, reader) => (.error (.stream error), offset, reader)
  | (none, reader) =>
      match readChecksummed value stream offset 8 reader.inputStream with
      | (.error error, inputStream) =>
          (.error error, offset, { reader with inputStream := inputStream, lastReadFailed := true })
      | (.ok header, inputStream) =>
          let length := decodeFixed (header.take 8)
          match readChecksummed value stream (offset + kHeaderSize) length inputStream with
          | (.error error, inputStream) =>
              (.error (if error.isOutOfRange then .truncated offset else error), offset,
                { reader with inputStream := inputStream, lastReadFailed := true })
          | (.ok record, inputStream) =>
              (.ok record, offset + kHeaderSize + length + kFooterSize,
                { reader with inputStream := inputStream })

/-- That many calls of `SequentialRecordReader::ReadRecord`, which keeps the offset: their results
and the reader. -/
def sequentialReads :
    ℕ → ℕ → RecordReader σ → List (Except RecordError (List UInt8)) × RecordReader σ
  | 0, _, reader => ([], reader)
  | calls + 1, offset, reader =>
      let (result, offset, reader) := readRecord value stream offset reader
      let (results, reader) := sequentialReads calls offset reader
      (result :: results, reader)

/-- The loop of `GetMetadata`, for at most that many headers: the size of the data and the number of
entries. -/
def metadataLoop : ℕ → ℕ → ℕ → ℕ → σ → Option (Except RecordError (ℕ × ℕ) × σ)
  | 0, _, _, _, _ => none
  | headers + 1, offset, dataSize, entries, inputStream =>
      match readChecksummed value stream offset 8 inputStream with
      | (.error error, inputStream) =>
          if error.isOutOfRange then some (.ok (dataSize, entries), inputStream)
          else some (.error error, inputStream)
      | (.ok record, inputStream) =>
          let length := decodeFixed (record.take 8)
          match stream.skipNBytes (Int.bmod (length + kFooterSize) (2 ^ 64)) inputStream with
          | (some error, inputStream) => some (.error (.stream error), inputStream)
          | (none, inputStream) =>
              metadataLoop headers (offset + kHeaderSize + length + kFooterSize)
                (dataSize + length) (entries + 1) inputStream

/-- `GetMetadata`, which reads at most that many headers; `none` if these are not enough. -/
def getMetadata (headers : ℕ) (reader : RecordReader σ) :
    Option (Except RecordError Stats × RecordReader σ) :=
  match reader.cachedMetadata with
  | some stats => some (.ok stats, reader)
  | none =>
      match stream.reset reader.inputStream with
      | (some error, inputStream) =>
          some (.error (.stream error), { reader with inputStream := inputStream })
      | (none, inputStream) =>
          (metadataLoop value stream headers 0 0 0 inputStream).map fun
            | (.error error, inputStream) =>
                (.error error, { reader with inputStream := inputStream })
            | (.ok (dataSize, entries), inputStream) =>
                let stats : Stats :=
                  ⟨dataSize + (kHeaderSize + kFooterSize) * entries, dataSize, entries⟩
                (.ok stats,
                  { reader with inputStream := inputStream, cachedMetadata := some stats })

/-- A call of a reader. -/
inductive ReaderCall
  | readRecord (offset : ℕ)
  | getMetadata
  deriving DecidableEq, Repr

/-- A reader that has just been opened on a stream, and reads at most that many headers in
`GetMetadata`. -/
def recordReader (headers : ℕ) (opened : σ) : Machine (RecordReader σ) ReaderCall where
  init := ⟨opened, false, none⟩
  step reader
    | .readRecord offset => some (readRecord value stream offset reader).2.2
    | .getMetadata => (getMetadata value stream headers reader).map Prod.snd

end Reader

end ContainerScheduler.Records
