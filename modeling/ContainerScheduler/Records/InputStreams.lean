/-
# Input streams over a file

A random access stream reads a file from a position on. A buffered stream reads ahead from another
stream, and remembers that the file has ended until it is reset.

A read of the file gives as many bytes as there are, and says so when they are fewer than were asked
for. Positions and lengths that the source keeps in signed 64-bit integers are integers here.
-/

import Mathlib.Tactic.Linarith

namespace ContainerScheduler.Records

inductive StreamError
  | invalidArgument
  | outOfRange
  deriving DecidableEq, Repr

/-- `InputStreamInterface`: a call gives its status, if it is not OK, and what it leaves. -/
structure InputStream (σ : Type) where
  readNBytes : ℤ → σ → Option StreamError × List UInt8 × σ
  skipNBytes : ℤ → σ → Option StreamError × σ
  tell : σ → ℤ
  reset : σ → Option StreamError × σ

/-- `RandomAccessFile::Read`. -/
def readFile (contents : List UInt8) (offset n : ℕ) : Option StreamError × List UInt8 :=
  let data := (contents.drop offset).take n
  (if data.length = n then none else some .outOfRange, data)

/-! ## Random access -/

def kMaxSkipSize : ℕ := 8 * 1024 * 1024

/-- The loop of `RandomAccessInputStream::SkipNBytes`. -/
def skipLoop (contents : List UInt8) (bytesToSkip pos : ℕ) : Option StreamError × ℕ :=
  if bytesToSkip = 0 then (none, pos)
  else
    let bytesToRead := min kMaxSkipSize bytesToSkip
    let data := (readFile contents pos bytesToRead).2
    if data.length < bytesToRead then (some .outOfRange, pos + data.length)
    else skipLoop contents (bytesToSkip - bytesToRead) (pos + data.length)
termination_by bytesToSkip
decreasing_by
  have hpos : 0 < bytesToSkip := Nat.pos_of_ne_zero ‹_›
  exact Nat.sub_lt hpos (lt_min (by decide) hpos)

/-- `RandomAccessInputStream`, whose state is `pos_`. -/
def randomAccessInputStream (contents : List UInt8) : InputStream ℕ where
  readNBytes bytesToRead pos :=
    if bytesToRead < 0 then (some .invalidArgument, [], pos)
    else
      let (status, data) := readFile contents pos bytesToRead.toNat
      (status, data, pos + data.length)
  skipNBytes bytesToSkip pos :=
    if bytesToSkip < 0 then (some .invalidArgument, pos)
    -- the last byte to skip is read first; if it is there the end is not reached yet
    else if 0 < bytesToSkip ∧
        (readFile contents (pos + bytesToSkip.toNat - 1) 1).2.length = 1 then
      (none, pos + bytesToSkip.toNat)
    else skipLoop contents bytesToSkip.toNat pos
  tell pos := pos
  reset _ := (none, 0)

/-! ## Buffering -/

/-- The members of `BufferedInputStream`. -/
structure BufferedState (σ : Type) where
  inputStream : σ
  buf : List UInt8
  pos : ℕ
  limit : ℕ
  fileStatus : Option StreamError
  deriving Repr

namespace BufferedState

variable {σ : Type} (inner : InputStream σ) (size : ℕ) (state : BufferedState σ)

def fillBuffer : Option StreamError × BufferedState σ :=
  match state.fileStatus with
  | some error => (some error, { state with pos := 0, limit := 0 })
  | none =>
      let (status, data, inputStream) := inner.readNBytes size state.inputStream
      (status,
        { inputStream := inputStream
          buf := data
          pos := 0
          limit := data.length
          fileStatus := if data.isEmpty then status else none })

/-- The bytes that one turn of the loop copies: what is buffered, or what is missing. -/
def copied (missing : ℕ) : List UInt8 :=
  (state.buf.drop state.pos).take (min (state.limit - state.pos) missing)

def advance (missing : ℕ) : BufferedState σ :=
  { state with pos := state.pos + min (state.limit - state.pos) missing }

/-- The loop of `ReadNBytes`, with the bytes that are missing, the result so far and the status of
the last filling. Each turn copies a byte, so that there are at most as many turns as bytes are
missing. -/
def readLoop : ℕ → ℕ → List UInt8 → Option StreamError → BufferedState σ →
    Option StreamError × List UInt8 × BufferedState σ
  | 0, _, result, status, state => (status, result, state)
  | _ + 1, 0, result, status, state => (status, result, state)
  | turns + 1, missing + 1, result, status, state =>
      if state.pos = state.limit then
        let (status, state) := state.fillBuffer inner size
        if state.limit = 0 then (status, result, { state with fileStatus := status })
        else
          let copied := state.copied (missing + 1)
          readLoop turns (missing + 1 - copied.length) (result ++ copied) status
            (state.advance (missing + 1))
      else
        let copied := state.copied (missing + 1)
        readLoop turns (missing + 1 - copied.length) (result ++ copied) status
          (state.advance (missing + 1))

def readNBytes (bytesToRead : ℤ) : Option StreamError × List UInt8 × BufferedState σ :=
  if bytesToRead < 0 then (some .invalidArgument, [], state)
  else if state.fileStatus.isSome ∧ 0 < bytesToRead then (state.fileStatus, [], state)
  else
    let (status, result, state) :=
      readLoop inner size bytesToRead.toNat bytesToRead.toNat [] none state
    -- the last filling may have met the end of the file after enough bytes
    if status = some .outOfRange ∧ result.length = bytesToRead.toNat then (none, result, state)
    else (status, result, state)

def skipNBytes (bytesToSkip : ℤ) : Option StreamError × BufferedState σ :=
  if bytesToSkip < 0 then (some .invalidArgument, state)
  else if state.pos + bytesToSkip.toNat < state.limit then
    (none, { state with pos := state.pos + bytesToSkip.toNat })
  else
    let (status, inputStream) :=
      inner.skipNBytes (bytesToSkip - (state.limit - state.pos : ℕ)) state.inputStream
    (status,
      { state with
        inputStream := inputStream
        pos := 0
        limit := 0
        fileStatus := if status = some .outOfRange then status else state.fileStatus })

def tell : ℤ := inner.tell state.inputStream - (state.limit - state.pos : ℕ)

def reset : Option StreamError × BufferedState σ :=
  match inner.reset state.inputStream with
  | (some error, inputStream) => (some error, { state with inputStream := inputStream })
  | (none, inputStream) =>
      (none, { state with inputStream := inputStream, pos := 0, limit := 0, fileStatus := none })

/-- `Seek`: backwards from the beginning of the file, forwards from where the stream is. -/
def seek (position : ℤ) : Option StreamError × BufferedState σ :=
  if position < 0 then (some .invalidArgument, state)
  else
    let bufpos := state.tell inner
    if position < bufpos then
      match state.reset inner with
      | (some error, state) => (some error, state)
      | (none, state) => state.skipNBytes inner position
    else state.skipNBytes inner (position - bufpos)

/-- The loop of `ReadLineHelper`, for at most that many turns, with the result so far. A carriage
return is dropped wherever it stands. -/
def readLineLoop (includeEol : Bool) :
    ℕ → List UInt8 → BufferedState σ → Option (Option StreamError × List UInt8 × BufferedState σ)
  | 0, _, _ => none
  | turns + 1, result, state =>
      let (status, filled) :=
        if state.pos = state.limit then state.fillBuffer inner size else (none, state)
      if state.pos = state.limit ∧ filled.limit = 0 then
        some (if status = some .outOfRange ∧ !result.isEmpty then none else status, result, filled)
      else
        let c := filled.buf.getD filled.pos 0
        let next := { filled with pos := filled.pos + 1 }
        if c = 10 then some (none, if includeEol then result ++ [c] else result, next)
        else readLineLoop includeEol turns (if c ≠ 13 then result ++ [c] else result) next

def readLine (turns : ℕ) : Option (Option StreamError × List UInt8 × BufferedState σ) :=
  readLineLoop inner size false turns [] state

end BufferedState

/-- `BufferedInputStream`, with the size of its buffer. -/
def bufferedInputStream {σ : Type} (inner : InputStream σ) (size : ℕ) :
    InputStream (BufferedState σ) where
  readNBytes bytesToRead state := state.readNBytes inner size bytesToRead
  skipNBytes bytesToSkip state := state.skipNBytes inner bytesToSkip
  tell state := state.tell inner
  reset state := state.reset inner

end ContainerScheduler.Records
