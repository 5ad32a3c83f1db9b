/-
# Messages on a connection

`_send` writes the length of the serialised message, a newline and the message
itself. `_recv` reads the length one byte at a time and the message with a single
`recv`, which may return fewer bytes than it was asked for.

The bytes of the other side are a list that `recv` takes from the front; how many
of them the network has at hand is an environment, one number for each call. The
JSON library is a pair of functions on text. Text and bytes are related by UTF-8,
for which a character below 128 is one byte.
-/

import Mathlib.Data.Int.Basic
import Mathlib.Data.List.DropRight

namespace ContainerScheduler.Wire

/-! ## Text and numbers -/

/-- `bytes(text, 'utf-8')`. -/
def encode (text : List Char) : List UInt8 := text.flatMap String.utf8EncodeChar

/-- `data.decode('utf-8')`; `none` stands for `UnicodeDecodeError`. -/
def decode (bytes : List UInt8) : Option (List Char) :=
  bytes.toByteArray.utf8Decode?.map Array.toList

/-- Whether a character is one of the first 128. -/
def Ascii (text : List Char) : Prop := ∀ char ∈ text, char.toNat < 128

instance decidableAscii (text : List Char) : Decidable (Ascii text) :=
  decidable_of_iff (text.all fun char => decide (char.toNat < 128)) (by simp [Ascii])

theorem decode_encode (text : List Char) : decode (encode text) = some text := by
  have hround := text.utf8Decode?_utf8Encode
  rw [List.utf8Encode] at hround
  simp [decode, encode, hround]

@[simp]
theorem encode_append (front back : List Char) :
    encode (front ++ back) = encode front ++ encode back :=
  List.flatMap_append

theorem exists_byte_of_ascii {char : Char} (hascii : char.toNat < 128) :
    ∃ byte, encode [char] = [byte] := by
  refine ⟨UInt8.ofNat char.toNat, ?_⟩
  simp only [encode, List.flatMap_singleton, String.utf8EncodeChar]
  exact if_pos (Nat.le_of_lt_succ hascii)

/-- ASCII text has as many bytes as characters. -/
theorem length_encode {text : List Char} (hascii : Ascii text) :
    (encode text).length = text.length := by
  induction text with
  | nil => rfl
  | cons char text ih =>
      obtain ⟨byte, hbyte⟩ := exists_byte_of_ascii (hascii char List.mem_cons_self)
      rw [← List.singleton_append, encode_append, hbyte,
        List.length_append, List.length_append,
        ih fun other hmem => hascii other (List.mem_cons_of_mem char hmem)]
      rfl

theorem take_encode {text : List Char} (hascii : Ascii text) (count : ℕ) :
    (encode text).take count = encode (text.take count) := by
  induction text generalizing count with
  | nil => simp [encode]
  | cons char text ih =>
      obtain ⟨byte, hbyte⟩ := exists_byte_of_ascii (hascii char List.mem_cons_self)
      have hrest : Ascii text := fun other hmem => hascii other (List.mem_cons_of_mem char hmem)
      cases count with
      | zero => rfl
      | succ count =>
          rw [List.take_succ_cons, ← List.singleton_append, encode_append, hbyte,
            ← List.singleton_append (l := text.take count), encode_append, hbyte, ← ih hrest]
          rfl

/-- Text that is still to come leaves something to receive. -/
theorem not_starved {text : List Char} (hascii : Ascii text) (bytes : List UInt8) :
    ¬ (encode text ++ bytes = [] ∧ 0 < text.length) := by
  rintro ⟨hempty, hpos⟩
  have hzero := congrArg List.length hempty
  rw [List.length_append, length_encode hascii, List.length_nil] at hzero
  omega

/-- The spaces that `int` skips. -/
def isSpace : Char → Bool
  | ' ' | '\t' | '\n' | '\x0b' | '\x0c' | '\r' => true
  | _ => false

/-- Digits, with single underscores between them. -/
def isNumeral : List Char → Bool
  | [] => false
  | [char] => char.isDigit
  | char :: '_' :: text => char.isDigit && isNumeral text
  | char :: text => char.isDigit && isNumeral text

/-- The number that digits and underscores stand for. -/
def numeral (text : List Char) : Option ℕ :=
  if isNumeral text then some (Nat.ofDigitChars 10 (text.filter Char.isDigit) 0) else none

/-- `int(text)`; `none` stands for `ValueError`. -/
def intOfText (text : List Char) : Option ℤ :=
  match (text.dropWhile isSpace).rdropWhile isSpace with
  | '-' :: digits => (numeral digits).map fun value => -(value : ℤ)
  | '+' :: digits => (numeral digits).map fun value => (value : ℤ)
  | digits => (numeral digits).map fun value => (value : ℤ)

/-- `str(number)` of a length. -/
def textOfNat (number : ℕ) : List Char := Nat.toDigits 10 number

theorem isDigit_of_mem_textOfNat {number : ℕ} {char : Char} (hmem : char ∈ textOfNat number) :
    char.isDigit = true :=
  Nat.isDigit_of_mem_toDigits (by decide) (by decide) hmem

theorem lt_of_isDigit {char : Char} (hdigit : char.isDigit = true) : char.toNat < 128 := by
  simp only [Char.isDigit, Bool.and_eq_true, decide_eq_true_eq] at hdigit
  exact lt_of_le_of_lt (UInt32.le_iff_toNat_le.mp hdigit.2) (by decide)

theorem isNumeral_of_digits {text : List Char} (hne : text ≠ [])
    (hdigits : ∀ char ∈ text, char.isDigit = true) : isNumeral text = true := by
  fun_induction isNumeral text with
  | case1 => exact absurd rfl hne
  | case2 char => exact hdigits char List.mem_cons_self
  | case3 char text ih =>
      have hunderscore := hdigits '_' (by simp)
      exact absurd hunderscore (by decide)
  | case4 char text hempty hnot ih =>
      have hrest := ih hempty fun other hmem => hdigits other (List.mem_cons_of_mem char hmem)
      rw [hdigits char List.mem_cons_self, hrest]
      rfl

theorem isSpace_of_isDigit {char : Char} (hdigit : char.isDigit = true) : isSpace char = false := by
  unfold isSpace
  split <;> first
    | rfl
    | exact absurd hdigit (by decide)

theorem strip_of_digits {text : List Char} (hdigits : ∀ char ∈ text, char.isDigit = true) :
    (text.dropWhile isSpace).rdropWhile isSpace = text := by
  have hfront : text.dropWhile isSpace = text :=
    List.dropWhile_eq_self_iff.mpr fun hpos => by
      simp [isSpace_of_isDigit (hdigits _ (List.getElem_mem hpos))]
  rw [hfront, List.rdropWhile_eq_self_iff]
  intro hne
  simp [isSpace_of_isDigit (hdigits _ (List.getLast_mem hne))]

/-- Digits are read as their number. -/
theorem intOfText_of_digits {text : List Char} (hne : text ≠ [])
    (hdigits : ∀ char ∈ text, char.isDigit = true) :
    intOfText text = some (Nat.ofDigitChars 10 text 0 : ℤ) := by
  have hnumeral : numeral text = some (Nat.ofDigitChars 10 text 0) := by
    rw [numeral, if_pos (isNumeral_of_digits hne hdigits), List.filter_eq_self.mpr hdigits]
  rw [intOfText, strip_of_digits hdigits]
  split
  · exact absurd (hdigits '-' List.mem_cons_self) (by decide)
  · exact absurd (hdigits '+' List.mem_cons_self) (by decide)
  · rw [hnumeral]
    rfl

/-- The length line is read back as the length. -/
theorem intOfText_textOfNat (number : ℕ) : intOfText (textOfNat number) = some (number : ℤ) := by
  have hdigits : ∀ char ∈ textOfNat number, char.isDigit = true := fun _ => isDigit_of_mem_textOfNat
  have hne : textOfNat number ≠ [] := Nat.toDigits_ne_nil
  rw [intOfText_of_digits hne hdigits, textOfNat, Nat.ofDigitChars_ten_toDigits]

/-! ## One side of a connection -/

/-- The bytes that are still to be received, and the number of `recv` calls made. -/
structure Inbound where
  bytes : List UInt8
  calls : ℕ
  deriving DecidableEq, Repr

/-- How a reading function ends. A call that waits for bytes that never come does
not end. -/
inductive Reading (α : Type)
  | done (value : α) (rest : Inbound)
  | raised (rest : Inbound)
  | waiting
  deriving DecidableEq, Repr

/-- The JSON library: `json.dumps`, and `json.loads` with `none` for an error. -/
structure Json (Message : Type) where
  dumps : Message → List Char
  loads : List Char → Option Message

section Transport

variable (ready : ℕ → ℕ)

/-- `socket.recv(size)`: between one and `size` of the next bytes, as many as the
network has ready at this call. -/
def Inbound.recv (inbound : Inbound) (size : ℕ) : Option (List UInt8 × Inbound) :=
  if inbound.bytes = [] ∧ 0 < size then none
  else
    let count := min size (max 1 (ready inbound.calls))
    some (inbound.bytes.take count, ⟨inbound.bytes.drop count, inbound.calls + 1⟩)

/-- Read characters one by one up to the newline. Each round takes a byte, so the
bytes still to come bound the rounds. -/
def readLengthLoop : ℕ → List Char → Inbound → Reading (List Char)
  | 0, _, _ => .waiting
  | rounds + 1, lengthStr, inbound =>
      match inbound.recv ready 1 with
      | none => .waiting
      | some (bytes, rest) =>
          match decode bytes with
          | none => .raised rest
          | some char =>
              if char = ['\n'] then .done lengthStr rest
              else readLengthLoop rounds (lengthStr ++ char) rest

variable {Message : Type} (json : Json Message)

/-- What `_send` puts on the connection. -/
def send (message : Message) : List UInt8 :=
  let serialized := json.dumps message
  encode (textOfNat serialized.length ++ ['\n']) ++ encode serialized

/-- The second half of `_recv`, once the length is known. A negative length and
data that is not JSON raise. -/
def recvBody (total : ℤ) (inbound : Inbound) : Reading Message :=
  if total < 0 then .raised inbound
  else
    match inbound.recv ready total.toNat with
    | none => .waiting
    | some (bytes, rest) =>
        match (decode bytes).bind json.loads with
        | none => .raised rest
        | some deserialized => .done deserialized rest

/-- `_recv`: the length line, then the message. -/
def recv (inbound : Inbound) : Reading Message :=
  match readLengthLoop ready inbound.bytes.length [] inbound with
  | .waiting => .waiting
  | .raised rest => .raised rest
  | .done lengthStr rest =>
      match intOfText lengthStr with
      | none => .raised rest
      | some total => recvBody ready json total rest

/-- What a number of successive `_recv` calls return; `none` stands for a call
that raised. The list ends early with a call that waits for ever. -/
def recvMany : ℕ → Inbound → List (Option Message)
  | 0, _ => []
  | count + 1, inbound =>
      match recv ready json inbound with
      | .done message rest => some message :: recvMany count rest
      | .raised rest => none :: recvMany count rest
      | .waiting => []

/-- Everything that was sent, with no `recv` call made yet. -/
def sent (messages : List Message) : Inbound := ⟨messages.flatMap (send json), 0⟩

/-! ## Reading one message back -/

theorem recv_one (byte : UInt8) (bytes : List UInt8) (calls : ℕ) :
    Inbound.recv ready ⟨byte :: bytes, calls⟩ 1 = some ([byte], ⟨bytes, calls + 1⟩) := by
  have hcount : min 1 (max 1 (ready calls)) = 1 := by omega
  rw [Inbound.recv, if_neg (by simp)]
  simp only [hcount]
  rfl

theorem readLengthLoop_line {line : List Char} (hascii : Ascii line) (hline : '\n' ∉ line)
    (bytes : List UInt8) (rounds calls : ℕ) (lengthStr : List Char) :
    readLengthLoop ready (line.length + 1 + rounds) lengthStr
        ⟨encode (line ++ ['\n']) ++ bytes, calls⟩ =
      .done (lengthStr ++ line) ⟨bytes, calls + line.length + 1⟩ := by
  induction line generalizing calls lengthStr with
  | nil =>
      obtain ⟨byte, hbyte⟩ := @exists_byte_of_ascii '\n' (by decide)
      have hdecode := decode_encode ['\n']
      rw [hbyte] at hdecode
      rw [List.nil_append, hbyte, List.length_nil, Nat.zero_add, Nat.add_comm, readLengthLoop,
        List.singleton_append, recv_one]
      simp [hdecode]
  | cons char line ih =>
      obtain ⟨byte, hbyte⟩ := exists_byte_of_ascii (hascii char List.mem_cons_self)
      have hdecode := decode_encode [char]
      rw [hbyte] at hdecode
      have hrest := ih (fun other hmem => hascii other (List.mem_cons_of_mem char hmem))
        (fun hmem => hline (List.mem_cons_of_mem char hmem)) (calls + 1) (lengthStr ++ [char])
      have hchar : char ≠ '\n' := fun heq => hline (heq ▸ List.mem_cons_self)
      have hrounds : (char :: line).length + 1 + rounds = line.length + 1 + rounds + 1 := by
        simp only [List.length_cons]
        omega
      rw [hrounds, List.cons_append, ← List.singleton_append, encode_append, hbyte,
        List.append_assoc, List.singleton_append, readLengthLoop, recv_one]
      simp only [hdecode, List.cons.injEq, hchar, false_and, if_false]
      rw [hrest, List.append_assoc, List.singleton_append, List.length_cons]
      congr 2
      omega

/-- The number of `recv` calls made before the one that reads a message's body. -/
def bodyCall (calls : ℕ) (message : Message) : ℕ :=
  calls + (textOfNat (json.dumps message).length).length + 1

variable {json} {message : Message} {calls : ℕ}

/-- The length line is read in full, whatever the network does. -/
theorem recv_send (bytes : List UInt8) :
    recv ready json ⟨send json message ++ bytes, calls⟩ =
      recvBody ready json (json.dumps message).length
        ⟨encode (json.dumps message) ++ bytes, bodyCall json calls message⟩ := by
  have hascii : Ascii (textOfNat (json.dumps message).length) := fun char hmem =>
    lt_of_isDigit (isDigit_of_mem_textOfNat hmem)
  have hline : '\n' ∉ textOfNat (json.dumps message).length := fun hmem =>
    absurd (isDigit_of_mem_textOfNat hmem) (by decide)
  have hnewline : Ascii (textOfNat (json.dumps message).length ++ ['\n']) := by
    intro char hmem
    obtain hdigit | hend := List.mem_append.mp hmem
    · exact hascii char hdigit
    · obtain rfl := List.mem_singleton.mp hend
      decide
  have hlength : (send json message ++ bytes).length =
      (textOfNat (json.dumps message).length).length + 1 +
        (encode (json.dumps message) ++ bytes).length := by
    rw [send, List.append_assoc, List.length_append, length_encode hnewline, List.length_append,
      List.length_singleton]
  have hread := readLengthLoop_line ready hascii hline (encode (json.dumps message) ++ bytes)
    (encode (json.dumps message) ++ bytes).length calls []
  rw [recv, hlength, send, List.append_assoc, hread]
  simp only [List.nil_append, intOfText_textOfNat]
  rfl

theorem recvBody_of_whole (hascii : Ascii (json.dumps message))
    (hinverse : json.loads (json.dumps message) = some message) (bytes : List UInt8)
    (hwhole : (json.dumps message).length ≤ max 1 (ready calls)) :
    recvBody ready json (json.dumps message).length
        ⟨encode (json.dumps message) ++ bytes, calls⟩ =
      .done message ⟨bytes, calls + 1⟩ := by
  have hnonneg : ¬ ((json.dumps message).length : ℤ) < 0 := by omega
  have hcount : min (json.dumps message).length (max 1 (ready calls)) =
      (encode (json.dumps message)).length := by
    rw [length_encode hascii]
    exact Nat.min_eq_left hwhole
  simp only [recvBody, if_neg hnonneg, Inbound.recv, Int.toNat_natCast,
    if_neg (not_starved hascii bytes), hcount,
    List.take_left, List.drop_left, decode_encode, Option.bind_some, hinverse]

/-- Of a body that is not at hand as a whole, a proper prefix is parsed. -/
theorem recvBody_of_short (hascii : Ascii (json.dumps message)) (bytes : List UInt8)
    (hshort : max 1 (ready calls) < (json.dumps message).length) :
    recvBody ready json (json.dumps message).length
        ⟨encode (json.dumps message) ++ bytes, calls⟩ =
      match json.loads ((json.dumps message).take (max 1 (ready calls))) with
      | none =>
          .raised ⟨(encode (json.dumps message) ++ bytes).drop (max 1 (ready calls)), calls + 1⟩
      | some deserialized =>
          .done deserialized
            ⟨(encode (json.dumps message) ++ bytes).drop (max 1 (ready calls)), calls + 1⟩ := by
  have hnonneg : ¬ ((json.dumps message).length : ℤ) < 0 := by omega
  have hcount : min (json.dumps message).length (max 1 (ready calls)) = max 1 (ready calls) :=
    Nat.min_eq_right hshort.le
  have hchunk : (encode (json.dumps message) ++ bytes).take (max 1 (ready calls)) =
      encode ((json.dumps message).take (max 1 (ready calls))) := by
    rw [List.take_append_of_le_length (by rw [length_encode hascii]; exact hshort.le),
      take_encode hascii]
  simp only [recvBody, if_neg hnonneg, Inbound.recv, Int.toNat_natCast,
    if_neg (not_starved hascii bytes), hcount,
    hchunk, decode_encode, Option.bind_some]

end Transport

end ContainerScheduler.Wire
