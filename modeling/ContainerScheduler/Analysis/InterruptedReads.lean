/-
# Reads that are interrupted

On a connection that the other side has closed, `_recv` ends if and only if the bytes that are
left hold a newline or a byte that is no character: after the last byte it goes on with empty
strings.

A `_recv` whose time is out loses the bytes that it has taken. Only one that has not taken any
leaves the messages to the calls that follow.
-/

import ContainerScheduler.Analysis.FramingRoundTrip
import ContainerScheduler.Wire.Interruptions
import Mathlib.Algebra.Order.Ring.Int

namespace ContainerScheduler.Analysis

open Wire

variable {Message : Type} (ready : ℕ → ℕ) {json : Json Message}

/-! ## Single bytes -/

section Bytes

variable {byte : UInt8}

theorem byte_lt_of_encode {text : List Char} (hencode : encode text = [byte]) :
    byte.toNat < 128 := by
  cases text with
  | nil => cases hencode
  | cons char text =>
      rw [encode, List.flatMap_cons] at hencode
      have hlength := congrArg List.length hencode
      rw [List.length_append, String.length_utf8EncodeChar, List.length_singleton] at hlength
      have hpos := char.utf8Size_pos
      have hsize : char.utf8Size = 1 := by omega
      rw [String.utf8EncodeChar_eq_singleton hsize, List.singleton_append] at hencode
      rw [← (List.cons.inj hencode).1]
      have hval := UInt32.le_iff_toNat_le.mp (Char.utf8Size_eq_one_iff.mp hsize)
      exact lt_of_le_of_lt (Nat.mod_le _ _) (Nat.lt_succ_of_le hval)

/-- A byte from 128 on is no character. -/
theorem decode_byte_of_ge (hge : 128 ≤ byte.toNat) : decode [byte] = none := by
  rw [decode, Option.map_eq_none_iff]
  by_contra hsome
  rcases ByteArray.isSome_utf8Decode?_iff.mp (Option.isSome_iff_ne_none.mpr hsome) with
    ⟨text, htext⟩
  have hencode : encode text = [byte] := List.toByteArray_inj.mp htext.symm
  exact absurd (byte_lt_of_encode hencode) (not_lt.mpr hge)

theorem toNat_ofNat_byte (hlt : byte.toNat < 128) :
    (Char.ofNat byte.toNat).val.toNat = byte.toNat := by
  rw [Char.ofNat, dif_pos (Nat.isValidChar.eq_def _ ▸ .inl (by omega))]
  rfl

/-- A byte below 128 is one. -/
theorem decode_byte_of_lt (hlt : byte.toNat < 128) :
    decode [byte] = some [Char.ofNat byte.toNat] := by
  have hval := toNat_ofNat_byte hlt
  have hencode : encode [Char.ofNat byte.toNat] = [byte] := by
    have hsize : (Char.ofNat byte.toNat).utf8Size = 1 := by
      apply Char.utf8Size_eq_one_iff.mpr
      apply UInt32.le_iff_toNat_le.mpr
      rw [hval]
      exact Nat.le_of_lt_succ hlt
    rw [encode, List.flatMap_singleton, String.utf8EncodeChar_eq_singleton hsize]
    congr 1
    apply UInt8.toNat_inj.mp
    rw [UInt32.toNat_toUInt8, hval]
    exact Nat.mod_eq_of_lt (by omega)
  rw [← hencode, decode_encode]

/-- The newline is byte 10. -/
theorem ofNat_eq_newline_iff (hlt : byte.toNat < 128) :
    Char.ofNat byte.toNat = '\n' ↔ byte = 10 := by
  constructor
  · intro hnewline
    apply UInt8.toNat_inj.mp
    rw [← toNat_ofNat_byte hlt, hnewline]
    rfl
  · rintro rfl
    rfl

end Bytes

/-! ## A closed connection -/

section Closed

variable {byte : UInt8} {bytes : List UInt8}

/-- A byte at which the reading of a length ends. -/
def EndsLine (byte : UInt8) : Prop := byte = 10 ∨ 128 ≤ byte.toNat

instance (byte : UInt8) : Decidable (EndsLine byte) := by
  unfold EndsLine
  infer_instance

theorem closedSocket_one (byte : UInt8) (bytes : List UInt8) (calls : ℕ) :
    closedSocket ready ⟨byte :: bytes, calls⟩ 1 = .received [byte] ⟨bytes, calls + 1⟩ := by
  have hcount : min 1 (max 1 (ready calls)) = 1 := by omega
  rw [closedSocket]
  simp only [hcount]
  rfl

theorem readLengthOn_of_endsLine (hends : EndsLine byte) (rounds calls : ℕ)
    (lengthStr : List Char) :
    readLengthOn (closedSocket ready) (rounds + 1) lengthStr ⟨byte :: bytes, calls⟩ ≠
      .waiting := by
  rw [readLengthOn, closedSocket_one]
  dsimp only
  rcases hends with rfl | hge
  · rw [decode_byte_of_lt (by decide)]
    intro heq
    cases heq
  · rw [decode_byte_of_ge hge]
    intro heq
    cases heq

/-- Any other byte is one more character of the length. -/
theorem readLengthOn_of_not_endsLine (hgoes : ¬ EndsLine byte) (rounds calls : ℕ)
    (lengthStr : List Char) :
    readLengthOn (closedSocket ready) (rounds + 1) lengthStr ⟨byte :: bytes, calls⟩ =
      readLengthOn (closedSocket ready) rounds (lengthStr ++ [Char.ofNat byte.toNat])
        ⟨bytes, calls + 1⟩ := by
  rcases not_or.mp hgoes with ⟨hnewline, hlt⟩
  have hchar : [Char.ofNat byte.toNat] ≠ ['\n'] := fun heq =>
    hnewline ((ofNat_eq_newline_iff (not_le.mp hlt)).mp (List.cons.inj heq).1)
  rw [readLengthOn, closedSocket_one]
  dsimp only
  rw [decode_byte_of_lt (not_le.mp hlt)]
  dsimp only
  rw [if_neg hchar]

/-- After the last byte the empty string is read again and again. -/
theorem readLengthOn_nil (rounds calls : ℕ) (lengthStr : List Char) :
    readLengthOn (closedSocket ready) rounds lengthStr ⟨[], calls⟩ = .waiting := by
  induction rounds generalizing calls with
  | zero => rfl
  | succ rounds ih =>
      have hdecode : decode [] = some [] := decode_encode []
      rw [readLengthOn, closedSocket]
      dsimp only
      rw [List.take_nil, hdecode]
      dsimp only
      rw [if_neg (List.cons_ne_nil _ _).symm, List.append_nil, List.drop_nil, ih]

/-- The length is read to its end if and only if some byte ends it: by induction on the
bytes. -/
theorem readLengthOn_closed_iff (bytes : List UInt8) (calls : ℕ) (lengthStr : List Char) :
    (∃ rounds, readLengthOn (closedSocket ready) rounds lengthStr ⟨bytes, calls⟩ ≠ .waiting) ↔
      ∃ byte ∈ bytes, EndsLine byte := by
  induction bytes generalizing calls lengthStr with
  | nil =>
      simp only [readLengthOn_nil, ne_eq, not_true, exists_false, List.not_mem_nil, false_and]
  | cons byte bytes ih =>
      rw [List.exists_mem_cons_iff]
      by_cases hends : EndsLine byte
      · exact iff_of_true ⟨1, readLengthOn_of_endsLine ready hends 0 calls lengthStr⟩ (.inl hends)
      · rw [or_iff_right hends, ← ih (calls + 1) (lengthStr ++ [Char.ofNat byte.toNat])]
        constructor
        · intro hread
          rcases hread with ⟨rounds, hrounds⟩
          cases rounds with
          | zero => exact absurd rfl hrounds
          | succ rounds =>
              rw [readLengthOn_of_not_endsLine ready hends] at hrounds
              exact ⟨rounds, hrounds⟩
        · intro hread
          rcases hread with ⟨rounds, hrounds⟩
          refine ⟨rounds + 1, ?_⟩
          rw [readLengthOn_of_not_endsLine ready hends]
          exact hrounds

/-- The body is one call, which does not wait. -/
theorem recvBodyOn_closed (total : ℤ) (inbound : Inbound) :
    recvBodyOn (closedSocket ready) json total inbound ≠ .waiting := by
  unfold recvBodyOn closedSocket
  split
  · exact nofun
  · dsimp only
    split <;> exact nofun

/-- **`_recv` ends on a closed connection** if and only if a newline or a byte that is no
character is left. -/
theorem recv_closed_ends_iff (json : Json Message) (bytes : List UInt8) (calls : ℕ) :
    (∃ rounds, recvOn (closedSocket ready) json rounds ⟨bytes, calls⟩ ≠ .waiting) ↔
      ∃ byte ∈ bytes, EndsLine byte := by
  rw [← readLengthOn_closed_iff ready bytes calls []]
  apply exists_congr
  intro rounds
  unfold recvOn
  cases hread : readLengthOn (closedSocket ready) rounds [] ⟨bytes, calls⟩ with
  | waiting => exact iff_of_false (fun hne => hne rfl) fun hne => hne rfl
  | raised rest => exact iff_of_true nofun nofun
  | done lengthStr rest =>
      refine iff_of_true ?_ nofun
      dsimp only
      cases intOfText lengthStr with
      | none => exact nofun
      | some total => exact recvBodyOn_closed ready total rest

/-- **A connection closed between two messages**: `_recv` goes on for ever. -/
theorem recv_closed_goes_on :
    ¬ ∃ rounds, recvOn (closedSocket fun _ => 1) statusJson rounds ⟨[], 0⟩ ≠ .waiting := by
  intro hends
  rcases hends with ⟨rounds, hrounds⟩
  rw [recvOn, readLengthOn_nil] at hrounds
  exact hrounds rfl

end Closed

/-! ## A time-out in a length line -/

section TimedOut

/-- Every byte that is left is at hand at every call. -/
def AllAtHand (bytes : List UInt8) : Prop := ∀ call, bytes.length ≤ ready call

/-- Messages are objects: their text starts with a brace. -/
def Objects (json : Json Message) : Prop :=
  ∀ message, ∃ text, json.dumps message = '\x7b' :: text

variable {ready} {line : List Char} {interrupted calls : ℕ}

/-- One character of a line on a connection whose time is not out yet. -/
theorem readLengthOn_timed_cons {char : Char} (hascii : char.toNat < 128) (hchar : char ≠ '\n')
    (hlater : calls ≠ interrupted) (rounds : ℕ) (lengthStr : List Char) (bytes : List UInt8) :
    readLengthOn (timedSocket ready interrupted) (rounds + 1) lengthStr
        ⟨encode (char :: line) ++ bytes, calls⟩ =
      readLengthOn (timedSocket ready interrupted) rounds (lengthStr ++ [char])
        ⟨encode line ++ bytes, calls + 1⟩ := by
  rcases exists_byte_of_ascii hascii with ⟨byte, hbyte⟩
  have hdecode := decode_encode [char]
  rw [hbyte] at hdecode
  have hsplit : encode (char :: line) ++ bytes = byte :: (encode line ++ bytes) := by
    rw [← List.singleton_append, encode_append, hbyte, List.append_assoc, List.singleton_append]
  have hchars : [char] ≠ ['\n'] := fun heq => hchar (List.cons.inj heq).1
  rw [hsplit, readLengthOn, timedSocket, if_neg hlater, openSocket, recv_one]
  dsimp only
  rw [hdecode]
  dsimp only
  rw [if_neg hchars]

/-- A time-out inside the line loses the characters before it: by induction on the line. -/
theorem readLengthOn_timed {back : List Char} (hascii : Ascii line) (hline : '\n' ∉ line)
    (rounds calls : ℕ) (lengthStr : List Char) (bytes : List UInt8) :
    readLengthOn (timedSocket ready (calls + line.length)) (line.length + 1 + rounds) lengthStr
        ⟨encode (line ++ back) ++ bytes, calls⟩ =
      .raised ⟨encode back ++ bytes, calls + line.length + 1⟩ := by
  induction line generalizing calls lengthStr with
  | nil =>
      rw [List.nil_append, List.length_nil, Nat.add_zero, Nat.zero_add, Nat.add_comm, readLengthOn,
        timedSocket, if_pos rfl]
  | cons char line ih =>
      have hrest := ih (fun other hmem => hascii other (List.mem_cons_of_mem char hmem))
        (fun hmem => hline (List.mem_cons_of_mem char hmem)) (calls + 1) (lengthStr ++ [char])
      have hchar : char ≠ '\n' := fun heq => hline (heq ▸ List.mem_cons_self)
      have hrounds : (char :: line).length + 1 + rounds = line.length + 1 + rounds + 1 := by
        rw [List.length_cons]
        omega
      have hcalls : calls + (char :: line).length = calls + 1 + line.length := by
        rw [List.length_cons]
        omega
      rw [hrounds, hcalls, List.cons_append, readLengthOn_timed_cons
        (hascii char List.mem_cons_self) hchar (by omega), hrest]

/-- A line is read in full when the time is out after it. -/
theorem readLengthOn_timed_later (hascii : Ascii line) (hline : '\n' ∉ line)
    (hlater : calls + line.length < interrupted) (rounds : ℕ) (lengthStr : List Char)
    (bytes : List UInt8) :
    readLengthOn (timedSocket ready interrupted) (line.length + 1 + rounds) lengthStr
        ⟨encode (line ++ ['\n']) ++ bytes, calls⟩ =
      .done (lengthStr ++ line) ⟨bytes, calls + line.length + 1⟩ := by
  induction line generalizing calls lengthStr with
  | nil =>
      rcases @exists_byte_of_ascii '\n' (by decide) with ⟨byte, hbyte⟩
      have hdecode := decode_encode ['\n']
      rw [hbyte] at hdecode
      rw [List.length_nil, Nat.add_zero] at hlater
      rw [List.nil_append, hbyte, List.length_nil, Nat.zero_add, Nat.add_comm, readLengthOn,
        List.singleton_append, timedSocket, if_neg hlater.ne, openSocket, recv_one]
      dsimp only
      rw [hdecode]
      dsimp only
      rw [if_pos rfl, List.append_nil, Nat.add_zero]
  | cons char line ih =>
      rw [List.length_cons] at hlater
      have hrest := ih (fun other hmem => hascii other (List.mem_cons_of_mem char hmem))
        (fun hmem => hline (List.mem_cons_of_mem char hmem)) (show calls + 1 + line.length <
          interrupted by omega) (lengthStr ++ [char])
      have hchar : char ≠ '\n' := fun heq => hline (heq ▸ List.mem_cons_self)
      have hrounds : (char :: line).length + 1 + rounds = line.length + 1 + rounds + 1 := by
        rw [List.length_cons]
        omega
      have hcalls : calls + (char :: line).length + 1 = calls + 1 + line.length + 1 := by
        rw [List.length_cons]
        omega
      rw [hrounds, hcalls, List.cons_append, readLengthOn_timed_cons
        (hascii char List.mem_cons_self) hchar (by omega), hrest, List.append_assoc,
        List.singleton_append]

/-! ## What is left -/

/-- Digits stand for a number below the power of their count. -/
theorem ofDigitChars_lt {text : List Char} (hdigits : ∀ char ∈ text, char.isDigit = true) :
    Nat.ofDigitChars 10 text 0 < 10 ^ text.length := by
  induction text with
  | nil => exact Nat.one_pos
  | cons char text ih =>
      have hrest := ih fun other hmem => hdigits other (List.mem_cons_of_mem char hmem)
      have hdigit := hdigits char List.mem_cons_self
      simp only [Char.isDigit, Bool.and_eq_true, decide_eq_true_eq] at hdigit
      have hval : char.toNat ≤ 57 := UInt32.le_iff_toNat_le.mp hdigit.2
      have hzero : '0'.toNat = 48 := rfl
      rw [Nat.ofDigitChars_cons, Nat.ofDigitChars_eq_ofDigitChars_zero, List.length_cons,
        Nat.pow_succ, hzero]
      have hbound : 10 ^ text.length * (10 * 0 + (char.toNat - 48)) ≤ 10 ^ text.length * 9 :=
        Nat.mul_le_mul_left _ (by omega)
      omega

/-- The rest of a length line is no number, or a smaller one. -/
theorem intOfText_drop {number count : ℕ} (hpositive : 0 < count)
    (hcount : count ≤ (textOfNat number).length) :
    intOfText ((textOfNat number).drop count) = none ∨
      ∃ smaller < number, intOfText ((textOfNat number).drop count) = some (smaller : ℤ) := by
  have hdigits : ∀ char ∈ (textOfNat number).drop count, char.isDigit = true :=
    fun _ hmem => isDigit_of_mem_textOfNat (List.mem_of_mem_drop hmem)
  have hlength := List.length_drop (i := count) (l := textOfNat number)
  by_cases hempty : (textOfNat number).drop count = []
  · rw [hempty]
    exact .inl rfl
  · right
    refine ⟨_, lt_of_lt_of_le (ofDigitChars_lt hdigits) ?_, intOfText_of_digits hempty hdigits⟩
    have hpos := List.length_pos_of_ne_nil hempty
    by_contra hlt
    have hshort := (Nat.length_toDigits_le_iff (by decide) hpos).mpr (not_le.mp hlt)
    have hsame : (Nat.toDigits 10 number).length = (textOfNat number).length := rfl
    omega

theorem isNumeral_brace (text : List Char) : isNumeral ('\x7b' :: text) = false := by
  rw [isNumeral.eq_def]
  split
  next heq => cases heq
  next char heq =>
      cases heq
      rfl
  next char rest heq =>
      cases heq
      rfl
  next char rest _ _ heq =>
      cases heq
      rfl

theorem intOfText_brace (text : List Char) : intOfText ('\x7b' :: text) = none := by
  have hspace : ¬ isSpace '\x7b' = true := by decide
  have hfront : ('\x7b' :: text).dropWhile isSpace = '\x7b' :: text :=
    List.dropWhile_cons_of_neg hspace
  have hstripped : ∃ rest, ('\x7b' :: text).rdropWhile isSpace = '\x7b' :: rest := by
    cases hstrip : ('\x7b' :: text).rdropWhile isSpace with
    | nil => exact absurd (List.rdropWhile_eq_nil_iff.mp hstrip _ List.mem_cons_self) hspace
    | cons char rest =>
        have hprefixed := List.rdropWhile_prefix isSpace (l := '\x7b' :: text)
        rw [hstrip] at hprefixed
        rw [(List.cons_prefix_cons.mp hprefixed).1]
        exact ⟨rest, rfl⟩
  rcases hstripped with ⟨rest, hrest⟩
  rw [intOfText, hfront, hrest]
  split
  next heq => exact absurd (List.cons.inj heq).1 (by decide)
  next heq => exact absurd (List.cons.inj heq).1 (by decide)
  next =>
      rw [numeral, isNumeral_brace]
      rfl

theorem prefix_readLengthLoop {rounds : ℕ} {lengthStr read : List Char} {inbound rest : Inbound}
    (hread : readLengthLoop ready rounds lengthStr inbound = .done read rest) :
    lengthStr <+: read := by
  induction rounds generalizing lengthStr inbound with
  | zero => cases hread
  | succ rounds ih =>
      rw [readLengthLoop] at hread
      split at hread
      · cases hread
      · split at hread
        · cases hread
        · split at hread
          · cases hread
            exact List.prefix_rfl
          · exact (List.prefix_append _ _).trans (ih hread)

end TimedOut

/-! ## The calls after a time-out -/

section After

variable {ready} {message : Message} {calls : ℕ}

theorem statusJson_objects : Objects statusJson := by
  intro message
  cases message <;> exact ⟨_, rfl⟩

theorem recvMany_of_allAtHand (hascii : ∀ message, Ascii (json.dumps message))
    (hinverse : ∀ message, json.loads (json.dumps message) = some message)
    (messages : List Message) (calls : ℕ)
    (hready : AllAtHand ready (messages.flatMap (send json))) :
    recvMany ready json messages.length ⟨messages.flatMap (send json), calls⟩ =
      messages.map some := by
  induction messages generalizing calls with
  | nil => rfl
  | cons message messages ih =>
      have hlength : (json.dumps message).length ≤
          ((message :: messages).flatMap (send json)).length := by
        rw [List.flatMap_cons, List.length_append, send, List.length_append,
          length_encode (hascii message)]
        omega
      rw [recvMany_of_whole ready hascii hinverse messages
        ((hlength.trans (hready _)).trans (le_max_right _ _)), List.map_cons, ih]
      intro call
      refine le_trans ?_ (hready call)
      rw [List.flatMap_cons, List.length_append]
      omega

/-- The rest of a length line is the length of too little. -/
theorem recv_of_drop (hascii : ∀ message, Ascii (json.dumps message))
    (hdelimiting : SelfDelimiting json) {count : ℕ} (hpositive : 0 < count)
    (hcount : count ≤ (textOfNat (json.dumps message).length).length) (bytes : List UInt8)
    (hready : AllAtHand ready (send json message)) (rest : Inbound) :
    recv ready json
      ⟨encode ((textOfNat (json.dumps message).length).drop count ++ ['\n']) ++
        (encode (json.dumps message) ++ bytes), calls⟩ ≠ .done message rest := by
  have hdigit : ∀ char ∈ (textOfNat (json.dumps message).length).drop count,
      char.isDigit = true :=
    fun _ hmem => isDigit_of_mem_textOfNat (List.mem_of_mem_drop hmem)
  have hline : '\n' ∉ (textOfNat (json.dumps message).length).drop count :=
    fun hmem => absurd (hdigit _ hmem) (by decide)
  have hnumber := intOfText_drop hpositive hcount
  generalize (textOfNat (json.dumps message).length).drop count = line at *
  have hlineAscii : Ascii line := fun char hmem => lt_of_isDigit (hdigit char hmem)
  have hrounds : (encode (line ++ ['\n']) ++ (encode (json.dumps message) ++ bytes)).length =
      line.length + 1 + (encode (json.dumps message) ++ bytes).length := by
    have hall : Ascii (line ++ ['\n']) := by
      intro char hmem
      rcases List.mem_append.mp hmem with hmem | hmem
      · exact hlineAscii char hmem
      · rw [List.mem_singleton.mp hmem]
        decide
    rw [List.length_append, length_encode hall, List.length_append, List.length_singleton]
  unfold recv
  rw [hrounds, readLengthLoop_line ready hlineAscii hline]
  dsimp only
  rw [List.nil_append]
  rcases hnumber with hnone | ⟨smaller, hsmaller, hsome⟩
  · rw [hnone]
    intro heq
    cases heq
  · rw [hsome]
    dsimp only
    have hwhole : smaller ≤ ready (calls + line.length + 1) := by
      have hlength := hready (calls + line.length + 1)
      rw [send, List.length_append, length_encode (hascii message)] at hlength
      omega
    have htaken : (encode (json.dumps message) ++ bytes).take smaller =
        encode ((json.dumps message).take smaller) := by
      rw [List.take_append_of_le_length (by rw [length_encode (hascii message)]; exact hsmaller.le),
        take_encode (hascii message)]
    have hnonempty : ¬ (encode (json.dumps message) ++ bytes = [] ∧ 0 < smaller) :=
      fun hboth => not_starved (hascii message) bytes ⟨hboth.1, hboth.2.trans hsmaller⟩
    have hnonneg : ¬ (smaller : ℤ) < 0 := by omega
    rw [recvBody, if_neg hnonneg, Int.toNat_natCast, Inbound.recv, if_neg hnonempty]
    dsimp only
    rw [min_eq_left (hwhole.trans (le_max_right _ _)), htaken, decode_encode, Option.bind_some]
    have hloads := hdelimiting message smaller hsmaller
    split
    · intro heq
      cases heq
    next result hresult =>
        intro heq
        rw [(Reading.done.inj heq).1] at hresult
        exact hloads hresult

/-- A body is no length line. -/
theorem recv_of_body (hobjects : Objects json) (bytes : List UInt8) (result : Message)
    (rest : Inbound) :
    recv ready json ⟨encode (json.dumps message) ++ bytes, calls⟩ ≠ .done result rest := by
  rcases hobjects message with ⟨text, htext⟩
  rcases @exists_byte_of_ascii '\x7b' (by decide) with ⟨byte, hbyte⟩
  have hdecode := decode_encode ['\x7b']
  rw [hbyte] at hdecode
  have hsplit : encode (json.dumps message) ++ bytes = byte :: (encode text ++ bytes) := by
    rw [htext, ← List.singleton_append, encode_append, hbyte, List.append_assoc,
      List.singleton_append]
  have hfirst : ∀ rounds, readLengthLoop ready (rounds + 1) []
      ⟨byte :: (encode text ++ bytes), calls⟩ =
        readLengthLoop ready rounds ['\x7b'] ⟨encode text ++ bytes, calls + 1⟩ := by
    intro rounds
    rw [readLengthLoop, recv_one]
    dsimp only
    rw [hdecode]
    rfl
  unfold recv
  rw [hsplit, List.length_cons, hfirst]
  cases hread : readLengthLoop ready (encode text ++ bytes).length ['\x7b']
      ⟨encode text ++ bytes, calls + 1⟩ with
  | waiting =>
      intro heq
      cases heq
  | raised rest =>
      intro heq
      cases heq
  | done lengthStr rest =>
      rcases prefix_readLengthLoop hread with ⟨line, rfl⟩
      dsimp only
      rw [List.singleton_append, intOfText_brace]
      intro heq
      cases heq

/-- Nothing is read back when the first call does not return the first message. -/
theorem recvMany_ne {inbound : Inbound} (messages : List Message)
    (hne : ∀ rest, recv ready json inbound ≠ .done message rest) :
    recvMany ready json (message :: messages).length inbound ≠
      (message :: messages).map some := by
  rw [List.length_cons, recvMany, List.map_cons]
  cases hrecv : recv ready json inbound with
  | waiting =>
      intro heq
      cases heq
  | raised rest =>
      intro heq
      cases (List.cons.inj heq).1
  | done result rest =>
      intro heq
      rw [Option.some.inj (List.cons.inj heq).1] at hrecv
      exact hne rest hrecv

theorem length_stream (messages : List Message) :
    ((message :: messages).flatMap (send json)).length =
      (textOfNat (json.dumps message).length).length + 1 +
        (encode (json.dumps message) ++ messages.flatMap (send json)).length := by
  have hascii : Ascii (textOfNat (json.dumps message).length ++ ['\n']) := by
    intro char hmem
    rcases List.mem_append.mp hmem with hmem | hmem
    · exact lt_of_isDigit (isDigit_of_mem_textOfNat hmem)
    · rw [List.mem_singleton.mp hmem]
      decide
  rw [List.flatMap_cons, send, List.append_assoc, List.length_append, length_encode hascii,
    List.length_append, List.length_singleton]

theorem recvOn_timed_in_line (messages : List Message) {count : ℕ}
    (hcount : count ≤ (textOfNat (json.dumps message).length).length) :
    recvOn (timedSocket ready (calls + count)) json
        ((message :: messages).flatMap (send json)).length
        ⟨(message :: messages).flatMap (send json), calls⟩ =
      .raised ⟨encode ((textOfNat (json.dumps message).length).drop count ++ ['\n']) ++
        (encode (json.dumps message) ++ messages.flatMap (send json)), calls + count + 1⟩ := by
  have hlength : ((message :: messages).flatMap (send json)).length =
      (textOfNat (json.dumps message).length).length + 1 +
        (encode (json.dumps message) ++ messages.flatMap (send json)).length :=
    length_stream messages
  have hdigit : ∀ char ∈ (textOfNat (json.dumps message).length).take count,
      char.isDigit = true :=
    fun _ hmem => isDigit_of_mem_textOfNat (List.mem_of_mem_take hmem)
  have hline : '\n' ∉ (textOfNat (json.dumps message).length).take count :=
    fun hmem => absurd (hdigit _ hmem) (by decide)
  have htake : ((textOfNat (json.dumps message).length).take count).length = count :=
    List.length_take_of_le hcount
  have hstream : (message :: messages).flatMap (send json) =
      encode ((textOfNat (json.dumps message).length).take count ++
        ((textOfNat (json.dumps message).length).drop count ++ ['\n'])) ++
        (encode (json.dumps message) ++ messages.flatMap (send json)) := by
    rw [← List.append_assoc _ _ ['\n'], List.take_append_drop, List.flatMap_cons, send,
      List.append_assoc]
  rcases Nat.exists_eq_add_of_le (show count + 1 ≤
      ((message :: messages).flatMap (send json)).length by omega) with ⟨rounds, hrounds⟩
  have hread := @readLengthOn_timed ready _ ((textOfNat (json.dumps message).length).drop count ++
    ['\n']) (fun char hmem => lt_of_isDigit (hdigit char hmem)) hline rounds calls []
    (encode (json.dumps message) ++ messages.flatMap (send json))
  rw [htake, ← hrounds, ← hstream] at hread
  rw [recvOn, hread]

theorem recvOn_timed_before_body (messages : List Message) :
    recvOn (timedSocket ready
          (calls + ((textOfNat (json.dumps message).length).length + 1))) json
        ((message :: messages).flatMap (send json)).length
        ⟨(message :: messages).flatMap (send json), calls⟩ =
      .raised ⟨encode (json.dumps message) ++ messages.flatMap (send json),
        calls + (textOfNat (json.dumps message).length).length + 1 + 1⟩ := by
  have hascii : Ascii (textOfNat (json.dumps message).length) :=
    fun _ hmem => lt_of_isDigit (isDigit_of_mem_textOfNat hmem)
  have hline : '\n' ∉ textOfNat (json.dumps message).length :=
    fun hmem => absurd (isDigit_of_mem_textOfNat hmem) (by decide)
  have hstream : (message :: messages).flatMap (send json) =
      encode (textOfNat (json.dumps message).length ++ ['\n']) ++
        (encode (json.dumps message) ++ messages.flatMap (send json)) := by
    rw [List.flatMap_cons, send, List.append_assoc]
  have hnonneg : ¬ ((json.dumps message).length : ℤ) < 0 := by omega
  rw [recvOn, length_stream, hstream, readLengthOn_timed_later hascii hline (by omega)]
  dsimp only
  rw [List.nil_append, intOfText_textOfNat]
  dsimp only
  rw [recvBodyOn, if_neg hnonneg, timedSocket, if_pos (Nat.add_assoc _ _ _)]

/-- **A time-out loses nothing** if and only if no byte was taken before it: the call that
raises leaves the messages to the following calls, which have all of the bytes at hand. The
time-out may come at any call for the length line or at the one for the body. -/
theorem received_after_timeout_iff (hascii : ∀ message, Ascii (json.dumps message))
    (hinverse : ∀ message, json.loads (json.dumps message) = some message)
    (hdelimiting : SelfDelimiting json) (hobjects : Objects json) (messages : List Message)
    {count : ℕ} (hcount : count ≤ (textOfNat (json.dumps message).length).length + 1)
    (hready : AllAtHand ready ((message :: messages).flatMap (send json))) :
    let stream := (message :: messages).flatMap (send json)
    ∃ rest, recvOn (timedSocket ready (calls + count)) json stream.length ⟨stream, calls⟩ =
        .raised rest ∧
      (recvMany ready json (message :: messages).length rest = (message :: messages).map some ↔
        count = 0) := by
  intro stream
  rcases Nat.lt_or_eq_of_le hcount with hlt | heq
  · refine ⟨_, recvOn_timed_in_line messages (Nat.le_of_lt_succ hlt), ?_⟩
    rcases Nat.eq_zero_or_pos count with hzero | hpositive
    · apply iff_of_true _ hzero
      have hback := recvMany_of_allAtHand hascii hinverse (message :: messages)
        (calls + count + 1) hready
      rw [List.flatMap_cons, send, List.append_assoc] at hback
      rw [hzero, List.drop_zero, ← hzero]
      exact hback
    · apply iff_of_false _ hpositive.ne'
      apply recvMany_ne messages
      intro rest
      apply recv_of_drop hascii hdelimiting hpositive (Nat.le_of_lt_succ hlt)
      intro call
      refine le_trans ?_ (hready call)
      rw [List.flatMap_cons, List.length_append]
      exact Nat.le_add_right _ _
  · rw [heq]
    refine ⟨_, recvOn_timed_before_body messages, ?_⟩
    apply iff_of_false _ (Nat.succ_ne_zero _)
    exact recvMany_ne messages fun rest => recv_of_body hobjects _ message rest

/-- A time-out before the first byte of a client's message. -/
theorem received_after_early_timeout :
    let stream := [ClientMessage.live].flatMap (send statusJson)
    ∃ rest, recvOn (timedSocket (fun _ => 1460) (0 + 0)) statusJson stream.length ⟨stream, 0⟩ =
        .raised rest ∧
      (recvMany (fun _ => 1460) statusJson [ClientMessage.live].length rest =
        [ClientMessage.live].map some ↔ 0 = 0) :=
  received_after_timeout_iff statusJson_ascii statusJson_inverse statusJson_delimiting
    statusJson_objects [] (Nat.zero_le _) (fun _ => by decide +kernel)

/-- **A time-out after the first digit loses a message**: of the length 18 the 8 is left, and
the first eight characters of the message are no JSON text. -/
theorem timeout_loses_message :
    let stream := [ClientMessage.live].flatMap (send statusJson)
    ∃ rest, recvOn (timedSocket (fun _ => 1460) (0 + 1)) statusJson stream.length ⟨stream, 0⟩ =
        .raised rest ∧
      recvMany (fun _ => 1460) statusJson [ClientMessage.live].length rest ≠
        [ClientMessage.live].map some := by
  intro stream
  have hcount : 1 ≤ (textOfNat (statusJson.dumps .live).length).length := by decide +kernel
  refine ⟨_, recvOn_timed_in_line [] hcount, recvMany_ne [] ?_⟩
  intro rest
  apply recv_of_drop statusJson_ascii statusJson_delimiting Nat.one_pos hcount
  intro call
  change (send statusJson ClientMessage.live).length ≤ 1460
  decide +kernel

end After

end ContainerScheduler.Analysis
