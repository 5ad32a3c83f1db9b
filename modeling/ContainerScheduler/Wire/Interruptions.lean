/-
# Reading on a connection that is interrupted

A call of `recv` raises when its time is out, and returns the empty byte string once the other
side has closed the connection. `_recv` handles neither: a time-out leaves it with what it has
read so far, and an empty byte string is one more character that is not a newline.

The calls of `recv` are a parameter here. With those of an open connection, `_recv` is that of
framed messages.
-/

import ContainerScheduler.Wire.Framing

namespace ContainerScheduler.Wire

/-- What a call of `recv` does: it returns bytes, raises, or waits for ever. -/
inductive Receipt
  | received (bytes : List UInt8) (rest : Inbound)
  | timedOut (rest : Inbound)
  | blocked
  deriving DecidableEq, Repr

/-! ## The calls of a connection -/

section Connections

variable (ready : ℕ → ℕ)

/-- A connection that stays open. -/
def openSocket (inbound : Inbound) (size : ℕ) : Receipt :=
  match inbound.recv ready size with
  | none => .blocked
  | some (bytes, rest) => .received bytes rest

/-- An open connection on which one call of `recv` raises `socket.timeout`. -/
def timedSocket (interrupted : ℕ) (inbound : Inbound) (size : ℕ) : Receipt :=
  if inbound.calls = interrupted then .timedOut ⟨inbound.bytes, inbound.calls + 1⟩
  else openSocket ready inbound size

/-- A connection that the other side has closed. -/
def closedSocket (inbound : Inbound) (size : ℕ) : Receipt :=
  let count := min size (max 1 (ready inbound.calls))
  .received (inbound.bytes.take count) ⟨inbound.bytes.drop count, inbound.calls + 1⟩

end Connections

/-! ## `_recv` -/

section Transport

variable (socket : Inbound → ℕ → Receipt)

/-- Read characters one by one up to the newline, in a number of rounds at most. -/
def readLengthOn : ℕ → List Char → Inbound → Reading (List Char)
  | 0, _, _ => .waiting
  | rounds + 1, lengthStr, inbound =>
      match socket inbound 1 with
      | .blocked => .waiting
      | .timedOut rest => .raised rest
      | .received bytes rest =>
          match decode bytes with
          | none => .raised rest
          | some char =>
              if char = ['\n'] then .done lengthStr rest
              else readLengthOn rounds (lengthStr ++ char) rest

variable {Message : Type} (json : Json Message)

/-- The second half of `_recv`. -/
def recvBodyOn (total : ℤ) (inbound : Inbound) : Reading Message :=
  if total < 0 then .raised inbound
  else
    match socket inbound total.toNat with
    | .blocked => .waiting
    | .timedOut rest => .raised rest
    | .received bytes rest =>
        match (decode bytes).bind json.loads with
        | none => .raised rest
        | some deserialized => .done deserialized rest

/-- `_recv` in a number of rounds at most. -/
def recvOn (rounds : ℕ) (inbound : Inbound) : Reading Message :=
  match readLengthOn socket rounds [] inbound with
  | .waiting => .waiting
  | .raised rest => .raised rest
  | .done lengthStr rest =>
      match intOfText lengthStr with
      | none => .raised rest
      | some total => recvBodyOn socket json total rest

end Transport

/-! ## An open connection -/

section Open

variable (ready : ℕ → ℕ) {Message : Type} (json : Json Message)

theorem readLengthOn_openSocket (rounds : ℕ) (lengthStr : List Char) (inbound : Inbound) :
    readLengthOn (openSocket ready) rounds lengthStr inbound =
      readLengthLoop ready rounds lengthStr inbound := by
  induction rounds generalizing lengthStr inbound with
  | zero => rfl
  | succ rounds ih =>
      rw [readLengthOn, readLengthLoop, openSocket]
      cases inbound.recv ready 1 with
      | none => rfl
      | some received =>
          dsimp only
          cases decode received.1 with
          | none => rfl
          | some char =>
              dsimp only
              rw [ih]

/-- On an open connection the two readings are one. -/
theorem recvOn_openSocket (inbound : Inbound) :
    recvOn (openSocket ready) json inbound.bytes.length inbound = recv ready json inbound := by
  unfold recvOn recv
  rw [readLengthOn_openSocket]
  cases readLengthLoop ready inbound.bytes.length [] inbound with
  | waiting => rfl
  | raised rest => rfl
  | done lengthStr rest =>
      dsimp only
      cases intOfText lengthStr with
      | none => rfl
      | some total =>
          dsimp only
          unfold recvBodyOn recvBody openSocket
          cases rest.recv ready total.toNat <;> rfl

end Open

end ContainerScheduler.Wire
