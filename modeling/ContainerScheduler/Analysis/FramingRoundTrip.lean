/-
# When messages survive the connection

Length lines are always read in full. A message survives exactly when all of its
body is at hand at the one `recv` that reads it; after a body that is not, the
rest of it is taken for the next length line.
-/

import ContainerScheduler.Wire.ClientThread
import ContainerScheduler.Wire.Framing

namespace ContainerScheduler.Analysis

open Wire

variable {Message : Type} (ready : ℕ → ℕ) {json : Json Message}

/-- Each body is at hand as a whole when it is read. The first argument counts
the `recv` calls made so far. -/
def WholeBodies (json : Json Message) : ℕ → List Message → Prop
  | _, [] => True
  | calls, message :: messages =>
      (json.dumps message).length ≤ max 1 (ready (bodyCall json calls message)) ∧
        WholeBodies json (bodyCall json calls message + 1) messages

instance decidableWholeBodies (json : Json Message) :
    ∀ calls messages, Decidable (WholeBodies ready json calls messages)
  | _, [] => inferInstanceAs (Decidable True)
  | calls, message :: messages =>
      have := decidableWholeBodies json (bodyCall json calls message + 1) messages
      inferInstanceAs (Decidable ((json.dumps message).length ≤
        max 1 (ready (bodyCall json calls message)) ∧
        WholeBodies ready json (bodyCall json calls message + 1) messages))

/-- No proper prefix of a serialised message is parsed as that message. -/
def SelfDelimiting (json : Json Message) : Prop :=
  ∀ message count, count < (json.dumps message).length →
    json.loads ((json.dumps message).take count) ≠ some message

/-- A first body that is not at hand as a whole spoils the first result. -/
theorem recvMany_ne_of_short (hascii : ∀ message, Ascii (json.dumps message))
    (hdelimiting : SelfDelimiting json) {message : Message} {calls : ℕ} (messages : List Message)
    (hshort : max 1 (ready (bodyCall json calls message)) < (json.dumps message).length) :
    recvMany ready json (message :: messages).length
        ⟨(message :: messages).flatMap (send json), calls⟩ ≠ (message :: messages).map some := by
  have hwrong := hdelimiting message _ hshort
  rw [List.flatMap_cons, List.length_cons, recvMany, recv_send,
    recvBody_of_short ready (hascii message) _ hshort]
  intro heq
  split at heq
  next deserialized rest hread =>
      split at hread
      · cases hread
      next other hloads =>
          cases hread
          obtain ⟨hfirst, -⟩ := List.cons.inj heq
          exact hwrong (hloads.trans hfirst)
  next => cases heq
  next => cases heq

/-- A first body that is at hand as a whole is the first result. -/
theorem recvMany_of_whole (hascii : ∀ message, Ascii (json.dumps message))
    (hinverse : ∀ message, json.loads (json.dumps message) = some message)
    {message : Message} {calls : ℕ} (messages : List Message)
    (hwhole : (json.dumps message).length ≤ max 1 (ready (bodyCall json calls message))) :
    recvMany ready json (message :: messages).length
        ⟨(message :: messages).flatMap (send json), calls⟩ =
      some message :: recvMany ready json messages.length
        ⟨messages.flatMap (send json), bodyCall json calls message + 1⟩ := by
  rw [List.flatMap_cons, List.length_cons, recvMany, recv_send,
    recvBody_of_whole ready (hascii message) (hinverse message) _ hwhole]

/-- **The framing round trip.** Successive calls of `_recv` return exactly the
messages sent if and only if every body is at hand as a whole when it is read. -/
theorem received_eq_sent_iff (hascii : ∀ message, Ascii (json.dumps message))
    (hinverse : ∀ message, json.loads (json.dumps message) = some message)
    (hdelimiting : SelfDelimiting json) (messages : List Message) :
    recvMany ready json messages.length (sent json messages) = messages.map some ↔
      WholeBodies ready json 0 messages := by
  rw [sent]
  generalize 0 = calls
  induction messages generalizing calls with
  | nil => exact iff_of_true rfl trivial
  | cons message messages ih =>
      by_cases hwhole : (json.dumps message).length ≤ max 1 (ready (bodyCall json calls message))
      · rw [recvMany_of_whole ready hascii hinverse messages hwhole, List.map_cons,
          List.cons.injEq, WholeBodies, ih]
        simp [hwhole]
      · refine iff_of_false ?_ fun hall => hwhole hall.1
        exact recvMany_ne_of_short ready hascii hdelimiting messages (not_le.mp hwhole)

/-! ## Status messages -/

/-- The text of a client's message. -/
def statusText : ClientMessage → String
  | .init => "\x7b\"status\": \"init\"\x7d"
  | .live => "\x7b\"status\": \"live\"\x7d"
  | .error => "\x7b\"status\": \"error\"\x7d"
  | .exit => "\x7b\"status\": \"exit\"\x7d"

/-- The JSON library on the messages of a client. -/
def statusJson : Json ClientMessage where
  dumps message := (statusText message).toList
  loads text :=
    [.init, .live, .error, .exit].find? fun message => (statusText message).toList = text

theorem statusJson_ascii (message : ClientMessage) : Ascii (statusJson.dumps message) := by
  cases message <;> decide +kernel

theorem statusJson_inverse (message : ClientMessage) :
    statusJson.loads (statusJson.dumps message) = some message := by
  cases message <;> decide +kernel

theorem statusJson_delimiting : SelfDelimiting statusJson := by
  intro message
  cases message <;> decide +kernel

/-- Two messages of a client, each of whose bodies arrives in one segment. -/
theorem statuses_received : recvMany (fun _ => 1460) statusJson 2
    (sent statusJson [.init, .exit]) = [some .init, some .exit] :=
  (received_eq_sent_iff (fun _ => 1460) statusJson_ascii statusJson_inverse
    statusJson_delimiting [.init, .exit]).mpr (by decide +kernel)

/-- A network that hands out one byte at a time loses the first message. -/
theorem slow_network_loses_status :
    ¬ ∀ (Message : Type) (json : Json Message), (∀ message, Ascii (json.dumps message)) →
      (∀ message, json.loads (json.dumps message) = some message) → SelfDelimiting json →
      ∀ (ready : ℕ → ℕ) (messages : List Message),
        recvMany ready json messages.length (sent json messages) = messages.map some := by
  intro hclaim
  have hshort : max 1 1 < (statusJson.dumps .init).length := by decide +kernel
  have hreceived := hclaim ClientMessage statusJson statusJson_ascii statusJson_inverse
    statusJson_delimiting (fun _ => 1) [.init]
  exact recvMany_ne_of_short (fun _ => 1) statusJson_ascii statusJson_delimiting [] hshort hreceived

end ContainerScheduler.Analysis
