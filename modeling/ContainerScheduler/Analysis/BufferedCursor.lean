/-
# Buffering is transparent

A cursor into a file reads, skips, seeks and reads lines at its position, and stops at
the end of the file. A buffered stream over a stream of the file answers every
sequence of calls as the cursor does: what it has read ahead is between the cursor and
the position of the inner stream, and the end it remembers is the cursor's.
-/

import ContainerScheduler.Analysis.StreamPositions

namespace ContainerScheduler.Analysis

open Records

/-- A call with arguments that are not negative. -/
inductive StreamCall
  | readNBytes (bytesToRead : ℕ)
  | skipNBytes (bytesToSkip : ℕ)
  | seek (position : ℕ)
  | tell
  | reset
  | readLine
  deriving DecidableEq, Repr

inductive StreamAnswer
  | data (status : Option StreamError) (result : List UInt8)
  | status (status : Option StreamError)
  | position (pos : ℤ)
  deriving DecidableEq, Repr

/-- The answer of a buffered stream, whose lines are read in at most that many turns. -/
def bufferedAnswer {σ : Type} (inner : InputStream σ) (size turns : ℕ)
    (state : BufferedState σ) : StreamCall → Option (StreamAnswer × BufferedState σ)
  | .readNBytes bytesToRead =>
      let (status, result, next) := state.readNBytes inner size bytesToRead
      some (.data status result, next)
  | .skipNBytes bytesToSkip =>
      let (status, next) := state.skipNBytes inner bytesToSkip
      some (.status status, next)
  | .seek position =>
      let (status, next) := state.seek inner position
      some (.status status, next)
  | .tell => some (.position (state.tell inner), state)
  | .reset =>
      let (status, next) := state.reset inner
      some (.status status, next)
  | .readLine =>
      (state.readLine inner size turns).map fun (status, result, next) =>
        (.data status result, next)

/-- The answers to a sequence of calls. -/
def bufferedAnswers {σ : Type} (inner : InputStream σ) (size turns : ℕ) :
    List StreamCall → BufferedState σ → Option (List StreamAnswer)
  | [], _ => some []
  | call :: calls, state =>
      (bufferedAnswer inner size turns state call).bind fun (answer, next) =>
        (bufferedAnswers inner size turns calls next).map (answer :: ·)

/-! ## The cursor -/

section Cursor

variable (contents : List UInt8)

/-- The bytes of a line, without its carriage returns. -/
def lineText (rest : List UInt8) : List UInt8 :=
  (rest.takeWhile (· ≠ 10)).filter (· ≠ 13)

/-- The line at a position, and the position behind it. A line that no newline ends is
one if something is left of it. -/
def cursorLine (p : ℕ) : Option StreamError × List UInt8 × ℕ :=
  let rest := contents.drop p
  (if 10 ∈ rest ∨ lineText rest ≠ [] then none else some .outOfRange, lineText rest,
    min (p + (rest.takeWhile (· ≠ 10)).length + 1) contents.length)

def cursorAnswer (p : ℕ) : StreamCall → StreamAnswer × ℕ
  | .readNBytes n =>
      (.data (if p + n ≤ contents.length then none else some .outOfRange)
        ((contents.drop p).take n), min (p + n) contents.length)
  | .skipNBytes n =>
      (.status (if p + n ≤ contents.length then none else some .outOfRange),
        min (p + n) contents.length)
  | .seek position =>
      (.status (if position ≤ contents.length then none else some .outOfRange),
        min position contents.length)
  | .tell => (.position p, p)
  | .reset => (.status none, 0)
  | .readLine =>
      let (status, text, next) := cursorLine contents p
      (.data status text, next)

def cursorAnswers : List StreamCall → ℕ → List StreamAnswer
  | [], _ => []
  | call :: calls, p =>
      (cursorAnswer contents p call).1 :: cursorAnswers calls (cursorAnswer contents p call).2

end Cursor

/-! ## Lines -/

section Lines

variable {σ : Type} {inner : InputStream σ} {contents : List UInt8} {stands : σ → ℕ → Prop}
  {size : ℕ}

theorem BufferedAt.next_byte (hinner : ReadsFile inner contents stands)
    {state : BufferedState σ} {p : ℕ} (hat : BufferedAt contents stands state p)
    (hlt : state.pos < state.limit) :
    ∃ byte rest, contents.drop p = byte :: rest ∧ state.buf.getD state.pos 0 = byte ∧
      BufferedAt contents stands { state with pos := state.pos + 1 } (p + 1) := by
  have hlive : state.fileStatus = none := by
    cases hstatus : state.fileStatus with
    | none => rfl
    | some error => exact absurd (hat.ended error hstatus).2.2 (by omega)
  rcases hat.advance hinner hlive 1 with ⟨hcopied, hlength, hadvanced⟩
  have hone : min (state.limit - state.pos) 1 = 1 := by omega
  rw [hone] at hcopied hlength hadvanced
  rw [BufferedState.advance, hone] at hadvanced
  rw [BufferedState.copied, hone] at hcopied hlength
  cases hdrop : state.buf.drop state.pos with
  | nil => simp [hdrop] at hlength
  | cons byte others =>
      rw [hdrop, List.take_succ_cons, List.take_zero] at hcopied
      cases hfile : contents.drop p with
      | nil => simp [hfile] at hcopied
      | cons first rest =>
          rw [hfile, List.take_succ_cons, List.take_zero] at hcopied
          refine ⟨first, rest, rfl, ?_, hadvanced⟩
          have hget : state.buf[state.pos]? = some byte := by
            rw [← List.head?_drop, hdrop, List.head?_cons]
          rw [List.getD_eq_getElem?_getD, hget]
          exact (List.cons.inj hcopied).1

/-- Either the buffer has a byte after it was filled if it was empty, or the file has
ended. -/
theorem BufferedAt.filled (hinner : ReadsFile inner contents stands) (hsize : 0 < size)
    {state : BufferedState σ} {p : ℕ} (hat : BufferedAt contents stands state p) :
    ∃ status filled,
      (if state.pos = state.limit then state.fillBuffer inner size else (none, state)) =
        (status, filled) ∧
      BufferedAt contents stands filled p ∧
      (p = contents.length → state.pos = state.limit ∧ filled.limit = 0 ∧
        status = some .outOfRange) ∧
      (p < contents.length → filled.pos < filled.limit) := by
  have hle := hat.le hinner
  by_cases hempty : state.pos = state.limit
  · rw [if_pos hempty]
    cases hstatus : state.fileStatus with
    | some error =>
        rcases hat.ended error hstatus with ⟨rfl, hend, -⟩
        refine ⟨some .outOfRange, { state with pos := 0, limit := 0 }, ?_, ?_,
          fun _ => ⟨hempty, rfl, rfl⟩, fun hlt => absurd hend (by omega)⟩
        · rw [BufferedState.fillBuffer, hstatus]
        · have hinnerAt := hat.inner_at
          rw [hempty, Nat.sub_self] at hinnerAt
          exact ⟨le_rfl, hinnerAt, rfl, fun error herror =>
            ⟨(hat.ended error herror).1, hend, rfl⟩⟩
    | none =>
        rcases hat.fillBuffer hinner hsize hstatus hempty with
          ⟨status, filled, hfill, -, hend, hmore⟩
        rw [hfill]
        refine ⟨status, filled, rfl, ?_, fun heq => ?_, fun hlt => (hmore hlt).2.1⟩
        · rcases lt_or_eq_of_le (show p ≤ contents.length by omega) with hlt | heq
          · exact (hmore hlt).2.2.2
          · rcases hend heq with ⟨-, -, hat'⟩
            refine ⟨hat'.pos_le, hat'.inner_at, hat'.ahead, fun error herror => ?_⟩
            have hlimit := (hend heq).2.1
            have hpos := hat'.pos_le
            dsimp only at hpos
            refine ⟨?_, heq, by omega⟩
            -- the buffer keeps the status of the read that found nothing
            have hsame : filled.fileStatus = none ∨ filled.fileStatus = status := by
              rw [BufferedState.fillBuffer, hstatus] at hfill
              obtain ⟨rfl, rfl⟩ := Prod.mk.inj hfill
              dsimp only
              split_ifs
              · exact .inr rfl
              · exact .inl rfl
            rcases hsame with hnone | hsame
            · rw [hnone] at herror
              cases herror
            · rw [hsame, (hend heq).1] at herror
              exact (Option.some.inj herror).symm
        · exact ⟨hempty, (hend heq).2.1, (hend heq).1⟩
  · rw [if_neg hempty]
    have hlt := lt_of_le_of_ne hat.pos_le hempty
    exact ⟨none, state, rfl, hat, fun heq => by omega, fun _ => hlt⟩

theorem readLineLoop_spec (hinner : ReadsFile inner contents stands) (hsize : 0 < size)
    {turns : ℕ} (result : List UInt8) {state : BufferedState σ} {p : ℕ}
    (hat : BufferedAt contents stands state p) (hturns : contents.length < p + turns) :
    ∃ next, BufferedState.readLineLoop inner size false turns result state =
        some (if 10 ∈ contents.drop p ∨ result ++ lineText (contents.drop p) ≠ [] then none
          else some .outOfRange, result ++ lineText (contents.drop p), next) ∧
      BufferedAt contents stands next (cursorLine contents p).2.2 := by
  induction turns generalizing result state p with
  | zero =>
      have hle := hat.le hinner
      omega
  | succ turns ih =>
      rcases hat.filled hinner hsize with ⟨status, filled, hfilled, hat', hend, hmore⟩
      rw [BufferedState.readLineLoop]
      simp only [hfilled]
      rcases lt_or_eq_of_le (show p ≤ contents.length from
        (Nat.le_add_right _ _).trans (hat.le hinner)) with hlt | heq
      · have hbuffered := hmore hlt
        rw [if_neg (by omega)]
        rcases hat'.next_byte hinner hbuffered with ⟨byte, rest, hdrop, hbyte, hnext⟩
        have hrest : contents.drop (p + 1) = rest := by
          rw [← List.drop_drop, hdrop, List.drop_succ_cons, List.drop_zero]
        rw [hbyte, hdrop]
        by_cases hnewline : byte = 10
        · subst hnewline
          refine ⟨{ filled with pos := filled.pos + 1 }, ?_, ?_⟩
          · simp [lineText]
          · rw [cursorLine, hdrop]
            rw [List.takeWhile_cons_of_neg (by simp)]
            exact (min_eq_left (show p + 0 + 1 ≤ contents.length by omega)).symm ▸ hnext
        · have hline : lineText (byte :: rest) =
              (if byte ≠ 13 then [byte] else []) ++ lineText rest := by
            rw [lineText, List.takeWhile_cons_of_pos (by simpa using hnewline)]
            split_ifs with hreturn
            · rw [List.filter_cons_of_pos (by simpa using hreturn)]
              rfl
            · rw [List.filter_cons_of_neg (by simpa using hreturn)]
              rfl
          have hsame : result ++ lineText (byte :: rest) =
              (if byte ≠ 13 then result ++ [byte] else result) ++ lineText rest := by
            rw [hline]
            split_ifs
            · rw [List.append_assoc]
            · rw [List.nil_append]
          have hmem : 10 ∈ byte :: rest ↔ 10 ∈ rest := by
            rw [List.mem_cons, or_iff_right fun h => hnewline h.symm]
          have hbehind : (cursorLine contents p).2.2 = (cursorLine contents (p + 1)).2.2 := by
            simp only [cursorLine, hdrop, hrest]
            rw [List.takeWhile_cons_of_pos (by simpa using hnewline), List.length_cons]
            congr 1
            omega
          rw [if_neg hnewline, hsame, hbehind]
          rcases ih (if byte ≠ 13 then result ++ [byte] else result) hnext (by omega) with
            ⟨next, hloop, hnext'⟩
          refine ⟨next, ?_, hnext'⟩
          rw [hloop, hrest]
          simp only [hmem]
      · rcases hend heq with ⟨hempty, hlimit, rfl⟩
        have hnothing : contents.drop p = [] := by rw [heq, List.drop_length]
        refine ⟨filled, ?_, ?_⟩
        · rw [if_pos ⟨hempty, hlimit⟩, hnothing]
          cases result <;> simp [lineText]
        · rw [cursorLine, hnothing]
          have hstop : min (p + 0 + 1) contents.length = p := by omega
          exact hstop.symm ▸ hat'

end Lines

/-! ## Every sequence of calls -/

section Calls

variable {σ : Type} {inner : InputStream σ} {contents : List UInt8} {stands : σ → ℕ → Prop}
  {size : ℕ}

section

variable (hinner : StopsAtEnd inner contents stands)

include hinner

/-- A skip ends where the cursor does. -/
theorem StopsAtEnd.skip {state : σ} {p : ℕ} (hstands : stands state p) (n : ℕ) :
    ∃ next, inner.skipNBytes n state =
        (if p + n ≤ contents.length then none else some .outOfRange, next) ∧
      stands next (min (p + n) contents.length) := by
  by_cases hle : p + n ≤ contents.length
  · rw [if_pos hle, min_eq_left hle]
    exact hinner.skip_spec hstands hle
  · rw [if_neg hle, min_eq_right (by omega)]
    exact hinner.skip_past hstands (by omega)

theorem StopsAtEnd.read {state : σ} {p : ℕ} (hstands : stands state p) (n : ℕ) :
    ∃ next, inner.readNBytes n state =
        (if p + n ≤ contents.length then none else some .outOfRange,
          (contents.drop p).take n, next) ∧
      stands next (min (p + n) contents.length) := by
  rcases Nat.eq_zero_or_pos n with rfl | hpos
  · have hle := hinner.position_le hstands
    rw [if_pos (by omega), Nat.add_zero, min_eq_left hle]
    exact hinner.read_nothing hstands
  · exact hinner.read_spec hstands hpos

/-- A buffered stream seeks to where the cursor does. -/
theorem BufferedAt.seek (hsize : 0 < size) {state : BufferedState σ} {p : ℕ}
    (hat : BufferedAt contents stands state p) (position : ℕ) :
    ∃ next, state.seek inner position =
        (if position ≤ contents.length then none else some .outOfRange, next) ∧
      BufferedAt contents stands next (min position contents.length) := by
  have hbuffered := buffered_stopsAtEnd hinner hsize
  have htell : state.tell inner = p := hbuffered.tell_eq hat
  rw [BufferedState.seek, if_neg (by omega), htell]
  by_cases hback : position < p
  · rw [if_pos (by omega)]
    rcases hbuffered.reset_spec hat with ⟨fresh, hreset, hfresh⟩
    rcases hbuffered.skip hfresh position with ⟨next, hskip, hnext⟩
    rw [Nat.zero_add] at hskip hnext
    change state.reset inner = _ at hreset
    rw [hreset]
    exact ⟨next, hskip, hnext⟩
  · rw [if_neg (by omega)]
    rcases hbuffered.skip hat (position - p) with ⟨next, hskip, hnext⟩
    rw [show p + (position - p) = position by omega] at hskip hnext
    rw [show (position : ℤ) - p = (position - p : ℕ) by omega]
    exact ⟨next, hskip, hnext⟩

/-- **One call** is answered as the cursor answers it. -/
theorem BufferedAt.answer (hsize : 0 < size) {turns : ℕ} (hturns : contents.length < turns)
    {state : BufferedState σ} {p : ℕ} (hat : BufferedAt contents stands state p)
    (call : StreamCall) :
    ∃ next, bufferedAnswer inner size turns state call =
        some ((cursorAnswer contents p call).1, next) ∧
      BufferedAt contents stands next (cursorAnswer contents p call).2 := by
  have hbuffered := buffered_stopsAtEnd hinner hsize
  cases call with
  | readNBytes n =>
      rcases hbuffered.read hat n with ⟨next, hread, hnext⟩
      change state.readNBytes inner size n = _ at hread
      exact ⟨next, by rw [bufferedAnswer, hread]; rfl, hnext⟩
  | skipNBytes n =>
      rcases hbuffered.skip hat n with ⟨next, hskip, hnext⟩
      change state.skipNBytes inner n = _ at hskip
      exact ⟨next, by rw [bufferedAnswer, hskip]; rfl, hnext⟩
  | seek position =>
      rcases hat.seek hinner hsize position with ⟨next, hseek, hnext⟩
      exact ⟨next, by rw [bufferedAnswer, hseek]; rfl, hnext⟩
  | tell =>
      have htell : state.tell inner = p := hbuffered.tell_eq hat
      exact ⟨state, by rw [bufferedAnswer, htell]; rfl, hat⟩
  | reset =>
      rcases hbuffered.reset_spec hat with ⟨next, hreset, hnext⟩
      change state.reset inner = _ at hreset
      exact ⟨next, by rw [bufferedAnswer, hreset]; rfl, hnext⟩
  | readLine =>
      rcases readLineLoop_spec hinner.toReadsFile hsize [] hat
        (show contents.length < p + turns by omega) with ⟨next, hline, hnext⟩
      refine ⟨next, ?_, hnext⟩
      rw [bufferedAnswer, BufferedState.readLine, hline]
      rfl

theorem answers_eq (hsize : 0 < size) {turns : ℕ} (hturns : contents.length < turns)
    (calls : List StreamCall) {state : BufferedState σ} {p : ℕ}
    (hat : BufferedAt contents stands state p) :
    bufferedAnswers inner size turns calls state =
      some (cursorAnswers contents calls p) := by
  induction calls generalizing state p with
  | nil => rfl
  | cons call calls ih =>
      rcases hat.answer hinner hsize hturns call with ⟨next, hanswer, hnext⟩
      rw [bufferedAnswers, hanswer, Option.bind_some]
      dsimp only
      rw [ih hnext, Option.map_some, cursorAnswers]

end

end Calls

/-- **Buffering is transparent.** A new buffered stream over a file answers every
sequence of calls as the cursor does. A line takes at most as many turns as there are
bytes and one more. -/
theorem buffering_is_transparent (contents : List UInt8) (size turns : ℕ) (hsize : 0 < size)
    (hturns : contents.length < turns) (calls : List StreamCall) :
    bufferedAnswers (randomAccessInputStream contents) size turns calls
        ⟨0, [], 0, 0, none⟩ = some (cursorAnswers contents calls 0) := by
  refine answers_eq (randomAccess_stopsAtEnd contents) hsize hturns calls ?_
  refine ⟨le_rfl, ⟨rfl, Nat.zero_le _⟩, rfl, fun error herror => ?_⟩
  cases herror

/-- A line, a skip past the end, and a line after seeking back. -/
theorem buffering_is_transparent_lines :
    0 < 2 ∧ [97, 13, 10, 98].length < 5 ∧
      bufferedAnswers (randomAccessInputStream [97, 13, 10, 98]) 2 5
        [.readLine, .skipNBytes 7, .tell, .seek 3, .readLine, .readLine] ⟨0, [], 0, 0, none⟩ =
          some (cursorAnswers [97, 13, 10, 98]
            [.readLine, .skipNBytes 7, .tell, .seek 3, .readLine, .readLine] 0) :=
  ⟨by decide, by decide,
    buffering_is_transparent [97, 13, 10, 98] 2 5 (by decide) (by decide) _⟩

end ContainerScheduler.Analysis
