/-
# Where a stream stands

A stream that reads a file stands at a position of the file. Reading gives the bytes from there on
and moves past them, or to the end of the file; skipping inside of the file moves on; resetting goes
back to the beginning. A buffered stream over such a stream is one.
-/

import ContainerScheduler.Records.InputStreams

namespace ContainerScheduler.Analysis

open Records

/-- A stream reads the file, and `at` says where it stands. -/
structure ReadsFile {σ : Type} (stream : InputStream σ) (contents : List UInt8)
    (stands : σ → ℕ → Prop) : Prop where
  position_le : ∀ {state p}, stands state p → p ≤ contents.length
  tell_eq : ∀ {state p}, stands state p → stream.tell state = p
  reset_spec : ∀ {state p}, stands state p →
    ∃ next, stream.reset state = (none, next) ∧ stands next 0
  read_spec : ∀ {state p n}, stands state p → 0 < n →
    ∃ next, stream.readNBytes (n : ℕ) state =
        (if p + n ≤ contents.length then none else some .outOfRange,
          (contents.drop p).take n, next) ∧
      stands next (min (p + n) contents.length)
  skip_spec : ∀ {state p n}, stands state p → p + n ≤ contents.length →
    ∃ next, stream.skipNBytes (n : ℕ) state = (none, next) ∧ stands next (p + n)

variable {contents : List UInt8}

theorem length_readable (p n : ℕ) :
    ((contents.drop p).take n).length = min n (contents.length - p) := by
  rw [List.length_take, List.length_drop]

/-! ## Random access -/

theorem skipLoop_spec (n : ℕ) (p : ℕ) (hle : p + n ≤ contents.length) :
    skipLoop contents n p = (none, p + n) := by
  induction n using Nat.strongRecOn generalizing p with
  | ind n ih =>
      rw [skipLoop]
      simp only [readFile, length_readable]
      split_ifs with hzero hshort
      · rw [hzero, Nat.add_zero]
      · omega
      · have hpos : 0 < min kMaxSkipSize n := lt_min (by decide) (Nat.pos_of_ne_zero hzero)
        rw [ih _ (by omega) _ (by omega)]
        congr 1
        omega

theorem randomAccess_readsFile (contents : List UInt8) :
    ReadsFile (randomAccessInputStream contents) contents
      fun pos p => pos = p ∧ p ≤ contents.length := by
  constructor
  · intro pos p hstands
    exact hstands.2
  · rintro pos p ⟨rfl, -⟩
    rfl
  · intro pos p _
    exact ⟨0, rfl, rfl, Nat.zero_le _⟩
  · rintro pos p n ⟨rfl, hle⟩ hn
    refine ⟨pos + ((contents.drop pos).take n).length, ?_, ?_, min_le_right _ _⟩
    · have hnonneg : ¬((n : ℤ) < 0) := by omega
      have hall : ((contents.drop pos).take n).length = n ↔ pos + n ≤ contents.length := by
        rw [length_readable]
        omega
      simp only [randomAccessInputStream, if_neg hnonneg, readFile, Int.toNat_natCast, hall]
    · rw [length_readable]
      omega
  · rintro pos p n ⟨rfl, -⟩ hle
    refine ⟨pos + n, ?_, rfl, hle⟩
    have hnonneg : ¬((n : ℤ) < 0) := by omega
    simp only [randomAccessInputStream, if_neg hnonneg, Int.toNat_natCast]
    split_ifs
    · rfl
    · exact skipLoop_spec n pos hle

/-- A stream that reads the file and stops at its end. -/
structure StopsAtEnd {σ : Type} (stream : InputStream σ) (contents : List UInt8)
    (stands : σ → ℕ → Prop) : Prop extends ReadsFile stream contents stands where
  skip_past : ∀ {state p n}, stands state p → contents.length < p + n →
    ∃ next, stream.skipNBytes (n : ℕ) state = (some .outOfRange, next) ∧
      stands next contents.length
  read_nothing : ∀ {state p}, stands state p →
    ∃ next, stream.readNBytes 0 state = (none, [], next) ∧ stands next p

theorem skipLoop_past (n : ℕ) (p : ℕ) (hle : p ≤ contents.length)
    (hpast : contents.length < p + n) :
    skipLoop contents n p = (some .outOfRange, contents.length) := by
  induction n using Nat.strongRecOn generalizing p with
  | ind n ih =>
      rw [skipLoop]
      simp only [readFile, length_readable]
      split_ifs with hzero hshort
      · omega
      · congr 1
        omega
      · have hpos : 0 < min kMaxSkipSize n := lt_min (by decide) (Nat.pos_of_ne_zero hzero)
        exact ih _ (by omega) _ (by omega) (by omega)

theorem randomAccess_stopsAtEnd (contents : List UInt8) :
    StopsAtEnd (randomAccessInputStream contents) contents
      fun pos p => pos = p ∧ p ≤ contents.length := by
  refine ⟨randomAccess_readsFile contents, ?_, ?_⟩
  · rintro pos p n ⟨rfl, hle⟩ hpast
    refine ⟨contents.length, ?_, rfl, le_rfl⟩
    have hnonneg : ¬((n : ℤ) < 0) := by omega
    have hmissing : ¬min 1 (contents.length - (pos + n - 1)) = 1 := by omega
    simp only [randomAccessInputStream, if_neg hnonneg, Int.toNat_natCast, readFile,
      length_readable]
    rw [if_neg fun h => hmissing h.2]
    exact skipLoop_past n pos hle hpast
  · rintro pos p ⟨rfl, hle⟩
    exact ⟨pos, by simp [randomAccessInputStream, readFile], rfl, hle⟩

/-! ## Buffering -/

section Buffered

variable {σ : Type} {inner : InputStream σ} {stands : σ → ℕ → Prop} {size : ℕ}

/-- The bytes before the inner stream are in the buffer; once the file has ended nothing is. -/
structure BufferedAt (contents : List UInt8) (stands : σ → ℕ → Prop) (state : BufferedState σ)
    (p : ℕ) : Prop where
  pos_le : state.pos ≤ state.limit
  inner_at : stands state.inputStream (p + (state.limit - state.pos))
  ahead : (state.buf.drop state.pos).take (state.limit - state.pos) =
    (contents.drop p).take (state.limit - state.pos)
  ended : ∀ error, state.fileStatus = some error →
    error = .outOfRange ∧ p = contents.length ∧ state.pos = state.limit

theorem BufferedAt.le (hinner : ReadsFile inner contents stands) {state : BufferedState σ} {p : ℕ}
    (hat : BufferedAt contents stands state p) :
    p + (state.limit - state.pos) ≤ contents.length :=
  hinner.position_le hat.inner_at

/-- What a turn copies is what the file has there, and the state moves past it. -/
theorem BufferedAt.advance (hinner : ReadsFile inner contents stands) {state : BufferedState σ}
    {p : ℕ} (hat : BufferedAt contents stands state p) (hlive : state.fileStatus = none)
    (missing : ℕ) :
    state.copied missing = (contents.drop p).take (min (state.limit - state.pos) missing) ∧
      (state.copied missing).length = min (state.limit - state.pos) missing ∧
      BufferedAt contents stands (state.advance missing)
        (p + min (state.limit - state.pos) missing) := by
  have hle := hat.le hinner
  have hpos := hat.pos_le
  have hcopied : state.copied missing =
      (contents.drop p).take (min (state.limit - state.pos) missing) := by
    have hahead := congrArg (List.take (min (state.limit - state.pos) missing)) hat.ahead
    rw [List.take_take, List.take_take, min_eq_left (min_le_left _ _)] at hahead
    exact hahead
  refine ⟨hcopied, ?_, ?_⟩
  · rw [hcopied, length_readable]
    omega
  · constructor
    · simp only [BufferedState.advance]
      omega
    · have hsame : p + min (state.limit - state.pos) missing +
          (state.limit - (state.pos + min (state.limit - state.pos) missing)) =
          p + (state.limit - state.pos) := by omega
      exact hsame.symm ▸ hat.inner_at
    · have hahead := congrArg (List.drop (min (state.limit - state.pos) missing)) hat.ahead
      rw [List.drop_take, List.drop_take, List.drop_drop, List.drop_drop] at hahead
      simp only [BufferedState.advance]
      rw [Nat.sub_add_eq, hahead]
    · intro error herror
      simp only [BufferedState.advance, hlive] at herror
      cases herror

/-- The statuses of a stream inside of its file. -/
def Calm (status : Option StreamError) : Prop := status = none ∨ status = some .outOfRange

/-- An empty buffer is filled from the file, or the file has ended. -/
theorem BufferedAt.fillBuffer (hinner : ReadsFile inner contents stands) (hsize : 0 < size)
    {state : BufferedState σ} {p : ℕ} (hat : BufferedAt contents stands state p)
    (hlive : state.fileStatus = none) (hempty : state.pos = state.limit) :
    ∃ status next, state.fillBuffer inner size = (status, next) ∧ Calm status ∧
      (p = contents.length → status = some .outOfRange ∧ next.limit = 0 ∧
        BufferedAt contents stands { next with fileStatus := status } p) ∧
      (p < contents.length → next.limit ≠ 0 ∧ next.pos < next.limit ∧ next.fileStatus = none ∧
        BufferedAt contents stands next p) := by
  have hstands := hat.inner_at
  rw [hempty, Nat.sub_self, Nat.add_zero] at hstands
  rcases hinner.read_spec hstands hsize with ⟨inputStream, hread, hnext⟩
  have hfill : state.fillBuffer inner size =
      (if p + size ≤ contents.length then none else some .outOfRange,
        ⟨inputStream, (contents.drop p).take size, 0, ((contents.drop p).take size).length,
          if ((contents.drop p).take size).isEmpty then
            if p + size ≤ contents.length then none else some .outOfRange
          else none⟩) := by
    rw [BufferedState.fillBuffer, hlive]
    simp only [hread]
  refine ⟨_, _, hfill, ?_, ?_, ?_⟩
  · by_cases hfull : p + size ≤ contents.length
    · exact .inl (if_pos hfull)
    · exact .inr (if_neg hfull)
  · intro hend
    have hshort : ¬p + size ≤ contents.length := by omega
    have hnone : ((contents.drop p).take size).length = 0 := by
      rw [length_readable]
      omega
    refine ⟨if_neg hshort, hnone, ?_⟩
    constructor
    · exact Nat.zero_le _
    · simp only [hnone, Nat.sub_zero, Nat.add_zero]
      rw [min_eq_right (by omega), ← hend] at hnext
      exact hnext
    · simp only [hnone, Nat.sub_zero, List.take_zero]
    · intro error herror
      simp only [if_neg hshort, Option.some.injEq] at herror
      exact ⟨herror.symm, hend, hnone.symm⟩
  · intro hlt
    have hlength : ((contents.drop p).take size).length = min size (contents.length - p) :=
      length_readable p size
    have hnotEmpty : ((contents.drop p).take size).isEmpty = false := by
      rw [← Bool.not_eq_true, List.isEmpty_iff_length_eq_zero]
      omega
    have hcond : ¬((contents.drop p).take size).isEmpty = true := by
      rw [hnotEmpty]
      exact Bool.false_ne_true
    refine ⟨by simp only; omega, by simp only; omega, if_neg hcond, ?_⟩
    constructor
    · exact Nat.zero_le _
    · simp only [Nat.sub_zero, hlength]
      have hsame : min (p + size) contents.length = p + min size (contents.length - p) := by omega
      exact hsame ▸ hnext
    · simp only [Nat.sub_zero, List.drop_zero, hlength, List.take_take]
      congr 1
      omega
    · intro error herror
      simp only [if_neg hcond] at herror
      cases herror

/-- The loop reads what is missing, or the rest of the file. -/
theorem readLoop_spec (hinner : ReadsFile inner contents stands) (hsize : 0 < size)
    {turns missing : ℕ} (hturns : missing ≤ turns) (result : List UInt8)
    {status : Option StreamError}
    {state : BufferedState σ} {p : ℕ} (hat : BufferedAt contents stands state p)
    (hlive : state.fileStatus = none) (hcalm : Calm status) :
    ∃ status' next, BufferedState.readLoop inner size turns missing result status state =
        (status', result ++ (contents.drop p).take missing, next) ∧ Calm status' ∧
      (contents.length < p + missing → status' = some .outOfRange) ∧
      BufferedAt contents stands next (min (p + missing) contents.length) := by
  induction turns generalizing missing result status state p with
  | zero =>
      obtain rfl := Nat.le_zero.mp hturns
      have hle := hat.le hinner
      refine ⟨status, state, ?_, hcalm, fun hlt => by omega, ?_⟩
      · rw [BufferedState.readLoop, List.take_zero, List.append_nil]
      · rw [Nat.add_zero, min_eq_left (by omega)]
        exact hat
  | succ turns ih =>
      have hle := hat.le hinner
      cases missing with
      | zero =>
          refine ⟨status, state, ?_, hcalm, fun hlt => by omega, ?_⟩
          · rw [BufferedState.readLoop, List.take_zero, List.append_nil]
          · rw [Nat.add_zero, min_eq_left (by omega)]
            exact hat
      | succ missing =>
          -- a turn that copies leaves the rest to the other turns
          have hturn : ∀ {status : Option StreamError} {state : BufferedState σ}, Calm status →
              BufferedAt contents stands state p → state.fileStatus = none →
              state.pos < state.limit → ∃ status' next,
              BufferedState.readLoop inner size turns
                  (missing + 1 - (state.copied (missing + 1)).length)
                  (result ++ state.copied (missing + 1)) status (state.advance (missing + 1)) =
                (status', result ++ (contents.drop p).take (missing + 1), next) ∧ Calm status' ∧
              (contents.length < p + (missing + 1) → status' = some .outOfRange) ∧
              BufferedAt contents stands next (min (p + (missing + 1)) contents.length) := by
            intro status state hcalm hat hlive hlt
            rcases hat.advance hinner hlive (missing + 1) with ⟨hcopied, hlength, hadvanced⟩
            have hle := hat.le hinner
            obtain ⟨status', next, hloop, hcalm', hend, hnext⟩ : ∃ status' next,
                BufferedState.readLoop inner size turns
                    (missing + 1 - (state.copied (missing + 1)).length)
                    (result ++ state.copied (missing + 1)) status (state.advance (missing + 1)) =
                  (status', result ++ state.copied (missing + 1) ++
                    (contents.drop (p + min (state.limit - state.pos) (missing + 1))).take
                      (missing + 1 - (state.copied (missing + 1)).length), next) ∧ Calm status' ∧
                (contents.length < p + min (state.limit - state.pos) (missing + 1) +
                  (missing + 1 - (state.copied (missing + 1)).length) →
                    status' = some .outOfRange) ∧
                BufferedAt contents stands next
                  (min (p + min (state.limit - state.pos) (missing + 1) +
                    (missing + 1 - (state.copied (missing + 1)).length)) contents.length) :=
              ih (by omega) _ hadvanced hlive hcalm
            have hcount : p + min (state.limit - state.pos) (missing + 1) +
                (missing + 1 - (state.copied (missing + 1)).length) = p + (missing + 1) := by omega
            rw [hcount] at hend hnext
            refine ⟨status', next, hloop.trans ?_, hcalm', hend, hnext⟩
            rw [List.append_assoc, hlength]
            nth_rewrite 1 [hcopied]
            rw [← List.drop_drop, ← List.take_add]
            congr 4
            omega
          rw [BufferedState.readLoop]
          split_ifs with hempty
          · rcases hat.fillBuffer hinner hsize hlive hempty with
              ⟨status', next, hfill, hcalm', hend, hmore⟩
            simp only [hfill]
            rcases lt_or_eq_of_le (show p ≤ contents.length by omega) with hlt | heq
            · rcases hmore hlt with ⟨hlimit, hpos, hlive', hat'⟩
              rw [if_neg hlimit]
              exact hturn hcalm' hat' hlive' hpos
            · rcases hend heq with ⟨hstatus, hlimit, hat'⟩
              rw [if_pos hlimit]
              refine ⟨status', { next with fileStatus := status' }, ?_, hcalm',
                fun _ => hstatus, ?_⟩
              · rw [heq, List.drop_length, List.take_nil, List.append_nil]
              · rw [min_eq_right (by omega), ← heq]
                exact hat'
          · exact hturn hcalm hat hlive (lt_of_le_of_ne hat.pos_le hempty)

/-- **A buffered stream over a stream of a file reads the file.** -/
theorem buffered_readsFile (hinner : ReadsFile inner contents stands) (hsize : 0 < size) :
    ReadsFile (bufferedInputStream inner size) contents (BufferedAt contents stands) := by
  constructor
  · intro state p hat
    have hle := hat.le hinner
    omega
  · intro state p hat
    have htell : (bufferedInputStream inner size).tell state =
        inner.tell state.inputStream - (state.limit - state.pos : ℕ) := rfl
    rw [htell, hinner.tell_eq hat.inner_at]
    omega
  · intro state p hat
    rcases hinner.reset_spec hat.inner_at with ⟨inputStream, hreset, hstands⟩
    refine ⟨{ state with
      inputStream := inputStream, pos := 0, limit := 0, fileStatus := none }, ?_, ?_⟩
    · simp only [bufferedInputStream, BufferedState.reset, hreset]
    · exact ⟨le_rfl, hstands, rfl, nofun⟩
  · intro state p n hat hn
    have hle := hat.le hinner
    have hnonneg : ¬((n : ℤ) < 0) := by omega
    have hpos : (0 : ℤ) < n := by omega
    simp only [bufferedInputStream, BufferedState.readNBytes, if_neg hnonneg, hpos, and_true,
      Int.toNat_natCast]
    cases hstatus : state.fileStatus with
    | some error =>
        rcases hat.ended error hstatus with ⟨rfl, hend, -⟩
        refine ⟨state, ?_, ?_⟩
        · rw [if_neg (show ¬p + n ≤ contents.length by omega), hend, List.drop_length,
            List.take_nil]
          rfl
        · rw [min_eq_right (by omega), ← hend]
          exact hat
    | none =>
        rcases readLoop_spec hinner hsize le_rfl [] hat hstatus (.inl rfl) with
          ⟨status', next, hloop, hcalm, hend, hnext⟩
        refine ⟨next, ?_, hnext⟩
        simp only [Option.isSome_none, Bool.false_eq_true, if_false, hloop, List.nil_append,
          length_readable]
        by_cases hfull : p + n ≤ contents.length
        · rw [if_pos hfull]
          rcases hcalm with rfl | rfl
          · rw [if_neg (by simp)]
          · rw [if_pos ⟨rfl, by omega⟩]
        · rw [if_neg hfull, hend (by omega), if_neg (by omega)]
  · intro state p n hat hle
    have hpos := hat.pos_le
    have hnonneg : ¬((n : ℤ) < 0) := by omega
    by_cases hinside : state.pos + n < state.limit
    · have hskip : state.skipNBytes inner n = (none, { state with pos := state.pos + n }) := by
        rw [BufferedState.skipNBytes, if_neg hnonneg, Int.toNat_natCast, if_pos hinside]
      refine ⟨_, hskip, ?_⟩
      constructor
      · exact hinside.le
      · have hsame : p + n + (state.limit - (state.pos + n)) = p + (state.limit - state.pos) := by
          omega
        exact hsame.symm ▸ hat.inner_at
      · have hahead := congrArg (List.drop n) hat.ahead
        rw [List.drop_take, List.drop_take, List.drop_drop, List.drop_drop] at hahead
        simp only
        rw [Nat.sub_add_eq, hahead]
      · intro error herror
        have hended := hat.ended error herror
        omega
    · have hcast : (n : ℤ) - (state.limit - state.pos : ℕ) =
          ((n - (state.limit - state.pos) : ℕ) : ℤ) := by omega
      rcases hinner.skip_spec hat.inner_at (show p + (state.limit - state.pos) +
        (n - (state.limit - state.pos)) ≤ contents.length by omega)
          with ⟨inputStream, hskip, hstands⟩
      have hskip' : state.skipNBytes inner n = (none,
          { state with inputStream := inputStream, pos := 0, limit := 0 }) := by
        rw [BufferedState.skipNBytes, if_neg hnonneg, Int.toNat_natCast, if_neg hinside, hcast,
          hskip]
        rfl
      refine ⟨_, hskip', ?_⟩
      constructor
      · exact le_rfl
      · have hsame : p + (state.limit - state.pos) + (n - (state.limit - state.pos)) =
            p + n + (0 - 0) := by omega
        exact hsame ▸ hstands
      · rfl
      · intro error herror
        have hended := hat.ended error herror
        refine ⟨hended.1, ?_, rfl⟩
        omega

/-- **A buffered stream stops at the end of the file.** -/
theorem buffered_stopsAtEnd (hinner : StopsAtEnd inner contents stands) (hsize : 0 < size) :
    StopsAtEnd (bufferedInputStream inner size) contents (BufferedAt contents stands) := by
  refine ⟨buffered_readsFile hinner.toReadsFile hsize, ?_, ?_⟩
  · intro state p n hat hpast
    have hle := hat.le hinner.toReadsFile
    have hpos := hat.pos_le
    have hnonneg : ¬((n : ℤ) < 0) := by omega
    have hcast : (n : ℤ) - (state.limit - state.pos : ℕ) =
        ((n - (state.limit - state.pos) : ℕ) : ℤ) := by omega
    rcases hinner.skip_past hat.inner_at (show contents.length < p + (state.limit - state.pos) +
      (n - (state.limit - state.pos)) by omega) with ⟨inputStream, hskip, hstands⟩
    refine ⟨{ state with
      inputStream := inputStream, pos := 0, limit := 0, fileStatus := some .outOfRange }, ?_, ?_⟩
    · simp only [bufferedInputStream, BufferedState.skipNBytes, if_neg hnonneg, Int.toNat_natCast,
        if_neg (show ¬state.pos + n < state.limit by omega), hcast, hskip, if_true]
    · refine ⟨le_rfl, hstands, rfl, fun error herror => ?_⟩
      exact ⟨(Option.some.inj herror).symm, rfl, rfl⟩
  · intro state p hat
    exact ⟨state, by simp [bufferedInputStream, BufferedState.readNBytes, BufferedState.readLoop],
      hat⟩

end Buffered

end ContainerScheduler.Analysis
