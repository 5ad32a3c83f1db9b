/-
# Clean paths are lexical normal forms

A path is the list of its parts. The bytes in front of the write position are the parts that are
kept, each with a separator behind it, and the backtrack limit is behind the parts `..` among them.
The bytes from the read position on are those of the path, since the write position is not behind
it.
-/

import ContainerScheduler.Strings.Path
import Mathlib.Data.List.DropRight

namespace ContainerScheduler.Analysis

open Strings.Path

/-! ## Normal forms -/

abbrev Part := List UInt8

def oneDot : Part := [dot]

def twoDots : Part := [dot, dot]

/-- What a part does to the parts that are kept, of which the last one comes first. -/
def pushPart (isAbsolutePath : Bool) (kept : List Part) (part : Part) : List Part :=
  if part = [] ∨ part = oneDot then kept
  else if part = twoDots then
    match kept with
    | [] => if isAbsolutePath then [] else [twoDots]
    | last :: rest => if last = twoDots then twoDots :: last :: rest else rest
  else part :: kept

def isAbsolute (path : List UInt8) : Bool := path.head? = some sep

/-- The parts that are kept. -/
def keptParts (path : List UInt8) : List Part :=
  (path.splitOn sep).foldl (pushPart (isAbsolute path)) []

def joinParts (isAbsolutePath : Bool) (parts : List Part) : List UInt8 :=
  if isAbsolutePath then sep :: [sep].intercalate parts
  else if parts = [] then oneDot
  else [sep].intercalate parts

/-- The lexical normal form of a path. -/
def normalPath (path : List UInt8) : List UInt8 :=
  joinParts (isAbsolute path) (keptParts path).reverse

/-- A part that is a name. -/
structure IsName (part : Part) : Prop where
  ne_nil : part ≠ []
  ne_oneDot : part ≠ oneDot
  ne_twoDots : part ≠ twoDots
  noSep : sep ∉ part

/-- Names behind a number of parts `..`. -/
structure KeepsNames (isAbsolutePath : Bool) (ups : ℕ) (names : List Part) : Prop where
  isName : ∀ part ∈ names, IsName part
  absolute : isAbsolutePath = true → ups = 0

def keptOf (ups : ℕ) (names : List Part) : List Part := names ++ List.replicate ups twoDots

section Stack

variable {isAbsolutePath : Bool} {ups : ℕ} {names : List Part} {part : Part}

theorem pushPart_nil (kept : List Part) : pushPart isAbsolutePath kept [] = kept :=
  if_pos (.inl rfl)

theorem pushPart_oneDot (kept : List Part) : pushPart isAbsolutePath kept oneDot = kept :=
  if_pos (.inr rfl)

theorem pushPart_name (hname : IsName part) (kept : List Part) :
    pushPart isAbsolutePath kept part = part :: kept := by
  rw [pushPart.eq_def, if_neg (by rintro (h | h); exacts [hname.ne_nil h, hname.ne_oneDot h]),
    if_neg hname.ne_twoDots]

theorem pushPart_twoDots_name {name : Part} (hname : IsName name) (kept : List Part) :
    pushPart isAbsolutePath (name :: kept) twoDots = kept := by
  rw [pushPart.eq_def, if_neg (by decide), if_pos rfl]
  exact if_neg hname.ne_twoDots

theorem pushPart_twoDots_ups (habsolute : isAbsolutePath = true → ups = 0) :
    pushPart isAbsolutePath (List.replicate ups twoDots) twoDots =
      if isAbsolutePath then [] else List.replicate (ups + 1) twoDots := by
  rw [pushPart.eq_def, if_neg (by decide), if_pos rfl]
  cases ups with
  | zero => rfl
  | succ ups =>
      cases isAbsolutePath with
      | true => cases habsolute rfl
      | false => exact if_pos rfl

theorem foldl_keptOf (hkept : KeepsNames isAbsolutePath ups names) :
    (keptOf ups names).reverse.foldl (pushPart isAbsolutePath) [] = keptOf ups names := by
  have hups : (List.replicate ups twoDots).foldl (pushPart isAbsolutePath) [] =
      List.replicate ups twoDots := by
    have habsolute := hkept.absolute
    clear hkept
    induction ups with
    | zero => rfl
    | succ ups ih =>
        have hrelative : isAbsolutePath = false := by
          cases isAbsolutePath with
          | true => cases habsolute rfl
          | false => rfl
        subst hrelative
        rw [List.replicate_succ', List.foldl_append, ih Bool.noConfusion, List.foldl_cons,
          List.foldl_nil, pushPart_twoDots_ups Bool.noConfusion, if_neg Bool.false_ne_true,
          List.replicate_succ']
  have hnames := hkept.isName
  clear hkept
  rw [keptOf, List.reverse_append, List.foldl_append, List.reverse_replicate, hups]
  induction names with
  | nil => rfl
  | cons name names ih =>
      obtain ⟨hname, hnames⟩ := List.forall_mem_cons.mp hnames
      rw [List.reverse_cons, List.foldl_append, ih hnames, List.foldl_cons, List.foldl_nil,
        pushPart_name hname]
      rfl

end Stack

/-! ## The two parts of the string -/

/-- The bytes that were written and those that were not read yet. -/
structure Views (s : Cleaning) (written rest : List UInt8) : Prop where
  dst_le : s.dst ≤ s.src
  src_le : s.src ≤ s.path.length
  written_eq : s.path.take s.dst = written
  rest_eq : s.path.drop s.src = rest
  copies_le : ∀ copied ∈ s.copies, copied.1 ≤ copied.2

/-- What is behind a part. -/
def BehindPart (rest : List UInt8) : Prop := rest = [] ∨ ∃ more, rest = sep :: more

namespace Views

open Cleaning

variable {s : Cleaning} {written front rest : List UInt8} {byte : UInt8}

theorem peek_eq (hs : Views s written rest) (i : ℕ) : s.peek i = rest.getD i 0 := by
  rw [peek, ← hs.rest_eq, List.getD_eq_getElem?_getD, List.getD_eq_getElem?_getD,
    List.getElem?_drop]

theorem length_rest (hs : Views s written rest) : rest.length = s.path.length - s.src := by
  rw [← hs.rest_eq, List.length_drop]

theorem length_written (hs : Views s written rest) : written.length = s.dst := by
  rw [← hs.written_eq, List.length_take, min_eq_left (hs.dst_le.trans hs.src_le)]

theorem advance (hs : Views s written (front ++ rest)) :
    Views (s.advance front.length) written rest := by
  have hlength := hs.length_rest
  rw [List.length_append] at hlength
  have hsrc := hs.src_le
  refine ⟨hs.dst_le.trans (Nat.le_add_right _ _), ?_, hs.written_eq, ?_, hs.copies_le⟩
  · simp only [Cleaning.advance]
    omega
  · rw [Cleaning.advance, ← List.drop_drop, hs.rest_eq, List.drop_left]

theorem src_lt (hs : Views s written (byte :: rest)) : s.src < s.path.length := by
  have hlength := hs.length_rest
  rw [List.length_cons] at hlength
  omega

theorem copy (hs : Views s written (byte :: rest)) : Views s.copy (written ++ [byte]) rest := by
  have hpeek : s.peek 0 = byte := hs.peek_eq 0
  have hlt := hs.src_lt
  have hdst := hs.dst_le
  refine ⟨Nat.succ_le_succ hdst, ?_, ?_, ?_, ?_⟩
  · simp only [Cleaning.copy, put, Cleaning.advance, List.length_set]
    omega
  · have hset : (s.path.set s.dst byte).take (s.dst + 1) = s.path.take s.dst ++ [byte] := by
      rw [List.take_add_one, List.take_set_of_le le_rfl, List.getElem?_set_self (by omega)]
      rfl
    simp only [Cleaning.copy, put, Cleaning.advance, hpeek, hset, hs.written_eq]
  · simp only [Cleaning.copy, put, Cleaning.advance]
    rw [List.drop_set_of_lt (by omega), ← List.drop_drop, hs.rest_eq]
    rfl
  · simp only [Cleaning.copy, put, Cleaning.advance, List.forall_mem_append,
      List.forall_mem_singleton]
    exact ⟨hs.copies_le, hdst⟩

theorem advance_one (hs : Views s written (byte :: rest)) : Views (s.advance 1) written rest :=
  @advance _ _ [byte] _ hs

theorem skipIfAny (hs : Views s written rest) (hnul : 0 ∉ rest) :
    Views s.skipIfAny written (rest.drop 1) := by
  rw [Cleaning.skipIfAny, hs.peek_eq]
  cases rest with
  | nil =>
      rw [List.getD_nil, if_neg (not_not.mpr rfl)]
      exact hs
  | cons byte rest =>
      rw [List.mem_cons, not_or] at hnul
      rw [List.getD_cons_zero, if_pos (Ne.symm hnul.1)]
      exact hs.advance_one

theorem skipSeparators (hs : Views s written rest) :
    Views s.skipSeparators written (rest.dropWhile (· = sep)) := by
  fun_induction Cleaning.skipSeparators s generalizing rest with
  | case1 s hsep ih =>
      rw [hs.peek_eq] at hsep
      cases rest with
      | nil => cases hsep
      | cons byte rest =>
          obtain rfl : byte = sep := hsep
          rw [List.dropWhile_cons_of_pos (by simp)]
          exact ih hs.advance_one
  | case2 s hsep =>
      rw [hs.peek_eq] at hsep
      cases rest with
      | nil => exact hs
      | cons byte rest =>
          rwa [List.dropWhile_cons_of_neg (by simpa using hsep)]

theorem copyPart {part : Part} (hs : Views s written (part ++ rest)) (hsep : sep ∉ part)
    (hnul : 0 ∉ part) (hends : BehindPart rest) : Views s.copyPart (written ++ part) rest := by
  fun_induction Cleaning.copyPart s generalizing written part with
  | case1 s hmore ih =>
      rw [hs.peek_eq] at hmore
      cases part with
      | nil =>
          rcases hends with rfl | ⟨more, rfl⟩
          · exact absurd rfl hmore.1
          · exact absurd rfl hmore.2
      | cons byte part =>
          rw [List.mem_cons, not_or] at hsep hnul
          have hrest := ih hs.copy hsep.2 hnul.2
          rwa [List.append_assoc] at hrest
  | case2 s hdone =>
      rw [hs.peek_eq] at hdone
      cases part with
      | nil => rwa [List.append_nil]
      | cons byte part =>
          rw [List.mem_cons, not_or] at hsep hnul
          exact absurd ⟨fun hzero => hnul.1 hzero.symm, fun heq => hsep.1 heq.symm⟩ hdone

theorem visitName {part : Part} (hs : Views s written (part ++ rest)) (hsep : sep ∉ part)
    (hnul : 0 ∉ part) (hends : BehindPart rest) :
    Views s.visitName (written ++ part ++ rest.take 1) (rest.drop 1) := by
  have hcopied := hs.copyPart hsep hnul hends
  rw [Cleaning.visitName, hcopied.peek_eq]
  rcases hends with rfl | ⟨more, rfl⟩
  · rw [List.getD_nil, if_neg (not_not.mpr rfl), List.take_nil, List.append_nil]
    exact hcopied
  · rw [List.getD_cons_zero, if_pos (by decide)]
    exact hcopied.copy

theorem visitOneDot (hs : Views s written (oneDot ++ rest)) (hnul : 0 ∉ rest) :
    Views s.visitOneDot written (rest.drop 1) :=
  (@advance _ _ oneDot _ hs).skipIfAny hnul

/-- The loop walks over the bytes of a part. -/
theorem backtrack_eq {part : Part} {before path : List UInt8} {limit : ℕ} (hsep : sep ∉ part)
    (hpath : path.take (before ++ part).length = before ++ part) (hlimit : limit ≤ before.length)
    (hbefore : before = [] ∨ ∃ more, before = more ++ [sep]) :
    backtrack path limit (before ++ part).length = before.length := by
  induction part using List.reverseRecOn with
  | nil =>
      rw [List.append_nil] at hpath ⊢
      rcases hbefore with rfl | ⟨more, rfl⟩
      · rfl
      · rw [List.length_append, List.length_singleton] at hpath ⊢
        have hget : path.getD more.length 0 = sep := by
          rw [List.getD_eq_getElem?_getD, ← List.getElem?_take_of_lt (Nat.lt_succ_self _), hpath,
            List.getElem?_concat_length]
          rfl
        rw [backtrack, if_neg fun hnext => hnext.2 hget]
  | append_singleton part byte ih =>
      rw [List.mem_append, List.mem_singleton, not_or] at hsep
      rw [← List.append_assoc, List.length_append, List.length_singleton] at hpath ⊢
      have hget : path.getD (before ++ part).length 0 = byte := by
        rw [List.getD_eq_getElem?_getD, ← List.getElem?_take_of_lt (Nat.lt_succ_self _), hpath,
          List.getElem?_concat_length]
        rfl
      have hpath' : path.take (before ++ part).length = before ++ part := by
        have htake := congrArg (List.take (before ++ part).length) hpath
        rwa [List.take_take, min_eq_left (Nat.le_succ _), List.take_left] at htake
      rw [backtrack, if_pos, ih hsep.1 hpath']
      refine ⟨?_, ?_⟩
      · rw [List.length_append]
        omega
      · rw [hget]
        exact fun heq => hsep.2 heq.symm

/-- A byte that was copied can be read again. -/
theorem peek_put (hs : Views s written (byte :: rest)) : s.put.peek 0 = byte := by
  have hpeek : s.path.getD s.src 0 = byte := hs.peek_eq 0
  have hput : s.put.peek 0 = (s.path.set s.dst byte).getD s.src 0 := by
    rw [Cleaning.peek, put, hs.peek_eq]
    rfl
  rw [hput, List.getD_eq_getElem?_getD]
  by_cases hdst : s.dst = s.src
  · rw [hdst, List.getElem?_set_self hs.src_lt]
    rfl
  · rw [List.getElem?_set_ne hdst, ← List.getD_eq_getElem?_getD]
    exact hpeek

theorem of_backtrackLimit (hs : Views s written rest) (limit : ℕ) :
    Views { s with backtrackLimit := limit } written rest :=
  ⟨hs.dst_le, hs.src_le, hs.written_eq, hs.rest_eq, hs.copies_le⟩

theorem copyTwoDots (hs : Views s written (twoDots ++ rest)) (hends : BehindPart rest) :
    Views s.copyTwoDots.skipIfAny (written ++ twoDots ++ rest.take 1) (rest.drop 1) ∧
      s.copyTwoDots.skipIfAny.backtrackLimit = (written ++ twoDots ++ rest.take 1).length := by
  have hcopied : Views s.copy.copy (written ++ twoDots) rest := by
    have hdots := hs.copy.copy
    rwa [List.append_assoc] at hdots
  rw [Cleaning.copyTwoDots, hcopied.peek_eq]
  rcases hends with rfl | ⟨more, rfl⟩
  · have hlimit := hcopied.of_backtrackLimit s.copy.copy.dst
    rw [List.getD_nil, if_neg (not_not.mpr rfl), List.take_nil, List.append_nil,
      Cleaning.skipIfAny, hlimit.peek_eq, List.getD_nil, if_neg (not_not.mpr rfl)]
    exact ⟨hlimit, hcopied.length_written.symm⟩
  · have hput := hcopied.copy
    have hskip : { s.copy.copy.put with backtrackLimit := s.copy.copy.put.dst }.skipIfAny =
        { s.copy.copy.copy with backtrackLimit := s.copy.copy.put.dst } := by
      have hpeek : { s.copy.copy.put with backtrackLimit := s.copy.copy.put.dst }.peek 0 = sep :=
        hcopied.peek_put
      rw [Cleaning.skipIfAny, hpeek, if_pos (by decide)]
      rfl
    rw [List.getD_cons_zero, if_pos (by decide), hskip]
    exact ⟨hput.of_backtrackLimit _, hput.length_written.symm⟩

theorem visitTwoDots_name {before name : Part} {isAbsolutePath : Bool}
    (hs : Views s (before ++ name ++ [sep]) (twoDots ++ rest)) (hsep : sep ∉ name)
    (hnul : 0 ∉ rest) (hlimit : s.backtrackLimit ≤ before.length)
    (hbefore : before = [] ∨ ∃ more, before = more ++ [sep]) :
    Views (s.visitTwoDots isAbsolutePath) before (rest.drop 1) ∧
      (s.visitTwoDots isAbsolutePath).backtrackLimit = s.backtrackLimit := by
  have hmoved : Views (s.advance 2) (before ++ name ++ [sep]) rest :=
    @advance _ _ twoDots _ hs
  have hlength := hmoved.length_written
  rw [List.length_append, List.length_singleton] at hlength
  have hne : (s.advance 2).dst ≠ (s.advance 2).backtrackLimit := by
    rw [← hlength, List.length_append]
    simp only [Cleaning.advance]
    omega
  have htake : (s.advance 2).path.take (before ++ name).length = before ++ name := by
    have hwritten := congrArg (List.take (before ++ name).length) hmoved.written_eq
    rwa [List.take_take, ← hlength, min_eq_left (Nat.le_succ _), List.take_left] at hwritten
  have hdst : backtrack (s.advance 2).path (s.advance 2).backtrackLimit
      ((s.advance 2).dst - 1) = before.length := by
    rw [← hlength, Nat.add_sub_cancel]
    exact backtrack_eq hsep htake hlimit hbefore
  have hback : Views { s.advance 2 with dst := before.length } before rest := by
    have hle : before.length ≤ (s.advance 2).dst := by
      rw [← hlength, List.length_append]
      omega
    refine ⟨hle.trans hmoved.dst_le, hmoved.src_le, ?_, hmoved.rest_eq, hmoved.copies_le⟩
    have hbytes := congrArg (List.take before.length) htake
    rwa [List.take_take, List.length_append, min_eq_left (Nat.le_add_right _ _),
      List.take_left] at hbytes
  rw [Cleaning.visitTwoDots, if_pos hne, hdst]
  refine ⟨hback.skipIfAny hnul, ?_⟩
  rw [Cleaning.skipIfAny]
  split_ifs <;> rfl

theorem visitTwoDots_limit {isAbsolutePath : Bool} (hs : Views s written (twoDots ++ rest))
    (hnul : 0 ∉ rest) (hends : BehindPart rest) (hlimit : s.backtrackLimit = written.length) :
    if isAbsolutePath then
      Views (s.visitTwoDots isAbsolutePath) written (rest.drop 1) ∧
        (s.visitTwoDots isAbsolutePath).backtrackLimit = s.backtrackLimit
    else
      Views (s.visitTwoDots isAbsolutePath) (written ++ twoDots ++ rest.take 1) (rest.drop 1) ∧
        (s.visitTwoDots isAbsolutePath).backtrackLimit =
          (written ++ twoDots ++ rest.take 1).length := by
  have hmoved : Views (s.advance 2) written rest := @advance _ _ twoDots _ hs
  have heq : ¬ (s.advance 2).dst ≠ (s.advance 2).backtrackLimit :=
    not_not.mpr (hmoved.length_written.symm.trans hlimit.symm)
  rw [Cleaning.visitTwoDots, if_neg heq]
  cases isAbsolutePath with
  | true =>
      rw [if_pos rfl, if_neg (by decide)]
      refine ⟨hmoved.skipIfAny hnul, ?_⟩
      rw [Cleaning.skipIfAny]
      split_ifs <;> rfl
  | false =>
      rw [if_neg Bool.false_ne_true, if_pos (by decide)]
      exact hs.copyTwoDots hends

end Views

/-! ## The loop -/

/-- The bytes of the parts that are kept, with a separator behind each. -/
def bytesOf (isAbsolutePath : Bool) (kept : List Part) : List UInt8 :=
  (if isAbsolutePath then [sep] else []) ++ kept.reverse.flatMap (· ++ [sep])

/-- The string at the head of the loop, with these parts kept and these bytes left. The last
separator may be missing at the end. -/
structure Cleans (isAbsolutePath : Bool) (s : Cleaning) (kept : List Part) (rest : List UInt8) :
    Prop where
  parts : ∃ ups names, KeepsNames isAbsolutePath ups names ∧ kept = keptOf ups names ∧
    (rest ≠ [] →
      s.backtrackLimit = (bytesOf isAbsolutePath (List.replicate ups twoDots)).length)
  bytes : ∃ written, Views s written rest ∧
    (written = bytesOf isAbsolutePath kept ∨
      rest = [] ∧ kept ≠ [] ∧ written ++ [sep] = bytesOf isAbsolutePath kept)

section Loop

open Cleaning

variable {isAbsolutePath : Bool} {s : Cleaning} {kept : List Part} {part : Part}
variable {rest written : List UInt8}

theorem bytesOf_cons (part : Part) (kept : List Part) :
    bytesOf isAbsolutePath (part :: kept) = bytesOf isAbsolutePath kept ++ part ++ [sep] := by
  rw [bytesOf, List.reverse_cons, List.flatMap_append, List.flatMap_singleton, ← List.append_assoc,
    ← List.append_assoc]
  rfl

theorem length_bytesOf_le (names kept : List Part) :
    (bytesOf isAbsolutePath kept).length ≤ (bytesOf isAbsolutePath (names ++ kept)).length := by
  induction names with
  | nil => exact le_rfl
  | cons name names ih =>
      rw [List.cons_append, bytesOf_cons, List.length_append, List.length_append]
      omega

theorem bytesOf_ends (kept : List Part) :
    bytesOf isAbsolutePath kept = [] ∨ ∃ more, bytesOf isAbsolutePath kept = more ++ [sep] := by
  cases kept with
  | nil =>
      cases isAbsolutePath with
      | true => exact .inr ⟨[], rfl⟩
      | false => exact .inl rfl
  | cons part kept => exact .inr ⟨_, bytesOf_cons part kept⟩

theorem skipSeparators_backtrackLimit (s : Cleaning) :
    s.skipSeparators.backtrackLimit = s.backtrackLimit := by
  fun_induction skipSeparators s with
  | case1 s _ ih => exact ih
  | case2 s _ => rfl

theorem visitName_backtrackLimit (s : Cleaning) :
    s.visitName.backtrackLimit = s.backtrackLimit := by
  have hpart : s.copyPart.backtrackLimit = s.backtrackLimit := by
    fun_induction copyPart s with
    | case1 s _ ih => exact ih
    | case2 s _ => rfl
  rw [visitName]
  split_ifs
  · exact hpart
  · exact hpart

theorem visitOneDot_backtrackLimit (s : Cleaning) :
    s.visitOneDot.backtrackLimit = s.backtrackLimit := by
  rw [visitOneDot, skipIfAny]
  split_ifs <;> rfl

/-- The tests for a part of one or two dots. -/
theorem visitPart_eq (hs : Views s written (part ++ rest)) (hne : part ≠ []) (hsep : sep ∉ part)
    (hnul : 0 ∉ part) (hends : BehindPart rest) :
    s.visitPart isAbsolutePath = skipSeparators (
      if part = oneDot then s.visitOneDot
      else if part = twoDots then s.visitTwoDots isAbsolutePath
      else s.visitName) := by
  have hafter : rest.getD 0 0 = sep ∨ rest.getD 0 0 = 0 := by
    rcases hends with rfl | ⟨more, rfl⟩
    · exact .inr rfl
    · exact .inl rfl
  have hone : (s.peek 0 = dot ∧ (s.peek 1 = sep ∨ s.peek 1 = 0)) ↔ part = oneDot := by
    rw [hs.peek_eq, hs.peek_eq]
    match part, hne with
    | [a], _ => simpa [oneDot] using fun _ => hafter
    | a :: b :: part, _ =>
        simp only [List.mem_cons, not_or] at hsep hnul
        simp [oneDot, Ne.symm hsep.2.1, Ne.symm hnul.2.1]
  have htwo : (s.peek 0 = dot ∧ s.peek 1 = dot ∧ (s.peek 2 = sep ∨ s.peek 2 = 0)) ↔
      part = twoDots := by
    rw [hs.peek_eq, hs.peek_eq, hs.peek_eq]
    match part, hne with
    | [a], _ =>
        have hdot : rest[0]?.getD 0 ≠ dot := by
          rw [← List.getD_eq_getElem?_getD]
          rcases hafter with heq | heq <;> rw [heq] <;> decide
        simpa [twoDots] using fun _ heq => absurd heq hdot
    | [a, b], _ => simpa [twoDots] using fun _ _ => hafter
    | a :: b :: c :: part, _ =>
        simp only [List.mem_cons, not_or] at hsep hnul
        simp [twoDots, Ne.symm hsep.2.2.1, Ne.symm hnul.2.2.1]
  simp only [visitPart, hone, htwo]

theorem BehindPart.dropWhile_drop (hends : BehindPart rest) :
    (rest.drop 1).dropWhile (· = sep) = rest.dropWhile (· = sep) := by
  rcases hends with rfl | ⟨more, rfl⟩
  · rfl
  · exact (List.dropWhile_cons_of_pos (by simp)).symm

/-- A part that is copied is kept, with its separator if there is one. -/
theorem BehindPart.bytesOf_take (hends : BehindPart rest) (part : Part) (kept : List Part) :
    bytesOf isAbsolutePath kept ++ part ++ rest.take 1 = bytesOf isAbsolutePath (part :: kept) ∨
      rest.dropWhile (· = sep) = [] ∧ part :: kept ≠ [] ∧
        bytesOf isAbsolutePath kept ++ part ++ rest.take 1 ++ [sep] =
          bytesOf isAbsolutePath (part :: kept) := by
  rw [bytesOf_cons]
  rcases hends with rfl | ⟨more, rfl⟩
  · exact .inr ⟨rfl, List.cons_ne_nil _ _, by rw [List.take_nil, List.append_nil]⟩
  · exact .inl rfl

theorem BehindPart.take_of_dropWhile (hends : BehindPart rest) (hmore : rest.dropWhile (· = sep) ≠ []) :
    rest.take 1 = [sep] := by
  rcases hends with rfl | ⟨more, rfl⟩
  · exact absurd rfl hmore
  · rfl

/-- One part. -/
theorem Cleans.visitPart (hs : Cleans isAbsolutePath s kept (part ++ rest)) (hne : part ≠ [])
    (hsep : sep ∉ part) (hnul : 0 ∉ part ++ rest) (hends : BehindPart rest) :
    Cleans isAbsolutePath (s.visitPart isAbsolutePath) (pushPart isAbsolutePath kept part)
      (rest.dropWhile (· = sep)) := by
  obtain ⟨⟨ups, names, hkept, rfl, hlimit⟩, written, hview, hwritten⟩ := hs
  have hleft : part ++ rest ≠ [] := fun hnil => hne (List.append_eq_nil_iff.mp hnil).1
  obtain rfl : written = bytesOf isAbsolutePath (keptOf ups names) :=
    hwritten.resolve_right fun hend => hleft hend.1
  replace hlimit := hlimit hleft
  rw [List.mem_append, not_or] at hnul
  rw [visitPart_eq hview hne hsep hnul.1 hends, ← hends.dropWhile_drop]
  by_cases hone : part = oneDot
  · subst hone
    rw [if_pos rfl, pushPart_oneDot]
    refine ⟨⟨ups, names, hkept, rfl, fun _ => ?_⟩, _, (hview.visitOneDot hnul.2).skipSeparators,
      .inl rfl⟩
    rw [skipSeparators_backtrackLimit, visitOneDot_backtrackLimit, hlimit]
  rw [if_neg hone]
  by_cases htwo : part = twoDots
  · subst htwo
    rw [if_pos rfl]
    cases names with
    | cons name names =>
        obtain ⟨hname, hnames⟩ := List.forall_mem_cons.mp hkept.isName
        have hbytes : bytesOf isAbsolutePath (keptOf ups (name :: names)) =
            bytesOf isAbsolutePath (keptOf ups names) ++ name ++ [sep] := bytesOf_cons _ _
        rw [hbytes] at hview
        obtain ⟨hback, hkeeps⟩ := @Views.visitTwoDots_name _ _ _ _ isAbsolutePath hview
          hname.noSep hnul.2 (hlimit ▸ length_bytesOf_le names _) (bytesOf_ends _)
        rw [show pushPart isAbsolutePath (keptOf ups (name :: names)) twoDots = keptOf ups names from
          pushPart_twoDots_name hname _]
        refine ⟨⟨ups, names, ⟨hnames, hkept.absolute⟩, rfl, fun _ => ?_⟩, _, hback.skipSeparators,
          .inl rfl⟩
        rw [skipSeparators_backtrackLimit, hkeeps, hlimit]
    | nil =>
        have hcopy := @Views.visitTwoDots_limit _ _ _ isAbsolutePath hview hnul.2 hends hlimit
        rw [keptOf, List.nil_append, pushPart_twoDots_ups hkept.absolute]
        cases isAbsolutePath with
        | true =>
            rw [if_pos rfl] at hcopy ⊢
            obtain rfl := hkept.absolute rfl
            refine ⟨⟨0, [], hkept, rfl, fun _ => ?_⟩, _, hcopy.1.skipSeparators, .inl rfl⟩
            rw [skipSeparators_backtrackLimit, hcopy.2, hlimit]
        | false =>
            rw [if_neg Bool.false_ne_true] at hcopy ⊢
            refine ⟨⟨ups + 1, [], ⟨hkept.isName, Bool.noConfusion⟩, rfl, fun hmore => ?_⟩, _,
              hcopy.1.skipSeparators, ?_⟩
            · rw [hends.dropWhile_drop] at hmore
              rw [skipSeparators_backtrackLimit, hcopy.2, hends.take_of_dropWhile hmore,
                List.replicate_succ, bytesOf_cons]
              rfl
            · rw [hends.dropWhile_drop, List.replicate_succ]
              exact hends.bytesOf_take twoDots _
  · have hname : IsName part := ⟨hne, hone, htwo, hsep⟩
    rw [if_neg htwo, pushPart_name hname]
    refine ⟨⟨ups, part :: names, ⟨List.forall_mem_cons.mpr ⟨hname, hkept.isName⟩, hkept.absolute⟩,
      rfl, fun _ => ?_⟩, _, (hview.visitName hsep hnul.1 hends).skipSeparators, ?_⟩
    · rw [skipSeparators_backtrackLimit, visitName_backtrackLimit, hlimit]
    · rw [hends.dropWhile_drop]
      exact hends.bytesOf_take part _

/-! ### Splitting -/

theorem foldl_splitOn_dropWhile (kept : List Part) (rest : List UInt8) :
    (rest.splitOn sep).foldl (pushPart isAbsolutePath) kept =
      ((rest.dropWhile (· = sep)).splitOn sep).foldl (pushPart isAbsolutePath) kept := by
  induction rest with
  | nil => rfl
  | cons byte rest ih =>
      by_cases hsep : byte = sep
      · subst hsep
        have hsplit : (sep :: rest).splitOn sep = [] :: rest.splitOn sep :=
          List.splitOn_append_cons_self_of_not_mem List.not_mem_nil rest
        rw [List.dropWhile_cons_of_pos (by simp), ← ih, hsplit, List.foldl_cons, pushPart_nil]
      · rw [List.dropWhile_cons_of_neg (by simpa using hsep)]

theorem foldl_splitOn_part (kept : List Part) (hsep : sep ∉ part) (hends : BehindPart rest) :
    ((part ++ rest).splitOn sep).foldl (pushPart isAbsolutePath) kept =
      ((rest.dropWhile (· = sep)).splitOn sep).foldl (pushPart isAbsolutePath)
        (pushPart isAbsolutePath kept part) := by
  rcases hends with rfl | ⟨more, rfl⟩
  · rw [List.append_nil, List.splitOn_eq_singleton hsep, List.dropWhile_nil, List.splitOn_nil]
    simp only [List.foldl_cons, List.foldl_nil, pushPart_nil]
  · rw [List.splitOn_append_cons_self_of_not_mem hsep, List.foldl_cons, foldl_splitOn_dropWhile,
      List.dropWhile_cons_of_pos (by simp)]

/-- The first part of what is left. -/
theorem exists_part {byte : UInt8} {more : List UInt8} (hrest : rest = byte :: more)
    (hhead : rest.dropWhile (· = sep) = rest) :
    ∃ part after, rest = part ++ after ∧ part ≠ [] ∧ sep ∉ part ∧ BehindPart after := by
  have hne : byte ≠ sep := by
    rintro rfl
    rw [hrest, List.dropWhile_cons_of_pos (by simp)] at hhead
    have hlength := congrArg List.length hhead
    have hle := (List.dropWhile_sublist (· = sep) (l := more)).length_le
    rw [List.length_cons] at hlength
    omega
  refine ⟨rest.takeWhile (· ≠ sep), rest.dropWhile (· ≠ sep),
    List.takeWhile_append_dropWhile.symm, ?_, ?_, ?_⟩
  · rw [hrest, List.takeWhile_cons_of_pos (by simpa using hne)]
    exact List.cons_ne_nil _ _
  · intro hmem
    have hsep := List.mem_takeWhile_imp hmem
    simp at hsep
  · cases hafter : rest.dropWhile (· ≠ sep) with
    | nil => exact .inl rfl
    | cons next after =>
        have hnext := List.head_dropWhile_not (· ≠ sep) (by rw [hafter]; exact List.cons_ne_nil _ _)
        simp only [hafter, List.head_cons] at hnext
        exact .inr ⟨after, by simpa using hnext⟩

/-- All parts. -/
theorem Cleans.visitParts (hs : Cleans isAbsolutePath s kept rest) (hnul : 0 ∉ rest)
    (hhead : rest.dropWhile (· = sep) = rest) :
    Cleans isAbsolutePath (visitParts isAbsolutePath s)
      ((rest.splitOn sep).foldl (pushPart isAbsolutePath) kept) [] := by
  induction hn : rest.length using Nat.strong_induction_on generalizing s kept rest with
  | _ n ih =>
  obtain ⟨written, hview, -⟩ := hs.bytes
  rw [Strings.Path.visitParts, hview.peek_eq]
  cases hrest : rest with
  | nil =>
      rw [List.getD_nil, if_neg (not_not.mpr rfl)]
      subst hrest
      exact hs
  | cons byte more =>
      have hbyte : byte ≠ 0 := fun hzero => hnul (by rw [hrest, hzero]; exact List.mem_cons_self)
      rw [List.getD_cons_zero, if_pos hbyte, ← hrest]
      obtain ⟨part, after, hsplit, hpart, hsep, hends⟩ := exists_part hrest hhead
      have hafter : (after.dropWhile (· = sep)).length ≤ after.length :=
        (List.dropWhile_sublist _).length_le
      have hlength : after.length < n := by
        rw [← hn, hsplit, List.length_append]
        have hpositive := List.length_pos_iff.mpr hpart
        omega
      rw [hsplit] at hs hnul
      have hnext := hs.visitPart hpart hsep hnul hends
      rw [hsplit, foldl_splitOn_part kept hsep hends]
      refine ih _ (hafter.trans_lt hlength) hnext (fun hmem => hnul ?_) ?_ rfl
      · exact List.mem_append_right _ ((List.dropWhile_sublist _).subset hmem)
      · exact List.dropWhile_idempotent _ _

end Loop

/-! ## The result -/

section Result

variable {path : List UInt8} {isAbsolutePath : Bool} {kept : List Part} {s : Cleaning}

theorem views_start (path : List UInt8) : Views { path := path } [] path :=
  ⟨le_rfl, Nat.zero_le _, rfl, rfl, fun _ hmem => absurd hmem List.not_mem_nil⟩

theorem isAbsolute_eq (path : List UInt8) : isAbsolute path = decide (path.getD 0 0 = sep) := by
  rw [isAbsolute]
  cases path with
  | nil => rfl
  | cons byte path => simp

theorem cleans_start (path : List UInt8) :
    ∃ rest, Cleans (isAbsolute path) (start (isAbsolute path) path) [] rest ∧
      rest.dropWhile (· = sep) = rest ∧ (∀ byte ∈ rest, byte ∈ path) ∧
        (rest.splitOn sep).foldl (pushPart (isAbsolute path)) [] = keptParts path := by
  rw [keptParts]
  cases habsolute : isAbsolute path with
  | true =>
      cases path with
      | nil => cases habsolute
      | cons byte rest =>
          obtain rfl : byte = sep := by simpa [isAbsolute] using habsolute
          have hview := (views_start (sep :: rest)).copy.skipSeparators
          rw [start, if_pos rfl]
          refine ⟨rest.dropWhile (· = sep), ⟨⟨0, [], ⟨fun _ hmem => absurd hmem List.not_mem_nil,
            fun _ => rfl⟩, rfl, fun _ => ?_⟩, _, hview.of_backtrackLimit _, .inl rfl⟩,
            List.dropWhile_idempotent _ _, fun byte hmem => ?_, ?_⟩
          · exact hview.length_written.symm
          · exact List.mem_cons_of_mem _ ((List.dropWhile_sublist _).subset hmem)
          · rw [foldl_splitOn_dropWhile [] (sep :: rest), List.dropWhile_cons_of_pos (by simp)]
  | false =>
      rw [start, if_neg Bool.false_ne_true]
      refine ⟨path, ⟨⟨0, [], ⟨fun _ hmem => absurd hmem List.not_mem_nil, Bool.noConfusion⟩, rfl,
        fun _ => rfl⟩, _, views_start path, .inl rfl⟩, ?_, fun _ hmem => hmem, rfl⟩
      cases path with
      | nil => rfl
      | cons byte rest =>
          exact List.dropWhile_cons_of_neg (by simpa [isAbsolute] using habsolute)

theorem cleans_cleaned (hnul : 0 ∉ path) :
    Cleans (isAbsolute path) (cleaned path) (keptParts path) [] := by
  obtain ⟨rest, hstart, hhead, hsubset, hkept⟩ := cleans_start path
  have hends := hstart.visitParts (fun hmem => hnul (hsubset 0 hmem)) hhead
  rw [hkept] at hends
  rw [cleaned, ← isAbsolute_eq]
  exact hends

/-- The bytes of the parts are joined by separators but for the last one. -/
theorem bytesOf_reverse {parts : List Part} (hne : parts ≠ []) :
    bytesOf isAbsolutePath parts.reverse = joinParts isAbsolutePath parts ++ [sep] := by
  have hjoin : parts.flatMap (· ++ [sep]) = [sep].intercalate parts ++ [sep] := by
    induction parts with
    | nil => exact absurd rfl hne
    | cons part parts ih =>
        cases parts with
        | nil => simp
        | cons next parts =>
            rw [List.flatMap_cons, ih (List.cons_ne_nil _ _), List.intercalate_cons_cons]
            simp
  rw [bytesOf, joinParts, List.reverse_reverse, hjoin]
  cases isAbsolutePath with
  | true => rfl
  | false =>
      rw [if_neg Bool.false_ne_true, if_neg Bool.false_ne_true, if_neg hne]
      rfl

/-- A trailing separator is removed. -/
theorem cleanPath_of_views {written : List UInt8} (hs : Views (cleaned path) written []) :
    cleanPath path =
      if written = [] then [dot]
      else if written.length > 1 ∧ written.getLast? = some sep then written.dropLast
      else written := by
  have hlength := hs.length_written
  have hlast : written ≠ [] →
      ((cleaned path).path.getD ((cleaned path).dst - 1) 0 = sep ↔
        written.getLast? = some sep) := by
    intro hne
    have hpositive := List.length_pos_iff.mpr hne
    have hlt : (cleaned path).dst - 1 < (cleaned path).dst := by omega
    have hbound : (cleaned path).dst - 1 < (cleaned path).path.length :=
      hlt.trans_le (hs.dst_le.trans hs.src_le)
    rw [List.getLast?_eq_getElem?, hlength, ← hs.written_eq, List.getElem?_take_of_lt hlt,
      List.getD_eq_getElem _ _ hbound, List.getElem?_eq_getElem hbound, Option.some.injEq]
  by_cases hne : written = []
  · rw [if_pos hne, cleanPath, if_neg]
    rw [← hlength, hne]
    exact not_not.mpr rfl
  · have hdst : (cleaned path).dst ≠ 0 := by
      rw [← hlength]
      exact fun hzero => hne (List.eq_nil_of_length_eq_zero hzero)
    rw [if_neg hne, cleanPath, if_pos hdst, ← hlength]
    rw [← hlength] at hlast
    simp only [hlast hne]
    split_ifs
    · rw [List.dropLast_eq_take, ← hs.written_eq, List.take_take, hs.written_eq, ← hlength]
      rw [min_eq_left (Nat.sub_le _ _)]
    · rw [hlength, hs.written_eq]

theorem parts_of_kept {ups : ℕ} {names : List Part} (hkept : KeepsNames isAbsolutePath ups names) :
    ∀ part ∈ keptOf ups names, part ≠ [] ∧ sep ∉ part := by
  intro part hmem
  rcases List.mem_append.mp hmem with hname | hup
  · exact ⟨(hkept.isName part hname).ne_nil, (hkept.isName part hname).noSep⟩
  · rw [(List.mem_replicate.mp hup).2]
    decide

theorem cleanPath_eq (hnul : 0 ∉ path) : cleanPath path = normalPath path := by
  obtain ⟨⟨ups, names, hkept, heq, -⟩, written, hview, hwritten⟩ := cleans_cleaned hnul
  rw [cleanPath_of_views hview, normalPath]
  rw [heq] at hwritten ⊢
  have hparts := parts_of_kept hkept
  generalize keptOf ups names = kept at hparts hwritten
  cases kept with
  | nil =>
      obtain rfl := hwritten.resolve_right fun hmissing => hmissing.2.1 rfl
      cases isAbsolute path <;> rfl
  | cons part kept =>
      obtain ⟨⟨hne, hsep⟩, -⟩ := List.forall_mem_cons.mp hparts
      have hjoin : joinParts (isAbsolute path) (part :: kept).reverse =
          bytesOf (isAbsolute path) kept ++ part := by
        have hbytes := @bytesOf_reverse (isAbsolute path) (part :: kept).reverse
          (by simp)
        rw [List.reverse_reverse, bytesOf_cons] at hbytes
        exact (List.append_cancel_right hbytes).symm
      have hjoined : bytesOf (isAbsolute path) kept ++ part ≠ [] :=
        fun hnil => hne (List.append_eq_nil_iff.mp hnil).2
      rw [bytesOf_cons] at hwritten
      rw [hjoin]
      rcases hwritten with rfl | ⟨-, -, hmissing⟩
      · have hpositive := List.length_pos_iff.mpr hjoined
        rw [if_neg (List.append_ne_nil_of_right_ne_nil _ (List.cons_ne_nil _ _)), if_pos,
          List.dropLast_concat]
        refine ⟨?_, List.getLast?_concat⟩
        rw [List.length_append, List.length_singleton]
        omega
      · obtain rfl := List.append_cancel_right hmissing
        rw [if_neg hjoined, if_neg]
        rintro ⟨-, hlast⟩
        rw [List.getLast?_append_of_ne_nil _ hne] at hlast
        exact hsep (List.mem_of_getLast? hlast)

/-! ### The result again -/

theorem isAbsolute_joinParts {parts : List Part} (hparts : ∀ part ∈ parts, part ≠ [] ∧ sep ∉ part) :
    isAbsolute (joinParts isAbsolutePath parts) = isAbsolutePath := by
  cases isAbsolutePath with
  | true => rfl
  | false =>
      match parts with
      | [] => rfl
      | [] :: _ => exact absurd rfl (hparts [] List.mem_cons_self).1
      | (byte :: part) :: parts =>
          have hbyte : byte ≠ sep := fun heq =>
            (hparts _ List.mem_cons_self).2 (heq ▸ List.mem_cons_self)
          rw [joinParts, if_neg Bool.false_ne_true, if_neg (List.cons_ne_nil _ _)]
          cases parts <;> simp [isAbsolute, hbyte]

theorem keptParts_joinParts {ups : ℕ} {names : List Part} (hkept : KeepsNames isAbsolutePath ups names) :
    keptParts (joinParts isAbsolutePath (keptOf ups names).reverse) = keptOf ups names := by
  have hparts : ∀ part ∈ (keptOf ups names).reverse, part ≠ [] ∧ sep ∉ part := fun part hmem =>
    parts_of_kept hkept part (List.mem_reverse.mp hmem)
  rw [keptParts, isAbsolute_joinParts hparts]
  by_cases hnone : keptOf ups names = []
  · rw [hnone]
    cases isAbsolutePath <;> rfl
  · have hne : (keptOf ups names).reverse ≠ [] := mt List.reverse_eq_nil_iff.mp hnone
    have hsplit := List.splitOn_intercalate sep (fun part hmem => (hparts part hmem).2) hne
    cases isAbsolutePath with
    | true =>
        rw [joinParts, if_pos rfl, foldl_splitOn_dropWhile, List.dropWhile_cons_of_pos (by simp),
          ← foldl_splitOn_dropWhile, hsplit, foldl_keptOf hkept]
    | false =>
        rw [joinParts, if_neg Bool.false_ne_true, if_neg hne, hsplit, foldl_keptOf hkept]

theorem normalPath_normalPath (hnul : 0 ∉ path) : normalPath (normalPath path) = normalPath path := by
  obtain ⟨⟨ups, names, hkept, heq, -⟩, -⟩ := cleans_cleaned hnul
  have hparts : ∀ part ∈ (keptOf ups names).reverse, part ≠ [] ∧ sep ∉ part := fun part hmem =>
    parts_of_kept hkept part (List.mem_reverse.mp hmem)
  have hnormal : normalPath path = joinParts (isAbsolute path) (keptOf ups names).reverse := by
    rw [normalPath, heq]
  rw [hnormal, normalPath, isAbsolute_joinParts hparts, keptParts_joinParts hkept]

theorem mem_intercalate {parts : List Part} {byte : UInt8} :
    (byte ∈ [sep].intercalate parts → byte = sep ∨ ∃ part ∈ parts, byte ∈ part) ∧
      ((∃ part ∈ parts, byte ∈ part) → byte ∈ [sep].intercalate parts) := by
  induction parts with
  | nil => simp
  | cons part parts ih =>
      cases parts with
      | nil =>
          rw [List.intercalate_singleton]
          exact ⟨fun hmem => .inr ⟨part, List.mem_cons_self, hmem⟩, fun ⟨other, hother, hmem⟩ =>
            List.mem_singleton.mp hother ▸ hmem⟩
      | cons next parts =>
          rw [List.intercalate_cons_cons]
          simp only [List.mem_append, List.mem_singleton, List.exists_mem_cons_iff] at ih ⊢
          refine ⟨?_, ?_⟩
          · rintro ((hpart | hsep) | hrest)
            · exact .inr (.inl hpart)
            · exact .inl hsep
            · exact (ih.1 hrest).imp_right .inr
          · exact fun hmem => hmem.elim (fun hpart => .inl (.inl hpart)) fun hrest => .inr (ih.2 hrest)

theorem mem_pushPart {next part : Part} {kept : List Part}
    (hmem : part ∈ pushPart isAbsolutePath kept next) :
    part ∈ kept ∨ part = next ∨ part = twoDots := by
  rw [pushPart.eq_def] at hmem
  cases kept with
  | nil =>
      dsimp only at hmem
      split_ifs at hmem
      · exact .inl hmem
      · exact .inl hmem
      · exact .inr (.inr (List.mem_singleton.mp hmem))
      · exact .inr (.inl (List.mem_singleton.mp hmem))
  | cons last kept =>
      dsimp only at hmem
      split_ifs at hmem
      · exact .inl hmem
      · exact (List.mem_cons.mp hmem).elim (fun heq => .inr (.inr heq)) .inl
      · exact .inl (List.mem_cons_of_mem _ hmem)
      · exact (List.mem_cons.mp hmem).elim (fun heq => .inr (.inl heq)) .inl

theorem mem_foldl_pushPart {parts kept : List Part} {part : Part}
    (hmem : part ∈ parts.foldl (pushPart isAbsolutePath) kept) :
    part ∈ kept ∨ part ∈ parts ∨ part = twoDots := by
  induction parts generalizing kept with
  | nil => exact .inl hmem
  | cons next parts ih =>
      rcases ih hmem with hkept | hparts | hups
      · have hpush := mem_pushPart hkept
        rcases hpush with hkept | rfl | hups
        · exact .inl hkept
        · exact .inr (.inl List.mem_cons_self)
        · exact .inr (.inr hups)
      · exact .inr (.inl (List.mem_cons_of_mem _ hparts))
      · exact .inr (.inr hups)

theorem nul_not_mem_normalPath (hnul : 0 ∉ path) : 0 ∉ normalPath path := by
  have hkept : ∀ part ∈ (keptParts path).reverse, 0 ∉ part := by
    intro part hmem hzero
    rcases mem_foldl_pushPart (List.mem_reverse.mp hmem) with hnone | hpart | rfl
    · exact List.not_mem_nil hnone
    · have hbyte := mem_intercalate.2 ⟨part, hpart, hzero⟩
      rw [List.intercalate_splitOn] at hbyte
      exact hnul hbyte
    · exact absurd hzero (by decide)
  have hjoin : 0 ∉ [sep].intercalate (keptParts path).reverse := by
    intro hmem
    rcases mem_intercalate.1 hmem with hsep | ⟨part, hpart, hzero⟩
    · exact absurd hsep (by decide)
    · exact hkept part hpart hzero
  rw [normalPath, joinParts]
  split_ifs
  · rw [List.mem_cons, not_or]
    exact ⟨by decide, hjoin⟩
  · decide
  · exact hjoin

end Result

/-- The result is the lexical normal form, every byte was copied from its own position or from one
behind it, and nothing is left to clean. -/
theorem clean_path_is_normal (path : List UInt8) (hnul : 0 ∉ path) :
    cleanPath path = normalPath path ∧
      (∀ copied ∈ (cleaned path).copies, copied.1 ≤ copied.2) ∧
        cleanPath (cleanPath path) = cleanPath path := by
  obtain ⟨-, written, hview, -⟩ := cleans_cleaned hnul
  refine ⟨cleanPath_eq hnul, hview.copies_le, ?_⟩
  rw [cleanPath_eq hnul, cleanPath_eq (nul_not_mem_normalPath hnul), normalPath_normalPath hnul]

/-- The path `a/../../b`. -/
theorem clean_path_of_ups :
    let path : List UInt8 := [97, sep, dot, dot, sep, dot, dot, sep, 98]
    cleanPath path = normalPath path ∧
      (∀ copied ∈ (cleaned path).copies, copied.1 ≤ copied.2) ∧
        cleanPath (cleanPath path) = cleanPath path :=
  clean_path_is_normal _ (by decide)

end ContainerScheduler.Analysis
