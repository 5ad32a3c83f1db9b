/-
# The numbers that are accepted

All four functions take a number in decimal apart in the same way; they differ in the test for its
range. What they print they read back.
-/

import ContainerScheduler.Strings.Numbers
import Mathlib.Data.List.Induction
import Mathlib.Data.List.TakeWhile
import Mathlib.Data.Nat.Digits.Defs

namespace ContainerScheduler.Analysis

open Strings

/-! ## Numbers in decimal -/

def decimal (digits : List UInt8) : ℕ :=
  Nat.ofDigits 10 (digits.reverse.map fun c => c.toNat - 48)

/-- Digits, and behind them only spaces. -/
def Numeral (str : List UInt8) (m : ℕ) : Prop :=
  ∃ digits after, str = digits ++ after ∧ digits ≠ [] ∧ (∀ c ∈ digits, isDigit c = true) ∧
    (∀ c ∈ after, isSpace c = true) ∧ decimal digits = m

/-- The text is a number between spaces. -/
def Denotes (signed : Bool) (str : List UInt8) (n : ℤ) : Prop :=
  ∃ before number m, str = before ++ number ∧ (∀ c ∈ before, isSpace c = true) ∧
    (Numeral number m ∧ n = m ∨
      signed = true ∧ ∃ rest, number = 45 :: rest ∧ Numeral rest m ∧ n = -m)

theorem decimal_concat (digits : List UInt8) (c : UInt8) :
    decimal (digits ++ [c]) = 10 * decimal digits + (c.toNat - 48) := by
  simp [decimal, Nat.ofDigits_cons, add_comm]

theorem le_decimal_append (digits more : List UInt8) :
    decimal digits ≤ decimal (digits ++ more) := by
  induction more using List.reverseRecOn with
  | nil => rw [List.append_nil]
  | append_singleton more c ih =>
      rw [← List.append_assoc, decimal_concat]
      omega

theorem isDigit_iff {c : UInt8} : isDigit c = true ↔ 48 ≤ c.toNat ∧ c.toNat ≤ 57 := by
  simp [isDigit, UInt8.le_iff_toNat_le]

theorem isSpace_of_isDigit {c : UInt8} (hdigit : isDigit c = true) : isSpace c = false := by
  obtain ⟨hge, hle⟩ := isDigit_iff.mp hdigit
  have hne : c ≠ 32 := by
    rintro rfl
    exact absurd hge (by decide)
  have hlarge : ¬ c ≤ 13 := by
    rw [UInt8.le_iff_toNat_le]
    simp only [UInt8.reduceToNat]
    omega
  simp [isSpace, hne, hlarge]

theorem isDigit_of_isSpace {c : UInt8} (hspace : isSpace c = true) : isDigit c = false := by
  by_contra hdigit
  rw [isSpace_of_isDigit (by simpa using hdigit)] at hspace
  cases hspace

theorem skipSpaces_eq_nil_iff {str : List UInt8} :
    skipSpaces str = [] ↔ ∀ c ∈ str, isSpace c = true :=
  List.dropWhile_eq_nil_iff

theorem skipSpaces_append {before str : List UInt8} (hbefore : ∀ c ∈ before, isSpace c = true)
    (hstr : ∀ c ∈ str.head?, isSpace c = false) : skipSpaces (before ++ str) = str := by
  rw [skipSpaces, List.dropWhile_append_of_pos hbefore]
  cases str with
  | nil => rfl
  | cons c str => rw [List.dropWhile_cons_of_neg (by simpa using hstr c rfl)]

/-- The loop over the digits finds the numeral. -/
theorem numeral_iff {str : List UInt8} {m : ℕ} :
    Numeral str m ↔ str.takeWhile isDigit ≠ [] ∧ skipSpaces (str.dropWhile isDigit) = [] ∧
      decimal (str.takeWhile isDigit) = m := by
  constructor
  · rintro ⟨digits, after, rfl, hne, hdigits, hafter, hm⟩
    have hstops : ∀ c ∈ after.head?, isDigit c = false := fun c hc =>
      isDigit_of_isSpace (hafter c (List.mem_of_mem_head? hc))
    have hnone : after.takeWhile isDigit = [] ∧ after.dropWhile isDigit = after := by
      cases after with
      | nil => exact ⟨rfl, rfl⟩
      | cons c after =>
          have hc : ¬ isDigit c = true := by simpa using hstops c rfl
          exact ⟨List.takeWhile_cons_of_neg hc, List.dropWhile_cons_of_neg hc⟩
    rw [List.takeWhile_append_of_pos hdigits, List.dropWhile_append_of_pos hdigits, hnone.1,
      hnone.2, List.append_nil]
    exact ⟨hne, skipSpaces_eq_nil_iff.mpr hafter, hm⟩
  · rintro ⟨hne, hafter, hm⟩
    exact ⟨_, _, (List.takeWhile_append_dropWhile).symm, hne, fun c hc => List.mem_takeWhile_imp hc,
      skipSpaces_eq_nil_iff.mp hafter, hm⟩

theorem Numeral.head_isDigit {str : List UInt8} {m : ℕ} (hnumeral : Numeral str m) :
    isDigit (safeFirstChar str) = true := by
  obtain ⟨digits, after, rfl, hne, hdigits, -, -⟩ := hnumeral
  cases digits with
  | nil => exact absurd rfl hne
  | cons c digits => exact hdigits c (List.mem_cons_self ..)

/-- The number begins where the spaces end. -/
theorem denotes_iff {signed : Bool} {str : List UInt8} {n : ℤ} :
    Denotes signed str n ↔ ∃ m, Numeral (skipSpaces str) m ∧ n = m ∨
      signed = true ∧ ∃ rest, skipSpaces str = 45 :: rest ∧ Numeral rest m ∧ n = -m := by
  constructor
  · rintro ⟨before, number, m, rfl, hbefore, hnumber⟩
    have hfirst : ∀ c ∈ number.head?, isSpace c = false := by
      rcases hnumber with ⟨hnumeral, -⟩ | ⟨-, rest, rfl, -, -⟩
      · intro c hc
        have hdigit := hnumeral.head_isDigit
        cases number with
        | nil => cases hc
        | cons d number =>
            obtain rfl := Option.some.inj hc
            exact isSpace_of_isDigit hdigit
      · intro c hc
        obtain rfl := Option.some.inj hc
        decide
    rw [skipSpaces_append hbefore hfirst]
    exact ⟨m, hnumber⟩
  · rintro ⟨m, hnumber⟩
    exact ⟨str.takeWhile isSpace, skipSpaces str, m, List.takeWhile_append_dropWhile.symm,
      fun c hc => List.mem_takeWhile_imp hc, hnumber⟩

/-! ## The loop over the digits -/

/-- A digit is added to a number with the given sign as long as the limit allows. -/
def StepAdds (step : ℤ → UInt8 → Except ParseFailure ℤ) (sign : ℤ) (limit : ℕ) : Prop :=
  ∀ m : ℕ, m ≤ limit → ∀ c, isDigit c = true → step (sign * m) c =
    if 10 * m + (c.toNat - 48) ≤ limit then .ok (sign * (10 * m + (c.toNat - 48) : ℕ))
    else .error .refused

section Loop

variable {step : ℤ → UInt8 → Except ParseFailure ℤ} {sign : ℤ} {limit : ℕ}

theorem readDigits_spec (hstep : StepAdds step sign limit) {str front : List UInt8}
    (hfront : decimal front ≤ limit) :
    readDigits step (sign * decimal front) str =
      if decimal (front ++ str.takeWhile isDigit) ≤ limit then
        .ok (sign * decimal (front ++ str.takeWhile isDigit), str.dropWhile isDigit)
      else .error .refused := by
  induction str generalizing front with
  | nil => rw [List.takeWhile_nil, List.append_nil, if_pos hfront]; rfl
  | cons c str ih =>
      rw [readDigits]
      by_cases hc : isDigit c = true
      · have hassoc : front ++ (c :: str).takeWhile isDigit =
            (front ++ [c]) ++ str.takeWhile isDigit := by
          rw [List.takeWhile_cons_of_pos hc, List.append_assoc, List.singleton_append]
        rw [if_pos hc, hstep _ hfront c hc, ← decimal_concat, hassoc,
          List.dropWhile_cons_of_pos hc]
        by_cases hfits : decimal (front ++ [c]) ≤ limit
        · rw [if_pos hfits, Except.bind, ih hfits]
        · have hmore := le_decimal_append (front ++ [c]) (str.takeWhile isDigit)
          rw [if_neg hfits, if_neg (by omega), Except.bind]
      · rw [if_neg hc, List.takeWhile_cons_of_neg hc, List.dropWhile_cons_of_neg hc,
          List.append_nil, if_pos hfront]

theorem readNumber_of_numeral (hstep : StepAdds step sign limit) {str : List UInt8} {m : ℕ}
    (hnumeral : Numeral str m) :
    readNumber step str = if m ≤ limit then .ok (sign * m) else .error .refused := by
  obtain ⟨-, hafter, rfl⟩ := numeral_iff.mp hnumeral
  have hrun := @readDigits_spec step sign limit hstep str [] (Nat.zero_le _)
  rw [show sign * ((decimal [] : ℕ) : ℤ) = 0 by simp [decimal], List.nil_append] at hrun
  rw [readNumber, if_neg (by simp [hnumeral.head_isDigit]), hrun]
  split_ifs
  · rw [Except.bind, if_neg (not_not.mpr hafter)]
  · rfl

theorem readNumber_of_not_numeral (hstep : StepAdds step sign limit) {str : List UInt8}
    (hnumeral : ∀ m, ¬ Numeral str m) : readNumber step str = .error .refused := by
  rw [readNumber]
  split_ifs with hfirst
  · rfl
  · have hne : str.takeWhile isDigit ≠ [] := by
      cases str with
      | nil => exact absurd rfl hfirst
      | cons c str =>
          have hc : isDigit c = true := Bool.of_not_eq_false hfirst
          rw [List.takeWhile_cons_of_pos hc]
          exact List.cons_ne_nil _ _
    have hrun := @readDigits_spec step sign limit hstep str [] (Nat.zero_le _)
    rw [show sign * ((decimal [] : ℕ) : ℤ) = 0 by simp [decimal], List.nil_append] at hrun
    rw [hrun]
    split_ifs
    · rw [Except.bind, if_pos fun hafter => hnumeral _ (numeral_iff.mpr ⟨hne, hafter, rfl⟩)]
    · rfl

end Loop

/-! ## The digits of the four functions -/

theorem stepAdds_addDigit {asType : ℤ → Except ParseFailure ℤ} {vlimit : ℕ} (hlimit : 9 ≤ vlimit)
    (htype : ∀ x : ℤ, 0 ≤ x → x ≤ vlimit → asType x = .ok x) :
    StepAdds (addDigit asType vlimit) 1 vlimit := by
  intro m hm c hc
  obtain ⟨hge, hle⟩ := isDigit_iff.mp hc
  obtain ⟨d, hd⟩ : ∃ d : ℕ, c.toNat = 48 + d := Nat.exists_eq_add_of_le hge
  have hdigit : digitOf c = d := by
    rw [digitOf, hd]
    omega
  rw [addDigit, hdigit, htype _ (by omega) (by omega), Except.bind,
    Int.tdiv_eq_ediv_of_nonneg (by omega), show c.toNat - 48 = d by omega]
  by_cases hfits : 10 * m + d ≤ vlimit
  · rw [if_neg (by omega), if_pos hfits, htype _ (by omega) (by omega), Except.bind,
      htype _ (by omega) (by omega)]
    congr 1
    push_cast
    ring
  · rw [if_pos (by omega), if_neg hfits]

theorem stepAdds_subDigit : StepAdds (subDigit kint64min) (-1) (2 ^ 63) := by
  intro m hm c hc
  obtain ⟨hge, hle⟩ := isDigit_iff.mp hc
  obtain ⟨d, hd⟩ : ∃ d : ℕ, c.toNat = 48 + d := Nat.exists_eq_add_of_le hge
  have hdigit : digitOf c = d := by
    rw [digitOf, hd]
    omega
  have htype : ∀ x : ℤ, -2 ^ 63 ≤ x → x ≤ 0 → asInt64 x = .ok x := fun x hlow hhigh =>
    if_pos ⟨hlow, hhigh.trans (by decide)⟩
  have hrest : kint64min + d = -(2 ^ 63 - d) := by
    rw [kint64min]
    ring
  rw [subDigit, hdigit, hrest, htype _ (by omega) (by omega), Except.bind, Int.neg_tdiv,
    Int.tdiv_eq_ediv_of_nonneg (by omega), show c.toNat - 48 = d by omega]
  by_cases hfits : 10 * m + d ≤ 2 ^ 63
  · rw [if_neg (by omega), if_pos hfits, htype _ (by omega) (by omega), Except.bind,
      htype _ (by omega) (by omega)]
    congr 1
    push_cast
    ring
  · rw [if_pos (by omega), if_neg hfits]

theorem stepAdds_widenedDigit {vmax : ℕ} (hmax : vmax ≤ 2 ^ 32) :
    StepAdds (widenedDigit vmax) 1 vmax := by
  intro m hm c hc
  obtain ⟨hge, hle⟩ := isDigit_iff.mp hc
  have htype : ∀ x : ℤ, 0 ≤ x → x < 2 ^ 63 → asInt64 x = .ok x := fun x hlow hhigh =>
    if_pos ⟨le_trans (by decide) hlow, Int.le_sub_one_of_lt hhigh⟩
  rw [widenedDigit, htype _ (by omega) (by omega), Except.bind, htype _ (by omega) (by omega),
    Except.bind, htype _ (by omega) (by omega), Except.bind]
  by_cases hfits : 10 * m + (c.toNat - 48) ≤ vmax
  · rw [if_neg (by omega), if_pos hfits]
    congr 1
    omega
  · rw [if_pos (by omega), if_neg hfits]

/-! ## Every text -/

/-- The text is exactly one of these numbers, which is stored; or it is none of them, and the target
is as before. -/
def ParsesTo (accepted : ℤ → Prop) (value : ℤ) (outcome : Option (Bool × ℤ)) : Prop :=
  (∃ n, accepted n ∧ (∀ n', accepted n' → n' = n) ∧ outcome = some (true, n)) ∨
    (∀ n, ¬ accepted n) ∧ outcome = some (false, value)

theorem Numeral.unique {str : List UInt8} {m m' : ℕ} (hm : Numeral str m) (hm' : Numeral str m') :
    m' = m :=
  (numeral_iff.mp hm').2.2.symm.trans (numeral_iff.mp hm).2.2

/-- What is common to the four functions: digits up to a limit, and a conversion at the end. -/
theorem parsesTo_store {step : ℤ → UInt8 → Except ParseFailure ℤ} {sign : ℤ} {limit : ℕ}
    (hstep : StepAdds step sign limit) {str : List UInt8} {value : ℤ} {number : ℕ → ℤ}
    {convert : ℤ → Except ParseFailure ℤ} {accepted : ℤ → Prop}
    (hconvert : ∀ m : ℕ, m ≤ limit → convert (sign * m) = .ok (number m))
    (haccepted : ∀ n, accepted n ↔ ∃ m, Numeral str m ∧ m ≤ limit ∧ n = number m) :
    ParsesTo accepted value (store value ((readNumber step str).bind convert)) := by
  by_cases hnumeral : ∃ m, Numeral str m
  · obtain ⟨m, hm⟩ := hnumeral
    rw [readNumber_of_numeral hstep hm]
    by_cases hfits : m ≤ limit
    · refine .inl ⟨number m, (haccepted _).mpr ⟨m, hm, hfits, rfl⟩, fun n' hn' => ?_, ?_⟩
      · obtain ⟨m', hm', -, rfl⟩ := (haccepted n').mp hn'
        rw [hm.unique hm']
      · rw [if_pos hfits, Except.bind, hconvert m hfits, store]
    · refine .inr ⟨fun n hn => ?_, ?_⟩
      · obtain ⟨m', hm', hfits', -⟩ := (haccepted n).mp hn
        exact hfits (hm.unique hm' ▸ hfits')
      · rw [if_neg hfits, Except.bind, store]
  · refine .inr ⟨fun n hn => ?_, ?_⟩
    · obtain ⟨m, hm, -⟩ := (haccepted n).mp hn
      exact hnumeral ⟨m, hm⟩
    · rw [readNumber_of_not_numeral hstep fun m hm => hnumeral ⟨m, hm⟩, Except.bind, store]

/-- Without a sign. -/
theorem denotes_unsigned_iff {str : List UInt8} {n : ℤ} :
    Denotes false str n ↔ ∃ m, Numeral (skipSpaces str) m ∧ n = m := by
  rw [denotes_iff]
  exact exists_congr fun m => or_iff_left fun hminus => by cases hminus.1

/-- With the sign that was consumed. -/
theorem denotes_signed_iff {str : List UInt8} {n : ℤ} :
    Denotes true str n ↔ ∃ m, Numeral (consumeMinus (skipSpaces str)).2 m ∧
      n = if (consumeMinus (skipSpaces str)).1 = true then -(m : ℤ) else m := by
  rw [denotes_iff]
  refine exists_congr fun m => ?_
  cases skipSpaces str with
  | nil => simp [consumeMinus]
  | cons c str =>
      rw [consumeMinus]
      by_cases hc : c = 45
      · have hnone : ¬ Numeral (c :: str) m := fun hnumeral => by
          have hdigit : isDigit c = true := hnumeral.head_isDigit
          rw [hc] at hdigit
          exact absurd hdigit (by decide)
        simp [hc, hc ▸ hnone]
      · simp [hc]

/-! ## The four types -/

inductive IntType
  | int64
  | uint64
  | int32
  | uint32

namespace IntType

def signed : IntType → Bool
  | int64 | int32 => true
  | uint64 | uint32 => false

/-- The integers of the type. -/
def Contains : IntType → ℤ → Prop
  | int64, n => -2 ^ 63 ≤ n ∧ n < 2 ^ 63
  | uint64, n => 0 ≤ n ∧ n < 2 ^ 64
  | int32, n => -2 ^ 31 ≤ n ∧ n < 2 ^ 31
  | uint32, n => 0 ≤ n ∧ n < 2 ^ 32

def safeStrto : IntType → List UInt8 → ℤ → Option (Bool × ℤ)
  | int64 => safeStrto64
  | uint64 => safeStrtou64
  | int32 => safeStrto32
  | uint32 => safeStrtou32

/-- What is printed of an integer of the type. -/
def fastToBufferLeft : IntType → ℤ → Printed
  | int64, n => fastInt64ToBufferLeft (Int64.ofInt n)
  | uint64, n => fastUInt64ToBufferLeft (UInt64.ofNat n.toNat)
  | int32, n => fastInt32ToBufferLeft (Int32.ofInt n)
  | uint32, n => fastUInt32ToBufferLeft (UInt32.ofNat n.toNat)

/-- The text denotes an integer of the type. -/
def Accepts (type : IntType) (str : List UInt8) (n : ℤ) : Prop :=
  Denotes type.signed str n ∧ type.Contains n

end IntType

/-- Nothing is converted at the end. -/
theorem bind_ok (parse : Except ParseFailure ℤ) : parse.bind .ok = parse := by
  cases parse <;> rfl

theorem safeStrto64_spec (str : List UInt8) (value : ℤ) :
    ParsesTo (IntType.int64.Accepts str) value (safeStrto64 str value) := by
  have hdenotes := fun n => @denotes_signed_iff str n
  rw [safeStrto64]
  generalize consumeMinus (skipSpaces str) = parts at hdenotes ⊢
  obtain ⟨minus, rest⟩ := parts
  cases minus with
  | true =>
      rw [if_pos rfl, ← bind_ok (readNumber _ _)]
      refine @parsesTo_store _ _ _ stepAdds_subDigit rest value (fun m => -m) .ok _
        (fun m _ => by rw [neg_one_mul]) fun n => ?_
      rw [IntType.Accepts, IntType.signed, hdenotes, ← exists_and_right]
      refine exists_congr fun m => ?_
      rw [if_pos rfl, and_assoc, IntType.Contains]
      refine and_congr_right fun _ => ?_
      omega
  | false =>
      rw [if_neg Bool.false_ne_true, ← bind_ok (readNumber _ _)]
      have hstep : StepAdds (addDigit asInt64 kint64max) 1 (2 ^ 63 - 1) :=
        stepAdds_addDigit (by decide) fun x hlow hhigh =>
          if_pos ⟨le_trans (by decide) hlow, hhigh⟩
      refine @parsesTo_store _ _ _ hstep rest value (fun m => m) .ok _
        (fun m _ => by rw [one_mul]) fun n => ?_
      rw [IntType.Accepts, IntType.signed, hdenotes, ← exists_and_right]
      refine exists_congr fun m => ?_
      rw [if_neg Bool.false_ne_true, and_assoc, IntType.Contains]
      refine and_congr_right fun _ => ?_
      omega

theorem safeStrtou64_spec (str : List UInt8) (value : ℤ) :
    ParsesTo (IntType.uint64.Accepts str) value (safeStrtou64 str value) := by
  have hstep : StepAdds (addDigit asUint64 kuint64max) 1 (2 ^ 64 - 1) :=
    stepAdds_addDigit (by decide) fun x hlow hhigh => if_pos ⟨hlow, hhigh⟩
  rw [safeStrtou64, ← bind_ok (readNumber _ _)]
  refine @parsesTo_store _ _ _ hstep (skipSpaces str) value (fun m => m) .ok _
    (fun m _ => by rw [one_mul]) fun n => ?_
  rw [IntType.Accepts, IntType.signed, denotes_unsigned_iff, ← exists_and_right]
  refine exists_congr fun m => ?_
  rw [and_assoc, IntType.Contains]
  refine and_congr_right fun _ => ?_
  omega

theorem safeStrto32_spec (str : List UInt8) (value : ℤ) :
    ParsesTo (IntType.int32.Accepts str) value (safeStrto32 str value) := by
  have hdenotes := fun n => @denotes_signed_iff str n
  rw [safeStrto32]
  generalize consumeMinus (skipSpaces str) = parts at hdenotes ⊢
  obtain ⟨minus, rest⟩ := parts
  have hfinal : ∀ n : ℤ, -2 ^ 31 ≤ n → n < 2 ^ 31 →
      (asInt64 n).map (fun result => result.bmod (2 ^ 32)) = .ok n := by
    intro n hlow hhigh
    rw [asInt64, inType, if_pos ⟨by rw [kint64min]; omega, by rw [kint64max]; omega⟩, Except.map,
      Int.bmod_eq_of_le (by omega) (by omega)]
  cases minus with
  | true =>
      rw [if_pos rfl, if_pos rfl]
      have hstep : StepAdds (widenedDigit (kint32max + 1)) 1 (2 ^ 31) :=
        stepAdds_widenedDigit (by decide)
      refine @parsesTo_store _ _ _ hstep rest value
        (fun m => -m) _ _ (fun m hm => ?_) fun n => ?_
      · rw [one_mul, mul_neg_one]
        exact hfinal _ (by omega) (by omega)
      · rw [IntType.Accepts, IntType.signed, hdenotes, ← exists_and_right]
        refine exists_congr fun m => ?_
        rw [if_pos rfl, and_assoc, IntType.Contains]
        refine and_congr_right fun _ => ?_
        omega
  | false =>
      rw [if_neg Bool.false_ne_true, if_neg Bool.false_ne_true]
      have hstep : StepAdds (widenedDigit kint32max) 1 (2 ^ 31 - 1) :=
        stepAdds_widenedDigit (by decide)
      refine @parsesTo_store _ _ _ hstep rest value
        (fun m => m) _ _ (fun m hm => ?_) fun n => ?_
      · rw [one_mul, mul_one]
        exact hfinal _ (by omega) (by omega)
      · rw [IntType.Accepts, IntType.signed, hdenotes, ← exists_and_right]
        refine exists_congr fun m => ?_
        rw [if_neg Bool.false_ne_true, and_assoc, IntType.Contains]
        refine and_congr_right fun _ => ?_
        omega

theorem safeStrtou32_spec (str : List UInt8) (value : ℤ) :
    ParsesTo (IntType.uint32.Accepts str) value (safeStrtou32 str value) := by
  have hmap : ∀ parse : Except ParseFailure ℤ,
      parse.map (fun result => result % 2 ^ 32) = parse.bind fun result => .ok (result % 2 ^ 32) :=
    fun parse => by cases parse <;> rfl
  have hstep : StepAdds (widenedDigit kuint32max) 1 (2 ^ 32 - 1) :=
    stepAdds_widenedDigit (by decide)
  rw [safeStrtou32, hmap]
  refine @parsesTo_store _ _ _ hstep (skipSpaces str) value (fun m => m) _ _ (fun m hm => ?_)
    fun n => ?_
  · rw [one_mul, Int.emod_eq_of_lt (by omega) (by omega)]
  · rw [IntType.Accepts, IntType.signed, denotes_unsigned_iff, ← exists_and_right]
    refine exists_congr fun m => ?_
    rw [and_assoc, IntType.Contains]
    refine and_congr_right fun _ => ?_
    omega

/-! ## What was printed -/

theorem isDigit_ofNat {d : ℕ} (hd : d < 10) :
    isDigit (UInt8.ofNat (d + 48)) = true ∧ (UInt8.ofNat (d + 48)).toNat - 48 = d := by
  have hbyte : (UInt8.ofNat (d + 48)).toNat = d + 48 := by
    rw [UInt8.toNat_ofNat', Nat.mod_eq_of_lt (by omega)]
  rw [isDigit_iff, hbyte]
  omega

theorem writeDigits_spec (i : ℕ) : (∀ c ∈ writeDigits i, isDigit c = true) ∧
    decimal (writeDigits i).reverse = i := by
  induction i using Nat.strong_induction_on with
  | _ i ih =>
      obtain ⟨hdigit, hvalue⟩ := isDigit_ofNat (Nat.mod_lt i (by decide : 10 > 0))
      rw [writeDigits, List.reverse_cons, decimal_concat, hvalue]
      by_cases hmore : i / 10 > 0
      · obtain ⟨hdigits, hrest⟩ := ih (i / 10) (by omega)
        rw [if_pos hmore, hrest]
        exact ⟨List.forall_mem_cons.mpr ⟨hdigit, hdigits⟩, Nat.div_add_mod i 10⟩
      · rw [if_neg hmore]
        refine ⟨List.forall_mem_cons.mpr ⟨hdigit, by simp⟩, ?_⟩
        simp [decimal]
        omega

/-- The characters of the text without the byte that ends it. -/
def text (printed : Printed) : List UInt8 := printed.1.take printed.2

theorem numeral_fastUInt (i : ℕ) : Numeral (text (fastUIntToBufferLeft i)) i := by
  obtain ⟨hdigits, hvalue⟩ := writeDigits_spec i
  have htext : text (fastUIntToBufferLeft i) = (writeDigits i).reverse := by
    rw [text, fastUIntToBufferLeft, ← List.length_reverse, List.take_left]
  rw [htext]
  refine ⟨_, [], (List.append_nil _).symm, ?_, fun c hc => hdigits c (List.mem_reverse.mp hc),
    by simp, hvalue⟩
  rw [writeDigits]
  simp

theorem denotes_fastUInt (signed : Bool) (i : ℕ) :
    Denotes signed (text (fastUIntToBufferLeft i)) i :=
  ⟨[], _, i, rfl, by simp, .inl ⟨numeral_fastUInt i, rfl⟩⟩

theorem denotes_afterMinus (i : ℕ) :
    Denotes true (text (afterMinus (fastUIntToBufferLeft i))) (-i) :=
  ⟨[], _, i, rfl, by simp, .inr ⟨rfl, _, rfl, numeral_fastUInt i, rfl⟩⟩

theorem toNat_toUInt64 (i : Int64) : (i.toUInt64.toNat : ℤ) = i.toInt % 2 ^ 64 := by
  have hcond := BitVec.toInt_eq_toNat_cond i.toBitVec
  have hlt := i.toUInt64.toNat_lt
  rw [Int64.toNat_toBitVec] at hcond
  rw [show i.toInt = i.toBitVec.toInt from rfl, hcond]
  split_ifs <;> omega

theorem toNat_toUInt32 (i : Int32) : (i.toUInt32.toNat : ℤ) = i.toInt % 2 ^ 32 := by
  have hcond := BitVec.toInt_eq_toNat_cond i.toBitVec
  have hlt := i.toUInt32.toNat_lt
  rw [Int32.toNat_toBitVec] at hcond
  rw [show i.toInt = i.toBitVec.toInt from rfl, hcond]
  split_ifs <;> omega

theorem denotes_fastInt64 (i : Int64) : Denotes true (text (fastInt64ToBufferLeft i)) i.toInt := by
  have hunsigned := toNat_toUInt64 i
  have hlow := i.le_toInt
  have hhigh := i.toInt_lt
  rw [fastInt64ToBufferLeft]
  by_cases hnegative : i < 0
  · have hneg : i.toInt < 0 := Int64.lt_iff_toInt_lt.mp hnegative
    have hmodulus : ((0 - i.toUInt64).toNat : ℤ) = -i.toInt := by
      rw [UInt64.toNat_sub]
      simp only [UInt64.toNat_zero]
      omega
    have hprinted := denotes_afterMinus (0 - i.toUInt64).toNat
    rw [if_pos hnegative]
    rwa [hmodulus, neg_neg] at hprinted
  · have hnonneg : 0 ≤ i.toInt := not_lt.mp fun hneg =>
      hnegative (Int64.lt_iff_toInt_lt.mpr hneg)
    have hprinted := denotes_fastUInt true i.toUInt64.toNat
    rw [if_neg hnegative]
    rwa [hunsigned, Int.emod_eq_of_lt hnonneg (by omega)] at hprinted

theorem denotes_fastInt32 (i : Int32) : Denotes true (text (fastInt32ToBufferLeft i)) i.toInt := by
  have hunsigned := toNat_toUInt32 i
  have hlow := i.le_toInt
  have hhigh := i.toInt_lt
  rw [fastInt32ToBufferLeft]
  by_cases hnegative : i < 0
  · have hneg : i.toInt < 0 := Int32.lt_iff_toInt_lt.mp hnegative
    have hmodulus : ((0 - i.toUInt32).toNat : ℤ) = -i.toInt := by
      rw [UInt32.toNat_sub]
      simp only [UInt32.toNat_zero]
      omega
    have hprinted := denotes_afterMinus (0 - i.toUInt32).toNat
    rw [if_pos hnegative]
    rwa [hmodulus, neg_neg] at hprinted
  · have hnonneg : 0 ≤ i.toInt := not_lt.mp fun hneg =>
      hnegative (Int32.lt_iff_toInt_lt.mpr hneg)
    have hprinted := denotes_fastUInt true i.toUInt32.toNat
    rw [if_neg hnegative]
    rwa [hunsigned, Int.emod_eq_of_lt hnonneg (by omega)] at hprinted

theorem denotes_printed (type : IntType) {n : ℤ} (hn : type.Contains n) :
    Denotes type.signed (text (type.fastToBufferLeft n)) n := by
  cases type with
  | uint64 =>
      obtain ⟨hlow, hhigh⟩ := hn
      have hnat : (UInt64.ofNat n.toNat).toNat = n.toNat :=
        UInt64.toNat_ofNat_of_lt' (by rw [UInt64.size]; omega)
      have hprinted := denotes_fastUInt false n.toNat
      rwa [Int.toNat_of_nonneg hlow, ← hnat] at hprinted
  | uint32 =>
      obtain ⟨hlow, hhigh⟩ := hn
      have hnat : (UInt32.ofNat n.toNat).toNat = n.toNat :=
        UInt32.toNat_ofNat_of_lt' (by rw [UInt32.size]; omega)
      have hprinted := denotes_fastUInt false n.toNat
      rwa [Int.toNat_of_nonneg hlow, ← hnat] at hprinted
  | int64 =>
      have hprinted := denotes_fastInt64 (Int64.ofInt n)
      rwa [Int64.toInt_ofInt_of_le hn.1 hn.2] at hprinted
  | int32 =>
      have hprinted := denotes_fastInt32 (Int32.ofInt n)
      rwa [Int32.toInt_ofInt_of_le hn.1 hn.2] at hprinted

/-- A text that denotes an integer of the type is parsed to it. -/
theorem ParsesTo.eq_of_accepted {accepted : ℤ → Prop} {value n : ℤ} {outcome : Option (Bool × ℤ)}
    (hparses : ParsesTo accepted value outcome) (hn : accepted n) : outcome = some (true, n) := by
  rcases hparses with ⟨n', -, hunique, houtcome⟩ | ⟨hnone, -⟩
  · rw [houtcome, hunique n hn]
  · exact absurd hn (hnone n)

theorem safeStrto_spec (type : IntType) (str : List UInt8) (value : ℤ) :
    ParsesTo (type.Accepts str) value (type.safeStrto str value) :=
  match type with
  | .int64 => safeStrto64_spec str value
  | .uint64 => safeStrtou64_spec str value
  | .int32 => safeStrto32_spec str value
  | .uint32 => safeStrtou32_spec str value

/-- Whatever is printed of the type is read again. -/
def ReadsPrinted (type : IntType) : Prop :=
  ∀ n, type.Contains n → ∀ value,
    type.safeStrto (text (type.fastToBufferLeft n)) value = some (true, n)

/-- **Integers as text.** A text is accepted exactly if it denotes an integer of the type, which is
then stored; no operation overflows. All integers of the type are read from what is printed. -/
theorem integers_are_parsed (type : IntType) :
    (∀ str value, ParsesTo (type.Accepts str) value (type.safeStrto str value)) ∧
      ReadsPrinted type :=
  ⟨safeStrto_spec type, fun _ hn value =>
    (safeStrto_spec type _ value).eq_of_accepted ⟨denotes_printed type hn, hn⟩⟩

end ContainerScheduler.Analysis
