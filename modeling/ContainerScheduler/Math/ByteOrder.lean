/-
# Lists that differ, and numbers as bytes

Two lists *diverge* when one has a smaller element at the first place where they
differ. What follows that place changes nothing, so divergence is kept by putting
anything after either list, and it decides the lexicographic order. An encoding under
which smaller values diverge from larger ones can be followed by further encodings
without losing the order.

Numbers of a fixed width, written with the most significant byte first, diverge in
the order of the numbers.
-/

import Mathlib.Data.List.Lex
import Mathlib.Data.Nat.Bitwise
import Mathlib.Tactic.Ring

namespace ContainerScheduler.Math

universe u v w

/-! ## Divergence -/

section Diverges

variable {α : Type u} [LT α]

/-- The first list has the smaller element at the first place where the two differ. -/
def Diverges (xs ys : List α) : Prop :=
  ∃ (common : List α) (a b : α) (xs' ys' : List α),
    xs = common ++ a :: xs' ∧ ys = common ++ b :: ys' ∧ a < b

namespace Diverges

variable {xs ys : List α}

theorem of_lt {a b : α} (hlt : a < b) (xs ys : List α) : Diverges (a :: xs) (b :: ys) :=
  ⟨[], a, b, xs, ys, rfl, rfl, hlt⟩

/-- What follows does not matter. -/
theorem append (hdiverges : Diverges xs ys) (xs' ys' : List α) :
    Diverges (xs ++ xs') (ys ++ ys') := by
  obtain ⟨common, a, b, rest, rest', rfl, rfl, hlt⟩ := hdiverges
  exact ⟨common, a, b, rest ++ xs', rest' ++ ys', by simp, by simp, hlt⟩

/-- What comes before both does not matter. -/
theorem append_left (hdiverges : Diverges xs ys) (front : List α) :
    Diverges (front ++ xs) (front ++ ys) := by
  obtain ⟨common, a, b, rest, rest', rfl, rfl, hlt⟩ := hdiverges
  exact ⟨front ++ common, a, b, rest, rest', by simp, by simp, hlt⟩

theorem cons (a : α) (hdiverges : Diverges xs ys) : Diverges (a :: xs) (a :: ys) :=
  hdiverges.append_left [a]

end Diverges

end Diverges

namespace Diverges

variable {α : Type u} [LT α] {xs ys : List α}

/-- Lists that diverge are ordered lexicographically. -/
theorem lt (hdiverges : Diverges xs ys) : xs < ys := by
  obtain ⟨common, a, b, rest, rest', rfl, rfl, hlt⟩ := hdiverges
  induction common with
  | nil => exact List.Lex.rel hlt
  | cons c common ih => exact List.Lex.cons ih

/-- Neither of two lists that diverge is a prefix of the other. -/
theorem not_extends [Std.Irrefl (· < · : α → α → Prop)] (hdiverges : Diverges xs ys) :
    ¬ xs <+: ys ∧ ¬ ys <+: xs := by
  obtain ⟨common, a, b, rest, rest', rfl, rfl, hlt⟩ := hdiverges
  have hne : a ≠ b := fun heq => Std.Irrefl.irrefl (r := (· < ·)) b (heq ▸ hlt)
  simp only [List.prefix_append_right_inj, List.cons_prefix_cons, hne, hne.symm, false_and,
    not_false_eq_true, and_self]

end Diverges

/-! ## Sequences of encoded items -/

section Sequences

variable {ι : Type u} {κ : Type v} {α : Type w} [LT α] {kind : ι → κ}
  {Less : ι → ι → Prop} {write : ι → List α} {xs ys : List ι}

/-- Sequences of items of the same kinds diverge when their first different items do. -/
theorem diverges_flatMap (hwrite : ∀ x y, Less x y → Diverges (write x) (write y))
    (hkinds : xs.map kind = ys.map kind) (hless : List.Lex Less xs ys) :
    Diverges (xs.flatMap write) (ys.flatMap write) := by
  induction hless with
  | nil => cases hkinds
  | @cons x xs ys _ ih =>
      rw [List.flatMap_cons, List.flatMap_cons]
      exact (ih (List.cons.inj hkinds).2).append_left (write x)
  | @rel x xs y ys hless =>
      rw [List.flatMap_cons, List.flatMap_cons]
      exact (hwrite x y hless).append _ _

/-- Two different sequences of the same kinds are ordered one way or the other. -/
theorem lex_or_eq_or_lex (htotal : ∀ x y, kind x = kind y → Less x y ∨ x = y ∨ Less y x)
    (hkinds : xs.map kind = ys.map kind) :
    List.Lex Less xs ys ∨ xs = ys ∨ List.Lex Less ys xs := by
  induction xs generalizing ys with
  | nil =>
      cases ys with
      | nil => exact .inr (.inl rfl)
      | cons => cases hkinds
  | cons x xs ih =>
      cases ys with
      | nil => cases hkinds
      | cons y ys =>
          obtain ⟨hkind, hrest⟩ := List.cons.inj hkinds
          obtain hless | rfl | hless := htotal x y hkind
          · exact .inl (.rel hless)
          · exact (ih hrest).imp .cons (Or.imp (congrArg _) .cons)
          · exact .inr (.inr (.rel hless))

/-- **Order of sequences.** The encodings of sequences of the same kinds compare as the
sequences do, and none is a prefix of another one. -/
theorem order_flatMap [Std.Asymm (· < · : α → α → Prop)]
    (hwrite : ∀ x y, Less x y → Diverges (write x) (write y))
    (htotal : ∀ x y, kind x = kind y → Less x y ∨ x = y ∨ Less y x)
    (hkinds : xs.map kind = ys.map kind) :
    (xs.flatMap write < ys.flatMap write ↔ List.Lex Less xs ys) ∧
      (xs.flatMap write <+: ys.flatMap write → xs = ys) := by
  have hforth := diverges_flatMap hwrite hkinds
  have hback := diverges_flatMap hwrite hkinds.symm
  refine ⟨⟨fun hlt => ?_, fun hless => (hforth hless).lt⟩, fun hinitial => ?_⟩
  · obtain hless | rfl | hless := lex_or_eq_or_lex htotal hkinds
    · exact hless
    · exact absurd hlt (List.lt_irrefl _)
    · exact absurd hlt (List.lt_asymm (hback hless).lt)
  · obtain hless | rfl | hless := lex_or_eq_or_lex htotal hkinds
    · exact absurd hinitial (hforth hless).not_extends.1
    · rfl
    · exact absurd hinitial (hback hless).not_extends.2

end Sequences

/-! ## Numbers with the most significant byte first -/

/-- The last `width` bytes of a number. -/
def bigEndian : ℕ → ℕ → List UInt8
  | 0, _ => []
  | width + 1, value => bigEndian width (value / 256) ++ [UInt8.ofNat value]

/-- The number that bytes stand for. -/
def ofBigEndian (bytes : List UInt8) : ℕ :=
  bytes.foldl (fun value byte => value * 256 + byte.toNat) 0

theorem ofNat_mod (value : ℕ) : UInt8.ofNat (value % 256) = UInt8.ofNat value := by
  rw [← UInt8.toNat_inj, UInt8.toNat_ofNat', UInt8.toNat_ofNat']
  exact Nat.mod_mod value 256

@[simp]
theorem length_bigEndian (width value : ℕ) : (bigEndian width value).length = width := by
  induction width generalizing value with
  | zero => rfl
  | succ width ih => rw [bigEndian, List.length_append, ih, List.length_singleton]

/-- Higher bytes come first. -/
theorem bigEndian_add (front back value : ℕ) :
    bigEndian (front + back) value =
      bigEndian front (value / 256 ^ back) ++ bigEndian back value := by
  induction back generalizing value with
  | zero => simp [bigEndian]
  | succ back ih =>
      rw [← add_assoc, bigEndian, ih, bigEndian, List.append_assoc, Nat.div_div_eq_div_mul,
        ← pow_succ']

theorem drop_bigEndian (front back value : ℕ) :
    (bigEndian (front + back) value).drop front = bigEndian back value := by
  rw [bigEndian_add, List.drop_left' (length_bigEndian front _)]

/-- The bytes one by one. -/
theorem getD_bigEndian {width i : ℕ} (hi : i < width) (value : ℕ) (rest : List UInt8)
    (default : UInt8) :
    (bigEndian width value ++ rest).getD i default =
      UInt8.ofNat (value / 256 ^ (width - 1 - i)) := by
  induction width generalizing value rest with
  | zero => exact absurd hi (Nat.not_lt_zero i)
  | succ width ih =>
      rw [bigEndian, List.append_assoc]
      obtain hlt | rfl := Nat.lt_succ_iff_lt_or_eq.mp hi
      · rw [ih hlt, Nat.div_div_eq_div_mul, ← pow_succ']
        congr 3
        omega
      · rw [List.getD_append_right _ _ _ _ (by simp)]
        simp

/-- Only the last bytes of the number count. -/
theorem bigEndian_mod (width value : ℕ) :
    bigEndian width (value % 256 ^ width) = bigEndian width value := by
  induction width generalizing value with
  | zero => rfl
  | succ width ih =>
      have hlow : UInt8.ofNat (value % 256 ^ (width + 1)) = UInt8.ofNat value := by
        rw [← UInt8.toNat_inj, UInt8.toNat_ofNat', UInt8.toNat_ofNat', pow_succ']
        exact Nat.mod_mul_right_mod value 256 _
      rw [bigEndian, bigEndian, hlow, pow_succ', Nat.mod_mul_right_div_self, ih]

theorem ofBigEndian_append (front back : List UInt8) :
    ofBigEndian (front ++ back) = ofBigEndian front * 256 ^ back.length + ofBigEndian back := by
  rw [ofBigEndian, List.foldl_append, ← ofBigEndian]
  have hfold : ∀ (bytes : List UInt8) (start : ℕ),
      bytes.foldl (fun value byte => value * 256 + byte.toNat) start =
        start * 256 ^ bytes.length + ofBigEndian bytes := by
    intro bytes
    induction bytes with
    | nil => simp [ofBigEndian]
    | cons byte bytes ih =>
        intro start
        have hbyte : ofBigEndian (byte :: bytes) =
            (0 * 256 + byte.toNat) * 256 ^ bytes.length + ofBigEndian bytes :=
          ih _
        rw [List.foldl_cons, ih, hbyte, List.length_cons]
        ring
  exact hfold back _

theorem ofBigEndian_bigEndian (width value : ℕ) :
    ofBigEndian (bigEndian width value) = value % 256 ^ width := by
  induction width generalizing value with
  | zero => simp [bigEndian, ofBigEndian, Nat.mod_one]
  | succ width ih =>
      rw [bigEndian, ofBigEndian_append, ih, pow_succ', Nat.mod_mul]
      simp [ofBigEndian]
      ring

/-- **Numbers of one width** diverge in their order. -/
theorem diverges_bigEndian {width a b : ℕ} (hb : b < 256 ^ width) (hlt : a < b) :
    Diverges (bigEndian width a) (bigEndian width b) := by
  induction width generalizing a b with
  | zero =>
      rw [pow_zero] at hb
      omega
  | succ width ih =>
      rw [pow_succ'] at hb
      by_cases hhigh : a / 256 < b / 256
      · exact (ih (by omega) hhigh).append _ _
      · have hsame : a / 256 = b / 256 := by omega
        rw [bigEndian, bigEndian, hsame]
        refine (Diverges.of_lt ?_ [] []).append_left _
        rw [UInt8.lt_iff_toNat_lt, UInt8.toNat_ofNat', UInt8.toNat_ofNat']
        omega

/-- A number of fewer bytes, compared with the first bytes of a number of more. -/
theorem diverges_bigEndian_of_shorter {short rest a b : ℕ} (hb : b < 256 ^ (short + rest))
    (hlt : (a + 1) * 256 ^ rest ≤ b) :
    Diverges (bigEndian short a) (bigEndian (short + rest) b) := by
  have hpos : 0 < 256 ^ rest := Nat.pow_pos (by decide)
  have hfirst : a < b / 256 ^ rest := (Nat.le_div_iff_mul_le hpos).mpr hlt
  have hwidth : b / 256 ^ rest < 256 ^ short := by
    rw [Nat.div_lt_iff_lt_mul hpos, ← pow_add]
    exact hb
  rw [bigEndian_add]
  simpa using (diverges_bigEndian hwidth hfirst).append [] (bigEndian rest b)

/-- The first bytes of a number of more bytes, compared with a number of fewer. -/
theorem diverges_bigEndian_of_longer {short rest a b : ℕ} (hb : b < 256 ^ short)
    (hlt : a < b * 256 ^ rest) :
    Diverges (bigEndian (short + rest) a) (bigEndian short b) := by
  have hfirst : a / 256 ^ rest < b := by
    rw [Nat.div_lt_iff_lt_mul (Nat.pow_pos (by decide))]
    exact hlt
  rw [bigEndian_add]
  simpa using (diverges_bigEndian hb hfirst).append (bigEndian rest a) []

/-- Bytes are combined with exclusive or one by one. -/
theorem bigEndian_xor (width a b : ℕ) :
    bigEndian width (a ^^^ b) = List.zipWith (· ^^^ ·) (bigEndian width a) (bigEndian width b) := by
  induction width generalizing a b with
  | zero => rfl
  | succ width ih =>
      have hdiv : (a ^^^ b) / 256 = a / 256 ^^^ b / 256 := Nat.xor_div_two_pow (n := 8)
      rw [bigEndian, bigEndian, bigEndian, List.zipWith_append (by simp), ← ih, hdiv,
        UInt8.ofNat_xor]
      rfl

end ContainerScheduler.Math
