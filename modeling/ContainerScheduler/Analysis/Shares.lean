/-
# The shares of the policies

A request asks for inter and intra threads, and every policy answers with one
inter thread and some intra threads, or not at all. The answer never exceeds the
cores it was given: a rounded quotient may be one too large, but then the inter
part is at least two and is cut to one.

The threads that the cut takes off the inter part should go to the intra part.
The source overwrites the inter part before it adds it, so exactly one thread
moves, and the total is kept for at most two inter threads only.
-/

import ContainerScheduler.Host.Policy

namespace ContainerScheduler.Analysis

open Host

/-! ## Rounding -/

section Rounding

variable {value : ℚ} {k : ℤ}

/-- A rounded number is at most one half away. -/
theorem pyRound_near (value : ℚ) :
    (pyRound value : ℚ) - 1 / 2 ≤ value ∧ value ≤ (pyRound value : ℚ) + 1 / 2 := by
  have hlow := Int.floor_le value
  have hhigh := Int.lt_floor_add_one value
  unfold pyRound
  split_ifs <;> push_cast <;> constructor <;> linarith

theorem pyRound_even_of_tie
    (htie : value = pyRound value + 1 / 2 ∨ value = pyRound value - 1 / 2) :
    pyRound value % 2 = 0 := by
  unfold pyRound at htie ⊢
  split_ifs at htie ⊢ with hbelow habove heven
  · rcases htie with htie | htie <;> linarith [Int.floor_le value]
  · push_cast at htie
    rcases htie with htie | htie <;> linarith [Int.lt_floor_add_one value]
  · exact heven
  · omega

/-- Which integers a rounded number reaches: a number on the half below an
integer reaches it when the integer is even. -/
theorem le_pyRound_iff :
    k ≤ pyRound value ↔ (k : ℚ) - 1 / 2 < value ∨ (k : ℚ) - 1 / 2 = value ∧ k % 2 = 0 := by
  rcases pyRound_near value with ⟨hlow, hhigh⟩
  constructor
  · intro hle
    have hcast : (k : ℚ) ≤ pyRound value := by exact_mod_cast hle
    rcases lt_or_eq_of_le (show (k : ℚ) - 1 / 2 ≤ value by linarith) with hlt | heq
    · exact .inl hlt
    · have hround : k = pyRound value := by
        have hsame : (k : ℚ) = pyRound value := by linarith
        exact_mod_cast hsame
      refine .inr ⟨heq, ?_⟩
      rw [hround]
      exact pyRound_even_of_tie (.inr (by rw [← hround, heq]))
  · intro hreach
    by_contra hnot
    have hcast : (pyRound value : ℚ) + 1 ≤ k := by exact_mod_cast not_le.mp hnot
    rcases hreach with hlt | ⟨heq, heven⟩
    · linarith
    · have hnext : (pyRound value : ℚ) + 1 = k := by linarith
      have hround : pyRound value + 1 = k := by exact_mod_cast hnext
      have htie : pyRound value % 2 = 0 := pyRound_even_of_tie (.inl (by linarith))
      omega

theorem le_pyRound_share {part total available : ℤ} (htotal : 0 < total) :
    k ≤ pyRound ((part / total : ℚ) * available) ↔
      (2 * k - 1) * total < 2 * (part * available) ∨
        (2 * k - 1) * total = 2 * (part * available) ∧ k % 2 = 0 := by
  have hpos : (0 : ℚ) < total := by exact_mod_cast htotal
  have hshare : ((part / total : ℚ) * available) = ((part * available : ℤ) : ℚ) / total := by
    push_cast
    ring
  have hhalf : (k : ℚ) - 1 / 2 = ((2 * k - 1 : ℤ) : ℚ) / 2 := by
    push_cast
    ring
  rw [le_pyRound_iff, hshare, hhalf, div_lt_div_iff₀ (by norm_num) hpos,
    div_eq_div_iff (by norm_num) hpos.ne']
  have hlt : ((2 * k - 1 : ℤ) : ℚ) * total < ((part * available : ℤ) : ℚ) * 2 ↔
      (2 * k - 1) * total < 2 * (part * available) := by
    rw [mul_comm 2 (part * available)]
    exact_mod_cast Iff.rfl
  have heq : ((2 * k - 1 : ℤ) : ℚ) * total = ((part * available : ℤ) : ℚ) * 2 ↔
      (2 * k - 1) * total = 2 * (part * available) := by
    rw [mul_comm 2 (part * available)]
    exact_mod_cast Iff.rfl
  rw [hlt, heq]

end Rounding

/-! ## A request cut down to the available cores -/

section Cut

variable {resourcesAvailables inter intra : ℤ}

/-- The intra part of a request for both kinds of threads that is cut down: its
rounded share, less the thread that a vanishing inter part is given, and at least
one thread. -/
def cutIntra (resourcesAvailables inter intra : ℤ) : ℤ :=
  let interP := pyRound ((inter / (inter + intra) : ℚ) * resourcesAvailables)
  let intraP := pyRound ((intra / (inter + intra) : ℚ) * resourcesAvailables)
  if interP = 0 then intraP - 1 else max 1 intraP

/-- When the cut hands out every available core. -/
def HandsOutAll (resourcesAvailables inter intra : ℤ) : Prop :=
  resourcesAvailables = 2 ∨
    2 * (inter * resourcesAvailables) < 3 * (inter + intra) ∧
      ¬(2 * (inter * resourcesAvailables) = inter + intra ∧ resourcesAvailables % 2 = 1) ∨
    2 * (inter * resourcesAvailables) = 3 * (inter + intra) ∧ resourcesAvailables % 2 = 1

section

variable (havailable : 2 ≤ resourcesAvailables) (hinter : 1 ≤ inter) (hintra : 1 ≤ intra)

include havailable hinter hintra

/-- What decides the rounded inter part of a cut: a vanishing part, and one of at
least two threads. -/
theorem roundedInter : let interP := pyRound ((inter / (inter + intra) : ℚ) * resourcesAvailables)
    0 ≤ interP ∧ (interP = 0 ↔ 2 * (inter * resourcesAvailables) ≤ inter + intra) ∧
      (2 ≤ interP ↔ 3 * (inter + intra) ≤ 2 * (inter * resourcesAvailables)) := by
  have htotal : 0 < inter + intra := by omega
  have hpositive : 0 < inter * resourcesAvailables := Int.mul_pos (by omega) (by omega)
  have hreach (k : ℤ) := @le_pyRound_share k inter _ resourcesAvailables htotal
  have hnone := hreach 0
  have hone := hreach 1
  have htwo := hreach 2
  simp only [Int.cast_add] at hnone hone htwo
  intro interP
  have hnonneg : 0 ≤ interP := hnone.mpr (.inl (by omega))
  have hpos : 1 ≤ interP ↔ inter + intra < 2 * (inter * resourcesAvailables) :=
    hone.trans (by omega)
  refine ⟨hnonneg, ?_, htwo.trans (by omega)⟩
  rw [show interP = 0 ↔ ¬1 ≤ interP by omega, hpos, not_lt]

/-- What decides the rounded intra part of a cut: a vanishing part, all cores but
one, and all cores. -/
theorem roundedIntra : let intraP := pyRound ((intra / (inter + intra) : ℚ) * resourcesAvailables)
    0 ≤ intraP ∧ intraP ≤ resourcesAvailables ∧
      (intraP = 0 → 3 * (inter + intra) ≤ 2 * (inter * resourcesAvailables)) ∧
      (resourcesAvailables - 1 ≤ intraP ↔ 2 * (inter * resourcesAvailables) < 3 * (inter + intra) ∨
        2 * (inter * resourcesAvailables) = 3 * (inter + intra) ∧ resourcesAvailables % 2 = 1) ∧
      (resourcesAvailables ≤ intraP ↔ 2 * (inter * resourcesAvailables) < inter + intra ∨
        2 * (inter * resourcesAvailables) = inter + intra ∧ resourcesAvailables % 2 = 0) := by
  have htotal : 0 < inter + intra := by omega
  have hinterPos : 0 < inter * resourcesAvailables := Int.mul_pos (by omega) (by omega)
  have hintraPos : 0 < intra * resourcesAvailables := Int.mul_pos (by omega) (by omega)
  have hdouble : 2 * (inter + intra) ≤ resourcesAvailables * (inter + intra) :=
    Int.mul_le_mul_of_nonneg_right havailable htotal.le
  have hparts : inter * resourcesAvailables + intra * resourcesAvailables =
      resourcesAvailables * (inter + intra) := by ring
  have hreach (k : ℤ) := @le_pyRound_share k intra _ resourcesAvailables htotal
  have hnone := hreach 0
  have hone := hreach 1
  have hlast := hreach (resourcesAvailables - 1)
  have hall := hreach resourcesAvailables
  have hbeyond := hreach (resourcesAvailables + 1)
  rw [show (2 * (resourcesAvailables - 1) - 1) * (inter + intra) =
    2 * (resourcesAvailables * (inter + intra)) - 3 * (inter + intra) by ring] at hlast
  rw [show (2 * resourcesAvailables - 1) * (inter + intra) =
    2 * (resourcesAvailables * (inter + intra)) - (inter + intra) by ring] at hall
  rw [show (2 * (resourcesAvailables + 1) - 1) * (inter + intra) =
    2 * (resourcesAvailables * (inter + intra)) + (inter + intra) by ring] at hbeyond
  simp only [Int.cast_add] at hnone hone hlast hall hbeyond
  intro intraP
  have hnonneg : 0 ≤ intraP := hnone.mpr (.inl (by omega))
  have hle : ¬resourcesAvailables + 1 ≤ intraP := fun hreached => by
    rcases hbeyond.mp hreached with hlt | ⟨heq, -⟩ <;> omega
  refine ⟨hnonneg, by omega, ?_, hlast.trans (by omega), hall.trans (by omega)⟩
  intro hzero
  have hnot : ¬1 ≤ intraP := by omega
  rw [show 1 ≤ intraP ↔ _ from hone] at hnot
  omega

/-- The cut gives one inter thread and at least one intra thread, and no more
than there is. -/
theorem fractionParallelism_of_pos :
    fractionParallelism resourcesAvailables inter intra =
        (1, cutIntra resourcesAvailables inter intra) ∧
      1 ≤ cutIntra resourcesAvailables inter intra ∧
      1 + cutIntra resourcesAvailables inter intra ≤ resourcesAvailables ∧
      (1 + cutIntra resourcesAvailables inter intra = resourcesAvailables ↔
        HandsOutAll resourcesAvailables inter intra) := by
  have hboth : 0 < inter ∧ 0 < intra := ⟨hinter, hintra⟩
  have hinterP := roundedInter havailable hinter hintra
  have hintraP := roundedIntra havailable hinter hintra
  simp only [fractionParallelism, cutIntra, HandsOutAll, hboth, and_self, if_true]
  generalize pyRound ((inter / (inter + intra) : ℚ) * resourcesAvailables) = interP at *
  generalize pyRound ((intra / (inter + intra) : ℚ) * resourcesAvailables) = intraP at *
  obtain ⟨hinterNonneg, hzeroIff, htwoIff⟩ := hinterP
  obtain ⟨hintraNonneg, hle, hlost, hlastIff, hallIff⟩ := hintraP
  by_cases hzero : interP = 0
  · -- the inter part vanishes and takes its thread from the intra part
    have hsmall := hzeroIff.mp hzero
    have hmost : resourcesAvailables - 1 ≤ intraP := hlastIff.mpr (.inl (by omega))
    have htwo : resourcesAvailables = 2 → resourcesAvailables ≤ intraP := fun heq =>
      hallIff.mpr (by omega)
    have hrest : intraP - 1 ≠ 0 := by omega
    simp only [hzero, if_true, zero_add, hrest, if_false, lt_irrefl, true_and]
    clear hzeroIff htwoIff hlastIff
    refine ⟨by omega, by omega, ?_⟩
    rw [show 1 + (intraP - 1) = resourcesAvailables ↔ resourcesAvailables ≤ intraP by omega]
    omega
  · have hlarge : ¬2 * (inter * resourcesAvailables) ≤ inter + intra := fun hsmall =>
      hzero (hzeroIff.mpr hsmall)
    have hless : ¬resourcesAvailables ≤ intraP := fun hall => by
      rcases hallIff.mp hall with hlt | ⟨heq, -⟩ <;> omega
    simp only [hzero, if_false]
    clear hallIff hzeroIff
    by_cases hvanished : intraP = 0
    · -- the intra part vanishes and takes its thread from the inter part
      have hmany := htwoIff.mpr (hlost hvanished)
      have hmax : max (1 : ℤ) 0 = 1 := rfl
      simp only [hvanished, if_true, zero_add, hmax]
      clear htwoIff hlost
      split_ifs <;> simp only [Prod.mk.injEq, true_and, and_true] <;> omega
    · have hmax : max 1 intraP = intraP := max_eq_right (by omega)
      have hpair : (if 1 < interP then (1, intraP + (1 - 1)) else (interP, intraP)) =
          (1, intraP) := by
        split
        · simp
        · rw [show interP = 1 by omega]
      simp only [hvanished, if_false, hmax, hpair, true_and]
      clear htwoIff hlost hpair
      refine ⟨by omega, by omega, ?_⟩
      rw [show 1 + intraP = resourcesAvailables ↔ resourcesAvailables - 1 ≤ intraP by omega,
        hlastIff]
      omega

end

end Cut

/-! ## The shares of each policy -/

section Policies

variable {factorProp : ℚ} {maxResourcesPerCont resourcesAvailables inter intra : ℤ}

/-- The intra part under `max_prop`: the request over the factor, within the
maximum for one container, not zero, and within the available cores. -/
def propIntra (factorProp : ℚ) (maxResourcesPerCont resourcesAvailables intra : ℤ) : ℤ :=
  let intraP := min maxResourcesPerCont (pyInt (intra / factorProp))
  min (resourcesAvailables - 1) (if intraP = 0 then 1 else intraP)

theorem maxPropParallelism_of_lt (havailable : 2 < resourcesAvailables) :
    maxPropParallelism factorProp maxResourcesPerCont resourcesAvailables intra =
      some (1, propIntra factorProp maxResourcesPerCont resourcesAvailables intra) := by
  have hclamp : ∀ quotient : ℤ, (if maxResourcesPerCont ≤ quotient then maxResourcesPerCont
      else quotient) = min maxResourcesPerCont quotient := fun quotient => by
    split <;> omega
  have hfit : ∀ intraP : ℤ, (if resourcesAvailables - 1 < intraP then resourcesAvailables - 1
      else intraP) = min (resourcesAvailables - 1) intraP := fun intraP => by
    split <;> omega
  simp only [maxPropParallelism, havailable, if_true, hclamp, hfit]
  -- the share fits already, so the final loop takes nothing off
  have hloop : (1 + propIntra factorProp maxResourcesPerCont resourcesAvailables intra -
      resourcesAvailables).toNat = 0 := by
    simp only [propIntra]
    omega
  exact congrArg (fun rounds => some ((1 : ℤ), (fun threads => threads - 1)^[rounds]
    (propIntra factorProp maxResourcesPerCont resourcesAvailables intra))) hloop

theorem maxPropParallelism_of_le (havailable : resourcesAvailables ≤ 2) :
    maxPropParallelism factorProp maxResourcesPerCont resourcesAvailables intra =
      if resourcesAvailables = 2 then some (1, 1) else none := by
  rw [maxPropParallelism, if_neg (by omega)]

theorem propIntra_le : 1 + propIntra factorProp maxResourcesPerCont resourcesAvailables intra ≤
    resourcesAvailables := by
  simp only [propIntra]
  omega

theorem one_le_propIntra (hfactor : 0 < factorProp) (hmax : 1 ≤ maxResourcesPerCont)
    (havailable : 2 < resourcesAvailables) (hintra : 0 ≤ intra) :
    1 ≤ propIntra factorProp maxResourcesPerCont resourcesAvailables intra := by
  have hquotient : 0 ≤ pyInt (intra / factorProp) := by
    have hnonneg : 0 ≤ (intra : ℚ) / factorProp := by positivity
    rw [pyInt, if_pos hnonneg]
    exact Int.floor_nonneg.mpr hnonneg
  simp only [propIntra]
  split <;> omega

/-- **No policy grants more than there is.** A share is one inter thread and at
least one intra thread within the available cores, and only `strict` refuses
when there is a core for each. -/
theorem shares_within_available (reassigmentType : ReassigmentType) (hfactor : 0 < factorProp)
    (hmax : 1 ≤ maxResourcesPerCont) (hinter : 1 ≤ inter) (hintra : 1 ≤ intra) :
    (∀ share, scheduleParallelism reassigmentType factorProp maxResourcesPerCont
        resourcesAvailables inter intra = some share →
      share.1 = 1 ∧ 1 ≤ share.2 ∧ share.1 + share.2 ≤ resourcesAvailables) ∧
      (reassigmentType ≠ .strict → ((scheduleParallelism reassigmentType factorProp
        maxResourcesPerCont resourcesAvailables inter intra).isSome ↔
          2 ≤ resourcesAvailables)) := by
  have hcollapse : inter + intra ≤ resourcesAvailables → (collapseInter inter intra).1 = 1 ∧
      1 ≤ (collapseInter inter intra).2 ∧
      (collapseInter inter intra).1 + (collapseInter inter intra).2 ≤ resourcesAvailables := by
    intro hfits
    unfold collapseInter
    split <;> refine ⟨?_, ?_, ?_⟩ <;> simp only <;> omega
  cases reassigmentType with
  | strict =>
      refine ⟨?_, fun hstrict => absurd rfl hstrict⟩
      intro share hshare
      rw [scheduleParallelism, strictParallelism, if_pos (by omega)] at hshare
      split at hshare
      next hfits =>
          obtain rfl := Option.some.inj hshare
          exact hcollapse hfits
      next => cases hshare
  | maxProp =>
      rw [scheduleParallelism]
      rcases lt_or_ge 2 resourcesAvailables with hmany | hfew
      · rw [maxPropParallelism_of_lt hmany]
        constructor
        · intro share hshare
          obtain rfl := Option.some.inj hshare
          exact ⟨rfl, one_le_propIntra hfactor hmax hmany (by omega), propIntra_le⟩
        · exact fun _ => ⟨fun _ => hmany.le, fun _ => rfl⟩
      · rw [maxPropParallelism_of_le hfew]
        split
        next htwo =>
            constructor
            · intro share hshare
              obtain rfl := Option.some.inj hshare
              exact ⟨rfl, le_rfl, htwo.ge⟩
            · exact fun _ => ⟨fun _ => htwo.ge, fun _ => rfl⟩
        next hless =>
            refine ⟨nofun, fun _ => ⟨nofun, ?_⟩⟩
            intro hle
            exact absurd (le_antisymm hfew hle) hless
  | alwaysAttend =>
      rw [scheduleParallelism, alwaysAttendParallelism]
      by_cases hmany : 2 ≤ resourcesAvailables
      · rw [if_pos hmany]
        constructor
        · intro share hshare
          split at hshare
          next hfits =>
              obtain rfl := Option.some.inj hshare
              exact hcollapse hfits
          next hcut =>
              obtain rfl := Option.some.inj hshare
              rcases fractionParallelism_of_pos hmany hinter hintra with ⟨hcut, hone, hle, -⟩
              rw [hcut]
              exact ⟨rfl, hone, hle⟩
        · intro _
          split <;> exact ⟨fun _ => hmany, fun _ => rfl⟩
      · rw [if_neg hmany]
        exact ⟨nofun, fun _ => ⟨nofun, fun hle => absurd hle hmany⟩⟩

/-- A request for one inter and five intra threads is cut down to three cores. -/
theorem shares_within_three :
    (∀ share, scheduleParallelism .alwaysAttend 1 16 3 1 5 = some share →
      share.1 = 1 ∧ 1 ≤ share.2 ∧ share.1 + share.2 ≤ 3) ∧
      (ReassigmentType.alwaysAttend ≠ .strict →
        ((scheduleParallelism .alwaysAttend 1 16 3 1 5).isSome ↔ (2 : ℤ) ≤ 3)) :=
  shares_within_available .alwaysAttend one_pos (by decide) (by decide) (by decide)

/-! ## Collapsed inter threads -/

/-- The inter threads beyond the first are moved to the intra part: the share has
as many threads as the request, or as there are cores. -/
def ThreadsMoved (reassigmentType : ReassigmentType) (factorProp : ℚ)
    (maxResourcesPerCont resourcesAvailables inter intra : ℤ) : Prop :=
  ∀ share, scheduleParallelism reassigmentType factorProp maxResourcesPerCont
      resourcesAvailables inter intra = some share →
    share.1 + share.2 =
      match reassigmentType with
      | .strict => inter + intra
      | _ => min (inter + intra) resourcesAvailables

/-- A request that is granted in full has at most two inter threads, and one that
is cut down hands out every core. -/
def MovesAll (reassigmentType : ReassigmentType) (resourcesAvailables inter intra : ℤ) : Prop :=
  if inter + intra ≤ resourcesAvailables then inter ≤ 2
  else reassigmentType = .strict ∨ HandsOutAll resourcesAvailables inter intra

/-- The source moves one inter thread, however many there are. -/
theorem collapseInter_total (hinter : 1 ≤ inter) :
    (collapseInter inter intra).1 + (collapseInter inter intra).2 = min inter 2 + intra := by
  unfold collapseInter
  split <;> simp only <;> omega

/-- **When no inter thread is lost.** Under `strict` and `always_attend`. -/
theorem threads_moved_iff {reassigmentType : ReassigmentType}
    (hpolicy : reassigmentType ≠ .maxProp) (havailable : 2 ≤ resourcesAvailables)
    (hinter : 1 ≤ inter) (hintra : 1 ≤ intra) :
    ThreadsMoved reassigmentType factorProp maxResourcesPerCont resourcesAvailables inter intra ↔
      MovesAll reassigmentType resourcesAvailables inter intra := by
  have hcollapse := @collapseInter_total inter intra hinter
  unfold ThreadsMoved MovesAll
  cases reassigmentType with
  | maxProp => exact absurd rfl hpolicy
  | strict =>
      rw [scheduleParallelism, strictParallelism, if_pos (by omega)]
      by_cases hfits : inter + intra ≤ resourcesAvailables
      · simp only [hfits, if_true, Option.some.injEq, forall_eq']
        omega
      · simp [hfits]
  | alwaysAttend =>
      rw [scheduleParallelism, alwaysAttendParallelism, if_pos havailable]
      by_cases hfits : inter + intra ≤ resourcesAvailables
      · simp only [hfits, if_true, Option.some.injEq, forall_eq', min_eq_left hfits]
        omega
      · rcases fractionParallelism_of_pos havailable hinter hintra with ⟨hcut, -, -, hall⟩
        simp only [hfits, if_false, Option.some.injEq, forall_eq', hcut,
          min_eq_right (not_le.mp hfits).le, hall, reduceCtorEq, false_or]

/-- Two inter and three intra threads out of eight cores. -/
theorem threads_moved_of_two : ThreadsMoved .strict 1 16 8 2 3 ↔ MovesAll .strict 8 2 3 :=
  threads_moved_iff (by decide) (by decide) (by decide) (by decide)

/-- Of three inter threads one is lost: the share has four threads, not five. -/
theorem third_inter_thread_lost :
    scheduleParallelism .strict 1 16 8 3 2 = some (1, 3) ∧ ¬ThreadsMoved .strict 1 16 8 3 2 := by
  refine ⟨rfl, ?_⟩
  intro hmoved
  exact absurd (hmoved _ rfl) (by decide)

end Policies

end ContainerScheduler.Analysis
