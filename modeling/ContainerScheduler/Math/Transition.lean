/-
# Machines whose labels carry the environment

A step of a concurrent program depends on what its environment answers: which
thread moves, whether a call succeeds, which message arrives. Here each label
records all of these answers, so a step is a partial function of the state and
the label, and "every interleaving" is "every sequence of labels".

A guarded run is one whose steps all meet a condition on the state before the
step and the label. Invariants are proved of guarded runs; an unrestricted run
is the case of the condition that always holds.
-/

import Mathlib.Data.Nat.Notation
import Mathlib.Data.Option.Basic

namespace ContainerScheduler.Math

universe u v

/-- A state machine: one initial state and a partial step for each label. -/
structure Machine (σ : Type u) (α : Type v) where
  init : σ
  step : σ → α → Option σ

namespace Machine

variable {σ : Type u} {α : Type v} (M : Machine σ α)

/-- Take the listed steps in order; `none` when one of them is not enabled. -/
def run : List α → σ → Option σ
  | [], state => some state
  | label :: labels, state => (M.step state label).bind (run labels)

/-- The condition every step meets. -/
def Unguarded : σ → α → Prop := fun _ _ => True

/-- The states reached by runs whose steps all meet `guard`. -/
inductive Reaches (guard : σ → α → Prop) : σ → Prop
  | init : Reaches guard M.init
  | step {source target : σ} {label : α} (reached : Reaches guard source)
      (allowed : guard source label) (taken : M.step source label = some target) :
      Reaches guard target

/-- Some guarded sequence of steps leads from the first state to the second. -/
inductive Leads (guard : σ → α → Prop) : σ → σ → Prop
  | refl (state : σ) : Leads guard state state
  | step {source middle target : σ} {label : α} (allowed : guard source label)
      (taken : M.step source label = some middle) (rest : Leads guard middle target) :
      Leads guard source target

variable {M} {guard : σ → α → Prop}

/-- **The invariant rule.** What holds initially and is kept by every allowed
step holds in every reached state. The step may use that its source is reached. -/
theorem Reaches.invariant {P : σ → Prop} (hinit : P M.init)
    (hstep : ∀ source label target, M.Reaches guard source → P source →
      guard source label → M.step source label = some target → P target)
    {state : σ} (hreached : M.Reaches guard state) : P state := by
  induction hreached with
  | init => exact hinit
  | step hreached hallowed htaken ih => exact hstep _ _ _ hreached ih hallowed htaken

/-- A weaker condition reaches at least as much. -/
theorem Reaches.mono {guard' : σ → α → Prop}
    (hweaker : ∀ state label, guard state label → guard' state label)
    {state : σ} (hreached : M.Reaches guard state) : M.Reaches guard' state :=
  hreached.invariant (P := M.Reaches guard') .init
    fun source label _ _ ih hallowed htaken => ih.step (hweaker source label hallowed) htaken

/-- A computed run from a reached state reaches its last state. -/
theorem Reaches.of_run {labels : List α} {source target : σ}
    (hreached : M.Reaches Unguarded source) (hrun : M.run labels source = some target) :
    M.Reaches Unguarded target := by
  induction labels generalizing source with
  | nil =>
      obtain rfl : source = target := Option.some.inj hrun
      exact hreached
  | cons label labels ih =>
      obtain ⟨middle, htaken, hrest⟩ := Option.bind_eq_some_iff.mp hrun
      exact ih (hreached.step trivial htaken) hrest

/-- A computed run from the initial state reaches its last state. -/
theorem reaches_of_run {labels : List α} {target : σ}
    (hrun : M.run labels M.init = some target) : M.Reaches Unguarded target :=
  Reaches.init.of_run hrun

/-- Every step of the listed run meets the condition. -/
def RunMeets (M : Machine σ α) (guard : σ → α → Prop) : List α → σ → Prop
  | [], _ => True
  | label :: labels, state =>
      guard state label ∧ ∀ next ∈ M.step state label, RunMeets M guard labels next

/-- Whether a run meets a decidable condition can be computed. -/
instance decidableRunMeets (M : Machine σ α) (guard : σ → α → Prop)
    [∀ state label, Decidable (guard state label)] :
    ∀ labels state, Decidable (M.RunMeets guard labels state)
  | [], _ => inferInstanceAs (Decidable True)
  | label :: labels, state =>
      have : ∀ next, Decidable (M.RunMeets guard labels next) :=
        decidableRunMeets M guard labels
      inferInstanceAs (Decidable (guard state label ∧
        ∀ next ∈ M.step state label, M.RunMeets guard labels next))

/-- A computed run that meets the condition reaches its last state. -/
theorem Reaches.of_runMeets {labels : List α} {source target : σ}
    (hreached : M.Reaches guard source) (hmeets : M.RunMeets guard labels source)
    (hrun : M.run labels source = some target) : M.Reaches guard target := by
  induction labels generalizing source with
  | nil =>
      obtain rfl : source = target := Option.some.inj hrun
      exact hreached
  | cons label labels ih =>
      obtain ⟨middle, htaken, hrest⟩ := Option.bind_eq_some_iff.mp hrun
      exact ih (hreached.step hmeets.1 htaken) (hmeets.2 middle htaken) hrest

/-- What can be computed of a run that meets the condition holds of a reached state. -/
theorem exists_reaches (labels : List α) {Q : σ → Bool}
    (hmeets : M.RunMeets guard labels M.init)
    (hend : (M.run labels M.init).any Q = true) :
    ∃ state, M.Reaches guard state ∧ Q state = true := by
  obtain ⟨state, hrun, hQ⟩ := (Option.any_eq_true _ _).mp hend
  exact ⟨state, Reaches.init.of_runMeets hmeets hrun, hQ⟩

/-- The same for a run without a condition. -/
theorem exists_reaches_unguarded (labels : List α) {Q : σ → Bool}
    (hend : (M.run labels M.init).any Q = true) :
    ∃ state, M.Reaches Unguarded state ∧ Q state = true := by
  obtain ⟨state, hrun, hQ⟩ := (Option.any_eq_true _ _).mp hend
  exact ⟨state, reaches_of_run hrun, hQ⟩

/-- Take steps whose labels are chosen from the state as the run goes. -/
def play {β : Type v} (M : Machine σ α) (choose : σ → β → α) : List β → σ → Option σ
  | [], state => some state
  | move :: moves, state => (M.step state (choose state move)).bind (play M choose moves)

/-- What can be computed of a run whose choices meet the condition holds of a reached
state. -/
theorem exists_reaches_play {β : Type v} (choose : σ → β → α)
    (hchoose : ∀ state move, guard state (choose state move)) (moves : List β) {Q : σ → Bool}
    (hend : (M.play choose moves M.init).any Q = true) :
    ∃ state, M.Reaches guard state ∧ Q state = true := by
  have hplay : ∀ (moves : List β) (source target : σ), M.Reaches guard source →
      M.play choose moves source = some target → M.Reaches guard target := by
    intro moves
    induction moves with
    | nil =>
        rintro source target hreached hrun
        obtain rfl : source = target := Option.some.inj hrun
        exact hreached
    | cons move moves ih =>
        rintro source target hreached hrun
        obtain ⟨middle, htaken, hrest⟩ := Option.bind_eq_some_iff.mp hrun
        exact ih middle target (hreached.step (hchoose source move) htaken) hrest
  obtain ⟨state, hrun, hQ⟩ := (Option.any_eq_true _ _).mp hend
  exact ⟨state, hplay moves M.init state .init hrun, hQ⟩

/-- **The termination rule.** Where every step lowers a measure, a run has no more
steps than the measure of its source. -/
theorem length_add_le_of_run (P : σ → Prop) (measure : σ → ℕ)
    (hstep : ∀ source label target, P source → M.step source label = some target →
      P target ∧ measure target + 1 ≤ measure source)
    {labels : List α} {source target : σ} (hsource : P source)
    (hrun : M.run labels source = some target) :
    labels.length + measure target ≤ measure source := by
  induction labels generalizing source with
  | nil =>
      obtain rfl : source = target := Option.some.inj hrun
      exact Nat.le_of_eq (Nat.zero_add _)
  | cons label labels ih =>
      obtain ⟨middle, htaken, hrest⟩ := Option.bind_eq_some_iff.mp hrun
      obtain ⟨hmiddle, hlower⟩ := hstep _ _ _ hsource htaken
      have hlength := ih hmiddle hrest
      rw [List.length_cons]
      omega

section Simulation

variable {τ : Type u} {N : Machine τ α} {guard' : τ → α → Prop} {R : σ → τ → Prop}

/-- Each allowed step of a machine is an allowed step of another, from a related state
to a related one. -/
def Simulates (M : Machine σ α) (N : Machine τ α) (guard : σ → α → Prop)
    (guard' : τ → α → Prop) (R : σ → τ → Prop) : Prop :=
  ∀ source label target source', R source source' → guard source label →
    M.step source label = some target →
      guard' source' label ∧ ∃ target', N.step source' label = some target' ∧ R target target'

/-- **The simulation rule.** A reached state is related to a reached state. -/
theorem Reaches.simulated (hinit : R M.init N.init) (hstep : Simulates M N guard guard' R)
    {state : σ} (hreached : M.Reaches guard state) :
    ∃ state', N.Reaches guard' state' ∧ R state state' := by
  induction hreached with
  | init => exact ⟨N.init, .init, hinit⟩
  | step hreached hallowed htaken ih =>
      obtain ⟨source', hsource, hrelated⟩ := ih
      obtain ⟨hallowed', target', htaken', htarget⟩ := hstep _ _ _ _ hrelated hallowed htaken
      exact ⟨target', hsource.step hallowed' htaken', htarget⟩

/-- A run from a related state takes the same labels. -/
theorem run_simulated (hstep : Simulates M N Unguarded Unguarded R) {labels : List α}
    {source target : σ} {source' : τ} (hsource : R source source')
    (hrun : M.run labels source = some target) :
    ∃ target', N.run labels source' = some target' ∧ R target target' := by
  induction labels generalizing source source' with
  | nil =>
      obtain rfl : source = target := Option.some.inj hrun
      exact ⟨source', rfl, hsource⟩
  | cons label labels ih =>
      obtain ⟨middle, htaken, hrest⟩ := Option.bind_eq_some_iff.mp hrun
      obtain ⟨-, middle', htaken', hmiddle⟩ := hstep _ _ _ _ hsource trivial htaken
      obtain ⟨target', hrest', htarget⟩ := ih hmiddle hrest
      exact ⟨target', Option.bind_eq_some_iff.mpr ⟨middle', htaken', hrest'⟩, htarget⟩

/-- The same for the runs from a related state on. -/
theorem Leads.simulated (hstep : Simulates M N guard guard' R) {source target : σ} {source' : τ}
    (hsource : R source source') (hleads : M.Leads guard source target) :
    ∃ target', N.Leads guard' source' target' ∧ R target target' := by
  induction hleads generalizing source' with
  | refl state => exact ⟨source', .refl source', hsource⟩
  | step hallowed htaken _ ih =>
      obtain ⟨hallowed', middle', htaken', hmiddle⟩ := hstep _ _ _ _ hsource hallowed htaken
      obtain ⟨target', hrest, htarget⟩ := ih hmiddle
      exact ⟨target', .step hallowed' htaken' hrest, htarget⟩

/-- What every allowed step keeps is kept by a run. -/
theorem Leads.invariant {P : σ → Prop}
    (hstep : ∀ source label target, P source → guard source label →
      M.step source label = some target → P target)
    {source target : σ} (hleads : M.Leads guard source target) (hsource : P source) : P target := by
  induction hleads with
  | refl state => exact hsource
  | step hallowed htaken _ ih => exact ih (hstep _ _ _ hsource hallowed htaken)

end Simulation

end Machine

end ContainerScheduler.Math
