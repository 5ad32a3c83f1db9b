/-
# No update of the parallelism is lost

A positive value that was stored is what the last message with such a value said,
and it has not been forgotten: the semaphore counts a message, the socket thread is
going to release it, or the update thread has not passed the section of the value's
kind. When nothing is stored the last value has been applied. So once the semaphore
is at zero and both threads are back at their first operation, the last positive
value that arrived is the last one applied.
-/

import ContainerScheduler.Client.Updates

namespace ContainerScheduler.Analysis

open Client Math

/-! ## What arrived and what was applied -/

/-- The last positive value of a kind. -/
def lastPositive (kind : Kind) (messages : List Parallelism) : Option ℤ :=
  (messages.filter fun message => 0 < message.get kind).getLast?.map fun message =>
    message.get kind

/-- The value of a kind that was applied last. -/
def lastApplied (kind : Kind) (applied : List (Kind × ℤ)) : Option ℤ :=
  (applied.filter fun value => value.1 = kind).getLast?.map Prod.snd

theorem lastPositive_concat (kind : Kind) (messages : List Parallelism) (message : Parallelism) :
    lastPositive kind (messages ++ [message]) =
      if 0 < message.get kind then some (message.get kind) else lastPositive kind messages := by
  by_cases hpositive : 0 < message.get kind <;> simp [lastPositive, hpositive]

theorem lastApplied_concat (kind other : Kind) (applied : List (Kind × ℤ)) (value : ℤ) :
    lastApplied kind (applied ++ [(other, value)]) =
      if other = kind then some value else lastApplied kind applied := by
  by_cases hkind : other = kind <;> simp [lastApplied, hkind]

/-! ## The invariant -/

/-- The message the socket thread is at. -/
def atMessage : SocketPc → Option Parallelism
  | .storing _ message | .releasing message => some message
  | .receiving | .ending | .ended => none

/-- The socket thread has not reached the store of a kind yet. -/
def BeforeStore (kind : Kind) : SocketPc → Prop
  | .storing .inter _ => True
  | .storing .intra _ => kind = .intra
  | _ => False

instance (kind : Kind) (socket : SocketPc) : Decidable (BeforeStore kind socket) :=
  match socket with
  | .storing .inter _ => inferInstanceAs (Decidable True)
  | .storing .intra _ => inferInstanceAs (Decidable (kind = .intra))
  | .releasing _ | .receiving | .ending | .ended => inferInstanceAs (Decidable False)

/-- The update thread has not passed the section of a kind since it acquired. -/
def BeforeSection (kind : Kind) : UpdatePc → Prop
  | .entering .inter | .updating .inter _ => True
  | .entering .intra | .updating .intra _ => kind = .intra
  | .starting _ | .acquiring => False

/-- The socket thread is going to release the semaphore for its message. -/
def WillRelease (socket : SocketPc) : Prop :=
  ∃ message ∈ atMessage socket, ∃ kind, 0 < message.get kind

/-- The last positive value that had its chance to be stored. -/
def known (socket : SocketPc) (received : List Parallelism) (kind : Kind) : Option ℤ :=
  lastPositive kind (if BeforeStore kind socket then received.dropLast else received)

/-- What holds of the stored values and the threads. -/
structure UpdatesKept (client : Updates) : Prop where
  message : ∀ message ∈ atMessage client.socket,
    ∃ before, client.received = before ++ [message]
  nonneg : ∀ kind, 0 ≤ client.parallelismUp.get kind
  stored : ∀ kind, 0 < client.parallelismUp.get kind →
    known client.socket client.received kind = some (client.parallelismUp.get kind)
  settled : ∀ kind value, client.parallelismUp.get kind = 0 →
    known client.socket client.received kind = some value →
    client.line.get kind = value ∧ lastApplied kind client.applied = some value
  updating : ∀ kind parallelism, client.update = .updating kind parallelism →
    0 < parallelism ∧ client.parallelismUp.get kind = parallelism
  starting : ∀ launched, client.update = .starting launched → ∀ kind,
    client.parallelismUp.get kind = 0 → known client.socket client.received kind = none
  noticed : ∀ kind, 0 < client.parallelismUp.get kind →
    0 < client.cvUpdate ∨ BeforeSection kind client.update ∨ WillRelease client.socket

/-! ## The steps of the socket thread -/

section Socket

variable {client after : Updates} {kind : Kind} {message : Parallelism} {next : SocketPc}

/-- Receiving a message changes nothing that was known. -/
theorem kept_receive (hkept : UpdatesKept client) (hidle : client.socket = .receiving)
    (message : Parallelism) :
    UpdatesKept { client with
      socket := .storing .inter message
      received := client.received ++ [message] } := by
  have hknown : ∀ kind, known (.storing .inter message) (client.received ++ [message]) kind =
      known client.socket client.received kind := by
    intro kind
    simp [known, BeforeStore, hidle]
  exact {
    message := by
      intro current hcurrent
      obtain rfl := Option.some.inj hcurrent
      exact ⟨client.received, rfl⟩
    nonneg := hkept.nonneg
    stored := fun kind hpositive => (hknown kind).trans (hkept.stored kind hpositive)
    settled := fun kind value hzero hvalue =>
      hkept.settled kind value hzero ((hknown kind).symm.trans hvalue)
    updating := hkept.updating
    starting := fun launched hstarting kind hzero =>
      (hknown kind).trans (hkept.starting launched hstarting kind hzero)
    noticed := by
      intro kind hpositive
      obtain hcount | hbefore | ⟨current, hcurrent, -⟩ := hkept.noticed kind hpositive
      · exact .inl hcount
      · exact .inr (.inl hbefore)
      · rw [hidle] at hcurrent
        cases hcurrent }

/-- Where the socket thread goes after the store of a kind. -/
structure FollowsStore (kind : Kind) (message : Parallelism) (next : SocketPc) : Prop where
  same : atMessage next = some message
  before : ∀ other, BeforeStore other next ↔
    BeforeStore other (.storing kind message) ∧ other ≠ kind

theorem known_store (hfollows : FollowsStore kind message next) (before : List Parallelism)
    (other : Kind) :
    known next (before ++ [message]) other =
      if other = kind ∧ 0 < message.get kind then some (message.get kind)
      else known (.storing kind message) (before ++ [message]) other := by
  have hself : BeforeStore kind (.storing kind message) := by
    cases kind
    · trivial
    · rfl
  by_cases hother : other = kind
  · subst hother
    have hnext : ¬ BeforeStore other next :=
      fun hbefore => ((hfollows.before other).mp hbefore).2 rfl
    simp only [known, if_neg hnext, if_pos hself, lastPositive_concat, List.dropLast_concat,
      true_and]
  · have hiff : BeforeStore other next ↔ BeforeStore other (.storing kind message) :=
      (hfollows.before other).trans (and_iff_left hother)
    simp only [known, hiff, hother, false_and, if_false]

/-- A store keeps the invariant: the stored value is the one that is known, and the
thread is going to release the semaphore. -/
theorem kept_store (hkept : UpdatesKept client) (hat : client.socket = .storing kind message)
    (hfollows : FollowsStore kind message next)
    (hstore : client.store kind message next = some after) : UpdatesKept after := by
  obtain ⟨before, hreceived⟩ := hkept.message message (by rw [hat]; rfl)
  have hknown := known_store hfollows before
  rw [← hreceived, ← hat] at hknown
  have hmessage : ∀ current ∈ atMessage next, ∃ before, client.received = before ++ [current] := by
    intro current hcurrent
    obtain rfl := Option.some.inj (hfollows.same.symm.trans hcurrent)
    exact ⟨before, hreceived⟩
  have hrelease : WillRelease client.socket → WillRelease next := by
    rintro ⟨current, hcurrent, hpositive⟩
    rw [hat] at hcurrent
    exact ⟨current, hfollows.same.trans hcurrent, hpositive⟩
  unfold Updates.store at hstore
  split at hstore
  next hpositive =>
      split at hstore
      · cases hstore
      next hfree =>
          obtain rfl := Option.some.inj hstore
          have hold : ∀ other, other ≠ kind →
              (client.parallelismUp.set kind (message.get kind)).get other =
                client.parallelismUp.get other ∧
              known next client.received other = known client.socket client.received other :=
            fun other hne => ⟨Parallelism.get_set_of_ne _ hne _,
              (hknown other).trans (if_neg fun hnew => hne hnew.1)⟩
          have hnew : known next client.received kind = some (message.get kind) :=
            (hknown kind).trans (if_pos ⟨rfl, hpositive⟩)
          refine ⟨hmessage, fun other => ?_, fun other hstored => ?_,
            fun other value hzero hvalue => ?_, fun other parallelism hupdate => ?_,
            fun launched hstarting other hzero => ?_, fun other hstored => ?_⟩
          all_goals by_cases hother : other = kind
          · rw [hother, Parallelism.get_set_self]
            exact hpositive.le
          · rw [(hold other hother).1]
            exact hkept.nonneg other
          · rw [hother, Parallelism.get_set_self]
            exact hnew
          · rw [(hold other hother).1] at hstored ⊢
            exact (hold other hother).2.trans (hkept.stored other hstored)
          · rw [hother, Parallelism.get_set_self] at hzero
            exact absurd hzero hpositive.ne'
          · rw [(hold other hother).1] at hzero
            exact hkept.settled other value hzero ((hold other hother).2.symm.trans hvalue)
          · have hheld : client.update.holds kind := by
              rw [show client.update = _ from hupdate]
              exact hother
            exact absurd hheld hfree
          · obtain ⟨hvalue, hsame⟩ := hkept.updating other parallelism hupdate
            exact ⟨hvalue, (hold other hother).1.trans hsame⟩
          · rw [hother, Parallelism.get_set_self] at hzero
            exact absurd hzero hpositive.ne'
          · rw [(hold other hother).1] at hzero
            exact (hold other hother).2.trans (hkept.starting launched hstarting other hzero)
          · exact .inr (.inr ⟨message, hfollows.same, kind, hpositive⟩)
          · rw [(hold other hother).1] at hstored
            exact (hkept.noticed other hstored).imp_right (Or.imp_right hrelease)
  next hnegative =>
      obtain rfl := Option.some.inj hstore
      have hsame : ∀ other, known next client.received other =
          known client.socket client.received other := by
        intro other
        rw [hknown, if_neg fun hnew => hnegative hnew.2]
      exact {
        message := hmessage
        nonneg := hkept.nonneg
        stored := fun other hstored => (hsame other).trans (hkept.stored other hstored)
        settled := fun other value hzero hvalue =>
          hkept.settled other value hzero ((hsame other).symm.trans hvalue)
        updating := hkept.updating
        starting := fun launched hstarting other hzero =>
          (hsame other).trans (hkept.starting launched hstarting other hzero)
        noticed := fun other hstored =>
          (hkept.noticed other hstored).imp_right (Or.imp_right hrelease) }

theorem known_of_stored {socket next : SocketPc} {received : List Parallelism}
    (hsocket : ∀ kind, ¬ BeforeStore kind socket) (hnext : ∀ kind, ¬ BeforeStore kind next)
    (kind : Kind) : known next received kind = known socket received kind := by
  rw [known, known, if_neg (hnext kind), if_neg (hsocket kind)]

/-- The thread goes on without a store, and releases the semaphore if it has to. -/
theorem kept_release (hkept : UpdatesKept client)
    (hsocket : ∀ kind, ¬ BeforeStore kind client.socket) (hnext : ∀ kind, ¬ BeforeStore kind next)
    (hmessage : atMessage next = none) {count : ℕ} (hcount : client.cvUpdate ≤ count)
    (hrelease : WillRelease client.socket → 0 < count) :
    UpdatesKept { client with socket := next, cvUpdate := count } := by
  have hknown := @known_of_stored client.socket next client.received hsocket hnext
  exact {
    message := by
      intro current hcurrent
      rw [show atMessage _ = _ from hmessage] at hcurrent
      cases hcurrent
    nonneg := hkept.nonneg
    stored := fun kind hpositive => (hknown kind).trans (hkept.stored kind hpositive)
    settled := fun kind value hzero hvalue =>
      hkept.settled kind value hzero ((hknown kind).symm.trans hvalue)
    updating := hkept.updating
    starting := fun launched hstarting kind hzero =>
      (hknown kind).trans (hkept.starting launched hstarting kind hzero)
    noticed := by
      intro kind hpositive
      obtain hold | hbefore | hwill := hkept.noticed kind hpositive
      · exact .inl (hold.trans_le hcount)
      · exact .inr (.inl hbefore)
      · exact .inl (hrelease hwill) }

theorem kept_socketStep (hkept : UpdatesKept client) (hstep : client.socketStep = some after) :
    UpdatesKept after := by
  unfold Updates.socketStep at hstep
  split at hstep
  next message hat =>
      refine kept_store hkept hat ⟨rfl, fun other => ?_⟩ hstep
      cases other <;> simp [BeforeStore]
  next message hat =>
      refine kept_store hkept hat ⟨rfl, fun other => ?_⟩ hstep
      cases other <;> simp [BeforeStore]
  next message hat =>
      obtain rfl := Option.some.inj hstep
      refine kept_release hkept ?_ ?_ ?_ ?_ ?_
      · rw [hat]
        exact fun _ => id
      · intro kind
        split <;> exact id
      · split <;> rfl
      · split
        · exact Nat.le_succ _
        · exact le_rfl
      · rintro ⟨current, hcurrent, kind, hpositive⟩
        rw [hat] at hcurrent
        obtain rfl := Option.some.inj hcurrent
        have hreleases : 0 < message.interParallelism ∨ 0 < message.intraParallelism := by
          cases kind
          · exact .inl hpositive
          · exact .inr hpositive
        rw [if_pos hreleases]
        exact Nat.succ_pos _
  next hat =>
      obtain rfl := Option.some.inj hstep
      refine kept_release hkept ?_ ?_ rfl (Nat.le_succ _) fun _ => Nat.succ_pos _
      · rw [hat]
        exact fun _ => id
      · exact fun _ => id
  · cases hstep
  · cases hstep

end Socket

/-! ## The steps of the update thread -/

section Update

variable {client after : Updates} {kind : Kind} {parallelism : ℤ}

theorem beforeSection_after {other : Kind} (hother : other ≠ kind)
    (hbefore : BeforeSection other (.entering kind)) : BeforeSection other (.after kind) := by
  cases kind with
  | inter => cases other with
    | inter => exact absurd rfl hother
    | intra => rfl
  | intra => exact absurd hbefore hother

section

variable (hkept : UpdatesKept client)

include hkept

/-- The update the thread begins with: nothing that was received was applied yet. -/
theorem kept_starting (hat : client.update = .starting parallelism) (line : Parallelism)
    (applied : List (Kind × ℤ)) {update : UpdatePc}
    (hupdate : update = .starting parallelism ∨ update = .acquiring) :
    UpdatesKept { client with line := line, applied := applied, update := update } := by
  have hnone := hkept.starting parallelism hat
  exact {
    message := hkept.message
    nonneg := hkept.nonneg
    stored := hkept.stored
    settled := by
      intro kind value hzero hvalue
      exact absurd ((hnone kind hzero).symm.trans hvalue) (Option.some_ne_none value).symm
    updating := by
      intro kind parallelism hupdating
      obtain rfl | rfl := hupdate <;> cases hupdating
    starting := fun _ _ => hnone
    noticed := by
      intro kind hpositive
      obtain hcount | hbefore | hwill := hkept.noticed kind hpositive
      · exact .inl hcount
      · rw [hat] at hbefore
        exact hbefore.elim
      · exact .inr (.inr hwill) }

/-- Acquiring the semaphore starts a round over both sections. -/
theorem kept_acquire (count : ℕ) :
    UpdatesKept { client with cvUpdate := count, update := .entering .inter } where
  message := hkept.message
  nonneg := hkept.nonneg
  stored := hkept.stored
  settled := hkept.settled
  updating := fun _ _ hupdating => UpdatePc.noConfusion hupdating
  starting := fun _ hstarting => UpdatePc.noConfusion hstarting
  noticed := fun _ _ => .inr (.inl trivial)

/-- A section whose value is positive is entered with that value. -/
theorem kept_enter (hat : client.update = .entering kind)
    (hpositive : 0 < client.parallelismUp.get kind) :
    UpdatesKept { client with update := .updating kind (client.parallelismUp.get kind) } where
  message := hkept.message
  nonneg := hkept.nonneg
  stored := hkept.stored
  settled := hkept.settled
  updating := by
    intro other parallelism hupdating
    obtain ⟨rfl, rfl⟩ := UpdatePc.updating.inj hupdating
    exact ⟨hpositive, rfl⟩
  starting := fun _ hstarting => UpdatePc.noConfusion hstarting
  noticed := by
    intro other hstored
    refine (hkept.noticed other hstored).imp_right (Or.imp_left fun hbefore => ?_)
    rw [hat] at hbefore
    cases kind <;> exact hbefore

/-- A section without a value is passed over. -/
theorem kept_pass (hat : client.update = .entering kind)
    (hnone : ¬ 0 < client.parallelismUp.get kind) :
    UpdatesKept { client with update := .after kind } where
  message := hkept.message
  nonneg := hkept.nonneg
  stored := hkept.stored
  settled := hkept.settled
  updating := by
    intro other parallelism hupdating
    cases kind <;> cases hupdating
  starting := by
    intro launched hstarting
    cases kind <;> cases hstarting
  noticed := by
    intro other hstored
    refine (hkept.noticed other hstored).imp_right (Or.imp_left fun hbefore => ?_)
    rw [hat] at hbefore
    refine beforeSection_after ?_ hbefore
    rintro rfl
    exact hnone hstored

/-- A round of a progressive update writes the line of a kind whose value is still
stored. -/
theorem kept_round (hat : client.update = .updating kind parallelism) (value : ℤ) :
    UpdatesKept { client with line := client.line.set kind value } where
  message := hkept.message
  nonneg := hkept.nonneg
  stored := hkept.stored
  settled := by
    intro other known hzero hknown
    obtain ⟨hpositive, hsame⟩ := hkept.updating kind parallelism hat
    have hother : other ≠ kind := by
      rintro rfl
      exact hpositive.ne' (hsame.symm.trans hzero)
    obtain ⟨hline, happlied⟩ := hkept.settled other known hzero hknown
    exact ⟨(Parallelism.get_set_of_ne _ hother _).trans hline, happlied⟩
  updating := hkept.updating
  starting := hkept.starting
  noticed := hkept.noticed

/-- The end of a progressive update: the stored value is in the line, and is reset. -/
theorem kept_finish (hat : client.update = .updating kind parallelism)
    (hline : client.line.get kind = parallelism) :
    UpdatesKept { client with
      update := .after kind
      parallelismUp := client.parallelismUp.set kind 0
      applied := client.applied ++ [(kind, parallelism)] } := by
  obtain ⟨hpositive, hsame⟩ := hkept.updating kind parallelism hat
  have hknown := hkept.stored kind (hsame.symm ▸ hpositive)
  have hold : ∀ other, other ≠ kind →
      (client.parallelismUp.set kind 0).get other = client.parallelismUp.get other :=
    fun other hne => Parallelism.get_set_of_ne _ hne _
  have hself : (client.parallelismUp.set kind 0).get kind = 0 := Parallelism.get_set_self _ _ _
  have hne : ∀ other, 0 < (client.parallelismUp.set kind 0).get other → other ≠ kind := by
    rintro other hstored rfl
    rw [hself] at hstored
    exact hstored.false
  refine ⟨hkept.message, fun other => ?_, fun other hstored => ?_,
    fun other value hzero hvalue => ?_, fun other next hupdating => ?_,
    fun launched hstarting => ?_, fun other hstored => ?_⟩
  · by_cases hother : other = kind
    · rw [hother, hself]
    · rw [hold other hother]
      exact hkept.nonneg other
  · have hold := hold other (hne other hstored)
    rw [hold] at hstored ⊢
    exact hkept.stored other hstored
  · by_cases hother : other = kind
    · subst hother
      obtain rfl : parallelism = value := by
        rw [hsame] at hknown
        exact Option.some.inj (hknown.symm.trans hvalue)
      exact ⟨hline, by rw [lastApplied_concat, if_pos rfl]⟩
    · rw [hold other hother] at hzero
      rw [lastApplied_concat, if_neg fun hkind => hother hkind.symm]
      exact hkept.settled other value hzero hvalue
  · cases kind <;> cases hupdating
  · cases kind <;> cases hstarting
  · have hother := hne other hstored
    rw [hold other hother] at hstored
    refine (hkept.noticed other hstored).imp_right (Or.imp_left fun hbefore => ?_)
    rw [hat] at hbefore
    refine beforeSection_after hother ?_
    cases kind <;> exact hbefore

theorem kept_updateStep (hstep : client.updateStep = some after) : UpdatesKept after := by
  unfold Updates.updateStep at hstep
  split at hstep
  next launched hat =>
      obtain rfl := Option.some.inj hstep
      unfold Updates.progress
      split
      · exact kept_starting hkept hat _ _ (.inl hat)
      · exact kept_starting hkept hat _ _ (.inr rfl)
  · split at hstep
    · cases hstep
    · obtain rfl := Option.some.inj hstep
      exact kept_acquire hkept _
  next kind hat =>
      split at hstep
      next hpositive =>
          obtain rfl := Option.some.inj hstep
          exact kept_enter hkept hat hpositive
      next hnone =>
          obtain rfl := Option.some.inj hstep
          exact kept_pass hkept hat hnone
  next kind parallelism hat =>
      obtain rfl := Option.some.inj hstep
      unfold Updates.progress
      split
      · exact kept_round hkept hat _
      next hline => exact kept_finish hkept hat (not_ne_iff.mp hline)

end

end Update

/-! ## Runs -/

/-- **The step lemma of the updates.** -/
theorem updates_step {client after : Updates} {label : UpdatesStep} (hkept : UpdatesKept client)
    (hstep : client.step label = some after) : UpdatesKept after := by
  cases label with
  | receive message =>
      simp only [Updates.step, Option.ite_none_right_eq_some] at hstep
      obtain ⟨hidle, hafter⟩ := hstep
      obtain rfl := Option.some.inj hafter
      exact kept_receive hkept hidle message
  | socket => exact kept_socketStep hkept hstep
  | update => exact kept_updateStep hkept hstep

theorem updatesKept_of_reaches {launched : ℤ} {line : Parallelism} {client : Updates}
    (hreached : (updates launched line).Reaches Machine.Unguarded client) :
    UpdatesKept client := by
  refine hreached.invariant (P := UpdatesKept) ?_
    fun _ _ _ _ hkept _ htaken => updates_step hkept htaken
  exact {
    message := by
      intro message hmessage
      cases hmessage
    nonneg := fun kind => by cases kind <;> exact le_rfl
    stored := fun kind hpositive => by cases kind <;> exact absurd hpositive (lt_irrefl 0)
    settled := by
      intro kind value _ hvalue
      cases hvalue
    updating := fun _ _ hupdating => UpdatePc.noConfusion hupdating
    starting := fun _ _ _ _ => rfl
    noticed := fun kind hpositive => by cases kind <;> exact absurd hpositive (lt_irrefl 0) }

/-- **No update is lost.** Between two messages of the socket thread, when the
semaphore is at zero and the update thread is back at acquiring it, the last positive
value of each kind that was received is the last one applied. While the socket thread
is at a message, that message may be stored and not yet announced. -/
theorem last_update_applied (launched : ℤ) (line : Parallelism) {client : Updates}
    (hreached : (updates launched line).Reaches Machine.Unguarded client)
    (hcount : client.cvUpdate = 0) (hupdate : client.update = .acquiring)
    (hsocket : atMessage client.socket = none) (kind : Kind) {value : ℤ}
    (hreceived : lastPositive kind client.received = some value) :
    lastApplied kind client.applied = some value ∧ client.line.get kind = value := by
  have hkept := updatesKept_of_reaches hreached
  have hknown : known client.socket client.received kind = some value := by
    have hstored : ¬ BeforeStore kind client.socket := by
      cases hat : client.socket with
      | storing current message =>
          rw [hat] at hsocket
          cases hsocket
      | _ => exact id
    rw [known, if_neg hstored, hreceived]
  have hzero : client.parallelismUp.get kind = 0 := by
    refine le_antisymm (not_lt.mp fun hpositive => ?_) (hkept.nonneg kind)
    obtain hsome | hbefore | ⟨message, hmessage, -⟩ := hkept.noticed kind hpositive
    · exact hsome.ne' hcount
    · rw [hupdate] at hbefore
      exact hbefore
    · rw [hsocket] at hmessage
      cases hmessage
  exact (hkept.settled kind value hzero hknown).symm

/-- Two updates arrive, the second while the first is being applied. -/
theorem overlapping_updates_applied : ∃ client : Updates,
    lastPositive .intra client.received = some 3 ∧
      (lastApplied .intra client.applied = some 3 ∧ client.line.get .intra = 3) := by
  have hrun : ∃ client, (updates 4 ⟨1, 16⟩).Reaches Machine.Unguarded client ∧
      decide (client.cvUpdate = 0 ∧ client.update = .acquiring ∧ client.socket = .receiving ∧
        lastPositive .intra client.received = some 3) = true :=
    Machine.exists_reaches_unguarded
      [.update, .update, .update, .receive ⟨2, 0⟩, .socket, .socket, .socket, .update, .update,
        .update, .receive ⟨0, 3⟩, .socket, .socket, .socket, .update, .update, .update, .update,
        .update, .update, .update, .update]
      (by decide +kernel)
  obtain ⟨client, hreached, hend⟩ := hrun
  obtain ⟨hcount, hupdate, hsocket, hreceived⟩ := of_decide_eq_true hend
  exact ⟨client, hreceived, last_update_applied 4 ⟨1, 16⟩ hreached hcount hupdate
    (by rw [hsocket]; rfl) .intra hreceived⟩

end ContainerScheduler.Analysis
