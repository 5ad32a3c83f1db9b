/-
# A client that cannot end

Two things keep a client from ending. The acknowledgement may come, and the
semaphore be released and acquired for the last time, before the handler has set
the flag: then the update thread waits for a release that no thread is left to make.
And the last notify may fall between the test and the wait of the live control.

Runs without these two are never stuck: a message or a release is left for every
thread that waits, until the flag has been seen.
-/

import ContainerScheduler.Client.Shutdown

namespace ContainerScheduler.Analysis

open Client Math

/-- The condition on the steps of the update thread. When it does not find the flag
set, the semaphore is not at zero or the socket thread has not ended; and it does not
notify while the live control is between its test and its wait. -/
def ShutdownStepOk (client : Shutdown) : ShutdownStep → Prop
  | .update =>
      (client.update = .testing → client.finalize = false →
        0 < client.cvUpdate ∨ client.socket ≠ .ended) ∧
      (client.update = .notifying → client.live ≠ .entering)
  | _ => True

instance (client : Shutdown) (label : ShutdownStep) : Decidable (ShutdownStepOk client label) := by
  cases label <;> unfold ShutdownStepOk <;> infer_instance

/-! ## The invariant -/

/-- What a thread that waits has to look forward to. -/
structure Awaited (client : Shutdown) : Prop where
  ack : client.acked = true → client.socket = .receiving →
    ∃ message ∈ client.toClient, message.interParallelism = -1
  release : client.update = .acquiring → 0 < client.cvUpdate ∨ client.socket ≠ .ended
  seen : client.update = .notifying ∨ client.update = .ended → client.finalize = true
  notify : client.update = .ended → client.live ≠ .entering ∧ client.live ≠ .waiting

section Steps

variable {client after : Shutdown}

theorem notified_awake {live : LivePc} (hlive : live ≠ .entering) :
    live.notified ≠ .entering ∧ live.notified ≠ .waiting := by
  cases live <;> simp_all [LivePc.notified]

section

variable (hawaited : Awaited client)

include hawaited

theorem awaited_send {message : Parallelism} (hstep : client.send message = some after) :
    Awaited after := by
  simp only [Shutdown.send, Option.ite_none_right_eq_some, Option.some.injEq] at hstep
  obtain ⟨⟨hacked, -⟩, rfl⟩ := hstep
  exact { hawaited with
    ack := fun hacks => absurd (hacked.symm.trans hacks) Bool.false_ne_true }

theorem awaited_ack (hstep : client.ack = some after) : Awaited after := by
  simp only [Shutdown.ack, Option.ite_none_right_eq_some, Option.some.injEq] at hstep
  obtain ⟨-, rfl⟩ := hstep
  exact { hawaited with
    ack := fun _ _ => ⟨⟨-1, -1⟩, List.mem_append_right _ (List.mem_singleton.mpr rfl), rfl⟩ }

/-- A message other than the acknowledgement leaves the acknowledgement on its way. -/
theorem awaited_socket (hstep : client.socketStep = some after) : Awaited after := by
  unfold Shutdown.socketStep at hstep
  split at hstep
  next hreceiving =>
      split at hstep
      · cases hstep
      next message toClient hqueue =>
          obtain rfl := Option.some.inj hstep
          refine ⟨fun hacked hsocket => ?_, fun hupdate => .inr ?_, hawaited.seen, fun hended => ?_⟩
          · by_cases hack : message.interParallelism = -1
            · simp [hack] at hsocket
            · obtain ⟨last, hmem, hlast⟩ := hawaited.ack hacked hreceiving
              rw [hqueue] at hmem
              obtain rfl | hrest := List.mem_cons.mp hmem
              · exact absurd hlast hack
              · exact ⟨last, hrest, hlast⟩
          · dsimp only
            split <;> simp
          · have hawake := hawaited.notify hended
            dsimp only
            split
            · exact notified_awake hawake.1
            · exact hawake
  next hending =>
      obtain rfl := Option.some.inj hstep
      refine ⟨fun _ hsocket => ?_, fun _ => .inl (Nat.succ_pos _), hawaited.seen, hawaited.notify⟩
      cases hsocket
  · cases hstep

/-- Where the update thread waits for nothing. -/
theorem awaited_moving {update : UpdaterPc} (count : ℕ)
    (hupdate : update = .testing ∨ update = .applying) :
    Awaited { client with update := update, cvUpdate := count } := by
  obtain rfl | rfl := hupdate
  all_goals
    refine ⟨hawaited.ack, fun hacquiring => ?_, fun hseen => ?_, fun hended => ?_⟩
    · cases hacquiring
    · obtain hseen | hseen := hseen <;> cases hseen
    · cases hended

theorem awaited_update (hallowed : ShutdownStepOk client .update)
    (hstep : client.updateStep = some after) : Awaited after := by
  obtain ⟨htest, hnotify⟩ := hallowed
  unfold Shutdown.updateStep at hstep
  split at hstep
  case h_1 | h_2 =>
      obtain rfl := Option.some.inj hstep
      exact awaited_moving hawaited _ (.inl rfl)
  case h_3 htesting =>
      obtain rfl := Option.some.inj hstep
      cases hfinalize : client.finalize with
      | true =>
          refine ⟨hawaited.ack, fun hacquiring => ?_, fun _ => rfl, fun hended => ?_⟩
          · cases hacquiring
          · cases hended
      | false =>
          refine ⟨hawaited.ack, fun _ => htest htesting hfinalize, fun hseen => ?_,
            fun hended => ?_⟩
          · obtain hseen | hseen := hseen <;> cases hseen
          · cases hended
  case h_4 =>
      split at hstep
      · cases hstep
      · obtain rfl := Option.some.inj hstep
        exact awaited_moving hawaited _ (.inr rfl)
  case h_5 hnotifying =>
      obtain rfl := Option.some.inj hstep
      refine ⟨hawaited.ack, fun hacquiring => ?_, fun _ => hawaited.seen (.inl hnotifying),
        fun _ => notified_awake (hnotify hnotifying)⟩
      cases hacquiring
  case h_6 => cases hstep

/-- After the update thread has ended the flag is set, so the live control does not
go to sleep again. -/
theorem awaited_live {replied : Bool} (hstep : client.liveStep replied = some after) :
    Awaited after := by
  have hkeep : ∀ live, (client.update = .ended → live ≠ .entering ∧ live ≠ .waiting) →
      Awaited { client with live := live } :=
    fun live hlive => ⟨hawaited.ack, hawaited.release, hawaited.seen, hlive⟩
  unfold Shutdown.liveStep at hstep
  split at hstep
  next =>
      simp only [Option.ite_none_left_eq_some, Option.some.injEq] at hstep
      obtain ⟨-, rfl⟩ := hstep
      refine hkeep _ fun hended => ?_
      rw [hawaited.seen (.inr hended)]
      simp
  next hentering =>
      obtain rfl := Option.some.inj hstep
      exact hkeep _ fun hended => absurd hentering (hawaited.notify hended).1
  next =>
      simp only [Option.ite_none_left_eq_some, Option.some.injEq] at hstep
      obtain ⟨-, rfl⟩ := hstep
      refine hkeep _ fun hended => ?_
      rw [hawaited.seen (.inr hended)]
      simp
  next =>
      obtain rfl := Option.some.inj hstep
      refine hkeep _ fun _ => ?_
      cases replied <;> simp
  all_goals cases hstep

/-- **The step lemma of the shutdown.** -/
theorem awaited_step {label : ShutdownStep} (hallowed : ShutdownStepOk client label)
    (hstep : client.step label = some after) :
    Awaited after := by
  cases label with
  | send message => exact awaited_send hawaited hstep
  | ack => exact awaited_ack hawaited hstep
  | signal =>
      simp only [Shutdown.step, Option.ite_none_right_eq_some, Option.some.injEq] at hstep
      obtain ⟨-, rfl⟩ := hstep
      exact { hawaited with }
  | handler =>
      simp only [Shutdown.step, Option.ite_none_right_eq_some, Option.some.injEq] at hstep
      obtain ⟨-, rfl⟩ := hstep
      exact { hawaited with seen := fun _ => rfl }
  | socket => exact awaited_socket hawaited hstep
  | update => exact awaited_update hawaited hallowed hstep
  | live replied => exact awaited_live hawaited hstep

end

end Steps

/-! ## Runs -/

theorem awaited_of_reaches {client : Shutdown}
    (hreached : shutdown.Reaches ShutdownStepOk client) : Awaited client := by
  refine hreached.invariant (P := Awaited) ?_
    fun _ _ _ _ hawaited hallowed htaken => awaited_step hawaited hallowed htaken
  refine ⟨fun hacked _ => ?_, fun hacquiring => ?_, fun hseen => ?_, fun hended => ?_⟩
  · cases hacked
  · cases hacquiring
  · obtain hseen | hseen := hseen <;> cases hseen
  · cases hended

/-- Once the `exit` was acknowledged, a socket thread that cannot go on has ended. -/
theorem socket_ended {client : Shutdown} (hawaited : Awaited client) (hacked : client.acked = true)
    (hblocked : client.socketStep = none) : client.socket = .ended := by
  cases hsocket : client.socket with
  | receiving =>
      obtain ⟨message, hmem, -⟩ := hawaited.ack hacked hsocket
      cases hqueue : client.toClient with
      | nil =>
          rw [hqueue] at hmem
          cases hmem
      | cons first rest => simp [Shutdown.socketStep, hsocket, hqueue] at hblocked
  | ending => simp [Shutdown.socketStep, hsocket] at hblocked
  | ended => rfl

theorem update_ended {client : Shutdown} (hawaited : Awaited client)
    (hsocket : client.socket = .ended) (hblocked : client.updateStep = none) :
    client.update = .ended := by
  cases hupdate : client.update with
  | acquiring =>
      have hcount : client.cvUpdate = 0 := by
        simpa [Shutdown.updateStep, hupdate] using hblocked
      obtain hpositive | hrunning := hawaited.release hupdate
      · exact absurd hcount hpositive.ne'
      · exact absurd hsocket hrunning
  | ended => rfl
  | _ => simp [Shutdown.updateStep, hupdate] at hblocked

theorem live_ended {client : Shutdown} (hawaited : Awaited client)
    (hupdate : client.update = .ended) (hblocked : client.liveStep true = none) :
    client.live = .ended := by
  cases hlive : client.live with
  | waiting => exact absurd hlive (hawaited.notify hupdate).2
  | ended => rfl
  | _ => simp [Shutdown.liveStep, hlive, hupdate] at hblocked

/-- **The client ends.** In every run whose steps of the update thread meet the
condition, no stuck state is reached. -/
theorem shutdown_not_stuck {client : Shutdown}
    (hreached : shutdown.Reaches ShutdownStepOk client) : ¬ client.Stuck := by
  rintro ⟨-, hacked, -, hrunning, -, hsocket, hupdate, hlive⟩
  have hawaited := awaited_of_reaches hreached
  have hsocketEnded := socket_ended hawaited hacked hsocket
  have hupdateEnded := update_ended hawaited hsocketEnded hupdate
  exact hrunning ⟨hsocketEnded, hupdateEnded, live_ended hawaited hupdateEnded (hlive true)⟩

/-- An update, a probe and an end of the training that all threads survive. -/
theorem shutdown_after_probe : ∃ client : Shutdown, client.Ended ∧ ¬ client.Stuck := by
  have hrun : ∃ client, shutdown.Reaches ShutdownStepOk client ∧ decide client.Ended = true :=
    Machine.exists_reaches
      [.live true, .live true, .update, .update, .send ⟨0, 4⟩, .socket, .update, .update,
        .send ⟨-2, -2⟩, .socket, .live true, .live true, .live true, .live true, .update, .signal,
        .handler, .ack, .socket, .socket, .update, .update, .update, .update, .live true]
      (by decide +kernel) (by decide +kernel)
  obtain ⟨client, hreached, hended⟩ := hrun
  exact ⟨client, of_decide_eq_true hended, shutdown_not_stuck hreached⟩

/-- The acknowledgement arrives before the flag is set. -/
theorem early_ack_sticks : ∃ client, shutdown.Reaches Machine.Unguarded client ∧ client.Stuck := by
  have hrun : ∃ client, shutdown.Reaches Machine.Unguarded client ∧
      decide client.Stuck = true :=
    Machine.exists_reaches_unguarded
      [.live true, .live true, .update, .update, .signal, .ack, .socket, .socket, .update, .update,
        .update, .handler]
      (by decide +kernel)
  obtain ⟨client, hreached, hstuck⟩ := hrun
  exact ⟨client, hreached, of_decide_eq_true hstuck⟩

end ContainerScheduler.Analysis
