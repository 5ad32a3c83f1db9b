/-
# An `exit` that crosses a probe

The reply to a probe and the end of the training share one channel. A container
that has said `exit` is treated as finished unless its `exit` meets a probe: the
thread reads the reply to its probe, and takes whatever it reads instead of
`live` for the death of the container.

The condition on the steps says when the two do not meet. No receive that
matters times out once `exit` was sent, the client does not end between a probe
and the reply to it, and the `exit` can be handled when it is read. Then the
receives that remain remove the container and acknowledge.
-/

import ContainerScheduler.Wire.Connection

namespace ContainerScheduler.Analysis

open Wire Math

/-- The condition under which `exit` and the probes do not meet. -/
def ExitStepOk (connection : Connection) : ConnectionStep → Prop
  | .timeout _ =>
      match connection.thread with
      | .waitInit attempts => attempts + 1 = initAttempts → connection.exitSent = false
      | _ => connection.exitSent = false
  | .receive env _ =>
      connection.thread = .waitMessage → connection.toScheduler.head? = some .exit →
        env.epochsReadable = true ∧ env.listed = true
  | .clientExit =>
      match connection.thread with
      | .waitLive => connection.toScheduler.head? = some .live
      | .ended => False
      | _ => True
  | _ => True

instance (connection : Connection) (step : ConnectionStep) :
    Decidable (ExitStepOk connection step) := by
  unfold ExitStepOk
  cases step
  case timeout | clientExit => cases connection.thread <;> infer_instance
  all_goals infer_instance

/-- The label is a receive of the thread. -/
def IsReceive (_ : Connection) : ConnectionStep → Prop
  | .receive .. => True
  | _ => False

/-- A container that said `exit` is treated as finished: no failure was declared
after it, and receiving alone leads to its removal and the acknowledgement. -/
def TreatedAsFinished (state : Connection) : Prop :=
  state.failedAfterExit = false ∧
    ∃ final, Wire.connection.Leads IsReceive state final ∧ final.removed = true ∧
      final.acked = true

/-! ## The invariant -/

/-- What the channel to the scheduler holds while no probe is open. -/
def exitIfSent (state : Connection) : List ClientMessage :=
  if state.exitSent then [.exit] else []

/-- The probes that are on their way to the client or being answered. -/
def openProbes (state : Connection) : ℕ :=
  state.toClient.count .probe + state.probed.toNat

/-- What the channels can hold at each point of the thread. -/
def ChannelsFit (state : Connection) : Prop :=
  match state.thread with
  | .starting =>
      state.toClient = [] ∧ state.probed = false ∧ state.toScheduler = [] ∧
        state.parametersReceived = false ∧ state.initSent = false ∧ state.exitSent = false
  | .waitInit _ =>
      openProbes state = 0 ∧
        if state.initSent then state.toScheduler = .init :: exitIfSent state
        else state.toScheduler = [] ∧ state.exitSent = false
  | .waitMessage =>
      openProbes state = 0 ∧ state.initSent = true ∧ state.toScheduler = exitIfSent state
  | .waitLive =>
      state.initSent = true ∧
        ((openProbes state ≤ 1 ∧ state.toScheduler = [] ∧ state.exitSent = false) ∨
          (openProbes state = 0 ∧ (state.toScheduler = .live :: exitIfSent state ∨
            state.toScheduler = [.error] ∧ state.exitSent = false)))
  | .ended =>
      (state.removed = true ∧ state.acked = true) ∨ state.exitSent = false

/-- The invariant of runs whose steps meet the condition. -/
structure ExitInvariant (state : Connection) : Prop where
  inTime : state.failedAfterExit = false
  channels : ChannelsFit state

theorem exitInvariant_init : ExitInvariant connection.init :=
  ⟨rfl, rfl, rfl, rfl, rfl, rfl, rfl⟩

variable {state after : Connection}

/-- A time-out allowed by the condition keeps the invariant. -/
theorem exitInvariant_timeout {stopped : Bool} (hinv : ExitInvariant state)
    (hok : ExitStepOk state (.timeout stopped))
    (hstep : state.step (.timeout stopped) = some after) : ExitInvariant after := by
  obtain ⟨htime, hchannels⟩ := hinv
  obtain ⟨⟨thread, effect⟩, hmove, rfl⟩ := Option.map_eq_some_iff.mp hstep
  cases hthread : state.thread with
  | waitInit attempts =>
      simp only [ExitStepOk, hthread] at hok
      simp only [hthread, ThreadPc.onTimeout] at hmove
      simp only [ChannelsFit, hthread] at hchannels
      split at hmove
      next htenth =>
          cases hmove
          exact ⟨by simp [Connection.move, htime, hok htenth], hchannels⟩
      · cases hmove
        exact ⟨htime, hchannels⟩
  | waitMessage =>
      simp only [ExitStepOk, hthread] at hok
      simp only [hthread, ThreadPc.onTimeout] at hmove
      simp only [ChannelsFit, hthread, exitIfSent, hok] at hchannels
      cases hmove
      obtain ⟨hnone, hinit, hempty⟩ := hchannels
      refine ⟨htime, hinit, .inl ⟨?_, hempty, hok⟩⟩
      have hopen : openProbes (state.move stopped (.waitLive, .sendProbe)) =
          openProbes state + 1 := by
        simp only [openProbes, Connection.move, List.count_append, List.count_singleton_self]
        omega
      omega
  | waitLive =>
      simp only [ExitStepOk, hthread] at hok
      simp only [hthread, ThreadPc.onTimeout] at hmove
      cases hmove
      exact ⟨by simp [Connection.move, htime, hok], .inr hok⟩
  | starting => simp [hthread, ThreadPc.onTimeout] at hmove
  | ended => simp [hthread, ThreadPc.onTimeout] at hmove

theorem exitInvariant_receive {env : ExitEnv} {stopped : Bool} (hinv : ExitInvariant state)
    (hok : ExitStepOk state (.receive env stopped))
    (hstep : state.step (.receive env stopped) = some after) : ExitInvariant after := by
  obtain ⟨htime, hchannels⟩ := hinv
  simp only [Connection.step] at hstep
  split at hstep
  · cases hstep
  next message messages hmessages =>
      obtain ⟨⟨thread, effect⟩, hmove, rfl⟩ := Option.map_eq_some_iff.mp hstep
      cases hthread : state.thread with
      | waitInit attempts =>
          simp only [hthread, ThreadPc.onMessage] at hmove
          simp only [ChannelsFit, hthread, hmessages] at hchannels
          cases hmove
          obtain ⟨hnone, hchannel⟩ := hchannels
          cases hinit : state.initSent with
          | false => simp [hinit] at hchannel
          | true =>
              simp only [hinit, if_true, List.cons.injEq] at hchannel
              exact ⟨htime, hnone, rfl, hchannel.2⟩
      | waitMessage =>
          simp only [ExitStepOk, hthread, hmessages, List.head?_cons] at hok
          simp only [ChannelsFit, hthread, hmessages, exitIfSent] at hchannels
          obtain ⟨hnone, hinit, hchannel⟩ := hchannels
          cases hexit : state.exitSent with
          | false => simp [hexit] at hchannel
          | true =>
              simp only [hexit, if_true, List.cons.injEq] at hchannel
              obtain ⟨rfl, rfl⟩ := hchannel
              have henv := hok trivial rfl
              simp only [hthread, ThreadPc.onMessage, henv, and_self, if_true] at hmove
              cases hmove
              exact ⟨htime, .inl ⟨rfl, rfl⟩⟩
      | waitLive =>
          simp only [ChannelsFit, hthread, hmessages] at hchannels
          obtain ⟨hinit, ⟨-, hempty, -⟩ | ⟨hnone, hchannel | ⟨hchannel, hexit⟩⟩⟩ := hchannels
          · cases hempty
          · obtain ⟨rfl, rfl⟩ := List.cons.inj hchannel
            simp only [hthread, ThreadPc.onMessage] at hmove
            cases hmove
            exact ⟨htime, hnone, hinit, rfl⟩
          · obtain ⟨rfl, rfl⟩ := List.cons.inj hchannel
            simp only [hthread, ThreadPc.onMessage] at hmove
            cases hmove
            exact ⟨by simp [Connection.move, htime, hexit], .inr hexit⟩
      | starting => simp [hthread, ThreadPc.onMessage] at hmove
      | ended => simp [hthread, ThreadPc.onMessage] at hmove

theorem channelsFit_of_openProbes_le (hchannels : ChannelsFit state)
    (hstarted : state.thread ≠ .starting) (hprobes : openProbes after ≤ openProbes state)
    (hthread : after.thread = state.thread) (hscheduler : after.toScheduler = state.toScheduler)
    (hinit : after.initSent = state.initSent) (hexit : after.exitSent = state.exitSent)
    (hremoved : after.removed = state.removed) (hacked : after.acked = state.acked) :
    ChannelsFit after := by
  have hnone : openProbes state = 0 → openProbes after = 0 := fun hzero =>
    Nat.le_zero.mp (hzero ▸ hprobes)
  unfold ChannelsFit exitIfSent at hchannels ⊢
  rw [hthread, hscheduler, hinit, hexit, hremoved, hacked]
  split at hchannels
  next hstarting => exact absurd hstarting hstarted
  next => exact ⟨hnone hchannels.1, hchannels.2⟩
  next => exact ⟨hnone hchannels.1, hchannels.2⟩
  next =>
      obtain ⟨hsent, ⟨hle, hempty⟩ | ⟨hzero, hchannel⟩⟩ := hchannels
      · exact ⟨hsent, .inl ⟨Nat.le_trans hprobes hle, hempty⟩⟩
      · exact ⟨hsent, .inr ⟨hnone hzero, hchannel⟩⟩
  next => exact hchannels

/-- The client opens no probe by taking a message. -/
theorem exitInvariant_clientReceive {waiting : Bool} (hinv : ExitInvariant state)
    (hstep : state.clientReceive waiting = some after) : ExitInvariant after := by
  obtain ⟨htime, hchannels⟩ := hinv
  unfold Connection.clientReceive at hstep
  split at hstep
  · cases hstep
  next message messages hmessages =>
      have hstarted : state.thread ≠ .starting := by
        intro hthread
        simp [ChannelsFit, hthread, hmessages] at hchannels
      have hother : openProbes { state with toClient := messages } ≤ openProbes state := by
        simp only [openProbes, hmessages, List.count_cons]
        omega
      split at hstep
      · split at hstep
        · split at hstep
          · obtain rfl := Option.some.inj hstep
            refine ⟨htime, channelsFit_of_openProbes_le hchannels hstarted ?_ rfl rfl rfl rfl rfl
              rfl⟩
            simp only [openProbes, hmessages, List.count_cons_self]
            cases state.probed <;> cases waiting <;> simp
          · obtain rfl := Option.some.inj hstep
            exact ⟨htime, channelsFit_of_openProbes_le hchannels hstarted hother rfl rfl rfl rfl
              rfl rfl⟩
        · cases hstep
      · obtain rfl := Option.some.inj hstep
        exact ⟨htime, channelsFit_of_openProbes_le hchannels hstarted hother rfl rfl rfl rfl
          rfl rfl⟩

/-- A reply that arrives alone fits where the thread waits for it. -/
theorem channelsFit_of_reply (hthread : after.thread = .waitLive) (hinit : after.initSent = true)
    (hclosed : openProbes after = 0) (hexit : after.exitSent = false)
    (hreply : after.toScheduler = [.live] ∨ after.toScheduler = [.error]) : ChannelsFit after := by
  simp only [ChannelsFit, hthread]
  refine ⟨hinit, .inr ⟨hclosed, ?_⟩⟩
  obtain hlive | herror := hreply
  · exact .inl (by simp [hlive, exitIfSent, hexit])
  · exact .inr ⟨herror, hexit⟩

/-- The client answers the open probe, which the thread then waits for. -/
theorem exitInvariant_clientReply {recent : Bool} (hinv : ExitInvariant state)
    (hstep : state.step (.clientReply recent) = some after) : ExitInvariant after := by
  obtain ⟨htime, hchannels⟩ := hinv
  simp only [Connection.step] at hstep
  split at hstep
  next hanswers =>
      have hprobed : state.probed = true := hanswers.2
      have hclosed : openProbes { state with probed := false } + 1 = openProbes state := by
        simp [openProbes, hprobed]
      split at hstep
      · obtain rfl := Option.some.inj hstep
        have hstarted : state.thread ≠ .starting := by
          intro hthread
          simp [ChannelsFit, hthread, hprobed] at hchannels
        refine ⟨htime, channelsFit_of_openProbes_le hchannels hstarted ?_ rfl rfl rfl rfl rfl rfl⟩
        omega
      · obtain rfl := Option.some.inj hstep
        refine ⟨htime, ?_⟩
        cases hthread : state.thread with
        | waitLive =>
            simp only [ChannelsFit, hthread] at hchannels
            obtain ⟨hinit, ⟨hle, hempty, hexit⟩ | ⟨hzero, -⟩⟩ := hchannels
            · have hnone : openProbes { state with probed := false } = 0 := by omega
              rw [← hthread]
              refine channelsFit_of_reply hthread hinit hnone hexit ?_
              cases recent <;> simp [Connection.send, Connection.liveStatus, hempty]
            · omega
        | ended =>
            simp only [ChannelsFit, hthread] at hchannels
            simpa only [ChannelsFit, Connection.send, hthread] using hchannels
        | starting => simp [ChannelsFit, hthread, hprobed] at hchannels
        | waitInit attempts =>
            simp only [ChannelsFit, hthread] at hchannels
            omega
        | waitMessage =>
            simp only [ChannelsFit, hthread] at hchannels
            omega
  · cases hstep

/-- The end of the training keeps the invariant where the condition allows it. -/
theorem exitInvariant_clientExit (hinv : ExitInvariant state) (hok : ExitStepOk state .clientExit)
    (hstep : state.step .clientExit = some after) : ExitInvariant after := by
  obtain ⟨htime, hchannels⟩ := hinv
  simp only [Connection.step] at hstep
  split at hstep
  next henabled =>
      obtain ⟨-, hinit, hexit⟩ := henabled
      have hexit : state.exitSent = false := by simpa using hexit
      obtain rfl := Option.some.inj hstep
      refine ⟨htime, ?_⟩
      cases hthread : state.thread with
      | starting =>
          simp only [ChannelsFit, hthread] at hchannels
          simp [hchannels.2.2.2.2.1] at hinit
      | waitInit attempts =>
          simp only [ChannelsFit, hthread, hinit, if_true, exitIfSent, hexit] at hchannels
          simp only [ChannelsFit, Connection.send, hinit, if_true, exitIfSent]
          exact ⟨hchannels.1, by simp [hchannels.2]⟩
      | waitMessage =>
          simp only [ChannelsFit, hthread, hinit, exitIfSent, hexit] at hchannels
          simp only [ChannelsFit, Connection.send, hinit, exitIfSent]
          exact ⟨hchannels.1, trivial, by simp [hchannels.2.2]⟩
      | waitLive =>
          simp only [ExitStepOk, hthread] at hok
          simp only [ChannelsFit, hthread, exitIfSent, hexit] at hchannels
          simp only [ChannelsFit, Connection.send, hinit, exitIfSent]
          obtain ⟨-, ⟨-, hempty, -⟩ | ⟨hzero, hlive | ⟨herror, -⟩⟩⟩ := hchannels
          · simp [hempty] at hok
          · exact ⟨trivial, .inr ⟨hzero, .inl (by simp [hlive])⟩⟩
          · simp [herror] at hok
      | ended => simp [ExitStepOk, hthread] at hok
  · cases hstep

/-- **One step.** A step that meets the condition keeps the invariant. -/
theorem exitInvariant_step {step : ConnectionStep} (hinv : ExitInvariant state)
    (hok : ExitStepOk state step) (hstep : state.step step = some after) :
    ExitInvariant after := by
  cases step with
  | timeout stopped => exact exitInvariant_timeout hinv hok hstep
  | receive env stopped => exact exitInvariant_receive hinv hok hstep
  | clientReceive waiting =>
      simp only [Connection.step, Option.ite_none_right_eq_some] at hstep
      exact exitInvariant_clientReceive hinv hstep.2
  | clientReply recent => exact exitInvariant_clientReply hinv hstep
  | clientExit => exact exitInvariant_clientExit hinv hok hstep
  | sendParameters =>
      obtain ⟨htime, hchannels⟩ := hinv
      simp only [Connection.step, Option.ite_none_right_eq_some] at hstep
      obtain ⟨hthread, hafter⟩ := hstep
      obtain rfl := Option.some.inj hafter
      simp only [ChannelsFit, hthread] at hchannels
      obtain ⟨hclient, hprobed, hscheduler, -, hinit, hexit⟩ := hchannels
      exact ⟨htime, by simp [ChannelsFit, openProbes, hclient, hprobed, hscheduler, hinit, hexit]⟩
  | sendUpdate =>
      obtain ⟨htime, hchannels⟩ := hinv
      simp only [Connection.step, Option.ite_none_left_eq_some] at hstep
      obtain ⟨hstarted, hafter⟩ := hstep
      obtain rfl := Option.some.inj hafter
      refine ⟨htime, channelsFit_of_openProbes_le hchannels hstarted ?_ rfl rfl rfl rfl rfl rfl⟩
      simp [openProbes]
  | clientInit =>
      obtain ⟨htime, hchannels⟩ := hinv
      simp only [Connection.step, Option.ite_none_right_eq_some] at hstep
      obtain ⟨⟨-, hparameters, hinit⟩, hafter⟩ := hstep
      obtain rfl := Option.some.inj hafter
      refine ⟨htime, ?_⟩
      cases hthread : state.thread <;>
        simp_all [ChannelsFit, Connection.send, openProbes, exitIfSent]
  | clientFinalize =>
      obtain ⟨htime, hchannels⟩ := hinv
      simp only [Connection.step, Option.ite_none_right_eq_some] at hstep
      obtain ⟨-, hafter⟩ := hstep
      obtain rfl := Option.some.inj hafter
      exact ⟨htime, hchannels⟩

theorem exitInvariant_of_reaches (hreached : Wire.connection.Reaches ExitStepOk state) :
    ExitInvariant state :=
  hreached.invariant (P := ExitInvariant) exitInvariant_init
    fun _ _ _ _ hinv hok hstep => exitInvariant_step hinv hok hstep

/-! ## The remaining receives -/

theorem leads_receive {middle final : Connection} {env : ExitEnv} {stopped : Bool}
    (hstep : state.step (.receive env stopped) = some middle)
    (hrest : Wire.connection.Leads IsReceive middle final) :
    Wire.connection.Leads IsReceive state final :=
  .step (show IsReceive state (.receive env stopped) from trivial) hstep hrest

/-- From where the thread waits for messages, one receive handles the `exit`. -/
theorem leads_of_waitMessage (state : Connection) (hthread : state.thread = .waitMessage)
    (hchannel : state.toScheduler = [.exit]) :
    ∃ final, Wire.connection.Leads IsReceive state final ∧ final.removed = true ∧
      final.acked = true := by
  have hstep : state.step (.receive ⟨true, true⟩ false) = some
      ({ state with toScheduler := [] }.move false (.ended, .finish)) := by
    simp [Connection.step, hchannel, hthread, ThreadPc.onMessage]
  exact ⟨_, leads_receive hstep (.refl _), rfl, rfl⟩

/-- **The exit is treated.** In every run whose steps meet the condition, a
container that has said `exit` is treated as finished. -/
theorem exit_treated_of_reaches (hreached : Wire.connection.Reaches ExitStepOk state)
    (hexit : state.exitSent = true) : TreatedAsFinished state := by
  obtain ⟨htime, hchannels⟩ := exitInvariant_of_reaches hreached
  refine ⟨htime, ?_⟩
  cases hthread : state.thread with
  | starting => simp [ChannelsFit, hthread, hexit] at hchannels
  | waitInit attempts =>
      simp only [ChannelsFit, hthread, exitIfSent, hexit, if_true] at hchannels
      obtain ⟨-, hchannel⟩ := hchannels
      have hchannel : state.toScheduler = [.init, .exit] := by
        split at hchannel
        · exact hchannel
        · cases hchannel.2
      have hstep : state.step (.receive ⟨true, true⟩ false) = some
          ({ state with toScheduler := [.exit] }.move false (.waitMessage, .nothing)) := by
        simp [Connection.step, hchannel, hthread, ThreadPc.onMessage]
      obtain ⟨final, hleads, hfinal⟩ := leads_of_waitMessage
        ({ state with toScheduler := [.exit] }.move false (.waitMessage, .nothing)) rfl rfl
      exact ⟨final, leads_receive hstep hleads, hfinal⟩
  | waitMessage =>
      simp only [ChannelsFit, hthread, exitIfSent, hexit, if_true] at hchannels
      exact leads_of_waitMessage state hthread hchannels.2.2
  | waitLive =>
      simp only [ChannelsFit, hthread, exitIfSent, hexit, if_true] at hchannels
      have hchannel : state.toScheduler = [.live, .exit] := by
        obtain ⟨-, ⟨-, -, hnot⟩ | ⟨-, hlive | ⟨-, hnot⟩⟩⟩ := hchannels
        · cases hnot
        · exact hlive
        · cases hnot
      have hstep : state.step (.receive ⟨true, true⟩ false) = some
          ({ state with toScheduler := [.exit] }.move false (.waitMessage, .nothing)) := by
        simp [Connection.step, hchannel, hthread, ThreadPc.onMessage]
      obtain ⟨final, hleads, hfinal⟩ := leads_of_waitMessage
        ({ state with toScheduler := [.exit] }.move false (.waitMessage, .nothing)) rfl rfl
      exact ⟨final, leads_receive hstep hleads, hfinal⟩
  | ended =>
      simp only [ChannelsFit, hthread, hexit] at hchannels
      obtain hdone | hnot := hchannels
      · exact ⟨state, .refl _, hdone⟩
      · cases hnot

section Runs

/-- A probe that is answered before the training ends does no harm. -/
theorem exit_after_live_treated : ∃ state : Connection,
    state.toScheduler = [.live, .exit] ∧ TreatedAsFinished state := by
  have hrun : ∃ state, Wire.connection.Reaches ExitStepOk state ∧
      decide (state.exitSent = true ∧ state.toScheduler = [.live, .exit]) = true :=
    Machine.exists_reaches
      [.sendParameters, .clientReceive true, .clientInit, .receive ⟨true, true⟩ true,
        .timeout true, .clientReceive true, .clientReply true, .clientExit]
      (by decide) (by decide)
  obtain ⟨state, hreached, hstate⟩ := hrun
  obtain ⟨hexit, hchannel⟩ := of_decide_eq_true hstate
  exact ⟨state, hchannel, exit_treated_of_reaches hreached hexit⟩

/-- A training that ends while a probe is on its way is taken for dead. -/
theorem crossing_exit_not_treated :
    ¬ ∀ state, Wire.connection.Reaches Machine.Unguarded state → state.exitSent = true →
      TreatedAsFinished state := by
  intro hclaim
  have hrun : ∃ state, Wire.connection.Reaches Machine.Unguarded state ∧
      decide (state.exitSent = true ∧ state.failedAfterExit = true) = true :=
    Machine.exists_reaches_unguarded
      [.sendParameters, .clientReceive true, .clientInit, .receive ⟨true, true⟩ true,
        .timeout true, .clientExit, .receive ⟨true, true⟩ true]
      (by decide)
  obtain ⟨state, hreached, hstate⟩ := hrun
  obtain ⟨hexit, hfailed⟩ := of_decide_eq_true hstate
  have htreated := (hclaim state hreached hexit).1
  rw [hfailed] at htreated
  cases htreated

end Runs

end ContainerScheduler.Analysis
