/-
# The rendezvous matches in order

Under one key the values and the receives wait in one queue, never both. A receive is
in a queue, or its `done` is to be called, or has been called, and it is in one of
these places once. Under each key the values that were delivered are the first that
were sent, in order, and they went to the first receives that arrived, in order, less
those that cancellation took. After an abort nothing is matched, and the receives that
waited are completed with its status.
-/

import ContainerScheduler.Analysis.RendezvousEffects

namespace ContainerScheduler.Analysis

open Math Rendezvous Effects

universe u

/-! ## Numbers in queues -/

section InOnePlace

variable {ι : Type u} {queued : ι → List ℕ} {settled settled' : List ℕ} {issued : ℕ}

/-- Each number issued is in one queue, once, or settled, once. -/
structure InOnePlace (queued : ι → List ℕ) (settled : List ℕ) (issued : ℕ) : Prop where
  nodup : ∀ name, (queued name).Nodup
  disjoint : ∀ name other, name ≠ other → List.Disjoint (queued name) (queued other)
  settled_nodup : settled.Nodup
  apart : ∀ name, List.Disjoint (queued name) settled
  issued_iff : ∀ number, number < issued ↔ (∃ name, number ∈ queued name) ∨ number ∈ settled

theorem InOnePlace.perm (hplaced : InOnePlace queued settled issued)
    (hperm : settled'.Perm settled) : InOnePlace queued settled' issued where
  nodup := hplaced.nodup
  disjoint := hplaced.disjoint
  settled_nodup := hperm.nodup_iff.mpr hplaced.settled_nodup
  apart name number hqueued hsettled := hplaced.apart name hqueued (hperm.mem_iff.mp hsettled)
  issued_iff number := by rw [hplaced.issued_iff number, hperm.mem_iff]

/-- The next number is settled at once. -/
theorem InOnePlace.settle (hplaced : InOnePlace queued settled issued)
    (hperm : settled'.Perm (issued :: settled)) : InOnePlace queued settled' (issued + 1) := by
  have hfresh : issued ∉ settled := fun hmem =>
    (Nat.lt_irrefl issued) ((hplaced.issued_iff issued).mpr (.inr hmem))
  have hqueued : ∀ name, issued ∉ queued name := fun name hmem =>
    (Nat.lt_irrefl issued) ((hplaced.issued_iff issued).mpr (.inl ⟨name, hmem⟩))
  have hcons : InOnePlace queued (issued :: settled) (issued + 1) := by
    refine ⟨hplaced.nodup, hplaced.disjoint, List.nodup_cons.mpr ⟨hfresh, hplaced.settled_nodup⟩,
      fun name number hnumber hmem => ?_, fun number => ?_⟩
    · cases List.mem_cons.mp hmem with
      | inl heq => exact hqueued name (heq ▸ hnumber)
      | inr hmem => exact hplaced.apart name hnumber hmem
    · rw [Nat.lt_succ_iff_lt_or_eq, hplaced.issued_iff number, List.mem_cons]
      constructor
      · rintro ((hname | hmem) | heq)
        · exact .inl hname
        · exact .inr (.inr hmem)
        · exact .inr (.inl heq)
      · rintro (hname | heq | hmem)
        · exact .inl (.inl hname)
        · exact .inr heq
        · exact .inl (.inr hmem)
  exact hcons.perm hperm

variable [DecidableEq ι] {name : ι}

/-- The next number is queued. -/
theorem InOnePlace.enqueue (hplaced : InOnePlace queued settled issued) (name : ι) :
    InOnePlace (Function.update queued name (queued name ++ [issued])) settled (issued + 1) := by
  have hfresh : issued ∉ settled := fun hmem =>
    (Nat.lt_irrefl issued) ((hplaced.issued_iff issued).mpr (.inr hmem))
  have hqueued : ∀ name, issued ∉ queued name := fun name hmem =>
    (Nat.lt_irrefl issued) ((hplaced.issued_iff issued).mpr (.inl ⟨name, hmem⟩))
  have hmem : ∀ other number,
      number ∈ Function.update queued name (queued name ++ [issued]) other ↔
        number ∈ queued other ∨ (other = name ∧ number = issued) := by
    intro other number
    by_cases hother : other = name
    · subst hother
      simp
    · simp [hother]
  refine ⟨fun other => ?_, fun first second hne number hfirst hsecond => ?_,
    hplaced.settled_nodup, fun other number hnumber hsettled => ?_, fun number => ?_⟩
  · by_cases hother : other = name
    · subst hother
      rw [Function.update_self]
      refine List.nodup_append.mpr ⟨hplaced.nodup other, List.nodup_singleton _, ?_⟩
      rintro number hnumber _ hissued rfl
      exact hqueued other (List.mem_singleton.mp hissued ▸ hnumber)
    · rw [Function.update_of_ne hother]
      exact hplaced.nodup other
  · rw [hmem] at hfirst hsecond
    obtain hfirst | ⟨rfl, rfl⟩ := hfirst
    · obtain hsecond | ⟨-, rfl⟩ := hsecond
      · exact hplaced.disjoint first second hne hfirst hsecond
      · exact hqueued first hfirst
    · obtain hsecond | ⟨rfl, -⟩ := hsecond
      · exact hqueued second hsecond
      · exact hne rfl
  · obtain hnumber | ⟨-, rfl⟩ := (hmem other number).mp hnumber
    · exact hplaced.apart other hnumber hsettled
    · exact hfresh hsettled
  · rw [Nat.lt_succ_iff_lt_or_eq, hplaced.issued_iff number]
    constructor
    · rintro ((⟨other, hother⟩ | hsettled) | rfl)
      · exact .inl ⟨other, (hmem other number).mpr (.inl hother)⟩
      · exact .inr hsettled
      · exact .inl ⟨name, (hmem name number).mpr (.inr ⟨rfl, rfl⟩)⟩
    · rintro (⟨other, hother⟩ | hsettled)
      · obtain hother | ⟨-, rfl⟩ := (hmem other number).mp hother
        · exact .inl (.inl ⟨other, hother⟩)
        · exact .inr rfl
      · exact .inl (.inr hsettled)

/-- A number leaves its queue and is settled. -/
theorem InOnePlace.release (hplaced : InOnePlace queued settled issued) {before after : List ℕ}
    {number : ℕ} (hqueue : queued name = before ++ number :: after)
    (hperm : settled'.Perm (number :: settled)) :
    InOnePlace (Function.update queued name (before ++ after)) settled' issued := by
  have hnumber : number ∈ queued name := by simp [hqueue]
  have hnodup := hplaced.nodup name
  rw [hqueue, List.nodup_middle] at hnodup
  obtain ⟨hrest, hnodup⟩ := List.nodup_cons.mp hnodup
  have hmem : ∀ other third,
      third ∈ Function.update queued name (before ++ after) other ↔
        third ∈ queued other ∧ third ≠ number := by
    intro other third
    by_cases hother : other = name
    · subst hother
      rw [Function.update_self, hqueue]
      constructor
      · intro hthird
        refine ⟨by simp only [List.mem_append, List.mem_cons] at hthird ⊢; tauto, ?_⟩
        rintro rfl
        exact hrest hthird
      · rintro ⟨hthird, hne⟩
        simpa [hne] using hthird
    · rw [Function.update_of_ne hother, iff_self_and]
      rintro hthird rfl
      exact hplaced.disjoint other name hother hthird hnumber
  have hcons :
      InOnePlace (Function.update queued name (before ++ after)) (number :: settled) issued := by
    refine ⟨fun other => ?_, fun first second hne third hfirst hsecond => ?_,
      List.nodup_cons.mpr ⟨hplaced.apart name hnumber, hplaced.settled_nodup⟩,
      fun other third hthird hsettled => ?_, fun third => ?_⟩
    · by_cases hother : other = name
      · subst hother
        rwa [Function.update_self]
      · rw [Function.update_of_ne hother]
        exact hplaced.nodup other
    · exact hplaced.disjoint first second hne ((hmem first third).mp hfirst).1
        ((hmem second third).mp hsecond).1
    · obtain ⟨hqueued, hne⟩ := (hmem other third).mp hthird
      cases List.mem_cons.mp hsettled with
      | inl heq => exact hne heq
      | inr hsettled => exact hplaced.apart other hqueued hsettled
    · rw [hplaced.issued_iff third, List.mem_cons]
      by_cases hthird : third = number
      · subst hthird
        exact ⟨fun _ => .inr (.inl rfl), fun _ => .inl ⟨name, hnumber⟩⟩
      · simp [hmem, hthird]
  exact hcons.perm hperm

end InOnePlace

/-! ## What waits and what was answered -/

section Waiting

variable {τ ε μ κ η : Type u}

/-- The receives in a queue. -/
def waiting (items : List (Item τ μ)) : List ℕ :=
  items.filterMap fun
    | .send .. => none
    | .recv receive .. => some receive

/-- The values in a queue. -/
def values (items : List (Item τ μ)) : List (τ × Bool) :=
  items.filterMap fun
    | .send value isDead => some (value, isDead)
    | .recv .. => none

/-- A queue has values only, or receives only. -/
def Uniform (items : List (Item τ μ)) : Prop :=
  (∀ item ∈ items, item.isSend = true) ∨ ∀ item ∈ items, item.isSend = false

theorem Uniform.subset {items items' : List (Item τ μ)} (huniform : Uniform items)
    (hsubset : items' ⊆ items) : Uniform items' := by
  cases huniform with
  | inl hsends => exact .inl fun item hitem => hsends item (hsubset hitem)
  | inr hrecvs => exact .inr fun item hitem => hrecvs item (hsubset hitem)

/-- The calls of `done` that are to be made and those that were made. -/
def outcomes {Q : Type u} (state : State Q τ ε μ κ η) : List (ℕ × Outcome τ ε) :=
  state.calls.map (fun call => (call.receive, call.outcome)) ++ state.history.completed

/-- The receives under a key that cancellation has not taken, as they arrived. -/
def lasting {Q : Type u} (state : State Q τ ε μ κ η) (key : κ) : List ℕ :=
  (state.history.arrived key).filter fun receive => receive ∉ state.history.cancelled

/-- The receives and the values that were matched under a key. -/
def takers {Q : Type u} (state : State Q τ ε μ κ η) (key : κ) : List ℕ :=
  (state.history.delivered key).map Prod.fst

def taken {Q : Type u} (state : State Q τ ε μ κ η) (key : κ) : List (τ × Bool) :=
  (state.history.delivered key).map Prod.snd

end Waiting

/-! ## The queues -/

section Queues

variable {τ ε μ κ η : Type u} [DecidableEq μ] [DecidableEq κ] [DecidableEq η] {keyHash : κ → η}
  {state target : ListState τ ε μ κ η} {label : Label τ ε μ κ η}

/-- What holds of the lists: each is uniform, the table in use is empty once there was
an abort, and so are the tables of later generations. The status is that of the first
abort. -/
structure Tidy (state : ListState τ ε μ κ η) : Prop where
  uniform : ∀ name, Uniform (state.queues name)
  status_eq : state.status = state.aborts.head?
  aborted : state.status ≠ none → ∀ hash, live state hash = []
  later : ∀ name, state.generation < name.1 → state.queues name = []

omit [DecidableEq μ] [DecidableEq κ] in
/-- A queue of the table in use, or of one that an abort took, is replaced by a uniform
one; the table in use changes only before the first abort. -/
theorem Tidy.change (htidy : Tidy state) {name : ℕ × η} {items : List (Item τ μ)}
    (hqueues : target.queues = Function.update state.queues name items)
    (hstatus : target.status = state.status) (haborts : target.aborts = state.aborts)
    (hplace : name.1 < state.generation ∨ name.1 = state.generation ∧ state.status = none)
    (hitems : Uniform items) : Tidy target := by
  refine ⟨fun other => ?_, ?_, fun habort hash => ?_, fun other hlater => ?_⟩
  · rw [hqueues]
    exact (Function.forall_update_iff state.queues (p := fun _ items => Uniform items)).mpr
      ⟨hitems, fun other _ => htidy.uniform other⟩ other
  · rw [hstatus, haborts]
    exact htidy.status_eq
  · rw [hstatus] at habort
    have hne : state.name hash ≠ name := by
      rintro rfl
      obtain hlt | ⟨-, hopen⟩ := hplace
      · exact Nat.lt_irrefl _ hlt
      · exact habort hopen
    simp only [live, State.name, State.generation, haborts, hqueues]
    exact (Function.update_of_ne hne _ _).trans (htidy.aborted habort hash)
  · simp only [State.generation, haborts] at hlater
    have hne : other ≠ name := by
      rintro rfl
      obtain hlt | ⟨heq, -⟩ := hplace
      · exact absurd hlt (Nat.lt_asymm hlater)
      · exact absurd heq (Nat.ne_of_gt hlater)
    rw [hqueues, Function.update_of_ne hne]
    exact htidy.later other hlater

omit [DecidableEq μ] [DecidableEq κ] [DecidableEq η] in
/-- Something waits in the table in use only before the first abort. -/
theorem Tidy.open_of_live (htidy : Tidy state) {hash : η} {before after : List (Item τ μ)}
    {item : Item τ μ} (hlive : live state hash = before ++ item :: after) :
    state.status = none := by
  by_contra habort
  rw [htidy.aborted habort hash] at hlive
  simp at hlive

omit [DecidableEq μ] [DecidableEq κ] [DecidableEq η] in
/-- Behind a queue that no receive leads only values wait. -/
theorem Tidy.sends (htidy : Tidy state) {hash : η} (hfront : NoRecv state hash) :
    ∀ item ∈ live state hash, item.isSend = true := by
  cases htidy.uniform (state.name hash) with
  | inl hsends => exact hsends
  | inr hrecvs =>
      intro item hitem
      cases hlive : live state hash with
      | nil => simp [hlive] at hitem
      | cons first rest =>
          have hfirst : first.isSend = false := hrecvs first (by
            rw [show state.queues (state.name hash) = first :: rest from hlive]
            exact List.mem_cons_self)
          cases first with
          | send _ _ => contradiction
          | recv receive own token => exact absurd (by rw [hlive]; rfl) (hfront receive own token)

omit [DecidableEq μ] [DecidableEq κ] [DecidableEq η] in
/-- Behind a queue that no value leads only receives wait. -/
theorem Tidy.recvs (htidy : Tidy state) {hash : η} (hfront : NoSend state hash) :
    ∀ item ∈ live state hash, item.isSend = false := by
  cases htidy.uniform (state.name hash) with
  | inr hrecvs => exact hrecvs
  | inl hsends =>
      intro item hitem
      cases hlive : live state hash with
      | nil => simp [hlive] at hitem
      | cons first rest =>
          have hfirst : first.isSend = true := hsends first (by
            rw [show state.queues (state.name hash) = first :: rest from hlive]
            exact List.mem_cons_self)
          cases first with
          | send value isDead => exact absurd (by rw [hlive]; rfl) (hfront value isDead)
          | recv _ _ _ => contradiction

omit [DecidableEq μ] [DecidableEq κ] [DecidableEq η] in
theorem Tidy.part (htidy : Tidy state) {hash : η} {items items' : List (Item τ μ)}
    (hlive : live state hash = items) (hsubset : items' ⊆ items) : Uniform items' :=
  (htidy.uniform (state.name hash)).subset
    (by rw [show state.queues (state.name hash) = items from hlive]; exact hsubset)

theorem Tidy.effect (htidy : Tidy state) (heffect : StepEffect keyHash state label target) :
    Tidy target := by
  cases heffect with
  | rejected _ => exact htidy
  | @posted key value isDead hstatus hfront =>
      refine htidy.change rfl rfl rfl (.inr ⟨rfl, hstatus⟩) (.inl fun item hitem => ?_)
      rw [List.mem_append, List.mem_singleton] at hitem
      obtain hitem | rfl := hitem
      · exact htidy.sends hfront item hitem
      · rfl
  | sentTo hstatus hlive =>
      exact htidy.change rfl rfl rfl (.inr ⟨rfl, hstatus⟩)
        (htidy.part hlive (List.subset_cons_self _ _))
  | late _ => exact ⟨htidy.uniform, htidy.status_eq, htidy.aborted, htidy.later⟩
  | receivedFrom hstatus hlive =>
      exact htidy.change rfl rfl rfl (.inr ⟨rfl, hstatus⟩)
        (htidy.part hlive (List.subset_cons_self _ _))
  | waits hstatus hfront =>
      refine htidy.change rfl rfl rfl (.inr ⟨rfl, hstatus⟩) (.inr fun item hitem => ?_)
      rw [List.mem_append, List.mem_singleton] at hitem
      obtain hitem | rfl := hitem
      · exact htidy.recvs hfront item hitem
      · rfl
  | registered hstatus hfront _ =>
      refine htidy.change rfl rfl rfl (.inr ⟨rfl, hstatus⟩) (.inr fun item hitem => ?_)
      rw [List.mem_append, List.mem_singleton] at hitem
      obtain hitem | rfl := hitem
      · exact htidy.recvs hfront item hitem
      · rfl
  | aborted =>
      have hlater : ∀ name, state.generation < name.1 → state.queues name = [] := htidy.later
      refine ⟨htidy.uniform, ?_, fun _ hash => hlater _ ?_, fun name hname => hlater name ?_⟩
      · simp [startAbort, htidy.status_eq]
      · simp [startAbort, State.name, State.generation]
      · simp only [startAbort, State.generation, List.length_append] at hname
        exact Nat.lt_of_succ_lt hname
  | droppedItem habort hqueue =>
      refine htidy.change rfl rfl rfl (.inl (List.getElem?_eq_some_iff.mp habort).1) ?_
      exact (htidy.uniform _).subset (by rw [hqueue]; exact List.subset_cons_self _ _)
  | abortedItem habort hqueue =>
      refine htidy.change rfl rfl rfl (.inl (List.getElem?_eq_some_iff.mp habort).1) ?_
      exact (htidy.uniform _).subset (by rw [hqueue]; exact List.subset_cons_self _ _)
  | hit hcallback hlive hbefore =>
      refine htidy.change rfl rfl rfl (.inr ⟨rfl, htidy.open_of_live hlive⟩)
        (htidy.part hlive ?_)
      exact ((List.sublist_cons_self _ _).append_left _).subset
  | refused _ _ | deregistered _ _ | done _ _ | tokenTaken | cancelStarted _ | cancelReturned _
  | missed _ _ | cancelFinished _ _ =>
      exact ⟨htidy.uniform, htidy.status_eq, htidy.aborted, htidy.later⟩

end Queues

/-! ## The receives -/

section Receives

variable {τ ε μ κ η : Type u} [DecidableEq μ] [DecidableEq κ] [DecidableEq η] {keyHash : κ → η}
  {state target : ListState τ ε μ κ η} {label : Label τ ε μ κ η}

/-- Each receive is in one place. -/
def Located (state : ListState τ ε μ κ η) : Prop :=
  InOnePlace (fun name => waiting (state.queues name)) ((outcomes state).map Prod.fst)
    state.nextReceive

omit [DecidableEq μ] [DecidableEq κ] in
theorem waiting_update (name : ℕ × η) (items : List (Item τ μ)) :
    (fun other => waiting (Function.update state.queues name items other)) =
      Function.update (fun other => waiting (state.queues other)) name (waiting items) :=
  Function.comp_update waiting state.queues name items

omit [DecidableEq μ] [DecidableEq κ] [DecidableEq η] in
/-- A call to be made is answered first or last, which does not matter. -/
theorem outcomes_perm {history : History τ ε μ κ}
    (hcompleted : history.completed = state.history.completed) (call : Call τ ε μ) :
    ((state.calls ++ [call]).map (fun call => (call.receive, call.outcome)) ++
      history.completed).Perm ((call.receive, call.outcome) :: outcomes state) := by
  rw [hcompleted, List.map_append, List.append_assoc]
  exact List.perm_middle

omit [DecidableEq μ] [DecidableEq κ] [DecidableEq η] in
theorem outcomes_deregistered {index : ℕ} {call : Call τ ε μ}
    (hcall : state.calls[index]? = some call) :
    ((state.calls.set index { call with deregisters := none }).map
      (fun call => (call.receive, call.outcome)) ++ state.history.completed).Perm
        (outcomes state) := by
  obtain ⟨hindex, rfl⟩ := List.getElem?_eq_some_iff.mp hcall
  refine .of_eq (congrArg (· ++ state.history.completed) ?_)
  rw [List.map_set]
  refine List.ext_getElem? fun other => ?_
  rw [List.getElem?_set]
  split
  · rename_i heq
    subst heq
    simp [hindex]
  · rfl

omit [DecidableEq μ] [DecidableEq κ] [DecidableEq η] in
theorem outcomes_done {index : ℕ} {call : Call τ ε μ} (hcall : state.calls[index]? = some call) :
    ((state.calls.eraseIdx index).map (fun call => (call.receive, call.outcome)) ++
      (state.history.completed ++ [(call.receive, call.outcome)])).Perm (outcomes state) := by
  obtain ⟨hindex, rfl⟩ := List.getElem?_eq_some_iff.mp hcall
  have hmove := (List.getElem_cons_eraseIdx_perm hindex).map
    fun call => (call.receive, call.outcome)
  rw [← List.append_assoc]
  refine (List.perm_append_singleton _ _).trans ?_
  rw [← List.cons_append]
  exact hmove.append_right _

omit [DecidableEq μ] [DecidableEq κ] [DecidableEq η] in
/-- A call is added to those to be made. -/
theorem outcomes_push {calls : List (Call τ ε μ)} {history : History τ ε μ κ} {call : Call τ ε μ}
    (hcalls : calls = state.calls ++ [call])
    (hcompleted : history.completed = state.history.completed) :
    ((calls.map (fun call => (call.receive, call.outcome)) ++ history.completed).map
      Prod.fst).Perm (call.receive :: (outcomes state).map Prod.fst) := by
  subst hcalls
  exact (outcomes_perm hcompleted call).map Prod.fst

omit [DecidableEq μ] [DecidableEq κ] in
/-- Without a receive in it or taken from it, a queue may change. -/
theorem waiting_of_update {name : ℕ × η} {items : List (Item τ μ)}
    (hwaiting : waiting items = waiting (state.queues name)) :
    (fun other => waiting (Function.update state.queues name items other)) =
      fun other => waiting (state.queues other) := by
  rw [waiting_update, hwaiting]
  exact Function.update_eq_self _ _

omit [DecidableEq μ] [DecidableEq κ] [DecidableEq η] in
theorem Located.keep (hlocated : Located state)
    (hqueues : (fun name => waiting (target.queues name)) = fun name => waiting (state.queues name))
    (hperm : (outcomes target).Perm (outcomes state))
    (hissued : target.nextReceive = state.nextReceive) : Located target := by
  rw [Located, hqueues, hissued]
  exact InOnePlace.perm hlocated (hperm.map Prod.fst)

omit [DecidableEq μ] [DecidableEq κ] [DecidableEq η] in
theorem Located.settle (hlocated : Located state)
    (hqueues : (fun name => waiting (target.queues name)) = fun name => waiting (state.queues name))
    (hperm : ((outcomes target).map Prod.fst).Perm
      (state.nextReceive :: (outcomes state).map Prod.fst))
    (hissued : target.nextReceive = state.nextReceive + 1) : Located target := by
  rw [Located, hqueues, hissued]
  exact InOnePlace.settle hlocated hperm

omit [DecidableEq μ] [DecidableEq κ] in
theorem Located.enqueue (hlocated : Located state) {name : ℕ × η} {own : Option μ}
    {token : CancellationToken}
    (hqueues : target.queues = Function.update state.queues name
      (state.queues name ++ [.recv state.nextReceive own token]))
    (hcalls : target.calls = state.calls)
    (hcompleted : target.history.completed = state.history.completed)
    (hissued : target.nextReceive = state.nextReceive + 1) : Located target := by
  have hwaiting : waiting (state.queues name ++ [.recv state.nextReceive own token]) =
      waiting (state.queues name) ++ [state.nextReceive] := by simp [waiting]
  rw [Located, hqueues, hissued, waiting_update, hwaiting, outcomes, hcalls, hcompleted]
  exact InOnePlace.enqueue hlocated name

omit [DecidableEq μ] [DecidableEq κ] in
theorem Located.release (hlocated : Located state) {name : ℕ × η}
    {before after : List (Item τ μ)} {receive : ℕ} {own : Option μ} {token : CancellationToken}
    (hqueue : state.queues name = before ++ .recv receive own token :: after)
    (hqueues : target.queues = Function.update state.queues name (before ++ after))
    (hperm : ((outcomes target).map Prod.fst).Perm (receive :: (outcomes state).map Prod.fst))
    (hissued : target.nextReceive = state.nextReceive) : Located target := by
  have hwaiting : waiting (before ++ .recv receive own token :: after) =
      waiting before ++ receive :: waiting after := by simp [waiting]
  have happend : waiting (before ++ after) = waiting before ++ waiting after := by simp [waiting]
  rw [Located, hqueues, hissued, waiting_update, happend]
  exact InOnePlace.release hlocated ((congrArg waiting hqueue).trans hwaiting) hperm

omit [DecidableEq μ] [DecidableEq η] in
theorem nextReceive_issue (key : κ) (manager : Option μ) :
    (state.issue key manager).nextReceive = state.nextReceive + 1 :=
  List.length_append

theorem Located.effect (hlocated : Located state)
    (heffect : StepEffect keyHash state label target) : Located target := by
  cases heffect with
  | rejected _ => exact hlocated
  | @posted key value isDead _ _ =>
      have hwaiting : waiting (live state (keyHash key) ++ [.send value isDead]) =
          waiting (live state (keyHash key)) := by simp [waiting]
      exact hlocated.keep (waiting_of_update hwaiting) (.refl _) rfl
  | @sentTo key _ _ receive own token rest _ hlive =>
      have hqueue : live state (keyHash key) = [] ++ .recv receive own token :: rest := hlive
      exact hlocated.release hqueue rfl (outcomes_push rfl rfl) rfl
  | late _ => exact hlocated.settle rfl (outcomes_push rfl rfl) (nextReceive_issue _ _)
  | @receivedFrom key manager _ _ _ _ hlive =>
      refine hlocated.settle (waiting_of_update ?_) (outcomes_push rfl rfl)
        (nextReceive_issue key manager)
      exact (congrArg waiting hlive).symm
  | waits _ _ => exact hlocated.enqueue rfl rfl rfl (nextReceive_issue _ _)
  | registered _ _ _ => exact hlocated.enqueue rfl rfl rfl (nextReceive_issue _ _)
  | @refused key manager _ _ =>
      exact hlocated.settle rfl (outcomes_push rfl rfl) (nextReceive_issue key (some manager))
  | deregistered hcall _ => exact hlocated.keep rfl (outcomes_deregistered hcall) rfl
  | done hcall _ => exact hlocated.keep rfl (outcomes_done hcall) rfl
  | droppedItem _ hqueue =>
      exact hlocated.keep (waiting_of_update (congrArg waiting hqueue).symm) (.refl _) rfl
  | @abortedItem abort hash _ receive own token rest _ hitem =>
      have hqueue : state.queues (abort, hash) = [] ++ .recv receive own token :: rest := hitem
      exact hlocated.release hqueue rfl (outcomes_push rfl rfl) rfl
  | hit _ hlive _ => exact hlocated.release hlive rfl (outcomes_push rfl rfl) rfl
  | aborted | tokenTaken | cancelStarted _ | cancelReturned _ | missed _ _ | cancelFinished _ _ =>
      exact hlocated

end Receives

/-! ## The answers -/

section Answers

variable {τ ε μ κ η : Type u} [DecidableEq μ] [DecidableEq κ] [DecidableEq η] {keyHash : κ → η}
  {state target : ListState τ ε μ κ η} {label : Label τ ε μ κ η}

/-- What `done` says: the value that was delivered, that the receive was cancelled, or
the status of an abort. -/
structure Answered (state : ListState τ ε μ κ η) : Prop where
  ok_iff : ∀ receive value isDead, (receive, .ok value isDead) ∈ outcomes state ↔
    ∃ key, (receive, value, isDead) ∈ state.history.delivered key
  cancelled_iff : ∀ receive, (receive, .cancelled) ∈ outcomes state ↔
    receive ∈ state.history.cancelled
  aborted : ∀ receive status, (receive, .aborted status) ∈ outcomes state → status ∈ state.aborts

omit [DecidableEq μ] [DecidableEq κ] [DecidableEq η] in
theorem Answered.keep (hanswered : Answered state) (hperm : (outcomes target).Perm (outcomes state))
    (hdelivered : target.history.delivered = state.history.delivered)
    (hcancelled : target.history.cancelled = state.history.cancelled)
    (haborts : state.aborts ⊆ target.aborts) : Answered target := by
  refine ⟨fun receive value isDead => ?_, fun receive => ?_, fun receive status hmem => ?_⟩
  · rw [hperm.mem_iff, hdelivered]
    exact hanswered.ok_iff receive value isDead
  · rw [hperm.mem_iff, hcancelled]
    exact hanswered.cancelled_iff receive
  · exact haborts (hanswered.aborted receive status (hperm.mem_iff.mp hmem))

omit [DecidableEq μ] [DecidableEq η] in
theorem Answered.deliver (hanswered : Answered state) {key : κ} {receive : ℕ} {value : τ}
    {isDead : Bool}
    (hperm : (outcomes target).Perm ((receive, .ok value isDead) :: outcomes state))
    (hdelivered : target.history.delivered = Function.update state.history.delivered key
      (state.history.delivered key ++ [(receive, value, isDead)]))
    (hcancelled : target.history.cancelled = state.history.cancelled)
    (haborts : target.aborts = state.aborts) : Answered target := by
  refine ⟨fun other value' isDead' => ?_, fun other => ?_, fun other status hmem => ?_⟩
  · rw [hperm.mem_iff, hdelivered, List.mem_cons, hanswered.ok_iff]
    constructor
    · rintro (heq | ⟨key', hmem⟩)
      · obtain ⟨rfl, rfl, rfl⟩ : other = receive ∧ value' = value ∧ isDead' = isDead := by
          simpa using heq
        exact ⟨key, by simp⟩
      · by_cases hkey : key' = key
        · subst hkey
          exact ⟨key', by simp [hmem]⟩
        · exact ⟨key', by rwa [Function.update_of_ne hkey]⟩
    · rintro ⟨key', hmem⟩
      by_cases hkey : key' = key
      · subst hkey
        rw [Function.update_self, List.mem_append, List.mem_singleton] at hmem
        obtain hmem | heq := hmem
        · exact .inr ⟨key', hmem⟩
        · obtain ⟨rfl, rfl, rfl⟩ := heq
          exact .inl rfl
      · rw [Function.update_of_ne hkey] at hmem
        exact .inr ⟨key', hmem⟩
  · rw [hperm.mem_iff, hcancelled, ← hanswered.cancelled_iff]
    simp
  · rw [hperm.mem_iff] at hmem
    rw [haborts]
    exact hanswered.aborted other status (by simpa using hmem)

omit [DecidableEq μ] [DecidableEq κ] [DecidableEq η] in
theorem Answered.cancel (hanswered : Answered state) {receive : ℕ}
    (hperm : (outcomes target).Perm ((receive, .cancelled) :: outcomes state))
    (hdelivered : target.history.delivered = state.history.delivered)
    (hcancelled : target.history.cancelled = state.history.cancelled ++ [receive])
    (haborts : target.aborts = state.aborts) : Answered target := by
  refine ⟨fun other value isDead => ?_, fun other => ?_, fun other status hmem => ?_⟩
  · rw [hperm.mem_iff, hdelivered, ← hanswered.ok_iff]
    simp
  · rw [hperm.mem_iff, hcancelled, List.mem_cons, List.mem_append, List.mem_singleton,
      hanswered.cancelled_iff, or_comm]
    simp
  · rw [hperm.mem_iff] at hmem
    rw [haborts]
    exact hanswered.aborted other status (by simpa using hmem)

omit [DecidableEq μ] [DecidableEq κ] [DecidableEq η] in
theorem Answered.abort (hanswered : Answered state) {receive : ℕ} {status : ε}
    (hperm : (outcomes target).Perm ((receive, .aborted status) :: outcomes state))
    (hdelivered : target.history.delivered = state.history.delivered)
    (hcancelled : target.history.cancelled = state.history.cancelled)
    (haborts : target.aborts = state.aborts) (hstatus : status ∈ state.aborts) :
    Answered target := by
  refine ⟨fun other value isDead => ?_, fun other => ?_, fun other status' hmem => ?_⟩
  · rw [hperm.mem_iff, hdelivered, ← hanswered.ok_iff]
    simp
  · rw [hperm.mem_iff, hcancelled, ← hanswered.cancelled_iff]
    simp
  · rw [hperm.mem_iff, List.mem_cons] at hmem
    rw [haborts]
    obtain heq | hmem := hmem
    · obtain ⟨-, rfl⟩ : other = receive ∧ status' = status := by simpa using heq
      exact hstatus
    · exact hanswered.aborted other status' hmem

theorem Answered.effect (htidy : Tidy state) (hanswered : Answered state)
    (heffect : StepEffect keyHash state label target) : Answered target := by
  cases heffect with
  | rejected _ => exact hanswered
  | posted _ _ => exact hanswered.keep (.refl _) rfl rfl (List.Subset.refl _)
  | sentTo _ _ => exact hanswered.deliver (outcomes_perm rfl _) rfl rfl rfl
  | late hstatus =>
      rw [htidy.status_eq] at hstatus
      exact hanswered.abort (outcomes_perm rfl _) rfl rfl rfl (List.mem_of_head? hstatus)
  | receivedFrom _ _ => exact hanswered.deliver (outcomes_perm rfl _) rfl rfl rfl
  | waits _ _ => exact hanswered.keep (.refl _) rfl rfl (List.Subset.refl _)
  | registered _ _ _ => exact hanswered.keep (.refl _) rfl rfl (List.Subset.refl _)
  | refused _ _ => exact hanswered.cancel (outcomes_perm rfl _) rfl rfl rfl
  | deregistered hcall _ =>
      exact hanswered.keep (outcomes_deregistered hcall) rfl rfl (List.Subset.refl _)
  | done hcall _ => exact hanswered.keep (outcomes_done hcall) rfl rfl (List.Subset.refl _)
  | aborted => exact hanswered.keep (.refl _) rfl rfl (List.subset_append_left _ _)
  | droppedItem _ _ => exact hanswered.keep (.refl _) rfl rfl (List.Subset.refl _)
  | abortedItem habort _ =>
      exact hanswered.abort (outcomes_perm rfl _) rfl rfl rfl (List.mem_of_getElem? habort)
  | hit _ _ _ => exact hanswered.cancel (outcomes_perm rfl _) rfl rfl rfl
  | tokenTaken | cancelStarted _ | cancelReturned _ | missed _ _ | cancelFinished _ _ =>
      exact hanswered.keep (.refl _) rfl rfl (List.Subset.refl _)

end Answers

/-! ## The order under a key -/

section Order

variable {τ ε μ κ η : Type u} [DecidableEq μ] [DecidableEq κ] [DecidableEq η] {keyHash : κ → η}
  {state target : ListState τ ε μ κ η} {label : Label τ ε μ κ η}

/-- The receives arrive once, under one key. -/
structure Arrivals (state : ListState τ ε μ κ η) : Prop where
  bound : ∀ key, ∀ receive ∈ state.history.arrived key, receive < state.nextReceive
  nodup : ∀ key, (state.history.arrived key).Nodup
  apart : ∀ key other, key ≠ other →
    List.Disjoint (state.history.arrived key) (state.history.arrived other)

/-- Under a key, what was sent is what was taken and then what waits, and who arrived
and was not cancelled is who took and then who waits. -/
structure Queued (keyHash : κ → η) (state : ListState τ ε μ κ η) (key : κ) : Prop where
  sent : state.history.sent key = taken state key ++ values (live state (keyHash key))
  lasting : lasting state key = takers state key ++ waiting (live state (keyHash key))

/-- What was taken was sent first, and who took it arrived first, of those that
cancellation has not taken. -/
structure InOrder (state : ListState τ ε μ κ η) (key : κ) : Prop where
  taken : taken state key <+: state.history.sent key
  takers : takers state key <+: lasting state key

omit [DecidableEq μ] [DecidableEq κ] [DecidableEq η] in
theorem Queued.inOrder {key : κ} (hqueued : Queued keyHash state key) : InOrder state key :=
  ⟨⟨_, hqueued.sent.symm⟩, ⟨_, hqueued.lasting.symm⟩⟩

omit [DecidableEq μ] in
/-- Under another key nothing changes, since its hash is another. -/
theorem live_setLive (hinjective : Function.Injective keyHash) {after : ListState τ ε μ κ η}
    (haborts : after.aborts = state.aborts) (hqueues : after.queues = state.queues) (key : κ)
    (items : List (Item τ μ)) (other : κ) :
    live (setLive after (keyHash key) items) (keyHash other) =
      if other = key then items else live state (keyHash other) := by
  have hname : ∀ hash, after.name hash = state.name hash := fun hash => by
    rw [State.name, State.name, State.generation, State.generation, haborts]
  simp only [live, setLive, withQueues_queues, withQueues_name, hname, hqueues]
  by_cases hother : other = key
  · subst hother
    rw [Function.update_self, if_pos rfl]
  · have hne : state.name (keyHash other) ≠ state.name (keyHash key) :=
      fun heq => hother (hinjective (congrArg Prod.snd heq))
    rw [Function.update_of_ne hne, if_neg hother]

omit [DecidableEq μ] [DecidableEq η] in
/-- A receive that arrives lasts. -/
theorem lasting_issue
    (hcancelled : ∀ receive ∈ state.history.cancelled, receive < state.nextReceive) (key : κ)
    (manager : Option μ) (other : κ) :
    lasting (state.issue key manager) other =
      lasting state other ++ if other = key then [state.nextReceive] else [] := by
  have hfresh : state.nextReceive ∉ state.history.cancelled :=
    fun hmem => (hcancelled _ hmem).false
  have hissue : lasting (state.issue key manager) other =
      (Function.update state.history.arrived key
        (state.history.arrived key ++ [state.nextReceive]) other).filter
          fun receive => receive ∉ state.history.cancelled := rfl
  by_cases hother : other = key
  · subst hother
    rw [hissue, Function.update_self, List.filter_append, if_pos rfl, List.filter_singleton]
    simp only [hfresh, not_false_eq_true, decide_true, cond_true]
    rfl
  · rw [hissue, Function.update_of_ne hother, if_neg hother, List.append_nil]
    rfl

omit [DecidableEq μ] [DecidableEq κ] [DecidableEq η] in
theorem lasting_cancel (receive : ℕ) (key : κ) :
    lasting (state.cancel receive) key =
      (lasting state key).filter fun other => other ≠ receive := by
  simp only [lasting, State.cancel, List.filter_filter]
  refine List.filter_congr fun other _ => ?_
  simp [and_comm]

/-- What holds in every reached state. -/
structure Matched (keyHash : κ → η) (state : ListState τ ε μ κ η) : Prop where
  tidy : Tidy state
  located : Located state
  answered : Answered state
  arrivals : Arrivals state
  queued : state.status = none → ∀ key, Queued keyHash state key
  inOrder : ∀ key, InOrder state key

namespace Matched

omit [DecidableEq μ] [DecidableEq κ] [DecidableEq η] in
/-- A receive that was answered was issued. -/
theorem lt_of_outcome (hmatched : Matched keyHash state) {receive : ℕ} {outcome : Outcome τ ε}
    (hmem : (receive, outcome) ∈ outcomes state) : receive < state.nextReceive :=
  (hmatched.located.issued_iff receive).mpr (.inr (List.mem_map_of_mem hmem))

omit [DecidableEq μ] [DecidableEq κ] [DecidableEq η] in
theorem lt_of_cancelled (hmatched : Matched keyHash state) {receive : ℕ}
    (hmem : receive ∈ state.history.cancelled) : receive < state.nextReceive :=
  hmatched.lt_of_outcome ((hmatched.answered.cancelled_iff receive).mpr hmem)

omit [DecidableEq μ] [DecidableEq κ] [DecidableEq η] in
/-- Who waits has taken nothing. -/
theorem not_taker (hmatched : Matched keyHash state) {receive : ℕ} {name : ℕ × η}
    (hwaiting : receive ∈ waiting (state.queues name)) (key : κ) :
    receive ∉ takers state key := by
  intro htaker
  obtain ⟨⟨_, value, isDead⟩, hmem, rfl⟩ := List.mem_map.mp htaker
  have houtcome := (hmatched.answered.ok_iff _ value isDead).mpr ⟨key, hmem⟩
  exact hmatched.located.apart name hwaiting (List.mem_map_of_mem houtcome)

end Matched

omit [DecidableEq μ] [DecidableEq κ] [DecidableEq η] in
theorem values_of_recvs {items : List (Item τ μ)} (hrecvs : ∀ item ∈ items, item.isSend = false) :
    values items = [] := by
  refine List.filterMap_eq_nil_iff.mpr fun item hitem => ?_
  cases item with
  | send _ _ => exact nomatch hrecvs _ hitem
  | recv _ _ _ => rfl

omit [DecidableEq μ] [DecidableEq κ] [DecidableEq η] in
theorem waiting_of_sends {items : List (Item τ μ)} (hsends : ∀ item ∈ items, item.isSend = true) :
    waiting items = [] := by
  refine List.filterMap_eq_nil_iff.mpr fun item hitem => ?_
  cases item with
  | send _ _ => rfl
  | recv _ _ _ => exact nomatch hsends _ hitem

section

variable (hinjective : Function.Injective keyHash)

include hinjective

omit [DecidableEq μ] in
/-- One key changes. -/
theorem queued_setLive (hqueued : ∀ key, Queued keyHash state key) (after : ListState τ ε μ κ η)
    (haborts : after.aborts = state.aborts) (hqueues : after.queues = state.queues) {key : κ}
    {items : List (Item τ μ)} (hsent : after.history.sent key = taken after key ++ values items)
    (hlasting : lasting after key = takers after key ++ waiting items)
    (hother : ∀ other, other ≠ key → after.history.sent other = state.history.sent other ∧
      after.history.delivered other = state.history.delivered other ∧
      lasting after other = lasting state other)
    (other : κ) :
    Queued keyHash (setLive after (keyHash key) items) other := by
  have hlive := live_setLive hinjective haborts hqueues key items other
  by_cases hkey : other = key
  · subst hkey
    rw [if_pos rfl] at hlive
    exact ⟨by rw [hlive]; exact hsent, by rw [hlive]; exact hlasting⟩
  · rw [if_neg hkey] at hlive
    obtain ⟨hsent', hdelivered, hlasting'⟩ := hother other hkey
    refine ⟨?_, ?_⟩
    · rw [hlive]
      refine hsent'.trans ((hqueued other).sent.trans ?_)
      rw [taken, taken]
      exact congrArg (fun entries => entries.map Prod.snd ++ _) hdelivered.symm
    · rw [hlive]
      refine hlasting'.trans ((hqueued other).lasting.trans ?_)
      rw [takers, takers]
      exact congrArg (fun entries => entries.map Prod.fst ++ _) hdelivered.symm

omit [DecidableEq μ] in
/-- A value and the first receive that waits are matched. -/
theorem queued_sentTo (htidy : Tidy state) {key : κ} {value : τ} {isDead : Bool} {receive : ℕ}
    {own : Option μ} {token : CancellationToken} {rest : List (Item τ μ)} {call : Call τ ε μ}
    (hlive : live state (keyHash key) = .recv receive own token :: rest)
    (hqueued : ∀ key, Queued keyHash state key) (other : κ) :
    Queued keyHash (setLive (((state.post key value isDead).deliver key receive value isDead).push
      call) (keyHash key) rest) other := by
  have hrecvs : ∀ item ∈ live state (keyHash key), item.isSend = false :=
    htidy.recvs fun value isDead => by simp [hlive]
  have hvalues := values_of_recvs hrecvs
  have hrest : values rest = [] :=
    values_of_recvs fun item hitem => hrecvs item (hlive ▸ List.mem_cons_of_mem _ hitem)
  have hsent := (hqueued key).sent
  have hlasting := (hqueued key).lasting
  refine queued_setLive hinjective hqueued
    (((state.post key value isDead).deliver key receive value isDead).push call) rfl rfl ?_ ?_
    (fun other hother => ?_) other
  · rw [hvalues, List.append_nil] at hsent
    simp [State.push, State.deliver, State.post, taken, hsent, hrest]
  · have hwaiting : waiting (live state (keyHash key)) = receive :: waiting rest := by
      rw [hlive]
      rfl
    rw [hwaiting] at hlasting
    refine hlasting.trans ?_
    simp [State.push, State.deliver, State.post, takers]
  · exact ⟨Function.update_of_ne hother _ _, Function.update_of_ne hother _ _, rfl⟩

omit [DecidableEq μ] in
/-- The first value that waits and a receive that arrives are matched. -/
theorem queued_receivedFrom (hmatched : Matched keyHash state) {key : κ} {manager : Option μ}
    {value : τ} {isDead : Bool} {rest : List (Item τ μ)} {call : Call τ ε μ}
    (hlive : live state (keyHash key) = .send value isDead :: rest)
    (hqueued : ∀ key, Queued keyHash state key) (other : κ) :
    Queued keyHash (setLive (((state.issue key manager).deliver key state.nextReceive value
      isDead).push call) (keyHash key) rest) other := by
  have hsends : ∀ item ∈ live state (keyHash key), item.isSend = true :=
    hmatched.tidy.sends fun receive own token => by simp [hlive]
  have hwaiting := waiting_of_sends hsends
  have hrest : waiting rest = [] :=
    waiting_of_sends fun item hitem => hsends item (hlive ▸ List.mem_cons_of_mem _ hitem)
  have hsent := (hqueued key).sent
  have hlasting := (hqueued key).lasting
  have hissue := lasting_issue (fun _ => hmatched.lt_of_cancelled) key manager
  refine queued_setLive hinjective hqueued
    (((state.issue key manager).deliver key state.nextReceive value isDead).push call) rfl rfl ?_ ?_
    (fun other hother => ?_) other
  · have hvalues : values (live state (keyHash key)) = (value, isDead) :: values rest := by
      rw [hlive]
      rfl
    rw [hvalues] at hsent
    refine hsent.trans ?_
    simp [State.push, State.deliver, State.issue, taken]
  · refine (hissue key).trans ?_
    rw [hlasting, hwaiting, hrest, if_pos rfl]
    simp [State.push, State.deliver, State.issue, takers]
  · refine ⟨rfl, Function.update_of_ne hother _ _, (hissue other).trans ?_⟩
    rw [if_neg hother, List.append_nil]

omit [DecidableEq μ] in
/-- A receive that arrives waits. -/
theorem queued_waits (hmatched : Matched keyHash state) {key : κ} {own manager : Option μ}
    {token : CancellationToken} (hqueued : ∀ key, Queued keyHash state key)
    (after : ListState τ ε μ κ η) (haborts : after.aborts = state.aborts)
    (hqueues : after.queues = state.queues)
    (hhistory : after.history = (state.issue key manager).history) (other : κ) :
    Queued keyHash (setLive after (keyHash key)
      (live state (keyHash key) ++ [.recv state.nextReceive own token])) other := by
  have hissue := lasting_issue (fun _ => hmatched.lt_of_cancelled) key manager
  have hlasting : ∀ other, lasting after other = lasting (state.issue key manager) other := by
    intro other
    rw [lasting, lasting, hhistory]
  have hsame := hqueued key
  refine queued_setLive hinjective hqueued after haborts hqueues ?_ ?_ (fun other hother => ?_)
    other
  · have hvalues : values (live state (keyHash key) ++ [.recv state.nextReceive own token]) =
        values (live state (keyHash key)) := by simp [values]
    rw [hvalues, taken, hhistory]
    exact hsame.sent
  · have hwaiting : waiting (live state (keyHash key) ++ [.recv state.nextReceive own token]) =
        waiting (live state (keyHash key)) ++ [state.nextReceive] := by simp [waiting]
    rw [hlasting, hissue, if_pos rfl, hsame.lasting, hwaiting, List.append_assoc, takers, takers,
      hhistory]
    rfl
  · rw [hlasting, hissue, if_neg hother, List.append_nil, hhistory]
    exact ⟨rfl, rfl, rfl⟩

end

omit [DecidableEq μ] [DecidableEq κ] [DecidableEq η] in
/-- Who takes off what has not arrived changes nothing. -/
theorem filter_ne_of_not_mem {receive : ℕ} {numbers : List ℕ} (hfresh : receive ∉ numbers) :
    numbers.filter (fun other => other ≠ receive) = numbers := by
  refine List.filter_eq_self.mpr fun other hother => decide_eq_true ?_
  rintro rfl
  exact hfresh hother

omit [DecidableEq μ] [DecidableEq η] in
/-- A receive that is refused on arrival changes nothing. -/
theorem lasting_refuse (hmatched : Matched keyHash state) (key : κ) (manager : Option μ)
    (other : κ) :
    lasting ((state.issue key manager).cancel state.nextReceive) other = lasting state other := by
  have hissue := lasting_issue (fun _ => hmatched.lt_of_cancelled) key manager other
  have hfresh : state.nextReceive ∉ lasting state other := fun hmem =>
    (hmatched.arrivals.bound other _ (List.mem_of_mem_filter hmem)).false
  rw [lasting_cancel, hissue, List.filter_append, filter_ne_of_not_mem hfresh]
  split <;> simp

omit [DecidableEq μ] [DecidableEq κ] in
/-- A receive that waits is cancelled. -/
theorem queued_hit (hmatched : Matched keyHash state) {hash : η} {before after : List (Item τ μ)}
    {receive : ℕ} {own : Option μ} {token : CancellationToken}
    (hlive : live state hash = before ++ .recv receive own token :: after)
    (hqueued : ∀ key, Queued keyHash state key) (target : ListState τ ε μ κ η)
    (haborts : target.aborts = state.aborts)
    (hqueues : target.queues = Function.update state.queues (state.name hash) (before ++ after))
    (hsent : target.history.sent = state.history.sent)
    (hdelivered : target.history.delivered = state.history.delivered)
    (harrived : target.history.arrived = state.history.arrived)
    (hcancelled : target.history.cancelled = state.history.cancelled ++ [receive]) (key : κ) :
    Queued keyHash target key := by
  have hmem : receive ∈ waiting (state.queues (state.name hash)) := by
    rw [show state.queues (state.name hash) = _ from hlive]
    simp [waiting]
  have hlasting : lasting target key = (lasting state key).filter fun other => other ≠ receive := by
    rw [← lasting_cancel, lasting, lasting, harrived, hcancelled]
    rfl
  have hname : target.name (keyHash key) = state.name (keyHash key) := by
    rw [State.name, State.name, State.generation, State.generation, haborts]
  have hsame := hqueued key
  have htakers := filter_ne_of_not_mem (hmatched.not_taker hmem key)
  have hnodup := hmatched.located.nodup (state.name hash)
  rw [hsame.lasting, List.filter_append, htakers] at hlasting
  by_cases hkey : keyHash key = hash
  · subst hkey
    have htarget : live target (keyHash key) = before ++ after := by
      rw [live, hname, hqueues, Function.update_self]
    have hwaiting : waiting (live state (keyHash key)) =
        waiting before ++ receive :: waiting after := by
      rw [hlive]
      simp [waiting]
    have hvalues : values (live state (keyHash key)) = values (before ++ after) := by
      rw [hlive]
      simp [values]
    rw [show waiting (state.queues (state.name (keyHash key))) = _ from hwaiting,
      List.nodup_middle, List.nodup_cons] at hnodup
    refine ⟨?_, ?_⟩
    · rw [hsent, htarget, taken, hdelivered, ← hvalues]
      exact hsame.sent
    · have hbefore : receive ∉ waiting before := fun hmem =>
        hnodup.1 (List.mem_append_left _ hmem)
      have hafter : receive ∉ waiting after := fun hmem =>
        hnodup.1 (List.mem_append_right _ hmem)
      rw [hlasting, htarget, hwaiting, takers, takers, hdelivered, List.filter_append,
        filter_ne_of_not_mem hbefore, List.filter_cons_of_neg (by simp),
        filter_ne_of_not_mem hafter]
      simp [waiting]
  · have hne : state.name (keyHash key) ≠ state.name hash :=
      fun heq => hkey (congrArg Prod.snd heq)
    have htarget : live target (keyHash key) = live state (keyHash key) := by
      rw [live, hname, hqueues, Function.update_of_ne hne]
      rfl
    have hother : receive ∉ waiting (live state (keyHash key)) := fun hmem' =>
      hmatched.located.disjoint _ _ hne hmem' hmem
    refine ⟨?_, ?_⟩
    · rw [hsent, htarget, taken, hdelivered]
      exact hsame.sent
    · rw [hlasting, htarget, takers, takers, hdelivered, filter_ne_of_not_mem hother]

omit [DecidableEq μ] [DecidableEq η] in
theorem Arrivals.issue (harrivals : Arrivals state) (key : κ) (manager : Option μ)
    (hhistory : target.history.arrived = (state.issue key manager).history.arrived)
    (hissued : target.history.issued = (state.issue key manager).history.issued) :
    Arrivals target := by
  have hnext : target.nextReceive = state.nextReceive + 1 := by
    rw [State.nextReceive, hissued]
    exact nextReceive_issue key manager
  have hfresh : ∀ other, state.nextReceive ∉ state.history.arrived other :=
    fun other hmem => (harrivals.bound other _ hmem).false
  have hmem : ∀ other receive, receive ∈ target.history.arrived other ↔
      receive ∈ state.history.arrived other ∨ (other = key ∧ receive = state.nextReceive) := by
    intro other receive
    rw [hhistory]
    by_cases hother : other = key
    · subst hother
      simp [State.issue]
    · simp [State.issue, hother]
  refine ⟨fun other receive hreceive => ?_, fun other => ?_,
    fun first second hne receive hfirst hsecond => ?_⟩
  · rw [hnext]
    obtain hold | ⟨-, rfl⟩ := (hmem other receive).mp hreceive
    · exact Nat.lt_succ_of_lt (harrivals.bound other receive hold)
    · exact Nat.lt_succ_self _
  · rw [hhistory]
    by_cases hother : other = key
    · subst hother
      simp only [State.issue, Function.update_self]
      refine List.nodup_append.mpr ⟨harrivals.nodup other, List.nodup_singleton _, ?_⟩
      rintro receive hreceive _ hlast rfl
      exact hfresh other (List.mem_singleton.mp hlast ▸ hreceive)
    · simp only [State.issue, Function.update_of_ne hother]
      exact harrivals.nodup other
  · obtain hfirst | ⟨rfl, rfl⟩ := (hmem first receive).mp hfirst
    · obtain hsecond | ⟨-, rfl⟩ := (hmem second receive).mp hsecond
      · exact harrivals.apart first second hne hfirst hsecond
      · exact hfresh first hfirst
    · obtain hsecond | ⟨rfl, -⟩ := (hmem second _).mp hsecond
      · exact hfresh second hsecond
      · exact hne rfl

theorem Arrivals.effect (harrivals : Arrivals state)
    (heffect : StepEffect keyHash state label target) : Arrivals target := by
  cases heffect with
  | @late key manager _ _ => exact harrivals.issue key manager rfl rfl
  | @receivedFrom key manager _ _ _ _ _ => exact harrivals.issue key manager rfl rfl
  | @waits key _ _ => exact harrivals.issue key none rfl rfl
  | @registered key manager _ _ _ => exact harrivals.issue key (some manager) rfl rfl
  | @refused key manager _ _ => exact harrivals.issue key (some manager) rfl rfl
  | rejected _ | posted _ _ | sentTo _ _ | deregistered _ _ | done _ _ | aborted | droppedItem _ _
  | abortedItem _ _ | tokenTaken | cancelStarted _ | cancelReturned _ | missed _ _ | hit _ _ _
  | cancelFinished _ _ => exact ⟨harrivals.bound, harrivals.nodup, harrivals.apart⟩

omit [DecidableEq μ] [DecidableEq κ] [DecidableEq η] in
/-- No table was taken away while the rendezvous is open. -/
theorem Tidy.not_abort (htidy : Tidy state) (hopen : state.status = none) {abort : ℕ} {status : ε}
    (habort : state.aborts[abort]? = some status) : False := by
  rw [htidy.status_eq, List.head?_eq_none_iff] at hopen
  simp [hopen] at habort

section

variable (hinjective : Function.Injective keyHash) (hmatched : Matched keyHash state)
  (heffect : StepEffect keyHash state label target)

include hinjective hmatched heffect

theorem Matched.effect_queued (hopen : target.status = none) (key : κ) :
    Queued keyHash target key := by
  cases heffect with
  | rejected _ => exact hmatched.queued hopen key
  | @posted key' value isDead hstatus hfront =>
      have hqueued := hmatched.queued hstatus
      refine queued_setLive hinjective hqueued (state.post key' value isDead) rfl rfl ?_ ?_
        (fun other hother => ⟨Function.update_of_ne hother _ _, rfl, rfl⟩) key
      · have hvalues : values (live state (keyHash key') ++ [.send value isDead]) =
            values (live state (keyHash key')) ++ [(value, isDead)] := by simp [values]
        rw [hvalues, ← List.append_assoc]
        refine (Function.update_self ..).trans ?_
        exact congrArg (· ++ [(value, isDead)]) (hqueued key').sent
      · have hwaiting : waiting (live state (keyHash key') ++ [.send value isDead]) =
            waiting (live state (keyHash key')) := by simp [waiting]
        rw [hwaiting]
        exact (hqueued key').lasting
  | sentTo hstatus hlive =>
      exact queued_sentTo hinjective hmatched.tidy hlive (hmatched.queued hstatus) key
  | late hstatus => exact absurd (hstatus.symm.trans hopen) (Option.some_ne_none _)
  | receivedFrom hstatus hlive =>
      exact queued_receivedFrom hinjective hmatched hlive (hmatched.queued hstatus) key
  | @waits key' hstatus _ =>
      exact queued_waits hinjective hmatched (hmatched.queued hstatus) (state.issue key' none) rfl
        rfl rfl key
  | @registered key' manager hstatus _ _ =>
      exact queued_waits hinjective hmatched (hmatched.queued hstatus)
        ((state.issue key' (some manager)).manage manager _) rfl rfl rfl key
  | @refused key' manager hstatus _ =>
      have hqueued := hmatched.queued hstatus key
      exact ⟨hqueued.sent, (lasting_refuse hmatched key' (some manager) key).trans hqueued.lasting⟩
  | aborted =>
      exact absurd hopen (by simp [startAbort])
  | droppedItem habort _ => exact (hmatched.tidy.not_abort hopen habort).elim
  | abortedItem habort _ => exact (hmatched.tidy.not_abort hopen habort).elim
  | hit _ hlive _ =>
      refine queued_hit hmatched hlive (hmatched.queued hopen) _ ?_ ?_ ?_ ?_ ?_ ?_ key <;> rfl
  | deregistered _ _ | done _ _ | tokenTaken | cancelStarted _ | cancelReturned _ | missed _ _
  | cancelFinished _ _ =>
      exact ⟨(hmatched.queued hopen key).sent, (hmatched.queued hopen key).lasting⟩

theorem Matched.effect_inOrder (key : κ) : InOrder target key := by
  by_cases hopen : target.status = none
  · exact (hmatched.effect_queued hinjective heffect hopen key).inOrder
  · have hsame := hmatched.inOrder key
    cases heffect with
    | rejected _ => exact hsame
    | @late key' manager status _ =>
        refine ⟨hsame.taken, hsame.takers.trans ?_⟩
        have hissue := lasting_issue (fun _ => hmatched.lt_of_cancelled) key' manager key
        exact hissue ▸ List.prefix_append _ _
    | posted hstatus _ => exact absurd hstatus hopen
    | sentTo hstatus _ => exact absurd hstatus hopen
    | receivedFrom hstatus _ => exact absurd hstatus hopen
    | waits hstatus _ => exact absurd hstatus hopen
    | registered hstatus _ _ => exact absurd hstatus hopen
    | refused hstatus _ => exact absurd hstatus hopen
    | hit _ hlive _ => exact absurd (hmatched.tidy.open_of_live hlive) hopen
    | aborted | droppedItem _ _ | abortedItem _ _ | deregistered _ _ | done _ _ | tokenTaken
    | cancelStarted _ | cancelReturned _ | missed _ _ | cancelFinished _ _ =>
        exact ⟨hsame.taken, hsame.takers⟩

/-- **Each step keeps what holds.** -/
theorem Matched.effect :
    Matched keyHash target where
  tidy := hmatched.tidy.effect heffect
  located := hmatched.located.effect heffect
  answered := hmatched.answered.effect hmatched.tidy heffect
  arrivals := hmatched.arrivals.effect heffect
  queued := hmatched.effect_queued hinjective heffect
  inOrder := hmatched.effect_inOrder hinjective heffect

end

theorem tidy_initial (bornCancelled : μ → Bool) :
    Tidy (listRendezvous keyHash bornCancelled : Machine (ListState τ ε μ κ η) _).init :=
  ⟨fun _ => .inl (by simp [listRendezvous, machine, initial]), rfl, fun _ _ => rfl,
    fun _ _ => rfl⟩

theorem located_initial (bornCancelled : μ → Bool) :
    Located (listRendezvous keyHash bornCancelled : Machine (ListState τ ε μ κ η) _).init :=
  ⟨fun _ => List.nodup_nil, fun _ _ _ => List.disjoint_nil_left _, List.nodup_nil,
    fun _ => List.disjoint_nil_left _, fun number => by
      simp [listRendezvous, machine, initial, outcomes, State.nextReceive, waiting]⟩

theorem matched_initial (bornCancelled : μ → Bool) :
    Matched keyHash (listRendezvous keyHash bornCancelled :
      Machine (ListState τ ε μ κ η) _).init where
  tidy := tidy_initial bornCancelled
  located := located_initial bornCancelled
  answered := ⟨fun _ _ _ => by simp [listRendezvous, machine, initial, outcomes],
    fun _ => by simp [listRendezvous, machine, initial, outcomes],
    fun _ _ hmem => by simp [listRendezvous, machine, initial, outcomes] at hmem⟩
  arrivals := ⟨fun _ _ hmem => by simp [listRendezvous, machine, initial] at hmem,
    fun _ => List.nodup_nil, fun _ _ _ => List.disjoint_nil_left _⟩
  queued := fun _ _ => ⟨rfl, rfl⟩
  inOrder := fun _ => ⟨List.prefix_rfl, List.prefix_rfl⟩

/-- **What holds in every state reached with lists for queues.** -/
theorem matched_of_reaches (hinjective : Function.Injective keyHash) {bornCancelled : μ → Bool}
    {guard : ListState τ ε μ κ η → Label τ ε μ κ η → Prop}
    (hreached : (listRendezvous keyHash bornCancelled).Reaches guard state) :
    Matched keyHash state :=
  hreached.invariant (P := Matched keyHash) (matched_initial bornCancelled)
    fun _ _ _ _ hmatched _ htaken => hmatched.effect hinjective (effect_of_step htaken)

end Order

/-! ## After an abort -/

section Aborts

variable {τ ε μ κ η : Type u} [DecidableEq μ] [DecidableEq κ] [DecidableEq η] {keyHash : κ → η}
  {state target : ListState τ ε μ κ η} {label : Label τ ε μ κ η}

omit [DecidableEq κ] [DecidableEq η] [DecidableEq μ] in
/-- A receive waits in a queue that an abort took away, or is completed with the status
of that abort: its `done` is to be called, or was. -/
def AbortedWith (state : ListState τ ε μ κ η) (name : ℕ × η) (status : ε) (receive : ℕ) : Prop :=
  receive ∈ waiting (state.queues name) ∨ (receive, .aborted status) ∈ outcomes state

omit [DecidableEq μ] [DecidableEq κ] [DecidableEq η] in
theorem AbortedWith.keep {name : ℕ × η} {status : ε} {receive : ℕ}
    (haborted : AbortedWith state name status receive)
    (hqueues : waiting (state.queues name) ⊆ waiting (target.queues name))
    (houtcomes : outcomes state ⊆ outcomes target) : AbortedWith target name status receive :=
  haborted.imp (fun hmem => hqueues hmem) fun hmem => houtcomes hmem

/-- After an abort a step matches nothing. -/
theorem delivered_of_aborted (hmatched : Matched keyHash state)
    (heffect : StepEffect keyHash state label target) (habort : state.status ≠ none) :
    target.status ≠ none ∧ target.history.delivered = state.history.delivered := by
  cases heffect with
  | posted hstatus _ => exact absurd hstatus habort
  | sentTo hstatus _ => exact absurd hstatus habort
  | receivedFrom hstatus _ => exact absurd hstatus habort
  | waits hstatus _ => exact absurd hstatus habort
  | registered hstatus _ _ => exact absurd hstatus habort
  | refused hstatus _ => exact absurd hstatus habort
  | hit _ hlive _ => exact absurd (hmatched.tidy.open_of_live hlive) habort
  | aborted => exact ⟨by simp [startAbort], rfl⟩
  | rejected _ | late _ | droppedItem _ _ | abortedItem _ _ | deregistered _ _ | done _ _
  | tokenTaken | cancelStarted _ | cancelReturned _ | missed _ _ | cancelFinished _ _ =>
      exact ⟨habort, rfl⟩

/-- The status of an abort stays. -/
theorem aborts_of_effect (heffect : StepEffect keyHash state label target) {abort : ℕ} {status : ε}
    (habort : state.aborts[abort]? = some status) : target.aborts[abort]? = some status := by
  cases heffect with
  | aborted =>
      exact (List.getElem?_append_left (List.getElem?_eq_some_iff.mp habort).1).trans habort
  | rejected _ | posted _ _ | sentTo _ _ | late _ | receivedFrom _ _ | waits _ _ | registered _ _ _
  | refused _ _ | deregistered _ _ | done _ _ | droppedItem _ _ | abortedItem _ _ | tokenTaken
  | cancelStarted _ | cancelReturned _ | missed _ _ | hit _ _ _ | cancelFinished _ _ => exact habort

/-- A receive that an abort took away is completed with its status, not otherwise. -/
theorem AbortedWith.effect (hmatched : Matched keyHash state) (habort : state.status ≠ none)
    (heffect : StepEffect keyHash state label target) {abort : ℕ} {hash : η} {status : ε}
    (hstatus : state.aborts[abort]? = some status) {receive : ℕ}
    (haborted : AbortedWith state (abort, hash) status receive) :
    AbortedWith target (abort, hash) status receive := by
  cases heffect with
  | posted hopen _ => exact absurd hopen habort
  | sentTo hopen _ => exact absurd hopen habort
  | receivedFrom hopen _ => exact absurd hopen habort
  | waits hopen _ => exact absurd hopen habort
  | registered hopen _ _ => exact absurd hopen habort
  | refused hopen _ => exact absurd hopen habort
  | hit _ hlive _ => exact absurd (hmatched.tidy.open_of_live hlive) habort
  | rejected _ => exact haborted
  | late _ =>
      exact haborted.keep (List.Subset.refl _)
        fun _ hmem => (outcomes_perm rfl _).mem_iff.mpr (List.mem_cons_of_mem _ hmem)
  | deregistered hcall _ =>
      exact haborted.keep (List.Subset.refl _)
        fun _ hmem => (outcomes_deregistered hcall).mem_iff.mpr hmem
  | done hcall _ =>
      exact haborted.keep (List.Subset.refl _) fun _ hmem => (outcomes_done hcall).mem_iff.mpr hmem
  | @droppedItem abort' hash' _ _ _ rest _ hqueue =>
      have hwaiting : waiting rest = waiting (state.queues (abort', hash')) :=
        (congrArg waiting hqueue).symm
      have hsame := waiting_of_update hwaiting
      refine haborted.keep (fun other hmem => ?_) (List.Subset.refl _)
      exact (congrFun hsame (abort, hash)).symm ▸ hmem
  | @abortedItem abort' hash' status' other own token rest habort' hqueue =>
      have hkept : outcomes state ⊆ outcomes ((state.push (Item.call other own token
          (.aborted status'))).withQueues (Function.update state.queues (abort', hash') rest)) :=
        fun _ hmem => (outcomes_perm rfl _).mem_iff.mpr (List.mem_cons_of_mem _ hmem)
      by_cases hname : (abort, hash) = (abort', hash')
      · obtain ⟨rfl, rfl⟩ := Prod.mk.inj hname
        obtain rfl : status' = status := Option.some.inj (habort'.symm.trans hstatus)
        obtain hmem | hmem := haborted
        · rw [hqueue] at hmem
          obtain heq | hrest : receive = other ∨ receive ∈ waiting rest := List.mem_cons.mp hmem
          · subst heq
            exact .inr ((outcomes_perm rfl _).mem_iff.mpr List.mem_cons_self)
          · refine .inl ?_
            simpa using hrest
        · exact .inr (hkept hmem)
      · refine haborted.keep (fun _ hmem => ?_) hkept
        simpa [Function.update_of_ne hname] using hmem
  | aborted | tokenTaken | cancelStarted _ | cancelReturned _ | missed _ _ | cancelFinished _ _ =>
      exact haborted.keep (List.Subset.refl _) (List.Subset.refl _)

/-- What holds from an abort on: the table in use is empty, nothing more is matched, and
the receives that waited are completed with its status. -/
structure AfterAbort (state final : ListState τ ε μ κ η) (status : ε) : Prop where
  empty : ∀ hash, live final hash = []
  delivered : final.history.delivered = state.history.delivered
  completed : ∀ hash, ∀ receive ∈ waiting (live state hash),
    AbortedWith final (state.name hash) status receive

/-- **After an abort nothing is matched and its receives get its status.** -/
theorem afterAbort_of_leads (hinjective : Function.Injective keyHash) {bornCancelled : μ → Bool}
    (hmatched : Matched keyHash state) {status : ε} {final : ListState τ ε μ κ η}
    (hleads : (listRendezvous keyHash bornCancelled).Leads Machine.Unguarded
      (startAbort status state) final) : AfterAbort state final status := by
  have hkept : Matched keyHash final ∧ final.status ≠ none ∧
      final.history.delivered = state.history.delivered ∧
      final.aborts[state.generation]? = some status ∧
      ∀ hash, ∀ receive ∈ waiting (live state hash),
        AbortedWith final (state.name hash) status receive := by
    refine hleads.invariant (P := fun final => Matched keyHash final ∧ final.status ≠ none ∧
      final.history.delivered = state.history.delivered ∧
      final.aborts[state.generation]? = some status ∧
      ∀ hash, ∀ receive ∈ waiting (live state hash),
        AbortedWith final (state.name hash) status receive)
      ?_ ⟨hmatched.effect hinjective .aborted, ?_, rfl, ?_,
        fun _ _ hmem => .inl hmem⟩
    · rintro source label target ⟨hmatched, habort, hdelivered, hstatus, hcompleted⟩ - htaken
      have heffect := effect_of_step htaken
      obtain ⟨habort', hdelivered'⟩ := delivered_of_aborted hmatched heffect habort
      exact ⟨hmatched.effect hinjective heffect, habort', hdelivered'.trans hdelivered,
        aborts_of_effect heffect hstatus,
        fun hash receive hmem =>
          (hcompleted hash receive hmem).effect hmatched habort heffect hstatus⟩
    · simp [startAbort]
    · simp [startAbort, State.generation]
  obtain ⟨hmatched', habort, hdelivered, -, hcompleted⟩ := hkept
  exact ⟨hmatched'.tidy.aborted habort, hdelivered, hcompleted⟩

end Aborts

/-! ## The table with pointers -/

section Pointers

variable {τ ε μ κ η : Type u} [DecidableEq μ] [DecidableEq κ] [DecidableEq η] {keyHash : κ → η}
  {bornCancelled : μ → Bool} {state final : State (Table τ μ η) τ ε μ κ η}

/-- The state with the lists its pointers lead through. -/
def read (state : State (Table τ μ η) τ ε μ κ η) : ListState τ ε μ κ η :=
  state.withQueues state.queues.contents

omit [DecidableEq μ] [DecidableEq κ] [DecidableEq η] in
theorem eq_read {state' : ListState τ ε μ κ η}
    (hrelated : TableRelated LinkedQueues.Represents state state') : state' = read state := by
  obtain ⟨lists, hrepresents, rfl⟩ := hrelated
  have hcontents : state.queues.contents = lists := funext hrepresents.contents_eq
  rw [read, hcontents]

/-- **The code does what it does with lists for queues.** -/
theorem simulates_lists (guard' : ListState τ ε μ κ η → Label τ ε μ κ η → Prop) :
    Machine.Simulates (localRendezvous keyHash bornCancelled)
      (listRendezvous keyHash bornCancelled) (fun state => guard' (read state)) guard'
      (TableRelated LinkedQueues.Represents) := by
  rintro source label target source' hrelated hallowed htaken
  have hread := eq_read hrelated
  obtain ⟨lists, hrepresents, hsource⟩ := hrelated
  refine ⟨hread ▸ hallowed, ?_⟩
  rw [hsource]
  exact tableRelated_step LinkedQueues.refines_lists.{u, u} hrepresents htaken

theorem reaches_read (guard' : ListState τ ε μ κ η → Label τ ε μ κ η → Prop)
    (hreached : (localRendezvous keyHash bornCancelled).Reaches
      (fun state => guard' (read state)) state) :
    (listRendezvous keyHash bornCancelled).Reaches guard' (read state) ∧
      LinkedQueues.Represents state.queues state.queues.contents := by
  have hinit : TableRelated LinkedQueues.Represents
      (localRendezvous keyHash bornCancelled : Machine (State (Table τ μ η) τ ε μ κ η) _).init
      (listRendezvous keyHash bornCancelled).init :=
    ⟨_, LinkedQueues.represents_empty, rfl⟩
  obtain ⟨state', hreached', hrelated⟩ := hreached.simulated hinit (simulates_lists guard')
  refine ⟨eq_read hrelated ▸ hreached', ?_⟩
  obtain ⟨lists, hrepresents, -⟩ := hrelated
  rwa [show state.queues.contents = lists from funext hrepresents.contents_eq]

/-- **The rendezvous matches in order.** In every reached state a queue has values or
receives, never both; each receive waits or is answered, once; what was taken under a
key was sent first and went to the receives that arrived first, less those that
cancellation took. From an abort on nothing is matched, no item is in the table, and
the receives that waited are completed with its status. -/
theorem receives_matched_in_order (hinjective : Function.Injective keyHash)
    (hreached : (localRendezvous keyHash bornCancelled).Reaches Machine.Unguarded state) :
    Matched keyHash (read state) ∧
      ∀ status final, (localRendezvous keyHash bornCancelled).Leads Machine.Unguarded
        (startAbort status state) final → AfterAbort (read state) (read final) status := by
  obtain ⟨hreached', hrepresents⟩ := reaches_read Machine.Unguarded hreached
  have hmatched := matched_of_reaches hinjective hreached'
  refine ⟨hmatched, fun status final hleads => ?_⟩
  have hsource : TableRelated LinkedQueues.Represents (startAbort status state)
      (startAbort status (read state)) := ⟨_, hrepresents, rfl⟩
  obtain ⟨final', hleads', hrelated⟩ :=
    hleads.simulated (simulates_lists Machine.Unguarded) hsource
  obtain rfl := eq_read hrelated
  exact afterAbort_of_leads hinjective hmatched hleads'

end Pointers

/-- Three receives wait, the middle one is cancelled, a value arrives, and an abort takes
the last. -/
theorem second_receive_is_cancelled :
    ∃ state : State (Table ℕ Bool ℕ) ℕ ℕ Bool ℕ ℕ,
      (localRendezvous id fun _ => false).Reaches Machine.Unguarded state ∧
        (state.history.delivered 7 = [(0, 5, true)] ∧ state.history.cancelled = [1] ∧
          waiting (state.queues.contents (0, 7)) = [2]) ∧
        Matched id (read state) ∧
        ∀ final, (localRendezvous id fun _ => false).Leads Machine.Unguarded (startAbort 9 state)
          final → AfterAbort (read state) (read final) 9 := by
  have hrun : ∃ state : State (Table ℕ Bool ℕ) ℕ ℕ Bool ℕ ℕ,
      (localRendezvous id fun _ => false).Reaches Machine.Unguarded state ∧
        decide (state.history.delivered 7 = [(0, 5, true)] ∧ state.history.cancelled = [1] ∧
          waiting (state.queues.contents (0, 7)) = [2]) = true :=
    Machine.exists_reaches_unguarded
      [.recvAsync 7 none, .recvAsync 7 (some true), .recvAsync 7 (some false), .startCancel true,
        .runCallback true 0, .send 7 5 true]
      (by decide +kernel)
  obtain ⟨state, hreached, hstate⟩ := hrun
  have hmatched := receives_matched_in_order Function.injective_id hreached
  exact ⟨state, hreached, of_decide_eq_true hstate, hmatched.1, hmatched.2 9⟩

end ContainerScheduler.Analysis
