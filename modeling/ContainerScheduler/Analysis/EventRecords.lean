/-
# Events in their records

Every call of `save_event` that the scheduler makes should change the record of the container
that it is about, and no other.

The calls that name their container do so once it has started. The call for a pause and the one
for an attended update do not name it: their events belong to no record, and the search for the
first raises at a record that names no container.
-/

import ContainerScheduler.Host.TraceLog
import ContainerScheduler.Math.Transition
import Mathlib.Data.List.Nodup

namespace ContainerScheduler.Analysis

open Host Math

/-! ## What a call should do -/

/-- The log and the calls of the scheduler, each with the time of the call. -/
def tracing (log : TraceLog) : Machine TraceLog (TraceCall × ℕ) where
  init := log
  step log label := saveEvent log label.1.arguments label.2

/-- A request is generated once, and the other calls are about generated ones. -/
def Known (log : TraceLog) (label : TraceCall × ℕ) : Prop :=
  if label.1.arguments.event = .startRequest then
    ∀ record ∈ log.eventsList, record.requestId ≠ label.1.about
  else ∃ record ∈ log.eventsList, record.requestId = label.1.about

instance (log : TraceLog) (label : TraceCall × ℕ) : Decidable (Known log label) := by
  unfold Known
  infer_instance

/-- The records with the one of the container changed. -/
def noted (label : TraceCall × ℕ) (records : List TraceRecord) : List TraceRecord :=
  records.map fun record =>
    if record.requestId = (label.1.about : ℤ) then label.1.arguments.change label.2 record
    else record

/-- The records after a call: one more for a request, and otherwise one that is changed. -/
def expected (log : TraceLog) (label : TraceCall × ℕ) : List TraceRecord :=
  if label.1.arguments.event = .startRequest then
    log.eventsList ++ [newRecord log label.1.arguments label.2]
  else noted label log.eventsList

/-- A call does not raise, and leaves these records in some order. -/
def Lands (log : TraceLog) (label : TraceCall × ℕ) : Prop :=
  ∃ after, saveEvent log label.1.arguments label.2 = some after ∧
    after.eventsList.Perm (expected log label)

/-- A call that names a record: by the identifier of the request, or by the container that the
record has. -/
def NamesRecord (record : TraceRecord) : TraceCall → Prop
  | .generateRequestExe .. | .attentionRequestExe .. | .generateRequestUp _ => True
  | .attentionRequestUp .. | .pauseContainer _ => False
  | .resumeContainer _ | .reassigmentResources .. | .finishContainer _ => record.container ≠ none

/-- A call that names the record of what it is about. -/
def Names (log : TraceLog) (label : TraceCall × ℕ) : Prop :=
  ∀ record ∈ log.eventsList, record.requestId = label.1.about → NamesRecord record label.1

instance (record : TraceRecord) (call : TraceCall) : Decidable (NamesRecord record call) := by
  unfold NamesRecord
  cases call <;> infer_instance

instance (log : TraceLog) (label : TraceCall × ℕ) : Decidable (Names log label) := by
  unfold Names
  infer_instance

/-! ## Records of a run -/

/-- The keys that a record may have: some only once its container started, and none of an
attended update or of the start of a pause. -/
def MayHave (container : Option ℤ) : StampName → Prop
  | .updateRequest _ => True
  | .updateAttention _ | .updateAttentionInter _ | .updateAttentionIntra _ | .pauseStart _ => False
  | .executionStart | .executionFinish | .pauseFinish _ | .reassigment _ | .reassigmentInter _
  | .reassigmentIntra _ => container.isSome

/-- A record names no container or that of its request. -/
structure Regular (record : TraceRecord) : Prop where
  nonneg : 0 ≤ record.requestId
  container : record.container = none ∨ record.container = some record.requestId
  stamps : ∀ stamp ∈ record.stamps, MayHave record.container stamp.1

/-- The records of a log: one for each request. -/
structure Consistent (records : List TraceRecord) : Prop where
  nodup : (records.map TraceRecord.requestId).Nodup
  regular : ∀ record ∈ records, Regular record

section Stamps

variable {name : StampName} {value : StampValue} {stamps : List (StampName × StampValue)}

theorem mem_setStamp_self : (name, value) ∈ setStamp name value stamps := by
  induction stamps with
  | nil => exact List.mem_cons_self
  | cons stamp stamps ih =>
      rw [setStamp]
      split
      · exact List.mem_cons_self
      · exact List.mem_cons_of_mem _ ih

theorem mem_setStamp {stamp : StampName × StampValue} (hmem : stamp ∈ setStamp name value stamps) :
    stamp = (name, value) ∨ stamp ∈ stamps := by
  induction stamps with
  | nil => exact .inl (List.mem_singleton.mp hmem)
  | cons other stamps ih =>
      rw [setStamp] at hmem
      split at hmem
      · exact (List.mem_cons.mp hmem).imp_right (List.mem_cons_of_mem _)
      · rcases List.mem_cons.mp hmem with rfl | hmem
        · exact .inr List.mem_cons_self
        · exact (ih hmem).imp_right (List.mem_cons_of_mem _)

end Stamps

/-! ## The search -/

section Search

variable {records : List TraceRecord} {arguments : EventArguments}

/-- A search in which no comparison raises. -/
theorem findRecord_eq_find? {p : TraceRecord → Bool}
    (hconcerns : ∀ record ∈ records, arguments.concerns record = some (p record)) :
    findRecord arguments records = some (records.find? p) := by
  induction records with
  | nil => rfl
  | cons record records ih =>
      have hrest := ih fun other hmem => hconcerns other (List.mem_cons_of_mem record hmem)
      rw [findRecord, hconcerns record List.mem_cons_self, Option.bind_some]
      cases hp : p record with
      | true => rw [List.find?_cons_of_pos hp]; rfl
      | false =>
          rw [List.find?_cons_of_neg (by rw [hp]; exact Bool.false_ne_true), ← hrest]
          rfl

/-- A search for what is in no record raises or finds none. -/
theorem findRecord_of_forall_ne
    (hconcerns : ∀ record ∈ records, arguments.concerns record ≠ some true) :
    findRecord arguments records = none ∨ findRecord arguments records = some none := by
  induction records with
  | nil => exact .inr rfl
  | cons record records ih =>
      have hrest := ih fun other hmem => hconcerns other (List.mem_cons_of_mem record hmem)
      have hfirst := hconcerns record List.mem_cons_self
      rw [findRecord]
      cases hconcern : arguments.concerns record with
      | none => exact .inl rfl
      | some found =>
          cases found with
          | true => exact absurd hconcern hfirst
          | false => exact hrest

/-- Records with one identifier are one record. -/
theorem eq_of_requestId_eq (hnodup : (records.map TraceRecord.requestId).Nodup)
    {record other : TraceRecord} (hmem : record ∈ records) (hother : other ∈ records)
    (heq : other.requestId = record.requestId) : other = record :=
  List.inj_on_of_nodup_map hnodup hother hmem heq

theorem find?_requestId (hnodup : (records.map TraceRecord.requestId).Nodup)
    {record : TraceRecord} (hmem : record ∈ records) :
    records.find? (fun other => decide (other.requestId = record.requestId)) = some record := by
  cases hfind : records.find? fun other => decide (other.requestId = record.requestId) with
  | none => exact absurd (decide_eq_true rfl) (List.find?_eq_none.mp hfind record hmem)
  | some other =>
      have hsame := List.find?_some hfind
      rw [decide_eq_true_eq] at hsame
      rw [eq_of_requestId_eq hnodup hmem (List.mem_of_find?_eq_some hfind) hsame]

/-- Taking the record out and putting the changed one at the end changes that record. -/
theorem perm_noted (hnodup : (records.map TraceRecord.requestId).Nodup) {record : TraceRecord}
    (hmem : record ∈ records) (change : TraceRecord → TraceRecord) :
    (records.erase record ++ [change record]).Perm (records.map fun other =>
      if other.requestId = record.requestId then change other else other) := by
  have hothers : (records.erase record).map (fun other =>
      if other.requestId = record.requestId then change other else other) =
        records.erase record := by
    refine (List.map_congr_left ?_).trans (List.map_id _)
    intro other hother
    rcases (List.Nodup.mem_erase_iff (List.Nodup.of_map _ hnodup)).mp hother with ⟨hne, hother⟩
    exact if_neg fun heq => hne (eq_of_requestId_eq hnodup hmem hother heq)
  have hperm := (List.perm_cons_erase hmem).map fun other =>
    if other.requestId = record.requestId then change other else other
  rw [List.map_cons, hothers, if_pos rfl] at hperm
  exact (List.perm_append_singleton _ _).trans hperm.symm

end Search

/-! ## One call -/

section Call

variable {records : List TraceRecord} {record : TraceRecord} {call : TraceCall} {now : ℕ}

/-- A call that names the record of its container belongs to that record only. -/
theorem concerns_of_names (hconsistent : Consistent records) (hmem : record ∈ records)
    (habout : record.requestId = call.about) (hnames : NamesRecord record call) :
    ∀ other ∈ records,
      call.arguments.concerns other = some (decide (other.requestId = record.requestId)) := by
  have hcontainer : record.container ≠ none → ∀ other ∈ records,
      (other.container.any fun container => decide (container = (call.about : ℤ))) =
        decide (other.requestId = record.requestId) := by
    intro hstarted other hother
    rw [habout]
    rcases (hconsistent.regular other hother).container with hnone | hsome
    · rw [hnone]
      symm
      apply decide_eq_false
      intro heq
      have hsame := eq_of_requestId_eq hconsistent.nodup hmem hother (heq.trans habout.symm)
      exact hstarted (hsame ▸ hnone)
    · rw [hsome]
      rfl
  intro other hother
  cases call with
  | generateRequestExe request inter intra =>
      rw [habout]
      rfl
  | attentionRequestExe container inter intra =>
      rw [habout]
      rfl
  | generateRequestUp container =>
      rw [habout]
      rfl
  | attentionRequestUp container inter intra => exact hnames.elim
  | pauseContainer container => exact hnames.elim
  | resumeContainer container => exact congrArg some (hcontainer hnames other hother)
  | reassigmentResources container inter intra =>
      exact congrArg some (hcontainer hnames other hother)
  | finishContainer container => exact congrArg some (hcontainer hnames other hother)

/-- A call that does not name the record of its container belongs to none. -/
theorem concerns_of_not_names (hconsistent : Consistent records) (hmem : record ∈ records)
    (habout : record.requestId = call.about) (hnames : ¬ NamesRecord record call) :
    ∀ other ∈ records, call.arguments.concerns other ≠ some true := by
  intro other hother
  have hregular := hconsistent.regular other hother
  have hnonneg := hregular.nonneg
  have hcontainer : ¬ record.container ≠ none →
      some (other.container.any fun container => decide (container = (call.about : ℤ))) ≠
        some true := by
    intro hnone heq
    rcases hregular.container with hother' | hsome
    · rw [hother'] at heq
      cases heq
    · rw [hsome] at heq
      have hsame := of_decide_eq_true (Option.some.inj heq)
      have hrecord := eq_of_requestId_eq hconsistent.nodup hmem hother (hsame.trans habout.symm)
      rw [hrecord] at hsome
      exact hnone fun hnil => Option.some_ne_none _ (hsome.symm.trans hnil)
  have hdefault : ¬ other.container = some (-1) := by
    intro hsome
    rcases hregular.container with hnone | hrequest
    · rw [hnone] at hsome
      cases hsome
    · rw [hrequest] at hsome
      have heq := Option.some.inj hsome
      omega
  cases call with
  | generateRequestExe request inter intra => exact absurd trivial hnames
  | attentionRequestExe container inter intra => exact absurd trivial hnames
  | generateRequestUp container => exact absurd trivial hnames
  | attentionRequestUp container inter intra =>
      intro heq
      rcases (Option.any_eq_true _ _).mp (Option.some.inj heq) with ⟨number, hnumber, hminus⟩
      exact hdefault (hnumber.trans (congrArg some (of_decide_eq_true hminus)))
  | pauseContainer container =>
      intro heq
      rcases Option.map_eq_some_iff.mp heq with ⟨number, hnumber, hminus⟩
      exact hdefault (hnumber.trans (congrArg some (of_decide_eq_true hminus)))
  | resumeContainer container => exact hcontainer hnames
  | reassigmentResources container inter intra => exact hcontainer hnames
  | finishContainer container => exact hcontainer hnames

/-- A key that a record may have is added. -/
theorem regular_stamp (hregular : Regular record) {name : StampName} {value : StampValue}
    (hmay : MayHave record.container name) : Regular (record.stamp name value) where
  nonneg := hregular.nonneg
  container := hregular.container
  stamps stamp hmem := by
    rcases mem_setStamp hmem with rfl | hold
    · exact hmay
    · exact hregular.stamps stamp hold

theorem MayHave.of_some {container : Option ℤ} {name : StampName} (hmay : MayHave container name)
    (number : ℤ) : MayHave (some number) name := by
  cases name <;> first | exact hmay | rfl

theorem change_requestId (arguments : EventArguments) (now : ℕ) (record : TraceRecord) :
    (arguments.change now record).requestId = record.requestId := by
  unfold EventArguments.change
  cases arguments.event <;> rfl

theorem regular_change (hregular : Regular record) (habout : record.requestId = call.about)
    (hnames : NamesRecord record call) : Regular (call.arguments.change now record) := by
  cases call with
  | generateRequestExe request inter intra => exact hregular
  | attentionRequestExe container inter intra =>
      refine ⟨hregular.nonneg, .inr (congrArg some habout.symm), ?_⟩
      intro stamp hmem
      rcases mem_setStamp hmem with rfl | hold
      · rfl
      · exact (hregular.stamps stamp hold).of_some _
  | generateRequestUp container =>
      have hstamp := @regular_stamp record hregular (.updateRequest (record.updateCount + 1))
        (.time now) trivial
      exact ⟨hstamp.nonneg, hstamp.container, hstamp.stamps⟩
  | attentionRequestUp container inter intra => exact hnames.elim
  | pauseContainer container => exact hnames.elim
  | resumeContainer container =>
      exact regular_stamp hregular (Option.isSome_iff_ne_none.mpr hnames)
  | reassigmentResources container inter intra =>
      have hstarted := Option.isSome_iff_ne_none.mpr hnames
      have htime := @regular_stamp record hregular
        (.reassigment (record.reassigmentCount + 1)) (.time now) hstarted
      have hinter := @regular_stamp _ htime
        (.reassigmentInter (record.reassigmentCount + 1)) (.threads inter) hstarted
      have hintra := @regular_stamp _ hinter
        (.reassigmentIntra (record.reassigmentCount + 1)) (.threads intra) hstarted
      exact ⟨hintra.nonneg, hintra.container, hintra.stamps⟩
  | finishContainer container =>
      exact regular_stamp hregular (Option.isSome_iff_ne_none.mpr hnames)

/-- A record that would get a key that it may not have is changed. -/
theorem ne_of_mem_stamps (hregular : Regular record) {changed : TraceRecord}
    {stamp : StampName × StampValue} (hmem : stamp ∈ changed.stamps)
    (hmay : ¬ MayHave record.container stamp.1) : changed ≠ record := by
  rintro rfl
  exact hmay (hregular.stamps stamp hmem)

/-- A call that does not name its record would add a key that the record does not have. -/
theorem change_ne (hregular : Regular record) (hnames : ¬ NamesRecord record call) :
    call.arguments.change now record ≠ record := by
  cases call with
  | generateRequestExe request inter intra => exact absurd trivial hnames
  | attentionRequestExe container inter intra => exact absurd trivial hnames
  | generateRequestUp container => exact absurd trivial hnames
  | attentionRequestUp container inter intra =>
      exact ne_of_mem_stamps hregular mem_setStamp_self id
  | pauseContainer container => exact ne_of_mem_stamps hregular mem_setStamp_self id
  | resumeContainer container =>
      exact ne_of_mem_stamps hregular mem_setStamp_self
        fun hmay => hnames (Option.isSome_iff_ne_none.mp hmay)
  | reassigmentResources container inter intra =>
      exact ne_of_mem_stamps hregular mem_setStamp_self
        fun hmay => hnames (Option.isSome_iff_ne_none.mp hmay)
  | finishContainer container =>
      exact ne_of_mem_stamps hregular mem_setStamp_self
        fun hmay => hnames (Option.isSome_iff_ne_none.mp hmay)

end Call

/-! ## Calls in a log -/

section Log

variable {log after : TraceLog} {label : TraceCall × ℕ} {record : TraceRecord}

/-- A call that names its record changes it, and puts it at the end. -/
theorem saveEvent_of_names (hconsistent : Consistent log.eventsList)
    (hother : label.1.arguments.event ≠ .startRequest) (hmem : record ∈ log.eventsList)
    (habout : record.requestId = label.1.about) (hnames : NamesRecord record label.1) :
    saveEvent log label.1.arguments label.2 = some { log with
      eventsList := log.eventsList.erase record ++ [label.1.arguments.change label.2 record] } := by
  rw [saveEvent, if_neg hother, findRecord_eq_find? (concerns_of_names hconsistent hmem habout
    hnames), find?_requestId hconsistent.nodup hmem]
  rfl

/-- A call that does not name its record raises or leaves the log as it is. -/
theorem saveEvent_of_not_names (hconsistent : Consistent log.eventsList)
    (hother : label.1.arguments.event ≠ .startRequest) (hmem : record ∈ log.eventsList)
    (habout : record.requestId = label.1.about) (hnames : ¬ NamesRecord record label.1) :
    saveEvent log label.1.arguments label.2 = none ∨
      saveEvent log label.1.arguments label.2 = some log := by
  rw [saveEvent, if_neg hother]
  rcases findRecord_of_forall_ne (concerns_of_not_names hconsistent hmem habout hnames) with
    hraises | hnone
  · rw [hraises]
    exact .inl rfl
  · rw [hnone]
    exact .inr rfl

/-- A call is about one record, so it names it or it does not. -/
theorem names_iff (hconsistent : Consistent log.eventsList) (hmem : record ∈ log.eventsList)
    (habout : record.requestId = label.1.about) : Names log label ↔ NamesRecord record label.1 := by
  constructor
  · intro hnames
    exact hnames record hmem habout
  · intro hnames other hother heq
    rw [eq_of_requestId_eq hconsistent.nodup hmem hother (heq.trans habout.symm)]
    exact hnames

/-- A call lands if and only if it names its record. -/
theorem lands_iff (hconsistent : Consistent log.eventsList) (hknown : Known log label) :
    Lands log label ↔ Names log label := by
  unfold Known at hknown
  unfold Lands expected
  by_cases hstart : label.1.arguments.event = .startRequest
  · rw [if_pos hstart] at hknown
    rw [if_pos hstart, saveEvent, if_pos hstart]
    apply iff_of_true ⟨_, rfl, .rfl⟩
    intro record hmem heq
    exact absurd heq (hknown record hmem)
  · rw [if_neg hstart] at hknown
    rcases hknown with ⟨record, hmem, habout⟩
    rw [if_neg hstart, names_iff hconsistent hmem habout]
    by_cases hnames : NamesRecord record label.1
    · apply iff_of_true _ hnames
      refine ⟨_, saveEvent_of_names hconsistent hstart hmem habout hnames, ?_⟩
      have hperm := perm_noted hconsistent.nodup hmem (label.1.arguments.change label.2)
      rw [habout] at hperm
      exact hperm
    · apply iff_of_false _ hnames
      intro hlands
      rcases hlands with ⟨after, hafter, hperm⟩
      rcases saveEvent_of_not_names hconsistent hstart hmem habout hnames with hraises | hsame
      · rw [hraises] at hafter
        cases hafter
      · rw [hsame] at hafter
        cases hafter
        have hchanged : label.1.arguments.change label.2 record ∈ log.eventsList := by
          apply hperm.mem_iff.mpr
          exact List.mem_map.mpr ⟨record, hmem, if_pos habout⟩
        have hsame := eq_of_requestId_eq hconsistent.nodup hmem hchanged (change_requestId _ _ _)
        exact change_ne (hconsistent.regular record hmem) hnames hsame

/-- A new record is regular, and its identifier is new. -/
theorem consistent_append (hconsistent : Consistent log.eventsList) (hknown : Known log label)
    (hstart : label.1.arguments.event = .startRequest) :
    Consistent (log.eventsList ++ [newRecord log label.1.arguments label.2]) := by
  rcases label with ⟨call, now⟩
  rw [Known, if_pos hstart] at hknown
  cases call with
  | generateRequestExe request inter intra =>
      constructor
      · rw [List.map_append, List.nodup_append']
        refine ⟨hconsistent.nodup, List.nodup_singleton _, ?_⟩
        intro identifier hmem hnew
        rcases List.mem_map.mp hmem with ⟨record, hrecord, rfl⟩
        exact hknown record hrecord (List.mem_singleton.mp hnew)
      · intro record hmem
        rcases List.mem_append.mp hmem with hold | hnew
        · exact hconsistent.regular record hold
        · rw [List.mem_singleton.mp hnew]
          exact ⟨Int.natCast_nonneg _, .inl rfl, fun _ hstamp => absurd hstamp List.not_mem_nil⟩
  | attentionRequestExe container inter intra => cases hstart
  | generateRequestUp container => cases hstart
  | attentionRequestUp container inter intra => cases hstart
  | pauseContainer container => cases hstart
  | resumeContainer container => cases hstart
  | reassigmentResources container inter intra => cases hstart
  | finishContainer container => cases hstart

theorem consistent_change (hconsistent : Consistent log.eventsList)
    (hmem : record ∈ log.eventsList) (habout : record.requestId = label.1.about)
    (hnames : NamesRecord record label.1) : Consistent
      (log.eventsList.erase record ++ [label.1.arguments.change label.2 record]) := by
  constructor
  · have hperm := (List.perm_append_singleton (label.1.arguments.change label.2 record)
      (log.eventsList.erase record)).map TraceRecord.requestId
    rw [List.map_cons, change_requestId, ← List.map_cons] at hperm
    apply (hperm.trans _).nodup_iff.mpr hconsistent.nodup
    exact (List.perm_cons_erase hmem).symm.map TraceRecord.requestId
  · intro other hother
    rcases List.mem_append.mp hother with hold | hnew
    · exact hconsistent.regular other (List.mem_of_mem_erase hold)
    · rw [List.mem_singleton.mp hnew]
      exact regular_change (hconsistent.regular record hmem) habout hnames

/-- The records stay consistent. -/
theorem consistent_of_step (hconsistent : Consistent log.eventsList) (hknown : Known log label)
    (hstep : saveEvent log label.1.arguments label.2 = some after) :
    Consistent after.eventsList := by
  by_cases hstart : label.1.arguments.event = .startRequest
  · rw [saveEvent, if_pos hstart] at hstep
    cases hstep
    exact consistent_append hconsistent hknown hstart
  · rw [Known, if_neg hstart] at hknown
    rcases hknown with ⟨record, hmem, habout⟩
    by_cases hnames : NamesRecord record label.1
    · rw [saveEvent_of_names hconsistent hstart hmem habout hnames] at hstep
      cases hstep
      exact consistent_change hconsistent hmem habout hnames
    · rcases saveEvent_of_not_names hconsistent hstart hmem habout hnames with hraises | hsame
      · rw [hraises] at hstep
        cases hstep
      · rw [hsame] at hstep
        cases hstep
        exact hconsistent

/-- From consistent records on, the calls land when they name their records. -/
theorem runMeets_lands_iff {initial : TraceLog} {labels : List (TraceCall × ℕ)}
    (hconsistent : Consistent log.eventsList)
    (hknown : (tracing initial).RunMeets Known labels log) :
    (tracing initial).RunMeets Lands labels log ↔
      (tracing initial).RunMeets Names labels log := by
  induction labels generalizing log with
  | nil => exact Iff.rfl
  | cons label labels ih =>
      apply and_congr (lands_iff hconsistent hknown.1)
      apply forall₂_congr
      intro next hnext
      exact ih (consistent_of_step hconsistent hknown.1 hnext) (hknown.2 next hnext)

end Log

/-- **The events of a run are in their records** if and only if each call names the record of the
container that it is about. -/
theorem events_land_iff {policy tfVersion tfModel : String} {labels : List (TraceCall × ℕ)}
    (hknown : (tracing (.new policy tfVersion tfModel)).RunMeets Known labels
      (.new policy tfVersion tfModel)) :
    (tracing (.new policy tfVersion tfModel)).RunMeets Lands labels
        (.new policy tfVersion tfModel) ↔
      (tracing (.new policy tfVersion tfModel)).RunMeets Names labels
        (.new policy tfVersion tfModel) :=
  runMeets_lands_iff ⟨List.nodup_nil, fun _ hmem => absurd hmem List.not_mem_nil⟩ hknown

/-- The log of a scheduler that reassigns strictly. -/
def strictLog : TraceLog := .new "strict" "tf" "model"

/-- A container that starts, is reassigned threads and finishes. -/
theorem events_of_container_land : (tracing strictLog).RunMeets Lands
    [(.generateRequestExe 0 1 2, 10), (.attentionRequestExe 0 1 1, 20),
      (.reassigmentResources 0 1 2, 30), (.finishContainer 0, 40)] strictLog :=
  (events_land_iff (by decide)).mpr (by decide)

/-- **The start of a pause is in no record**, and saving it raises while another container has
not started; an update that was attended is in no record either. -/
theorem pause_does_not_land :
    (tracing strictLog).RunMeets Known
        [(.generateRequestExe 0 1 2, 10), (.attentionRequestExe 0 1 1, 20), (.pauseContainer 0, 30)]
        strictLog ∧
      ¬ (tracing strictLog).RunMeets Lands
        [(.generateRequestExe 0 1 2, 10), (.attentionRequestExe 0 1 1, 20), (.pauseContainer 0, 30)]
        strictLog ∧
      (tracing strictLog).run
        [(.generateRequestExe 0 1 2, 10), (.generateRequestExe 1 1 2, 20),
          (.attentionRequestExe 1 1 1, 30), (.pauseContainer 1, 40)] strictLog = none ∧
      ¬ (tracing strictLog).RunMeets Lands
        [(.generateRequestExe 0 1 2, 10), (.attentionRequestExe 0 1 1, 20),
          (.generateRequestUp 0, 30), (.attentionRequestUp 0 1 2, 40)] strictLog := by
  have hconsistent : Consistent strictLog.eventsList :=
    ⟨List.nodup_nil, fun _ hmem => absurd hmem List.not_mem_nil⟩
  refine ⟨by decide, ?_, rfl, ?_⟩
  · rw [runMeets_lands_iff hconsistent (by decide)]
    decide
  · rw [runMeets_lands_iff hconsistent (by decide)]
    decide

end ContainerScheduler.Analysis
