/-
# The event log

The log holds one record for each request to execute a container. An event is saved with a
search for the record that it belongs to, by the identifier of the request or by the number of
the container; the record is taken out of the list, changed and put back at the end.

A record does not name a container before the container started: there the source has the text
`null`, of which no number can be made. The number of a container is the identifier of its
request. The scheduler counts them from zero, and `-1` stands for an argument that is not given.
-/

import Mathlib.Algebra.Order.Ring.Int

namespace ContainerScheduler.Host

/-! ## Records -/

/-- The keys that events add to a record: the name of the event and its count, and for some
events the two amounts of threads. -/
inductive StampName
  | executionStart
  | executionFinish
  | updateRequest (count : ℕ)
  | updateAttention (count : ℕ)
  | updateAttentionInter (count : ℕ)
  | updateAttentionIntra (count : ℕ)
  | pauseStart (count : ℕ)
  | pauseFinish (count : ℕ)
  | reassigment (count : ℕ)
  | reassigmentInter (count : ℕ)
  | reassigmentIntra (count : ℕ)
  deriving DecidableEq, Repr

/-- A value under such a key: what `datetime.now` returned, or an amount of threads. -/
inductive StampValue
  | time (now : ℕ)
  | threads (amount : ℤ)
  deriving DecidableEq, Repr

/-- The record of a request. -/
structure TraceRecord where
  requestId : ℤ
  model : String
  policy : String
  tensorflow : String
  container : Option ℤ
  interParallelismRequest : ℤ
  intraParallelismRequest : ℤ
  interParallelismInitial : ℤ
  intraParallelismInitial : ℤ
  startRequest : ℕ
  updateCount : ℕ
  pauseCount : ℕ
  reassigmentCount : ℕ
  stamps : List (StampName × StampValue)
  deriving DecidableEq, Repr

/-- Assign a value to a key. -/
def setStamp (name : StampName) (value : StampValue) :
    List (StampName × StampValue) → List (StampName × StampValue)
  | [] => [(name, value)]
  | (other, old) :: stamps =>
      if other = name then (name, value) :: stamps else (other, old) :: setStamp name value stamps

def TraceRecord.stamp (record : TraceRecord) (name : StampName) (value : StampValue) :
    TraceRecord :=
  { record with stamps := setStamp name value record.stamps }

/-! ## Saving an event -/

/-- The events of the scheduler. -/
inductive Event
  | startRequest
  | startAttention
  | updateRequest
  | updateAttention
  | pauseStart
  | pauseFinish
  | reassigment
  | executionFinish
  deriving DecidableEq, Repr

/-- The arguments of `save_event`, with its defaults. -/
structure EventArguments where
  event : Event
  requestId : ℤ := -1
  interExec : ℤ := -1
  intraExec : ℤ := -1
  interUser : ℤ := -1
  intraUser : ℤ := -1
  containerId : ℤ := -1
  deriving DecidableEq, Repr

structure TraceLog where
  policy : String
  tfVersion : String
  tfModel : String
  eventsList : List TraceRecord
  deriving DecidableEq, Repr

/-- A log as its constructor leaves it, once the model and the versions are set. -/
def TraceLog.new (policy tfVersion tfModel : String) : TraceLog := ⟨policy, tfVersion, tfModel, []⟩

/-- The record of a new request. -/
def newRecord (log : TraceLog) (arguments : EventArguments) (now : ℕ) : TraceRecord where
  requestId := arguments.requestId
  model := log.tfModel
  policy := log.policy
  tensorflow := log.tfVersion
  container := none
  interParallelismRequest := arguments.interUser
  intraParallelismRequest := arguments.intraUser
  interParallelismInitial := -1
  intraParallelismInitial := -1
  startRequest := now
  updateCount := 0
  pauseCount := 0
  reassigmentCount := 0
  stamps := []

/-- Whether an event belongs to a record; `none` where `int` raises. A pause compares the number
of the container before it asks whether there is one. -/
def EventArguments.concerns (arguments : EventArguments) (record : TraceRecord) : Option Bool :=
  match arguments.event with
  | .startRequest | .startAttention | .updateRequest =>
      some (decide (record.requestId = arguments.requestId))
  | .pauseStart => record.container.map fun container => decide (container = arguments.containerId)
  | .updateAttention | .pauseFinish | .reassigment | .executionFinish =>
      some (record.container.any fun container => decide (container = arguments.containerId))

/-- What an event changes in its record. -/
def EventArguments.change (arguments : EventArguments) (now : ℕ) (record : TraceRecord) :
    TraceRecord :=
  match arguments.event with
  | .startRequest => record
  | .startAttention =>
      { record.stamp .executionStart (.time now) with
        container := some arguments.containerId
        interParallelismInitial := arguments.interExec
        intraParallelismInitial := arguments.intraExec }
  | .updateRequest =>
      { record.stamp (.updateRequest (record.updateCount + 1)) (.time now) with
        updateCount := record.updateCount + 1 }
  | .updateAttention =>
      ((record.stamp (.updateAttention record.updateCount) (.time now)).stamp
        (.updateAttentionInter record.updateCount) (.threads arguments.interExec)).stamp
        (.updateAttentionIntra record.updateCount) (.threads arguments.intraExec)
  | .pauseStart =>
      { record.stamp (.pauseStart (record.pauseCount + 1)) (.time now) with
        pauseCount := record.pauseCount + 1 }
  | .pauseFinish => record.stamp (.pauseFinish record.pauseCount) (.time now)
  | .reassigment =>
      { ((record.stamp (.reassigment (record.reassigmentCount + 1)) (.time now)).stamp
          (.reassigmentInter (record.reassigmentCount + 1)) (.threads arguments.interExec)).stamp
          (.reassigmentIntra (record.reassigmentCount + 1)) (.threads arguments.intraExec) with
        reassigmentCount := record.reassigmentCount + 1 }
  | .executionFinish => record.stamp .executionFinish (.time now)

/-- The search for the record of an event: the first that it belongs to, if there is one;
`none` when a comparison raises. -/
def findRecord (arguments : EventArguments) : List TraceRecord → Option (Option TraceRecord)
  | [] => some none
  | record :: records =>
      (arguments.concerns record).bind fun found =>
        if found then some (some record) else findRecord arguments records

/-- `save_event`; `none` when it raises. -/
def saveEvent (log : TraceLog) (arguments : EventArguments) (now : ℕ) : Option TraceLog :=
  if arguments.event = .startRequest then
    some { log with eventsList := log.eventsList ++ [newRecord log arguments now] }
  else
    (findRecord arguments log.eventsList).map fun found =>
      match found with
      | none => log
      | some record =>
          { log with
            eventsList := log.eventsList.erase record ++ [arguments.change now record] }

/-! ## The calls of the scheduler -/

/-- The calls of `save_event`, with what each knows: the request or the container it is about,
and amounts of threads. -/
inductive TraceCall
  | generateRequestExe (request : ℕ) (inter intra : ℤ)
  | attentionRequestExe (container : ℕ) (inter intra : ℤ)
  | generateRequestUp (container : ℕ)
  | attentionRequestUp (container : ℕ) (inter intra : ℤ)
  | pauseContainer (container : ℕ)
  | resumeContainer (container : ℕ)
  | reassigmentResources (container : ℕ) (inter intra : ℤ)
  | finishContainer (container : ℕ)
  deriving DecidableEq, Repr

namespace TraceCall

/-- The container a call is about. -/
def about : TraceCall → ℕ
  | generateRequestExe container _ _ | attentionRequestExe container _ _
  | generateRequestUp container | attentionRequestUp container _ _ | pauseContainer container
  | resumeContainer container | reassigmentResources container _ _
  | finishContainer container => container

/-- The arguments that a call passes. The call for a pause passes zero as the request and its
container as the number of inter threads; the one for an attended update names the container as
the request. -/
def arguments : TraceCall → EventArguments
  | generateRequestExe request inter intra =>
      { event := .startRequest, requestId := request, interUser := inter, intraUser := intra }
  | attentionRequestExe container inter intra =>
      { event := .startAttention, requestId := container, containerId := container,
        interExec := inter, intraExec := intra }
  | generateRequestUp container => { event := .updateRequest, requestId := container }
  | attentionRequestUp container inter intra =>
      { event := .updateAttention, requestId := container, intraExec := intra,
        interExec := inter }
  | pauseContainer container =>
      { event := .pauseStart, requestId := 0, interExec := container }
  | resumeContainer container => { event := .pauseFinish, containerId := container }
  | reassigmentResources container inter intra =>
      { event := .reassigment, containerId := container, interExec := inter,
        intraExec := intra }
  | finishContainer container => { event := .executionFinish, containerId := container }

end TraceCall

end ContainerScheduler.Host
