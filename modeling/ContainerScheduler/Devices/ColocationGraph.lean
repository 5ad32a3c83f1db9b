/-
# Devices of colocation groups

The member at the root of a group knows the device that the nodes are assigned to, the one of their
resources and the one that is requested. Names of devices are merged field by field.
-/

import ContainerScheduler.Devices.DeviceNameUtils

namespace ContainerScheduler.Devices

namespace DeviceNameUtils

open Parse

/-! ## Specifications -/

/-- A field of a name. -/
structure Field (α : Type) where
  has : ParsedName → Bool
  value : ParsedName → α
  store : Option α → ParsedName → ParsedName

namespace Field

def job : Field (List UInt8) := ⟨ParsedName.hasJob, ParsedName.job, storeJob⟩

def replica : Field Int32 := ⟨ParsedName.hasReplica, ParsedName.replica, storeReplica⟩

def task : Field Int32 := ⟨ParsedName.hasTask, ParsedName.task, storeTask⟩

def type : Field (List UInt8) := ⟨ParsedName.hasType, ParsedName.type, storeType⟩

def id : Field Int32 := ⟨ParsedName.hasId, ParsedName.id, storeId⟩

variable {α : Type} [DecidableEq α] (field : Field α)

/-- The field of the first name is in the second one, too. -/
def kept (less more : ParsedName) : Bool :=
  !field.has less || field.has more && field.value less == field.value more

/-- Both names have the field, with different values. -/
def differs (target other : ParsedName) : Bool :=
  field.has other && field.has target && field.value target != field.value other

def copy (target other : ParsedName) : ParsedName :=
  if field.has other then field.store (some (field.value other)) target else target

/-- An error leaves the target as it is by then. -/
def merge (fields : String) (target other : ParsedName) :
    Except (List UInt8 × ParsedName) ParsedName :=
  if field.differs target other then
    .error (ascii ("Cannot merge devices with incompatible " ++ fields ++ ": '") ++
      parsedNameToString target ++ ascii "' and '" ++ parsedNameToString other ++ ascii "'", target)
  else .ok (field.copy target other)

end Field

def isSpecification (less more : ParsedName) : Bool :=
  Field.job.kept less more && Field.replica.kept less more && Field.task.kept less more &&
    Field.type.kept less more && Field.id.kept less more

def areCompatibleDevNames (a b : ParsedName) : Bool := isSpecification a b || isSpecification b a

def ensureSpecification (more less : ParsedName) : ParsedName where
  hasJob := less.hasJob || more.hasJob
  job := if less.hasJob then less.job else more.job
  hasReplica := less.hasReplica || more.hasReplica
  replica := if less.hasReplica then less.replica else more.replica
  hasTask := less.hasTask || more.hasTask
  task := if less.hasTask then less.task else more.task
  hasType := less.hasType || more.hasType
  type := if less.hasType then less.type else more.type
  hasId := less.hasId || more.hasId
  id := if less.hasId then less.id else more.id

def mergeDevNamesImpl (target other : ParsedName) (allowSoftPlacement overrideConflicts : Bool) :
    Except (List UInt8 × ParsedName) ParsedName := do
  let target ← Field.job.merge "jobs" target other
  let target ← Field.replica.merge "replicas" target other
  let target ← Field.task.merge "tasks" target other
  if Field.type.differs target other && allowSoftPlacement && !overrideConflicts then
    .ok { target with hasId := false, hasType := false }
  else
    let target ← if allowSoftPlacement then .ok (Field.type.copy target other)
      else Field.type.merge "types" target other
    if Field.id.differs target other && allowSoftPlacement && !overrideConflicts then
      .ok { target with hasId := false }
    else if allowSoftPlacement then .ok (Field.id.copy target other)
    else Field.id.merge "ids" target other

def mergeDevNames (target other : ParsedName) (allowSoftPlacement : Bool) :
    Except (List UInt8 × ParsedName) ParsedName :=
  mergeDevNamesImpl target other allowSoftPlacement false

def mergeOverrideDevNames (target other : ParsedName) :
    Except (List UInt8 × ParsedName) ParsedName := mergeDevNamesImpl target other true true

end DeviceNameUtils

open DeviceNameUtils

/-! ## Members -/

/-- The devices of a `Member`. -/
structure Member where
  assigned : ParsedName := {}
  resource : ParsedName := {}
  requested : ParsedName := {}

namespace Member

variable (m : Member)

/-- An error leaves the member as it is. -/
def mergeDeviceNames (other : Member) (allowSoftPlacement : Bool) :
    Except (List UInt8 × ParsedName) Member := do
  let assigned ← mergeDevNames m.assigned other.assigned false
  let resource ← mergeDevNames m.resource other.resource false
  let requested ← mergeDevNames m.requested other.requested allowSoftPlacement
  let requested := ensureSpecification (ensureSpecification requested assigned) resource
  return { assigned, resource, requested }

/-- `none` for an error. -/
def ensureCompatibilityAcrossResourceEdge (src : Member) : Option Member :=
  if !areCompatibleDevNames src.assigned m.assigned then none
  else if !areCompatibleDevNames src.resource m.resource then none
  else if areCompatibleDevNames src.requested m.requested then some m
  else
    some { m with requested :=
      ensureSpecification (ensureSpecification src.requested m.assigned) m.resource }

def assignDevice (parsed : ParsedName) : Except (List UInt8 × ParsedName) Member := do
  let assigned ← mergeDevNames m.assigned parsed false
  let resource ← mergeOverrideDevNames m.resource parsed
  let requested ← mergeOverrideDevNames m.requested parsed
  return { assigned, resource, requested }

/-- The devices are those of another group. -/
def limitToPossibleDevices (devices : Member) (allowSoftPlacement : Bool) :
    Except (List UInt8 × ParsedName) Member := do
  let requested ← mergeDevNames m.requested devices.requested allowSoftPlacement
  let resource ← mergeDevNames m.resource devices.resource false
  return { m with requested, resource }

end Member

end ContainerScheduler.Devices
