/-
# Requests, the machine and the running containers

Only `Start`, `Update` and `Restart` carry an amount of parallelism and a priority; the other
requests inherit the defaults of the base class, `-1` for both amounts and priority `0`. A container
started by the request with identifier `id` is named `instance` followed by `id`, while its number
is `id` itself: requests are matched against both.

`SystemInfo` counts the cores in use. `ExecutionInfo` is what the scheduler keeps
about one TensorFlow container: its identifiers, the parallelism its user asked
for, the parallelism it was given, the socket of its client and its state.

`updateParallelism` is the only way to change a running container's share. It
leaves a component alone when the value sent for it is not positive, and it
overwrites the user's figure together with the one in execution.
-/

import Mathlib.Algebra.BigOperators.Group.List.Basic
import Mathlib.Algebra.Order.Ring.Int
import Mathlib.Data.Rat.Defs

namespace ContainerScheduler.Host

/-! ## Requests -/

/-- The request classes that some thread of the program builds. -/
inductive Request
  | start (requestId image : String) (interParallelism intraParallelism priority : ℤ)
  | update (requestId : String) (interParallelism intraParallelism priority : ℤ)
  | restart (requestId containerName : String) (interParallelism intraParallelism : ℤ)
      (image : String) (priority : ℤ)
  | resume (requestId : String)
  | pause (requestId : String)
  deriving DecidableEq, Repr

/-- The name the scheduler gives to the container of a request identifier. -/
def instanceName (requestId : String) : String := "instance" ++ requestId

/-- A container's name is never its number: the prefix makes it longer. -/
theorem instanceName_ne_self (requestId : String) : instanceName requestId ≠ requestId := by
  intro heq
  have hlength := congrArg String.length heq
  simp [instanceName, String.length_append] at hlength

namespace Request

def getRequestId : Request → String
  | start requestId .. | update requestId .. | restart requestId .. => requestId
  | resume requestId | pause requestId => requestId

def getInterParallelism : Request → ℤ
  | start _ _ inter .. | update _ inter .. | restart _ _ inter .. => inter
  | resume _ | pause _ => -1

def getIntraParallelism : Request → ℤ
  | start _ _ _ intra _ | update _ _ intra _ | restart _ _ _ intra _ _ => intra
  | resume _ | pause _ => -1

def getPriority : Request → ℤ
  | start _ _ _ _ priority | update _ _ _ priority | restart _ _ _ _ _ priority => priority
  | resume _ | pause _ => 0

/-- The parallelism a request asks for, both kinds together. -/
def totalParallelism (request : Request) : ℤ :=
  request.getInterParallelism + request.getIntraParallelism

end Request

/-! ## Cores of the machine -/

/-- The cores of the machine and how many of them are handed out. -/
structure SystemInfo where
  cores : ℤ
  coresUsed : ℤ
  deriving DecidableEq, Repr

namespace SystemInfo

def totalCores (system : SystemInfo) : ℤ := system.cores

def checkResources (system : SystemInfo) : ℤ := system.cores - system.coresUsed

/-- With resource control on, an amount above the free cores is not charged. -/
def applyResources (system : SystemInfo) (parallelism : ℤ) : SystemInfo :=
  if system.cores - system.coresUsed < parallelism then system
  else { system with coresUsed := system.coresUsed + parallelism }

def freeResources (system : SystemInfo) (parallelism : ℤ) : SystemInfo :=
  { system with coresUsed := system.coresUsed - parallelism }

/-- The cores in use as a percentage of all cores. -/
def systemOccupation (system : SystemInfo) : ℚ := system.coresUsed / system.cores * 100

@[simp]
theorem freeResources_coresUsed (system : SystemInfo) (parallelism : ℤ) :
    (system.freeResources parallelism).coresUsed = system.coresUsed - parallelism := rfl

@[simp]
theorem applyResources_cores (system : SystemInfo) (parallelism : ℤ) :
    (system.applyResources parallelism).cores = system.cores := by
  simp only [applyResources]
  split <;> rfl

/-- What fits in the free cores is charged in full. -/
theorem applyResources_coresUsed {system : SystemInfo} {parallelism : ℤ}
    (hfits : parallelism ≤ system.checkResources) :
    (system.applyResources parallelism).coresUsed = system.coresUsed + parallelism := by
  have hnot : ¬ system.cores - system.coresUsed < parallelism := by
    simpa [checkResources] using hfits
  simp [applyResources, hnot]

end SystemInfo

/-! ## Containers -/

/-- The state strings that the program assigns. -/
inductive ContainerState
  | start
  | pause
  | failed
  | update
  deriving DecidableEq, Repr

/-- A connection accepted from the listening socket. `peer` is the container
whose client opened it, which the scheduler never reads; `failed` says that a
send on it raises. -/
structure ClientSocket where
  peer : String
  failed : Bool
  deriving DecidableEq, Repr

/-- What the scheduler stores about one execution. -/
structure ExecutionInfo where
  containerName : String
  containerNumber : String
  containerPort : ℕ
  interUserParallelism : ℤ
  intraUserParallelism : ℤ
  interExecParallelism : ℤ
  intraExecParallelism : ℤ
  clientsocket : ClientSocket
  image : String
  priority : ℤ
  state : ContainerState := .start
  deriving DecidableEq, Repr

namespace ExecutionInfo

/-- The cores a container was given. -/
def execParallelism (info : ExecutionInfo) : ℤ :=
  info.interExecParallelism + info.intraExecParallelism

def updateInfo (info : ExecutionInfo) (inter intra : ℤ) (port : ℕ) (socket : ClientSocket) :
    ExecutionInfo :=
  { info with
    interExecParallelism := inter
    intraExecParallelism := intra
    containerPort := port
    clientsocket := socket
    state := .start }

def setState (info : ExecutionInfo) (state : ContainerState) : ExecutionInfo :=
  { info with state := state }

def pauseContainer (info : ExecutionInfo) : ExecutionInfo := info.setState .pause

def resumeContainer (info : ExecutionInfo) : ExecutionInfo := info.setState .start

def setExecParallelism (info : ExecutionInfo) (inter intra : ℤ) : ExecutionInfo :=
  { info with interExecParallelism := inter, intraExecParallelism := intra }

/-- The connection to the client breaks: every later send on it raises. -/
def disconnect (info : ExecutionInfo) : ExecutionInfo :=
  { info with clientsocket := { info.clientsocket with failed := true } }

/-- The value of `--cpus` in the `docker update` command. -/
def updateCpus (info : ExecutionInfo) (inter intra : ℤ) : ℤ :=
  if 0 < inter ∧ 0 < intra then inter + intra
  else if 0 < inter then inter + info.intraExecParallelism
  else intra + info.interExecParallelism

/-- The record after the client was told. Only positive components are stored. -/
def recordUpdate (info : ExecutionInfo) (inter intra : ℤ) : ExecutionInfo :=
  { info with
    interUserParallelism := if 0 < inter then inter else info.interUserParallelism
    interExecParallelism := if 0 < inter then inter else info.interExecParallelism
    intraUserParallelism := if 0 < intra then intra else info.intraUserParallelism
    intraExecParallelism := if 0 < intra then intra else info.intraExecParallelism }

/-- Change a container's share; `none` when the send raises, which ends the
calling thread with `sys.exit`. -/
def updateParallelism (info : ExecutionInfo) (inter intra : ℤ) : Option ExecutionInfo :=
  if info.clientsocket.failed then none else some (info.recordUpdate inter intra)

/-- The cores a container holds: none while it is paused or failed. -/
def heldCores (info : ExecutionInfo) : ℤ :=
  if info.state = .pause ∨ info.state = .failed then 0 else info.execParallelism

/-- Whether a container's share counts as handed out. -/
def Active (info : ExecutionInfo) : Prop := info.state ≠ .pause ∧ info.state ≠ .failed

instance (info : ExecutionInfo) : Decidable info.Active := by
  unfold Active
  infer_instance

theorem heldCores_of_active {info : ExecutionInfo} (hactive : info.Active) :
    info.heldCores = info.execParallelism := by
  simp [heldCores, hactive.1, hactive.2]

theorem active_of_start {info : ExecutionInfo} (hstate : info.state = .start) : info.Active := by
  simp [Active, hstate]

section Projections

variable (info : ExecutionInfo) (inter intra : ℤ)

@[simp]
theorem recordUpdate_containerName :
    (info.recordUpdate inter intra).containerName = info.containerName := rfl

@[simp]
theorem heldCores_updateInfo (port : ℕ) (socket : ClientSocket) :
    (info.updateInfo inter intra port socket).heldCores = inter + intra := by
  simp [heldCores, updateInfo, execParallelism]

@[simp]
theorem heldCores_setState_failed : (info.setState .failed).heldCores = 0 := by
  simp [heldCores, setState]

/-- How an update moves the total of a container: by the amount of each
component that is positive. -/
theorem execParallelism_recordUpdate :
    (info.recordUpdate inter intra).execParallelism = info.execParallelism +
      (if 0 < inter then inter - info.interExecParallelism else 0) +
      (if 0 < intra then intra - info.intraExecParallelism else 0) := by
  simp only [execParallelism, recordUpdate]
  split <;> split <;> omega

end Projections

theorem updateParallelism_eq_some {info updated : ExecutionInfo} {inter intra : ℤ} :
    info.updateParallelism inter intra = some updated ↔
      info.clientsocket.failed = false ∧ info.recordUpdate inter intra = updated := by
  cases hfailed : info.clientsocket.failed <;> simp [updateParallelism, hfailed]

end ExecutionInfo

/-! ## Lists of containers -/

/-- The cores held by all listed containers. -/
def activeCores (infos : List ExecutionInfo) : ℤ := (infos.map ExecutionInfo.heldCores).sum

@[simp]
theorem activeCores_nil : activeCores [] = 0 := rfl

@[simp]
theorem activeCores_cons (info : ExecutionInfo) (infos : List ExecutionInfo) :
    activeCores (info :: infos) = info.heldCores + activeCores infos := by
  simp [activeCores]

@[simp]
theorem activeCores_append (front back : List ExecutionInfo) :
    activeCores (front ++ back) = activeCores front + activeCores back := by
  simp [activeCores]

/-- The listed containers of a name, in list order. -/
def named (containerName : String) (infos : List ExecutionInfo) : List ExecutionInfo :=
  infos.filter (fun info => info.containerName = containerName)

/-- Change every listed container of a name. -/
def mapNamed (containerName : String) (change : ExecutionInfo → ExecutionInfo)
    (infos : List ExecutionInfo) : List ExecutionInfo :=
  infos.map fun info => if info.containerName = containerName then change info else info

end ContainerScheduler.Host
