/-
# Reassigning free cores

After a pass over the queues, and after containers finished, the attention thread
charges every free core, hands as many as it can to the running containers, and
frees the remainder.

Both ways of handing them out are one loop over the containers. A visit to a
container decides a top-up from the cores that remain: the two values sent to
the client and the amount taken off. The loop stops when nothing remains. A send
that raises ends the attention thread with all free cores charged.
-/

import ContainerScheduler.Host.Attendance

namespace ContainerScheduler.Host

/-! ## One visit -/

/-- What one visit sends to a container, and what it takes off the free cores. -/
structure TopUp where
  interParallelism : ℤ
  intraParallelism : ℤ
  charged : ℤ
  deriving DecidableEq, Repr

/-- The parallelism a container lacks, cut to the maximum for one container. -/
def parallelismRequired (maxResourcesPerCont userParallelism execParallelism : ℤ) : ℤ :=
  if maxResourcesPerCont ≤ userParallelism - execParallelism then maxResourcesPerCont
  else userParallelism - execParallelism

/-- Bring a container up to what its user asked for, as far as the cores go. A
full top-up sends the user's own figures. -/
def strictTopUp (maxResourcesPerCont resourcesAvailables : ℤ) (container : ExecutionInfo) :
    Option TopUp :=
  let interRequired := parallelismRequired maxResourcesPerCont
    container.interUserParallelism container.interExecParallelism
  let intraRequired := parallelismRequired maxResourcesPerCont
    container.intraUserParallelism container.intraExecParallelism
  if 0 < resourcesAvailables then
    if 0 < interRequired ∧ 0 < intraRequired then
      if interRequired + intraRequired ≤ resourcesAvailables then
        some ⟨container.interUserParallelism, container.intraUserParallelism,
          interRequired + intraRequired⟩
      else if intraRequired ≤ resourcesAvailables then
        some ⟨0, container.intraExecParallelism + intraRequired, intraRequired⟩
      else some ⟨0, container.intraExecParallelism + resourcesAvailables, resourcesAvailables⟩
    else if 0 < intraRequired then
      if intraRequired ≤ resourcesAvailables then
        some ⟨0, container.intraUserParallelism, intraRequired⟩
      else some ⟨0, container.intraExecParallelism + resourcesAvailables, resourcesAvailables⟩
    else if 0 < interRequired then
      if interRequired ≤ resourcesAvailables then
        some ⟨container.interUserParallelism, 0, interRequired⟩
      else some ⟨container.interExecParallelism + resourcesAvailables, 0, resourcesAvailables⟩
    else none
  else none

/-- Raise the intra parallelism of a container by the factor, or to the maximum.
At the maximum the whole maximum is taken off. -/
def maxpropTopUp (maxResourcesPerCont maxpropFactor resourcesAvailables : ℤ)
    (container : ExecutionInfo) : Option TopUp :=
  if 0 < resourcesAvailables ∧ container.intraExecParallelism < maxResourcesPerCont then
    if container.intraExecParallelism + maxpropFactor ≤ maxResourcesPerCont then
      some ⟨0, container.intraExecParallelism + maxpropFactor, maxpropFactor⟩
    else some ⟨0, maxResourcesPerCont, maxResourcesPerCont⟩
  else none

/-! ## The loop over the containers -/

/-- A loop over the containers: whether a send raised, the cores that remain and
the list. -/
structure ReassignTrace where
  exited : Bool
  resourcesAvailables : ℤ
  execInfoList : List ExecutionInfo
  deriving DecidableEq, Repr

/-- Keep one more container at the front of the list. -/
def ReassignTrace.after (info : ExecutionInfo) (trace : ReassignTrace) : ReassignTrace :=
  { trace with execInfoList := info :: trace.execInfoList }

section Loop

variable (topUp : ℤ → ExecutionInfo → Option TopUp) (finish : ExecutionInfo → ExecutionInfo)

/-- Visit one running container: `none` when the send raises. A container that
was topped up is left as `finish` says. -/
def visit (resourcesAvailables : ℤ) (container : ExecutionInfo) : Option (ℤ × ExecutionInfo) :=
  match topUp resourcesAvailables container with
  | none => some (resourcesAvailables, container)
  | some granted =>
      (container.updateParallelism granted.interParallelism granted.intraParallelism).map
        fun updated => (resourcesAvailables - granted.charged, finish updated)

/-- Visit the running containers in list order until nothing remains. -/
def reassignLoop : ℤ → List ExecutionInfo → ReassignTrace
  | resourcesAvailables, [] => ⟨false, resourcesAvailables, []⟩
  | resourcesAvailables, container :: containers =>
      if container.state = .start then
        match visit topUp finish resourcesAvailables container with
        | none => ⟨true, resourcesAvailables, container :: containers⟩
        | some (remaining, visited) =>
            if remaining = 0 then ⟨false, remaining, visited :: containers⟩
            else (reassignLoop remaining containers).after visited
      else (reassignLoop resourcesAvailables containers).after container

end Loop

/-! ## The two reassignments -/

/-- The largest priority of a listed container, or `-1`. -/
def highestPriority (containers : List ExecutionInfo) : ℤ :=
  containers.foldl (fun priority container =>
    if priority < container.priority then container.priority else priority) (-1)

/-- Under priorities the test that should pass over single containers reads the
variable of the preceding loop, which is the last listed container: either all
containers are passed over or none is. -/
def passesOverAll (policyClass : PolicyClass) (containers : List ExecutionInfo) : Bool :=
  match policyClass, containers.getLast? with
  | .priority _, some last => last.priority ≠ highestPriority containers
  | _, _ => false

def strictReassigment (scheduler : Scheduler) (resourcesAvailables : ℤ) : ReassignTrace :=
  if passesOverAll scheduler.schedulerContainer.policyClass scheduler.execInfoList then
    ⟨false, resourcesAvailables, scheduler.execInfoList⟩
  else
    reassignLoop (strictTopUp scheduler.maxResourcesPerCont) id resourcesAvailables
      scheduler.execInfoList

/-- An equal part of the cores for each listed container, at least one. -/
def maxpropFactor (resourcesAvailables : ℤ) (containers : List ExecutionInfo) : ℤ :=
  let factor := pyInt (resourcesAvailables / containers.length)
  if factor = 0 then 1 else factor

/-- Every container is offered the same part; without containers all cores remain. -/
def maxpropReassigment (scheduler : Scheduler) (resourcesAvailables : ℤ) : ReassignTrace :=
  if scheduler.execInfoList = [] then ⟨false, resourcesAvailables, []⟩
  else if passesOverAll scheduler.schedulerContainer.policyClass scheduler.execInfoList then
    ⟨false, resourcesAvailables, scheduler.execInfoList⟩
  else
    reassignLoop (maxpropTopUp scheduler.maxResourcesPerCont
        (maxpropFactor resourcesAvailables scheduler.execInfoList))
      (fun container => container.setState .update) resourcesAvailables scheduler.execInfoList

/-- The reassignment of the assignment policy. -/
def reassigment (scheduler : Scheduler) (resourcesAvailables : ℤ) : ReassignTrace :=
  if scheduler.schedulerContainer.reassigmentType = .maxProp then
    maxpropReassigment scheduler resourcesAvailables
  else strictReassigment scheduler resourcesAvailables

/-- Charge the free cores, hand them out and free the remainder. An error is the
state in which the thread ends. -/
def reassignFree (scheduler : Scheduler) : Except Scheduler Scheduler :=
  let resourcesAvailables := scheduler.checkResources
  if 0 < resourcesAvailables then
    let trace := reassigment scheduler resourcesAvailables
    let reassigned := { scheduler.applyResources resourcesAvailables with
      execInfoList := trace.execInfoList }
    if trace.exited then .error reassigned
    else if 0 < trace.resourcesAvailables then
      .ok (reassigned.freeResources trace.resourcesAvailables)
    else .ok reassigned
  else .ok scheduler

/-- The three ways a reassignment ends: nothing was free, the thread ended with
every free core charged, or all but the remainder is charged. -/
theorem reassignFree_cases (scheduler : Scheduler) :
    (scheduler.checkResources ≤ 0 ∧ reassignFree scheduler = .ok scheduler) ∨
    (0 < scheduler.checkResources ∧
      (reassigment scheduler scheduler.checkResources).exited = true ∧
      reassignFree scheduler = .error { scheduler.charge scheduler.checkResources with
        execInfoList := (reassigment scheduler scheduler.checkResources).execInfoList }) ∨
    (0 < scheduler.checkResources ∧
      (reassigment scheduler scheduler.checkResources).exited = false ∧
      reassignFree scheduler = .ok { scheduler.charge (scheduler.checkResources -
          max (reassigment scheduler scheduler.checkResources).resourcesAvailables 0) with
        execInfoList := (reassigment scheduler scheduler.checkResources).execInfoList }) := by
  have hcharge := scheduler.applyResources_eq_charge scheduler.checkResources le_rfl
  by_cases hfree : 0 < scheduler.checkResources
  · right
    simp only [reassignFree, hfree, if_true, true_and, hcharge]
    cases (reassigment scheduler scheduler.checkResources).exited with
    | true => simp
    | false =>
        simp only [Bool.false_eq_true, if_false, false_and, false_or, true_and]
        by_cases hrest : 0 < (reassigment scheduler scheduler.checkResources).resourcesAvailables
        · rw [max_eq_left hrest.le, if_pos hrest, Scheduler.freeResources_eq_charge]
          simp [Scheduler.charge, sub_eq_add_neg, add_assoc]
        · rw [max_eq_right (not_lt.mp hrest), if_neg hrest, sub_zero]
  · exact .inl ⟨not_lt.mp hfree, by simp [reassignFree, hfree]⟩

end ContainerScheduler.Host
