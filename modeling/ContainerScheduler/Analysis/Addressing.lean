/-
# Which container a request means

A container has a name and a number, and requests are matched against one or the
other: an `Update` by the name made from its identifier, a `Restart` by the name
it carries, a `Pause` and a `Resume` by the number. The program builds its pauses
and resumes with the name, which is never a number.
-/

import ContainerScheduler.Analysis.Frames

namespace ContainerScheduler.Analysis

open Host

/-! ## The records a request is matched with -/

/-- The records from which `schedule_resources` takes the amount. -/
def reservedFor (request : Request) (infos : List ExecutionInfo) : List ExecutionInfo :=
  infos.filter request.reservesFrom

/-- Whether serving a request may act on a record. A `Pause` is carried out while
its amount is computed; a `Resume` first looks for the name. -/
def actsOn (request : Request) (infos : List ExecutionInfo) (info : ExecutionInfo) : Bool :=
  match request with
  | .start .. => false
  | .update requestId .. => info.containerName = instanceName requestId ∧ info.state = .start
  | .restart _ containerName .. => info.containerName = containerName
  | .resume requestId =>
      infos.any (fun other => other.containerName = instanceName requestId) ∧
        info.containerNumber = requestId
  | .pause requestId => info.containerNumber = requestId ∧ info.state ≠ .pause

/-- The records that serving a request may act on. -/
def actedOn (request : Request) (infos : List ExecutionInfo) : List ExecutionInfo :=
  infos.filter (actsOn request infos)

/-- The request means this record and no other, both for the amount and for the
action. -/
def ResolvesTo (request : Request) (infos : List ExecutionInfo) (info : ExecutionInfo) : Prop :=
  reservedFor request infos = [info] ∧ actedOn request infos = [info]

/-! ## What the matching decides -/

/-! ## The requests the program builds -/

/-- A request that some thread builds for a container: the generator updates it by
its row, which is its number; it is paused and resumed by its name; and its failure
queues a `Restart` with both. -/
inductive BuiltFor (info : ExecutionInfo) : Request → Prop
  | update (inter intra priority : ℤ) :
      BuiltFor info (.update info.containerNumber inter intra priority)
  | pause : BuiltFor info (.pause info.containerName)
  | resume : BuiltFor info (.resume info.containerName)
  | restart (priority : ℤ) :
      BuiltFor info (.restart info.containerNumber info.containerName info.interExecParallelism
        info.intraExecParallelism info.image priority)

/-- A list of records as `schedule_request` builds it, with distinct names. -/
structure BuiltList (infos : List ExecutionInfo) : Prop where
  named : ∀ info ∈ infos, info.containerName = instanceName info.containerNumber
  nodup : (containerNames infos).Nodup

/-- The requests that reach their container. -/
def Addressed (info : ExecutionInfo) : Request → Prop
  | .restart .. => True
  | .update .. => info.state = .start
  | _ => False

/-- Among distinct names one record matches. -/
theorem filter_name_eq_singleton {infos : List ExecutionInfo} {info : ExecutionInfo}
    (hnodup : (containerNames infos).Nodup) (hmem : info ∈ infos) :
    infos.filter (fun other => other.containerName = info.containerName) = [info] := by
  induction infos with
  | nil => cases hmem
  | cons first infos ih =>
      obtain ⟨hfirst, hrest⟩ := List.nodup_cons.mp hnodup
      obtain rfl | hlater := List.mem_cons.mp hmem
      · have hothers : infos.filter (fun other => other.containerName = info.containerName) = [] :=
          List.filter_eq_nil_iff.mpr fun other hother hsame =>
            hfirst (mem_containerNames.mpr ⟨other, hother, by simpa using hsame⟩)
        simp [hothers]
      · have hne : first.containerName ≠ info.containerName := fun heq =>
          hfirst (mem_containerNames.mpr ⟨info, hlater, heq.symm⟩)
        simp [hne, ih hrest hlater]

/-- A further test on the one record that matches. -/
theorem filter_and_eq_singleton_iff {infos : List ExecutionInfo} {info : ExecutionInfo}
    {matching extra : ExecutionInfo → Bool} (hone : infos.filter matching = [info]) :
    infos.filter (fun other => extra other && matching other) = [info] ↔ extra info = true := by
  rw [← List.filter_filter, hone]
  cases hextra : extra info <;> simp [hextra]

theorem number_ne_name {infos : List ExecutionInfo} {info : ExecutionInfo}
    (hbuilt : BuiltList infos) (hmem : info ∈ infos) :
    info.containerNumber ≠ info.containerName := fun heq =>
  instanceName_ne_self info.containerNumber ((hbuilt.named info hmem).symm.trans heq.symm)

/-- A request that looks for the number of a record and is given its name does not
mean that record. -/
theorem not_resolvesTo_of_number {request : Request} {infos : List ExecutionInfo}
    {info : ExecutionInfo} (hunmatched : request.reservesFrom info = false) :
    ¬ ResolvesTo request infos info := by
  rintro ⟨hreserved, -⟩
  have hmem : info ∈ reservedFor request infos := hreserved ▸ List.mem_singleton_self info
  have hmatched := (List.mem_filter.mp hmem).2
  rw [hunmatched] at hmatched
  cases hmatched

/-- A container as `schedule_request` records it. -/
def firstInstance : ExecutionInfo where
  containerName := "instance0"
  containerNumber := "0"
  containerPort := 8787
  interUserParallelism := 1
  intraUserParallelism := 3
  interExecParallelism := 1
  intraExecParallelism := 3
  clientsocket := ⟨"instance0", false⟩
  image := "tf"
  priority := 0

theorem builtList_firstInstance : BuiltList [firstInstance] where
  named := by decide +kernel
  nodup := by decide +kernel

end ContainerScheduler.Analysis
