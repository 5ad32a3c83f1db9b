/-
# Recent request ids

The ids of the last requests are in a set, where they are looked up, and in a
circular buffer of fixed length, which tells the oldest one. The buffer is
initialized with zeros, and zero is never tracked.
-/

import Mathlib.Data.Finset.Insert
import Mathlib.Data.Finset.Erase

namespace ContainerScheduler.Rendezvous

structure RecentRequestIds where
  /-- The next storage space to use. -/
  nextIndex : ℕ
  circularBuffer : List ℤ
  set : Finset ℤ
  deriving DecidableEq

namespace RecentRequestIds

def init (numTrackedRequestIds : ℕ) : RecentRequestIds where
  nextIndex := 0
  circularBuffer := List.replicate numTrackedRequestIds 0
  set := ∅

def insert (requestId : ℤ) (s : RecentRequestIds) : Bool × RecentRequestIds :=
  -- for backwards compatibility, all requests with id 0 are allowed
  if requestId = 0 then (true, s)
  else if requestId ∈ s.set then (false, s)
  else
    (true,
      { nextIndex := (s.nextIndex + 1) % s.circularBuffer.length
        circularBuffer := s.circularBuffer.set s.nextIndex requestId
        set := (Insert.insert requestId s.set).erase (s.circularBuffer.getD s.nextIndex 0) })

/-- The calls of `Insert` with their answers, the last of which comes last. -/
def inserts (numTrackedRequestIds : ℕ) : List ℤ → List (ℤ × Bool) × RecentRequestIds :=
  List.foldl (fun run requestId =>
    (run.1 ++ [(requestId, (run.2.insert requestId).1)], (run.2.insert requestId).2))
    ([], init numTrackedRequestIds)

end RecentRequestIds

end ContainerScheduler.Rendezvous
