import Darling.Heap
import Darling.ResourceManager

/-!
# The index of a resource file

`AddResource`, `RemoveResource` and `SetResInfo` on the current file: the vectors of its types, the
two maps of each type and the map of handles.  The records are on the heap, under their addresses.
-/

namespace Darling.ResourceIndex

open ResourceFork (ResourceData ResourceTypeData)
open ResourceManager (File rekey)

structure State where
  heap : UnorderedMap ℕ ResourceData
  file : File

def State.empty (types : List ℕ) (heap : UnorderedMap ℕ ResourceData) : State where
  heap := heap
  file := ⟨types.foldl (fun m type => m.emplace type ⟨type, [], ∅, ∅⟩) ∅, ∅⟩

/-- `AddResource`.  The record is moved to new memory, and its type is what that held. -/
def State.addResource (s : State) (data type resId : ℕ) (name : Bytes) (place garbage : ℕ) :
    State :=
  if data = 0 ∨ data ∈ s.file.handleMap then s
  else
    let address := allocate place s.heap.keys
    { heap := s.heap.insert address
        (ResourceData.move ⟨resId, type, name.takeWhile (· ≠ 0), 0, []⟩ garbage)
      file := s.file.add type resId name data address }

/-- `RemoveResource`.  The vector is searched for the address that is read from the entry of the
handle after it was erased, `stale`. -/
def State.removeResource (s : State) (res stale : ℕ) : State :=
  if res = 0 then s
  else Option.getD (do
    let p ← s.file.handleMap.lookup res
    let record ← s.heap.lookup p
    let rtd ← s.file.resourceTypes.lookup record.type
    return {
      heap := if stale ∈ rtd.resources then s.heap.erase stale else s.heap
      file :=
        { resourceTypes := s.file.resourceTypes.insert record.type
            { rtd with
              idMap := rtd.idMap.erase record.id
              nameMap := rtd.nameMap.erase record.name
              resources := rtd.resources.erase stale }
          handleMap := s.file.handleMap.erase res } }) s

/-- `SetResInfo`; the maps are those of the type that the record says it has. -/
def State.setResInfo (s : State) (res theID : ℕ) (name : Bytes) : State := Option.getD (do
  let p ← s.file.handleMap.lookup res
  let record ← s.heap.lookup p
  return {
    heap := s.heap.insert p { record with id := theID, name := name }
    file := { s.file with resourceTypes := s.file.resourceTypes.modify record.type fun rtd =>
      { rtd with
        idMap := rekey record.id theID p rtd.idMap
        nameMap := rekey record.name name p rtd.nameMap } } }) s

inductive Call
  | addResource (data type resId : ℕ) (name : Bytes) (place garbage : ℕ)
  | removeResource (res stale : ℕ)
  | setResInfo (res theID : ℕ) (name : Bytes)

def State.step (s : State) : Call → State
  | .addResource data type resId name place garbage =>
    s.addResource data type resId name place garbage
  | .removeResource res stale => s.removeResource res stale
  | .setResInfo res theID name => s.setResInfo res theID name

end Darling.ResourceIndex
