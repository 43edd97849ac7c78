import Darling.ResourceFork
import Mathlib.Data.Finset.Sort

/-!
# The Resource Manager

The open resource files of CarbonCore's `Resources.cpp`, the calls that change them and the queries
over all of them, with the four caches that the queries fill.  A record is named by its address, so
what a cache holds may outlive it.  Addresses, handles, file numbers and the order in which a hash
map is iterated are the caller's choice.  `g_lastError` is left out.
-/

namespace Darling.ResourceManager

open ResourceFork (ResourceData ResourceTypeData)

structure Loaded where
  address : ℕ
  handle : ℕ
  record : ResourceData

structure File where
  resourceTypes : UnorderedMap ℕ (ResourceTypeData ℕ)
  handleMap : UnorderedMap ℕ ℕ

/-- `(ResType) -1`, the tag of a cache that was cleared. -/
def noType : ℕ := 0xffffffff

structure State where
  heap : UnorderedMap ℕ ResourceData
  resources : UnorderedMap ℕ File
  currentResFile : Option ℕ
  allTypesCache : Finset ℕ
  resourcesOfTypeCache : List ℕ
  resourcesOfTypeCacheType : ℕ
  resourcesOfTypeMapCache : UnorderedMap ℕ ℕ
  resourcesOfTypeMapCacheType : ℕ
  resourcesOfTypeNameMapCache : UnorderedMap Bytes ℕ
  resourcesOfTypeNameMapCacheType : ℕ

def State.clearCaches (s : State) : State :=
  { s with
    resourcesOfTypeMapCache := ∅
    resourcesOfTypeMapCacheType := noType
    resourcesOfTypeCache := []
    resourcesOfTypeCacheType := noType
    resourcesOfTypeNameMapCache := ∅
    resourcesOfTypeNameMapCacheType := noType
    allTypesCache := ∅ }

def State.initial : State :=
  { heap := ∅, resources := ∅, currentResFile := none
    allTypesCache := ∅
    resourcesOfTypeCache := [], resourcesOfTypeCacheType := noType
    resourcesOfTypeMapCache := ∅, resourcesOfTypeMapCacheType := noType
    resourcesOfTypeNameMapCache := ∅, resourcesOfTypeNameMapCacheType := noType }

def State.files (s : State) : List File := s.resources.entries.map (·.2)

def loadedType (type : ℕ) (l : List Loaded) : ResourceTypeData ℕ :=
  l.foldl (fun rtd d => rtd.push d.address d.record.movedFrom.id d.record.movedFrom.name)
    ⟨type, [], ∅, ∅⟩

def File.load (content : UnorderedMap ℕ (List Loaded)) : File where
  resourceTypes := content.entries.foldl (fun m e => m.emplace e.1 (loadedType e.1 e.2)) ∅
  handleMap := (content.entries.flatMap (·.2)).foldl (fun m d => m.emplace d.handle d.address) ∅

/-- An insertion may rehash the table: its entries are put in any order, here that of `order`. -/
def rehash (order : ℕ → ℕ) (m : UnorderedMap ℕ File) : UnorderedMap ℕ File :=
  ⟨m.entries.insertionSort (fun a b => order a.1 ≤ order b.1),
    ((List.perm_insertionSort _ _).map Sigma.fst).symm.nodup m.nodupKeys⟩

/-- `FSOpenResourceFile` of a file that loads, under a number that is free. -/
def State.fsOpenResourceFile (s : State) (refNum : ℕ) (content : UnorderedMap ℕ (List Loaded))
    (order : ℕ → ℕ) : State :=
  if refNum ∈ s.resources then s
  else State.clearCaches
    { s with
      resources := rehash order (s.resources.insert refNum (File.load content))
      heap := (content.entries.flatMap (·.2)).foldl
        (fun m d => m.insert d.address d.record) s.heap }

def State.useResFile (s : State) (ref : Option ℕ) : State :=
  match ref with
  | none => { s with currentResFile := none }
  | some refNum => if refNum ∈ s.resources then { s with currentResFile := some refNum } else s

def State.closeResFile (s : State) (refNum : ℕ) : State :=
  let s := if s.currentResFile = some refNum then { s with currentResFile := none } else s
  match s.resources.lookup refNum with
  | none => s
  | some r => State.clearCaches
      { s with
        resources := s.resources.erase refNum
        heap := (r.resourceTypes.entries.flatMap (·.2.resources)).foldl (fun m p => m.erase p)
          s.heap }

def State.findResourceDataByHandle (s : State) (res : ℕ) : Option (ℕ × ℕ) :=
  s.resources.entries.findSome? fun e => (e.2.handleMap.lookup res).map fun p => (e.1, p)

/-- `Resources::add`.  The name is a C string; the record is moved, so its type is what the memory
held. -/
def File.add (r : File) (type id : ℕ) (name : Bytes) (data address : ℕ) : File :=
  let cname := name.takeWhile (· ≠ 0)
  let rtd := (r.resourceTypes.lookup type).getD ⟨type, [], ∅, ∅⟩
  { resourceTypes := r.resourceTypes.insert type (rtd.push address id cname)
    handleMap := r.handleMap.emplace data address }

/-- `AddResource`, which needs a current file, and a handle that no resource has. -/
def State.addResource (s : State) (data type resId : ℕ) (name : Bytes) (address garbage : ℕ) :
    State := Option.getD (do
  let refNum ← s.currentResFile
  let r ← s.resources.lookup refNum
  guard (data ≠ 0 ∧ s.findResourceDataByHandle data = none)
  return { s with
    resources := s.resources.replace refNum (r.add type resId name data address)
    heap := s.heap.insert address
      (ResourceData.move ⟨resId, type, name.takeWhile (· ≠ 0), 0, []⟩ garbage) }) s

/-- `Resources::remove`, for the record at `p`, whose type is looked up by its own field.  The
iterator that is read once more after `m_handleMap.erase` is taken to read the same address. -/
def File.remove (r : File) (data p : ℕ) (record : ResourceData) : File :=
  match r.resourceTypes.lookup record.type with
  | none => r
  | some rtd =>
    { resourceTypes := r.resourceTypes.insert record.type
        { rtd with
          idMap := rtd.idMap.erase record.id
          nameMap := rtd.nameMap.erase record.name
          resources := rtd.resources.erase p }
      handleMap := r.handleMap.erase data }

/-- `RemoveResource`; the record is freed if it is among the resources of the type. -/
def State.removeResource (s : State) (res : ℕ) : State := Option.getD (do
  let refNum ← s.currentResFile
  let r ← s.resources.lookup refNum
  let p ← r.handleMap.lookup res
  let record ← s.heap.lookup p
  let rtd ← r.resourceTypes.lookup record.type
  return { s with
    resources := s.resources.replace refNum (r.remove res p record)
    heap := if p ∈ rtd.resources then s.heap.erase p else s.heap }) s

def rekey {κ : Type} [DecidableEq κ] (old new : κ) (p : ℕ) (m : UnorderedMap κ ℕ) :
    UnorderedMap κ ℕ :=
  if old = new then m else UnorderedMap.emplace new p (m.erase old)

def State.setResInfo (s : State) (res theID : ℕ) (name : Bytes) : State := Option.getD (do
  let (refNum, p) ← s.findResourceDataByHandle res
  let r ← s.resources.lookup refNum
  let record ← s.heap.lookup p
  let r' := match r.resourceTypes.lookup record.type with
    | none => r
    | some rtd =>
      { r with
        resourceTypes := r.resourceTypes.insert record.type
          { rtd with
            idMap := rekey record.id theID p rtd.idMap
            nameMap := rekey record.name name p rtd.nameMap } }
  return { s with
    resources := s.resources.replace refNum r'
    heap := s.heap.insert p { record with id := theID, name := name } }) s

def State.types (s : State) : Finset ℕ := (s.files.flatMap (·.resourceTypes.keys)).toFinset

def State.allTypes (s : State) : Finset ℕ × State :=
  if s.allTypesCache = ∅ then (s.types, { s with allTypesCache := s.types })
  else (s.allTypesCache, s)

def File.ofType (r : File) (type : ℕ) : List ℕ :=
  match r.resourceTypes.lookup type with
  | none => []
  | some rtd => rtd.resources

def State.resourcesOfType (s : State) (type : ℕ) : List ℕ × State :=
  if s.resourcesOfTypeCacheType ≠ type then
    let rv := s.files.foldl (fun rv r => rv ++ r.ofType type) s.resourcesOfTypeCache
    (rv, { s with resourcesOfTypeCache := rv, resourcesOfTypeCacheType := type })
  else (s.resourcesOfTypeCache, s)

def collect {κ : Type} [DecidableEq κ] (sel : ResourceTypeData ℕ → UnorderedMap κ ℕ)
    (files : List File) (type : ℕ) (rv : UnorderedMap κ ℕ) : UnorderedMap κ ℕ :=
  files.foldl (fun rv r =>
    match r.resourceTypes.lookup type with
    | none => rv
    | some rtd => rv.emplaceAll (sel rtd)) rv

def State.resourcesOfTypeMap (s : State) (type : ℕ) : UnorderedMap ℕ ℕ × State :=
  if s.resourcesOfTypeMapCacheType ≠ type then
    let rv := collect (·.idMap) s.files type s.resourcesOfTypeMapCache
    (rv, { s with resourcesOfTypeMapCache := rv, resourcesOfTypeMapCacheType := type })
  else (s.resourcesOfTypeMapCache, s)

def State.resourcesOfTypeNameMap (s : State) (type : ℕ) : UnorderedMap Bytes ℕ × State :=
  if s.resourcesOfTypeMapCacheType ≠ type then
    let rv := collect (·.nameMap) s.files type s.resourcesOfTypeNameMapCache
    (rv, { s with resourcesOfTypeNameMapCache := rv, resourcesOfTypeNameMapCacheType := type })
  else (s.resourcesOfTypeNameMapCache, s)

def nth {α : Type} (l : List α) (index : ℤ) : Option α :=
  if index < 1 ∨ l.length < index then none else l[index.toNat - 1]?

inductive Query
  | countTypes
  | getIndType (index : ℤ)
  | countResources (type : ℕ)
  | getIndResource (type : ℕ) (index : ℤ)
  | getResource (type resId : ℕ)
  | getNamedResource (type : ℕ) (name : Bytes)

inductive Answer
  | count (n : BitVec 16)
  | type (type : Option ℕ)
  | resource (p : Option ℕ)

def State.query (s : State) : Query → Answer × State
  | .countTypes => (.count (.ofNat 16 s.allTypes.1.card), s.allTypes.2)
  | .getIndType index => (.type (nth (s.allTypes.1.sort (· ≤ ·)) index), s.allTypes.2)
  | .countResources type =>
    (.count (.ofNat 16 (s.resourcesOfType type).1.length), (s.resourcesOfType type).2)
  | .getIndResource type index =>
    (.resource (nth (s.resourcesOfType type).1 index), (s.resourcesOfType type).2)
  | .getResource type resId =>
    (.resource ((s.resourcesOfTypeMap type).1.lookup resId), (s.resourcesOfTypeMap type).2)
  | .getNamedResource type name =>
    (.resource ((s.resourcesOfTypeNameMap type).1.lookup name), (s.resourcesOfTypeNameMap type).2)

inductive Call
  | fsOpenResourceFile (refNum : ℕ) (content : UnorderedMap ℕ (List Loaded)) (order : ℕ → ℕ)
  | closeResFile (refNum : ℕ)
  | useResFile (ref : Option ℕ)
  | addResource (data type resId : ℕ) (name : Bytes) (address garbage : ℕ)
  | removeResource (res : ℕ)
  | setResInfo (res theID : ℕ) (name : Bytes)
  | query (q : Query)

def State.step (s : State) : Call → State
  | .fsOpenResourceFile refNum content order => s.fsOpenResourceFile refNum content order
  | .closeResFile refNum => s.closeResFile refNum
  | .useResFile ref => s.useResFile ref
  | .addResource data type resId name address garbage =>
    s.addResource data type resId name address garbage
  | .removeResource res => s.removeResource res
  | .setResInfo res theID name => s.setResInfo res theID name
  | .query q => (s.query q).2

/-- The first id from 128 on that is not in use; the loop ends below the largest `ResID`. -/
def firstUnused (used : ℕ → Bool) : ℕ :=
  ((List.range' 128 (32767 - 128)).find? fun i => ! used i).getD 0

/-- The loop over the files returns at the first one without the type. -/
def State.uniqueID (s : State) (type : ℕ) : ℕ :=
  if s.files.any fun r => (r.resourceTypes.lookup type).isNone then 128
  else firstUnused fun i => s.files.any fun r =>
    (r.resourceTypes.lookup type).any fun rtd => decide (i ∈ rtd.idMap)

def State.currentResources (s : State) : Option File := s.currentResFile.bind s.resources.lookup

def State.unique1ID (s : State) (type : ℕ) : ℕ :=
  match s.currentResources with
  | none => 0
  | some r =>
    match r.resourceTypes.lookup type with
    | none => 128
    | some rtd => firstUnused fun i => decide (i ∈ rtd.idMap)

/-- `g_resources`, with the files that the numbers stand for, and `g_nextRefNum`, a `short`. -/
structure RefNums (φ : Type) where
  resources : UnorderedMap ℤ φ := ∅
  nextRefNum : ℤ := 1

namespace RefNums

variable {φ : Type}

inductive Call (φ : Type)
  /-- Without a file if it cannot be loaded. -/
  | fsOpenResourceFile (file : Option φ)
  | closeResFile (refNum : ℤ)

def findFree (resources : UnorderedMap ℤ φ) : ℕ → ℤ → Option ℤ
  | 0, _ => none
  | rounds + 1, n =>
    if n ∈ resources then findFree resources rounds (if n = 32767 then 1 else n + 1) else some n

/-- `none` if the loop never ends: it has then passed all values of a `short`. -/
def fsOpenResourceFile (s : RefNums φ) : Option φ → Option (ℤ × RefNums φ)
  | none => some (-1, s)
  | some r => (findFree s.resources (2 ^ 16) s.nextRefNum).map fun n =>
      (n, ⟨s.resources.emplace n r, Int.bmod (n + 1) (2 ^ 16)⟩)

def step (s : RefNums φ) : Call φ → RefNums φ
  | .fsOpenResourceFile file => ((s.fsOpenResourceFile file).map (·.2)).getD s
  | .closeResFile refNum => { s with resources := s.resources.erase refNum }

end RefNums

end Darling.ResourceManager
