import Darling.FileTree
import Darling.Heap
import Darling.UnorderedMap

/-!
# The Carbon Component Manager

`ComponentManager.cpp`, with the calls of `Components.cpp` that list components.  The elements of
`m_components` are nodes with an address, and the two maps hold such addresses.  Ids come from
32-bit counters.  What the bundles and the components' own code return is up to the call.
-/

namespace Darling

/-- A `Component` or a `ComponentInstance`; `NULL` is 0. -/
abbrev ComponentId := BitVec 32

structure ComponentDescription where
  componentType : BitVec 32
  componentSubType : BitVec 32
  componentManufacturer : BitVec 32
  componentFlags : BitVec 32
  componentFlagsMask : BitVec 32
  deriving DecidableEq

def ComponentDescription.Matches (cd d : ComponentDescription) : Prop :=
  (cd.componentManufacturer = 0 ∨ cd.componentManufacturer = d.componentManufacturer) ∧
    (cd.componentSubType = 0 ∨ cd.componentSubType = d.componentSubType) ∧
      (cd.componentType = 0 ∨ cd.componentType = d.componentType)

instance (cd d : ComponentDescription) : Decidable (cd.Matches d) :=
  inferInstanceAs (Decidable (_ ∧ _ ∧ _))

def noErr : ℤ := 0

def invalidComponentID : ℤ := -3000

def validInstancesExist : ℤ := -3001

def badComponentInstance : ℤ := -2147450879

structure Bundles where
  /-- `CFBundleCreate`. -/
  bundleFromPath : Bytes → Option ℕ
  functionPointer : ℕ → Bytes → Option ℕ

namespace ComponentManager

structure ComponentData where
  component : ComponentId
  cd : ComponentDescription
  entryPoint : Option ℕ
  /-- None for a component that is registered with an entry point: its string stays empty. -/
  bundlePath : Option Bytes
  entryPointName : Bytes
  loadedBundle : Option ℕ
  instances : BitVec 32

structure Node where
  address : ℕ
  data : ComponentData

structure ComponentInstanceData where
  component : ComponentId
  componentData : ℕ
  storage : Option ℕ

structure State where
  componentInstances : UnorderedMap ComponentId ComponentInstanceData
  nextInstanceId : ComponentId
  components : List Node
  componentsMap : UnorderedMap ComponentId ℕ
  nextComponentId : ComponentId

def State.initial : State where
  componentInstances := ∅
  nextInstanceId := 0x2000
  components := []
  componentsMap := ∅
  nextComponentId := 0x1000

structure World extends Bundles where
  /-- The entry point at an address, for a selector, an instance and its storage. -/
  entryPoint : ℕ → ℤ → ComponentId → Option ℕ → ℤ

def kComponentOpenSelect : ℤ := -1

def kComponentCloseSelect : ℤ := -2

/-- `*p`; there is nothing at an address that was freed. -/
def State.deref (s : State) (p : ℕ) : Option ComponentData :=
  (s.components.find? (·.address = p)).map Node.data

def State.update (s : State) (p : ℕ) (f : ComponentData → ComponentData) : State :=
  { s with components := s.components.map fun n =>
      if n.address = p then { n with data := f n.data } else n }

def State.findMatching (s : State) (cd : ComponentDescription) : List ComponentId :=
  (s.components.filter (cd.Matches ·.data.cd)).map (·.data.component)

def registerComponentNoDuplicates : BitVec 16 := 2

def registerComponentAfterExisting : BitVec 16 := 4

/-- The common end of both forms: the element is linked in, gets its id and is entered in the
map. -/
def State.link (s : State) (flags : BitVec 16) (place : ℕ) (data : ComponentData) : State :=
  let node : Node :=
    { address := allocate place (s.components.map Node.address)
      data := { data with component := s.nextComponentId } }
  { s with
    components := if flags &&& registerComponentAfterExisting ≠ 0 then s.components ++ [node]
      else node :: s.components
    nextComponentId := s.nextComponentId + 1
    componentsMap := s.componentsMap.emplace s.nextComponentId node.address }

def State.registerBundle (s : State) (cd : ComponentDescription) (flags : BitVec 16)
    (bundlePath entryPoint : Bytes) (place : ℕ) : ComponentId × State :=
  (s.nextComponentId, s.link flags place
    { component := 0, cd := cd, entryPoint := none, bundlePath := some bundlePath
      entryPointName := entryPoint, loadedBundle := none, instances := 0 })

def State.registerRoutine (s : State) (cd : ComponentDescription) (entryPoint : Option ℕ)
    (flags : BitVec 16) (place : ℕ) : ComponentId × State :=
  if flags &&& registerComponentNoDuplicates ≠ 0 ∧ s.findMatching cd ≠ [] then (0, s)
  else (s.nextComponentId, s.link flags place
    { component := 0, cd := cd, entryPoint := entryPoint, bundlePath := none
      entryPointName := [], loadedBundle := none, instances := 0 })

def State.setDefault (s : State) (c : ComponentId) : State :=
  match s.componentsMap.lookup c with
  | none => s
  | some p =>
    match s.components.find? (·.address = p) with
    | none => s
    | some n => { s with components := n :: s.components.eraseP (·.address = p) }

def State.unregisterComponent (s : State) (c : ComponentId) : Option (ℤ × State) :=
  match s.componentsMap.lookup c with
  | none => some (invalidComponentID, s)
  | some p => do
    let cd ← s.deref p
    if cd.instances ≠ 0 then some (validInstancesExist, s)
    else some (noErr, { s with
      components := s.components.eraseP (·.address = p)
      componentsMap := s.componentsMap.erase c })

/-- The entry point is called if the instance exists.  There is no call through a null pointer. -/
def State.dispatch (s : State) (w : World) (what : ℤ) (inst : ComponentId) : Option ℤ :=
  match s.componentInstances.lookup inst with
  | none => some badComponentInstance
  | some cid => do
    let cd ← s.deref cid.componentData
    let entryPoint ← cd.entryPoint
    return w.entryPoint entryPoint what inst cid.storage

def ComponentData.release (cd : ComponentData) : ComponentData :=
  let cd := { cd with instances := cd.instances - 1 }
  if cd.instances = 0 ∧ cd.loadedBundle.isSome then
    { cd with entryPoint := none, loadedBundle := none }
  else cd

def State.dispose (s : State) (w : World) (c : ComponentId) : Option (ℤ × State) :=
  match s.componentInstances.lookup c with
  | none => some (badComponentInstance, s)
  | some cid => do
    let status ← s.dispatch w kComponentCloseSelect c
    let s' ← match s.componentsMap.lookup cid.component with
      | none => some s
      | some p => (s.deref p).map fun _ => s.update p ComponentData.release
    return (status, { s' with componentInstances := s'.componentInstances.erase c })

def ComponentData.load (cd : ComponentData) (w : Bundles) : Option ComponentData :=
  match cd.entryPoint with
  | some _ => some cd
  | none => do
    let bundle ← w.bundleFromPath (cd.bundlePath.getD [])
    let entryPoint ← w.functionPointer bundle cd.entryPointName
    return { cd with entryPoint := some entryPoint, loadedBundle := some bundle }

def State.addInstance (s : State) (c : ComponentId) (p : ℕ) (cd : ComponentData) : State :=
  { s.update p (fun _ => { cd with instances := cd.instances + 1 }) with
    nextInstanceId := s.nextInstanceId + 1
    componentInstances := s.componentInstances.emplace s.nextInstanceId ⟨c, p, none⟩ }

def State.instantiate (s : State) (w : World) (c : ComponentId) :
    Option (ℤ × ComponentId × State) :=
  match s.componentsMap.lookup c with
  | none => some (invalidComponentID, 0, s)
  | some p => do
    let cd ← s.deref p
    match cd.load w.toBundles with
    | none => some (invalidComponentID, 0, s)
    | some cd =>
      let inst := s.nextInstanceId
      let s := s.addInstance c p cd
      let status ← s.dispatch w kComponentOpenSelect inst
      if status ≠ noErr then
        let r ← s.dispose w inst
        return (status, 0, r.2)
      else return (noErr, inst, s)

inductive Call
  | registerBundle (cd : ComponentDescription) (flags : BitVec 16) (bundlePath entryPoint : Bytes)
      (place : ℕ)
  | registerRoutine (cd : ComponentDescription) (entryPoint : Option ℕ) (flags : BitVec 16)
      (place : ℕ)
  | setDefault (c : ComponentId)
  | unregisterComponent (c : ComponentId)
  | instantiate (w : World) (c : ComponentId)
  | dispose (w : World) (c : ComponentId)

/-- There is no state after an access to a freed element or a call through a null pointer. -/
def State.call (s : State) : Call → Option State
  | .registerBundle cd flags bundlePath entryPoint place =>
    some (s.registerBundle cd flags bundlePath entryPoint place).2
  | .registerRoutine cd entryPoint flags place =>
    some (s.registerRoutine cd entryPoint flags place).2
  | .setDefault c => some (s.setDefault c)
  | .unregisterComponent c => (s.unregisterComponent c).map (·.2)
  | .instantiate w c => (s.instantiate w c).map (·.2.2)
  | .dispose w c => (s.dispose w c).map (·.2)

def step (s : Option State) (a : Call) : Option State := s.bind (·.call a)

def nextIn (components : List ComponentId) (prev : ComponentId) : Option ComponentId :=
  if prev = 0 then components.head?
  else (components.zip components.tail).findSome? fun e => if e.1 = prev then some e.2 else none

def State.findNextComponent (s : State) (prev : ComponentId) (desc : ComponentDescription) :
    ComponentId := (nextIn (s.findMatching desc) prev).getD 0

def State.countComponents (s : State) (desc : ComponentDescription) : ℕ :=
  (s.findMatching desc).length

def State.getComponentInfo (s : State) (c : ComponentId) (cd : ComponentDescription) :
    Option ComponentDescription :=
  match s.componentsMap.lookup c with
  | none => some cd
  | some p => (s.deref p).map (·.cd)

end ComponentManager

end Darling
