import Darling.ComponentManager

/-!
# Audio components

`AudioComponentManager.mm`, and the calls of `AudioComponent.mm` that list the components of both
managers.
-/

namespace Darling.AudioComponentManager

structure RegisteredComponent where
  id : ComponentId
  desc : ComponentDescription
  factory : Option ℕ
  flags : BitVec 32
  loadedBundle : Option ℕ
  /-- None for a component that is registered with a factory: its string stays empty. -/
  bundlePath : Option Bytes
  entryPointName : Bytes
  instances : ℤ

structure ComponentInstanceData where
  component : ComponentId
  object : ℕ

structure State where
  components : UnorderedMap ComponentId RegisteredComponent
  nextComponentId : ComponentId
  componentInstances : UnorderedMap ComponentId ComponentInstanceData
  nextComponentInstanceId : ComponentId

def State.initial : State where
  components := ∅
  nextComponentId := 0x4000 ||| 0x80000000
  componentInstances := ∅
  nextComponentInstanceId := 0x1000 ||| 0x80000000

structure World extends Bundles where
  factory : ℕ → ComponentDescription → Option ℕ
  opened : ℕ → ComponentId → ℤ
  closed : ℕ → ℤ

def wrapInt (n : ℤ) : ℤ := Int.bmod n (2 ^ 32)

def kAudioComponentFlagUnsearchable : BitVec 32 := 1

/-- A component that is not searchable is only found by its full description. -/
def Finds (cd : ComponentDescription) (d : RegisteredComponent) : Prop :=
  cd.Matches d.desc ∧ ¬ (d.flags &&& kAudioComponentFlagUnsearchable ≠ 0 ∧
    (cd.componentManufacturer = 0 ∨ cd.componentSubType = 0 ∨ cd.componentType = 0))

instance (cd : ComponentDescription) (d : RegisteredComponent) : Decidable (Finds cd d) :=
  inferInstanceAs (Decidable (_ ∧ ¬ _))

def State.findMatching (s : State) (cd : ComponentDescription) : List ComponentId :=
  ((s.components.entries.map (·.2)).filter (Finds cd)).map (·.id)

def State.register (s : State) (rc : RegisteredComponent) : ComponentId × State :=
  (s.nextComponentId, { s with
    nextComponentId := s.nextComponentId + 1
    components := s.components.emplace s.nextComponentId { rc with id := s.nextComponentId } })

def State.registerFactory (s : State) (desc : ComponentDescription) (factory : Option ℕ) :
    ComponentId × State :=
  s.register
    { id := 0, desc := desc, factory := factory, flags := 0, loadedBundle := none
      bundlePath := none, entryPointName := [], instances := 0 }

def State.registerBundle (s : State) (desc : ComponentDescription)
    (bundlePath entryPointName : Bytes) (flags : BitVec 32) : ComponentId × State :=
  s.register
    { id := 0, desc := desc, factory := none, flags := flags, loadedBundle := none
      bundlePath := some bundlePath, entryPointName := entryPointName, instances := 0 }

def RegisteredComponent.release (regd : RegisteredComponent) : RegisteredComponent :=
  let regd := { regd with instances := wrapInt (regd.instances - 1) }
  if regd.instances = 0 ∧ regd.loadedBundle.isSome then
    { regd with loadedBundle := none, factory := none }
  else regd

def State.dispose (s : State) (w : World) (inst : ComponentId) : ℤ × State :=
  match s.componentInstances.lookup inst with
  | none => (badComponentInstance, s)
  | some cid => (w.closed cid.object, { s with
      components := s.components.modify cid.component RegisteredComponent.release
      componentInstances := s.componentInstances.erase inst })

def RegisteredComponent.load (regd : RegisteredComponent) (w : Bundles) :
    Option (ℕ × RegisteredComponent) :=
  match regd.factory with
  | some factory => some (factory, regd)
  | none => do
    let bundle ← w.bundleFromPath (regd.bundlePath.getD [])
    let factory ← w.functionPointer bundle regd.entryPointName
    return (factory, { regd with factory := some factory, loadedBundle := some bundle })

def State.prepare (s : State) (c : ComponentId) (regd : RegisteredComponent) : State :=
  { s with
    components := s.components.modify c fun _ => regd
    nextComponentInstanceId := s.nextComponentInstanceId + 1 }

def State.instantiate (s : State) (w : World) (c : ComponentId) : ℤ × ComponentId × State :=
  match s.components.lookup c with
  | none => (invalidComponentID, 0, s)
  | some regd =>
    match regd.load w.toBundles with
    | none => (invalidComponentID, 0, s)
    | some (factory, regd) =>
      let out := s.nextComponentInstanceId
      let s := s.prepare c regd
      match w.factory factory regd.desc with
      | none => (invalidComponentID, out, s)
      | some object =>
        let s := { s with componentInstances := s.componentInstances.emplace out ⟨c, object⟩ }
        if w.opened object out ≠ noErr then (w.opened object out, 0, (s.dispose w out).2)
        else (noErr, out, { s with components := s.components.modify c fun regd =>
          { regd with instances := wrapInt (regd.instances + 1) } })

inductive Call
  | registerFactory (desc : ComponentDescription) (factory : Option ℕ)
  | registerBundle (desc : ComponentDescription) (bundlePath entryPointName : Bytes)
      (flags : BitVec 32)
  | instantiate (w : World) (c : ComponentId)
  | dispose (w : World) (inst : ComponentId)

def State.step (s : State) : Call → State
  | .registerFactory desc factory => (s.registerFactory desc factory).2
  | .registerBundle desc bundlePath entryPointName flags =>
    (s.registerBundle desc bundlePath entryPointName flags).2
  | .instantiate w c => (s.instantiate w c).2.2
  | .dispose w inst => (s.dispose w inst).2

/-- `AudioComponentFindNext`.  The last of the components found is not looked for. -/
def findNext (s : State) (carbon : ComponentManager.State) (inComponent : ComponentId)
    (desc : ComponentDescription) : ComponentId :=
  match ComponentManager.nextIn (s.findMatching desc) inComponent with
  | some c => c
  | none => carbon.findNextComponent inComponent desc

def countDuplicates (s : State) (carbon : ComponentManager.State) (desc : ComponentDescription) :
    ℕ → ComponentId → ComponentDescription → Option ℕ
  | 0, _, _ => none
  | fuel + 1, prev, cd =>
    let c := carbon.findNextComponent prev desc
    if c = 0 then some 0
    else do
      let cd ← carbon.getComponentInfo c cd
      let n ← countDuplicates s carbon desc fuel c cd
      return n + if findNext s carbon 0 cd ≠ 0 then 1 else 0

/-- `AudioComponentCount`.  Where the ids are distinct, the loop is over after as many rounds as
there are components. -/
def count (s : State) (carbon : ComponentManager.State) (desc garbage : ComponentDescription) :
    Option (BitVec 32) := do
  let numDuplicates ← countDuplicates s carbon desc (carbon.components.length + 1) 0 garbage
  return .ofNat 32 (s.findMatching desc).length + .ofNat 32 (carbon.countComponents desc) -
    .ofNat 32 numDuplicates

end Darling.AudioComponentManager
