import Darling.Locks

/-!
# The mutexes of `AudioComponentManager`
-/

namespace Darling.AudioComponentLocks

inductive Mutex where
  | components
  | instances
deriving DecidableEq

inductive Call where
  | instantiate
  | dispose

/-- What a call locks.  `instantiate` may fail before it locks the second mutex, and it may call
`dispose`, which may not find the instance. -/
def Call.paths : Call → List (List Mutex)
  | instantiate =>
    [[.components], [.components, .instances], [.components, .instances, .instances],
      [.components, .instances, .instances, .components]]
  | dispose => [[.instances], [.instances, .components]]

/-- The paths of threads of which each makes some of the calls, in any order. -/
def paths {ι : Type} (calls : ι → Set Call) (t : ι) : Set (List Mutex) :=
  { path | ∃ call ∈ calls t, path ∈ call.paths }

end Darling.AudioComponentLocks
