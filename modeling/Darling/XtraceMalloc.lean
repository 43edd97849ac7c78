import Darling.Queue
import Darling.Xtrace

/-!
# `xtrace/malloc.c` in memory

The same functions on bytes: the flags and the links of a fragment are in a header in front of its
memory, and `free_list` is a variable at a fixed address.  A function fails where it touches memory
that is not mapped, and where a loop does not end within `fuel` rounds.  Each call holds the lock.
-/

namespace Darling.XtraceMalloc

open Xtrace (headerSize blockSize blockSizeMultiple roundUp)

def flagInUse : ℕ := 2 ^ 63

def flagIsMmapBase : ℕ := 2 ^ 62

def sizeMask : ℕ := 2 ^ 62 - 1

def complement (x : ℕ) : ℕ := 2 ^ 64 - 1 - x

def blockLink : ℕ := 8

def freeLink : ℕ := 24

def fragmentOffset : ℕ := 16

section Fragments

variable (m : Memory) (fragment : ℕ)

def inUse : Option Bool := do return (← m.load fragment) &&& flagInUse ≠ 0

def setInUse (inUse : Bool) : Option Memory := do
  let flags ← m.load fragment
  m.store fragment (if inUse then flags ||| flagInUse else flags &&& complement flagInUse)

def isMmapBase : Option Bool := do return (← m.load fragment) &&& flagIsMmapBase ≠ 0

def setIsMmapBase (isMmapBase : Bool) : Option Memory := do
  let flags ← m.load fragment
  m.store fragment
    (if isMmapBase then flags ||| flagIsMmapBase else flags &&& complement flagIsMmapBase)

def size : Option ℕ := do return (← m.load fragment) &&& sizeMask

def setSize (newSize : ℕ) : Option Memory := do
  let flags ← m.load fragment
  m.store fragment (flags &&& complement sizeMask ||| newSize &&& sizeMask)

def fragmentInit (size : ℕ) : Option Memory := do
  let m ← m.store fragment (size &&& sizeMask)
  let m ← m.store (fragment + blockLink) 0
  let m ← m.store (fragment + blockLink + 8) 0
  let m ← m.store (fragment + freeLink) 0
  m.store (fragment + freeLink + 8) 0

end Fragments

section Blocks

variable (m : Memory) (block : ℕ)

def blockInUse : Option Bool := do
  let used ← inUse m (block + fragmentOffset)
  if used then return true
  else return (← m.load block) ≠ (← size m (block + fragmentOffset))

def blockInit (size : ℕ) : Option Memory := do
  let m ← m.store block size
  let m ← m.store (block + 8) 0
  let m ← fragmentInit m (block + fragmentOffset) size
  let m ← setIsMmapBase m (block + fragmentOffset) true
  Queue.insertHead blockLink m (block + 8) (block + fragmentOffset)

end Blocks

/-- One fragment takes in the next one, which leaves both lists: the same statements in the loop of
`release_fragment`, with the previous fragment and with the next one, and in `expand_fragment`. -/
def absorb (m : Memory) (fragment dying : ℕ) : Option Memory := do
  let m ← Queue.remove freeLink m dying
  let m ← Queue.remove blockLink m dying
  setSize m fragment ((← size m fragment) + headerSize + (← size m dying))

def available (m : Memory) (fragment : ℕ) : Option Bool :=
  if fragment ≠ 0 then (inUse m fragment).map not else some false

def prevFragment (m : Memory) (fragment : ℕ) : Option ℕ := do
  let base ← isMmapBase m fragment
  if base then return 0 else Queue.prev blockLink m fragment

def mergePrev (m : Memory) (prevFrag fragment : ℕ) : Option (Memory × ℕ × Bool) := do
  let free ← available m prevFrag
  if free then return (← absorb m prevFrag fragment, prevFrag, true)
  else return (m, fragment, false)

def mergeNext (m : Memory) (fragment nextFrag : ℕ) : Option (Memory × Bool) := do
  let free ← available m nextFrag
  if free then return (← absorb m fragment nextFrag, true) else return (m, false)

/-- The loop of `release_fragment`, which ends with the fragment that is left. -/
def defragment : ℕ → Memory → ℕ → Option (Memory × ℕ)
  | 0, _, _ => none
  | fuel + 1, m, fragment => do
    let prevFrag ← prevFragment m fragment
    let nextFrag ← Queue.next blockLink m fragment
    let (m, fragment, withPrev) ← mergePrev m prevFrag fragment
    let (m, withNext) ← mergeNext m fragment nextFrag
    if withPrev || withNext then defragment fuel m fragment else return (m, fragment)

def viableLoop (m : Memory) (requiredSize : ℕ) : ℕ → ℕ → ℕ × ℕ → Option (ℕ × ℕ)
  | 0, _, _ => none
  | fuel + 1, loopVar, viable =>
    if loopVar = 0 then some viable
    else do
      let loopVarSize ← size m loopVar
      let viable := if requiredSize < loopVarSize ∧ (viable.1 = 0 ∨ loopVarSize < viable.2)
        then (loopVar, loopVarSize) else viable
      viableLoop m requiredSize fuel (← Queue.next freeLink m loopVar) viable

def expandScan (m : Memory) (newSize : ℕ) : ℕ → ℕ → ℕ → Option (ℕ × ℕ)
  | 0, _, _ => none
  | fuel + 1, loopVar, availableSize => do
    let endFrag ← Queue.next blockLink m loopVar
    if endFrag = 0 then return (endFrag, availableSize)
    else
      let used ← inUse m endFrag
      if used then return (endFrag, availableSize)
      else
        let availableSize := (availableSize + ((← size m endFrag) + headerSize)) % 2 ^ 64
        if newSize ≤ availableSize then return (endFrag, availableSize)
        else expandScan m newSize fuel endFrag availableSize

def absorbUntil (fragment terminatingValue : ℕ) : ℕ → Memory → Option Memory
  | 0, _ => none
  | fuel + 1, m => do
    let dyingFragment ← Queue.next blockLink m fragment
    if dyingFragment = terminatingValue then return m
    else absorbUntil fragment terminatingValue fuel (← absorb m fragment dyingFragment)

section Calls

-- The address of `free_list`, and the rounds a loop may take.
variable (freeList fuel : ℕ)

def shrinkFragment (m : Memory) (fragment newSize : ℕ) : Option Memory := do
  let remainingSize := wsub 64 (← size m fragment) newSize
  if headerSize < remainingSize then
    let m ← setSize m fragment newSize
    let newFragment := fragment + headerSize + newSize
    let m ← fragmentInit m newFragment (remainingSize - headerSize)
    let m ← Queue.insertAfter blockLink m fragment newFragment
    Queue.insertHead freeLink m freeList newFragment
  else return m

def takeFragment (m : Memory) (fragment requiredSize : ℕ) : Option (Memory × ℕ) := do
  let m ← shrinkFragment freeList m fragment requiredSize
  let m ← setInUse m fragment true
  let m ← Queue.remove freeLink m fragment
  return (m, fragment)

def allocateFragment (m : Memory) (requiredSize : ℕ) (mmap : Option ℕ) : Option (Memory × ℕ) := do
  let viable ← viableLoop m requiredSize fuel (← m.load freeList) (0, 0)
  if viable.1 ≠ 0 then takeFragment freeList m viable.1 requiredSize
  else
    match mmap with
    | none => return (m, 0)
    | some block =>
      let allocationSize := roundUp requiredSize blockSizeMultiple
      let m := m.map block allocationSize
      let m ← blockInit m block (wsub 64 allocationSize blockSize)
      let m ← Queue.insertHead freeLink m freeList (block + fragmentOffset)
      takeFragment freeList m (block + fragmentOffset) requiredSize

def releaseFragment (m : Memory) (fragment : ℕ) : Option Memory := do
  let m ← setInUse m fragment false
  let m ← Queue.insertHead freeLink m freeList fragment
  let (m, fragment) ← defragment fuel m fragment
  let base ← isMmapBase m fragment
  if base then
    let block := fragment - fragmentOffset
    let used ← blockInUse m block
    if used then return m
    else
      let m ← Queue.remove freeLink m fragment
      return m.unmap block ((← m.load block) + blockSize)
  else return m

def expandFragment (m : Memory) (fragment newSize : ℕ) : Option (Bool × Memory) := do
  let (endFrag, availableSize) ← expandScan m newSize fuel fragment (← size m fragment)
  if endFrag ≠ 0 ∧ newSize ≤ availableSize then
    let terminatingValue ← Queue.next blockLink m endFrag
    let m ← absorbUntil fragment terminatingValue fuel m
    let m ← shrinkFragment freeList m fragment newSize
    return (true, m)
  else return (false, m)

def xtraceMalloc (m : Memory) (size : ℕ) (mmap : Option ℕ) : Option (Memory × ℕ) :=
  if size = 0 then some (m, 0)
  else do
    let (m, fragment) ← allocateFragment freeList fuel m size mmap
    if fragment = 0 then return (m, 0) else return (m, fragment + headerSize)

def xtraceFree (m : Memory) (pointer : ℕ) : Option Memory :=
  if pointer = 0 then some m else releaseFragment freeList fuel m (pointer - headerSize)

def xtraceRealloc (m : Memory) (oldPointer newSize : ℕ) (mmap : Option ℕ) :
    Option (Memory × ℕ) := do
  let fragment := oldPointer - headerSize
  let oldSize ← size m fragment
  if newSize < oldSize then
    let m ← shrinkFragment freeList m fragment newSize
    return (m, oldPointer)
  else if newSize = oldSize then return (m, oldPointer)
  else
    let (expanded, m) ← expandFragment freeList fuel m fragment newSize
    if expanded then return (m, oldPointer)
    else
      let (m, newFragment) ← allocateFragment freeList fuel m newSize mmap
      if newFragment = 0 then return (m, 0)
      else
        let m ← m.memcpy (newFragment + headerSize) (fragment + headerSize) oldSize
        let m ← releaseFragment freeList fuel m fragment
        return (m, newFragment + headerSize)

end Calls

end Darling.XtraceMalloc
